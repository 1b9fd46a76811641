import ChunkedArray.Proofs.Guarded.Basic
import ChunkedArray.Proofs.Shape.Grid

/-!
# The chunk grid under guards

A grid multiplies counts of chunks and places chunks by multiples of their lengths. The last chunk of an
axis ends behind the array before it is cut off, so the numbers of the array being words is not enough.
It is enough that the chunks laid side by side have fewer elements than there are words: then neither the
number of chunks nor a chunk's number, its place or its end goes beyond a word, and no count by which is
divided is zero.
-/

namespace ChunkedArray

/-- The number of elements of all chunks laid side by side; an axis without chunks counts as one with a
single chunk. -/
def ChunkGrid.paddedSize (g : ChunkGrid) : Nat :=
  Shape.size (List.zipWith (fun n m => max (ChunkGrid.ceilDiv n m) 1 * m) g.shape g.chunks)

namespace Guarded

/-- A remainder by a number other than zero. -/
def mod (a b : Nat) : Guarded Nat := do
  require (b ≠ 0)
  pure (a % b)

/-- The number of chunks along every axis. -/
def counts (g : ChunkGrid) : Guarded Shape :=
  (g.shape.zip g.chunks).mapM fun p => ceilDiv p.1 p.2

/-- The number of chunks, multiplied up from the first axis on. -/
def nchunks (g : ChunkGrid) : Guarded Nat :=
  g.counts.foldlM mul 1

/-- The grid coordinates that remain of a chunk number, from the last axis on. -/
def coordsReversed : Shape → Nat → Guarded (List Nat)
  | [], _ => pure []
  | n :: rest, i => do
    let k ← mod i n
    let i ← div i n
    let ks ← coordsReversed rest i
    pure (k :: ks)

/-- The grid coordinates of a chunk. -/
def coords (g : ChunkGrid) (i : Nat) : Guarded (List Nat) := do
  let ks ← coordsReversed g.counts.reverse i
  pure ks.reverse

/-- The number of the chunk at the given grid coordinates. -/
def chunkNumber (g : ChunkGrid) (ks : List Nat) : Guarded Nat :=
  (ks.zip g.counts).foldlM (fun acc p => do
    let before ← mul acc p.2
    add before p.1) 0

/-- The span of a chunk along an axis. -/
def axisSpan (n chunk k : Nat) : Guarded Span := do
  let start ← mul k chunk
  let stop ← add start chunk
  pure ⟨start, min stop n⟩

/-- The elements of a chunk that lie inside the array. -/
def chunkBox (g : ChunkGrid) (i : Nat) : Guarded Box := do
  let ks ← coords g i
  (ks.zip (g.shape.zip g.chunks)).mapM fun p => axisSpan p.2.1 p.2.2 p.1

/-- The chunks along an axis that a span meets. -/
def cellRange (s : Span) (chunk : Nat) : Guarded Span := do
  let first ← div s.start chunk
  let final ← sub s.stop 1
  let last ← div final chunk
  let stop ← add last 1
  pure ⟨first, stop⟩

/-- The chunks that a box touches. -/
def intersecting (g : ChunkGrid) (box : Box) : Guarded (List Nat) :=
  if box.any Span.isEmpty then pure []
  else do
    let n ← nchunks g
    if n = 0 then pure []
    else do
      let ranges ← (box.zip g.chunks).mapM fun p => cellRange p.1 p.2
      (Box.coords ranges).mapM (chunkNumber g)

/-! ## Words suffice -/

variable {g : ChunkGrid} {box : Box} {ks : List Nat} {i : Nat}

/-- A product of counts is a word if it is one with every count taken as one at least. -/
theorem foldlM_mul_eq {counts : Shape} {acc : Nat}
    (h : acc * Shape.size (counts.map (max · 1)) < 2 ^ 64) :
    counts.foldlM mul acc = pure (acc * counts.size) := by
  induction counts generalizing acc with
  | nil => rw [List.foldlM_nil, Shape.size, Nat.mul_one]
  | cons n counts ih =>
    rw [List.map_cons, Shape.size, ← Nat.mul_assoc] at h
    have hpos : 0 < Shape.size (counts.map (max · 1)) := by
      refine Shape.size_pos_iff.2 fun m hm => ?_
      obtain ⟨k, -, rfl⟩ := List.mem_map.1 hm
      exact Nat.lt_of_lt_of_le Nat.one_pos (Nat.le_max_right k 1)
    have hrest : acc * n * Shape.size (counts.map (max · 1)) < 2 ^ 64 :=
      lt_of_le_of_lt (Nat.mul_le_mul_right _ (Nat.mul_le_mul_left acc (Nat.le_max_left n 1))) h
    have hword : acc * n < 2 ^ 64 := lt_of_le_of_lt (Nat.le_mul_of_pos_right _ hpos) hrest
    rw [List.foldlM_cons, mul_of_lt hword, pure_bind, ih hrest, Shape.size, Nat.mul_assoc]

theorem paddedSize_pos (hg : g.Regular) : 0 < g.paddedSize := by
  obtain ⟨shape, chunks⟩ := g
  simp only [ChunkGrid.Regular, ChunkGrid.paddedSize] at hg ⊢
  induction hg with
  | nil => exact Nat.one_pos
  | cons hm _ ih => exact Nat.mul_pos (Nat.mul_pos (lt_max_of_lt_right Nat.one_pos) hm) ih

theorem size_counts_le (hg : g.Regular) :
    Shape.size (g.counts.map (max · 1)) ≤ g.paddedSize := by
  obtain ⟨shape, chunks⟩ := g
  simp only [ChunkGrid.Regular, ChunkGrid.counts, ChunkGrid.paddedSize] at hg ⊢
  induction hg with
  | nil => exact le_rfl
  | cons hm _ ih => exact Nat.mul_le_mul (Nat.le_mul_of_pos_right _ hm) ih

theorem nchunks_lt (hg : g.Regular) (hwords : g.paddedSize < 2 ^ 64) : g.nchunks < 2 ^ 64 := by
  have hfits : Shape.FitsIn g.counts (g.counts.map (max · 1)) :=
    List.forall₂_map_right_iff.2 (List.forall₂_same.2 fun n _ => Nat.le_max_left n 1)
  exact lt_of_le_of_lt ((Shape.size_le_of_fitsIn hfits).trans (size_counts_le hg)) hwords

theorem nchunks_eq (hg : g.Regular) (hwords : g.paddedSize < 2 ^ 64) :
    nchunks g = pure g.nchunks := by
  rw [nchunks, foldlM_mul_eq, Nat.one_mul]
  · rfl
  · rw [Nat.one_mul]
    exact lt_of_le_of_lt (size_counts_le hg) hwords

/-- The number that is built up from the first axis on stays below the number of chunks that the axes so
far have. -/
theorem foldlM_chunkNumber_eq {counts : Shape} (hk : counts.Holds ks) {acc : Nat}
    (h : (acc + 1) * counts.size ≤ 2 ^ 64) :
    (ks.zip counts).foldlM (fun acc p => do
      let before ← mul acc p.2
      add before p.1) acc =
      (pure ((ks.zip counts).foldl (fun acc p => acc * p.2 + p.1) acc) : Guarded Nat) := by
  induction hk generalizing acc with
  | nil => rfl
  | @cons k n ks counts hlt hrest ih =>
    have hpos : 0 < Shape.size counts := Shape.size_pos_of_holds hrest
    have hnext : acc * n + k + 1 ≤ (acc + 1) * n := by
      rw [Nat.succ_mul]
      omega
    have hbound : (acc * n + k + 1) * Shape.size counts ≤ 2 ^ 64 :=
      (Nat.mul_le_mul_right _ hnext).trans (by rwa [Nat.mul_assoc])
    have hword : acc * n + k + 1 ≤ 2 ^ 64 := (Nat.le_mul_of_pos_right _ hpos).trans hbound
    have hbefore : mul acc n = pure (acc * n) := mul_of_lt (by omega)
    have hnumber : add (acc * n) k = pure (acc * n + k) := add_of_lt (by omega)
    rw [List.zip_cons_cons, List.foldlM_cons, List.foldl_cons]
    simp only [hbefore, hnumber, pure_bind, ih hbound]

theorem chunkNumber_eq (hsize : g.nchunks < 2 ^ 64) (hk : g.counts.Holds ks) :
    chunkNumber g ks = pure (g.index ks) := by
  refine foldlM_chunkNumber_eq hk ?_
  rw [Nat.zero_add, Nat.one_mul]
  exact hsize.le

/-! ### Along an axis -/

/-- The chunks of every axis, laid end to end, end at a word. -/
theorem forall_axis_lt (hg : g.Regular) (hwords : g.paddedSize < 2 ^ 64) :
    List.Forall₂ (fun n m => 0 < m ∧ ChunkGrid.ceilDiv n m * m < 2 ^ 64) g.shape g.chunks := by
  obtain ⟨shape, chunks⟩ := g
  simp only [ChunkGrid.Regular, ChunkGrid.paddedSize] at hg hwords ⊢
  induction hg with
  | nil => exact List.Forall₂.nil
  | @cons n m shape chunks hm hrest ih =>
    have hone : 1 ≤ max (ChunkGrid.ceilDiv n m) 1 * m :=
      Nat.mul_pos (lt_max_of_lt_right Nat.one_pos) hm
    have hpos := paddedSize_pos (g := ⟨shape, chunks⟩) hrest
    rw [List.zipWith_cons_cons, Shape.size] at hwords
    refine List.Forall₂.cons ⟨hm, ?_⟩ (ih (lt_of_le_of_lt (Nat.le_mul_of_pos_left _ hone) hwords))
    calc ChunkGrid.ceilDiv n m * m ≤ max (ChunkGrid.ceilDiv n m) 1 * m :=
          Nat.mul_le_mul_right m (Nat.le_max_left _ _)
      _ < 2 ^ 64 := lt_of_le_of_lt (Nat.le_mul_of_pos_right _ hpos) hwords

theorem cellRange_eq {s : Span} {n m : Nat} (hm : 0 < m) (hs : s.start < s.stop) (hstop : s.stop ≤ n)
    (hword : ChunkGrid.ceilDiv n m * m < 2 ^ 64) :
    cellRange s m = pure ⟨s.start / m, (s.stop - 1) / m + 1⟩ := by
  have hlast : (s.stop - 1) / m < ChunkGrid.ceilDiv n m :=
    (ChunkGrid.lt_ceilDiv_iff hm).2 (lt_of_le_of_lt (Nat.div_mul_le_self _ _) (by omega))
  have hcount : ChunkGrid.ceilDiv n m ≤ ChunkGrid.ceilDiv n m * m := Nat.le_mul_of_pos_right _ hm
  rw [cellRange, div_of_pos hm, pure_bind, sub_of_le (by omega), pure_bind, div_of_pos hm, pure_bind,
    add_of_lt (by omega), pure_bind]

/-! ### The whole grid -/

theorem forall_cellRange_eq {shape chunks : Shape}
    (haxes : List.Forall₂ (fun n m => 0 < m ∧ ChunkGrid.ceilDiv n m * m < 2 ^ 64) shape chunks)
    (hbox : ChunkGrid.Meets ⟨shape, chunks⟩ box) :
    ∀ p ∈ box.zip chunks, cellRange p.1 p.2 = pure ⟨p.1.start / p.2, (p.1.stop - 1) / p.2 + 1⟩ := by
  simp only [ChunkGrid.Meets] at hbox
  induction haxes generalizing box with
  | nil =>
    cases hbox
    exact List.forall_mem_nil _
  | cons haxis _ ih =>
    cases hbox with
    | cons hs hrest =>
      exact List.forall_mem_cons.2 ⟨cellRange_eq haxis.1 hs.1 hs.2 haxis.2, ih hrest⟩

theorem cellRanges_eq (hg : g.Regular) (hwords : g.paddedSize < 2 ^ 64) (hbox : g.Meets box) :
    (box.zip g.chunks).mapM (fun p => cellRange p.1 p.2) = pure (g.cellRanges box) := by
  rw [mapM_eq_pure (forall_cellRange_eq (forall_axis_lt hg hwords) hbox)]
  exact congrArg pure (List.map_zip_eq_zipWith
    (f := fun (p : Span × Nat) => Span.mk (p.1.start / p.2) ((p.1.stop - 1) / p.2 + 1)))

/-- The chunks that a box inside the array touches are found without a guard. -/
theorem intersecting_eq (hg : g.Regular) (hwords : g.paddedSize < 2 ^ 64)
    (hbox : box.Inside g.shape) : intersecting g box = pure (g.intersecting box) := by
  by_cases hne : box.Nonempty
  · have hmeets := ChunkGrid.meets_iff.2 ⟨hbox, hne⟩
    have hpos : 0 < g.nchunks := by
      have hsize := hbox.size_pos hne
      have hzero := ChunkGrid.nchunks_eq_zero_iff hg
      omega
    have hranges := cellRanges_eq hg hwords hmeets
    have hindices : (g.cellRanges box).coords.mapM (chunkNumber g) =
        pure ((g.cellRanges box).coords.map g.index) := by
      refine mapM_eq_pure fun ks hks => chunkNumber_eq (nchunks_lt hg hwords) ?_
      exact (ChunkGrid.cellRanges_inside hg hmeets).holds (Box.mem_coords.1 hks)
    rw [Box.nonempty_iff] at hne
    rw [intersecting, if_neg hne, nchunks_eq hg hwords, pure_bind, if_neg hpos.ne', hranges, pure_bind,
      hindices, ChunkGrid.intersecting, if_neg (by simp [hne, hpos.ne'])]
    rfl
  · rw [ChunkGrid.intersecting_of_not_nonempty hne, intersecting,
      if_pos (not_not.1 fun h => hne (Box.nonempty_iff.2 h))]

end Guarded

namespace ChunkGrid

end ChunkGrid

end ChunkedArray
