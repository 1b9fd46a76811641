import ChunkedArray.Proofs.Shape.Boxes
import Mathlib.Tactic.Ring

/-!
# The chunk grid partitions the array

Chunk numbers and grid coordinates determine each other, every element lies in the box of exactly
one chunk, and `intersecting` lists, in ascending order, the chunks that share an element with a box.
-/

namespace ChunkedArray

namespace ChunkGrid

/-- A grid with a positive chunk length for every axis. -/
def Regular (g : ChunkGrid) : Prop :=
  List.Forall₂ (fun _ m => 0 < m) g.shape g.chunks

/-- The grid coordinates of the chunk that holds the element at coordinates `c`. -/
def cellOf (g : ChunkGrid) (c : List Nat) : List Nat :=
  List.zipWith (· / ·) c g.chunks

/-- The number of the chunk that holds the element at coordinates `c`. -/
def chunkOf (g : ChunkGrid) (c : List Nat) : Nat :=
  g.counts.flatten (g.cellOf c)

/-! ## One axis -/

theorem lt_ceilDiv_iff {n m k : Nat} (hm : 0 < m) : k < ceilDiv n m ↔ k * m < n := by
  rw [ceilDiv, Nat.lt_iff_add_one_le, Nat.le_div_iff_mul_le hm, Nat.succ_mul]
  omega

theorem mem_axisSpan_iff {n m k i : Nat} (hm : 0 < m) (hi : i < n) :
    ((axisSpan n m k).start ≤ i ∧ i < (axisSpan n m k).stop) ↔ i / m = k := by
  rw [Nat.div_eq_iff hm, axisSpan]
  dsimp only
  omega

/-! ## Numbers and coordinates -/

/-- The number built up from the first axis on is the one of the coordinates in C order. -/
theorem foldl_index_eq_flatten {counts : Shape} {k : List Nat} (h : k.length = counts.length)
    (acc : Nat) :
    (k.zip counts).foldl (fun acc p => acc * p.2 + p.1) acc = acc * counts.size + counts.flatten k := by
  induction counts generalizing k acc with
  | nil =>
    obtain rfl := List.length_eq_zero_iff.1 h
    simp [Shape.size, Shape.flatten]
  | cons n counts ih =>
    obtain ⟨i, k, rfl⟩ := List.exists_cons_of_length_eq_add_one h
    rw [List.zip_cons_cons, List.foldl_cons, ih (by simpa using h), Shape.size, Shape.flatten]
    ring

theorem index_eq_flatten (g : ChunkGrid) {k : List Nat} (h : k.length = g.counts.length) :
    g.index k = g.counts.flatten k := by
  rw [index, foldl_index_eq_flatten h, Nat.zero_mul, Nat.zero_add]

theorem coordsReversed_append (counts : Shape) (n i : Nat) :
    coordsReversed (counts ++ [n]) i = coordsReversed counts i ++ [i / counts.size % n] := by
  induction counts generalizing i with
  | nil => simp [coordsReversed, Shape.size]
  | cons m counts ih =>
    rw [List.cons_append, coordsReversed, coordsReversed, ih, Shape.size, Nat.div_div_eq_div_mul]
    rfl

theorem size_reverse (counts : Shape) : Shape.size counts.reverse = counts.size := by
  induction counts with
  | nil => rfl
  | cons n counts ih =>
    rw [List.reverse_cons, Shape.size_append, ih, Shape.size, Shape.size, Shape.size, Nat.mul_one,
      Nat.mul_comm]

/-- Taken apart from the last axis on, a number gives its coordinates in C order. -/
theorem reverse_coordsReversed (counts : Shape) (i : Nat) :
    (coordsReversed counts.reverse i).reverse = counts.unflatten (i % counts.size) := by
  induction counts with
  | nil => rfl
  | cons n counts ih =>
    rw [List.reverse_cons, coordsReversed_append, List.reverse_append, ih, size_reverse,
      Shape.unflatten, Shape.size, Nat.mul_comm n, Nat.mod_mul_right_div_self,
      Nat.mod_mul_right_mod]
    rfl

/-- The grid coordinates of a chunk are those of its number in C order. -/
theorem coords_eq_unflatten (g : ChunkGrid) {i : Nat} (h : i < g.nchunks) :
    g.coords i = g.counts.unflatten i := by
  rw [coords, reverse_coordsReversed, show i % g.counts.size = i from Nat.mod_eq_of_lt h]

/-- The grid coordinates of a chunk lie inside the grid. -/
theorem holds_coords {g : ChunkGrid} {i : Nat} (h : i < g.nchunks) :
    g.counts.Holds (g.coords i) := by
  rw [coords_eq_unflatten g h]
  exact Shape.holds_unflatten h

section Partition

variable {g : ChunkGrid} {c k : List Nat} {i : Nat}

theorem index_lt (hk : g.counts.Holds k) : g.index k < g.nchunks := by
  rw [index_eq_flatten g hk.length_eq]
  exact Shape.flatten_lt hk

/-- The grid coordinates of an element of the array lie inside the grid. -/
theorem holds_cellOf (hg : g.Regular) (hc : g.shape.Holds c) : g.counts.Holds (g.cellOf c) := by
  obtain ⟨shape, chunks⟩ := g
  simp only [Regular, counts, cellOf] at *
  induction hg generalizing c with
  | nil => cases hc; exact List.Forall₂.nil
  | cons hm _ ih =>
    cases hc with
    | cons hi hrest =>
      refine List.Forall₂.cons ((lt_ceilDiv_iff hm).2 ?_) (ih hrest)
      exact Nat.lt_of_le_of_lt (Nat.div_mul_le_self _ _) hi

theorem chunkOf_lt (hg : g.Regular) (hc : g.shape.Holds c) : g.chunkOf c < g.nchunks :=
  Shape.flatten_lt (holds_cellOf hg hc)

/-- A chunk lies inside the array. -/
theorem chunkBox_inside (hg : g.Regular) (hi : i < g.nchunks) : (g.chunkBox i).Inside g.shape := by
  have hk := holds_coords hi
  rw [chunkBox]
  generalize g.coords i = k at hk
  obtain ⟨shape, chunks⟩ := g
  simp only [Regular, counts] at hg hk ⊢
  clear hi
  induction hg generalizing k with
  | nil => cases hk; exact List.Forall₂.nil
  | cons hm _ ih =>
    cases hk with
    | cons _ hrest => exact List.Forall₂.cons (Nat.min_le_right _ _) (ih _ hrest)

/-- A chunk is no longer than the chunk shape along any axis, and it is not empty. -/
theorem chunkBox_layout (hg : g.Regular) (hi : i < g.nchunks) :
    List.Forall₂ (fun (s : Span) m => s.start < s.stop ∧ s.stop ≤ s.start + m)
      (g.chunkBox i) g.chunks := by
  have hk := holds_coords hi
  rw [chunkBox]
  generalize g.coords i = k at hk
  obtain ⟨shape, chunks⟩ := g
  simp only [Regular, counts] at hg hk ⊢
  clear hi
  induction hg generalizing k with
  | nil => cases hk; exact List.Forall₂.nil
  | cons hm _ ih =>
    cases hk with
    | cons hlt hrest =>
      have hstart := (lt_ceilDiv_iff hm).1 hlt
      refine List.Forall₂.cons ?_ (ih _ hrest)
      simp only [axisSpan]
      omega

/-- An element lies in the box of a chunk exactly if it has the grid coordinates of the chunk. -/
theorem holds_chunkBox_iff_cellOf (hg : g.Regular) (hi : i < g.nchunks) (hc : g.shape.Holds c) :
    (g.chunkBox i).Holds c ↔ g.cellOf c = g.coords i := by
  have hlen : (g.coords i).length = g.shape.length := by
    have hlength := hg.length_eq
    simp [coords, counts]
    omega
  rw [chunkBox]
  generalize g.coords i = k at hlen
  obtain ⟨shape, chunks⟩ := g
  simp only [Regular, cellOf] at hg hlen hc ⊢
  clear hi
  induction hg generalizing c k with
  | nil =>
    cases hc
    obtain rfl := List.length_eq_zero_iff.1 hlen
    simp [Box.Holds]
  | @cons n m shape chunks hm _ ih =>
    cases hc with
    | @cons j _ c _ hj hrest =>
      obtain ⟨kj, k, rfl⟩ := List.exists_cons_of_length_eq_add_one hlen
      have htail := ih k hrest (by simpa using hlen)
      simp only [Box.Holds, List.zip_cons_cons, List.zipWith_cons_cons, List.forall₂_cons,
        List.cons.injEq] at htail ⊢
      exact and_congr (mem_axisSpan_iff hm hj) htail

/-- Every element lies in the box of exactly one chunk. -/
theorem holds_chunkBox_iff (hg : g.Regular) (hi : i < g.nchunks) (hc : g.shape.Holds c) :
    (g.chunkBox i).Holds c ↔ g.chunkOf c = i := by
  rw [holds_chunkBox_iff_cellOf hg hi hc, coords_eq_unflatten g hi, chunkOf]
  constructor
  · intro h
    rw [h, Shape.flatten_unflatten _ _ hi]
  · rintro rfl
    rw [Shape.unflatten_flatten (holds_cellOf hg hc)]

theorem nchunks_pos_iff (hg : g.Regular) : 0 < g.nchunks ↔ 0 < g.shape.size := by
  rw [nchunks, Shape.size_pos_iff, Shape.size_pos_iff]
  obtain ⟨shape, chunks⟩ := g
  simp only [Regular, counts] at hg ⊢
  induction hg with
  | nil => exact Iff.rfl
  | cons hm _ ih =>
    rw [List.zipWith_cons_cons, List.forall_mem_cons, List.forall_mem_cons, ih,
      lt_ceilDiv_iff hm, Nat.zero_mul]

/-- An array without elements is one without chunks. -/
theorem nchunks_eq_zero_iff (hg : g.Regular) : g.nchunks = 0 ↔ g.shape.size = 0 := by
  have hpos := nchunks_pos_iff hg
  omega

end Partition

end ChunkGrid

/-! ## Chunks that meet a box -/

/-- The numbers of the coordinates of a box are in ascending order. -/
theorem Box.pairwise_flatten_coords {box : Box} {shape : Shape} (h : box.Inside shape) :
    (box.coords.map shape.flatten).Pairwise (· < ·) := by
  -- Along the first axis a step is worth a whole row of the axes behind it.
  induction h with
  | nil => simp [coords]
  | @cons s n box shape hs hrest ih =>
    rw [coords, List.map_flatMap, List.pairwise_flatMap]
    constructor
    · intro k _
      rw [List.map_map, List.pairwise_map]
      exact (List.pairwise_map.1 ih).imp fun hlt => by
        simp only [Function.comp_apply, Shape.flatten]
        omega
    · refine List.pairwise_lt_range.imp fun {j k} hjk => ?_
      intro x hx y hy
      obtain ⟨_, hrow, rfl⟩ := List.mem_map.1 hx
      obtain ⟨_, hrow', rfl⟩ := List.mem_map.1 hy
      obtain ⟨c, hc, rfl⟩ := List.mem_map.1 hrow
      obtain ⟨d, hd, rfl⟩ := List.mem_map.1 hrow'
      have hlt : Shape.flatten shape c < Shape.size shape :=
        Shape.flatten_lt (Box.Inside.holds hrest (Box.mem_coords.1 hc))
      simp only [Shape.flatten]
      calc (s.start + j) * Shape.size shape + Shape.flatten shape c
          < (s.start + j) * Shape.size shape + Shape.size shape := by omega
        _ = (s.start + j + 1) * Shape.size shape := (Nat.succ_mul _ _).symm
        _ ≤ (s.start + k) * Shape.size shape := Nat.mul_le_mul_right _ (by omega)
        _ ≤ (s.start + k) * Shape.size shape + Shape.flatten shape d := Nat.le_add_right _ _

namespace ChunkGrid

variable {g : ChunkGrid} {box : Box} {c : List Nat} {i : Nat}

/-- The grid coordinates of the chunks that a box meets. -/
def cellRanges (g : ChunkGrid) (box : Box) : Box :=
  List.zipWith (fun s m => Span.mk (s.start / m) ((s.stop - 1) / m + 1)) box g.chunks

/-- A box that lies in the array and is empty along no axis. -/
def Meets (g : ChunkGrid) (box : Box) : Prop :=
  List.Forall₂ (fun (s : Span) n => s.start < s.stop ∧ s.stop ≤ n) box g.shape

theorem Meets.start_lt_stop (h : g.Meets box) {s : Span} (hs : s ∈ box) : s.start < s.stop := by
  obtain ⟨shape, chunks⟩ := g
  simp only [Meets] at h
  induction h with
  | nil => simp at hs
  | cons hspan _ ih =>
    rcases List.mem_cons.1 hs with rfl | hs
    · exact hspan.1
    · exact ih hs

theorem cellRanges_inside (hg : g.Regular) (hbox : g.Meets box) :
    (g.cellRanges box).Inside g.counts := by
  obtain ⟨shape, chunks⟩ := g
  simp only [Regular, Meets, cellRanges, counts] at *
  induction hg generalizing box with
  | nil => cases hbox; exact List.Forall₂.nil
  | cons hm _ ih =>
    cases hbox with
    | cons hs hrest =>
      refine List.Forall₂.cons ((lt_ceilDiv_iff hm).2 ?_) (ih hrest)
      exact Nat.lt_of_le_of_lt (Nat.div_mul_le_self _ _) (by omega)

/-- The elements of a box have their grid coordinates in the ranges, and every cell in the ranges
holds an element of the box. -/
theorem holds_cellRanges_iff (hg : g.Regular) (hbox : g.Meets box) {k : List Nat} :
    (g.cellRanges box).Holds k ↔ ∃ c, box.Holds c ∧ g.cellOf c = k := by
  obtain ⟨shape, chunks⟩ := g
  simp only [Regular, Meets, cellRanges, cellOf] at *
  induction hg generalizing box k with
  | nil =>
    cases hbox
    constructor
    · intro h
      cases h
      exact ⟨[], List.Forall₂.nil, rfl⟩
    · rintro ⟨c, hc, rfl⟩
      cases hc
      exact List.Forall₂.nil
  | @cons n m shape chunks hm _ ih =>
    cases hbox with
    | @cons s _ box _ hs hrest =>
      constructor
      · intro h
        cases h with
        | @cons kj _ k _ hk htail =>
          obtain ⟨c, hc, rfl⟩ := (ih hrest).1 htail
          dsimp only at hk
          -- The first element of the cell or of the span, whichever comes later.
          refine ⟨max s.start (kj * m) :: c, List.Forall₂.cons ?_ hc, ?_⟩
          · have hle : kj * m ≤ s.stop - 1 := by
              exact (Nat.le_div_iff_mul_le hm).1 (by omega)
            omega
          · rw [List.zipWith_cons_cons]
            congr 1
            rw [Nat.div_eq_iff hm]
            have hlow : s.start < (kj + 1) * m := by
              rw [← Nat.div_lt_iff_lt_mul hm]
              omega
            rw [Nat.succ_mul] at hlow
            omega
      · rintro ⟨c, hc, rfl⟩
        cases hc with
        | @cons i _ c _ hi htail =>
          refine List.Forall₂.cons ⟨Nat.div_le_div_right hi.1, ?_⟩ ((ih hrest).2 ⟨c, htail, rfl⟩)
          exact Nat.lt_succ_of_le (Nat.div_le_div_right (by omega))

/-- The list of chunks that a box meets, by the numbers of their grid coordinates. -/
theorem intersecting_eq (hg : g.Regular) (hbox : g.Meets box) :
    g.intersecting box = (g.cellRanges box).coords.map g.counts.flatten := by
  have hinside : box.Inside g.shape := hbox.imp fun _ _ h => h.2
  have hany : ¬ (box.any Span.isEmpty || g.nchunks == 0) = true := by
    rw [Bool.or_eq_true, not_or]
    constructor
    · rw [List.any_eq_true]
      rintro ⟨s, hs, hempty⟩
      have hlt := hbox.start_lt_stop hs
      simp only [Span.isEmpty, decide_eq_true_eq] at hempty
      omega
    · have horigin : box.Holds box.origin := by
        rw [Box.Holds, Box.origin, List.forall₂_map_left_iff, List.forall₂_same]
        exact fun s hs => ⟨Nat.le_refl _, hbox.start_lt_stop hs⟩
      have hpos := chunkOf_lt hg (hinside.holds horigin)
      simp only [beq_iff_eq]
      omega
  rw [intersecting, if_neg hany]
  refine List.map_congr_left fun k hk => index_eq_flatten g ?_
  exact ((cellRanges_inside hg hbox).holds (Box.mem_coords.1 hk)).length_eq

/-- The chunks that a box meets are listed in ascending order. -/
theorem pairwise_intersecting (hg : g.Regular) (hbox : g.Meets box) :
    (g.intersecting box).Pairwise (· < ·) := by
  rw [intersecting_eq hg hbox]
  exact Box.pairwise_flatten_coords (cellRanges_inside hg hbox)

/-- A chunk is listed exactly if it shares an element with the box. -/
theorem mem_intersecting_iff (hg : g.Regular) (hbox : g.Meets box) :
    i ∈ g.intersecting box ↔ i < g.nchunks ∧ ∃ c, box.Holds c ∧ (g.chunkBox i).Holds c := by
  have hinside : box.Inside g.shape := hbox.imp fun _ _ h => h.2
  rw [intersecting_eq hg hbox, List.mem_map]
  constructor
  · rintro ⟨k, hk, rfl⟩
    obtain ⟨c, hc, rfl⟩ := (holds_cellRanges_iff hg hbox).1 (Box.mem_coords.1 hk)
    have hlt := chunkOf_lt hg (hinside.holds hc)
    exact ⟨hlt, c, hc, (holds_chunkBox_iff hg hlt (hinside.holds hc)).2 rfl⟩
  · rintro ⟨hi, c, hc, hchunk⟩
    refine ⟨g.cellOf c, Box.mem_coords.2 ((holds_cellRanges_iff hg hbox).2 ⟨c, hc, rfl⟩), ?_⟩
    exact (holds_chunkBox_iff hg hi (hinside.holds hc)).1 hchunk

/-! ### Any box inside the array -/

theorem meets_iff : g.Meets box ↔ box.Inside g.shape ∧ box.Nonempty := by
  constructor
  · intro h
    exact ⟨h.imp fun _ _ hs => hs.2, fun _ => h.start_lt_stop⟩
  · rintro ⟨hinside, hne⟩
    exact (List.forall₂_and_left _ _).2 ⟨hne, hinside⟩

/-- Chunks are listed for a box that is not empty, and for no other one. -/
theorem intersecting_of_not_nonempty (h : ¬ box.Nonempty) : g.intersecting box = [] := by
  rw [Box.nonempty_iff, not_not] at h
  rw [intersecting, h, Bool.true_or, if_pos rfl]

end ChunkGrid

end ChunkedArray
