import ChunkedArray.Proofs.Guarded.Grid
import ChunkedArray.Proofs.Shape.Boxes
import ChunkedArray.Shape.Tile
import Mathlib.Algebra.Order.BigOperators.Group.List
import Mathlib.Data.List.MinMax
import Mathlib.Data.Nat.Log
import Mathlib.Logic.Relation

/-!
# Derived tiles

A tile is derived in a loop that counts nothing: while the tile does not fit and some axis is longer
than one, the longest axis is halved, of several the last. What ends it is that a length can be halved
only as often as its binary logarithm says, rounded up; every turn takes one from the sum of these over
all axes. The rounds of `shrinkTile` are no fewer than that sum, so they never run out: it comes through
the tiles of the loop and stops where the loop stops.

Half of a length, rounded up, is neither zero nor longer than the length. So a derived chunk shape has
the rank of the array and no empty axis, and a derived block shape lies inside of the chunk: what is
derived is never refused. Every turn multiplies the lengths of all axes and the item size; if these
products are words before the first turn, they are words in every turn.
-/

namespace ChunkedArray

namespace Shape

/-- A tile that lies in another one, axis by axis, and has no empty axis. -/
def LiesIn (tile outer : Shape) : Prop :=
  List.Forall₂ (fun m n => 0 < m ∧ m ≤ n) tile outer

variable {tile next start outer shape : Shape} {itemsize target : Nat}

theorem liesIn_refl (h : ∀ n ∈ tile, 0 < n) : tile.LiesIn tile :=
  List.forall₂_same.2 fun n hn => ⟨h n hn, Nat.le_refl n⟩

theorem LiesIn.trans {inner : Shape} (h : inner.LiesIn tile) (h' : tile.LiesIn outer) :
    inner.LiesIn outer := by
  induction h generalizing outer with
  | nil => exact h'
  | cons hm _ ih =>
    cases h' with
    | cons hn hrest => exact List.Forall₂.cons ⟨hm.1, hm.2.trans hn.2⟩ (ih hrest)

theorem LiesIn.pos (h : tile.LiesIn outer) : ∀ n ∈ tile, 0 < n := by
  induction h with
  | nil => exact List.forall_mem_nil _
  | cons hm _ ih => exact List.forall_mem_cons.2 ⟨hm.1, ih⟩

theorem LiesIn.size_le (h : tile.LiesIn outer) : size tile ≤ size outer :=
  size_le_of_fitsIn (h.imp fun _ _ hmn => hmn.2)

/-! ## The loop -/

/-- The longest of the axes that are longer than one, of several the last: its length and its place. -/
def longestAxis? (tile : Shape) : Option (Nat × Nat) :=
  (tile.zipIdx.filter (1 < ·.1)).reverse.argmax Prod.fst

/-- One turn of the loop. There is none if the tile fits or has no axis that can be halved. -/
def halving? (itemsize target : Nat) (tile : Shape) : Option Shape :=
  if size tile * itemsize ≤ target then none
  else (longestAxis? tile).map fun p => tile.set p.2 (halve p.1)

/-- A turn of the loop leads from one tile to the next. -/
def Halves (itemsize target : Nat) (tile next : Shape) : Prop :=
  halving? itemsize target tile = some next

theorem longest_cons (n : Nat) (rest : Shape) : longest (n :: rest) = max n (longest rest) :=
  rfl

theorem longest_mem (h : 0 < longest tile) : longest tile ∈ tile := by
  induction tile with
  | nil => cases h
  | cons n rest ih =>
    rw [longest_cons] at h ⊢
    rcases Nat.lt_or_ge n (longest rest) with hlt | hle
    · rw [Nat.max_eq_right hlt.le]
      exact List.mem_cons_of_mem n (ih (by omega))
    · rw [Nat.max_eq_left hle]
      exact List.mem_cons_self

theorem le_longest : ∀ n ∈ tile, n ≤ longest tile := by
  induction tile with
  | nil => exact List.forall_mem_nil _
  | cons n rest ih =>
    rw [longest_cons]
    exact List.forall_mem_cons.2
      ⟨Nat.le_max_left _ _, fun m hm => (ih m hm).trans (Nat.le_max_right _ _)⟩

theorem notMem_of_longest_lt {n : Nat} (h : longest tile < n) : n ∉ tile :=
  fun hmem => h.not_ge (le_longest n hmem)

theorem halveLast_cons_of_notMem {n : Nat} {rest : Shape} (h : n ∉ rest) :
    halveLast n (n :: rest) = halve n :: rest :=
  if_pos ⟨rfl, h⟩

theorem halveLast_cons_of_mem {n length : Nat} {rest : Shape} (h : length ∈ rest) :
    halveLast length (n :: rest) = n :: halveLast length rest :=
  if_neg fun hlast => hlast.2 h

theorem set_cons_halve {n d : Nat} {rest : Shape} (h : 1 < longest rest)
    (hset : rest.set d (halve (longest rest)) = halveLast (longest rest) rest) :
    (n :: rest).set (d + 1) (halve (longest rest)) = halveLast (longest rest) (n :: rest) := by
  rw [List.set_cons_succ, hset, halveLast_cons_of_mem (longest_mem (by omega))]

/-- The search with its places counted from `k` on: those of the axes behind the first are counted from
one. -/
theorem argmax_zipIdx_cases (tile : Shape) (k : Nat) :
    longest tile ≤ 1 ∧ ((tile.zipIdx k).filter (1 < ·.1)).reverse.argmax Prod.fst = none ∨
      1 < longest tile ∧ ∃ d,
        ((tile.zipIdx k).filter (1 < ·.1)).reverse.argmax Prod.fst = some (longest tile, k + d) ∧
        tile.set d (halve (longest tile)) = halveLast (longest tile) tile := by
  induction tile generalizing k with
  | nil => exact .inl ⟨Nat.zero_le 1, rfl⟩
  | cons n rest ih =>
    rw [List.zipIdx_cons, longest_cons]
    by_cases hn : 1 < n
    · right
      rw [List.filter_cons_of_pos (by simpa using hn), List.reverse_cons, List.argmax_concat]
      rcases ih (k + 1) with ⟨hone, hnone⟩ | ⟨hone, d, hsome, hset⟩
      · rw [hnone, Nat.max_eq_left (by omega)]
        have hnot : n ∉ rest := notMem_of_longest_lt (by omega)
        exact ⟨hn, 0, rfl, (halveLast_cons_of_notMem hnot).symm⟩
      · rw [hsome]
        dsimp only
        -- The search comes from the end, and an axis takes the place of one behind it only if it is longer.
        by_cases hlt : longest rest < n
        · rw [if_pos hlt, Nat.max_eq_left hlt.le]
          exact ⟨hn, 0, rfl, (halveLast_cons_of_notMem (notMem_of_longest_lt hlt)).symm⟩
        · rw [if_neg hlt, Nat.max_eq_right (by omega), Nat.add_right_comm, Nat.add_assoc]
          exact ⟨hone, d + 1, rfl, set_cons_halve hone hset⟩
    · rw [List.filter_cons_of_neg (by simpa using hn)]
      rcases ih (k + 1) with ⟨hone, hnone⟩ | ⟨hone, d, hsome, hset⟩
      · exact .inl ⟨by omega, hnone⟩
      · right
        rw [Nat.max_eq_right (by omega), hsome, Nat.add_right_comm, Nat.add_assoc]
        exact ⟨hone, d + 1, rfl, set_cons_halve hone hset⟩

/-- The axis that is found is the last of the longest ones; if they are no longer than one, none is. -/
theorem longestAxis?_cases (tile : Shape) :
    longest tile ≤ 1 ∧ longestAxis? tile = none ∨
      1 < longest tile ∧ ∃ d, longestAxis? tile = some (longest tile, d) ∧
        tile.set d (halve (longest tile)) = halveLast (longest tile) tile := by
  simpa [longestAxis?] using argmax_zipIdx_cases tile 0

/-- A turn halves the last of the longest axes. -/
theorem halving?_eq (itemsize target : Nat) (tile : Shape) : halving? itemsize target tile =
    if size tile * itemsize ≤ target ∨ longest tile ≤ 1 then none
    else some (halveLast (longest tile) tile) := by
  rw [halving?]
  by_cases hfits : size tile * itemsize ≤ target
  · rw [if_pos hfits, if_pos (.inl hfits)]
  · rw [if_neg hfits]
    rcases longestAxis?_cases tile with ⟨hone, hnone⟩ | ⟨hone, d, hsome, hset⟩
    · rw [hnone, if_pos (.inr hone)]
      rfl
    · rw [hsome, if_neg (by omega), Option.map_some, hset]

theorem halves_iff : Halves itemsize target tile next ↔
    target < size tile * itemsize ∧ 1 < longest tile ∧ next = halveLast (longest tile) tile := by
  rw [Halves, halving?_eq]
  split
  · exact ⟨fun h => (Option.some_ne_none _ h.symm).elim, fun h => by omega⟩
  · rw [Option.some.injEq]
    exact ⟨fun h => ⟨by omega, by omega, h.symm⟩, fun h => h.2.2.symm⟩

/-- Where the loop stops, the tile fits or has no axis longer than one. -/
theorem halving?_eq_none_iff : halving? itemsize target tile = none ↔
    size tile * itemsize ≤ target ∨ ∀ n ∈ tile, n ≤ 1 := by
  have hlongest : longest tile ≤ 1 ↔ ∀ n ∈ tile, n ≤ 1 := by
    constructor
    · exact fun h n hn => (le_longest n hn).trans h
    · intro h
      by_contra hone
      exact hone (h _ (longest_mem (by omega)))
  rw [halving?_eq, ← hlongest]
  split
  · next h => exact ⟨fun _ => h, fun _ => rfl⟩
  · next h => exact ⟨fun hsome => (Option.some_ne_none _ hsome).elim, fun h' => absurd h' h⟩

/-! ## The loop ends -/

/-- The halvings that a tile has left: an axis has as many as its binary logarithm, rounded up. -/
def halvingsLeft (tile : Shape) : Nat :=
  (tile.map (Nat.clog 2)).sum

theorem clog_halve {n : Nat} (h : 1 < n) : Nat.clog 2 n = Nat.clog 2 (halve n) + 1 :=
  Nat.clog_of_two_le Nat.one_lt_two h

theorem halvingsLeft_halveLast {length : Nat} (h : 1 < length) (hmem : length ∈ tile) :
    halvingsLeft tile = halvingsLeft (halveLast length tile) + 1 := by
  induction tile with
  | nil => cases hmem
  | cons n rest ih =>
    by_cases hrest : length ∈ rest
    · have hleft := ih hrest
      rw [halveLast_cons_of_mem hrest]
      simp only [halvingsLeft, List.map_cons, List.sum_cons] at hleft ⊢
      omega
    · obtain rfl : length = n := (List.mem_cons.1 hmem).resolve_right hrest
      rw [halveLast_cons_of_notMem hrest]
      simp only [halvingsLeft, List.map_cons, List.sum_cons, clog_halve h]
      omega

/-- A turn takes one from the halvings that are left. -/
theorem Halves.halvingsLeft_eq (h : Halves itemsize target tile next) :
    halvingsLeft tile = halvingsLeft next + 1 := by
  obtain ⟨-, hone, rfl⟩ := halves_iff.1 h
  exact halvingsLeft_halveLast hone (longest_mem (by omega))

/-- There is no run of the loop that goes on forever. -/
theorem wellFounded_halves (itemsize target : Nat) :
    WellFounded fun next tile => Halves itemsize target tile next := by
  refine (measure halvingsLeft).wf.mono fun next tile h => ?_
  change halvingsLeft next < halvingsLeft tile
  rw [Halves.halvingsLeft_eq h]
  exact Nat.lt_succ_self _

/-- The rounds that a derived tile is given are no fewer than the halvings that are left. -/
theorem halvingsLeft_le_halvings (tile : Shape) : halvingsLeft tile ≤ halvings tile := by
  refine List.sum_le_sum fun n _ => ?_
  have hlt : n < 2 ^ (n.log2 + 1) := Nat.lt_log2_self
  exact Nat.clog_le_of_le_pow hlt.le

/-- In enough rounds a tile comes to where the loop stops. -/
theorem shrinkTile_stops {rounds : Nat} (h : halvingsLeft tile ≤ rounds) :
    Relation.ReflTransGen (Halves itemsize target) tile (shrinkTile itemsize target rounds tile) ∧
      halving? itemsize target (shrinkTile itemsize target rounds tile) = none := by
  -- On the rounds: every turn takes one halving off what is left, so they last.
  induction rounds generalizing tile with
  | zero =>
    refine ⟨.refl, ?_⟩
    cases hturn : halving? itemsize target tile with
    | none => exact hturn
    | some next =>
      have hleft := Halves.halvingsLeft_eq hturn
      omega
  | succ rounds ih =>
    rw [shrinkTile]
    split
    · next hfits => exact ⟨.refl, halving?_eq_none_iff.2 (.inl hfits)⟩
    split
    · next hone =>
      exact ⟨.refl, halving?_eq_none_iff.2 (.inr fun n hn => (le_longest n hn).trans hone)⟩
    · have hturn : Halves itemsize target tile (halveLast (longest tile) tile) :=
        halves_iff.2 ⟨by omega, by omega, rfl⟩
      have hleft := hturn.halvingsLeft_eq
      obtain ⟨hrun, hstop⟩ := @ih (halveLast (longest tile) tile) (by omega)
      exact ⟨hrun.head hturn, hstop⟩

/-! ## Tiles on the way -/

theorem halveLast_liesIn (length : Nat) (h : ∀ n ∈ tile, 0 < n) :
    (halveLast length tile).LiesIn tile := by
  induction tile with
  | nil => exact List.Forall₂.nil
  | cons n rest ih =>
    obtain ⟨hn, hrest⟩ := List.forall_mem_cons.1 h
    rw [halveLast]
    split
    · refine List.Forall₂.cons ?_ (liesIn_refl hrest)
      rw [halve]
      omega
    · exact List.Forall₂.cons ⟨hn, Nat.le_refl n⟩ (ih hrest)

theorem Halves.liesIn (h : Halves itemsize target tile next) (hpos : ∀ n ∈ tile, 0 < n) :
    next.LiesIn tile := by
  obtain ⟨-, -, rfl⟩ := halves_iff.1 h
  exact halveLast_liesIn _ hpos

/-- Every tile that the loop comes through lies in the one that it started from. -/
theorem liesIn_of_halves (h : Relation.ReflTransGen (Halves itemsize target) start tile)
    (hpos : ∀ n ∈ start, 0 < n) : tile.LiesIn start := by
  induction h with
  | refl => exact liesIn_refl hpos
  | tail _ hturn ih => exact (hturn.liesIn ih.pos).trans ih

/-! ## Derived tiles -/

theorem map_max_one (h : ∀ n ∈ shape, 0 < n) : (shape.map fun n => max n 1) = shape :=
  (List.map_congr_left fun n hn => Nat.max_eq_left (h n hn)).trans (List.map_id' shape)

theorem map_max_one_pos (shape : Shape) : ∀ n ∈ shape.map fun n => max n 1, 0 < n := by
  intro n hn
  obtain ⟨m, -, rfl⟩ := List.mem_map.1 hn
  exact Nat.lt_of_lt_of_le Nat.one_pos (Nat.le_max_right m 1)

/-- The loop that starts at a shape, an empty axis of which counts as one of length one, stops at the
derived tile. -/
theorem defaultTile_stops (shape : Shape) (itemsize target : Nat) :
    Relation.ReflTransGen (Halves itemsize target) (shape.map fun n => max n 1)
        (defaultTile shape itemsize target) ∧
      halving? itemsize target (defaultTile shape itemsize target) = none :=
  shrinkTile_stops (halvingsLeft_le_halvings _)

/-- A derived tile lies in the shape, an empty axis of which counts as one of length one. -/
theorem defaultTile_liesIn (shape : Shape) (itemsize target : Nat) :
    (defaultTile shape itemsize target).LiesIn (shape.map fun n => max n 1) :=
  liesIn_of_halves (defaultTile_stops shape itemsize target).1 (map_max_one_pos shape)

/-- A tile derived from a shape without empty axes lies in the shape. -/
theorem defaultTile_liesIn_self (h : ∀ n ∈ outer, 0 < n) (itemsize target : Nat) :
    (defaultTile outer itemsize target).LiesIn outer := by
  have hderived := defaultTile_liesIn outer itemsize target
  rwa [map_max_one h] at hderived

/-! ## Resolved shapes -/

/-- A block shape inside of the chunk shape is accepted. -/
theorem any_zip_eq_false (h : tile.LiesIn outer) :
    ((tile.zip outer).any fun p => p.1 == 0 || p.2 < p.1) = false := by
  induction h with
  | nil => rfl
  | cons hm _ ih =>
    rw [List.zip_cons_cons, List.any_cons, ih, Bool.or_false, Bool.or_eq_false_iff]
    exact ⟨beq_eq_false_iff_ne.2 hm.1.ne', decide_eq_false (Nat.not_lt.2 hm.2)⟩

/-- A chunk shape, given or derived, is accepted if it has the rank of the array and no empty axis; the
block shape derived from it is never refused. -/
theorem resolveGeometry_none_eq_ok {chunks : Option Shape} {block : Shape} :
    resolveGeometry shape itemsize chunks none = .ok (tile, block) ↔
      tile = chunks.getD (defaultTile shape itemsize defaultChunkSize) ∧
        (tile.length = shape.length ∧ 0 ∉ tile) ∧
        block = defaultTile tile itemsize defaultBlockSize := by
  rw [resolveGeometry]
  dsimp only [Option.getD_none]
  generalize chunks.getD (defaultTile shape itemsize defaultChunkSize) = given
  by_cases hlen : given.length = shape.length
  · by_cases hzero : 0 ∈ given
    · rw [if_neg (not_not.2 hlen), if_pos hzero]
      constructor
      · intro h
        cases h
      · rintro ⟨rfl, h, -⟩
        exact absurd hzero h.2
    · have hpos : ∀ n ∈ given, 0 < n := fun n hn => Nat.pos_of_ne_zero fun h0 => hzero (h0 ▸ hn)
      -- The derived block lies in its chunk, so the last check cannot refuse it.
      have hblocks := defaultTile_liesIn_self hpos itemsize defaultBlockSize
      have hfits : ¬ ((defaultTile given itemsize defaultBlockSize).length ≠ given.length ∨
          (((defaultTile given itemsize defaultBlockSize).zip given).any fun p =>
            p.1 == 0 || p.2 < p.1) = true) := by
        rw [any_zip_eq_false hblocks]
        simpa using hblocks.length_eq
      rw [if_neg (not_not.2 hlen), if_neg hzero, if_neg hfits, Except.ok.injEq, Prod.mk.injEq]
      constructor
      · rintro ⟨rfl, rfl⟩
        exact ⟨rfl, ⟨hlen, hzero⟩, rfl⟩
      · rintro ⟨rfl, -, rfl⟩
        exact ⟨rfl, rfl⟩
  · rw [if_pos hlen]
    constructor
    · intro h
      cases h
    · rintro ⟨rfl, h, -⟩
      exact absurd h.1 hlen

/-- Derived chunk and block shapes are accepted. -/
theorem exists_resolveGeometry_none (shape : Shape) (itemsize : Nat) :
    ∃ tiles, resolveGeometry shape itemsize none none = .ok tiles := by
  have hchunks := defaultTile_liesIn shape itemsize defaultChunkSize
  have hlen : (defaultTile shape itemsize defaultChunkSize).length = shape.length :=
    hchunks.length_eq.trans (List.length_map _)
  have hzero : 0 ∉ defaultTile shape itemsize defaultChunkSize :=
    fun h => absurd (hchunks.pos 0 h) (Nat.lt_irrefl 0)
  exact ⟨_, resolveGeometry_none_eq_ok.2 ⟨rfl, ⟨hlen, hzero⟩, rfl⟩⟩

end Shape

/-! ## Turns under guards -/

namespace Guarded

/-- One turn of the loop that derives a tile. -/
def halving? (itemsize target : Nat) (tile : Shape) : Guarded (Option Shape) := do
  let count ← tile.foldlM mul 1
  let bytes ← mul count itemsize
  if bytes ≤ target then pure none
  else
    match Shape.longestAxis? tile with
    | none => pure none
    | some (n, axis) => do
      let half ← ceilDiv n 2
      pure (some (tile.set axis half))

variable {tile start : Shape} {itemsize target : Nat}

/-- A turn needs no guard if the elements of the tile and their bytes are counted by words. -/
theorem halving?_eq (hpos : ∀ n ∈ tile, 0 < n) (hcount : tile.size < 2 ^ 64)
    (hbytes : tile.size * itemsize < 2 ^ 64) :
    halving? itemsize target tile = pure (Shape.halving? itemsize target tile) := by
  have hproduct : tile.foldlM mul 1 = pure tile.size := by
    rw [foldlM_mul_eq, Nat.one_mul]
    rwa [Nat.one_mul, Shape.map_max_one hpos]
  rw [halving?, hproduct, pure_bind, mul_of_lt hbytes, pure_bind, Shape.halving?]
  split
  · rfl
  · cases Shape.longestAxis? tile with
    | none => rfl
    | some p =>
      dsimp only
      rw [ceilDiv_of_pos Nat.two_pos, pure_bind]
      rfl

/-- No turn of the loop needs a guard if the first one needs none. -/
theorem halving?_eq_of_halves (hpos : ∀ n ∈ start, 0 < n) (hcount : start.size < 2 ^ 64)
    (hbytes : start.size * itemsize < 2 ^ 64)
    (h : Relation.ReflTransGen (Shape.Halves itemsize target) start tile) :
    halving? itemsize target tile = pure (Shape.halving? itemsize target tile) := by
  have htile := Shape.liesIn_of_halves h hpos
  have hsize := htile.size_le
  exact halving?_eq htile.pos (hsize.trans_lt hcount)
    ((Nat.mul_le_mul_right itemsize hsize).trans_lt hbytes)

end Guarded

namespace Shape

/-! ## Default geometry -/

/-- No run of the loop that derives a tile goes on forever, and the run from a shape, an empty axis of
which counts as one of length one, stops at the derived tile; no product of it is more than a word if
those of the first turn are words. The derived tile has the rank of the shape, no axis that is empty or
longer than that of the shape, and no more bytes than the target unless every axis has length one. So the
derived chunk and block shapes are accepted together; a given chunk shape is accepted with the block shape
derived from it exactly if it has the rank of the array and no empty axis, and in every accepted geometry
the derived block lies inside of the chunk. -/
theorem defaultTile_fits (shape : Shape) (itemsize target : Nat) :
    let start : Shape := shape.map fun n => max n 1
    let tile := defaultTile shape itemsize target
    (WellFounded fun next tile => Halves itemsize target tile next) ∧
    Relation.ReflTransGen (Halves itemsize target) start tile ∧
    halving? itemsize target tile = none ∧
    (start.size < 2 ^ 64 → start.size * itemsize < 2 ^ 64 →
      ∀ t, Relation.ReflTransGen (Halves itemsize target) start t →
        Guarded.halving? itemsize target t = pure (halving? itemsize target t)) ∧
    tile.LiesIn start ∧
    (tile.size * itemsize ≤ target ∨ ∀ n ∈ tile, n = 1) ∧
    (∃ block, resolveGeometry shape itemsize none none =
      .ok (defaultTile shape itemsize defaultChunkSize, block)) ∧
    (∀ chunks, (∃ tiles, resolveGeometry shape itemsize (some chunks) none = .ok tiles) ↔
      chunks.length = shape.length ∧ 0 ∉ chunks) ∧
    ∀ given chunks block, resolveGeometry shape itemsize given none = .ok (chunks, block) →
      chunks = given.getD (defaultTile shape itemsize defaultChunkSize) ∧
      block = defaultTile chunks itemsize defaultBlockSize ∧ block.LiesIn chunks := by
  intro start tile
  have hpos : ∀ n ∈ start, 0 < n := map_max_one_pos shape
  obtain ⟨hrun, hstop⟩ := defaultTile_stops shape itemsize target
  have hlies : tile.LiesIn start := defaultTile_liesIn shape itemsize target
  refine ⟨wellFounded_halves itemsize target, hrun, hstop,
    fun hcount hbytes t ht => Guarded.halving?_eq_of_halves hpos hcount hbytes ht, hlies, ?_, ?_,
    fun chunks => ?_, fun given chunks block h => ?_⟩
  · refine (halving?_eq_none_iff.1 hstop).imp_right fun hone n hn => ?_
    exact Nat.le_antisymm (hone n hn) (hlies.pos n hn)
  · obtain ⟨⟨chunks, block⟩, h⟩ := exists_resolveGeometry_none shape itemsize
    obtain ⟨rfl, -⟩ := resolveGeometry_none_eq_ok.1 h
    exact ⟨block, h⟩
  · constructor
    · rintro ⟨⟨given, block⟩, h⟩
      obtain ⟨rfl, haccepted, -⟩ := resolveGeometry_none_eq_ok.1 h
      exact haccepted
    · exact fun haccepted => ⟨_, resolveGeometry_none_eq_ok.2 ⟨rfl, haccepted, rfl⟩⟩
  · obtain ⟨hchunks, ⟨-, hzero⟩, hblock⟩ := resolveGeometry_none_eq_ok.1 h
    refine ⟨hchunks, hblock, ?_⟩
    rw [hblock]
    exact defaultTile_liesIn_self (fun n hn => Nat.pos_of_ne_zero fun h0 => hzero (h0 ▸ hn)) itemsize _

/-- Items of eight bytes in an array with an empty axis: the other two axes are halved in turns, the last
one first. The chunk takes three turns and the block four. -/
theorem defaultTile_fits_empty_axis :
    let start : Shape := [1000, 1, 1000]
    start.size < 2 ^ 64 ∧ start.size * 8 < 2 ^ 64 ∧
      Halves 8 defaultChunkSize start [1000, 1, 500] ∧
      Guarded.halving? 8 defaultChunkSize [1000, 1, 500] = pure (some [500, 1, 500]) ∧
      defaultTile [1000, 0, 1000] 8 defaultChunkSize = [500, 1, 250] ∧
      resolveGeometry [1000, 0, 1000] 8 none none = .ok ([500, 1, 250], [125, 1, 63]) ∧
      LiesIn [125, 1, 63] [500, 1, 250] := by
  intro start
  have hcount : start.size < 2 ^ 64 := by decide
  have hbytes : start.size * 8 < 2 ^ 64 := by decide
  have hturn : Halves 8 defaultChunkSize start [1000, 1, 500] := by
    unfold Halves
    decide
  have hnext : halving? 8 defaultChunkSize [1000, 1, 500] = some [500, 1, 500] := by decide
  have hchunks : defaultTile [1000, 0, 1000] 8 defaultChunkSize = [500, 1, 250] := by decide
  have hblock : defaultTile [500, 1, 250] 8 defaultBlockSize = [125, 1, 63] := by decide
  obtain ⟨-, -, -, hwords, -, -, ⟨block, hresolve⟩, -, hinside⟩ :=
    defaultTile_fits [1000, 0, 1000] 8 defaultChunkSize
  obtain ⟨-, heq, hlies⟩ := hinside none _ block hresolve
  rw [hchunks, hblock] at heq
  rw [hchunks, heq] at hresolve hlies
  have hguarded := hwords hcount hbytes _ (.single hturn)
  exact ⟨hcount, hbytes, hturn, hguarded.trans (congrArg pure hnext), hchunks, hresolve, hlies⟩

end Shape

end ChunkedArray
