import ChunkedArray.Proofs.Shape.Boxes
import ChunkedArray.Proofs.Shape.Runs
import Mathlib.Data.List.GetD

/-!
# Stepping through a box

A loop that visits a box keeps one row of coordinates and changes it from visit to visit as an odometer
does: the last axis moves on, and an axis that would leave its span starts over and hands the turn to the
one before. No bound on the number of visits is given to the loop. It ends because every step lowers the
number of coordinates that are left (`remaining_lt_of_next?`), and it visits the coordinates of the box
in lexicographic order (`visited_eq_coords`, `pairwise_coords`).

A copy steps in this way through the places of the hits of the axes in front, and at every stop it lays
the merged runs of the last axis where the stop puts them (`Run.loop`). It finds the runs of the walk
(`Run.loop_eq_ofHits`), and these cover every row of hits once, in C order (`Run.covers_product`).
-/

namespace ChunkedArray

namespace Box

/-! ## One step -/

/-- The next coordinates, box and coordinates given from the last axis to the first: the first axis that
has a position left moves on, and those in front of it start over. -/
def nextReversed? : Box → List Nat → Option (List Nat)
  | s :: box, i :: c =>
    if i + 1 < s.stop then some ((i + 1) :: c) else (nextReversed? box c).map (s.start :: ·)
  | _, _ => none

/-- The next coordinates of a box; there are none after the last ones. -/
def next? (box : Box) (c : List Nat) : Option (List Nat) :=
  (nextReversed? box.reverse c.reverse).map List.reverse

/-- How many steps are left at most, box and coordinates given from the last axis to the first. -/
def remaining : Box → List Nat → Nat
  | s :: box, i :: c => (s.stop - 1 - i) + max s.length 1 * remaining box c
  | _, _ => 0

/-- Every step lowers what remains: the axis that moves on has a position less left, and a whole turn of
the axes behind it is worth less than that. -/
theorem remaining_lt_of_nextReversed? {box : Box} {c d : List Nat}
    (h : nextReversed? box c = some d) : remaining box d < remaining box c := by
  induction box generalizing c d with
  | nil => cases h
  | cons s box ih =>
    cases c with
    | nil => cases h
    | cons i c =>
      rw [nextReversed?] at h
      split at h
      · cases h
        simp only [remaining]
        omega
      · obtain ⟨d, hd, rfl⟩ := Option.map_eq_some_iff.1 h
        have hturn : max s.length 1 * (remaining box d + 1) ≤ max s.length 1 * remaining box c :=
          Nat.mul_le_mul_left _ (ih hd)
        have hlength : s.stop - 1 - s.start < max s.length 1 := by
          rw [Span.length]
          omega
        simp only [remaining]
        rw [Nat.mul_succ] at hturn
        omega

theorem remaining_lt_of_next? {box : Box} {c d : List Nat} (h : next? box c = some d) :
    remaining box.reverse d.reverse < remaining box.reverse c.reverse := by
  obtain ⟨d, hd, rfl⟩ := Option.map_eq_some_iff.1 h
  rw [List.reverse_reverse]
  exact remaining_lt_of_nextReversed? hd

/-! ## The loop -/

/-- The coordinates that the loop visits from `c` on. -/
def visitedFrom (box : Box) (c : List Nat) : List (List Nat) :=
  match _h : box.next? c with
  | none => [c]
  | some d => c :: visitedFrom box d
termination_by remaining box.reverse c.reverse
decreasing_by exact remaining_lt_of_next? _h

/-- The coordinates that the loop visits, from the first corner on; none if a span is empty. -/
def visited (box : Box) : List (List Nat) :=
  if box.any Span.isEmpty then [] else box.visitedFrom box.origin

variable {box : Box} {s : Span} {c : List Nat} {i : Nat}

theorem visitedFrom_of_none (h : box.next? c = none) : box.visitedFrom c = [c] := by
  rw [visitedFrom]
  split
  · rfl
  · rename_i hnext
    rw [h] at hnext
    cases hnext

theorem visitedFrom_of_some {d : List Nat} (h : box.next? c = some d) :
    box.visitedFrom c = c :: box.visitedFrom d := by
  rw [visitedFrom]
  split
  · rename_i hnext
    rw [h] at hnext
    cases hnext
  · rename_i hnext
    rw [h] at hnext
    cases hnext
    rfl

/-- An axis behind all others, from the last to the first, moves on when they have been through. -/
theorem nextReversed?_concat (h : c.length = box.length) :
    nextReversed? (box ++ [s]) (c ++ [i]) =
      match nextReversed? box c with
      | some d => some (d ++ [i])
      | none => if i + 1 < s.stop then some (box.origin ++ [i + 1]) else none := by
  induction box generalizing c with
  | nil =>
    obtain rfl := List.length_eq_zero_iff.1 h
    simp only [List.nil_append, nextReversed?, origin, List.map_nil, Option.map_none]
  | cons t box ih =>
    obtain ⟨j, c, rfl⟩ := List.exists_cons_of_length_eq_add_one h
    rw [List.cons_append, List.cons_append, nextReversed?, nextReversed?,
      @ih c (by simpa using h)]
    split
    · rfl
    · cases nextReversed? box c with
      | some d => rfl
      | none =>
        simp only [Option.map_none]
        split <;> rfl

/-- The first axis moves on when those behind it have been through, and they start over then. -/
theorem next?_cons (h : c.length = box.length) : next? (s :: box) (i :: c) =
    match next? box c with
    | some d => some (i :: d)
    | none => if i + 1 < s.stop then some ((i + 1) :: box.origin) else none := by
  rw [next?, next?, List.reverse_cons, List.reverse_cons, nextReversed?_concat (by simpa using h)]
  cases nextReversed? box.reverse c.reverse with
  | some d => simp
  | none =>
    simp only [Option.map_none]
    split <;> simp [origin]

theorem length_of_nextReversed? {d : List Nat} (h : nextReversed? box c = some d) :
    d.length = c.length := by
  induction box generalizing c d with
  | nil => cases h
  | cons s box ih =>
    cases c with
    | nil => cases h
    | cons i c =>
      rw [nextReversed?] at h
      split at h
      · cases h
        rfl
      · obtain ⟨d, hd, rfl⟩ := Option.map_eq_some_iff.1 h
        rw [List.length_cons, List.length_cons, ih hd]

theorem length_of_next? {d : List Nat} (h : box.next? c = some d) : d.length = c.length := by
  obtain ⟨d, hd, rfl⟩ := Option.map_eq_some_iff.1 h
  simpa using length_of_nextReversed? hd

/-- At one position of the first axis the loop goes through the axes behind it, and then to the next
position. -/
theorem visitedFrom_cons (h : c.length = box.length) : visitedFrom (s :: box) (i :: c) =
    (visitedFrom box c).map (i :: ·) ++
      if i + 1 < s.stop then visitedFrom (s :: box) ((i + 1) :: box.origin) else [] := by
  -- On the visits of the axes behind the first one, which moves on after the last of them.
  fun_induction visitedFrom box c with
  | case1 c hnext =>
    have hstep := next?_cons (s := s) (i := i) h
    rw [hnext] at hstep
    dsimp only at hstep
    split
    · rename_i hlt
      rw [if_pos hlt] at hstep
      rw [visitedFrom_of_some hstep]
      rfl
    · rename_i hlt
      rw [if_neg hlt] at hstep
      rw [visitedFrom_of_none hstep]
      rfl
  | case2 c d hnext ih =>
    have hstep := next?_cons (s := s) (i := i) h
    rw [hnext] at hstep
    rw [visitedFrom_of_some hstep, ih ((length_of_next? hnext).trans h), List.map_cons,
      List.cons_append]

/-! ## The whole loop -/

/-- From a position of the first axis on, behind which `n` more follow, every position has a turn of the
axes behind it. -/
theorem visitedFrom_turns (hbehind : box.visitedFrom box.origin = box.coords) {n : Nat}
    (hn : i + n + 1 = s.stop) : visitedFrom (s :: box) (i :: box.origin) =
      (List.range (n + 1)).flatMap fun k => box.coords.map ((i + k) :: ·) := by
  have hlength : box.origin.length = box.length := List.length_map _
  induction n generalizing i with
  | zero =>
    rw [visitedFrom_cons hlength, if_neg (by omega), hbehind]
    simp
  | succ n ih =>
    rw [visitedFrom_cons hlength, if_pos (by omega), hbehind, ih (by omega),
      List.range_succ_eq_map (n := n + 1), List.flatMap_cons, List.flatMap_map]
    simp only [Nat.add_zero, Nat.succ_eq_add_one, Nat.add_right_comm i 1, Nat.add_assoc]

/-- From the first corner of a box that is not empty the loop visits its coordinates in C order. -/
theorem visitedFrom_origin (h : box.Nonempty) : box.visitedFrom box.origin = box.coords := by
  induction box with
  | nil => exact visitedFrom_of_none rfl
  | cons s box ih =>
    obtain ⟨hs, hrest⟩ := nonempty_cons.1 h
    have hcount : s.length = s.stop - 1 - s.start + 1 := by
      rw [Span.length]
      omega
    rw [coords, hcount]
    exact visitedFrom_turns (ih hrest) (by omega)

/-- The loop visits the coordinates of the box, in C order. -/
theorem visited_eq_coords (box : Box) : box.visited = box.coords := by
  rw [visited]
  split
  · rename_i hempty
    refine (List.eq_nil_iff_forall_not_mem.2 fun c hc => ?_).symm
    exact nonempty_iff.1 (mem_coords.1 hc).nonempty hempty
  · rename_i hfull
    exact visitedFrom_origin (nonempty_iff.2 hfull)

/-- The coordinates of a box stand in lexicographic order, none of them twice. -/
theorem pairwise_coords (box : Box) : box.coords.Pairwise (· < ·) := by
  induction box with
  | nil => exact List.pairwise_singleton _ _
  | cons s box ih =>
    rw [coords, List.pairwise_flatMap]
    constructor
    · intro k _
      rw [List.pairwise_map]
      exact ih.imp fun h => List.Lex.cons h
    · refine List.pairwise_lt_range.imp fun {j k} hjk => ?_
      simp only [List.mem_map]
      rintro _ ⟨c, -, rfl⟩ _ ⟨d, -, rfl⟩
      exact List.Lex.rel (Nat.add_lt_add_left hjk _)

end Box

namespace Run

/-! ## The loop over a product -/

/-- The box of the places in the lists of hits. -/
def places (hits : List (List (Nat × Nat))) : Box :=
  hits.map fun ps => ⟨0, ps.length⟩

/-- The hits at the given places, one of every axis. -/
def pick (hits : List (List (Nat × Nat))) (ks : List Nat) : List (Nat × Nat) :=
  List.zipWith (fun ps k => ps.getD k (0, 0)) hits ks

/-- The loop: the last axis is merged into runs once, the places of the axes in front are visited, and at
each of them the runs are placed. -/
def loop (hits : List (List (Nat × Nat))) (outStrides innerStrides : List Nat) : List Run :=
  match hits.getLast? with
  | none => [⟨0, 0, 1⟩]
  | some last =>
    (places hits.dropLast).visited.flatMap fun ks =>
      let row := pick hits.dropLast ks
      (merge last).flatMap (place (outStrides.getD (hits.length - 1) 0)
        (innerStrides.getD (hits.length - 1) 0) (weigh 0 (row.map Prod.fst) outStrides)
        (weigh 0 (row.map Prod.snd) innerStrides))

variable {hits : List (List (Nat × Nat))} {outer inner : Shape}

/-- The rows of hits in C order are those at the places in C order. -/
theorem cartesian_eq_map_pick (hits : List (List (Nat × Nat))) :
    cartesian hits = (places hits).coords.map (pick hits) := by
  induction hits with
  | nil => rfl
  | cons ps hits ih =>
    have hps : ps = (List.range ps.length).map (ps.getD · (0, 0)) := by
      refine List.ext_getElem (by simp) fun k hk _ => ?_
      simp [hk]
    have hplaces : places (ps :: hits) = ⟨0, ps.length⟩ :: places hits := rfl
    rw [cartesian, ih, hplaces, Box.coords, List.map_flatMap]
    conv_lhs => rw [hps, List.flatMap_map]
    refine List.flatMap_congr fun k _ => ?_
    simp [pick]

/-- The walk places the runs of the last axis at every row of the axes in front. -/
theorem walk_concat (outBase innerBase : Nat) (front : List (List (Nat × Nat)))
    (last : List (Nat × Nat)) (outStrides innerStrides : List Nat)
    (hout : outStrides.length = front.length + 1) (hinner : innerStrides.length = front.length + 1) :
    walk outBase innerBase (front ++ [last]) outStrides innerStrides =
      (cartesian front).flatMap fun row =>
        (merge last).flatMap (place (outStrides.getD front.length 0) (innerStrides.getD front.length 0)
          (weigh outBase (row.map Prod.fst) outStrides)
          (weigh innerBase (row.map Prod.snd) innerStrides)) := by
  -- On the axes in front, each of which moves both bases on.
  induction front generalizing outBase innerBase outStrides innerStrides with
  | nil =>
    obtain ⟨o, outStrides, rfl⟩ := List.exists_cons_of_length_eq_add_one hout
    obtain ⟨l, innerStrides, rfl⟩ := List.exists_cons_of_length_eq_add_one hinner
    simp [walk, cartesian]
  | cons ps front ih =>
    obtain ⟨o, outStrides, rfl⟩ := List.exists_cons_of_length_eq_add_one hout
    obtain ⟨l, innerStrides, rfl⟩ := List.exists_cons_of_length_eq_add_one hinner
    have hwalk : walk outBase innerBase (ps :: (front ++ [last])) (o :: outStrides)
        (l :: innerStrides) = ps.flatMap fun p =>
          walk (outBase + p.1 * o) (innerBase + p.2 * l) (front ++ [last]) outStrides innerStrides := by
      rw [walk]
      simp
    rw [List.cons_append, hwalk, cartesian, List.flatMap_assoc]
    refine List.flatMap_congr fun p _ => ?_
    rw [ih _ _ _ _ (by simpa using hout) (by simpa using hinner), List.flatMap_map]
    simp

/-- The loop finds the runs of the walk. -/
theorem loop_eq_ofHits {outStrides innerStrides : List Nat} (hout : outStrides.length = hits.length)
    (hinner : innerStrides.length = hits.length) :
    loop hits outStrides innerStrides = ofHits hits outStrides innerStrides := by
  obtain rfl | ⟨front, last, rfl⟩ := List.eq_nil_or_concat' hits
  · rfl
  · rw [List.length_append, List.length_singleton] at hout hinner
    rw [ofHits, walk_concat 0 0 front last _ _ hout hinner, cartesian_eq_map_pick, List.flatMap_map,
      ← Box.visited_eq_coords]
    simp [loop]

/-- Places in the lists of hits are those below their lengths. -/
theorem holds_places {ks : List Nat} :
    (places hits).Holds ks ↔ List.Forall₂ (fun k ps => k < ps.length) ks hits := by
  rw [Box.Holds, places, List.forall₂_map_right_iff]
  simp

/-- Hits inside a shape are coordinates inside it, at whatever places they are picked. -/
theorem holds_pick {ks : List Nat} {f : Nat × Nat → Nat} {shape : Shape}
    (hshape : List.Forall₂ (fun ps n => ∀ p ∈ ps, f p < n) hits shape)
    (hks : (places hits).Holds ks) : shape.Holds ((pick hits ks).map f) := by
  rw [holds_places] at hks
  induction hshape generalizing ks with
  | nil => exact List.Forall₂.nil
  | @cons ps n hits shape hps _ ih =>
    cases hks with
    | @cons k _ ks _ hk hrest =>
      have hmem : ps.getD k (0, 0) ∈ ps := by
        rw [List.getD_eq_getElem _ _ hk]
        exact List.getElem_mem hk
      exact List.Forall₂.cons (hps _ hmem) (ih hrest)

/-- The pairs of element numbers that the loop covers, one of every row of hits. -/
theorem flatMap_pairs_loop (houter : outer.length = hits.length) (hinner : inner.length = hits.length) :
    (loop hits outer.strides inner.strides).flatMap pairs = (places hits).visited.map fun ks =>
      (outer.flatten ((pick hits ks).map Prod.fst), inner.flatten ((pick hits ks).map Prod.snd)) := by
  rw [loop_eq_ofHits (by simpa using houter) (by simpa using hinner),
    flatMap_pairs_ofHits hits outer inner houter hinner, cartesian_eq_map_pick, List.map_map,
    Box.visited_eq_coords]
  rfl

/-- Every run that the loop finds ends inside both shapes. -/
theorem ends_of_mem_loop (houter : List.Forall₂ (fun ps n => ∀ p ∈ ps, p.1 < n) hits outer)
    (hinner : List.Forall₂ (fun ps n => ∀ p ∈ ps, p.2 < n) hits inner) {r : Run}
    (hr : r ∈ loop hits outer.strides inner.strides) :
    0 < r.length ∧ r.output + r.length ≤ outer.size ∧ r.inner + r.length ≤ inner.size := by
  have hout : outer.length = hits.length := houter.length_eq.symm
  have hin : inner.length = hits.length := hinner.length_eq.symm
  have hpos : 0 < r.length := by
    rw [loop_eq_ofHits (by simpa using hout) (by simpa using hin)] at hr
    exact length_pos_of_mem_walk hr
  have hlast := List.mem_flatMap.2 ⟨r, hr, (ends_mem_pairs hpos).2⟩
  rw [flatMap_pairs_loop hout hin, Box.visited_eq_coords] at hlast
  obtain ⟨ks, hks, hpair⟩ := List.mem_map.1 hlast
  obtain ⟨hoflast, hinlast⟩ := Prod.mk.inj hpair
  have hplaces := Box.mem_coords.1 hks
  have houtput_lt := Shape.flatten_lt (holds_pick houter hplaces)
  have hinner_lt := Shape.flatten_lt (holds_pick hinner hplaces)
  omega

/-- Over hits inside two shapes the loop finds the runs of the walk. Taken apart into pairs of element
numbers they are the rows of hits, every choice of one hit for each axis once and in C order, weighted by
the strides of each side; no run is empty, and none leaves either shape. The odometer behind the loop
visits the coordinates of any box, each of them once and in lexicographic order, and none if the box is
empty along an axis. -/
theorem covers_product (hits : List (List (Nat × Nat))) (outer inner : Shape)
    (houter : List.Forall₂ (fun ps n => ∀ p ∈ ps, p.1 < n) hits outer)
    (hinner : List.Forall₂ (fun ps n => ∀ p ∈ ps, p.2 < n) hits inner) :
    loop hits outer.strides inner.strides = ofHits hits outer.strides inner.strides ∧
    ((loop hits outer.strides inner.strides).flatMap pairs = (places hits).visited.map fun ks =>
      ((List.zipWith (· * ·) ((pick hits ks).map Prod.fst) outer.strides).sum,
        (List.zipWith (· * ·) ((pick hits ks).map Prod.snd) inner.strides).sum)) ∧
    (∀ ks, ks ∈ (places hits).visited ↔ List.Forall₂ (fun k ps => k < ps.length) ks hits) ∧
    (∀ r ∈ loop hits outer.strides inner.strides,
      0 < r.length ∧ r.output + r.length ≤ outer.size ∧ r.inner + r.length ≤ inner.size) ∧
    ∀ box : Box, box.visited.Pairwise (· < ·) ∧ (∀ c, c ∈ box.visited ↔ box.Holds c) ∧
      (¬ box.Nonempty → box.visited = []) := by
  have hout : outer.length = hits.length := houter.length_eq.symm
  have hin : inner.length = hits.length := hinner.length_eq.symm
  refine ⟨loop_eq_ofHits (by simpa using hout) (by simpa using hin), ?_, fun ks => ?_,
    fun r hr => ends_of_mem_loop houter hinner hr, fun box => ⟨?_, fun c => ?_, fun hempty => ?_⟩⟩
  · rw [flatMap_pairs_loop hout hin, Box.visited_eq_coords]
    refine List.map_congr_left fun ks hks => ?_
    have hplaces := Box.mem_coords.1 hks
    rw [Shape.flatten_eq_sum outer _ (holds_pick houter hplaces).length_eq,
      Shape.flatten_eq_sum inner _ (holds_pick hinner hplaces).length_eq]
  · rw [Box.visited_eq_coords, Box.mem_coords, holds_places]
  · rw [Box.visited_eq_coords]
    exact Box.pairwise_coords box
  · rw [Box.visited_eq_coords, Box.mem_coords]
  · exact if_pos (not_not.1 fun h => hempty (Box.nonempty_iff.2 h))

/-- Two hits on the first axis and three on the last one, the last two of them neighbours. -/
theorem covers_product_two_by_three :
    let hits := [[(0, 1), (1, 2)], [(0, 0), (1, 2), (2, 3)]]
    List.Forall₂ (fun ps n => ∀ p ∈ ps, p.1 < n) hits [2, 3] ∧
      List.Forall₂ (fun ps n => ∀ p ∈ ps, p.2 < n) hits [3, 4] ∧
      loop hits [3, 1] [4, 1] = [⟨0, 4, 1⟩, ⟨1, 6, 2⟩, ⟨3, 8, 1⟩, ⟨4, 10, 2⟩] ∧
      (loop hits [3, 1] [4, 1]).flatMap pairs =
        [(0, 4), (1, 6), (2, 7), (3, 8), (4, 10), (5, 11)] ∧
      (places hits).visited = [[0, 0], [0, 1], [0, 2], [1, 0], [1, 1], [1, 2]] := by
  intro hits
  have houter : List.Forall₂ (fun ps n => ∀ p ∈ ps, p.1 < n) hits [2, 3] := by decide
  have hinner : List.Forall₂ (fun ps n => ∀ p ∈ ps, p.2 < n) hits [3, 4] := by decide
  obtain ⟨hloop, hpairs, -⟩ := covers_product hits [2, 3] [3, 4] houter hinner
  have hvisited : (places hits).visited = [[0, 0], [0, 1], [0, 2], [1, 0], [1, 1], [1, 2]] := by
    rw [Box.visited_eq_coords]
    decide
  refine ⟨houter, hinner, hloop.trans (by decide), hpairs.trans ?_, hvisited⟩
  rw [hvisited]
  decide

end Run

end ChunkedArray
