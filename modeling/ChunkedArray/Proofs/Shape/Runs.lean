import ChunkedArray.Proofs.Bytes.Copy
import ChunkedArray.Proofs.Shape.Coords
import ChunkedArray.Shape.Runs

/-!
# Runs cover a product once

The walk over the hits of an array visits runs. Taken apart into pairs of element numbers, they are
the product of the hits in C order, each pair of positions weighted by the strides of its side
(`flatMap_pairs_walk`). A loop that copies run by run is therefore a row of copies of single items
(`foldl_runs`).
-/

namespace ChunkedArray

namespace Run

/-- The pairs of element numbers in a run. -/
def pairs (r : Run) : List (Nat × Nat) :=
  (List.range r.length).map fun i => (r.output + i, r.inner + i)

/-- One more pair at the end of the last run or behind it. -/
theorem flatMap_pairs_extend (runs : List Run) (p : Nat × Nat) :
    (extend runs p).reverse.flatMap pairs = runs.reverse.flatMap pairs ++ [p] := by
  cases runs with
  | nil => simp [extend, pairs]
  | cons r rest =>
    obtain ⟨o, l, n⟩ := r
    simp only [extend]
    split
    · rename_i h
      have hp : p = (o + n, l + n) := Prod.ext h.1.symm h.2.symm
      simp [pairs, List.range_succ, hp]
    · simp [pairs]

theorem flatMap_pairs_foldl_extend (ps : List (Nat × Nat)) (runs : List Run) :
    (ps.foldl extend runs).reverse.flatMap pairs = runs.reverse.flatMap pairs ++ ps := by
  induction ps generalizing runs with
  | nil => simp
  | cons p ps ih => rw [List.foldl_cons, ih, flatMap_pairs_extend, List.append_assoc]; rfl

/-- Merging keeps the pairs and their order. -/
theorem flatMap_pairs_merge (ps : List (Nat × Nat)) : (merge ps).flatMap pairs = ps := by
  simpa [merge] using flatMap_pairs_foldl_extend ps []

/-- Placing a run moves each of its pairs. -/
theorem flatMap_pairs_place (outStride innerStride outBase innerBase : Nat) (r : Run) :
    (place outStride innerStride outBase innerBase r).flatMap pairs =
      r.pairs.map fun p => (outBase + p.1 * outStride, innerBase + p.2 * innerStride) := by
  unfold place
  split
  · rename_i h
    simp [pairs, h.1, h.2, Function.comp_def, Nat.add_assoc]
  · simp [pairs, List.flatMap_map, Function.comp_def, ← List.map_eq_flatMap]

/-- The number of an element: the base plus its positions weighted by the strides. -/
def weigh (base : Nat) (c strides : List Nat) : Nat :=
  base + (List.zipWith (· * ·) c strides).sum

@[simp] theorem weigh_nil (base : Nat) (strides : List Nat) : weigh base [] strides = base := by
  simp [weigh]

@[simp] theorem weigh_cons (base i stride : Nat) (c strides : List Nat) :
    weigh base (i :: c) (stride :: strides) = weigh (base + i * stride) c strides := by
  simp [weigh, Nat.add_assoc]

/-- The walk visits the product of the hits in C order. -/
theorem flatMap_pairs_walk (outBase innerBase : Nat) (hits : List (List (Nat × Nat)))
    (outStrides innerStrides : List Nat) (hout : outStrides.length = hits.length)
    (hinner : innerStrides.length = hits.length) :
    (walk outBase innerBase hits outStrides innerStrides).flatMap pairs =
      (cartesian hits).map fun c =>
        (weigh outBase (c.map Prod.fst) outStrides, weigh innerBase (c.map Prod.snd) innerStrides) := by
  induction hits generalizing outBase innerBase outStrides innerStrides with
  | nil => simp [walk, pairs, cartesian]
  | cons ps rest ih =>
    obtain ⟨o, outStrides, rfl⟩ := List.exists_cons_of_length_eq_add_one hout
    obtain ⟨l, innerStrides, rfl⟩ := List.exists_cons_of_length_eq_add_one hinner
    cases rest with
    | nil =>
      -- The last axis: its pairs are merged, placed and taken apart again.
      calc (walk outBase innerBase [ps] (o :: outStrides) (l :: innerStrides)).flatMap pairs
          = (merge ps).flatMap fun r => (place o l outBase innerBase r).flatMap pairs := by
            rw [walk, List.flatMap_assoc]
        _ = ((merge ps).flatMap pairs).map fun p => (outBase + p.1 * o, innerBase + p.2 * l) := by
            simp only [flatMap_pairs_place, List.map_flatMap]
        _ = _ := by
            rw [flatMap_pairs_merge]
            simp [cartesian, ← List.map_eq_flatMap]
    | cons qs rest =>
      have hwalk : walk outBase innerBase (ps :: qs :: rest) (o :: outStrides) (l :: innerStrides) =
          ps.flatMap fun p => walk (outBase + p.1 * o) (innerBase + p.2 * l) (qs :: rest)
            outStrides innerStrides := by
        rw [walk]
        simp
      rw [hwalk, List.flatMap_assoc, cartesian, List.map_flatMap]
      refine List.flatMap_congr fun p _ => ?_
      rw [ih _ _ _ _ (by simpa using hout) (by simpa using hinner), List.map_map]
      refine List.map_congr_left fun c _ => ?_
      simp

/-! ### Ends of runs -/

/-- The first and the last pair of a run. -/
theorem ends_mem_pairs {r : Run} (h : 0 < r.length) :
    (r.output, r.inner) ∈ r.pairs ∧ (r.output + (r.length - 1), r.inner + (r.length - 1)) ∈ r.pairs :=
  ⟨List.mem_map.2 ⟨0, List.mem_range.2 h, rfl⟩,
    List.mem_map.2 ⟨r.length - 1, List.mem_range.2 (by omega), rfl⟩⟩

theorem length_pos_of_mem_extend {runs : List Run} (h : ∀ r ∈ runs, 0 < r.length) (p : Nat × Nat) :
    ∀ r ∈ extend runs p, 0 < r.length := by
  cases runs with
  | nil => simp [extend]
  | cons last rest =>
    obtain ⟨-, hrest⟩ := List.forall_mem_cons.1 h
    simp only [extend]
    split
    · exact List.forall_mem_cons.2 ⟨Nat.succ_pos _, hrest⟩
    · exact List.forall_mem_cons.2 ⟨Nat.one_pos, h⟩

theorem length_pos_of_mem_foldl_extend (ps : List (Nat × Nat)) {runs : List Run}
    (h : ∀ r ∈ runs, 0 < r.length) : ∀ r ∈ ps.foldl extend runs, 0 < r.length := by
  induction ps generalizing runs with
  | nil => exact h
  | cons p ps ih => exact ih (length_pos_of_mem_extend h p)

theorem length_pos_of_mem_merge {ps : List (Nat × Nat)} {r : Run} (h : r ∈ merge ps) :
    0 < r.length :=
  length_pos_of_mem_foldl_extend ps (List.forall_mem_nil _) r (List.mem_reverse.1 h)

theorem length_pos_of_mem_place {outStride innerStride outBase innerBase : Nat} {r placed : Run}
    (hr : 0 < r.length) (h : placed ∈ place outStride innerStride outBase innerBase r) :
    0 < placed.length := by
  rw [place] at h
  split at h
  · rw [List.mem_singleton.1 h]
    exact hr
  · obtain ⟨i, -, rfl⟩ := List.mem_map.1 h
    exact Nat.one_pos

/-- No run is empty. -/
theorem length_pos_of_mem_walk {outBase innerBase : Nat} {hits : List (List (Nat × Nat))}
    {outStrides innerStrides : List Nat} {r : Run}
    (h : r ∈ walk outBase innerBase hits outStrides innerStrides) : 0 < r.length := by
  fun_induction walk outBase innerBase hits outStrides innerStrides with
  | case1 outBase innerBase pairs =>
    obtain ⟨merged, hmerged, hplaced⟩ := List.mem_flatMap.1 h
    exact length_pos_of_mem_place (length_pos_of_mem_merge hmerged) hplaced
  | case2 outBase innerBase pairs rest outStride outStrides innerStride innerStrides _ ih =>
    obtain ⟨p, -, hwalk⟩ := List.mem_flatMap.1 h
    exact ih p hwalk
  | case3 outBase innerBase =>
    rw [List.mem_singleton.1 h]
    exact Nat.one_pos
  | case4 => cases h

/-- The pairs of the runs of an array part: the numbers of the elements on both sides. -/
theorem flatMap_pairs_ofHits (hits : List (List (Nat × Nat))) (outer inner : Shape)
    (houter : outer.length = hits.length) (hinner : inner.length = hits.length) :
    (ofHits hits outer.strides inner.strides).flatMap pairs =
      (cartesian hits).map fun c => (outer.flatten (c.map Prod.fst), inner.flatten (c.map Prod.snd)) := by
  rw [ofHits, flatMap_pairs_walk 0 0 hits _ _ (by simpa using houter) (by simpa using hinner)]
  refine List.map_congr_left fun c hc => ?_
  have hlen : c.length = hits.length := (mem_cartesian.1 hc).length_eq
  rw [Shape.flatten_eq_sum outer _ (by simp [hlen, houter]),
    Shape.flatten_eq_sum inner _ (by simp [hlen, hinner]), weigh, weigh, Nat.zero_add, Nat.zero_add]

end Run

namespace Bytes

/-- A copy of several neighbouring items is a row of copies. -/
theorem blit_items (width : Nat) (src out : Bytes) (o l n : Nat) :
    out.blit (o * width) src (l * width) (n * width) =
      copyItems width src out ((List.range n).map fun i => (o + i, (l + i) * width)) := by
  induction n with
  | zero => simp [blit]
  | succ n ih =>
    rw [Nat.succ_mul, blit_add, ih, List.range_succ, List.map_append, copyItems_append,
      ← Nat.add_mul, ← Nat.add_mul]
    rfl

/-- A loop over runs that copies the items of one run after the other copies the items of all. -/
theorem foldl_runs {width : Nat} {src : Bytes} {runs : List Run} {step : Bytes → Run → Bytes}
    {move : Nat × Nat → Nat × Nat}
    (hstep : ∀ out, ∀ r ∈ runs, step out r = copyItems width src out (r.pairs.map move))
    (out : Bytes) :
    runs.foldl step out = copyItems width src out ((runs.flatMap Run.pairs).map move) := by
  induction runs generalizing out with
  | nil => rfl
  | cons r runs ih =>
    rw [List.foldl_cons, hstep out r List.mem_cons_self,
      ih (fun out r h => hstep out r (List.mem_cons_of_mem _ h)), List.flatMap_cons,
      List.map_append, copyItems_append]

end Bytes

end ChunkedArray
