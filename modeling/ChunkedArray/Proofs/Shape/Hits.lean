import ChunkedArray.Proofs.Shape.Runs
import ChunkedArray.Proofs.Shape.Selection

/-!
# Hits of a box

What a box holds of a selection: the output coordinates whose positions lie in the box, each paired
with the place inside the box. A copy along the hits moves exactly these elements
(`getD_copyOut_hits`, `getD_copyIn_hits`), whatever the strides and however the walk groups them.
-/

namespace ChunkedArray

/-- Coordinates counted from the first corner of a box. -/
def Box.toLocal (box : Box) (c : List Nat) : List Nat :=
  List.zipWith (fun i (s : Span) => i - s.start) c box

/-- Local coordinates counted from the origin of the array again. -/
def Box.toGlobal (box : Box) (c : List Nat) : List Nat :=
  List.zipWith (fun i (s : Span) => s.start + i) c box

namespace Box

variable {box : Box} {c d : List Nat}

/-- The coordinates in a box, counted from its corner, lie inside the shape of the box. -/
theorem holds_toLocal (h : box.Holds c) : box.shape.Holds (box.toLocal c) := by
  induction h with
  | nil => exact List.Forall₂.nil
  | cons hi _ ih => exact List.Forall₂.cons (by simp only [Span.length]; omega) ih

/-- The coordinates in the shape of a box, counted from the origin, lie in the box. -/
theorem holds_toGlobal (h : box.shape.Holds c) : box.Holds (box.toGlobal c) := by
  induction box generalizing c with
  | nil => cases h; exact List.Forall₂.nil
  | cons s box ih =>
    cases h with
    | cons hi hrest =>
      simp only [Span.length] at hi
      exact List.Forall₂.cons (by dsimp only; omega) (ih hrest)

theorem toGlobal_toLocal (h : box.Holds c) : box.toGlobal (box.toLocal c) = c := by
  induction h with
  | nil => rfl
  | cons hi _ ih =>
    simp only [toGlobal, toLocal, List.zipWith_cons_cons] at ih ⊢
    rw [ih]
    congr 1
    omega

theorem toLocal_toGlobal (h : box.shape.Holds c) : box.toLocal (box.toGlobal c) = c := by
  induction box generalizing c with
  | nil => cases h; rfl
  | cons s box ih =>
    cases h with
    | cons hi hrest =>
      have htail := ih hrest
      simp only [toGlobal, toLocal, List.zipWith_cons_cons] at htail ⊢
      rw [htail]
      congr 1
      omega

/-- Different coordinates in a box stay different when counted from its corner. -/
theorem toLocal_inj (hc : box.Holds c) (hd : box.Holds d) (h : box.toLocal c = box.toLocal d) :
    c = d := by
  rw [← toGlobal_toLocal hc, h, toGlobal_toLocal hd]

/-- The local coordinates of a box lie inside a layout that is no smaller along any axis. -/
theorem holds_layout {layout : Shape}
    (hlayout : List.Forall₂ (fun (s : Span) n => s.stop ≤ s.start + n) box layout)
    (h : box.Holds c) : layout.Holds (box.toLocal c) := by
  induction hlayout generalizing c with
  | nil => cases h; exact List.Forall₂.nil
  | cons hs _ ih =>
    cases h with
    | cons hi hrest => exact List.Forall₂.cons (by dsimp only; omega) (ih hrest)

end Box

namespace Selection

variable {sel : Selection} {shape layout : Shape} {box : Box} {q : List Nat}

theorem holds_position (h : sel.Fits shape) (hq : sel.shape.Holds q) :
    shape.Holds (sel.position q) := by
  induction h generalizing q with
  | nil => cases hq; exact List.Forall₂.nil
  | cons hp _ ih =>
    cases hq with
    | cons hk hrest => exact List.Forall₂.cons (hp.index_lt hk) (ih hrest)

/-- No element of the array is selected twice. -/
theorem position_inj (h : sel.Fits shape) {r : List Nat} (hq : sel.shape.Holds q)
    (hr : sel.shape.Holds r) (heq : sel.position q = sel.position r) : q = r := by
  induction h generalizing q r with
  | nil => cases hq; cases hr; rfl
  | cons hp _ ih =>
    cases hq with
    | cons hk hq =>
      cases hr with
      | cons hj hr =>
        simp only [position, List.zipWith_cons_cons, List.cons.injEq] at heq
        rw [hp.index_inj hk hj heq.1, ih hq hr heq.2]

/-- Every selected element lies in the bounding box. -/
theorem holds_boundingBox (h : sel.Fits shape) (hq : sel.shape.Holds q) :
    sel.boundingBox.Holds (sel.position q) := by
  induction h generalizing q with
  | nil => cases hq; exact List.Forall₂.nil
  | cons hp _ ih =>
    cases hq with
    | cons hk hrest => exact List.Forall₂.cons (hp.index_mem_bounds hk) (ih hrest)

/-- The bounding box of a selection that is not empty lies inside the array. -/
theorem boundingBox_inside (h : sel.Fits shape) (hpos : 0 < sel.size) :
    List.Forall₂ (fun (s : Span) n => s.start < s.stop ∧ s.stop ≤ n) sel.boundingBox shape := by
  have hcounts := Shape.size_pos_iff.1 hpos
  clear hpos
  induction h with
  | nil => exact List.Forall₂.nil
  | cons hp _ ih =>
    refine List.Forall₂.cons (hp.bounds_le (hcounts _ List.mem_cons_self)) (ih fun n hn => ?_)
    exact hcounts n (List.mem_cons_of_mem _ hn)

/-- The selected elements in C order are those of the output in C order. -/
theorem coords_eq_map (sel : Selection) :
    sel.coords = (List.range sel.size).map fun i => sel.position (sel.shape.unflatten i) := by
  induction sel with
  | nil => rfl
  | cons p sel ih =>
    have hsize : size (p :: sel) = p.count * size sel := rfl
    rw [hsize, range_mul_map, coords, List.map_cons, cartesian, Progression.indices,
      List.flatMap_map]
    refine List.flatMap_congr fun k _ => ?_
    rw [show cartesian (sel.map Progression.indices) = coords sel from rfl, ih, List.map_map]
    refine List.map_congr_left fun j hj => ?_
    have hlt : j < Shape.size (shape sel) := List.mem_range.1 hj
    have hpos : 0 < Shape.size (shape sel) := by omega
    have hdiv : (k * size sel + j) / Shape.size (shape sel) = k := by
      rw [size, Nat.mul_comm, Nat.mul_add_div hpos, Nat.div_eq_of_lt hlt, Nat.add_zero]
    have hmod : (k * size sel + j) % Shape.size (shape sel) = j := by
      rw [size, Nat.mul_comm, Nat.mul_add_mod, Nat.mod_eq_of_lt hlt]
    simp only [Function.comp_apply, shape, List.map_cons, Shape.unflatten, position,
      List.zipWith_cons_cons]
    rw [show List.map Progression.count sel = shape sel from rfl, hdiv, hmod]

/-- The selected coordinates are the positions of the output coordinates. -/
theorem mem_coords {c : List Nat} : c ∈ sel.coords ↔ ∃ q, sel.shape.Holds q ∧ sel.position q = c := by
  rw [coords_eq_map, List.mem_map]
  constructor
  · rintro ⟨i, hi, rfl⟩
    exact ⟨_, Shape.holds_unflatten (List.mem_range.1 hi), rfl⟩
  · rintro ⟨q, hq, rfl⟩
    exact ⟨_, List.mem_range.2 (Shape.flatten_lt hq), by rw [Shape.unflatten_flatten hq]⟩

/-! ## Hits -/

theorem mem_axisHits {p : Progression} {s : Span} {hit : Nat × Nat} :
    hit ∈ axisHits p s ↔ hit.1 < p.count ∧ (s.start ≤ p.index hit.1 ∧ p.index hit.1 < s.stop) ∧
      hit.2 = p.index hit.1 - s.start := by
  simp only [axisHits, List.mem_filterMap, List.mem_range, Option.ite_none_right_eq_some,
    Option.some.injEq]
  constructor
  · rintro ⟨k, hk, hspan, rfl⟩
    exact ⟨hk, hspan, rfl⟩
  · rintro ⟨hk, hspan, hsnd⟩
    exact ⟨hit.1, hk, hspan, Prod.ext rfl hsnd.symm⟩

/-- A row of hits pairs output coordinates that lie in the box with their place in it. -/
theorem holds_of_mem_cartesian_hits {c : List (Nat × Nat)} (hlen : sel.length = box.length)
    (h : c ∈ cartesian (List.zipWith axisHits sel box)) :
    sel.shape.Holds (c.map Prod.fst) ∧ box.Holds (sel.position (c.map Prod.fst)) ∧
      c.map Prod.snd = box.toLocal (sel.position (c.map Prod.fst)) := by
  rw [mem_cartesian] at h
  induction sel generalizing box c with
  | nil =>
    obtain rfl := List.length_eq_zero_iff.1 hlen.symm
    cases h
    exact ⟨List.Forall₂.nil, List.Forall₂.nil, rfl⟩
  | cons p sel ih =>
    obtain ⟨s, box, rfl⟩ := List.exists_cons_of_length_eq_add_one hlen.symm
    cases h with
    | cons hhit hrest =>
      obtain ⟨hk, hspan, hsnd⟩ := mem_axisHits.1 hhit
      obtain ⟨hshape, hbox, hlocal⟩ := ih (by simpa using hlen) hrest
      refine ⟨List.Forall₂.cons hk hshape, List.Forall₂.cons hspan hbox, ?_⟩
      simp only [List.map_cons, position, Box.toLocal, List.zipWith_cons_cons] at hlocal ⊢
      rw [hlocal, hsnd]

/-- Output coordinates that lie in the box, with their place in it, are a row of hits. -/
theorem zip_mem_cartesian_hits (hq : sel.shape.Holds q) (hbox : box.Holds (sel.position q)) :
    List.zip q (box.toLocal (sel.position q)) ∈ cartesian (List.zipWith axisHits sel box) := by
  rw [mem_cartesian]
  induction sel generalizing box q with
  | nil =>
    cases hq
    cases hbox
    exact List.Forall₂.nil
  | cons p sel ih =>
    cases hq with
    | cons hk hq =>
      cases hbox with
      | cons hspan hbox => exact List.Forall₂.cons (mem_axisHits.2 ⟨hk, hspan, rfl⟩) (ih hq hbox)

/-- The pairs of element numbers that a copy along the hits of a box moves. -/
theorem mem_pairs_ofHits (hlen : sel.length = box.length) (hlayout : layout.length = box.length)
    {o l : Nat} :
    (o, l) ∈ (Run.ofHits (List.zipWith axisHits sel box) sel.shape.strides
        layout.strides).flatMap Run.pairs ↔
      ∃ q, sel.shape.Holds q ∧ box.Holds (sel.position q) ∧ sel.shape.flatten q = o ∧
        layout.flatten (box.toLocal (sel.position q)) = l := by
  have hhits : (List.zipWith axisHits sel box).length = box.length := by simp [hlen]
  rw [Run.flatMap_pairs_ofHits _ _ _ (by simp [hlen, shape]) (by rw [hhits, hlayout]), List.mem_map]
  constructor
  · rintro ⟨c, hc, hpair⟩
    obtain ⟨hq, hbox, hsnd⟩ := holds_of_mem_cartesian_hits hlen hc
    refine ⟨c.map Prod.fst, hq, hbox, congrArg Prod.fst hpair, ?_⟩
    rw [← hsnd]
    exact congrArg Prod.snd hpair
  · rintro ⟨q, hq, hbox, rfl, rfl⟩
    have hqlen : q.length = box.length := by rw [hq.length_eq, shape, List.length_map, hlen]
    have hlocal : (box.toLocal (sel.position q)).length = box.length := by
      simp [Box.toLocal, position, hlen, hqlen]
    refine ⟨_, zip_mem_cartesian_hits hq hbox, ?_⟩
    rw [List.map_fst_zip (by omega), List.map_snd_zip (by omega)]

/-- A copy from the inside of a box to the output fills the output elements that lie in the box. -/
theorem getD_copyOut_hits (hlen : sel.length = box.length) (hlayout : layout.length = box.length)
    {width k : Nat} (hk : k < width) (src out : Bytes) (start : Nat → Nat) (hq : sel.shape.Holds q)
    (hout : sel.shape.flatten q * width + k < out.size) :
    (Bytes.copyItems width src out (((Run.ofHits (List.zipWith axisHits sel box) sel.shape.strides
        layout.strides).flatMap Run.pairs).map fun p => (p.1, start p.2))).getD
          (sel.shape.flatten q * width + k) 0 =
      if box.Holds (sel.position q) then
        src.getD (start (layout.flatten (box.toLocal (sel.position q))) + k) 0
      else out.getD (sel.shape.flatten q * width + k) 0 := by
  by_cases hbox : box.Holds (sel.position q)
  · rw [if_pos hbox]
    apply Bytes.getD_copyItems_of_mem hk hout
    · exact List.mem_map.2 ⟨_, (mem_pairs_ofHits hlen hlayout).2 ⟨q, hq, hbox, rfl, rfl⟩, rfl⟩
    · intro m hm hfst
      obtain ⟨⟨o, l⟩, hp, rfl⟩ := List.mem_map.1 hm
      obtain ⟨r, hr, _, rfl, rfl⟩ := (mem_pairs_ofHits hlen hlayout).1 hp
      rw [Shape.flatten_inj hr hq hfst]
  · rw [if_neg hbox]
    apply Bytes.getD_copyItems_of_forall_ne hk
    intro m hm hfst
    obtain ⟨⟨o, l⟩, hp, rfl⟩ := List.mem_map.1 hm
    obtain ⟨r, hr, hmem, rfl, rfl⟩ := (mem_pairs_ofHits hlen hlayout).1 hp
    exact hbox (Shape.flatten_inj hr hq hfst ▸ hmem)

/-- A copy from the output to the inside of a box fills the places that the selection hits. -/
theorem getD_copyIn_hits (h : sel.Fits shape) (hlen : sel.length = box.length)
    (hlayout : List.Forall₂ (fun (s : Span) n => s.stop ≤ s.start + n) box layout)
    {width k : Nat} (hk : k < width) (src out : Bytes) (start : Nat → Nat) (hq : sel.shape.Holds q)
    (hbox : box.Holds (sel.position q))
    (hout : layout.flatten (box.toLocal (sel.position q)) * width + k < out.size) :
    (Bytes.copyItems width src out (((Run.ofHits (List.zipWith axisHits sel box) sel.shape.strides
        layout.strides).flatMap Run.pairs).map fun p => (p.2, start p.1))).getD
          (layout.flatten (box.toLocal (sel.position q)) * width + k) 0 =
      src.getD (start (sel.shape.flatten q) + k) 0 := by
  apply Bytes.getD_copyItems_of_mem hk hout
  · refine List.mem_map.2 ⟨_, (mem_pairs_ofHits hlen hlayout.length_eq.symm).2
      ⟨q, hq, hbox, rfl, rfl⟩, rfl⟩
  · intro m hm hfst
    obtain ⟨⟨o, l⟩, hp, rfl⟩ := List.mem_map.1 hm
    obtain ⟨r, hr, hmem, rfl, rfl⟩ := (mem_pairs_ofHits hlen hlayout.length_eq.symm).1 hp
    have hlocal := Shape.flatten_inj (Box.holds_layout hlayout hmem) (Box.holds_layout hlayout hbox)
      hfst
    rw [position_inj h hr hq (Box.toLocal_inj hmem hbox hlocal)]

/-- A copy from the output to the inside of a box leaves the places that the selection misses. -/
theorem getD_copyIn_hits_of_miss (hlen : sel.length = box.length)
    (hlayout : List.Forall₂ (fun (s : Span) n => s.stop ≤ s.start + n) box layout)
    {width k : Nat} (hk : k < width) (src out : Bytes) (start : Nat → Nat) {c : List Nat}
    (hc : layout.Holds c)
    (hmiss : ∀ q, sel.shape.Holds q → box.Holds (sel.position q) →
      box.toLocal (sel.position q) ≠ c) :
    (Bytes.copyItems width src out (((Run.ofHits (List.zipWith axisHits sel box) sel.shape.strides
        layout.strides).flatMap Run.pairs).map fun p => (p.2, start p.1))).getD
          (layout.flatten c * width + k) 0 = out.getD (layout.flatten c * width + k) 0 := by
  apply Bytes.getD_copyItems_of_forall_ne hk
  intro m hm hfst
  obtain ⟨⟨o, l⟩, hp, rfl⟩ := List.mem_map.1 hm
  obtain ⟨r, hr, hmem, rfl, rfl⟩ := (mem_pairs_ofHits hlen hlayout.length_eq.symm).1 hp
  exact hmiss r hr hmem (Shape.flatten_inj (Box.holds_layout hlayout hmem) hc hfst)

/-- Hits are found for every axis or not reported at all. -/
theorem eq_of_hits_eq_some {hs : List (List (Nat × Nat))} (h : sel.hits box = some hs) :
    hs = List.zipWith axisHits sel box ∧ ∀ ps ∈ hs, ps ≠ [] := by
  simp only [hits] at h
  split at h
  · cases h
  · rename_i hany
    cases h
    refine ⟨rfl, fun ps hps hnil => hany ?_⟩
    exact List.any_eq_true.2 ⟨ps, hps, by simp [hnil]⟩

/-- A box without hits holds nothing of the selection. -/
theorem not_holds_of_hits_eq_none (h : sel.hits box = none) (hq : sel.shape.Holds q) :
    ¬ box.Holds (sel.position q) := by
  intro hbox
  simp only [hits] at h
  split at h
  · rename_i hany
    obtain ⟨ps, hps, hempty⟩ := List.any_eq_true.1 hany
    have hrow := mem_cartesian.1 (zip_mem_cartesian_hits hq hbox)
    obtain ⟨i, hi, rfl⟩ := List.getElem_of_mem hps
    have hmem := hrow.get (i := i) (by rw [hrow.length_eq]; exact hi) hi
    rw [List.get_eq_getElem, List.get_eq_getElem, List.isEmpty_iff.1 hempty] at hmem
    simp at hmem
  · cases h

theorem exists_mem_cartesian {lists : List (List (Nat × Nat))} (hne : ∀ ps ∈ lists, ps ≠ []) :
    ∃ c, c ∈ cartesian lists := by
  induction lists with
  | nil => exact ⟨[], List.mem_singleton_self []⟩
  | cons ps rest ih =>
    obtain ⟨c, hc⟩ := ih fun qs hqs => hne qs (List.mem_cons_of_mem _ hqs)
    obtain ⟨p, hp⟩ := List.exists_mem_of_ne_nil ps (hne ps List.mem_cons_self)
    exact ⟨p :: c, mem_cartesian.2 (List.Forall₂.cons hp (mem_cartesian.1 hc))⟩

/-- A box with hits holds a selected element. -/
theorem exists_of_hits_eq_some (hlen : sel.length = box.length) {hs : List (List (Nat × Nat))}
    (h : sel.hits box = some hs) :
    ∃ q, sel.shape.Holds q ∧ box.Holds (sel.position q) := by
  obtain ⟨rfl, hne⟩ := eq_of_hits_eq_some h
  obtain ⟨c, hc⟩ := exists_mem_cartesian hne
  obtain ⟨hq, hbox, _⟩ := holds_of_mem_cartesian_hits hlen hc
  exact ⟨_, hq, hbox⟩

end Selection

end ChunkedArray
