import ChunkedArray.Array.Read
import ChunkedArray.Proofs.Shape.Layout

/-!
# The span of a chunk's hits

Of every chunk only the items from the first to the last selected one are decoded. Both ends of that
span are selected items themselves, and every selected item of the chunk lies between them.
-/

namespace ChunkedArray

/-! ## Least and greatest positions -/

theorem foldl_min_le (l : List Nat) (d : Nat) : l.foldl min d ≤ d := by
  induction l generalizing d with
  | nil => exact le_rfl
  | cons a l ih => exact (ih (min d a)).trans (Nat.min_le_left _ _)

theorem foldl_min_le_of_mem {l : List Nat} {x : Nat} (d : Nat) (h : x ∈ l) : l.foldl min d ≤ x := by
  induction l generalizing d with
  | nil => cases h
  | cons a l ih =>
    rcases List.mem_cons.1 h with rfl | h
    · exact (foldl_min_le l _).trans (Nat.min_le_right _ _)
    · exact ih _ h

theorem foldl_min_mem_or_eq (l : List Nat) (d : Nat) : l.foldl min d ∈ l ∨ l.foldl min d = d := by
  induction l generalizing d with
  | nil => exact .inr rfl
  | cons a l ih =>
    rw [List.foldl_cons]
    rcases ih (min d a) with h | h
    · exact .inl (List.mem_cons_of_mem _ h)
    · rw [h]
      rcases Nat.le_total d a with hle | hle
      · exact .inr (Nat.min_eq_left hle)
      · exact .inl (by simp [Nat.min_eq_right hle])

theorem le_foldl_max (l : List Nat) (d : Nat) : d ≤ l.foldl max d := by
  induction l generalizing d with
  | nil => exact le_rfl
  | cons a l ih => exact (Nat.le_max_left _ _).trans (ih (max d a))

theorem le_foldl_max_of_mem {l : List Nat} {x : Nat} (d : Nat) (h : x ∈ l) : x ≤ l.foldl max d := by
  induction l generalizing d with
  | nil => cases h
  | cons a l ih =>
    rcases List.mem_cons.1 h with rfl | h
    · exact (Nat.le_max_right _ _).trans (le_foldl_max l _)
    · exact ih _ h

theorem foldl_max_mem_or_eq (l : List Nat) (d : Nat) : l.foldl max d ∈ l ∨ l.foldl max d = d := by
  induction l generalizing d with
  | nil => exact .inr rfl
  | cons a l ih =>
    rw [List.foldl_cons]
    rcases ih (max d a) with h | h
    · exact .inl (List.mem_cons_of_mem _ h)
    · rw [h]
      rcases Nat.le_total d a with hle | hle
      · exact .inl (by simp [Nat.max_eq_right hle])
      · exact .inr (Nat.max_eq_left hle)

/-- The least inner position of an axis. -/
def lowHit (pairs : List (Nat × Nat)) : Nat :=
  (pairs.map Prod.snd).foldl min ((pairs.map Prod.snd).headD 0)

/-- The greatest inner position of an axis. -/
def highHit (pairs : List (Nat × Nat)) : Nat :=
  (pairs.map Prod.snd).foldl max 0

theorem lowHit_mem {pairs : List (Nat × Nat)} (h : pairs ≠ []) :
    lowHit pairs ∈ pairs.map Prod.snd := by
  cases pairs with
  | nil => exact absurd rfl h
  | cons p pairs =>
    rcases foldl_min_mem_or_eq ((p :: pairs).map Prod.snd) p.2 with hmem | heq
    · exact hmem
    · rw [lowHit, List.map_cons, List.headD_cons, ← List.map_cons, heq]
      exact List.mem_cons_self

theorem highHit_mem {pairs : List (Nat × Nat)} (h : pairs ≠ []) :
    highHit pairs ∈ pairs.map Prod.snd := by
  cases pairs with
  | nil => exact absurd rfl h
  | cons p pairs =>
    rcases foldl_max_mem_or_eq ((p :: pairs).map Prod.snd) 0 with hmem | heq
    · exact hmem
    · -- If zero is the greatest position, the first one is zero as well.
      have hfirst := le_foldl_max_of_mem 0 (List.mem_cons_self (a := p.2) (l := pairs.map Prod.snd))
      rw [← List.map_cons, heq] at hfirst
      rw [highHit, heq, List.map_cons, Nat.le_zero.1 hfirst]
      exact List.mem_cons_self

/-! ## Corners -/

/-- Numbers of elements grow with their coordinates. -/
theorem Shape.flatten_mono {shape : Shape} {c d : List Nat} (h : List.Forall₂ (· ≤ ·) c d) :
    shape.flatten c ≤ shape.flatten d := by
  induction h generalizing shape with
  | nil => exact le_rfl
  | cons hi _ ih =>
    cases shape with
    | nil => exact le_rfl
    | cons n shape =>
      rw [flatten, flatten]
      exact Nat.add_le_add (Nat.mul_le_mul_right _ hi) ih

/-- The span of hits goes from the element at their least positions to that at their greatest. -/
theorem Geometry.hitSpan_eq {hits : List (List (Nat × Nat))} {layout : Shape}
    (h : hits.length = layout.length) :
    hitSpan hits layout.strides =
      (layout.flatten (hits.map lowHit), layout.flatten (hits.map highHit) + 1) := by
  have hends : List.zipWith (fun pairs stride =>
      ((pairs.map Prod.snd).foldl min ((pairs.map Prod.snd).headD 0) * stride,
        (pairs.map Prod.snd).foldl max 0 * stride)) hits layout.strides =
      List.zipWith (fun pairs stride => (lowHit pairs * stride, highHit pairs * stride)) hits
        layout.strides := rfl
  rw [Shape.flatten_eq_sum layout _ (by simpa using h),
    Shape.flatten_eq_sum layout _ (by simpa using h)]
  simp only [hitSpan, hends, List.map_zipWith, List.zipWith_map_left]

/-- If a choice of positions is among the hits of every axis, some row of hits makes it. -/
theorem exists_row (choice : List (Nat × Nat) → Nat) {hits : List (List (Nat × Nat))}
    (h : ∀ pairs ∈ hits, choice pairs ∈ pairs.map Prod.snd) :
    ∃ c ∈ cartesian hits, c.map Prod.snd = hits.map choice := by
  induction hits with
  | nil => exact ⟨[], List.mem_singleton_self _, rfl⟩
  | cons pairs hits ih =>
    obtain ⟨c, hc, hmap⟩ := ih fun ps hps => h ps (List.mem_cons_of_mem _ hps)
    obtain ⟨p, hp, hsnd⟩ := List.mem_map.1 (h pairs List.mem_cons_self)
    refine ⟨p :: c, mem_cartesian.2 (List.Forall₂.cons hp (mem_cartesian.1 hc)), ?_⟩
    rw [List.map_cons, List.map_cons, hmap, hsnd]

/-- Every row of hits lies between the two corners. -/
theorem row_bounds {hits : List (List (Nat × Nat))} {c : List (Nat × Nat)}
    (h : c ∈ cartesian hits) :
    List.Forall₂ (· ≤ ·) (hits.map lowHit) (c.map Prod.snd) ∧
      List.Forall₂ (· ≤ ·) (c.map Prod.snd) (hits.map highHit) := by
  rw [mem_cartesian] at h
  induction h with
  | nil => exact ⟨List.Forall₂.nil, List.Forall₂.nil⟩
  | cons hp _ ih =>
    have hmem := List.mem_map_of_mem (f := Prod.snd) hp
    exact ⟨List.Forall₂.cons (foldl_min_le_of_mem _ hmem) ih.1,
      List.Forall₂.cons (le_foldl_max_of_mem _ hmem) ih.2⟩

/-! ## The span -/

namespace Selection

variable {sel : Selection} {box : Box} {layout : Shape} {hits : List (List (Nat × Nat))}

/-- A selected element of a box lies in the span of its hits. -/
theorem hitSpan_bounds (hlen : sel.length = box.length) (hlayout : layout.length = box.length)
    (h : sel.hits box = some hits) {q : List Nat} (hq : sel.shape.Holds q)
    (hbox : box.Holds (sel.position q)) :
    (Geometry.hitSpan hits layout.strides).1 ≤ layout.flatten (box.toLocal (sel.position q)) ∧
      layout.flatten (box.toLocal (sel.position q)) <
        (Geometry.hitSpan hits layout.strides).2 := by
  obtain ⟨rfl, -⟩ := eq_of_hits_eq_some h
  have hrow := zip_mem_cartesian_hits hq hbox
  have hlocal : (List.zip q (box.toLocal (sel.position q))).map Prod.snd =
      box.toLocal (sel.position q) := by
    have hqlen : q.length = sel.length := by rw [hq.length_eq, shape, List.length_map]
    exact List.map_snd_zip (by simp [Box.toLocal, position, hlen, hqlen])
  obtain ⟨hlow, hhigh⟩ := row_bounds hrow
  rw [hlocal] at hlow hhigh
  rw [Geometry.hitSpan_eq (by simp [hlen, hlayout])]
  exact ⟨Shape.flatten_mono hlow, Nat.lt_succ_of_le (Shape.flatten_mono hhigh)⟩

/-- Both ends of the span of hits are selected elements of the box. -/
theorem exists_hitSpan (hlen : sel.length = box.length) (hlayout : layout.length = box.length)
    (h : sel.hits box = some hits) :
    (∃ q, sel.shape.Holds q ∧ box.Holds (sel.position q) ∧
        layout.flatten (box.toLocal (sel.position q)) =
          (Geometry.hitSpan hits layout.strides).1) ∧
      ∃ q, sel.shape.Holds q ∧ box.Holds (sel.position q) ∧
        layout.flatten (box.toLocal (sel.position q)) + 1 =
          (Geometry.hitSpan hits layout.strides).2 := by
  obtain ⟨rfl, hne⟩ := eq_of_hits_eq_some h
  rw [Geometry.hitSpan_eq (by simp [hlen, hlayout])]
  constructor
  · obtain ⟨c, hc, hmap⟩ := exists_row lowHit fun ps hps => lowHit_mem (hne ps hps)
    obtain ⟨hq, hbox, hlocal⟩ := holds_of_mem_cartesian_hits hlen hc
    exact ⟨_, hq, hbox, by rw [← hlocal, hmap]⟩
  · obtain ⟨c, hc, hmap⟩ := exists_row highHit fun ps hps => highHit_mem (hne ps hps)
    obtain ⟨hq, hbox, hlocal⟩ := holds_of_mem_cartesian_hits hlen hc
    exact ⟨_, hq, hbox, by rw [← hlocal, hmap]⟩

/-- The span of hits is not empty. -/
theorem hitSpan_lt (hlen : sel.length = box.length) (hlayout : layout.length = box.length)
    (h : sel.hits box = some hits) :
    (Geometry.hitSpan hits layout.strides).1 < (Geometry.hitSpan hits layout.strides).2 := by
  obtain ⟨⟨q, hq, hbox, -⟩, -⟩ := exists_hitSpan hlen hlayout h
  obtain ⟨hlow, hhigh⟩ := hitSpan_bounds hlen hlayout h hq hbox
  omega

/-- The span of hits lies in every layout that the box fits. -/
theorem hitSpan_le (hlen : sel.length = box.length)
    (hlayout : List.Forall₂ (fun (s : Span) n => s.stop ≤ s.start + n) box layout)
    (h : sel.hits box = some hits) : (Geometry.hitSpan hits layout.strides).2 ≤ layout.size := by
  obtain ⟨-, q, -, hbox, hlast⟩ := exists_hitSpan hlen hlayout.length_eq.symm h
  rw [← hlast]
  exact Shape.flatten_lt (Box.holds_layout hlayout hbox)

/-! ## Runs of hits -/

section Runs

variable {r : Run}

/-- Both ends of a run are selected elements of the box. -/
theorem exists_ends_of_run (hlen : sel.length = box.length) (hlayout : layout.length = box.length)
    (h : sel.hits box = some hits) (hr : r ∈ Run.ofHits hits sel.shape.strides layout.strides) :
    (∃ q, sel.shape.Holds q ∧ box.Holds (sel.position q) ∧ sel.shape.flatten q = r.output ∧
        layout.flatten (box.toLocal (sel.position q)) = r.inner) ∧
      ∃ q, sel.shape.Holds q ∧ box.Holds (sel.position q) ∧
        sel.shape.flatten q = r.output + (r.length - 1) ∧
        layout.flatten (box.toLocal (sel.position q)) = r.inner + (r.length - 1) := by
  obtain ⟨hfirst, hlast⟩ := Run.ends_mem_pairs (Run.length_pos_of_mem_walk hr)
  obtain ⟨rfl, -⟩ := eq_of_hits_eq_some h
  exact ⟨(mem_pairs_ofHits hlen hlayout).1 (List.mem_flatMap.2 ⟨r, hr, hfirst⟩),
    (mem_pairs_ofHits hlen hlayout).1 (List.mem_flatMap.2 ⟨r, hr, hlast⟩)⟩

/-- A run lies in the span of the hits and in the output. -/
theorem run_bounds (hlen : sel.length = box.length) (hlayout : layout.length = box.length)
    (h : sel.hits box = some hits) (hr : r ∈ Run.ofHits hits sel.shape.strides layout.strides) :
    (Geometry.hitSpan hits layout.strides).1 ≤ r.inner ∧
      r.inner + r.length ≤ (Geometry.hitSpan hits layout.strides).2 ∧
      r.output + r.length ≤ sel.size := by
  have hpos := Run.length_pos_of_mem_walk hr
  obtain ⟨⟨q, hq, hqbox, -, hfirst⟩, ⟨q', hq', hqbox', houtput, hlast⟩⟩ :=
    exists_ends_of_run hlen hlayout h hr
  have hlow := (hitSpan_bounds hlen hlayout h hq hqbox).1
  have hhigh := (hitSpan_bounds hlen hlayout h hq' hqbox').2
  have hout := Shape.flatten_lt hq'
  rw [← size] at hout
  omega

end Runs

end Selection

end ChunkedArray
