import ChunkedArray.Proofs.Shape.Hits

/-!
# Boxes cut out and padded

Cutting a box out of an array and laying a part into the near corner of a zero-filled array are
copies along the hits of a unit selection. Both are described byte by byte: what the cut shows at
local coordinates (`getD_extractBox`), and what the padded part shows inside and outside the part
(`getD_padToLayout`).
-/

namespace ChunkedArray

/-- The box of a whole shape. -/
def Shape.wholeBox (shape : Shape) : Box :=
  shape.map (Span.mk 0)

/-- The selection of every position of a box. -/
def Selection.ofBox (box : Box) : Selection :=
  box.map fun s => ⟨s.start, s.length, 1⟩

/-- A box whose spans end inside the axes of a shape. -/
def Box.Inside (box : Box) (shape : Shape) : Prop :=
  List.Forall₂ (fun (s : Span) n => s.stop ≤ n) box shape

/-- The coordinates in a box inside a shape are inside the shape. -/
theorem Box.Inside.holds {box : Box} {shape : Shape} (h : box.Inside shape) {c : List Nat}
    (hc : box.Holds c) : shape.Holds c := by
  induction h generalizing c with
  | nil => cases hc; exact List.Forall₂.nil
  | cons hs _ ih =>
    cases hc with
    | cons hi hrest => exact List.Forall₂.cons (by omega) (ih hrest)

namespace Shape

@[simp] theorem length_wholeBox (shape : Shape) : shape.wholeBox.length = shape.length := by
  simp [wholeBox]

@[simp] theorem shape_wholeBox (shape : Shape) : shape.wholeBox.shape = shape := by
  have hlength : Span.length ∘ Span.mk 0 = id := by
    funext n
    exact Nat.sub_zero n
  rw [wholeBox, Box.shape, List.map_map, hlength, List.map_id]

/-- The coordinates in the whole box are those inside the shape. -/
@[simp] theorem holds_wholeBox {shape : Shape} {c : List Nat} :
    shape.wholeBox.Holds c ↔ shape.Holds c := by
  rw [Box.Holds, Holds, wholeBox, List.forall₂_map_right_iff]
  simp

@[simp] theorem toLocal_wholeBox {shape : Shape} {c : List Nat} (h : c.length = shape.length) :
    shape.wholeBox.toLocal c = c := by
  induction shape generalizing c with
  | nil => simpa [wholeBox, Box.toLocal] using (List.length_eq_zero_iff.1 h).symm
  | cons n shape ih =>
    obtain ⟨i, c, rfl⟩ := List.exists_cons_of_length_eq_add_one h
    have htail := ih (c := c) (by simpa using h)
    simp only [wholeBox, Box.toLocal, List.map_cons, List.zipWith_cons_cons] at htail ⊢
    rw [htail, Nat.sub_zero]

@[simp] theorem toGlobal_wholeBox {shape : Shape} {c : List Nat} (h : shape.Holds c) :
    shape.wholeBox.toGlobal c = c := by
  have hglobal := Box.toGlobal_toLocal (holds_wholeBox.2 h)
  rwa [toLocal_wholeBox h.length_eq] at hglobal

end Shape

namespace Selection

@[simp] theorem length_ofBox (box : Box) : (ofBox box).length = box.length := by
  simp [ofBox]

@[simp] theorem shape_ofBox (box : Box) : shape (ofBox box) = box.shape := by
  simp [ofBox, shape, Box.shape]

@[simp] theorem position_ofBox (box : Box) (q : List Nat) :
    (ofBox box).position q = box.toGlobal q := by
  induction box generalizing q with
  | nil => simp [ofBox, position, Box.toGlobal]
  | cons s box ih =>
    cases q with
    | nil => simp [ofBox, position, Box.toGlobal]
    | cons k q =>
      have htail := ih q
      simp only [ofBox, position, Box.toGlobal, List.map_cons, List.zipWith_cons_cons] at htail ⊢
      rw [htail]
      congr 1
      simp [Progression.index]
      omega

/-- Every position of a box inside a shape is on its axis. -/
theorem fits_ofBox {box : Box} {shape : Shape} (h : box.Inside shape) : (ofBox box).Fits shape := by
  induction h with
  | nil => exact List.Forall₂.nil
  | cons hs _ ih =>
    refine List.Forall₂.cons ⟨Int.one_ne_zero, fun k hk => ?_, fun k hk => ?_⟩ ih
    all_goals
      simp only [Span.length] at hk
      dsimp only
      omega

/-- A box is walked by the hits of its positions in the whole array. -/
theorem hits_ofBox {box : Box} {shape : Shape} (h : box.Inside shape) :
    (box.map fun s => (List.range s.length).map fun k => (k, s.start + k)) =
      List.zipWith axisHits (ofBox box) shape.wholeBox := by
  induction h with
  | nil => rfl
  | @cons s n box shape hs _ ih =>
    rw [List.map_cons, ih]
    congr 1
    rw [axisHits, ← List.filterMap_eq_map]
    refine List.filterMap_congr fun k hk => ?_
    have hindex : Progression.index ⟨s.start, s.length, 1⟩ k = s.start + k := by
      simp [Progression.index]
      omega
    have hlt : k < s.stop - s.start := List.mem_range.1 hk
    simp only [hindex]
    rw [if_pos (by omega), Nat.sub_zero, Function.comp_apply]

end Selection

/-- Nothing is cut out of an empty box; otherwise the cut is a copy along hits. -/
theorem extractBox_eq_copyItems {src : Bytes} {shape : Shape} {box : Box} {width : Nat}
    (hbox : box.Inside shape) (hpos : 0 ∉ box.shape) :
    extractBox src shape box width =
      Bytes.copyItems width src (Bytes.zeros (box.shape.size * width))
        (((Run.ofHits (List.zipWith Selection.axisHits (Selection.ofBox box) shape.wholeBox)
          (Selection.shape (Selection.ofBox box)).strides shape.strides).flatMap Run.pairs).map
            fun p => (p.1, p.2 * width)) := by
  simp only [extractBox, if_neg hpos, Selection.hits_ofBox hbox, Selection.shape_ofBox]
  apply Bytes.foldl_runs
  intro out r _
  rw [Bytes.blit_items, Run.pairs, List.map_map]
  rfl

@[simp] theorem size_extractBox (src : Bytes) (shape : Shape) (box : Box) (width : Nat)
    (hbox : box.Inside shape) : (extractBox src shape box width).size = box.shape.size * width := by
  by_cases hpos : 0 ∈ box.shape
  · simp [extractBox, hpos]
  · rw [extractBox_eq_copyItems hbox hpos, Bytes.size_copyItems, Bytes.size_zeros]

/-- The cut shows at local coordinates what the array shows there. -/
theorem getD_extractBox {src : Bytes} {shape : Shape} {box : Box} {width k : Nat} {q : List Nat}
    (hbox : box.Inside shape) (hk : k < width) (hq : box.shape.Holds q) :
    (extractBox src shape box width).getD (box.shape.flatten q * width + k) 0 =
      src.getD (shape.flatten (box.toGlobal q) * width + k) 0 := by
  have hpos : 0 ∉ box.shape := fun h0 => by
    simpa using Shape.size_pos_iff.1 (Shape.size_pos_of_holds hq) 0 h0
  have hlen : box.length = shape.length := hbox.length_eq
  have hq' : Selection.shape (Selection.ofBox box) |>.Holds q := by simpa using hq
  have hlt : box.shape.flatten q * width + k < box.shape.size * width := by
    calc box.shape.flatten q * width + k < (box.shape.flatten q + 1) * width := by
          rw [Nat.succ_mul]; omega
      _ ≤ box.shape.size * width := Nat.mul_le_mul_right _ (Shape.flatten_lt hq)
  have hglobal : shape.Holds (box.toGlobal q) := by
    simpa using Selection.holds_position (Selection.fits_ofBox hbox) hq'
  have hwhole : (Selection.ofBox box).length = shape.wholeBox.length := by simp [hlen]
  have hcopy := Selection.getD_copyOut_hits hwhole (Shape.length_wholeBox shape).symm hk src
    (Bytes.zeros (box.shape.size * width)) (fun l => l * width) hq' (by simpa using hlt)
  rw [extractBox_eq_copyItems hbox hpos]
  simp only [Selection.shape_ofBox, Selection.position_ofBox] at hcopy ⊢
  rw [hcopy, if_pos (Shape.holds_wholeBox.2 hglobal), Shape.toLocal_wholeBox hglobal.length_eq]

/-! ## Padding -/

/-- A shape that is no longer than a layout along any axis. -/
def Shape.FitsIn (extent layout : Shape) : Prop :=
  List.Forall₂ (· ≤ ·) extent layout

/-- A part that does not fill its layout is copied along hits into zeros. -/
theorem padToLayout_eq_copyItems {src : Bytes} {extent layout : Shape} {width : Nat}
    (hne : extent ≠ layout) (hpos : 0 ∉ extent) :
    padToLayout src extent layout width =
      Bytes.copyItems width src (Bytes.zeros (layout.size * width))
        (((Run.ofHits (List.zipWith Selection.axisHits (Selection.ofBox extent.wholeBox)
            extent.wholeBox) (Selection.shape (Selection.ofBox extent.wholeBox)).strides
          layout.strides).flatMap Run.pairs).map fun p => (p.2, p.1 * width)) := by
  have hhits : extent.map axisIdentity =
      List.zipWith Selection.axisHits (Selection.ofBox extent.wholeBox) extent.wholeBox := by
    have hinside : extent.wholeBox.Inside extent := by
      rw [Box.Inside, Shape.wholeBox, List.forall₂_map_left_iff]
      exact List.forall₂_same.2 fun n _ => Nat.le_refl n
    rw [← Selection.hits_ofBox hinside, Shape.wholeBox, List.map_map]
    refine List.map_congr_left fun n _ => ?_
    simp [axisIdentity, Span.length]
  simp only [padToLayout, if_neg hne, if_neg hpos, hhits, Selection.shape_ofBox,
    Shape.shape_wholeBox]
  apply Bytes.foldl_runs
  intro out r _
  rw [Bytes.blit_items, Run.pairs, List.map_map]
  rfl

theorem size_padToLayout {src : Bytes} {extent layout : Shape} {width : Nat}
    (hsrc : src.size = extent.size * width) :
    (padToLayout src extent layout width).size = layout.size * width := by
  by_cases heq : extent = layout
  · rw [padToLayout, if_pos heq, hsrc, heq]
  · by_cases hpos : 0 ∈ extent
    · simp [padToLayout, heq, hpos]
    · rw [padToLayout_eq_copyItems heq hpos, Bytes.size_copyItems, Bytes.size_zeros]

/-- The padded part shows the part where it lies and zeros elsewhere. -/
theorem getD_padToLayout {src : Bytes} {extent layout : Shape} {width k : Nat} {c : List Nat}
    (hfit : extent.FitsIn layout) (hk : k < width) (hc : layout.Holds c) :
    (padToLayout src extent layout width).getD (layout.flatten c * width + k) 0 =
      if extent.Holds c then src.getD (extent.flatten c * width + k) 0 else 0 := by
  by_cases heq : extent = layout
  · subst heq
    rw [padToLayout, if_pos rfl, if_pos hc]
  by_cases hpos : 0 ∈ extent
  · have hnot : ¬ extent.Holds c := fun h => by
      simpa using Shape.size_pos_iff.1 (Shape.size_pos_of_holds h) 0 hpos
    simp only [padToLayout, if_neg heq, if_pos hpos, if_neg hnot, Bytes.getD_zeros]
  -- The part is copied as the hits of its whole box, so what is known of copied hits applies.
  have hlayout : List.Forall₂ (fun (s : Span) n => s.stop ≤ s.start + n) extent.wholeBox layout := by
    rw [Shape.wholeBox, List.forall₂_map_left_iff]
    exact hfit.imp fun m n h => by simpa using h
  have hinside : extent.wholeBox.Inside extent := by
    rw [Box.Inside, Shape.wholeBox, List.forall₂_map_left_iff]
    exact List.forall₂_same.2 fun n _ => Nat.le_refl n
  have hwhole : (Selection.ofBox extent.wholeBox).length = extent.wholeBox.length := by simp
  rw [padToLayout_eq_copyItems heq hpos]
  by_cases hin : extent.Holds c
  · rw [if_pos hin]
    have hlocal : extent.wholeBox.toLocal c = c := Shape.toLocal_wholeBox hin.length_eq
    have hlt : layout.flatten c * width + k < layout.size * width := by
      calc layout.flatten c * width + k < (layout.flatten c + 1) * width := by
            rw [Nat.succ_mul]; omega
        _ ≤ layout.size * width := Nat.mul_le_mul_right _ (Shape.flatten_lt hc)
    have hc' : (Selection.ofBox extent.wholeBox).shape.Holds c := by simpa using hin
    have hcopy := Selection.getD_copyIn_hits (Selection.fits_ofBox hinside) hwhole hlayout hk src
      (Bytes.zeros (layout.size * width)) (fun o => o * width) hc' (by simp [hin])
      (by simpa [hin, hlocal] using hlt)
    simpa [hin, hlocal] using hcopy
  · rw [if_neg hin, Selection.getD_copyIn_hits_of_miss hwhole hlayout hk src _ (fun o => o * width) hc,
      Bytes.getD_zeros]
    intro q hq _ hmiss
    have hq' : extent.Holds q := by simpa using hq
    rw [Selection.position_ofBox, Shape.toGlobal_wholeBox hq',
      Shape.toLocal_wholeBox hq'.length_eq] at hmiss
    exact hin (hmiss ▸ hq')

end ChunkedArray
