import ChunkedArray.Proofs.Shape.Layout

/-!
# Boxes as regions

A box asks for its spans as slices. Positions are signed words, so a box that ends beyond the largest
one is cut short; a box that is not resolves to itself, and so does every box inside it.
-/

namespace ChunkedArray

/-- A box whose spans end at positions that are signed words of axes of a shape. -/
def Box.Addressable (box : Box) (shape : Shape) : Prop :=
  List.Forall₂ (fun (s : Span) n => (s.stop : Int) ≤ Slice.signedLength n) box shape

/-- A box that lies in another one. -/
def Box.Within (inner outer : Box) : Prop :=
  List.Forall₂ (fun (s t : Span) => t.start ≤ s.start ∧ s.stop ≤ t.stop) inner outer

/-- A box that is empty along no axis. -/
def Box.Nonempty (box : Box) : Prop :=
  ∀ s ∈ box, s.start < s.stop

/-- A box is empty along no axis exactly if no span of it is found to be empty. -/
theorem Box.nonempty_iff {box : Box} : box.Nonempty ↔ ¬ box.any Span.isEmpty = true := by
  simp [Box.Nonempty, Span.isEmpty]

theorem Box.nonempty_cons {s : Span} {box : Box} :
    Box.Nonempty (s :: box) ↔ s.start < s.stop ∧ Box.Nonempty box :=
  List.forall_mem_cons

theorem Box.nonempty_of_forall₂ {α : Type} {P : Span → α → Prop} {box : Box} {l : List α}
    (h : List.Forall₂ (fun s x => s.start < s.stop ∧ P s x) box l) : box.Nonempty := by
  induction h with
  | nil => exact List.forall_mem_nil _
  | cons hs _ ih => exact Box.nonempty_cons.2 ⟨hs.1, ih⟩

theorem Box.size_pos {box : Box} (h : box.Nonempty) : 0 < box.shape.size := by
  refine Shape.size_pos_iff.2 fun n hn => ?_
  obtain ⟨s, hs, rfl⟩ := List.mem_map.1 hn
  exact Nat.sub_pos_of_lt (h s hs)

/-- A box that is not empty lies in a shape without empty axes. -/
theorem Box.Inside.size_pos {box : Box} {shape : Shape} (h : box.Inside shape) (hne : box.Nonempty) :
    0 < shape.size := by
  refine Shape.size_pos_iff.2 ?_
  induction h with
  | nil => exact List.forall_mem_nil _
  | cons hs _ ih =>
    obtain ⟨hlt, hrest⟩ := Box.nonempty_cons.1 hne
    exact List.forall_mem_cons.2 ⟨by omega, ih hrest⟩

/-- A box inside a shape whose axes are signed words lies between signed words. -/
theorem Box.Inside.addressable_of_lt {box : Box} {shape : Shape} (h : box.Inside shape)
    (hdims : ∀ n ∈ shape, n < 2 ^ 63) : box.Addressable shape := by
  induction h with
  | nil => exact List.Forall₂.nil
  | @cons s n box shape hs _ ih =>
    obtain ⟨hn, hrest⟩ := List.forall_mem_cons.1 hdims
    have hlength : Slice.signedLength n = n := if_pos hn
    refine List.Forall₂.cons ?_ (ih hrest)
    rw [hlength]
    exact Int.ofNat_le.2 hs

/-- A box inside a shape whose elements can be counted lies between signed words. -/
theorem Box.Inside.addressable {box : Box} {shape : Shape} (h : box.Inside shape)
    (hne : box.Nonempty) (hsize : shape.size < 2 ^ 63) : box.Addressable shape :=
  h.addressable_of_lt (Shape.lt_of_size_lt (h.size_pos hne) hsize)

theorem Box.Inside.fitsIn {box : Box} {shape : Shape} (h : box.Inside shape) :
    box.shape.FitsIn shape := by
  induction h with
  | nil => exact List.Forall₂.nil
  | cons hs _ ih => exact List.Forall₂.cons ((Nat.sub_le _ _).trans hs) ih

/-- A box that is empty along no axis holds its origin. -/
theorem Box.holds_origin {box : Box} (h : box.Nonempty) : box.Holds box.origin := by
  rw [Box.Holds, Box.origin, List.forall₂_map_left_iff, List.forall₂_same]
  exact fun s hs => ⟨Nat.le_refl _, h s hs⟩

theorem Box.Within.refl (box : Box) : box.Within box :=
  List.forall₂_same.2 fun _ _ => ⟨Nat.le_refl _, Nat.le_refl _⟩

theorem Box.Within.holds {inner outer : Box} (h : inner.Within outer) {c : List Nat}
    (hc : inner.Holds c) : outer.Holds c := by
  induction h generalizing c with
  | nil => exact hc
  | cons hs _ ih =>
    cases hc with
    | cons hi hrest => exact List.Forall₂.cons ⟨hs.1.trans hi.1, hi.2.trans_le hs.2⟩ (ih hrest)

theorem Box.Within.inside {inner outer : Box} {shape : Shape} (h : inner.Within outer)
    (houter : outer.Inside shape) : inner.Inside shape := by
  induction h generalizing shape with
  | nil => exact houter
  | cons hs _ ih =>
    cases houter with
    | cons hn hrest => exact List.Forall₂.cons (hs.2.trans hn) (ih hrest)

theorem Box.Within.addressable {inner outer : Box} {shape : Shape} (h : inner.Within outer)
    (houter : outer.Addressable shape) : inner.Addressable shape := by
  induction h generalizing shape with
  | nil => exact houter
  | cons hs _ ih =>
    cases houter with
    | cons hn hrest => exact List.Forall₂.cons (by omega) (ih hrest)

theorem Box.Within.nonempty {inner outer : Box} (h : inner.Within outer) (hne : inner.Nonempty) :
    outer.Nonempty := by
  induction h with
  | nil => exact hne
  | cons hs _ ih =>
    obtain ⟨hlt, hrest⟩ := Box.nonempty_cons.1 hne
    exact Box.nonempty_cons.2 ⟨by omega, ih hrest⟩

/-- The elements that two boxes share. -/
def Box.inter (a b : Box) : Box :=
  List.zipWith Span.inter a b

theorem Box.holds_inter {a b : Box} (hlen : a.length = b.length) {c : List Nat} :
    (a.inter b).Holds c ↔ a.Holds c ∧ b.Holds c := by
  induction a generalizing b c with
  | nil =>
    obtain rfl := List.length_eq_zero_iff.1 hlen.symm
    exact (and_self_iff).symm
  | cons s a ih =>
    obtain ⟨t, b, rfl⟩ := List.exists_cons_of_length_eq_add_one hlen.symm
    have hrest := @ih b (by simpa using hlen)
    cases c with
    | nil =>
      constructor
      · intro h
        cases h
      · rintro ⟨h, -⟩
        cases h
    | cons i c =>
      simp only [Holds, inter, List.zipWith_cons_cons, List.forall₂_cons, Span.inter] at hrest ⊢
      rw [hrest, Nat.max_le, Nat.lt_min]
      grind

theorem Box.within_inter {a b : Box} (hlen : a.length = b.length) : (a.inter b).Within a := by
  induction a generalizing b with
  | nil => exact List.Forall₂.nil
  | cons s a ih =>
    obtain ⟨t, b, rfl⟩ := List.exists_cons_of_length_eq_add_one hlen.symm
    refine List.Forall₂.cons ?_ (ih (by simpa using hlen))
    simp only [Span.inter]
    omega

theorem Box.within_inter_right {a b : Box} (hlen : a.length = b.length) : (a.inter b).Within b := by
  induction a generalizing b with
  | nil =>
    obtain rfl := List.length_eq_zero_iff.1 hlen.symm
    exact List.Forall₂.nil
  | cons s a ih =>
    obtain ⟨t, b, rfl⟩ := List.exists_cons_of_length_eq_add_one hlen.symm
    refine List.Forall₂.cons ?_ (ih (by simpa using hlen))
    simp only [Span.inter]
    omega

/-- A box that holds an element is empty along no axis. -/
theorem Box.Holds.nonempty {box : Box} {c : List Nat} (h : box.Holds c) : box.Nonempty := by
  induction h with
  | nil => exact List.forall_mem_nil _
  | cons hi _ ih => exact Box.nonempty_cons.2 ⟨hi.1.trans_lt hi.2, ih⟩

theorem Box.Within.fitsIn {inner outer : Box} (h : inner.Within outer) :
    inner.shape.FitsIn outer.shape := by
  induction h with
  | nil => exact List.Forall₂.nil
  | cons hs _ ih => exact List.Forall₂.cons (by unfold Span.length; omega) ih

/-- A shape that is no longer along any axis has no more elements. -/
theorem Shape.size_le_of_fitsIn {extent layout : Shape} (h : extent.FitsIn layout) :
    extent.size ≤ layout.size := by
  induction h with
  | nil => exact le_rfl
  | cons hmn _ ih => exact Nat.mul_le_mul hmn ih

/-- Shapes of which one is no longer along any axis are equal if they have equally many elements. -/
theorem Shape.eq_of_size_eq {extent layout : Shape} (h : extent.FitsIn layout)
    (hsize : extent.size = layout.size) (hpos : 0 < layout.size) : extent = layout := by
  induction h with
  | nil => rfl
  | @cons m n extent layout hmn hrest ih =>
    rw [size, size] at hsize
    rw [size] at hpos
    have hn : 0 < n := Nat.pos_of_mul_pos_right hpos
    have hlayout : 0 < size layout := Nat.pos_of_mul_pos_left hpos
    have hle := size_le_of_fitsIn hrest
    have hm : m = n := by
      refine Nat.le_antisymm hmn (Nat.le_of_mul_le_mul_right ?_ hlayout)
      rw [← hsize]
      exact Nat.mul_le_mul_left _ hle
    subst hm
    rw [ih (Nat.eq_of_mul_eq_mul_left hn hsize) hlayout]

/-! ## Single elements -/

/-- The box of a single element. -/
def Box.single (c : List Nat) : Box :=
  c.map fun i => ⟨i, i + 1⟩

theorem Box.holds_single (c : List Nat) : (Box.single c).Holds c := by
  induction c with
  | nil => exact List.Forall₂.nil
  | cons i c ih => exact List.Forall₂.cons ⟨Nat.le_refl i, Nat.lt_succ_self i⟩ ih

theorem Box.nonempty_single (c : List Nat) : (Box.single c).Nonempty := by
  intro s hs
  obtain ⟨i, -, rfl⟩ := List.mem_map.1 hs
  exact Nat.lt_succ_self i

theorem Box.within_single {box : Box} {c : List Nat} (h : box.Holds c) :
    (Box.single c).Within box := by
  induction h with
  | nil => exact List.Forall₂.nil
  | cons hi _ ih => exact List.Forall₂.cons ⟨hi.1, hi.2⟩ ih

/-- The single element has the first place. -/
theorem Box.flatten_single (c : List Nat) :
    (Box.single c).shape.flatten ((Box.single c).toLocal c) = 0 := by
  induction c with
  | nil => rfl
  | cons i c ih =>
    have hstep : (Box.single (i :: c)).shape.flatten ((Box.single (i :: c)).toLocal (i :: c)) =
        (i - i) * (Box.single c).shape.size +
          (Box.single c).shape.flatten ((Box.single c).toLocal c) := rfl
    rw [hstep, ih, Nat.sub_self, Nat.zero_mul]

namespace Slice

theorem resolve_ofSpan_eq (s : Span) (n : Nat) :
    (ofSpan s).resolve false n =
      .ok ⟨if strideCount (clamp 0 (signedLength n) s.start) (clamp 0 (signedLength n) s.stop) 1 = 0
          then 0 else (clamp 0 (signedLength n) s.start).toNat,
        strideCount (clamp 0 (signedLength n) s.start) (clamp 0 (signedLength n) s.stop) 1, 1⟩ := by
  have hstart : wrap (signedLength n) s.start = s.start := if_neg (by omega)
  have hstop : wrap (signedLength n) s.stop = s.stop := if_neg (by omega)
  simp [ofSpan, resolve, hstart, hstop]

/-- The slice of a span is cut short or resolves to the span. -/
theorem resolve_ofSpan {s : Span} (n : Nat) (hs : s.start < s.stop) :
    ∃ p, (ofSpan s).resolve false n = .ok p ∧ p.count ≤ s.length ∧
      ((s.stop : Int) ≤ signedLength n → p = ⟨s.start, s.length, 1⟩) ∧
      (p.count = s.length → (s.stop : Int) ≤ signedLength n) := by
  refine ⟨_, resolve_ofSpan_eq s n, ?_⟩
  generalize signedLength n = bound
  have hcount : strideCount (clamp 0 bound s.start) (clamp 0 bound s.stop) 1 =
      (clamp 0 bound s.stop - clamp 0 bound s.start).toNat := by
    rw [strideCount]
    split <;> omega
  have hlow : clamp 0 bound s.start = max 0 (min (s.start : Int) bound) := rfl
  have hhigh : clamp 0 bound s.stop = max 0 (min (s.stop : Int) bound) := rfl
  simp only [hcount, Span.length]
  refine ⟨by omega, fun hstop => ?_, fun hlength => by omega⟩
  rw [Progression.mk.injEq, if_neg (by omega)]
  exact ⟨by omega, by omega, rfl⟩

end Slice

namespace Region

theorem resolveAxes_ofBox {box : Box} {shape : Shape} (h : box.Addressable shape)
    (hne : box.Nonempty) : resolveAxes false shape (ofBox box) = .ok (.ofBox box) := by
  induction h with
  | nil => rfl
  | cons hs _ ih =>
    obtain ⟨hlt, hne⟩ := Box.nonempty_cons.1 hne
    obtain ⟨p, hp, -, hfull, -⟩ := Slice.resolve_ofSpan _ hlt
    rw [hfull hs] at hp
    simp only [ofBox, List.map_cons, resolveAxes, List.head?_cons, Option.getD_some, hp,
      List.tail_cons]
    rw [← ofBox, ih hne]
    rfl

/-- A box between signed words resolves to its positions. -/
theorem resolve_ofBox {box : Box} {shape : Shape} (h : box.Addressable shape)
    (hne : box.Nonempty) : (ofBox box).resolve shape = .ok (.ofBox box) := by
  rw [resolve, resolveWith, if_neg (by rw [ofBox, List.length_map, h.length_eq]; omega),
    resolveAxes_ofBox h hne]

/-- Axis by axis the region of a box is cut short, or the box lies between signed words. -/
theorem fitsIn_of_resolveAxes_ofBox {box : Box} {shape : Shape} {sel : Selection}
    (hlen : box.length = shape.length) (hne : box.Nonempty)
    (h : resolveAxes false shape (ofBox box) = .ok sel) :
    sel.shape.FitsIn box.shape ∧ (sel.shape = box.shape → box.Addressable shape) := by
  induction box generalizing shape sel with
  | nil =>
    obtain rfl := List.length_eq_zero_iff.1 hlen.symm
    cases h
    exact ⟨List.Forall₂.nil, fun _ => List.Forall₂.nil⟩
  | cons s box ih =>
    obtain ⟨n, shape, rfl⟩ := List.exists_cons_of_length_eq_add_one hlen.symm
    obtain ⟨hlt, hne⟩ := Box.nonempty_cons.1 hne
    obtain ⟨p, hp, hle, -, hfull⟩ := Slice.resolve_ofSpan n hlt
    simp only [ofBox, List.map_cons, resolveAxes, List.head?_cons, Option.getD_some, hp,
      List.tail_cons] at h
    rw [← ofBox] at h
    cases hrest : resolveAxes false shape (ofBox box) with
    | error e =>
      rw [hrest] at h
      cases h
    | ok rest =>
      rw [hrest] at h
      cases h
      obtain ⟨hfit, hbox⟩ := ih (by simpa using hlen) hne hrest
      refine ⟨List.Forall₂.cons hle hfit, fun heq => ?_⟩
      obtain ⟨hcount, hshape⟩ := List.cons.inj heq
      exact List.Forall₂.cons (hfull hcount) (hbox hshape)

/-- A box that resolves to as many positions as it has lies between signed words. -/
theorem addressable_of_size_eq {box : Box} {shape : Shape} {sel : Selection}
    (hlen : box.length = shape.length) (hne : box.Nonempty)
    (h : (ofBox box).resolve shape = .ok sel) (hsize : sel.size = box.shape.size) :
    box.Addressable shape := by
  rw [resolve, resolveWith, if_neg (by rw [ofBox, List.length_map, hlen]; omega)] at h
  obtain ⟨hfit, hbox⟩ := fitsIn_of_resolveAxes_ofBox hlen hne h
  exact hbox (Shape.eq_of_size_eq hfit hsize (Box.size_pos hne))

end Region

end ChunkedArray
