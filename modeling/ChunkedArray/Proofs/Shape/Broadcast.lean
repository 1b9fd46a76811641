import ChunkedArray.Proofs.Shape.Coords
import ChunkedArray.Shape.Broadcast

/-!
# Broadcasting

Both operands of a broadcast stretch to the common shape. Coordinates of the common shape are
projected to those of an operand by leaving out the axes that the operand lacks and going to the
origin along those that are stretched; projecting first to a shape between the two changes nothing.
-/

namespace ChunkedArray

/-- A list that is no shorter than another one ends in a list of its length. -/
theorem exists_append_of_length_le {α β : Type} {l : List α} {r : List β}
    (h : l.length ≤ r.length) : ∃ front back, r = front ++ back ∧ back.length = l.length := by
  refine ⟨r.take (r.length - l.length), r.drop (r.length - l.length),
    (List.take_append_drop _ _).symm, ?_⟩
  rw [List.length_drop]
  omega

/-- What is related to a joined list is joined from what is related to its parts. -/
theorem exists_append_of_forall₂ {α β : Type} {R : α → β → Prop} {l l' : List α} {r : List β}
    (h : List.Forall₂ R (l ++ l') r) :
    ∃ front back, r = front ++ back ∧ List.Forall₂ R l front ∧ List.Forall₂ R l' back := by
  induction l generalizing r with
  | nil => exact ⟨[], r, rfl, List.Forall₂.nil, h⟩
  | cons x l ih =>
    cases h with
    | cons hx hrest =>
      obtain ⟨front, back, rfl, hfront, hback⟩ := ih hrest
      exact ⟨_ :: front, back, rfl, List.Forall₂.cons hx hfront, hback⟩

namespace Shape

/-- A shape that can be stretched to another: aligned at the end, every axis has the length of its
counterpart or one. -/
def Stretches (operand target : Shape) : Prop :=
  ∃ front back, target = front ++ back ∧ List.Forall₂ (fun m n => m = n ∨ m = 1) operand back

variable {a b s t : Shape} {c : List Nat}

theorem Stretches.length_le (h : a.Stretches t) : a.length ≤ t.length := by
  obtain ⟨front, back, rfl, hback⟩ := h
  rw [List.length_append, hback.length_eq]
  exact Nat.le_add_left _ _

theorem Stretches.refl (a : Shape) : a.Stretches a :=
  ⟨[], a, rfl, List.forall₂_same.2 fun _ _ => .inl rfl⟩

theorem Stretches.trans (h : a.Stretches b) (h' : b.Stretches t) : a.Stretches t := by
  obtain ⟨front, back, rfl, hback⟩ := h
  obtain ⟨front', back', rfl, hback'⟩ := h'
  obtain ⟨mid, rest, rfl, -, hrest⟩ := exists_append_of_forall₂ hback'
  refine ⟨front' ++ mid, rest, (List.append_assoc _ _ _).symm, ?_⟩
  clear hback'
  induction hback generalizing rest with
  | nil => exact hrest
  | cons hm _ ih =>
    cases hrest with
    | cons hn hrest =>
      refine List.Forall₂.cons ?_ (ih _ hrest)
      rcases hm with rfl | rfl
      · exact hn
      · exact .inr rfl

/-- An axis of an operand is no longer than the longest of what it stretches to. -/
theorem Stretches.forall_lt (h : a.Stretches t) {bound : Nat} (hbound : 1 < bound)
    (ht : ∀ n ∈ t, n < bound) : ∀ m ∈ a, m < bound := by
  obtain ⟨front, back, rfl, hback⟩ := h
  have hlt (n : Nat) (hn : n ∈ back) : n < bound := ht n (List.mem_append_right _ hn)
  clear ht
  induction hback with
  | nil => exact List.forall_mem_nil _
  | cons hm _ ih =>
    obtain ⟨hn, hrest⟩ := List.forall_mem_cons.1 hlt
    refine List.forall_mem_cons.2 ⟨?_, ih hrest⟩
    rcases hm with rfl | rfl
    · exact hn
    · exact hbound

theorem size_le_of_forall₂ {back : Shape} (h : List.Forall₂ (fun m n => m = n ∨ m = 1) a back)
    (hpos : ∀ n ∈ back, 0 < n) : a.size ≤ back.size := by
  induction h with
  | nil => exact le_rfl
  | cons hm _ ih =>
    obtain ⟨hn, hrest⟩ := List.forall_mem_cons.1 hpos
    refine Nat.mul_le_mul ?_ (ih hrest)
    rcases hm with rfl | rfl
    · exact le_rfl
    · exact hn

/-- An operand has no more elements than what it stretches to, if that is empty along no axis. -/
theorem Stretches.size_le (h : a.Stretches t) (ht : ∀ n ∈ t, 0 < n) : a.size ≤ t.size := by
  obtain ⟨front, back, rfl, hback⟩ := h
  obtain ⟨hfront, hpos⟩ := List.forall_mem_append.1 ht
  rw [size_append]
  exact (size_le_of_forall₂ hback hpos).trans (Nat.le_mul_of_pos_left _ (size_pos_iff.2 hfront))

theorem stretchesTo_iff : a.stretchesTo t = true ↔ a.Stretches t := by
  rw [stretchesTo, Bool.and_eq_true, decide_eq_true_eq, List.all_eq_true]
  constructor
  · rintro ⟨hlen, hall⟩
    refine ⟨t.take (t.length - a.length), t.drop (t.length - a.length),
      (List.take_append_drop _ _).symm, List.forall₂_iff_zip.2 ⟨?_, fun {m n} hmem => ?_⟩⟩
    · rw [List.length_drop]
      omega
    · simpa using hall _ hmem
  · rintro ⟨front, back, rfl, hback⟩
    have hlen := hback.length_eq
    rw [List.length_append, hlen, Nat.add_sub_cancel, List.drop_left]
    refine ⟨Nat.le_add_left _ _, fun p hp => ?_⟩
    simpa using (List.forall₂_iff_zip.1 hback).2 hp

/-! ## The common shape -/

theorem broadcastAxis_eq_some {m n k : Nat} (h : broadcastAxis m n = some k) :
    (m = k ∨ m = 1) ∧ (n = k ∨ n = 1) := by
  unfold broadcastAxis at h
  grind

/-- Aligned at the start, both operands are stretched along the axes that they have. -/
theorem exists_of_broadcastReversed (h : broadcastReversed a b = some s) :
    (∃ front back, s = front ++ back ∧ List.Forall₂ (fun m n => m = n ∨ m = 1) a front) ∧
      ∃ front back, s = front ++ back ∧ List.Forall₂ (fun m n => m = n ∨ m = 1) b front := by
  -- On both shapes at once. Where one ends, the other goes on alone.
  induction a generalizing b s with
  | nil =>
    cases b with
    | nil =>
      cases h
      exact ⟨⟨[], [], rfl, List.Forall₂.nil⟩, ⟨[], [], rfl, List.Forall₂.nil⟩⟩
    | cons n b =>
      cases h
      exact ⟨⟨[], n :: b, rfl, List.Forall₂.nil⟩, ⟨n :: b, [], (List.append_nil _).symm,
        List.forall₂_same.2 fun _ _ => .inl rfl⟩⟩
  | cons m a ih =>
    cases b with
    | nil =>
      cases h
      exact ⟨⟨m :: a, [], (List.append_nil _).symm, List.forall₂_same.2 fun _ _ => .inl rfl⟩,
        ⟨[], m :: a, rfl, List.Forall₂.nil⟩⟩
    | cons n b =>
      simp only [broadcastReversed, Option.bind_eq_bind, Option.bind_eq_some_iff] at h
      obtain ⟨k, hk, rest, hrest, h⟩ := h
      cases h
      obtain ⟨hm, hn⟩ := broadcastAxis_eq_some hk
      obtain ⟨⟨front, back, rfl, ha⟩, ⟨front', back', heq, hb⟩⟩ := ih hrest
      refine ⟨⟨k :: front, back, rfl, List.Forall₂.cons hm ha⟩, k :: front', back', ?_,
        List.Forall₂.cons hn hb⟩
      rw [heq, List.cons_append]

/-- Both operands of a broadcast stretch to the common shape. -/
theorem stretches_of_broadcast (h : broadcast a b = .ok s) : a.Stretches s ∧ b.Stretches s := by
  unfold broadcast broadcast? at h
  cases hreversed : broadcastReversed a.reverse b.reverse with
  | none =>
    rw [hreversed] at h
    cases h
  | some r =>
    rw [hreversed] at h
    cases h
    obtain ⟨⟨front, back, hr, ha⟩, ⟨front', back', hr', hb⟩⟩ :=
      exists_of_broadcastReversed hreversed
    refine ⟨⟨back.reverse, front.reverse, ?_, ?_⟩, back'.reverse, front'.reverse, ?_, ?_⟩
    · rw [hr, List.reverse_append]
    · rw [← List.forall₂_reverse_iff, List.reverse_reverse]
      exact ha
    · rw [hr', List.reverse_append]
    · rw [← List.forall₂_reverse_iff, List.reverse_reverse]
      exact hb

/-! ## Projection -/

/-- The coordinate along an axis of an operand. -/
def projectAxis (n i : Nat) : Nat :=
  if n = 1 then 0 else i

theorem project_append {front back : List Nat} (h : back.length = a.length) :
    project a (front ++ back) = List.zipWith projectAxis a back := by
  rw [project, List.length_append, h, Nat.add_sub_cancel, List.drop_left]
  rfl

theorem project_of_length_eq (h : c.length = a.length) :
    project a c = List.zipWith projectAxis a c := by
  rw [project, h, Nat.sub_self, List.drop_zero]
  rfl

/-- Coordinates inside a shape are their own projection. -/
theorem project_self (h : t.Holds c) : project t c = c := by
  rw [project_of_length_eq h.length_eq]
  induction h with
  | nil => rfl
  | cons hi _ ih =>
    rw [List.zipWith_cons_cons, ih, projectAxis]
    split
    · congr 1
      omega
    · rfl

/-- The projection of coordinates inside a shape lies inside the operand. -/
theorem holds_project (h : a.Stretches t) (hc : t.Holds c) : a.Holds (project a c) := by
  obtain ⟨front, back, rfl, hback⟩ := h
  obtain ⟨c₁, c₂, rfl, -, hc₂⟩ := exists_append_of_forall₂ (List.Forall₂.flip hc)
  have hlen : c₂.length = a.length := by rw [← hc₂.length_eq, ← hback.length_eq]
  rw [project_append hlen]
  clear hc hlen
  induction hback generalizing c₂ with
  | nil => exact List.Forall₂.nil
  | cons hm _ ih =>
    cases hc₂ with
    | cons hi hrest =>
      refine List.Forall₂.cons ?_ (ih _ hrest)
      rw [projectAxis]
      split <;> omega

/-- A projection through a shape between the two is the projection. -/
theorem project_project (h : a.Stretches b) (hlen : b.length ≤ c.length) :
    project a (project b c) = project a c := by
  obtain ⟨front, back, rfl, hback⟩ := h
  obtain ⟨c₀, c₁, rfl, hc₁⟩ := exists_append_of_length_le hlen
  rw [project_append hc₁]
  rw [List.length_append] at hc₁
  obtain ⟨c₂, c₃, rfl, hc₃⟩ := exists_append_of_length_le (l := back) (r := c₁) (by omega)
  rw [List.length_append] at hc₁
  rw [List.zipWith_append (by omega), ← List.append_assoc,
    project_append (by rw [List.length_zipWith, hc₃, Nat.min_self, hback.length_eq]),
    project_append (by rw [hc₃, hback.length_eq])]
  clear hc₁ hlen
  induction hback generalizing c₃ with
  | nil => rfl
  | @cons m n a back hm _ ih =>
    obtain ⟨i, c₃, rfl⟩ := List.exists_cons_of_length_eq_add_one hc₃
    rw [List.zipWith_cons_cons, List.zipWith_cons_cons, List.zipWith_cons_cons,
      ih _ (by simpa using hc₃)]
    congr 1
    unfold projectAxis
    grind

end Shape

end ChunkedArray
