import ChunkedArray.Proofs.Action
import ChunkedArray.Proofs.Shape.Broadcast

/-!
# The least common shape

Stretching is a partial order of shapes, and the empty shape stretches to all of them. A broadcast
gives the least shape to which both operands stretch, whenever there is a shape to which they do
(`broadcast_eq_ok_iff`). A least shape of several shapes can be found by letting two of them meet first
(`leastStretch_cons_cons_iff`), and it does not depend on their order; the laws of broadcasting follow.
-/

namespace ChunkedArray

/-- Two results that are reached in the same way both fail or give the same. -/
theorem toOption_congr {α : Type} {x y : Result α} (h : ∀ r, x = .ok r ↔ y = .ok r) :
    x.toOption = y.toOption := by
  have htoOption (z : Result α) (r : α) : z.toOption = some r ↔ z = .ok r := by
    cases z <;> simp [Except.toOption]
  refine Option.ext fun r => ?_
  rw [htoOption, htoOption, h]

namespace Shape

variable {a b c s t : Shape} {shapes shapes' : List Shape}

/-! ## The order of shapes -/

/-- A shape that can be stretched to another, both given from the last axis to the first. -/
def StretchesReversed : Shape → Shape → Prop
  | [], _ => True
  | _ :: _, [] => False
  | m :: a, n :: t => (m = n ∨ m = 1) ∧ StretchesReversed a t

theorem stretchesReversed_iff : StretchesReversed a t ↔
    ∃ front back, t = front ++ back ∧ List.Forall₂ (fun m n => m = n ∨ m = 1) a front := by
  induction a generalizing t with
  | nil => exact ⟨fun _ => ⟨[], t, rfl, List.Forall₂.nil⟩, fun _ => trivial⟩
  | cons m a ih =>
    cases t with
    | nil =>
      refine ⟨False.elim, ?_⟩
      rintro ⟨front, back, heq, hfront⟩
      obtain ⟨rfl, -⟩ := List.append_eq_nil_iff.1 heq.symm
      cases hfront
    | cons n t =>
      rw [StretchesReversed, ih]
      constructor
      · rintro ⟨hm, front, back, rfl, hfront⟩
        exact ⟨n :: front, back, rfl, List.Forall₂.cons hm hfront⟩
      · rintro ⟨front, back, heq, hfront⟩
        cases hfront with
        | cons hm hrest =>
          cases heq
          exact ⟨hm, _, back, rfl, hrest⟩

theorem stretches_iff_reversed : a.Stretches t ↔ StretchesReversed a.reverse t.reverse := by
  rw [stretchesReversed_iff]
  constructor
  · rintro ⟨front, back, rfl, hback⟩
    exact ⟨back.reverse, front.reverse, List.reverse_append, List.forall₂_reverse_iff.2 hback⟩
  · rintro ⟨back, front, heq, hback⟩
    refine ⟨front.reverse, back.reverse, ?_, ?_⟩
    · rw [← List.reverse_append, ← heq, List.reverse_reverse]
    · rw [← List.forall₂_reverse_iff, List.reverse_reverse]
      exact hback

theorem stretches_nil (t : Shape) : Stretches [] t :=
  ⟨t, [], (List.append_nil t).symm, List.Forall₂.nil⟩

theorem stretchesReversed_antisymm (h : StretchesReversed a b) (h' : StretchesReversed b a) :
    a = b := by
  induction a generalizing b with
  | nil =>
    cases b with
    | nil => rfl
    | cons n b => exact h'.elim
  | cons m a ih =>
    cases b with
    | nil => exact h.elim
    | cons n b =>
      obtain ⟨hm, hrest⟩ := h
      obtain ⟨hn, hrest'⟩ := h'
      rw [ih hrest hrest']
      congr 1
      omega

theorem Stretches.antisymm (h : a.Stretches b) (h' : b.Stretches a) : a = b :=
  List.reverse_injective
    (stretchesReversed_antisymm (stretches_iff_reversed.1 h) (stretches_iff_reversed.1 h'))

/-! ## Least shapes -/

/-- The least shape to which all shapes of a list stretch. -/
structure LeastStretch (shapes : List Shape) (s : Shape) : Prop where
  /-- They stretch to it. -/
  stretches : ∀ a ∈ shapes, a.Stretches s
  /-- It stretches to every other one to which they do. -/
  least : ∀ t, (∀ a ∈ shapes, a.Stretches t) → s.Stretches t

theorem LeastStretch.unique (h : LeastStretch shapes s) (h' : LeastStretch shapes t) : s = t :=
  (h.least t h'.stretches).antisymm (h'.least s h.stretches)

/-- Which shapes there are decides on the least one, and not in which order or how often. -/
theorem leastStretch_congr (h : ∀ a, a ∈ shapes ↔ a ∈ shapes') :
    LeastStretch shapes s ↔ LeastStretch shapes' s := by
  have hforall (P : Shape → Prop) : (∀ a ∈ shapes, P a) ↔ ∀ a ∈ shapes', P a :=
    forall_congr' fun a => imp_congr_left (h a)
  constructor
  · rintro ⟨hstretches, hleast⟩
    exact ⟨(hforall _).1 hstretches, fun t ht => hleast t ((hforall _).2 ht)⟩
  · rintro ⟨hstretches, hleast⟩
    exact ⟨(hforall _).2 hstretches, fun t ht => hleast t ((hforall _).1 ht)⟩

theorem leastStretch_singleton_iff : LeastStretch [a] s ↔ a = s := by
  have hself : LeastStretch [a] a :=
    ⟨fun b hb => List.mem_singleton.1 hb ▸ .refl b, fun t ht => ht a (List.mem_singleton_self a)⟩
  exact ⟨hself.unique, fun h => h ▸ hself⟩

/-! ## The result of a broadcast -/

theorem exists_broadcastAxis {m n k : Nat} (hm : m = k ∨ m = 1) (hn : n = k ∨ n = 1) :
    ∃ j, broadcastAxis m n = some j ∧ (j = k ∨ j = 1) := by
  unfold broadcastAxis
  grind

/-- Shapes that stretch to one and the same have a common shape, and it stretches there as well. -/
theorem exists_broadcastReversed (ha : StretchesReversed a t) (hb : StretchesReversed b t) :
    ∃ s, broadcastReversed a b = some s ∧ StretchesReversed s t := by
  induction a generalizing b t with
  | nil => exact ⟨b, by rw [broadcastReversed], hb⟩
  | cons m a ih =>
    cases b with
    | nil => exact ⟨m :: a, rfl, ha⟩
    | cons n b =>
      cases t with
      | nil => exact ha.elim
      | cons k t =>
        obtain ⟨hm, ha⟩ := ha
        obtain ⟨hn, hb⟩ := hb
        obtain ⟨j, hj, hjk⟩ := exists_broadcastAxis hm hn
        obtain ⟨s, hs, hst⟩ := ih ha hb
        refine ⟨j :: s, ?_, hjk, hst⟩
        simp only [broadcastReversed, hj, hs, Option.bind_eq_bind, Option.bind_some]

theorem exists_broadcast (ha : a.Stretches t) (hb : b.Stretches t) :
    ∃ s, broadcast a b = .ok s ∧ s.Stretches t := by
  obtain ⟨s, hs, hst⟩ :=
    exists_broadcastReversed (stretches_iff_reversed.1 ha) (stretches_iff_reversed.1 hb)
  refine ⟨s.reverse, ?_, ?_⟩
  · rw [broadcast, broadcast?, hs]
    rfl
  · rwa [stretches_iff_reversed, List.reverse_reverse]

/-- A broadcast gives the least shape to which both operands stretch. -/
theorem broadcast_eq_ok_iff : broadcast a b = .ok s ↔ LeastStretch [a, b] s := by
  have hleast {s : Shape} (h : broadcast a b = .ok s) : LeastStretch [a, b] s := by
    obtain ⟨ha, hb⟩ := stretches_of_broadcast h
    refine ⟨by simpa using ⟨ha, hb⟩, fun t ht => ?_⟩
    obtain ⟨s', hs', hst⟩ := exists_broadcast (ht a (by simp)) (ht b (by simp))
    rw [h] at hs'
    cases hs'
    exact hst
  refine ⟨hleast, fun h => ?_⟩
  obtain ⟨s', hs', -⟩ := exists_broadcast (h.stretches a (by simp)) (h.stretches b (by simp))
  rw [hs', h.unique (hleast hs')]

/-- A broadcast fails exactly if there is no shape to which both operands stretch; the error names
them. -/
theorem broadcast_eq_error_iff {e : Error} : broadcast a b = .error e ↔
    e = .shape (.notBroadcastable a b) ∧ ¬ ∃ t, a.Stretches t ∧ b.Stretches t := by
  constructor
  · intro h
    refine ⟨?_, ?_⟩
    · rw [broadcast] at h
      split at h
      · cases h
      · exact (Except.error.inj h).symm
    · rintro ⟨t, ha, hb⟩
      obtain ⟨s, hs, -⟩ := exists_broadcast ha hb
      rw [h] at hs
      cases hs
  · rintro ⟨rfl, hnone⟩
    cases h : broadcast? a b with
    | none => rw [broadcast, h]
    | some s =>
      have hs : broadcast a b = .ok s := by rw [broadcast, h]
      exact absurd ⟨s, stretches_of_broadcast hs⟩ hnone

/-! ## The laws of broadcasting -/

/-- The least shape of several shapes is found by letting two of them meet first. -/
theorem leastStretch_cons_cons_iff : LeastStretch (a :: b :: shapes) s ↔
    ∃ u, broadcast a b = .ok u ∧ LeastStretch (u :: shapes) s := by
  constructor
  · intro h
    obtain ⟨u, hu, hus⟩ := exists_broadcast (h.stretches a (by simp)) (h.stretches b (by simp))
    obtain ⟨ha, hb⟩ := stretches_of_broadcast hu
    refine ⟨u, hu, List.forall_mem_cons.2 ⟨hus, fun x hx => h.stretches x (by simp [hx])⟩, ?_⟩
    intro t ht
    obtain ⟨hut, hrest⟩ := List.forall_mem_cons.1 ht
    exact h.least t (List.forall_mem_cons.2 ⟨ha.trans hut,
      List.forall_mem_cons.2 ⟨hb.trans hut, hrest⟩⟩)
  · rintro ⟨u, hu, h⟩
    obtain ⟨ha, hb⟩ := stretches_of_broadcast hu
    obtain ⟨hus, hrest⟩ := List.forall_mem_cons.1 h.stretches
    refine ⟨List.forall_mem_cons.2 ⟨ha.trans hus, List.forall_mem_cons.2 ⟨hb.trans hus, hrest⟩⟩, ?_⟩
    intro t ht
    obtain ⟨hat, ht⟩ := List.forall_mem_cons.1 ht
    obtain ⟨hbt, ht⟩ := List.forall_mem_cons.1 ht
    refine h.least t (List.forall_mem_cons.2 ⟨?_, ht⟩)
    exact (broadcast_eq_ok_iff.1 hu).least t (by simpa using ⟨hat, hbt⟩)

theorem broadcast_comm (a b : Shape) : (broadcast a b).toOption = (broadcast b a).toOption := by
  refine toOption_congr fun s => ?_
  rw [broadcast_eq_ok_iff, broadcast_eq_ok_iff]
  exact leastStretch_congr fun _ => (List.Perm.swap b a []).mem_iff

theorem broadcast_assoc (a b c : Shape) :
    (broadcast a b >>= fun s => broadcast s c).toOption =
      (broadcast b c >>= fun s => broadcast a s).toOption := by
  refine toOption_congr fun s => ?_
  have hleft : (broadcast a b >>= fun u => broadcast u c) = .ok s ↔ LeastStretch [a, b, c] s := by
    simp only [bind_eq_ok, broadcast_eq_ok_iff (b := c), leastStretch_cons_cons_iff (b := b)]
  have hright : (broadcast b c >>= fun u => broadcast a u) = .ok s ↔ LeastStretch [b, c, a] s := by
    have hswap (u : Shape) : broadcast a u = .ok s ↔ LeastStretch [u, a] s :=
      broadcast_eq_ok_iff.trans (leastStretch_congr fun _ => (List.Perm.swap u a []).mem_iff)
    simp only [bind_eq_ok, hswap, leastStretch_cons_cons_iff (a := b)]
  rw [hleft, hright]
  have hrotate : ([a] ++ [b, c]).Perm ([b, c] ++ [a]) := List.perm_append_comm
  exact leastStretch_congr fun _ => hrotate.mem_iff

theorem broadcast_self (a : Shape) : broadcast a a = .ok a := by
  have hsame (t : Shape) : t ∈ [a, a] ↔ t ∈ [a] := by simp
  rw [broadcast_eq_ok_iff, leastStretch_congr hsame]
  exact leastStretch_singleton_iff.2 rfl

/-- Next to a scalar every operand keeps its shape. -/
theorem broadcast_nil (s : Shape) : broadcast s [] = .ok s ∧ broadcast [] s = .ok s := by
  have hleast : LeastStretch [s, []] s :=
    ⟨by simpa using ⟨.refl s, stretches_nil s⟩, fun t ht => ht s List.mem_cons_self⟩
  exact ⟨broadcast_eq_ok_iff.2 hleast, broadcast_eq_ok_iff.2
    ((leastStretch_congr fun _ => (List.Perm.swap s [] []).mem_iff).2 hleast)⟩

end Shape

end ChunkedArray
