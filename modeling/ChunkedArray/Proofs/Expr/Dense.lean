import ChunkedArray.Expr.Dense
import ChunkedArray.Proofs.Action
import ChunkedArray.Proofs.Shape.Broadcast

/-!
# Elements of dense operands

What is done to a dense array is done to each of its elements: a map changes it, a stretched array
has the projected element of the original, and a combination has the combination of the two elements
that are stretched to its place.
-/

namespace ChunkedArray.Dense

open ChunkedArray.Shape

variable {α β γ : Type} {a : Dense α} {b : Dense β} {target : Shape} {d : List Nat}

/-- Whether there are as many elements as the shape has places. -/
def Filled (a : Dense α) : Prop :=
  a.items.size = a.shape.size

theorem filled_fill (shape : Shape) (item : α) : (fill shape item).Filled :=
  Array.size_replicate

theorem filled_map (f : α → β) (h : a.Filled) : (a.map f).Filled := by
  rw [Filled, map, Array.size_map]
  exact h

variable [Inhabited α] [Inhabited β]

/-- The element at the given coordinates. -/
def get (a : Dense α) (d : List Nat) : α :=
  a.items.getD (a.shape.flatten d) default

theorem get_map (f : α → β) (h : a.Filled) (hd : a.shape.Holds d) :
    (a.map f).get d = f (a.get d) := by
  have hlt : a.shape.flatten d < a.items.size := by
    rw [h]
    exact flatten_lt hd
  simp [get, map, Array.getD, hlt]

theorem filled_stretch (h : a.Filled) : (a.stretch target).Filled := by
  rw [stretch]
  split
  · exact h
  · exact Array.size_ofFn

/-- A stretched array has the projected element. -/
theorem get_stretch (hd : target.Holds d) : (a.stretch target).get d = a.get (a.shape.project d) := by
  rw [stretch]
  split
  · next hshape =>
    subst hshape
    rw [project_self hd]
  · have hlt := flatten_lt hd
    simp only [get, Array.getD_eq_getD_getElem?, Array.getElem?_ofFn, hlt, dite_true,
      Option.getD_some, itemAt, unflatten_flatten hd]

/-- What holds of all elements, and of the default one, holds of all elements of a stretched array. -/
theorem forall_mem_stretch {P : α → Prop} (h : ∀ x ∈ a.items, P x) (hdefault : P default) :
    ∀ x ∈ (a.stretch target).items, P x := by
  rw [stretch]
  split
  · exact h
  · intro x hx
    obtain ⟨i, rfl⟩ := Array.mem_ofFn.1 hx
    rw [itemAt, Array.getD_eq_getD_getElem?]
    generalize a.shape.flatten (a.shape.project (target.unflatten i)) = place
    cases hget : a.items[place]? with
    | none => exact hdefault
    | some y => exact h y (Array.mem_of_getElem? hget)

/-- Arrays are combined exactly if they have a common shape whose elements can be counted. -/
theorem zipWith_eq_ok {f : α → β → γ} {r : Dense γ} :
    zipWith f a b = .ok r ↔ ∃ shape, broadcast a.shape b.shape = .ok shape ∧
      shape.isCountable = true ∧
      r = ⟨shape, Array.zipWith f (a.stretch shape).items (b.stretch shape).items⟩ := by
  rw [zipWith, bind_eq_ok]
  constructor
  · rintro ⟨shape, hshape, h⟩
    split at h
    · next hcount =>
      cases h
      exact ⟨shape, hshape, hcount, rfl⟩
    · cases h
  · rintro ⟨shape, hshape, hcount, rfl⟩
    exact ⟨shape, hshape, if_pos hcount⟩

/-- A combination has the combined elements of what its operands are stretched to. -/
theorem get_zipWith [Inhabited γ] {f : α → β → γ} {r : Dense γ} (h : zipWith f a b = .ok r)
    (ha : a.Filled) (hb : b.Filled) :
    broadcast a.shape b.shape = .ok r.shape ∧ r.shape.isCountable = true ∧ r.Filled ∧
      ∀ d, r.shape.Holds d → r.get d = f (a.get (a.shape.project d)) (b.get (b.shape.project d)) := by
  obtain ⟨shape, hshape, hcount, rfl⟩ := zipWith_eq_ok.1 h
  have hleft := @filled_stretch _ a shape _ ha
  have hright := @filled_stretch _ b shape _ hb
  rw [Filled, shape_stretch] at hleft hright
  refine ⟨hshape, hcount, ?_, fun d hd => ?_⟩
  · rw [Filled, Array.size_zipWith, hleft, hright, Nat.min_self]
  · have hlt := flatten_lt hd
    rw [← get_stretch hd, ← get_stretch hd]
    simp [get, Array.getD, hleft, hright, hlt]

/-- What has a common shape whose elements can be counted can be combined. -/
theorem exists_zipWith (f : α → β → γ) {shape : Shape}
    (h : broadcast a.shape b.shape = .ok shape) (hcount : shape.isCountable = true) :
    ∃ r, zipWith f a b = .ok r :=
  ⟨_, zipWith_eq_ok.2 ⟨shape, h, hcount, rfl⟩⟩

theorem broadcastTo_eq_ok {r : Dense α} :
    a.broadcastTo target = .ok r ↔
      (a.shape.stretchesTo target = true ∧ target.isCountable = true) ∧ r = a.stretch target := by
  rw [broadcastTo]
  split
  · next h =>
    constructor
    · intro heq
      cases heq
      exact ⟨h, rfl⟩
    · rintro ⟨-, rfl⟩
      rfl
  · next h =>
    constructor
    · intro heq
      cases heq
    · rintro ⟨h', -⟩
      exact absurd h' h

end ChunkedArray.Dense
