import ChunkedArray.Shape.Grid
import Mathlib.Data.List.Forall2
import Mathlib.Data.List.Nodup
import Mathlib.Tactic.Linarith

/-!
# Coordinates

The coordinates that lie inside a shape or inside a box, and their numbers in C order. `flatten` and
`unflatten` are inverse to each other on a shape. `cartesian` lists the product of several lists in
C order; the coordinates of a box and those of a selection are such products.
-/

namespace ChunkedArray

/-- Coordinates that lie inside a shape: as many as there are axes, each below its length. -/
def Shape.Holds (shape : Shape) (c : List Nat) : Prop :=
  List.Forall₂ (· < ·) c shape

/-- Coordinates that lie inside a box. -/
def Box.Holds (box : Box) (c : List Nat) : Prop :=
  List.Forall₂ (fun i (s : Span) => s.start ≤ i ∧ i < s.stop) c box

instance (shape : Shape) (c : List Nat) : Decidable (shape.Holds c) :=
  inferInstanceAs (Decidable (List.Forall₂ _ _ _))

instance (box : Box) (c : List Nat) : Decidable (box.Holds c) :=
  inferInstanceAs (Decidable (List.Forall₂ _ _ _))

/-- The product of several lists, the last one running fastest. -/
def cartesian {α : Type} : List (List α) → List (List α)
  | [] => [[]]
  | xs :: rest => xs.flatMap fun x => (cartesian rest).map fun c => x :: c

/-- A row is in the product if each of its members is in the list at its place. -/
theorem mem_cartesian {α : Type} {lists : List (List α)} {c : List α} :
    c ∈ cartesian lists ↔ List.Forall₂ (· ∈ ·) c lists := by
  induction lists generalizing c with
  | nil => simp [cartesian]
  | cons xs rest ih =>
    constructor
    · intro h
      obtain ⟨x, hx, h⟩ := List.mem_flatMap.1 h
      obtain ⟨tail, htail, rfl⟩ := List.mem_map.1 h
      exact List.Forall₂.cons hx (ih.1 htail)
    · intro h
      cases h with
      | cons hx htail =>
        exact List.mem_flatMap.2 ⟨_, hx, List.mem_map.2 ⟨_, ih.2 htail, rfl⟩⟩

/-- The coordinates of a box are listed as a product. -/
theorem Box.coords_eq_cartesian (box : Box) :
    box.coords = cartesian (box.map fun s => (List.range s.length).map fun k => s.start + k) := by
  induction box with
  | nil => rfl
  | cons s rest ih => simp only [Box.coords, List.map_cons, cartesian, List.flatMap_map, ih]

/-- A box lists exactly the coordinates inside it. -/
theorem Box.mem_coords {box : Box} {c : List Nat} : c ∈ box.coords ↔ box.Holds c := by
  rw [Box.coords_eq_cartesian, mem_cartesian, List.forall₂_map_right_iff]
  refine Iff.of_eq (congrArg (fun R => List.Forall₂ R c box) ?_)
  funext i s
  simp only [List.mem_map, List.mem_range, Span.length, eq_iff_iff]
  constructor
  · rintro ⟨k, hk, rfl⟩
    omega
  · intro h
    exact ⟨i - s.start, by omega, by omega⟩

namespace Shape

/-- The number of coordinates inside a shape lies below its size. -/
theorem flatten_lt {shape : Shape} {c : List Nat} (h : shape.Holds c) :
    shape.flatten c < shape.size := by
  induction h with
  | nil => simp [flatten, size]
  | @cons i n c shape hi _ ih =>
    calc i * size shape + flatten shape c < i * size shape + size shape := by omega
      _ = (i + 1) * size shape := (Nat.succ_mul i (size shape)).symm
      _ ≤ n * size shape := Nat.mul_le_mul_right _ hi

/-- Every element of a shape has coordinates inside it. -/
theorem holds_unflatten {shape : Shape} {i : Nat} (h : i < shape.size) :
    shape.Holds (shape.unflatten i) := by
  induction shape generalizing i with
  | nil => exact List.Forall₂.nil
  | cons n rest ih =>
    have hpos : 0 < size rest := by
      rcases Nat.eq_zero_or_pos (size rest) with h0 | h0
      · simp [size, h0] at h
      · exact h0
    exact List.Forall₂.cons (Nat.div_lt_of_lt_mul (by rwa [Nat.mul_comm])) (ih (Nat.mod_lt _ hpos))

/-- Coordinates inside a shape are recovered from their number. -/
theorem unflatten_flatten {shape : Shape} {c : List Nat} (h : shape.Holds c) :
    shape.unflatten (shape.flatten c) = c := by
  induction h with
  | nil => rfl
  | @cons i n c shape hi hrest ih =>
    have hlt : flatten shape c < size shape := flatten_lt hrest
    have hpos : 0 < size shape := by omega
    have hdiv : (i * size shape + flatten shape c) / size shape = i := by
      rw [Nat.mul_comm, Nat.mul_add_div hpos, Nat.div_eq_of_lt hlt, Nat.add_zero]
    have hmod : (i * size shape + flatten shape c) % size shape = flatten shape c := by
      rw [Nat.mul_comm, Nat.mul_add_mod, Nat.mod_eq_of_lt hlt]
    rw [flatten, unflatten, hdiv, hmod, ih]

/-- Different coordinates inside a shape have different numbers. -/
theorem flatten_inj {shape : Shape} {c d : List Nat} (hc : shape.Holds c) (hd : shape.Holds d)
    (h : shape.flatten c = shape.flatten d) : c = d := by
  rw [← unflatten_flatten hc, h, unflatten_flatten hd]

/-- The number of an element is the sum of its coordinates weighted by the strides. -/
theorem flatten_eq_sum (shape : Shape) (c : List Nat) (h : c.length = shape.length) :
    shape.flatten c = (List.zipWith (· * ·) c shape.strides).sum := by
  induction shape generalizing c with
  | nil => cases c <;> rfl
  | cons n rest ih =>
    cases c with
    | nil => simp at h
    | cons i c =>
      rw [flatten, strides, List.zipWith_cons_cons, List.sum_cons, ih c (by simpa using h)]

theorem size_append (front back : Shape) : size (front ++ back) = size front * size back := by
  induction front with
  | nil => exact (Nat.one_mul _).symm
  | cons n front ih => rw [List.cons_append, size, size, ih, Nat.mul_assoc]

/-- A shape with a coordinate inside it has no empty axis. -/
theorem size_pos_of_holds {shape : Shape} {c : List Nat} (h : shape.Holds c) : 0 < shape.size :=
  Nat.lt_of_le_of_lt (Nat.zero_le _) (flatten_lt h)

/-- A shape has an element exactly if no axis is empty. -/
theorem size_pos_iff {shape : Shape} : 0 < shape.size ↔ ∀ n ∈ shape, 0 < n := by
  induction shape with
  | nil => simp [size]
  | cons n rest ih => simp [size, ih, Nat.pos_iff_ne_zero]

/-- No axis is longer than there are elements. -/
theorem lt_of_size_lt {shape : Shape} {bound : Nat} (hpos : 0 < shape.size)
    (h : shape.size < bound) : ∀ n ∈ shape, n < bound := by
  induction shape with
  | nil => exact fun n hn => absurd hn List.not_mem_nil
  | cons m shape ih =>
    rw [size] at hpos h
    have hm : 0 < m := Nat.pos_of_mul_pos_right hpos
    have hrest : 0 < size shape := Nat.pos_of_mul_pos_left hpos
    refine List.forall_mem_cons.2 ⟨?_, ih hrest ?_⟩
    · exact lt_of_le_of_lt (Nat.le_mul_of_pos_right m hrest) h
    · exact lt_of_le_of_lt (Nat.le_mul_of_pos_left _ hm) h

end Shape

/-- The whole numbers below a product, cut into rows of the length of the second factor. -/
theorem range_mul_map {α : Type} (m n : Nat) (f : Nat → α) :
    (List.range (m * n)).map f =
      (List.range m).flatMap fun i => (List.range n).map fun j => f (i * n + j) := by
  induction m with
  | zero => simp
  | succ m ih =>
    rw [Nat.succ_mul, List.range_add, List.map_append, ih, List.range_succ, List.flatMap_append,
      List.map_map, List.flatMap_singleton]
    rfl

end ChunkedArray
