import ChunkedArray.Text.Quoted

/-!
# Shapes

A shape lists the lengths of the axes, outermost first. Elements are numbered in C order: the last
axis runs fastest. `strides` gives the distance of neighbours along every axis; `flatten` and
`unflatten` pass between the coordinates of an element and its number (`flatten_unflatten`).
-/

namespace ChunkedArray

/-- The lengths of the axes of an array. -/
abbrev Shape := List Nat

namespace Shape

/-- The number of elements. -/
def size : Shape → Nat
  | [] => 1
  | n :: rest => n * size rest

/-- The distance of neighbours along every axis, in elements. -/
def strides : Shape → List Nat
  | [] => []
  | _ :: rest => size rest :: strides rest

/-- The number of the element at the given coordinates. -/
def flatten : Shape → List Nat → Nat
  | _ :: shape, i :: rest => i * size shape + flatten shape rest
  | _, _ => 0

/-- The coordinates of the element with the given number. -/
def unflatten : Shape → Nat → List Nat
  | [], _ => []
  | _ :: shape, i => i / size shape :: unflatten shape (i % size shape)

/-- The text of a shape. -/
def text (shape : Shape) : String :=
  Text.bracketed (shape.map toString)

@[simp] theorem length_strides (shape : Shape) : (strides shape).length = shape.length := by
  induction shape with
  | nil => rfl
  | cons n rest ih => simp [strides, ih]

@[simp] theorem length_unflatten (shape : Shape) (i : Nat) :
    (unflatten shape i).length = shape.length := by
  induction shape generalizing i with
  | nil => rfl
  | cons n rest ih => simp [unflatten, ih]

/-- An element is recovered from its coordinates. -/
theorem flatten_unflatten (shape : Shape) (i : Nat) (h : i < size shape) :
    flatten shape (unflatten shape i) = i := by
  induction shape generalizing i with
  | nil => simp only [size] at h; simp only [flatten]; omega
  | cons n rest ih =>
    have hpos : 0 < size rest := by
      rcases Nat.eq_zero_or_pos (size rest) with h0 | h0
      · simp [size, h0] at h
      · exact h0
    rw [unflatten, flatten, ih _ (Nat.mod_lt _ hpos), Nat.mul_comm]
    exact Nat.div_add_mod i (size rest)

end Shape

end ChunkedArray
