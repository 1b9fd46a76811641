import ChunkedArray.Array.Typed
import ChunkedArray.Shape.Broadcast

/-!
# Dense operands

While a part of an expression is evaluated, its operands lie in memory as dense arrays in C order.
Two arrays are combined element by element after both are stretched to their common shape.
-/

namespace ChunkedArray

/-- A dense array in C order. -/
structure Dense (α : Type) where
  /-- The shape. -/
  shape : Shape
  /-- The elements. -/
  items : Array α

namespace Dense

variable {α β γ : Type}

/-- An array that repeats one element. -/
def fill (shape : Shape) (item : α) : Dense α :=
  ⟨shape, Array.replicate shape.size item⟩

/-- The array of a single element, without axes. -/
def scalar (item : α) : Dense α := ⟨[], #[item]⟩

/-- Changes every element. -/
def map (f : α → β) (a : Dense α) : Dense β :=
  ⟨a.shape, a.items.map f⟩

/-- The element that stands at a position of the array stretched to a larger shape. -/
def itemAt [Inhabited α] (a : Dense α) (target : Shape) (i : Nat) : α :=
  a.items.getD (Shape.flatten a.shape (Shape.project a.shape (target.unflatten i))) default

/-- The array stretched to a shape that it stretches to. -/
def stretch [Inhabited α] (a : Dense α) (target : Shape) : Dense α :=
  if a.shape = target then a
  else ⟨target, Array.ofFn (n := target.size) fun i => a.itemAt target i⟩

/-- The array stretched to a shape. -/
def broadcastTo [Inhabited α] (a : Dense α) (target : Shape) : Result (Dense α) :=
  if a.shape.stretchesTo target ∧ target.isCountable then .ok (a.stretch target)
  else .error (.shape (.notStretchable a.shape target))

/-- Combines two arrays element by element. -/
def zipWith [Inhabited α] [Inhabited β] (f : α → β → γ) (a : Dense α) (b : Dense β) :
    Result (Dense γ) := do
  let shape ← Shape.broadcast a.shape b.shape
  if shape.isCountable then
    pure ⟨shape, Array.zipWith f (a.stretch shape).items (b.stretch shape).items⟩
  else throw (.shape (.notCombinable a.shape b.shape))

@[simp] theorem shape_map (f : α → β) (a : Dense α) : (a.map f).shape = a.shape := rfl

@[simp] theorem shape_stretch [Inhabited α] (a : Dense α) (target : Shape) :
    (a.stretch target).shape = target := by
  unfold stretch
  split
  · assumption
  · rfl

end Dense

end ChunkedArray
