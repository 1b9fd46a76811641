import ChunkedArray.Error
import ChunkedArray.Scalar.Element

/-!
# Typed arrays

A dense array of elements of one kind, in C order. It is how typed values enter and leave the
library.
-/

namespace ChunkedArray

/-- The number of elements must fit a signed word, empty axes not counted. -/
def Shape.isCountable (shape : Shape) : Bool :=
  Shape.size (shape.filter (· ≠ 0)) < 2 ^ 63

/-- Checks that `count` elements fill a shape. -/
def Shape.checkCount (shape : Shape) (count : Nat) : Result Unit :=
  if !shape.isCountable then .error (.shape .uncountable)
  else if count < shape.size then .error (.shape .tooFewElements)
  else if shape.size < count then .error (.shape .tooManyElements)
  else .ok ()

/-- A dense array of elements of one kind. -/
structure TypedArray where
  /-- The kind of the elements. -/
  kind : ScalarKind
  /-- The shape. -/
  shape : Shape
  /-- The bit patterns of the elements. -/
  elements : Array UInt64
deriving DecidableEq, Repr

namespace TypedArray

/-- The array of the elements in a byte string; they must fill the shape. -/
def ofBytes (kind : ScalarKind) (shape : Shape) (b : Bytes) : Result TypedArray := do
  let elements := Element.decode kind b
  shape.checkCount elements.size
  pure ⟨kind, shape, elements⟩

/-- The bytes of the elements. -/
def toBytes (a : TypedArray) : Bytes :=
  Element.encode a.kind a.elements

/-- The array with its axes in reverse order. -/
def transpose (a : TypedArray) : TypedArray :=
  let shape : Shape := a.shape.reverse
  { a with
    shape
    elements := Array.ofFn (n := shape.size) fun i =>
      a.elements.getD (a.shape.flatten (shape.unflatten i).reverse) 0 }

end TypedArray

end ChunkedArray
