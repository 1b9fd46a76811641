import ChunkedArray.Array.Typed

/-!
# Buffers

An uncompressed part of an array: its shape, its item layout and its bytes in C order.
-/

namespace ChunkedArray

/-- Uncompressed items in C order. -/
structure Buffer where
  /-- The shape. -/
  shape : Shape
  /-- The layout of an item. -/
  dtype : DType
  /-- The items. -/
  data : Bytes

/-- Fails unless a layout is exactly the scalar of the given kind. -/
def DType.requireKind (dtype : DType) (kind : ScalarKind) : Result Unit :=
  if dtype.scalarKind? = some kind then .ok () else .error (.dtype (.kindMismatch kind dtype))

namespace Buffer

/-- The size in bytes of items of a layout in a shape. -/
def expectedSize (shape : Shape) (dtype : DType) : Nat := shape.size * dtype.itemsize

/-- A buffer whose data fill the shape. -/
def new (shape : Shape) (dtype : DType) (data : Bytes) : Result Buffer :=
  if data.size = expectedSize shape dtype then .ok ⟨shape, dtype, data⟩
  else .error (.shape (.bufferLength data.size shape dtype))

/-- The number of items. -/
def length (b : Buffer) : Nat := b.shape.size

/-- Whether there is no item. -/
def isEmpty (b : Buffer) : Bool := b.length == 0

/-- The items as elements of a kind. -/
def elements (b : Buffer) (kind : ScalarKind) : Result (Array UInt64) := do
  b.dtype.requireKind kind
  pure (Element.decode kind b.data)

/-- The buffer as a typed array. -/
def toTyped (b : Buffer) (kind : ScalarKind) : Result TypedArray := do
  b.dtype.requireKind kind
  TypedArray.ofBytes kind b.shape b.data

end Buffer

/-- A typed array as a buffer. -/
def TypedArray.toBuffer (a : TypedArray) : Buffer :=
  ⟨a.shape, .scalar a.kind, a.toBytes⟩

end ChunkedArray
