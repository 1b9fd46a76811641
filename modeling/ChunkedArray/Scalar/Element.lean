import ChunkedArray.Bytes.LittleEndian
import ChunkedArray.Scalar.Kind

/-!
# Elements as bit patterns

A typed element is its bit pattern in the low bits of a word of 64 bits. Byte strings decode into
elements from the front, a partial element at the end being left out, and encode back. Of a truth
value only whether it is zero survives.
-/

namespace ChunkedArray.Element

/-- The pattern of the element at a byte position. -/
def decodeAt (kind : ScalarKind) (b : Bytes) (pos : Nat) : UInt64 :=
  let word := UInt64.ofNat (LittleEndian.readAt b pos kind.itemsize)
  if kind = .bool then (if word = 0 then 0 else 1) else word

/-- The elements of a byte string. -/
def decode (kind : ScalarKind) (b : Bytes) : Array UInt64 :=
  Array.ofFn (n := b.size / kind.itemsize) fun i => decodeAt kind b (i * kind.itemsize)

/-- Adds the `width` low bytes of a word to a byte string. -/
def push (out : Bytes) (word : UInt64) : (width : Nat) → Bytes
  | 0 => out
  | width + 1 => push (out.push word.toUInt8) (word >>> 8) width

/-- The bytes of elements. -/
def encode (kind : ScalarKind) (elements : Array UInt64) : Bytes :=
  elements.foldl (fun out word => push out word kind.itemsize) #[]

@[simp] theorem size_decode (kind : ScalarKind) (b : Bytes) :
    (decode kind b).size = b.size / kind.itemsize := by
  simp [decode]

end ChunkedArray.Element
