import ChunkedArray.Expr.Dense
import ChunkedArray.Scalar.FloatWord

/-!
# Operands of the evaluator

Integers are carried in words of 64 bits, whatever their kind, and brought back to the range of
their kind after every operation; that gives the wrap-around of the narrow kinds. Floating-point
elements keep their own precision. A cast goes to the representation of a kind and into its range.
-/

namespace ChunkedArray

/-- How the elements of an operand are held. -/
inductive Representation where
  /-- Truth values. -/
  | bool
  /-- Signed integers in words of 64 bits. -/
  | int
  /-- Unsigned integers in words of 64 bits. -/
  | uint
  /-- Single precision. -/
  | single
  /-- Double precision. -/
  | double
deriving DecidableEq, Repr

/-- The representation of the elements of a kind. -/
def ScalarKind.representation : ScalarKind → Representation
  | .bool => .bool
  | .int8 | .int16 | .int32 | .int64 => .int
  | .uint8 | .uint16 | .uint32 | .uint64 => .uint
  | .float32 => .single
  | .float64 => .double

/-- The name of a representation. -/
def Representation.name : Representation → String
  | bool => "Bool"
  | int => "Int"
  | uint => "UInt"
  | single => "F32"
  | double => "F64"

/-- The widest kind of a representation: its elements are held as they are. -/
def Representation.widestKind : Representation → ScalarKind
  | bool => .bool
  | int => .int64
  | uint => .uint64
  | single => .float32
  | double => .float64

namespace ScalarKind

/-- A signed integer brought into the range of a signed kind. -/
def wrapInt (kind : ScalarKind) (x : Int64) : Int64 :=
  match kind with
  | int8 => x.toInt8.toInt64
  | int16 => x.toInt16.toInt64
  | int32 => x.toInt32.toInt64
  | _ => x

/-- An unsigned integer brought into the range of an unsigned kind. -/
def wrapUInt (kind : ScalarKind) (x : UInt64) : UInt64 :=
  match kind with
  | uint8 => x.toUInt8.toUInt64
  | uint16 => x.toUInt16.toUInt64
  | uint32 => x.toUInt32.toUInt64
  | _ => x

end ScalarKind

/-- A dense array in one of the representations. -/
inductive Operand where
  /-- Truth values. -/
  | bool (a : Dense Bool)
  /-- Signed integers. -/
  | int (a : Dense Int64)
  /-- Unsigned integers. -/
  | uint (a : Dense UInt64)
  /-- Single precision, as bit patterns. -/
  | single (a : Dense UInt32)
  /-- Double precision, as bit patterns. -/
  | double (a : Dense UInt64)

namespace Operand

open FloatWord

/-- The shape. -/
def shape : Operand → Shape
  | bool a => a.shape
  | int a => a.shape
  | uint a => a.shape
  | single a => a.shape
  | double a => a.shape

/-- The number of elements. -/
def length (x : Operand) : Nat := x.shape.size

/-- Whether there is no element. -/
def isEmpty (x : Operand) : Bool := x.length == 0

/-- The representation. -/
def representation : Operand → Representation
  | bool _ => .bool
  | int _ => .int
  | uint _ => .uint
  | single _ => .single
  | double _ => .double

/-- Whether an operand is in the representation of a kind. -/
def holds (x : Operand) (kind : ScalarKind) : Bool :=
  x.representation = kind.representation

/-- Zeros in the representation of a kind. -/
def zeros (kind : ScalarKind) (shape : Shape) : Operand :=
  match kind.representation with
  | .bool => bool (.fill shape false)
  | .int => int (.fill shape 0)
  | .uint => uint (.fill shape 0)
  | .single => single (.fill shape 0)
  | .double => double (.fill shape 0)

/-! ## Conversions -/

/-- The elements as truth values. -/
def toBool : Operand → Dense Bool
  | bool a => a
  | int a => a.map (· != 0)
  | uint a => a.map (· != 0)
  | single a => a.map fun x => !FloatWord.eq x zero
  | double a => a.map fun x => !FloatWord.eq x zero

/-- The elements as signed integers. Floating-point numbers are cut off towards zero and held at the
ends of the range; what is not a number becomes zero. -/
def toInt : Operand → Dense Int64
  | bool a => a.map fun x => if x then 1 else 0
  | int a => a
  | uint a => a.map UInt64.toInt64
  | single a => a.map fun x => (Float32.ofBits x).toInt64
  | double a => a.map fun x => (Float.ofBits x).toInt64

/-- The elements as unsigned integers, in the same way. -/
def toUInt : Operand → Dense UInt64
  | bool a => a.map fun x => if x then 1 else 0
  | int a => a.map Int64.toUInt64
  | uint a => a
  | single a => a.map fun x => (Float32.ofBits x).toUInt64
  | double a => a.map fun x => (Float.ofBits x).toUInt64

/-- The elements in single precision. -/
def asSingle : Operand → Dense UInt32
  | bool a => a.map fun x => if x then one else zero
  | int a => a.map fun x => x.toFloat32.toBits
  | uint a => a.map fun x => x.toFloat32.toBits
  | single a => a
  | double a => a.map toSingle

/-- The elements in double precision. -/
def asDouble : Operand → Dense UInt64
  | bool a => a.map fun x => if x then one else zero
  | int a => a.map fun x => x.toFloat.toBits
  | uint a => a.map fun x => x.toFloat.toBits
  | single a => a.map toDouble
  | double a => a

/-- Brings integers into the range of a kind of their own representation. -/
def wrap (kind : ScalarKind) : Operand → Operand
  | int a => int (a.map kind.wrapInt)
  | uint a => uint (a.map kind.wrapUInt)
  | x => x

/-- Converts to the representation of a kind and into its range. -/
def cast (x : Operand) (kind : ScalarKind) : Operand :=
  match kind.representation with
  | .bool => bool x.toBool
  | .int => wrap kind (int x.toInt)
  | .uint => wrap kind (uint x.toUInt)
  | .single => single x.asSingle
  | .double => double x.asDouble

/-- Stretches an operand to a shape. -/
def broadcastTo (x : Operand) (target : Shape) : Result Operand :=
  match x with
  | bool a => (a.broadcastTo target).map bool
  | int a => (a.broadcastTo target).map int
  | uint a => (a.broadcastTo target).map uint
  | single a => (a.broadcastTo target).map single
  | double a => (a.broadcastTo target).map double

/-! ## Bytes -/

/-- The signed integer whose low bytes are an element of a signed kind. -/
def signExtend (kind : ScalarKind) (word : UInt64) : Int64 :=
  kind.wrapInt word.toInt64

/-- The operand of the elements in a byte string; they must fill the shape. -/
def ofBytes (kind : ScalarKind) (shape : Shape) (b : Bytes) : Result Operand := do
  let a ← TypedArray.ofBytes kind shape b
  let words : Dense UInt64 := ⟨shape, a.elements⟩
  pure <| match kind.representation with
    | .bool => bool (words.map (· != 0))
    | .int => int (words.map (signExtend kind))
    | .uint => uint words
    | .single => single (words.map UInt64.toUInt32)
    | .double => double words

/-- The bit patterns of the elements. -/
def words : Operand → Array UInt64
  | bool a => a.items.map fun x => if x then 1 else 0
  | int a => a.items.map Int64.toUInt64
  | uint a => a.items
  | single a => a.items.map UInt32.toUInt64
  | double a => a.items

/-- The bytes of the elements as elements of a kind. -/
def toBytes (x : Operand) (kind : ScalarKind) : Bytes :=
  Element.encode kind (x.cast kind).words

/-- The element of a kind that an integer converts to. -/
def elementOfInt (kind : ScalarKind) (i : Int64) : UInt64 :=
  match kind.representation with
  | .bool => i.toUInt64 &&& 1
  | .int | .uint => i.toUInt64
  | .single => i.toFloat32.toBits.toUInt64
  | .double => i.toFloat.toBits

/-- The bytes of `n` elements of a kind in arithmetic progression. -/
def progression (kind : ScalarKind) (start step : Int64) (n : Nat) : Bytes :=
  Element.encode kind (Array.ofFn (n := n) fun i => elementOfInt kind (start + step * Int64.ofNat i))

/-- The bytes of elements with one pattern for everything that is not a number, the positive quiet
one without payload. -/
def canonicalBytes (kind : ScalarKind) (b : Bytes) : Bytes :=
  match kind.representation with
  | .single => Element.encode kind ((Element.decode kind b).map fun w =>
      if isNaN w.toUInt32 then 0x7fc00000 else w)
  | .double => Element.encode kind ((Element.decode kind b).map fun w =>
      if isNaN w then 0x7ff8000000000000 else w)
  | _ => b

theorem holds_zeros (kind : ScalarKind) (shape : Shape) : (zeros kind shape).holds kind := by
  cases kind <;> simp [holds, zeros, representation, ScalarKind.representation]

end Operand

end ChunkedArray
