/-!
# Scalar kinds

The element types that arithmetic knows: truth values, signed and unsigned integers of four widths,
and binary floating point of two. `promote` gives the kind in which two operands meet; it never
narrows, so a mix that no integer kind can hold goes to double precision.
-/

namespace ChunkedArray

/-- An element type of the arithmetic. -/
inductive ScalarKind where
  /-- Truth values, one byte each. -/
  | bool
  /-- Signed integers of one byte. -/
  | int8
  /-- Signed integers of two bytes. -/
  | int16
  /-- Signed integers of four bytes. -/
  | int32
  /-- Signed integers of eight bytes. -/
  | int64
  /-- Unsigned integers of one byte. -/
  | uint8
  /-- Unsigned integers of two bytes. -/
  | uint16
  /-- Unsigned integers of four bytes. -/
  | uint32
  /-- Unsigned integers of eight bytes. -/
  | uint64
  /-- Single precision. -/
  | float32
  /-- Double precision. -/
  | float64
deriving DecidableEq, Repr, Inhabited

/-- The coarse classes that promotion distinguishes. -/
inductive ScalarClass where
  /-- Truth values. -/
  | bool
  /-- Signed integers. -/
  | signed
  /-- Unsigned integers. -/
  | unsigned
  /-- Floating point. -/
  | float
deriving DecidableEq, Repr

namespace ScalarKind

/-- The width of an element in bytes. -/
def itemsize : ScalarKind → Nat
  | bool | int8 | uint8 => 1
  | int16 | uint16 => 2
  | int32 | uint32 | float32 => 4
  | int64 | uint64 | float64 => 8

/-- The width of an element in bits. -/
def bits (k : ScalarKind) : Nat :=
  8 * k.itemsize

/-- The class of a kind. -/
def scalarClass : ScalarKind → ScalarClass
  | bool => .bool
  | int8 | int16 | int32 | int64 => .signed
  | uint8 | uint16 | uint32 | uint64 => .unsigned
  | float32 | float64 => .float

/-- Whether the kind is an integer kind. -/
def isInt (k : ScalarKind) : Bool :=
  k.scalarClass = .signed || k.scalarClass = .unsigned

/-- Whether the kind is a floating-point kind. -/
def isFloat (k : ScalarKind) : Bool :=
  k.scalarClass = .float

/-- The signed kind of the given width; every other width gives the widest. -/
def signedOfBits (bits : Nat) : ScalarKind :=
  if bits = 8 then int8 else if bits = 16 then int16 else if bits = 32 then int32 else int64

/-- Single precision holds integers of up to 16 bits, double precision all others. -/
def floatWithInt (floatBits intBits : Nat) : ScalarKind :=
  if floatBits = 32 ∧ intBits ≤ 16 then float32 else float64

/-- The narrowest signed kind that holds both operands, or double precision if none does. -/
def signedWithUnsigned (signedBits unsignedBits : Nat) : ScalarKind :=
  let bits := max signedBits (2 * unsignedBits)
  if 64 < bits then float64 else signedOfBits bits

/-- The kind in which two operands meet. -/
def promote (a b : ScalarKind) : ScalarKind :=
  if a = b then a
  else
    match a.scalarClass, b.scalarClass with
    | .bool, _ => b
    | _, .bool => a
    | .float, .float => if b.bits ≤ a.bits then a else b
    | .float, _ => floatWithInt a.bits b.bits
    | _, .float => floatWithInt b.bits a.bits
    | .signed, .signed => if b.bits ≤ a.bits then a else b
    | .unsigned, .unsigned => if b.bits ≤ a.bits then a else b
    | .signed, .unsigned => signedWithUnsigned a.bits b.bits
    | .unsigned, .signed => signedWithUnsigned b.bits a.bits

/-- The name of a kind, as messages spell it. -/
def name : ScalarKind → String
  | bool => "Bool"
  | int8 => "Int8"
  | int16 => "Int16"
  | int32 => "Int32"
  | int64 => "Int64"
  | uint8 => "UInt8"
  | uint16 => "UInt16"
  | uint32 => "UInt32"
  | uint64 => "UInt64"
  | float32 => "Float32"
  | float64 => "Float64"

/-- All kinds. -/
def all : List ScalarKind :=
  [bool, int8, int16, int32, int64, uint8, uint16, uint32, uint64, float32, float64]

/-- The kind with the given name. -/
def ofName? (s : String) : Option ScalarKind :=
  all.find? fun k => k.name == s

/-- The array-interface type string: byte order, class letter and width. -/
def typeString : ScalarKind → String
  | bool => "|b1"
  | int8 => "|i1"
  | int16 => "<i2"
  | int32 => "<i4"
  | int64 => "<i8"
  | uint8 => "|u1"
  | uint16 => "<u2"
  | uint32 => "<u4"
  | uint64 => "<u8"
  | float32 => "<f4"
  | float64 => "<f8"

/-- The kind with the given type string or plain name, its byte-order marks left out. -/
def ofTypeName? (s : String) : Option ScalarKind :=
  if s = "b1" ∨ s = "?" ∨ s = "bool" then some bool
  else if s = "i1" ∨ s = "int8" then some int8
  else if s = "i2" ∨ s = "int16" then some int16
  else if s = "i4" ∨ s = "int32" then some int32
  else if s = "i8" ∨ s = "int64" then some int64
  else if s = "u1" ∨ s = "uint8" then some uint8
  else if s = "u2" ∨ s = "uint16" then some uint16
  else if s = "u4" ∨ s = "uint32" then some uint32
  else if s = "u8" ∨ s = "uint64" then some uint64
  else if s = "f4" ∨ s = "float32" then some float32
  else if s = "f8" ∨ s = "float64" then some float64
  else none

theorem itemsize_pos (k : ScalarKind) : 0 < k.itemsize := by
  cases k <;> decide

theorem ofName?_name (k : ScalarKind) : ofName? k.name = some k := by
  cases k <;> decide

theorem promote_comm (a b : ScalarKind) : promote a b = promote b a := by
  cases a <;> cases b <;> decide

end ScalarKind

end ChunkedArray
