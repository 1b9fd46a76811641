import ChunkedArray.Expr.Operand
import ChunkedArray.Expr.Typing

/-!
# Elementwise kernels

What an operator does to elements that are in its operand kind already. Integer division and
remainder round down and give zero for a zero divisor; a power with a negative exponent has no
integer result and gives zero. Results are brought back into the range of the kind.
-/

namespace ChunkedArray

/-- The greatest exponent that an integer power tells apart. -/
def maxExponent : Nat := 2 ^ 32 - 1

namespace BinaryOp

/-- The `n`th power of a word, by repeated squaring. -/
def powWord (x : UInt64) (n : Nat) : UInt64 :=
  if n = 0 then 1
  else
    let half := powWord (x * x) (n / 2)
    if n % 2 = 1 then x * half else half
termination_by n
decreasing_by omega

/-- The quotient rounded down. -/
def floorDivInt (x y : Int64) : Int64 :=
  if y = 0 then 0
  else
    let q := x / y
    if x % y != 0 && decide (x < 0) != decide (y < 0) then q - 1 else q

/-- The remainder of the quotient rounded down; it has the sign of the divisor. -/
def floorRemInt (x y : Int64) : Int64 :=
  if y = 0 then 0
  else
    let r := x % y
    if r != 0 && decide (r < 0) != decide (y < 0) then r + y else r

/-- The power of a signed integer. -/
def powInt (x y : Int64) : Int64 :=
  if y < 0 then 0 else (powWord x.toUInt64 (min y.toInt.toNat maxExponent)).toInt64

/-- The kernel on signed integers. -/
def intKernel? : BinaryOp → Option (Int64 → Int64 → Int64)
  | add => some (· + ·)
  | sub => some (· - ·)
  | mul => some (· * ·)
  | floorDiv => some floorDivInt
  | rem => some floorRemInt
  | pow => some powInt
  | bitAnd => some (· &&& ·)
  | bitOr => some (· ||| ·)
  | bitXor => some (· ^^^ ·)
  | div => none

/-- The kernel on unsigned integers. -/
def uintKernel? : BinaryOp → Option (UInt64 → UInt64 → UInt64)
  | add => some (· + ·)
  | sub => some (· - ·)
  | mul => some (· * ·)
  | floorDiv => some fun x y => if y = 0 then 0 else x / y
  | rem => some fun x y => if y = 0 then 0 else x % y
  | pow => some fun x y => powWord x (min y.toNat maxExponent)
  | bitAnd => some (· &&& ·)
  | bitOr => some (· ||| ·)
  | bitXor => some (· ^^^ ·)
  | div => none

/-- The kernel on floating-point numbers. -/
def floatKernel? {ω : Type} [FloatWord ω] : BinaryOp → Option (ω → ω → ω)
  | add => some FloatWord.add
  | sub => some FloatWord.sub
  | mul => some FloatWord.mul
  | div => some FloatWord.div
  | floorDiv => some fun x y => FloatWord.floor (FloatWord.div x y)
  | rem => some FloatWord.floorRem
  | pow => some FloatWord.pow
  | bitAnd | bitOr | bitXor => none

/-- The kernel on truth values. -/
def boolKernel? : BinaryOp → Option (Bool → Bool → Bool)
  | bitAnd => some and
  | bitOr => some or
  | bitXor => some xor
  | _ => none

/-- Combines two arrays by a kernel that may be missing. -/
def zip {α : Type} [Inhabited α] (op : BinaryOp) (kind : ScalarKind)
    (kernel : Option (α → α → α)) (a b : Dense α) : Result (Dense α) :=
  match kernel with
  | some f => Dense.zipWith f a b
  | none => .error (.internal (.unsupported op.name kind))

/-- Applies an operator to two operands in the representation of a kind. -/
def combine (op : BinaryOp) (kind : ScalarKind) : Operand → Operand → Result Operand
  | .int a, .int b => (zip op kind op.intKernel? a b).map Operand.int
  | .uint a, .uint b => (zip op kind op.uintKernel? a b).map Operand.uint
  | .single a, .single b => (zip op kind op.floatKernel? a b).map Operand.single
  | .double a, .double b => (zip op kind op.floatKernel? a b).map Operand.double
  | .bool a, .bool b => (zip op kind op.boolKernel? a b).map Operand.bool
  | _, _ => .error (.internal (.unsupported op.name kind))

/-- Applies an operator in a kind. -/
def apply (op : BinaryOp) (kind : ScalarKind) (l r : Operand) : Result Operand :=
  (combine op kind (l.cast kind) (r.cast kind)).map (Operand.wrap kind)

end BinaryOp

namespace CompareOp

/-- The name of an operator in messages. -/
def name : CompareOp → String
  | lt => "Lt"
  | le => "Le"
  | gt => "Gt"
  | ge => "Ge"
  | eq => "Eq"
  | ne => "Ne"

/-- The comparison made from the three basic ones. -/
def kernel {α : Type} (below atMost equal : α → α → Bool) : CompareOp → α → α → Bool
  | lt, x, y => below x y
  | le, x, y => atMost x y
  | gt, x, y => below y x
  | ge, x, y => atMost y x
  | eq, x, y => equal x y
  | ne, x, y => !equal x y

/-- Compares two operands in the representation of a kind. -/
def combine (op : CompareOp) (kind : ScalarKind) : Operand → Operand → Result (Dense Bool)
  | .bool a, .bool b =>
    Dense.zipWith (op.kernel (fun x y => !x && y) (fun x y => !x || y) (· == ·)) a b
  | .int a, .int b =>
    Dense.zipWith (op.kernel (fun x y => decide (x < y)) (fun x y => decide (x ≤ y)) (· == ·)) a b
  | .uint a, .uint b =>
    Dense.zipWith (op.kernel (fun x y => decide (x < y)) (fun x y => decide (x ≤ y)) (· == ·)) a b
  | .single a, .single b => Dense.zipWith (op.kernel FloatWord.lt FloatWord.le FloatWord.eq) a b
  | .double a, .double b => Dense.zipWith (op.kernel FloatWord.lt FloatWord.le FloatWord.eq) a b
  | _, _ => .error (.internal (.unsupported op.name kind))

/-- Compares two operands in a kind. -/
def apply (op : CompareOp) (kind : ScalarKind) (l r : Operand) : Result Operand :=
  (combine op kind (l.cast kind) (r.cast kind)).map Operand.bool

end CompareOp

namespace UnaryOp

/-- The magnitude of a signed integer; the least integer is its own. -/
def absInt (x : Int64) : Int64 := if x < 0 then -x else x

/-- The elementary function on floating-point numbers. -/
def floatKernel {ω : Type} [FloatWord ω] : UnaryOp → ω → ω
  | sqrt => FloatWord.sqrt
  | exp => FloatWord.exp
  | log => FloatWord.log
  | sin => FloatWord.sin
  | cos => FloatWord.cos
  | abs => FloatWord.abs
  | neg | not => FloatWord.neg

/-- Applies an operator to an operand, before the result is brought into range. -/
def compute (kind : ScalarKind) : UnaryOp → Operand → Result Operand
  | neg, .int a => .ok (.int (a.map (- ·)))
  | neg, .uint a => .ok (.uint (a.map (- ·)))
  | neg, .single a => .ok (.single (a.map FloatWord.neg))
  | neg, .double a => .ok (.double (a.map FloatWord.neg))
  | not, .bool a => .ok (.bool (a.map (!·)))
  | not, .int a => .ok (.int (a.map (~~~ ·)))
  | not, .uint a => .ok (.uint (a.map (~~~ ·)))
  | abs, .int a => .ok (.int (a.map absInt))
  | abs, .single a => .ok (.single (a.map FloatWord.abs))
  | abs, .double a => .ok (.double (a.map FloatWord.abs))
  | abs, x => .ok x
  | op, x =>
    if op = neg ∨ op = not then .error (.internal (.unsupported op.name kind))
    else
      match x.cast kind with
      | .single a => .ok (.single (a.map op.floatKernel))
      | .double a => .ok (.double (a.map op.floatKernel))
      | _ => .error (.internal (.unsupported op.name kind))

/-- Applies an operator; `kind` is the kind of the result. -/
def apply (op : UnaryOp) (kind : ScalarKind) (x : Operand) : Result Operand :=
  (compute kind op x).map (Operand.wrap kind)

end UnaryOp

end ChunkedArray
