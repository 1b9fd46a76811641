import ChunkedArray.Shape.Broadcast

/-!
# Operators and their types

Every expression has a shape, a kind and a strength. Scalars written in an expression are weak: next
to a strong operand they take its kind where that keeps their class, and two weak operands meet like
strong ones. Typing refuses what has no meaning; it never looks at elements.
-/

namespace ChunkedArray

/-- Operators with one operand. -/
inductive UnaryOp where
  /-- The negative. -/
  | neg
  /-- The logical or bitwise complement. -/
  | not
  /-- The magnitude. -/
  | abs
  /-- The square root. -/
  | sqrt
  /-- The exponential. -/
  | exp
  /-- The natural logarithm. -/
  | log
  /-- The sine. -/
  | sin
  /-- The cosine. -/
  | cos
deriving DecidableEq, Repr

/-- Operators with two operands of one kind and a result of the same kind. -/
inductive BinaryOp where
  /-- The sum. -/
  | add
  /-- The difference. -/
  | sub
  /-- The product. -/
  | mul
  /-- The quotient; it is always a floating-point number. -/
  | div
  /-- The quotient rounded down. -/
  | floorDiv
  /-- The remainder of the quotient rounded down. -/
  | rem
  /-- The power. -/
  | pow
  /-- The conjunction. -/
  | bitAnd
  /-- The disjunction. -/
  | bitOr
  /-- The exclusive disjunction. -/
  | bitXor
deriving DecidableEq, Repr

/-- Operators with two operands of one kind and a truth value as result. -/
inductive CompareOp where
  /-- Below. -/
  | lt
  /-- At most. -/
  | le
  /-- Above. -/
  | gt
  /-- At least. -/
  | ge
  /-- Equal. -/
  | eq
  /-- Not equal. -/
  | ne
deriving DecidableEq, Repr

namespace UnaryOp

/-- The name of an operator in messages. -/
def name : UnaryOp → String
  | neg => "Neg"
  | not => "Not"
  | abs => "Abs"
  | sqrt => "Sqrt"
  | exp => "Exp"
  | log => "Log"
  | sin => "Sin"
  | cos => "Cos"

/-- The kind of the result. Elementary functions work in single precision for kinds of at most 16
bits and for single precision itself, otherwise in double precision. -/
def resultKind (op : UnaryOp) (kind : ScalarKind) : Result ScalarKind :=
  match op with
  | neg => if kind = .bool then .error (.dtype .negatedBool) else .ok kind
  | not => if kind.isFloat then .error (.dtype (.complementOfFloat kind)) else .ok kind
  | abs => .ok kind
  | sqrt | exp | log | sin | cos =>
    match kind with
    | .float32 | .bool | .int8 | .uint8 | .int16 | .uint16 => .ok .float32
    | _ => .ok .float64

end UnaryOp

namespace BinaryOp

/-- The name of an operator in messages. -/
def name : BinaryOp → String
  | add => "Add"
  | sub => "Sub"
  | mul => "Mul"
  | div => "Div"
  | floorDiv => "FloorDiv"
  | rem => "Rem"
  | pow => "Pow"
  | bitAnd => "BitAnd"
  | bitOr => "BitOr"
  | bitXor => "BitXor"

/-- The kind in which an operator works when its operands meet in `kind`: a quotient goes to double
precision unless it is a floating-point number already, and arithmetic on truth values goes to the
narrowest integers. -/
def operandKind (op : BinaryOp) (kind : ScalarKind) : Result ScalarKind :=
  match op with
  | bitAnd | bitOr | bitXor =>
    if kind.isFloat then .error (.dtype (.bitwiseOfFloat op.name kind)) else .ok kind
  | div => .ok (if kind.isFloat then kind else .float64)
  | _ => .ok (if kind = .bool then .int8 else kind)

end BinaryOp

/-- What is known of an expression without its elements. -/
structure ExprType where
  /-- The shape. -/
  shape : Shape
  /-- The kind of the elements. -/
  kind : ScalarKind
  /-- Whether the kind gives way to that of a strong operand. -/
  weak : Bool
deriving DecidableEq, Repr

namespace ExprType

/-- The kind that a weak operand takes next to a strong one. -/
def weakAgainst (weak strong : ScalarKind) : ScalarKind :=
  match weak.scalarClass, strong.scalarClass with
  | .float, .float => strong
  | .float, _ => .float64
  | .signed, .bool | .unsigned, .bool => .int64
  | _, _ => strong

/-- The kind in which two operands meet, and whether the result is weak. -/
def meet (l r : ExprType) : ScalarKind × Bool :=
  match l.weak, r.weak with
  | true, false => (weakAgainst l.kind r.kind, false)
  | false, true => (weakAgainst r.kind l.kind, false)
  | weak, _ => (ScalarKind.promote l.kind r.kind, weak)

/-- The type of an operator applied to one operand. -/
def unary (op : UnaryOp) (t : ExprType) : Result ExprType := do
  let kind ← op.resultKind t.kind
  pure { t with kind }

/-- The type of an operator applied to two operands; its kind is also that in which it works. -/
def binary (op : BinaryOp) (l r : ExprType) : Result ExprType := do
  let shape ← Shape.broadcast l.shape r.shape
  let (kind, weak) := meet l r
  let kind ← op.operandKind kind
  pure { shape, kind, weak }

/-- The kind in which two operands are compared, and the type of the comparison. -/
def compare (l r : ExprType) : Result (ScalarKind × ExprType) := do
  let shape ← Shape.broadcast l.shape r.shape
  let (kind, weak) := meet l r
  pure (kind, { shape, kind := .bool, weak })

/-- The common shape of a shape and those of further operands. -/
def commonShape (shape : Shape) : List ExprType → Result Shape
  | [] => .ok shape
  | t :: rest => do
    let shape ← Shape.broadcast shape t.shape
    commonShape shape rest

/-- The type of the user function `name` of a kind applied to its inputs. -/
def call (name : String) (kind : ScalarKind) : List ExprType → Result ExprType
  | [] => .error (.parameter (.noInputs name))
  | t :: rest => do
    let shape ← commonShape t.shape rest
    pure { shape, kind, weak := false }

end ExprType

end ChunkedArray
