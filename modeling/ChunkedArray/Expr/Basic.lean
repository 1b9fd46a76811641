import ChunkedArray.Expr.Kernel
import ChunkedArray.Workspace

/-!
# Expressions

An expression is a tree of operators over arrays, fields and scalars. An array is referred to by its
name in a workspace; its shape and kind are taken when the expression is built, so that every node
carries its type and no chunk is read. The functions that build nodes refuse what has no type.
-/

namespace ChunkedArray

/-- A scalar written in an expression. -/
inductive Literal where
  /-- A truth value. -/
  | bool (value : Bool)
  /-- An integer. -/
  | int (value : Int64)
  /-- A number in double precision, by its bits. -/
  | float (bits : UInt64)
deriving DecidableEq, Repr

namespace Literal

/-- The kind of a scalar. -/
def kind : Literal → ScalarKind
  | bool _ => .bool
  | int _ => .int64
  | float _ => .float64

/-- A scalar as an operand. -/
def operand : Literal → Operand
  | bool b => .bool (.scalar b)
  | int i => .int (.scalar i)
  | float bits => .double (.scalar bits)

end Literal

/-- A function supplied by the user. It sees its inputs, stretched to the shape of the part that is
evaluated, a buffer of zeros of the declared kind, and where the part starts; it gives the filled
buffer. -/
structure UserFunction where
  /-- The name, for messages. -/
  name : String
  /-- The kind of the result. -/
  kind : ScalarKind
  /-- The function. -/
  body : List Operand → Operand → List Nat → WorkspaceM Operand

namespace UserFunction

/-- An error of the function itself stays, and so does a breakdown; any other is reported as a failure
of the function. -/
def reportAs (name : String) : Error → Error
  | .user fault => .user fault
  | .breakdown cause => .breakdown cause
  | e => .user (.failed name e.message)

/-- Runs a function on one part and checks that the buffer kept its kind and shape. -/
def call (f : UserFunction) (inputs : List Operand) (shape : Shape) (offset : List Nat) :
    WorkspaceM Operand := do
  let out ← ExceptT.adapt (reportAs f.name) (f.body inputs (.zeros f.kind shape) offset)
  if out.shape ≠ shape ∨ !out.holds f.kind then
    throw (.user (.replacedOutput f.name f.kind shape))
  pure (out.wrap f.kind)

end UserFunction

/-- An expression. Every node carries its type. -/
inductive Expr where
  /-- A part of every item of the array with the given name. -/
  | array (name : String) (part : Projection) (type : ExprType)
  /-- A scalar. -/
  | literal (value : Literal)
  /-- An operator with one operand. -/
  | unary (op : UnaryOp) (type : ExprType) (operand : Expr)
  /-- An operator with two operands; it works in the kind of its result. -/
  | binary (op : BinaryOp) (type : ExprType) (lhs rhs : Expr)
  /-- A comparison in the given kind. -/
  | compare (op : CompareOp) (kind : ScalarKind) (type : ExprType) (lhs rhs : Expr)
  /-- A user function. -/
  | call (f : UserFunction) (type : ExprType) (inputs : List Expr)

namespace Expr

/-- The type of an expression. -/
def type : Expr → ExprType
  | array _ _ type => type
  | literal value => ⟨[], value.kind, true⟩
  | unary _ type _ => type
  | binary _ type _ _ => type
  | compare _ _ type _ _ => type
  | call _ type _ => type

/-- The shape of an expression. -/
def shape (e : Expr) : Shape := e.type.shape

/-- The kind of an expression. -/
def kind (e : Expr) : ScalarKind := e.type.kind

mutual

/-- The names of the arrays in an expression, from left to right. -/
def arrays : Expr → List String
  | array name _ _ => [name]
  | literal _ => []
  | unary _ _ operand => arrays operand
  | binary _ _ lhs rhs => arrays lhs ++ arrays rhs
  | compare _ _ _ lhs rhs => arrays lhs ++ arrays rhs
  | call _ _ inputs => arraysOfAll inputs

/-- The names of the arrays in several expressions. -/
def arraysOfAll : List Expr → List String
  | [] => []
  | e :: rest => arrays e ++ arraysOfAll rest

end

/-! ## Building -/

/-- The array with the given name and geometry as an expression. -/
def ofArray (name : String) (g : Geometry) : Result Expr :=
  match g.dtype.scalarKind? with
  | some kind => .ok (array name g.wholeItem ⟨g.shape, kind, false⟩)
  | none => .error (.dtype (.notArithmetic g.dtype))

/-- A field of the array with the given name and geometry as an expression. -/
def ofField (name : String) (g : Geometry) (field : Field) : Result Expr :=
  match field.dtype.scalarKind? with
  | some kind => .ok (array name (Geometry.fieldPart field) ⟨g.shape, kind, false⟩)
  | none => .error (.dtype (.fieldNotNumeric field.name field.dtype))

/-- An operator applied to one operand. -/
def mkUnary (op : UnaryOp) (operand : Expr) : Result Expr := do
  let type ← ExprType.unary op operand.type
  pure (unary op type operand)

/-- An operator applied to two operands. -/
def mkBinary (op : BinaryOp) (lhs rhs : Expr) : Result Expr := do
  let type ← ExprType.binary op lhs.type rhs.type
  pure (binary op type lhs rhs)

/-- A comparison of two operands. -/
def mkCompare (op : CompareOp) (lhs rhs : Expr) : Result Expr := do
  let (kind, type) ← ExprType.compare lhs.type rhs.type
  pure (compare op kind type lhs rhs)

/-- A user function applied to its inputs. -/
def mkCall (f : UserFunction) (inputs : List Expr) : Result Expr := do
  let type ← ExprType.call f.name f.kind (inputs.map Expr.type)
  pure (call f type inputs)

end Expr

/-- An expression under construction. A step that has no type leaves its fault behind, which stays
through further steps; of two faulty operands the left one counts. -/
abbrev Draft := Result Expr

namespace Draft

/-- An operator applied to one draft. -/
def unary (op : UnaryOp) (d : Draft) : Draft := do
  Expr.mkUnary op (← d)

/-- An operator applied to two drafts. -/
def binary (op : BinaryOp) (l r : Draft) : Draft := do
  let lhs ← l
  let rhs ← r
  Expr.mkBinary op lhs rhs

/-- A comparison of two drafts. -/
def compare (op : CompareOp) (l r : Draft) : Draft := do
  let lhs ← l
  let rhs ← r
  Expr.mkCompare op lhs rhs

/-- A user function applied to drafts. -/
def call (f : UserFunction) (inputs : List Draft) : Draft := do
  Expr.mkCall f (← inputs.mapM id)

end Draft

end ChunkedArray
