import ChunkedArray.Proofs.Expr.Local
import ChunkedArray.Proofs.Expr.Typing

/-!
# Expressions read pointwise

The value of an expression at coordinates of its domain is found by recursion, without regard to
chunks or boxes: a leaf is read at the coordinates projected to its own shape, and every operator is
applied to the values of its operands. A user function has such a value if it works position by
position, so that a rule gives its result from the inputs at a position and from the position itself.
-/

namespace ChunkedArray

open ChunkedArray.Action ChunkedArray.Shape

/-- The scalar as a value. -/
def Literal.value : Literal → Value
  | bool b => .bool b
  | int i => .int i
  | float bits => .double bits

/-- What a user function makes of its inputs at an absolute position. -/
abbrev Rule := List Value → List Nat → Result Value

/-- A user function that works by a rule: a call leaves the arrays that are read as they are and tells
like ones not apart, its result has at every place what the rule makes of the inputs there and of
the absolute position, and it fails only if the rule does at some place. -/
structure UserFunction.Follows (f : UserFunction) (reads : String → Prop) (rule : Rule) : Prop where
  query : ∀ inputs shape offset,
    IsQuery (Workspace.Alike reads) (f.call inputs shape offset)
  value : ∀ w inputs shape offset x, (∀ y ∈ inputs, y.Filled ∧ y.shape = shape) →
    outcome (f.call inputs shape offset) w = .ok x →
      x.Filled ∧ ∀ d, shape.Holds d →
        rule (inputs.map fun y => y.get d) (List.zipWith (· + ·) offset d) = .ok (x.get d)
  total : ∀ w inputs shape offset, (∀ y ∈ inputs, y.Filled ∧ y.shape = shape) → 0 < shape.size →
    (∀ d, shape.Holds d → ∃ v,
      rule (inputs.map fun y => y.get d) (List.zipWith (· + ·) offset d) = .ok v) →
    ∃ x, outcome (f.call inputs shape offset) w = .ok x

/-- A user function whose result at a position depends only on the inputs at that position and on the
absolute position. -/
def UserFunction.Positionwise (f : UserFunction) (reads : String → Prop) : Prop :=
  ∃ rule, f.Follows reads rule

namespace Expr

mutual

/-- The value of an expression at coordinates of a domain that it is stretched to. -/
def valueAt (rules : UserFunction → Rule) (w : Workspace) (c : List Nat) : Expr → Result Value
  | array name part type => do
    let item ← outcome (Workspace.onArray name fun a fs =>
      a.readBox fs part (.single (project type.shape c))) w
    pure (.ofBytes type.kind item)
  | literal value => pure value.value
  | unary op type operand => do
    let v ← valueAt rules w c operand
    op.applyValue type.kind v
  | binary op type lhs rhs => do
    let u ← valueAt rules w c lhs
    let v ← valueAt rules w c rhs
    op.applyValue type.kind u v
  | compare op kind _ lhs rhs => do
    let u ← valueAt rules w c lhs
    let v ← valueAt rules w c rhs
    op.applyValue kind u v
  | call f type inputs => do
    let values ← valuesAt rules w c inputs
    rules f values (project type.shape c)

/-- The values of several expressions at coordinates of a domain that they are stretched to. -/
def valuesAt (rules : UserFunction → Rule) (w : Workspace) (c : List Nat) :
    List Expr → Result (List Value)
  | [] => pure []
  | e :: rest => do
    let v ← valueAt rules w c e
    let values ← valuesAt rules w c rest
    pure (v :: values)

end

end Expr

end ChunkedArray
