import ChunkedArray.Proofs.Expr.Kernel
import ChunkedArray.Proofs.Expr.Operands
import ChunkedArray.Proofs.Workspace

/-!
# Well-built expressions

The functions that build expressions leave at every node a type that fits: a leaf has the shape of its
array and the width of its kind, an operator has the common shape of its operands and a kind in which
it has a kernel, and the inputs of a user function stretch to its shape.
-/

namespace ChunkedArray.Expr

open ChunkedArray.Shape

mutual

/-- The user functions in an expression, from left to right. -/
def functions : Expr → List UserFunction
  | array _ _ _ => []
  | literal _ => []
  | unary _ _ operand => functions operand
  | binary _ _ lhs rhs => functions lhs ++ functions rhs
  | compare _ _ _ lhs rhs => functions lhs ++ functions rhs
  | call f _ inputs => f :: functionsOfAll inputs

/-- The user functions in several expressions. -/
def functionsOfAll : List Expr → List UserFunction
  | [] => []
  | e :: rest => functions e ++ functionsOfAll rest

end

/-- An expression that was built from arrays and fields of arrays of a workspace and from scalars. -/
inductive WellBuilt (w : Workspace) : Expr → Prop where
  | array {name : String} {a : NDArray} {e : Expr} (ha : w.arrays.find? name = some a)
      (hg : a.geometry.Regular) (h : ofArray name a.geometry = .ok e) : WellBuilt w e
  | field {name : String} {a : NDArray} {field : Field} {e : Expr}
      (ha : w.arrays.find? name = some a) (hg : a.geometry.Regular)
      (h : ofField name a.geometry field = .ok e) : WellBuilt w e
  | literal (value : Literal) : WellBuilt w (literal value)
  | unary {op : UnaryOp} {x e : Expr} (hx : WellBuilt w x) (h : mkUnary op x = .ok e) : WellBuilt w e
  | binary {op : BinaryOp} {l r e : Expr} (hl : WellBuilt w l) (hr : WellBuilt w r)
      (h : mkBinary op l r = .ok e) : WellBuilt w e
  | compare {op : CompareOp} {l r e : Expr} (hl : WellBuilt w l) (hr : WellBuilt w r)
      (h : mkCompare op l r = .ok e) : WellBuilt w e
  | call {f : UserFunction} {inputs : List Expr} {e : Expr} (hinputs : ∀ x ∈ inputs, WellBuilt w x)
      (h : mkCall f inputs = .ok e) : WellBuilt w e

/-- An expression whose type fits at every node. -/
inductive Typed (w : Workspace) : Expr → Prop where
  | array {name : String} {part : Projection} {type : ExprType} {a : NDArray}
      (ha : w.arrays.find? name = some a) (hg : a.geometry.Regular)
      (hshape : type.shape = a.geometry.shape) (hwidth : part.width = type.kind.itemsize) :
      Typed w (.array name part type)
  | literal (value : Literal) : Typed w (.literal value)
  | unary {op : UnaryOp} {type : ExprType} {x : Expr} (hx : Typed w x)
      (hshape : type.shape = x.shape) (hkind : op.resultKind x.kind = .ok type.kind) :
      Typed w (.unary op type x)
  | binary {op : BinaryOp} {type : ExprType} {l r : Expr} {meet : ScalarKind} (hl : Typed w l)
      (hr : Typed w r) (hshape : broadcast l.shape r.shape = .ok type.shape)
      (hkind : op.operandKind meet = .ok type.kind) : Typed w (.binary op type l r)
  | compare {op : CompareOp} {kind : ScalarKind} {type : ExprType} {l r : Expr} (hl : Typed w l)
      (hr : Typed w r) (hshape : broadcast l.shape r.shape = .ok type.shape)
      (hkind : type.kind = .bool) : Typed w (.compare op kind type l r)
  | call {f : UserFunction} {type : ExprType} {inputs : List Expr}
      (hinputs : ∀ x ∈ inputs, Typed w x) (hshape : ∀ x ∈ inputs, x.shape.Stretches type.shape)
      (hkind : type.kind = f.kind) : Typed w (.call f type inputs)

/-- A well-built expression has a type that fits at every node. -/
theorem WellBuilt.typed {w : Workspace} {e : Expr} (h : WellBuilt w e) : Typed w e := by
  -- On how the expression was built: what each constructor checks is what the type rule asks for.
  induction h with
  | @array name a e ha hg h =>
    rw [ofArray] at h
    cases hdtype : a.geometry.dtype with
    | scalar kind =>
      rw [hdtype] at h
      cases h
      refine .array ha hg rfl ?_
      rw [Geometry.wholeItem, Geometry.itemsize, hdtype]
      rfl
    | _ =>
      rw [hdtype] at h
      cases h
  | @field name a field e ha hg h =>
    rw [ofField] at h
    cases hdtype : field.dtype with
    | scalar kind =>
      rw [hdtype] at h
      cases h
      refine .array ha hg rfl ?_
      rw [Geometry.fieldPart, hdtype]
      rfl
    | _ =>
      rw [hdtype] at h
      cases h
  | literal value => exact .literal value
  | unary hx h ih =>
    obtain ⟨type, rfl, hshape, hkind⟩ := mkUnary_eq_ok h
    exact .unary ih hshape hkind
  | binary hl hr h ihl ihr =>
    obtain ⟨type, rfl, hshape, hkind⟩ := mkBinary_eq_ok h
    exact .binary ihl ihr hshape hkind
  | compare hl hr h ihl ihr =>
    obtain ⟨type, rfl, hshape, hkind⟩ := mkCompare_eq_ok h
    exact .compare ihl ihr hshape hkind
  | call hinputs h ih =>
    obtain ⟨-, s, hs, rfl⟩ := mkCall_eq_ok_iff.1 h
    exact .call ih (fun x hx => hs.stretches x.shape (List.mem_map_of_mem hx)) rfl

end ChunkedArray.Expr
