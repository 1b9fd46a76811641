import ChunkedArray.Expr.Basic
import ChunkedArray.Proofs.Shape.Common

/-!
# Operands of a node

What the functions that build nodes leave at a node: its operands, and a type whose shape is the least
one to which the shapes of the operands stretch. So a user function applied to its inputs has the same
shape in whatever order they come, or none in any order, and every operand of a node can be stretched to
the shape of the node.
-/

namespace ChunkedArray

open ChunkedArray.Shape

/-- The common shape of several operands is the least one to which all of them stretch. -/
theorem ExprType.commonShape_eq_ok_iff {shape s : Shape} {types : List ExprType} :
    commonShape shape types = .ok s ↔ LeastStretch (shape :: types.map ExprType.shape) s := by
  induction types generalizing shape with
  | nil =>
    rw [commonShape, List.map_nil, leastStretch_singleton_iff]
    exact ⟨Except.ok.inj, congrArg Except.ok⟩
  | cons t types ih =>
    rw [commonShape, bind_eq_ok, List.map_cons, leastStretch_cons_cons_iff]
    simp only [ih]

namespace Expr

/-- The operands of a node, from left to right. -/
def operands : Expr → List Expr
  | array _ _ _ => []
  | literal _ => []
  | unary _ _ x => [x]
  | binary _ _ l r => [l, r]
  | compare _ _ _ l r => [l, r]
  | call _ _ inputs => inputs

/-- A node that one of the functions that build nodes gave, whatever its operands are. -/
inductive Built : Expr → Prop where
  | array {name : String} {g : Geometry} {e : Expr} (h : ofArray name g = .ok e) : Built e
  | field {name : String} {g : Geometry} {field : Field} {e : Expr}
      (h : ofField name g field = .ok e) : Built e
  | literal (value : Literal) : Built (literal value)
  | unary {op : UnaryOp} {x e : Expr} (h : mkUnary op x = .ok e) : Built e
  | binary {op : BinaryOp} {l r e : Expr} (h : mkBinary op l r = .ok e) : Built e
  | compare {op : CompareOp} {l r e : Expr} (h : mkCompare op l r = .ok e) : Built e
  | call {f : UserFunction} {inputs : List Expr} {e : Expr} (h : mkCall f inputs = .ok e) : Built e

variable {x l r e : Expr} {f : UserFunction} {inputs inputs' : List Expr} {s : Shape}

/-- An operator applied to one expression keeps its shape. -/
theorem mkUnary_eq_ok {op : UnaryOp} (h : mkUnary op x = .ok e) :
    ∃ type, e = .unary op type x ∧ type.shape = x.shape ∧
      op.resultKind x.kind = .ok type.kind := by
  obtain ⟨type, htype, h⟩ := bind_eq_ok.1 h
  cases h
  obtain ⟨kind, hkind, htype⟩ := bind_eq_ok.1 htype
  cases htype
  exact ⟨_, rfl, rfl, hkind⟩

/-- An operator applied to two expressions works in the kind in which they meet. -/
theorem mkBinary_eq_ok {op : BinaryOp} (h : mkBinary op l r = .ok e) :
    ∃ type, e = .binary op type l r ∧ broadcast l.shape r.shape = .ok type.shape ∧
      op.operandKind (ExprType.meet l.type r.type).1 = .ok type.kind := by
  obtain ⟨type, htype, h⟩ := bind_eq_ok.1 h
  cases h
  obtain ⟨shape, hshape, htype⟩ := bind_eq_ok.1 htype
  obtain ⟨kind, hkind, htype⟩ := bind_eq_ok.1 htype
  cases htype
  exact ⟨_, rfl, hshape, hkind⟩

/-- A comparison is made in the kind in which its operands meet. -/
theorem mkCompare_eq_ok {op : CompareOp} (h : mkCompare op l r = .ok e) :
    ∃ type, e = .compare op (ExprType.meet l.type r.type).1 type l r ∧
      broadcast l.shape r.shape = .ok type.shape ∧ type.kind = .bool := by
  obtain ⟨⟨kind, type⟩, htype, h⟩ := bind_eq_ok.1 h
  cases h
  obtain ⟨shape, hshape, htype⟩ := bind_eq_ok.1 htype
  cases htype
  exact ⟨_, rfl, hshape, rfl⟩

/-- A user function is applied to one input at least, and takes the least shape to which all of them
stretch. -/
theorem mkCall_eq_ok_iff : mkCall f inputs = .ok e ↔ inputs ≠ [] ∧
    ∃ s, LeastStretch (inputs.map Expr.shape) s ∧ .call f ⟨s, f.kind, false⟩ inputs = e := by
  cases inputs with
  | nil =>
    constructor
    · intro h
      cases h
    · intro h
      exact absurd rfl h.1
  | cons x inputs =>
    have hcommon (s : Shape) : ExprType.commonShape x.shape (inputs.map Expr.type) = .ok s ↔
        LeastStretch ((x :: inputs).map Expr.shape) s := by
      rw [ExprType.commonShape_eq_ok_iff, List.map_map, List.map_cons]
      rfl
    rw [and_iff_right (List.cons_ne_nil x inputs)]
    constructor
    · intro h
      obtain ⟨type, htype, h⟩ := bind_eq_ok.1 h
      obtain ⟨s, hs, htype⟩ := bind_eq_ok.1 htype
      cases htype
      cases h
      exact ⟨s, (hcommon s).1 hs, rfl⟩
    · rintro ⟨s, hs, rfl⟩
      refine bind_eq_ok.2 ⟨_, bind_eq_ok.2 ⟨s, (hcommon s).2 hs, rfl⟩, rfl⟩

theorem shape_mkCall_eq_ok_iff : (mkCall f inputs).map Expr.shape = .ok s ↔
    inputs ≠ [] ∧ LeastStretch (inputs.map Expr.shape) s := by
  rw [map_eq_ok]
  constructor
  · rintro ⟨e, he, rfl⟩
    obtain ⟨hne, s, hs, rfl⟩ := mkCall_eq_ok_iff.1 he
    exact ⟨hne, hs⟩
  · rintro ⟨hne, hs⟩
    exact ⟨_, mkCall_eq_ok_iff.2 ⟨hne, s, hs, rfl⟩, rfl⟩

/-- The order of the inputs makes no difference to the shape of a user function. -/
theorem shape_mkCall_perm (f : UserFunction) (h : inputs.Perm inputs') :
    ((mkCall f inputs).map Expr.shape).toOption = ((mkCall f inputs').map Expr.shape).toOption := by
  have hne : inputs ≠ [] ↔ inputs' ≠ [] := by
    rw [← List.length_pos_iff, ← List.length_pos_iff, h.length_eq]
  refine toOption_congr fun s => ?_
  rw [shape_mkCall_eq_ok_iff, shape_mkCall_eq_ok_iff, hne,
    leastStretch_congr fun _ => (h.map Expr.shape).mem_iff]

/-- Every operand of a node stretches to the shape of the node. -/
theorem Built.stretches (h : Built e) : ∀ x ∈ e.operands, x.shape.Stretches e.shape := by
  cases h with
  | @array name g e h =>
    rw [ofArray] at h
    split at h
    · cases h
      exact List.forall_mem_nil _
    · cases h
  | @field name g field e h =>
    rw [ofField] at h
    split at h
    · cases h
      exact List.forall_mem_nil _
    · cases h
  | literal value => exact List.forall_mem_nil _
  | unary h =>
    obtain ⟨type, rfl, hshape, -⟩ := mkUnary_eq_ok h
    refine List.forall_mem_singleton.2 ?_
    exact (show type.shape = _ from hshape) ▸ .refl type.shape
  | binary h =>
    obtain ⟨type, rfl, hshape, -⟩ := mkBinary_eq_ok h
    obtain ⟨hl, hr⟩ := stretches_of_broadcast hshape
    exact List.forall_mem_cons.2 ⟨hl, List.forall_mem_singleton.2 hr⟩
  | compare h =>
    obtain ⟨type, rfl, hshape, -⟩ := mkCompare_eq_ok h
    obtain ⟨hl, hr⟩ := stretches_of_broadcast hshape
    exact List.forall_mem_cons.2 ⟨hl, List.forall_mem_singleton.2 hr⟩
  | call h =>
    obtain ⟨-, s, hs, rfl⟩ := mkCall_eq_ok_iff.1 h
    exact fun x hx => hs.stretches x.shape (List.mem_map_of_mem hx)

/-- Broadcasting gives the least shape to which both operands stretch, and fails exactly if there is none
to which they do. So it is commutative, associative and idempotent, also in where it is defined, and a
scalar changes nothing. The shape of a user function applied to its inputs does not depend on their
order, and every operand of a node that was built stretches to the shape of the node. -/
theorem broadcast_laws (a b c : Shape) :
    (∀ s, broadcast a b = .ok s ↔ LeastStretch [a, b] s) ∧
    (∀ e, broadcast a b = .error e ↔
      e = .shape (.notBroadcastable a b) ∧ ¬ ∃ t, a.Stretches t ∧ b.Stretches t) ∧
    (broadcast a b).toOption = (broadcast b a).toOption ∧
    (broadcast a b >>= fun s => broadcast s c).toOption =
      (broadcast b c >>= fun s => broadcast a s).toOption ∧
    broadcast a a = .ok a ∧ broadcast a [] = .ok a ∧ broadcast [] a = .ok a ∧
    (∀ (f : UserFunction) (inputs inputs' : List Expr), inputs.Perm inputs' →
      ((mkCall f inputs).map Expr.shape).toOption =
        ((mkCall f inputs').map Expr.shape).toOption) ∧
    ∀ e, Built e → ∀ x ∈ e.operands, x.shape.Stretches e.shape := by
  obtain ⟨hright, hleft⟩ := broadcast_nil a
  exact ⟨fun s => broadcast_eq_ok_iff, fun e => broadcast_eq_error_iff, broadcast_comm a b,
    broadcast_assoc a b c, broadcast_self a, hright, hleft, fun f _ _ h => shape_mkCall_perm f h,
    fun e h => h.stretches⟩

/-- A column of three rows meets a row of four columns, in either order. -/
theorem broadcast_laws_three_by_four :
    let column : Expr := .array "column" ⟨0, 1⟩ ⟨[3, 1], .uint8, false⟩
    let row : Expr := .array "row" ⟨0, 1⟩ ⟨[4], .uint8, false⟩
    let f : UserFunction := ⟨"f", .uint8, fun _ out _ => pure out⟩
    LeastStretch [column.shape, row.shape] [3, 4] ∧
      ((mkCall f [column, row]).map Expr.shape).toOption =
        ((mkCall f [row, column]).map Expr.shape).toOption ∧
      (∃ e, mkCall f [column, row] = .ok e ∧ ∀ x ∈ e.operands, x.shape.Stretches e.shape) ∧
      ¬ ∃ t, Stretches [3, 1] t ∧ Stretches [2, 4] t := by
  intro column row f
  obtain ⟨hok, -, -, -, -, -, -, hperm, hbuilt⟩ := broadcast_laws column.shape row.shape []
  obtain ⟨-, herror, -⟩ := broadcast_laws [3, 1] [2, 4] []
  obtain ⟨e, he⟩ : ∃ e, mkCall f [column, row] = .ok e := ⟨_, rfl⟩
  exact ⟨(hok [3, 4]).1 rfl, hperm f [column, row] [row, column] (List.Perm.swap row column []),
    ⟨e, he, hbuilt e (.call he)⟩, ((herror _).1 rfl).2⟩

end Expr

end ChunkedArray
