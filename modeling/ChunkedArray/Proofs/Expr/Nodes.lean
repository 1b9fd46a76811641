import ChunkedArray.Proofs.Expr.Evaluate

/-!
# Leaves and nodes

What an expression reads is known from its leaves, and what holds of a well-built expression holds of
every node in it: it has a type that fits, its shape stretches to that of the expression, and it has no
leaves and user functions but those of the expression.
-/

namespace ChunkedArray

open ChunkedArray.Shape

/-- A leaf that reads a part of every item of an array, with the type that it was built with. -/
structure Leaf where
  /-- The name of the array. -/
  name : String
  /-- The part of every item. -/
  part : Projection
  /-- The type. -/
  type : ExprType

namespace Expr

mutual

/-- The leaves of an expression that read arrays, from left to right. -/
def leaves : Expr → List Leaf
  | array name part type => [⟨name, part, type⟩]
  | literal _ => []
  | unary _ _ operand => leaves operand
  | binary _ _ lhs rhs => leaves lhs ++ leaves rhs
  | compare _ _ _ lhs rhs => leaves lhs ++ leaves rhs
  | call _ _ inputs => leavesOfAll inputs

/-- The leaves of several expressions. -/
def leavesOfAll : List Expr → List Leaf
  | [] => []
  | e :: rest => leaves e ++ leavesOfAll rest

end

variable {w : Workspace} {root e x : Expr} {l : Leaf}

theorem mem_leavesOfAll {inputs : List Expr} :
    l ∈ leavesOfAll inputs ↔ ∃ e ∈ inputs, l ∈ e.leaves := by
  induction inputs with
  | nil => simp [leavesOfAll]
  | cons e inputs ih => simp [leavesOfAll, ih]

mutual

/-- The arrays of an expression are those that its leaves read. -/
theorem arrays_eq : ∀ e : Expr, e.arrays = e.leaves.map Leaf.name
  | array _ _ _ => rfl
  | literal _ => rfl
  | unary _ _ operand => arrays_eq operand
  | binary _ _ lhs rhs => by rw [arrays, leaves, arrays_eq lhs, arrays_eq rhs, List.map_append]
  | compare _ _ _ lhs rhs => by rw [arrays, leaves, arrays_eq lhs, arrays_eq rhs, List.map_append]
  | call _ _ inputs => arraysOfAll_eq inputs

theorem arraysOfAll_eq : ∀ inputs : List Expr,
    arraysOfAll inputs = (leavesOfAll inputs).map Leaf.name
  | [] => rfl
  | e :: rest => by rw [arraysOfAll, leavesOfAll, arrays_eq e, arraysOfAll_eq rest, List.map_append]

end

/-- A leaf of a well-built expression reads an array of its shape in the width of its kind, and the
name of the array is among those of the expression. -/
theorem Typed.leaf (h : Typed w e) (hl : l ∈ e.leaves) :
    l.name ∈ e.arrays ∧ l.part.width = l.type.kind.itemsize ∧ ∃ a,
      w.arrays.find? l.name = some a ∧ a.geometry.Regular ∧ l.type.shape = a.geometry.shape := by
  induction h with
  | array ha hg hshape hwidth =>
    obtain rfl := List.mem_singleton.1 hl
    exact ⟨List.mem_cons_self, hwidth, _, ha, hg, hshape⟩
  | literal value => cases hl
  | unary hx hshape hkind ih => exact ih hl
  | binary hl' hr hshape hkind ihl ihr =>
    obtain hleft | hright := List.mem_append.1 hl
    · exact (ihl hleft).imp_left (List.mem_append_left _)
    · exact (ihr hright).imp_left (List.mem_append_right _)
  | compare hl' hr hshape hkind ihl ihr =>
    obtain hleft | hright := List.mem_append.1 hl
    · exact (ihl hleft).imp_left (List.mem_append_left _)
    · exact (ihr hright).imp_left (List.mem_append_right _)
  | call hinputs hshape hkind ih =>
    obtain ⟨e, he, hl⟩ := mem_leavesOfAll.1 hl
    exact (ih e he hl).imp_left fun hname => mem_arraysOfAll.2 ⟨e, he, hname⟩

/-- The shape of every leaf stretches to that of the expression. -/
theorem Typed.stretches_leaf (h : Typed w e) (hl : l ∈ e.leaves) :
    l.type.shape.Stretches e.shape := by
  induction h with
  | array ha hg hshape hwidth =>
    obtain rfl := List.mem_singleton.1 hl
    exact .refl _
  | literal value => cases hl
  | @unary op type x hx hshape hkind ih =>
    have hsame : Expr.shape (.unary op type x) = x.shape := hshape
    rw [hsame]
    exact ih hl
  | binary hl' hr hshape hkind ihl ihr =>
    obtain ⟨hls, hrs⟩ := stretches_of_broadcast hshape
    obtain hleft | hright := List.mem_append.1 hl
    · exact (ihl hleft).trans hls
    · exact (ihr hright).trans hrs
  | compare hl' hr hshape hkind ihl ihr =>
    obtain ⟨hls, hrs⟩ := stretches_of_broadcast hshape
    obtain hleft | hright := List.mem_append.1 hl
    · exact (ihl hleft).trans hls
    · exact (ihr hright).trans hrs
  | call hinputs hshape hkind ih =>
    obtain ⟨e, he, hl⟩ := mem_leavesOfAll.1 hl
    exact (ih e he hl).trans (hshape e he)

/-! ## Nodes -/

/-- The nodes of an expression. -/
inductive NodeOf (root : Expr) : Expr → Prop where
  | root : NodeOf root root
  | operand {op : UnaryOp} {type : ExprType} {x : Expr} (h : NodeOf root (.unary op type x)) :
      NodeOf root x
  | left {op : BinaryOp} {type : ExprType} {l r : Expr} (h : NodeOf root (.binary op type l r)) :
      NodeOf root l
  | right {op : BinaryOp} {type : ExprType} {l r : Expr} (h : NodeOf root (.binary op type l r)) :
      NodeOf root r
  | compareLeft {op : CompareOp} {kind : ScalarKind} {type : ExprType} {l r : Expr}
      (h : NodeOf root (.compare op kind type l r)) : NodeOf root l
  | compareRight {op : CompareOp} {kind : ScalarKind} {type : ExprType} {l r : Expr}
      (h : NodeOf root (.compare op kind type l r)) : NodeOf root r
  | input {f : UserFunction} {type : ExprType} {inputs : List Expr} {x : Expr}
      (h : NodeOf root (.call f type inputs)) (hx : x ∈ inputs) : NodeOf root x

/-- A node of a node is a node. -/
theorem NodeOf.trans (h : x.NodeOf e) (hx : root.NodeOf x) : root.NodeOf e := by
  induction h with
  | root => exact hx
  | operand _ ih => exact .operand ih
  | left _ ih => exact .left ih
  | right _ ih => exact .right ih
  | compareLeft _ ih => exact .compareLeft ih
  | compareRight _ ih => exact .compareRight ih
  | input _ hmem ih => exact .input ih hmem

/-- What a node takes over from the expression that it stands in. -/
structure Inherits (w : Workspace) (root e : Expr) : Prop where
  typed : Typed w e
  stretches : e.shape.Stretches root.shape
  leaves : ∀ l ∈ e.leaves, l ∈ root.leaves
  functions : ∀ f ∈ e.functions, f ∈ root.functions

/-- What a node inherits its two operands inherit, which have its leaves and its functions between them. -/
theorem Inherits.both {l r : Expr} (h : Inherits w root e) (hl : Typed w l) (hr : Typed w r)
    (hshape : broadcast l.shape r.shape = .ok e.shape) (hleaves : e.leaves = l.leaves ++ r.leaves)
    (hfunctions : e.functions = l.functions ++ r.functions) :
    Inherits w root l ∧ Inherits w root r := by
  obtain ⟨-, hstretch, hallLeaves, hallFunctions⟩ := h
  rw [hleaves, List.forall_mem_append] at hallLeaves
  rw [hfunctions, List.forall_mem_append] at hallFunctions
  obtain ⟨hls, hrs⟩ := stretches_of_broadcast hshape
  exact ⟨⟨hl, hls.trans hstretch, hallLeaves.1, hallFunctions.1⟩,
    hr, hrs.trans hstretch, hallLeaves.2, hallFunctions.2⟩

theorem NodeOf.inherits (h : root.NodeOf e) (hroot : Typed w root) : Inherits w root e := by
  induction h with
  | root => exact ⟨hroot, .refl _, fun _ hl => hl, fun _ hf => hf⟩
  | @operand op type x _ ih =>
    cases ih.typed with
    | unary hx hshape hkind =>
      have hstretch := ih.stretches
      rw [show Expr.shape (.unary op type x) = x.shape from hshape] at hstretch
      exact ⟨hx, hstretch, ih.leaves, ih.functions⟩
  | left _ ih =>
    cases ih.typed with
    | binary hl hr hshape hkind => exact (ih.both hl hr hshape rfl rfl).1
  | right _ ih =>
    cases ih.typed with
    | binary hl hr hshape hkind => exact (ih.both hl hr hshape rfl rfl).2
  | compareLeft _ ih =>
    cases ih.typed with
    | compare hl hr hshape hkind => exact (ih.both hl hr hshape rfl rfl).1
  | compareRight _ ih =>
    cases ih.typed with
    | compare hl hr hshape hkind => exact (ih.both hl hr hshape rfl rfl).2
  | input _ hx ih =>
    cases ih.typed with
    | call hinputs hshape hkind =>
      exact ⟨hinputs _ hx, (hshape _ hx).trans ih.stretches,
        fun l hl => ih.leaves l (mem_leavesOfAll.2 ⟨_, hx, hl⟩),
        fun f hf => ih.functions f (List.mem_cons_of_mem _ (mem_functionsOfAll.2 ⟨_, hx, hf⟩))⟩

end Expr

end ChunkedArray
