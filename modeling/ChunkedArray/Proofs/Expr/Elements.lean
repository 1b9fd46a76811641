import ChunkedArray.Proofs.Expr.Exact
import ChunkedArray.Proofs.Expr.Progress

/-!
# Elements of evaluated expressions

Whatever was evaluated over a box conforms to its node: every integer in it is an element of the kind of
the node. This needs no progress, since every kernel and every user function has its result brought
into range.
-/

namespace ChunkedArray

open ChunkedArray.Action ChunkedArray.Shape

/-- A dense array that is filled has its elements at the places of its shape. -/
theorem Dense.get_mem {α : Type} [Inhabited α] {a : Dense α} (h : a.Filled) {d : List Nat}
    (hd : a.shape.Holds d) : a.get d ∈ a.items := by
  have hlt := flatten_lt hd
  rw [← h] at hlt
  rw [get, Array.getD_eq_getD_getElem?, Array.getElem?_eq_getElem hlt]
  exact Array.getElem_mem hlt

namespace Operand

variable {kind : ScalarKind} {shape : Shape} {x : Operand} {d : List Nat}

theorem representation_get (x : Operand) (d : List Nat) : (x.get d).representation = x.representation := by
  cases x <;> rfl

theorem isFloat_get (h : x.holds kind = true) (d : List Nat) :
    (x.get d).representation.isFloat = kind.isFloat := by
  rw [representation_get, holds_iff.1 h, ScalarKind.isFloat_representation]

/-- The integers of an operand that conforms are elements of its kind. -/
theorem Conforms.contains (h : x.Conforms kind shape) (hkind : kind.isInt = true)
    (hd : x.shape.Holds d) : kind.Contains (x.get d).integer := by
  obtain ⟨-, hholds, hfilled, hrange⟩ := h
  rw [holds_iff] at hholds
  rw [ScalarKind.Contains]
  cases x with
  | int a =>
    rw [ScalarKind.representation_eq_int_iff.1 hholds.symm]
    exact hrange _ (Dense.get_mem hfilled hd)
  | uint a =>
    rw [ScalarKind.representation_eq_uint_iff.1 hholds.symm]
    have hlt : ((a.get d).toNat : Int) < 2 ^ kind.bits := by
      exact_mod_cast hrange _ (Dense.get_mem hfilled hd)
    exact ⟨Int.natCast_nonneg _, hlt⟩
  | _ => cases kind <;> cases hkind <;> cases hholds

end Operand

namespace Expr

variable {reads : String → Prop} {rules : UserFunction → Rule} {w : Workspace} {box : Box} {e : Expr}
variable {x : Operand}

/-- What was evaluated over a box conforms to the node. -/
theorem Evaluates.conforms (h : Evaluates rules w box e x) (htyped : Typed w e)
    (hlawful : e.Lawful reads rules) (heval : outcome (eval box e) w = .ok x) : Conforms box e x := by
  obtain ⟨hshape, hholds, hfilled, -⟩ := h
  refine ⟨hshape, hholds, hfilled, ?_⟩
  have hwrap (y : Operand) (hy : y.wrap e.kind = x) : x.InRange e.kind := by
    subst hy
    rw [Operand.holds_iff, Operand.representation_wrap, ← Operand.holds_iff] at hholds
    exact Operand.inRange_wrap hholds
  -- Evaluation gives shape and representation; that the values are in range is due to the last step of a
  -- node, which reads, compares or wraps.
  cases htyped with
  | array ha hg hshape hwidth =>
    rw [eval, outcome_bind_liftM] at heval
    obtain ⟨data, -, hx⟩ := bind_eq_ok.1 heval
    exact Operand.inRange_ofBytes hx
  | literal value =>
    cases heval
    exact (conforms_literal box value).inRange
  | unary hx hshape hkind =>
    rw [outcome_eval_unary] at heval
    obtain ⟨y, -, hy⟩ := bind_eq_ok.1 heval
    obtain ⟨z, -, hz⟩ := map_eq_ok.1 hy
    exact hwrap z hz
  | binary hl hr hshape hkind =>
    rw [outcome_eval_binary hl hr hlawful] at heval
    obtain ⟨lx, -, heval⟩ := bind_eq_ok.1 heval
    obtain ⟨rx, -, happly⟩ := bind_eq_ok.1 heval
    obtain ⟨z, -, hz⟩ := map_eq_ok.1 happly
    exact hwrap z hz
  | compare hl hr hshape hkind =>
    rw [outcome_eval_compare hl hr hlawful] at heval
    obtain ⟨lx, -, heval⟩ := bind_eq_ok.1 heval
    obtain ⟨rx, -, happly⟩ := bind_eq_ok.1 heval
    obtain ⟨c, -, rfl⟩ := map_eq_ok.1 happly
    trivial
  | call hinputs hshape hkind =>
    rw [outcome_eval_call hinputs hlawful] at heval
    obtain ⟨args, -, hcall⟩ := bind_eq_ok.1 heval
    obtain ⟨out, hout, -⟩ := exists_wrap_of_call hcall
    rw [← hkind] at hout
    exact hwrap out hout

section Both

variable {type : ExprType} {l r : Expr} {lx rx : Operand}

/-- Two operands of a node that were evaluated over a box conform to their nodes. -/
theorem conforms_both (hl : Typed w l) (hr : Typed w r) (hllawful : l.Lawful reads rules)
    (hrlawful : r.Lawful reads rules) (hshape : broadcast l.shape r.shape = .ok type.shape)
    (hbox : box.Inside type.shape) (hne : box.Nonempty) (hlx : outcome (eval box l) w = .ok lx)
    (hrx : outcome (eval box r) w = .ok rx) : Conforms box l lx ∧ Conforms box r rx := by
  obtain ⟨hls, hrs⟩ := stretches_of_broadcast hshape
  exact ⟨(evaluates_of_eval hl hllawful hls hbox hne hlx).conforms hl hllawful hlx,
    (evaluates_of_eval hr hrlawful hrs hbox hne hrx).conforms hr hrlawful hrx⟩

/-- A node with two operands that were evaluated over a box combines their values. -/
theorem exists_eval_binary {op : BinaryOp} {meet : ScalarKind} (hl : Typed w l) (hr : Typed w r)
    (hlawful : Lawful reads rules (.binary op type l r))
    (hshape : broadcast l.shape r.shape = .ok type.shape) (hkind : op.operandKind meet = .ok type.kind)
    (hbox : box.Inside type.shape) (hne : box.Nonempty)
    (hcount : (operandBox type.shape box).shape.isCountable = true)
    (hlx : outcome (eval box l) w = .ok lx) (hrx : outcome (eval box r) w = .ok rx) :
    ∃ x, outcome (eval box (.binary op type l r)) w = .ok x ∧ Conforms box (.binary op type l r) x ∧
      lx.Combines (op.applyValue type.kind) rx x ∧ Conforms box l lx ∧ Conforms box r rx := by
  obtain ⟨hllawful, hrlawful⟩ := hlawful.binary
  obtain ⟨hlc, hrc⟩ := conforms_both hl hr hllawful hrlawful hshape hbox hne hlx hrx
  obtain ⟨x, hx, hconforms⟩ :=
    exists_conforms_binary hlc hrc hshape hkind hbox.length_eq.ge hcount
  refine ⟨x, ?_, hconforms, (BinaryOp.combines_apply hx hlc.filled hrc.filled).1, hlc, hrc⟩
  rw [outcome_eval_binary hl hr hlawful, hlx, hrx]
  exact hx

/-- A comparison of operands that were evaluated over a box compares their values. -/
theorem exists_eval_compare {op : CompareOp} {kind : ScalarKind} (hl : Typed w l) (hr : Typed w r)
    (hlawful : Lawful reads rules (.compare op kind type l r))
    (hshape : broadcast l.shape r.shape = .ok type.shape) (hkind : type.kind = .bool)
    (hbox : box.Inside type.shape) (hne : box.Nonempty)
    (hcount : (operandBox type.shape box).shape.isCountable = true)
    (hlx : outcome (eval box l) w = .ok lx) (hrx : outcome (eval box r) w = .ok rx) :
    ∃ x, outcome (eval box (.compare op kind type l r)) w = .ok x ∧
      Conforms box (.compare op kind type l r) x ∧ lx.Combines (op.applyValue kind) rx x ∧
      Conforms box l lx ∧ Conforms box r rx := by
  obtain ⟨hllawful, hrlawful⟩ := hlawful.compare
  obtain ⟨hlc, hrc⟩ := conforms_both hl hr hllawful hrlawful hshape hbox hne hlx hrx
  obtain ⟨x, hx, hconforms⟩ :=
    @exists_conforms_compare _ lx rx type l r op kind hlc hrc hshape hkind hbox.length_eq.ge hcount
  refine ⟨x, ?_, hconforms, (CompareOp.combines_apply hx hlc.filled hrc.filled).1, hlc, hrc⟩
  rw [outcome_eval_compare hl hr hlawful, hlx, hrx]
  exact hx

end Both

end Expr

end ChunkedArray
