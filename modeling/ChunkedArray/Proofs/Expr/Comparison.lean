import ChunkedArray.Proofs.Expr.Chunkwise
import ChunkedArray.Proofs.Expr.Elements
import ChunkedArray.Proofs.Shape.Common

/-!
# Comparisons with a scalar

An integer next to a scalar is compared in its own kind: the scalar is weak and gives way, also where it
is no element of that kind. It is then reduced to one that is, so that a comparison with it is one with
another integer. All comparisons of a kind with a scalar are those of the integers exactly if the kind
has the scalar among its elements.
-/

namespace ChunkedArray

open ChunkedArray.Action ChunkedArray.Shape

namespace CompareOp

/-- The comparison of integers. -/
def compareInt (op : CompareOp) (m n : Int) : Bool :=
  op.kernel (fun m n => decide (m < n)) (fun m n => decide (m ≤ n)) (· == ·) m n

variable {op : CompareOp} {kind : ScalarKind} {u v : Value}

theorem kernel_int (x y : Int64) :
    op.kernel (fun x y => decide (x < y)) (fun x y => decide (x ≤ y)) (· == ·) x y =
      op.compareInt x.toInt y.toInt := by
  have hbeq : (x == y) = (x.toInt == y.toInt) := by
    rw [Bool.eq_iff_iff, beq_iff_eq, beq_iff_eq, Int64.toInt_inj]
  cases op <;> simp only [compareInt, kernel, Int64.lt_iff_toInt_lt, Int64.le_iff_toInt_le, hbeq]

theorem kernel_uint (x y : UInt64) :
    op.kernel (fun x y => decide (x < y)) (fun x y => decide (x ≤ y)) (· == ·) x y =
      op.compareInt x.toNat y.toNat := by
  have hbeq : (x == y) = ((x.toNat : Int) == y.toNat) := by
    rw [Bool.eq_iff_iff, beq_iff_eq, beq_iff_eq, Int.natCast_inj, UInt64.toNat_inj]
  cases op <;>
    simp only [compareInt, kernel, UInt64.lt_iff_toNat_lt, UInt64.le_iff_toNat_le, Int.ofNat_lt,
      Int.ofNat_le, hbeq]

/-- Values are compared in an integer kind by comparing their integers, reduced to the kind. -/
theorem applyValue_int (hkind : kind.isInt = true) (hu : u.representation.isFloat = false)
    (hv : v.representation.isFloat = false) :
    op.applyValue kind u v =
      .ok (.bool (op.compareInt (kind.reduce u.integer) (kind.reduce v.integer))) := by
  have hfloat := ScalarKind.isFloat_of_isInt hkind
  have hurep := Value.representation_cast kind u
  have hvrep := Value.representation_cast kind v
  rw [applyValue, ← Value.integer_cast hfloat hu, ← Value.integer_cast hfloat hv]
  generalize u.cast kind = u at hurep
  generalize v.cast kind = v at hvrep
  have hsame : v.representation = u.representation := hvrep.trans hurep.symm
  cases u with
  | bool a =>
    obtain rfl := ScalarKind.representation_eq_bool_iff.1 hurep.symm
    cases hkind
  | int a =>
    cases v with
    | int b => exact congrArg (fun c => Except.ok (Value.bool c)) (kernel_int a b)
    | _ => cases hsame
  | uint a =>
    cases v with
    | uint b => exact congrArg (fun c => Except.ok (Value.bool c)) (kernel_uint a b)
    | _ => cases hsame
  | _ => cases kind <;> cases hkind <;> cases hurep

/-- All comparisons with a reduced integer are those with the integer exactly if it is an element of
the kind. -/
theorem exact_iff_contains (hkind : kind.isInt = true) {n : Int} :
    (∀ (op : CompareOp) (m : Int), kind.Contains m →
      op.compareInt m (kind.reduce n) = op.compareInt m n ∧
        op.compareInt (kind.reduce n) m = op.compareInt n m) ↔ kind.Contains n := by
  constructor
  · intro hexact
    have heq := (hexact .eq (kind.reduce n) (ScalarKind.contains_reduce hkind n)).1
    have hsame : kind.reduce n = n := by simpa [compareInt, kernel] using heq
    exact (ScalarKind.contains_iff_reduce_eq hkind).2 hsame
  · intro hcontains op m _
    rw [ScalarKind.reduce_of_contains hcontains]
    exact ⟨rfl, rfl⟩

end CompareOp

namespace Expr

variable {reads : String → Prop} {rules : UserFunction → Rule} {w : Workspace} {box : Box}
variable {kind : ScalarKind} {l r e : Expr} {lx rx : Operand} {op : CompareOp}

/-- Operands that meet in an integer kind are compared by their integers, reduced to the kind. -/
theorem exists_eval_compare_int (hkind : kind.isInt = true) (hl : WellBuilt w l) (hr : WellBuilt w r)
    (hmeet : (ExprType.meet l.type r.type).1 = kind) (hlfloat : l.kind.isFloat = false)
    (hrfloat : r.kind.isFloat = false) (he : mkCompare op l r = .ok e)
    (hlawful : e.Lawful reads rules) (hbox : box.Inside e.shape) (hne : box.Nonempty)
    (hcount : (operandBox e.shape box).shape.isCountable = true)
    (hlx : outcome (eval box l) w = .ok lx) (hrx : outcome (eval box r) w = .ok rx) :
    ∃ x, outcome (eval box e) w = .ok x ∧ broadcast lx.shape rx.shape = .ok x.shape ∧
      ∀ d, x.shape.Holds d → x.get d = .bool (op.compareInt
        (kind.reduce (lx.get (lx.shape.project d)).integer)
        (kind.reduce (rx.get (rx.shape.project d)).integer)) := by
  obtain ⟨type, rfl, hshape, htype⟩ := mkCompare_eq_ok he
  rw [hmeet] at hlawful hcount ⊢
  obtain ⟨x, hx, -, hcombines, hlc, hrc⟩ :=
    exists_eval_compare hl.typed hr.typed hlawful hshape htype hbox hne hcount hlx hrx
  refine ⟨x, hx, hcombines.shape, fun d hd => ?_⟩
  have hu := (Operand.isFloat_get hlc.holds (lx.shape.project d)).trans hlfloat
  have hv := (Operand.isFloat_get hrc.holds (rx.shape.project d)).trans hrfloat
  have hget := hcombines.get d hd
  rw [CompareOp.applyValue_int hkind hu hv] at hget
  exact (Except.ok.inj hget).symm

/-- What has a common shape can be compared. -/
theorem exists_mkCompare (op : CompareOp) {shape : Shape} (h : broadcast l.shape r.shape = .ok shape) :
    ∃ e, mkCompare op l r = .ok e ∧ e.shape = shape :=
  ⟨.compare op (ExprType.meet l.type r.type).1 ⟨shape, .bool, (ExprType.meet l.type r.type).2⟩ l r,
    bind_eq_ok.2 ⟨_, bind_eq_ok.2 ⟨shape, h, rfl⟩, rfl⟩, rfl⟩

theorem Lawful.mkCompare (hl : l.Lawful reads rules) (hr : r.Lawful reads rules)
    (he : mkCompare op l r = .ok e) : e.Lawful reads rules := by
  obtain ⟨type, rfl, -⟩ := mkCompare_eq_ok he
  exact ⟨List.forall_mem_append.2 ⟨hl.arrays, hr.arrays⟩,
    List.forall_mem_append.2 ⟨hl.functions, hr.functions⟩⟩

/-- A scalar gives way to an integer expression that is not one itself. -/
theorem meet_literal (hkind : kind.isInt = true) (hstrong : l.type.weak = false) (hlkind : l.kind = kind)
    (s : Int64) : (ExprType.meet l.type (literal (.int s)).type).1 = kind ∧
      (ExprType.meet (literal (.int s)).type l.type).1 = kind := by
  have hagainst : ExprType.weakAgainst .int64 kind = kind := by
    revert hkind
    cases kind <;> decide
  rw [← hlkind] at hagainst ⊢
  rw [ExprType.meet, ExprType.meet, hstrong]
  exact ⟨hagainst, hagainst⟩

theorem lawful_literal (value : Literal) : (literal value).Lawful reads rules :=
  ⟨List.forall_mem_nil _, List.forall_mem_nil _⟩

section Scalar

variable (hkind : kind.isInt = true) (hl : WellBuilt w l) (hstrong : l.type.weak = false)
variable (hlkind : l.kind = kind) (hlawful : l.Lawful reads rules) (hbox : box.Inside l.shape)
variable (hne : box.Nonempty) (hcount : (operandBox l.shape box).shape.isCountable = true)
variable (hlx : outcome (eval box l) w = .ok lx) (op : CompareOp) (s : Int64)

include hkind hl hstrong hlkind hlawful hbox hne hcount hlx

/-- An integer expression next to an integer scalar, on either side, is compared with the scalar reduced
to its kind. -/
theorem exists_eval_compare_scalar :
    (∃ e x, mkCompare op l (.literal (.int s)) = .ok e ∧ outcome (eval box e) w = .ok x ∧
      x.shape = lx.shape ∧ ∀ d, lx.shape.Holds d → kind.Contains (lx.get d).integer ∧
        x.get d = .bool (op.compareInt (lx.get d).integer (kind.reduce s.toInt))) ∧
    ∃ e x, mkCompare op (.literal (.int s)) l = .ok e ∧ outcome (eval box e) w = .ok x ∧
      x.shape = lx.shape ∧ ∀ d, lx.shape.Holds d → kind.Contains (lx.get d).integer ∧
        x.get d = .bool (op.compareInt (kind.reduce s.toInt) (lx.get d).integer) := by
  have hfloat := ScalarKind.isFloat_of_isInt hkind
  obtain ⟨hright, hleft⟩ := meet_literal hkind hstrong hlkind s
  have hconforms := (evaluates_of_eval hl.typed hlawful (.refl _) hbox hne hlx).conforms hl.typed
    hlawful hlx
  have hcontains (d : List Nat) (hd : lx.shape.Holds d) : kind.Contains (lx.get d).integer := by
    rw [← hlkind] at hkind ⊢
    exact hconforms.contains hkind hd
  constructor
  · obtain ⟨e, he, heshape⟩ := exists_mkCompare op (r := .literal (.int s)) (broadcast_nil l.shape).1
    rw [← heshape] at hbox hcount
    obtain ⟨x, hx, hshape, hget⟩ := exists_eval_compare_int hkind hl (.literal (.int s)) hright
      (hlkind ▸ hfloat) rfl he (hlawful.mkCompare (lawful_literal _) he) hbox hne hcount hlx rfl
    have hsame := Except.ok.inj ((broadcast_nil lx.shape).1.symm.trans hshape)
    rw [← hsame] at hget
    refine ⟨e, x, he, hx, hsame.symm, fun d hd => ⟨hcontains d hd, ?_⟩⟩
    rw [hget d hd, project_self hd, ScalarKind.reduce_of_contains (hcontains d hd)]
    rfl
  · obtain ⟨e, he, heshape⟩ := exists_mkCompare op (l := .literal (.int s)) (broadcast_nil l.shape).2
    rw [← heshape] at hbox hcount
    obtain ⟨x, hx, hshape, hget⟩ := exists_eval_compare_int hkind (.literal (.int s)) hl hleft
      rfl (hlkind ▸ hfloat) he ((lawful_literal _).mkCompare hlawful he) hbox hne hcount rfl hlx
    have hsame := Except.ok.inj ((broadcast_nil lx.shape).2.symm.trans hshape)
    rw [← hsame] at hget
    refine ⟨e, x, he, hx, hsame.symm, fun d hd => ⟨hcontains d hd, ?_⟩⟩
    rw [hget d hd, project_self hd, ScalarKind.reduce_of_contains (hcontains d hd)]
    rfl

/-- An integer expression next to an integer scalar, on either side, is compared with the scalar reduced
to its kind. All comparisons of the kind with the scalar are those of the integers exactly if the kind
has the scalar among its elements. -/
theorem eval_compare_scalar :
    ((∃ e x, mkCompare op l (.literal (.int s)) = .ok e ∧ outcome (eval box e) w = .ok x ∧
        x.shape = lx.shape ∧ ∀ d, lx.shape.Holds d → kind.Contains (lx.get d).integer ∧
          x.get d = .bool (op.compareInt (lx.get d).integer (kind.reduce s.toInt))) ∧
      ∃ e x, mkCompare op (.literal (.int s)) l = .ok e ∧ outcome (eval box e) w = .ok x ∧
        x.shape = lx.shape ∧ ∀ d, lx.shape.Holds d → kind.Contains (lx.get d).integer ∧
          x.get d = .bool (op.compareInt (kind.reduce s.toInt) (lx.get d).integer)) ∧
    ((∀ (op : CompareOp) (m : Int), kind.Contains m →
        op.compareInt m (kind.reduce s.toInt) = op.compareInt m s.toInt ∧
          op.compareInt (kind.reduce s.toInt) m = op.compareInt s.toInt m) ↔
      kind.Contains s.toInt) :=
  ⟨exists_eval_compare_scalar hkind hl hstrong hlkind hlawful hbox hne hcount hlx op s,
    CompareOp.exact_iff_contains hkind⟩

end Scalar

section ThreeBytes

theorem lawful_threeBytes : threeBytes.Lawful (fun _ => True) fun _ _ _ => .ok default :=
  ⟨fun _ _ => trivial, List.forall_mem_nil _⟩

/-- Three bytes in memory, evaluated as a whole. -/
theorem exists_whole_threeBytes : ∃ x lx,
    NDArray.ofBytes #[1, 2, 3] [3] (.scalar .uint8) { chunks := some [2] } = .ok x ∧
      WellBuilt { arrays := [("x", x)] } threeBytes ∧
      outcome (eval [⟨0, 3⟩] threeBytes) { arrays := [("x", x)] } = .ok lx ∧ lx.shape = [3] := by
  obtain ⟨x, contents, hx, hgeometry, hsound⟩ := exists_threeBytes
  have hbuilt : WellBuilt { arrays := [("x", x)] } threeBytes :=
    .array rfl hsound.regular (ofArray_threeBytes hgeometry)
  have hbox : Box.Inside [⟨0, 3⟩] [3] := .cons (by decide) .nil
  have hne : Box.Nonempty [⟨0, 3⟩] := List.forall_mem_singleton.2 (by decide)
  obtain ⟨lx, hlx⟩ := exists_eval_threeBytes hgeometry hsound hbox hne
  exact ⟨x, lx, hx, hbuilt, hlx,
    (evaluates_of_eval hbuilt.typed lawful_threeBytes (.refl _) hbox hne hlx).shape⟩

end ThreeBytes

/-- Three bytes compared with two. -/
theorem eval_compare_scalar_two : ∃ x lx e y,
    NDArray.ofBytes #[1, 2, 3] [3] (.scalar .uint8) { chunks := some [2] } = .ok x ∧
      outcome (eval [⟨0, 3⟩] threeBytes) { arrays := [("x", x)] } = .ok lx ∧
      mkCompare .lt threeBytes (.literal (.int 2)) = .ok e ∧
      outcome (eval [⟨0, 3⟩] e) { arrays := [("x", x)] } = .ok y ∧
      ∀ d, lx.shape.Holds d → y.get d = .bool (CompareOp.lt.compareInt (lx.get d).integer 2) := by
  obtain ⟨x, lx, hx, hbuilt, hlx, -⟩ := exists_whole_threeBytes
  obtain ⟨⟨⟨e, y, he, hy, -, hget⟩, -⟩, -⟩ := eval_compare_scalar rfl hbuilt rfl rfl
    lawful_threeBytes (.cons (by decide) .nil) (List.forall_mem_singleton.2 (by decide)) (by decide)
    hlx .lt 2
  exact ⟨x, lx, e, y, hx, hlx, he, hy, fun d hd => (hget d hd).2⟩

/-- No byte is found to be below 256, since all of them are compared with zero. -/
theorem eval_compare_scalar_wraps : ∃ x lx e y,
    NDArray.ofBytes #[1, 2, 3] [3] (.scalar .uint8) { chunks := some [2] } = .ok x ∧
      outcome (eval [⟨0, 3⟩] threeBytes) { arrays := [("x", x)] } = .ok lx ∧
      mkCompare .lt threeBytes (.literal (.int 256)) = .ok e ∧
      outcome (eval [⟨0, 3⟩] e) { arrays := [("x", x)] } = .ok y ∧
      CompareOp.lt.compareInt (lx.get [0]).integer 256 = true ∧ y.get [0] = .bool false := by
  obtain ⟨x, lx, hx, hbuilt, hlx, hshape⟩ := exists_whole_threeBytes
  obtain ⟨⟨e, y, he, hy, -, hget⟩, -⟩ := exists_eval_compare_scalar rfl hbuilt rfl rfl
    lawful_threeBytes (.cons (by decide) .nil) (List.forall_mem_singleton.2 (by decide)) (by decide)
    hlx .lt 256
  obtain ⟨hcontains, hvalue⟩ := hget [0] (by rw [hshape]; exact .cons (by decide) .nil)
  refine ⟨x, lx, e, y, hx, hlx, he, hy, decide_eq_true hcontains.2, ?_⟩
  exact hvalue.trans (congrArg Value.bool (decide_eq_false hcontains.1.not_gt))

end Expr

end ChunkedArray
