import ChunkedArray.Proofs.Expr.Kernel
import ChunkedArray.Proofs.Expr.Nodes

/-!
# Operands of a type

What a node gives over a box is held as its kind says, in the shape of its part of the box, and every
integer in it is one of its kind. Operators take such operands to such operands, and never fail on
them as long as the elements can be counted.
-/

namespace ChunkedArray

open ChunkedArray.Shape

namespace Operand

variable {kind : ScalarKind} {x : Operand} {shape : Shape}

/-- Whether every integer of an operand is one of a kind. -/
def InRange (kind : ScalarKind) : Operand → Prop
  | int a => ∀ i ∈ a.items, -2 ^ (kind.bits - 1) ≤ i.toInt ∧ i.toInt < 2 ^ (kind.bits - 1)
  | uint a => ∀ n ∈ a.items, n.toNat < 2 ^ kind.bits
  | _ => True

theorem wrapInt_inRange (h : kind.representation = .int) (i : Int64) :
    -2 ^ (kind.bits - 1) ≤ (kind.wrapInt i).toInt ∧
      (kind.wrapInt i).toInt < 2 ^ (kind.bits - 1) := by
  cases kind with
  | int8 =>
    rw [ScalarKind.wrapInt, Int8.toInt_toInt64]
    exact ⟨Int8.le_toInt _, Int8.toInt_lt _⟩
  | int16 =>
    rw [ScalarKind.wrapInt, Int16.toInt_toInt64]
    exact ⟨Int16.le_toInt _, Int16.toInt_lt _⟩
  | int32 =>
    rw [ScalarKind.wrapInt, Int32.toInt_toInt64]
    exact ⟨Int32.le_toInt _, Int32.toInt_lt _⟩
  | int64 => exact ⟨i.le_toInt, i.toInt_lt⟩
  | _ => cases h

theorem wrapUInt_inRange (h : kind.representation = .uint) (n : UInt64) :
    (kind.wrapUInt n).toNat < 2 ^ kind.bits := by
  cases kind with
  | uint8 =>
    rw [ScalarKind.wrapUInt, UInt8.toNat_toUInt64]
    exact UInt8.toNat_lt _
  | uint16 =>
    rw [ScalarKind.wrapUInt, UInt16.toNat_toUInt64]
    exact UInt16.toNat_lt _
  | uint32 =>
    rw [ScalarKind.wrapUInt, UInt32.toNat_toUInt64]
    exact UInt32.toNat_lt _
  | uint64 => exact n.toNat_lt
  | _ => cases h

/-- Integers that were brought into range are in range. -/
theorem inRange_wrap (h : x.holds kind = true) : (x.wrap kind).InRange kind := by
  rw [holds_iff] at h
  cases x with
  | int a =>
    intro i hi
    obtain ⟨j, -, rfl⟩ := Array.mem_map.1 hi
    exact wrapInt_inRange h.symm j
  | uint a =>
    intro n hn
    obtain ⟨m, -, rfl⟩ := Array.mem_map.1 hn
    exact wrapUInt_inRange h.symm m
  | _ => trivial

/-- An element that was read has no more bits than its kind. -/
theorem decodeAt_lt (h : kind.representation = .uint) (b : Bytes) (pos : Nat) :
    (Element.decodeAt kind b pos).toNat < 2 ^ kind.bits := by
  have hbool : kind ≠ .bool := by
    rintro rfl
    cases h
  have hread := LittleEndian.readAt_lt b pos kind.itemsize
  rw [Element.decodeAt, if_neg hbool, UInt64.toNat_ofNat', ScalarKind.bits, pow_mul]
  exact (Nat.mod_le _ _).trans_lt hread

/-- Integers that were read are in range. -/
theorem inRange_ofBytes {b : Bytes} (h : ofBytes kind shape b = .ok x) : x.InRange kind := by
  obtain ⟨typed, htyped, h⟩ := bind_eq_ok.1 h
  obtain ⟨⟨⟩, -, htyped⟩ := bind_eq_ok.1 htyped
  cases htyped
  cases hrep : kind.representation with
  | int =>
    rw [hrep] at h
    cases h
    intro i hi
    obtain ⟨word, -, rfl⟩ := Array.mem_map.1 hi
    exact wrapInt_inRange hrep _
  | uint =>
    rw [hrep] at h
    cases h
    intro n hn
    obtain ⟨i, rfl⟩ := Array.mem_ofFn.1 hn
    exact decodeAt_lt hrep b _
  | _ =>
    rw [hrep] at h
    cases h
    trivial

theorem inRange_stretch (h : x.InRange kind) (target : Shape) : (x.stretch target).InRange kind := by
  cases x with
  | int a =>
    have hpos : (0 : Int) < 2 ^ (kind.bits - 1) := by positivity
    exact Dense.forall_mem_stretch h ⟨(Int.neg_neg_of_pos hpos).le, hpos⟩
  | uint a => exact Dense.forall_mem_stretch h (Nat.two_pow_pos _)
  | _ => trivial

/-- An operand of a kind and a shape: it is held as the kind says, there are as many elements as the
shape has places, and every integer is in the range of the kind. -/
structure Conforms (kind : ScalarKind) (shape : Shape) (x : Operand) : Prop where
  shape : x.shape = shape
  holds : x.holds kind = true
  filled : x.Filled
  inRange : x.InRange kind

theorem Conforms.stretch (h : x.Conforms kind shape) (target : Shape) :
    (x.stretch target).Conforms kind target := by
  refine ⟨shape_stretch x target, ?_, filled_stretch h.filled, inRange_stretch h.inRange target⟩
  rw [holds_iff, representation_stretch, ← holds_iff]
  exact h.holds

/-- What is brought into range conforms. -/
theorem conforms_wrap (hshape : x.shape = shape) (hholds : x.holds kind = true) (hfilled : x.Filled) :
    (x.wrap kind).Conforms kind shape := by
  refine ⟨(shape_wrap kind x).trans hshape, ?_, filled_wrap hfilled, inRange_wrap hholds⟩
  rw [holds_iff, representation_wrap, ← holds_iff]
  exact hholds

end Operand

namespace Expr

variable {box : Box} {e : Expr} {x y lx rx : Operand} {type : ExprType}

/-- What a node gives over a box: an operand of its kind in the shape of its part of the box. -/
def Conforms (box : Box) (e : Expr) (x : Operand) : Prop :=
  x.Conforms e.kind (operandBox e.shape box).shape

theorem conforms_literal (box : Box) (value : Literal) :
    Conforms box (.literal value) value.operand := by
  cases value with
  | int i =>
    refine ⟨rfl, rfl, rfl, fun j _ => ?_⟩
    exact ⟨j.le_toInt, j.toInt_lt⟩
  | _ => exact ⟨rfl, rfl, rfl, trivial⟩

/-- Bytes that fill the part of a box give a leaf that conforms. -/
theorem exists_conforms_ofBytes {l : Leaf} {data : Bytes} (hwidth : l.part.width = l.type.kind.itemsize)
    (hsize : data.size = (operandBox l.type.shape box).shape.size * l.part.width)
    (hcount : (operandBox l.type.shape box).shape.isCountable = true) :
    ∃ x, Operand.ofBytes l.type.kind (operandBox l.type.shape box).shape data = .ok x ∧
      Conforms box (.array l.name l.part l.type) x := by
  have hitems : data.size / l.type.kind.itemsize = (operandBox l.type.shape box).shape.size := by
    rw [hsize, hwidth, Nat.mul_div_cancel _ (Element.itemsize_pos _)]
  obtain ⟨x, hx, hshape, hholds, hfilled, -⟩ := Operand.exists_ofBytes hcount hitems
  exact ⟨x, hx, hshape, hholds, hfilled, Operand.inRange_ofBytes hx⟩

/-- An operator with a type is applied to an operand that conforms. -/
theorem exists_conforms_unary {op : UnaryOp} (hx : Conforms box e x) (hshape : type.shape = e.shape)
    (hkind : op.resultKind e.kind = .ok type.kind) :
    ∃ y, op.apply type.kind x = .ok y ∧ Conforms box (.unary op type e) y := by
  obtain ⟨y, hy, hholds⟩ := UnaryOp.exists_apply hkind hx.holds
  obtain ⟨hyshape, hfilled, -⟩ := UnaryOp.computes_apply hy hx.filled
  refine ⟨y, hy, ?_, hholds, hfilled, ?_⟩
  · rw [hyshape, hx.shape, ← hshape]
    rfl
  · obtain ⟨z, -, rfl⟩ := map_eq_ok.1 hy
    rw [Operand.holds_iff, Operand.representation_wrap, ← Operand.holds_iff] at hholds
    exact Operand.inRange_wrap hholds

section Both

variable {l r : Expr}

/-- The common shape of two operands that conform is the part of that of their nodes. -/
theorem shape_of_conforms (hl : Conforms box l lx) (hr : Conforms box r rx)
    (hshape : broadcast l.shape r.shape = .ok type.shape) (hlen : type.shape.length ≤ box.length) :
    broadcast lx.shape rx.shape = .ok (operandBox type.shape box).shape := by
  rw [hl.shape, hr.shape]
  exact broadcast_operandBox hshape hlen

/-- An operator with a type is applied to two operands that conform. -/
theorem exists_conforms_binary {op : BinaryOp} {meet : ScalarKind} (hl : Conforms box l lx)
    (hr : Conforms box r rx) (hshape : broadcast l.shape r.shape = .ok type.shape)
    (hkind : op.operandKind meet = .ok type.kind) (hlen : type.shape.length ≤ box.length)
    (hcount : (operandBox type.shape box).shape.isCountable = true) :
    ∃ x, op.apply type.kind lx rx = .ok x ∧ Conforms box (.binary op type l r) x := by
  have hlocal := shape_of_conforms hl hr hshape hlen
  obtain ⟨x, hx⟩ := BinaryOp.exists_apply hkind hlocal hcount
  obtain ⟨hcombines, hholds⟩ := BinaryOp.combines_apply hx hl.filled hr.filled
  refine ⟨x, hx, ?_, hholds, hcombines.filled, ?_⟩
  · rw [hcombines.shape, Except.ok.injEq] at hlocal
    exact hlocal
  · obtain ⟨z, -, rfl⟩ := map_eq_ok.1 hx
    rw [Operand.holds_iff, Operand.representation_wrap, ← Operand.holds_iff] at hholds
    exact Operand.inRange_wrap hholds

/-- Two operands that conform are compared. -/
theorem exists_conforms_compare {op : CompareOp} {kind : ScalarKind} (hl : Conforms box l lx)
    (hr : Conforms box r rx) (hshape : broadcast l.shape r.shape = .ok type.shape)
    (hkind : type.kind = .bool) (hlen : type.shape.length ≤ box.length)
    (hcount : (operandBox type.shape box).shape.isCountable = true) :
    ∃ x, op.apply kind lx rx = .ok x ∧ Conforms box (.compare op kind type l r) x := by
  have hlocal := shape_of_conforms hl hr hshape hlen
  obtain ⟨x, hx⟩ := @CompareOp.exists_apply kind lx rx op _ hlocal hcount
  obtain ⟨hcombines, hholds⟩ := CompareOp.combines_apply hx hl.filled hr.filled
  have hbool : Expr.kind (.compare op kind type l r) = .bool := hkind
  refine ⟨x, hx, ?_, ?_, hcombines.filled, ?_⟩
  · rw [hcombines.shape, Except.ok.injEq] at hlocal
    exact hlocal
  · rw [hbool]
    exact hholds
  · obtain ⟨c, -, rfl⟩ := map_eq_ok.1 hx
    trivial

end Both

end Expr

end ChunkedArray
