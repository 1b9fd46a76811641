import ChunkedArray.Expr.Kernel
import ChunkedArray.Proofs.Expr.Value

/-!
# Kernels on values

What an operator does to values is stated without regard to arrays: the operands are cast to the kind
in which it works, the kernel of that kind is applied, and the result is brought into range. To apply
an operator to operands applies it to the values that are stretched to every place, and an operator
that has a type has a kernel.
-/

namespace ChunkedArray

open ChunkedArray.Shape

variable {kind : ScalarKind} {l r x y : Operand} {d : List Nat}

/-- An operand that has, at every place of the common shape of two others, what a function on values
makes of those that are stretched there. -/
structure Operand.Combines (f : Value → Value → Result Value) (l r x : Operand) : Prop where
  shape : broadcast l.shape r.shape = .ok x.shape
  countable : x.shape.isCountable = true
  filled : x.Filled
  get : ∀ d, x.shape.Holds d →
    f (l.get (l.shape.project d)) (r.get (r.shape.project d)) = .ok (x.get d)

/-- A constructor of operands, with the constructor of their values. -/
structure Operand.Constructs {α : Type} [Inhabited α] (dense : Dense α → Operand)
    (value : α → Value) : Prop where
  shape : ∀ a, (dense a).shape = a.shape
  filled : ∀ a, (dense a).Filled ↔ a.Filled
  get : ∀ a d, (dense a).get d = value (a.get d)

namespace Operand

theorem constructs_bool : Constructs bool Value.bool :=
  ⟨fun _ => rfl, fun _ => Iff.rfl, fun _ _ => rfl⟩

theorem constructs_int : Constructs int Value.int :=
  ⟨fun _ => rfl, fun _ => Iff.rfl, fun _ _ => rfl⟩

theorem constructs_uint : Constructs uint Value.uint :=
  ⟨fun _ => rfl, fun _ => Iff.rfl, fun _ _ => rfl⟩

theorem constructs_single : Constructs single Value.single :=
  ⟨fun _ => rfl, fun _ => Iff.rfl, fun _ _ => rfl⟩

theorem constructs_double : Constructs double Value.double :=
  ⟨fun _ => rfl, fun _ => Iff.rfl, fun _ _ => rfl⟩

/-- A combination of dense arrays is a combination of the operands made of them. -/
theorem Constructs.combines {α β : Type} [Inhabited α] [Inhabited β] {dense : Dense α → Operand}
    {value : α → Value} {dense' : Dense β → Operand} {value' : β → Value}
    (h : Constructs dense value) (h' : Constructs dense' value') {f : α → α → β}
    {g : Value → Value → Result Value} (hg : ∀ x y, g (value x) (value y) = .ok (value' (f x y)))
    {a b : Dense α} {c : Dense β} (hzip : Dense.zipWith f a b = .ok c) (ha : (dense a).Filled)
    (hb : (dense b).Filled) : Combines g (dense a) (dense b) (dense' c) := by
  obtain ⟨hshape, hcount, hfilled, hget⟩ :=
    Dense.get_zipWith hzip ((h.filled a).1 ha) ((h.filled b).1 hb)
  refine ⟨?_, ?_, (h'.filled c).2 hfilled, fun d hd => ?_⟩
  · rw [h.shape, h.shape, h'.shape, hshape]
  · rw [h'.shape, hcount]
  · rw [h'.shape] at hd
    rw [h.shape, h.shape, h.get, h.get, h'.get, hg, hget d hd]

end Operand

namespace BinaryOp

variable {op : BinaryOp}

/-- Combines two words by a kernel that may be missing. -/
def zipValue {α : Type} (op : BinaryOp) (kind : ScalarKind) (kernel : Option (α → α → α))
    (x y : α) : Result α :=
  match kernel with
  | some f => .ok (f x y)
  | none => .error (.internal (.unsupported op.name kind))

/-- Applies an operator to two values in the representation of a kind. -/
def combineValue (op : BinaryOp) (kind : ScalarKind) : Value → Value → Result Value
  | .int x, .int y => (zipValue op kind op.intKernel? x y).map Value.int
  | .uint x, .uint y => (zipValue op kind op.uintKernel? x y).map Value.uint
  | .single x, .single y => (zipValue op kind op.floatKernel? x y).map Value.single
  | .double x, .double y => (zipValue op kind op.floatKernel? x y).map Value.double
  | .bool x, .bool y => (zipValue op kind op.boolKernel? x y).map Value.bool
  | _, _ => .error (.internal (.unsupported op.name kind))

/-- Applies an operator to two values in a kind. -/
def applyValue (op : BinaryOp) (kind : ScalarKind) (u v : Value) : Result Value :=
  (combineValue op kind (u.cast kind) (v.cast kind)).map (Value.wrap kind)

/-- A combination of operands by an operator combines their values by it. -/
theorem combines_combine (h : combine op kind l r = .ok x) (hl : l.Filled) (hr : r.Filled) :
    l.Combines (op.combineValue kind) r x ∧ x.representation = l.representation := by
  have hzip {α : Type} [Inhabited α] {dense : Dense α → Operand} {value : α → Value}
      (hc : Operand.Constructs dense value)
      (hrep : ∀ a b : Dense α, (dense a).representation = (dense b).representation)
      {kernel : Option (α → α → α)} (hkernel : ∀ x y, combineValue op kind (value x) (value y) =
        (zipValue op kind kernel x y).map value) {a b : Dense α} (ha : (dense a).Filled)
      (hb : (dense b).Filled) (h : (zip op kind kernel a b).map dense = .ok x) :
      Operand.Combines (op.combineValue kind) (dense a) (dense b) x ∧
        x.representation = (dense a).representation := by
    obtain ⟨c, hc', rfl⟩ := map_eq_ok.1 h
    cases kernel with
    | none => cases hc'
    | some f => exact ⟨hc.combines hc (fun x y => hkernel x y) hc' ha hb, hrep c a⟩
  -- Only operands of one representation are combined, each pair by its own constructor.
  cases l with
  | bool a =>
    cases r with
    | bool b => exact hzip Operand.constructs_bool (fun _ _ => rfl) (fun _ _ => rfl) hl hr h
    | _ => cases h
  | int a =>
    cases r with
    | int b => exact hzip Operand.constructs_int (fun _ _ => rfl) (fun _ _ => rfl) hl hr h
    | _ => cases h
  | uint a =>
    cases r with
    | uint b => exact hzip Operand.constructs_uint (fun _ _ => rfl) (fun _ _ => rfl) hl hr h
    | _ => cases h
  | single a =>
    cases r with
    | single b => exact hzip Operand.constructs_single (fun _ _ => rfl) (fun _ _ => rfl) hl hr h
    | _ => cases h
  | double a =>
    cases r with
    | double b => exact hzip Operand.constructs_double (fun _ _ => rfl) (fun _ _ => rfl) hl hr h
    | _ => cases h

/-- An operator applied to operands is applied to their values. -/
theorem combines_apply (h : op.apply kind l r = .ok x) (hl : l.Filled) (hr : r.Filled) :
    l.Combines (op.applyValue kind) r x ∧ x.holds kind = true := by
  obtain ⟨y, hy, rfl⟩ := map_eq_ok.1 h
  obtain ⟨hcombines, hrep⟩ :=
    combines_combine hy (Operand.filled_cast hl) (Operand.filled_cast hr)
  obtain ⟨hshape, hcount, hfilled, hget⟩ := hcombines
  rw [Operand.shape_cast, Operand.shape_cast] at hshape
  refine ⟨⟨?_, ?_, Operand.filled_wrap hfilled, fun d hd => ?_⟩, ?_⟩
  · rw [Operand.shape_wrap, hshape]
  · rw [Operand.shape_wrap, hcount]
  · rw [Operand.shape_wrap] at hd
    obtain ⟨hl', hr'⟩ := stretches_of_broadcast hshape
    have hvalue := hget d hd
    rw [Operand.shape_cast, Operand.shape_cast, Operand.get_cast hl (holds_project hl' hd),
      Operand.get_cast hr (holds_project hr' hd)] at hvalue
    rw [applyValue, hvalue, Operand.get_wrap hfilled hd]
    rfl
  · rw [Operand.holds_iff, Operand.representation_wrap, hrep, Operand.representation_cast]

/-- Whether there is a kernel for a representation. -/
def hasKernel (op : BinaryOp) : Representation → Bool
  | .bool => op.boolKernel?.isSome
  | .int => op.intKernel?.isSome
  | .uint => op.uintKernel?.isSome
  | .single => (op.floatKernel? : Option (UInt32 → UInt32 → UInt32)).isSome
  | .double => (op.floatKernel? : Option (UInt64 → UInt64 → UInt64)).isSome

/-- An operator has a kernel for the kind in which it works. -/
theorem hasKernel_of_operandKind {meet : ScalarKind} (h : op.operandKind meet = .ok kind) :
    op.hasKernel kind.representation = true := by
  cases op <;> cases meet <;> cases h <;> rfl

/-- Operands in a representation that the operator has a kernel for can be combined. -/
theorem exists_combine (hkernel : op.hasKernel l.representation = true)
    (hr : r.representation = l.representation) {shape : Shape}
    (h : broadcast l.shape r.shape = .ok shape) (hcount : shape.isCountable = true) :
    ∃ x, combine op kind l r = .ok x := by
  have hzip {α : Type} [Inhabited α] (dense : Dense α → Operand) {kernel : Option (α → α → α)}
      (hkernel : kernel.isSome = true) {a b : Dense α} (h : broadcast a.shape b.shape = .ok shape) :
      ∃ x, (zip op kind kernel a b).map dense = .ok x := by
    obtain ⟨f, rfl⟩ := Option.isSome_iff_exists.1 hkernel
    obtain ⟨c, hc⟩ := Dense.exists_zipWith f h hcount
    exact ⟨dense c, map_eq_ok.2 ⟨c, hc, rfl⟩⟩
  -- Only operands of one representation are combined, each pair by its own constructor.
  cases l with
  | bool a =>
    cases r with
    | bool b => exact hzip Operand.bool hkernel h
    | _ => cases hr
  | int a =>
    cases r with
    | int b => exact hzip Operand.int hkernel h
    | _ => cases hr
  | uint a =>
    cases r with
    | uint b => exact hzip Operand.uint hkernel h
    | _ => cases hr
  | single a =>
    cases r with
    | single b => exact hzip Operand.single hkernel h
    | _ => cases hr
  | double a =>
    cases r with
    | double b => exact hzip Operand.double hkernel h
    | _ => cases hr

/-- An operator that has a type can be applied to operands that have a common shape whose elements can
be counted. -/
theorem exists_apply {meet : ScalarKind} {shape : Shape} (hkind : op.operandKind meet = .ok kind)
    (h : broadcast l.shape r.shape = .ok shape) (hcount : shape.isCountable = true) :
    ∃ x, op.apply kind l r = .ok x := by
  have hkernel : op.hasKernel (l.cast kind).representation = true := by
    rw [Operand.representation_cast]
    exact hasKernel_of_operandKind hkind
  have hrep : (r.cast kind).representation = (l.cast kind).representation := by
    rw [Operand.representation_cast, Operand.representation_cast]
  rw [← Operand.shape_cast l kind, ← Operand.shape_cast r kind] at h
  obtain ⟨x, hx⟩ := @exists_combine kind _ _ op hkernel hrep _ h hcount
  exact ⟨x.wrap kind, map_eq_ok.2 ⟨x, hx, rfl⟩⟩

end BinaryOp

namespace CompareOp

variable {op : CompareOp}

/-- Compares two values in the representation of a kind. -/
def combineValue (op : CompareOp) (kind : ScalarKind) : Value → Value → Result Bool
  | .bool x, .bool y => .ok (op.kernel (fun x y => !x && y) (fun x y => !x || y) (· == ·) x y)
  | .int x, .int y =>
    .ok (op.kernel (fun x y => decide (x < y)) (fun x y => decide (x ≤ y)) (· == ·) x y)
  | .uint x, .uint y =>
    .ok (op.kernel (fun x y => decide (x < y)) (fun x y => decide (x ≤ y)) (· == ·) x y)
  | .single x, .single y => .ok (op.kernel FloatWord.lt FloatWord.le FloatWord.eq x y)
  | .double x, .double y => .ok (op.kernel FloatWord.lt FloatWord.le FloatWord.eq x y)
  | _, _ => .error (.internal (.unsupported op.name kind))

/-- Compares two values in a kind. -/
def applyValue (op : CompareOp) (kind : ScalarKind) (u v : Value) : Result Value :=
  (combineValue op kind (u.cast kind) (v.cast kind)).map Value.bool

/-- A comparison of operands compares their values. -/
theorem combines_combine {c : Dense Bool} (h : combine op kind l r = .ok c) (hl : l.Filled)
    (hr : r.Filled) :
    l.Combines (fun u v => (op.combineValue kind u v).map Value.bool) r (.bool c) := by
  cases l with
  | bool a =>
    cases r with
    | bool b =>
      exact Operand.constructs_bool.combines Operand.constructs_bool (fun _ _ => rfl) h hl hr
    | _ => cases h
  | int a =>
    cases r with
    | int b =>
      exact Operand.constructs_int.combines Operand.constructs_bool (fun _ _ => rfl) h hl hr
    | _ => cases h
  | uint a =>
    cases r with
    | uint b =>
      exact Operand.constructs_uint.combines Operand.constructs_bool (fun _ _ => rfl) h hl hr
    | _ => cases h
  | single a =>
    cases r with
    | single b =>
      exact Operand.constructs_single.combines Operand.constructs_bool (fun _ _ => rfl) h hl hr
    | _ => cases h
  | double a =>
    cases r with
    | double b =>
      exact Operand.constructs_double.combines Operand.constructs_bool (fun _ _ => rfl) h hl hr
    | _ => cases h

/-- A comparison applied to operands is applied to their values. -/
theorem combines_apply (h : op.apply kind l r = .ok x) (hl : l.Filled) (hr : r.Filled) :
    l.Combines (op.applyValue kind) r x ∧ x.holds .bool = true := by
  obtain ⟨c, hc, rfl⟩ := map_eq_ok.1 h
  obtain ⟨hshape, hcount, hfilled, hget⟩ :=
    combines_combine hc (Operand.filled_cast hl) (Operand.filled_cast hr)
  rw [Operand.shape_cast, Operand.shape_cast] at hshape
  refine ⟨⟨hshape, hcount, hfilled, fun d hd => ?_⟩, rfl⟩
  obtain ⟨hl', hr'⟩ := stretches_of_broadcast hshape
  have hvalue := hget d hd
  rwa [Operand.shape_cast, Operand.shape_cast, Operand.get_cast hl (holds_project hl' hd),
    Operand.get_cast hr (holds_project hr' hd)] at hvalue

/-- Operands that have a common shape whose elements can be counted can be compared. -/
theorem exists_apply {shape : Shape} (h : broadcast l.shape r.shape = .ok shape)
    (hcount : shape.isCountable = true) : ∃ x, op.apply kind l r = .ok x := by
  have hcombine : ∃ c, combine op kind (l.cast kind) (r.cast kind) = .ok c := by
    have hrep : (r.cast kind).representation = (l.cast kind).representation := by
      rw [Operand.representation_cast, Operand.representation_cast]
    rw [← Operand.shape_cast l kind, ← Operand.shape_cast r kind] at h
    generalize l.cast kind = l at h hrep
    generalize r.cast kind = r at h hrep
    cases l <;> cases r <;> cases hrep <;> exact Dense.exists_zipWith _ h hcount
  obtain ⟨c, hc⟩ := hcombine
  exact ⟨.bool c, map_eq_ok.2 ⟨c, hc, rfl⟩⟩

end CompareOp

namespace UnaryOp

variable {op : UnaryOp}

/-- Applies an elementary function to an operand in floating point. -/
def elementary (op : UnaryOp) (kind : ScalarKind) : Operand → Result Operand
  | .single a => .ok (.single (a.map op.floatKernel))
  | .double a => .ok (.double (a.map op.floatKernel))
  | _ => .error (.internal (.unsupported op.name kind))

/-- Applies an elementary function to a value in floating point. -/
def elementaryValue (op : UnaryOp) (kind : ScalarKind) : Value → Result Value
  | .single x => .ok (.single (op.floatKernel x))
  | .double x => .ok (.double (op.floatKernel x))
  | _ => .error (.internal (.unsupported op.name kind))

/-- Applies an operator to a value, before the result is brought into range. -/
def computeValue (kind : ScalarKind) : UnaryOp → Value → Result Value
  | neg, .int x => .ok (.int (-x))
  | neg, .uint x => .ok (.uint (-x))
  | neg, .single x => .ok (.single (FloatWord.neg x))
  | neg, .double x => .ok (.double (FloatWord.neg x))
  | not, .bool x => .ok (.bool !x)
  | not, .int x => .ok (.int (~~~x))
  | not, .uint x => .ok (.uint (~~~x))
  | abs, .int x => .ok (.int (absInt x))
  | abs, .single x => .ok (.single (FloatWord.abs x))
  | abs, .double x => .ok (.double (FloatWord.abs x))
  | abs, v => .ok v
  | op, v =>
    if op = neg ∨ op = not then .error (.internal (.unsupported op.name kind))
    else elementaryValue op kind (v.cast kind)

/-- Applies an operator to a value; `kind` is the kind of the result. -/
def applyValue (op : UnaryOp) (kind : ScalarKind) (v : Value) : Result Value :=
  (computeValue kind op v).map (Value.wrap kind)

/-- An operand that has, at every place of another one, what a function on values makes of the value
there. -/
structure Computes (f : Value → Result Value) (x y : Operand) : Prop where
  shape : y.shape = x.shape
  filled : y.Filled
  get : ∀ d, x.shape.Holds d → f (x.get d) = .ok (y.get d)

theorem Computes.of_map {α : Type} [Inhabited α] {dense : Dense α → Operand} {value : α → Value}
    (hc : Operand.Constructs dense value) {g : Value → Result Value} {f : α → α} {a : Dense α}
    (ha : (dense a).Filled) (hf : ∀ i, g (value i) = .ok (value (f i))) :
    Computes g (dense a) (dense (a.map f)) := by
  have hfilled := (hc.filled a).1 ha
  refine ⟨?_, (hc.filled _).2 (Dense.filled_map f hfilled), fun d hd => ?_⟩
  · rw [hc.shape, hc.shape, Dense.shape_map]
  · rw [hc.shape] at hd
    rw [hc.get, hc.get, hf, Dense.get_map f hfilled hd]

theorem computes_elementary (h : elementary op kind (x.cast kind) = .ok y) (hx : x.Filled) :
    Computes (fun v => elementaryValue op kind (v.cast kind)) x y := by
  have hcomputes : Computes (elementaryValue op kind) (x.cast kind) y := by
    have hfilled := @Operand.filled_cast _ kind hx
    generalize x.cast kind = z at h hfilled
    cases z with
    | single a =>
      cases h
      exact .of_map Operand.constructs_single hfilled fun _ => rfl
    | double a =>
      cases h
      exact .of_map Operand.constructs_double hfilled fun _ => rfl
    | _ => cases h
  obtain ⟨hshape, hfilled, hget⟩ := hcomputes
  rw [Operand.shape_cast] at hshape hget
  refine ⟨hshape, hfilled, fun d hd => ?_⟩
  rw [← Operand.get_cast hx hd, hget d hd]

/-- To compute an operator on an operand computes it on the values. -/
theorem computes_compute (h : compute kind op x = .ok y) (hx : x.Filled) :
    Computes (computeValue kind op) x y := by
  -- Where the operator has no kernel in the representation of the operand, it is refused.
  cases op with
  | neg =>
    cases x with
    | int a =>
      cases h
      exact .of_map Operand.constructs_int hx fun _ => rfl
    | uint a =>
      cases h
      exact .of_map Operand.constructs_uint hx fun _ => rfl
    | single a =>
      cases h
      exact .of_map Operand.constructs_single hx fun _ => rfl
    | double a =>
      cases h
      exact .of_map Operand.constructs_double hx fun _ => rfl
    | bool a => cases h
  | not =>
    cases x with
    | bool a =>
      cases h
      exact .of_map Operand.constructs_bool hx fun _ => rfl
    | int a =>
      cases h
      exact .of_map Operand.constructs_int hx fun _ => rfl
    | uint a =>
      cases h
      exact .of_map Operand.constructs_uint hx fun _ => rfl
    | _ => cases h
  | abs =>
    cases x with
    | int a =>
      cases h
      exact .of_map Operand.constructs_int hx fun _ => rfl
    | single a =>
      cases h
      exact .of_map Operand.constructs_single hx fun _ => rfl
    | double a =>
      cases h
      exact .of_map Operand.constructs_double hx fun _ => rfl
    | bool a =>
      cases h
      exact ⟨rfl, hx, fun _ _ => rfl⟩
    | uint a =>
      cases h
      exact ⟨rfl, hx, fun _ _ => rfl⟩
  | _ =>
    have helementary := computes_elementary h hx
    exact ⟨helementary.shape, helementary.filled, fun d hd => by
      rw [← helementary.get d hd]
      rfl⟩

/-- An operator applied to an operand is applied to its values. -/
theorem computes_apply (h : op.apply kind x = .ok y) (hx : x.Filled) :
    Computes (op.applyValue kind) x y := by
  obtain ⟨z, hz, rfl⟩ := map_eq_ok.1 h
  obtain ⟨hshape, hfilled, hget⟩ := computes_compute hz hx
  refine ⟨?_, Operand.filled_wrap hfilled, fun d hd => ?_⟩
  · rw [Operand.shape_wrap, hshape]
  · rw [applyValue, hget d hd, Operand.get_wrap hfilled (by rwa [hshape])]
    rfl

theorem exists_elementary (h : kind.isFloat = true) :
    ∃ y, elementary op kind (x.cast kind) = .ok y ∧ y.representation = kind.representation := by
  have hrep := Operand.representation_cast x kind
  generalize x.cast kind = z at hrep
  cases kind <;> cases h <;> cases z <;> cases hrep <;> exact ⟨_, rfl, rfl⟩

/-- An operator that has a type can be applied to operands of its kind, and the result is held as
the type says. -/
theorem exists_apply {operand : ScalarKind} (hkind : op.resultKind operand = .ok kind)
    (hx : x.holds operand = true) : ∃ y, op.apply kind x = .ok y ∧ y.holds kind = true := by
  have hcompute : ∃ y, compute kind op x = .ok y ∧ y.representation = kind.representation := by
    rw [Operand.holds_iff] at hx
    cases op with
    | neg => cases operand <;> cases hkind <;> cases x <;> cases hx <;> exact ⟨_, rfl, rfl⟩
    | not => cases operand <;> cases hkind <;> cases x <;> cases hx <;> exact ⟨_, rfl, rfl⟩
    | abs => cases operand <;> cases hkind <;> cases x <;> cases hx <;> exact ⟨_, rfl, rfl⟩
    | _ => exact exists_elementary (by cases operand <;> cases hkind <;> rfl)
  obtain ⟨y, hy, hrep⟩ := hcompute
  refine ⟨y.wrap kind, map_eq_ok.2 ⟨y, hy, rfl⟩, ?_⟩
  rw [Operand.holds_iff, Operand.representation_wrap, hrep]

end UnaryOp

end ChunkedArray
