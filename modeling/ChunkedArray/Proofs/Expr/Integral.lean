import ChunkedArray.Proofs.Expr.Exact
import ChunkedArray.Proofs.Expr.Soundness

/-!
# Integer expressions are exact

An expression of integers and truth values has a value in exact arithmetic: every operator is applied
to the integers of its operands, reduced to its kind, and the result is reduced again. It also has a
value in native arithmetic, where a node of `n` bits works on words of `n` bits and nothing is ever
wider than its kind. The evaluator does neither: it carries words of 64 bits and narrows them after
every step. All three agree at every node.
-/

namespace ChunkedArray

open ChunkedArray.Action ChunkedArray.Shape

/-! ## Words of a kind -/

namespace ScalarKind

/-- The word of an element of a kind whose bytes spell a number. -/
def load (kind : ScalarKind) (m : Nat) : BitVec kind.bits :=
  if kind = .bool then (if m = 0 then 0 else 1) else .ofNat kind.bits m

/-- The word of another kind that a word is converted to: the sign is extended if there is one, and what
does not fit is cut off. -/
def convert (source target : ScalarKind) (x : BitVec source.bits) : BitVec target.bits :=
  if target = .bool then (if x = 0 then 0 else 1)
  else if source.signed then x.signExtend target.bits else x.setWidth target.bits

variable {source target kind : ScalarKind}

theorem integer_load (h : kind.isFloat = false) (m : Nat) :
    Word.integer kind.signed (kind.load m) = kind.reduce m := by
  rcases isInt_or_bool h with hint | rfl
  · have hbool : kind ≠ .bool := by
      rintro rfl
      cases hint
    rw [load, if_neg hbool, ← integer_ofInt hint, BitVec.ofInt_natCast]
  · change Word.integer false (if m = 0 then 0 else 1 : BitVec 8) = if (m : Int) = 0 then 0 else 1
    simp only [Int.natCast_eq_zero]
    split <;> rfl

/-- A truth value is reduced to zero or one. -/
theorem exists_reduce_bool (n : Int) : ∃ b : Bool, bool.reduce n = b.toInt := by
  change ∃ b : Bool, (if n = 0 then 0 else 1) = b.toInt
  split
  · exact ⟨false, rfl⟩
  · exact ⟨true, rfl⟩

/-- To reduce an integer reads its word, also of truth values if the integer is one of them. -/
theorem integer_ofInt_of_contains (h : kind.isFloat = false) {n : Int}
    (hbool : kind = .bool → kind.Contains n) :
    Word.integer kind.signed (BitVec.ofInt kind.bits n) = kind.reduce n := by
  rcases isInt_or_bool h with hint | rfl
  · exact integer_ofInt hint n
  · rcases hbool rfl with rfl | rfl <;> rfl

/-- To convert a word reduces its integer. -/
theorem integer_convert (h : target.isFloat = false) (x : BitVec source.bits) :
    Word.integer target.signed (convert source target x) =
      target.reduce (Word.integer source.signed x) := by
  rcases isInt_or_bool h with hint | rfl
  · have hbool : target ≠ .bool := by
      rintro rfl
      cases hint
    rw [convert, if_neg hbool, ← integer_ofInt hint]
    cases source.signed with
    | true => rfl
    | false =>
      rw [if_neg Bool.false_ne_true, Word.integer_false, BitVec.ofInt_natCast, BitVec.ofNat_toNat]
  · change Word.integer false (if x = 0 then 0 else 1 : BitVec 8) =
      if Word.integer source.signed x = 0 then 0 else 1
    simp only [Word.eq_zero_iff_integer source.signed]
    split <;> rfl

end ScalarKind

/-! ## Exact and native arithmetic -/

/-- The exact result of an operator on an integer reduced to a kind, reduced again. -/
def UnaryOp.applyExact (op : UnaryOp) (kind : ScalarKind) (n : Int) : Result Int :=
  match op.exactOp? with
  | some f => .ok (kind.reduce (f (kind.reduce n)))
  | none => .error (.internal (.unsupported op.name kind))

/-- The exact result of an operator on two integers reduced to a kind, reduced again. -/
def BinaryOp.applyExact (op : BinaryOp) (kind : ScalarKind) (m n : Int) : Result Int :=
  match op.exactOp? with
  | some f => .ok (kind.reduce (f (kind.reduce m) (kind.reduce n)))
  | none => .error (.internal (.unsupported op.name kind))

/-- The result of an operator on words of a kind. -/
def UnaryOp.applyWord (op : UnaryOp) (kind : ScalarKind) (x : BitVec kind.bits) :
    Result (BitVec kind.bits) :=
  match op.wordKernel? kind.signed with
  | some f => .ok (f x)
  | none => .error (.internal (.unsupported op.name kind))

/-- The result of an operator on two words of a kind. -/
def BinaryOp.applyWord (op : BinaryOp) (kind : ScalarKind) (x y : BitVec kind.bits) :
    Result (BitVec kind.bits) :=
  match op.wordKernel? kind.signed with
  | some f => .ok (f x y)
  | none => .error (.internal (.unsupported op.name kind))

namespace UnaryOp

variable {op : UnaryOp} {kind : ScalarKind}

/-- The operators of exact arithmetic with one operand keep its kind. -/
theorem kind_of_exact {kind' : ScalarKind} (h : op.exactOp?.isSome = true)
    (hkind : op.resultKind kind = .ok kind') : kind' = kind := by
  cases op with
  | neg => cases kind <;> cases hkind <;> rfl
  | not => cases kind <;> cases hkind <;> rfl
  | abs =>
    cases hkind
    rfl
  | _ => cases h

/-- On an element of its kind the evaluator applies an operator exactly. -/
theorem map_applyValue (h : op.exactOp?.isSome = true) (hkind : op.resultKind kind = .ok kind)
    (hnot : op = not → kind ≠ .bool) (hfloat : kind.isFloat = false) {v : Value}
    (hv : v.representation = kind.representation) (hreduced : kind.reduce v.integer = v.integer) :
    (op.applyValue kind v).map Value.integer = op.applyExact kind v.integer ∧
      ∀ x, op.applyValue kind v = .ok x → x.representation = kind.representation := by
  obtain ⟨f, hf⟩ := Option.isSome_iff_exists.1 h
  obtain ⟨y, hy, hrep, hinteger⟩ := exists_applyValue hf hkind hnot hfloat hv
  rw [hy, applyExact, hf, hreduced]
  refine ⟨congrArg Except.ok hinteger, fun x hx => ?_⟩
  cases hx
  exact hrep

/-- Native arithmetic applies an operator exactly. -/
theorem map_applyWord (h : op.exactOp?.isSome = true) (hkind : op.resultKind kind = .ok kind)
    (hnot : op = not → kind ≠ .bool) (hfloat : kind.isFloat = false) {source : ScalarKind}
    (x : BitVec source.bits) :
    (op.applyWord kind (source.convert kind x)).map (Word.integer kind.signed) =
      op.applyExact kind (Word.integer source.signed x) := by
  obtain ⟨f, hf⟩ := Option.isSome_iff_exists.1 h
  obtain ⟨g, hg, hexact⟩ := @exists_wordKernel kind.bits kind.signed op f hf
  rw [applyWord, hg, applyExact, hf]
  refine congrArg Except.ok ?_
  rw [hexact, ScalarKind.integer_convert hfloat]
  refine ScalarKind.integer_ofInt_of_contains hfloat ?_
  rintro rfl
  cases op with
  | neg => cases hkind
  | not => exact absurd rfl (hnot rfl)
  | abs =>
    cases hf
    obtain ⟨b, hb⟩ := ScalarKind.exists_reduce_bool (Word.integer source.signed x)
    rw [hb]
    cases b
    · exact .inl rfl
    · exact .inr rfl
  | _ => cases hf

end UnaryOp

namespace BinaryOp

variable {op : BinaryOp} {kind : ScalarKind}

/-- The evaluator applies an operator exactly. -/
theorem map_applyValue (h : op.exactOp?.isSome = true)
    (hkernel : op.hasKernel kind.representation = true) (hfloat : kind.isFloat = false) {u v : Value}
    (hu : u.representation.isFloat = false) (hv : v.representation.isFloat = false) :
    (op.applyValue kind u v).map Value.integer = op.applyExact kind u.integer v.integer ∧
      ∀ x, op.applyValue kind u v = .ok x → x.representation = kind.representation := by
  obtain ⟨f, hf⟩ := Option.isSome_iff_exists.1 h
  obtain ⟨y, hy, hrep, hinteger⟩ := exists_applyValue hf hkernel hfloat hu hv
  rw [hy, applyExact, hf]
  refine ⟨congrArg Except.ok hinteger, fun x hx => ?_⟩
  cases hx
  exact hrep

/-- Native arithmetic applies an operator exactly. -/
theorem map_applyWord (h : op.exactOp?.isSome = true)
    (hkernel : op.hasKernel kind.representation = true) (hfloat : kind.isFloat = false)
    {source source' : ScalarKind} (x : BitVec source.bits) (y : BitVec source'.bits) :
    (op.applyWord kind (source.convert kind x) (source'.convert kind y)).map
        (Word.integer kind.signed) =
      op.applyExact kind (Word.integer source.signed x) (Word.integer source'.signed y) := by
  obtain ⟨f, hf⟩ := Option.isSome_iff_exists.1 h
  obtain ⟨g, hg, hexact⟩ := @exists_wordKernel kind.bits kind.signed op f hf
  rw [applyWord, hg, applyExact, hf]
  refine congrArg Except.ok ?_
  rw [hexact, ScalarKind.integer_convert hfloat, ScalarKind.integer_convert hfloat]
  refine ScalarKind.integer_ofInt_of_contains hfloat ?_
  rintro rfl
  obtain ⟨k, hk⟩ := Option.isSome_iff_exists.1 hkernel
  obtain ⟨a, ha⟩ := ScalarKind.exists_reduce_bool (Word.integer source.signed x)
  obtain ⟨b, hb⟩ := ScalarKind.exists_reduce_bool (Word.integer source'.signed y)
  rw [ha, hb, exact_toInt hf hk]
  cases k a b
  · exact .inl rfl
  · exact .inr rfl

end BinaryOp

/-- A scalar as a word of its kind; a floating-point number is its bits. -/
def Literal.word : (value : Literal) → BitVec value.kind.bits
  | bool b => if b then 1 else 0
  | int i => i.toBitVec
  | float bits => bits.toBitVec

namespace Expr

/-- Expressions of integers and truth values by the operators of exact arithmetic. The complement is
that of integers. -/
def Integral : Expr → Prop
  | array _ _ type => type.kind.isFloat = false
  | literal value => value.kind.isFloat = false
  | unary op type operand =>
    (op.exactOp?.isSome = true ∧ (op = .not → type.kind ≠ .bool) ∧ type.kind.isFloat = false) ∧
      Integral operand
  | binary op type lhs rhs =>
    (op.exactOp?.isSome = true ∧ type.kind.isFloat = false) ∧ Integral lhs ∧ Integral rhs
  | compare _ _ _ _ _ => False
  | call _ _ _ => False

/-- The bytes of the element of an array at coordinates of a domain that it is stretched to. -/
def readItem (w : Workspace) (c : List Nat) (name : String) (part : Projection) (shape : Shape) :
    Result Bytes :=
  outcome (Workspace.onArray name fun a fs => a.readBox fs part (.single (project shape c))) w

/-- The value of an expression in exact arithmetic. -/
def exactAt (w : Workspace) (c : List Nat) : Expr → Result Int
  | array name part type => do
    let item ← readItem w c name part type.shape
    pure (type.kind.reduce (LittleEndian.readAt item 0 type.kind.itemsize))
  | literal value => pure value.value.integer
  | unary op type operand => do
    let n ← exactAt w c operand
    op.applyExact type.kind n
  | binary op type lhs rhs => do
    let m ← exactAt w c lhs
    let n ← exactAt w c rhs
    op.applyExact type.kind m n
  | compare op kind _ _ _ => .error (.internal (.unsupported op.name kind))
  | call f type _ => .error (.internal (.unsupported f.name type.kind))

/-- The value of an expression in native arithmetic: a word of the kind of its node. -/
def nativeAt (w : Workspace) (c : List Nat) : (e : Expr) → Result (BitVec e.kind.bits)
  | array name part type => do
    let item ← readItem w c name part type.shape
    pure (type.kind.load (LittleEndian.readAt item 0 type.kind.itemsize))
  | literal value => pure value.word
  | unary op type operand => do
    let x ← nativeAt w c operand
    op.applyWord type.kind (operand.kind.convert type.kind x)
  | binary op type lhs rhs => do
    let x ← nativeAt w c lhs
    let y ← nativeAt w c rhs
    op.applyWord type.kind (lhs.kind.convert type.kind x) (rhs.kind.convert type.kind y)
  | compare op kind _ _ _ => .error (.internal (.unsupported op.name kind))
  | call f type _ => .error (.internal (.unsupported f.name type.kind))

variable {w : Workspace} {c : List Nat} {root e : Expr} {rules : UserFunction → Rule}

theorem Integral.isFloat (h : e.Integral) : e.kind.isFloat = false := by
  cases e with
  | array => exact h
  | literal => exact h
  | unary => exact h.1.2.2
  | binary => exact h.1.2
  | _ => cases h

/-- What is integral has no user functions. -/
theorem functions_of_integral : ∀ e : Expr, e.Integral → e.functions = []
  | array _ _ _, _ => rfl
  | literal _, _ => rfl
  | unary _ _ operand, h => functions_of_integral operand h.2
  | binary _ _ lhs rhs, h => List.append_eq_nil_iff.2
    ⟨functions_of_integral lhs h.2.1, functions_of_integral rhs h.2.2⟩

/-- Every node of an integral expression is integral. -/
theorem Integral.node (h : root.Integral) (he : root.NodeOf e) : e.Integral := by
  induction he with
  | root => exact h
  | operand _ ih => exact ih.2
  | left _ ih => exact ih.2.1
  | right _ ih => exact ih.2.2
  | compareLeft _ ih => cases ih
  | compareRight _ ih => cases ih
  | input _ _ ih => cases ih

/-- The exact value of a node is an element of its kind. -/
theorem Integral.reduce_exactAt (h : e.Integral) {n : Int} (he : exactAt w c e = .ok n) :
    e.kind.reduce n = n := by
  cases e with
  | array name part type =>
    obtain ⟨item, -, hn⟩ := bind_eq_ok.1 he
    cases hn
    exact ScalarKind.reduce_reduce h _
  | literal value =>
    cases he
    cases value with
    | bool b => cases b <;> rfl
    | int i => exact BitVec.toInt_bmod_cancel i.toBitVec
    | float bits => cases h
  | unary op type operand =>
    obtain ⟨m, -, hn⟩ := bind_eq_ok.1 he
    unfold UnaryOp.applyExact at hn
    split at hn <;> cases hn
    exact ScalarKind.reduce_reduce h.1.2.2 _
  | binary op type lhs rhs =>
    obtain ⟨m, -, hn⟩ := bind_eq_ok.1 he
    obtain ⟨k, -, hn⟩ := bind_eq_ok.1 hn
    unfold BinaryOp.applyExact at hn
    split at hn <;> cases hn
    exact ScalarKind.reduce_reduce h.1.2 _
  | _ => cases h

/-- The values that the kernels give are those of exact arithmetic. -/
theorem Integral.map_valueAt (h : e.Integral) (htyped : Typed w e) :
    (valueAt rules w c e).map Value.integer = exactAt w c e ∧
      ∀ v, valueAt rules w c e = .ok v → v.representation = e.kind.representation := by
  -- The representation of a value is carried along, as it says in which kernel its parent is computed.
  induction htyped with
  | @array name part type a ha hg hshape hwidth =>
    rw [valueAt, exactAt, readItem]
    cases outcome (Workspace.onArray name fun a fs =>
      a.readBox fs part (.single (project type.shape c))) w with
    | error e => exact ⟨rfl, fun _ hv => by cases hv⟩
    | ok item =>
      refine ⟨congrArg Except.ok (Value.integer_ofBytes h item), fun v hv => ?_⟩
      cases hv
      exact Value.representation_ofBytes _ _
  | literal value =>
    refine ⟨rfl, fun v hv => ?_⟩
    cases hv
    cases value <;> rfl
  | @unary op type x hx hshape hkind ih =>
    obtain ⟨⟨hsome, hnot, hfloat⟩, hinner⟩ := h
    obtain ⟨hvalue, hrep⟩ := ih hinner
    have hsame := UnaryOp.kind_of_exact hsome hkind
    rw [valueAt, exactAt, ← hvalue]
    cases hv : valueAt rules w c x with
    | error e => exact ⟨rfl, fun _ hv => by cases hv⟩
    | ok v =>
      rw [hv] at hvalue
      have hreduced := hinner.reduce_exactAt hvalue.symm
      have hv' := hrep v hv
      rw [← hsame] at hkind hreduced hv'
      exact UnaryOp.map_applyValue hsome hkind hnot hfloat hv' hreduced
  | @binary op type l r meet hl hr hshape hkind ihl ihr =>
    obtain ⟨⟨hsome, hfloat⟩, hintl, hintr⟩ := h
    obtain ⟨hlvalue, hlrep⟩ := ihl hintl
    obtain ⟨hrvalue, hrrep⟩ := ihr hintr
    rw [valueAt, exactAt, ← hlvalue, ← hrvalue]
    cases hu : valueAt rules w c l with
    | error e => exact ⟨rfl, fun _ hv => by cases hv⟩
    | ok u =>
      cases hv : valueAt rules w c r with
      | error e => exact ⟨rfl, fun _ hv => by cases hv⟩
      | ok v =>
        have hu' : u.representation.isFloat = false := by
          rw [hlrep u hu, ScalarKind.isFloat_representation, hintl.isFloat]
        have hv' : v.representation.isFloat = false := by
          rw [hrrep v hv, ScalarKind.isFloat_representation, hintr.isFloat]
        exact BinaryOp.map_applyValue hsome (BinaryOp.hasKernel_of_operandKind hkind) hfloat hu' hv'
  | compare => cases h
  | call => cases h

/-- The values of native arithmetic are those of exact arithmetic. -/
theorem Integral.map_nativeAt (h : e.Integral) (htyped : Typed w e) :
    (nativeAt w c e).map (Word.integer e.kind.signed) = exactAt w c e := by
  -- Node by node a word and the integer that it stands for stay in step.
  induction htyped with
  | @array name part type a ha hg hshape hwidth =>
    rw [nativeAt, exactAt]
    cases readItem w c name part type.shape with
    | error e => rfl
    | ok item => exact congrArg Except.ok (ScalarKind.integer_load h _)
  | literal value =>
    cases value with
    | bool b => cases b <;> rfl
    | int i => rfl
    | float bits => cases h
  | @unary op type x hx hshape hkind ih =>
    obtain ⟨⟨hsome, hnot, hfloat⟩, hinner⟩ := h
    rw [nativeAt, exactAt, ← ih hinner]
    rw [← UnaryOp.kind_of_exact hsome hkind] at hkind
    cases nativeAt w c x with
    | error e => rfl
    | ok word => exact UnaryOp.map_applyWord hsome hkind hnot hfloat word
  | @binary op type l r meet hl hr hshape hkind ihl ihr =>
    obtain ⟨⟨hsome, hfloat⟩, hintl, hintr⟩ := h
    rw [nativeAt, exactAt, ← ihl hintl, ← ihr hintr]
    cases nativeAt w c l with
    | error e => rfl
    | ok u =>
      cases nativeAt w c r with
      | error e => rfl
      | ok v =>
        exact BinaryOp.map_applyWord hsome (BinaryOp.hasKernel_of_operandKind hkind) hfloat u v
  | compare => cases h
  | call => cases h

/-- Integer expressions are exact. A node of a well-built integral expression can be evaluated over a box
if the chunks that it reads there can be read, and whatever it gives over a box is held as its kind says
and has, at every place, the value of exact arithmetic, in which every operator works on the integers of
its operands reduced to its kind and has its result reduced again. Native arithmetic on words of the
kinds of the nodes gives the same. -/
theorem eval_exact {box : Box} (hbuilt : WellBuilt w root) (hroot : root.Integral)
    (he : root.NodeOf e) (hbox : box.Inside root.shape) (hne : box.Nonempty) :
    ((∀ l ∈ root.leaves, l.Drawn w) → box.InReach root.shape → (∀ l ∈ e.leaves, l.Readable w box) →
      ∃ x, outcome (eval box e) w = .ok x) ∧
    ∀ x, outcome (eval box e) w = .ok x →
      x.shape = (operandBox e.shape box).shape ∧ x.holds e.kind = true ∧
      ∀ c, box.Holds c →
        exactAt w c e = .ok (x.get (x.shape.project (box.toLocal c))).integer ∧
        (nativeAt w c e).map (Word.integer e.kind.signed) =
          .ok (x.get (x.shape.project (box.toLocal c))).integer := by
  have hint := hroot.node he
  obtain ⟨htyped, hstretch, -, -⟩ := he.inherits hbuilt.typed
  constructor
  · intro hdrawn hreach hreadable
    have hcalls : root.CallsSucceed (w.Keeps (· ∈ root.arrays)) :=
      fun f type inputs hf => (hroot.node hf).elim
    have hends := (Drawn.ends_eval ⟨hbuilt, hdrawn⟩ he hreach
      (Workspace.inUse_keeps _ w) hcalls).2 hreadable
    obtain ⟨x, w', hrun, -⟩ := hends.exists_run (Workspace.Alike.refl w).keeps
    exact ⟨x, congrArg Prod.fst hrun⟩
  · intro x hx
    let rules : UserFunction → Rule := fun _ _ _ => .ok default
    have hlawful : e.Lawful (fun _ => True) rules := by
      refine ⟨fun _ _ => trivial, fun f hf => ?_⟩
      rw [functions_of_integral e hint] at hf
      cases hf
    obtain ⟨hshape, hholds, -, hvalue⟩ :=
      evaluates_of_eval htyped hlawful hstretch hbox hne hx
    refine ⟨hshape, hholds, fun c hc => ?_⟩
    obtain ⟨hexact, -⟩ := @Integral.map_valueAt w c e rules hint htyped
    rw [hvalue c hc] at hexact
    exact ⟨hexact.symm, (hint.map_nativeAt htyped).trans hexact.symm⟩

/-- Three bytes less two, over the last two of them. -/
theorem eval_exact_less_two :
    ∃ x e y, NDArray.ofBytes #[1, 2, 3] [3] (.scalar .uint8) { chunks := some [2] } = .ok x ∧
      Draft.binary .sub (ofArray "x" x.geometry) (.ok (.literal (.int 2))) = .ok e ∧
      outcome (eval [⟨1, 3⟩] e) { arrays := [("x", x)] } = .ok y ∧
      y.shape = [2] ∧ y.holds .uint8 = true ∧ ∀ c, Box.Holds [⟨1, 3⟩] c →
        exactAt { arrays := [("x", x)] } c e =
          .ok (y.get (y.shape.project (Box.toLocal [⟨1, 3⟩] c))).integer ∧
        (nativeAt { arrays := [("x", x)] } c e).map (Word.integer e.kind.signed) =
          .ok (y.get (y.shape.project (Box.toLocal [⟨1, 3⟩] c))).integer := by
  obtain ⟨x, contents, hx, hgeometry, hsound⟩ := exists_threeBytes
  have hleaf := ofArray_threeBytes hgeometry
  have hbytes : threeBytes.InMemory { arrays := [("x", x)] } := inMemory_array rfl hsound hleaf
  have hbuilt := hbytes.built.binary (.literal (.int 2))
    (show mkBinary .sub threeBytes (.literal (.int 2)) = .ok _ from rfl)
  have hbox : Box.InReach [⟨1, 3⟩] [3] :=
    ⟨.cons (by decide) .nil, List.forall_mem_singleton.2 (by decide), by decide, by decide⟩
  obtain ⟨hprogress, hexact⟩ :=
    eval_exact hbuilt ⟨⟨rfl, rfl⟩, rfl, rfl⟩ .root hbox.inside hbox.nonempty
  obtain ⟨y, hy⟩ := hprogress hbytes.drawn.leaves hbox (hbytes.readable hbox.inside)
  obtain ⟨hshape, hholds, hvalues⟩ := hexact y hy
  exact ⟨x, _, y, hx, by rw [hleaf]; rfl, hy, hshape, hholds, hvalues⟩

end Expr

end ChunkedArray
