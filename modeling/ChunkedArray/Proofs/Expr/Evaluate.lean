import ChunkedArray.Expr.Evaluate
import ChunkedArray.Proofs.Array.Sound
import ChunkedArray.Proofs.Expr.Pointwise

/-!
# Evaluation over boxes

An expression evaluated over a box has, at every place, its value at the coordinates of that place,
stretched as its shape says. This is shown for one kind of node after the other. If a box could be
evaluated, so can every box inside it.
-/

namespace ChunkedArray.Expr

open ChunkedArray.Action ChunkedArray.Shape ChunkedArray.Workspace

variable {reads : String → Prop} {rules : UserFunction → Rule} {w : Workspace} {e : Expr}
variable {box inner : Box} {domain : Shape} {x : Operand}

/-- An expression whose arrays are all among those that are read and whose user functions follow
their rules. -/
structure Lawful (reads : String → Prop) (rules : UserFunction → Rule) (e : Expr) : Prop where
  arrays : ∀ name ∈ e.arrays, reads name
  functions : ∀ f ∈ e.functions, f.Follows reads (rules f)

theorem mem_arraysOfAll {inputs : List Expr} {name : String} :
    name ∈ arraysOfAll inputs ↔ ∃ e ∈ inputs, name ∈ e.arrays := by
  induction inputs with
  | nil => simp [arraysOfAll]
  | cons e inputs ih => simp [arraysOfAll, ih]

theorem mem_functionsOfAll {inputs : List Expr} {f : UserFunction} :
    f ∈ functionsOfAll inputs ↔ ∃ e ∈ inputs, f ∈ e.functions := by
  induction inputs with
  | nil => simp [functionsOfAll]
  | cons e inputs ih => simp [functionsOfAll, ih]

namespace Lawful

theorem unary {op : UnaryOp} {type : ExprType} {operand : Expr}
    (h : Lawful reads rules (.unary op type operand)) : Lawful reads rules operand :=
  ⟨h.arrays, h.functions⟩

theorem binary {op : BinaryOp} {type : ExprType} {l r : Expr}
    (h : Lawful reads rules (.binary op type l r)) : Lawful reads rules l ∧ Lawful reads rules r := by
  obtain ⟨harrays, hfunctions⟩ := h
  obtain ⟨hl, hr⟩ := List.forall_mem_append.1 harrays
  obtain ⟨hl', hr'⟩ := List.forall_mem_append.1 hfunctions
  exact ⟨⟨hl, hl'⟩, hr, hr'⟩

theorem compare {op : CompareOp} {kind : ScalarKind} {type : ExprType} {l r : Expr}
    (h : Lawful reads rules (.compare op kind type l r)) :
    Lawful reads rules l ∧ Lawful reads rules r := by
  obtain ⟨harrays, hfunctions⟩ := h
  obtain ⟨hl, hr⟩ := List.forall_mem_append.1 harrays
  obtain ⟨hl', hr'⟩ := List.forall_mem_append.1 hfunctions
  exact ⟨⟨hl, hl'⟩, hr, hr'⟩

theorem call {f : UserFunction} {type : ExprType} {inputs : List Expr}
    (h : Lawful reads rules (.call f type inputs)) :
    f.Follows reads (rules f) ∧ ∀ e ∈ inputs, Lawful reads rules e := by
  obtain ⟨harrays, hfunctions⟩ := h
  obtain ⟨hf, hinputs⟩ := List.forall_mem_cons.1 hfunctions
  refine ⟨hf, fun e he => ⟨fun name hname => ?_, fun g hg => ?_⟩⟩
  · exact harrays name (mem_arraysOfAll.2 ⟨e, he, hname⟩)
  · exact hinputs g (mem_functionsOfAll.2 ⟨e, he, hg⟩)

end Lawful

/-! ## Queries -/

theorem isQuery_read (part : Projection) (box : Box) {name : String} (hname : reads name) :
    IsQuery (Workspace.Alike reads) (Workspace.onArray name fun a fs => a.readBox fs part box) :=
  @Workspace.isQuery_onArray _ _ _ (fun g source => g.readBox source part box) hname
    fun _ _ => Geometry.isQuery_readBox box

theorem isQuery_evalInputs {inputs : List Expr} (shape : Shape)
    (h : ∀ e ∈ inputs, IsQuery (Workspace.Alike reads) (eval box e)) :
    IsQuery (Workspace.Alike reads) (evalInputs box shape inputs) := by
  induction inputs with
  | nil => exact Workspace.isQuery_pure []
  | cons e inputs ih =>
    obtain ⟨he, hinputs⟩ := List.forall_mem_cons.1 h
    rw [evalInputs]
    exact isQuery_bind he fun x => isQuery_bind (isQuery_liftM _) fun y =>
      isQuery_bind (ih hinputs) fun ys => isQuery_pure (y :: ys)

theorem outcome_evalInputs_cons {inputs : List Expr} {shape : Shape}
    (he : IsQuery (Workspace.Alike reads) (eval box e))
    (hinputs : ∀ e ∈ inputs, IsQuery (Workspace.Alike reads) (eval box e)) :
    outcome (evalInputs box shape (e :: inputs)) w = (do
      let x ← outcome (eval box e) w
      let x ← x.broadcastTo shape
      let xs ← outcome (evalInputs box shape inputs) w
      pure (x :: xs)) := by
  have hrest := isQuery_evalInputs shape hinputs
  rw [evalInputs, outcome_bind he fun x => isQuery_bind (isQuery_liftM _) fun y =>
    isQuery_bind hrest fun ys => isQuery_pure (y :: ys)]
  congr 1
  funext x
  rw [outcome_bind (isQuery_liftM _) fun y => isQuery_bind hrest fun ys => isQuery_pure (y :: ys),
    outcome_liftM]
  congr 1
  funext y
  rw [outcome_bind hrest fun ys => isQuery_pure (y :: ys)]
  rfl

/-- To evaluate an expression is a query. -/
theorem isQuery_eval (h : Typed w e) (hlawful : e.Lawful reads rules) (box : Box) :
    IsQuery (Workspace.Alike reads) (eval box e) := by
  induction h with
  | @array name part type a ha hg hshape hwidth =>
    rw [eval]
    exact isQuery_bind (isQuery_read part _ (hlawful.arrays name List.mem_cons_self)) fun data =>
      isQuery_liftM _
  | literal value => exact isQuery_pure value.operand
  | unary hx hshape hkind ih =>
    rw [eval]
    exact isQuery_bind (ih hlawful.unary) fun x => isQuery_liftM _
  | binary hl hr hshape hkind ihl ihr =>
    rw [eval]
    exact isQuery_bind (ihl hlawful.binary.1) fun l => isQuery_bind (ihr hlawful.binary.2) fun r =>
      isQuery_liftM _
  | compare hl hr hshape hkind ihl ihr =>
    rw [eval]
    exact isQuery_bind (ihl hlawful.compare.1) fun l => isQuery_bind (ihr hlawful.compare.2) fun r =>
      isQuery_liftM _
  | call hinputs hshape hkind ih =>
    rw [eval]
    obtain ⟨hf, hall⟩ := hlawful.call
    exact isQuery_bind (isQuery_evalInputs _ fun e he => ih e he (hall e he)) fun args =>
      hf.query _ _ _

/-! ## Nodes -/

theorem outcome_eval_unary (op : UnaryOp) (type : ExprType) (operand : Expr) :
    outcome (eval box (.unary op type operand)) w =
      outcome (eval box operand) w >>= op.apply type.kind := by
  rw [eval, outcome_bind_liftM]

section Binary

variable {l r : Expr}

theorem outcome_eval_both (hl : Typed w l) (hr : Typed w r) (hlawful : l.Lawful reads rules)
    (hlawful' : r.Lawful reads rules) (f : Operand → Operand → Result Operand) :
    outcome (do let lx ← eval box l; let rx ← eval box r; liftM (f lx rx) : WorkspaceM Operand) w =
      (do let lx ← outcome (eval box l) w; let rx ← outcome (eval box r) w; f lx rx) := by
  rw [outcome_bind (isQuery_eval hl hlawful box) fun lx =>
    isQuery_bind (isQuery_eval hr hlawful' box) fun rx => isQuery_liftM _]
  congr 1
  funext lx
  rw [outcome_bind_liftM]

theorem outcome_eval_binary (hl : Typed w l) (hr : Typed w r) {op : BinaryOp} {type : ExprType}
    (hlawful : Lawful reads rules (.binary op type l r)) :
    outcome (eval box (.binary op type l r)) w =
      (do let lx ← outcome (eval box l) w; let rx ← outcome (eval box r) w
          op.apply type.kind lx rx) := by
  rw [eval]
  exact outcome_eval_both hl hr hlawful.binary.1 hlawful.binary.2 _

theorem outcome_eval_compare (hl : Typed w l) (hr : Typed w r) {op : CompareOp}
    {kind : ScalarKind} {type : ExprType} (hlawful : Lawful reads rules (.compare op kind type l r)) :
    outcome (eval box (.compare op kind type l r)) w =
      (do let lx ← outcome (eval box l) w; let rx ← outcome (eval box r) w
          op.apply kind lx rx) := by
  rw [eval]
  exact outcome_eval_both hl hr hlawful.compare.1 hlawful.compare.2 _

end Binary

theorem outcome_eval_call {f : UserFunction} {type : ExprType} {inputs : List Expr}
    (hinputs : ∀ e ∈ inputs, Typed w e) (hlawful : Lawful reads rules (.call f type inputs)) :
    outcome (eval box (.call f type inputs)) w =
      outcome (evalInputs box (operandBox type.shape box).shape inputs) w >>= fun args =>
        outcome (f.call args (operandBox type.shape box).shape (operandBox type.shape box).origin)
          w := by
  obtain ⟨hf, hall⟩ := hlawful.call
  rw [eval]
  exact outcome_bind (isQuery_evalInputs _ fun e he => isQuery_eval (hinputs e he) (hall e he) box)
    (fun args => hf.query _ _ _) w

/-- What an expression is over a box: an operand of its kind in the shape of its part of the box, with
the value of the expression at the place of every element. -/
structure Evaluates (rules : UserFunction → Rule) (w : Workspace) (box : Box) (e : Expr)
    (x : Operand) : Prop where
  shape : x.shape = (operandBox e.shape box).shape
  holds : x.holds e.kind = true
  filled : x.Filled
  value : ∀ c, box.Holds c →
    valueAt rules w c e = .ok (x.get (x.shape.project (box.toLocal c)))

theorem outcome_read {name : String} {a : NDArray} (ha : w.arrays.find? name = some a)
    (part : Projection) (box : Box) :
    outcome (Workspace.onArray name fun a fs => a.readBox fs part box) w =
      outcome (a.geometry.readBox (a.store.chunkSource w.files) part box) a.store := by
  have houtcome := @Workspace.outcome_onArray _ name (fun g source => g.readBox source part box) w
  rw [Workspace.lookup, ha] at houtcome
  exact houtcome

section Leaf

variable {name : String} {part : Projection} {type : ExprType} {a : NDArray}

/-- A leaf that was evaluated over a box was read in full, and so is every box inside it. -/
theorem exists_read_of_eval (ha : w.arrays.find? name = some a) (hg : a.geometry.Regular)
    (hshape : type.shape = a.geometry.shape) (hwidth : part.width = type.kind.itemsize)
    (hstretch : type.shape.Stretches domain) (hbox : box.Inside domain) (hne : box.Nonempty)
    (h : outcome (eval box (.array name part type)) w = .ok x) :
    ∃ data, outcome (a.geometry.readBox (a.store.chunkSource w.files) part
        (operandBox type.shape box)) a.store = .ok data ∧
      Operand.ofBytes type.kind (operandBox type.shape box).shape data = .ok x ∧
      ∀ box', Box.Within box' (operandBox type.shape box) → Box.Nonempty box' →
        ∃ data', outcome (a.geometry.readBox (a.store.chunkSource w.files) part box') a.store =
            .ok data' ∧
          a.geometry.ShowsBox a.store (a.store.chunkSource w.files) box' part data' := by
  rw [eval, outcome_bind_liftM, outcome_read ha] at h
  obtain ⟨data, hdata, hx⟩ := bind_eq_ok.1 h
  refine ⟨data, hdata, hx, fun box' hwithin hne' => ?_⟩
  have hpos : 0 < part.width := by
    rw [hwidth]
    exact Element.itemsize_pos _
  -- The bytes fill the shape, so the box was not cut short.
  have hsize : data.size = (operandBox type.shape box).shape.size * part.width := by
    obtain ⟨n, hn⟩ := Geometry.exists_size_of_readBox hg hdata
    have hcount := (Operand.ofBytes_eq_ok hx).1.2
    rw [← hwidth, hn, Nat.mul_div_cancel _ hpos] at hcount
    rw [hn, hcount]
  exact Geometry.readBox_sub hg (hshape ▸ inside_operandBox hstretch hbox) (nonempty_operandBox hne)
    hpos hdata hsize hwithin hne'

/-- A leaf has the elements that are read at the projected coordinates. -/
theorem evaluates_array (ha : w.arrays.find? name = some a) (hg : a.geometry.Regular)
    (hshape : type.shape = a.geometry.shape) (hwidth : part.width = type.kind.itemsize)
    (hstretch : type.shape.Stretches domain) (hbox : box.Inside domain) (hne : box.Nonempty)
    (h : outcome (eval box (.array name part type)) w = .ok x) :
    Evaluates rules w box (.array name part type) x := by
  have hlen : type.shape.length ≤ box.length := hstretch.length_le.trans_eq hbox.length_eq.symm
  obtain ⟨data, hdata, hx, hread⟩ :=
    exists_read_of_eval ha hg hshape hwidth hstretch hbox hne h
  obtain ⟨data', hdata', hshows⟩ := hread _ (.refl _) (nonempty_operandBox hne)
  rw [hdata] at hdata'
  cases hdata'
  obtain ⟨-, hxshape, hxholds, hxfilled, hxget⟩ := Operand.ofBytes_eq_ok hx
  refine ⟨hxshape, hxholds, hxfilled, fun c hc => ?_⟩
  have hproject := holds_operandBox hlen hc
  obtain ⟨item, hitem, hshows'⟩ :=
    hread _ (Box.within_single hproject) (Box.nonempty_single _)
  rw [hxshape, ← toLocal_project hlen hc, hxget _ (Box.holds_toLocal hproject), valueAt,
    outcome_read ha, hitem]
  refine congrArg (fun word => Except.ok (Value.ofWord type.kind word))
    (Element.decodeAt_congr fun k hk => ?_)
  rw [← hwidth] at hk ⊢
  rw [hshows.byte _ k hproject hk, ← hshows'.byte _ k (Box.holds_single _) hk, Box.flatten_single,
    Nat.zero_mul]

/-- A leaf that was evaluated over a box can be evaluated over every box inside it. -/
theorem exists_eval_array (ha : w.arrays.find? name = some a) (hg : a.geometry.Regular)
    (hshape : type.shape = a.geometry.shape) (hwidth : part.width = type.kind.itemsize)
    (hstretch : type.shape.Stretches domain) (hbox : box.Inside domain) (hwithin : inner.Within box)
    (hne : inner.Nonempty) (h : outcome (eval box (.array name part type)) w = .ok x) :
    ∃ y, outcome (eval inner (.array name part type)) w = .ok y := by
  obtain ⟨data, -, hx, hread⟩ :=
    exists_read_of_eval ha hg hshape hwidth hstretch hbox (hwithin.nonempty hne) h
  have hlocal : Box.Within (operandBox type.shape inner) (operandBox type.shape box) :=
    within_operandBox hwithin
  have hne' : Box.Nonempty (operandBox type.shape inner) := nonempty_operandBox hne
  obtain ⟨data', hdata', hshows⟩ := hread _ hlocal hne'
  have hcount := isCountable_of_within hlocal hne' (Operand.ofBytes_eq_ok hx).1.1
  have hsize : data'.size / type.kind.itemsize = (operandBox type.shape inner).shape.size := by
    rw [hshows.size, hwidth, Nat.mul_div_cancel _ (Element.itemsize_pos _)]
  obtain ⟨y, hy, -⟩ := Operand.exists_ofBytes hcount hsize
  refine ⟨y, ?_⟩
  rw [eval, outcome_bind_liftM, outcome_read ha, hdata']
  exact hy

/-- A leaf of an array in memory can be evaluated over every box. -/
theorem exists_eval_of_sound {contents : Nat → Bytes} (ha : w.arrays.find? name = some a)
    (hsound : a.Sound contents) (hshape : type.shape = a.geometry.shape)
    (hwidth : part.width = type.kind.itemsize) (hpart : part.offset + part.width ≤ a.geometry.itemsize)
    (hstretch : type.shape.Stretches domain) (hbox : box.Inside domain) (hne : box.Nonempty)
    (hsize : type.shape.size < 2 ^ 63) :
    ∃ y, outcome (eval box (.array name part type)) w = .ok y := by
  have hinside := inside_operandBox hstretch hbox
  have hne' : Box.Nonempty (operandBox type.shape box) := nonempty_operandBox hne
  have haddress := hinside.addressable hne' hsize
  have hcount := isCountable_of_inside hinside hne' hsize
  rw [hshape] at haddress hinside hne'
  have hfits := Selection.fits_ofBox hinside
  have hcuts : part.Cuts a.geometry.itemsize := .inr (hwidth ▸ Element.itemsize_pos _)
  have hread (i : Nat) (hi : i < a.geometry.nchunks) : a.geometry.HitsReadable a.store
      (a.store.chunkSource w.files) (.ofBox (operandBox a.geometry.shape box)) i :=
    hsound.hitsReadable hfits hi
  obtain ⟨data, hdata, hshows⟩ :=
    Geometry.readParts_of_readable hsound.regular hfits (fun _ => hcuts) hpart hread
  have hsize : data.size / type.kind.itemsize = (operandBox type.shape box).shape.size := by
    rw [hshape, hshows.showsBox.size, hwidth, Nat.mul_div_cancel _ (Element.itemsize_pos _)]
  obtain ⟨y, hy, -⟩ := Operand.exists_ofBytes hcount hsize
  refine ⟨y, ?_⟩
  rw [eval, outcome_bind_liftM, outcome_read ha, Geometry.outcome_readBox, hshape,
    Region.resolve_ofBox haddress hne']
  rw [hshape] at hy
  exact bind_eq_ok.2 ⟨data, hdata, hy⟩

end Leaf

/-- A scalar is the same everywhere. -/
theorem evaluates_literal (value : Literal) (h : outcome (eval box (.literal value)) w = .ok x) :
    Evaluates rules w box (.literal value) x := by
  cases h
  cases value <;> exact ⟨rfl, rfl, rfl, fun _ _ => rfl⟩

/-- An operator with one operand is applied to the values of the operand. -/
theorem evaluates_unary {op : UnaryOp} {type : ExprType} {operand : Expr} {y : Operand}
    (hx : Evaluates rules w box operand x) (hlen : operand.shape.length ≤ box.length)
    (hshape : type.shape = operand.shape) (hkind : op.resultKind operand.kind = .ok type.kind)
    (h : op.apply type.kind x = .ok y) : Evaluates rules w box (.unary op type operand) y := by
  obtain ⟨y', hy', hholds⟩ := UnaryOp.exists_apply hkind hx.holds
  rw [h] at hy'
  cases hy'
  obtain ⟨hyshape, hfilled, hget⟩ := UnaryOp.computes_apply h hx.filled
  refine ⟨?_, hholds, hfilled, fun c hc => ?_⟩
  · rw [hyshape, hx.shape, ← hshape]
    rfl
  · have hplace := holds_project (operandBox_stretches hlen) (Box.holds_toLocal hc)
    rw [← hx.shape] at hplace
    rw [valueAt, hx.value c hc, hyshape, ← hget _ hplace]
    rfl

/-- A combination of two operands combines their values. -/
theorem Evaluates.combine {l r : Expr} {lx rx : Operand} {shape : Shape}
    {f : Value → Value → Result Value} (hl : Evaluates rules w box l lx)
    (hr : Evaluates rules w box r rx) (hshape : broadcast l.shape r.shape = .ok shape)
    (hlen : shape.length ≤ box.length) (hx : lx.Combines f rx x) :
    x.shape = (operandBox shape box).shape ∧ ∀ c, box.Holds c →
      (do let u ← valueAt rules w c l; let v ← valueAt rules w c r; f u v) =
        .ok (x.get (x.shape.project (box.toLocal c))) := by
  have hxshape := broadcast_operandBox hshape hlen
  rw [← hl.shape, ← hr.shape, hx.shape, Except.ok.injEq] at hxshape
  refine ⟨hxshape, fun c hc => ?_⟩
  obtain ⟨hlx, hrx⟩ := stretches_of_broadcast hx.shape
  have hplace : x.shape.Holds (x.shape.project (box.toLocal c)) := by
    rw [hxshape]
    exact holds_project (operandBox_stretches hlen) (Box.holds_toLocal hc)
  have hlocal : x.shape.length ≤ (box.toLocal c).length := by
    rw [(Box.holds_toLocal hc).length_eq, hxshape]
    exact (operandBox_stretches hlen).length_le
  have hget := hx.get _ hplace
  rw [project_project hlx hlocal, project_project hrx hlocal] at hget
  rw [hl.value c hc, hr.value c hc]
  exact hget

section Call

variable {f : UserFunction} {type : ExprType} {inputs : List Expr} {args : List Operand}
variable {shape : Shape}

/-- A call gives what the function left of its buffer, brought into the range of its kind. -/
theorem exists_wrap_of_call {offset : List Nat} (h : outcome (f.call args shape offset) w = .ok x) :
    ∃ out : Operand, out.wrap f.kind = x ∧ out.shape = shape ∧ out.holds f.kind = true := by
  obtain ⟨out, w', -, hcheck⟩ := exists_of_run_bind_eq_ok (Prod.ext h rfl)
  by_cases hkept : out.shape ≠ shape ∨ (!out.holds f.kind) = true
  · rw [if_pos hkept] at hcheck
    cases hcheck
  · rw [if_neg hkept] at hcheck
    cases hcheck
    rw [not_or, not_not, Bool.not_eq_true, Bool.not_eq_false'] at hkept
    exact ⟨out, rfl, hkept⟩

/-- A call gives an operand of the declared shape and kind. -/
theorem shape_of_call {offset : List Nat} (h : outcome (f.call args shape offset) w = .ok x) :
    x.shape = shape ∧ x.holds f.kind = true := by
  obtain ⟨out, rfl, hshape, hholds⟩ := exists_wrap_of_call h
  refine ⟨(Operand.shape_wrap _ _).trans hshape, ?_⟩
  rw [Operand.holds_iff, Operand.representation_wrap]
  exact Operand.holds_iff.1 hholds

/-- The inputs of a function are stretched to its part of the box and have their values there. -/
theorem evaluates_inputs (hquery : ∀ e ∈ inputs, IsQuery (Workspace.Alike reads) (eval box e))
    (hinputs : ∀ e ∈ inputs, ∀ x, outcome (eval box e) w = .ok x → Evaluates rules w box e x)
    (hstretch : ∀ e ∈ inputs, e.shape.Stretches shape) (hlen : shape.length ≤ box.length)
    (h : outcome (evalInputs box (operandBox shape box).shape inputs) w = .ok args) :
    (∀ y ∈ args, y.Filled ∧ y.shape = (operandBox shape box).shape) ∧ ∀ c, box.Holds c →
      valuesAt rules w c inputs =
        .ok (args.map fun y => y.get ((operandBox shape box).shape.project (box.toLocal c))) := by
  -- On the inputs, which are evaluated one after the other and stretched to the shape of the call.
  induction inputs generalizing args with
  | nil =>
    cases h
    exact ⟨List.forall_mem_nil _, fun _ _ => rfl⟩
  | cons e inputs ih =>
    obtain ⟨hqe, hqinputs⟩ := List.forall_mem_cons.1 hquery
    obtain ⟨hse, hsinputs⟩ := List.forall_mem_cons.1 hstretch
    obtain ⟨hve, hvinputs⟩ := List.forall_mem_cons.1 hinputs
    rw [outcome_evalInputs_cons hqe hqinputs] at h
    obtain ⟨x, hx, h⟩ := bind_eq_ok.1 h
    obtain ⟨y, hy, h⟩ := bind_eq_ok.1 h
    obtain ⟨ys, hys, h⟩ := bind_eq_ok.1 h
    cases h
    obtain ⟨hfilled, hvalues⟩ := ih hqinputs hvinputs hsinputs hys
    have hxe := hve x hx
    obtain ⟨-, rfl⟩ := Operand.broadcastTo_eq_ok.1 hy
    refine ⟨List.forall_mem_cons.2
      ⟨⟨Operand.filled_stretch hxe.filled, Operand.shape_stretch _ _⟩, hfilled⟩, fun c hc => ?_⟩
    have hplace := holds_project (operandBox_stretches hlen) (Box.holds_toLocal hc)
    have hlocal : (operandBox shape box).shape.length ≤ (box.toLocal c).length := by
      rw [(Box.holds_toLocal hc).length_eq]
      exact (operandBox_stretches hlen).length_le
    have hxs : x.shape.Stretches (operandBox shape box).shape := by
      rw [hxe.shape]
      exact stretches_operandBox hse hlen
    rw [valuesAt, hxe.value c hc, hvalues c hc, List.map_cons, Operand.get_stretch hplace,
      project_project hxs hlocal]
    rfl

/-- The absolute position of a place of the part of a box. -/
theorem zipWith_origin (box : Box) (d : List Nat) :
    List.zipWith (· + ·) box.origin d = box.toGlobal d := by
  rw [Box.toGlobal, Box.origin, List.zipWith_map_left, List.zipWith_comm]

/-- A user function that follows a rule has what the rule makes of the values of its inputs. -/
theorem evaluates_call (hf : f.Follows reads (rules f)) (hkind : type.kind = f.kind)
    (hlen : type.shape.length ≤ box.length)
    (hargs : ∀ y ∈ args, y.Filled ∧ y.shape = (operandBox type.shape box).shape)
    (hvalues : ∀ c, box.Holds c → valuesAt rules w c inputs = .ok (args.map fun y =>
      y.get ((operandBox type.shape box).shape.project (box.toLocal c))))
    (h : outcome (f.call args (operandBox type.shape box).shape (operandBox type.shape box).origin) w =
      .ok x) : Evaluates rules w box (.call f type inputs) x := by
  obtain ⟨hshape, hholds⟩ := shape_of_call h
  obtain ⟨hfilled, hvalue⟩ := hf.value w args _ _ x hargs h
  refine ⟨hshape, ?_, hfilled, fun c hc => ?_⟩
  · rw [← hkind] at hholds
    exact hholds
  · have hproject := holds_operandBox hlen hc
    have hrule := hvalue _ (Box.holds_toLocal hproject)
    rw [zipWith_origin, Box.toGlobal_toLocal hproject, toLocal_project hlen hc] at hrule
    rw [valueAt, hvalues c hc, hshape]
    exact hrule

end Call

/-- An expression evaluated over a box has its values at the places of the box. -/
theorem evaluates_of_eval (h : Typed w e) (hlawful : e.Lawful reads rules)
    (hstretch : e.shape.Stretches domain) (hbox : box.Inside domain) (hne : box.Nonempty)
    (heval : outcome (eval box e) w = .ok x) : Evaluates rules w box e x := by
  have hlen {shape : Shape} (hshape : shape.Stretches domain) : shape.length ≤ box.length :=
    hshape.length_le.trans_eq hbox.length_eq.symm
  -- On the tree of nodes. Evaluation is a query, so a second operand is evaluated where the first one was.
  induction h generalizing x with
  | array ha hg hshape hwidth =>
    exact evaluates_array ha hg hshape hwidth hstretch hbox hne heval
  | literal value => exact evaluates_literal value heval
  | @unary op type operand hx hshape hkind ih =>
    rw [outcome_eval_unary] at heval
    obtain ⟨y, hy, happly⟩ := bind_eq_ok.1 heval
    have hoperand : operand.shape.Stretches domain := by
      rw [← hshape]
      exact hstretch
    exact evaluates_unary (ih hlawful.unary hoperand hy) (hlen hoperand) hshape hkind happly
  | @binary op type l r meet hl hr hshape hkind ihl ihr =>
    rw [outcome_eval_binary hl hr hlawful] at heval
    obtain ⟨lx, hlx, heval⟩ := bind_eq_ok.1 heval
    obtain ⟨rx, hrx, happly⟩ := bind_eq_ok.1 heval
    obtain ⟨hls, hrs⟩ := stretches_of_broadcast hshape
    have hle := ihl hlawful.binary.1 (hls.trans hstretch) hlx
    have hre := ihr hlawful.binary.2 (hrs.trans hstretch) hrx
    obtain ⟨hcombines, hholds⟩ := BinaryOp.combines_apply happly hle.filled hre.filled
    obtain ⟨hxshape, hvalue⟩ := hle.combine hre hshape (hlen hstretch) hcombines
    exact ⟨hxshape, hholds, hcombines.filled, hvalue⟩
  | @compare op kind type l r hl hr hshape hkind ihl ihr =>
    rw [outcome_eval_compare hl hr hlawful] at heval
    obtain ⟨lx, hlx, heval⟩ := bind_eq_ok.1 heval
    obtain ⟨rx, hrx, happly⟩ := bind_eq_ok.1 heval
    obtain ⟨hls, hrs⟩ := stretches_of_broadcast hshape
    have hle := ihl hlawful.compare.1 (hls.trans hstretch) hlx
    have hre := ihr hlawful.compare.2 (hrs.trans hstretch) hrx
    obtain ⟨hcombines, hholds⟩ := CompareOp.combines_apply happly hle.filled hre.filled
    obtain ⟨hxshape, hvalue⟩ := hle.combine hre hshape (hlen hstretch) hcombines
    refine ⟨hxshape, ?_, hcombines.filled, hvalue⟩
    rw [Expr.kind, Expr.type, hkind]
    exact hholds
  | @call f type inputs hinputs hshape hkind ih =>
    obtain ⟨hf, hall⟩ := hlawful.call
    have hquery (e : Expr) (he : e ∈ inputs) := isQuery_eval (hinputs e he) (hall e he) box
    rw [outcome_eval_call hinputs hlawful] at heval
    obtain ⟨args, hargs, hcall⟩ := bind_eq_ok.1 heval
    have heach (e : Expr) (he : e ∈ inputs) (x : Operand) (hx : outcome (eval box e) w = .ok x) :=
      ih e he (hall e he) ((hshape e he).trans hstretch) hx
    obtain ⟨hfilled, hvalues⟩ := evaluates_inputs hquery heach hshape (hlen hstretch) hargs
    exact evaluates_call hf hkind (hlen hstretch) hfilled hvalues hcall

/-! ## Smaller boxes -/

section Inputs

variable {inputs : List Expr} {args : List Operand} {shape : Shape}

/-- Inputs that were stretched to a shape were evaluated. -/
theorem of_evalInputs (hquery : ∀ e ∈ inputs, IsQuery (Workspace.Alike reads) (eval box e))
    (h : outcome (evalInputs box shape inputs) w = .ok args) :
    ∀ e ∈ inputs, shape.isCountable = true ∧ ∃ x, outcome (eval box e) w = .ok x := by
  induction inputs generalizing args with
  | nil => exact List.forall_mem_nil _
  | cons e inputs ih =>
    obtain ⟨hqe, hqinputs⟩ := List.forall_mem_cons.1 hquery
    rw [outcome_evalInputs_cons hqe hqinputs] at h
    obtain ⟨x, hx, h⟩ := bind_eq_ok.1 h
    obtain ⟨y, hy, h⟩ := bind_eq_ok.1 h
    obtain ⟨ys, hys, -⟩ := bind_eq_ok.1 h
    obtain ⟨⟨-, hcount⟩, -⟩ := Operand.broadcastTo_eq_ok.1 hy
    exact List.forall_mem_cons.2 ⟨⟨hcount, x, hx⟩, ih hqinputs hys⟩

/-- Inputs that can be evaluated can be stretched to the part of a box. -/
theorem exists_evalInputs (hquery : ∀ e ∈ inputs, IsQuery (Workspace.Alike reads) (eval box e))
    (hinputs : ∀ e ∈ inputs, (operandBox shape box).shape.isCountable = true ∧
      ∃ x, outcome (eval box e) w = .ok x ∧ Evaluates rules w box e x)
    (hstretch : ∀ e ∈ inputs, e.shape.Stretches shape) (hlen : shape.length ≤ box.length) :
    ∃ args, outcome (evalInputs box (operandBox shape box).shape inputs) w = .ok args := by
  induction inputs with
  | nil => exact ⟨[], rfl⟩
  | cons e inputs ih =>
    obtain ⟨hqe, hqinputs⟩ := List.forall_mem_cons.1 hquery
    obtain ⟨hse, hsinputs⟩ := List.forall_mem_cons.1 hstretch
    obtain ⟨⟨hcount, x, hx, hxe⟩, hinputs⟩ := List.forall_mem_cons.1 hinputs
    obtain ⟨ys, hys⟩ := ih hqinputs hinputs hsinputs
    have hxs : x.shape.Stretches (operandBox shape box).shape := by
      rw [hxe.shape]
      exact stretches_operandBox hse hlen
    refine ⟨x.stretch (operandBox shape box).shape :: ys, ?_⟩
    rw [outcome_evalInputs_cons hqe hqinputs, hx, hys]
    exact bind_eq_ok.2 ⟨x, rfl, bind_eq_ok.2
      ⟨_, Operand.broadcastTo_eq_ok.2 ⟨⟨hxs, hcount⟩, rfl⟩, rfl⟩⟩

/-- A function that follows a rule can be called on a smaller box: at every place of its part the rule
has succeeded in the larger one. -/
theorem exists_call {f : UserFunction} {type : ExprType} {args' : List Operand}
    (hf : f.Follows reads (rules f)) (hlen : type.shape.length ≤ inner.length)
    (hwithin : inner.Within box) (hne : inner.Nonempty)
    (hx : Evaluates rules w box (.call f type inputs) x)
    (hargs : ∀ y ∈ args', y.Filled ∧ y.shape = (operandBox type.shape inner).shape)
    (hvalues : ∀ c, inner.Holds c → valuesAt rules w c inputs = .ok (args'.map fun y =>
      y.get ((operandBox type.shape inner).shape.project (inner.toLocal c)))) :
    ∃ y, outcome (f.call args' (operandBox type.shape inner).shape
      (operandBox type.shape inner).origin) w = .ok y := by
  refine hf.total w args' _ _ hargs (Box.size_pos (nonempty_operandBox hne)) fun d hd => ?_
  have hposition := Box.holds_toGlobal hd
  obtain ⟨c, hc, hproject⟩ := exists_project hlen hne hposition
  have hvalue := hx.value c (hwithin.holds hc)
  rw [valueAt, hvalues c hc, ← toLocal_project hlen hc, hproject, Box.toLocal_toGlobal hd] at hvalue
  rw [zipWith_origin]
  exact ⟨_, hvalue⟩

end Inputs

section Combined

variable {l r : Expr} {lx rx ly ry : Operand} {shape : Shape}

/-- Operands that were combined over a box have few enough elements over every box inside it. -/
theorem isCountable_of_combines {f : Value → Value → Result Value} (hl : Evaluates rules w box l lx)
    (hr : Evaluates rules w box r rx) (hshape : broadcast l.shape r.shape = .ok shape)
    (hlen : shape.length ≤ box.length) (hx : lx.Combines f rx x) (hwithin : inner.Within box)
    (hne : inner.Nonempty) : (operandBox shape inner).shape.isCountable = true := by
  have hcount := hx.countable
  rw [(hl.combine hr hshape hlen hx).1] at hcount
  exact isCountable_of_within (within_operandBox hwithin) (nonempty_operandBox hne) hcount

/-- Operands that were combined over a box broadcast over every box inside it to its part of the
result, which has few enough elements. -/
theorem broadcast_of_combines {f : Value → Value → Result Value} (hl : Typed w l) (hr : Typed w r)
    (hlawful : l.Lawful reads rules ∧ r.Lawful reads rules)
    (hshape : broadcast l.shape r.shape = .ok shape) (hstretch : shape.Stretches domain)
    (hbox : box.Inside domain) (hwithin : inner.Within box) (hne : inner.Nonempty)
    (hlx : outcome (eval box l) w = .ok lx) (hrx : outcome (eval box r) w = .ok rx)
    (hx : lx.Filled → rx.Filled → lx.Combines f rx x)
    (hly : outcome (eval inner l) w = .ok ly) (hry : outcome (eval inner r) w = .ok ry) :
    broadcast ly.shape ry.shape = .ok (operandBox shape inner).shape ∧
      (operandBox shape inner).shape.isCountable = true := by
  have hinner : inner.Inside domain := hwithin.inside hbox
  have houter : box.Nonempty := hwithin.nonempty hne
  obtain ⟨hls, hrs⟩ := stretches_of_broadcast hshape
  have hlo := evaluates_of_eval hl hlawful.1 (hls.trans hstretch) hbox houter hlx
  have hro := evaluates_of_eval hr hlawful.2 (hrs.trans hstretch) hbox houter hrx
  have hle := evaluates_of_eval hl hlawful.1 (hls.trans hstretch) hinner hne hly
  have hre := evaluates_of_eval hr hlawful.2 (hrs.trans hstretch) hinner hne hry
  constructor
  · rw [hle.shape, hre.shape]
    exact broadcast_operandBox hshape (hstretch.length_le.trans_eq hinner.length_eq.symm)
  · exact isCountable_of_combines hlo hro hshape (hstretch.length_le.trans_eq hbox.length_eq.symm)
      (hx hlo.filled hro.filled) hwithin hne

end Combined

/-- An expression that was evaluated over a box can be evaluated over every box inside it. -/
theorem exists_eval (h : Typed w e) (hlawful : e.Lawful reads rules)
    (hstretch : e.shape.Stretches domain) (hbox : box.Inside domain) (hwithin : inner.Within box)
    (hne : inner.Nonempty) (heval : outcome (eval box e) w = .ok x) :
    ∃ y, outcome (eval inner e) w = .ok y := by
  have hinner : inner.Inside domain := hwithin.inside hbox
  have houter : box.Nonempty := hwithin.nonempty hne
  have hlen {shape : Shape} (hshape : shape.Stretches domain) : shape.length ≤ inner.length :=
    hshape.length_le.trans_eq hinner.length_eq.symm
  -- On the tree of nodes: what an operand gave over the outer box it gives over the inner one, and
  -- an operation that succeeded on the larger parts succeeds on the smaller ones.
  induction h generalizing x with
  | array ha hg hshape hwidth =>
    exact exists_eval_array ha hg hshape hwidth hstretch hbox hwithin hne heval
  | literal value => exact ⟨_, rfl⟩
  | @unary op type operand hx hshape hkind ih =>
    rw [outcome_eval_unary] at heval
    obtain ⟨y, hy, -⟩ := bind_eq_ok.1 heval
    have hoperand : operand.shape.Stretches domain := by
      rw [← hshape]
      exact hstretch
    obtain ⟨y', hy'⟩ := ih hlawful.unary hoperand hy
    have hevaluates := evaluates_of_eval hx hlawful.unary hoperand hinner hne hy'
    obtain ⟨z, hz, -⟩ := UnaryOp.exists_apply hkind hevaluates.holds
    refine ⟨z, ?_⟩
    rw [outcome_eval_unary, hy']
    exact hz
  | @binary op type l r meet hl hr hshape hkind ihl ihr =>
    rw [outcome_eval_binary hl hr hlawful] at heval ⊢
    obtain ⟨lx, hlx, heval⟩ := bind_eq_ok.1 heval
    obtain ⟨rx, hrx, happly⟩ := bind_eq_ok.1 heval
    obtain ⟨hls, hrs⟩ := stretches_of_broadcast hshape
    obtain ⟨ly, hly⟩ := ihl hlawful.binary.1 (hls.trans hstretch) hlx
    obtain ⟨ry, hry⟩ := ihr hlawful.binary.2 (hrs.trans hstretch) hrx
    obtain ⟨hlocal, hcount⟩ := broadcast_of_combines hl hr hlawful.binary hshape hstretch hbox hwithin
      hne hlx hrx (fun hl hr => (BinaryOp.combines_apply happly hl hr).1) hly hry
    rw [hly, hry]
    exact BinaryOp.exists_apply hkind hlocal hcount
  | @compare op kind type l r hl hr hshape hkind ihl ihr =>
    rw [outcome_eval_compare hl hr hlawful] at heval ⊢
    obtain ⟨lx, hlx, heval⟩ := bind_eq_ok.1 heval
    obtain ⟨rx, hrx, happly⟩ := bind_eq_ok.1 heval
    obtain ⟨hls, hrs⟩ := stretches_of_broadcast hshape
    obtain ⟨ly, hly⟩ := ihl hlawful.compare.1 (hls.trans hstretch) hlx
    obtain ⟨ry, hry⟩ := ihr hlawful.compare.2 (hrs.trans hstretch) hrx
    obtain ⟨hlocal, hcount⟩ := broadcast_of_combines hl hr hlawful.compare hshape hstretch hbox hwithin
      hne hlx hrx (fun hl hr => (CompareOp.combines_apply happly hl hr).1) hly hry
    rw [hly, hry]
    exact CompareOp.exists_apply hlocal hcount
  | @call f type inputs hinputs hshape hkind ih =>
    obtain ⟨hf, hall⟩ := hlawful.call
    have hquery (box : Box) (e : Expr) (he : e ∈ inputs) :=
      isQuery_eval (hinputs e he) (hall e he) box
    have hwhole := evaluates_of_eval (.call hinputs hshape hkind) hlawful hstretch hbox houter heval
    have heach (e : Expr) (he : e ∈ inputs) (y : Operand) (hy : outcome (eval inner e) w = .ok y) :=
      evaluates_of_eval (hinputs e he) (hall e he) ((hshape e he).trans hstretch) hinner hne hy
    rw [outcome_eval_call hinputs hlawful] at heval ⊢
    obtain ⟨args, hargs, -⟩ := bind_eq_ok.1 heval
    have hinputs' (e : Expr) (he : e ∈ inputs) :
        (operandBox type.shape inner).shape.isCountable = true ∧
          ∃ y, outcome (eval inner e) w = .ok y ∧ Evaluates rules w inner e y := by
      obtain ⟨hcount, x, hx⟩ := of_evalInputs (hquery box) hargs e he
      obtain ⟨y, hy⟩ := ih e he (hall e he) ((hshape e he).trans hstretch) hx
      exact ⟨isCountable_of_within (within_operandBox hwithin) (nonempty_operandBox hne) hcount, y, hy,
        heach e he y hy⟩
    obtain ⟨args', hargs'⟩ := exists_evalInputs (hquery inner) hinputs' hshape (hlen hstretch)
    obtain ⟨hfilled, hvalues⟩ :=
      evaluates_inputs (hquery inner) heach hshape (hlen hstretch) hargs'
    rw [hargs']
    exact exists_call hf (hlen hstretch) hwithin hne hwhole hfilled hvalues

end ChunkedArray.Expr
