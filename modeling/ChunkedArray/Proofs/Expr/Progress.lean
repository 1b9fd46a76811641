import ChunkedArray.Proofs.Array.Formed
import ChunkedArray.Proofs.Expr.Range

/-!
# Progress

A node of a well-built expression, evaluated over a box, ends in an operand of its kind in the shape of
its part of the box as soon as what its leaves read there can be read. Where a chunk cannot be read the
error is that of the chunk: the kernels find the operands that were promised to them. What is relied
on is that the user functions succeed on the inputs that they are given and leave the arrays of the
expression in use.
-/

namespace ChunkedArray

open ChunkedArray.Action ChunkedArray.Shape

/-! ## Workspaces in use -/

namespace Workspace

/-- A workspace and what has become of it: the arrays of certain names are kept. -/
def Keeps (reads : String → Prop) (w w' : Workspace) : Prop :=
  ∀ name, reads name → Option.Rel (NDArray.Keeps w.files w'.files) (w.arrays.find? name)
    (w'.arrays.find? name)

variable {reads : String → Prop} {w w' w'' : Workspace}

/-- To fetch chunks of the arrays keeps them. -/
theorem Alike.keeps (h : Alike reads w w') : Keeps reads w w' := by
  intro name hname
  have harrays := h.arrays name hname
  rw [h.files]
  generalize w.arrays.find? name = x at harrays ⊢
  generalize w'.arrays.find? name = y at harrays ⊢
  cases harrays with
  | none => exact .none
  | some halike => exact .some halike.keeps

theorem Keeps.trans (h : Keeps reads w w') (h' : Keeps reads w' w'') : Keeps reads w w'' := by
  intro name hname
  have harrays := h name hname
  have harrays' := h' name hname
  generalize w.arrays.find? name = x at harrays ⊢
  generalize w'.arrays.find? name = y at harrays harrays'
  generalize w''.arrays.find? name = z at harrays' ⊢
  cases harrays with
  | none =>
    cases harrays' with
    | none => exact .none
  | some ha =>
    cases harrays' with
    | some ha' => exact .some (ha.trans ha')

/-- What has become of an array. -/
theorem Keeps.exists_find (h : Keeps reads w w') {name : String} (hname : reads name) {a : NDArray}
    (ha : w.arrays.find? name = some a) :
    ∃ a', w'.arrays.find? name = some a' ∧ NDArray.Keeps w.files w'.files a a' := by
  have harrays := h name hname
  rw [ha] at harrays
  generalize w'.arrays.find? name = y at harrays ⊢
  cases harrays with
  | some hkeeps => exact ⟨_, rfl, hkeeps⟩

/-- An invariant under which the arrays of certain names are in use: it keeps them, and it does not see
which of their chunks were fetched. -/
structure InUse (reads : String → Prop) (w : Workspace) (inv : Workspace → Prop) : Prop where
  keeps : ∀ w', inv w' → w.Keeps reads w'
  alike : ∀ w' w'', inv w' → w'.Alike reads w'' → inv w''

theorem inUse_keeps (reads : String → Prop) (w : Workspace) : InUse reads w (w.Keeps reads) :=
  ⟨fun _ h => h, fun _ _ h halike => h.trans halike.keeps⟩

/-- A workspace and what has become of it while nothing was written to the arrays of certain names. -/
def Untouched (reads : String → Prop) (w w' : Workspace) : Prop :=
  w.Keeps reads w' ∧ w.SameRevisions reads w'

theorem untouched_refl (reads : String → Prop) (w : Workspace) : w.Untouched reads w :=
  ⟨(Alike.refl w).keeps, fun _ _ => rfl⟩

theorem inUse_untouched (reads : String → Prop) (w : Workspace) : InUse reads w (w.Untouched reads) := by
  refine ⟨fun _ h => h.1, fun _ _ h halike => ⟨h.1.trans halike.keeps, fun name hname => ?_⟩⟩
  exact (halike.sameRevisions name hname).trans (h.2 name hname)

end Workspace

/-- A user function that, under an invariant of the workspace, succeeds on all inputs of certain kinds
and leaves a buffer of the kind and the shape that it was given. -/
def UserFunction.Succeeds (f : UserFunction) (inv : Workspace → Prop) (kinds : List ScalarKind) :
    Prop :=
  ∀ (shape : Shape) (offset : List Nat) (inputs : List Operand),
    List.Forall₂ (fun kind x => Operand.Conforms kind shape x) kinds inputs →
      Ends inv (fun out => out.shape = shape ∧ out.holds f.kind = true ∧ out.Filled)
        (fun _ => False) (f.body inputs (.zeros f.kind shape) offset)

variable {inv : Workspace → Prop} {fault : Error → Prop}

/-- A function that succeeds has a result that conforms. -/
theorem UserFunction.Succeeds.ends_call {f : UserFunction} {kinds : List ScalarKind}
    (h : f.Succeeds inv kinds) {shape : Shape} {inputs : List Operand}
    (hinputs : List.Forall₂ (fun kind x => Operand.Conforms kind shape x) kinds inputs)
    (offset : List Nat) :
    Ends inv (Operand.Conforms f.kind shape) fault (f.call inputs shape offset) := by
  have hbody : Ends inv _ (fun e => fault (reportAs f.name e)) _ :=
    (h shape offset inputs hinputs).weaken fun _ => False.elim
  refine hbody.adapt.bind fun out hout => ?_
  obtain ⟨hshape, hholds, hfilled⟩ := hout
  rw [if_neg (by simp [hshape, hholds])]
  exact ends_pure (Operand.conforms_wrap hshape hholds hfilled)

/-! ## Leaves -/

/-- A box of a shape in reach of signed words: it lies in the shape, is empty along no axis, and the
axes of the shape and the elements of the box can be counted by signed words. -/
structure Box.InReach (box : Box) (shape : Shape) : Prop where
  inside : box.Inside shape
  nonempty : box.Nonempty
  axes : ∀ n ∈ shape, n < 2 ^ 63
  size : box.shape.size < 2 ^ 63

namespace Leaf

/-- A leaf that was drawn from an array: it reads whole items or one of their fields. -/
def Drawn (w : Workspace) (l : Leaf) : Prop :=
  ∃ a, w.arrays.find? l.name = some a ∧ a.Formed ∧
    (l.part = a.geometry.wholeItem ∨ ∃ field ∈ a.dtype.fields, l.part = Geometry.fieldPart field)

/-- Whether the chunks that a leaf reads for a box can be read. -/
def Readable (w : Workspace) (box : Box) (l : Leaf) : Prop :=
  ∀ a, w.arrays.find? l.name = some a → ∀ i < a.geometry.nchunks,
    a.geometry.HitsReadable a.store (a.store.chunkSource w.files)
      (.ofBox (Expr.operandBox l.type.shape box)) i

/-- What a leaf reads for a box. -/
def read (box : Box) (l : Leaf) : WorkspaceM Bytes :=
  Workspace.onArray l.name fun a fs => a.readBox fs l.part (Expr.operandBox l.type.shape box)

/-- Whether a byte string has the size of what a leaf reads for a box. -/
def Fills (box : Box) (l : Leaf) (data : Bytes) : Prop :=
  data.size = (Expr.operandBox l.type.shape box).shape.size * l.part.width

variable {l : Leaf} {w : Workspace} {reads : String → Prop} {box : Box} {domain : Shape}

/-- Every part that a leaf reads lies inside of the items. -/
theorem Drawn.part_le (h : l.Drawn w) {a : NDArray} (ha : w.arrays.find? l.name = some a) :
    l.part.offset + l.part.width ≤ a.geometry.itemsize := by
  obtain ⟨a', ha', -, hpart⟩ := h
  rw [ha] at ha'
  cases ha'
  obtain hwhole | ⟨field, hfield, hpart⟩ := hpart
  · rw [hwhole, Geometry.wholeItem, Nat.zero_add]
  · rw [hpart]
    exact DType.end_le_itemsize hfield

/-- In every workspace in which the array of a leaf is in use, the leaf fills its part of a box or
fails as foreseen, and it does not fail if its chunks could be read. -/
theorem outcome_read_of_keeps {w' : Workspace} (hkeeps : w.Keeps reads w') (hname : reads l.name)
    (hdrawn : l.Drawn w) (hshape : ∀ a, w.arrays.find? l.name = some a →
      l.type.shape = a.geometry.shape) (hwidth : l.part.width = l.type.kind.itemsize)
    (hstretch : l.type.shape.Stretches domain) (hbox : box.InReach domain) :
    (∀ data, outcome (l.read box) w' = .ok data → l.Fills box data) ∧
      Foreseeable (outcome (l.read box) w') ∧
      (l.Readable w box → ∃ data, outcome (l.read box) w' = .ok data) := by
  obtain ⟨a, ha, hformed, -⟩ := id hdrawn
  obtain ⟨a', ha', hkept⟩ := hkeeps.exists_find hname ha
  have hsame : l.type.shape = a'.geometry.shape := by rw [hshape a ha, hkept.geometry]
  have hne : Box.Nonempty (Expr.operandBox l.type.shape box) :=
    Expr.nonempty_operandBox hbox.nonempty
  have hinside : (Expr.operandBox l.type.shape box).Inside a'.geometry.shape := by
    rw [← hsame]
    exact Expr.inside_operandBox hstretch hbox.inside
  have haddress := hinside.addressable_of_lt (hsame ▸ hstretch.forall_lt (by decide) hbox.axes)
  have hpart := hdrawn.part_le ha
  have hcuts : l.part.Cuts a'.geometry.itemsize := .inr (hwidth ▸ Element.itemsize_pos _)
  have hregular := hformed.regular
  have hsource := hkept.foreseeable (hformed.sourced.foreseeable_fetch w.files)
  rw [← hkept.geometry] at hpart hregular
  have hread : outcome (l.read box) w' = outcome (a'.geometry.readBox
      (a'.store.chunkSource w'.files) l.part (Expr.operandBox l.type.shape box)) a'.store :=
    Expr.outcome_read ha' l.part _
  rw [hread]
  obtain ⟨hsize, hforeseen⟩ :=
    @Geometry.readBox_of_addressable _ _ _ l.part hregular _ hinside haddress hne hcuts hsource
  refine ⟨hsize, hforeseen, fun hreadable => ?_⟩
  refine Geometry.exists_readBox hregular hinside haddress hne hcuts hpart fun i hi => ?_
  rw [hkept.geometry] at hi
  exact hkept.hitsReadable (hreadable a ha i hi)

/-- To read a leaf of an array in use keeps it in use. -/
theorem ends_read (hinv : w.InUse reads inv) (hname : reads l.name)
    (hok : ∀ w', w.Keeps reads w' → ∀ data, outcome (l.read box) w' = .ok data → l.Fills box data)
    (herror : ∀ w', w.Keeps reads w' → ∀ e, outcome (l.read box) w' = .error e → fault e) :
    Ends inv (l.Fills box) fault (l.read box) := fun w' hw' =>
  ⟨hinv.alike w' _ hw' ((Expr.isQuery_read l.part _ hname).kept w'), hok w' (hinv.keeps w' hw'),
    herror w' (hinv.keeps w' hw')⟩

end Leaf

/-! ## Nodes -/

namespace Expr

variable {w : Workspace} {e root : Expr} {box : Box}

/-- The inputs of a user function are evaluated one by one and stretched to its shape. -/
theorem ends_evalInputs {inputs : List Expr} {shape : Shape} (hlen : shape.length ≤ box.length)
    (hcount : (operandBox shape box).shape.isCountable = true)
    (hstretch : ∀ e ∈ inputs, e.shape.Stretches shape)
    (heval : ∀ e ∈ inputs, Ends inv (Conforms box e) fault (eval box e)) :
    Ends inv (List.Forall₂ (fun kind x => Operand.Conforms kind (operandBox shape box).shape x)
        (inputs.map Expr.kind)) fault
      (evalInputs box (operandBox shape box).shape inputs) := by
  induction inputs with
  | nil => exact ends_pure List.Forall₂.nil
  | cons e inputs ih =>
    obtain ⟨hse, hstretch⟩ := List.forall_mem_cons.1 hstretch
    obtain ⟨he, heval⟩ := List.forall_mem_cons.1 heval
    rw [evalInputs]
    refine he.bind fun x hx => ?_
    have hstretched : ∃ y, x.broadcastTo (operandBox shape box).shape = .ok y ∧
        y.Conforms e.kind (operandBox shape box).shape := by
      refine ⟨_, Operand.broadcastTo_eq_ok.2 ⟨⟨?_, hcount⟩, rfl⟩, hx.stretch _⟩
      rw [hx.shape]
      exact stretches_operandBox hse hlen
    refine (ends_result hstretched).bind fun y hy => ?_
    exact (ih hstretch heval).bind fun ys hys => ends_pure (List.Forall₂.cons hy hys)

/-- Soundness of typing and progress at once. If every leaf of a node fills its part of a box or fails
in a certain way, the node gives an operand that conforms or fails in that way. -/
theorem ends_eval (h : Typed w e) (hlen : e.shape.length ≤ box.length) (hne : box.Nonempty)
    (hsize : box.shape.size < 2 ^ 63)
    (hread : ∀ l ∈ e.leaves, Ends inv (l.Fills box) fault (l.read box))
    (hcalls : ∀ f type inputs, e.NodeOf (.call f type inputs) →
      f.Succeeds inv (inputs.map Expr.kind)) :
    Ends inv (Conforms box e) fault (eval box e) := by
  have hshorter {shape shape' : Shape} (hstretch : shape.Stretches shape')
      (hlen : shape'.length ≤ box.length) : shape.length ≤ box.length :=
    hstretch.length_le.trans hlen
  -- On the tree of nodes. Only leaves and calls can fail, so the other nodes pass on how their
  -- operands end.
  induction h with
  | @array name part type a ha hg hshape hwidth =>
    rw [eval]
    refine (hread ⟨name, part, type⟩ List.mem_cons_self).bind fun data hdata => ends_result ?_
    exact exists_conforms_ofBytes hwidth hdata (isCountable_operandBox hlen hne hsize)
  | literal value => exact ends_pure (conforms_literal box value)
  | @unary op type x hx hshape hkind ih =>
    have hoperand : x.shape.length ≤ box.length := by
      rw [← hshape]
      exact hlen
    rw [eval]
    refine (ih hoperand hread fun f t i hf => hcalls f t i (hf.trans (.operand .root))).bind
      fun x hx => ends_result ?_
    exact exists_conforms_unary hx hshape hkind
  | binary hl hr hshape hkind ihl ihr =>
    obtain ⟨hreadl, hreadr⟩ := List.forall_mem_append.1 hread
    obtain ⟨hls, hrs⟩ := stretches_of_broadcast hshape
    have hleft := ihl (hshorter hls hlen) hreadl fun f t i hf => hcalls f t i (hf.trans (.left .root))
    have hright := ihr (hshorter hrs hlen) hreadr fun f t i hf =>
      hcalls f t i (hf.trans (.right .root))
    rw [eval]
    refine hleft.bind fun l hl => hright.bind fun r hr => ends_result ?_
    exact exists_conforms_binary hl hr hshape hkind hlen (isCountable_operandBox hlen hne hsize)
  | compare hl hr hshape hkind ihl ihr =>
    obtain ⟨hreadl, hreadr⟩ := List.forall_mem_append.1 hread
    obtain ⟨hls, hrs⟩ := stretches_of_broadcast hshape
    have hleft := ihl (hshorter hls hlen) hreadl fun f t i hf =>
      hcalls f t i (hf.trans (.compareLeft .root))
    have hright := ihr (hshorter hrs hlen) hreadr fun f t i hf =>
      hcalls f t i (hf.trans (.compareRight .root))
    rw [eval]
    refine hleft.bind fun l hl => hright.bind fun r hr => ends_result ?_
    exact exists_conforms_compare hl hr hshape hkind hlen (isCountable_operandBox hlen hne hsize)
  | @call f type inputs hinputs hshape hkind ih =>
    have heach (e : Expr) (he : e ∈ inputs) : Ends inv (Conforms box e) fault (eval box e) :=
      ih e he (hshorter (hshape e he) hlen) (fun l hl => hread l (mem_leavesOfAll.2 ⟨e, he, hl⟩))
        fun f t i hf => hcalls f t i (hf.trans (.input .root he))
    have hargs := ends_evalInputs hlen (isCountable_operandBox hlen hne hsize) hshape heach
    rw [eval]
    refine hargs.bind fun args hargs => ?_
    have hcall : Ends inv _ fault _ :=
      (hcalls f type inputs .root).ends_call hargs (operandBox type.shape box).origin
    rw [← hkind] at hcall
    exact hcall

/-! ## Whole expressions -/

/-- An expression that was built from the arrays of a workspace and their fields. -/
structure Drawn (w : Workspace) (e : Expr) : Prop where
  built : WellBuilt w e
  leaves : ∀ l ∈ e.leaves, l.Drawn w

/-- The user functions of an expression succeed on inputs of the kinds of their operands. -/
def CallsSucceed (inv : Workspace → Prop) (root : Expr) : Prop :=
  ∀ f type inputs, root.NodeOf (.call f type inputs) → f.Succeeds inv (inputs.map Expr.kind)

/-- Under every invariant with the arrays in use, a node over a box in reach gives an operand that
conforms or fails as foreseen, and it does not fail if its chunks could be read. -/
theorem Drawn.ends_eval (h : root.Drawn w) (he : root.NodeOf e) (hbox : box.InReach root.shape)
    (hinv : w.InUse (· ∈ root.arrays) inv) (hcalls : root.CallsSucceed inv) :
    Ends inv (Conforms box e) Error.Foreseen (eval box e) ∧
      ((∀ l ∈ e.leaves, l.Readable w box) →
        Ends inv (Conforms box e) (fun _ => False) (eval box e)) := by
  have hroot := h.built.typed
  have hnode := he.inherits hroot
  have hlen : e.shape.length ≤ box.length :=
    hnode.stretches.length_le.trans_eq hbox.inside.length_eq.symm
  have hsucceed (f : UserFunction) (type : ExprType) (inputs : List Expr)
      (hf : e.NodeOf (.call f type inputs)) := hcalls f type inputs (hf.trans he)
  have hread (l : Leaf) (hl : l ∈ e.leaves) (w' : Workspace) (hw' : w.Keeps (· ∈ root.arrays) w') :
      (∀ data, outcome (l.read box) w' = .ok data → l.Fills box data) ∧
        Foreseeable (outcome (l.read box) w') ∧
        (l.Readable w box → ∃ data, outcome (l.read box) w' = .ok data) := by
    have hl' := hnode.leaves l hl
    obtain ⟨hname, hwidth, a, ha, -, hshape⟩ := hroot.leaf hl'
    refine Leaf.outcome_read_of_keeps hw' hname (h.leaves l hl') (fun a' ha' => ?_) hwidth
      (hroot.stretches_leaf hl') hbox
    rw [ha] at ha'
    cases ha'
    exact hshape
  have hname (l : Leaf) (hl : l ∈ e.leaves) := (hroot.leaf (hnode.leaves l hl)).1
  constructor
  · exact Expr.ends_eval hnode.typed hlen hbox.nonempty hbox.size (fun l hl => Leaf.ends_read hinv
      (hname l hl) (fun w' hw' => (hread l hl w' hw').1) fun w' hw' => (hread l hl w' hw').2.1) hsucceed
  · intro hreadable
    refine Expr.ends_eval hnode.typed hlen hbox.nonempty hbox.size (fun l hl => Leaf.ends_read hinv
      (hname l hl) (fun w' hw' => (hread l hl w' hw').1) fun w' hw' e' he' => ?_) hsucceed
    obtain ⟨data, hdata⟩ := (hread l hl w' hw').2.2 (hreadable l hl)
    rw [hdata] at he'
    cases he'

end Expr

end ChunkedArray
