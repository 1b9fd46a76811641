import ChunkedArray.Proofs.Expr.Functions
import ChunkedArray.Proofs.Expr.Materialize
import ChunkedArray.Proofs.Expr.Progress
import ChunkedArray.Proofs.Expr.Slice
import ChunkedArray.Proofs.Shape.Tile

/-!
# Typing is sound

An expression that was built from the arrays of a workspace evaluates to operands of the kinds and the
shapes of its nodes, and with default parameters it is materialized, as long as its chunks can be read
and its user functions succeed. A chunk that cannot be read is reported as such: no mismatch of kinds
or shapes is ever found while an expression is evaluated.

That much holds over boxes whose elements can be counted by signed words, in shapes whose axes can be
measured by them. Beyond, a box is refused by the broadcast that should fill it, and an axis is taken
to be empty.
-/

namespace ChunkedArray

open ChunkedArray.Action ChunkedArray.Shape

/-- Chunk and block shapes that were accepted are accepted for every shape of the same rank. -/
theorem Geometry.exists_resolve_of_resolve {shape shape' chunks blocks : Shape} {dtype dtype' : DType}
    {g : Geometry} (h : resolve shape dtype (some chunks) (some blocks) = .ok g)
    (hlen : shape'.length = shape.length) :
    ∃ g', resolve shape' dtype' (some chunks) (some blocks) = .ok g' := by
  obtain ⟨⟨tile, block⟩, hresolve, h⟩ := bind_eq_ok.1 h
  rw [Shape.resolveGeometry] at hresolve
  rw [resolve, Shape.resolveGeometry, hlen]
  dsimp only [Option.getD_some] at hresolve ⊢
  rw [hresolve]
  exact ⟨_, rfl⟩

/-- A geometry can be derived for every shape. -/
theorem Geometry.exists_resolve_none (shape : Shape) (dtype : DType) :
    ∃ g, resolve shape dtype none none = .ok g := by
  obtain ⟨⟨chunks, blocks⟩, htiles⟩ := exists_resolveGeometry_none shape dtype.itemsize
  exact ⟨_, bind_eq_ok.2 ⟨_, htiles, rfl⟩⟩

/-- The sum succeeds on all inputs and keeps its buffer. -/
theorem UserFunction.succeeds_sum {inv : Workspace → Prop} (name : String) (kind : ScalarKind)
    (kinds : List ScalarKind) : (sum name kind).Succeeds inv kinds := by
  intro shape offset inputs hinputs
  have hall : ∀ y ∈ inputs, y.Filled ∧ y.shape = shape := by
    induction hinputs with
    | nil => exact fun _ hy => absurd hy List.not_mem_nil
    | cons hx _ ih => exact List.forall_mem_cons.2 ⟨⟨hx.filled, hx.shape⟩, ih⟩
  have hfills := (Operand.fills_zeros kind shape).foldl_accumulate hall
  exact ends_pure ⟨hfills.shape_eq, hfills.holds, hfills.filled⟩

namespace Expr

variable {w : Workspace} {root e : Expr} {box : Box} {inv : Workspace → Prop} {fault : Error → Prop}

/-! ## Results with default parameters -/

/-- With default parameters the first array of an expression, if there is one, gives a result a geometry
and valid codec parameters. -/
theorem exists_outputGeometry (root : Expr) {first : Option NDArray}
    (h : ∀ a, first = some a → a.Formed) :
    ∃ g codec, outputGeometry root {} first = .ok (g, codec) ∧ codec.validate = .ok () := by
  obtain ⟨derived, hderived⟩ := Geometry.exists_resolve_none root.shape (.scalar root.kind)
  cases first with
  | none => exact ⟨derived, {}, bind_eq_ok.2 ⟨derived, hderived, rfl⟩, rfl⟩
  | some a =>
    have ha := h a rfl
    by_cases hrank : (a.shape.length == root.shape.length) = true
    · obtain ⟨inherited, hinherited⟩ := @Geometry.exists_resolve_of_resolve _ root.shape _ _ _
        (.scalar root.kind) _ ha.resolved (beq_iff_eq.1 hrank).symm
      refine ⟨inherited, a.store.codec, bind_eq_ok.2 ⟨inherited, ?_, rfl⟩, ha.codec⟩
      simpa [Option.filter, hrank] using hinherited
    · refine ⟨derived, a.store.codec, bind_eq_ok.2 ⟨derived, ?_, rfl⟩, ha.codec⟩
      simpa [Option.filter, hrank] using hderived

/-- The revisions of arrays that are found are taken. -/
theorem exists_revisions (h : ∀ name ∈ root.arrays, ∃ a, w.lookup name = .ok a) :
    ∃ taken, outcome (revisions root) w = .ok taken := by
  rw [revisions_eq]
  generalize root.arrays = names at h
  induction names with
  | nil => exact ⟨[], rfl⟩
  | cons name names ih =>
    obtain ⟨⟨a, ha⟩, hnames⟩ := List.forall_mem_cons.1 h
    obtain ⟨taken, htaken⟩ := ih hnames
    refine ⟨(name, a.store.revision) :: taken, ?_⟩
    rw [outcome_takeRevisions_cons, ha, htaken]
    rfl

/-- The first array of an expression is one of its arrays. -/
theorem exists_firstArray (h : ∀ name ∈ root.arrays, ∃ a, w.lookup name = .ok a) :
    ∃ first, outcome (firstArray root) w = .ok first ∧
      ∀ a, first = some a → ∃ name ∈ root.arrays, w.lookup name = .ok a := by
  rw [firstArray]
  cases harrays : root.arrays with
  | nil => exact ⟨none, rfl, fun a ha => absurd ha (Option.some_ne_none a).symm⟩
  | cons name names =>
    rw [harrays] at h
    obtain ⟨a, ha⟩ := h name List.mem_cons_self
    refine ⟨some a, ?_, fun b hb => ⟨name, List.mem_cons_self, ?_⟩⟩
    · dsimp only
      rw [outcome, run_map, Workspace.run_array, ha]
      rfl
    · rw [← Option.some.inj hb]
      exact ha

/-- Every array of an expression is found, and it is formed. -/
theorem Drawn.exists_lookup (h : root.Drawn w) {name : String} (hname : name ∈ root.arrays) :
    ∃ a, w.lookup name = .ok a ∧ a.Formed := by
  rw [arrays_eq] at hname
  obtain ⟨l, hl, rfl⟩ := List.mem_map.1 hname
  obtain ⟨a, ha, hformed, -⟩ := h.leaves l hl
  exact ⟨a, by rw [Workspace.lookup, ha], hformed⟩

/-- All that is known of a result before its chunks are evaluated is found with default parameters. -/
theorem Drawn.exists_start (h : root.Drawn w) :
    ∃ taken first g codec, outcome (revisions root) w = .ok taken ∧
      outcome (firstArray root) w = .ok first ∧ outputGeometry root {} first = .ok (g, codec) ∧
      codec.validate = .ok () := by
  have hlookup (name : String) (hname : name ∈ root.arrays) : ∃ a, w.lookup name = .ok a := by
    obtain ⟨a, ha, -⟩ := h.exists_lookup hname
    exact ⟨a, ha⟩
  obtain ⟨taken, htaken⟩ := exists_revisions hlookup
  obtain ⟨first, hfirst, hamong⟩ := exists_firstArray hlookup
  obtain ⟨g, codec, hgeometry, hcodec⟩ := exists_outputGeometry root fun a ha => by
    obtain ⟨name, hname, ha⟩ := hamong a ha
    obtain ⟨a', ha', hformed⟩ := h.exists_lookup hname
    rw [ha] at ha'
    cases ha'
    exact hformed
  exact ⟨taken, first, g, codec, htaken, hfirst, hgeometry, hcodec⟩

/-- The bytes of an expression over a box in reach are spelled in full, unless a leaf fails. -/
theorem ends_evalBytes (hbox : box.InReach root.shape)
    (heval : Ends inv (Conforms box root) fault (eval box root)) :
    Ends inv (fun raw => raw.size = box.shape.size * root.kind.itemsize) fault
      (evalBytes root box) := by
  have hcount := (isCountable_iff hbox.nonempty).2 hbox.size
  refine heval.bind fun x hx => ?_
  have hstretched : ∃ y, x.broadcastTo box.shape = .ok y ∧ y.Conforms root.kind box.shape := by
    refine ⟨_, Operand.broadcastTo_eq_ok.2 ⟨⟨?_, hcount⟩, rfl⟩, hx.stretch _⟩
    rw [hx.shape]
    exact operandBox_stretches hbox.inside.length_eq.ge
  refine (ends_result hstretched).bind fun y hy => ends_pure ?_
  rw [Operand.size_toBytes hy.filled, hy.shape]

/-- A chunk of a result is in reach if its bytes can be compressed. -/
theorem inReach_chunkBox {g : Geometry} (hg : g.grid.Regular) (haxes : ∀ n ∈ g.shape, n < 2 ^ 63)
    (hitem : 0 < g.itemsize) (hchunk : g.chunkSize < 2 ^ 32) {i : Nat} (hi : i < g.nchunks) :
    Box.InReach (g.grid.chunkBox i) g.shape := by
  have hregular : g.Regular := ⟨hg, hitem⟩
  refine ⟨ChunkGrid.chunkBox_inside hg hi,
    Box.nonempty_of_forall₂ (ChunkGrid.chunkBox_layout hg hi), haxes, ?_⟩
  have hle : Shape.size (Box.shape (g.grid.chunkBox i)) ≤ g.chunks.size :=
    Shape.size_le_of_fitsIn (Geometry.shape_chunkBox_fitsIn hregular hi)
  have hsize : g.chunks.size ≤ g.chunkSize := Nat.le_mul_of_pos_right _ hitem
  omega

/-- A drawn expression is materialized with default parameters, or it fails as the evaluation of one of
its chunks does. -/
theorem Drawn.run_materialize (h : root.Drawn w) {taken : List (String × Nat)}
    {first : Option NDArray} {g : Geometry} {codec : CodecConfig}
    (htaken : outcome (revisions root) w = .ok taken)
    (hfirst : outcome (firstArray root) w = .ok first)
    (hgeometry : outputGeometry root {} first = .ok (g, codec)) (hcodec : codec.validate = .ok ())
    (haxes : ∀ n ∈ root.shape, n < 2 ^ 63) (hchunk : g.chunkSize < 2 ^ 32)
    (hmeta : g.toMeta.encode.size < 2 ^ 32)
    (hcalls : root.CallsSucceed (w.Untouched (· ∈ root.arrays))) :
    ((∃ a w', run (materialize {} root) w = (.ok a, w') ∧ a.geometry = g) ∨
      ∃ e w', run (materialize {} root) w = (.error e, w') ∧ e.Foreseen) ∧
    ((∀ i < g.nchunks, ∀ l ∈ root.leaves, l.Readable w (g.grid.chunkBox i)) →
      ∃ a w', run (materialize {} root) w = (.ok a, w') ∧ a.geometry = g) := by
  obtain ⟨hshape, hdtype, hgrid⟩ := of_outputGeometry hgeometry
  have hitem : 0 < g.itemsize := by
    rw [Geometry.itemsize, hdtype]
    exact ScalarKind.itemsize_pos root.kind
  have hreach (i : Nat) (hi : i < g.nchunks) : Box.InReach (g.grid.chunkBox i) root.shape := by
    rw [← hshape] at haxes ⊢
    exact inReach_chunkBox hgrid haxes hitem hchunk hi
  have hnode (i : Nat) (hi : i < g.nchunks) :=
    h.ends_eval .root (hreach i hi) (Workspace.inUse_untouched _ w) hcalls
  -- The same run twice: with the foreseen errors, and with none if all chunks can be read.
  have hrun {fault : Error → Prop} (heval : ∀ i < g.nchunks,
      Ends (w.Untouched (· ∈ root.arrays)) (Conforms (g.grid.chunkBox i) root) fault
        (eval (g.grid.chunkBox i) root)) :=
    run_materialize_of_ends (w.Untouched (· ∈ root.arrays)) (fun _ hw' => hw'.2) htaken hfirst
      hgeometry hcodec hchunk hmeta (fun i hi => ends_evalBytes (hreach i hi) (heval i hi))
      (Workspace.untouched_refl _ w)
  refine ⟨hrun fun i hi => (hnode i hi).1, fun hread => ?_⟩
  obtain hend | ⟨_, _, _, hfault⟩ := hrun fun i hi => (hnode i hi).2 (hread i hi)
  · exact hend
  · exact hfault.elim

/-- Typing is sound and evaluation makes progress. Over a box in reach, a node of a drawn expression
whose calls succeed gives an operand that conforms, or fails for a chunk that cannot be read, and it
gives an operand if its chunks can be read. With default parameters the expression is materialized in the
geometry that its first array suggests, if that can be written down and no call touches the arrays. -/
theorem typing_sound (h : root.Drawn w) :
    (∀ (e : Expr) (box : Box), root.NodeOf e → box.InReach root.shape →
      root.CallsSucceed (w.Keeps (· ∈ root.arrays)) →
        (∀ x, outcome (eval box e) w = .ok x → Conforms box e x) ∧
        Foreseeable (outcome (eval box e) w) ∧
        ((∀ l ∈ e.leaves, l.Readable w box) → ∃ x, outcome (eval box e) w = .ok x)) ∧
    ∃ first g codec, outcome (firstArray root) w = .ok first ∧
      outputGeometry root {} first = .ok (g, codec) ∧
      ((∀ n ∈ root.shape, n < 2 ^ 63) → g.chunkSize < 2 ^ 32 → g.toMeta.encode.size < 2 ^ 32 →
        root.CallsSucceed (w.Untouched (· ∈ root.arrays)) →
          Foreseeable (outcome (materialize {} root) w) ∧
          ((∀ i < g.nchunks, ∀ l ∈ root.leaves, l.Readable w (g.grid.chunkBox i)) →
            ∃ a w', run (materialize {} root) w = (.ok a, w') ∧ a.geometry = g)) := by
  constructor
  · intro e box he hbox hcalls
    have hw : w.Keeps (· ∈ root.arrays) w := (Workspace.Alike.refl w).keeps
    obtain ⟨hends, hsucceeds⟩ := h.ends_eval he hbox (Workspace.inUse_keeps _ w) hcalls
    refine ⟨(hends w hw).2.1, (hends w hw).2.2, fun hreadable => ?_⟩
    obtain ⟨x, w', hrun, -⟩ := (hsucceeds hreadable).exists_run hw
    exact ⟨x, congrArg Prod.fst hrun⟩
  · obtain ⟨taken, first, g, codec, htaken, hfirst, hgeometry, hcodec⟩ := h.exists_start
    refine ⟨first, g, codec, hfirst, hgeometry, fun haxes hchunk hmeta hcalls => ?_⟩
    obtain ⟨hend, hprogress⟩ :=
      h.run_materialize htaken hfirst hgeometry hcodec haxes hchunk hmeta hcalls
    refine ⟨fun e he => ?_, hprogress⟩
    obtain ⟨a, w', hok, -⟩ | ⟨e', w', herror, hforeseen⟩ := hend
    · rw [outcome, hok] at he
      cases he
    · rw [outcome, herror] at he
      cases he
      exact hforeseen

/-- An expression over whole items of arrays in memory. -/
structure InMemory (w : Workspace) (e : Expr) : Prop where
  built : WellBuilt w e
  leaves : ∀ l ∈ e.leaves, ∃ a contents, w.arrays.find? l.name = some a ∧
    NDArray.Sound a contents ∧ l.part = a.geometry.wholeItem

theorem inMemory_array {name : String} {a : NDArray} {contents : Nat → Bytes}
    (ha : w.arrays.find? name = some a) (hsound : a.Sound contents)
    (h : ofArray name a.geometry = .ok e) : e.InMemory w := by
  refine ⟨.array ha hsound.regular h, fun l hl => ?_⟩
  unfold ofArray at h
  split at h
  · cases h
    obtain rfl := List.mem_singleton.1 hl
    exact ⟨a, contents, ha, hsound, rfl⟩
  · cases h

theorem inMemory_literal (value : Literal) : (literal value).InMemory w :=
  ⟨.literal value, fun _ hl => absurd hl List.not_mem_nil⟩

theorem inMemory_call {f : UserFunction} {inputs : List Expr} (hinputs : ∀ x ∈ inputs, x.InMemory w)
    (h : mkCall f inputs = .ok e) : e.InMemory w := by
  refine ⟨.call (fun x hx => (hinputs x hx).built) h, fun l hl => ?_⟩
  obtain ⟨type, -, h⟩ := bind_eq_ok.1 h
  cases h
  obtain ⟨x, hx, hl⟩ := mem_leavesOfAll.1 hl
  exact (hinputs x hx).leaves l hl

theorem InMemory.drawn (h : e.InMemory w) : e.Drawn w := by
  refine ⟨h.built, fun l hl => ?_⟩
  obtain ⟨a, contents, ha, hsound, hpart⟩ := h.leaves l hl
  exact ⟨a, ha, hsound.formed, .inl hpart⟩

/-- Everything in memory can be read. -/
theorem InMemory.readable (h : e.InMemory w) (hbox : box.Inside e.shape) :
    ∀ l ∈ e.leaves, l.Readable w box := by
  intro l hl a ha i hi
  obtain ⟨a', contents, ha', hsound, -⟩ := h.leaves l hl
  obtain ⟨-, -, a'', ha'', -, hshape⟩ := h.built.typed.leaf hl
  rw [ha] at ha' ha''
  cases ha'
  cases ha''
  have hinside := inside_operandBox (h.built.typed.stretches_leaf hl) hbox
  have hfits : (Selection.ofBox (operandBox l.type.shape box)).Fits a.shape := by
    rw [NDArray.shape, ← hshape]
    exact Selection.fits_ofBox hinside
  exact hsound.hitsReadable hfits hi

/-- The user functions of an expression succeed if they do so on inputs of all kinds. -/
theorem callsSucceed_of_functions (h : Typed w root)
    (hfunctions : ∀ f ∈ root.functions, ∀ kinds, f.Succeeds inv kinds) : root.CallsSucceed inv :=
  fun f _ inputs hf =>
    hfunctions f ((hf.inherits h).functions f List.mem_cons_self) (inputs.map Expr.kind)

/-- Three bytes plus five, over the last two of them and as a new array. -/
theorem typing_sound_three_bytes :
    ∃ x e, NDArray.ofBytes #[1, 2, 3] [3] (.scalar .uint8) { chunks := some [2] } = .ok x ∧
      Draft.call (.sum "sum" .uint8) [ofArray "x" x.geometry, .ok (.literal (.int 5))] = .ok e ∧
      (∃ y, outcome (eval [⟨1, 3⟩] e) { arrays := [("x", x)] } = .ok y ∧ Conforms [⟨1, 3⟩] e y) ∧
      ∃ a w', Action.run (materialize {} e) { arrays := [("x", x)] } = (.ok a, w') ∧
        a.geometry = ⟨[3], .scalar .uint8, [2], [2]⟩ := by
  obtain ⟨x, contents, hx, hgeometry, hsound⟩ := exists_threeBytes
  have hleaf := ofArray_threeBytes hgeometry
  have hmemory : threeBytesPlusFive.InMemory { arrays := [("x", x)] } := by
    refine inMemory_call (List.forall_mem_cons.2 ⟨inMemory_array rfl hsound hleaf, ?_⟩)
      (show mkCall (.sum "sum" .uint8) [threeBytes, .literal (.int 5)] = .ok _ from rfl)
    exact List.forall_mem_singleton.2 (inMemory_literal _)
  have hcalls (inv : Workspace → Prop) : threeBytesPlusFive.CallsSucceed inv := by
    refine callsSucceed_of_functions hmemory.built.typed fun f hf => ?_
    obtain rfl := List.mem_singleton.1 hf
    exact UserFunction.succeeds_sum "sum" .uint8
  obtain ⟨heval, first, g, codec, hfirst, hout, hmaterialize⟩ := typing_sound hmemory.drawn
  have hbox : Box.InReach [⟨1, 3⟩] [3] :=
    ⟨.cons (by decide) .nil, List.forall_mem_singleton.2 (by decide), by decide, by decide⟩
  obtain ⟨hconforms, -, hprogress⟩ := heval threeBytesPlusFive [⟨1, 3⟩] .root hbox (hcalls _)
  obtain ⟨y, hy⟩ := hprogress (hmemory.readable hbox.inside)
  have hg : g = ⟨[3], .scalar .uint8, [2], [2]⟩ := by
    have hsome : first = some x := (Except.ok.inj hfirst).symm
    have hinherited : outputGeometry threeBytesPlusFive {} (some x) =
        .ok (⟨[3], .scalar .uint8, [2], [2]⟩, x.store.codec) := by
      have hrank : (x.shape.length == threeBytesPlusFive.shape.length) = true := by
        rw [NDArray.shape, hgeometry]
        rfl
      rw [outputGeometry, Option.filter, if_pos hrank, Option.map_some, Option.map_some, hgeometry]
      rfl
    rw [hsome, hinherited] at hout
    cases hout
    rfl
  subst hg
  obtain ⟨-, hresult⟩ := hmaterialize (by decide) (by decide) (by decide +kernel) (hcalls _)
  have hgrid : ChunkGrid.Regular ⟨[3], [2]⟩ := List.Forall₂.cons Nat.two_pos List.Forall₂.nil
  exact ⟨x, _, hx, by rw [hleaf]; rfl, ⟨y, hy, hconforms y hy⟩,
    hresult fun i hi => hmemory.readable (ChunkGrid.chunkBox_inside hgrid hi)⟩

/-! ## Beyond signed words -/

/-- Nothing is stretched to a shape whose elements cannot be counted. -/
theorem broadcastTo_of_not_countable (x : Operand) {target : Shape}
    (h : target.isCountable = false) : ∃ fault, x.broadcastTo target = .error (.shape fault) := by
  have hdense {α : Type} [Inhabited α] (a : Dense α) (f : Dense α → Operand) :
      ∃ fault, (a.broadcastTo target).map f = .error (.shape fault) := by
    have hrefused : ¬ (a.shape.stretchesTo target = true ∧ target.isCountable = true) := by simp [h]
    rw [Dense.broadcastTo, if_neg hrefused]
    exact ⟨_, rfl⟩
  cases x <;> exact hdense _ _

/-- A user function is refused a part whose elements cannot be counted as soon as its first input is to
be stretched over it. -/
theorem outcome_call_of_not_countable {f : UserFunction} {type : ExprType} {inputs : List Expr}
    {x : Operand} (hx : outcome (eval box e) w = .ok x)
    (hcount : (operandBox type.shape box).shape.isCountable = false) :
    ∃ fault, outcome (eval box (.call f type (e :: inputs))) w = .error (.shape fault) := by
  obtain ⟨fault, hfault⟩ := broadcastTo_of_not_countable x hcount
  have hrun : run (eval box e) w = (.ok x, (run (eval box e) w).2) := Prod.ext hx rfl
  have hinputs : run (evalInputs box (operandBox type.shape box).shape (e :: inputs)) w =
      (.error (.shape fault), (run (eval box e) w).2) := by
    rw [evalInputs, run_bind_of_ok hrun, run_bind, run_liftM, hfault]
  refine ⟨fault, ?_⟩
  rw [eval, outcome, run_bind, hinputs]

/-- A box of an expression, inside its shape and empty along no axis, where everything can be read and
all user functions succeed, but the evaluation ends in a mismatch of shapes. -/
structure Mismatch (w : Workspace) (root : Expr) (box : Box) : Prop where
  drawn : root.Drawn w
  calls : ∀ inv, root.CallsSucceed inv
  inside : box.Inside root.shape
  nonempty : box.Nonempty
  readable : ∀ l ∈ root.leaves, l.Readable w box
  fails : ∃ fault, outcome (eval box root) w = .error (.shape fault)

/-- The bytes of an array as an expression. -/
def bytesOf (name : String) (shape : Shape) : Expr :=
  .array name ⟨0, 1⟩ ⟨shape, .uint8, false⟩

theorem exists_zeroBytes {shape chunks : Shape} (hresolve : Geometry.resolve shape (.scalar .uint8)
      (some chunks) (some chunks) = .ok ⟨shape, .scalar .uint8, chunks, chunks⟩)
    (hchunk : Geometry.chunkSize ⟨shape, .scalar .uint8, chunks, chunks⟩ < 2 ^ 32)
    (hmeta : (Geometry.toMeta ⟨shape, .scalar .uint8, chunks, chunks⟩).encode.size < 2 ^ 32) :
    ∃ a, NDArray.zeros shape (.scalar .uint8) { chunks := some chunks, blocks := some chunks } = .ok a ∧
      a.geometry = ⟨shape, .scalar .uint8, chunks, chunks⟩ ∧
      (∀ name, ofArray name a.geometry = .ok (bytesOf name shape)) ∧ ∃ contents, a.Sound contents := by
  obtain ⟨a, ha, hgeometry, hsound⟩ := @NDArray.exists_zeros shape (.scalar .uint8)
    { chunks := some chunks, blocks := some chunks } _ (by decide) hresolve (by rfl) hchunk hmeta
  refine ⟨a, ha, hgeometry, fun name => ?_, _, hsound⟩
  rw [hgeometry]
  rfl

/-- The first byte along an axis of `2 ^ 63` bytes is not found: the axis is taken to be empty. -/
theorem outcome_eval_bytesOf_long {name : String} {a : NDArray} {chunks : Shape}
    (ha : w.arrays.find? name = some a)
    (hgeometry : a.geometry = ⟨[2 ^ 63], .scalar .uint8, chunks, chunks⟩) :
    outcome (eval [⟨0, 1⟩] (bytesOf name [2 ^ 63])) w = .error (.shape .tooFewElements) := by
  have hresolve : (Region.ofBox (operandBox [2 ^ 63] [⟨0, 1⟩])).resolve a.geometry.shape =
      .ok [⟨0, 0, 1⟩] := by
    rw [hgeometry]
    rfl
  have hpart : ¬ a.geometry.itemsize < 0 + 1 := by
    rw [hgeometry]
    exact Nat.lt_irrefl 1
  rw [bytesOf, eval, outcome_bind_liftM, outcome_read ha, Geometry.outcome_readBox, hresolve]
  dsimp only [bind, Except.bind]
  rw [Geometry.readParts, if_neg hpart]
  rfl

/-- Where signed words are too short, shapes do not match: the sum of `2 ^ 21` bytes along each of three
axes has `2 ^ 63` elements, and an axis of `2 ^ 63` bytes has no first byte. -/
theorem typing_sound_fails_beyond_words :
    (∃ a b c e,
      NDArray.zeros [2 ^ 21] (.scalar .uint8)
        { chunks := some [2 ^ 21], blocks := some [2 ^ 21] } = .ok a ∧
      NDArray.zeros [2 ^ 21, 1] (.scalar .uint8)
        { chunks := some [2 ^ 21, 1], blocks := some [2 ^ 21, 1] } = .ok b ∧
      NDArray.zeros [2 ^ 21, 1, 1] (.scalar .uint8)
        { chunks := some [2 ^ 21, 1, 1], blocks := some [2 ^ 21, 1, 1] } = .ok c ∧
      Draft.call (.sum "s" .uint8)
        [ofArray "a" a.geometry, ofArray "b" b.geometry, ofArray "c" c.geometry] = .ok e ∧
      Mismatch { arrays := [("a", a), ("b", b), ("c", c)] } e
        [⟨0, 2 ^ 21⟩, ⟨0, 2 ^ 21⟩, ⟨0, 2 ^ 21⟩]) ∧
    ∃ a e,
      NDArray.zeros [2 ^ 63] (.scalar .uint8)
        { chunks := some [2 ^ 21], blocks := some [2 ^ 21] } = .ok a ∧
      ofArray "a" a.geometry = .ok e ∧ Mismatch { arrays := [("a", a)] } e [⟨0, 1⟩] := by
  constructor
  · obtain ⟨a, ha, hgeometry, hleafa, _, hsa⟩ :=
      @exists_zeroBytes [2 ^ 21] [2 ^ 21] (by rfl) (by decide) (by decide +kernel)
    obtain ⟨b, hb, -, hleafb, _, hsb⟩ :=
      @exists_zeroBytes [2 ^ 21, 1] [2 ^ 21, 1] (by rfl) (by decide) (by decide +kernel)
    obtain ⟨c, hc, -, hleafc, _, hsc⟩ :=
      @exists_zeroBytes [2 ^ 21, 1, 1] [2 ^ 21, 1, 1] (by rfl) (by decide) (by decide +kernel)
    have hmemory := inMemory_call (List.forall_mem_cons.2
        ⟨@inMemory_array { arrays := [("a", a), ("b", b), ("c", c)] } _ _ _ _ rfl hsa (hleafa "a"),
          List.forall_mem_cons.2 ⟨inMemory_array rfl hsb (hleafb "b"),
            List.forall_mem_singleton.2 (inMemory_array rfl hsc (hleafc "c"))⟩⟩)
      (show mkCall (.sum "s" .uint8) [bytesOf "a" [2 ^ 21], bytesOf "b" [2 ^ 21, 1],
        bytesOf "c" [2 ^ 21, 1, 1]] = .ok _ from rfl)
    have hinside : Box.Inside [⟨0, 2 ^ 21⟩, ⟨0, 2 ^ 21⟩, ⟨0, 2 ^ 21⟩] [2 ^ 21, 2 ^ 21, 2 ^ 21] :=
      .cons (by decide) (.cons (by decide) (.cons (by decide) .nil))
    have hnonempty : Box.Nonempty [⟨0, 2 ^ 21⟩, ⟨0, 2 ^ 21⟩, ⟨0, 2 ^ 21⟩] := by
      simp [Box.Nonempty]
    refine ⟨a, b, c, _, ha, hb, hc, by rw [hleafa, hleafb, hleafc]; rfl, hmemory.drawn,
      fun inv => callsSucceed_of_functions hmemory.built.typed fun f hf => ?_, hinside, hnonempty,
      hmemory.readable hinside, ?_⟩
    · obtain rfl := List.mem_singleton.1 hf
      exact UserFunction.succeeds_sum "s" .uint8
    · have hfirst : ∃ x, outcome (eval [⟨0, 2 ^ 21⟩, ⟨0, 2 ^ 21⟩, ⟨0, 2 ^ 21⟩] (bytesOf "a" [2 ^ 21]))
          { arrays := [("a", a), ("b", b), ("c", c)] } = .ok x := by
        refine exists_eval_of_sound rfl hsa (by rw [hgeometry]) rfl ?_
          (hmemory.built.typed.stretches_leaf List.mem_cons_self) hinside hnonempty (by decide)
        rw [hgeometry]
        decide
      obtain ⟨x, hx⟩ := hfirst
      exact outcome_call_of_not_countable hx (by decide)
  · obtain ⟨a, ha, hgeometry, hleaf, _, hsound⟩ :=
      @exists_zeroBytes [2 ^ 63] [2 ^ 21] (by rfl) (by decide) (by decide +kernel)
    have hmemory := @inMemory_array { arrays := [("a", a)] } _ _ _ _ rfl hsound (hleaf "a")
    have hinside : Box.Inside [⟨0, 1⟩] [2 ^ 63] := .cons (by decide) .nil
    refine ⟨a, _, ha, hleaf "a", hmemory.drawn,
      fun inv => callsSucceed_of_functions hmemory.built.typed fun f hf => absurd hf List.not_mem_nil,
      hinside, List.forall_mem_singleton.2 (by decide), hmemory.readable hinside, ?_⟩
    exact ⟨_, outcome_eval_bytesOf_long rfl hgeometry⟩

end Expr

end ChunkedArray
