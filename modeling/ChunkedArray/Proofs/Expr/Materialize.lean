import ChunkedArray.Expr.Evaluate
import ChunkedArray.Proofs.Array.Build
import ChunkedArray.Proofs.Workspace
import Mathlib.Tactic.Choose

/-!
# Materialized expressions

To make an expression an array, its chunks are evaluated, padded, compressed and placed into reserved
slots one after the other. The store that they are placed into is not part of the workspace, so
whatever the evaluation does, a materialized array is in memory, and its chunks are the padded
evaluated parts.
-/

namespace ChunkedArray

namespace Expr

open ChunkedArray.Action

variable {root : Expr} {params : EvalParams} {w w' : Workspace}

/-! ## What is only looked up -/

theorem isQuery_array (name : String) : IsQuery Eq (Workspace.array name) := by
  constructor
  · intro w
    rw [Workspace.run_array]
  · rintro w _ rfl
    rfl

/-- The revision of an array, with its name. -/
def takeRevision (name : String) : WorkspaceM (String × Nat) := do
  let a ← Workspace.array name
  pure (name, a.store.revision)

theorem revisions_eq (root : Expr) : revisions root = root.arrays.mapM takeRevision := rfl

theorem isQuery_takeRevision (name : String) : IsQuery Eq (takeRevision name) :=
  (isQuery_array name).bind (fun _ _ _ h h' => h.trans h') fun a =>
    isQuery_pure (fun _ => rfl) (name, a.store.revision)

theorem isQuery_takeRevisions (names : List String) : IsQuery Eq (names.mapM takeRevision) :=
  IsQuery.mapM (fun _ => rfl) (fun _ _ _ h h' => h.trans h') isQuery_takeRevision names

theorem isQuery_revisions (root : Expr) : IsQuery Eq (revisions root) :=
  isQuery_takeRevisions root.arrays

theorem isQuery_checkRevisions (taken : List (String × Nat)) :
    IsQuery Eq (checkRevisions taken) := by
  refine IsQuery.forM (fun _ => rfl) (fun _ _ _ h h' => h.trans h') (fun p => ?_) taken
  obtain ⟨name, revision⟩ := p
  exact (isQuery_array name).bind (fun _ _ _ h h' => h.trans h') fun a =>
    isQuery_liftM (fun _ => rfl) (a.store.checkRevision revision)

theorem isQuery_firstArray (root : Expr) : IsQuery Eq (firstArray root) := by
  rw [firstArray]
  cases root.arrays with
  | nil => exact isQuery_pure (fun _ => rfl) none
  | cons name _ =>
    dsimp only
    rw [map_eq_pure_bind]
    exact (isQuery_array name).bind (fun _ _ _ h h' => h.trans h') fun a =>
      isQuery_pure (fun _ => rfl) (some a)

section Lookup

variable {reads : String → Prop}

theorem outcome_takeRevision (name : String) (w : Workspace) :
    outcome (takeRevision name) w = (w.lookup name).map fun a => (name, a.store.revision) := by
  rw [outcome, takeRevision, run_bind, Workspace.run_array]
  cases w.lookup name <;> rfl

theorem outcome_takeRevisions_cons (name : String) (names : List String) (w : Workspace) :
    outcome ((name :: names).mapM takeRevision) w = (do
      let a ← w.lookup name
      let taken ← outcome (names.mapM takeRevision) w
      pure ((name, a.store.revision) :: taken)) := by
  have hrest := isQuery_takeRevisions names
  have hpure (p : String × Nat) (ps : List (String × Nat)) :
      IsQuery Eq (pure (p :: ps) : WorkspaceM (List (String × Nat))) :=
    isQuery_pure (fun _ => rfl) _
  rw [List.mapM_cons, outcome_bind (isQuery_takeRevision name) fun p =>
    hrest.bind (fun _ _ _ h h' => h.trans h') (hpure p), outcome_takeRevision]
  cases w.lookup name with
  | error e => rfl
  | ok a => exact outcome_bind hrest (hpure _) w

theorem outcome_checkRevisions_cons (name : String) (revision : Nat) (rest : List (String × Nat))
    (w : Workspace) :
    outcome (checkRevisions ((name, revision) :: rest)) w = (do
      let a ← w.lookup name
      a.store.checkRevision revision
      outcome (checkRevisions rest) w) := by
  have hcheck (a : NDArray) : IsQuery Eq (liftM (a.store.checkRevision revision) : WorkspaceM Unit) :=
    isQuery_liftM (fun _ => rfl) _
  have hfirst := (isQuery_array name).bind (fun _ _ _ h h' => h.trans h') hcheck
  rw [← Workspace.outcome_array]
  refine (outcome_bind hfirst (fun _ => isQuery_checkRevisions rest) w).trans ?_
  rw [outcome_bind (isQuery_array name) hcheck]
  cases outcome (Workspace.array name) w with
  | error e => rfl
  | ok a =>
    rw [show ∀ f : NDArray → Result Unit, (Except.ok a >>= f) = f a from fun _ => rfl,
      outcome_liftM]
    rfl

/-- Revisions that were taken in one workspace are those of every workspace of the same revisions, and to
check them there succeeds. -/
theorem revisions_of_same (h : Workspace.SameRevisions reads w w')
    (hreads : ∀ name ∈ root.arrays, reads name) {taken : List (String × Nat)}
    (htaken : outcome (revisions root) w = .ok taken) :
    outcome (revisions root) w' = .ok taken ∧ outcome (checkRevisions taken) w' = .ok () := by
  rw [revisions_eq] at htaken ⊢
  generalize root.arrays = names at hreads htaken ⊢
  -- On the names of the arrays, which are looked up one by one.
  induction names generalizing taken with
  | nil =>
    cases htaken
    exact ⟨rfl, rfl⟩
  | cons name names ih =>
    obtain ⟨hname, hnames⟩ := List.forall_mem_cons.1 hreads
    rw [outcome_takeRevisions_cons] at htaken ⊢
    obtain ⟨a, ha, htaken⟩ := bind_eq_ok.1 htaken
    obtain ⟨rest, hrest, htaken⟩ := bind_eq_ok.1 htaken
    cases htaken
    obtain ⟨hrest', hcheck⟩ := ih hnames hrest
    obtain ⟨a', ha', hrevision⟩ := h.exists_lookup hname ha
    constructor
    · rw [ha', hrest', ← hrevision]
      rfl
    · rw [outcome_checkRevisions_cons, ha', hcheck, ← hrevision]
      exact bind_eq_ok.2 ⟨a', rfl, bind_eq_ok.2 ⟨(), if_pos rfl, rfl⟩⟩

/-- The first array of an expression gives the result the same geometry in a like workspace. -/
theorem firstArray_of_alike (h : Workspace.Alike reads w w')
    (hreads : ∀ name ∈ root.arrays, reads name) {first : Option NDArray}
    (hfirst : outcome (firstArray root) w = .ok first) :
    ∃ first', outcome (firstArray root) w' = .ok first' ∧
      outputGeometry root params first' = outputGeometry root params first := by
  rw [firstArray] at hfirst ⊢
  cases harrays : root.arrays with
  | nil =>
    rw [harrays] at hfirst
    exact ⟨first, hfirst, rfl⟩
  | cons name names =>
    rw [harrays] at hfirst hreads
    have hlookup (w : Workspace) :
        outcome (some <$> Workspace.array name) w = (w.lookup name).map some := by
      rw [outcome, run_map, Workspace.run_array]
    dsimp only at hfirst ⊢
    rw [hlookup] at hfirst ⊢
    obtain ⟨a, ha, rfl⟩ := map_eq_ok.1 hfirst
    obtain ⟨a', ha', halike⟩ := h.exists_lookup (hreads name List.mem_cons_self) ha
    refine ⟨some a', by rw [ha']; rfl, ?_⟩
    have hshape : a'.shape = a.shape := congrArg Geometry.shape halike.geometry
    unfold outputGeometry
    by_cases hrank : (a.shape.length == root.shape.length) = true
    · simp only [Option.filter, hshape, hrank, halike.geometry, halike.store.codec, if_true,
        Option.map_some]
    · simp only [Option.filter, hshape, hrank, halike.store.codec, Bool.false_eq_true, if_false,
        Option.map_some]

end Lookup

/-- The geometry of a result is resolved from the shape and the kind of its expression. -/
theorem resolve_of_outputGeometry {first : Option NDArray} {g : Geometry} {codec : CodecConfig}
    (h : outputGeometry root params first = .ok (g, codec)) :
    ∃ chunks blocks, Geometry.resolve root.shape (.scalar root.kind) chunks blocks = .ok g := by
  obtain ⟨resolved, hresolve, hpair⟩ := bind_eq_ok.1 h
  cases hpair
  exact ⟨_, _, hresolve⟩

/-- A result has the shape and the kind of its expression, and no axis of its chunks is empty. -/
theorem of_outputGeometry {first : Option NDArray} {g : Geometry} {codec : CodecConfig}
    (h : outputGeometry root params first = .ok (g, codec)) :
    g.shape = root.shape ∧ g.dtype = .scalar root.kind ∧ g.grid.Regular := by
  obtain ⟨chunks, blocks, hresolve⟩ := resolve_of_outputGeometry h
  exact Geometry.of_resolve hresolve

theorem regular_of_outputGeometry {first : Option NDArray} {g : Geometry} {codec : CodecConfig}
    (h : outputGeometry root params first = .ok (g, codec)) : g.Regular := by
  obtain ⟨-, hdtype, hgrid⟩ := of_outputGeometry h
  refine ⟨hgrid, ?_⟩
  rw [Geometry.itemsize, hdtype]
  exact ScalarKind.itemsize_pos root.kind

/-- What a materialization did, if it succeeded. -/
theorem run_materialize_eq_ok {a : NDArray}
    (h : Action.run (materialize params root) w = (.ok a, w')) :
    ∃ taken first codec new start reserved store,
      outcome (revisions root) w = .ok taken ∧ outcome (firstArray root) w = .ok first ∧
      outputGeometry root params first = .ok (a.geometry, codec) ∧
      NDArray.allocate a.geometry codec = .ok new ∧
      Action.run (Store.reserve a.geometry.nchunks) new.store = (.ok start, reserved) ∧
      Action.run (fillChunks root a.geometry start reserved (List.range a.geometry.nchunks)) w =
        (.ok store, w') ∧
      outcome (checkRevisions taken) w' = .ok () ∧ a = { new with store } := by
  obtain ⟨taken, w₁, htaken, h⟩ := exists_of_run_bind_eq_ok h
  rw [(isQuery_revisions root).run_eq, Prod.mk.injEq] at htaken
  obtain ⟨htaken, rfl⟩ := htaken
  obtain ⟨first, w₂, hfirst, h⟩ := exists_of_run_bind_eq_ok h
  rw [(isQuery_firstArray root).run_eq, Prod.mk.injEq] at hfirst
  obtain ⟨hfirst, rfl⟩ := hfirst
  obtain ⟨⟨g, codec⟩, _, hgeometry, h⟩ := exists_of_run_bind_eq_ok h
  rw [run_liftM, Prod.mk.injEq] at hgeometry
  obtain ⟨hgeometry, rfl⟩ := hgeometry
  obtain ⟨new, _, hnew, h⟩ := exists_of_run_bind_eq_ok h
  rw [run_liftM, Prod.mk.injEq] at hnew
  obtain ⟨hnew, rfl⟩ := hnew
  obtain ⟨⟨start, reserved⟩, _, hreserve, h⟩ := exists_of_run_bind_eq_ok h
  rw [run_liftM, Prod.mk.injEq] at hreserve
  obtain ⟨hreserve, rfl⟩ := hreserve
  obtain ⟨store, w₃, hfill, h⟩ := exists_of_run_bind_eq_ok h
  obtain ⟨_, w₄, hcheck, h⟩ := exists_of_run_bind_eq_ok h
  rw [(isQuery_checkRevisions taken).run_eq, Prod.mk.injEq] at hcheck
  obtain ⟨hcheck, rfl⟩ := hcheck
  cases h
  have hg := (NDArray.fresh_of_allocate hnew).geometry
  subst hg
  exact ⟨taken, first, codec, new, start, reserved, store, htaken, hfirst, hgeometry, hnew,
    Store.exec_eq_ok_iff.1 hreserve, hfill, hcheck, rfl⟩

/-! ## Filling slots -/

/-- The bytes of a chunk of a result from those of its part of the domain. -/
def paddedChunk (g : Geometry) (i : Nat) (raw : Bytes) : Bytes :=
  padToLayout raw (Box.shape (g.grid.chunkBox i)) g.chunks g.itemsize

/-- If every evaluation of a part keeps an invariant of the workspace and gives bytes with a
property, the filled slots hold such bytes, padded, and all other slots are as before. -/
theorem run_fillChunks {inv : Workspace → Prop} {post : Nat → Bytes → Prop} {g : Geometry}
    (hstep : ∀ w raw w' i, inv w →
      Action.run (evalBytes root (g.grid.chunkBox i)) w = (.ok raw, w') → inv w' ∧ post i raw)
    {chunks : List Nat} {start : Nat} {out out' : Store} (hfixed : out.allowResize = false)
    (hmemory : chunks ≠ [] → out.chunkSize < 2 ^ 63) (hw : inv w)
    (h : Action.run (fillChunks root g start out chunks) w = (.ok out', w')) :
    inv w' ∧ out.SameKind out' ∧ out'.nchunks = out.nchunks ∧
      (∀ j, (∀ i ∈ chunks, j ≠ start + i) → out'.table.slots[j]? = out.table.slots[j]?) ∧
      ∀ i ∈ chunks, ∃ raw c, post i raw ∧
        Chunk.compress (paddedChunk g i raw) out.codec = .ok c ∧ c.nbytes = out.chunkSize ∧
        out'.table.slots[start + i]? = some (.loaded c) := by
  -- On the chunks left. The invariant holds between two evaluations, and a filled slot is not touched again.
  induction chunks generalizing out w with
  | nil =>
    cases h
    exact ⟨hw, .refl _, rfl, fun _ _ => rfl, fun i hi => absurd hi List.not_mem_nil⟩
  | cons i rest ih =>
    obtain ⟨raw, w₁, heval, h⟩ := exists_of_run_bind_eq_ok h
    obtain ⟨hw₁, hraw⟩ := hstep w raw w₁ i hw heval
    obtain ⟨c, _, hcompress, h⟩ := exists_of_run_bind_eq_ok h
    rw [run_liftM, Prod.mk.injEq, mapError_eq_ok] at hcompress
    obtain ⟨hcompress, rfl⟩ := hcompress
    obtain ⟨⟨⟨⟩, out₁⟩, _, hinsert, h⟩ := exists_of_run_bind_eq_ok h
    rw [run_liftM, Prod.mk.injEq, Store.exec_eq_ok_iff] at hinsert
    obtain ⟨hinsert, rfl⟩ := hinsert
    have hword := hmemory (List.cons_ne_nil i rest)
    obtain ⟨hsize, hreserved, hkind₁, hslots₁⟩ :=
      Store.run_insertChunk hfixed hword hcompress hinsert
    obtain ⟨hw', hkind, hnchunks, hother, hfilled⟩ := ih (hkind₁.allowResize.trans hfixed)
      (fun _ => by rwa [hkind₁.chunkSize]) hw₁ h
    have hnchunks₁ : out₁.nchunks = out.nchunks := by
      rw [Store.nchunks, hslots₁, Array.size_setIfInBounds, Store.nchunks]
    refine ⟨hw', hkind₁.trans hkind, hnchunks.trans hnchunks₁, fun j hj => ?_, fun k hk => ?_⟩
    · rw [hother j fun k hk => hj k (List.mem_cons_of_mem _ hk), hslots₁,
        Array.getElem?_setIfInBounds_ne (hj i List.mem_cons_self).symm]
    · by_cases hrest : k ∈ rest
      · obtain ⟨raw', c', hraw', hcompress', hsize', hslot'⟩ := hfilled k hrest
        exact ⟨raw', c', hraw', hkind₁.codec ▸ hcompress', hkind₁.chunkSize ▸ hsize', hslot'⟩
      · -- No later chunk has the slot of this one.
        obtain rfl : k = i := (List.mem_cons.1 hk).resolve_right hrest
        refine ⟨raw, c, hraw, hcompress, hsize, ?_⟩
        rw [hother _ fun j hj heq => hrest (by rwa [Nat.add_left_cancel heq]), hslots₁]
        have hlt : start + k < out.table.slots.size := by
          by_contra hge
          rw [Array.getElem?_eq_none (by omega)] at hreserved
          cases hreserved
        simp [hlt]

/-- A materialized array is in memory. Its geometry is the one that its operands and the parameters
give, and its chunks are the padded evaluated parts. -/
theorem sound_of_materialize (inv : Workspace → Prop) (post : Nat → Bytes → Prop) {a : NDArray}
    (hstep : ∀ w raw w' i, inv w →
      Action.run (evalBytes root (a.geometry.grid.chunkBox i)) w = (.ok raw, w') →
        inv w' ∧ post i raw)
    (hw : inv w) (h : Action.run (materialize params root) w = (.ok a, w'))
    (hmemory : a.geometry.FitsMemory) :
    inv w' ∧ ∃ raws : Nat → Bytes, (∀ i < a.geometry.nchunks, post i (raws i)) ∧
      a.Sound fun i => paddedChunk a.geometry i (raws i) := by
  obtain ⟨taken, first, codec, new, start, reserved, store, -, -, hgeometry, hnew, hreserve, hfill, -,
    ha⟩ := run_materialize_eq_ok h
  obtain ⟨-, -, hg⟩ := of_outputGeometry hgeometry
  obtain ⟨tile, block, hresolve⟩ := resolve_of_outputGeometry hgeometry
  have hfresh := NDArray.fresh_of_allocate hnew
  obtain ⟨reserved', hreserve', hkind₁, hslots⟩ :=
    Store.run_reserve new.store a.geometry.nchunks
  rw [hreserve'] at hreserve
  cases hreserve
  obtain ⟨hw', hkind, hnchunks, -, hfilled⟩ :=
    run_fillChunks hstep (hkind₁.allowResize.trans hfresh.allowResize) (fun hne => by
      rw [hkind₁.chunkSize, hfresh.chunkSize]
      exact hmemory (by simpa [Nat.pos_iff_ne_zero] using hne)) hw hfill
  have hstart : new.store.nchunks = 0 := by rw [Store.nchunks, hfresh.slots]; rfl
  have hchunk (i : Nat) (hi : i < a.geometry.nchunks) := hfilled i (List.mem_range.2 hi)
  simp only [hstart, Nat.zero_add, hkind₁.codec, hkind₁.chunkSize, hfresh.chunkSize] at hchunk
  -- The evaluated bytes of every chunk, as one function of its number.
  choose! raws cs hpost hcompress hsize hslot using hchunk
  have hbytes (i : Nat) (hi : i < a.geometry.nchunks) :
      (paddedChunk a.geometry i (raws i)).size = a.geometry.chunkSize := by
    rw [← Chunk.nbytes_of_compress (hcompress i hi), hsize i hi]
  have hstore : a.store = store := by rw [ha]
  have hgrown : a.Grown := by
    have hfilled := (NDArray.grown_of_allocate hresolve hnew).of_sameKind (hkind₁.trans hkind)
    rwa [← ha] at hfilled
  refine ⟨hw', raws, hpost, ⟨hg, hfresh.itemsize_pos⟩, hgrown, ?_, ?_, fun hpos => ?_,
    fun i hi => ?_, hbytes⟩
  · rw [hstore, hnchunks, Store.nchunks, hslots, hfresh.slots]
    simp
  · rw [hstore, hkind.codec, hkind₁.codec]
    exact hfresh.typesize_pos
  · have hfirst := Chunk.chosenBlockSize_lt_of_compress (hcompress 0 hpos)
    rwa [hbytes 0 hpos, ← hkind₁.codec, ← hkind.codec, ← hstore] at hfirst
  · refine ⟨cs i hi, by rw [hstore]; exact hslot i hi, ?_⟩
    exact Chunk.holds_compress hfresh.typesize_pos
      (by rw [hbytes i hi]; exact hmemory (by omega)) (hcompress i hi)

/-! ## Progress -/

/-- Chunks whose evaluation keeps an invariant and gives all their bytes fill the slots that are reserved
for them; nothing else can fail. -/
theorem ends_fillChunks {inv : Workspace → Prop} {fault : Error → Prop} {g : Geometry} {start : Nat}
    {chunks : List Nat} {out : Store} (hnodup : chunks.Nodup)
    (heval : ∀ i ∈ chunks, Ends inv (fun raw => (paddedChunk g i raw).size = g.chunkSize) fault
      (evalBytes root (g.grid.chunkBox i)))
    (hreserved : ∀ i ∈ chunks, out.table.slots[start + i]? = some .reserved)
    (hfixed : out.allowResize = false) (hsize : out.chunkSize = g.chunkSize)
    (hmemory : g.chunkSize < 2 ^ 63)
    (hblock : Chunk.chosenBlockSize g.chunkSize out.codec < 2 ^ 32) :
    Ends inv (fun _ => True) fault (fillChunks root g start out chunks) := by
  -- On the chunks left: their slots stay reserved while those of the others are filled.
  induction chunks generalizing out with
  | nil => exact ends_pure trivial
  | cons i chunks ih =>
    obtain ⟨hi, hnodup⟩ := List.nodup_cons.1 hnodup
    obtain ⟨hbytes, heval⟩ := List.forall_mem_cons.1 heval
    obtain ⟨hslot, hreserved⟩ := List.forall_mem_cons.1 hreserved
    rw [fillChunks]
    refine hbytes.bind fun raw hpadded => ?_
    obtain ⟨c, hc⟩ := @Chunk.exists_compress_eq_ok (paddedChunk g i raw) out.codec
      (by rwa [hpadded])
    have hnbytes : c.nbytes = out.chunkSize := by
      rw [Chunk.nbytes_of_compress hc, hpadded, hsize]
    obtain ⟨out₁, hinsert⟩ := Store.exists_run_insertChunk hnbytes hslot
    obtain ⟨-, -, hkind, hslots⟩ := Store.run_insertChunk hfixed (by rwa [hsize]) hc hinsert
    have hreserved₁ (j : Nat) (hj : j ∈ chunks) : out₁.table.slots[start + j]? = some .reserved := by
      have hne : start + i ≠ start + j := fun heq => hi (by rwa [Nat.add_left_cancel heq])
      rw [hslots, Array.getElem?_setIfInBounds_ne hne, hreserved j hj]
    have hcompress : Ends inv (c = ·) fault (liftM ((Chunk.compress (paddedChunk g i raw)
        out.codec).mapError (Error.atChunk i)) : WorkspaceM Chunk) :=
      ends_result ⟨c, mapError_eq_ok.2 hc, rfl⟩
    refine hcompress.bind fun _ heq => ?_
    subst heq
    have hplace : Ends inv (((), out₁) = ·) fault (liftM (out.exec (Store.insertChunk (start + i) c)) :
        WorkspaceM (Unit × Store)) :=
      ends_result ⟨_, Store.exec_eq_ok_iff.2 hinsert, rfl⟩
    refine hplace.bind fun _ heq => ?_
    subst heq
    exact ih hnodup heval hreserved₁ (hkind.allowResize.trans hfixed) (hkind.chunkSize.trans hsize)
      (by rwa [hkind.codec])

/-- The slots of a result are reserved. -/
theorem exists_reserved {g : Geometry} {codec : CodecConfig} {new : NDArray} (hfresh : new.Fresh g codec) :
    ∃ reserved, Action.run (Store.reserve g.nchunks) new.store = (.ok new.store.nchunks, reserved) ∧
      new.store.SameKind reserved ∧
      ∀ i < g.nchunks, reserved.table.slots[new.store.nchunks + i]? = some .reserved := by
  obtain ⟨reserved, hreserve, hkind, hslots⟩ := Store.run_reserve new.store g.nchunks
  refine ⟨reserved, hreserve, hkind, fun i hi => ?_⟩
  rw [Store.nchunks, hslots, hfresh.slots]
  simp [hi]

/-- Once its geometry is known and its slots are reserved, a result is a matter of filling them. -/
theorem run_materialize_of_start {taken : List (String × Nat)} {first : Option NDArray} {g : Geometry}
    {codec : CodecConfig} {new : NDArray} {start : Nat} {reserved : Store}
    (htaken : outcome (revisions root) w = .ok taken)
    (hfirst : outcome (firstArray root) w = .ok first)
    (hgeometry : outputGeometry root params first = .ok (g, codec))
    (hnew : NDArray.allocate g codec = .ok new)
    (hreserve : Action.run (Store.reserve g.nchunks) new.store = (.ok start, reserved)) :
    Action.run (materialize params root) w = Action.run (do
      let store ← fillChunks root g start reserved (List.range g.nchunks)
      checkRevisions taken
      pure { new with store }) w := by
  have hrevisions := (isQuery_revisions root).run_eq w
  have hfirst' := (isQuery_firstArray root).run_eq w
  rw [htaken] at hrevisions
  rw [hfirst] at hfirst'
  have hgeometry' : Action.run (liftM (outputGeometry root params first) :
      WorkspaceM (Geometry × CodecConfig)) w = (.ok (g, codec), w) := by
    rw [run_liftM, hgeometry]
  have hnew' : Action.run (liftM (NDArray.allocate g codec) : WorkspaceM NDArray) w =
      (.ok new, w) := by
    rw [run_liftM, hnew]
  have hreserve' : Action.run (liftM (new.store.exec (Store.reserve g.nchunks)) :
      WorkspaceM (Nat × Store)) w = (.ok (start, reserved), w) := by
    rw [run_liftM, Store.exec_eq_ok_iff.2 hreserve]
  rw [materialize, run_bind_of_ok hrevisions, run_bind_of_ok hfirst', run_bind_of_ok hgeometry',
    run_bind_of_ok hnew', run_bind_of_ok hreserve']

/-- An expression whose chunks are evaluated under an invariant that leaves the revisions of its arrays as
they are is materialized in every geometry that can be written down, unless the evaluation of a chunk
fails. -/
theorem run_materialize_of_ends (inv : Workspace → Prop)
    (hsame : ∀ w', inv w' → w.SameRevisions (· ∈ root.arrays) w') {taken : List (String × Nat)}
    {first : Option NDArray} {g : Geometry} {codec : CodecConfig} {fault : Error → Prop}
    (htaken : outcome (revisions root) w = .ok taken)
    (hfirst : outcome (firstArray root) w = .ok first)
    (hgeometry : outputGeometry root params first = .ok (g, codec))
    (hcodec : codec.validate = .ok ()) (hchunk : g.chunkSize < 2 ^ 32)
    (hmeta : g.toMeta.encode.size < 2 ^ 32)
    (heval : ∀ i < g.nchunks, Ends inv
      (fun raw => raw.size = Shape.size (Box.shape (g.grid.chunkBox i)) * root.kind.itemsize)
      fault (evalBytes root (g.grid.chunkBox i))) (hw : inv w) :
    (∃ a w', Action.run (materialize params root) w = (.ok a, w') ∧ a.geometry = g) ∨
      ∃ e w', Action.run (materialize params root) w = (.error e, w') ∧ fault e := by
  obtain ⟨-, hdtype, -⟩ := of_outputGeometry hgeometry
  have hwidth : g.itemsize = root.kind.itemsize := congrArg DType.itemsize hdtype
  have hg := regular_of_outputGeometry hgeometry
  obtain ⟨new, hnew⟩ := NDArray.exists_allocate hg.itemsize_pos hg.chunkSize_pos hcodec hmeta
  have hfresh := NDArray.fresh_of_allocate hnew
  obtain ⟨reserved, hreserve, hkind, hreserved⟩ := exists_reserved hfresh
  have hpadded (i : Nat) (hi : i ∈ List.range g.nchunks) :
      Ends inv (fun raw => (paddedChunk g i raw).size = g.chunkSize) fault
        (evalBytes root (g.grid.chunkBox i)) := by
    intro w hw
    obtain ⟨hkept, hok, herror⟩ := heval i (List.mem_range.1 hi) w hw
    exact ⟨hkept, fun raw hraw => size_padToLayout (by rw [hok raw hraw, hwidth]), herror⟩
  have hblock : Chunk.chosenBlockSize g.chunkSize reserved.codec < 2 ^ 32 := by
    rw [hkind.codec]
    exact hfresh.chosenBlockSize_lt hchunk
  have hfill : Ends inv _ fault (fillChunks root g new.store.nchunks reserved (List.range g.nchunks)) :=
    ends_fillChunks List.nodup_range hpadded (fun i hi => hreserved i (List.mem_range.1 hi))
      (hkind.allowResize.trans hfresh.allowResize) (hkind.chunkSize.trans hfresh.chunkSize)
      (hchunk.trans (by decide)) hblock
  -- Up to here nothing depends on the workspace; only filling the chunks can fail.
  obtain ⟨hw', -, herror⟩ := hfill w hw
  rw [run_materialize_of_start htaken hfirst hgeometry hnew hreserve]
  cases hrun : Action.run (fillChunks root g new.store.nchunks reserved (List.range g.nchunks)) w with
  | mk answer w' =>
    rw [hrun] at hw' herror
    cases answer with
    | error e => exact .inr ⟨e, w', by rw [run_bind, hrun], herror e rfl⟩
    | ok store =>
      obtain ⟨-, hcheck⟩ := revisions_of_same (hsame w' hw') (fun _ hname => hname) htaken
      have hcheck' := (isQuery_checkRevisions taken).run_eq w'
      rw [hcheck] at hcheck'
      refine .inl ⟨{ new with store }, w', ?_, hfresh.geometry⟩
      rw [run_bind_of_ok hrun, run_bind_of_ok hcheck']
      rfl

end Expr

end ChunkedArray
