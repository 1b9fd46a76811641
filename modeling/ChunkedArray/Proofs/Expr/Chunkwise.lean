import ChunkedArray.Proofs.Expr.Evaluate
import ChunkedArray.Proofs.Expr.Materialize

/-!
# Chunk-wise evaluation

The chunks of a materialized expression are evaluated one by one over their boxes, padded, compressed
and placed by number. Read back, the array has at all coordinates the bytes of the value that the
expression has there, however the chunks were cut.
-/

namespace ChunkedArray.Expr

open ChunkedArray.Action ChunkedArray.Shape

variable {reads : String → Prop} {rules : UserFunction → Rule} {root : Expr} {params : EvalParams}
variable {w w' : Workspace} {box inner : Box} {raw : Bytes} {a : NDArray}

/-! ## The bytes of a box -/

theorem outcome_evalBytes (root : Expr) (box : Box) (w : Workspace) :
    outcome (evalBytes root box) w =
      outcome (eval box root) w >>= fun x =>
        (x.broadcastTo box.shape).map fun y => y.toBytes root.kind := by
  have hliftM (x : Operand) : (do
        let y ← liftM (n := WorkspaceM) (x.broadcastTo box.shape)
        pure (y.toBytes root.kind)) =
      (liftM ((x.broadcastTo box.shape).map fun y => y.toBytes root.kind) : WorkspaceM Bytes) := by
    cases x.broadcastTo box.shape <;> rfl
  rw [evalBytes]
  simp only [hliftM]
  exact outcome_bind_liftM _ _ _

theorem isQuery_evalBytes (h : Typed w root) (hlawful : root.Lawful reads rules) (box : Box) :
    IsQuery (Workspace.Alike reads) (evalBytes root box) :=
  Workspace.isQuery_bind (isQuery_eval h hlawful box) fun _ =>
    Workspace.isQuery_bind (Workspace.isQuery_liftM _) fun _ => Workspace.isQuery_pure _

/-- Bytes that spell the values of an expression over a box in C order. -/
structure Spells (rules : UserFunction → Rule) (w : Workspace) (root : Expr) (box : Box)
    (raw : Bytes) : Prop where
  size : raw.size = box.shape.size * root.kind.itemsize
  value : ∀ c, box.Holds c → ∃ v, valueAt rules w c root = .ok v ∧ ∀ k < root.kind.itemsize,
    raw.getD (box.shape.flatten (box.toLocal c) * root.kind.itemsize + k) 0 =
      (v.encode root.kind).getD k 0

/-- The bytes of an expression over a box of its domain spell its values. -/
theorem spells_of_evalBytes (h : Typed w root) (hlawful : root.Lawful reads rules)
    (hbox : box.Inside root.shape) (hne : box.Nonempty)
    (heval : outcome (evalBytes root box) w = .ok raw) : Spells rules w root box raw := by
  rw [outcome_evalBytes] at heval
  obtain ⟨x, hx, heval⟩ := bind_eq_ok.1 heval
  obtain ⟨y, hy, rfl⟩ := map_eq_ok.1 heval
  obtain ⟨-, rfl⟩ := Operand.broadcastTo_eq_ok.1 hy
  have hevaluates := evaluates_of_eval h hlawful (.refl _) hbox hne hx
  have hfilled := @Operand.filled_stretch x box.shape hevaluates.filled
  refine ⟨?_, fun c hc => ⟨_, hevaluates.value c hc, fun k hk => ?_⟩⟩
  · rw [Operand.size_toBytes hfilled, Operand.shape_stretch]
  · have hlocal := Box.holds_toLocal hc
    have hbytes := @Operand.getD_toBytes _ root.kind (box.toLocal c) hfilled
      (by rwa [Operand.shape_stretch]) k hk
    rwa [Operand.shape_stretch, Operand.get_stretch hlocal] at hbytes

/-- An expression that can be evaluated over a box has bytes there. -/
theorem exists_evalBytes_of_eval (h : Typed w root) (hlawful : root.Lawful reads rules)
    (hbox : box.Inside root.shape) (hne : box.Nonempty) (hcount : box.shape.isCountable = true)
    {x : Operand} (heval : outcome (eval box root) w = .ok x) :
    ∃ raw, outcome (evalBytes root box) w = .ok raw := by
  have hevaluates := evaluates_of_eval h hlawful (.refl _) hbox hne heval
  have hstretch : x.shape.Stretches box.shape := by
    rw [hevaluates.shape]
    exact operandBox_stretches hbox.length_eq.ge
  have hstretched := Operand.broadcastTo_eq_ok.2 ⟨⟨hstretch, hcount⟩, rfl⟩
  rw [outcome_evalBytes, heval]
  exact ⟨_, map_eq_ok.2 ⟨_, hstretched, rfl⟩⟩

/-- If the bytes over a box were found, so are those over every box inside it. -/
theorem exists_evalBytes (h : Typed w root) (hlawful : root.Lawful reads rules)
    (hbox : box.Inside root.shape) (hwithin : inner.Within box) (hne : inner.Nonempty)
    (heval : outcome (evalBytes root box) w = .ok raw) :
    ∃ raw', outcome (evalBytes root inner) w = .ok raw' := by
  rw [outcome_evalBytes] at heval
  obtain ⟨x, hx, heval⟩ := bind_eq_ok.1 heval
  obtain ⟨y, hy, -⟩ := map_eq_ok.1 heval
  obtain ⟨⟨-, hcount⟩, -⟩ := Operand.broadcastTo_eq_ok.1 hy
  obtain ⟨x', hx'⟩ := exists_eval h hlawful (.refl _) hbox hwithin hne hx
  exact exists_evalBytes_of_eval h hlawful (hwithin.inside hbox) hne
    (isCountable_of_within hwithin hne hcount) hx'

/-! ## Chunks -/

/-- The chunks of a materialized expression are its bytes over their boxes, evaluated in the
workspace as it was. -/
theorem exists_chunks_of_materialize (h : Typed w root) (hlawful : root.Lawful reads rules)
    (hrun : Action.run (materialize params root) w = (.ok a, w'))
    (hmemory : a.geometry.FitsMemory) :
    Workspace.Alike reads w w' ∧ ∃ raws : Nat → Bytes,
      (∀ i < a.geometry.nchunks,
        outcome (evalBytes root (a.geometry.grid.chunkBox i)) w = .ok (raws i)) ∧
      a.Sound fun i => paddedChunk a.geometry i (raws i) := by
  refine sound_of_materialize (Workspace.Alike reads w)
    (fun i raw => outcome (evalBytes root (a.geometry.grid.chunkBox i)) w = .ok raw)
    (fun w₁ raw w₂ i halike heval => ?_) (.refl w) hrun hmemory
  have hquery := isQuery_evalBytes h hlawful (a.geometry.grid.chunkBox i)
  have hkept := hquery.kept w₁
  have houtcome := hquery.outcome_eq halike
  rw [heval] at hkept
  rw [outcome, heval] at houtcome
  exact ⟨halike.trans hkept, houtcome.symm⟩

/-- An expression whose chunks can all be evaluated can be materialized in every geometry that can be
written down. -/
theorem exists_materialize (h : Typed w root) (hlawful : root.Lawful reads rules)
    {taken : List (String × Nat)} {first : Option NDArray} {g : Geometry} {codec : CodecConfig}
    (htaken : outcome (revisions root) w = .ok taken)
    (hfirst : outcome (firstArray root) w = .ok first)
    (hgeometry : outputGeometry root params first = .ok (g, codec))
    (hcodec : codec.validate = .ok ()) (hchunk : g.chunkSize < 2 ^ 32)
    (hmeta : g.toMeta.encode.size < 2 ^ 32)
    (heval : ∀ i < g.nchunks, ∃ raw, outcome (evalBytes root (g.grid.chunkBox i)) w = .ok raw) :
    ∃ a w', Action.run (materialize params root) w = (.ok a, w') ∧ a.geometry = g := by
  obtain ⟨hshape, -, hgrid⟩ := of_outputGeometry hgeometry
  have hbytes (i : Nat) (hi : i < g.nchunks) : Ends (Workspace.Alike reads w)
      (fun raw => raw.size = Shape.size (Box.shape (g.grid.chunkBox i)) * root.kind.itemsize)
      (fun _ => False) (evalBytes root (g.grid.chunkBox i)) := by
    obtain ⟨raw, hraw⟩ := heval i hi
    have hbox : Box.Inside (g.grid.chunkBox i) root.shape := by
      rw [← hshape]
      exact ChunkGrid.chunkBox_inside hgrid hi
    have hspells := spells_of_evalBytes h hlawful hbox
      (Box.nonempty_of_forall₂ (ChunkGrid.chunkBox_layout hgrid hi)) hraw
    exact (isQuery_evalBytes h hlawful _).ends (fun _ _ _ h h' => h.trans h') ⟨raw, hraw, hspells.size⟩
  have hrun := run_materialize_of_ends (Workspace.Alike reads w)
    (fun w' halike name hname => halike.sameRevisions name (hlawful.arrays name hname)) htaken hfirst
    hgeometry hcodec hchunk hmeta hbytes (.refl w)
  exact hrun.resolve_right fun ⟨_, _, _, hfault⟩ => hfault

/-- A padded chunk has the elements of its part of the array. -/
theorem getD_paddedChunk {g : Geometry} (hg : g.Regular) {i k : Nat} (hi : i < g.nchunks)
    {c : List Nat} (hc : Box.Holds (g.grid.chunkBox i) c) (hk : k < g.itemsize) :
    (paddedChunk g i raw).getD
        (g.chunks.flatten (Box.toLocal (g.grid.chunkBox i) c) * g.itemsize + k) 0 =
      raw.getD (Shape.flatten (Box.shape (g.grid.chunkBox i)) (Box.toLocal (g.grid.chunkBox i) c) *
        g.itemsize + k) 0 := by
  have hfits := Geometry.chunkBox_fits hg hi
  have hextent : Shape.FitsIn (Box.shape (g.grid.chunkBox i)) g.chunks := by
    rw [Shape.FitsIn, Box.shape, List.forall₂_map_left_iff]
    exact hfits.imp fun s n hs => by
      rw [Span.length]
      omega
  rw [paddedChunk, getD_padToLayout hextent hk (Box.holds_layout hfits hc),
    if_pos (Box.holds_toLocal hc)]

/-- A materialized expression has the shape and the kind of the expression, and at all coordinates the
bytes of the value that the expression has there in the workspace as it was. -/
theorem shows_of_materialize (h : Typed w root) (hlawful : root.Lawful reads rules)
    (hrun : Action.run (materialize params root) w = (.ok a, w'))
    (hmemory : a.geometry.FitsMemory) :
    a.shape = root.shape ∧ a.dtype = .scalar root.kind ∧ ∃ value : List Nat → Value,
      (∀ c, root.shape.Holds c → valueAt rules w c root = .ok (value c)) ∧
        a.Shows fun c => (value c).encode root.kind := by
  obtain ⟨-, raws, hraws, hsound⟩ := exists_chunks_of_materialize h hlawful hrun hmemory
  obtain ⟨hshape, hdtype⟩ : a.geometry.shape = root.shape ∧ a.geometry.dtype = .scalar root.kind := by
    obtain ⟨_, _, _, _, _, _, _, -, -, hgeometry, -⟩ := run_materialize_eq_ok hrun
    obtain ⟨hshape, hdtype, -⟩ := of_outputGeometry hgeometry
    exact ⟨hshape, hdtype⟩
  have hwidth : a.geometry.itemsize = root.kind.itemsize := congrArg DType.itemsize hdtype
  -- The bytes of a chunk spell the values over its box, and padding does not reach an element.
  have hspells (i : Nat) (hi : i < a.geometry.nchunks) :
      Spells rules w root (a.geometry.grid.chunkBox i) (raws i) := by
    refine spells_of_evalBytes h hlawful ?_ ?_ (hraws i hi)
    · rw [← hshape]
      exact ChunkGrid.chunkBox_inside hsound.regular.grid hi
    · exact Box.nonempty_of_forall₂ (ChunkGrid.chunkBox_layout hsound.regular.grid hi)
  have hvalue (c : List Nat) (hc : root.shape.Holds c) : ∃ v, valueAt rules w c root = .ok v ∧
      a.geometry.itemAt (fun i => paddedChunk a.geometry i (raws i)) c = v.encode root.kind := by
    rw [← hshape] at hc
    obtain ⟨hlt, hbox⟩ := Geometry.holds_chunkOf hsound.regular hc
    obtain ⟨v, hv, hbytes⟩ := (hspells _ hlt).value c hbox
    refine ⟨v, hv, Bytes.ext_getD ?_ fun k hk => ?_⟩
    · rw [Geometry.size_itemAt hsound.regular hsound.size hc, hwidth, Value.encode,
        Element.size_encode_singleton]
    · rw [Geometry.size_itemAt hsound.regular hsound.size hc] at hk
      rw [Geometry.itemAt, Bytes.getD_item _ _ _ _ hk, Geometry.placeOf,
        getD_paddedChunk hsound.regular hlt hbox hk, hwidth]
      exact hbytes k (hwidth ▸ hk)
  choose! value hvalue hitem using hvalue
  refine ⟨hshape, hdtype, value, hvalue, hsound.shows.congr fun c hc => hitem c ?_⟩
  rw [← hshape]
  exact hc

section ThreeBytes

/-! The witnesses read an array of three bytes in two chunks, which is the only one of its workspace. -/

variable {x : NDArray} {contents : Nat → Bytes}

/-- The array `x` as an expression. -/
def threeBytes : Expr :=
  .array "x" ⟨0, 1⟩ ⟨[3], .uint8, false⟩

theorem exists_threeBytes : ∃ x contents,
    NDArray.ofBytes #[1, 2, 3] [3] (.scalar .uint8) { chunks := some [2] } = .ok x ∧
      x.geometry = ⟨[3], .scalar .uint8, [2], [2]⟩ ∧ x.Sound contents := by
  obtain ⟨x, hx, hgeometry, -⟩ := @NDArray.exists_ofBytes #[1, 2, 3] [3] (.scalar .uint8)
    { chunks := some [2] } ⟨[3], .scalar .uint8, [2], [2]⟩ (by decide) (by rfl) (by rfl) (by rfl)
    (by decide) (by decide +kernel)
  have hmemory : x.geometry.FitsMemory := by
    rw [hgeometry]
    exact fun _ => by decide
  exact ⟨x, _, hx, hgeometry, (NDArray.sound_of_ofBytes hx hmemory).2.2.2⟩

theorem ofArray_threeBytes (hgeometry : x.geometry = ⟨[3], .scalar .uint8, [2], [2]⟩) :
    ofArray "x" x.geometry = .ok threeBytes := by
  rw [hgeometry]
  rfl

theorem exists_eval_threeBytes (hgeometry : x.geometry = ⟨[3], .scalar .uint8, [2], [2]⟩)
    (hsound : x.Sound contents) (hbox : box.Inside [3]) (hne : box.Nonempty) :
    ∃ y, outcome (eval box threeBytes) { arrays := [("x", x)] } = .ok y := by
  have hshape : [3] = x.geometry.shape := by rw [hgeometry]
  apply exists_eval_of_sound rfl hsound hshape rfl ?_ (.refl [3]) hbox hne (by decide)
  rw [hgeometry]
  decide

/-- An expression over the three bytes that can be evaluated everywhere can be materialized. -/
theorem exists_materialize_threeBytes (h : Typed { arrays := [("x", x)] } root)
    (hlawful : root.Lawful reads rules) (harrays : root.arrays = ["x"])
    (htype : root.type = ⟨[3], .uint8, false⟩)
    (heval : ∀ box : Box, box.Inside [3] → box.Nonempty →
      ∃ y, outcome (eval box root) { arrays := [("x", x)] } = .ok y) :
    ∃ a w', Action.run (materialize { chunks := some [2], codec := some {} } root)
      { arrays := [("x", x)] } = (.ok a, w') ∧ a.geometry = ⟨[3], .scalar .uint8, [2], [2]⟩ := by
  have hshape : root.shape = [3] := congrArg ExprType.shape htype
  have hkind : root.kind = .uint8 := congrArg ExprType.kind htype
  have hgrid : ChunkGrid.Regular ⟨[3], [2]⟩ := List.Forall₂.cons Nat.two_pos List.Forall₂.nil
  have htaken : outcome (revisions root) { arrays := [("x", x)] } =
      .ok [("x", x.store.revision)] := by
    rw [revisions, harrays]
    rfl
  have hfirst : outcome (firstArray root) { arrays := [("x", x)] } = .ok (some x) := by
    rw [firstArray, harrays]
    rfl
  have hgeometry : outputGeometry root { chunks := some [2], codec := some {} } (some x) =
      .ok (⟨[3], .scalar .uint8, [2], [2]⟩, {}) := by
    rw [outputGeometry, hshape, hkind]
    rfl
  refine exists_materialize h hlawful htaken hfirst hgeometry rfl (by decide) (by decide +kernel)
    fun i hi => ?_
  have hbox := ChunkGrid.chunkBox_inside hgrid hi
  have hne := Box.nonempty_of_forall₂ (ChunkGrid.chunkBox_layout hgrid hi)
  have hcount := isCountable_of_inside hbox hne (by decide)
  obtain ⟨y, hy⟩ := heval _ hbox hne
  have hinside : Box.Inside (ChunkGrid.chunkBox ⟨[3], [2]⟩ i) root.shape := by
    rw [hshape]
    exact hbox
  exact exists_evalBytes_of_eval h hlawful hinside hne hcount hy

end ThreeBytes

end ChunkedArray.Expr
