import ChunkedArray.Proofs.Expr.Chunkwise
import ChunkedArray.Proofs.Expr.Functions

/-!
# Evaluation of a region

To evaluate a region, the chunks that it meets are cut down to its bounding box, the pieces are
evaluated and what the region selects of them is copied out. Whatever was evaluated over a whole chunk
can be evaluated over its piece, and both have the same value everywhere; so the region shows what it
would show of the materialized expression.
-/

namespace ChunkedArray.Expr

open ChunkedArray.Action ChunkedArray.Shape

variable {reads : String → Prop} {rules : UserFunction → Rule} {root : Expr} {params : EvalParams}
variable {w w' : Workspace} {a : NDArray} {sel : Selection}

/-! ## Copying pieces -/

section Place

variable {width k : Nat} {out raw : Bytes} {piece : Box} {q : List Nat}

theorem placePiece_of_hits {hits : List (List (Nat × Nat))} (h : sel.hits piece = some hits) :
    placePiece sel width out (piece, raw) =
      Bytes.copyItems width raw out (((Run.ofHits (List.zipWith Selection.axisHits sel piece)
        sel.shape.strides piece.shape.strides).flatMap Run.pairs).map fun p =>
          (p.1, p.2 * width)) := by
  obtain ⟨rfl, -⟩ := Selection.eq_of_hits_eq_some h
  rw [placePiece, h]
  dsimp only
  apply Bytes.foldl_runs
  intro out r _
  rw [Bytes.blit_items, Run.pairs, List.map_map]
  rfl

theorem size_placePiece (sel : Selection) (width : Nat) (out : Bytes) (piece : Box × Bytes) :
    (placePiece sel width out piece).size = out.size := by
  obtain ⟨piece, raw⟩ := piece
  cases h : sel.hits piece with
  | none => rw [placePiece, h]
  | some hits => rw [placePiece_of_hits h, Bytes.size_copyItems]

/-- A piece fills the output elements that lie in it. -/
theorem getD_placePiece (hlen : sel.length = piece.length) (hk : k < width)
    (hq : sel.shape.Holds q) (hout : sel.shape.flatten q * width + k < out.size) :
    (placePiece sel width out (piece, raw)).getD (sel.shape.flatten q * width + k) 0 =
      if piece.Holds (sel.position q) then
        raw.getD (piece.shape.flatten (piece.toLocal (sel.position q)) * width + k) 0
      else out.getD (sel.shape.flatten q * width + k) 0 := by
  cases h : sel.hits piece with
  | none => rw [placePiece, h, if_neg (Selection.not_holds_of_hits_eq_none h hq)]
  | some hits =>
    rw [placePiece_of_hits h]
    have hshape : piece.shape.length = piece.length := List.length_map _
    exact Selection.getD_copyOut_hits hlen hshape hk raw out (· * width) hq hout

theorem size_foldl_placePiece (sel : Selection) (width : Nat) (out : Bytes)
    (pieces : List (Box × Bytes)) :
    (pieces.foldl (placePiece sel width) out).size = out.size := by
  induction pieces generalizing out with
  | nil => rfl
  | cons piece pieces ih => rw [List.foldl_cons, ih, size_placePiece]

/-- Where all pieces that hold an element agree about it, the output has what they say. -/
theorem getD_foldl_placePiece {pieces : List (Box × Bytes)} {v : UInt8}
    (hlen : ∀ piece ∈ pieces, sel.length = piece.1.length) (hk : k < width)
    (hq : sel.shape.Holds q) (hout : sel.shape.flatten q * width + k < out.size)
    (hagree : ∀ piece ∈ pieces, piece.1.Holds (sel.position q) →
      piece.2.getD (piece.1.shape.flatten (piece.1.toLocal (sel.position q)) * width + k) 0 = v)
    (hv : (∃ piece ∈ pieces, piece.1.Holds (sel.position q)) ∨
      out.getD (sel.shape.flatten q * width + k) 0 = v) :
    (pieces.foldl (placePiece sel width) out).getD (sel.shape.flatten q * width + k) 0 = v := by
  -- On the pieces left: a later piece that has the element overwrites it with the same byte.
  induction pieces generalizing out with
  | nil =>
    rcases hv with ⟨piece, hpiece, -⟩ | hv
    · cases hpiece
    · exact hv
  | cons piece pieces ih =>
    obtain ⟨hlen, hlens⟩ := List.forall_mem_cons.1 hlen
    obtain ⟨hagree, hagrees⟩ := List.forall_mem_cons.1 hagree
    have hout' : sel.shape.flatten q * width + k < (placePiece sel width out piece).size := by
      rw [size_placePiece]
      exact hout
    refine ih hlens hout' hagrees ?_
    rw [getD_placePiece hlen hk hq hout]
    by_cases hholds : piece.1.Holds (sel.position q)
    · rw [if_pos hholds]
      exact .inr (hagree hholds)
    · rw [if_neg hholds]
      refine hv.imp_left fun hex => ?_
      obtain ⟨other, hother, hholds'⟩ := hex
      cases hother with
      | head => exact absurd hholds' hholds
      | tail _ hother => exact ⟨other, hother, hholds'⟩

end Place

/-! ## Evaluating pieces -/

section Pieces

variable {grid : ChunkGrid} {box : Box} {chunks : List Nat}

theorem isQuery_evalPieces (h : Typed w root) (hlawful : root.Lawful reads rules) (grid : ChunkGrid)
    (box : Box) (chunks : List Nat) :
    IsQuery (Workspace.Alike reads) (evalPieces root grid box chunks) := by
  induction chunks with
  | nil => exact Workspace.isQuery_pure _
  | cons i chunks ih =>
    apply Workspace.isQuery_bind (isQuery_evalBytes h hlawful _)
    intro raw
    exact Workspace.isQuery_bind ih fun _ => Workspace.isQuery_pure _

/-- The pieces of chunks whose parts in a box can be evaluated. -/
theorem outcome_evalPieces (h : Typed w root) (hlawful : root.Lawful reads rules) {raws : Nat → Bytes}
    (heval : ∀ i ∈ chunks,
      outcome (evalBytes root (Box.inter (grid.chunkBox i) box)) w = .ok (raws i)) :
    outcome (evalPieces root grid box chunks) w =
      .ok (chunks.map fun i => (Box.inter (grid.chunkBox i) box, raws i)) := by
  induction chunks with
  | nil => rfl
  | cons i chunks ih =>
    obtain ⟨hi, hchunks⟩ := List.forall_mem_cons.1 heval
    have hrest (raw : Bytes) : IsQuery (Workspace.Alike reads) (do
        let pieces ← evalPieces root grid box chunks
        pure ((Box.inter (grid.chunkBox i) box, raw) :: pieces)) :=
      Workspace.isQuery_bind (isQuery_evalPieces h hlawful grid box chunks) fun _ =>
        Workspace.isQuery_pure _
    refine (outcome_bind (isQuery_evalBytes h hlawful _) hrest w).trans ?_
    refine bind_eq_ok.2 ⟨raws i, hi, ?_⟩
    rw [outcome_bind (isQuery_evalPieces h hlawful grid box chunks) fun _ =>
      Workspace.isQuery_pure _, ih hchunks]
    rfl

end Pieces

/-! ## Regions -/

section Selected

variable {g : Geometry} {first : Option NDArray} {taken : List (String × Nat)} {codec : CodecConfig}
variable {region : Region} {value : List Nat → Value}

theorem length_boundingBox (sel : Selection) : sel.boundingBox.length = sel.length :=
  List.length_map _

theorem length_inter_boundingBox (hg : g.Regular) (hsel : sel.Fits g.shape) {i : Nat}
    (hi : i < g.nchunks) :
    sel.length = (Box.inter (g.grid.chunkBox i) sel.boundingBox).length := by
  have hlen := (Geometry.length_chunkBox hg hsel hi).1
  rw [Box.inter, List.length_zipWith, length_boundingBox, ← hlen, Nat.min_self]

/-- If every chunk was evaluated, so can be its part in the bounding box of a selection. -/
theorem exists_pieces (h : Typed w root) (hlawful : root.Lawful reads rules) (hg : g.Regular)
    (hshape : g.shape = root.shape) (hsel : sel.Fits g.shape) (hpos : 0 < sel.size)
    (heval : ∀ i < g.nchunks, ∃ raw, outcome (evalBytes root (g.grid.chunkBox i)) w = .ok raw) :
    ∃ raws : Nat → Bytes, ∀ i ∈ g.grid.intersecting sel.boundingBox, i < g.nchunks ∧
      outcome (evalBytes root (Box.inter (g.grid.chunkBox i) sel.boundingBox)) w = .ok (raws i) ∧
      Spells rules w root (Box.inter (g.grid.chunkBox i) sel.boundingBox) (raws i) := by
  have hpiece (i : Nat) (hi : i ∈ g.grid.intersecting sel.boundingBox) : ∃ raw, i < g.nchunks ∧
      outcome (evalBytes root (Box.inter (g.grid.chunkBox i) sel.boundingBox)) w = .ok raw ∧
      Spells rules w root (Box.inter (g.grid.chunkBox i) sel.boundingBox) raw := by
    obtain ⟨hlt, c, hbounds, hchunk⟩ :=
      (ChunkGrid.mem_intersecting_iff hg.grid (Selection.boundingBox_inside hsel hpos)).1 hi
    have hlen : (g.grid.chunkBox i).length = sel.boundingBox.length := by
      rw [length_boundingBox, (Geometry.length_chunkBox hg hsel hlt).1]
    have hne := ((Box.holds_inter hlen).2 ⟨hchunk, hbounds⟩).nonempty
    have hwithin := Box.within_inter hlen
    have hbox : Box.Inside (g.grid.chunkBox i) root.shape := by
      rw [← hshape]
      exact ChunkGrid.chunkBox_inside hg.grid hlt
    obtain ⟨whole, hwhole⟩ := heval i hlt
    obtain ⟨raw, hraw⟩ := exists_evalBytes h hlawful hbox hwithin hne hwhole
    exact ⟨raw, hlt, hraw, spells_of_evalBytes h hlawful (hwithin.inside hbox) hne hraw⟩
  choose! raws hraws using hpiece
  exact ⟨raws, hraws⟩

/-- Pieces that spell the values of an expression, copied out, spell the selected values. -/
theorem foldl_placePiece_pieces (hg : g.Regular) (hshape : g.shape = root.shape)
    (hsel : sel.Fits g.shape) {raws : Nat → Bytes}
    (hspells : ∀ i ∈ g.grid.intersecting sel.boundingBox, i < g.nchunks ∧
      Spells rules w root (Box.inter (g.grid.chunkBox i) sel.boundingBox) (raws i))
    (hvalue : ∀ c, root.shape.Holds c → valueAt rules w c root = .ok (value c)) :
    ((g.grid.intersecting sel.boundingBox).map fun i =>
        (Box.inter (g.grid.chunkBox i) sel.boundingBox, raws i)).foldl
          (placePiece sel root.kind.itemsize) (Bytes.zeros (sel.size * root.kind.itemsize)) =
      Bytes.concat (sel.coords.map fun c => (value c).encode root.kind) := by
  -- Element by element: the chunk of a selected element has a piece, and all pieces that have it agree.
  apply Selection.concat_map_coords
  · rw [size_foldl_placePiece, Bytes.size_zeros]
  · intro q _
    rw [Value.encode, Element.size_encode_singleton]
  · intro q k hq hk
    have hposition := Selection.holds_position hsel hq
    have hbounds := Selection.holds_boundingBox hsel hq
    have hmem := Geometry.chunkOf_mem_intersecting hg hsel hq
    obtain ⟨hlt, hchunk⟩ := Geometry.holds_chunkOf hg hposition
    apply getD_foldl_placePiece _ hk hq
    · rw [Bytes.size_zeros]
      exact Geometry.item_lt hq hk
    · intro piece hpiece hholds
      obtain ⟨i, hi, rfl⟩ := List.mem_map.1 hpiece
      obtain ⟨v, hv, hbytes⟩ := (hspells i hi).2.value _ hholds
      rw [hshape] at hposition
      rw [hvalue _ hposition, Except.ok.injEq] at hv
      rw [hbytes k hk, hv]
    · refine .inl ⟨_, List.mem_map_of_mem hmem, (Box.holds_inter ?_).2 ⟨hchunk, hbounds⟩⟩
      rw [length_boundingBox, (Geometry.length_chunkBox hg hsel hlt).1]
    · intro piece hpiece
      obtain ⟨i, hi, rfl⟩ := List.mem_map.1 hpiece
      exact length_inter_boundingBox hg hsel (hspells i hi).1

/-- If every chunk was evaluated, the pieces of a selection are evaluated in a like workspace, and
what is copied out of them spells the selected values. -/
theorem exists_run_evalPieces (h : Typed w root) (hlawful : root.Lawful reads rules) (hg : g.Regular)
    (hshape : g.shape = root.shape) (hsel : sel.Fits g.shape) (hpos : 0 < sel.size)
    (heval : ∀ i < g.nchunks, ∃ raw, outcome (evalBytes root (g.grid.chunkBox i)) w = .ok raw)
    (hvalue : ∀ c, root.shape.Holds c → valueAt rules w c root = .ok (value c))
    (halike : Workspace.Alike reads w w') :
    ∃ pieces w'', Action.run (evalPieces root g.grid sel.boundingBox
        (g.grid.intersecting sel.boundingBox)) w' = (.ok pieces, w'') ∧
      Workspace.Alike reads w w'' ∧
      pieces.foldl (placePiece sel root.kind.itemsize)
          (Bytes.zeros (sel.size * root.kind.itemsize)) =
        Bytes.concat (sel.coords.map fun c => (value c).encode root.kind) := by
  obtain ⟨raws, hraws⟩ := exists_pieces h hlawful hg hshape hsel hpos heval
  have hquery := isQuery_evalPieces h hlawful g.grid sel.boundingBox
    (g.grid.intersecting sel.boundingBox)
  have hpieces := (hquery.outcome_eq halike).trans
    (outcome_evalPieces h hlawful fun i hi => (hraws i hi).2.1)
  have hspells (i : Nat) (hi : i ∈ g.grid.intersecting sel.boundingBox) :=
    And.intro (hraws i hi).1 (hraws i hi).2.2
  exact ⟨_, _, Prod.ext hpieces rfl, halike.trans (hquery.kept w'),
    foldl_placePiece_pieces hg hshape hsel hspells hvalue⟩

/-- If all chunks of an expression can be evaluated, its regions can be, in every workspace that is
like the one where that was found, and they show the values at the selected coordinates. -/
theorem outcome_materializeRegion (h : Typed w root) (hlawful : root.Lawful reads rules)
    (htaken : outcome (revisions root) w = .ok taken)
    (hfirst : outcome (firstArray root) w = .ok first)
    (hgeometry : outputGeometry root params first = .ok (g, codec))
    (heval : ∀ i < g.nchunks, ∃ raw, outcome (evalBytes root (g.grid.chunkBox i)) w = .ok raw)
    (hvalue : ∀ c, root.shape.Holds c → valueAt rules w c root = .ok (value c))
    (hsel : region.resolve root.shape = .ok sel) (halike : Workspace.Alike reads w w') :
    outcome (materializeRegion params root region) w' =
      .ok ⟨sel.shape, .scalar root.kind,
        Bytes.concat (sel.coords.map fun c => (value c).encode root.kind)⟩ := by
  obtain ⟨hshape, -, -⟩ := of_outputGeometry hgeometry
  have hg := regular_of_outputGeometry hgeometry
  have hfits : sel.Fits g.shape := by
    rw [hshape]
    exact Region.fits_of_resolveWith hsel
  have hrevisions := (isQuery_revisions root).run_eq w'
  rw [(revisions_of_same halike.sameRevisions hlawful.arrays htaken).1] at hrevisions
  have hresolve : Action.run (liftM (region.resolve root.shape) : WorkspaceM Selection) w' =
      (.ok sel, w') := by
    rw [run_liftM, hsel]
  rw [outcome, materializeRegion, run_bind_of_ok hrevisions, run_bind_of_ok hresolve]
  by_cases hempty : sel.isEmpty = true
  · -- Nothing is selected, so nothing is evaluated.
    have hsize : sel.size = 0 := by rwa [Selection.isEmpty, beq_iff_eq] at hempty
    have hbytes : Bytes.concat (sel.coords.map fun c => (value c).encode root.kind) =
        Bytes.zeros (sel.size * root.kind.itemsize) := by
      rw [Selection.coords_eq_map, hsize, Nat.zero_mul]
      rfl
    rw [if_pos hempty, run_liftM, hbytes]
    exact Buffer.new_of_size (Bytes.size_zeros _)
  · have hpos : 0 < sel.size := by
      rw [Selection.isEmpty, beq_iff_eq] at hempty
      omega
    obtain ⟨first', hfirst', hsame⟩ := firstArray_of_alike halike hlawful.arrays hfirst
    have hlookup := (isQuery_firstArray root).run_eq w'
    rw [hfirst'] at hlookup
    have hgeometry' : Action.run (liftM (outputGeometry root params first') :
        WorkspaceM (Geometry × CodecConfig)) w' = (.ok (g, codec), w') := by
      rw [run_liftM, hsame, hgeometry]
    obtain ⟨pieces, w'', hrun, halike', hdata⟩ :=
      exists_run_evalPieces h hlawful hg hshape hfits hpos heval hvalue halike
    have hcheck := (isQuery_checkRevisions taken).run_eq w''
    rw [(revisions_of_same halike'.sameRevisions hlawful.arrays htaken).2] at hcheck
    rw [if_neg hempty, run_bind_of_ok hlookup, run_bind_of_ok hgeometry', run_bind_of_ok hrun,
      run_bind_of_ok hcheck, run_liftM, ← hdata]
    apply Buffer.new_of_size
    exact (size_foldl_placePiece _ _ _ _).trans (Bytes.size_zeros _)

/-- A region of an expression is evaluated to what it reads of the materialized expression, before
the materialization and after it, if every user function works position by position. -/
theorem materializeRegion_eq_readRegion (hbuilt : WellBuilt w root)
    (hfunctions : ∀ f ∈ root.functions, f.Positionwise (· ∈ root.arrays))
    (hrun : Action.run (materialize params root) w = (.ok a, w'))
    (hmemory : a.geometry.FitsMemory) {fs : Files} {b : Buffer}
    (hread : (a.readRegion fs region).1 = .ok b) :
    outcome (materializeRegion params root region) w = .ok b ∧
      outcome (materializeRegion params root region) w' = .ok b := by
  choose! rules hrules using hfunctions
  have hlawful : root.Lawful (· ∈ root.arrays) rules := ⟨fun _ hname => hname, hrules⟩
  obtain ⟨halike, raws, hraws, -⟩ := exists_chunks_of_materialize hbuilt.typed hlawful hrun hmemory
  obtain ⟨hshape, hdtype, value, hvalue, hshows⟩ :=
    shows_of_materialize hbuilt.typed hlawful hrun hmemory
  obtain ⟨taken, first, codec, _, _, _, _, htaken, hfirst, hgeometry, -⟩ := run_materialize_eq_ok hrun
  obtain ⟨sel, hsel, rfl⟩ := hshows.eq_of_readRegion hread
  rw [hshape] at hsel
  rw [hdtype]
  have hregion {w₁ : Workspace} (h : Workspace.Alike (· ∈ root.arrays) w w₁) :=
    outcome_materializeRegion hbuilt.typed hlawful htaken hfirst hgeometry
      (fun i hi => ⟨raws i, hraws i hi⟩) hvalue hsel h
  exact ⟨hregion (.refl w), hregion halike⟩

end Selected

section ThreeBytes

variable {x : NDArray} {contents : Nat → Bytes}

/-- The sum of the array `x` and five as a user function. -/
def threeBytesPlusFive : Expr :=
  .call (.sum "sum" .uint8) ⟨[3], .uint8, false⟩ [threeBytes, .literal (.int 5)]

theorem lawful_threeBytesPlusFive :
    threeBytesPlusFive.Lawful (· ∈ threeBytesPlusFive.arrays) fun _ => UserFunction.sumRule .uint8 := by
  refine ⟨fun _ hname => hname, fun f hf => ?_⟩
  obtain rfl := List.mem_singleton.1 hf
  exact UserFunction.follows_sum "sum" .uint8

theorem exists_eval_threeBytesPlusFive {box : Box}
    (hgeometry : x.geometry = ⟨[3], .scalar .uint8, [2], [2]⟩) (hsound : x.Sound contents)
    (h : Typed { arrays := [("x", x)] } threeBytesPlusFive) (hbox : box.Inside [3])
    (hne : box.Nonempty) :
    ∃ y, outcome (eval box threeBytesPlusFive) { arrays := [("x", x)] } = .ok y := by
  obtain ⟨hf, hall⟩ := lawful_threeBytesPlusFive.call
  cases h with
  | call hinputs hshape hkind =>
    have hquery (e : Expr) (he : e ∈ [threeBytes, .literal (.int 5)]) :=
      isQuery_eval (hinputs e he) (hall e he) box
    have hcount := isCountable_of_inside (inside_operandBox (.refl [3]) hbox)
      (nonempty_operandBox hne) (by decide)
    have hlen : [3].length ≤ box.length := hbox.length_eq.ge
    have heach (e : Expr) (he : e ∈ [threeBytes, .literal (.int 5)]) (y : Operand)
        (hy : outcome (eval box e) { arrays := [("x", x)] } = .ok y) :=
      evaluates_of_eval (hinputs e he) (hall e he) (hshape e he) hbox hne hy
    have heval (e : Expr) (he : e ∈ [threeBytes, .literal (.int 5)]) :
        ∃ y, outcome (eval box e) { arrays := [("x", x)] } = .ok y := by
      cases he with
      | head => exact exists_eval_threeBytes hgeometry hsound hbox hne
      | tail _ he =>
        obtain rfl := List.mem_singleton.1 he
        exact ⟨_, rfl⟩
    have hparts (e : Expr) (he : e ∈ [threeBytes, .literal (.int 5)]) :
        (operandBox [3] box).shape.isCountable = true ∧
          ∃ y, outcome (eval box e) { arrays := [("x", x)] } = .ok y ∧
            Evaluates (fun _ => UserFunction.sumRule .uint8) { arrays := [("x", x)] } box e y := by
      obtain ⟨y, hy⟩ := heval e he
      exact ⟨hcount, y, hy, heach e he y hy⟩
    obtain ⟨args, hargs⟩ := exists_evalInputs hquery hparts hshape hlen
    obtain ⟨hfilled, -⟩ := evaluates_inputs hquery heach hshape hlen hargs
    obtain ⟨y, hy⟩ := hf.total { arrays := [("x", x)] } args _ (operandBox [3] box).origin hfilled
      (Box.size_pos (nonempty_operandBox hne)) fun _ _ => ⟨_, rfl⟩
    refine ⟨y, ?_⟩
    rw [threeBytesPlusFive, outcome_eval_call hinputs lawful_threeBytesPlusFive, hargs]
    exact hy

end ThreeBytes

/-- Three bytes plus five, every second element backwards, from two pieces. -/
theorem materializeRegion_eq_readRegion_backwards :
    ∃ x e a w' b, NDArray.ofBytes #[1, 2, 3] [3] (.scalar .uint8) { chunks := some [2] } = .ok x ∧
      Draft.call (.sum "sum" .uint8) [ofArray "x" x.geometry, .ok (.literal (.int 5))] = .ok e ∧
      Action.run (materialize { chunks := some [2], codec := some {} } e)
        { arrays := [("x", x)] } = (.ok a, w') ∧
      (a.readRegion {} [.range none none (-2)]).1 = .ok b ∧
      outcome (materializeRegion { chunks := some [2], codec := some {} } e [.range none none (-2)])
        { arrays := [("x", x)] } = .ok b ∧
      outcome (materializeRegion { chunks := some [2], codec := some {} } e [.range none none (-2)])
        w' = .ok b := by
  obtain ⟨x, contents, hx, hgeometry, hsound⟩ := exists_threeBytes
  have hleaf := ofArray_threeBytes hgeometry
  have hbuilt : WellBuilt { arrays := [("x", x)] } threeBytesPlusFive := by
    refine .call (fun e he => ?_)
      (show mkCall (.sum "sum" .uint8) [threeBytes, .literal (.int 5)] = .ok _ from rfl)
    cases he with
    | head => exact .array rfl hsound.regular hleaf
    | tail _ he =>
      obtain rfl := List.mem_singleton.1 he
      exact .literal _
  obtain ⟨a, w', hrun, hresult⟩ := exists_materialize_threeBytes hbuilt.typed
    lawful_threeBytesPlusFive rfl rfl fun box hbox hne =>
      exists_eval_threeBytesPlusFive hgeometry hsound hbuilt.typed hbox hne
  have hmemory : a.geometry.FitsMemory := by
    rw [hresult]
    exact fun _ => by decide
  obtain ⟨-, -, value, -, hshows⟩ :=
    shows_of_materialize hbuilt.typed lawful_threeBytesPlusFive hrun hmemory
  have hread := hshows.read {} [.range none none (-2)] [⟨2, 2, -2⟩] (by
    rw [NDArray.shape, hresult]
    rfl)
  have hpositionwise : ∀ f ∈ threeBytesPlusFive.functions,
      f.Positionwise (· ∈ threeBytesPlusFive.arrays) := fun f hf =>
    ⟨_, lawful_threeBytesPlusFive.functions f hf⟩
  obtain ⟨hbefore, hafter⟩ :=
    materializeRegion_eq_readRegion hbuilt hpositionwise hrun hmemory hread
  exact ⟨x, _, a, w', _, hx, by rw [hleaf]; rfl, hrun, hread, hbefore, hafter⟩

end ChunkedArray.Expr
