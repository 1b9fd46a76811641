import ChunkedArray.Proofs.Files.Contents
import ChunkedArray.Proofs.Frame.Sparse
import ChunkedArray.Proofs.Tensor.Saved

/-!
# Saved tensors are loaded

A tensor that was saved is loaded again from its path, in whichever layout, and whatever stood there
before. The layout is told from the tree alone: a file under the path is a frame, and a directory has
the header of one in it. A frame gives a store back that has the tensor; a directory gives one that
mirrors it, with every chunk still in its own file.

What stands under the path afterwards is a matter of the tensor and the parameters, and not of what
stood there before. Paths that step up out of a directory that is missing are left out, since such a
path may lead to something once the directory is made.
-/

namespace ChunkedArray.Tensor

variable {t : Tensor} {codec : CodecConfig} {target : Nat} {s : Store} {chunks : List Chunk}

/-! ## Packed stores -/

/-- A store that has a tensor, with certain chunks in memory that take little more room than the items
of the tensor, and that can be saved. -/
structure PackedIn (t : Tensor) (s : Store) (chunks : List Chunk) : Prop where
  kept : s.WellKept
  words : s.HasWords
  stored : t.StoredIn s
  slots : s.table.slots = (chunks.map Slot.loaded).toArray
  cbytes : (chunks.map Chunk.cbytes).sum ≤ 25 * t.data.size

/-- There is at most one piece for every byte. -/
theorem length_pieces_le (t : Tensor) (target : Nat) (hitem : 0 < t.dtype.itemsize) :
    (t.pieces target).length ≤ t.data.size := by
  have hpos := chunkSizeFor_pos target hitem
  rw [pieces, Chunk.length_cutBlocks]
  generalize chunkSizeFor target t.dtype.itemsize = size at hpos
  have hmul := Nat.le_mul_of_pos_right t.data.size hpos
  refine Nat.le_of_lt_succ ((Nat.div_lt_iff_lt_mul hpos).2 ?_)
  rw [Nat.succ_mul]
  omega

/-- What packing gives. -/
theorem exists_packedIn (hsized : t.Sized) (hblock : codec.blockSize < 2 ^ 64) (htarget : target < 2 ^ 64)
    (hpack : t.packStore codec target = .ok s) : ∃ chunks, t.PackedIn s chunks := by
  obtain ⟨hitem, hvalid, metadata, chunks, hlabels, hcover, rfl⟩ := packStore_eq_ok hsized hpack
  obtain ⟨hkept, hstored⟩ := storedIn_packed hitem hvalid hlabels hcover
  have hsum := hcover.sum_cbytes_le
  rw [concat_pieces target hitem, chunkHeaderSize] at hsum
  have hcount := t.length_pieces_le target hitem
  refine ⟨chunks, hkept, ⟨hblock, ?_⟩, hstored, rfl, by omega⟩
  exact (chunkSizeFor_le target _).trans_lt (max_lt htarget hsized.itemsize)

/-- The header of the contiguous frame of a store whose chunks are in memory. -/
theorem run_frameHead_of_loaded (hslots : s.table.slots = (chunks.map Slot.loaded).toArray) {head : Bytes}
    (hhead : (s.headerFor 0 chunks).toBytes = .ok head) (source : ChunkSource) :
    (s.run (Store.frameHead source)).1 = .ok head := by
  change (Action.run (Store.frameHead source) s).1 = .ok head
  rw [Store.frameHead, Action.run_bind_of_ok (Store.run_frameParts_of_loaded hslots 0 source),
    Action.run_liftM, hhead]

/-- If its header is short, a packed store can be saved. -/
theorem PackedIn.savable (h : t.PackedIn s chunks) (hsized : t.Sized) {head : Bytes}
    (hhead : (s.headerFor 0 chunks).toBytes = .ok head)
    (hshort : head.size < FrameHeader.prefixSize + 2 ^ 32) :
    s.Savable (s.chunkSource {}) chunks head := by
  have hparts := Store.run_frameParts_of_loaded h.slots 0 (s.chunkSource {})
  obtain ⟨-, hfetch⟩ := h.kept.run_frameParts (Store.faithful_chunkSource s {}) hparts
  have hdata := hsized.data
  have hcbytes := h.cbytes
  refine ⟨hfetch, fun c hc => ?_, run_frameHead_of_loaded h.slots hhead _, hshort, ?_⟩
  · obtain ⟨i, hi⟩ := hfetch.exists_of_mem hc
    exact (h.stored.nbytes_le_of_fetch hi).trans_lt hdata
  · rw [FrameHeader.prefixSize] at hshort
    omega

/-! ## Loading -/

/-- Reading a tensor out of a store cannot tell where its chunks are. -/
theorem lockstep_unpackStore (source source' : ChunkSource) :
    Store.Lockstep source (unpackStore source) (unpackStore source') := by
  refine Store.lockstep_get_bind fun s s' h => ?_
  rw [h.metadata, Store.nbytes, Store.nbytes, h.table.nbytes]
  refine (Store.lockstep_liftM _).bind fun dtype => ?_
  split
  · exact Store.lockstep_throw _
  · refine (Store.lockstep_liftM _).bind fun layout => (Store.lockstep_liftM _).bind fun value =>
      (Store.lockstep_liftM _).bind fun shape => (Store.lockstep_readBytes _ _).bind fun data => ?_
    split
    · exact Store.lockstep_throw _
    · exact Store.lockstep_pure _

theorem ofStore_eq_outcome (s : Store) (fs : Files) :
    ofStore s fs = Action.outcome (unpackStore (s.chunkSource fs)) s := by
  have hrun : s.run (unpackStore (s.chunkSource fs)) = Action.run (unpackStore (s.chunkSource fs)) s := rfl
  rw [ofStore, Store.exec, hrun, Action.outcome]
  generalize Action.run (unpackStore (s.chunkSource fs)) s = r
  obtain ⟨r, s'⟩ := r
  cases r <;> rfl

/-- What it takes of a tensor to be read back: it was accepted, its item layout is one that descriptors
are read back from, its axes are signed words, as they are in the metadata, and its items and texts are
of a size that can be written. -/
structure Storable (t : Tensor) : Prop where
  full : t.data.size = t.shape.size * t.dtype.itemsize
  layout : t.dtype.Composed
  axes : ∀ n ∈ t.shape, n < 2 ^ 63
  sized : t.Sized

theorem StoredIn.outcome_unpackStore (h : t.StoredIn s) (hstorable : t.Storable) (source : ChunkSource) :
    Action.outcome (unpackStore source) s = .ok t := by
  have hsize : t.data.size < 2 ^ 64 := hstorable.sized.data.trans (by decide)
  rw [Action.outcome,
    h.run_unpackStore hstorable.layout hstorable.axes hstorable.full hsize source]

/-- What is found in a file is unpacked. -/
theorem load_eq_unpack {fs : Files} {path : Path} {loc : Location} {frame : Bytes}
    (hlocate : fs.locate path = .ok (loc, .file frame)) : load fs path = unpack frame := by
  rw [load, Files.isDirectory, hlocate, Files.read, hlocate]
  rfl

section Load

variable {fs : Files} {path : Path} {loc : Location} (h : t.PackedIn s chunks)
  (hstorable : t.Storable) (hshort : ∀ head, (s.run (Store.frameHead (s.chunkSource {}))).1 = .ok head →
    head.size < FrameHeader.prefixSize + 2 ^ 32)
include h hstorable hshort

/-- A frame that is found in a file. -/
theorem load_of_file {frame : Bytes} (hframe : frameOf s = .ok frame)
    (hlocate : fs.locate path = .ok (loc, .file frame)) : load fs path = .ok t := by
  have hsource := Store.faithful_chunkSource s {}
  obtain ⟨⟨frame', s'⟩, hexec, hframe⟩ := bind_eq_ok.1 hframe
  cases hframe
  have hrun := Store.exec_eq_ok_iff.1 hexec
  have houtcome := (Store.outcome_toFrame_of_loaded h.slots (s.chunkSource {})).symm.trans
    (congrArg Prod.fst hrun)
  obtain ⟨head, hhead, -⟩ := bind_eq_ok.1 houtcome
  have hsave := h.savable hstorable.sized hhead (hshort head (run_frameHead_of_loaded h.slots hhead _))
  obtain ⟨f, s'', hrun', hrestored⟩ := hsave.exists_ofFrame h.kept hsource h.words
  obtain rfl : f = frame := Except.ok.inj (congrArg Prod.fst (hrun'.symm.trans hrun))
  have hstored := h.stored.restored h.kept hsave.fetches
  rw [load_eq_unpack hlocate, unpack, hrestored]
  simp only [bind, Except.bind]
  rw [ofStore_eq_outcome]
  exact hstored.outcome_unpackStore hstorable _

/-- The files of a frame that are found in a directory. -/
theorem load_of_directory {head : Bytes} {others : List Chunk} {s' : Store}
    (hparts : s.exec (Store.sparseParts (s.chunkSource {})) = .ok ((head, others), s'))
    (hlocate : fs.locate path = .ok (loc, .directory))
    (hheader : fs.read (SparseFrame.headerPath path) = .ok head)
    (hchunks : ∀ i c, others[i]? = some c → fs.read (SparseFrame.chunkPath path i) = .ok c.data) :
    load fs path = .ok t := by
  have hsource := Store.faithful_chunkSource s {}
  rw [Store.exec_sparseParts_of_loaded h.slots] at hparts
  obtain ⟨head', hhead', hsame⟩ := map_eq_ok.1 hparts
  cases hsame
  obtain ⟨plain, hplain, hsize⟩ := FrameHeader.exists_toBytes_withFlags hhead' 0
  have hsave := h.savable hstorable.sized hplain (hshort plain (run_frameHead_of_loaded h.slots hplain _))
  have hopen := hsave.openSparse_eq h.kept hsource h.words hhead' hsize.symm hheader
  have hstored := h.stored.restored h.kept hsave.fetches
  have hmirrors := hsave.mirrors_opened h.kept hsource hchunks head.size
  have hanswer := (lockstep_unpackStore _ ((s.restored chunks).chunkSource {}) _ _ hmirrors).1
  rw [load, Files.isDirectory, hlocate]
  simp only [if_true, hopen, bind, Except.bind]
  rw [ofStore_eq_outcome]
  exact hanswer.trans (hstored.outcome_unpackStore hstorable _)

end Load

/-! ## Saving -/

/-- The files of a saved tensor, at their locations below its path. -/
def savedFiles (t : Tensor) (params : PackParams) : Result (List (Location × Bytes)) := do
  let store ← t.packStore params.codec params.chunkSize
  if params.contiguous then
    let frame ← frameOf store
    pure [([], frame)]
  else
    let ((head, chunks), _) ← store.exec (Store.sparseParts (store.chunkSource {}))
    pure (SparseFrame.frameFiles head chunks)

section Save

variable {fs fs' : Files} {path : Path} {params : PackParams} {written : Nat}

/-- A save as a file makes the frame, removes what is there, and writes. -/
theorem run_save_file_eq_ok (hcontiguous : params.contiguous = true) :
    Action.run (save t path params) fs = (.ok written, fs') ↔ ∃ s frame fs₁,
      t.packStore params.codec params.chunkSize = .ok s ∧ frameOf s = .ok frame ∧
      Action.run (Files.remove path) fs = (.ok (), fs₁) ∧ fs₁.write path frame = .ok fs' ∧
      written = frame.size := by
  rw [save, Action.run_liftM_bind_eq_ok]
  constructor
  · rintro ⟨s, hpack, h⟩
    rw [if_pos hcontiguous, Action.run_liftM_bind_eq_ok] at h
    obtain ⟨frame, hframe, h⟩ := h
    obtain ⟨_, fs₁, hremove, h⟩ := Action.exists_of_run_bind_eq_ok h
    obtain ⟨_, fs₂, hwrite, h⟩ := Action.exists_of_run_bind_eq_ok h
    cases h
    exact ⟨s, frame, fs₁, hpack, hframe, hremove, Files.run_change_eq_ok.1 hwrite, rfl⟩
  · rintro ⟨s, frame, fs₁, hpack, hframe, hremove, hwrite, rfl⟩
    refine ⟨s, hpack, ?_⟩
    rw [if_pos hcontiguous, Action.run_liftM_bind_eq_ok]
    refine ⟨frame, hframe, ?_⟩
    rw [Action.run_bind_of_ok hremove, Action.run_bind_of_ok (Files.run_change_eq_ok.2 hwrite)]
    rfl

/-- A save as a directory removes what is there, makes the header, and writes. -/
theorem run_save_directory_eq_ok (hsparse : params.contiguous = false) :
    Action.run (save t path params) fs = (.ok written, fs') ↔ ∃ s head chunks s' fs₁,
      t.packStore params.codec params.chunkSize = .ok s ∧
      Action.run (Files.remove path) fs = (.ok (), fs₁) ∧
      s.exec (Store.sparseParts (s.chunkSource {})) = .ok ((head, chunks), s') ∧
      Action.run (SparseFrame.writeAll path head chunks) fs₁ = (.ok written, fs') := by
  rw [save, Action.run_liftM_bind_eq_ok]
  constructor
  · rintro ⟨s, hpack, h⟩
    rw [if_neg (by simp [hsparse])] at h
    obtain ⟨_, fs₁, hremove, h⟩ := Action.exists_of_run_bind_eq_ok h
    obtain ⟨⟨⟨head, chunks⟩, s'⟩, hparts, hwrite⟩ := Action.run_liftM_bind_eq_ok.1 h
    exact ⟨s, head, chunks, s', fs₁, hpack, hremove, hparts, hwrite⟩
  · rintro ⟨s, head, chunks, s', fs₁, hpack, hremove, hparts, hwrite⟩
    refine ⟨s, hpack, ?_⟩
    rw [if_neg (by simp [hsparse]), Action.run_bind_of_ok hremove]
    exact Action.run_liftM_bind_eq_ok.2 ⟨_, hparts, hwrite⟩

/-- A save leaves a tree, also if it fails. -/
theorem isTree_of_run_save {r : Result Nat} (htree : fs.IsTree)
    (h : Action.run (save t path params) fs = (r, fs')) : fs'.IsTree := by
  have hany {α : Type} {act : FilesM α} (hact : Files.Keeps Files.IsTree act) :
      Action.Ends Files.IsTree (fun _ => True) (fun _ => True) act := hact.weaken fun _ _ => trivial
  have hresult {α : Type} (r : Result α) :
      Action.Ends Files.IsTree (fun _ => True) (fun _ => True) (liftM r : FilesM α) :=
    Action.ends_liftM (fun _ _ => trivial) fun _ _ => trivial
  have hclosed := Files.closed_isTree
  have hsave : Action.Ends Files.IsTree (fun _ => True) (fun _ => True) (save t path params) := by
    refine (hresult _).bind fun s _ => ?_
    split
    · refine (hresult _).bind fun frame _ => hany ?_
      exact (hclosed.keeps_remove path).bind fun _ => (hclosed.keeps_write path frame).bind fun _ =>
        Files.keeps_pure _
    · exact (hany (hclosed.keeps_remove path)).bind fun _ _ => (hresult _).bind fun parts _ =>
        hany (hclosed.keeps_writeAll path _ _)
  have hkept := (hsave fs htree).1
  rwa [h] at hkept

/-- A save takes the place of whatever stood at the path: its files are the only ones there, all others
are as they were, and the tensor is loaded from there. -/
theorem load_of_run_save (hstorable : t.Storable) (hblock : params.codec.blockSize < 2 ^ 64)
    (htarget : params.chunkSize < 2 ^ 64) (hshort : t.ShortHeader params.codec params.chunkSize)
    (htree : fs.IsTree) (hclimbs : fs.Climbs path)
    (h : Action.run (save t path params) fs = (.ok written, fs')) :
    load fs' path = .ok t ∧ ∃ loc node files, fs'.locate path = .ok (loc, node) ∧
      t.savedFiles params = .ok files ∧ written = (files.map fun f => f.2.size).sum ∧
      fs'.contents = fs.outside loc ++ files.map fun f => (loc ++ f.1, f.2) := by
  cases hlayout : params.contiguous with
  | true =>
    obtain ⟨s, frame, fs₁, hpack, hframe, hremove, hwrite, rfl⟩ := (run_save_file_eq_ok hlayout).1 h
    obtain ⟨chunks, hpacked⟩ := exists_packedIn hstorable.sized hblock htarget hpack
    obtain ⟨loc, hlocate, hcontents⟩ := Files.contents_of_replace htree hclimbs hremove hwrite
    refine ⟨load_of_file hpacked hstorable (hshort s · hpack) hframe hlocate, loc, .file frame,
      [([], frame)], hlocate, ?_, by simp, by simpa using hcontents⟩
    rw [savedFiles, hpack]
    simp only [bind, Except.bind, hlayout, if_true, hframe]
    rfl
  | false =>
    obtain ⟨s, head, chunks, s', fs₁, hpack, hremove, hparts, hwrite⟩ :=
      (run_save_directory_eq_ok hlayout).1 h
    obtain ⟨others, hpacked⟩ := exists_packedIn hstorable.sized hblock htarget hpack
    obtain ⟨loc, hlocate, hcontents, hwritten⟩ :=
      SparseFrame.contents_of_replace htree hclimbs hremove hwrite
    obtain ⟨hheader, hchunks⟩ := SparseFrame.read_of_writeAll hwrite
    refine ⟨load_of_directory hpacked hstorable (hshort s · hpack) hparts hlocate hheader hchunks, loc,
      .directory, SparseFrame.frameFiles head chunks, hlocate, ?_, hwritten, hcontents⟩
    rw [savedFiles, hpack]
    simp only [bind, Except.bind, hlayout, hparts]
    rfl

/-- Every tensor that was accepted is loaded again once it was saved, in whichever layout and whatever
stood at the path before. Then the files at the path and below it are those of the saved tensor, which
depend on it and the parameters only, and their sizes make up the number of bytes that the save gave;
all other files are as they were, in what is a tree again. Axes are signed words, as they are in the
metadata, and the length of the header fits its field. -/
theorem load_save {shape : Shape} {dtype : DType} {data : Bytes}
    (hnew : Tensor.new shape dtype data = .ok t) (hdtype : dtype.Composed)
    (haxes : ∀ n ∈ shape, n < 2 ^ 63) (hsized : t.Sized) (hblock : params.codec.blockSize < 2 ^ 64)
    (htarget : params.chunkSize < 2 ^ 64) (hshort : t.ShortHeader params.codec params.chunkSize)
    (htree : fs.IsTree) (hclimbs : fs.Climbs path)
    (h : Action.run (save t path params) fs = (.ok written, fs')) :
    load fs' path = .ok t ∧ fs'.IsTree ∧ ∃ loc node files, fs'.locate path = .ok (loc, node) ∧
      t.savedFiles params = .ok files ∧ (fs'.under loc = files.map fun f => (loc ++ f.1, f.2)) ∧
      fs'.outside loc = fs.outside loc ∧ written = ((fs'.under loc).map fun f => f.2.size).sum := by
  obtain ⟨rfl, hfull⟩ := new_eq_ok_iff.1 hnew
  obtain ⟨hload, loc, node, files, hlocate, hfiles, hwritten, hcontents⟩ :=
    load_of_run_save ⟨hfull, hdtype, haxes, hsized⟩ hblock htarget hshort htree hclimbs h
  obtain ⟨hunder, houtside⟩ := Files.under_of_contents hcontents
  refine ⟨hload, isTree_of_run_save htree h, loc, node, files, hlocate, hfiles, hunder, houtside, ?_⟩
  rw [hwritten, hunder, List.map_map]
  rfl

end Save

/-- Two bytes are saved as a file where a directory with two chunks stood before. -/
theorem load_save_over_directory :
    let fs : Files := { nodes := [([], .directory), (["t"], .directory), (["t", "frame.hdr"], .file #[7]),
      (["t", "chunks"], .directory), (["t", "chunks", "00000000.chunk"], .file #[8]),
      (["t", "chunks", "00000001.chunk"], .file #[9])] }
    ∃ t written fs', Tensor.new [2] (.scalar .uint8) #[1, 2] = .ok t ∧
      Action.run (save t ⟨["t"]⟩ { codec := { codec := .noop } }) fs = (.ok written, fs') ∧
      load fs' ⟨["t"]⟩ = .ok t := by
  intro fs
  have hnew : Tensor.new [2] (.scalar .uint8) #[1, 2] = .ok ⟨[2], .scalar .uint8, #[1, 2]⟩ :=
    new_eq_ok_iff.2 ⟨rfl, by decide +kernel⟩
  have hsized : Sized ⟨[2], .scalar .uint8, #[1, 2]⟩ :=
    ⟨by decide, by decide +kernel, by decide +kernel, by decide +kernel⟩
  obtain ⟨hshort, s, f, hpack, hframe, -⟩ := @exists_pack _ { codec := .noop }
    (4 * 1024 * 1024) hsized (by decide) rfl (by decide +kernel) (by decide +kernel)
    (by decide +kernel) (by decide +kernel) (by decide +kernel)
  have hremove : Action.run (Files.remove ⟨["t"]⟩) fs = (.ok (), {}) := rfl
  have hwrite : Files.write {} ⟨["t"]⟩ f = .ok (Files.put {} ["t"] (.file f)) := rfl
  have hrun : Action.run (save _ ⟨["t"]⟩ { codec := { codec := .noop } }) fs =
      (.ok f.size, Files.put {} ["t"] (.file f)) :=
    (run_save_file_eq_ok rfl).2 ⟨s, f, {}, hpack, hframe, hremove, hwrite, rfl⟩
  have hclimbs : fs.Climbs ⟨["t"]⟩ := Files.climbs_of_notMem (by decide)
  exact ⟨_, _, _, hnew, hrun, (load_save hnew (.scalar .uint8) (by decide) hsized (by decide)
    (by decide) hshort (by decide) hclimbs hrun).1⟩

/-- An axis beyond the signed words is saved next to an empty one, and the tensor is not loaded: in the
metadata the axis has become negative. -/
theorem load_save_beyond_words :
    ∃ t written fs', Tensor.new [2 ^ 63, 0] (.scalar .uint8) #[] = .ok t ∧
      Action.run (save t ⟨["t"]⟩ { codec := { codec := .noop }, contiguous := true }) {} =
        (.ok written, fs') ∧
      load fs' ⟨["t"]⟩ = .error (.format (.notAnAxis (.int (-2 ^ 63)))) := by
  have hnew : Tensor.new [2 ^ 63, 0] (.scalar .uint8) #[] = .ok ⟨[2 ^ 63, 0], .scalar .uint8, #[]⟩ :=
    new_eq_ok_iff.2 ⟨rfl, by decide +kernel⟩
  have hsized : Sized ⟨[2 ^ 63, 0], .scalar .uint8, #[]⟩ :=
    ⟨by decide, by decide +kernel, by decide +kernel, by decide +kernel⟩
  obtain ⟨hshort, s, f, hpack, hframe, hsize⟩ := @exists_pack _ { codec := .noop }
    (4 * 1024 * 1024) hsized (by decide) rfl (by decide +kernel) (by decide +kernel)
    (by decide +kernel) (by decide +kernel) (by decide +kernel)
  have hshape : (MetaValue.ofShape [2 ^ 63, 0]).toShape =
      .error (.format (.notAnAxis (.int (-2 ^ 63)))) := rfl
  obtain ⟨r, hr, hstored, -⟩ := exists_ofFrame hsized (by decide) (by decide) hshort hpack hframe hsize
  have hremove : Action.run (Files.remove ⟨["t"]⟩) {} = (.ok (), {}) := rfl
  have hwrite : Files.write {} ⟨["t"]⟩ f = .ok (Files.put {} ["t"] (.file f)) := rfl
  have hlocate : (Files.put {} ["t"] (.file f)).locate ⟨["t"]⟩ = .ok (["t"], .file f) := rfl
  refine ⟨_, f.size, Files.put {} ["t"] (.file f), hnew,
    (run_save_file_eq_ok rfl).2 ⟨s, f, {}, hpack, hframe, hremove, hwrite, rfl⟩, ?_⟩
  rw [load_eq_unpack hlocate, unpack, hr]
  simp only [bind, Except.bind]
  rw [ofStore_eq_outcome, Action.outcome,
    hstored.run_unpackStore_of_error (.scalar .uint8) hshape (r.chunkSource {})]

end ChunkedArray.Tensor
