import ChunkedArray.Proofs.Files.Faults
import ChunkedArray.Proofs.Files.Written
import ChunkedArray.Proofs.Frame.Contiguous
import ChunkedArray.Proofs.Store.Mirror

/-!
# Sparse frames and contiguous ones

A store can be saved as a directory and as one byte string, and what is opened from the two cannot be
told apart. The directory gives a store that has no chunk in memory yet and loads each from its file
when it is first needed; the byte string gives a store with all chunks in memory, which the other one
mirrors. What stood in the directory before does not matter.
-/

namespace ChunkedArray

/-- A header is written with other flags too, at the same length. -/
theorem FrameHeader.exists_toBytes_withFlags {h : FrameHeader} {b : Bytes} (hb : h.toBytes = .ok b)
    (flags : UInt16) : ∃ b', { h with flags }.toBytes = .ok b' ∧ b'.size = b.size := by
  obtain ⟨codec, metadata, hcodec, hmetadata, rfl⟩ := toBytes_eq_ok hb
  refine ⟨{ h with flags }.prefixBytes (Bytes.concat (h.bodyParts codec metadata)).size ++
    Bytes.concat (h.bodyParts codec metadata), ?_, ?_⟩
  · rw [toBytes, hcodec, hmetadata]
    rfl
  · rw [Array.size_append, Array.size_append, size_prefixBytes, size_prefixBytes]

namespace Store

variable {s : Store} {source : ChunkSource} {chunks : List Chunk}

/-! ## Writing -/

/-- A chunk with which a slot answers is one of them. -/
theorem Fetches.mem_of_fetch (h : s.Fetches source chunks) {i : Nat} {c : Chunk}
    (hfetch : s.fetch source i = .ok c) : c ∈ chunks := by
  obtain ⟨slot, hslot, -⟩ := exists_slot_of_fetch hfetch
  have hlt : i < chunks.length := by
    rw [h.length]
    exact (Array.getElem?_eq_some_iff.1 hslot).1
  have hsame := (h.fetch hlt).symm.trans hfetch
  exact List.mem_iff_getElem.2 ⟨i, hlt, Except.ok.inj hsame⟩

/-- Slots that all answer are fetched in a row. -/
theorem exists_run_chunksFrom {i count : Nat}
    (h : (List.range' i count).map (s.fetch source) = chunks.map .ok) :
    ∃ s', Action.run (chunksFrom source i count) s = (.ok chunks, s') := by
  induction count generalizing s i chunks with
  | zero =>
    obtain rfl : chunks = [] := by simpa using h.symm
    exact ⟨s, rfl⟩
  | succ count ih =>
    cases chunks with
    | nil => simp [List.range'_succ] at h
    | cons c rest =>
      rw [List.range'_succ, List.map_cons, List.map_cons] at h
      obtain ⟨hfirst, hothers⟩ := List.cons.inj h
      obtain ⟨s₁, hrun, halike⟩ := Store.run_chunk source i s
      rw [hfirst] at hrun
      rw [List.map_congr_left fun j _ => (halike.fetch j).symm] at hothers
      obtain ⟨s₂, hrest⟩ := ih hothers
      refine ⟨s₂, ?_⟩
      rw [chunksFrom, Action.run_bind_of_ok hrun, Action.run_bind_of_ok hrest]
      rfl

/-- If all slots answer, the store is described by its own header and these chunks. -/
theorem WellKept.exists_run_frameParts (h : s.WellKept) (hsource : Faithful source)
    (hfetch : s.Fetches source chunks) (flags : UInt16) :
    ∃ s', Action.run (frameParts source flags) s = (.ok (s.headerFor flags chunks, chunks), s') := by
  have hall : ∃ s', Action.run (allChunks source) s = (.ok chunks, s') := by
    rw [allChunks, Action.run_bind_of_ok (Action.run_get s)]
    exact exists_run_chunksFrom (by rwa [Fetches, List.range_eq_range'] at hfetch)
  obtain ⟨s₁, hchunks⟩ := hall
  have hrun : ∃ header s', Action.run (frameParts source flags) s = (.ok (header, chunks), s') := by
    rw [frameParts, Action.run_bind_of_ok hchunks, Action.run_bind_of_ok (Action.run_modify _ _),
      Action.run_bind_of_ok (Action.run_get _)]
    exact ⟨_, _, rfl⟩
  obtain ⟨header, s', hrun⟩ := hrun
  obtain ⟨rfl, -⟩ := h.run_frameParts hsource hrun
  exact ⟨s', hrun⟩

/-- What it takes to save a store: no slot is reserved and all chunks can be fetched, each below four
gigabytes; the header is written, at a length of four bytes; and the frame would be in memory. -/
structure Savable (s : Store) (source : ChunkSource) (chunks : List Chunk) (head : Bytes) : Prop where
  fetches : s.Fetches source chunks
  small : ∀ c ∈ chunks, c.nbytes < 2 ^ 32
  header : Action.outcome (frameHead source) s = .ok head
  short : head.size < FrameHeader.prefixSize + 2 ^ 32
  memory : head.size + (chunks.map Chunk.cbytes).sum < 2 ^ 63

section Savable

variable {head : Bytes} (hsave : s.Savable source chunks head) (hkept : s.WellKept)
  (hsource : Faithful source)
include hsave hkept hsource

theorem Savable.toBytes : (s.headerFor 0 chunks).toBytes = .ok head := by
  obtain ⟨s', hrun⟩ := hkept.exists_run_frameParts hsource hsave.fetches 0
  have hhead := hsave.header
  rw [frameHead, Action.outcome, Action.run_bind_of_ok hrun, Action.run_liftM] at hhead
  exact hhead

/-- The contiguous frame is made. -/
theorem Savable.exists_run_toFrame : ∃ f s', Action.run (toFrame source) s = (.ok f, s') ∧
    f.size = head.size + (chunks.map Chunk.cbytes).sum := by
  obtain ⟨s', hrun⟩ := hkept.exists_run_frameParts hsource hsave.fetches 0
  have hhead := hsave.toBytes hkept hsource
  have hmemory := hsave.memory
  have htotal : (s.headerFor 0 chunks).payloadSize = .ok (chunks.map Chunk.cbytes).sum :=
    (payloadSize_headerFor s 0 chunks).trans (if_pos (by omega))
  refine ⟨head ++ Bytes.concat (chunks.map Chunk.data), s', ?_, ?_⟩
  · rw [toFrame, Action.run_bind_of_ok hrun]
    simp only [hhead, htotal, foldl_data]
    rfl
  · rw [Array.size_append, size_concat_data]

/-- So are the parts of the sparse one, with a header of the same length. -/
theorem Savable.exists_run_sparseParts : ∃ head' s',
    Action.run (sparseParts source) s = (.ok (head', chunks), s') ∧
      (s.headerFor FrameHeader.sparseFlag chunks).toBytes = .ok head' ∧ head'.size = head.size := by
  obtain ⟨s', hrun⟩ := hkept.exists_run_frameParts hsource hsave.fetches FrameHeader.sparseFlag
  obtain ⟨head', hhead', hsize⟩ := FrameHeader.exists_toBytes_withFlags (hsave.toBytes hkept hsource)
    FrameHeader.sparseFlag
  refine ⟨head', s', ?_, hhead', hsize⟩
  rw [sparseParts, Action.run_bind_of_ok hrun]
  have hhead : (s.headerFor FrameHeader.sparseFlag chunks).toBytes = .ok head' := hhead'
  simp only [hhead]
  rfl

theorem Savable.nbytes_lt : s.nbytes < 2 ^ 64 :=
  hkept.tallied.nbytes_lt hsave.fetches hsave.small (hsave.toBytes hkept hsource) hsave.short

/-- The serialized form of each chunk is read back. -/
theorem Savable.ofBytes_data {c : Chunk} (hc : c ∈ chunks) : Chunk.ofBytes c.data = .ok c.narrowed := by
  obtain ⟨i, hi⟩ := hsave.fetches.exists_of_mem hc
  exact (hkept.kept_of_fetch hsource hi).readsBack (.inr (.inl (hsave.small c hc)))

/-- The contiguous frame gives the store back. -/
theorem Savable.exists_ofFrame (hwords : s.HasWords) :
    ∃ f s', Action.run (toFrame source) s = (.ok f, s') ∧ ofFrame f = .ok (s.restored chunks) := by
  obtain ⟨f, s', hrun, hsize⟩ := hsave.exists_run_toFrame hkept hsource
  obtain ⟨chunks', hfetch', hframe⟩ := hkept.ofFrame_of_run_toFrame hsource hwords
    (hsave.nbytes_lt hkept hsource)
    (fun i c hi => .inr (.inl (hsave.small c (hsave.fetches.mem_of_fetch hi)))) hrun
    (hsize ▸ hsave.memory) hsave.header hsave.short
  obtain rfl := hsave.fetches.unique hfetch'
  exact ⟨f, s', hrun, hframe⟩

/-- If the file system has no fault, the directory is written, and its files are read back. -/
theorem Savable.exists_saveSparse {fs : Files} (hfs : source = s.chunkSource fs) {dir : Path}
    (hio : ∀ fault, (s.saveSparse fs dir).1 ≠ .error (.io fault)) :
    ∃ written s' fs' head', s.saveSparse fs dir = (.ok written, s', fs') ∧
      (s.headerFor FrameHeader.sparseFlag chunks).toBytes = .ok head' ∧ head'.size = head.size ∧
      fs'.read (SparseFrame.headerPath dir) = .ok head' ∧
      ∀ i c, chunks[i]? = some c → fs'.read (SparseFrame.chunkPath dir i) = .ok c.data := by
  subst hfs
  obtain ⟨head', s', hparts, hhead', hsize⟩ := hsave.exists_run_sparseParts hkept hsource
  have hrun : s.saveSparse fs dir =
      ((Action.run (SparseFrame.writeAll dir head' chunks) fs).1, s',
        (Action.run (SparseFrame.writeAll dir head' chunks) fs).2) := by
    rw [saveSparse, show s.run (sparseParts (s.chunkSource fs)) = _ from hparts]
    rfl
  have hfaults := Files.faultsOnly_writeAll dir head' chunks fs
  rw [hrun] at hio ⊢
  revert hio hfaults
  cases hwrite : Action.run (SparseFrame.writeAll dir head' chunks) fs with
  | mk answer fs' =>
    intro hio hfaults
    cases answer with
    | error e =>
      obtain ⟨fault, rfl⟩ := hfaults e rfl
      exact absurd rfl (hio fault)
    | ok written =>
      obtain ⟨hheader, hchunks⟩ := SparseFrame.read_of_writeAll hwrite
      exact ⟨written, s', fs', head', rfl, hhead', hsize, hheader, hchunks⟩

end Savable

/-! ## Opening -/

/-- The store that a directory gives: all chunks are still in their files. -/
def opened (s : Store) (chunks : List Chunk) (dir : Path) (headerSize : Nat) : Store where
  codec := s.codec
  chunkSize := s.chunkSize
  allowResize := s.allowResize
  table := .ofSlots s.chunkSize (chunks.map fun c => Slot.pending c.nbytes c.cbytes).toArray
  metadata := { entries := s.metadata.compact.2.entries }
  source := some ⟨dir, { s.headerFor FrameHeader.sparseFlag chunks with headerSize }⟩

section Opened

variable {head head' : Bytes} (hsave : s.Savable source chunks head) (hkept : s.WellKept)
  (hsource : Faithful source) {fs' : Files} {dir : Path}
include hsave hkept hsource

/-- A directory with the header of a store is opened. -/
theorem Savable.openSparse_eq (hwords : s.HasWords)
    (hhead' : (s.headerFor FrameHeader.sparseFlag chunks).toBytes = .ok head')
    (hsize : head'.size = head.size) (hread : fs'.read (SparseFrame.headerPath dir) = .ok head') :
    openSparse fs' dir = .ok (s.opened chunks dir head'.size) := by
  have hmemory := hsave.memory
  have hconsistent := hkept.consistent_headerFor hwords hsave.fetches (hsave.nbytes_lt hkept hsource)
    (by omega) FrameHeader.sparseFlag
  have hpeek := FrameHeader.peek_toBytes hhead' hconsistent rfl (hsize ▸ hsave.short) #[]
  rw [Array.append_empty] at hpeek
  have hopen : SparseFrame.openAt fs' dir = .ok ⟨dir,
      { s.headerFor FrameHeader.sparseFlag chunks with headerSize := head'.size }⟩ := by
    rw [SparseFrame.openAt, hread]
    simp only [bind, Except.bind, hpeek]
    exact if_pos (by simp [FrameHeader.isSparse, headerFor, FrameHeader.sparseFlag])
  have hmetadata := hkept.metadata.insertAll_rawEntries fun e he =>
    FrameHeader.size_lt_of_toBytes hhead' e he
  rw [openSparse, hopen]
  simp only [bind, Except.bind, headerFor, hmetadata]
  rw [ofSource, new, hkept.valid]
  simp only [bind, Except.bind, if_neg hkept.chunkSize.ne', pure, Except.pure, List.map_map]
  rfl

/-- A chunk of the opened store is loaded from its file. -/
theorem Savable.chunkSource_opened
    (hread : ∀ i c, chunks[i]? = some c → fs'.read (SparseFrame.chunkPath dir i) = .ok c.data)
    (headerSize : Nat) {i : Nat} {c : Chunk} (hc : chunks[i]? = some c) :
    (s.opened chunks dir headerSize).chunkSource fs' i = .ok c.narrowed := by
  have hindex : (s.headerFor FrameHeader.sparseFlag chunks).index[i]? = some c.indexEntry := by
    rw [headerFor, List.getElem?_map, hc, Option.map_some]
  have hsize : c.data.size = c.indexEntry.cbytes := rfl
  have hrestore := Chunk.restore_data
    (hsave.ofBytes_data hkept hsource (List.mem_of_getElem? hc)) i
  rw [chunkSource, opened]
  simp only [SparseFrame.readChunk, hindex, hread i c hc, bind, Except.bind]
  rw [if_pos hsize, hrestore]

/-- The opened store mirrors the restored one. -/
theorem Savable.mirrors_opened
    (hread : ∀ i c, chunks[i]? = some c → fs'.read (SparseFrame.chunkPath dir i) = .ok c.data)
    (headerSize : Nat) :
    Mirrors ((s.opened chunks dir headerSize).chunkSource fs') (s.opened chunks dir headerSize)
      (s.restored chunks) := by
  refine ⟨rfl, rfl, rfl, rfl, rfl, .ofSlots (fun i => ?_) s.chunkSize⟩
  rw [List.getElem?_toArray, List.getElem?_toArray, List.getElem?_map, List.getElem?_map]
  cases hc : chunks[i]? with
  | none => exact .none
  | some c => exact .some (.pending (hsave.chunkSource_opened hkept hsource hread headerSize hc))

end Opened

/-- A store that was written into a directory and is opened from there, and one that was written into a
byte string and is opened from there, give the same answers to all calls. -/
theorem openSparse_alike_ofFrame {fs : Files} {dir : Path} {head : Bytes} (hs : s.Reachable)
    (hwords : s.HasWords) (hsave : s.Savable (s.chunkSource fs) chunks head)
    (hio : ∀ fault, (s.saveSparse fs dir).1 ≠ .error (.io fault)) :
    ∃ written s' fs' lazy f eager, s.saveSparse fs dir = (.ok written, s', fs') ∧
      openSparse fs' dir = .ok lazy ∧ (s.run (toFrame (s.chunkSource fs))).1 = .ok f ∧
      ofFrame f = .ok eager ∧
      ∀ fs'' calls, askAll fs' lazy calls = askAll fs'' eager calls := by
  have hkept := hs.wellKept
  have hsource := faithful_chunkSource s fs
  obtain ⟨written, s', fs', head', hsaved, hhead', hsize, hheader, hchunks⟩ :=
    hsave.exists_saveSparse hkept hsource rfl hio
  obtain ⟨f, s'', hframe, hrestored⟩ := hsave.exists_ofFrame hkept hsource hwords
  have hopened := hsave.openSparse_eq hkept hsource hwords hhead' hsize hheader
  have hmirrors := hsave.mirrors_opened hkept hsource hchunks head'.size
  exact ⟨written, s', fs', _, f, _, hsaved, hopened, congrArg Prod.fst hframe, hrestored,
    fun fs'' calls => hmirrors.askAll_eq rfl fs'' calls⟩

/-- A store of one chunk of two bytes, saved where a longer store was saved before. -/
theorem openSparse_alike_two_bytes :
    let start : Store := { codec := { codec := .noop, level := 0 }, chunkSize := 2 }
    let s := (start.run (perform (start.chunkSource {}) (.append #[1, 2]))).2
    let fs : Files := { nodes := [([], .directory), (["d"], .directory), (["d", "chunks"], .directory),
      (["d", "chunks", "00000001.chunk"], .file #[7])] }
    ∃ lazy f eager, openSparse (s.saveSparse fs ⟨["d"]⟩).2.2 ⟨["d"]⟩ = .ok lazy ∧
      (s.run (toFrame (s.chunkSource fs))).1 = .ok f ∧ ofFrame f = .ok eager ∧
      ∀ fs'' calls, askAll (s.saveSparse fs ⟨["d"]⟩).2.2 lazy calls = askAll fs'' eager calls := by
  intro start s fs
  have hcount : s.nchunks = 1 := by decide +kernel
  have hchunk : (s.fetch (s.chunkSource fs) 0).toOption.map (fun c => (c.nbytes, c.cbytes)) =
      some (2, 26) := by
    decide +kernel
  have hhead : (s.run (frameHead (s.chunkSource fs))).1.toOption.map Array.size = some 137 := by
    decide +kernel
  have hwritten : (s.saveSparse fs ⟨["d"]⟩).1.isOk = true := by decide +kernel
  have hstart : Store.new { codec := .noop, level := 0 } 2 = .ok start := rfl
  have hreachable : s.Reachable := .perform (.new hstart) {} (.append (by decide))
  have hwords : s.HasWords := ⟨by decide +kernel, by decide +kernel⟩
  -- From here on the store is any one with these properties.
  clear_value s
  obtain ⟨c, hc, hsizes⟩ : ∃ c, s.fetch (s.chunkSource fs) 0 = .ok c ∧
      (c.nbytes, c.cbytes) = (2, 26) := by
    cases hc : s.fetch (s.chunkSource fs) 0 with
    | error e => simp [hc, Except.toOption] at hchunk
    | ok c => exact ⟨c, rfl, by simpa [hc, Except.toOption] using hchunk⟩
  obtain ⟨hnbytes, hcbytes⟩ := Prod.mk.inj hsizes
  obtain ⟨head, hh, hhsize⟩ : ∃ head, (s.run (frameHead (s.chunkSource fs))).1 = .ok head ∧
      head.size = 137 := by
    cases hh : (s.run (frameHead (s.chunkSource fs))).1 with
    | error e => simp [hh, Except.toOption] at hhead
    | ok head => exact ⟨head, rfl, by simpa [hh, Except.toOption] using hhead⟩
  have hsave : s.Savable (s.chunkSource fs) [c] head := by
    constructor
    · rw [Fetches, hcount, List.range_one, List.map_singleton, List.map_singleton, hc]
    · simp [hnbytes]
    · exact hh
    · rw [hhsize]
      decide
    · simp [hhsize, hcbytes]
  have hio : ∀ fault, (s.saveSparse fs ⟨["d"]⟩).1 ≠ .error (.io fault) := by
    intro fault hfault
    simp [hfault, Except.isOk, Except.toBool] at hwritten
  obtain ⟨written, s', fs', lazy, f, eager, hsaved, hlazy, hf, heager, halike⟩ :=
    openSparse_alike_ofFrame hreachable hwords hsave hio
  rw [hsaved]
  exact ⟨lazy, f, eager, hlazy, hf, heager, halike⟩

end Store

end ChunkedArray
