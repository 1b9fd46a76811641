import ChunkedArray.Proofs.Frame.Header
import ChunkedArray.Proofs.Store.Reachable

/-!
# Contiguous frames read back

A frame gives back the store that it was made from: its parameters, its chunks in order and its live
metadata. The header is read back from the front, each chunk is cut out at the sum of the sizes in
front of it, and the total in the header is that of the index because the offsets of a store are
current. Writing the restored store gives the same frame.
-/

namespace ChunkedArray

/-- The row of a chunk in the index of a frame. -/
def Chunk.indexEntry (c : Chunk) : IndexEntry := ⟨c.cbytes, c.nbytes⟩

/-- A chunk that is read back has the size in its row. -/
theorem Chunk.restore_data {c : Chunk} (h : ofBytes c.data = .ok c.narrowed) (i : Nat) :
    restore i c.data c.indexEntry = .ok c.narrowed := by
  rw [restore, h]
  exact if_pos rfl

namespace Store

variable {s s' : Store} {source : ChunkSource} {chunks : List Chunk}

/-! ## The chunks of a store -/

/-- The slots of a store answer with certain chunks, in order. -/
def Fetches (s : Store) (source : ChunkSource) (chunks : List Chunk) : Prop :=
  (List.range s.nchunks).map (s.fetch source) = chunks.map .ok

theorem Fetches.length (h : s.Fetches source chunks) : chunks.length = s.nchunks := by
  simpa using (congrArg List.length h).symm

theorem Fetches.fetch (h : s.Fetches source chunks) {i : Nat} (hi : i < chunks.length) :
    s.fetch source i = .ok chunks[i] := by
  have hanswer := congrArg (fun answers => answers[i]?) h
  have hlt : i < s.nchunks := by
    rwa [← h.length]
  simpa [List.getElem?_range hlt, hi] using hanswer

theorem Fetches.exists_of_mem (h : s.Fetches source chunks) {c : Chunk} (hc : c ∈ chunks) :
    ∃ i, s.fetch source i = .ok c := by
  obtain ⟨i, hi, rfl⟩ := List.getElem_of_mem hc
  exact ⟨i, h.fetch hi⟩

theorem Fetches.unique {others : List Chunk} (h : s.Fetches source chunks)
    (h' : s.Fetches source others) : chunks = others :=
  List.map_injective_iff.2 (fun _ _ => Except.ok.inj) (h.symm.trans h')

theorem Alike.fetches (h : Alike source s s') (hfetch : s.Fetches source chunks) :
    s'.Fetches source chunks := by
  rw [Fetches, h.nchunks, ← hfetch]
  exact List.map_congr_left fun i _ => h.fetch i

/-- Fetching chunks in a row gives the answers of their slots. -/
theorem WellKept.run_chunksFrom (h : s.WellKept) (hsource : Faithful source) {i count : Nat}
    (hrun : Action.run (chunksFrom source i count) s = (.ok chunks, s')) :
    s'.WellKept ∧ Alike source s s' ∧
      (List.range' i count).map (s.fetch source) = chunks.map .ok := by
  induction count generalizing s i chunks with
  | zero =>
    cases hrun
    exact ⟨h, .refl _, rfl⟩
  | succ count ih =>
    obtain ⟨c, s₁, hfirst, hrun⟩ := Action.exists_of_run_bind_eq_ok hrun
    obtain ⟨rest, s₂, hrest, hrun⟩ := Action.exists_of_run_bind_eq_ok hrun
    cases hrun
    obtain ⟨s₁', hrun', halike⟩ := Store.run_chunk source i s
    have hkept := h.run_chunk hsource i
    rw [hfirst] at hrun' hkept
    obtain ⟨hfetch, rfl⟩ := Prod.mk.inj hrun'
    obtain ⟨hkept', halike', hothers⟩ := ih hkept hrest
    refine ⟨hkept', halike.trans halike', ?_⟩
    rw [List.range'_succ, List.map_cons, List.map_cons, ← hfetch, ← hothers]
    exact congrArg _ (List.map_congr_left fun j _ => (halike.fetch j).symm)

/-- Fetching all chunks gives the answers of all slots. -/
theorem WellKept.run_allChunks (h : s.WellKept) (hsource : Faithful source)
    (hrun : Action.run (allChunks source) s = (.ok chunks, s')) :
    s'.WellKept ∧ Alike source s s' ∧ s.Fetches source chunks := by
  rw [allChunks, Action.run_bind_of_ok (Action.run_get s)] at hrun
  rw [Fetches, List.range_eq_range']
  exact h.run_chunksFrom hsource hrun

/-- The total of a store is that of the chunks with which its slots answer. -/
theorem Tallied.nbytes_eq (h : s.Tallied) (hfetch : s.Fetches source chunks) :
    s.nbytes = (chunks.map Chunk.nbytes).sum := by
  rw [nbytes, h, ChunkTable.nbytes_ofSlots]
  refine congrArg List.sum (List.ext_getElem? fun i => ?_)
  rw [List.getElem?_map, List.getElem?_map, Array.getElem?_toList]
  by_cases hi : i < chunks.length
  · obtain ⟨slot, hslot, hanswer⟩ := exists_slot_of_fetch (hfetch.fetch hi)
    rw [hslot, List.getElem?_eq_getElem hi, Option.map_some, Option.map_some,
      Slot.extent_of_fetch hanswer]
  · have hlength : s.table.slots.size ≤ i := by
      rw [← nchunks, ← hfetch.length]
      omega
    rw [Array.getElem?_eq_none hlength, List.getElem?_eq_none (by omega)]
    rfl

/-! ## Writing -/

/-- The header of a frame of a store with certain chunks. -/
def headerFor (s : Store) (flags : UInt16) (chunks : List Chunk) : FrameHeader where
  version := FrameHeader.formatVersion
  flags
  codec := s.codec
  chunkSize := s.chunkSize
  nbytes := s.nbytes
  allowResize := s.allowResize
  metadata := s.metadata.rawEntries
  index := chunks.map Chunk.indexEntry

/-- The header bytes of the contiguous frame of a store. -/
def frameHead (source : ChunkSource) : StoreM Bytes := do
  let (header, _) ← frameParts source 0
  liftM (n := StoreM) header.toBytes

theorem payloadSize_headerFor (s : Store) (flags : UInt16) (chunks : List Chunk) :
    (s.headerFor flags chunks).payloadSize =
      FrameHeader.checkedTotal "compressed" (chunks.map Chunk.cbytes) := by
  rw [FrameHeader.payloadSize, headerFor, List.map_map]
  rfl

/-- A frame describes a store by its own header and the chunks with which its slots answer. -/
theorem WellKept.run_frameParts (h : s.WellKept) (hsource : Faithful source) {flags : UInt16}
    {header : FrameHeader}
    (hrun : Action.run (frameParts source flags) s = (.ok (header, chunks), s')) :
    header = s.headerFor flags chunks ∧ s.Fetches source chunks := by
  obtain ⟨chunks', s₁, hchunks, hrun⟩ := Action.exists_of_run_bind_eq_ok hrun
  simp only [Action.run_bind, Action.run_modify, Action.run_get] at hrun
  cases hrun
  obtain ⟨hkept, halike, hfetch⟩ := h.run_allChunks hsource hchunks
  have hnbytes : s₁.nbytes = s.nbytes :=
    (hkept.tallied.nbytes_eq (halike.fetches hfetch)).trans (h.tallied.nbytes_eq hfetch).symm
  refine ⟨?_, hfetch⟩
  simp only [headerFor, halike.codec, halike.chunkSize, halike.allowResize, halike.metadata,
    Metadata.rawEntries_compact, ← hnbytes]
  rfl

theorem foldl_data (head : Bytes) (chunks : List Chunk) :
    chunks.foldl (fun out c => out ++ c.data) head =
      head ++ Bytes.concat (chunks.map Chunk.data) := by
  induction chunks generalizing head with
  | nil => simp [Bytes.concat]
  | cons c rest ih => rw [List.foldl_cons, ih, List.map_cons, Bytes.concat_cons, Array.append_assoc]

/-- A frame is the header of a store and the serialized forms of its chunks. -/
theorem WellKept.run_toFrame (h : s.WellKept) (hsource : Faithful source) {f : Bytes}
    (hrun : Action.run (toFrame source) s = (.ok f, s')) :
    ∃ chunks head, s.Fetches source chunks ∧
      (s.headerFor 0 chunks).toBytes = .ok head ∧
      Action.outcome (frameHead source) s = .ok head ∧
      (chunks.map Chunk.cbytes).sum < 2 ^ 64 ∧
      f = head ++ Bytes.concat (chunks.map Chunk.data) := by
  obtain ⟨⟨header, chunks⟩, s₁, hparts, hrun⟩ := Action.exists_of_run_bind_eq_ok hrun
  obtain ⟨head, s₂, hhead, hrun⟩ := Action.exists_of_run_bind_eq_ok hrun
  obtain ⟨payload, s₃, hpayload, hrun⟩ := Action.exists_of_run_bind_eq_ok hrun
  rw [Action.run_liftM] at hhead hpayload
  have htoBytes := (Prod.mk.inj hhead).1
  have hsize := (Prod.mk.inj hpayload).1
  cases hrun
  obtain ⟨rfl, hfetch⟩ := h.run_frameParts hsource hparts
  refine ⟨chunks, head, hfetch, htoBytes, ?_, ?_, foldl_data head chunks⟩
  · rw [frameHead, Action.outcome, Action.run_bind_of_ok hparts]
    exact htoBytes
  · rw [payloadSize_headerFor, FrameHeader.checkedTotal] at hsize
    by_contra hlarge
    rw [if_neg hlarge] at hsize
    cases hsize

/-! ## Writing stores in memory -/

/-- Chunks in memory are fetched without a change. -/
theorem run_chunksFrom_loaded {i : Nat}
    (h : ∀ k < chunks.length, s.table.slots[i + k]? = chunks[k]?.map Slot.loaded) :
    Action.run (chunksFrom source i chunks.length) s = (.ok chunks, s) := by
  induction chunks generalizing i with
  | nil => rfl
  | cons c rest ih =>
    have hfirst : Action.run (chunk source i) s = (.ok c, s) :=
      run_chunk_loaded (by simpa using h 0 (Nat.zero_lt_succ _))
    have hothers := ih (i := i + 1) fun k hk => by
      simpa [Nat.add_assoc, Nat.add_comm 1 k] using h (k + 1) (by simpa using hk)
    rw [List.length_cons, chunksFrom, Action.run_bind_of_ok hfirst, Action.run_bind_of_ok hothers]
    rfl

/-- A store whose chunks are all in memory is described by its own header and those chunks. -/
theorem run_frameParts_of_loaded (hslots : s.table.slots = (chunks.map Slot.loaded).toArray)
    (flags : UInt16) (source : ChunkSource) :
    Action.run (frameParts source flags) s =
      (.ok (s.headerFor flags chunks, chunks), { s with metadata := s.metadata.compact.2 }) := by
  have hlength : s.nchunks = chunks.length := by
    rw [nchunks, hslots, List.size_toArray, List.length_map]
  have hall : Action.run (allChunks source) s = (.ok chunks, s) := by
    rw [allChunks, Action.run_bind_of_ok (Action.run_get _), hlength]
    exact run_chunksFrom_loaded fun k _ => by simp [hslots]
  rw [frameParts, Action.run_bind_of_ok hall, Action.run_bind_of_ok (Action.run_modify _ _),
    Action.run_bind_of_ok (Action.run_get _)]
  simp only [headerFor, Metadata.rawEntries_compact]
  rfl

/-- The frame of such a store depends on its header and those chunks only. -/
theorem outcome_toFrame_of_loaded (hslots : s.table.slots = (chunks.map Slot.loaded).toArray)
    (source : ChunkSource) :
    Action.outcome (toFrame source) s = (do
      let head ← (s.headerFor 0 chunks).toBytes
      let _ ← (s.headerFor 0 chunks).payloadSize
      pure (head ++ Bytes.concat (chunks.map Chunk.data))) := by
  rw [toFrame, Action.outcome, Action.run_bind_of_ok (run_frameParts_of_loaded hslots 0 source)]
  simp only [foldl_data]
  cases (s.headerFor 0 chunks).toBytes with
  | error e => rfl
  | ok head =>
    cases (s.headerFor 0 chunks).payloadSize with
    | error e => rfl
    | ok size => rfl

/-- Such a store is written if its header is. -/
theorem run_toFrame_of_loaded (hslots : s.table.slots = (chunks.map Slot.loaded).toArray)
    {head : Bytes} (hhead : (s.headerFor 0 chunks).toBytes = .ok head)
    (hpayload : (chunks.map Chunk.cbytes).sum < 2 ^ 64) (source : ChunkSource) :
    Action.run (toFrame source) s =
      (.ok (head ++ Bytes.concat (chunks.map Chunk.data)),
        { s with metadata := s.metadata.compact.2 }) := by
  have htotal : (s.headerFor 0 chunks).payloadSize = .ok (chunks.map Chunk.cbytes).sum :=
    (payloadSize_headerFor s 0 chunks).trans (if_pos hpayload)
  rw [toFrame, Action.run_bind_of_ok (run_frameParts_of_loaded hslots 0 source)]
  simp only [hhead, htotal, foldl_data]
  rfl

theorem size_concat_data (chunks : List Chunk) :
    (Bytes.concat (chunks.map Chunk.data)).size = (chunks.map Chunk.cbytes).sum := by
  rw [Bytes.size_concat, List.map_map]
  rfl

/-- Slim chunks take little more room than their bytes. -/
theorem sum_cbytes_le (h : ∀ c ∈ chunks, c.cbytes ≤ chunkHeaderSize + c.nbytes) :
    (chunks.map Chunk.cbytes).sum ≤
      chunkHeaderSize * chunks.length + (chunks.map Chunk.nbytes).sum := by
  induction chunks with
  | nil => simp
  | cons c rest ih =>
    obtain ⟨hfirst, hrest⟩ := List.forall_mem_cons.1 h
    have hle := ih hrest
    rw [List.map_cons, List.sum_cons, List.map_cons, List.sum_cons, List.length_cons, Nat.mul_succ]
    omega

/-- A store in memory is written if its codec text and its metadata fit their fields. -/
theorem exists_run_toFrame (hslots : s.table.slots = (chunks.map Slot.loaded).toArray)
    (hcodec : s.codec.toJson.render.length ≤ FrameHeader.maxFieldLength)
    (hkeys : ∀ e ∈ s.metadata.rawEntries, e.1.toUTF8.size < 2 ^ 16)
    (hvalues : ∀ e ∈ s.metadata.rawEntries, e.2.size ≤ FrameHeader.maxFieldLength)
    (hpayload : (chunks.map Chunk.cbytes).sum < 2 ^ 64) (source : ChunkSource) :
    ∃ f head s', Action.run (toFrame source) s = (.ok f, s') ∧
      Action.outcome (frameHead source) s = .ok head ∧
      head.size = FrameHeader.prefixSize + (s.codec.toJson.render.length +
        (s.metadata.rawEntries.map fun e => e.1.toUTF8.size + e.2.size + 6).sum +
          16 * chunks.length + 33) ∧
      f.size = head.size + (chunks.map Chunk.cbytes).sum := by
  obtain ⟨head, hhead, hsize⟩ := @FrameHeader.exists_toBytes (s.headerFor 0 chunks) hcodec hkeys
    hvalues
  refine ⟨_, head, _, run_toFrame_of_loaded hslots hhead hpayload source, ?_, ?_, ?_⟩
  · rw [frameHead, Action.outcome, Action.run_bind_of_ok (run_frameParts_of_loaded hslots 0 source)]
    exact hhead
  · rw [hsize, headerFor]
    simp only [List.length_map]
  · rw [Array.size_append, size_concat_data]

/-! ## Reading -/

/-- The chunks of a frame are cut out one behind the other. -/
theorem restoreChunks_concat (front : Bytes) (i : Nat)
    (h : ∀ c ∈ chunks, Chunk.ofBytes c.data = .ok c.narrowed) :
    restoreChunks (front ++ Bytes.concat (chunks.map Chunk.data)) front.size i
      (chunks.map Chunk.indexEntry) = .ok (chunks.map Chunk.narrowed) := by
  induction chunks generalizing front i with
  | nil => rfl
  | cons c rest ih =>
    have hcut : (front ++ (c.data ++ Bytes.concat (rest.map Chunk.data))).slice front.size c.cbytes =
        c.data := Bytes.extract_middle front c.data _
    have hothers := ih (front ++ c.data) (i + 1) fun c' hc' => h c' (List.mem_cons_of_mem _ hc')
    rw [Array.size_append, Array.append_assoc] at hothers
    rw [List.map_cons, List.map_cons, List.map_cons, Bytes.concat_cons, restoreChunks,
      show c.indexEntry.cbytes = c.cbytes from rfl, hcut,
      Chunk.restore_data (h c List.mem_cons_self)]
    simp only [bind, Except.bind]
    rw [show c.cbytes = c.data.size from rfl, hothers]
    rfl

/-- The sizes among the parameters of a store are words. -/
structure HasWords (s : Store) : Prop where
  blockSize : s.codec.blockSize < 2 ^ 64
  chunkSize : s.chunkSize < 2 ^ 64

/-- The store that a frame gives back: all chunks are in memory, and of the metadata only the live
entries are left. -/
def restored (s : Store) (chunks : List Chunk) : Store where
  codec := s.codec
  chunkSize := s.chunkSize
  allowResize := s.allowResize
  table := .ofSlots s.chunkSize (chunks.map fun c => Slot.loaded c.narrowed).toArray
  metadata := { entries := s.metadata.compact.2.entries }

/-- The chunks of a store with a short header are so few that small chunks add up to a word. -/
theorem Tallied.nbytes_lt (h : s.Tallied) (hfetch : s.Fetches source chunks)
    (hsmall : ∀ c ∈ chunks, c.nbytes < 2 ^ 32) {flags : UInt16} {head : Bytes}
    (hhead : (s.headerFor flags chunks).toBytes = .ok head)
    (hshort : head.size < FrameHeader.prefixSize + 2 ^ 32) : s.nbytes < 2 ^ 64 := by
  have hrows : 16 * chunks.length < 2 ^ 32 := by
    obtain ⟨codec, metadata, -, -, rfl⟩ := FrameHeader.toBytes_eq_ok hhead
    have hindex : (s.headerFor flags chunks).index.length = chunks.length := by simp [headerFor]
    rw [Array.size_append, FrameHeader.size_prefixBytes, FrameHeader.size_concat_bodyParts, hindex]
      at hshort
    omega
  have htotal : (chunks.map Chunk.nbytes).sum ≤ chunks.length * 2 ^ 32 := by
    have hsum := List.sum_le_card_nsmul (chunks.map Chunk.nbytes) (2 ^ 32) fun n hn => by
      obtain ⟨c, hc, rfl⟩ := List.mem_map.1 hn
      exact (hsmall c hc).le
    simpa using hsum
  rw [h.nbytes_eq hfetch]
  omega

/-- The header of a store is consistent if its total is a word. -/
theorem WellKept.consistent_headerFor (h : s.WellKept) (hwords : s.HasWords)
    (hfetch : s.Fetches source chunks) (hnbytes : s.nbytes < 2 ^ 64)
    (hpayload : (chunks.map Chunk.cbytes).sum < 2 ^ 64) (flags : UInt16) :
    (s.headerFor flags chunks).Consistent := by
  constructor
  · exact h.valid
  · exact hwords.blockSize
  · exact hwords.chunkSize
  · intro e he
    obtain ⟨c, hc, rfl⟩ := List.mem_map.1 he
    have hle := List.single_le_sum (fun _ _ => Nat.zero_le _) _
      (List.mem_map_of_mem (f := Chunk.cbytes) hc)
    exact lt_of_le_of_lt hle hpayload
  · rw [headerFor, List.map_map, h.tallied.nbytes_eq hfetch]
    rfl
  · exact hnbytes

/-- A frame with a short header, whose sizes fit their fields, gives back the store. -/
theorem WellKept.ofFrame_of_run_toFrame (h : s.WellKept) (hsource : Faithful source)
    (hwords : s.HasWords) (hnbytes : s.nbytes < 2 ^ 64)
    (hcount : ∀ i c, s.fetch source i = .ok c → c.Countable) {f head : Bytes}
    (hrun : Action.run (toFrame source) s = (.ok f, s')) (hsize : f.size < 2 ^ 63)
    (hhead : Action.outcome (frameHead source) s = .ok head)
    (hshort : head.size < FrameHeader.prefixSize + 2 ^ 32) :
    ∃ chunks, s.Fetches source chunks ∧
      ofFrame f = .ok (s.restored chunks) := by
  obtain ⟨chunks, head', hfetch, hbytes, hhead', hpayload, rfl⟩ := h.run_toFrame hsource hrun
  rw [hhead] at hhead'
  cases hhead'
  have hpeek := FrameHeader.peek_toBytes hbytes (h.consistent_headerFor hwords hfetch hnbytes hpayload 0)
    rfl hshort (Bytes.concat (chunks.map Chunk.data))
  have hchunks := restoreChunks_concat head 0 fun c (hc : c ∈ chunks) => by
    obtain ⟨i, hi⟩ := hfetch.exists_of_mem hc
    exact (h.kept_of_fetch hsource hi).readsBack (hcount i c hi)
  have hmetadata := h.metadata.insertAll_rawEntries fun e he =>
    FrameHeader.size_lt_of_toBytes hbytes e he
  have htotal : FrameHeader.payloadSize { s.headerFor 0 chunks with headerSize := head.size } =
      .ok (chunks.map Chunk.cbytes).sum :=
    (payloadSize_headerFor s 0 chunks).trans (if_pos hpayload)
  rw [Array.size_append, size_concat_data] at hsize
  refine ⟨chunks, hfetch, ?_⟩
  -- The checks of the reader in their order: the kind of frame, its length, and what is behind the payload.
  rw [ofFrame, hpeek]
  simp only [bind, Except.bind, htotal]
  rw [if_neg (by simp [FrameHeader.isSparse, headerFor, FrameHeader.sparseFlag])]
  rw [if_neg (by simp; omega), if_neg (by simp [size_concat_data])]
  simp only [headerFor, hchunks, hmetadata]
  rw [ofChunks, new, h.valid]
  simp only [bind, Except.bind, if_neg h.chunkSize.ne', pure, Except.pure, List.map_map]
  rfl

/-! ## The restored store -/

theorem getElem?_restored (s : Store) (chunks : List Chunk) (i : Nat) :
    (s.restored chunks).table.slots[i]? = chunks[i]?.map fun c => Slot.loaded c.narrowed := by
  simp [restored]

theorem nchunks_restored (s : Store) (chunks : List Chunk) :
    (s.restored chunks).nchunks = chunks.length := by
  simp [restored, nchunks]

/-- The restored store has the total of the saved one. -/
theorem nbytes_restored (h : s.Tallied)
    (hfetch : s.Fetches source chunks) :
    (s.restored chunks).nbytes = s.nbytes := by
  rw [h.nbytes_eq hfetch, nbytes, restored, ChunkTable.nbytes_ofSlots, List.map_map]
  rfl

/-- All chunks are in memory, and a byte has room for the element width of each. -/
def Full (s : Store) : Prop :=
  ∀ slot ∈ s.table.slots, ∃ c, slot = .loaded c ∧ c.header.typesize < 256

/-- A store whose chunks are all in memory is given back with the table that it has. -/
theorem table_restored (htallied : s.Tallied) (hfull : s.Full) (hfetch : s.Fetches source chunks) :
    (s.restored chunks).table = s.table := by
  have hlength : chunks.length = s.table.slots.size := hfetch.length
  have hslots : (chunks.map fun c => Slot.loaded c.narrowed).toArray = s.table.slots := by
    refine Array.ext (by simpa using hlength) fun i hi hi' => ?_
    obtain ⟨c, hc, hnarrow⟩ := hfull _ (Array.getElem_mem hi')
    have hanswer := hfetch.fetch (i := i) (by rwa [hlength])
    rw [fetch, Array.getElem?_eq_getElem hi', hc] at hanswer
    have hsame : c = chunks[i] := Except.ok.inj hanswer
    rw [List.getElem_toArray, List.getElem_map, ← hsame, Chunk.narrowed_of_lt hnarrow, hc]
  rw [htallied, restored, hslots]

/-- The restored store is described by the header of the saved one. -/
theorem headerFor_restored (h : s.Tallied)
    (hfetch : s.Fetches source chunks) :
    (s.restored chunks).headerFor 0 (chunks.map Chunk.narrowed) = s.headerFor 0 chunks := by
  have hentries : (s.restored chunks).metadata.rawEntries = s.metadata.rawEntries :=
    s.metadata.rawEntries_compact
  have hindex : (chunks.map Chunk.narrowed).map Chunk.indexEntry = chunks.map Chunk.indexEntry := by
    rw [List.map_map]
    rfl
  rw [headerFor, nbytes_restored h hfetch, hentries, hindex]
  rfl

/-- Saving the restored store gives the frame again and changes nothing. -/
theorem WellKept.run_toFrame_restored (h : s.WellKept) (hsource : Faithful source) {f : Bytes}
    (hrun : Action.run (toFrame source) s = (.ok f, s'))
    (hfetch : s.Fetches source chunks)
    (source' : ChunkSource) :
    Action.run (toFrame source') (s.restored chunks) = (.ok f, s.restored chunks) := by
  obtain ⟨chunks', head, hfetch', hbytes, -, hpayload, rfl⟩ := h.run_toFrame hsource hrun
  obtain rfl := hfetch.unique hfetch'
  have hslots : (s.restored chunks).table.slots =
      ((chunks.map Chunk.narrowed).map Slot.loaded).toArray := by
    rw [List.map_map]
    rfl
  have hcompact : (s.restored chunks).metadata.compact.2 = (s.restored chunks).metadata := by
    simp [restored, Metadata.compact]
  have hdata : (chunks.map Chunk.narrowed).map Chunk.data = chunks.map Chunk.data := by
    rw [List.map_map]
    rfl
  have hcbytes : (chunks.map Chunk.narrowed).map Chunk.cbytes = chunks.map Chunk.cbytes := by
    rw [List.map_map]
    rfl
  rw [← headerFor_restored h.tallied hfetch] at hbytes
  rw [← hcbytes] at hpayload
  rw [run_toFrame_of_loaded hslots hbytes hpayload source', hdata, hcompact]

/-- A store is saved in another one: parameters, sizes, the serialized chunks in order and the live
metadata agree. A chunk whose element width fits its byte agrees as a whole. -/
structure SavedIn (s : Store) (source : ChunkSource) (s' : Store) : Prop where
  codec : s'.codec = s.codec
  chunkSize : s'.chunkSize = s.chunkSize
  allowResize : s'.allowResize = s.allowResize
  nbytes : s'.nbytes = s.nbytes
  nchunks : s'.nchunks = s.nchunks
  chunks : ∀ i < s.nchunks, ∃ c c', s.fetch source i = .ok c ∧
    s'.table.slots[i]? = some (.loaded c') ∧ c'.data = c.data ∧
    (c.header.typesize < 256 → c' = c)
  keys : s'.metadata.keys = s.metadata.keys
  get : ∀ key, s'.metadata.get key = s.metadata.get key

theorem savedIn_restored (h : s.WellKept)
    (hfetch : s.Fetches source chunks) :
    s.SavedIn source (s.restored chunks) := by
  constructor
  · rfl
  · rfl
  · rfl
  · exact nbytes_restored h.tallied hfetch
  · rw [nchunks_restored, hfetch.length]
  · intro i hi
    rw [← hfetch.length] at hi
    refine ⟨chunks[i], chunks[i].narrowed, hfetch.fetch hi, ?_, rfl, Chunk.narrowed_of_lt⟩
    rw [getElem?_restored, List.getElem?_eq_getElem hi, Option.map_some]
  · exact s.metadata.keys_compact
  · exact s.metadata.get_compact h.metadata.sorted

/-- Whatever was done to a store, its frame gives the store back, and the store that it gives back
has the same frame. -/
theorem ofFrame_toFrame {fs : Files} {f head : Bytes} (hs : s.Reachable) (hwords : s.HasWords)
    (hframe : s.run (toFrame (s.chunkSource fs)) = (.ok f, s')) (hsize : f.size < 2 ^ 63)
    (hhead : (s.run (frameHead (s.chunkSource fs))).1 = .ok head)
    (hshort : head.size < FrameHeader.prefixSize + 2 ^ 32)
    (hsmall : ∀ i c, s.fetch (s.chunkSource fs) i = .ok c → c.nbytes < 2 ^ 32) :
    ∃ r, ofFrame f = .ok r ∧ s.SavedIn (s.chunkSource fs) r ∧
      ∀ source, r.run (toFrame source) = (.ok f, r) := by
  have hkept := hs.wellKept
  have hsource := faithful_chunkSource s fs
  have hnbytes : s.nbytes < 2 ^ 64 := by
    obtain ⟨chunks, head', hfetch, hbytes, hhead', -, -⟩ := hkept.run_toFrame hsource hframe
    obtain rfl := Except.ok.inj (hhead.symm.trans hhead')
    refine hkept.tallied.nbytes_lt hfetch (fun c hc => ?_) hbytes hshort
    obtain ⟨i, hi⟩ := hfetch.exists_of_mem hc
    exact hsmall i c hi
  obtain ⟨chunks, hfetch, hrestored⟩ := hkept.ofFrame_of_run_toFrame hsource hwords hnbytes
    (fun i c hi => .inr (.inl (hsmall i c hi))) hframe hsize hhead hshort
  exact ⟨s.restored chunks, hrestored, savedIn_restored hkept hfetch,
    hkept.run_toFrame_restored hsource hframe hfetch⟩

/-- A store of one chunk of two bytes and its frame. -/
theorem ofFrame_toFrame_two_bytes :
    let start : Store := { codec := { codec := .noop, level := 0 }, chunkSize := 2 }
    let s := (start.run (perform (start.chunkSource {}) (.append #[1, 2]))).2
    ∃ f r, (s.run (toFrame (s.chunkSource {}))).1 = .ok f ∧ ofFrame f = .ok r ∧ r.nbytes = 2 ∧
      (r.run (toFrame (r.chunkSource {}))).1 = .ok f := by
  intro start s
  have hframe : (s.run (toFrame (s.chunkSource {}))).1.toOption.map Array.size = some 163 := by
    decide +kernel
  have hhead : (s.run (frameHead (s.chunkSource {}))).1.toOption.map Array.size = some 137 := by
    decide +kernel
  have hextents : ∀ slot ∈ s.table.slots, slot.extent 2 = 2 := by decide +kernel
  have hstart : Store.new { codec := .noop, level := 0 } 2 = .ok start := rfl
  have hreachable : s.Reachable := .perform (.new hstart) {} (.append (by decide))
  have hwords : s.HasWords := ⟨by decide +kernel, by decide +kernel⟩
  have htotal : s.nbytes = 2 := by decide +kernel
  -- From here on the store is any one with these properties.
  clear_value s
  cases hf : (s.run (toFrame (s.chunkSource {}))).1 with
  | error e => simp [hf, Except.toOption] at hframe
  | ok f =>
    cases hh : (s.run (frameHead (s.chunkSource {}))).1 with
    | error e => simp [hh, Except.toOption] at hhead
    | ok head =>
      have hfsize : f.size = 163 := by simpa [hf, Except.toOption] using hframe
      have hhsize : head.size = 137 := by simpa [hh, Except.toOption] using hhead
      obtain ⟨r, hr, hsaved, hagain⟩ := ofFrame_toFrame hreachable hwords (Prod.ext hf rfl)
        (by omega) hh (by rw [hhsize]; decide) fun i c hc => by
          obtain ⟨slot, hslot, hanswer⟩ := exists_slot_of_fetch hc
          rw [← Slot.extent_of_fetch hanswer 2, hextents slot (Array.mem_of_getElem? hslot)]
          decide
      exact ⟨f, r, rfl, hr, hsaved.nbytes.trans htotal, congrArg Prod.fst (hagain _)⟩

end Store

end ChunkedArray
