import ChunkedArray.Proofs.DType.Descriptor
import ChunkedArray.Proofs.Frame.Contiguous
import ChunkedArray.Proofs.Metadata.Value
import ChunkedArray.Proofs.Store.Answers
import ChunkedArray.Proofs.Store.Filled
import ChunkedArray.Tensor.Basic

/-!
# Packed tensors unpack

A packed tensor is a store in memory whose chunks join to the items of the tensor and whose metadata
has the texts of its layout and of its shape. Whatever store is of that form unpacks to the tensor,
and the frame of such a store gives one of that form back.
-/

namespace ChunkedArray.Tensor

variable {t : Tensor} {codec : CodecConfig} {target : Nat} {s : Store}

/-! ## Stores that have a tensor -/

/-- A store has a tensor: its chunks join to the items, and its metadata has the texts of the layout
and of the shape. -/
structure StoredIn (t : Tensor) (s : Store) : Prop where
  memory : s.InMemory
  full : s.Full
  content : s.slotList.content = t.data
  dtype : s.metadata.get dtypeKey = .ok (.str t.dtype.descriptor)
  shape : s.metadata.get shapeKey = .ok (.ofShape t.shape)

theorem StoredIn.none_notMem (h : t.StoredIn s) : none ∉ s.slotList.slots := by
  intro hnone
  obtain ⟨slot, hslot, hshown⟩ := List.mem_map.1 hnone
  obtain ⟨c, rfl, -⟩ := h.full slot (by simpa using hslot)
  cases hshown

theorem StoredIn.nbytes_eq (h : t.StoredIn s) : s.slotList.nbytes = t.data.size := by
  rw [← h.content, SlotList.size_content]

/-- No chunk is larger than the tensor. -/
theorem StoredIn.nbytes_le_of_fetch (h : t.StoredIn s) {source : ChunkSource} {i : Nat} {c : Chunk}
    (hfetch : s.fetch source i = .ok c) : c.nbytes ≤ t.data.size := by
  obtain ⟨slot, hslot, hanswer⟩ := Store.exists_slot_of_fetch hfetch
  have hmem : c.nbytes ∈ s.slotList.sizes := by
    rw [← h.memory.map_extent, ← Slot.extent_of_fetch hanswer s.chunkSize]
    exact List.mem_map_of_mem (Array.mem_toList_iff.2 (Array.mem_of_getElem? hslot))
  rw [← h.nbytes_eq]
  exact List.single_le_sum (fun _ _ => Nat.zero_le _) _ hmem

/-- A store that has a tensor unpacks to it. -/
theorem StoredIn.run_unpackStore (h : t.StoredIn s) (hdtype : t.dtype.Composed)
    (haxes : ∀ n ∈ t.shape, n < 2 ^ 63)
    (hcheck : t.data.size = t.shape.size * t.dtype.itemsize) (hsize : t.data.size < 2 ^ 64) (source : ChunkSource) :
    Action.run (unpackStore source) s = (.ok t, s) := by
  have hread := h.memory.run_readBytes source 0 s.nbytes
  rw [h.memory.nbytes_eq, SlotList.readBytes_all h.none_notMem (by rwa [h.nbytes_eq]), h.content]
    at hread
  rw [unpackStore, Action.run_bind_of_ok (Action.run_get s), h.dtype,
    Action.run_bind_of_ok (Action.run_liftM _ s)]
  simp only [MetaValue.asStr?]
  rw [hdtype.ofDescriptor_descriptor, Action.run_bind_of_ok (Action.run_liftM _ s), h.shape,
    Action.run_bind_of_ok (Action.run_liftM _ s), MetaValue.toShape_ofShape haxes,
    Action.run_bind_of_ok (Action.run_liftM _ s), h.memory.nbytes_eq, Action.run_bind_of_ok hread,
    check, Buffer.expectedSize, if_pos hcheck]
  rfl

/-- If the shape cannot be read back from the metadata, the store does not unpack. -/
theorem StoredIn.run_unpackStore_of_error (h : t.StoredIn s) (hdtype : t.dtype.Composed) {e : Error}
    (hshape : (MetaValue.ofShape t.shape).toShape = .error e) (source : ChunkSource) :
    Action.run (unpackStore source) s = (.error e, s) := by
  rw [unpackStore, Action.run_bind_of_ok (Action.run_get s), h.dtype,
    Action.run_bind_of_ok (Action.run_liftM _ s)]
  simp only [MetaValue.asStr?]
  rw [hdtype.ofDescriptor_descriptor, Action.run_bind_of_ok (Action.run_liftM _ s), h.shape,
    Action.run_bind_of_ok (Action.run_liftM _ s), hshape]
  rfl

/-- What is given back for a store that has a tensor has it too. -/
theorem StoredIn.restored (h : t.StoredIn s) (hkept : s.WellKept) {source : ChunkSource}
    {chunks : List Chunk} (hfetch : s.Fetches source chunks) : t.StoredIn (s.restored chunks) := by
  have htable := Store.table_restored hkept.tallied h.full hfetch
  have hget := (Store.savedIn_restored hkept hfetch).get
  constructor
  · refine ⟨?_, ?_, h.memory.typesize, h.memory.chunkSize⟩
    · rw [htable]
      exact h.memory.slots
    · rw [Store.Tallied, htable]
      exact h.memory.tallied
  · rw [Store.Full, htable]
    exact h.full
  · rw [Store.slotList, htable]
    exact h.content
  · rw [hget, h.dtype]
  · rw [hget, h.shape]

/-! ## Packing -/

/-- The parameters under which the items of a tensor are compressed. -/
def itemCodec (t : Tensor) (codec : CodecConfig) : CodecConfig :=
  { codec with typesize := if t.dtype.itemsize ≤ 255 then t.dtype.itemsize else 1 }

/-- The parts of a tensor that become chunks. -/
def pieces (t : Tensor) (target : Nat) : List Bytes :=
  let size := chunkSizeFor target t.dtype.itemsize
  Chunk.cutBlocks t.data size 0 ((t.data.size + size - 1) / size)

theorem chunkSizeFor_pos (target : Nat) {itemsize : Nat} (h : 0 < itemsize) :
    0 < chunkSizeFor target itemsize :=
  Nat.mul_pos (lt_max_of_lt_right Nat.one_pos) h

/-- The chunk size is at most the target, or it is a single item. -/
theorem chunkSizeFor_le (target itemsize : Nat) :
    chunkSizeFor target itemsize ≤ max target itemsize := by
  rw [chunkSizeFor]
  rcases Nat.lt_or_ge (target / itemsize) 1 with hsmall | hlarge
  · rw [max_eq_right hsmall.le, Nat.one_mul]
    exact le_max_right _ _
  · rw [max_eq_left hlarge]
    exact (Nat.div_mul_le_self _ _).trans (le_max_left _ _)

theorem concat_pieces (target : Nat) (h : 0 < t.dtype.itemsize) :
    Bytes.concat (t.pieces target) = t.data := by
  have hcover := Chunk.le_ceil_mul (n := t.data.size) (chunkSizeFor_pos target h)
  rw [pieces, Chunk.concat_cutBlocks, Nat.zero_add]
  exact Array.extract_eq_self_of_le hcover

theorem size_le_of_mem_pieces (h : 0 < t.dtype.itemsize) {piece : Bytes}
    (hpiece : piece ∈ t.pieces target) : piece.size ≤ t.data.size := by
  have hsum := List.single_le_sum (fun _ _ => Nat.zero_le _) _
    (List.mem_map_of_mem (f := Array.size) hpiece)
  rwa [← Bytes.size_concat, concat_pieces target h] at hsum

/-- What the chunks of some pieces are like: each holds its piece and can be saved. -/
structure Cover (codec : CodecConfig) (pieces : List Bytes) (chunks : List Chunk) : Prop where
  raw : chunks.map Chunk.raw = pieces
  holds : ∀ c ∈ chunks, c.Holds c.raw
  kept : ∀ c ∈ chunks, c.Kept
  typesize : ∀ c ∈ chunks, c.header.typesize = codec.typesize
  cbytes : ∀ c ∈ chunks, c.cbytes ≤ chunkHeaderSize + c.nbytes

/-- Every piece becomes a chunk that holds it. -/
theorem cover_of_compressPieces (htypesize : 0 < codec.typesize) {pieces : List Bytes}
    (hsize : ∀ piece ∈ pieces, piece.size < 2 ^ 63) {i : Nat} {chunks : List Chunk}
    (h : compressPieces codec i pieces = .ok chunks) : Cover codec pieces chunks := by
  -- On the pieces, which are compressed one by one.
  induction pieces generalizing i chunks with
  | nil =>
    cases h
    constructor <;> simp
  | cons piece rest ih =>
    obtain ⟨c, hc, h⟩ := bind_eq_ok.1 h
    obtain ⟨others, hothers, h⟩ := bind_eq_ok.1 h
    cases h
    have hc := mapError_eq_ok.1 hc
    have hpiece := hsize piece List.mem_cons_self
    have hholds := Chunk.holds_compress htypesize hpiece hc
    have hrest := ih (fun p hp => hsize p (List.mem_cons_of_mem _ hp)) hothers
    constructor
    · rw [List.map_cons, hholds.raw, hrest.raw]
    · exact List.forall_mem_cons.2 ⟨by rwa [hholds.raw], hrest.holds⟩
    · exact List.forall_mem_cons.2 ⟨Chunk.kept_of_compress hpiece hc, hrest.kept⟩
    · refine List.forall_mem_cons.2 ⟨?_, hrest.typesize⟩
      rw [Chunk.typesize_of_compress hc, Nat.max_eq_left htypesize]
    · refine List.forall_mem_cons.2 ⟨?_, hrest.cbytes⟩
      rw [hholds.nbytes]
      exact Chunk.cbytes_le_of_compress hc

theorem exists_compressPieces {pieces : List Bytes}
    (h : ∀ piece ∈ pieces, Chunk.chosenBlockSize piece.size codec < 2 ^ 32) (i : Nat) :
    ∃ chunks, compressPieces codec i pieces = .ok chunks := by
  induction pieces generalizing i with
  | nil => exact ⟨[], rfl⟩
  | cons piece rest ih =>
    obtain ⟨c, hc⟩ := Chunk.exists_compress_eq_ok (h piece List.mem_cons_self)
    obtain ⟨chunks, hchunks⟩ := ih (fun p hp => h p (List.mem_cons_of_mem _ hp)) (i + 1)
    exact ⟨c :: chunks, bind_eq_ok.2 ⟨c, mapError_eq_ok.2 hc, bind_eq_ok.2 ⟨chunks, hchunks, rfl⟩⟩⟩

/-- The metadata that packing leaves behind: two keys, each with a value that was compressed. -/
structure Labels (t : Tensor) (metadata : Metadata) : Prop where
  kept : metadata.WellKept
  dtype : metadata.get dtypeKey = .ok (.str t.dtype.descriptor)
  shape : metadata.get shapeKey = .ok (.ofShape t.shape)
  entries : ∃ c c' : Chunk, metadata.rawEntries = [(dtypeKey, c.data), (shapeKey, c'.data)] ∧
    c.cbytes ≤ chunkHeaderSize + (MetaValue.str t.dtype.descriptor).encode.size ∧
    c'.cbytes ≤ chunkHeaderSize + (MetaValue.ofShape t.shape).encode.size

/-- The store of a tensor with certain metadata and chunks. -/
def packed (t : Tensor) (codec : CodecConfig) (target : Nat) (metadata : Metadata)
    (chunks : List Chunk) : Store where
  codec := t.itemCodec codec
  chunkSize := chunkSizeFor target t.dtype.itemsize
  table := .ofSlots (chunkSizeFor target t.dtype.itemsize) (chunks.map Slot.loaded).toArray
  revision := chunks.length
  metadata

/-- The items are below four gigabytes, an item is in memory, and so are the texts of the layout and
the shape. -/
structure Sized (t : Tensor) : Prop where
  data : t.data.size < 2 ^ 32
  itemsize : t.dtype.itemsize < 2 ^ 64
  dtypeText : (MetaValue.str t.dtype.descriptor).encode.size < 2 ^ 63
  shapeText : (MetaValue.ofShape t.shape).encode.size < 2 ^ 63

theorem labels_of_set {m₁ m₂ : Metadata} (hsized : t.Sized)
    (hdtype : ({} : Metadata).set dtypeKey (.str t.dtype.descriptor) = .ok m₁)
    (hshape : m₁.set shapeKey (.ofShape t.shape) = .ok m₂) : t.Labels m₂ := by
  have hempty : Metadata.WellKept {} := Metadata.wellKept_empty (by decide)
  have hkept := (hempty.set hsized.dtypeText hdtype).set hsized.shapeText hshape
  have hget : m₁.get dtypeKey = .ok (.str t.dtype.descriptor) :=
    Metadata.get_set hdtype (.str _) hsized.dtypeText (by decide)
  rw [← Metadata.get_set_of_ne hshape (by decide)] at hget
  obtain ⟨c, hc, rfl⟩ := Metadata.set_eq_ok hdtype
  have hget' := Metadata.get_set hshape (MetaValue.writable_ofShape _ _) hsized.shapeText Nat.one_pos
  obtain ⟨c', hc', rfl⟩ := Metadata.set_eq_ok hshape
  exact ⟨hkept, hget, hget', c, c', rfl, Chunk.cbytes_le_of_compress hc,
    Chunk.cbytes_le_of_compress hc'⟩

theorem typesize_itemCodec (codec : CodecConfig) (h : 0 < t.dtype.itemsize) :
    0 < (t.itemCodec codec).typesize ∧ (t.itemCodec codec).typesize < 256 := by
  rw [itemCodec]
  dsimp only
  split <;> omega

/-- The chunks of all pieces can be added, since all but the last have the nominal size. -/
theorem run_appendChunks (hitem : 0 < t.dtype.itemsize) (metadata : Metadata) {chunks : List Chunk}
    (hcover : Cover (t.itemCodec codec) (t.pieces target) chunks) :
    Action.run (Store.appendChunks chunks) (t.packed codec target metadata []) =
      (.ok (), t.packed codec target metadata chunks) := by
  have hstart : (t.packed codec target metadata []).InMemory :=
    ⟨by simp [packed], rfl, (typesize_itemCodec codec hitem).1, chunkSizeFor_pos target hitem⟩
  rw [hstart.run_appendChunks hcover.holds (by simp [packed]) fun c hc => ?_]
  · simp [packed]
  · rw [(hcover.holds c (List.dropLast_subset _ hc)).nbytes]
    apply @Chunk.size_of_mem_dropLast_cutBlocks t.data
    change c.raw ∈ (t.pieces target).dropLast
    rw [← hcover.raw, ← List.map_dropLast]
    exact List.mem_map_of_mem hc

theorem size_lt_of_mem_pieces (hsized : t.Sized) (hitem : 0 < t.dtype.itemsize) :
    ∀ piece ∈ t.pieces target, piece.size < 2 ^ 63 := fun _ hpiece =>
  ((size_le_of_mem_pieces hitem hpiece).trans_lt hsized.data).trans (by decide)

/-- What packing does: chunks are made of the pieces, and two keys of the metadata are set. -/
theorem packStore_eq_ok (hsized : t.Sized) (h : t.packStore codec target = .ok s) :
    0 < t.dtype.itemsize ∧ (t.itemCodec codec).validate = .ok () ∧ ∃ metadata chunks,
      t.Labels metadata ∧ Cover (t.itemCodec codec) (t.pieces target) chunks ∧
        s = t.packed codec target metadata chunks := by
  rw [packStore] at h
  by_cases hzero : t.dtype.itemsize = 0
  · rw [if_pos hzero] at h
    cases h
  have hitem := Nat.pos_of_ne_zero hzero
  rw [if_neg hzero] at h
  obtain ⟨start, hnew, h⟩ := bind_eq_ok.1 h
  obtain ⟨hvalid, -, rfl⟩ := Store.new_eq_ok hnew
  obtain ⟨m₁, hdtype, h⟩ := bind_eq_ok.1 h
  obtain ⟨m₂, hshape, h⟩ := bind_eq_ok.1 h
  obtain ⟨chunks, hchunks, h⟩ := bind_eq_ok.1 h
  obtain ⟨⟨⟨⟩, s'⟩, hrun, h⟩ := bind_eq_ok.1 h
  cases h
  have hcover := cover_of_compressPieces (typesize_itemCodec codec hitem).1
    (size_lt_of_mem_pieces hsized hitem) hchunks
  have hrun' := (Store.exec_eq_ok_iff.1 hrun).symm.trans (run_appendChunks hitem m₂ hcover)
  exact ⟨hitem, hvalid, m₂, chunks, labels_of_set hsized hdtype hshape, hcover,
    (Prod.mk.inj hrun').2⟩

/-- Packing succeeds if the parameters are valid and all blocks can be written down. -/
theorem exists_packStore (hsized : t.Sized) (hitem : 0 < t.dtype.itemsize)
    (hvalid : (t.itemCodec codec).validate = .ok ())
    (hblock : ∀ piece ∈ t.pieces target,
      Chunk.chosenBlockSize piece.size (t.itemCodec codec) < 2 ^ 32)
    (hdtypeText : (MetaValue.str t.dtype.descriptor).encode.size < 2 ^ 32)
    (hshapeText : (MetaValue.ofShape t.shape).encode.size < 2 ^ 32) :
    ∃ s, t.packStore codec target = .ok s := by
  obtain ⟨m₁, hdtype⟩ := Metadata.exists_set (m := {}) dtypeKey rfl hdtypeText
  have hcodec : m₁.codec.blockSize = 0 := by
    obtain ⟨c, -, rfl⟩ := Metadata.set_eq_ok hdtype
    rfl
  obtain ⟨m₂, hshape⟩ := Metadata.exists_set shapeKey hcodec hshapeText
  obtain ⟨chunks, hchunks⟩ := exists_compressPieces hblock 0
  have hcover := cover_of_compressPieces (typesize_itemCodec codec hitem).1
    (size_lt_of_mem_pieces hsized hitem) hchunks
  have hnew : Store.new (t.itemCodec codec) (chunkSizeFor target t.dtype.itemsize) =
      .ok (t.packed codec target {} []) :=
    bind_eq_ok.2 ⟨(), hvalid, if_neg (chunkSizeFor_pos target hitem).ne'⟩
  have hexec : Store.exec (t.packed codec target m₂ []) (Store.appendChunks chunks) =
      .ok ((), t.packed codec target m₂ chunks) :=
    Store.exec_eq_ok_iff.2 (run_appendChunks hitem m₂ hcover)
  refine ⟨t.packed codec target m₂ chunks, ?_⟩
  rw [packStore, if_neg hitem.ne']
  exact bind_eq_ok.2 ⟨_, hnew, bind_eq_ok.2 ⟨m₁, hdtype, bind_eq_ok.2 ⟨m₂, hshape,
    bind_eq_ok.2 ⟨chunks, hchunks, bind_eq_ok.2 ⟨_, hexec, rfl⟩⟩⟩⟩⟩

/-- A packed store can be saved, and it has the tensor. -/
theorem storedIn_packed (hitem : 0 < t.dtype.itemsize)
    (hvalid : (t.itemCodec codec).validate = .ok ()) {metadata : Metadata} {chunks : List Chunk}
    (hlabels : t.Labels metadata) (hcover : Cover (t.itemCodec codec) (t.pieces target) chunks) :
    (t.packed codec target metadata chunks).WellKept ∧
      t.StoredIn (t.packed codec target metadata chunks) := by
  obtain ⟨hpos, hnarrow⟩ := typesize_itemCodec codec hitem
  have hmem : ∀ slot ∈ (chunks.map Slot.loaded).toArray, ∃ c ∈ chunks, Slot.loaded c = slot :=
    fun slot hslot => List.mem_map.1 (List.mem_toArray.1 hslot)
  constructor
  · refine ⟨hvalid, chunkSizeFor_pos target hitem, rfl, fun c hc => ?_, hlabels.kept⟩
    obtain ⟨c', hc', hsame⟩ := hmem _ hc
    cases hsame
    exact hcover.kept c hc'
  · refine ⟨⟨fun slot hslot => ?_, rfl, hpos, chunkSizeFor_pos target hitem⟩, fun slot hslot => ?_, ?_,
      hlabels.dtype, hlabels.shape⟩
    · obtain ⟨c, hc, rfl⟩ := hmem slot hslot
      exact hcover.holds c hc
    · obtain ⟨c, hc, rfl⟩ := hmem slot hslot
      exact ⟨c, rfl, by rwa [hcover.typesize c hc]⟩
    · rw [← concat_pieces target hitem, ← hcover.raw]
      simp only [SlotList.content, Store.slotList, packed, ChunkTable.slots_ofSlots, List.map_map]
      rfl

/-! ## Frames -/

/-- The header of the frame of a tensor is no longer than its length field can say. -/
def ShortHeader (t : Tensor) (codec : CodecConfig) (target : Nat) : Prop :=
  ∀ s head, t.packStore codec target = .ok s →
    (s.run (Store.frameHead (s.chunkSource {}))).1 = .ok head →
    head.size < FrameHeader.prefixSize + 2 ^ 32

/-- The frame of a packed tensor gives a store back that has the tensor. -/
theorem exists_ofFrame (hsized : t.Sized) (hblock : codec.blockSize < 2 ^ 64)
    (htarget : target < 2 ^ 64) (hshort : t.ShortHeader codec target)
    (hpack : t.packStore codec target = .ok s) {f : Bytes} (hframe : frameOf s = .ok f)
    (hsize : f.size < 2 ^ 63) :
    ∃ r, Store.ofFrame f = .ok r ∧ t.StoredIn r ∧ r.nchunks = (t.pieces target).length := by
  obtain ⟨hitem, hvalid, metadata, chunks, hlabels, hcover, rfl⟩ := packStore_eq_ok hsized hpack
  obtain ⟨hkept, hstored⟩ := storedIn_packed hitem hvalid hlabels hcover
  obtain ⟨⟨f', s'⟩, hexec, hframe⟩ := bind_eq_ok.1 hframe
  cases hframe
  have hrun := Store.exec_eq_ok_iff.1 hexec
  have hsource := Store.faithful_chunkSource (t.packed codec target metadata chunks) {}
  have hwords : (t.packed codec target metadata chunks).HasWords :=
    ⟨hblock, (chunkSizeFor_le target _).trans_lt (max_lt htarget hsized.itemsize)⟩
  obtain ⟨-, head, -, -, hhead, -, -⟩ := hkept.run_toFrame hsource hrun
  have hnbytes := hstored.memory.nbytes_eq.trans hstored.nbytes_eq
  obtain ⟨others, hfetch, hrestored⟩ := hkept.ofFrame_of_run_toFrame hsource hwords
    (hnbytes ▸ hsized.data.trans (by decide))
    (fun i c hc => .inr (.inl ((hstored.nbytes_le_of_fetch hc).trans_lt hsized.data))) hrun hsize
    hhead (hshort _ head hpack hhead)
  refine ⟨_, hrestored, hstored.restored hkept hfetch, ?_⟩
  rw [Store.nchunks_restored, hfetch.length, ← hcover.raw]
  simp [Store.nchunks, packed]

/-- The size of a frame of a tensor, apart from the items, and the texts in its header. -/
def overhead (t : Tensor) (codec : CodecConfig) (target : Nat) : Nat :=
  (t.itemCodec codec).toJson.render.length + (MetaValue.str t.dtype.descriptor).encode.size +
    (MetaValue.ofShape t.shape).encode.size + 40 * (t.pieces target).length + 128

/-- The chunks of a tensor take little more room than its items. -/
theorem Cover.sum_cbytes_le {pieces : List Bytes} {chunks : List Chunk}
    (h : Cover codec pieces chunks) :
    (chunks.map Chunk.cbytes).sum ≤ chunkHeaderSize * pieces.length + (Bytes.concat pieces).size := by
  have hnbytes : pieces.map Array.size = chunks.map Chunk.nbytes := by
    rw [← h.raw, List.map_map]
    exact List.map_congr_left fun c hc => (h.holds c hc).nbytes.symm
  have hlength : chunks.length = pieces.length := by rw [← h.raw, List.length_map]
  rw [Bytes.size_concat, hnbytes, ← hlength]
  exact Store.sum_cbytes_le h.cbytes

/-- What labels are in a header: short keys, values no longer than the texts in their chunks, and
twenty-two bytes around them. -/
theorem Labels.sizes {metadata : Metadata} (h : t.Labels metadata) {limit : Nat}
    (hdtypeText : chunkHeaderSize + (MetaValue.str t.dtype.descriptor).encode.size ≤ limit)
    (hshapeText : chunkHeaderSize + (MetaValue.ofShape t.shape).encode.size ≤ limit) :
    (∀ e ∈ metadata.rawEntries, e.1.toUTF8.size < 2 ^ 16) ∧
      (∀ e ∈ metadata.rawEntries, e.2.size ≤ limit) ∧
      (metadata.rawEntries.map fun e => e.1.toUTF8.size + e.2.size + 6).sum ≤
        chunkHeaderSize + (MetaValue.str t.dtype.descriptor).encode.size +
          (chunkHeaderSize + (MetaValue.ofShape t.shape).encode.size) + 22 := by
  obtain ⟨c, c', hentries, hc, hc'⟩ := h.entries
  have hkey : dtypeKey.toUTF8.size = 5 ∧ shapeKey.toUTF8.size = 5 := by decide
  rw [hentries]
  simp only [List.forall_mem_cons, List.not_mem_nil, false_imp_iff, implies_true, and_true,
    List.map_cons, List.map_nil, List.sum_cons, List.sum_nil, hkey]
  rw [Chunk.cbytes] at hc hc'
  exact ⟨by decide, ⟨hc.trans hdtypeText, hc'.trans hshapeText⟩, by omega⟩

/-- A tensor is packed if the parameters are valid, all blocks can be written down and the texts fit
their fields. The header is short if all that is written next to the items is. -/
theorem exists_pack (hsized : t.Sized) (hitem : 0 < t.dtype.itemsize)
    (hvalid : (t.itemCodec codec).validate = .ok ())
    (hblock : ∀ piece ∈ t.pieces target,
      Chunk.chosenBlockSize piece.size (t.itemCodec codec) < 2 ^ 32)
    (hcodec : (t.itemCodec codec).toJson.render.length ≤ FrameHeader.maxFieldLength)
    (hdtypeText : chunkHeaderSize + (MetaValue.str t.dtype.descriptor).encode.size ≤
      FrameHeader.maxFieldLength)
    (hshapeText : chunkHeaderSize + (MetaValue.ofShape t.shape).encode.size ≤
      FrameHeader.maxFieldLength)
    (hshort : t.overhead codec target < 2 ^ 32) :
    t.ShortHeader codec target ∧
      ∃ s f, t.packStore codec target = .ok s ∧ frameOf s = .ok f ∧ f.size < 2 ^ 63 := by
  have hfield : FrameHeader.maxFieldLength < 2 ^ 32 := by decide
  obtain ⟨s, hpack⟩ := exists_packStore hsized hitem hvalid hblock (by omega) (by omega)
  obtain ⟨-, -, metadata, chunks, hlabels, hcover, rfl⟩ := packStore_eq_ok hsized hpack
  obtain ⟨hkeys, hvalues, hlabelled⟩ := hlabels.sizes hdtypeText hshapeText
  have hpayload := hcover.sum_cbytes_le
  rw [concat_pieces target hitem] at hpayload
  have hlength : chunks.length = (t.pieces target).length := by rw [← hcover.raw, List.length_map]
  have hdata := hsized.data
  rw [chunkHeaderSize] at hpayload hlabelled
  rw [overhead] at hshort
  obtain ⟨f, head, s', hrun, hhead, hheadSize, hframeSize⟩ :=
    Store.exists_run_toFrame (s := t.packed codec target metadata chunks) rfl hcodec hkeys hvalues
      (by omega) ((t.packed codec target metadata chunks).chunkSource {})
  -- Of the forty bytes that the overhead counts for each chunk sixteen are in the header.
  have hheadLe : head.size ≤ FrameHeader.prefixSize + t.overhead codec target := by
    rw [overhead, hheadSize]
    simp only [packed] at hlabelled ⊢
    omega
  constructor
  · intro s₁ head₁ hs₁ hhead₁
    obtain rfl := Except.ok.inj (hpack.symm.trans hs₁)
    obtain rfl := Except.ok.inj (hhead.symm.trans hhead₁)
    exact hheadLe.trans_lt (Nat.add_lt_add_left hshort _)
  · refine ⟨_, f, hpack, bind_eq_ok.2 ⟨_, Store.exec_eq_ok_iff.2 hrun, rfl⟩, ?_⟩
    rw [FrameHeader.prefixSize, overhead] at hheadLe
    omega

/-- A tensor is accepted exactly if its items fill its shape. -/
theorem new_eq_ok_iff {shape : Shape} {dtype : DType} {data : Bytes} :
    Tensor.new shape dtype data = .ok t ↔
      t = ⟨shape, dtype, data⟩ ∧ data.size = shape.size * dtype.itemsize := by
  rw [Tensor.new, check, Buffer.expectedSize]
  by_cases hsize : data.size = shape.size * dtype.itemsize
  · rw [if_pos hsize]
    constructor
    · intro h
      cases h
      exact ⟨rfl, hsize⟩
    · rintro ⟨rfl, -⟩
      rfl
  · rw [if_neg hsize]
    constructor
    · intro h
      cases h
    · exact fun h => absurd h.2 hsize

/-- With all items as the target there is at most one piece. -/
theorem length_pieces_le_one (hsize : t.data.size = t.shape.size * t.dtype.itemsize)
    (hitem : 0 < t.dtype.itemsize) : (t.pieces (max t.data.size 1)).length ≤ 1 := by
  have hpos := chunkSizeFor_pos (max t.data.size 1) hitem
  have hcover : t.data.size ≤ chunkSizeFor (max t.data.size 1) t.dtype.itemsize := by
    have hdiv : t.shape.size ≤ max t.data.size 1 / t.dtype.itemsize := by
      rw [Nat.le_div_iff_mul_le hitem, ← hsize]
      exact le_max_left _ _
    calc t.data.size = t.shape.size * t.dtype.itemsize := hsize
      _ ≤ max t.data.size 1 / t.dtype.itemsize * t.dtype.itemsize := Nat.mul_le_mul_right _ hdiv
      _ ≤ chunkSizeFor (max t.data.size 1) t.dtype.itemsize :=
        Nat.mul_le_mul_right _ (le_max_left _ _)
  rw [pieces, Chunk.length_cutBlocks]
  generalize chunkSizeFor (max t.data.size 1) t.dtype.itemsize = size at hpos hcover
  refine Nat.le_of_lt_succ ((Nat.div_lt_iff_lt_mul hpos).2 ?_)
  omega

/-- Every tensor that was accepted unpacks from its frame, whatever the parameters, and the frame
with a single chunk unpacks as either. Axes are signed words, as they are in the metadata, and the
length of the header fits its field. -/
theorem unpack_pack {shape : Shape} {dtype : DType} {data : Bytes}
    (hnew : Tensor.new shape dtype data = .ok t) (hdtype : dtype.Composed)
    (haxes : ∀ n ∈ shape, n < 2 ^ 63) (hsized : t.Sized) :
    (∀ (params : PackParams) f, params.codec.blockSize < 2 ^ 64 → params.chunkSize < 2 ^ 64 →
      t.ShortHeader params.codec params.chunkSize → t.pack params = .ok f → f.size < 2 ^ 63 →
      unpack f = .ok t) ∧
    ∀ (codec : CodecConfig) f, codec.blockSize < 2 ^ 64 →
      t.ShortHeader codec (max t.data.size 1) → t.packSingle codec = .ok f → f.size < 2 ^ 63 →
      unpackSingle f = .ok t ∧ unpack f = .ok t := by
  obtain ⟨rfl, hdata⟩ := new_eq_ok_iff.1 hnew
  have hword : data.size < 2 ^ 64 := hsized.data.trans (by decide)
  have hunpack {r : Store} (h : StoredIn ⟨shape, dtype, data⟩ r) :
      ofStore r {} = .ok ⟨shape, dtype, data⟩ := by
    rw [ofStore, Store.exec_eq_ok_iff.2 (h.run_unpackStore hdtype haxes hdata hword _)]
    rfl
  constructor
  · intro params f hblock htarget hshort hpack hsize
    obtain ⟨s, hstore, hframe⟩ := bind_eq_ok.1 hpack
    obtain ⟨r, hr, hstored, -⟩ :=
      exists_ofFrame hsized hblock htarget hshort hstore hframe hsize
    rw [unpack, hr]
    exact hunpack hstored
  · intro codec f hblock hshort hpack hsize
    rw [packSingle] at hpack
    by_cases hlarge : singleChunkLimit < data.size
    · rw [if_pos hlarge] at hpack
      cases hpack
    rw [if_neg hlarge] at hpack
    obtain ⟨s, hstore, hframe⟩ := bind_eq_ok.1 hpack
    obtain ⟨r, hr, hstored, hcount⟩ := exists_ofFrame hsized hblock
      (max_lt hword (by decide)) hshort hstore hframe hsize
    have hsingle := length_pieces_le_one hdata (packStore_eq_ok hsized hstore).1
    constructor
    · rw [unpackSingle, hr]
      simp only [bind, Except.bind]
      rw [if_neg (by rw [hcount]; exact Nat.not_lt.2 hsingle)]
      exact hunpack hstored
    · rw [unpack, hr]
      exact hunpack hstored

/-- Two bytes are packed in either form and unpacked. -/
theorem unpack_pack_two_bytes :
    ∃ t f f', Tensor.new [2] (.scalar .uint8) #[1, 2] = .ok t ∧
      t.pack { codec := { codec := .noop } } = .ok f ∧ unpack f = .ok t ∧
      t.packSingle { codec := .noop } = .ok f' ∧ unpackSingle f' = .ok t := by
  have hnew : Tensor.new [2] (.scalar .uint8) #[1, 2] = .ok ⟨[2], .scalar .uint8, #[1, 2]⟩ :=
    new_eq_ok_iff.2 ⟨rfl, by decide +kernel⟩
  have hsized : Sized ⟨[2], .scalar .uint8, #[1, 2]⟩ :=
    ⟨by decide, by decide +kernel, by decide +kernel, by decide +kernel⟩
  obtain ⟨hshort, s, f, hpack, hframe, hsize⟩ := @exists_pack _ { codec := .noop }
    (4 * 1024 * 1024) hsized (by decide) rfl (by decide +kernel) (by decide +kernel)
    (by decide +kernel) (by decide +kernel) (by decide +kernel)
  obtain ⟨hshort', s', f', hpack', hframe', hsize'⟩ := @exists_pack _ { codec := .noop } 2 hsized
    (by decide) rfl (by decide +kernel) (by decide +kernel) (by decide +kernel)
    (by decide +kernel) (by decide +kernel)
  obtain ⟨hmany, hsingle⟩ := unpack_pack hnew (.scalar .uint8) (by decide) hsized
  have hf : pack ⟨[2], .scalar .uint8, #[1, 2]⟩ { codec := { codec := .noop } } = .ok f :=
    bind_eq_ok.2 ⟨s, hpack, hframe⟩
  have hf' : packSingle ⟨[2], .scalar .uint8, #[1, 2]⟩ { codec := .noop } = .ok f' := by
    rw [packSingle, if_neg (by decide)]
    exact bind_eq_ok.2 ⟨s', hpack', hframe'⟩
  exact ⟨_, f, f', hnew, hf, hmany _ f (by decide) (by decide) hshort hf hsize, hf',
    (hsingle _ f' (by decide) hshort' hf' hsize').1⟩

/-- An axis beyond the signed words is packed next to an empty one, and the frame does not unpack:
in the metadata the axis has become negative. -/
theorem unpack_pack_beyond_words :
    ∃ t f, Tensor.new [2 ^ 63, 0] (.scalar .uint8) #[] = .ok t ∧
      t.pack { codec := { codec := .noop } } = .ok f ∧
      unpack f = .error (.format (.notAnAxis (.int (-2 ^ 63)))) := by
  have hnew : Tensor.new [2 ^ 63, 0] (.scalar .uint8) #[] = .ok ⟨[2 ^ 63, 0], .scalar .uint8, #[]⟩ :=
    new_eq_ok_iff.2 ⟨rfl, by decide +kernel⟩
  have hsized : Sized ⟨[2 ^ 63, 0], .scalar .uint8, #[]⟩ :=
    ⟨by decide, by decide +kernel, by decide +kernel, by decide +kernel⟩
  obtain ⟨hshort, s, f, hpack, hframe, hsize⟩ := @exists_pack _ { codec := .noop }
    (4 * 1024 * 1024) hsized (by decide) rfl (by decide +kernel) (by decide +kernel)
    (by decide +kernel) (by decide +kernel) (by decide +kernel)
  have hshape : (MetaValue.ofShape [2 ^ 63, 0]).toShape =
      .error (.format (.notAnAxis (.int (-2 ^ 63)))) := rfl
  obtain ⟨r, hr, hstored, -⟩ := exists_ofFrame hsized (by decide) (by decide) hshort hpack hframe hsize
  refine ⟨_, f, hnew, bind_eq_ok.2 ⟨s, hpack, hframe⟩, ?_⟩
  have hrun := hstored.run_unpackStore_of_error (.scalar .uint8) hshape (r.chunkSource {})
  have hexec : r.exec (unpackStore (r.chunkSource {})) =
      .error (.format (.notAnAxis (.int (-2 ^ 63)))) := by
    rw [Store.exec, show r.run (unpackStore (r.chunkSource {})) = _ from hrun]
  rw [unpack, hr]
  simp only [bind, Except.bind, ofStore, hexec]

end ChunkedArray.Tensor
