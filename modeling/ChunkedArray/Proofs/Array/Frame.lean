import Mathlib.Data.Set.List
import ChunkedArray.Proofs.Array.Built
import ChunkedArray.Proofs.DType.Descriptor
import ChunkedArray.Proofs.Frame.Contiguous

/-!
# Saved arrays read back

The geometry of an array is a value in the metadata of its store. What is found there is the geometry
that was put there, since its shapes, its layout and its tiles are read back and resolve to
themselves. The frame of an array in memory therefore gives the array back up to the count of its
changes.
-/

namespace ChunkedArray

open ChunkedArray.Action

namespace Geometry

variable {g : Geometry}

/-- The map of a geometry, its keys in order. -/
theorem toMeta_eq (g : Geometry) :
    g.toMeta = .map [("blocks", .ofShape g.blocks), ("chunks", .ofShape g.chunks),
      ("dtype", .str g.dtype.descriptor), ("shape", .ofShape g.shape)] := by
  simp only [toMeta, SortedMap.ofList, List.foldl_cons, List.foldl_nil, SortedMap.insert,
    String.reduceLT, String.reduceEq, if_true, if_false]

theorem writable_toMeta (g : Geometry) : g.toMeta.Writable MetaValue.maxDepth := by
  rw [toMeta_eq]
  refine .map (by simp only [SortedMap.Sorted, List.pairwise_cons, List.forall_mem_cons,
    List.not_mem_nil, String.reduceLT, false_imp_iff, implies_true, and_true, List.Pairwise.nil])
    fun e he => ?_
  simp only [List.mem_cons, List.not_mem_nil, or_false] at he
  obtain rfl | rfl | rfl | rfl := he
  · exact MetaValue.writable_ofShape _ _
  · exact MetaValue.writable_ofShape _ _
  · exact .str _
  · exact MetaValue.writable_ofShape _ _

end Geometry

namespace NDArray

variable {a : NDArray} {contents : Nat → Bytes}

/-- What is read of the metadata of a geometry: its shapes, its layout, and what they resolve to. -/
theorem readGeometry_toMeta {g : Geometry} {metadata : Metadata}
    (hmeta : metadata.get Geometry.metadataKey = .ok g.toMeta) :
    readGeometry metadata = (do
      let shape ← (MetaValue.ofShape g.shape).toShape
      let chunks ← (MetaValue.ofShape g.chunks).toShape
      let blocks ← (MetaValue.ofShape g.blocks).toShape
      let dtype ← DType.ofDescriptor g.dtype.descriptor
      Geometry.resolve shape dtype (some chunks) (some blocks)) := by
  rw [readGeometry, hmeta, Geometry.toMeta_eq]
  simp only [bind, Except.bind, MetaValue.asMap?, SortedMap.find?, String.reduceEq, if_false, if_true,
    pure, Except.pure, MetaValue.asStr?]

/-- A geometry is found in the metadata if its axes are signed words, its layout can be written down
and its tiles resolve to themselves. -/
theorem readGeometry_eq {g : Geometry} {metadata : Metadata}
    (hmeta : metadata.get Geometry.metadataKey = .ok g.toMeta)
    (haxes : ∀ n ∈ g.shape ++ g.chunks ++ g.blocks, n < 2 ^ 63) (hdtype : g.dtype.Composed)
    (hself : Geometry.resolve g.shape g.dtype (some g.chunks) (some g.blocks) = .ok g) :
    readGeometry metadata = .ok g := by
  simp only [List.mem_append, or_imp, forall_and] at haxes
  obtain ⟨⟨hshape, hchunks⟩, hblocks⟩ := haxes
  rw [readGeometry_toMeta hmeta, MetaValue.toShape_ofShape hshape, MetaValue.toShape_ofShape hchunks,
    MetaValue.toShape_ofShape hblocks, hdtype.ofDescriptor_descriptor]
  exact hself

/-! ## The store of an array -/

/-- The parameters and the metadata of a store are those with which it was allocated. -/
theorem Grown.store_eq (h : a.Grown) :
    ∃ codec, a.store.codec = a.geometry.chunkCodec codec ∧
      a.store.chunkSize = a.geometry.chunkSize ∧ a.store.allowResize = false ∧
      a.store.source = none ∧
      Metadata.set {} Geometry.metadataKey a.geometry.toMeta = .ok a.store.metadata := by
  obtain ⟨chunks, blocks, codec, new, -, hnew, hkind⟩ := h
  obtain ⟨-, store, metadata, hstore, hset, rfl⟩ := allocate_eq_ok hnew
  obtain ⟨-, -, rfl⟩ := Store.new_eq_ok hstore
  rw [hkind.metadata]
  exact ⟨codec, hkind.codec, hkind.chunkSize, hkind.allowResize, hkind.source, hset⟩

/-- The text of a geometry was compressed in one block, so it has less than four gigabytes. -/
theorem Grown.size_text_lt (h : a.Grown) : a.geometry.toMeta.encode.size < 2 ^ 32 := by
  obtain ⟨codec, -, -, -, -, hset⟩ := h.store_eq
  obtain ⟨c, hc, -⟩ := Metadata.set_eq_ok hset
  have hblock := Chunk.chosenBlockSize_lt_of_compress hc
  rw [Chunk.chosenBlockSize, Chunk.effectiveBlockSize, if_pos (.inl rfl)] at hblock
  omega

/-- The store of an array is given back exactly. -/
theorem Grown.exact (h : a.Grown) : a.store.Exact := by
  have htext := h.size_text_lt
  obtain ⟨chunks, blocks, codec, new, -, hnew, hkind⟩ := h
  obtain ⟨-, store, metadata, hstore, hset, rfl⟩ := allocate_eq_ok hnew
  refine hkind.exactly ⟨(Store.Reachable.setKey (.new hstore) (by omega) hset).wellKept, ?_⟩
  obtain ⟨-, -, rfl⟩ := Store.new_eq_ok hstore
  simp

/-- The metadata of the store has the geometry. -/
theorem Grown.get_geometry (h : a.Grown) :
    a.store.metadata.get Geometry.metadataKey = .ok a.geometry.toMeta := by
  have htext := h.size_text_lt
  obtain ⟨codec, -, -, -, -, hset⟩ := h.store_eq
  exact Metadata.get_set hset a.geometry.writable_toMeta (by omega) (by decide)

namespace Sound

variable {source : ChunkSource} {chunks : List Chunk}

/-- Every slot has a chunk of the nominal size. -/
theorem exists_of_mem (h : a.Sound contents) {slot : Slot} (hslot : slot ∈ a.store.table.slots) :
    ∃ c, slot = .loaded c ∧ c.nbytes = a.geometry.chunkSize := by
  obtain ⟨i, hi, rfl⟩ := Array.mem_iff_getElem.1 hslot
  have hlt : i < a.geometry.nchunks := h.nchunks ▸ hi
  obtain ⟨c, hc, hholds⟩ := h.holds i hlt
  rw [Array.getElem?_eq_getElem hi] at hc
  exact ⟨c, Option.some.inj hc, by rw [hholds.nbytes, h.size i hlt]⟩

theorem full (h : a.Sound contents) (hexact : a.store.Exact) : a.store.Full := by
  intro slot hslot
  obtain ⟨c, rfl, -⟩ := h.exists_of_mem hslot
  exact ⟨c, rfl, (hexact.slim hslot).typesize⟩

/-- The chunks of an array in memory. -/
theorem exists_chunks (h : a.Sound contents) :
    ∃ chunks : List Chunk, a.store.table.slots = (chunks.map Slot.loaded).toArray ∧
      chunks.length = a.geometry.nchunks ∧ ∀ c ∈ chunks, c.nbytes = a.geometry.chunkSize := by
  have hrange : a.store.table.slots.toList ∈ Set.range (List.map Slot.loaded) := by
    rw [Set.range_list_map]
    intro slot hslot
    obtain ⟨c, rfl, -⟩ := h.exists_of_mem (by simpa using hslot)
    exact ⟨c, rfl⟩
  obtain ⟨chunks, hchunks⟩ := hrange
  have hslots : a.store.table.slots = (chunks.map Slot.loaded).toArray := by
    rw [hchunks, Array.toArray_toList]
  refine ⟨chunks, hslots, ?_, fun c hc => ?_⟩
  · rw [← h.nchunks, Store.nchunks, hslots, List.size_toArray, List.length_map]
  · have hmem : Slot.loaded c ∈ a.store.table.slots := by simpa [hslots] using hc
    obtain ⟨c', hsame, hsize⟩ := h.exists_of_mem hmem
    cases hsame
    exact hsize

/-- The size of the store is that of all chunks. -/
theorem nbytes_eq (h : a.Sound contents) (hexact : a.store.Exact) :
    a.store.nbytes = a.geometry.nchunks * a.geometry.chunkSize := by
  obtain ⟨chunks, hslots, hlength, hsize⟩ := h.exists_chunks
  have hnominal : a.store.table.slots.toList.map (Slot.extent a.store.chunkSize) =
      List.replicate a.geometry.nchunks a.geometry.chunkSize := by
    rw [hslots, List.toList_toArray, List.map_map, ← hlength, ← List.map_const']
    exact List.map_congr_left fun c hc => hsize c hc
  rw [Store.nbytes, hexact.kept.tallied, ChunkTable.nbytes_ofSlots, hnominal,
    List.sum_replicate_nat]

/-- The store is given back as it is, up to the count of its changes. -/
theorem restored_eq (h : a.Sound contents) (hexact : a.store.Exact)
    (hfetch : a.store.Fetches source chunks) :
    a.store.restored chunks = { a.store with revision := 0 } := by
  obtain ⟨-, -, -, -, hsource, hset⟩ := h.grown.store_eq
  obtain ⟨c, -, hmetadata⟩ := Metadata.set_eq_ok hset
  have htable := Store.table_restored hexact.kept.tallied (h.full hexact) hfetch
  have hentries : ({ entries := a.store.metadata.compact.2.entries } : Metadata) =
      a.store.metadata := by
    rw [hmetadata]
    rfl
  rw [Store.restored, hentries, ← hsource]
  exact congrArg (fun table => ({ a.store with table, revision := 0 } : Store)) htable

/-- The count of changes does not matter. -/
theorem withRevision (h : a.Sound contents) (revision : Nat) :
    Sound { a with store := { a.store with revision } } contents := by
  have hkind : a.store.SameKind { a.store with revision } := by
    refine ⟨rfl, rfl, rfl, rfl, rfl, fun hexact => ⟨?_, hexact.packed⟩⟩
    have hkept := hexact.kept
    exact ⟨hkept.valid, hkept.chunkSize, hkept.tallied, hkept.chunks, hkept.metadata⟩
  exact ⟨h.regular, h.grown.of_sameKind hkind, h.nchunks, h.typesize, h.block, h.holds, h.size⟩

end Sound

/-! ## Frames of arrays -/

/-- The sizes that a frame of an array writes down fit their fields, and the text of its geometry is in
memory. -/
structure FitsFrame (a : NDArray) : Prop where
  blockSize : a.geometry.blockSize < 2 ^ 64
  chunkSize : a.geometry.chunkSize < 2 ^ 64
  nbytes : a.geometry.nchunks * a.geometry.chunkSize < 2 ^ 64
  text : a.geometry.toMeta.encode.size < 2 ^ 63
  countable : ∀ c, Slot.loaded c ∈ a.store.table.slots → c.Countable

section Frame

variable {fs : Files} {f head : Bytes}

/-- The frame of an array in memory gives its store back, and the array is looked for in there. -/
theorem Sound.ofFrame_eq (h : a.Sound contents) (hfits : a.FitsFrame)
    (hframe : (a.run (Store.toFrame (a.store.chunkSource fs))).1 = .ok f) (hsize : f.size < 2 ^ 63)
    (hhead : (a.run (Store.frameHead (a.store.chunkSource fs))).1 = .ok head)
    (hshort : head.size < FrameHeader.prefixSize + 2 ^ 32) :
    ofFrame f = ofStore { a.store with revision := 0 } := by
  have hexact := h.grown.exact
  obtain ⟨codec, hcodec, hchunkSize, -, -, -⟩ := h.grown.store_eq
  have hwords : a.store.HasWords :=
    ⟨by rw [hcodec]; exact hfits.blockSize, by rw [hchunkSize]; exact hfits.chunkSize⟩
  have hcount (i : Nat) (c : Chunk) (hc : a.store.fetch (a.store.chunkSource fs) i = .ok c) :
      c.Countable := by
    obtain ⟨slot, hslot, hanswer⟩ := Store.exists_slot_of_fetch hc
    have hmem := Array.mem_of_getElem? hslot
    obtain ⟨c', rfl, -⟩ := h.exists_of_mem hmem
    cases hanswer
    exact hfits.countable c hmem
  have hrun : Action.run (Store.toFrame (a.store.chunkSource fs)) a.store = (.ok f, _) :=
    Prod.ext hframe rfl
  obtain ⟨chunks, hfetch, hrestored⟩ := hexact.kept.ofFrame_of_run_toFrame
    (Store.faithful_chunkSource a.store fs) hwords (by rw [h.nbytes_eq hexact]; exact hfits.nbytes)
    hcount hrun hsize hhead hshort
  rw [ofFrame, hrestored, h.restored_eq hexact hfetch]
  rfl

/-- If the axes are signed words and the layout can be written down, the array is found. -/
theorem Sound.ofStore_eq (h : a.Sound contents) (hdtype : a.dtype.Composed)
    (haxes : ∀ n ∈ a.geometry.shape ++ a.geometry.chunks ++ a.geometry.blocks, n < 2 ^ 63)
    (revision : Nat) :
    ofStore { a.store with revision } = .ok { a with store := { a.store with revision } } := by
  obtain ⟨tile, block, -, -, hresolve, -, -⟩ := h.grown
  obtain ⟨-, -, hchunkSize, -, -, -⟩ := h.grown.store_eq
  rw [ofStore, readGeometry_eq h.grown.get_geometry haxes hdtype
    (Geometry.resolve_self hresolve)]
  simp only [bind, Except.bind]
  rw [if_neg]
  · rfl
  · rw [not_or, not_not, not_not]
    exact ⟨h.nchunks.symm, hchunkSize⟩

/-- The size of a frame of an array, apart from the items. -/
def overhead (a : NDArray) : Nat :=
  a.store.codec.toJson.render.length + a.geometry.toMeta.encode.size +
    40 * a.geometry.nchunks + 128

/-- What the metadata of an array is in a header: a short key, a value no longer than the text in its
chunk, and thirteen bytes around it. -/
theorem Grown.sizes (h : a.Grown) {limit : Nat}
    (htext : chunkHeaderSize + a.geometry.toMeta.encode.size ≤ limit) :
    (∀ e ∈ a.store.metadata.rawEntries, e.1.toUTF8.size < 2 ^ 16) ∧
      (∀ e ∈ a.store.metadata.rawEntries, e.2.size ≤ limit) ∧
      (a.store.metadata.rawEntries.map fun e => e.1.toUTF8.size + e.2.size + 6).sum ≤
        chunkHeaderSize + a.geometry.toMeta.encode.size + 13 := by
  obtain ⟨codec, -, -, -, -, hset⟩ := h.store_eq
  obtain ⟨c, hc, hmetadata⟩ := Metadata.set_eq_ok hset
  have hentries : a.store.metadata.rawEntries = [(Geometry.metadataKey, c.data)] := by
    rw [hmetadata]
    rfl
  have hentry : c.data.size ≤ chunkHeaderSize + a.geometry.toMeta.encode.size :=
    Chunk.cbytes_le_of_compress hc
  have hkey : Geometry.metadataKey.toUTF8.size = 7 := by decide
  rw [hentries, List.forall_mem_singleton, List.forall_mem_singleton, List.map_singleton,
    List.sum_singleton]
  simp only [hkey]
  exact ⟨by decide, hentry.trans htext, by omega⟩

/-- An array in memory is saved if the texts fit their fields. The header is short if all that is
written next to the items is. -/
theorem Sound.exists_toFrame (h : a.Sound contents) (fs : Files)
    (hcodec : a.store.codec.toJson.render.length ≤ FrameHeader.maxFieldLength)
    (htext : chunkHeaderSize + a.geometry.toMeta.encode.size ≤ FrameHeader.maxFieldLength)
    (hshort : a.overhead < 2 ^ 32) (hitems : a.geometry.nchunks * a.geometry.chunkSize < 2 ^ 62) :
    ∃ f head, (a.run (Store.toFrame (a.store.chunkSource fs))).1 = .ok f ∧ f.size < 2 ^ 63 ∧
      (a.run (Store.frameHead (a.store.chunkSource fs))).1 = .ok head ∧
      head.size < FrameHeader.prefixSize + 2 ^ 32 := by
  have hfield : FrameHeader.maxFieldLength < 2 ^ 32 := by decide
  have hexact := h.grown.exact
  obtain ⟨hkeys, hvalues, hsum⟩ := h.grown.sizes htext
  obtain ⟨chunks, hslots, hlength, hsize⟩ := h.exists_chunks
  have htotal : (chunks.map Chunk.nbytes).sum = a.geometry.nchunks * a.geometry.chunkSize := by
    rw [List.map_congr_left hsize, List.map_const', hlength, List.sum_replicate_nat]
  have hpayload := Store.sum_cbytes_le fun c (hc : c ∈ chunks) =>
    (hexact.slim (by simpa [hslots] using hc)).cbytes
  rw [htotal, hlength, chunkHeaderSize] at hpayload
  rw [overhead] at hshort
  obtain ⟨f, head, s', hrun, hhead, hheadSize, hframeSize⟩ := Store.exists_run_toFrame hslots hcodec
    hkeys hvalues (by omega) (a.store.chunkSource fs)
  rw [hlength] at hheadSize
  rw [chunkHeaderSize] at hsum
  refine ⟨f, head, congrArg Prod.fst hrun, ?_, hhead, by omega⟩
  rw [FrameHeader.prefixSize] at hheadSize
  omega

/-- An array with short texts, of less than a million chunks of less than a gigabyte, has sizes that
fit their fields, and is saved. -/
theorem Sound.exists_toFrame_of_small (h : a.Sound contents) (fs : Files)
    (hcodec : a.store.codec.toJson.render.length < 2 ^ 10)
    (htext : a.geometry.toMeta.encode.size < 2 ^ 10) (hblock : a.geometry.blockSize < 2 ^ 64)
    (hcount : a.geometry.nchunks < 2 ^ 20) (hchunk : a.geometry.chunkSize < 2 ^ 30) :
    a.FitsFrame ∧ ∃ f head, (a.run (Store.toFrame (a.store.chunkSource fs))).1 = .ok f ∧
      f.size < 2 ^ 63 ∧ (a.run (Store.frameHead (a.store.chunkSource fs))).1 = .ok head ∧
      head.size < FrameHeader.prefixSize + 2 ^ 32 := by
  have hfield : 2 ^ 20 ≤ FrameHeader.maxFieldLength := by decide
  have hnbytes : a.geometry.nchunks * a.geometry.chunkSize ≤ 2 ^ 20 * 2 ^ 30 :=
    Nat.mul_le_mul hcount.le hchunk.le
  refine ⟨⟨hblock, by omega, by omega, by omega, fun c hc => .inr (.inl ?_)⟩,
    h.exists_toFrame fs (by omega) (by rw [chunkHeaderSize]; omega) (by rw [overhead]; omega)
      (by omega)⟩
  obtain ⟨c', hsame, hsize⟩ := h.exists_of_mem hc
  cases hsame
  omega

/-- Whatever was written to an array that was built in memory, its frame gives an array of the same
geometry back that reads the same at every region. -/
theorem ofFrame_reads_back (h : a.Built) (hmemory : a.geometry.FitsMemory) (hdtype : a.dtype.Composed)
    (haxes : ∀ n ∈ a.geometry.shape ++ a.geometry.chunks ++ a.geometry.blocks, n < 2 ^ 63)
    (hfits : a.FitsFrame)
    (hframe : (a.run (Store.toFrame (a.store.chunkSource fs))).1 = .ok f) (hsize : f.size < 2 ^ 63)
    (hhead : (a.run (Store.frameHead (a.store.chunkSource fs))).1 = .ok head)
    (hshort : head.size < FrameHeader.prefixSize + 2 ^ 32) :
    ∃ b, ofFrame f = .ok b ∧ b.geometry = a.geometry ∧
      ∀ fs fs' region, (b.readRegion fs region).1 = (a.readRegion fs' region).1 := by
  obtain ⟨contents, hsound, -⟩ := h.exists_padded hmemory
  refine ⟨{ a with store := { a.store with revision := 0 } }, ?_, rfl, fun fs fs' region => ?_⟩
  · rw [hsound.ofFrame_eq hfits hframe hsize hhead hshort,
      hsound.ofStore_eq hdtype haxes]
  · rw [(hsound.withRevision 0).shows.readRegion_eq, hsound.shows.readRegion_eq]
    rfl

/-- Three bytes in two chunks are saved and read back. -/
theorem ofFrame_reads_back_three_bytes :
    ∃ a f b, NDArray.ofBytes #[1, 2, 3] [3] (.scalar .uint8)
        { chunks := some [2], codec := { codec := .noop } } = .ok a ∧
      (a.run (Store.toFrame (a.store.chunkSource {}))).1 = .ok f ∧ ofFrame f = .ok b ∧
      b.geometry = ⟨[3], .scalar .uint8, [2], [2]⟩ ∧
      (b.readRegion {} []).1 = .ok ⟨[3], .scalar .uint8, #[1, 2, 3]⟩ := by
  obtain ⟨a, ha, hgeometry, hcodec⟩ := @exists_ofBytes #[1, 2, 3] [3] (.scalar .uint8)
    { chunks := some [2], codec := { codec := .noop } } ⟨[3], .scalar .uint8, [2], [2]⟩ (by decide)
    (by rfl) (by rfl) (by rfl) (by decide) (by decide +kernel)
  have hmemory : a.geometry.FitsMemory := fun _ => by rw [hgeometry]; decide
  obtain ⟨-, -, -, hsound⟩ := sound_of_ofBytes ha hmemory
  obtain ⟨hfits, f, head, hframe, hsize, hhead, hshort⟩ := hsound.exists_toFrame_of_small {}
    (by rw [hcodec]; decide +kernel) (by rw [hgeometry]; decide +kernel) (by rw [hgeometry]; decide)
    (by rw [hgeometry]; decide) (by rw [hgeometry]; decide)
  obtain ⟨b, hb, hsame, hreads⟩ := ofFrame_reads_back (.ofBytes ha) hmemory
    (by rw [dtype, hgeometry]; exact .scalar _) (by rw [hgeometry]; decide) hfits hframe hsize hhead
    hshort
  refine ⟨a, f, b, ha, hframe, hb, hsame.trans hgeometry, (hreads {} {} []).trans ?_⟩
  have hshape : a.shape = [3] := by rw [shape, hgeometry]
  rw [(shows_of_ofBytes ha hmemory).read {} [] [⟨0, 3, 1⟩] (by rw [hshape]; rfl), dtype, hgeometry]
  rfl

/-- An axis beyond the signed words is saved next to an empty one, and the frame gives no array back:
in the metadata the axis has become negative. -/
theorem ofFrame_beyond_words :
    ∃ a f, NDArray.zeros [2 ^ 63, 0] (.scalar .uint8) { codec := { codec := .noop } } = .ok a ∧
      (a.run (Store.toFrame (a.store.chunkSource {}))).1 = .ok f ∧
      ofFrame f = .error (.format (.notAnAxis (.int (-2 ^ 63)))) := by
  let g : Geometry := ⟨[2 ^ 63, 0], .scalar .uint8, [2 ^ 20, 1], [2 ^ 16, 1]⟩
  have hresolve : Geometry.resolve [2 ^ 63, 0] (.scalar .uint8) none none = .ok g := by rfl
  have hnone : g.nchunks = 0 := by rfl
  obtain ⟨a, hnew⟩ := @exists_allocate g { codec := .noop } (by decide) (by decide) rfl
    (by decide +kernel)
  have ha : NDArray.zeros [2 ^ 63, 0] (.scalar .uint8) { codec := { codec := .noop } } = .ok a :=
    bind_eq_ok.2 ⟨g, hresolve, bind_eq_ok.2 ⟨a, hnew, if_pos hnone⟩⟩
  have hfresh := fresh_of_allocate hnew
  have hgeometry := hfresh.geometry
  have hempty : a.geometry.nchunks = 0 := by rw [hgeometry, hnone]
  have hsound := sound_of_zeros ha fun hpos => absurd hpos (by omega)
  obtain ⟨hfits, f, head, hframe, hsize, hhead, hshort⟩ := hsound.exists_toFrame_of_small {}
    (by rw [hfresh.codec]; decide +kernel) (by rw [hgeometry]; decide +kernel)
    (by rw [hgeometry]; decide) (by omega) (by rw [hgeometry]; decide)
  refine ⟨a, f, ha, hframe, ?_⟩
  have hread : readGeometry a.store.metadata = .error (.format (.notAnAxis (.int (-2 ^ 63)))) := by
    rw [readGeometry_toMeta hsound.grown.get_geometry, hgeometry]
    rfl
  rw [hsound.ofFrame_eq hfits hframe hsize hhead hshort, ofStore, hread]
  rfl

end Frame

end NDArray

end ChunkedArray
