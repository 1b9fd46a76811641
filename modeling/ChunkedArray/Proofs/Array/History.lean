import ChunkedArray.Proofs.Array.Frame

/-!
# Arrays do not show their history

The items of an array in memory, its geometry and its codec determine its frame: the items and the
zeros of the padding determine the bytes of every chunk, compression is a function of these bytes, and
a frame shows nothing of a store but its parameters, its metadata and its chunks. However an array was
built and written to, its frame is that of the array made at once of the items that it shows.
-/

namespace ChunkedArray

open ChunkedArray.Action

/-- The items of a function of coordinates, joined in C order. -/
theorem exists_bytes_of_items {shape : Shape} {width : Nat} (item : List Nat → Bytes)
    (hsize : ∀ c, shape.Holds c → (item c).size = width) :
    ∃ data : Bytes, data.size = shape.size * width ∧
      ∀ c, shape.Holds c → data.item width (shape.flatten c) = item c := by
  refine ⟨Array.ofFn fun p : Fin (shape.size * width) =>
    (item (shape.unflatten (p / width))).getD (p % width) 0, Array.size_ofFn, fun c hc => ?_⟩
  have hend : (shape.flatten c + 1) * width ≤ shape.size * width :=
    Nat.mul_le_mul_right _ (Shape.flatten_lt hc)
  refine Bytes.ext_getD ?_ fun k hk => ?_
  · rw [Bytes.size_item _ _ _ (by rwa [Array.size_ofFn]), hsize c hc]
  · rw [Bytes.size_item _ _ _ (by rwa [Array.size_ofFn])] at hk
    rw [Nat.succ_mul] at hend
    have hlt : shape.flatten c * width + k < shape.size * width := by omega
    have hdiv : (shape.flatten c * width + k) / width = shape.flatten c := by
      rw [Nat.mul_comm, Nat.mul_add_div (by omega), Nat.div_eq_of_lt hk, Nat.add_zero]
    have hmod : (shape.flatten c * width + k) % width = k := by
      rw [Nat.mul_comm, Nat.mul_add_mod, Nat.mod_eq_of_lt hk]
    rw [Bytes.getD_item _ _ _ _ hk, Array.getD_eq_getD_getElem?, Array.getElem?_ofFn, dif_pos hlt,
      Option.getD_some, hdiv, hmod, Shape.unflatten_flatten hc]

namespace NDArray

variable {a b : NDArray} {contents : Nat → Bytes} {data : Bytes}

/-- The codec of an array is its own chunk codec. -/
theorem Grown.chunkCodec_store (h : a.Grown) :
    a.geometry.chunkCodec a.store.codec = a.store.codec := by
  obtain ⟨codec, hcodec, -⟩ := h.store_eq
  rw [hcodec]
  rfl

namespace Sound

/-- The bytes of a chunk were compressed to what its slot holds. -/
theorem exists_compress (h : a.Sound contents) {i : Nat} (hi : i < a.geometry.nchunks) :
    ∃ c, a.store.table.slots[i]? = some (.loaded c) ∧
      Chunk.compress (contents i) a.store.codec = .ok c :=
  h.grown.exact.compress_of_slotHolds h.typesize (h.holds i hi)

/-- The frames of two arrays of one geometry and codec with the same chunk bytes are the same, or
they fail the same. -/
theorem outcome_toFrame_eq (h : a.Sound contents) (h' : b.Sound contents)
    (hgeometry : b.geometry = a.geometry) (hcodec : b.store.codec = a.store.codec)
    (source source' : ChunkSource) :
    outcome (Store.toFrame source') b.store = outcome (Store.toFrame source) a.store := by
  have hslots : b.store.table.slots = a.store.table.slots := by
    refine Array.ext_getElem? fun i => ?_
    by_cases hi : i < a.geometry.nchunks
    · obtain ⟨c, hc, hcompress⟩ := h.exists_compress hi
      obtain ⟨c', hc', hcompress'⟩ := h'.exists_compress (hgeometry ▸ hi)
      rw [hcodec, hcompress] at hcompress'
      cases hcompress'
      rw [hc, hc']
    · have hsize : a.store.table.slots.size ≤ i := by
        rw [← Store.nchunks, h.nchunks]
        omega
      have hsize' : b.store.table.slots.size ≤ i := by
        rw [← Store.nchunks, h'.nchunks, hgeometry]
        omega
      rw [Array.getElem?_eq_none hsize, Array.getElem?_eq_none hsize']
  obtain ⟨-, -, hchunkSize, hresize, -, hset⟩ := h.grown.store_eq
  obtain ⟨-, -, hchunkSize', hresize', -, hset'⟩ := h'.grown.store_eq
  rw [hgeometry, hset] at hset'
  have hmetadata := Except.ok.inj hset'
  obtain ⟨chunks, hchunks, -⟩ := h.exists_chunks
  have hheader : b.store.headerFor 0 chunks = a.store.headerFor 0 chunks := by
    simp only [Store.headerFor, hcodec, hchunkSize, hchunkSize', hresize, hresize', ← hmetadata,
      h.nbytes_eq h.grown.exact, h'.nbytes_eq h'.grown.exact, hgeometry]
  rw [Store.outcome_toFrame_of_loaded hchunks, Store.outcome_toFrame_of_loaded (hslots.trans hchunks),
    hheader]

/-- Padded chunks are those that are cut from the items. -/
theorem eq_cutChunk (h : a.Sound contents) (hpadded : a.geometry.Padded contents)
    (hdata : data.size = a.geometry.shape.size * a.geometry.itemsize)
    (hitems : ∀ c, a.geometry.shape.Holds c →
      data.item a.geometry.itemsize (a.geometry.shape.flatten c) = a.geometry.itemAt contents c)
    {i : Nat} (hi : i < a.geometry.nchunks) : contents i = cutChunk a.geometry data i := by
  have hcut : a.geometry.Padded (cutChunk a.geometry data) :=
    Geometry.padded_padToLayout h.regular _
  refine hpadded.eq_of_itemAt hcut h.regular (fun c hc => ?_) hi (h.size i hi)
    (size_cutChunk h.regular data hi)
  rw [← hitems c hc]
  exact (itemAt_cutChunk h.regular hdata hc).symm

/-- An array in memory can be made again of its items. -/
theorem exists_ofBytes (h : a.Sound contents) (hmemory : a.geometry.FitsMemory)
    (hdata : data.size = a.geometry.shape.size * a.geometry.itemsize)
    (hcut : ∀ i < a.geometry.nchunks, contents i = cutChunk a.geometry data i) {codec : CodecConfig}
    (hcodec : a.geometry.chunkCodec codec = a.store.codec) :
    ∃ b, ofBytes data a.shape a.dtype
        { chunks := some a.geometry.chunks, blocks := some a.geometry.blocks, codec } = .ok b ∧
      b.geometry = a.geometry ∧ b.store.codec = a.store.codec ∧ b.Sound contents := by
  obtain ⟨tile, block, -, -, hresolve, -, -⟩ := h.grown
  obtain ⟨-, -, -, -, -, hset⟩ := h.grown.store_eq
  have hstore : Store.new (a.geometry.chunkCodec codec) a.geometry.chunkSize =
      .ok { codec := a.store.codec, chunkSize := a.geometry.chunkSize } := by
    rw [hcodec]
    exact bind_eq_ok.2 ⟨(), h.grown.exact.kept.valid, if_neg h.regular.chunkSize_pos.ne'⟩
  have hnew : allocate a.geometry codec = .ok ⟨a.geometry, { codec := a.store.codec
                                                             chunkSize := a.geometry.chunkSize
                                                             metadata := a.store.metadata }⟩ := by
    rw [allocate, if_neg h.regular.itemsize_pos.ne']
    exact bind_eq_ok.2 ⟨_, hstore, bind_eq_ok.2 ⟨_, hset, rfl⟩⟩
  obtain ⟨b, hb, hgeometry, hstored, hsound⟩ := exists_ofBytes_of_allocate
    { chunks := some a.geometry.chunks, blocks := some a.geometry.blocks, codec }
    (Geometry.resolve_self hresolve) hnew hdata hmemory fun i hi => by
      obtain ⟨c, -, hc⟩ := h.exists_compress hi
      rw [hcut i hi] at hc
      exact ⟨c, hc⟩
  refine ⟨b, hb, hgeometry, hstored.trans hcodec, hsound.congr fun i hi => ?_⟩
  rw [hgeometry] at hi
  exact (hcut i hi).symm

end Sound

/-- Every chunk of an array can be read, and shows zeros outside of its part of the array. -/
def ZeroPadded (a : NDArray) : Prop :=
  ∀ (fs : Files), ∀ i < a.geometry.nchunks, ∃ raw,
    (a.run (Store.getChunk (a.store.chunkSource fs) i)).1 = .ok raw ∧
      raw.size = a.geometry.chunkSize ∧
      ∀ c, a.geometry.chunks.Holds c → ¬ Shape.Holds (Box.shape (a.geometry.grid.chunkBox i)) c →
        raw.item a.geometry.itemsize (a.geometry.chunks.flatten c) =
          Bytes.zeros a.geometry.itemsize

theorem Sound.zeroPadded (h : a.Sound contents) (hpadded : a.geometry.Padded contents) :
    a.ZeroPadded := by
  intro fs i hi
  have hrun : Action.run (Store.getChunk (a.store.chunkSource fs) i) a.store =
      (.ok (contents i), a.store) := (h.holds i hi).run_getChunk
  refine ⟨contents i, congrArg Prod.fst hrun, h.size i hi, fun c hc hout => ?_⟩
  have hitem : ((contents i).item a.geometry.itemsize (a.geometry.chunks.flatten c)).size =
      a.geometry.itemsize := by
    refine Bytes.size_item _ _ _ ?_
    rw [h.size i hi]
    exact Nat.mul_le_mul_right _ (Shape.flatten_lt hc)
  refine Bytes.ext_getD (hitem.trans (Bytes.size_zeros _).symm) fun k hk => ?_
  rw [hitem] at hk
  rw [Bytes.getD_item _ _ _ _ hk, hpadded i hi c hc hout k hk, Bytes.getD_zeros]

/-- However an array was built in memory and written to, its padding is zero, and its frame is that of
the array made of the items that it shows, byte for byte, with the same geometry and any parameters
that compress chunks like its own. -/
theorem Built.toFrame_eq_ofBytes (h : a.Built) (hmemory : a.geometry.FitsMemory)
    (hsize : a.geometry.nbytes < 2 ^ 63) (fs : Files) :
    a.ZeroPadded ∧ a.geometry.chunkCodec a.store.codec = a.store.codec ∧
      ∃ items, (a.readRegion fs []).1 = .ok items ∧
        ∀ codec, a.geometry.chunkCodec codec = a.store.codec →
          ∃ b, NDArray.ofBytes items.data a.shape a.dtype
              { chunks := some a.geometry.chunks, blocks := some a.geometry.blocks, codec } = .ok b ∧
            ∀ fs', (b.run (Store.toFrame (b.store.chunkSource fs'))).1 =
              (a.run (Store.toFrame (a.store.chunkSource fs))).1 := by
  obtain ⟨contents, hsound, hpadded⟩ := h.exists_padded hmemory
  obtain ⟨data, hdata, hitems⟩ := exists_bytes_of_items (a.geometry.itemAt contents)
    fun c hc => Geometry.size_itemAt hsound.regular hsound.size hc
  have hshows := hsound.shows.congr fun c hc => (hitems c hc).symm
  obtain ⟨items, hread, -, hbytes, -⟩ := hshows.readRegion_nil hsound.regular.itemsize_pos hdata
    (hdata.trans_lt hsize) fs
  refine ⟨hsound.zeroPadded hpadded, hsound.grown.chunkCodec_store, items, hread,
    fun codec hcodec => ?_⟩
  rw [hbytes]
  obtain ⟨b, hb, hgeometry, hstore, hsound'⟩ := hsound.exists_ofBytes hmemory hdata
    (fun i hi => hsound.eq_cutChunk hpadded hdata hitems hi) hcodec
  exact ⟨b, hb, fun fs' => hsound.outcome_toFrame_eq hsound' hgeometry hstore _ _⟩

/-- Three bytes in two chunks, the last of which is overwritten: the array is saved like that of the
new bytes. -/
theorem Built.toFrame_eq_ofBytes_overwritten :
    ∃ a a' b f, NDArray.ofBytes #[1, 2, 3] [3] (.scalar .uint8)
        { chunks := some [2], codec := { codec := .noop } } = .ok a ∧
      a' = (a.writeRegion {} [.single 2] #[9]).2 ∧
      NDArray.ofBytes #[1, 2, 9] [3] (.scalar .uint8)
        { chunks := some [2], blocks := some [2], codec := { codec := .noop } } = .ok b ∧
      (a'.run (Store.toFrame (a'.store.chunkSource {}))).1 = .ok f ∧
      (b.run (Store.toFrame (b.store.chunkSource {}))).1 = .ok f := by
  obtain ⟨a, ha, hgeometry, hcodec⟩ := @exists_ofBytes #[1, 2, 3] [3] (.scalar .uint8)
    { chunks := some [2], codec := { codec := .noop } } ⟨[3], .scalar .uint8, [2], [2]⟩ (by decide)
    (by rfl) (by rfl) (by rfl) (by decide) (by decide +kernel)
  have hmemory : a.geometry.FitsMemory := fun _ => by rw [hgeometry]; decide
  obtain ⟨-, -, -, hsound⟩ := sound_of_ofBytes ha hmemory
  have hsel : Region.resolveStrict [.single 2] a.shape = .ok [⟨2, 1, 1⟩] := by
    rw [shape, hgeometry]
    rfl
  have hone : (#[9] : Bytes).size = a.geometry.itemsize := by
    rw [hgeometry]
    rfl
  obtain ⟨a', hwrite, hsame, hsound', -, hkind⟩ := hsound.writeRegion_eq {} hsel (.inr hone)
  have hgeometry' := hsame.trans hgeometry
  have hcodec' := hkind.codec.trans hcodec
  have hbuilt : a'.Built := by
    have hwritten := Built.writeRegion {} [.single 2] #[9] (.ofBytes ha)
    rwa [hwrite] at hwritten
  obtain ⟨-, f, -, hframe, -⟩ := hsound'.exists_toFrame_of_small {}
    (by rw [hcodec']; decide +kernel) (by rw [hgeometry']; decide +kernel)
    (by rw [hgeometry']; decide) (by rw [hgeometry']; decide) (by rw [hgeometry']; decide)
  obtain ⟨-, -, items, hread, hagain⟩ := hbuilt.toFrame_eq_ofBytes (fun _ => by rw [hgeometry']; decide)
    (by rw [hgeometry']; decide) {}
  obtain ⟨b, hb, hsaved⟩ := hagain { codec := .noop } (by rw [hgeometry', hcodec'])
  have hitems : items.data = #[1, 2, 9] := by
    rw [hsound'.shows.read {} [] [⟨0, 3, 1⟩] (by rw [shape, hgeometry']; rfl), hgeometry, hgeometry']
      at hread
    cases hread
    rfl
  rw [hitems, shape, dtype, hgeometry'] at hb
  exact ⟨a, a', b, f, ha, by rw [hwrite], hb, hframe, (hsaved {}).trans hframe⟩

end NDArray

end ChunkedArray
