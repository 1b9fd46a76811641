import ChunkedArray.Proofs.Array.Sound
import ChunkedArray.Proofs.Metadata.Value

/-!
# Building arrays

Arrays of zeros and arrays of given items are built in memory. `ofBytes` cuts the items into padded
chunks, and taking every item out of its chunk again gives the items back; it fails only if the
parameters are refused or a byte string is too long to be compressed.
-/

namespace ChunkedArray

/-- Tiles that are accepted: chunks have the rank of the shape and no empty axis, and blocks of the same
rank lie inside them. -/
theorem Shape.resolveGeometry_eq_ok {shape tile block : Shape} {itemsize : Nat}
    {chunks blocks : Option Shape}
    (h : resolveGeometry shape itemsize chunks blocks = .ok (tile, block)) :
    tile.length = shape.length ∧ 0 ∉ tile ∧
      ¬ (block.length ≠ tile.length ∨ ((block.zip tile).any fun p => p.1 == 0 || p.2 < p.1)) := by
  rw [resolveGeometry] at h
  dsimp only at h
  generalize Option.getD chunks _ = tile' at h
  by_cases hlen : tile'.length ≠ shape.length
  · rw [if_pos hlen] at h
    cases h
  by_cases hzero : 0 ∈ tile'
  · rw [if_neg hlen, if_pos hzero] at h
    cases h
  rw [if_neg hlen, if_neg hzero] at h
  split at h
  · cases h
  · rename_i hblock
    cases h
    exact ⟨not_not.1 hlen, hzero, hblock⟩

namespace Geometry

variable {shape : Shape} {dtype : DType} {chunks blocks : Option Shape} {g : Geometry}

/-- A resolved geometry has the given shape and layout, and no axis of its chunks is empty. -/
theorem of_resolve (h : resolve shape dtype chunks blocks = .ok g) :
    g.shape = shape ∧ g.dtype = dtype ∧ g.grid.Regular := by
  obtain ⟨⟨tile, block⟩, hresolve, h⟩ := bind_eq_ok.1 h
  cases h
  obtain ⟨hlen, hzero, -⟩ := Shape.resolveGeometry_eq_ok hresolve
  refine ⟨rfl, rfl, (List.forall₂_iff_get).2 ⟨hlen.symm, fun i _ hi => ?_⟩⟩
  exact Nat.pos_of_ne_zero fun h0 => hzero (h0 ▸ List.get_mem _ _)

/-- Its own chunk and block shapes resolve to the same geometry. -/
theorem resolve_self (h : resolve shape dtype chunks blocks = .ok g) :
    resolve g.shape g.dtype (some g.chunks) (some g.blocks) = .ok g := by
  obtain ⟨⟨tile, block⟩, hresolve, h⟩ := bind_eq_ok.1 h
  cases h
  obtain ⟨hlen, hzero, hblock⟩ := Shape.resolveGeometry_eq_ok hresolve
  rw [resolve, Shape.resolveGeometry]
  dsimp only [Option.getD_some]
  rw [if_neg (not_not.2 hlen), if_neg hzero, if_neg hblock]
  rfl

/-- The parameters under which the chunks of an array are compressed. -/
def chunkCodec (g : Geometry) (codec : CodecConfig) : CodecConfig :=
  { codec with typesize := typesize g.itemsize, blockSize := g.blockSize }

theorem Regular.chunkSize_pos (hg : g.Regular) : 0 < g.chunkSize := by
  have hgrid := hg.grid
  refine Nat.mul_pos (Shape.size_pos_iff.2 fun n hn => ?_) hg.itemsize_pos
  obtain ⟨i, hi, rfl⟩ := List.getElem_of_mem hn
  exact hgrid.get (by rw [hgrid.length_eq]; exact hi) hi

end Geometry

namespace NDArray

/-! ## Arrays without chunks -/

/-- A new array carries its geometry and nothing else; its store takes chunks of its chunk size. -/
structure Fresh (a : NDArray) (g : Geometry) (codec : CodecConfig) : Prop where
  geometry : a.geometry = g
  itemsize_pos : 0 < g.itemsize
  codec : a.store.codec = g.chunkCodec codec
  chunkSize : a.store.chunkSize = g.chunkSize
  allowResize : a.store.allowResize = false
  slots : a.store.table.slots = #[]

theorem typesize_pos {itemsize : Nat} (h : 0 < itemsize) : 0 < Geometry.typesize itemsize := by
  rw [Geometry.typesize]
  split <;> omega

theorem typesize_le (itemsize : Nat) : Geometry.typesize itemsize ≤ 255 := by
  rw [Geometry.typesize]
  split <;> omega

/-- A new array has a store under the parameters that the geometry asks for, with the geometry as its
only metadata. -/
theorem allocate_eq_ok {g : Geometry} {codec : CodecConfig} {a : NDArray}
    (h : allocate g codec = .ok a) :
    0 < g.itemsize ∧ ∃ store metadata, Store.new (g.chunkCodec codec) g.chunkSize = .ok store ∧
      store.metadata.set Geometry.metadataKey g.toMeta = .ok metadata ∧
      a = ⟨g, { store with metadata }⟩ := by
  rw [allocate] at h
  by_cases hitem : g.itemsize = 0
  · rw [if_pos hitem] at h
    cases h
  rw [if_neg hitem] at h
  obtain ⟨store, hstore, h⟩ := bind_eq_ok.1 h
  obtain ⟨metadata, hmetadata, h⟩ := bind_eq_ok.1 h
  cases h
  exact ⟨Nat.pos_of_ne_zero hitem, store, metadata, hstore, hmetadata, rfl⟩

theorem fresh_of_allocate {g : Geometry} {codec : CodecConfig} {a : NDArray}
    (h : allocate g codec = .ok a) : a.Fresh g codec := by
  obtain ⟨hitem, store, metadata, hnew, -, rfl⟩ := allocate_eq_ok h
  obtain ⟨-, -, rfl⟩ := Store.new_eq_ok hnew
  exact ⟨rfl, hitem, rfl, rfl, rfl, rfl⟩

theorem grown_of_allocate {shape : Shape} {dtype : DType} {chunks blocks : Option Shape}
    {g : Geometry} {codec : CodecConfig} {a : NDArray}
    (hresolve : Geometry.resolve shape dtype chunks blocks = .ok g) (h : allocate g codec = .ok a) :
    a.Grown := by
  obtain ⟨rfl, rfl, -⟩ := Geometry.of_resolve hresolve
  obtain rfl := (fresh_of_allocate h).geometry
  exact ⟨chunks, blocks, codec, a, hresolve, h, .refl _⟩

section Fresh

variable {a : NDArray} {g : Geometry} {codec : CodecConfig}

theorem Fresh.typesize (h : a.Fresh g codec) :
    a.store.codec.typesize = Geometry.typesize g.itemsize := by
  rw [h.codec, Geometry.chunkCodec]

theorem Fresh.typesize_pos (h : a.Fresh g codec) : 0 < a.store.codec.typesize := by
  rw [h.typesize]
  exact NDArray.typesize_pos h.itemsize_pos

/-- A chunk of less than four gigabytes has blocks of a size that can be written down. -/
theorem Fresh.chosenBlockSize_lt (h : a.Fresh g codec) {size : Nat} (hsize : size < 2 ^ 32) :
    Chunk.chosenBlockSize size a.store.codec < 2 ^ 32 := by
  have hle := typesize_le g.itemsize
  have hpos := NDArray.typesize_pos h.itemsize_pos
  rw [Chunk.chosenBlockSize, h.codec, Geometry.chunkCodec, Chunk.effectiveBlockSize]
  have hdiv := Nat.div_mul_le_self g.blockSize (max (Geometry.typesize g.itemsize) 1)
  dsimp only
  split <;> omega

end Fresh

/-- Valid parameters and a geometry that can be written down make a new array. -/
theorem exists_allocate {g : Geometry} {codec : CodecConfig} (hitem : 0 < g.itemsize)
    (hchunk : 0 < g.chunkSize) (hcodec : codec.validate = .ok ())
    (hmeta : g.toMeta.encode.size < 2 ^ 32) : ∃ a, allocate g codec = .ok a := by
  have hvalid : (g.chunkCodec codec).validate = .ok () := by
    rw [CodecConfig.validate_eq_ok_iff] at hcodec ⊢
    exact ⟨hcodec.1, typesize_pos hitem, typesize_le g.itemsize⟩
  obtain ⟨metadata, hset⟩ := Metadata.exists_set (m := {}) Geometry.metadataKey rfl hmeta
  have hnew : Store.new (g.chunkCodec codec) g.chunkSize =
      .ok { codec := g.chunkCodec codec, chunkSize := g.chunkSize } :=
    bind_eq_ok.2 ⟨(), hvalid, if_neg hchunk.ne'⟩
  refine ⟨⟨g, { codec := g.chunkCodec codec, chunkSize := g.chunkSize, metadata }⟩, ?_⟩
  rw [allocate, if_neg hitem.ne']
  exact bind_eq_ok.2 ⟨_, hnew, bind_eq_ok.2 ⟨metadata, hset, rfl⟩⟩

/-- Valid parameters make a new array of every geometry that was resolved and can be written down. -/
theorem exists_allocate_of_resolve {shape : Shape} {dtype : DType} {chunks blocks : Option Shape}
    {g : Geometry} {codec : CodecConfig} (hitem : 0 < dtype.itemsize)
    (hresolve : Geometry.resolve shape dtype chunks blocks = .ok g) (hcodec : codec.validate = .ok ())
    (hmeta : g.toMeta.encode.size < 2 ^ 32) : g.Regular ∧ ∃ a, allocate g codec = .ok a := by
  obtain ⟨-, hdtype, hgrid⟩ := Geometry.of_resolve hresolve
  have hpos : 0 < g.itemsize := by rwa [Geometry.itemsize, hdtype]
  have hregular : g.Regular := ⟨hgrid, hpos⟩
  exact ⟨hregular, exists_allocate hpos hregular.chunkSize_pos hcodec hmeta⟩

/-! ## Arrays of given chunks -/

/-- A new array that takes a chunk for every cell of its grid is an array in memory. -/
theorem Fresh.withChunks {a : NDArray} {g : Geometry} {codec : CodecConfig} (h : a.Fresh g codec)
    (hgrown : a.Grown) (hg : g.grid.Regular) {chunks : List Chunk} (contents : Nat → Bytes) (hmemory : g.FitsMemory)
    (hchunks : List.Forall₂ (fun i c => Chunk.compress (contents i) a.store.codec = .ok c)
      (List.range g.nchunks) chunks)
    (hcontents : ∀ i < g.nchunks, (contents i).size = g.chunkSize) :
    ∃ a', a.withChunks chunks = .ok a' ∧ a'.geometry = g ∧
      a'.store.codec = g.chunkCodec codec ∧ a'.Sound contents := by
  have hlength : chunks.length = g.nchunks := by rw [← hchunks.length_eq, List.length_range]
  have hcompress (i : Nat) (hi : i < chunks.length) :
      Chunk.compress (contents i) a.store.codec = .ok chunks[i] := by
    have hget := hchunks.get (i := i) (by rwa [List.length_range, ← hlength]) hi
    simpa using hget
  have hraw (i : Nat) (hi : i < chunks.length) : (contents i).size < 2 ^ 63 := by
    rw [hcontents i (by omega)]
    exact hmemory (by omega)
  have hholds (i : Nat) (hi : i < chunks.length) : chunks[i].Holds (contents i) :=
    Chunk.holds_compress h.typesize_pos (hraw i hi) (hcompress i hi)
  -- Every chunk holds its bytes and has the nominal size, so each is taken behind the one before.
  obtain ⟨store, hrun, hkind, hslots⟩ := Store.run_appendChunks a.store
    (by simp [h.slots]) (fun c hc => by
      obtain ⟨i, hi, rfl⟩ := List.getElem_of_mem hc
      rw [(hholds i hi).nbytes, hcontents i (by omega), h.chunkSize]) (fun c hc => by
      obtain ⟨i, hi, rfl⟩ := List.getElem_of_mem hc
      exact ⟨contents i, hraw i hi, hcompress i hi⟩)
  rw [h.slots, Array.empty_append] at hslots
  refine ⟨{ a with store }, bind_eq_ok.2 ⟨_, Store.exec_eq_ok_iff.2 hrun, rfl⟩, h.geometry,
    hkind.codec.trans h.codec, ?_⟩
  have hgeometry : NDArray.geometry { a with store } = g := h.geometry
  constructor
  · rw [hgeometry]
    exact ⟨hg, h.itemsize_pos⟩
  · exact hgrown.of_sameKind hkind
  · rw [hgeometry, Store.nchunks, hslots]
    simpa using hlength
  · rw [hkind.codec]
    exact h.typesize_pos
  · rw [hgeometry, hkind.codec]
    intro hpos
    by_contra hlarge
    have hfirst := hcompress 0 (by omega)
    rw [Chunk.compress_eq_error (by rw [hcontents 0 hpos]; omega)] at hfirst
    cases hfirst
  · rw [hgeometry]
    exact fun i hi => ⟨_, by simp [hslots, hlength, hi], hholds i (by omega)⟩
  · rwa [hgeometry]

/-! ## Zeros -/

/-- One chunk serves for all chunks of an array of zeros. -/
theorem forall₂_replicate {raw : Bytes} {codec : CodecConfig} {c : Chunk}
    (h : Chunk.compress raw codec = .ok c) (count : Nat) :
    List.Forall₂ (fun _ c => Chunk.compress raw codec = .ok c) (List.range count)
      (List.replicate count c) := by
  rw [List.forall₂_iff_get]
  exact ⟨by simp, fun i _ _ => by simpa using h⟩

/-- An array of zeros is in memory, and every chunk of it is made of zeros. -/
theorem sound_of_zeros {shape : Shape} {dtype : DType} {params : ArrayParams} {a : NDArray}
    (h : zeros shape dtype params = .ok a) (hmemory : a.geometry.FitsMemory) :
    a.Sound fun _ => Bytes.zeros a.geometry.chunkSize := by
  obtain ⟨g, hresolve, h⟩ := bind_eq_ok.1 h
  obtain ⟨new, hallocate, h⟩ := bind_eq_ok.1 h
  obtain ⟨-, -, hg⟩ := Geometry.of_resolve hresolve
  have hfresh := fresh_of_allocate hallocate
  -- Without chunks nothing is compressed, and the array is the allocated one.
  by_cases hempty : g.nchunks = 0
  · rw [if_pos hempty] at h
    cases h
    have hnone : a.geometry.nchunks = 0 := by rw [hfresh.geometry, hempty]
    refine ⟨?_, grown_of_allocate hresolve hallocate, ?_, hfresh.typesize_pos, fun hpos => ?_,
      fun i hi => ?_, fun i _ => Bytes.size_zeros _⟩
    · rw [hfresh.geometry]
      exact ⟨hg, hfresh.itemsize_pos⟩
    · rw [hnone, Store.nchunks, hfresh.slots]
      rfl
    · omega
    · omega
  · rw [if_neg hempty] at h
    obtain ⟨chunk, hchunk, h⟩ := bind_eq_ok.1 h
    have hgeometry : a.geometry = g := by
      obtain ⟨⟨_, store⟩, -, h⟩ := bind_eq_ok.1 h
      cases h
      exact hfresh.geometry
    rw [hgeometry] at hmemory ⊢
    obtain ⟨a', ha', -, -, hsound⟩ := hfresh.withChunks (grown_of_allocate hresolve hallocate) hg
      (fun _ => Bytes.zeros g.chunkSize) hmemory (forall₂_replicate hchunk _) fun _ _ =>
        Bytes.size_zeros _
    rw [h] at ha'
    cases ha'
    exact hsound

/-- Valid parameters and chunks of less than four gigabytes make an array of zeros. -/
theorem exists_zeros {shape : Shape} {dtype : DType} {params : ArrayParams} {g : Geometry}
    (hitem : 0 < dtype.itemsize)
    (hresolve : Geometry.resolve shape dtype params.chunks params.blocks = .ok g)
    (hcodec : params.codec.validate = .ok ()) (hchunk : g.chunkSize < 2 ^ 32)
    (hmeta : g.toMeta.encode.size < 2 ^ 32) :
    ∃ a, zeros shape dtype params = .ok a ∧ a.geometry = g ∧
      a.Sound fun _ => Bytes.zeros a.geometry.chunkSize := by
  obtain ⟨hregular, new, hnew⟩ := exists_allocate_of_resolve hitem hresolve hcodec hmeta
  have hfresh := fresh_of_allocate hnew
  obtain ⟨a, ha, hgeometry⟩ : ∃ a, zeros shape dtype params = .ok a ∧ a.geometry = g := by
    by_cases hempty : g.nchunks = 0
    · exact ⟨new, bind_eq_ok.2 ⟨g, hresolve, bind_eq_ok.2 ⟨new, hnew, if_pos hempty⟩⟩, hfresh.geometry⟩
    · obtain ⟨c, hc⟩ := @Chunk.exists_compress_eq_ok (Bytes.zeros g.chunkSize) new.store.codec
        (hfresh.chosenBlockSize_lt (by rwa [Bytes.size_zeros]))
      obtain ⟨a, ha, hgeometry, -, -⟩ := hfresh.withChunks (grown_of_allocate hresolve hnew)
        hregular.grid (fun _ => Bytes.zeros g.chunkSize) (fun _ => by omega)
        (forall₂_replicate hc _) fun _ _ => Bytes.size_zeros _
      refine ⟨a, bind_eq_ok.2 ⟨g, hresolve, bind_eq_ok.2 ⟨new, hnew, ?_⟩⟩, hgeometry⟩
      rw [if_neg hempty]
      exact bind_eq_ok.2 ⟨c, hc, ha⟩
  refine ⟨a, ha, hgeometry, sound_of_zeros ha ?_⟩
  rw [hgeometry]
  exact fun _ => by omega

/-! ## Given items -/

theorem size_cutChunk {g : Geometry} (hg : g.Regular) (data : Bytes) {i : Nat} (hi : i < g.nchunks) :
    (cutChunk g data i).size = g.chunkSize :=
  size_padToLayout (size_extractBox _ _ _ _ (ChunkGrid.chunkBox_inside hg.grid hi))

/-- Taken out of its chunk again, every item is the one that was given. -/
theorem itemAt_cutChunk {g : Geometry} (hg : g.Regular) {data : Bytes}
    (hdata : data.size = g.shape.size * g.itemsize) {c : List Nat} (hc : g.shape.Holds c) :
    g.itemAt (cutChunk g data) c = data.item g.itemsize (g.shape.flatten c) := by
  obtain ⟨hlt, hbox⟩ := Geometry.holds_chunkOf hg hc
  have hinside : Box.Inside (g.grid.chunkBox (g.grid.chunkOf c)) g.shape :=
    ChunkGrid.chunkBox_inside hg.grid hlt
  have hfits := Geometry.chunkBox_fits hg hlt
  have hlocal := Box.holds_toLocal hbox
  have hextent := Geometry.shape_chunkBox_fitsIn hg hlt
  refine Bytes.item_congr ?_ ?_ fun k hk => ?_
  · rw [size_cutChunk hg data hlt, Geometry.chunkSize]
    exact Nat.mul_le_mul_right _ (Geometry.placeOf_lt hg hc)
  · rw [hdata]
    exact Nat.mul_le_mul_right _ (Shape.flatten_lt hc)
  · rw [cutChunk, Geometry.placeOf, getD_padToLayout hextent hk (Box.holds_layout hfits hbox),
      if_pos hlocal, getD_extractBox hinside hk hlocal, Box.toGlobal_toLocal hbox]

/-- An array of given items is in memory, its chunks cut from the items. -/
theorem sound_of_ofBytes {data : Bytes} {shape : Shape} {dtype : DType} {params : ArrayParams}
    {a : NDArray} (h : ofBytes data shape dtype params = .ok a)
    (hmemory : a.geometry.FitsMemory) :
    a.shape = shape ∧ a.dtype = dtype ∧ data.size = shape.size * dtype.itemsize ∧
      a.Sound (cutChunk a.geometry data) := by
  rw [ofBytes] at h
  by_cases hdata : data.size ≠ Buffer.expectedSize shape dtype
  · rw [if_pos hdata] at h
    cases h
  rw [if_neg hdata] at h
  obtain ⟨g, hresolve, h⟩ := bind_eq_ok.1 h
  obtain ⟨new, hallocate, h⟩ := bind_eq_ok.1 h
  obtain ⟨chunks, hchunks, h⟩ := bind_eq_ok.1 h
  obtain ⟨hshape, hdtype, hg⟩ := Geometry.of_resolve hresolve
  have hfresh := fresh_of_allocate hallocate
  have hgeometry : a.geometry = g := by
    obtain ⟨⟨_, store⟩, -, h⟩ := bind_eq_ok.1 h
    cases h
    exact hfresh.geometry
  have hregular : g.Regular := ⟨hg, hfresh.itemsize_pos⟩
  rw [hgeometry] at hmemory
  obtain ⟨a', ha', -, -, hsound⟩ := hfresh.withChunks (grown_of_allocate hresolve hallocate) hg
    (cutChunk g data) hmemory ((forall₂_of_mapM_eq_ok hchunks).imp fun _ _ hc => mapError_eq_ok.1 hc)
    fun i hi => size_cutChunk hregular data hi
  rw [h] at ha'
  cases ha'
  rw [NDArray.shape, NDArray.dtype, hgeometry]
  exact ⟨hshape, hdtype, not_not.1 hdata, hsound⟩

/-- A new array whose chunks can all be compressed takes the items that fill its shape. -/
theorem exists_ofBytes_of_allocate (params : ArrayParams) {data : Bytes} {shape : Shape}
    {dtype : DType} {g : Geometry} {new : NDArray}
    (hresolve : Geometry.resolve shape dtype params.chunks params.blocks = .ok g)
    (hnew : allocate g params.codec = .ok new) (hdata : data.size = shape.size * dtype.itemsize)
    (hmemory : g.FitsMemory)
    (hcompress : ∀ i < g.nchunks, ∃ c, Chunk.compress (cutChunk g data i) new.store.codec = .ok c) :
    ∃ a, ofBytes data shape dtype params = .ok a ∧ a.geometry = g ∧
      a.store.codec = g.chunkCodec params.codec ∧ a.Sound (cutChunk g data) := by
  obtain ⟨-, -, hg⟩ := Geometry.of_resolve hresolve
  have hfresh := fresh_of_allocate hnew
  have hregular : g.Regular := ⟨hg, hfresh.itemsize_pos⟩
  obtain ⟨chunks, hchunks⟩ : ∃ chunks, (List.range g.nchunks).mapM (fun i =>
      (Chunk.compress (cutChunk g data i) new.store.codec).mapError (Error.atChunk i)) =
        .ok chunks := by
    refine exists_mapM_eq_ok fun i hi => ?_
    obtain ⟨c, hc⟩ := hcompress i (List.mem_range.1 hi)
    exact ⟨c, mapError_eq_ok.2 hc⟩
  obtain ⟨a, ha, hgeometry, hcodec, hsound⟩ := hfresh.withChunks (grown_of_allocate hresolve hnew) hg
    (cutChunk g data) hmemory
    ((forall₂_of_mapM_eq_ok hchunks).imp fun _ _ hc => mapError_eq_ok.1 hc)
    fun i hi => size_cutChunk hregular data hi
  have hexpected : ¬ data.size ≠ Buffer.expectedSize shape dtype := not_not.2 hdata
  refine ⟨a, ?_, hgeometry, hcodec, hsound⟩
  rw [ofBytes, if_neg hexpected, hresolve]
  simp only [bind, Except.bind, hnew, hchunks]
  exact ha

/-- Valid parameters, items that fill the shape and chunks of less than four gigabytes make an
array. -/
theorem exists_ofBytes {data : Bytes} {shape : Shape} {dtype : DType} {params : ArrayParams}
    {g : Geometry} (hitem : 0 < dtype.itemsize)
    (hresolve : Geometry.resolve shape dtype params.chunks params.blocks = .ok g)
    (hcodec : params.codec.validate = .ok ()) (hdata : data.size = shape.size * dtype.itemsize)
    (hchunk : g.chunkSize < 2 ^ 32) (hmeta : g.toMeta.encode.size < 2 ^ 32) :
    ∃ a, ofBytes data shape dtype params = .ok a ∧ a.geometry = g ∧
      a.store.codec = g.chunkCodec params.codec := by
  obtain ⟨hregular, new, hnew⟩ := exists_allocate_of_resolve hitem hresolve hcodec hmeta
  obtain ⟨a, ha, hgeometry, hstore, -⟩ := exists_ofBytes_of_allocate params hresolve hnew hdata
    (fun _ => by omega) fun i hi => Chunk.exists_compress_eq_ok
      ((fresh_of_allocate hnew).chosenBlockSize_lt (by rwa [size_cutChunk hregular data hi]))
  exact ⟨a, ha, hgeometry, hstore⟩

end NDArray

end ChunkedArray
