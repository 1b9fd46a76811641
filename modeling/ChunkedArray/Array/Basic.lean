import ChunkedArray.Array.Geometry
import ChunkedArray.Codec.Params
import ChunkedArray.Frame.Sparse

/-!
# Chunked arrays

An array is a geometry and a store with one chunk for every cell of the chunk grid, in the order of
the grid. All chunks have the same size: those at the far edges are padded with zero bytes. An array
is made from zeros or from a buffer, or found in a store that carries a geometry.
-/

namespace ChunkedArray

/-- An array cut into compressed chunks. -/
structure NDArray where
  /-- The geometry. -/
  geometry : Geometry
  /-- The chunks. -/
  store : Store

namespace NDArray

/-- The shape. -/
def shape (a : NDArray) : Shape := a.geometry.shape

/-- The layout of an item. -/
def dtype (a : NDArray) : DType := a.geometry.dtype

/-- Runs an action on the store of an array. What it changed before a failure stays. -/
def run {α : Type} (a : NDArray) (act : StoreM α) : Result α × NDArray :=
  let (r, store) := a.store.run act
  (r, { a with store })

/-- An array without chunks, whose store carries the geometry. -/
def allocate (g : Geometry) (codec : CodecConfig) : Result NDArray := do
  if g.itemsize = 0 then throw (.parameter (.emptyItem g.dtype))
  let store ← Store.new
    { codec with typesize := Geometry.typesize g.itemsize, blockSize := g.blockSize } g.chunkSize
  let metadata ← store.metadata.set Geometry.metadataKey g.toMeta
  pure ⟨g, { store with metadata }⟩

/-- The array with chunks added at the end. -/
def withChunks (a : NDArray) (chunks : List Chunk) : Result NDArray := do
  let ((), store) ← a.store.exec (Store.appendChunks chunks)
  pure { a with store }

/-- An array of zero bytes; all its chunks are equal. -/
def zeros (shape : Shape) (dtype : DType) (params : ArrayParams) : Result NDArray := do
  let g ← Geometry.resolve shape dtype params.chunks params.blocks
  let a ← allocate g params.codec
  if g.nchunks = 0 then pure a
  else
    let chunk ← Chunk.compress (Bytes.zeros g.chunkSize) a.store.codec
    a.withChunks (List.replicate g.nchunks chunk)

/-- The raw bytes of a chunk of the array whose items are given in C order. -/
def cutChunk (g : Geometry) (data : Bytes) (i : Nat) : Bytes :=
  let box := g.grid.chunkBox i
  padToLayout (extractBox data g.shape box g.itemsize) box.shape g.chunks g.itemsize

/-- The array of the given items in C order. -/
def ofBytes (data : Bytes) (shape : Shape) (dtype : DType) (params : ArrayParams) :
    Result NDArray := do
  let expected := Buffer.expectedSize shape dtype
  if data.size ≠ expected then throw (.shape (.arrayLength data.size shape dtype expected))
  let g ← Geometry.resolve shape dtype params.chunks params.blocks
  let a ← allocate g params.codec
  let chunks ← (List.range g.nchunks).mapM fun i =>
    (Chunk.compress (cutChunk g data i) a.store.codec).mapError (Error.atChunk i)
  a.withChunks chunks

/-- The array of the given elements. -/
def ofTyped (values : TypedArray) (params : ArrayParams) : Result NDArray :=
  ofBytes values.toBytes values.shape (.scalar values.kind) params

/-- The geometry in the metadata of a store, its shapes checked. -/
def readGeometry (metadata : Metadata) : Result Geometry := do
  let value ← metadata.get Geometry.metadataKey
  match value.asMap? with
  | none => throw (.format .geometryNotMap)
  | some entries =>
    let entry (key : String) : Result MetaValue :=
      match SortedMap.find? entries key with
      | some value => pure value
      | none => throw (.format (.geometryMissing key))
    let shape ← (← entry "shape").toShape
    let chunks ← (← entry "chunks").toShape
    let blocks ← (← entry "blocks").toShape
    match (← entry "dtype").asStr? with
    | none => throw (.format .geometryDType)
    | some descriptor =>
      let dtype ← DType.ofDescriptor descriptor
      Geometry.resolve shape dtype (some chunks) (some blocks)

/-- The array in a store that carries a geometry; the store must have the chunks of its grid. -/
def ofStore (store : Store) : Result NDArray := do
  let g ← readGeometry store.metadata
  if g.nchunks ≠ store.nchunks ∨ store.chunkSize ≠ g.chunkSize then
    throw (.format (.geometryChunks store.nchunks store.chunkSize g.nchunks g.chunkSize))
  pure ⟨g, store⟩

/-- The array in a contiguous frame. -/
def ofFrame (b : Bytes) : Result NDArray := do
  ofStore (← Store.ofFrame b)

/-- The array in a sparse frame. -/
def openSparse (fs : Files) (dir : Path) : Result NDArray := do
  ofStore (← Store.openSparse fs dir)

/-- Saves an array as a sparse frame. Gives the number of bytes written. -/
def saveSparse (a : NDArray) (fs : Files) (dir : Path) : Result Nat × NDArray × Files :=
  let (written, store, fs) := a.store.saveSparse fs dir
  (written, { a with store }, fs)

end NDArray

end ChunkedArray
