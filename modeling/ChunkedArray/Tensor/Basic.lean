import ChunkedArray.Array.Buffer
import ChunkedArray.Codec.Params
import ChunkedArray.DType.Descriptor
import ChunkedArray.Frame.Sparse

/-!
# Packed tensors

A tensor is a buffer whose items are packed into a store of chunks of about a given size, with its
item layout and its shape in the metadata. A store of that form reads back as the tensor. The
single-chunk form packs everything into one chunk and refuses stores with more.
-/

namespace ChunkedArray

/-- A tensor: its shape, its item layout and its items in C order. -/
abbrev Tensor := Buffer

namespace Tensor

/-- The metadata key of the item layout. -/
def dtypeKey : String := "dtype"

/-- The metadata key of the shape. -/
def shapeKey : String := "shape"

/-- The largest tensor of the single-chunk form, in bytes. -/
def singleChunkLimit : Nat := 2 ^ 31 - 1

/-- Checks that the items of a tensor fill its shape. -/
def check (shape : Shape) (dtype : DType) (data : Bytes) : Except ShapeFault Unit :=
  let expected := Buffer.expectedSize shape dtype
  if data.size = expected then .ok ()
  else .error (.tensorLength shape dtype expected data.size)

/-- A tensor whose items fill its shape. -/
def new (shape : Shape) (dtype : DType) (data : Bytes) : Result Tensor := do
  (check shape dtype data).mapError Error.shape
  pure ⟨shape, dtype, data⟩

/-- The tensor as a typed array. -/
def toTyped (t : Tensor) (kind : ScalarKind) : Result TypedArray :=
  if t.dtype.scalarKind? = some kind then TypedArray.ofBytes kind t.shape t.data
  else .error (.dtype (.tensorKind t.dtype kind))

/-- The chunk size for a target: whole items, at least one. -/
def chunkSizeFor (target itemsize : Nat) : Nat :=
  max (target / itemsize) 1 * itemsize

/-- A chunk for every piece of a list; piece `i` is the first. -/
def compressPieces (codec : CodecConfig) (i : Nat) : List Bytes → Result (List Chunk)
  | [] => .ok []
  | piece :: rest => do
    let chunk ← (Chunk.compress piece codec).mapError (Error.atChunk i)
    let chunks ← compressPieces codec (i + 1) rest
    pure (chunk :: chunks)

/-- The store of a tensor, in chunks of about `target` bytes. -/
def packStore (t : Tensor) (codec : CodecConfig) (target : Nat) : Result Store := do
  let itemsize := t.dtype.itemsize
  if itemsize = 0 then throw (.parameter (.emptyItem t.dtype))
  let typesize := if itemsize ≤ 255 then itemsize else 1
  let chunkSize := chunkSizeFor target itemsize
  let store ← Store.new { codec with typesize } chunkSize
  let metadata ← store.metadata.set dtypeKey (.str t.dtype.descriptor)
  let metadata ← metadata.set shapeKey (.ofShape t.shape)
  let pieces := Chunk.cutBlocks t.data chunkSize 0 ((t.data.size + chunkSize - 1) / chunkSize)
  let chunks ← compressPieces store.codec 0 pieces
  let ((), store) ← { store with metadata }.exec (Store.appendChunks chunks)
  pure store

/-- A store in memory as a contiguous frame. -/
def frameOf (store : Store) : Result Bytes := do
  let (frame, _) ← store.exec (Store.toFrame (store.chunkSource {}))
  pure frame

/-- Packs a tensor into a contiguous frame. -/
def pack (t : Tensor) (params : PackParams) : Result Bytes := do
  frameOf (← t.packStore params.codec params.chunkSize)

/-- Packs a tensor into a contiguous frame with a single chunk. -/
def packSingle (t : Tensor) (codec : CodecConfig) : Result Bytes := do
  if singleChunkLimit < t.data.size then throw (.tooLarge t.data.size singleChunkLimit)
  frameOf (← t.packStore codec (max t.data.size 1))

/-- The tensor in a store. -/
def unpackStore (source : ChunkSource) : StoreM Tensor := do
  let store ← get
  let dtype ← liftM (n := StoreM) (store.metadata.get dtypeKey)
  match dtype.asStr? with
  | none => throw (.format .tensorDType)
  | some descriptor =>
    let dtype ← liftM (n := StoreM) (DType.ofDescriptor descriptor)
    let shape ← liftM (n := StoreM) (store.metadata.get shapeKey)
    let shape ← liftM (n := StoreM) shape.toShape
    let data ← Store.readBytes source 0 store.nbytes
    match check shape dtype data with
    | .error fault => throw (.format (.tensorInconsistent fault))
    | .ok () => pure ⟨shape, dtype, data⟩

/-- The tensor in a store whose pending chunks come from a directory tree. -/
def ofStore (store : Store) (fs : Files) : Result Tensor := do
  let (t, _) ← store.exec (unpackStore (store.chunkSource fs))
  pure t

/-- The tensor in a contiguous frame. -/
def unpack (b : Bytes) : Result Tensor := do
  ofStore (← Store.ofFrame b) {}

/-- The tensor in a contiguous frame with a single chunk. -/
def unpackSingle (b : Bytes) : Result Tensor := do
  let store ← Store.ofFrame b
  if 1 < store.nchunks then throw (.format (.notSingleChunk store.nchunks))
  ofStore store {}

end Tensor

end ChunkedArray
