import ChunkedArray.Bytes.LittleEndian
import ChunkedArray.Checksum.Crc32
import ChunkedArray.Codec.Block

/-!
# Chunks

A chunk is kept in its serialized form next to its parsed header. The form is a header of 24 bytes,
then either the raw bytes or a table with an offset and a checksum for every block and the coded
blocks. `compress` codes the blocks and keeps them only if they save space; `ofBytes` checks a
serialized form so far that every later access to it stays inside.
-/

namespace ChunkedArray

/-- The head of a chunk. -/
structure ChunkHeader where
  /-- The flags; the lowest bit says that the raw bytes are stored. -/
  flags : UInt8
  /-- The element width of the filters. -/
  typesize : Nat
  /-- The mask of the filters. -/
  filters : UInt8
  /-- The codec of the blocks. -/
  codec : CodecId
  /-- The number of blocks. -/
  nblocks : Nat
  /-- The size of every block but the last. -/
  blockSize : Nat
  /-- The size of the raw bytes. -/
  nbytes : Nat
  /-- The checksum of the raw bytes. -/
  checksum : UInt32
deriving DecidableEq, Repr

/-- A chunk in its serialized form. -/
structure Chunk where
  /-- The serialized form. -/
  data : Bytes
  /-- Its head. -/
  header : ChunkHeader
deriving DecidableEq, Repr

/-- The size of a serialized head. -/
def chunkHeaderSize : Nat := 24

/-- The size of a row of the block table. -/
def blockEntrySize : Nat := 12

namespace ChunkHeader

/-- Whether the raw bytes are stored. -/
def isStored (h : ChunkHeader) : Bool := h.flags &&& 1 != 0

/-- The size of a block. -/
def blockLength (h : ChunkHeader) (block : Nat) : Nat :=
  min h.blockSize (h.nbytes - block * h.blockSize)

/-- The serialized form of a head; every field keeps as many low bytes as it has room for. -/
def toBytes (h : ChunkHeader) : Bytes :=
  #[h.flags, UInt8.ofNat h.typesize, h.filters, h.codec.toByte] ++
    LittleEndian.bytes 4 h.nblocks ++ LittleEndian.bytes 4 h.blockSize ++
    LittleEndian.bytes 8 h.nbytes ++ LittleEndian.bytes 4 h.checksum.toNat

/-- Whether block count, block size and chunk size agree. -/
def isRegular (nblocks blockSize nbytes : Nat) : Bool :=
  blockSize != 0 && (nbytes + blockSize - 1) / blockSize == nblocks

/-- Reads a head and checks that it describes the bytes behind it. -/
def ofBytes (b : Bytes) : Result ChunkHeader :=
  if b.size < chunkHeaderSize then
    .error (.format (.chunkTooSmall chunkHeaderSize b.size))
  else
    let flags := b.getD 0 0
    let nblocks := LittleEndian.readAt b 4 4
    let blockSize := LittleEndian.readAt b 8 4
    let nbytes := LittleEndian.readAt b 12 8
    let isCoded := flags &&& 1 == 0 && 0 < nbytes
    if (isCoded || 0 < nblocks) && !isRegular nblocks blockSize nbytes then
      .error (.format (.blockLayout nblocks blockSize nbytes))
    else if isCoded && b.size < chunkHeaderSize + nblocks * blockEntrySize then
      .error (.format (.blockTable nblocks b.size))
    else do
      let codec ← CodecId.ofByte (b.getD 3 0)
      pure {
        flags, nblocks, blockSize, nbytes, codec
        typesize := (b.getD 1 0).toNat
        filters := b.getD 2 0
        checksum := UInt32.ofNat (LittleEndian.readAt b 20 4) }

@[simp] theorem size_toBytes (h : ChunkHeader) : h.toBytes.size = chunkHeaderSize := by
  simp [toBytes, chunkHeaderSize]

end ChunkHeader

namespace Chunk

/-- The size of the raw bytes. -/
def nbytes (c : Chunk) : Nat := c.header.nbytes

/-- The size of the serialized form. -/
def cbytes (c : Chunk) : Nat := c.data.size

/-- The block size in use: whole elements, at least one, and one block for the chunk if none is
configured or the configured one is no smaller than the chunk. -/
def effectiveBlockSize (nbytes configured typesize : Nat) : Nat :=
  if configured = 0 ∨ nbytes ≤ configured then max nbytes 1
  else max (configured / typesize * typesize) typesize

/-- Cuts `count` blocks off a byte string, from position `pos` on. -/
def cutBlocks (raw : Bytes) (blockSize pos : Nat) : (count : Nat) → List Bytes
  | 0 => []
  | count + 1 => raw.slice pos blockSize :: cutBlocks raw blockSize (pos + blockSize) count

/-- The rows of the block table: where a block starts and the checksum of its raw bytes. -/
def tableRows (offset : Nat) : List (Bytes × UInt32) → List Bytes
  | [] => []
  | (block, crc) :: rest =>
    (LittleEndian.bytes 8 offset ++ LittleEndian.bytes 4 crc.toNat) ::
      tableRows (offset + block.size) rest

/-- A chunk that stores the raw bytes. -/
def stored (h : ChunkHeader) (raw : Bytes) : Chunk :=
  let h := { h with flags := h.flags ||| 1 }
  ⟨h.toBytes ++ raw, h⟩

/-- A chunk of coded blocks, each with the checksum of its raw bytes. -/
def coded (h : ChunkHeader) (blocks : List (Bytes × UInt32)) : Chunk :=
  let rows := tableRows (chunkHeaderSize + blocks.length * blockEntrySize) blocks
  ⟨h.toBytes ++ Bytes.concat rows ++ Bytes.concat (blocks.map Prod.fst), h⟩

/-- Compresses a byte string. -/
def compress (raw : Bytes) (config : CodecConfig) : Result Chunk :=
  let typesize := max config.typesize 1
  let blockSize := effectiveBlockSize raw.size config.blockSize typesize
  if 2 ^ 32 ≤ blockSize then .error (.parameter (.blockSize blockSize))
  else
    let nblocks := (raw.size + blockSize - 1) / blockSize
    let mask := Filter.mask config.filters
    let header : ChunkHeader := {
      flags := 0, typesize, filters := mask, codec := config.codec, nblocks, blockSize
      nbytes := raw.size
      checksum := Crc32.checksum raw }
    if 0 < config.level ∧ 0 < nblocks then
      let blocks := (cutBlocks raw blockSize 0 nblocks).map fun block =>
        (Block.encode config.codec config.typesize mask block, Crc32.checksum block)
      let payload := (blocks.map fun b => b.1.size).sum
      if payload + nblocks * blockEntrySize < raw.size then .ok (coded header blocks)
      else .ok (stored header raw)
    else .ok (stored header raw)

/-- A chunk from its serialized form. -/
def ofBytes (data : Bytes) : Result Chunk := do
  let header ← ChunkHeader.ofBytes data
  let minimum :=
    if header.isStored then
      if chunkHeaderSize + header.nbytes < 2 ^ 64 then chunkHeaderSize + header.nbytes
      else 2 ^ 64 - 1
    else chunkHeaderSize + header.nblocks * blockEntrySize
  if data.size < minimum then .error (.format (.chunkTruncated minimum data.size))
  else pure ⟨data, header⟩

end Chunk

end ChunkedArray
