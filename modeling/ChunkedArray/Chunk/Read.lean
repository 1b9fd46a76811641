import ChunkedArray.Chunk.Basic

/-!
# Reading chunks

A chunk is read whole, with the checksum of its raw bytes verified, or by byte range, in which case
only the blocks under the range are decoded and each is checked against its own checksum. The raw
bytes of a stored chunk are copied. Errors name chunk zero until the store fills in the index.
-/

namespace ChunkedArray.Chunk

/-- The offset and the checksum in a row of the block table. -/
def blockEntry (c : Chunk) (block : Nat) : Nat × UInt32 :=
  let pos := chunkHeaderSize + block * blockEntrySize
  (LittleEndian.readAt c.data pos 8, UInt32.ofNat (LittleEndian.readAt c.data (pos + 8) 4))

/-- Where a coded block ends: at the start of the next one, or with the chunk. -/
def blockStop (c : Chunk) (block : Nat) : Nat :=
  if block + 1 < c.header.nblocks then (c.blockEntry (block + 1)).1 else c.data.size

/-- Decodes one block and checks it. -/
def decodeBlock (c : Chunk) (block : Nat) : Result Bytes :=
  let (start, crc) := c.blockEntry block
  let stop := c.blockStop block
  if stop < start ∨ c.data.size < stop then .error (.codec 0 (.blockOffsets block))
  else
    let h := c.header
    match Block.decode h.codec h.typesize h.filters (h.blockLength block)
        (c.data.extract start stop) with
    | .error fault => .error (.codec 0 fault)
    | .ok content =>
      let computed := Crc32.checksum content
      if computed = crc then .ok content else .error (.checksum 0 crc computed)

/-- Decodes `count` blocks from `block` on and joins them behind `out`. -/
def decodeBlocks (c : Chunk) (out : Bytes) (block : Nat) : (count : Nat) → Result Bytes
  | 0 => .ok out
  | count + 1 => do
    let content ← c.decodeBlock block
    decodeBlocks c (out ++ content) (block + 1) count

/-- The raw bytes of the chunk, before their checksum is verified. -/
def content (c : Chunk) : Result Bytes :=
  if c.header.isStored then .ok (c.data.slice chunkHeaderSize c.nbytes)
  else c.decodeBlocks #[] 0 c.header.nblocks

/-- The raw bytes of the chunk. -/
def decompress (c : Chunk) : Result Bytes := do
  let out ← c.content
  let computed := Crc32.checksum out
  if computed = c.header.checksum then pure out
  else .error (.checksum 0 c.header.checksum computed)

/-- The raw bytes of the chunk, for a buffer of `length` bytes. -/
def decompressInto (c : Chunk) (length : Nat) : Result Bytes :=
  if length ≠ c.nbytes then .error (.shape (.outputLength length c.nbytes))
  else c.decompress

/-- A sum of two sizes, held at the greatest word if it does not fit one. -/
def saturatingAdd (a b : Nat) : Nat := min (a + b) (2 ^ 64 - 1)

/-- The part of a block's content that lies in `start … stop`. -/
def clip (start stop blockStart : Nat) (content : Bytes) : Bytes :=
  content.extract (max start blockStart - blockStart)
    (min stop (blockStart + content.size) - blockStart)

/-- Decodes `count` blocks from `block` on and joins what lies in `start … stop`. -/
def clipBlocks (c : Chunk) (start stop : Nat) (out : Bytes) (block : Nat) :
    (count : Nat) → Result Bytes
  | 0 => .ok out
  | count + 1 => do
    let content ← c.decodeBlock block
    clipBlocks c start stop (out ++ clip start stop (block * c.header.blockSize) content)
      (block + 1) count

/-- The raw bytes `start … start + length`. -/
def decompressRange (c : Chunk) (start length : Nat) : Result Bytes :=
  let stop := start + length
  if 2 ^ 64 ≤ stop ∨ c.nbytes < stop then
    .error (.index (.chunkRange start (saturatingAdd start length) c.nbytes))
  else if length = 0 then .ok #[]
  else if c.header.isStored then .ok (c.data.extract (chunkHeaderSize + start) (chunkHeaderSize + stop))
  else
    let first := start / c.header.blockSize
    let last := (stop - 1) / c.header.blockSize
    c.clipBlocks start stop #[] first (last + 1 - first)

end ChunkedArray.Chunk
