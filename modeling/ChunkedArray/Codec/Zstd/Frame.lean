import ChunkedArray.Checksum.XxHash64
import ChunkedArray.Codec.Zstd.Matches

/-!
# Zstandard frames

Data is a row of frames. A frame holds blocks, each stored as it is, as one repeated byte, or
compressed; a skippable frame holds nothing. `decode` reads any row of at least one frame that ends
with the input.

The input arrives in portions and the content leaves in portions. A frame whose declared content
fits a portion and that lies in the portion of the input in which it starts is read at once, with no
limit on its window and on blocks that are not compressed. Any other frame is read block by block
through buffers that are kept from one frame to the next. `encode` writes one frame; it keeps
compressed blocks only if they are shorter and read back.
-/

namespace ChunkedArray.Zstd

/-- The first four bytes of a frame. -/
def frameMagic : Nat := 0xfd2fb528

/-- The first of the sixteen numbers that start a skippable frame. -/
def skippableMagic : Nat := 0x184d2a50

/-- The largest content of one block. -/
def maxBlock : Nat := 128 * 1024

/-- The largest window of a frame that is read block by block. -/
def maxWindow : Nat := 2 ^ 27 + 1

/-- The largest binary logarithm of a window size that a descriptor may name. -/
def maxWindowLog : Nat := 31

/-- The number of bytes in a portion of the input: a whole block with its head. -/
def portionSize : Nat := maxBlock + 3

/-- The largest content of a frame that is read at once. -/
def atOnceSize : Nat := 8192

/-- What the head of a frame says. -/
structure FrameHead where
  /-- The position behind the head. -/
  stop : Nat
  /-- The size of the window. -/
  window : Nat
  /-- The declared size of the content. -/
  contentSize : Option Nat
  /-- Whether a checksum follows the blocks. -/
  hasChecksum : Bool
deriving DecidableEq, Repr

namespace FrameHead

/-- The largest content of a block of a frame read block by block, and the largest body of any
compressed block. -/
def blockLimit (head : FrameHead) : Nat :=
  min head.window maxBlock

/-- The size of the buffer for content that the frame wants when it is read block by block: the
window and two blocks, or the declared content if that is less. -/
def bufferSize (head : FrameHead) : Nat :=
  let window := max head.window 1024
  let wanted := window + 2 * min head.blockLimit window + 64
  match head.contentSize with
  | some n => min n wanted
  | none => wanted

/-- Whether the declared size, if there is one, is that of the content. -/
def declares (head : FrameHead) (content : Bytes) : Bool :=
  head.contentSize.all (· == content.size)

end FrameHead

/-- The binary logarithm of the power of two in a window descriptor. -/
def windowLog (descriptor : Nat) : Nat :=
  descriptor / 8 + 10

/-- The size of a window from its descriptor byte. -/
def windowSize (descriptor : Nat) : Nat :=
  let base := 2 ^ windowLog descriptor
  base + base / 8 * (descriptor % 8)

/-- The content size that a field of `width` bytes declares. Two bytes count from 256 on, and the
largest number of eight bytes declares nothing. -/
def declaredSize (width field : Nat) : Option Nat :=
  if width = 0 ∨ field = 2 ^ 64 - 1 then none
  else some (if width = 2 then field + 256 else field)

/-- Reads the head of a frame behind its magic number. -/
def readHead (b : Bytes) (pos : Nat) : Option FrameHead :=
  let flags := (b.getD pos 0).toNat
  let single := flags / 32 % 2 = 1
  let dictionaryWidth := if flags % 4 = 3 then 4 else flags % 4
  let sizeWidth := if flags / 64 = 0 then (if single then 1 else 0) else 2 ^ (flags / 64)
  let dictionaryAt := pos + 1 + (if single then 0 else 1)
  let sizeAt := dictionaryAt + dictionaryWidth
  let stop := sizeAt + sizeWidth
  let field := LittleEndian.readAt b sizeAt sizeWidth
  let descriptor := (b.getD (pos + 1) 0).toNat
  let contentSize := declaredSize sizeWidth field
  let window := if single then contentSize.getD field else windowSize descriptor
  if b.size < stop ∨ flags / 8 % 2 = 1 ∨ LittleEndian.readAt b dictionaryAt dictionaryWidth ≠ 0 ∨
      (¬ single ∧ maxWindowLog < windowLog descriptor) then none
  else some ⟨stop, window, contentSize, flags / 4 % 2 = 1⟩

/-- What the head of a block says. -/
structure BlockHead where
  /-- Whether the block is the last of its frame. -/
  last : Bool
  /-- How the content is stored: as it is, as one repeated byte, or compressed. -/
  kind : Nat
  /-- The size of the content, or of the body of a compressed block. -/
  size : Nat
deriving DecidableEq, Repr

/-- The number of bytes behind the head of a block that belong to it. -/
def BlockHead.bodySize (head : BlockHead) : Nat :=
  if head.kind = 1 then 1 else head.size

/-- Reads the head of a block that is there with its body. Kind three is not in use. -/
def readBlockHead (b : Bytes) (pos : Nat) : Option BlockHead :=
  let n := LittleEndian.readAt b pos 3
  let head : BlockHead := ⟨n % 2 = 1, n / 2 % 4, n / 8⟩
  if b.size < pos + 3 + head.bodySize ∨ head.kind = 3 then none else some head

/-- Passes over blocks up to the last one of a frame. Gives the position behind it. -/
def skipBlocks (b : Bytes) (pos : Nat) : (fuel : Nat) → Option Nat
  | 0 => none
  | fuel + 1 => do
    let head ← readBlockHead b pos
    let stop := pos + 3 + head.bodySize
    if head.last then some stop else skipBlocks b stop fuel

/-- The space into which the blocks of a frame are decoded one after the other. Positions are those
of the content. -/
structure Ring where
  /-- The size of the space. -/
  size : Nat
  /-- Whether the space is used again from its start when it cannot take another block. -/
  turns : Bool
  /-- The first byte of the content since the space was last used again. -/
  start : Nat := 0
  /-- The first byte of the content that can still be repeated. -/
  reach : Nat := 0

/-- The space behind content that ends at `stop`, with blocks of at most `block` bytes to follow.
What an earlier turn left in the space can be repeated during the next one. -/
def Ring.advance (ring : Ring) (block stop : Nat) : Ring :=
  if ring.turns ∧ ring.size < stop - ring.start + block then
    { ring with start := stop, reach := ring.start }
  else ring

/-- How the blocks of a frame are read. -/
structure Reading where
  /-- The largest body of a compressed block, and of any block of a frame read block by block. -/
  block : Nat
  /-- Whether the frame is read at once. -/
  atOnce : Bool

/-- The content that a reader got from the blocks of a frame. -/
structure BlockContent where
  /-- The position behind the last block. -/
  stop : Nat
  /-- The content. -/
  content : Bytes
  /-- Whether the last block was passed over. -/
  endsEmpty : Bool

/-- The room of the next block behind the content `out`. -/
def Reading.room (r : Reading) (ring : Ring) (out : Bytes) : Room :=
  ⟨r.block, ring.size - (out.size - ring.start), ring.reach, r.atOnce⟩

/-- Decodes a block behind what a frame holds so far. -/
def decodeBlock (b : Bytes) (room : Room) (memory : Memory) (out : Bytes) (head : BlockHead)
    (start : Nat) : Option (Bytes × Memory) :=
  if room.block < head.bodySize ∧ ¬ (room.atOnce ∧ head.kind ≠ 2) then none
  else if head.kind = 2 then decodeCompressed room memory out (b.slice start head.size)
  else if room.space < head.size ∨ (¬ room.atOnce ∧ room.block < head.size) then none
  else if head.kind = 0 then some (out ++ b.slice start head.size, memory)
  else some (out ++ Array.replicate head.size (b.getD start 0), memory)

/-- Reads blocks up to the last one of a frame, behind the content `out` of those before. Block by
block, one without a body is passed over, whatever its kind. -/
def readBlocks (b : Bytes) (r : Reading) (ring : Ring) (memory : Memory) (out : Bytes) (pos : Nat) :
    (fuel : Nat) → Option BlockContent
  | 0 => none
  | fuel + 1 => do
    let head ← readBlockHead b pos
    let stop := pos + 3 + head.bodySize
    if ¬ r.atOnce ∧ head.bodySize = 0 then
      if head.last then some ⟨stop, out, true⟩ else readBlocks b r ring memory out stop fuel
    else
      let (out, memory) ← decodeBlock b (r.room ring out) memory out head (pos + 3)
      if head.last then some ⟨stop, out, false⟩
      else readBlocks b r (ring.advance r.block out.size) memory out stop fuel

/-- The sizes of the buffers that serve the frames read block by block. -/
structure Buffers where
  /-- The size of the buffer for the body of a block. -/
  body : Nat := 0
  /-- The size of the buffer for content. -/
  content : Nat := 0
  /-- How many frames in a row found the buffers three times too large. -/
  oversized : Nat := 0

/-- The buffers for a frame that wants the given sizes: new ones if one of them is too small, or if
they were far too large for 128 frames in a row. -/
def Buffers.fit (s : Buffers) (body content : Nat) : Buffers :=
  let oversized := if 3 * (body + content) ≤ s.body + s.content then s.oversized + 1 else 0
  if s.body < body ∨ s.content < content ∨ 128 ≤ oversized then ⟨body, content, oversized⟩
  else { s with oversized }

/-- A frame that was read. -/
structure Frame where
  /-- The position behind the frame. -/
  stop : Nat
  /-- Its content. -/
  content : Bytes
  /-- The buffers behind the frame. -/
  buffers : Buffers

/-- Checks the checksum behind the blocks of a frame, if there is one. Gives the position behind
the frame. -/
def checkContent (b : Bytes) (head : FrameHead) (blocks : BlockContent) : Option Nat :=
  if head.hasChecksum then
    let stop := blocks.stop + 4
    if b.size < stop ∨ LittleEndian.readAt b blocks.stop 4 ≠
        (XxHash64.hash blocks.content).toNat % 2 ^ 32 then none
    else some stop
  else some blocks.stop

/-- Whether the frame at `pos` is read at once. -/
def isAtOnce (b : Bytes) (pos : Nat) (head : FrameHead) : Bool :=
  head.contentSize.any (· ≤ atOnceSize) &&
    match skipBlocks b head.stop b.size with
    | some stop =>
      let stop := stop + (if head.hasChecksum then 4 else 0)
      stop ≤ b.size && stop ≤ (pos / portionSize + 1) * portionSize
    | none => false

/-- Reads a frame at once. -/
def readAtOnce (b : Bytes) (head : FrameHead) (buffers : Buffers) : Option Frame := do
  let blocks ← readBlocks b ⟨head.blockLimit, true⟩ { size := atOnceSize, turns := false } {} #[]
    head.stop b.size
  let stop ← checkContent b head blocks
  if head.declares blocks.content then some ⟨stop, blocks.content, buffers⟩ else none

/-- Reads a frame block by block. Content that is declared to fit the buffer may not outgrow it. A
frame that ends with a block without a body is not held to its declared size. -/
def readBlockwise (b : Bytes) (head : FrameHead) (buffers : Buffers) : Option Frame := do
  if maxWindow < head.window then none
  else
    let buffers := buffers.fit (max head.blockLimit 4) head.bufferSize
    let ring : Ring :=
      { size := buffers.content, turns := head.contentSize.all (buffers.content < ·) }
    let blocks ← readBlocks b ⟨head.blockLimit, false⟩ ring {} #[] head.stop b.size
    let stop ← checkContent b head blocks
    if blocks.endsEmpty ∨ head.declares blocks.content then some ⟨stop, blocks.content, buffers⟩
    else none

/-- The content for which the buffer of a skippable frame has room, at most. -/
def skippableBuffer : Nat := 1024 + 64

/-- Reads the frame or skippable frame at `pos`. -/
def readFrame (b : Bytes) (pos : Nat) (buffers : Buffers) : Option Frame :=
  let magic := LittleEndian.readAt b pos 4
  if b.size < pos + 5 then none
  else if magic = frameMagic then do
    let head ← readHead b (pos + 4)
    if isAtOnce b pos head then readAtOnce b head buffers else readBlockwise b head buffers
  else if magic / 16 = skippableMagic / 16 then
    let size := LittleEndian.readAt b (pos + 4) 4
    let stop := pos + 8 + size
    if b.size < pos + 8 ∨ b.size < stop then none
    else some ⟨stop, #[], buffers.fit 4 (min size skippableBuffer)⟩
  else none

/-- Reads frames from `pos` to the end of the input. -/
def readFrames (b : Bytes) (out : Bytes) (pos : Nat) (buffers : Buffers) : (fuel : Nat) →
    Option Bytes
  | 0 => none
  | fuel + 1 => do
    let frame ← readFrame b pos buffers
    let out := out ++ frame.content
    if frame.stop = b.size then some out else readFrames b out frame.stop frame.buffers fuel

/-- The content of a row of frames. -/
def decode (b : Bytes) : Option Bytes :=
  readFrames b #[] 0 {} (b.size + 1)

/-- The magic number, no flags, and a window as large as a block. -/
def headBytes : Bytes :=
  LittleEndian.bytes 4 frameMagic ++ #[0, 0x38]

/-- The head of a block. -/
def blockHead (last : Bool) (kind size : Nat) : Bytes :=
  LittleEndian.bytes 3 (size * 8 + kind * 2 + last.toNat)

/-- A block that stores its content. -/
def storedBlock (last : Bool) (b : Bytes) : Bytes :=
  blockHead last 0 b.size ++ b

/-- A block in its shortest known form. -/
def packedBlock (last : Bool) (b : Bytes) : Bytes :=
  if 1 < b.size ∧ b.all (· == b.getD 0 0) then blockHead last 1 b.size ++ #[b.getD 0 0]
  else
    let (literals, sequences) := findMatches b
    match encodeCompressed literals sequences with
    | some body =>
      if body.size < b.size then blockHead last 2 body.size ++ body else storedBlock last b
    | none => storedBlock last b

/-- Writes the content from `pos` on block by block. -/
def writeBlocks (block : Bool → Bytes → Bytes) (b out : Bytes) (pos : Nat) : (fuel : Nat) → Bytes
  | 0 => out
  | fuel + 1 =>
    let stop := pos + maxBlock
    if b.size ≤ stop then out ++ block true (b.extract pos)
    else writeBlocks block b (out ++ block false (b.extract pos stop)) stop fuel

/-- A frame with blocks of the given form. -/
def frameWith (block : Bool → Bytes → Bytes) (b : Bytes) : Bytes :=
  writeBlocks block b headBytes 0 (b.size + 1)

/-- Compresses a byte string into one frame. -/
def encode (b : Bytes) : Bytes :=
  let packed := frameWith packedBlock b
  let stored := frameWith storedBlock b
  if packed.size < stored.size ∧ decode packed = some b then packed else stored

end ChunkedArray.Zstd
