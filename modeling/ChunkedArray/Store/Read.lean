import ChunkedArray.Store.Basic

/-!
# Reading stores

The content of a store is the content of its chunks in order. It is read chunk by chunk, by byte
range inside a chunk, or by byte range of the whole, which decodes only what lies under the range.
-/

namespace ChunkedArray.Store

/-- The outcome of reading a chunk, with errors naming the slot. -/
def readWith (source : ChunkSource) (i : Nat) (read : Chunk → Result Bytes) : StoreM Bytes := do
  let c ← chunk source i
  liftM (n := StoreM) ((read c).mapError (Error.atChunk i))

/-- The content of a chunk. -/
def getChunk (source : ChunkSource) (i : Nat) : StoreM Bytes :=
  readWith source i Chunk.decompress

/-- The content of a chunk for a buffer of `length` bytes. -/
def getInto (source : ChunkSource) (i length : Nat) : StoreM Bytes :=
  readWith source i fun c => c.decompressInto length

/-- The bytes `start … start + length` of a chunk. -/
def getRange (source : ChunkSource) (i start length : Nat) : StoreM Bytes :=
  readWith source i fun c => c.decompressRange start length

/-- The last of the ascending offsets that is at most `pos`, or the first. -/
def firstChunkAt (starts : Array Nat) (pos : Nat) : Nat :=
  (starts.toList.takeWhile (· ≤ pos)).length - 1

/-- Joins what lies in `start … stop` from slot `i` on behind `out`, over at most `slots` slots. -/
def readFrom (source : ChunkSource) (start stop : Nat) (out : Bytes) (i : Nat) :
    (slots : Nat) → StoreM Bytes
  | 0 => pure out
  | slots + 1 => do
    if stop - start ≤ out.size then pure out
    else
      let chunkStart := (← get).table.starts.getD i 0
      let c ← chunk source i
      let low := max start chunkStart - chunkStart
      let high := min stop (chunkStart + c.nbytes) - chunkStart
      let piece ←
        if low < high then
          liftM (n := StoreM) ((c.decompressRange low (high - low)).mapError (Error.atChunk i))
        else pure #[]
      readFrom source start stop (out ++ piece) (i + 1) slots

/-- The bytes `start … start + length` of the content. -/
def readBytes (source : ChunkSource) (start length : Nat) : StoreM Bytes := do
  let s ← get
  let stop := Chunk.saturatingAdd start length
  if s.nbytes < stop then throw (.index (.storeRange start stop s.nbytes))
  else
    let first := firstChunkAt s.table.starts start
    readFrom source start stop #[] first (s.nchunks - first)

/-- Every chunk from slot `i` on, `count` of them. -/
def chunksFrom (source : ChunkSource) (i : Nat) : (count : Nat) → StoreM (List Chunk)
  | 0 => pure []
  | count + 1 => do
    let c ← chunk source i
    let rest ← chunksFrom source (i + 1) count
    pure (c :: rest)

/-- Every chunk in order. -/
def allChunks (source : ChunkSource) : StoreM (List Chunk) := do
  chunksFrom source 0 (← get).nchunks

end ChunkedArray.Store
