import ChunkedArray.Frame.Contiguous

/-!
# Stored forms

A chunk in stored form keeps its header, except that the flag of stored bytes is set, and has its
raw bytes behind it. The stored form of a frame has every chunk and every metadata value in stored
form; it shows the content of the frame whatever a codec made of it.
-/

namespace ChunkedArray

/-- The stored form of a serialized chunk. -/
def Chunk.storedForm (data : Bytes) : Result Bytes := do
  let chunk ← Chunk.ofBytes data
  let raw ← chunk.decompress
  let head := chunk.data.extract 0 chunkHeaderSize
  pure (head.setIfInBounds 0 (chunk.header.flags ||| 1) ++ raw)

namespace FrameHeader

/-- The stored forms of the chunks of a frame from byte `pos` on. -/
def storedChunks (b : Bytes) (pos : Nat) : List IndexEntry → Result (List Bytes)
  | [] => .ok []
  | entry :: rest => do
    let data ← Chunk.storedForm (b.slice pos entry.cbytes)
    let others ← storedChunks b (pos + entry.cbytes) rest
    pure (data :: others)

/-- The stored form of a contiguous frame. -/
def storedForm (frame : Bytes) : Result Bytes := do
  let header ← peek frame
  let chunks ← storedChunks frame header.headerSize header.index
  let metadata ← header.metadata.mapM fun e => do
    let value ← Chunk.storedForm e.2
    pure (e.1, value)
  let index := List.zipWith (fun (data : Bytes) e => IndexEntry.mk data.size e.nbytes) chunks
    header.index
  let head ← { header with metadata, index }.toBytes
  pure (chunks.foldl (· ++ ·) head)

end FrameHeader

end ChunkedArray
