import ChunkedArray.Store.Read

/-!
# Contiguous frames

A store as one byte string: the header of the frame and behind it the chunks in order. Reading a
frame back needs every byte up to the end of the last chunk and ignores what follows.
-/

namespace ChunkedArray.Store

/-- The header and the chunks by which a frame describes a store. Pending chunks are fetched, and
the marks of deleted metadata keys are dropped. -/
def frameParts (source : ChunkSource) (flags : UInt16) : StoreM (FrameHeader × List Chunk) := do
  let chunks ← allChunks source
  modify fun s => { s with metadata := s.metadata.compact.2 }
  let s ← get
  let header : FrameHeader := {
    version := FrameHeader.formatVersion
    flags
    codec := s.codec
    chunkSize := s.chunkSize
    nbytes := s.nbytes
    allowResize := s.allowResize
    metadata := s.metadata.rawEntries
    index := chunks.map fun c => ⟨c.cbytes, c.nbytes⟩ }
  pure (header, chunks)

/-- The store as a contiguous frame. -/
def toFrame (source : ChunkSource) : StoreM Bytes := do
  let (header, chunks) ← frameParts source 0
  let head ← liftM (n := StoreM) header.toBytes
  let _ ← liftM (n := StoreM) header.payloadSize
  pure (chunks.foldl (fun out c => out ++ c.data) head)

/-- The chunks of a frame from byte `pos` on; chunk `i` is the first. -/
def restoreChunks (b : Bytes) (pos i : Nat) : List IndexEntry → Result (List Chunk)
  | [] => .ok []
  | entry :: rest => do
    let chunk ← Chunk.restore i (b.slice pos entry.cbytes) entry
    let chunks ← restoreChunks b (pos + entry.cbytes) (i + 1) rest
    pure (chunk :: chunks)

/-- The store that a contiguous frame describes. -/
def ofFrame (b : Bytes) : Result Store := do
  let header ← FrameHeader.peek b
  if header.isSparse then throw (.format .sparseHeader)
  let stop := header.headerSize + (← header.payloadSize)
  if 2 ^ 64 ≤ stop then throw (.format .payloadOverflow)
  if b.size < stop then throw (.format (.frameTruncated stop b.size))
  let chunks ← restoreChunks b header.headerSize 0 header.index
  let metadata ← ({} : Metadata).insertAll header.metadata
  ofChunks header.codec header.chunkSize header.allowResize chunks metadata

end ChunkedArray.Store
