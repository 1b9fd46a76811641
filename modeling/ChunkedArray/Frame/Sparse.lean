import ChunkedArray.Frame.Contiguous

/-!
# Sparse frames

A store as a directory: a header file and one file for every chunk. Everything that can be refused
about the store is refused before the directory is touched; stale chunk files are removed first.
Opening a sparse frame reads the header file only.
-/

namespace ChunkedArray

namespace SparseFrame

/-- Writes the files of `chunks`; chunk `i` is the first. -/
def writeChunks (dir : Path) (i : Nat) : List Chunk → FilesM Unit
  | [] => pure ()
  | chunk :: rest => do
    Files.change fun fs => fs.write (chunkPath dir i) chunk.data
    writeChunks dir (i + 1) rest

/-- Writes a frame into a directory. Gives the number of bytes written. -/
def writeAll (dir : Path) (header : Bytes) (chunks : List Chunk) : FilesM Nat := do
  if (← get).exists? (chunksPath dir) then
    Files.removeDirectory (chunksPath dir)
  Files.makeDirectories (chunksPath dir)
  Files.change fun fs => fs.write (headerPath dir) header
  writeChunks dir 0 chunks
  pure (header.size + (chunks.map Chunk.cbytes).sum)

end SparseFrame

namespace Store

/-- The header bytes and the chunks of a sparse frame of the store. -/
def sparseParts (source : ChunkSource) : StoreM (Bytes × List Chunk) := do
  let (header, chunks) ← frameParts source FrameHeader.sparseFlag
  let head ← liftM (n := StoreM) header.toBytes
  pure (head, chunks)

/-- Saves a store as a sparse frame. Gives the number of bytes written. -/
def saveSparse (s : Store) (fs : Files) (dir : Path) : Result Nat × Store × Files :=
  match s.run (sparseParts (s.chunkSource fs)) with
  | (.error e, s) => (.error e, s, fs)
  | (.ok (head, chunks), s) =>
    let (written, fs) := (SparseFrame.writeAll dir head chunks).run.run fs
    (written, s, fs)

/-- Opens the sparse frame in a directory; its chunks stay in their files until they are needed. -/
def openSparse (fs : Files) (dir : Path) : Result Store := do
  let frame ← SparseFrame.openAt fs dir
  let metadata ← ({} : Metadata).insertAll frame.header.metadata
  ofSource frame metadata

end Store

end ChunkedArray
