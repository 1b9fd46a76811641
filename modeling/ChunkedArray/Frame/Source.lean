import ChunkedArray.Chunk.Basic
import ChunkedArray.Files
import ChunkedArray.Frame.Header

/-!
# Opened sparse frames

A sparse frame is a directory with a header file and one file for every chunk. Opening one reads the
header only; a chunk is read from its own file when it is asked for, and checked against the index.
-/

namespace ChunkedArray

/-- An opened sparse frame. -/
structure SparseFrame where
  /-- The directory of the frame. -/
  path : Path
  /-- Its header. -/
  header : FrameHeader
deriving DecidableEq, Repr

/-- Checks a chunk read back from a frame against its row of the index. -/
def Chunk.restore (i : Nat) (data : Bytes) (entry : IndexEntry) : Result Chunk := do
  let chunk ← Chunk.ofBytes data
  if chunk.nbytes = entry.nbytes then pure chunk
  else .error (.format (.chunkSize i chunk.nbytes entry.nbytes))

namespace SparseFrame

/-- The header file of a frame. -/
def headerPath (dir : Path) : Path := dir.join "frame.hdr"

/-- The directory of the chunk files. -/
def chunksPath (dir : Path) : Path := dir.join "chunks"

/-- The number of a chunk in its file name, with at least eight digits. -/
def paddedNumber (i : Nat) : String :=
  let ds := (toString i).toList
  String.ofList (List.replicate (8 - ds.length) '0' ++ ds)

/-- The file of a chunk. -/
def chunkPath (dir : Path) (i : Nat) : Path :=
  (chunksPath dir).join (paddedNumber i ++ ".chunk")

/-- Opens the frame in a directory. -/
def openAt (fs : Files) (dir : Path) : Result SparseFrame := do
  let data ← fs.read (headerPath dir)
  let header ← FrameHeader.peek data
  if header.isSparse then pure ⟨dir, header⟩
  else .error (.format (.notSparse (fs.pathText (headerPath dir))))

/-- The number of chunks. -/
def nchunks (f : SparseFrame) : Nat := f.header.index.length

/-- Reads a chunk from its file. -/
def readChunk (f : SparseFrame) (fs : Files) (i : Nat) : Result Chunk :=
  match f.header.index[i]? with
  | none => .error (.index (.chunk i f.nchunks))
  | some entry => do
    let data ← fs.read (chunkPath f.path i)
    if data.size = entry.cbytes then Chunk.restore i data entry
    else .error (.format (.chunkFile i data.size entry.cbytes))

end SparseFrame

end ChunkedArray
