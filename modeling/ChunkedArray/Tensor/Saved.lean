import ChunkedArray.Tensor.Basic

/-!
# Saved tensors

A tensor is saved under a path as one file or as a sparse frame, in place of whatever was there. It
is packed before the old content is removed. Loading tells the two layouts apart by whether there is
a directory.
-/

namespace ChunkedArray.Tensor

/-- Saves a tensor under a path. Gives the number of bytes written. -/
def save (t : Tensor) (path : Path) (params : PackParams) : FilesM Nat := do
  let store ← liftM (n := FilesM) (t.packStore params.codec params.chunkSize)
  if params.contiguous then
    let frame ← liftM (n := FilesM) (frameOf store)
    Files.remove path
    Files.change fun fs => fs.write path frame
    pure frame.size
  else
    Files.remove path
    let ((head, chunks), _) ← liftM (n := FilesM)
      (store.exec (Store.sparseParts (store.chunkSource {})))
    SparseFrame.writeAll path head chunks

/-- Loads the tensor saved under a path. -/
def load (fs : Files) (path : Path) : Result Tensor := do
  if fs.isDirectory path then ofStore (← Store.openSparse fs path) fs
  else unpack (← fs.read path)

end ChunkedArray.Tensor
