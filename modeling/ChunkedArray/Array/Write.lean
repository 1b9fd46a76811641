import ChunkedArray.Array.Read

/-!
# Writing arrays

A value is written over a region chunk by chunk: every chunk that holds a selected item is decoded,
patched and compressed once, in the order of the grid. The value has the items of the region in C
order, or it is a single item that fills the region. Bounds outside the array are refused.
-/

namespace ChunkedArray

namespace Geometry

/-- Copies one item over `n` items of `out`, from item `inner` on. -/
def fillItems (itemsize : Nat) (value out : Bytes) (inner : Nat) : (n : Nat) → Bytes
  | 0 => out
  | n + 1 => fillItems itemsize value (out.blit (inner * itemsize) value 0 itemsize) (inner + 1) n

/-- The raw bytes of a chunk with the runs of a value written over them. -/
def patch (itemsize : Nat) (fill : Bool) (value raw : Bytes) (runs : List Run) : Bytes :=
  runs.foldl (fun raw r =>
    if fill then fillItems itemsize value raw r.inner r.length
    else raw.blit (r.inner * itemsize) value (r.output * itemsize) (r.length * itemsize)) raw

/-- Writes what the chunks in the list hold of a selection. -/
def patchChunks (g : Geometry) (source : ChunkSource) (sel : Selection) (fill : Bool)
    (value : Bytes) : List Nat → StoreM Unit
  | [] => pure ()
  | i :: rest => do
    match sel.hits (g.grid.chunkBox i) with
    | none => patchChunks g source sel fill value rest
    | some hits =>
      let raw ← Store.getChunk source i
      let runs := Run.ofHits hits sel.shape.strides g.chunks.strides
      Store.replace source i (patch g.itemsize fill value raw runs)
      patchChunks g source sel fill value rest

/-- Writes a value over a region. -/
def writeRegion (g : Geometry) (source : ChunkSource) (region : Region) (value : Bytes) :
    StoreM Unit := do
  let sel ← liftM (n := StoreM) (region.resolveStrict g.shape)
  let fill := value.size == g.itemsize
  if value.size ≠ sel.size * g.itemsize ∧ !fill then
    throw (.shape (.regionLength value.size sel.shape g.dtype))
  if !sel.isEmpty then
    patchChunks g source sel fill value (g.grid.intersecting sel.boundingBox)

/-- Writes elements over a region; they have the shape of the region, or there is a single one. -/
def writeTyped (g : Geometry) (source : ChunkSource) (region : Region) (values : TypedArray) :
    StoreM Unit := do
  liftM (n := StoreM) (g.dtype.requireKind values.kind)
  let sel ← liftM (n := StoreM) (region.resolveStrict g.shape)
  if values.elements.size ≠ 1 ∧ values.shape ≠ sel.shape then
    throw (.shape (.regionShape values.shape sel.shape))
  writeRegion g source region values.toBytes

end Geometry

namespace NDArray

/-- Writes a value over a region. -/
def writeRegion (a : NDArray) (fs : Files) (region : Region) (value : Bytes) :
    Result Unit × NDArray :=
  a.run (a.geometry.writeRegion (a.store.chunkSource fs) region value)

/-- Writes elements over a region. -/
def writeTyped (a : NDArray) (fs : Files) (region : Region) (values : TypedArray) :
    Result Unit × NDArray :=
  a.run (a.geometry.writeTyped (a.store.chunkSource fs) region values)

end NDArray

end ChunkedArray
