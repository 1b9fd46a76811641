import ChunkedArray.Array.Buffer
import ChunkedArray.DType.Descriptor
import ChunkedArray.Shape.Runs
import ChunkedArray.Shape.Tile

/-!
# Array geometry

The part of an array that is fixed when it is made: its shape, its item layout, and the shapes of
its chunks and blocks. A geometry is kept in the metadata of the store under one key, as a map of
four entries.
-/

namespace ChunkedArray

/-- The fixed parameters of an array. -/
structure Geometry where
  /-- The shape. -/
  shape : Shape
  /-- The layout of an item. -/
  dtype : DType
  /-- The shape of a chunk. -/
  chunks : Shape
  /-- The shape of a block. -/
  blocks : Shape

namespace Geometry

/-- The metadata key of a geometry. -/
def metadataKey : String := "ndarray"

/-- The grid of chunks. -/
def grid (g : Geometry) : ChunkGrid := ⟨g.shape, g.chunks⟩

/-- The size of an item in bytes. -/
def itemsize (g : Geometry) : Nat := g.dtype.itemsize

/-- The number of items. -/
def size (g : Geometry) : Nat := g.shape.size

/-- The size of the items in bytes, padding left out. -/
def nbytes (g : Geometry) : Nat := g.size * g.itemsize

/-- The number of chunks. -/
def nchunks (g : Geometry) : Nat := g.grid.nchunks

/-- The size of a chunk in bytes. -/
def chunkSize (g : Geometry) : Nat := g.chunks.size * g.itemsize

/-- The size of a block in bytes. -/
def blockSize (g : Geometry) : Nat := g.blocks.size * g.itemsize

/-- The element width that the filters see: the item size if it fits a byte. -/
def typesize (itemsize : Nat) : Nat := if itemsize ≤ 255 then itemsize else 1

/-- The geometry of a new array, the missing shapes derived. -/
def resolve (shape : Shape) (dtype : DType) (chunks blocks : Option Shape) : Result Geometry := do
  let (chunks, blocks) ← Shape.resolveGeometry shape dtype.itemsize chunks blocks
  pure { shape, dtype, chunks, blocks }

/-- A geometry as a metadata value. -/
def toMeta (g : Geometry) : MetaValue :=
  .map (SortedMap.ofList [
    ("shape", .ofShape g.shape),
    ("chunks", .ofShape g.chunks),
    ("blocks", .ofShape g.blocks),
    ("dtype", .str g.dtype.descriptor)])

end Geometry

end ChunkedArray
