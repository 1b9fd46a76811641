import ChunkedArray.Array.Basic

/-!
# Reading arrays

A region is gathered chunk by chunk. Only chunks that the bounding box of the selection touches are
considered, and of each only the bytes between the first and the last selected item are decoded. A
projection copies a part of every item, which is how a field of a record is read without its
siblings. The parts of a chunk are cut out of its items one after another, each as wide as the part,
and to cut parts of no bytes breaks the reading off.
-/

namespace ChunkedArray

/-- The part of every item that a reading copies. -/
structure Projection where
  /-- The first byte of the part. -/
  offset : Nat
  /-- The number of bytes. -/
  width : Nat
deriving DecidableEq, Repr

/-- Whether items of the given size can be cut into the parts: all of an item is copied in one piece,
and any other part has to take some bytes. -/
def Projection.Cuts (part : Projection) (itemsize : Nat) : Prop :=
  part = ⟨0, itemsize⟩ ∨ 0 < part.width

instance (part : Projection) (itemsize : Nat) : Decidable (part.Cuts itemsize) :=
  inferInstanceAs (Decidable (_ ∨ _))

namespace Geometry

/-- Copies a part of `n` items of `src`, from item `inner` on, over the parts from number `output`
on. -/
def copyParts (itemsize : Nat) (part : Projection) (src out : Bytes) (output inner : Nat) :
    (n : Nat) → Bytes
  | 0 => out
  | n + 1 =>
    copyParts itemsize part src
      (out.blit (output * part.width) src (inner * itemsize + part.offset) part.width)
      (output + 1) (inner + 1) n

/-- The first item of a chunk that is hit, and the item behind the last one. -/
def hitSpan (hits : List (List (Nat × Nat))) (strides : List Nat) : Nat × Nat :=
  let ends := List.zipWith (fun pairs stride =>
    let inner := pairs.map Prod.snd
    (inner.foldl min (inner.headD 0) * stride, inner.foldl max 0 * stride)) hits strides
  ((ends.map Prod.fst).sum, (ends.map Prod.snd).sum + 1)

/-- Copies what the chunks in the list hold of a selection over `out`. -/
def gatherChunks (g : Geometry) (source : ChunkSource) (sel : Selection) (part : Projection)
    (out : Bytes) : List Nat → StoreM Bytes
  | [] => pure out
  | i :: rest => do
    match sel.hits (g.grid.chunkBox i) with
    | none => gatherChunks g source sel part out rest
    | some hits =>
      let strides := g.chunks.strides
      let (low, high) := hitSpan hits strides
      let data ← Store.getRange source i (low * g.itemsize) ((high - low) * g.itemsize)
      if part.Cuts g.itemsize then
        let runs := Run.ofHits hits sel.shape.strides strides
        let out := runs.foldl (fun out r =>
          copyParts g.itemsize part data out r.output (r.inner - low) r.length) out
        gatherChunks g source sel part out rest
      else throw (.breakdown .emptyParts)

/-- The given part of every selected item, in C order. -/
def readParts (g : Geometry) (source : ChunkSource) (sel : Selection) (part : Projection) :
    StoreM Bytes := do
  if g.itemsize < part.offset + part.width then
    throw (.parameter (.projection part.offset (part.offset + part.width) g.itemsize))
  let out := Bytes.zeros (sel.size * part.width)
  if sel.isEmpty then pure out
  else gatherChunks g source sel part out (g.grid.intersecting sel.boundingBox)

/-- The projection to a whole item. -/
def wholeItem (g : Geometry) : Projection := ⟨0, g.itemsize⟩

/-- The projection to a field. -/
def fieldPart (field : Field) : Projection := ⟨field.offset, field.dtype.itemsize⟩

/-- The given part of every item of a box. -/
def readBox (g : Geometry) (source : ChunkSource) (part : Projection) (box : Box) :
    StoreM Bytes := do
  let sel ← liftM (n := StoreM) ((Region.ofBox box).resolve g.shape)
  readParts g source sel part

/-- A part of every item of a region, as items of the given layout. -/
def readRegionAs (g : Geometry) (source : ChunkSource) (dtype : DType) (part : Projection)
    (region : Region) : StoreM Buffer := do
  let sel ← liftM (n := StoreM) (region.resolve g.shape)
  let data ← readParts g source sel part
  liftM (n := StoreM) (Buffer.new sel.shape dtype data)

/-- The items of a region. -/
def readRegion (g : Geometry) (source : ChunkSource) (region : Region) : StoreM Buffer :=
  readRegionAs g source g.dtype g.wholeItem region

/-- A field of the items of a region. -/
def readField (g : Geometry) (source : ChunkSource) (field : Field) (region : Region) :
    StoreM Buffer :=
  readRegionAs g source field.dtype (fieldPart field) region

/-- The elements of a region. -/
def readTyped (g : Geometry) (source : ChunkSource) (kind : ScalarKind) (region : Region) :
    StoreM TypedArray := do
  liftM (n := StoreM) (g.dtype.requireKind kind)
  let buffer ← readRegion g source region
  liftM (n := StoreM) (buffer.toTyped kind)

/-- The elements of a field of the items of a region. -/
def readFieldTyped (g : Geometry) (source : ChunkSource) (field : Field) (kind : ScalarKind)
    (region : Region) : StoreM TypedArray := do
  liftM (n := StoreM) (field.dtype.requireKind kind)
  let buffer ← readField g source field region
  liftM (n := StoreM) (buffer.toTyped kind)

end Geometry

namespace NDArray

/-- The given part of every item of a box. -/
def readBox (a : NDArray) (fs : Files) (part : Projection) (box : Box) : Result Bytes × NDArray :=
  a.run (a.geometry.readBox (a.store.chunkSource fs) part box)

/-- The items of a region. -/
def readRegion (a : NDArray) (fs : Files) (region : Region) : Result Buffer × NDArray :=
  a.run (a.geometry.readRegion (a.store.chunkSource fs) region)

/-- The elements of a region. -/
def readTyped (a : NDArray) (fs : Files) (kind : ScalarKind) (region : Region) :
    Result TypedArray × NDArray :=
  a.run (a.geometry.readTyped (a.store.chunkSource fs) kind region)

/-- A field of the items of a region. -/
def readField (a : NDArray) (fs : Files) (field : Field) (region : Region) :
    Result Buffer × NDArray :=
  a.run (a.geometry.readField (a.store.chunkSource fs) field region)

/-- The elements of a field of the items of a region. -/
def readFieldTyped (a : NDArray) (fs : Files) (field : Field) (kind : ScalarKind)
    (region : Region) : Result TypedArray × NDArray :=
  a.run (a.geometry.readFieldTyped (a.store.chunkSource fs) field kind region)

end NDArray

end ChunkedArray
