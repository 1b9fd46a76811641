import ChunkedArray.Error

/-!
# Chunk and block shapes

Where no chunk shape is given, the array is cut by halving its longest axis until a tile fits a
target size; of several longest axes the last is halved. `resolveGeometry` checks given shapes and
derives the missing ones: chunks from the array, blocks from the chunks.
-/

namespace ChunkedArray.Shape

/-- The size that a derived chunk aims at, in bytes. -/
def defaultChunkSize : Nat := 2 ^ 20

/-- The size that a derived block aims at, in bytes. -/
def defaultBlockSize : Nat := 2 ^ 16

/-- Half of a length, rounded up. -/
def halve (n : Nat) : Nat := (n + 1) / 2

/-- The greatest axis length of a shape. -/
def longest (shape : Shape) : Nat :=
  shape.foldr max 0

/-- Halves the last axis of the given length. -/
def halveLast (length : Nat) : Shape → Shape
  | [] => []
  | n :: rest => if n = length ∧ length ∉ rest then halve n :: rest else n :: halveLast length rest

/-- Halves the longest axis until a tile fits `target` bytes or every axis has length one. Each
halving shortens an axis, so the sum of the lengths bounds the rounds. -/
def shrinkTile (itemsize target : Nat) : (rounds : Nat) → Shape → Shape
  | 0, tile => tile
  | rounds + 1, tile =>
    if size tile * itemsize ≤ target then tile
    else if longest tile ≤ 1 then tile
    else shrinkTile itemsize target rounds (halveLast (longest tile) tile)

/-- An upper bound on the halvings of a tile: a length survives as many as its binary logarithm,
rounded up. -/
def halvings (tile : Shape) : Nat :=
  (tile.map fun n => n.log2 + 1).sum

/-- The tile derived from a shape; an empty axis counts as one of length one. -/
def defaultTile (shape : Shape) (itemsize target : Nat) : Shape :=
  let tile := shape.map fun n => max n 1
  shrinkTile itemsize target (halvings tile) tile

/-- Checks given chunk and block shapes and derives the missing ones. -/
def resolveGeometry (shape : Shape) (itemsize : Nat) (chunks blocks : Option Shape) :
    Result (Shape × Shape) :=
  let chunks := chunks.getD (defaultTile shape itemsize defaultChunkSize)
  if chunks.length ≠ shape.length then
    .error (.shape (.chunkRank chunks shape.length))
  else if 0 ∈ chunks then
    .error (.parameter (.emptyChunkShape chunks))
  else
    let blocks := blocks.getD (defaultTile chunks itemsize defaultBlockSize)
    if blocks.length ≠ chunks.length ∨ (blocks.zip chunks).any fun p => p.1 == 0 || p.2 < p.1 then
      .error (.parameter (.blockShape blocks chunks))
    else .ok (chunks, blocks)

end ChunkedArray.Shape
