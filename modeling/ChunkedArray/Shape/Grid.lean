import ChunkedArray.Shape.Region

/-!
# The chunk grid

The chunks of an array form a regular grid, numbered in C order. Chunks at the far edges are cut off
by the array. `intersecting` lists the chunks that a box touches, in ascending order.
-/

namespace ChunkedArray

/-- All coordinates inside a box, the last axis running fastest. -/
def Box.coords : Box → List (List Nat)
  | [] => [[]]
  | s :: rest =>
    (List.range s.length).flatMap fun k => (Box.coords rest).map fun c => (s.start + k) :: c

/-- The grid of chunks that covers an array. -/
structure ChunkGrid where
  /-- The shape of the array. -/
  shape : Shape
  /-- The shape of one chunk. -/
  chunks : Shape
deriving DecidableEq, Repr

namespace ChunkGrid

/-- A quotient, rounded up. -/
def ceilDiv (m n : Nat) : Nat := (m + n - 1) / n

/-- The number of chunks along every axis. -/
def counts (g : ChunkGrid) : Shape :=
  List.zipWith ceilDiv g.shape g.chunks

/-- The number of chunks. -/
def nchunks (g : ChunkGrid) : Nat := g.counts.size

/-- The grid coordinates that remain of a chunk number after the later axes: each axis takes the
remainder by its count. -/
def coordsReversed : Shape → Nat → List Nat
  | [], _ => []
  | n :: rest, i => i % n :: coordsReversed rest (i / n)

/-- The grid coordinates of a chunk. -/
def coords (g : ChunkGrid) (i : Nat) : List Nat :=
  (coordsReversed g.counts.reverse i).reverse

/-- The number of the chunk at the given grid coordinates. -/
def index (g : ChunkGrid) (coords : List Nat) : Nat :=
  (coords.zip g.counts).foldl (fun acc p => acc * p.2 + p.1) 0

/-- The span of chunk number `c` along an axis of length `n`, cut into pieces of length `chunk`. -/
def axisSpan (n chunk c : Nat) : Span :=
  ⟨c * chunk, min (c * chunk + chunk) n⟩

/-- The elements of a chunk that lie inside the array. -/
def chunkBox (g : ChunkGrid) (i : Nat) : Box :=
  List.zipWith (fun c p => axisSpan p.1 p.2 c) (g.coords i) (g.shape.zip g.chunks)

/-- The chunks that a box touches, in ascending order. -/
def intersecting (g : ChunkGrid) (box : Box) : List Nat :=
  if box.any Span.isEmpty || g.nchunks == 0 then []
  else
    let ranges := List.zipWith (fun s c => Span.mk (s.start / c) ((s.stop - 1) / c + 1)) box g.chunks
    (Box.coords ranges).map g.index

@[simp] theorem length_coordsReversed (counts : Shape) (i : Nat) :
    (coordsReversed counts i).length = counts.length := by
  induction counts generalizing i with
  | nil => rfl
  | cons n rest ih => simp [coordsReversed, ih]

end ChunkGrid

end ChunkedArray
