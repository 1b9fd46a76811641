import ChunkedArray.Bytes
import ChunkedArray.Shape.Grid

/-!
# Runs

A part of an array is copied run by run: stretches of elements that are neighbours on both sides.
The walk takes, for every axis, the pairs of output and inner position, and visits their product in
C order; along the last axis neighbouring pairs are merged into runs.
-/

namespace ChunkedArray

/-- A stretch of elements that lie side by side in the output and in the inner array. -/
structure Run where
  /-- The number of the first element in the output. -/
  output : Nat
  /-- The number of the first element in the inner array. -/
  inner : Nat
  /-- The number of elements. -/
  length : Nat
deriving DecidableEq, Repr

namespace Run

/-- Adds a pair of positions to the runs built so far, the last run first. -/
def extend (runs : List Run) (p : Nat × Nat) : List Run :=
  match runs with
  | ⟨o, l, n⟩ :: rest =>
    if o + n = p.1 ∧ l + n = p.2 then ⟨o, l, n + 1⟩ :: rest else ⟨p.1, p.2, 1⟩ :: runs
  | [] => [⟨p.1, p.2, 1⟩]

/-- Merges neighbouring pairs of positions into runs. -/
def merge (pairs : List (Nat × Nat)) : List Run :=
  (pairs.foldl extend []).reverse

/-- A run moved to where the outer axes place it. Only a last axis of stride one on both sides keeps
neighbours together. -/
def place (outStride innerStride outBase innerBase : Nat) (r : Run) : List Run :=
  if outStride = 1 ∧ innerStride = 1 then [⟨outBase + r.output, innerBase + r.inner, r.length⟩]
  else
    (List.range r.length).map fun i =>
      ⟨outBase + (r.output + i) * outStride, innerBase + (r.inner + i) * innerStride, 1⟩

/-- The runs of the product of the given pairs, from the given base positions on. -/
def walk (outBase innerBase : Nat) : List (List (Nat × Nat)) → List Nat → List Nat → List Run
  | [pairs], outStride :: _, innerStride :: _ =>
    (merge pairs).flatMap (place outStride innerStride outBase innerBase)
  | pairs :: rest, outStride :: outStrides, innerStride :: innerStrides =>
    pairs.flatMap fun p =>
      walk (outBase + p.1 * outStride) (innerBase + p.2 * innerStride) rest outStrides innerStrides
  | [], _, _ => [⟨outBase, innerBase, 1⟩]
  | _, _, _ => []

/-- The runs of a part of an array, in C order. -/
def ofHits (hits : List (List (Nat × Nat))) (outStrides innerStrides : List Nat) : List Run :=
  walk 0 0 hits outStrides innerStrides

end Run

/-- The positions of an axis paired with themselves. -/
def axisIdentity (n : Nat) : List (Nat × Nat) :=
  (List.range n).map fun i => (i, i)

/-- Copies an array of shape `extent` into the near corner of a zero-filled one of shape `layout`.
-/
def padToLayout (src : Bytes) (extent layout : Shape) (itemsize : Nat) : Bytes :=
  if extent = layout then src
  else
    let out := Bytes.zeros (layout.size * itemsize)
    if 0 ∈ extent then out
    else
      (Run.ofHits (extent.map axisIdentity) extent.strides layout.strides).foldl
        (fun out r =>
          out.blit (r.inner * itemsize) src (r.output * itemsize) (r.length * itemsize)) out

/-- Copies the elements of a box out of an array of the given shape. -/
def extractBox (src : Bytes) (shape : Shape) (box : Box) (itemsize : Nat) : Bytes :=
  let out := Bytes.zeros (box.shape.size * itemsize)
  if 0 ∈ box.shape then out
  else
    let hits := box.map fun s => (List.range s.length).map fun k => (k, s.start + k)
    (Run.ofHits hits box.shape.strides shape.strides).foldl
      (fun out r =>
        out.blit (r.output * itemsize) src (r.inner * itemsize) (r.length * itemsize)) out

end ChunkedArray
