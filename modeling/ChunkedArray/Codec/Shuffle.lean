import ChunkedArray.Bytes

/-!
# The shuffle filter

A block of elements of fixed width is rearranged into planes: the first bytes of all elements, then
all second bytes, and so on. Bytes after the last whole element stay where they are, and a block of
single bytes, or shorter than an element, stays as it is.
-/

namespace ChunkedArray.Shuffle

/-- Where the byte at position `i` of the planes comes from, for `count` elements. -/
def planeSource (typesize count i : Nat) : Nat :=
  i % count * typesize + i / count

/-- Where the byte at position `i` of the elements lies in the planes, for `count` elements. -/
def planePosition (typesize count i : Nat) : Nat :=
  i % typesize * count + i / typesize

/-- Whether a block stays as it is. -/
def isTrivial (typesize : Nat) (b : Bytes) : Bool :=
  typesize ≤ 1 || b.size < typesize

/-- Rearranges elements into planes. -/
def encode (typesize : Nat) (b : Bytes) : Bytes :=
  if isTrivial typesize b then b
  else
    let count := b.size / typesize
    Array.ofFn fun i : Fin b.size =>
      if i < count * typesize then b.getD (planeSource typesize count i) 0 else b[i]

/-- Rearranges planes into elements. -/
def decode (typesize : Nat) (b : Bytes) : Bytes :=
  if isTrivial typesize b then b
  else
    let count := b.size / typesize
    Array.ofFn fun i : Fin b.size =>
      if i < count * typesize then b.getD (planePosition typesize count i) 0 else b[i]

@[simp] theorem size_encode (typesize : Nat) (b : Bytes) : (encode typesize b).size = b.size := by
  unfold encode; split <;> simp

@[simp] theorem size_decode (typesize : Nat) (b : Bytes) : (decode typesize b).size = b.size := by
  unfold decode; split <;> simp

end ChunkedArray.Shuffle
