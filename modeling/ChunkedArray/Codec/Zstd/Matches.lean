import ChunkedArray.Codec.Zstd.Sequences

/-!
# Finding repetitions

A block is cut greedily into literals and repetitions of at least four bytes. A table remembers the
last place where four bytes with a given hash began.
-/

namespace ChunkedArray.Zstd

/-- The number of entries of the table of places. -/
def placeCount : Nat := 2 ^ 14

/-- The table entry of the four bytes at `pos`. -/
def placeOf (b : Bytes) (pos : Nat) : Nat :=
  (LittleEndian.readAt b pos 4 * 2654435761) % 2 ^ 32 / 2 ^ 18

/-- Counts how far the bytes at `p` and `q` agree, at most `limit` places. -/
def agreement (b : Bytes) (p q count : Nat) : (limit : Nat) → Nat
  | 0 => count
  | limit + 1 =>
    if b.getD p 0 = b.getD q 0 then agreement b (p + 1) (q + 1) (count + 1) limit else count

/-- Cuts the block from `pos` on; literals since `start` are pending. Gives the literals and the
sequences. -/
def cut (b : Bytes) (start pos : Nat) (places : Array Nat) (literals : Bytes)
    (done : List Sequence) : (fuel : Nat) → Bytes × List Sequence
  | 0 => (literals ++ b.extract start, done.reverse)
  | fuel + 1 =>
    if b.size < pos + 4 then (literals ++ b.extract start, done.reverse)
    else
      let place := placeOf b pos
      let candidate := places.getD place 0
      let places := places.setIfInBounds place (pos + 1)
      let length :=
        if candidate = 0 then 0 else agreement b (candidate - 1) pos 0 (b.size - pos)
      if length < 4 then cut b start (pos + 1) places literals done fuel
      else
        cut b (pos + length) (pos + length) places (literals ++ b.extract start pos)
          (⟨pos - start, length, pos + 1 - candidate + 3⟩ :: done) fuel

/-- The literals and sequences of a block. -/
def findMatches (b : Bytes) : Bytes × List Sequence :=
  cut b 0 0 (Array.replicate placeCount 0) #[] [] b.size

end ChunkedArray.Zstd
