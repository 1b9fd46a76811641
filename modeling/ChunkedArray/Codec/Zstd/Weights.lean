import ChunkedArray.Bytes.LittleEndian
import ChunkedArray.Codec.Zstd.StateTable

/-!
# Descriptions of state tables

A block may bring the weights of its own finite-state codes. A description is read from the low bits
of its first byte on. Four bits give the size of the table; then the weights follow, each in as many
bits as the states that are still to be given away call for. After a weight of zero, pairs of bits
count the zeros that come next.

The bits are looked at through a word of four bytes that never leaves the input: at the end it stays
on the last four bytes, and a position behind them starts over in that word. A description that used
more bytes than there are is refused afterwards.
-/

namespace ChunkedArray.Zstd

namespace Description

/-- A position at which the word of the next bits lies in the input. -/
def settle (b : Bytes) (pos : Nat) : Nat :=
  let last := 8 * (b.size - 4)
  if pos / 8 + 4 ≤ b.size then pos else last + (pos - last) % 32

/-- The next bits at a settled position, the first one lowest. -/
def peek (b : Bytes) (pos : Nat) : Nat :=
  let start := min (pos / 8) (b.size - 4)
  LittleEndian.readAt b start 4 / 2 ^ (pos - 8 * start)

/-- The number of pairs of set bits at the low end of a word, whose highest bit counts as clear. -/
def setPairs (word : Nat) : Nat :=
  ((List.range 31).takeWhile word.testBit).length / 2

/-- Adds the zeros counted at `pos` to `count`: three for a pair of set bits, which another pair
follows, otherwise the value of the pair. Gives the sum and the position behind. -/
def countZeros (b : Bytes) (count pos : Nat) : (fuel : Nat) → Nat × Nat
  | 0 => (count, pos)
  | fuel + 1 =>
    let word := peek b pos
    let pairs := setPairs word
    if 12 ≤ pairs then countZeros b (count + 36) (settle b (pos + 24)) fuel
    else (count + 3 * pairs + word / 4 ^ pairs % 4, settle b (pos + 2 * pairs + 2))

/-- Reads one weight when `left - 1` states are still to be given away. Gives the weight and the
number of bits read: small values take one bit less. -/
def readWeight (word left : Nat) : Int × Nat :=
  let log := left.log2
  let spare := 2 * 2 ^ log - 1 - left
  let low := word % 2 ^ log
  if low < spare then ((low : Int) - 1, log)
  else
    let value := word % (2 * 2 ^ log)
    (((if 2 ^ log ≤ value then value - spare else value : Nat) : Int) - 1, log + 1)

/-- Reads weights until all states are given away. Gives the weights and the position behind the
last one. -/
def readWeights (b : Bytes) (limit left pos : Nat) (weights : List Int) :
    (fuel : Nat) → Option (List Int × Nat)
  | 0 => none
  | fuel + 1 =>
    let (zeros, pos) :=
      if weights.head? = some 0 then countZeros b 0 pos b.size else (0, pos)
    let weights := List.replicate zeros 0 ++ weights
    if limit ≤ weights.length then none
    else
      let (weight, width) := readWeight (peek b pos) left
      let left := left - weight.natAbs
      let weights := weight :: weights
      if left ≤ 1 then some (weights.reverse, pos + width)
      else readWeights b limit left (settle b (pos + width)) weights fuel

end Description

/-- The weights of a finite-state code. -/
structure Weights where
  /-- The binary logarithm of the number of states. -/
  log : Nat
  /-- The weight of each symbol. -/
  weights : List Int

/-- Reads a description of at most `limit` symbols from the start of the input. Gives the weights
and the number of bytes that describe them. -/
def readDescription (b : Bytes) (limit : Nat) : Option (Weights × Nat) := do
  let padded := b ++ Array.replicate (8 - b.size) 0
  let log := (padded.getD 0 0).toNat % 16 + 5
  if 15 < log then none
  else
    let (weights, pos) ← Description.readWeights padded limit (2 ^ log + 1) 4 [] limit
    let used := (pos + 7) / 8
    if b.size < used then none else some (⟨log, weights⟩, used)

end ChunkedArray.Zstd
