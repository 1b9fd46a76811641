import ChunkedArray.Codec.Zstd.Weights

/-!
# Prefix codes

Literals may be written in a prefix code. Each byte has a weight: a code word of `log` bits has
weight one, one bit less doubles the share and adds one to the weight, and weight zero stands for a
byte that does not occur. The weight of the last byte is not written; it completes the code. The
weights themselves are written in four bits each or in a finite-state code.
-/

namespace ChunkedArray.Zstd

/-- A prefix code. -/
structure PrefixCode where
  /-- The length of the longest code words. -/
  log : Nat
  /-- For each number of `log` bits, the byte whose code word it starts with, and the length of that
  word. -/
  entries : Array (UInt8 × Nat)

namespace PrefixCode

/-- The greatest length of a code word. -/
def maxLog : Nat := 12

/-- The part of the table that the bytes of one weight take. -/
def entriesOf (log : Nat) (weights : List Nat) (weight : Nat) : List (UInt8 × Nat) :=
  ((List.range weights.length).zip weights).flatMap fun p =>
    if p.2 = weight then
      List.replicate (2 ^ (weight - 1)) (UInt8.ofNat p.1, log + 1 - weight)
    else []

/-- The weight that completes a code with the given sum of shares to `2 ^ log`. -/
def lastWeight? (log sum : Nat) : Option Nat :=
  let rest := 2 ^ log - sum
  if 2 ^ rest.log2 = rest then some (rest.log2 + 1) else none

/-- The code with the given weights, to which the last one is added. Two bytes at least have the
longest code words, and an even number. -/
def ofWeights (weights : List Nat) : Option PrefixCode := do
  let sum := (weights.map fun w => 2 ^ w / 2).sum
  let log := sum.log2 + 1
  if sum = 0 ∨ maxLog < log ∨ weights.any (maxLog < ·) then none
  else
    let weights := weights ++ [← lastWeight? log sum]
    let longest := weights.count 1
    if longest < 2 ∨ longest % 2 = 1 then none
    else
      some ⟨log, ((List.range log).flatMap fun w => entriesOf log weights (w + 1)).toArray⟩

/-- Reads symbols of a finite-state code with two states that take turns, until the bits do not lead
to a next state; then the other state gives the last symbol. At most 255 symbols are read. -/
def readTurns (t : StateTable) (state other : Nat) (symbols : List Nat) (bits : List Bool) :
    (fuel : Nat) → Option (List Nat)
  | 0 => none
  | fuel + 1 =>
    let symbols := t.symbol state :: symbols
    match t.advance state bits with
    | none => some (t.symbol other :: symbols).reverse
    | some (state, bits) => readTurns t other state symbols bits fuel

/-- Reads weights written in a finite-state code of at most 64 states. -/
def readCodedWeights (b : Bytes) : Option (List Nat) := do
  let (w, used) ← readDescription b 256
  if 6 < w.log ∨ (w.log = 6 ∧ 12 < w.weights.length) then none
  else
    let table := StateTable.ofWeights w.log w.weights
    let bits ← unpackBits (b.extract used)
    let (state, bits) ← takeBits w.log bits
    let (other, bits) ← takeBits w.log bits
    readTurns table state other [] bits 254

/-- Reads the description of a code. Gives the code and the number of bytes that describe it. -/
def read (b : Bytes) : Option (PrefixCode × Nat) := do
  let head := (b.getD 0 0).toNat
  let used := 1 + (if 128 ≤ head then (head - 126) / 2 else head)
  if b.size < used then none
  else
    let weights ←
      if 128 ≤ head then
        some (((b.extract 1 used).toList.flatMap fun x => [x.toNat / 16, x.toNat % 16]).take
          (head - 127))
      else readCodedWeights (b.extract 1 used)
    some (← ofWeights weights, used)

/-- Decodes `count` bytes behind `out`; they take all the bits. -/
def decode (code : PrefixCode) (out : Bytes) : (count : Nat) → List Bool → Option Bytes
  | 0, bits => if bits.isEmpty then some out else none
  | count + 1, bits =>
    let head := bits.take code.log
    let (byte, width) :=
      code.entries.getD (ofBits head * 2 ^ (code.log - head.length)) (0, code.log + 1)
    if head.length < width then none else code.decode (out.push byte) count (bits.drop width)

/-- Decodes one stream of `size` bytes. -/
def decodeStream (code : PrefixCode) (out : Bytes) (size : Nat) (b : Bytes) : Option Bytes := do
  code.decode out size (← unpackBits b)

/-- Decodes `size` bytes from four streams of a quarter each. The sizes of the first three come
first. -/
def decodeFour (code : PrefixCode) (size : Nat) (b : Bytes) : Option Bytes := do
  let quarter := (size + 3) / 4
  let second := 6 + LittleEndian.readAt b 0 2
  let third := second + LittleEndian.readAt b 2 2
  let fourth := third + LittleEndian.readAt b 4 2
  if size < 6 ∨ b.size < 10 ∨ b.size < fourth then none
  else
    let out ← code.decodeStream #[] quarter (b.extract 6 second)
    let out ← code.decodeStream out quarter (b.extract second third)
    let out ← code.decodeStream out quarter (b.extract third fourth)
    code.decodeStream out (size - 3 * quarter) (b.extract fourth)

end PrefixCode

end ChunkedArray.Zstd
