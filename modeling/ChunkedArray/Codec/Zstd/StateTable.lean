import ChunkedArray.Codec.Zstd.Bits

/-!
# State tables

A finite-state code assigns to each state a symbol, a number of bits to read, and the state that
zero bits lead to. The table is determined by the weights of the symbols: a symbol gets as many
states as its weight says, spread evenly, and a symbol of weight `-1` gets one state at the end.
-/

namespace ChunkedArray.Zstd

/-- A state of a finite-state code. -/
structure State where
  /-- The symbol that the state stands for. -/
  symbol : Nat
  /-- The number of bits that choose the next state. -/
  bits : Nat
  /-- The next state if all those bits are zero. -/
  base : Nat
deriving Repr, Inhabited

/-- A finite-state code with `2 ^ log` states. -/
structure StateTable where
  /-- The binary logarithm of the number of states. -/
  log : Nat
  /-- The states. -/
  states : Array State

namespace StateTable

/-- The symbols of weight `-1`, which take the last states. -/
def rareSymbols (weights : List Int) : List Nat :=
  ((List.range weights.length).zip weights).filterMap fun p => if p.2 = -1 then some p.1 else none

/-- The other symbols, each as often as its weight says. -/
def commonSymbols (weights : List Int) : List Nat :=
  ((List.range weights.length).zip weights).flatMap fun p => List.replicate p.2.toNat p.1

/-- The states visited by steps of fixed length, those beyond `limit` left out. -/
def spreadOrder (size limit : Nat) : List Nat :=
  let step := size / 2 + size / 8 + 3
  ((List.range size).map fun i => i * step % size).filter fun s => s < limit

/-- The symbol of every state. -/
def symbols (log : Nat) (weights : List Int) : Array Nat :=
  let size := 2 ^ log
  let rare := rareSymbols weights
  let limit := size - rare.length
  let table := ((spreadOrder size limit).zip (commonSymbols weights)).foldl
    (fun (t : Array Nat) p => t.setIfInBounds p.1 p.2) (Array.replicate size 0)
  ((List.range rare.length).zip rare).foldl
    (fun (t : Array Nat) p => t.setIfInBounds (size - 1 - p.1) p.2) table

/-- Numbers the states of each symbol and derives the bits they read. -/
def number (log : Nat) (counts : Array Nat) (states : Array State) : List Nat → Array State
  | [] => states
  | s :: rest =>
    let n := counts.getD s 0
    let bits := log - n.log2
    number log (counts.setIfInBounds s (n + 1))
      (states.push ⟨s, bits, n * 2 ^ bits - 2 ^ log⟩) rest

/-- The table of a code with the given weights. -/
def ofWeights (log : Nat) (weights : List Int) : StateTable :=
  let counts := (weights.map fun w => if w = -1 then 1 else w.toNat).toArray
  ⟨log, number log counts #[] (symbols log weights).toList⟩

/-- The table of a code with one symbol, which takes no bits. -/
def single (symbol : Nat) : StateTable :=
  ⟨0, #[⟨symbol, 0, 0⟩]⟩

/-- The symbol of a state. -/
def symbol (t : StateTable) (state : Nat) : Nat :=
  (t.states.getD state ⟨0, 0, 0⟩).symbol

/-- Reads the state that follows `state`. -/
def advance (t : StateTable) (state : Nat) (bits : List Bool) : Option (Nat × List Bool) := do
  let s := t.states.getD state ⟨0, 0, 0⟩
  let (n, bits) ← takeBits s.bits bits
  some (s.base + n, bits)

/-- A state of the given symbol from which `next` can follow. -/
def before? (t : StateTable) (symbol : Nat) (next : Option Nat) : Option Nat :=
  (List.range t.states.size).find? fun i =>
    let s := t.states.getD i ⟨0, 0, 0⟩
    s.symbol == symbol &&
      match next with
      | none => true
      | some n => s.base ≤ n && n < s.base + 2 ^ s.bits

/-- The bits that lead from a state to the next. -/
def bitsTo (t : StateTable) (state next : Nat) : List Bool :=
  let s := t.states.getD state ⟨0, 0, 0⟩
  bitsOf s.bits (next - s.base)

end StateTable

/-- A code for numbers: a symbol gives the least number and how many bits are added to it. -/
abbrev NumberCode := Array (Nat × Nat)

namespace NumberCode

/-- The symbol that covers a number. -/
def symbolOf? (code : NumberCode) (n : Nat) : Option Nat :=
  (List.range code.size).find? fun s =>
    let p := code.getD s (0, 0)
    p.1 ≤ n && n < p.1 + 2 ^ p.2

end NumberCode

/-- Extends a table of numbers by ranges of the given numbers of bits, each after the last. -/
def extendRanges (start : Nat) : List Nat → List (Nat × Nat)
  | [] => []
  | bits :: rest => (start, bits) :: extendRanges (start + 2 ^ bits) rest

/-- The code of literal lengths. -/
def literalLengthCode : NumberCode :=
  (extendRanges 0 (List.replicate 16 0 ++
    [1, 1, 1, 1, 2, 2, 3, 3, 4, 6, 7, 8, 9, 10, 11, 12, 13, 14, 15, 16])).toArray

/-- The code of match lengths. -/
def matchLengthCode : NumberCode :=
  (extendRanges 3 (List.replicate 32 0 ++
    [1, 1, 1, 1, 2, 2, 3, 3, 4, 4, 5, 7, 8, 9, 10, 11, 12, 13, 14, 15, 16])).toArray

/-- The code of offset values: symbol `n` covers the numbers of `n + 1` bits. -/
def offsetCode : NumberCode :=
  (extendRanges 1 (List.range 32)).toArray

/-- The predefined table of literal lengths. -/
def literalLengthTable : StateTable :=
  .ofWeights 6 [4, 3, 2, 2, 2, 2, 2, 2, 2, 2, 2, 2, 2, 1, 1, 1, 2, 2, 2, 2, 2, 2, 2, 2, 2, 3, 2, 1,
    1, 1, 1, 1, -1, -1, -1, -1]

/-- The predefined table of match lengths. -/
def matchLengthTable : StateTable :=
  .ofWeights 6 [1, 4, 3, 2, 2, 2, 2, 2, 2, 1, 1, 1, 1, 1, 1, 1, 1, 1, 1, 1, 1, 1, 1, 1, 1, 1, 1, 1,
    1, 1, 1, 1, 1, 1, 1, 1, 1, 1, 1, 1, 1, 1, 1, 1, 1, 1, -1, -1, -1, -1, -1, -1, -1]

/-- The predefined table of offset values. -/
def offsetTable : StateTable :=
  .ofWeights 5 [1, 1, 1, 1, 1, 1, 2, 2, 2, 1, 1, 1, 1, 1, 1, 1, 1, 1, 1, 1, 1, 1, 1, 1, -1, -1, -1,
    -1, -1]

end ChunkedArray.Zstd
