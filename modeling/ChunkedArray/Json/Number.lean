import ChunkedArray.Json.Value

/-!
# Values of JSON numbers

A numeral without point and exponent is an integer if it fits 64 bits, with a sign or without; every
other numeral is a double. A double is computed from the digits that fit 64 bits and a power of ten,
with one multiplication or division for each step of at most 308 places. The result may differ from
the nearest double in its last bit; it is out of range when it would be infinite.
-/

namespace ChunkedArray.Json

/-- The value of a numeral. -/
inductive Number where
  /-- An integer in the range of a 64-bit word, with or without sign. -/
  | int (value : Int)
  /-- The bits of a double. -/
  | float (bits : UInt64)
deriving DecidableEq, Repr

namespace Number

/-- Adds a digit if the result still fits a 64-bit word. -/
def push? (significand d : Nat) : Option Nat :=
  if 10 * significand + d < 2 ^ 64 then some (10 * significand + d) else none

/-- Reads the digits before the point. Once a digit does not fit, it and all later ones only raise
the exponent. -/
def wholeDigits (significand : Nat) : List Nat → Nat × Nat
  | [] => (significand, 0)
  | d :: rest =>
    match push? significand d with
    | some significand => wholeDigits significand rest
    | none => (significand, rest.length + 1)

/-- Reads the digits after the point up to the first that does not fit. Gives the significand and
the number of places read. -/
def fractionDigits (significand places : Nat) : List Nat → Nat × Nat
  | [] => (significand, places)
  | d :: rest =>
    match push? significand d with
    | some significand => fractionDigits significand (places + 1) rest
    | none => (significand, places)

/-- A power of ten as a double. -/
def powerOfTen (n : Nat) : Float :=
  Float.ofScientific 1 false n

/-- Divides by a power of ten, 308 places at a time; `fuel` bounds the steps, and nothing nonzero
is left after three. -/
def shrink (x : Float) : (fuel : Nat) → (places : Nat) → Float
  | 0, _ => 0
  | fuel + 1, places =>
    if places ≤ 308 then x / powerOfTen places
    else if x == 0 then x
    else shrink (x / powerOfTen 308) fuel (places - 308)

/-- Scales a significand by a power of ten; `none` if the result is infinite. -/
def scale? (significand : Nat) (exponent : Int) : Option Float :=
  let x := (UInt64.ofNat significand).toFloat
  if 0 ≤ exponent then
    if exponent ≤ 308 then
      let y := x * powerOfTen exponent.toNat
      if y.isInf then none else some y
    else if x == 0 then some x
    else none
  else some (shrink x 8 exponent.natAbs)

/-- The double of a numeral, its sign applied last. -/
def floatOf? (n : Numeral) : Option Number :=
  let (significand, raised) := wholeDigits 0 n.whole
  let (significand, places) := fractionDigits significand 0 n.fraction
  let exponent : Int := raised - places + n.exponent.getD 0
  (scale? significand exponent).map fun x => .float (if n.negative then -x else x).toBits

/-- The value of a numeral; `none` if it is out of range. Minus zero is a double. -/
def ofNumeral? (n : Numeral) : Option Number :=
  if n.fraction.isEmpty && n.exponent.isNone then
    let magnitude := Numeral.ofDigits n.whole
    if n.negative then
      if 0 < magnitude ∧ magnitude ≤ 2 ^ 63 then some (.int (-(magnitude : Int))) else floatOf? n
    else if magnitude < 2 ^ 64 then some (.int magnitude)
    else floatOf? n
  else floatOf? n

end Number

/-- The integer of a document that is one. -/
def int? : Json → Option Int
  | .number n =>
    match Number.ofNumeral? n with
    | some (.int i) => some i
    | _ => none
  | _ => none

/-- The natural number below `bound` of a document that is one. -/
def natBelow? (bound : Nat) (j : Json) : Option Nat :=
  match int? j with
  | some (.ofNat n) => if n < bound then some n else none
  | _ => none

/-- The bits of the double of a document that is a number; integers count as doubles. -/
def float? : Json → Option UInt64
  | .number n =>
    match Number.ofNumeral? n with
    | some (.int i) =>
      some (if i < 0 then -(UInt64.ofNat i.natAbs).toFloat else (UInt64.ofNat i.natAbs).toFloat).toBits
    | some (.float bits) => some bits
    | none => none
  | _ => none

/-- The truth value of a document that is one. -/
def bool? : Json → Option Bool
  | .bool b => some b
  | _ => none

/-- An integer as a document. -/
def ofInt (i : Int) : Json :=
  .number (Numeral.ofInt i)

end ChunkedArray.Json
