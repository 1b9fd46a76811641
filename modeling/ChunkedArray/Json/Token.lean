import ChunkedArray.Json.Text

/-!
# Tokens of JSON

A document's text is first cut into tokens. Blanks separate tokens and are dropped; a string token
holds only well-formed escapes and no control character; a number has no leading zeros and at least
one digit wherever digits are due.
-/

namespace ChunkedArray.Json

/-- A token of a JSON text. -/
inductive Token where
  /-- An opening bracket. -/
  | openArray
  /-- A closing bracket. -/
  | closeArray
  /-- An opening brace. -/
  | openObject
  /-- A closing brace. -/
  | closeObject
  /-- A comma. -/
  | comma
  /-- A colon. -/
  | colon
  /-- The word `null`. -/
  | null
  /-- One of the words `true` and `false`. -/
  | bool (value : Bool)
  /-- A number. -/
  | number (numeral : Numeral)
  /-- A string, given by the bytes between its quotes. -/
  | string (raw : List UInt8)
deriving Repr

namespace Token

/-- Whether a byte separates tokens. -/
def isBlank (b : UInt8) : Bool :=
  b == 0x20 || b == 0x0a || b == 0x0d || b == 0x09

/-- Whether a byte is a decimal digit. -/
def isDigit (b : UInt8) : Bool :=
  0x30 ≤ b && b ≤ 0x39

/-- Reads a string up to its closing quote; the bytes read are collected in reverse in `done`. -/
def stringBody (done : List UInt8) : List UInt8 → Option (List UInt8 × List UInt8)
  | [] => none
  | 0x22 :: rest => some (done.reverse, rest)
  | 0x5c :: 0x75 :: a :: b :: c :: d :: rest =>
    if (hexQuad? a b c d).isSome then
      stringBody (d :: c :: b :: a :: 0x75 :: 0x5c :: done) rest
    else none
  | 0x5c :: b :: rest =>
    if (shortEscape? b).isSome then stringBody (b :: 0x5c :: done) rest else none
  | b :: rest => if b < 0x20 ∨ b = 0x5c then none else stringBody (b :: done) rest

/-- The digits at the front of a text, and the rest of it. -/
def digitRun (s : List UInt8) : List Nat × List UInt8 :=
  ((s.takeWhile isDigit).map fun b => b.toNat - 0x30, s.dropWhile isDigit)

/-- Reads the digits before the point: a single zero, or digits without a leading zero. -/
def wholePart (s : List UInt8) : Option (List Nat × List UInt8) :=
  match digitRun s with
  | ([], _) => none
  | (0 :: _ :: _, _) => none
  | part => some part

/-- Reads the point and the digits after it, if there is a point. -/
def fractionPart (s : List UInt8) : Option (List Nat × List UInt8) :=
  match s with
  | 0x2e :: rest =>
    match digitRun rest with
    | ([], _) => none
    | part => some part
  | _ => some ([], s)

/-- Reads the sign of an exponent. -/
def exponentSign (s : List UInt8) : Bool × List UInt8 :=
  match s with
  | 0x2b :: rest => (false, rest)
  | 0x2d :: rest => (true, rest)
  | _ => (false, s)

/-- Reads the exponent, if there is one. -/
def exponentPart (s : List UInt8) : Option (Option Int × List UInt8) :=
  match s with
  | [] => some (none, [])
  | b :: rest =>
    if b = 0x65 ∨ b = 0x45 then
      let (negative, rest) := exponentSign rest
      match digitRun rest with
      | ([], _) => none
      | (ds, rest) =>
        let n : Int := Numeral.ofDigits ds
        some (some (if negative then -n else n), rest)
    else some (none, s)

/-- Reads a number after its sign. -/
def numeral (negative : Bool) (s : List UInt8) : Option (Token × List UInt8) := do
  let (whole, s) ← wholePart s
  let (fraction, s) ← fractionPart s
  let (exponent, s) ← exponentPart s
  some (.number ⟨negative, whole, fraction, exponent⟩, s)

/-- Reads the rest of a word. -/
def word (t : Token) (expected : List Char) (s : List UInt8) : Option (Token × List UInt8) :=
  if ascii expected <+: s then some (t, s.drop expected.length) else none

/-- Reads the token that starts with byte `b`; `rest` is what follows that byte. -/
def next (b : UInt8) (rest : List UInt8) : Option (Token × List UInt8) :=
  if b = 0x5b then some (.openArray, rest)
  else if b = 0x5d then some (.closeArray, rest)
  else if b = 0x7b then some (.openObject, rest)
  else if b = 0x7d then some (.closeObject, rest)
  else if b = 0x2c then some (.comma, rest)
  else if b = 0x3a then some (.colon, rest)
  else if b = 0x22 then (stringBody [] rest).map fun p => (.string p.1, p.2)
  else if b = 0x6e then word .null ['u', 'l', 'l'] rest
  else if b = 0x74 then word (.bool true) ['r', 'u', 'e'] rest
  else if b = 0x66 then word (.bool false) ['a', 'l', 's', 'e'] rest
  else if b = 0x2d then numeral true rest
  else if isDigit b then numeral false (b :: rest)
  else none

/-- Cuts a text into at most `limit` tokens and blanks; the tokens read so far are in `done`. -/
def scanFrom (done : Array Token) : (limit : Nat) → List UInt8 → Option (List Token)
  | _, [] => some done.toList
  | 0, _ :: _ => none
  | limit + 1, b :: rest =>
    if isBlank b then scanFrom done limit rest
    else
      match next b rest with
      | some (t, rest) => scanFrom (done.push t) limit rest
      | none => none

/-- The tokens of a text; every token takes at least one byte. -/
def scan (s : List UInt8) : Option (List Token) :=
  scanFrom #[] s.length s

end Token

end ChunkedArray.Json
