/-!
# Hexadecimal text

Numbers and byte strings in lower-case hexadecimal digits. A byte string takes two digits for every
byte; reading it back accepts upper-case digits too.
-/

namespace ChunkedArray.Text

/-- The digit for a number below 16. -/
def hexDigit (n : Nat) : Char :=
  Char.ofNat (if n < 10 then 48 + n else 87 + n)

/-- The number of a digit in either case. -/
def hexValue? (c : Char) : Option Nat :=
  if '0' ≤ c ∧ c ≤ '9' then some (c.toNat - 48)
  else if 'a' ≤ c ∧ c ≤ 'f' then some (c.toNat - 87)
  else if 'A' ≤ c ∧ c ≤ 'F' then some (c.toNat - 55)
  else none

/-- A number in a fixed number of digits; higher digits are left out. -/
def fixedHex (n : Nat) : (digits : Nat) → String
  | 0 => ""
  | digits + 1 => (fixedHex (n / 16) digits).push (hexDigit (n % 16))

/-- The number that digits stand for. -/
def ofHex? (digits : List Char) : Option Nat :=
  digits.foldlM (fun n c => (hexValue? c).map (16 * n + ·)) 0

/-- A byte string in digits. -/
def hexOfBytes (b : Array UInt8) : String :=
  b.foldl (fun s x => (s.push (hexDigit (x.toNat / 16))).push (hexDigit (x.toNat % 16))) ""

/-- The byte string behind `done` that pairs of digits stand for. -/
def bytesOfHex? (done : Array UInt8) : List Char → Option (Array UInt8)
  | [] => some done
  | [_] => none
  | x :: y :: rest => do
    let high ← hexValue? x
    let low ← hexValue? y
    bytesOfHex? (done.push (UInt8.ofNat (16 * high + low))) rest

theorem hexValue?_hexDigit (n : Nat) (h : n < 16) : hexValue? (hexDigit n) = some n := by
  have : ∀ n : Fin 16, hexValue? (hexDigit n) = some n.val := by decide
  exact this ⟨n, h⟩

end ChunkedArray.Text
