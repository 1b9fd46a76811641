import ChunkedArray.Arithmetic

/-!
# Decimal numerals

A written decimal number: a sign, the digits before and after the point, and an exponent of ten.
A numeral is text, not a value: `1.0`, `1` and `1e0` are three numerals.
-/

namespace ChunkedArray

/-- A decimal number as it is written. An empty fraction stands for no point at all. -/
structure Numeral where
  /-- Whether a minus sign comes first. -/
  negative : Bool
  /-- The digits before the point, most significant first. -/
  whole : List Nat
  /-- The digits after the point. -/
  fraction : List Nat
  /-- The exponent of ten, if one is written. -/
  exponent : Option Int
deriving DecidableEq, Repr

namespace Numeral

/-- The decimal digits of a number, most significant first, without leading zeros. -/
def digits (n : Nat) : List Nat :=
  (Nat.toDigits 10 n).map fun c => c.toNat - 48

/-- The number with the given digits. -/
def ofDigits (ds : List Nat) : Nat :=
  ds.foldl (fun n d => 10 * n + d) 0

/-- The character of a digit. -/
def digitChar (d : Nat) : Char :=
  Char.ofNat (48 + d)

/-- The numeral of an integer. -/
def ofInt (i : Int) : Numeral :=
  ⟨decide (i < 0), digits i.natAbs, [], none⟩

/-- The text of an integer. -/
def intChars (i : Int) : List Char :=
  (if i < 0 then ['-'] else []) ++ (digits i.natAbs).map digitChar

/-- The text of an exponent; `plus` says whether a sign also stands before a positive one. -/
def exponentChars (plus : Bool) (e : Int) : List Char :=
  (if plus && 0 ≤ e then ['+'] else []) ++ intChars e

/-- The text of a numeral; `plus` says whether a positive exponent has a sign. -/
def chars (plus : Bool) (n : Numeral) : List Char :=
  (if n.negative then ['-'] else []) ++ n.whole.map digitChar ++
    (if n.fraction.isEmpty then [] else '.' :: n.fraction.map digitChar) ++
    (match n.exponent with
      | none => []
      | some e => 'e' :: exponentChars plus e)

/-- The text of a numeral as a string. -/
def text (plus : Bool) (n : Numeral) : String :=
  String.ofList (n.chars plus)

end Numeral

end ChunkedArray
