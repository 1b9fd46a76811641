import ChunkedArray.Decimal.Numeral
import ChunkedArray.Text.Utf8

/-!
# JSON documents

A parsed document, one level above its text: numerals stay numerals and strings keep their escapes,
so that a reader can refuse a number out of range or a broken escape exactly where it uses one,
and pass over the values it does not use. `render` writes a document without blanks, with a sign
before every exponent.
-/

namespace ChunkedArray

/-- A JSON document. -/
inductive Json where
  /-- The constant `null`. -/
  | null
  /-- A truth value. -/
  | bool (value : Bool)
  /-- A number, as written. -/
  | number (numeral : Numeral)
  /-- A string: the bytes between its quotes, escapes and all. -/
  | string (raw : List UInt8)
  /-- An array. -/
  | array (items : List Json)
  /-- An object: its members in order, repeated keys included. -/
  | object (members : List (List UInt8 × Json))
deriving Repr

namespace Json

/-- The bytes of an ASCII text. -/
def ascii (s : List Char) : List UInt8 :=
  s.map fun c => UInt8.ofNat c.toNat

/-- Joins the parts with a comma between neighbours. -/
def commaSeparated : List (List UInt8) → List UInt8
  | [] => []
  | [part] => part
  | part :: rest => part ++ 0x2c :: commaSeparated rest

mutual

/-- The text of a document, as bytes. -/
def render : Json → List UInt8
  | null => ascii ['n', 'u', 'l', 'l']
  | bool true => ascii ['t', 'r', 'u', 'e']
  | bool false => ascii ['f', 'a', 'l', 's', 'e']
  | number n => ascii (n.chars true)
  | string raw => 0x22 :: raw ++ [0x22]
  | array items => 0x5b :: commaSeparated (renderItems items) ++ [0x5d]
  | object members => 0x7b :: commaSeparated (renderMembers members) ++ [0x7d]

/-- The texts of the items of an array. -/
def renderItems : List Json → List (List UInt8)
  | [] => []
  | item :: rest => render item :: renderItems rest

/-- The texts of the members of an object. -/
def renderMembers : List (List UInt8 × Json) → List (List UInt8)
  | [] => []
  | (key, item) :: rest => (0x22 :: key ++ 0x22 :: 0x3a :: render item) :: renderMembers rest

end

end Json

end ChunkedArray
