import ChunkedArray.Json.Value

/-!
# Strings inside JSON

`escape` writes a text for use between quotes: a quote, a backslash and every control character are
escaped, all else stands for itself. `text?` reads the bytes between quotes back; it refuses lone
surrogates and bytes that are not UTF-8.
-/

namespace ChunkedArray.Json

/-- The low digits of a number in lower-case hexadecimal, most significant first. -/
def hexByte (n : Nat) : List Char :=
  [Nat.digitChar (n / 16 % 16), Nat.digitChar (n % 16)]

/-- The spelling of one character between quotes. -/
def escapeChar (c : Char) : List Char :=
  if c = '"' then ['\\', '"']
  else if c = '\\' then ['\\', '\\']
  else if c.toNat = 0x08 then ['\\', 'b']
  else if c.toNat = 0x09 then ['\\', 't']
  else if c.toNat = 0x0a then ['\\', 'n']
  else if c.toNat = 0x0c then ['\\', 'f']
  else if c.toNat = 0x0d then ['\\', 'r']
  else if c.toNat < 0x20 then ['\\', 'u', '0', '0'] ++ hexByte c.toNat
  else [c]

/-- The size of the spelling of a character in bytes. -/
def escapedSize (c : Char) : Nat :=
  if c = '"' ∨ c = '\\' then 2
  else if c.toNat < 0x20 then
    if c.toNat = 0x08 ∨ c.toNat = 0x09 ∨ c.toNat = 0x0a ∨ c.toNat = 0x0c ∨ c.toNat = 0x0d then 2 else 6
  else c.utf8Size

/-- The spelling of a text between quotes. -/
def escape (s : String) : String :=
  String.ofList (s.toList.flatMap escapeChar)

/-- A text as a string of a document. -/
def ofText (s : String) : Json :=
  .string (Utf8.encode (escape s))

/-- The value of a hexadecimal digit. -/
def hexValue? (b : UInt8) : Option Nat :=
  if 0x30 ≤ b ∧ b ≤ 0x39 then some (b.toNat - 0x30)
  else if 0x61 ≤ b ∧ b ≤ 0x66 then some (b.toNat - 0x57)
  else if 0x41 ≤ b ∧ b ≤ 0x46 then some (b.toNat - 0x37)
  else none

/-- The value of four hexadecimal digits. -/
def hexQuad? (a b c d : UInt8) : Option Nat := do
  let a ← hexValue? a
  let b ← hexValue? b
  let c ← hexValue? c
  let d ← hexValue? d
  some (((a * 16 + b) * 16 + c) * 16 + d)

/-- The byte that a one-letter escape stands for. -/
def shortEscape? (b : UInt8) : Option UInt8 :=
  if b = 0x22 ∨ b = 0x5c ∨ b = 0x2f then some b
  else if b = 0x62 then some 0x08
  else if b = 0x66 then some 0x0c
  else if b = 0x6e then some 0x0a
  else if b = 0x72 then some 0x0d
  else if b = 0x74 then some 0x09
  else none

/-- The UTF-8 bytes of a code point that is not a surrogate. -/
def codePointBytes (n : Nat) : List UInt8 :=
  Utf8.encode (Char.ofNat n).toString

/-- Resolves the escapes; `none` on a lone surrogate or a broken escape. The resolved bytes are
collected in reverse in `done`. -/
def unescape (done : List UInt8) : List UInt8 → Option (List UInt8)
  | [] => some done.reverse
  | 0x5c :: 0x75 :: a :: b :: c :: d :: rest =>
    match hexQuad? a b c d with
    | none => none
    | some n =>
      if n < 0xd800 ∨ 0xdfff < n then unescape ((codePointBytes n).reverse ++ done) rest
      else if 0xdc00 ≤ n then none
      else
        match rest with
        | 0x5c :: 0x75 :: e :: f :: g :: h :: rest =>
          match hexQuad? e f g h with
          | none => none
          | some m =>
            if 0xdc00 ≤ m ∧ m ≤ 0xdfff then
              let n := (n - 0xd800) * 0x400 + (m - 0xdc00) + 0x10000
              unescape ((codePointBytes n).reverse ++ done) rest
            else none
        | _ => none
  | 0x5c :: b :: rest =>
    match shortEscape? b with
    | some b => unescape (b :: done) rest
    | none => none
  | b :: rest => unescape (b :: done) rest

/-- The text of the bytes between quotes. -/
def text? (raw : List UInt8) : Option String :=
  (unescape [] raw).bind Utf8.decode?

end ChunkedArray.Json
