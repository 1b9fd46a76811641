/-!
# UTF-8

Reading text from bytes, with the place and the extent of the first fault. A fault is either a
sequence that no further byte can mend, with the number of bytes it spans, or a sequence that the
end of the input cuts short.
-/

namespace ChunkedArray.Utf8

/-- The first fault of a byte string that is not UTF-8. -/
inductive Fault where
  /-- The `length` bytes at `index` start no character. -/
  | invalid (length index : Nat)
  /-- The input ends inside the character at `index`. -/
  | incomplete (index : Nat)
deriving DecidableEq, Repr

/-- The wording of a fault. -/
def Fault.message : Fault → String
  | .invalid length index => s!"invalid utf-8 sequence of {length} bytes from index {index}"
  | .incomplete index => s!"incomplete utf-8 byte sequence from index {index}"

/-- Bytes that continue a character. -/
def isContinuation (b : UInt8) : Bool := 0x80 ≤ b && b ≤ 0xbf

/-- The second bytes allowed after `lead` in a character of three bytes. -/
def isSecondOfThree (lead b : UInt8) : Bool :=
  if lead == 0xe0 then 0xa0 ≤ b && b ≤ 0xbf
  else if lead == 0xed then 0x80 ≤ b && b ≤ 0x9f
  else isContinuation b

/-- The second bytes allowed after `lead` in a character of four bytes. -/
def isSecondOfFour (lead b : UInt8) : Bool :=
  if lead == 0xf0 then 0x90 ≤ b && b ≤ 0xbf
  else if lead == 0xf4 then 0x80 ≤ b && b ≤ 0x8f
  else isContinuation b

/-- Looks for the first fault, reading the given bytes from position `index` on. -/
def findFault (index : Nat) : List UInt8 → Option Fault
  | [] => none
  | a :: rest =>
    if a < 0x80 then findFault (index + 1) rest
    else if 0xc2 ≤ a && a ≤ 0xdf then
      match rest with
      | [] => some (.incomplete index)
      | b :: rest =>
        if isContinuation b then findFault (index + 2) rest else some (.invalid 1 index)
    else if 0xe0 ≤ a && a ≤ 0xef then
      match rest with
      | [] => some (.incomplete index)
      | b :: rest =>
        if isSecondOfThree a b then
          match rest with
          | [] => some (.incomplete index)
          | c :: rest =>
            if isContinuation c then findFault (index + 3) rest else some (.invalid 2 index)
        else some (.invalid 1 index)
    else if 0xf0 ≤ a && a ≤ 0xf4 then
      match rest with
      | [] => some (.incomplete index)
      | b :: rest =>
        if isSecondOfFour a b then
          match rest with
          | [] => some (.incomplete index)
          | c :: rest =>
            if isContinuation c then
              match rest with
              | [] => some (.incomplete index)
              | d :: rest =>
                if isContinuation d then findFault (index + 4) rest else some (.invalid 3 index)
            else some (.invalid 2 index)
        else some (.invalid 1 index)
    else some (.invalid 1 index)

/-- The text of a byte string, if it is UTF-8. -/
def decode? (b : List UInt8) : Option String :=
  String.fromUTF8? (ByteArray.mk b.toArray)

/-- The text of a byte string, or its first fault. -/
def decode (b : List UInt8) : Except Fault String :=
  match decode? b with
  | some s => .ok s
  | none => .error ((findFault 0 b).getD (.incomplete 0))

/-- The bytes of a text. -/
def encode (s : String) : List UInt8 :=
  s.toUTF8.data.toList

end ChunkedArray.Utf8
