import ChunkedArray.Error
import ChunkedArray.Json.Parser
import ChunkedArray.Text.Blank

/-!
# Reading descriptors

`ofDescriptor` reads back what `descriptor` writes, and a few more spellings of scalars and byte
strings: plain names, leading byte-order marks, blanks around the text. The descriptor of a field is
a text inside the descriptor of its record and shorter than it, so reading needs no more levels than
the text has characters.
-/

namespace ChunkedArray.DType

/-- A packed record with the given fields. -/
def ofFields (pairs : List (String × DType)) : Result DType :=
  if pairs.isEmpty then .error (.dtype .noFields)
  else
    match firstDuplicate? [] (pairs.map Prod.fst) with
    | some name => .error (.dtype (.duplicateField name))
    | none => .ok (.record (packFrom 0 pairs))

/-- The field of a layout with the given name. -/
def field (dtype : DType) (name : String) : Result Field :=
  match dtype.fields.find? fun f => f.name = name with
  | some f => .ok f
  | none => .error (.dtype (.noField dtype name))

/-- A pair of strings. -/
def textPair? : Json → Option (String × String)
  | .array [.string a, .string b] => do
    let a ← Json.text? a
    let b ← Json.text? b
    some (a, b)
  | _ => none

/-- A list of pairs of strings. -/
def textPairs? : Json → Option (List (String × String))
  | .array items => items.mapM textPair?
  | _ => none

/-- A decimal number of 64 bits; one plus sign may come first. -/
def width? (s : List Char) : Option Nat :=
  let ds := match s with
    | '+' :: rest => rest
    | _ => s
  if ds.isEmpty || !ds.all Char.isDigit then none
  else
    let n := Numeral.ofDigits (ds.map fun c => c.toNat - 48)
    if n < 2 ^ 64 then some n else none

/-- Whether a character is a byte-order mark. -/
def isOrderMark (c : Char) : Bool :=
  c == '<' || c == '|' || c == '='

/-- Reads a descriptor that is not a record. -/
def ofAtom? (trimmed : List Char) : Option DType :=
  let body := trimmed.dropWhile isOrderMark
  match ScalarKind.ofTypeName? (String.ofList body) with
  | some kind => some (.scalar kind)
  | none =>
    match body with
    | 'S' :: rest =>
      match width? rest with
      | some n => if 0 < n then some (.bytes n) else none
      | none => none
    | _ => none

/-- Reads a descriptor with at most `levels` records inside each other. -/
def ofDescriptorWithin : (levels : Nat) → String → Result DType
  | 0, descriptor => .error (.dtype (.unrecognized descriptor))
  | levels + 1, descriptor =>
    let trimmed := Text.trim descriptor.toList
    if trimmed.head? = some '[' then
      match (Json.parse? (Utf8.encode (String.ofList trimmed))).bind textPairs? with
      | none => .error (.dtype .malformedRecord)
      | some pairs => do
        let fields ← pairs.mapM fun p => do
          let dtype ← ofDescriptorWithin levels p.2
          pure (p.1, dtype)
        ofFields fields
    else
      match ofAtom? trimmed with
      | some dtype => .ok dtype
      | none => .error (.dtype (.unrecognized descriptor))

/-- The layout that a descriptor describes. -/
def ofDescriptor (descriptor : String) : Result DType :=
  ofDescriptorWithin (descriptor.length + 1) descriptor

end ChunkedArray.DType
