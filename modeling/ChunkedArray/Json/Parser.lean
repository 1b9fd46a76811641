import ChunkedArray.Json.Token

/-!
# Parsing JSON

Token lists to documents. A document is one value and nothing after it; commas stand between items
and nowhere else. Nesting is not limited here: a reader of the document limits it where it looks.
-/

namespace ChunkedArray.Json

mutual

/-- Reads one value; `fuel` bounds the steps taken. -/
def value : (fuel : Nat) → List Token → Option (Json × List Token)
  | _, [] => none
  | 0, _ => none
  | fuel + 1, t :: rest =>
    match t with
    | .null => some (.null, rest)
    | .bool b => some (.bool b, rest)
    | .number n => some (.number n, rest)
    | .string raw => some (.string raw, rest)
    | .openArray =>
      match rest with
      | .closeArray :: rest => some (.array [], rest)
      | _ => items [] fuel rest
    | .openObject =>
      match rest with
      | .closeObject :: rest => some (.object [], rest)
      | _ => members [] fuel rest
    | _ => none

/-- Reads the items of an array up to its closing bracket; the items read so far are in `done`, the
last one first. -/
def items (done : List Json) : (fuel : Nat) → List Token → Option (Json × List Token)
  | 0, _ => none
  | fuel + 1, ts =>
    match value fuel ts with
    | some (item, .comma :: rest) => items (item :: done) fuel rest
    | some (item, .closeArray :: rest) => some (.array (item :: done).reverse, rest)
    | _ => none

/-- Reads the members of an object up to its closing brace; the members read so far are in `done`,
the last one first. -/
def members (done : List (List UInt8 × Json)) : (fuel : Nat) → List Token →
    Option (Json × List Token)
  | 0, _ => none
  | fuel + 1, ts =>
    match ts with
    | .string key :: .colon :: rest =>
      match value fuel rest with
      | some (item, .comma :: rest) => members ((key, item) :: done) fuel rest
      | some (item, .closeObject :: rest) => some (.object ((key, item) :: done).reverse, rest)
      | _ => none
    | _ => none

end

/-- The document of a token list. -/
def ofTokens? (ts : List Token) : Option Json :=
  match value (2 * ts.length + 2) ts with
  | some (j, []) => some j
  | _ => none

/-- The document of a text. -/
def parse? (s : List UInt8) : Option Json :=
  (Token.scan s).bind ofTokens?

end ChunkedArray.Json
