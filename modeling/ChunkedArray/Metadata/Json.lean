import ChunkedArray.Bytes
import ChunkedArray.Error
import ChunkedArray.Json.Reader

/-!
# Metadata values as JSON

A value is written as an object with one member named for its variant; `Null` has no content and is
written as a plain string. A double that is not finite is written as `null` and cannot be read back.
Reading follows nested brackets down to a fixed depth.
-/

namespace ChunkedArray.MetaValue

/-- A double inside JSON is positional from `0.00001` to below `10 ^ 16`. -/
def jsonLayout : FloatLayout := ⟨.toEven, -5, 16⟩

/-- A double as a JSON number, or `null` if it is not finite. -/
def floatJson (bits : UInt64) : Json :=
  if Float64.isFinite bits then .number (jsonLayout.numeral bits) else .null

/-- A value with the name of its variant. -/
def tagged (tag : String) (content : Json) : Json :=
  .object [(Utf8.encode tag, content)]

mutual

/-- A value as a JSON document. -/
def toJson : MetaValue → Json
  | null => Json.ofText "Null"
  | bool b => tagged "Bool" (.bool b)
  | int i => tagged "Int" (Json.ofInt i)
  | float bits => tagged "Float" (floatJson bits)
  | str s => tagged "Str" (Json.ofText s)
  | bytes bs => tagged "Bytes" (.array (bs.map fun b => Json.ofInt b.toNat))
  | list items => tagged "List" (.array (itemsToJson items))
  | map entries => tagged "Map" (.object (entriesToJson entries))

/-- The items of a list as JSON documents. -/
def itemsToJson : List MetaValue → List Json
  | [] => []
  | item :: rest => toJson item :: itemsToJson rest

/-- The entries of a map as members of a JSON object. -/
def entriesToJson : List (String × MetaValue) → List (List UInt8 × Json)
  | [] => []
  | (key, item) :: rest => (Utf8.encode (Json.escape key), toJson item) :: entriesToJson rest

end

/-- A signed integer of 64 bits. -/
def int64? (j : Json) : Option Int :=
  match Json.int? j with
  | some i => if -(2 ^ 63) ≤ i ∧ i < 2 ^ 63 then some i else none
  | none => none

/-- A text. -/
def text? : Json → Option String
  | .string raw => Json.text? raw
  | _ => none

/-- A byte. -/
def byte? (j : Json) : Option UInt8 :=
  (Json.natBelow? (2 ^ 8) j).map UInt8.ofNat

/-- The number of brackets that may be open at once. -/
def maxDepth : Nat := 127

/-- Reads a value with at most `depth` brackets open at once. -/
def ofJson? : (depth : Nat) → Json → Option MetaValue
  | _, .string raw => if Json.text? raw = some "Null" then some null else none
  | depth + 1, .object [(key, content)] =>
    match Json.text? key, content with
    | some "Null", .null => some null
    | some "Bool", content => (Json.bool? content).map bool
    | some "Int", content => (int64? content).map int
    | some "Float", content => (Json.float? content).map float
    | some "Str", content => (text? content).map str
    | some "Bytes", .array items =>
      if depth = 0 then none else (items.mapM byte?).map bytes
    | some "List", .array items =>
      match depth with
      | 0 => none
      | depth + 1 => (items.mapM (ofJson? depth)).map list
    | some "Map", .object members =>
      match depth with
      | 0 => none
      | depth + 1 =>
        (members.mapM fun (m : List UInt8 × Json) => do
          let key ← Json.text? m.1
          let item ← ofJson? depth m.2
          some (key, item)).map fun pairs => map (SortedMap.ofList pairs)
    | _, _ => none
  | _, _ => none

/-- The JSON text of a value. -/
def encode (v : MetaValue) : Bytes :=
  v.toJson.render.toArray

/-- The size of the JSON text of a value; that of a text is found without writing it. -/
def textSize : MetaValue → Nat
  | str s => s.foldl (fun size c => size + Json.escapedSize c) 10
  | v => v.encode.size

/-- The value of a JSON text. -/
def decode (b : Bytes) : Result MetaValue :=
  match (Json.parse? b.toList).bind (ofJson? maxDepth) with
  | some v => .ok v
  | none => .error .json

/-- The axis lengths of a list of non-negative integers. -/
def toShape (v : MetaValue) : Result Shape :=
  match v.asList? with
  | none => .error (.format (.notAList v))
  | some items =>
    items.mapM fun item =>
      match item.asInt? with
      | some (.ofNat n) => .ok n
      | _ => .error (.format (.notAnAxis item))

end ChunkedArray.MetaValue
