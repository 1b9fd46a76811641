import ChunkedArray.Decimal.FloatText
import ChunkedArray.SortedMap
import ChunkedArray.Text.Quoted

/-!
# Metadata values

The values that may be attached to a store under a key: a small dynamic type with nested lists and
maps. `text` shows a value inside a message.
-/

namespace ChunkedArray

/-- A metadata value. -/
inductive MetaValue where
  /-- No value. -/
  | null
  /-- A truth value. -/
  | bool (value : Bool)
  /-- A signed integer of 64 bits. -/
  | int (value : Int)
  /-- A double, given by its bits. -/
  | float (bits : UInt64)
  /-- A text. -/
  | str (value : String)
  /-- A byte string. -/
  | bytes (value : List UInt8)
  /-- A list of values. -/
  | list (items : List MetaValue)
  /-- Values by key, in ascending order of the keys. -/
  | map (entries : List (String × MetaValue))
deriving Repr

namespace MetaValue

/-- The integer, if the value is one. -/
def asInt? : MetaValue → Option Int
  | int i => some i
  | _ => none

/-- The text, if the value is one. -/
def asStr? : MetaValue → Option String
  | str s => some s
  | _ => none

/-- The items, if the value is a list. -/
def asList? : MetaValue → Option (List MetaValue)
  | list items => some items
  | _ => none

/-- The entries, if the value is a map. -/
def asMap? : MetaValue → Option (List (String × MetaValue))
  | map entries => some entries
  | _ => none

mutual

/-- How a value is shown inside a message. -/
def text : MetaValue → String
  | null => "Null"
  | bool b => s!"Bool({b})"
  | int i => s!"Int({i})"
  | float bits => s!"Float({Float64.messageText bits})"
  | str s => s!"Str({Text.quote s})"
  | bytes bs => s!"Bytes({Text.bracketed (bs.map toString)})"
  | list items => s!"List({Text.bracketed (itemTexts items)})"
  | map entries => "Map(\x7b" ++ ", ".intercalate (entryTexts entries) ++ "\x7d)"

/-- The texts of the items of a list. -/
def itemTexts : List MetaValue → List String
  | [] => []
  | item :: rest => text item :: itemTexts rest

/-- The texts of the entries of a map. -/
def entryTexts : List (String × MetaValue) → List String
  | [] => []
  | (key, item) :: rest => s!"{Text.quote key}: {text item}" :: entryTexts rest

end

/-- A shape as a list of integers; an axis is stored as a signed word of 64 bits. -/
def ofShape (shape : List Nat) : MetaValue :=
  list (shape.map fun (n : Nat) => int (Int.bmod (n : Int) (2 ^ 64)))

end MetaValue

end ChunkedArray
