import ChunkedArray.Json.Number
import ChunkedArray.Json.Parser

/-!
# Reading structures from JSON

A structure is read from an object by member name or from an array by position. A repeated name is
refused, an unknown one is passed over together with its value, and missing members are left to the
reader of the structure. The name of a variant is a string, or the key of an object whose only value
is `null`.
-/

namespace ChunkedArray.Json

/-- The members found so far, by position of their name. -/
abbrev Slots := List (Option Json)

/-- Fills the slot of a name; `none` if it is filled already. Unknown names change nothing. -/
def fillSlot (key : String) (item : Json) : List String → Slots → Option Slots
  | name :: names, slot :: slots =>
    if name = key then
      match slot with
      | none => some (some item :: slots)
      | some _ => none
    else (fillSlot key item names slots).map (slot :: ·)
  | _, slots => some slots

/-- Sorts the members of an object into the slots of the given names. -/
def fillSlots (names : List String) (slots : Slots) : List (List UInt8 × Json) → Option Slots
  | [] => some slots
  | (raw, item) :: rest =>
    match text? raw with
    | none => none
    | some key =>
      match fillSlot key item names slots with
      | none => none
      | some slots => fillSlots names slots rest

/-- The members of a structure in the order of the given names. -/
def structure? (names : List String) : Json → Option Slots
  | .object members => fillSlots names (names.map fun _ => none) members
  | .array items =>
    if names.length < items.length then none
    else some (items.map some ++ List.replicate (names.length - items.length) none)
  | _ => none

/-- A member with a default for its absence. -/
def orDefault {α : Type} (default : α) (read : Json → Option α) : Option Json → Option α
  | none => some default
  | some item => read item

/-- A value that may be `null`. -/
def nullable {α : Type} (read : Json → Option α) : Json → Option (Option α)
  | .null => some none
  | item => (read item).map some

/-- A list of values. -/
def list? {α : Type} (read : Json → Option α) : Json → Option (List α)
  | .array items => items.mapM read
  | _ => none

/-- The name of a variant without content. -/
def variantName? : Json → Option String
  | .string raw => text? raw
  | .object [(raw, .null)] => text? raw
  | _ => none

end ChunkedArray.Json
