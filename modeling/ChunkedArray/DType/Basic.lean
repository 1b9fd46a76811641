import ChunkedArray.Json.Text
import ChunkedArray.Scalar.Kind

/-!
# Item layouts

A layout says how one item of an array is stored: as a scalar, as a byte string of fixed width, or
as a record of named fields at byte offsets. Its descriptor is a short text: the type string of a
scalar, `|S` and a width, or a JSON list of name and descriptor pairs for a record.
-/

namespace ChunkedArray

/-- A named member of a record. -/
structure FieldOf (α : Type) where
  /-- The name, unique within its record. -/
  name : String
  /-- The layout of the member. -/
  dtype : α
  /-- The position of the member's first byte inside the item. -/
  offset : Nat
deriving Repr

/-- The layout of one item. -/
inductive DType where
  /-- A number or truth value. -/
  | scalar (kind : ScalarKind)
  /-- Raw bytes of fixed width. -/
  | bytes (width : Nat)
  /-- Named fields at byte offsets. -/
  | record (fields : List (FieldOf DType))
deriving Repr

/-- A field of a record layout. -/
abbrev Field := FieldOf DType

namespace DType

mutual

/-- The size of one item in bytes. -/
def itemsize : DType → Nat
  | scalar kind => kind.itemsize
  | bytes width => width
  | record fields => extent fields

/-- The end of the field that reaches farthest. -/
def extent : List Field → Nat
  | [] => 0
  | ⟨_, dtype, offset⟩ :: rest => max (offset + itemsize dtype) (extent rest)

end

/-- The scalar kind of a layout that takes part in arithmetic. -/
def scalarKind? : DType → Option ScalarKind
  | scalar kind => some kind
  | _ => none

/-- The fields of a record; none for any other layout. -/
def fields : DType → List Field
  | record fields => fields
  | _ => []

/-- A text between quotes, with the escapes of JSON. -/
def quoted (s : String) : String :=
  "\"" ++ Json.escape s ++ "\""

mutual

/-- The text that describes a layout. -/
def descriptor : DType → String
  | scalar kind => kind.typeString
  | bytes width => s!"|S{width}"
  | record fields => "[" ++ ",".intercalate (fieldDescriptors fields) ++ "]"

/-- The name and descriptor pairs of the fields of a record. -/
def fieldDescriptors : List Field → List String
  | [] => []
  | ⟨name, dtype, _⟩ :: rest =>
    ("[" ++ quoted name ++ "," ++ quoted (descriptor dtype) ++ "]") :: fieldDescriptors rest

end

/-- Lays fields out back to back from `offset` on. -/
def packFrom (offset : Nat) : List (String × DType) → List Field
  | [] => []
  | (name, dtype) :: rest => ⟨name, dtype, offset⟩ :: packFrom (offset + dtype.itemsize) rest

/-- The first name that occurs earlier in the list too; the names before the list are in `seen`. -/
def firstDuplicate? (seen : List String) : List String → Option String
  | [] => none
  | name :: rest => if name ∈ seen then some name else firstDuplicate? (name :: seen) rest

theorem le_extent {list : List Field} {f : Field} (h : f ∈ list) :
    f.offset + f.dtype.itemsize ≤ extent list := by
  induction list with
  | nil => cases h
  | cons first rest ih =>
    rw [extent]
    cases h with
    | head => exact Nat.le_max_left _ _
    | tail _ hrest => exact Nat.le_trans (ih hrest) (Nat.le_max_right _ _)

/-- A field of a record ends inside of its items. -/
theorem end_le_itemsize {dtype : DType} {field : Field} (h : field ∈ dtype.fields) :
    field.offset + field.dtype.itemsize ≤ dtype.itemsize := by
  cases dtype with
  | record fields =>
    rw [itemsize]
    exact le_extent h
  | _ => cases h

@[simp] theorem length_packFrom (offset : Nat) (pairs : List (String × DType)) :
    (packFrom offset pairs).length = pairs.length := by
  induction pairs generalizing offset with
  | nil => rfl
  | cons p rest ih => simp [packFrom, ih]

end DType

end ChunkedArray
