/-!
# Maps sorted by key

Association lists in strictly ascending order of their keys, compared by code point. The order is
what a listing shows; an insertion replaces the value of a key already present.
-/

namespace ChunkedArray

/-- An association list that the operations below keep sorted by key. -/
abbrev SortedMap (α : Type) := List (String × α)

namespace SortedMap

variable {α : Type}

/-- The value of a key. -/
def find? (m : SortedMap α) (key : String) : Option α :=
  match m with
  | [] => none
  | (k, v) :: rest => if k = key then some v else find? rest key

/-- Sets the value of a key. -/
def insert (m : SortedMap α) (key : String) (value : α) : SortedMap α :=
  match m with
  | [] => [(key, value)]
  | (k, v) :: rest =>
    if key < k then (key, value) :: (k, v) :: rest
    else if key = k then (key, value) :: rest
    else (k, v) :: insert rest key value

/-- A map from pairs; of several pairs with one key the last counts. -/
def ofList (pairs : List (String × α)) : SortedMap α :=
  pairs.foldl (fun m p => m.insert p.1 p.2) []

/-- The keys in order. -/
def keys (m : SortedMap α) : List String :=
  m.map Prod.fst

theorem find?_insert_self (m : SortedMap α) (key : String) (value : α) :
    (m.insert key value).find? key = some value := by
  induction m with
  | nil => simp [insert, find?]
  | cons p rest ih =>
    obtain ⟨k, v⟩ := p
    simp only [insert]
    split
    · simp [find?]
    · split
      · simp [find?]
      · rename_i h
        rw [find?, if_neg (fun e => h e.symm), ih]

theorem find?_insert_ne (m : SortedMap α) {key other : String} (value : α) (h : other ≠ key) :
    (m.insert key value).find? other = m.find? other := by
  induction m with
  | nil => simp [insert, find?, Ne.symm h]
  | cons p rest ih =>
    obtain ⟨k, v⟩ := p
    simp only [insert]
    split
    · simp [find?, Ne.symm h]
    · split
      · rename_i he
        subst he
        simp [find?, Ne.symm h]
      · simp only [find?, ih]

end SortedMap

end ChunkedArray
