import ChunkedArray.Proofs.Json.Scan

/-!
# How deep documents are nested

A text is as deep as the most brackets and braces that are open at once, counted over its tokens; those
inside strings do not count. For the text of a document that is the depth of the document itself.
-/

namespace ChunkedArray.Json

/-! ## Open brackets -/

namespace Token

/-- How many brackets are open behind a token. -/
def levelAfter (level : Nat) : Token → Nat
  | openArray => level + 1
  | openObject => level + 1
  | closeArray => level - 1
  | closeObject => level - 1
  | _ => level

/-- The most brackets that are open at once in a row of tokens, with `level` of them open in front. -/
def peak (level : Nat) : List Token → Nat
  | [] => level
  | t :: rest => max level (peak (t.levelAfter level) rest)

theorem le_peak (level : Nat) (ts : List Token) : level ≤ peak level ts := by
  cases ts with
  | nil => exact Nat.le_refl level
  | cons t rest => exact Nat.le_max_left _ _

/-- Tokens that close what they open, and open at most `depth` brackets at once. -/
def Opens (ts : List Token) (depth : Nat) : Prop :=
  ∀ level rest, peak level (ts ++ rest) = max (level + depth) (peak level rest)

theorem opens_nil : Opens [] 0 :=
  fun level rest => (Nat.max_eq_right (le_peak level rest)).symm

theorem opens_singleton {t : Token} (h : ∀ level, t.levelAfter level = level) : Opens [t] 0 := by
  intro level rest
  rw [List.singleton_append, peak, h, Nat.add_zero]

theorem Opens.append {ts ts' : List Token} {depth depth' : Nat} (h : Opens ts depth)
    (h' : Opens ts' depth') : Opens (ts ++ ts') (max depth depth') := by
  intro level rest
  rw [List.append_assoc, h, h', ← Nat.max_assoc, Nat.add_max_add_left]

/-- A token that is no bracket changes nothing. -/
theorem Opens.cons {t : Token} {ts : List Token} {depth : Nat} (h : Opens ts depth)
    (ht : ∀ level, t.levelAfter level = level) : Opens (t :: ts) depth := by
  simpa using (opens_singleton ht).append h

/-- A pair of brackets around tokens is one more. -/
theorem Opens.bracketed {t t' : Token} {ts : List Token} {depth : Nat} (h : Opens ts depth)
    (ht : ∀ level, t.levelAfter level = level + 1) (ht' : ∀ level, t'.levelAfter (level + 1) = level) :
    Opens (t :: ts ++ [t']) (depth + 1) := by
  intro level rest
  have hpeak := le_peak level rest
  rw [List.append_assoc, List.cons_append, peak, ht, h, List.singleton_append, peak, ht']
  omega

end Token

/-- The most brackets that are open at once in a text. -/
def openBrackets (text : List UInt8) : Nat :=
  ((Token.scan text).map (Token.peak 0)).getD 0

/-! ## Depth -/

mutual

/-- The depth of a document: how many arrays and objects lie inside each other. -/
def nesting : Json → Nat
  | null => 0
  | bool _ => 0
  | number _ => 0
  | string _ => 0
  | array items => itemsNesting items + 1
  | object members => membersNesting members + 1

/-- The depth of the deepest item. -/
def itemsNesting : List Json → Nat
  | [] => 0
  | item :: rest => max (nesting item) (itemsNesting rest)

/-- The depth of the deepest member. -/
def membersNesting : List (List UInt8 × Json) → Nat
  | [] => 0
  | (_, item) :: rest => max (nesting item) (membersNesting rest)

end

theorem itemsNesting_le_iff {items : List Json} {depth : Nat} :
    itemsNesting items ≤ depth ↔ ∀ item ∈ items, item.nesting ≤ depth := by
  induction items with
  | nil => simp [itemsNesting]
  | cons item rest ih => rw [itemsNesting, Nat.max_le, ih, List.forall_mem_cons]

theorem membersNesting_le_iff {members : List (List UInt8 × Json)} {depth : Nat} :
    membersNesting members ≤ depth ↔ ∀ m ∈ members, m.2.nesting ≤ depth := by
  induction members with
  | nil => simp [membersNesting]
  | cons m rest ih => rw [membersNesting, Nat.max_le, ih, List.forall_mem_cons]

open Token

theorem opens_items {items : List Json} (h : ∀ item ∈ items, Opens (tokens item) item.nesting) :
    Opens (itemTokens items) (itemsNesting items) := by
  induction items with
  | nil => exact opens_nil
  | cons item rest ih =>
    obtain ⟨hitem, hrest⟩ := List.forall_mem_cons.1 h
    cases rest with
    | nil => simpa [itemTokens, itemsNesting] using hitem
    | cons next rest => exact hitem.append ((ih hrest).cons fun _ => rfl)

theorem opens_members {members : List (List UInt8 × Json)}
    (h : ∀ m ∈ members, Opens (tokens m.2) m.2.nesting) :
    Opens (memberTokens members) (membersNesting members) := by
  induction members with
  | nil => exact opens_nil
  | cons m rest ih =>
    obtain ⟨key, item⟩ := m
    obtain ⟨hitem, hrest⟩ := List.forall_mem_cons.1 h
    have hhead : Opens (.string key :: .colon :: tokens item) item.nesting :=
      (hitem.cons fun _ => rfl).cons fun _ => rfl
    cases rest with
    | nil => simpa [memberTokens, membersNesting] using hhead
    | cons next rest => exact hhead.append ((ih hrest).cons fun _ => rfl)

/-- The tokens of a document open as many brackets at once as the document is deep. -/
theorem opens_tokens {j : Json} (h : Printable j) : Opens (tokens j) j.nesting := by
  induction h with
  | null => exact opens_singleton fun _ => rfl
  | bool b => exact opens_singleton fun _ => rfl
  | number _ => exact opens_singleton fun _ => rfl
  | string _ => exact opens_singleton fun _ => rfl
  | array _ ih => exact (opens_items ih).bracketed (fun _ => rfl) fun _ => rfl
  | object _ _ ih => exact (opens_members ih).bracketed (fun _ => rfl) fun _ => rfl

/-- The text of a document is as deep as the document. -/
theorem openBrackets_render {j : Json} (h : Printable j) : openBrackets (render j) = j.nesting := by
  have hpeak := opens_tokens h 0 []
  rw [List.append_nil] at hpeak
  rw [openBrackets, scan_render h, Option.map_some, Option.getD_some, hpeak, peak]
  omega

end ChunkedArray.Json
