import ChunkedArray.Json.Reader
import ChunkedArray.Proofs.Json.Scan

/-!
# Rendered documents read back

The parser takes a document off the front of its tokens, with twice as much fuel as there are tokens:
one unit for the document itself and one for every step from item to item. So every printable
document is what its text is parsed to, and integers, texts and names read back from it.
-/

namespace ChunkedArray.Json

/-! ## Parsing -/

/-- A value starts with no closing bracket. -/
theorem tokens_eq_cons (j : Json) :
    ∃ t ts, tokens j = t :: ts ∧ t ≠ .closeArray ∧ t ≠ .closeObject := by
  cases j <;> exact ⟨_, _, rfl, by simp, by simp⟩

/-- The parser takes a document off the front of its tokens. -/
def Parses (j : Json) : Prop :=
  ∀ fuel rest, 2 * (tokens j).length ≤ fuel → value fuel (tokens j ++ rest) = some (j, rest)

theorem parses_atom {j : Json} {t : Token} (htokens : tokens j = [t])
    (h : ∀ fuel rest, value (fuel + 1) (t :: rest) = some (j, rest)) : Parses j := by
  intro fuel rest hfuel
  rw [htokens] at hfuel ⊢
  obtain ⟨fuel, rfl⟩ : ∃ k, fuel = k + 1 := ⟨fuel - 1, by simp at hfuel; omega⟩
  exact h fuel rest

/-- Items are taken up to the closing bracket. -/
theorem items_itemTokens {all : List Json} (hne : all ≠ []) (h : ∀ item ∈ all, Parses item)
    (done : List Json) (fuel : Nat) (rest : List Token)
    (hfuel : 2 * (itemTokens all).length + 1 ≤ fuel) :
    items done fuel (itemTokens all ++ .closeArray :: rest) =
      some (.array (done.reverse ++ all), rest) := by
  -- On the items left. A step takes one unit of fuel and one token at least, so the fuel lasts.
  induction all generalizing done fuel with
  | nil => exact absurd rfl hne
  | cons item others ih =>
    obtain ⟨fuel, rfl⟩ : ∃ k, fuel = k + 1 := ⟨fuel - 1, by omega⟩
    have hitem := h item List.mem_cons_self
    cases others with
    | nil =>
      rw [itemTokens] at hfuel ⊢
      rw [items, hitem fuel _ (by omega)]
      simp
    | cons next others =>
      have hlength : (itemTokens (item :: next :: others)).length =
          (tokens item).length + (itemTokens (next :: others)).length + 1 := by
        simp [itemTokens]
        omega
      rw [hlength] at hfuel
      rw [itemTokens, List.append_assoc, items, hitem fuel _ (by omega)]
      simp only [List.cons_append]
      rw [ih (by simp) (fun item' hitem' => h item' (List.mem_cons_of_mem _ hitem')) _ _ (by omega)]
      simp

/-- Members are taken up to the closing brace. -/
theorem members_memberTokens {all : List (List UInt8 × Json)} (hne : all ≠ [])
    (h : ∀ m ∈ all, Parses m.2) (done : List (List UInt8 × Json)) (fuel : Nat) (rest : List Token)
    (hfuel : 2 * (memberTokens all).length + 1 ≤ fuel) :
    members done fuel (memberTokens all ++ .closeObject :: rest) =
      some (.object (done.reverse ++ all), rest) := by
  -- On the members left. A step takes one unit of fuel and one token at least, so the fuel lasts.
  induction all generalizing done fuel with
  | nil => exact absurd rfl hne
  | cons m others ih =>
    obtain ⟨key, item⟩ := m
    obtain ⟨fuel, rfl⟩ : ∃ k, fuel = k + 1 := ⟨fuel - 1, by omega⟩
    have hitem : Parses item := h (key, item) List.mem_cons_self
    cases others with
    | nil =>
      simp only [memberTokens, List.length_cons] at hfuel
      simp only [memberTokens, List.cons_append, members]
      rw [hitem fuel _ (by omega)]
      simp
    | cons next others =>
      have hlength : (memberTokens ((key, item) :: next :: others)).length =
          (tokens item).length + (memberTokens (next :: others)).length + 3 := by
        simp [memberTokens]
        omega
      rw [hlength] at hfuel
      simp only [memberTokens, List.cons_append, List.append_assoc, members]
      rw [hitem fuel _ (by omega)]
      simp only
      rw [ih (by simp) (fun m' hm' => h m' (List.mem_cons_of_mem _ hm')) _ _ (by omega)]
      simp

theorem value_openArray {t : Token} (ht : t ≠ .closeArray) (fuel : Nat) (ts : List Token) :
    value (fuel + 1) (.openArray :: t :: ts) = items [] fuel (t :: ts) := by
  cases t <;> simp_all [value]

theorem value_openObject {t : Token} (ht : t ≠ .closeObject) (fuel : Nat) (ts : List Token) :
    value (fuel + 1) (.openObject :: t :: ts) = members [] fuel (t :: ts) := by
  cases t <;> simp_all [value]

/-- Items that are taken up to their bracket are taken as an array. -/
theorem parses_array {all : List Json} (h : ∀ item ∈ all, Parses item) : Parses (array all) := by
  intro fuel rest hfuel
  simp only [tokens, List.length_append, List.length_cons, List.length_nil] at hfuel
  obtain ⟨fuel, rfl⟩ : ∃ k, fuel = k + 1 := ⟨fuel - 1, by omega⟩
  cases all with
  | nil => rfl
  | cons item others =>
    obtain ⟨t, ts, hhead, hclose, -⟩ := tokens_eq_cons item
    obtain ⟨ts', hhead'⟩ : ∃ ts', itemTokens (item :: others) = t :: ts' := by
      cases others <;> simp [itemTokens, hhead]
    have hitems := items_itemTokens (List.cons_ne_nil item others) h [] fuel rest (by omega)
    rw [hhead'] at hitems
    simp only [tokens, hhead', List.cons_append, List.append_assoc, value_openArray hclose]
    exact hitems

/-- Members that are taken up to their brace are taken as an object. -/
theorem parses_object {all : List (List UInt8 × Json)} (h : ∀ m ∈ all, Parses m.2) :
    Parses (object all) := by
  intro fuel rest hfuel
  simp only [tokens, List.length_append, List.length_cons, List.length_nil] at hfuel
  obtain ⟨fuel, rfl⟩ : ∃ k, fuel = k + 1 := ⟨fuel - 1, by omega⟩
  cases all with
  | nil => rfl
  | cons m others =>
    obtain ⟨ts, hhead⟩ : ∃ ts, memberTokens (m :: others) = .string m.1 :: ts := by
      cases others <;> simp [memberTokens]
    have hmembers := members_memberTokens (List.cons_ne_nil m others) h [] fuel rest (by omega)
    rw [hhead] at hmembers
    simp only [tokens, hhead, List.cons_append, List.append_assoc,
      value_openObject (t := .string m.1) (by simp)]
    exact hmembers

/-- Every document is taken off the front of its tokens. -/
theorem parses {j : Json} (h : Printable j) : Parses j := by
  induction h with
  | null => exact parses_atom rfl fun _ _ => rfl
  | bool b => exact parses_atom rfl fun _ _ => rfl
  | number _ => exact parses_atom rfl fun _ _ => rfl
  | string _ => exact parses_atom rfl fun _ _ => rfl
  | array _ ih => exact parses_array ih
  | object _ _ ih => exact parses_object ih

/-- A printable document is what its text is parsed to. -/
theorem parse?_render {j : Json} (h : Printable j) : parse? (render j) = some j := by
  have hvalue := parses h (2 * (tokens j).length + 2) [] (by omega)
  rw [List.append_nil] at hvalue
  rw [parse?, Token.scan_render h, Option.bind_some, ofTokens?, hvalue]

/-! ## Integers and texts -/

theorem isWritten_ofInt (i : Int) : (Numeral.ofInt i).IsWritten where
  whole_lt _ hd := Numeral.lt_ten_of_mem_digits hd
  whole_ne_nil := Numeral.digits_ne_nil _
  no_leading_zero := by
    intro d rest h
    have hwhole : Numeral.digits i.natAbs = 0 :: d :: rest := h
    rcases Nat.eq_zero_or_pos i.natAbs with hzero | hpos
    · rw [hzero, Numeral.digits_of_lt (by decide)] at hwhole
      simp at hwhole
    · exact Numeral.head?_digits hpos (by rw [hwhole]; rfl)
  fraction_lt _ hd := absurd hd List.not_mem_nil

theorem printable_ofInt (i : Int) : Printable (ofInt i) :=
  .number (isWritten_ofInt i)

theorem printable_ofText (s : String) : Printable (ofText s) :=
  .string (isQuotable_escape s)

/-- An integer in the range of a word, with a sign or without, reads back. -/
theorem int?_ofInt {i : Int} (hlow : -(2 ^ 63) ≤ i) (hhigh : i < 2 ^ 64) :
    int? (ofInt i) = some i := by
  have hvalue : Number.ofNumeral? (Numeral.ofInt i) = some (.int i) := by
    have hmagnitude := Numeral.ofDigits_digits i.natAbs
    have hint : ((Numeral.ofInt i).fraction.isEmpty && (Numeral.ofInt i).exponent.isNone) = true :=
      rfl
    rw [Number.ofNumeral?, if_pos hint]
    simp only [Numeral.ofInt, hmagnitude]
    by_cases hneg : i < 0
    · simp only [decide_eq_true hneg, if_true]
      rw [if_pos (by omega)]
      congr 2
      omega
    · simp only [decide_eq_false hneg, Bool.false_eq_true, if_false]
      rw [if_pos (by omega)]
      congr 2
      omega
  simp only [int?, ofInt, hvalue]

/-- A natural number below a bound of at most a word reads back. -/
theorem natBelow?_ofInt {n bound : Nat} (hn : n < bound) (hbound : bound ≤ 2 ^ 64) :
    natBelow? bound (ofInt (n : Int)) = some n := by
  rw [natBelow?, int?_ofInt (by omega) (by omega)]
  exact if_pos hn

theorem lt_of_natBelow? {n bound : Nat} {j : Json} (h : natBelow? bound j = some n) :
    n < bound := by
  rw [natBelow?] at h
  split at h
  · split at h
    · cases h
      assumption
    · cases h
  · cases h

/-- An optional member has its default or the value that is read from it. -/
theorem orDefault_eq_some {α : Type} {default a : α} {read : Json → Option α} {item : Option Json}
    (h : orDefault default read item = some a) : a = default ∨ ∃ j, read j = some a := by
  cases item with
  | none =>
    cases h
    exact .inl rfl
  | some j => exact .inr ⟨j, h⟩

/-- A text reads back as the name of a variant. -/
theorem variantName?_ofText (s : String) : variantName? (ofText s) = some s :=
  text?_escape s

/-- Results for the members of a list read back from what stands for them. -/
theorem mapM_map_eq_some {α β : Type} {read : β → Option α} {write : α → β} {l : List α}
    (h : ∀ a ∈ l, read (write a) = some a) : (l.map write).mapM read = some l := by
  induction l with
  | nil => rfl
  | cons a l ih =>
    rw [List.map_cons, List.mapM_cons, h a List.mem_cons_self,
      ih fun a' ha' => h a' (List.mem_cons_of_mem _ ha')]
    rfl

end ChunkedArray.Json
