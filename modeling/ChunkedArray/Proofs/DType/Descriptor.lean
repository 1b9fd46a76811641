import ChunkedArray.DType.Descriptor
import ChunkedArray.Proofs.Action
import ChunkedArray.Proofs.Json.RoundTrip

/-!
# Descriptors read back

The descriptor of a layout that was composed of scalars, byte strings and packed records describes
that layout. For a record the descriptor is the text of a JSON document, a list of pairs of texts,
and in each pair the second text is the shorter descriptor of a field.
-/

namespace ChunkedArray.DType

/-- Layouts composed of scalars and byte strings by packing records, nested to any depth. -/
inductive Composed : DType → Prop where
  | scalar (kind : ScalarKind) : Composed (scalar kind)
  | bytes {width : Nat} (hpos : 0 < width) (hword : width < 2 ^ 64) : Composed (bytes width)
  | record {pairs : List (String × DType)} {dtype : DType} (h : ∀ p ∈ pairs, Composed p.2)
      (hfields : ofFields pairs = .ok dtype) : Composed dtype

/-- A record has its pairs packed. -/
theorem ofFields_eq_ok {pairs : List (String × DType)} {dtype : DType}
    (h : ofFields pairs = .ok dtype) : dtype = .record (packFrom 0 pairs) := by
  rw [ofFields] at h
  split at h
  · cases h
  · split at h
    · cases h
    · cases h
      rfl

/-! ## Atoms -/

/-- A text that neither starts nor ends with a blank is trimmed to itself. -/
theorem trim_eq_self {s : List Char} (hfirst : ∀ c ∈ s.head?, Text.isBlank c = false)
    (hlast : ∀ c ∈ s.getLast?, Text.isBlank c = false) : Text.trim s = s := by
  have hdrop {l : List Char} (h : ∀ c ∈ l.head?, Text.isBlank c = false) :
      l.dropWhile Text.isBlank = l := by
    cases l with
    | nil => rfl
    | cons c rest => rw [List.dropWhile_cons, if_neg (by simp [h c rfl])]
  rw [Text.trim, hdrop hfirst, hdrop (by simpa using hlast), List.reverse_reverse]

/-- A scalar is read back from its type string. -/
theorem ofDescriptorWithin_typeString (levels : Nat) (kind : ScalarKind) :
    ofDescriptorWithin (levels + 1) kind.typeString = .ok (.scalar kind) := by
  cases kind <;> rfl

/-- No kind has a name in capitals. -/
theorem ofTypeName?_eq_none {s : String} (h : s.toList.head? = some 'S') :
    ScalarKind.ofTypeName? s = none := by
  have hne (t : String) (ht : t.toList.head? ≠ some 'S') : (s = t) = False := by
    apply eq_false
    rintro rfl
    exact ht h
  simp (disch := decide) only [ScalarKind.ofTypeName?, hne, or_self, if_false]

theorem isBlank_of_isDigit {c : Char} (h : c.isDigit = true) : Text.isBlank c = false := by
  have hrange : 0x30 ≤ c.toNat ∧ c.toNat ≤ 0x39 := by
    simpa [Char.isDigit, UInt32.le_iff_toNat_le] using h
  simp only [Text.isBlank, Bool.or_eq_false_iff, Bool.and_eq_false_iff, decide_eq_false_iff_not,
    beq_eq_false_iff_ne]
  omega

theorem isDigit_of_mem_toDigits {n : Nat} : ∀ c ∈ Nat.toDigits 10 n, c.isDigit = true :=
  fun _ hc => Nat.isDigit_of_mem_toDigits (by decide) (by decide) hc

/-- A decimal number below the bound of words is read back. -/
theorem width?_toDigits {n : Nat} (h : n < 2 ^ 64) : width? (Nat.toDigits 10 n) = some n := by
  have hdigits := @isDigit_of_mem_toDigits n
  have hvalue : Numeral.ofDigits ((Nat.toDigits 10 n).map fun c => c.toNat - 48) = n :=
    Numeral.ofDigits_digits n
  have hne := @Nat.toDigits_ne_nil n 10
  generalize Nat.toDigits 10 n = ds at hdigits hvalue hne
  have hplus : ∀ rest, ds = '+' :: rest → False := by
    rintro rest rfl
    exact absurd (hdigits '+' List.mem_cons_self) (by decide)
  rw [width?, if_neg (by simpa [hne] using hdigits)]
  · dsimp only
    rw [hvalue, if_pos h]
  · exact hplus

theorem ofDescriptorWithin_bytes (levels : Nat) {width : Nat} (hpos : 0 < width)
    (hword : width < 2 ^ 64) :
    ofDescriptorWithin (levels + 1) (bytes width).descriptor = .ok (.bytes width) := by
  have htext : (bytes width).descriptor.toList = '|' :: 'S' :: Nat.toDigits 10 width := by
    simp only [descriptor, String.toList_append, Nat.toString_eq_repr, Nat.toList_repr]
    rfl
  have hlast : ∀ c ∈ ('|' :: 'S' :: Nat.toDigits 10 width).getLast?, Text.isBlank c = false := by
    intro c hc
    have hmem := List.mem_of_getLast? hc
    simp only [List.mem_cons] at hmem
    obtain rfl | rfl | hdigit := hmem
    · decide
    · decide
    · exact isBlank_of_isDigit (isDigit_of_mem_toDigits c hdigit)
  have htrim : Text.trim ('|' :: 'S' :: Nat.toDigits 10 width) = '|' :: 'S' :: Nat.toDigits 10 width :=
    trim_eq_self (by simp; decide) hlast
  have hname : ScalarKind.ofTypeName? (String.ofList ('S' :: Nat.toDigits 10 width)) = none :=
    ofTypeName?_eq_none (by simp)
  have hbody : ('|' :: 'S' :: Nat.toDigits 10 width).dropWhile isOrderMark =
      'S' :: Nat.toDigits 10 width := by
    rw [List.dropWhile_cons, if_pos (by decide), List.dropWhile_cons, if_neg (by decide)]
  have hatom : ofAtom? ('|' :: 'S' :: Nat.toDigits 10 width) = some (.bytes width) := by
    rw [ofAtom?, hbody, hname]
    simp only [width?_toDigits hword, if_pos hpos]
  rw [ofDescriptorWithin, htext, htrim]
  simp only [List.head?_cons, Option.some.injEq, hatom]
  rw [if_neg (by decide)]

/-! ## Records -/

/-- The document of a record: a pair of texts for every field. -/
def pairsJson (pairs : List (String × String)) : Json :=
  .array (pairs.map fun p => .array [Json.ofText p.1, Json.ofText p.2])

/-- The text of a pair. -/
def pairText (p : String × String) : String :=
  "[" ++ quoted p.1 ++ "," ++ quoted p.2 ++ "]"

theorem fieldDescriptors_eq_map (fields : List Field) :
    fieldDescriptors fields = fields.map fun f => pairText (f.name, f.dtype.descriptor) := by
  induction fields with
  | nil => rfl
  | cons f rest ih => rw [fieldDescriptors, ih, List.map_cons, pairText]

theorem printable_pairsJson (pairs : List (String × String)) : Json.Printable (pairsJson pairs) := by
  refine .array fun item hitem => ?_
  obtain ⟨p, -, rfl⟩ := List.mem_map.1 hitem
  refine .array ?_
  simp only [List.forall_mem_cons, List.not_mem_nil, false_imp_iff, implies_true, and_true]
  exact ⟨Json.printable_ofText p.1, Json.printable_ofText p.2⟩

theorem textPairs?_pairsJson (pairs : List (String × String)) :
    textPairs? (pairsJson pairs) = some pairs := by
  refine Json.mapM_map_eq_some fun p _ => ?_
  simp only [Json.ofText, textPair?, Json.text?_escape, Option.bind_eq_bind, Option.bind_some]

theorem encode_quoted (s : String) : Utf8.encode (quoted s) = Json.render (Json.ofText s) := by
  rw [quoted, Utf8.encode_append, Utf8.encode_append, Json.ofText, Json.render]
  rfl

theorem encode_comma : Utf8.encode "," = [0x2c] := rfl

/-- A text between brackets is written as an array. -/
theorem encode_bracketed (s : String) :
    Utf8.encode ("[" ++ s ++ "]") = 0x5b :: Utf8.encode s ++ [0x5d] := by
  rw [Utf8.encode_append, Utf8.encode_append]
  rfl

theorem encode_pairText (p : String × String) :
    Utf8.encode (pairText p) = Json.render (.array [Json.ofText p.1, Json.ofText p.2]) := by
  have hbody : pairText p = "[" ++ (quoted p.1 ++ "," ++ quoted p.2) ++ "]" := by
    simp only [pairText, String.append_assoc]
  rw [hbody, encode_bracketed, Utf8.encode_append, Utf8.encode_append, encode_quoted, encode_quoted,
    encode_comma, Json.render, Json.renderItems, Json.renderItems, Json.renderItems]
  simp only [Json.commaSeparated, List.append_assoc, List.singleton_append]

theorem encode_intercalate (parts : List String) :
    Utf8.encode (",".intercalate parts) = Json.commaSeparated (parts.map Utf8.encode) := by
  induction parts with
  | nil => rfl
  | cons part rest ih =>
    cases rest with
    | nil => rw [String.intercalate_singleton]; rfl
    | cons next rest =>
      rw [String.intercalate_cons_cons, Utf8.encode_append, Utf8.encode_append, ih, encode_comma,
        List.append_assoc, List.singleton_append]
      rfl

theorem renderItems_eq_map (items : List Json) : Json.renderItems items = items.map Json.render := by
  induction items with
  | nil => rfl
  | cons item rest ih => rw [Json.renderItems, ih, List.map_cons]

/-- The descriptor of a record is the text of its document. -/
theorem encode_descriptor_record (fields : List Field) :
    Utf8.encode (record fields).descriptor =
      Json.render (pairsJson (fields.map fun f => (f.name, f.dtype.descriptor))) := by
  rw [descriptor, fieldDescriptors_eq_map, encode_bracketed, encode_intercalate, pairsJson,
    Json.render, renderItems_eq_map]
  simp only [List.map_map, Function.comp_def, encode_pairText]

/-! ## Lengths -/

theorem length_escapeChar_pos (c : Char) : 0 < (Json.escapeChar c).length := by
  unfold Json.escapeChar
  repeat' split
  all_goals simp

theorem length_le_flatMap_escapeChar (cs : List Char) :
    cs.length ≤ (cs.flatMap Json.escapeChar).length := by
  induction cs with
  | nil => exact Nat.le_refl 0
  | cons c rest ih =>
    have hpos := length_escapeChar_pos c
    rw [List.flatMap_cons, List.length_append, List.length_cons]
    omega

/-- Escapes make no text shorter. -/
theorem length_le_escape (s : String) : s.length ≤ (Json.escape s).length := by
  rw [Json.escape, String.length_ofList, ← String.length_toList]
  exact length_le_flatMap_escapeChar s.toList

theorem length_le_intercalate {part : String} {parts : List String} (h : part ∈ parts) :
    part.length ≤ (",".intercalate parts).length := by
  induction parts with
  | nil => cases h
  | cons first rest ih =>
    cases rest with
    | nil =>
      have hpart := List.mem_singleton.1 h
      exact Nat.le_of_eq (by rw [hpart, String.intercalate_singleton])
    | cons next rest =>
      rw [String.intercalate_cons_cons, String.length_append, String.length_append]
      obtain rfl | hrest := List.mem_cons.1 h
      · omega
      · have hle := ih hrest
        omega

theorem length_lt_pairText (p : String × String) : p.2.length < (pairText p).length := by
  have hescape := length_le_escape p.2
  have hopen : "[".length = 1 := rfl
  simp only [pairText, quoted, String.length_append]
  omega

/-- The descriptor of a field is shorter than that of its record. -/
theorem length_descriptor_lt {fields : List Field} {f : Field} (h : f ∈ fields) :
    f.dtype.descriptor.length < (record fields).descriptor.length := by
  have hpair := length_lt_pairText (f.name, f.dtype.descriptor)
  have hpart := length_le_intercalate (List.mem_map_of_mem (f := fun f : Field =>
    pairText (f.name, f.dtype.descriptor)) h)
  rw [descriptor, fieldDescriptors_eq_map, String.length_append, String.length_append]
  dsimp only at hpair
  omega

/-! ## All layouts -/

theorem map_packFrom (offset : Nat) (pairs : List (String × DType)) :
    (packFrom offset pairs).map (fun f => (f.name, f.dtype.descriptor)) =
      pairs.map fun p => (p.1, p.2.descriptor) := by
  induction pairs generalizing offset with
  | nil => rfl
  | cons p rest ih => rw [packFrom, List.map_cons, List.map_cons, ih]

theorem mem_packFrom (offset : Nat) {pairs : List (String × DType)} {p : String × DType}
    (h : p ∈ pairs) : ∃ f ∈ packFrom offset pairs, f.dtype = p.2 := by
  induction pairs generalizing offset with
  | nil => cases h
  | cons q rest ih =>
    obtain rfl | hrest := List.mem_cons.1 h
    · exact ⟨_, List.mem_cons_self, rfl⟩
    · obtain ⟨f, hf, hdtype⟩ := ih _ hrest
      exact ⟨f, List.mem_cons_of_mem _ hf, hdtype⟩

/-- A packed record is read by reading its fields. -/
theorem ofDescriptorWithin_record {levels : Nat} {pairs : List (String × DType)}
    (h : ∀ p ∈ pairs, ofDescriptorWithin levels p.2.descriptor = .ok p.2) :
    ofDescriptorWithin (levels + 1) (record (packFrom 0 pairs)).descriptor = ofFields pairs := by
  obtain ⟨middle, hmiddle⟩ : ∃ middle, (record (packFrom 0 pairs)).descriptor.toList =
      '[' :: (middle ++ [']']) := by
    rw [descriptor, String.toList_append, String.toList_append, List.append_assoc]
    exact ⟨_, rfl⟩
  have htrim : Text.trim (record (packFrom 0 pairs)).descriptor.toList =
      (record (packFrom 0 pairs)).descriptor.toList := by
    rw [hmiddle]
    apply trim_eq_self
    · simp
      decide
    · intro c hc
      rw [← List.cons_append, List.getLast?_concat] at hc
      cases hc
      decide
  have hparse : (Json.parse? (Utf8.encode (record (packFrom 0 pairs)).descriptor)).bind textPairs? =
      some (pairs.map fun p => (p.1, p.2.descriptor)) := by
    rw [encode_descriptor_record, Json.parse?_render (printable_pairsJson _), Option.bind_some,
      textPairs?_pairsJson, map_packFrom]
  have hfields : (pairs.map fun p => (p.1, p.2.descriptor)).mapM (fun p => do
      let dtype ← ofDescriptorWithin levels p.2
      pure (p.1, dtype)) = .ok pairs := by
    rw [List.mapM_map]
    refine (mapM_eq_ok fun p hp => ?_).trans (congrArg _ (List.map_id pairs))
    rw [Function.comp_apply, h p hp]
    rfl
  have hhead : (record (packFrom 0 pairs)).descriptor.toList.head? = some '[' := by
    rw [hmiddle]
    rfl
  -- The reader tells a record by its bracket, and its fields are the pairs that were written.
  rw [ofDescriptorWithin, htrim, if_pos hhead, String.ofList_toList, hparse]
  exact congrArg (· >>= ofFields) hfields

/-- A composed layout is read back from its descriptor with enough levels. -/
theorem Composed.ofDescriptorWithin {dtype : DType} (h : Composed dtype) {levels : Nat}
    (hlevels : dtype.descriptor.length < levels) :
    ofDescriptorWithin levels dtype.descriptor = .ok dtype := by
  induction h generalizing levels with
  | scalar kind =>
    obtain ⟨levels, rfl⟩ : ∃ k, levels = k + 1 := ⟨levels - 1, by omega⟩
    exact ofDescriptorWithin_typeString levels kind
  | bytes hpos hword =>
    obtain ⟨levels, rfl⟩ : ∃ k, levels = k + 1 := ⟨levels - 1, by omega⟩
    exact ofDescriptorWithin_bytes levels hpos hword
  | @record pairs dtype _ hfields ih =>
    obtain ⟨levels, rfl⟩ : ∃ k, levels = k + 1 := ⟨levels - 1, by omega⟩
    obtain rfl := ofFields_eq_ok hfields
    rw [ofDescriptorWithin_record fun p hp => ?_, hfields]
    -- A field needs fewer levels, as its descriptor is shorter.
    obtain ⟨f, hf, hdtype⟩ := mem_packFrom 0 hp
    have hlt := length_descriptor_lt hf
    rw [hdtype] at hlt
    exact ih p hp (by omega)

/-- A composed layout is read back from its descriptor. -/
theorem Composed.ofDescriptor_descriptor {dtype : DType} (h : Composed dtype) :
    ofDescriptor dtype.descriptor = .ok dtype :=
  h.ofDescriptorWithin (Nat.lt_succ_self _)

end ChunkedArray.DType
