import ChunkedArray.Codec.Config
import ChunkedArray.Proofs.Action
import ChunkedArray.Proofs.Json.RoundTrip

/-!
# Codec parameters read back

Valid parameters are read back from the JSON text that is written for them. Every member is written,
so no default is taken.
-/

namespace ChunkedArray

theorem CodecId.ofJson?_ofText (id : CodecId) : ofJson? (Json.ofText id.name) = some id := by
  rw [ofJson?, Json.variantName?_ofText]
  cases id <;> rfl

theorem Filter.ofJson?_ofText (f : Filter) : ofJson? (Json.ofText f.name) = some f := by
  rw [ofJson?, Json.variantName?_ofText]
  cases f <;> rfl

namespace CodecConfig

/-- The member names need no escapes. -/
theorem escape_of_mem_memberNames : ∀ name ∈ memberNames, Json.escape name = name := by
  decide

theorem text?_memberName {name : String} (h : name ∈ memberNames) :
    Json.text? (Utf8.encode name) = some name := by
  have htext := Json.text?_escape name
  rwa [escape_of_mem_memberNames name h] at htext

/-- Valid parameters are in the ranges that `validate` checks. -/
theorem validate_eq_ok_iff {c : CodecConfig} :
    c.validate = .ok () ↔ c.level ≤ 9 ∧ 0 < c.typesize ∧ c.typesize ≤ 255 := by
  rw [validate]
  split
  · simp only [reduceCtorEq, false_iff]
    omega
  · split
    · simp only [reduceCtorEq, false_iff]
      omega
    · simp only [true_iff]
      omega

theorem isQuotable_memberName {name : String} (h : name ∈ memberNames) :
    Json.IsQuotable (Utf8.encode name) := by
  have hquotable := Json.isQuotable_escape name
  rwa [escape_of_mem_memberNames name h] at hquotable

theorem printable_toJson (c : CodecConfig) : Json.Printable c.toJson := by
  have hfilters : Json.Printable (.array (c.filters.map fun f => Json.ofText f.name)) := by
    refine .array fun item hitem => ?_
    obtain ⟨f, -, rfl⟩ := List.mem_map.1 hitem
    exact Json.printable_ofText f.name
  refine .object ?_ ?_
  · simp only [jsonMember, List.forall_mem_cons, List.not_mem_nil, false_imp_iff, implies_true,
      and_true]
    exact ⟨isQuotable_memberName (by decide), isQuotable_memberName (by decide),
      isQuotable_memberName (by decide), isQuotable_memberName (by decide),
      isQuotable_memberName (by decide)⟩
  · simp only [jsonMember, List.forall_mem_cons, List.not_mem_nil, false_imp_iff, implies_true,
      and_true]
    exact ⟨Json.printable_ofText _, Json.printable_ofInt _, hfilters, Json.printable_ofInt _,
      Json.printable_ofInt _⟩

/-- Every member is found under its name. -/
theorem structure?_toJson (c : CodecConfig) :
    Json.structure? memberNames c.toJson = some [
      some (Json.ofText c.codec.name), some (Json.ofInt c.level),
      some (.array (c.filters.map fun f => Json.ofText f.name)),
      some (Json.ofInt c.blockSize), some (Json.ofInt c.typesize)] := by
  have htext := @text?_memberName
  simp only [memberNames] at htext ⊢
  simp [toJson, Json.structure?, jsonMember, Json.fillSlots, Json.fillSlot, htext]

/-- Parameters within the range of their members are read back from their document. -/
theorem ofJson?_toJson {c : CodecConfig} (hlevel : c.level < 2 ^ 8) (hblock : c.blockSize < 2 ^ 64)
    (htypesize : c.typesize < 2 ^ 64) : ofJson? c.toJson = some c := by
  have hfilters : Json.list? Filter.ofJson? (.array (c.filters.map fun f => Json.ofText f.name)) =
      some c.filters :=
    Json.mapM_map_eq_some fun f _ => f.ofJson?_ofText
  rw [ofJson?, structure?_toJson]
  simp only [Option.bind_eq_bind, Option.bind_some, Json.orDefault, c.codec.ofJson?_ofText,
    Json.natBelow?_ofInt hlevel (by decide), hfilters, Json.natBelow?_ofInt hblock (Nat.le_refl _),
    Json.natBelow?_ofInt htypesize (Nat.le_refl _)]

/-- Valid parameters are read back from their text and are accepted. -/
theorem load_render_toJson {c : CodecConfig} (hvalid : c.validate = .ok ())
    (hblock : c.blockSize < 2 ^ 64) : load c.toJson.render = .ok c := by
  obtain ⟨hlevel, -, htypesize⟩ := validate_eq_ok_iff.1 hvalid
  rw [load, ofText, Json.parse?_render c.printable_toJson, Option.bind_some,
    ofJson?_toJson (by omega) hblock (by omega)]
  simp only [bind, Except.bind, hvalid]
  rfl

/-! ## The range of the block size -/

theorem blockSize_lt_of_ofJson? {j : Json} {c : CodecConfig} (h : ofJson? j = some c) :
    c.blockSize < 2 ^ 64 := by
  simp only [ofJson?, Option.bind_eq_bind, Option.bind_eq_some_iff] at h
  obtain ⟨members, -, h⟩ := h
  split at h
  · obtain ⟨codec, -, level, -, filters, -, blockSize, hblockSize, typesize, -, h⟩ := by
      simpa only [Option.bind_eq_some_iff] using h
    cases h
    obtain rfl | ⟨j, hj⟩ := Json.orDefault_eq_some hblockSize
    · exact Nat.two_pow_pos 64
    · exact Json.lt_of_natBelow? hj
  · cases h

/-- The block size of parameters that are loaded is a word. -/
theorem blockSize_lt_of_load {text : List UInt8} {c : CodecConfig} (h : load text = .ok c) :
    c.blockSize < 2 ^ 64 := by
  obtain ⟨c', htext, h⟩ := bind_eq_ok.1 h
  obtain ⟨⟨⟩, -, h⟩ := bind_eq_ok.1 h
  cases h
  rw [ofText] at htext
  split at htext
  · rename_i hjson
    cases htext
    obtain ⟨j, -, hj⟩ := Option.bind_eq_some_iff.1 hjson
    exact blockSize_lt_of_ofJson? hj
  · cases htext

end CodecConfig

end ChunkedArray
