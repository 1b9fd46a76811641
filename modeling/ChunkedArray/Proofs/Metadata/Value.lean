import ChunkedArray.Metadata.Store
import ChunkedArray.Proofs.Action
import ChunkedArray.Proofs.Chunk.Compress
import ChunkedArray.Proofs.Json.RoundTrip
import ChunkedArray.Proofs.SortedMap

/-!
# Metadata values read back

A value without doubles is read back from its JSON text, as long as no more brackets are open at
once than the reader follows. A map is read back because its keys ascend, and so do the members in
its document.
-/

namespace ChunkedArray.MetaValue

/-- Values without doubles that open at most `depth` brackets at once: integers fit a signed word
and the keys of maps ascend. -/
inductive Writable : (depth : Nat) → MetaValue → Prop where
  | null {depth : Nat} : Writable depth null
  | bool {depth : Nat} (b : Bool) : Writable (depth + 1) (bool b)
  | int {depth : Nat} {i : Int} (hlow : -(2 ^ 63) ≤ i) (hhigh : i < 2 ^ 63) :
      Writable (depth + 1) (int i)
  | str {depth : Nat} (s : String) : Writable (depth + 1) (str s)
  | bytes {depth : Nat} (bs : List UInt8) : Writable (depth + 2) (bytes bs)
  | list {depth : Nat} {items : List MetaValue} (h : ∀ item ∈ items, Writable depth item) :
      Writable (depth + 2) (list items)
  | map {depth : Nat} {entries : List (String × MetaValue)} (hsorted : SortedMap.Sorted entries)
      (h : ∀ e ∈ entries, Writable depth e.2) : Writable (depth + 2) (map entries)

theorem itemsToJson_eq_map (items : List MetaValue) : itemsToJson items = items.map toJson := by
  induction items with
  | nil => rfl
  | cons item rest ih => rw [itemsToJson, ih, List.map_cons]

theorem entriesToJson_eq_map (entries : List (String × MetaValue)) :
    entriesToJson entries =
      entries.map fun e => (Utf8.encode (Json.escape e.1), toJson e.2) := by
  induction entries with
  | nil => rfl
  | cons e rest ih => rw [entriesToJson, ih, List.map_cons]

/-! ## Writing -/

/-- The names of variants need no escapes. -/
def tags : List String := ["Bool", "Int", "Str", "Bytes", "List", "Map"]

theorem escape_of_mem_tags : ∀ tag ∈ tags, Json.escape tag = tag := by
  decide

theorem printable_tagged {tag : String} (htag : tag ∈ tags) {content : Json}
    (h : Json.Printable content) : Json.Printable (tagged tag content) := by
  have hquotable := Json.isQuotable_escape tag
  rw [escape_of_mem_tags tag htag] at hquotable
  exact .object (by simpa using hquotable) (by simpa using h)

/-- Every such value is written as a document that can be printed. -/
theorem Writable.printable {depth : Nat} {v : MetaValue} (h : Writable depth v) :
    Json.Printable v.toJson := by
  induction h with
  | null => exact Json.printable_ofText "Null"
  | bool b => exact printable_tagged (by decide) (.bool b)
  | int _ _ => exact printable_tagged (by decide) (Json.printable_ofInt _)
  | str s => exact printable_tagged (by decide) (Json.printable_ofText s)
  | bytes bs =>
    refine printable_tagged (by decide) (.array fun item hitem => ?_)
    obtain ⟨b, -, rfl⟩ := List.mem_map.1 hitem
    exact Json.printable_ofInt _
  | list _ ih =>
    refine printable_tagged (by decide) (.array fun item hitem => ?_)
    rw [itemsToJson_eq_map] at hitem
    obtain ⟨v, hv, rfl⟩ := List.mem_map.1 hitem
    exact ih v hv
  | map _ _ ih =>
    refine printable_tagged (by decide) (.object (fun m hm => ?_) fun m hm => ?_) <;>
      rw [entriesToJson_eq_map] at hm <;>
      obtain ⟨e, he, rfl⟩ := List.mem_map.1 hm
    · exact Json.isQuotable_escape e.1
    · exact ih e he

/-! ## Reading -/

theorem byte?_ofInt (b : UInt8) : byte? (Json.ofInt b.toNat) = some b := by
  rw [byte?, Json.natBelow?_ofInt b.toNat_lt (by decide), Option.map_some, UInt8.ofNat_toNat]

theorem int64?_ofInt {i : Int} (hlow : -(2 ^ 63) ≤ i) (hhigh : i < 2 ^ 63) :
    int64? (Json.ofInt i) = some i := by
  rw [int64?, Json.int?_ofInt hlow (by omega)]
  exact if_pos ⟨hlow, hhigh⟩

theorem text?_tag (tag : String) (htag : tag ∈ tags) : Json.text? (Utf8.encode tag) = some tag := by
  have htext := Json.text?_escape tag
  rwa [escape_of_mem_tags tag htag] at htext

/-- Every such value is read back from its document. -/
theorem Writable.ofJson?_toJson {depth : Nat} {v : MetaValue} (h : Writable depth v) :
    ofJson? depth v.toJson = some v := by
  -- Each constructor writes its own tag, which no other one reads.
  induction h with
  | null =>
    have htext : Json.text? (Utf8.encode (Json.escape "Null")) = some "Null" :=
      Json.text?_escape "Null"
    rw [toJson, Json.ofText, ofJson?, if_pos htext]
  | bool b =>
    have htag := text?_tag "Bool" (by decide)
    simp only [toJson, tagged, ofJson?, htag, Json.bool?, Option.map_some]
  | int hlow hhigh =>
    have htag := text?_tag "Int" (by decide)
    simp only [toJson, tagged, ofJson?, htag, int64?_ofInt hlow hhigh, Option.map_some]
  | str s =>
    have htag := text?_tag "Str" (by decide)
    have htext : text? (Json.ofText s) = some s := Json.text?_escape s
    simp only [toJson, tagged, ofJson?, htag, htext, Option.map_some]
  | bytes bs =>
    have htag := text?_tag "Bytes" (by decide)
    have hitems := Json.mapM_map_eq_some fun b (_ : b ∈ bs) => byte?_ofInt b
    simp only [toJson, tagged, ofJson?, htag, Nat.succ_ne_zero, if_false, hitems, Option.map_some]
  | list _ ih =>
    have htag := text?_tag "List" (by decide)
    have hitems := Json.mapM_map_eq_some ih
    simp only [toJson, tagged, ofJson?, htag, itemsToJson_eq_map, hitems, Option.map_some]
  | map hsorted _ ih =>
    have htag := text?_tag "Map" (by decide)
    rename_i depth entries _
    have hmembers : ((entries.map fun e => (Utf8.encode (Json.escape e.1), toJson e.2)).mapM
        fun (m : List UInt8 × Json) => do
          let key ← Json.text? m.1
          let item ← ofJson? depth m.2
          some (key, item)) = some entries :=
      Json.mapM_map_eq_some fun e he => by
        simp only [Json.text?_escape, ih e he, Option.bind_eq_bind, Option.bind_some]
    simp only [toJson, tagged, ofJson?, htag, entriesToJson_eq_map, hmembers, Option.map_some,
      SortedMap.ofList_of_sorted hsorted]

/-- Every such value is read back from its text. -/
theorem decode_encode {v : MetaValue} (h : Writable maxDepth v) : decode v.encode = .ok v := by
  rw [decode, encode, List.toList_toArray, Json.parse?_render h.printable, Option.bind_some,
    h.ofJson?_toJson]

/-! ## Shapes -/

section Shape

variable {shape : Shape}

/-- Axes that fit a signed word are kept as they are. -/
theorem ofShape_eq (h : ∀ n ∈ shape, n < 2 ^ 63) :
    ofShape shape = list (shape.map fun (n : Nat) => int n) := by
  rw [ofShape, list.injEq]
  refine List.map_congr_left fun n hn => ?_
  have hlt := h n hn
  rw [Int.bmod_eq_of_le (by omega) (by omega)]

theorem writable_ofShape (depth : Nat) (shape : Shape) :
    Writable (depth + 3) (ofShape shape) := by
  refine .list fun item hitem => ?_
  obtain ⟨n, hn, rfl⟩ := List.mem_map.1 hitem
  exact .int (Int.le_bmod (by decide)) (Int.bmod_lt (by decide))

/-- A shape with such axes is read back. -/
theorem toShape_ofShape (h : ∀ n ∈ shape, n < 2 ^ 63) : (ofShape shape).toShape = .ok shape := by
  rw [ofShape_eq h, toShape, asList?]
  dsimp only
  rw [List.mapM_map]
  exact (mapM_eq_ok fun n _ => rfl).trans (congrArg _ (List.map_id shape))

end Shape

end MetaValue

/-! ## Keys -/

namespace Metadata

variable {m m' : Metadata} {key : String} {value : MetaValue}

/-- Setting a key adds or replaces one entry. -/
theorem set_eq_ok (h : m.set key value = .ok m') :
    ∃ c, Chunk.compress value.encode m.codec = .ok c ∧
      m' = { m with entries := m.entries.insert key (some c) } := by
  obtain ⟨c, hc, h⟩ := bind_eq_ok.1 h
  cases h
  exact ⟨c, hc, rfl⟩

/-- A value of less than four gigabytes is set if values are compressed in one block. -/
theorem exists_set (key : String) (hblock : m.codec.blockSize = 0)
    (hsize : value.encode.size < 2 ^ 32) : ∃ m', m.set key value = .ok m' := by
  have hwhole : Chunk.chosenBlockSize value.encode.size m.codec = max value.encode.size 1 := by
    rw [Chunk.chosenBlockSize, Chunk.effectiveBlockSize, if_pos (Or.inl hblock)]
  obtain ⟨c, hc⟩ := @Chunk.exists_compress_eq_ok value.encode m.codec (by omega)
  exact ⟨_, bind_eq_ok.2 ⟨c, hc, rfl⟩⟩

/-- A key that was set has its value. -/
theorem get_set (h : m.set key value = .ok m') (hvalue : value.Writable MetaValue.maxDepth)
    (hsize : value.encode.size < 2 ^ 63) (htypesize : 0 < m.codec.typesize) :
    m'.get key = .ok value := by
  obtain ⟨c, hc, rfl⟩ := set_eq_ok h
  have hholds := Chunk.holds_compress htypesize hsize hc
  unfold get entry?
  rw [SortedMap.find?_insert_self]
  simp only [Option.join_some, hholds.decompress]
  exact MetaValue.decode_encode hvalue

/-- Every other key keeps its value. -/
theorem get_set_of_ne (h : m.set key value = .ok m') {other : String} (hne : other ≠ key) :
    m'.get other = m.get other := by
  obtain ⟨c, -, rfl⟩ := set_eq_ok h
  unfold get entry?
  rw [SortedMap.find?_insert_ne _ _ hne]

end Metadata

end ChunkedArray
