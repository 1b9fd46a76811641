import ChunkedArray.Proofs.Chunk.Lossless
import ChunkedArray.Proofs.Json.Lengths
import ChunkedArray.Proofs.Json.Nesting
import ChunkedArray.Proofs.Metadata.Value

/-!
# Values that are kept exactly

A value without doubles comes back as it was set, as long as its text is no deeper than the reader
follows: a deeper one is written, and its text is refused. What is left is the size of the text. A value
is stored as one chunk, and if its parameters ask for blocks longer than the head of a chunk can say,
which takes a text of four gigabytes, the value is refused and nothing is stored.
-/

namespace ChunkedArray

/-! ## Depth -/

namespace MetaValue

variable {v : MetaValue} {depth : Nat}

/-- Values without doubles: integers fit a signed word and the keys of maps ascend. -/
inductive Exact : MetaValue → Prop where
  | null : Exact null
  | bool (b : Bool) : Exact (bool b)
  | int {i : Int} (hlow : -(2 ^ 63) ≤ i) (hhigh : i < 2 ^ 63) : Exact (int i)
  | str (s : String) : Exact (str s)
  | bytes (bs : List UInt8) : Exact (bytes bs)
  | list {items : List MetaValue} (h : ∀ item ∈ items, Exact item) : Exact (list items)
  | map {entries : List (String × MetaValue)} (hsorted : SortedMap.Sorted entries)
      (h : ∀ e ∈ entries, Exact e.2) : Exact (map entries)

/-- A value inside the object that names its variant is one deeper. -/
theorem nesting_tagged (tag : String) (content : Json) :
    (tagged tag content).nesting = content.nesting + 1 := by
  rw [tagged, Json.nesting, Json.membersNesting, Json.membersNesting, Nat.max_zero]

theorem nesting_bytes_le (bs : List UInt8) :
    (Json.array (bs.map fun b => Json.ofInt b.toNat)).nesting ≤ 1 := by
  rw [Json.nesting, Nat.add_le_add_iff_right, Json.itemsNesting_le_iff]
  intro item hitem
  obtain ⟨b, -, rfl⟩ := List.mem_map.1 hitem
  exact Nat.le_refl 0

theorem nesting_list_le_iff {items : List MetaValue} :
    (list items).toJson.nesting ≤ depth + 2 ↔ ∀ item ∈ items, item.toJson.nesting ≤ depth := by
  rw [toJson, nesting_tagged, Json.nesting, itemsToJson_eq_map, Nat.add_le_add_iff_right,
    Nat.add_le_add_iff_right, Json.itemsNesting_le_iff, List.forall_mem_map]

theorem nesting_map_le_iff {entries : List (String × MetaValue)} :
    (map entries).toJson.nesting ≤ depth + 2 ↔ ∀ e ∈ entries, e.2.toJson.nesting ≤ depth := by
  rw [toJson, nesting_tagged, Json.nesting, entriesToJson_eq_map, Nat.add_le_add_iff_right,
    Nat.add_le_add_iff_right, Json.membersNesting_le_iff, List.forall_mem_map]

theorem exact_of_writable (h : Writable depth v) : Exact v ∧ v.toJson.nesting ≤ depth := by
  induction h with
  | null => exact ⟨.null, Nat.zero_le _⟩
  | bool b => exact ⟨.bool b, Nat.le_add_left 1 _⟩
  | int hlow hhigh => exact ⟨.int hlow hhigh, Nat.le_add_left 1 _⟩
  | str s => exact ⟨.str s, Nat.le_add_left 1 _⟩
  | bytes bs =>
    refine ⟨.bytes bs, ?_⟩
    have hle := nesting_bytes_le bs
    rw [toJson, nesting_tagged]
    omega
  | list _ ih =>
    exact ⟨.list fun item hitem => (ih item hitem).1,
      nesting_list_le_iff.2 fun item hitem => (ih item hitem).2⟩
  | map hsorted _ ih =>
    exact ⟨.map hsorted fun e he => (ih e he).1,
      nesting_map_le_iff.2 fun e he => (ih e he).2⟩

/-- A value whose content is nested is followed two levels down or not at all. -/
theorem exists_depth_of_tagged {tag : String} {content : Json} (hnested : 0 < content.nesting)
    (h : (tagged tag content).nesting ≤ depth) : ∃ inner, depth = inner + 2 := by
  rw [nesting_tagged] at h
  exact Nat.exists_eq_add_of_le' (by omega)

theorem nesting_array_pos (items : List Json) : 0 < (Json.array items).nesting := by
  rw [Json.nesting]
  exact Nat.succ_pos _

theorem nesting_object_pos (members : List (List UInt8 × Json)) :
    0 < (Json.object members).nesting := by
  rw [Json.nesting]
  exact Nat.succ_pos _

theorem writable_of_exact (h : Exact v) (hdepth : v.toJson.nesting ≤ depth) : Writable depth v := by
  -- A constructor of `Writable` names the depth below its value, so each case finds that first.
  induction h generalizing depth with
  | null => exact .null
  | bool b =>
    obtain ⟨depth, rfl⟩ := Nat.exists_eq_add_of_le' (hdepth : 1 ≤ depth)
    exact .bool b
  | int hlow hhigh =>
    obtain ⟨depth, rfl⟩ := Nat.exists_eq_add_of_le' (hdepth : 1 ≤ depth)
    exact .int hlow hhigh
  | str s =>
    obtain ⟨depth, rfl⟩ := Nat.exists_eq_add_of_le' (hdepth : 1 ≤ depth)
    exact .str s
  | bytes bs =>
    obtain ⟨depth, rfl⟩ := exists_depth_of_tagged (nesting_array_pos _) hdepth
    exact .bytes bs
  | list _ ih =>
    obtain ⟨depth, rfl⟩ := exists_depth_of_tagged (nesting_array_pos _) hdepth
    exact .list fun item hitem => ih item hitem (nesting_list_le_iff.1 hdepth item hitem)
  | map hsorted _ ih =>
    obtain ⟨depth, rfl⟩ := exists_depth_of_tagged (nesting_object_pos _) hdepth
    exact .map hsorted fun e he => ih e he (nesting_map_le_iff.1 hdepth e he)

theorem exists_deep_of_list {items : List MetaValue} (h : depth + 2 < (list items).toJson.nesting) :
    ∃ item ∈ items, depth < item.toJson.nesting := by
  by_contra hshallow
  push Not at hshallow
  exact Nat.not_le.2 h (nesting_list_le_iff.2 hshallow)

theorem exists_deep_of_map {entries : List (String × MetaValue)}
    (h : depth + 2 < (map entries).toJson.nesting) : ∃ e ∈ entries, depth < e.2.toJson.nesting := by
  by_contra hshallow
  push Not at hshallow
  exact Nat.not_le.2 h (nesting_map_le_iff.2 hshallow)

/-- What the reader follows is what is no deeper than it follows. -/
theorem writable_iff : Writable depth v ↔ Exact v ∧ v.toJson.nesting ≤ depth :=
  ⟨exact_of_writable, fun ⟨h, hdepth⟩ => writable_of_exact h hdepth⟩

/-- The text of such a value is as deep as its document. -/
theorem Exact.openBrackets_encode (h : Exact v) :
    Json.openBrackets v.encode.toList = v.toJson.nesting := by
  rw [encode, List.toList_toArray,
    Json.openBrackets_render (writable_iff.2 ⟨h, Nat.le_refl _⟩).printable]

/-- An item that is refused is refused with its list. -/
theorem mapM_eq_none {α β : Type} {f : α → Option β} {l : List α} {a : α} (ha : a ∈ l)
    (h : f a = none) : l.mapM f = none := by
  induction l with
  | nil => cases ha
  | cons b l ih =>
    rw [List.mapM_cons]
    rcases List.mem_cons.1 ha with rfl | ha
    · rw [h]
      rfl
    · rw [ih ha]
      cases f b <;> rfl

/-- A value that is deeper than the reader follows is refused. -/
theorem Exact.ofJson?_eq_none (h : Exact v) (hdepth : depth < v.toJson.nesting) :
    ofJson? depth v.toJson = none := by
  -- A value that holds others has one that is too deep for what is left two levels down.
  induction h generalizing depth with
  | null => cases hdepth
  | bool b =>
    obtain rfl := Nat.lt_one_iff.1 hdepth
    rfl
  | int _ _ =>
    obtain rfl := Nat.lt_one_iff.1 hdepth
    rfl
  | str s =>
    obtain rfl := Nat.lt_one_iff.1 hdepth
    rfl
  | bytes bs =>
    have htag := text?_tag "Bytes" (by decide)
    have hle := nesting_bytes_le bs
    rw [toJson, nesting_tagged] at hdepth
    rcases depth with _ | _ | depth
    · rfl
    · simp only [toJson, tagged, ofJson?, htag, if_true]
    · omega
  | @list items h ih =>
    have htag := text?_tag "List" (by decide)
    rcases depth with _ | _ | depth
    · rfl
    · simp only [toJson, tagged, Nat.zero_add, ofJson?, htag]
    · obtain ⟨item, hitem, hdeep⟩ := exists_deep_of_list hdepth
      have hitems := mapM_eq_none (List.mem_map_of_mem hitem) (ih item hitem hdeep)
      simp only [toJson, tagged, ofJson?, htag, itemsToJson_eq_map, hitems, Option.map_none]
  | @map entries hsorted h ih =>
    have htag := text?_tag "Map" (by decide)
    rcases depth with _ | _ | depth
    · rfl
    · simp only [toJson, tagged, Nat.zero_add, ofJson?, htag]
    · obtain ⟨e, he, hdeep⟩ := exists_deep_of_map hdepth
      have hmembers : ((entries.map fun e => (Utf8.encode (Json.escape e.1), toJson e.2)).mapM
          fun (m : List UInt8 × Json) => do
            let key ← Json.text? m.1
            let item ← ofJson? depth m.2
            some (key, item)) = none :=
        mapM_eq_none (List.mem_map_of_mem he) (by
          simp only [Json.text?_escape, ih e he hdeep, Option.bind_eq_bind, Option.bind_some,
            Option.bind_none])
      simp only [toJson, tagged, ofJson?, htag, entriesToJson_eq_map, hmembers, Option.map_none]

/-- Exactly the texts with at most `maxDepth` brackets open at once are read back. -/
theorem Exact.decode_encode (h : Exact v) :
    decode v.encode =
      if Json.openBrackets v.encode.toList ≤ maxDepth then .ok v else .error .json := by
  have hprintable := (writable_iff.2 ⟨h, Nat.le_refl _⟩).printable
  rw [h.openBrackets_encode]
  split
  · rename_i hdepth
    exact MetaValue.decode_encode (writable_iff.2 ⟨h, hdepth⟩)
  · rename_i hdepth
    rw [decode, encode, List.toList_toArray, Json.parse?_render hprintable, Option.bind_some,
      h.ofJson?_eq_none (Nat.not_le.1 hdepth)]

/-! ## Size -/

theorem textSize_str (s : String) : (str s).textSize = 10 + (s.toList.map Json.escapedSize).sum := by
  rw [textSize, String.foldl_eq_foldl_toList, List.sum_eq_foldl, ← List.foldl_map]
  exact @List.foldl_assoc Nat (· + ·) _ (s.toList.map Json.escapedSize) 10 0

/-- The size that is found without writing a text is that of the text. -/
theorem size_encode (v : MetaValue) : v.encode.size = v.textSize := by
  cases v with
  | str s =>
    rw [textSize_str, ← Json.length_encode_escape, encode, List.size_toArray]
    have htag : (Utf8.encode "Str").length = 3 := rfl
    simp only [toJson, tagged, Json.ofText, Json.render, Json.renderMembers, Json.commaSeparated,
      List.length_cons, List.length_append, List.length_nil, htag]
    omega
  | _ => rfl

/-- A text of one character, again and again. -/
theorem textSize_replicate (n : Nat) (c : Char) :
    (str (String.ofList (List.replicate n c))).textSize = 10 + n * Json.escapedSize c := by
  rw [textSize_str, String.toList_ofList, List.map_replicate, List.sum_replicate_nat]

end MetaValue

/-- A byte string that would be cut into blocks too long for the head of a chunk is refused. -/
theorem Chunk.compress_of_le {raw : Bytes} {config : CodecConfig}
    (h : 2 ^ 32 ≤ chosenBlockSize raw.size config) :
    compress raw config = .error (.parameter (.blockSize (chosenBlockSize raw.size config))) :=
  if_pos h

/-- Blocks of a configured size are no longer than that size or one element. -/
theorem Chunk.chosenBlockSize_lt_of_config {size : Nat} {config : CodecConfig} (hpos : 0 < config.blockSize)
    (hblock : config.blockSize < 2 ^ 32) (htypesize : config.typesize < 2 ^ 32) :
    chosenBlockSize size config < 2 ^ 32 := by
  rw [chosenBlockSize, effectiveBlockSize]
  have hle := Nat.div_mul_le_self config.blockSize (max config.typesize 1)
  split <;> omega

namespace Metadata

variable {m : Metadata} {value : MetaValue}

/-- A value that takes blocks too long for the head of a chunk is refused. -/
theorem set_of_le (key : String) (h : 2 ^ 32 ≤ Chunk.chosenBlockSize value.encode.size m.codec) :
    m.set key value =
      .error (.parameter (.blockSize (Chunk.chosenBlockSize value.encode.size m.codec))) := by
  rw [set, Chunk.compress_of_le h]
  rfl

/-- Whether a value can be stored is decided beforehand as it is decided when it is stored. -/
theorem setSized_eq_set (m : Metadata) (key : String) (value : MetaValue) :
    m.setSized key value = m.set key value := by
  rw [setSized, ← MetaValue.size_encode, ← Chunk.chosenBlockSize]
  split
  · exact (set_of_le key ‹_›).symm
  · rfl

/-- A value without doubles, whose text opens at most 127 brackets at once, comes back from its key as it
was set, and all other keys keep their values, unless the text is cut into blocks too long for the head of
a chunk. Then the value is refused. Texts below four gigabytes are never refused, nor are any under
parameters that cut blocks below four gigabytes. -/
theorem set_exact (hcodec : m.codec.validate = .ok ()) (hvalue : value.Exact)
    (hdepth : Json.openBrackets value.encode.toList ≤ 127) (hsize : value.encode.size < 2 ^ 63)
    (key : String) :
    (Chunk.chosenBlockSize value.encode.size m.codec < 2 ^ 32 →
      ∃ m', m.set key value = .ok m' ∧ m'.get key = .ok value ∧
        ∀ other, other ≠ key → m'.get other = m.get other) ∧
      (2 ^ 32 ≤ Chunk.chosenBlockSize value.encode.size m.codec →
        m.set key value =
          .error (.parameter (.blockSize (Chunk.chosenBlockSize value.encode.size m.codec)))) ∧
      (value.encode.size < 2 ^ 32 ∨ 0 < m.codec.blockSize ∧ m.codec.blockSize < 2 ^ 32 →
        Chunk.chosenBlockSize value.encode.size m.codec < 2 ^ 32) := by
  obtain ⟨-, hpos, htypesize⟩ := CodecConfig.validate_eq_ok_iff.1 hcodec
  refine ⟨fun hblock => ?_, set_of_le key, ?_⟩
  · obtain ⟨c, hc⟩ := Chunk.exists_compress_eq_ok hblock
    have hset : m.set key value = .ok { m with entries := m.entries.insert key (some c) } :=
      bind_eq_ok.2 ⟨c, hc, rfl⟩
    have hwritable : value.Writable MetaValue.maxDepth :=
      MetaValue.writable_iff.2 ⟨hvalue, hvalue.openBrackets_encode ▸ hdepth⟩
    exact ⟨_, hset, get_set hset hwritable hsize hpos, fun other hne => get_set_of_ne hset hne⟩
  · rintro (hshort | ⟨hblock, hlt⟩)
    · exact Chunk.chosenBlockSize_lt hshort (by omega)
    · exact Chunk.chosenBlockSize_lt_of_config hblock hlt (by omega)

/-- The least integer, a text with a quote and a line break, bytes and no value, in a list under a key that
holds a backslash. -/
def mixed : MetaValue :=
  .map [("a\\b", .list [.int (-9223372036854775808), .str "\"é\n", .bytes [0, 255], .null]), ("c", .bool true)]

/-- They come back. -/
theorem set_exact_mixed :
    ∃ m', ({} : Metadata).set "key" mixed = .ok m' ∧ m'.get "key" = .ok mixed ∧
      ∀ other, other ≠ "key" → m'.get other = ({} : Metadata).get other := by
  have hvalue : mixed.Exact := by
    refine .map (SortedMap.sorted_cons.2 ⟨fun q hq => ?_, List.pairwise_singleton _ _⟩) ?_
    · rw [List.mem_singleton.1 hq]
      decide
    simp only [List.forall_mem_cons]
    refine ⟨.list ?_, .bool true, List.forall_mem_nil _⟩
    simp only [List.forall_mem_cons]
    exact ⟨.int (by decide) (by decide), .str _, .bytes _, .null, List.forall_mem_nil _⟩
  have hdepth : Json.openBrackets mixed.encode.toList ≤ 127 := by
    rw [hvalue.openBrackets_encode]
    decide
  have hsize : mixed.encode.size < 2 ^ 32 := by decide +kernel
  obtain ⟨hset, -, hshort⟩ := set_exact (m := {}) rfl hvalue hdepth (by omega) "key"
  exact hset (hshort (.inl hsize))

/-- A text of a control character, so often that its escapes take more than four gigabytes, is refused
under parameters that compress it in one block. -/
theorem set_four_gigabytes :
    let m : Metadata := { codec := { codec := .noop } }
    let value : MetaValue := .str (String.ofList (List.replicate 715829248 '\x01'))
    m.codec.validate = .ok () ∧ value.Exact ∧ Json.openBrackets value.encode.toList ≤ 127 ∧
      m.set "k" value = .error (.parameter (.blockSize 4294975498)) := by
  intro m value
  have hvalue : value.Exact := .str _
  have hsize : value.encode.size = 4294975498 := by
    rw [MetaValue.size_encode, MetaValue.textSize_replicate]
    decide
  have hblock : Chunk.chosenBlockSize value.encode.size m.codec = 4294975498 := by
    rw [hsize]
    decide
  refine ⟨rfl, hvalue, ?_, ?_⟩
  · rw [hvalue.openBrackets_encode, MetaValue.toJson, MetaValue.nesting_tagged]
    decide
  · rw [set_of_le "k" (by rw [hblock]; decide), hblock]

end Metadata

end ChunkedArray
