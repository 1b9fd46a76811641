import Mathlib.Data.Finset.Card
import Mathlib.Data.Finset.Insert
import Mathlib.Data.Option.Basic
import Mathlib.Logic.Function.Basic
import ChunkedArray.Proofs.Codec.Config
import ChunkedArray.Proofs.Metadata.Restored
import ChunkedArray.Proofs.Metadata.Value
import ChunkedArray.Proofs.Text.Utf8

/-!
# Metadata as a map with marks

What metadata answer is a map from keys to values, and next to it a set of marks: the keys that were
deleted and neither set again nor dropped since. Every call that changes metadata changes map and marks as
its name says, and a call that fails changes neither. The marks are seen by nothing but their number when
they are dropped, and the stored form of the entries does not hold them.
-/

namespace ChunkedArray.Metadata

variable {m m' : Metadata} {key : String} {value : MetaValue}

/-! ## Calls -/

/-- A call that changes metadata. -/
inductive Change where
  /-- Sets the value of a key. -/
  | set (key : String) (value : MetaValue)
  /-- Deletes a key. -/
  | delete (key : String)
  /-- Drops the marks of deleted keys. -/
  | compact

/-- The outcome of a call that may fail, and the metadata behind it: if it fails, as they were. -/
def settle (m : Metadata) : Result Metadata → Result Nat × Metadata
  | .ok m' => (.ok 0, m')
  | .error e => (.error e, m)

/-- The outcome of a call, with the number of marks that it dropped, and the metadata behind it. -/
def perform (m : Metadata) : Change → Result Nat × Metadata
  | .set key value => m.settle (m.set key value)
  | .delete key => m.settle (m.delete key)
  | .compact => (.ok m.compact.1, m.compact.2)

/-- The outcomes of calls one after the other, and the metadata behind them. -/
def performAll (m : Metadata) : List Change → List (Result Nat) × Metadata
  | [] => ([], m)
  | change :: changes =>
    let rest := performAll (m.perform change).2 changes
    ((m.perform change).1 :: rest.1, rest.2)

/-- A call that fails changes nothing. -/
theorem perform_of_error {change : Change} {e : Error} (h : (m.perform change).1 = .error e) :
    (m.perform change).2 = m := by
  have hsettle {r : Result Metadata} (hr : (m.settle r).1 = .error e) : (m.settle r).2 = m := by
    cases r with
    | ok m' => cases hr
    | error e' => rfl
  cases change with
  | set key value => exact hsettle h
  | delete key => exact hsettle h
  | compact => cases h

/-! ## Maps with marks -/

/-- A map, and the keys that are marked as deleted. -/
structure Marked where
  /-- The value of every key that has one. -/
  values : String → Option MetaValue := fun _ => none
  /-- The marks. -/
  marks : Finset String := ∅

namespace Marked

/-- The map behind a call that succeeds. -/
def after (a : Marked) : Change → Marked
  | .set key value => ⟨Function.update a.values key (some value), a.marks.erase key⟩
  | .delete key => ⟨Function.update a.values key none, insert key a.marks⟩
  | .compact => ⟨a.values, ∅⟩

theorem values_after_set (a : Marked) (key other : String) (value : MetaValue) :
    (a.after (.set key value)).values other = if other = key then some value else a.values other :=
  Function.update_apply a.values key (some value) other

theorem values_after_delete (a : Marked) (key other : String) :
    (a.after (.delete key)).values other = if other = key then none else a.values other :=
  Function.update_apply a.values key none other

/-- The map behind a call with the given outcome. -/
def follow (a : Marked) (change : Change) : Result Nat → Marked
  | .ok _ => a.after change
  | .error _ => a

/-- The map behind calls with the given outcomes. -/
def followAll (a : Marked) : List Change → List (Result Nat) → Marked
  | change :: changes, outcome :: outcomes => (a.follow change outcome).followAll changes outcomes
  | _, _ => a

end Marked

/-- The answers of metadata are those of a map: its keys are listed in the order of their bytes, and no key
is listed twice. -/
structure Answers (m : Metadata) (values : String → Option MetaValue) : Prop where
  get : ∀ key, m.get key = (values key).elim (.error (.metadataKey key)) .ok
  contains : ∀ key, m.contains key = (values key).isSome
  mem_keys : ∀ key, key ∈ m.keys ↔ (values key).isSome
  nodup : m.keys.Nodup
  ascending : m.keys.Pairwise fun key key' => Utf8.encode key < Utf8.encode key'
  size : m.size = m.keys.length
  isEmpty : m.isEmpty = true ↔ ∀ key, values key = none

/-! ## Entries and values -/

/-- Metadata that hold a map with marks: every entry is read as the value of its key, and the deleted ones
are those with marks. -/
structure Holds (m : Metadata) (a : Marked) : Prop where
  kept : m.WellKept
  typesize : 0 < m.codec.typesize
  values : ∀ key, Option.Rel (fun c value => c.decompress >>= MetaValue.decode = .ok value)
    (m.entry? key) (a.values key)
  marks : ∀ key, key ∈ a.marks ↔ m.entries.find? key = some none

/-- New metadata hold the empty map. -/
theorem holds_new {codec : CodecConfig} (hcodec : codec.validate = .ok ()) : Holds { codec } {} := by
  obtain ⟨-, hpos, hle⟩ := CodecConfig.validate_eq_ok_iff.1 hcodec
  exact ⟨wellKept_empty (by omega), hpos, fun key => .none, fun key => by simp [SortedMap.find?]⟩

theorem entry?_insert (m : Metadata) (key other : String) (slot : Option Chunk) :
    Metadata.entry? { m with entries := m.entries.insert key slot } other =
      if other = key then slot else m.entry? other := by
  unfold entry?
  split
  · rename_i hsame
    subst hsame
    rw [SortedMap.find?_insert_self]
    rfl
  · rename_i hne
    rw [SortedMap.find?_insert_ne _ _ hne]

namespace Holds

variable {a : Marked}

theorem get_eq (h : m.Holds a) (key : String) :
    m.get key = (a.values key).elim (.error (.metadataKey key)) .ok := by
  have hvalue := h.values key
  rw [get]
  cases hentry : m.entry? key with
  | none =>
    rw [hentry] at hvalue
    cases hstored : a.values key with
    | none => rfl
    | some value =>
      rw [hstored] at hvalue
      cases hvalue
  | some c =>
    rw [hentry] at hvalue
    cases hstored : a.values key with
    | none =>
      rw [hstored] at hvalue
      cases hvalue
    | some value =>
      rw [hstored] at hvalue
      cases hvalue with
      | some hshows => exact hshows

theorem contains_eq (h : m.Holds a) (key : String) : m.contains key = (a.values key).isSome := by
  have hvalue := h.values key
  rw [contains]
  generalize m.entry? key = entry at hvalue
  generalize a.values key = value at hvalue
  cases hvalue <;> rfl

end Holds

/-- The keys that are listed are those of the live entries. -/
theorem mem_keys_iff (h : m.WellKept) : key ∈ m.keys ↔ m.contains key = true := by
  rw [keys, contains, entry?]
  simp only [List.mem_map, live, List.mem_filterMap, Option.map_eq_some_iff]
  constructor
  · rintro ⟨_, ⟨⟨key, slot⟩, hmem, c, rfl, rfl⟩, rfl⟩
    rw [h.sorted.find?_eq_some_iff.2 hmem]
    rfl
  · intro hsome
    obtain ⟨c, hc⟩ := Option.isSome_iff_exists.1 hsome
    have hfind : m.entries.find? key = some (some c) := Option.join_eq_some_iff.1 hc
    exact ⟨(key, c), ⟨_, h.sorted.find?_eq_some_iff.1 hfind, c, rfl, rfl⟩, rfl⟩

/-- Keys are listed in order. -/
theorem WellKept.pairwise_keys (h : m.WellKept) : m.keys.Pairwise (· < ·) := by
  have hsorted := h.compact.sorted
  rw [entries_compact, SortedMap.Sorted, List.pairwise_map] at hsorted
  rw [keys, List.pairwise_map]
  exact hsorted

/-- Metadata that hold a map answer as the map does. -/
theorem Holds.answers {a : Marked} (h : m.Holds a) : m.Answers a.values where
  get := h.get_eq
  contains := h.contains_eq
  mem_keys key := by rw [mem_keys_iff h.kept, h.contains_eq]
  nodup := h.kept.pairwise_keys.imp fun hlt => String.ne_of_lt hlt
  ascending := h.kept.pairwise_keys.imp Utf8.encode_lt_encode
  size := by rw [size, keys, List.length_map]
  isEmpty := by
    rw [isEmpty, beq_iff_eq, size, ← List.length_map (f := Prod.fst), List.length_eq_zero_iff]
    change m.keys = [] ↔ _
    rw [List.eq_nil_iff_forall_not_mem]
    refine forall_congr' fun key => ?_
    rw [mem_keys_iff h.kept, h.contains_eq, Bool.not_eq_true, Option.isSome_eq_false_iff,
      Option.isNone_iff_eq_none]

/-! ## One call -/

namespace Holds

variable {a : Marked}

/-- A key that is set has its value, and its mark is gone. -/
theorem set (h : m.Holds a) (hdecode : MetaValue.decode value.encode = .ok value)
    (hsize : value.encode.size < 2 ^ 63) (hset : m.set key value = .ok m') :
    m'.Holds (a.after (.set key value)) := by
  have hkept := h.kept.set hsize hset
  obtain ⟨c, hc, rfl⟩ := set_eq_ok hset
  refine ⟨hkept, h.typesize, fun other => ?_, fun other => ?_⟩
  · rw [entry?_insert, Marked.values_after_set]
    split
    · refine .some ?_
      rw [(Chunk.holds_compress h.typesize hsize hc).decompress]
      exact hdecode
    · exact h.values other
  · rw [Marked.after, Finset.mem_erase]
    by_cases hsame : other = key
    · subst hsame
      simp [SortedMap.find?_insert_self]
    · rw [SortedMap.find?_insert_ne _ _ hsame, ← h.marks]
      simp [hsame]

/-- A key that is deleted has no value, and a mark. -/
theorem delete (h : m.Holds a) (hdelete : m.delete key = .ok m') :
    m'.Holds (a.after (.delete key)) := by
  have hkept := h.kept.delete hdelete
  rw [Metadata.delete] at hdelete
  split at hdelete
  · cases hdelete
    refine ⟨hkept, h.typesize, fun other => ?_, fun other => ?_⟩
    · rw [entry?_insert, Marked.values_after_delete]
      split
      · exact .none
      · exact h.values other
    · rw [Marked.after, Finset.mem_insert]
      by_cases hsame : other = key
      · subst hsame
        simp [SortedMap.find?_insert_self]
      · rw [SortedMap.find?_insert_ne _ _ hsame, ← h.marks]
        simp [hsame]
  · cases hdelete

/-- Behind the dropping of marks there are none. -/
theorem compact (h : m.Holds a) : m.compact.2.Holds (a.after .compact) := by
  refine ⟨h.kept.compact, h.typesize, fun key => ?_, fun key => ?_⟩
  · rw [entry?_compact h.kept.sorted]
    exact h.values key
  · refine iff_of_false (Finset.notMem_empty key) fun hfind => ?_
    have hmem := SortedMap.mem_of_find?_eq_some hfind
    simpa using (List.mem_filter.1 hmem).2

/-- A key is deleted if it is present, and else refused. -/
theorem delete_outcome (h : m.Holds a) (key : String) :
    (m.perform (.delete key)).1 =
      if (a.values key).isSome then .ok 0 else .error (.metadataKey key) := by
  rw [perform, Metadata.delete, h.contains_eq]
  split <;> rfl

/-- As many marks are dropped as there are. -/
theorem compact_outcome (h : m.Holds a) : m.compact.1 = a.marks.card := by
  have hcount : m.compact.1 = (m.entries.filter fun e => !e.2.isSome).length := by
    have hlength := List.length_eq_length_filter_add (l := m.entries) fun e => e.2.isSome
    rw [Metadata.compact]
    dsimp only
    omega
  have hnodup : ((m.entries.filter fun e => !e.2.isSome).map Prod.fst).Nodup := by
    have hsorted := h.kept.sorted.filter fun e => !e.2.isSome
    rw [SortedMap.Sorted, ← List.pairwise_map (f := Prod.fst) (R := (· < ·))] at hsorted
    exact hsorted.imp fun hlt => String.ne_of_lt hlt
  have hmarks : a.marks = ((m.entries.filter fun e => !e.2.isSome).map Prod.fst).toFinset := by
    ext key
    rw [h.marks, h.kept.sorted.find?_eq_some_iff, List.mem_toFinset]
    simp
  rw [hcount, hmarks, List.toFinset_card_of_nodup hnodup, List.length_map]

/-- A call changes metadata as it changes the map that they hold. -/
theorem perform (h : m.Holds a) {change : Change}
    (hchange : ∀ key value, change = .set key value →
      MetaValue.decode value.encode = .ok value ∧ value.encode.size < 2 ^ 63) :
    (m.perform change).2.Holds (a.follow change (m.perform change).1) := by
  cases change with
  | set key value =>
    obtain ⟨hdecode, hsize⟩ := hchange key value rfl
    rw [Metadata.perform]
    cases hset : m.set key value with
    | error e => exact h
    | ok m' => exact h.set hdecode hsize hset
  | delete key =>
    rw [Metadata.perform]
    cases hdelete : m.delete key with
    | error e => exact h
    | ok m' => exact h.delete hdelete
  | compact => exact h.compact

/-! ## Calls one after the other -/

/-- Calls change metadata as they change the map that they hold. -/
theorem performAll (h : m.Holds a) {changes : List Change}
    (hchanges : ∀ key value, Change.set key value ∈ changes →
      MetaValue.decode value.encode = .ok value ∧ value.encode.size < 2 ^ 63) :
    (m.performAll changes).2.Holds (a.followAll changes (m.performAll changes).1) := by
  induction changes generalizing m a with
  | nil => exact h
  | cons change changes ih =>
    have hstep : (m.perform change).2.Holds (a.follow change (m.perform change).1) :=
      h.perform fun key value hset => hchanges key value (hset ▸ List.mem_cons_self)
    exact ih hstep fun key value hmem => hchanges key value (List.mem_cons_of_mem _ hmem)

/-- Restored from their stored form, metadata hold the same map without marks. -/
theorem restored (h : m.Holds a) (hcount : ∀ e ∈ m.live, e.2.Countable) :
    ∃ m', ({} : Metadata).insertAll m.rawEntries = .ok m' ∧ m'.Holds ⟨a.values, ∅⟩ := by
  refine ⟨_, h.kept.insertAll_of_countable hcount, ?_⟩
  have hcompact := h.compact
  have hdefault : ({} : Metadata).codec.typesize = 1 := rfl
  exact ⟨⟨hcompact.kept.sorted, hcompact.kept.entries, hdefault.trans_lt (by decide)⟩,
    hdefault ▸ Nat.one_pos, hcompact.values, hcompact.marks⟩

end Holds

/-- Behind any calls that set values which come back from their text, delete keys and drop marks, metadata
under valid parameters answer as the map that the successful ones make. A key is deleted exactly if it is
present, no refused call changes anything, as many marks are dropped as there are, and that changes no
answer. Metadata that are restored from the stored form of the entries, as long as the head of every entry
can say its number of blocks, give the same answers and have no marks. -/
theorem changes_refine_map {codec : CodecConfig} (hcodec : codec.validate = .ok ())
    {changes : List Change} (hchanges : ∀ key value, Change.set key value ∈ changes →
      MetaValue.decode value.encode = .ok value ∧ value.encode.size < 2 ^ 63) :
    let run := ({ codec } : Metadata).performAll changes
    let a := ({} : Marked).followAll changes run.1
    run.2.Answers a.values ∧
      (∀ key, (run.2.perform (.delete key)).1 =
        if (a.values key).isSome then .ok 0 else .error (.metadataKey key)) ∧
      (∀ change e, (run.2.perform change).1 = .error e → (run.2.perform change).2 = run.2) ∧
      (run.2.perform .compact).1 = .ok a.marks.card ∧
      (run.2.perform .compact).2.Answers a.values ∧
      ((∀ e ∈ run.2.live, e.2.Countable) →
        ∃ m', ({} : Metadata).insertAll run.2.rawEntries = .ok m' ∧ m'.Answers a.values ∧
          m'.compact.1 = 0) := by
  intro run a
  have hholds : run.2.Holds a := (holds_new hcodec).performAll hchanges
  refine ⟨hholds.answers, hholds.delete_outcome, fun change e he => perform_of_error he,
    congrArg Except.ok hholds.compact_outcome, hholds.compact.answers, fun hcount => ?_⟩
  obtain ⟨m', hrestored, hm'⟩ := hholds.restored hcount
  exact ⟨m', hrestored, hm'.answers, hm'.compact_outcome⟩

/-- Two keys are set and deleted, one of them twice, and then that one is set again. -/
def revival : List Change :=
  [.set "b" (.int 1), .set "a" (.bool true), .delete "b", .delete "b", .delete "a", .set "b" .null]

/-- The second deletion is refused, one key is present, and one mark is left. -/
theorem changes_refine_map_revival :
    ∃ m, ({ codec := { codec := .noop } } : Metadata).performAll revival =
        ([.ok 0, .ok 0, .ok 0, .error (.metadataKey "b"), .ok 0, .ok 0], m) ∧
      m.get "b" = .ok .null ∧ m.get "a" = .error (.metadataKey "a") ∧ m.keys = ["b"] ∧
      (m.perform .compact).1 = .ok 1 ∧
      ∃ m', ({} : Metadata).insertAll m.rawEntries = .ok m' ∧ m'.get "b" = .ok .null := by
  have hwritable : ∀ key value, Change.set key value ∈ revival →
      value.Writable MetaValue.maxDepth ∧ value.encode.size < 2 ^ 63 := by
    intro key value hmem
    simp only [revival, List.mem_cons, Change.set.injEq, reduceCtorEq, List.not_mem_nil, or_false,
      false_or] at hmem
    obtain ⟨-, rfl⟩ | ⟨-, rfl⟩ | ⟨-, rfl⟩ := hmem
    · exact ⟨.int (by decide) (by decide), by decide +kernel⟩
    · exact ⟨.bool true, by decide⟩
    · exact ⟨.null, by decide⟩
  have hcodec : CodecConfig.validate { codec := .noop } = .ok () := rfl
  have hrun := changes_refine_map hcodec fun key value hmem =>
    ⟨MetaValue.decode_encode (hwritable key value hmem).1, (hwritable key value hmem).2⟩
  have houtcomes : (({ codec := { codec := .noop } } : Metadata).performAll revival).1 =
      [.ok 0, .ok 0, .ok 0, .error (.metadataKey "b"), .ok 0, .ok 0] := rfl
  dsimp only at hrun
  rw [houtcomes] at hrun
  obtain ⟨hanswers, -, -, hdropped, -, hrestored⟩ := hrun
  have hsizes : (({ codec := { codec := .noop } } : Metadata).performAll revival).2.live.map
      (fun e => e.2.nbytes) = [6] := rfl
  obtain ⟨m', hm', hsame, -⟩ := hrestored fun e he => by
    have hmem := List.mem_map_of_mem (f := fun e => e.2.nbytes) he
    rw [hsizes, List.mem_singleton] at hmem
    exact .inr (.inl (by omega))
  refine ⟨_, Prod.ext houtcomes rfl, hanswers.get "b", hanswers.get "a", rfl, hdropped, m', hm',
    hsame.get "b"⟩

end ChunkedArray.Metadata
