import ChunkedArray.Metadata.Store
import ChunkedArray.Proofs.Chunk.Serialized
import ChunkedArray.Proofs.SortedMap

/-!
# Metadata restored from its stored form

A metadata store keeps its entries sorted, and every value that it holds is a chunk which is read
back from its serialized form. The live entries in stored form therefore restore the store as it is
once the marks of deleted keys are dropped, and dropping those marks changes no answer.
-/

namespace ChunkedArray

/-- A chunk that one byte of element width is enough for, and that is read back if it is short. -/
structure Chunk.IsEntry (c : Chunk) : Prop where
  typesize : c.header.typesize < 256
  readsBack : c.ReadsBack

/-- An entry whose number of blocks fits its field is read back as it is. -/
theorem Chunk.IsEntry.ofBytes_data {c : Chunk} (h : c.IsEntry) (hcount : c.Countable) :
    ofBytes c.data = .ok c := by
  have hread := h.readsBack hcount
  rwa [narrowed_of_lt h.typesize] at hread

theorem Chunk.isEntry_of_ofBytes {data : Bytes} {c : Chunk} (h : ofBytes data = .ok c) :
    c.IsEntry :=
  ⟨typesize_lt_of_ofBytes h, readsBack_of_ofBytes h⟩

namespace Metadata

variable {m m' : Metadata}

/-- The entries are sorted, and every value among them is read back from its stored form. -/
structure WellKept (m : Metadata) : Prop where
  sorted : m.entries.Sorted
  entries : ∀ e ∈ m.entries, ∀ c ∈ e.2, c.IsEntry
  typesize : m.codec.typesize < 256

/-! ## What keeps a metadata store in order -/

/-- A metadata store without entries is in order if its element width fits a byte. -/
theorem wellKept_empty {codec : CodecConfig} (h : codec.typesize < 256) :
    WellKept { codec } :=
  ⟨SortedMap.sorted_nil, by simp, h⟩

theorem WellKept.insert (h : m.WellKept) (key : String) {slot : Option Chunk}
    (hslot : ∀ c ∈ slot, c.IsEntry) :
    WellKept { m with entries := m.entries.insert key slot } := by
  refine ⟨h.sorted.insert key slot, fun e he => ?_, h.typesize⟩
  obtain rfl | hold := SortedMap.eq_or_mem_of_mem_insert he
  · exact hslot
  · exact h.entries e hold

/-- Setting a value keeps a metadata store in order. -/
theorem WellKept.set (h : m.WellKept) {key : String} {value : MetaValue}
    (hsize : value.encode.size < 2 ^ 63) (hset : m.set key value = .ok m') : m'.WellKept := by
  obtain ⟨c, hc, hset⟩ := bind_eq_ok.1 hset
  cases hset
  refine h.insert key fun c' hc' => ?_
  cases hc'
  have htypesize := h.typesize
  refine ⟨?_, Chunk.readsBack_of_compress hsize hc⟩
  rw [Chunk.typesize_of_compress hc]
  omega

/-- Deleting a key keeps a metadata store in order. -/
theorem WellKept.delete (h : m.WellKept) {key : String} (hdelete : m.delete key = .ok m') :
    m'.WellKept := by
  rw [Metadata.delete] at hdelete
  split at hdelete
  · cases hdelete
    exact h.insert key (by simp)
  · cases hdelete

/-- Dropping the marks of deleted keys keeps a metadata store in order. -/
theorem WellKept.compact (h : m.WellKept) : m.compact.2.WellKept :=
  ⟨h.sorted.filter _, fun e he => h.entries e (List.mem_filter.1 he).1, h.typesize⟩

/-- What holds of a metadata store and stays with every entry that is restored holds behind all. -/
theorem insertAll_induction {P : Metadata → Prop} {stored : List (String × Bytes)} (h : P m)
    (hstep : ∀ e ∈ stored, ∀ (m : Metadata) (c : Chunk), P m → Chunk.ofBytes e.2 = .ok c →
      P { m with entries := m.entries.insert e.1 (some c) })
    (hinsert : m.insertAll stored = .ok m') : P m' := by
  induction stored generalizing m with
  | nil =>
    cases hinsert
    exact h
  | cons e rest ih =>
    obtain ⟨next, hnext, hrest⟩ := bind_eq_ok.1 hinsert
    obtain ⟨c, hc, hnext⟩ := bind_eq_ok.1 hnext
    cases hnext
    obtain ⟨hfirst, hothers⟩ := List.forall_mem_cons.1 hstep
    exact ih (hfirst m c h hc) hothers hrest

/-- Restoring entries keeps a metadata store in order. -/
theorem WellKept.insertAll (h : m.WellKept) {stored : List (String × Bytes)}
    (hinsert : m.insertAll stored = .ok m') : m'.WellKept := by
  refine insertAll_induction h (fun e _ m c hm hc => ?_) hinsert
  apply hm.insert e.1
  intro c' hc'
  cases hc'
  exact Chunk.isEntry_of_ofBytes hc

/-- What holds of the entries of a metadata store and of all that are restored holds behind it. -/
theorem forall_of_insertAll {P : Chunk → Prop} {stored : List (String × Bytes)}
    (h : ∀ e ∈ m.entries, ∀ c ∈ e.2, P c)
    (hstored : ∀ e ∈ stored, ∀ c, Chunk.ofBytes e.2 = .ok c → P c)
    (hinsert : m.insertAll stored = .ok m') : ∀ e ∈ m'.entries, ∀ c ∈ e.2, P c := by
  refine insertAll_induction (P := fun m => ∀ e ∈ m.entries, ∀ c ∈ e.2, P c) h ?_ hinsert
  intro e he m c hm hc e' he'
  obtain rfl | hold := SortedMap.eq_or_mem_of_mem_insert he'
  · intro c' hc'
    cases hc'
    exact hstored e he c hc
  · exact hm e' hold

/-! ## Without the marks of deleted keys -/

/-- Without the marks, the entries are the live ones. -/
theorem entries_compact (m : Metadata) :
    m.compact.2.entries = m.live.map fun e => (e.1, some e.2) := by
  rw [live, compact]
  dsimp only
  induction m.entries with
  | nil => rfl
  | cons e rest ih =>
    obtain ⟨key, slot⟩ := e
    cases slot with
    | none => simpa using ih
    | some c => simpa using ih

theorem live_compact (m : Metadata) : m.compact.2.live = m.live := by
  rw [live, entries_compact]
  rw [List.filterMap_map]
  exact List.filterMap_some

theorem rawEntries_compact (m : Metadata) : m.compact.2.rawEntries = m.rawEntries := by
  rw [rawEntries, live_compact, rawEntries]

theorem keys_compact (m : Metadata) : m.compact.2.keys = m.keys := by
  rw [keys, live_compact, keys]

/-- A key is found without the marks exactly if it is found among them. -/
theorem entry?_compact (h : m.entries.Sorted) (key : String) :
    Metadata.entry? m.compact.2 key = m.entry? key := by
  unfold entry? compact
  dsimp only
  generalize m.entries = entries at h
  induction entries with
  | nil => rfl
  | cons e rest ih =>
    obtain ⟨hbehind, hrest⟩ := SortedMap.sorted_cons.1 h
    obtain ⟨other, slot⟩ := e
    cases slot with
    | some c =>
      rw [List.filter_cons_of_pos (by rfl), SortedMap.find?, SortedMap.find?]
      split
      · rfl
      · exact ih hrest
    | none =>
      rw [List.filter_cons_of_neg (by simp), ih hrest, SortedMap.find?]
      split
      · -- The key is deleted, and as the keys ascend it does not occur again.
        rename_i hkey
        subst hkey
        rw [SortedMap.find?_eq_none_of_forall_lt hbehind]
        rfl
      · rfl

theorem get_compact (h : m.entries.Sorted) (key : String) : m.compact.2.get key = m.get key := by
  rw [get, get, entry?_compact h]

/-! ## Restoring -/

/-- Stored entries that are read back are inserted one after the other. -/
theorem insertAll_eq_ok {entries : List (String × Chunk)} (m : Metadata)
    (h : ∀ e ∈ entries, Chunk.ofBytes e.2.data = .ok e.2) :
    m.insertAll (entries.map fun e => (e.1, e.2.data)) =
      .ok ⟨(entries.map fun e => (e.1, some e.2)).foldl (fun m p => SortedMap.insert m p.1 p.2)
        m.entries, m.codec⟩ := by
  induction entries generalizing m with
  | nil => rfl
  | cons e rest ih =>
    have hrest := ih { m with entries := m.entries.insert e.1 (some e.2) }
      fun e' he' => h e' (List.mem_cons_of_mem _ he')
    rw [List.map_cons, Metadata.insertAll, insertRaw, h e List.mem_cons_self]
    exact hrest

/-- A live entry is a value of the metadata store. -/
theorem WellKept.live (h : m.WellKept) : ∀ e ∈ m.live, e.2.IsEntry := by
  intro e he
  obtain ⟨entry, hentry, hlive⟩ := List.mem_filterMap.1 he
  obtain ⟨c, hc, rfl⟩ := Option.map_eq_some_iff.1 hlive
  exact h.entries entry hentry c hc

/-- The stored form of the live entries restores them, and nothing else. -/
theorem WellKept.insertAll_of_countable (h : m.WellKept) (hcount : ∀ e ∈ m.live, e.2.Countable) :
    ({} : Metadata).insertAll m.rawEntries = .ok { entries := m.compact.2.entries } := by
  have hsorted := h.compact.sorted
  rw [entries_compact] at hsorted
  rw [rawEntries, insertAll_eq_ok {} fun e he => (h.live e he).ofBytes_data (hcount e he),
    entries_compact]
  exact congrArg _ (congrArg (Metadata.mk · _) (SortedMap.foldl_insert_of_sorted [] _ hsorted))

theorem WellKept.insertAll_rawEntries (h : m.WellKept)
    (hsize : ∀ e ∈ m.rawEntries, e.2.size < 2 ^ 32) :
    ({} : Metadata).insertAll m.rawEntries = .ok { entries := m.compact.2.entries } :=
  h.insertAll_of_countable fun _ he =>
    .inr (.inr (hsize _ (List.mem_map_of_mem (f := fun e => (e.1, e.2.data)) he)))

/-- A key has the value that was restored for it last, or else the one that it had. -/
theorem entry?_of_insertAll {stored : List (String × Bytes)}
    (hinsert : m.insertAll stored = .ok m') (key : String) :
    (m'.entry? key).map Chunk.data =
      (stored.reverse.lookup key).or ((m.entry? key).map Chunk.data) := by
  -- On the entries: one that comes later under the same key replaces the value.
  induction stored generalizing m with
  | nil =>
    cases hinsert
    rfl
  | cons e rest ih =>
    obtain ⟨next, hnext, hrest⟩ := bind_eq_ok.1 hinsert
    obtain ⟨c, hc, hnext⟩ := bind_eq_ok.1 hnext
    cases hnext
    obtain ⟨other, data⟩ := e
    rw [ih hrest, List.reverse_cons, List.lookup_append, Option.or_assoc]
    congr 1
    unfold entry?
    by_cases hkey : key = other
    · subst hkey
      rw [SortedMap.find?_insert_self, List.lookup_cons_self, Option.some_or]
      exact congrArg some (Chunk.ofBytes_eq_ok hc).2.1
    · rw [SortedMap.find?_insert_ne _ _ hkey, List.lookup_cons, beq_false_of_ne hkey]
      rfl

/-- Restored metadata has no marks of deleted keys, and nothing is left to drop. -/
theorem compact_of_insertAll {stored : List (String × Bytes)}
    (hinsert : ({} : Metadata).insertAll stored = .ok m') :
    m'.compact.2 = m' ∧ m' = { entries := m'.entries } := by
  have hcodec : m'.codec = ({} : Metadata).codec :=
    insertAll_induction (P := fun m => m.codec = ({} : Metadata).codec) rfl (fun _ _ _ _ hm _ => hm)
      hinsert
  have hlive : ∀ e ∈ m'.entries, e.2.isSome := by
    refine insertAll_induction (P := fun m => ∀ e ∈ m.entries, e.2.isSome) (by simp) ?_ hinsert
    intro e _ m c hm _ e' he'
    obtain rfl | hold := SortedMap.eq_or_mem_of_mem_insert he'
    · rfl
    · exact hm e' hold
  obtain ⟨entries, codec⟩ := m'
  obtain rfl : codec = _ := hcodec
  exact ⟨congrArg (Metadata.mk · _) (List.filter_eq_self.2 hlive), rfl⟩

end Metadata

end ChunkedArray
