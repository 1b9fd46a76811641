import ChunkedArray.Proofs.Codec.Config
import ChunkedArray.Proofs.Store.Refinement
import ChunkedArray.Proofs.Store.Starts

/-!
# Questions about a store in memory

A store in memory answers every question from the list of slots that it shows, and asking changes
nothing. A byte range of the whole is read from the first slot that reaches behind its start; what has
been read so far is always the part of the range that lies in front of the next slot.
-/

namespace ChunkedArray

namespace SlotList

variable {p : SlotList}

@[simp] theorem length_sizes (p : SlotList) : p.sizes.length = p.nchunks := by
  simp [sizes, nchunks]

theorem start_mono (p : SlotList) {i j : Nat} (h : i ≤ j) : p.start i ≤ p.start j := by
  obtain ⟨k, rfl⟩ := Nat.exists_eq_add_of_le h
  rw [start, start, List.take_add, List.sum_append]
  exact Nat.le_add_right _ _

theorem start_of_le (p : SlotList) {i : Nat} (h : p.nchunks ≤ i) : p.start i = p.nbytes := by
  rw [start, List.take_of_length_le (by simpa using h), nbytes]

theorem start_succ {slot : Option Bytes} {i : Nat} (h : p.slots[i]? = some slot) :
    p.start (i + 1) = p.start i + (slot.map Array.size).getD p.chunkSize := by
  have hsize : p.sizes[i]? = some ((slot.map Array.size).getD p.chunkSize) := by
    simp [sizes, h]
  rw [start, start, List.take_add_one, hsize]
  simp

/-- The content up to a slot is that of the slots in front of it. -/
theorem size_concat_take (p : SlotList) (i : Nat) :
    (Bytes.concat ((p.slots.map fun slot => slot.getD (Bytes.zeros p.chunkSize)).take i)).size =
      p.start i := by
  rw [Bytes.size_concat, start, sizes, List.map_take, List.map_map]
  congr 3
  funext slot
  cases slot <;> simp

theorem size_content (p : SlotList) : p.content.size = p.nbytes := by
  have h := p.size_concat_take p.nchunks
  rwa [List.take_of_length_le (by simp [nchunks]), p.start_of_le le_rfl] at h

/-- Between its own start and that of the next slot the content is that of the slot. -/
theorem extract_content {raw : Bytes} {i : Nat} (h : p.slots[i]? = some (some raw)) (low high : Nat)
    (hhigh : high ≤ raw.size) :
    p.content.extract (p.start i + low) (p.start i + high) = raw.extract low high := by
  have hparts : (p.slots.map fun slot => slot.getD (Bytes.zeros p.chunkSize))[i]? = some raw := by
    simp [h]
  have hfront := p.size_concat_take i
  rw [content]
  generalize p.slots.map (fun slot => slot.getD (Bytes.zeros p.chunkSize)) = parts at hparts hfront
  obtain ⟨hlt, hget⟩ := List.getElem?_eq_some_iff.1 hparts
  rw [← List.take_append_drop i parts, List.drop_eq_getElem_cons hlt, hget, Bytes.concat_append,
    Bytes.concat_cons, ← hfront]
  simp [Array.extract_append, hhigh]

/-- Without reserved slots the whole range can be read. -/
theorem readBytes_all (hfull : none ∉ p.slots) (hword : p.nbytes < 2 ^ 64) :
    p.readBytes 0 p.nbytes = .ok p.content := by
  have hstop : Chunk.saturatingAdd 0 p.nbytes = p.nbytes := by
    rw [Chunk.saturatingAdd]
    omega
  have hnone : (List.range p.nchunks).find? (p.isMissing 0 p.nbytes) = none := by
    apply List.find?_eq_none.2
    intro i _ hmissing
    rw [isMissing, Bool.and_eq_true, decide_eq_true_eq] at hmissing
    exact hfull (List.mem_of_getElem? hmissing.1)
  rw [readBytes, hstop, if_neg (lt_irrefl _), hnone, ← size_content]
  exact congrArg _ Array.extract_size

end SlotList

namespace Store.InMemory

variable {s : Store}

/-! ## Single slots -/

theorem holds (h : s.InMemory) {i : Nat} {c : Chunk} (hslot : s.table.slots[i]? = some (.loaded c)) :
    c.Holds c.raw :=
  h.slots _ (Array.mem_of_getElem? hslot)

/-- A slot in memory answers without a change. -/
theorem run_chunk (h : s.InMemory) (source : ChunkSource) (i : Nat) :
    Action.run (chunk source i) s = (s.fetch source i, s) := by
  simp only [chunk, Action.run_bind, Action.run_get, fetch]
  cases hslot : s.table.slots[i]? with
  | none => rfl
  | some slot =>
    cases slot with
    | reserved => rfl
    | loaded c => rfl
    | pending nbytes cbytes => exact (h.slots _ (Array.mem_of_getElem? hslot)).elim

/-- What is read off a chunk is read off the slot of the list. -/
theorem run_readWith (h : s.InMemory) (source : ChunkSource) (i : Nat)
    {read : Chunk → Result Bytes} (expected : Bytes → Result Bytes)
    (hread : ∀ c content, c.Holds content →
      (read c).mapError (Error.atChunk i) = expected content) :
    Action.run (readWith source i read) s = (s.slotList.getChunk i >>= expected, s) := by
  rw [readWith, Action.run_bind, h.run_chunk, SlotList.getChunk, getElem?_slotList, fetch,
    length_slotList]
  cases hslot : s.table.slots[i]? with
  | none => rfl
  | some slot =>
    cases slot with
    | reserved => rfl
    | loaded c =>
      have hc := hread c c.raw (h.holds hslot)
      simp only [Slot.fetch, Action.run_liftM, hc]
      rfl
    | pending nbytes cbytes => exact (h.slots _ (Array.mem_of_getElem? hslot)).elim

theorem run_getChunk (h : s.InMemory) (source : ChunkSource) (i : Nat) :
    Action.run (Store.getChunk source i) s = (s.slotList.getChunk i, s) := by
  rw [Store.getChunk, h.run_readWith source i pure fun c content hc => by
    rw [hc.decompress]; rfl, bind_pure]

/-- The slots of the list start where those of the store do. -/
theorem start_eq (h : s.InMemory) (i : Nat) : s.start i = s.slotList.start i := by
  rw [Store.start, extents, h.map_extent, SlotList.start]

theorem starts_getD (h : s.InMemory) {i : Nat} (hi : i < s.nchunks) :
    s.table.starts.getD i 0 = s.slotList.start i := by
  rw [h.tallied.starts_getD hi, h.start_eq]

/-- Behind the end of a range no slot is missing from it. -/
theorem find?_isMissing_of_le (p : SlotList) {start stop i : Nat} (hstop : stop ≤ p.start i)
    (count : Nat) : (List.range' i count).find? (p.isMissing start stop) = none := by
  apply List.find?_eq_none.2
  intro j hj
  have hmono := p.start_mono (List.mem_range'_1.1 hj).1
  simp only [SlotList.isMissing, Bool.and_eq_true, decide_eq_true_eq]
  omega

/-- A chunk in memory gives its part of a range, and reading goes on behind it. -/
theorem run_readFrom_loaded (h : s.InMemory) (source : ChunkSource) {i : Nat} {c : Chunk}
    (hslot : s.table.slots[i]? = some (.loaded c)) {start stop : Nat} {out : Bytes} (count : Nat)
    (hmore : ¬ stop - start ≤ out.size) :
    Action.run (readFrom source start stop out i (count + 1)) s =
      Action.run (readFrom source start stop
        (out ++ s.slotList.content.extract (max start (s.slotList.start i))
          (min stop (s.slotList.start i + c.nbytes))) (i + 1) count) s := by
  have hholds := h.holds hslot
  have hnbytes := hholds.nbytes
  have hi : i < s.nchunks := (Array.getElem?_eq_some_iff.1 hslot).1
  rw [readFrom, if_neg hmore, Action.run_bind_of_ok (Action.run_get s), h.starts_getD hi]
  have hpart := @SlotList.extract_content s.slotList c.raw i
    (by rw [getElem?_slotList, hslot]; rfl)
  generalize s.slotList.start i = base at hpart ⊢
  simp only [Action.run_bind_of_ok (run_chunk_loaded hslot)]
  by_cases hlow : max start base - base < min stop (base + c.nbytes) - base
  · have hinside : max start base - base + (min stop (base + c.nbytes) - base -
        (max start base - base)) ≤ c.raw.size := by omega
    have hpiece := hpart (max start base - base) (min stop (base + c.nbytes) - base) (by omega)
    rw [Nat.add_sub_cancel' (Nat.le_max_right _ _), Nat.add_sub_cancel' (by omega)] at hpiece
    have hread : (c.decompressRange (max start base - base) (min stop (base + c.nbytes) - base -
        (max start base - base))).mapError (Error.atChunk i) =
          .ok (s.slotList.content.extract (max start base) (min stop (base + c.nbytes))) := by
      rw [hholds.decompressRange hinside, Bytes.slice, Nat.add_sub_cancel' hlow.le, hpiece]
      rfl
    rw [if_pos hlow, hread, Action.run_bind_of_ok (Action.run_liftM _ s)]
  · rw [if_neg hlow, Array.extract_eq_empty_of_le (by omega), pure_bind]

/-- A reserved slot that starts in front of the end of a range and reaches behind its start is missing
from it. -/
theorem isMissing_of_reserved (h : s.InMemory) {i : Nat} (hslot : s.table.slots[i]? = some .reserved)
    {start stop : Nat} (hlt : start < stop) (hstop : s.slotList.start i < stop)
    (hbehind : start < s.slotList.start (i + 1)) : s.slotList.isMissing start stop i = true := by
  have hshown : s.slotList.slots[i]? = some none := by
    rw [getElem?_slotList, hslot]
    rfl
  have hnext := SlotList.start_succ hshown
  have hpos : 0 < s.slotList.chunkSize := h.chunkSize
  simp only [Option.map_none, Option.getD_none] at hnext
  simp only [SlotList.isMissing, hshown, Bool.and_eq_true, decide_eq_true_eq]
  exact ⟨trivial, by omega⟩

/-- From a slot on that reaches behind the start of a range, what is read continues what has been
read so far up to the end of the range, or stops at the first reserved slot in it. -/
theorem run_readFrom (h : s.InMemory) (source : ChunkSource) {start stop : Nat}
    (hlt : start < stop) (hstop : stop ≤ s.slotList.nbytes) (i count : Nat)
    (hcount : i + count = s.nchunks) (hbehind : start < s.slotList.start (i + 1)) :
    Action.run (readFrom source start stop
        (s.slotList.content.extract start (min stop (s.slotList.start i))) i count) s =
      (match (List.range' i count).find? (s.slotList.isMissing start stop) with
        | some j => .error (.index (.reserved j))
        | none => .ok (s.slotList.content.extract start stop), s) := by
  -- On the number of slots left: in front of slot `i` the output is the content up to its start.
  induction count generalizing i with
  | zero =>
    have hend : s.slotList.start i = s.slotList.nbytes :=
      s.slotList.start_of_le (by rw [length_slotList]; omega)
    rw [hend, Nat.min_eq_left hstop]
    rfl
  | succ count ih =>
    have hmono := s.slotList.start_mono (Nat.le_succ i)
    have hle : s.slotList.start i ≤ s.slotList.nbytes := by
      rw [← s.slotList.start_of_le (i := max i s.slotList.nchunks) (by omega)]
      exact s.slotList.start_mono (by omega)
    have hsize : (s.slotList.content.extract start (min stop (s.slotList.start i))).size =
        min stop (s.slotList.start i) - start := by
      rw [Array.size_extract, s.slotList.size_content]
      omega
    by_cases hdone : stop ≤ s.slotList.start i
    · rw [readFrom, hsize, if_pos (by omega), find?_isMissing_of_le s.slotList hdone, Nat.min_eq_left hdone]
      rfl
    · obtain ⟨slot, hslot⟩ : ∃ slot, s.table.slots[i]? = some slot :=
        ⟨_, Array.getElem?_eq_getElem (by rw [nchunks] at hcount; omega)⟩
      have hshown : s.slotList.slots[i]? = some slot.shown := by
        rw [getElem?_slotList, hslot]
        rfl
      cases slot with
      | pending nbytes cbytes => exact (h.slots _ (Array.mem_of_getElem? hslot)).elim
      | reserved =>
        have hmissing := h.isMissing_of_reserved hslot hlt (not_le.1 hdone) hbehind
        rw [readFrom, hsize, if_neg (by omega), Action.run_bind_of_ok (Action.run_get s),
          List.range'_succ, List.find?_cons, hmissing]
        simp only [Action.run_bind, h.run_chunk, fetch, hslot]
        rfl
      | loaded c =>
        have hholds := h.holds hslot
        have hnext : s.slotList.start (i + 1) = s.slotList.start i + c.nbytes := by
          rw [SlotList.start_succ hshown, hholds.nbytes]
          rfl
        have hpresent : s.slotList.isMissing start stop i = false := by
          simp [SlotList.isMissing, hshown, Slot.shown]
        rw [h.run_readFrom_loaded source hslot count (by rw [hsize]; omega),
          Chunk.extract_append_clip, ← hnext, List.range'_succ, List.find?_cons, hpresent]
        exact ih (i + 1) (by omega) (lt_of_lt_of_le hbehind (s.slotList.start_mono (by omega)))

/-- Slots that end in front of a range are not missing from it. -/
theorem find?_isMissing_front (p : SlotList) {start stop first : Nat} (h : p.start first ≤ start) :
    (List.range' 0 first).find? (p.isMissing start stop) = none := by
  apply List.find?_eq_none.2
  intro j hj
  have hj' := (List.mem_range'_1.1 hj).2
  have hmono := p.start_mono (i := j + 1) (j := first) (by omega)
  simp only [SlotList.isMissing, Bool.and_eq_true, decide_eq_true_eq]
  omega

/-- The first slot under a position starts no later, and the next one starts behind it. -/
theorem firstChunkAt_spec (h : s.InMemory) (pos : Nat) (hpos : pos < s.slotList.nbytes) :
    firstChunkAt s.table.starts pos < s.nchunks ∧
      s.slotList.start (firstChunkAt s.table.starts pos) ≤ pos ∧
      pos < s.slotList.start (firstChunkAt s.table.starts pos + 1) := by
  rw [← h.start_eq, ← h.start_eq]
  exact h.tallied.firstChunkAt_spec (by rwa [h.nbytes_eq])

/-- A byte range of the whole is that of the slots joined. -/
theorem run_readBytes (h : s.InMemory) (source : ChunkSource) (start length : Nat) :
    Action.run (readBytes source start length) s = (s.slotList.readBytes start length, s) := by
  rw [readBytes, Action.run_bind_of_ok (Action.run_get s), SlotList.readBytes, h.nbytes_eq]
  generalize Chunk.saturatingAdd start length = stop
  by_cases hout : s.slotList.nbytes < stop
  · simp only [if_pos hout]
    rfl
  simp only [if_neg hout]
  -- Reading starts at the slot that the search finds, and no slot in front of it is missing.
  rcases Nat.lt_or_ge start stop with hlt | hempty
  · obtain ⟨hfirst, hle, hbehind⟩ := h.firstChunkAt_spec start (by omega)
    generalize firstChunkAt s.table.starts start = first at hfirst hle hbehind
    have hnone : s.slotList.content.extract start (min stop (s.slotList.start first)) = #[] :=
      Array.extract_eq_empty_of_le (by omega)
    have hrun := h.run_readFrom source hlt (Nat.le_of_not_lt hout) first (s.nchunks - first)
      (by omega) hbehind
    rw [hnone] at hrun
    have hsplit : List.range s.slotList.nchunks =
        List.range' 0 first ++ List.range' first (s.nchunks - first) := by
      rw [length_slotList, List.range_eq_range']
      have hjoin := List.range'_append_1 (s := 0) (m := first) (n := s.nchunks - first)
      rw [Nat.zero_add, Nat.add_sub_cancel' hfirst.le] at hjoin
      exact hjoin.symm
    rw [hsplit, List.find?_append, find?_isMissing_front s.slotList hle, Option.none_or]
    exact hrun
  · have hnone : (List.range s.slotList.nchunks).find? (s.slotList.isMissing start stop) = none := by
      apply List.find?_eq_none.2
      intro j _
      simp only [SlotList.isMissing, Bool.and_eq_true, decide_eq_true_eq]
      omega
    rw [hnone, Array.extract_eq_empty_of_le (by omega)]
    cases s.nchunks - firstChunkAt s.table.starts start with
    | zero => rfl
    | succ count =>
      rw [readFrom, if_pos (by omega)]
      rfl

end Store.InMemory

namespace Store

/-! ## From the start on -/

end Store

end ChunkedArray
