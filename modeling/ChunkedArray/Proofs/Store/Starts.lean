import ChunkedArray.Proofs.Store.Reachable

/-!
# Where the slots of a store start

A byte range of the whole store is read from the last slot that does not start behind it, slot after
slot, until enough has been read. Fetching a pending chunk on the way moves no slot, so what a read
gives is computed from the offsets and the answers of the slots alone.
-/

namespace ChunkedArray.Store

variable {source : ChunkSource} {s s' : Store}

/-! ## Offsets -/

/-- The sizes for which the slots count. -/
def extents (s : Store) : List Nat :=
  s.table.slots.toList.map (Slot.extent s.chunkSize)

/-- The offset of a slot: the sum of the sizes in front of it. -/
def start (s : Store) (i : Nat) : Nat :=
  (s.extents.take i).sum

@[simp] theorem length_extents (s : Store) : s.extents.length = s.nchunks := by
  simp [extents, nchunks]

@[simp] theorem start_zero (s : Store) : s.start 0 = 0 := rfl

theorem start_mono (s : Store) {i j : Nat} (h : i ≤ j) : s.start i ≤ s.start j := by
  obtain ⟨k, rfl⟩ := Nat.exists_eq_add_of_le h
  rw [start, start, List.take_add, List.sum_append]
  exact Nat.le_add_right _ _

theorem start_succ {slot : Slot} {i : Nat} (h : s.table.slots[i]? = some slot) :
    s.start (i + 1) = s.start i + slot.extent s.chunkSize := by
  have hextent : s.extents[i]? = some (slot.extent s.chunkSize) := by
    simp [extents, h]
  rw [start, start, List.take_add_one, hextent]
  simp

/-- A slot that answers ends where the next one starts. -/
theorem start_succ_of_fetch {i : Nat} {c : Chunk} (h : s.fetch source i = .ok c) :
    s.start (i + 1) = s.start i + c.nbytes := by
  obtain ⟨slot, hslot, hanswer⟩ := exists_slot_of_fetch h
  rw [start_succ hslot, Slot.extent_of_fetch hanswer]

theorem Tallied.starts_eq (h : s.Tallied) :
    s.table.starts.toList = (List.range s.nchunks).map s.start := by
  rw [h, ChunkTable.starts_ofSlots]
  rfl

theorem Tallied.starts_getElem? (h : s.Tallied) {i : Nat} (hi : i < s.nchunks) :
    s.table.starts[i]? = some (s.start i) := by
  rw [← Array.getElem?_toList, h.starts_eq]
  simp [hi]

theorem Tallied.starts_getD (h : s.Tallied) {i : Nat} (hi : i < s.nchunks) :
    s.table.starts.getD i 0 = s.start i := by
  rw [Array.getD_eq_getD_getElem?, h.starts_getElem? hi, Option.getD_some]

/-- Behind the last slot the offset is the total. -/
theorem Tallied.start_of_le (h : s.Tallied) {i : Nat} (hi : s.nchunks ≤ i) :
    s.start i = s.nbytes := by
  rw [start, List.take_of_length_le (by simpa using hi), nbytes, h, ChunkTable.nbytes_ofSlots]
  rfl

/-- No slot starts behind the end of the store. -/
theorem Tallied.start_le (h : s.Tallied) (i : Nat) : s.start i ≤ s.nbytes := by
  rw [← h.start_of_le (Nat.le_max_right i s.nchunks)]
  exact s.start_mono (Nat.le_max_left _ _)

/-- A prefix that satisfies a predicate ends where the predicate first fails. -/
theorem getElem?_length_takeWhile {α : Type} (p : α → Bool) (l : List α) :
    (∀ i x, i < (l.takeWhile p).length → l[i]? = some x → p x = true) ∧
      ∀ x, l[(l.takeWhile p).length]? = some x → p x = false := by
  induction l with
  | nil => simp
  | cons y rest ih =>
    cases hy : p y with
    | false => simp [hy]
    | true =>
      rw [List.takeWhile_cons_of_pos hy]
      constructor
      · intro i x hi hx
        cases i with
        | zero => simp_all
        | succ i => exact ih.1 i x (by simpa using hi) (by simpa using hx)
      · simpa using ih.2

/-- The first slot under a position starts no later, and the next one starts behind it. -/
theorem Tallied.firstChunkAt_spec (h : s.Tallied) {pos : Nat} (hpos : pos < s.nbytes) :
    firstChunkAt s.table.starts pos < s.nchunks ∧
      s.start (firstChunkAt s.table.starts pos) ≤ pos ∧
      pos < s.start (firstChunkAt s.table.starts pos + 1) := by
  have hstarts (i : Nat) (hi : i < s.nchunks) :
      s.table.starts.toList[i]? = some (s.start i) := by
    rw [Array.getElem?_toList, h.starts_getElem? hi]
  obtain ⟨hfront, hbehind⟩ := getElem?_length_takeWhile (· ≤ pos) s.table.starts.toList
  have hle : (s.table.starts.toList.takeWhile (· ≤ pos)).length ≤ s.nchunks := by
    have hprefix := (List.takeWhile_prefix (l := s.table.starts.toList) (· ≤ pos)).length_le
    simpa [h.starts_eq] using hprefix
  rw [firstChunkAt]
  generalize (s.table.starts.toList.takeWhile (· ≤ pos)).length = k at hfront hbehind hle
  have hnext : pos < s.start k := by
    by_cases hk : k < s.nchunks
    · simpa using hbehind _ (hstarts k hk)
    · rwa [h.start_of_le (by omega)]
  -- The first slot starts at zero, so the search passes it.
  have hk : 0 < k := by
    by_contra hzero
    rw [Nat.eq_zero_of_not_pos hzero, start_zero] at hnext
    omega
  have hstart := hfront (k - 1) _ (by omega) (hstarts (k - 1) (by omega))
  refine ⟨by omega, by simpa using hstart, ?_⟩
  rwa [Nat.sub_add_cancel hk]

/-! ## Reads -/

/-- Alike stores whose slots start at the same offsets. -/
structure Level (source : ChunkSource) (s s' : Store) : Prop extends Alike source s s' where
  starts : s'.table.starts = s.table.starts
  nbytes : s'.nbytes = s.nbytes

theorem Level.refl (s : Store) : Level source s s :=
  ⟨.refl s, rfl, rfl⟩

theorem Level.trans {s'' : Store} (h : Level source s s') (h' : Level source s' s'') :
    Level source s s'' :=
  ⟨h.toAlike.trans h'.toAlike, h'.starts.trans h.starts, h'.nbytes.trans h.nbytes⟩

/-- The use of a chunk moves no slot. -/
theorem level_run_chunk (source : ChunkSource) (i : Nat) (s : Store) :
    Level source s (Action.run (chunk source i) s).2 := by
  obtain ⟨s', hrun, halike⟩ := run_chunk source i s
  have hfill := run_chunk_eq_fill source i s
  rw [hrun] at hfill ⊢
  obtain rfl : s' = _ := congrArg Prod.snd hfill
  refine ⟨halike, ?_, ?_⟩ <;> cases s.fetch source i <;> rfl

/-- The part of a range that lies in a chunk. -/
def pieceOf (start stop i chunkStart : Nat) (c : Chunk) : Result Bytes :=
  let low := max start chunkStart - chunkStart
  let high := min stop (chunkStart + c.nbytes) - chunkStart
  if low < high then (c.decompressRange low (high - low)).mapError (Error.atChunk i) else .ok #[]

theorem readFrom_succ (source : ChunkSource) (start stop : Nat) (out : Bytes) (i slots : Nat) :
    readFrom source start stop out i (slots + 1) =
      if stop - start ≤ out.size then pure out
      else (do
        let s ← get
        let c ← chunk source i
        let piece ← liftM (n := StoreM) (pieceOf start stop i (s.table.starts.getD i 0) c)
        readFrom source start stop (out ++ piece) (i + 1) slots) := by
  rw [readFrom]
  split
  · rfl
  refine bind_congr fun s => bind_congr fun c => ?_
  simp only [pieceOf]
  split <;> rfl

/-- A step of a read takes the part of the range that lies in the chunk of its slot. -/
theorem run_readFrom_succ (source : ChunkSource) (s : Store) (start stop : Nat) (out : Bytes)
    (i slots : Nat) :
    Action.run (readFrom source start stop out i (slots + 1)) s =
      if stop - start ≤ out.size then (.ok out, s)
      else match s.fetch source i >>= pieceOf start stop i (s.table.starts.getD i 0) with
        | .ok piece => Action.run (readFrom source start stop (out ++ piece) (i + 1) slots)
            (Action.run (chunk source i) s).2
        | .error e => (.error e, (Action.run (chunk source i) s).2) := by
  obtain ⟨s', hrun, -⟩ := run_chunk source i s
  rw [readFrom_succ]
  split
  · rfl
  rw [Action.run_bind_of_ok (Action.run_get s), Action.run_bind, hrun]
  cases s.fetch source i with
  | error e => rfl
  | ok c =>
    simp only [Action.run_bind, Action.run_liftM]
    cases hpiece : pieceOf start stop i (s.table.starts.getD i 0) c with
    | error e => simp only [bind, Except.bind, hpiece]
    | ok piece => simp only [bind, Except.bind, hpiece]

/-- Reading moves no slot and cannot tell which chunks have been fetched. -/
theorem isQuery_readFrom (source : ChunkSource) (start stop : Nat) (out : Bytes) (i slots : Nat) :
    Action.IsQuery (Level source) (readFrom source start stop out i slots) := by
  -- On the slots left. Both runs read the same piece, or both stop.
  induction slots generalizing out i with
  | zero => exact Action.isQuery_pure Level.refl out
  | succ slots ih =>
    constructor
    · intro s
      rw [run_readFrom_succ]
      have hchunk := level_run_chunk source i s
      split
      · exact .refl s
      · split
        · exact hchunk.trans ((ih _ (i + 1)).kept _)
        · exact hchunk
    · intro s s' h
      have hchunk := level_run_chunk source i s
      have hchunk' := level_run_chunk source i s'
      simp only [Action.outcome, run_readFrom_succ, h.starts, h.fetch]
      split
      · rfl
      · split
        · rename_i piece _
          have hrest := ih (out ++ piece) (i + 1)
          exact (hrest.outcome_eq hchunk').trans
            ((hrest.outcome_eq h).trans (hrest.outcome_eq hchunk).symm)
        · rfl

/-- What a step of a read gives is computed from the offset and the answer of its slot. -/
theorem outcome_readFrom_succ (source : ChunkSource) (s : Store) (start stop : Nat) (out : Bytes)
    (i slots : Nat) :
    Action.outcome (readFrom source start stop out i (slots + 1)) s =
      if stop - start ≤ out.size then .ok out
      else s.fetch source i >>= fun c => pieceOf start stop i (s.table.starts.getD i 0) c >>=
        fun piece =>
          Action.outcome (readFrom source start stop (out ++ piece) (i + 1) slots) s := by
  rw [Action.outcome, run_readFrom_succ]
  split
  · rfl
  cases hfetch : s.fetch source i with
  | error e => rfl
  | ok c =>
    simp only [bind, Except.bind]
    cases pieceOf start stop i (s.table.starts.getD i 0) c with
    | error e => rfl
    | ok piece =>
      exact (isQuery_readFrom source start stop (out ++ piece) (i + 1) slots).outcome_eq
        (level_run_chunk source i s)

end ChunkedArray.Store
