import ChunkedArray.Proofs.Store.Starts

/-!
# What the revision counts

A read changes nothing in a store but that pending chunks are fetched, and neither does a command that
fails, wherever it fails: no slot moves, none gets another content, and the revision stays. A command that
succeeds raises the revision by one. So the revision counts the commands that succeeded, and a store whose
revision is still the one that was noted has the content that it had then.
-/

namespace ChunkedArray

/-- What may happen to a slot that keeps its content: nothing, or its pending chunk is fetched, with the
size that was known for it. -/
inductive Slot.Fetched (source : ChunkSource) (i : Nat) : Slot → Slot → Prop where
  | same (slot : Slot) : Fetched source i slot slot
  | loaded {c : Chunk} {cbytes : Nat} (h : source i = .ok c) :
      Fetched source i (.pending c.nbytes cbytes) (.loaded c)

theorem Slot.Fetched.trans {source : ChunkSource} {i : Nat} {slot slot' slot'' : Slot}
    (h : Fetched source i slot slot') (h' : Fetched source i slot' slot'') :
    Fetched source i slot slot'' := by
  cases h with
  | same => exact h'
  | loaded hsource =>
    cases h' with
    | same => exact .loaded hsource

/-- A slot may be filled with the chunk with which it answers. -/
theorem Slot.fetched_of_fetch {source : ChunkSource} {i : Nat} {slot : Slot} {c : Chunk}
    (h : slot.fetch source i = .ok c) : Fetched source i slot (.loaded c) := by
  cases slot with
  | reserved => cases h
  | loaded c' =>
    cases h
    exact .same _
  | pending nbytes cbytes =>
    have hsize : nbytes = c.nbytes := Slot.extent_of_fetch h 0
    subst hsize
    exact .loaded (Slot.source_of_fetch_pending h)

namespace Store

variable {α β : Type} {source : ChunkSource} {s s' s'' : Store}

/-- A store with the content that it had: the same parameters, metadata and revision, the same slots at
the same offsets with the same answers, apart from pending chunks that have been fetched. -/
structure Unchanged (source : ChunkSource) (s s' : Store) : Prop extends Level source s s' where
  slots : ∀ i : Nat, Option.Rel (Slot.Fetched source i) s.table.slots[i]? s'.table.slots[i]?

namespace Unchanged

theorem refl (s : Store) : Unchanged source s s := by
  refine ⟨.refl s, fun i => ?_⟩
  cases s.table.slots[i]? with
  | none => exact .none
  | some slot => exact .some (.same slot)

theorem trans (h : Unchanged source s s') (h' : Unchanged source s' s'') :
    Unchanged source s s'' := by
  refine ⟨h.toLevel.trans h'.toLevel, fun i => ?_⟩
  have hfirst := h.slots i
  have hsecond := h'.slots i
  revert hfirst hsecond
  generalize s.table.slots[i]? = slot, s'.table.slots[i]? = slot', s''.table.slots[i]? = slot''
  rintro (hfirst | -) hsecond
  · cases hsecond with
    | some hsecond => exact .some (hfirst.trans hsecond)
  · exact hsecond

end Unchanged

/-! ## Reads -/

/-- An action that changes no content, whether it succeeds or fails. -/
def ChangesNothing (source : ChunkSource) (act : StoreM α) : Prop :=
  ∀ s, Unchanged source s (Action.run act s).2

theorem changesNothing_pure (a : α) : ChangesNothing source (pure a) := fun s => .refl s

theorem changesNothing_throw (e : Error) : ChangesNothing source (throw e : StoreM α) :=
  fun s => .refl s

theorem changesNothing_get : ChangesNothing source (get : StoreM Store) := fun s => .refl s

theorem changesNothing_liftM (r : Result α) : ChangesNothing source (liftM r : StoreM α) := by
  intro s
  rw [Action.run_liftM]
  exact .refl s

theorem ChangesNothing.bind {act : StoreM α} {next : α → StoreM β} (hact : ChangesNothing source act)
    (hnext : ∀ a, ChangesNothing source (next a)) : ChangesNothing source (act >>= next) := by
  intro s
  have hfirst := hact s
  rw [Action.run_bind]
  generalize Action.run act s = r at hfirst ⊢
  obtain ⟨answer, s'⟩ := r
  cases answer with
  | error e => exact hfirst
  | ok a => exact hfirst.trans (hnext a s')

/-- The use of a chunk fetches it if it is pending, and that is all. -/
theorem changesNothing_chunk (i : Nat) : ChangesNothing source (chunk source i) := by
  intro s
  refine ⟨level_run_chunk source i s, fun j => ?_⟩
  rw [run_chunk_eq_fill]
  cases hfetch : s.fetch source i with
  | error e => exact (Unchanged.refl s).slots j
  | ok c =>
    obtain ⟨slot, hslot, hanswer⟩ := exists_slot_of_fetch hfetch
    obtain ⟨hlt, -⟩ := Array.getElem?_eq_some_iff.1 hslot
    by_cases hj : i = j
    · subst hj
      simp only [ChunkTable.fill, Array.getElem?_setIfInBounds_self_of_lt hlt, hslot]
      exact .some (Slot.fetched_of_fetch hanswer)
    · simp only [ChunkTable.fill, Array.getElem?_setIfInBounds_ne hj]
      exact (Unchanged.refl s).slots j

theorem changesNothing_readWith (i : Nat) (read : Chunk → Result Bytes) :
    ChangesNothing source (readWith source i read) :=
  (changesNothing_chunk i).bind fun _ => changesNothing_liftM _

theorem changesNothing_readFrom (start stop : Nat) (out : Bytes) (i slots : Nat) :
    ChangesNothing source (readFrom source start stop out i slots) := by
  induction slots generalizing out i with
  | zero => exact changesNothing_pure out
  | succ slots ih =>
    rw [readFrom_succ]
    split
    · exact changesNothing_pure out
    · exact changesNothing_get.bind fun _ => (changesNothing_chunk i).bind fun _ =>
        (changesNothing_liftM _).bind fun _ => ih _ _

theorem changesNothing_readBytes (start length : Nat) :
    ChangesNothing source (readBytes source start length) := by
  refine changesNothing_get.bind fun s => ?_
  dsimp only
  split
  · exact changesNothing_throw _
  · exact changesNothing_readFrom _ _ _ _ _

theorem changesNothing_chunksFrom (i count : Nat) :
    ChangesNothing source (chunksFrom source i count) := by
  induction count generalizing i with
  | zero => exact changesNothing_pure []
  | succ count ih =>
    exact (changesNothing_chunk i).bind fun _ => (ih (i + 1)).bind fun _ => changesNothing_pure _

theorem changesNothing_allChunks : ChangesNothing source (allChunks source) :=
  changesNothing_get.bind fun s => changesNothing_chunksFrom 0 s.nchunks

/-! ## Commands -/

/-- An action that changes no content when it fails, and counts as one change when it succeeds. -/
def CountsOnce (source : ChunkSource) (act : StoreM α) : Prop :=
  ∀ s, match Action.run act s with
    | (.error _, s') => Unchanged source s s'
    | (.ok _, s') => s'.revision = s.revision + 1

theorem countsOnce_throw (e : Error) : CountsOnce source (throw e : StoreM α) := fun s => .refl s

theorem countsOnce_commit (f : ChunkTable → ChunkTable) : CountsOnce source (commit f) := fun _ => rfl

/-- Behind a commit nothing fails any more. -/
theorem countsOnce_commit_pure (f : ChunkTable → ChunkTable) (a : α) :
    CountsOnce source (do commit f; pure a) := fun _ => rfl

/-- What goes before may fail, and if it does not, it does not count. -/
theorem ChangesNothing.countsOnce {act : StoreM α} {next : α → StoreM β}
    (hact : ChangesNothing source act) (hnext : ∀ a, CountsOnce source (next a)) :
    CountsOnce source (act >>= next) := by
  intro s
  have hfirst := hact s
  rw [Action.run_bind]
  generalize Action.run act s = r at hfirst ⊢
  obtain ⟨answer, s'⟩ := r
  cases answer with
  | error e => exact hfirst
  | ok a =>
    have hsecond := hnext a s'
    dsimp only
    generalize Action.run (next a) s' = r at hsecond ⊢
    obtain ⟨answer, s''⟩ := r
    cases answer with
    | error e => exact hfirst.trans hsecond
    | ok b => exact hsecond.trans (congrArg (· + 1) hfirst.revision)

theorem CountsOnce.map {act : StoreM α} (h : CountsOnce source act) (f : α → β) :
    CountsOnce source (f <$> act) := by
  intro s
  have hact := h s
  rw [Action.run_map]
  generalize Action.run act s = r at hact ⊢
  obtain ⟨answer, s'⟩ := r
  cases answer <;> exact hact

theorem countsOnce_appendChunk (c : Chunk) : CountsOnce source (appendChunk c) := by
  refine changesNothing_get.countsOnce fun s => ?_
  split
  · split
    · exact countsOnce_throw _
    · exact countsOnce_commit_pure _ _
  · exact countsOnce_commit_pure _ _

theorem countsOnce_append (raw : Bytes) : CountsOnce source (append raw) := by
  refine changesNothing_get.countsOnce fun s => ?_
  split
  · exact countsOnce_throw _
  · exact (changesNothing_liftM _).countsOnce fun c => countsOnce_appendChunk c

theorem countsOnce_reserve (count : Nat) : CountsOnce source (reserve count) :=
  changesNothing_get.countsOnce fun _ => countsOnce_commit_pure _ _

theorem countsOnce_insertChunk (i : Nat) (c : Chunk) : CountsOnce source (insertChunk i c) := by
  refine changesNothing_get.countsOnce fun s => ?_
  by_cases hsize : c.nbytes ≠ s.chunkSize ∧ (!s.allowResize) = true
  · rw [if_pos hsize]
    exact countsOnce_throw _
  · rw [if_neg hsize]
    dsimp only
    split
    · exact countsOnce_throw _
    · exact countsOnce_commit _
    · exact countsOnce_throw _

theorem countsOnce_replace (i : Nat) (raw : Bytes) : CountsOnce source (replace source i raw) := by
  refine (changesNothing_chunk i).countsOnce fun old => changesNothing_get.countsOnce fun s => ?_
  dsimp only
  split
  · exact countsOnce_throw _
  · exact (changesNothing_liftM _).countsOnce fun c => countsOnce_commit _

theorem countsOnce_perform (cmd : StoreCommand Chunk) : CountsOnce source (perform source cmd) := by
  cases cmd with
  | append raw => exact (countsOnce_append raw).map _
  | appendChunk c => exact (countsOnce_appendChunk c).map _
  | reserve count => exact (countsOnce_reserve count).map _
  | insertChunk i c => exact (countsOnce_insertChunk i c).map _
  | replace i raw => exact (countsOnce_replace i raw).map _

/-- In every store, a command that fails changes no content, one that succeeds raises the revision by one,
reserving slots always succeeds, and no read changes any content, whether it succeeds or fails. -/
theorem changes_counted (source : ChunkSource) :
    (∀ cmd, CountsOnce source (perform source cmd)) ∧
    (∀ count s, (Action.run (reserve count) s).1 = .ok s.nchunks) ∧
    (∀ i, ChangesNothing source (chunk source i)) ∧
    (∀ i, ChangesNothing source (getChunk source i)) ∧
    (∀ i length, ChangesNothing source (getInto source i length)) ∧
    (∀ i start length, ChangesNothing source (getRange source i start length)) ∧
    (∀ start length, ChangesNothing source (readBytes source start length)) ∧
    ChangesNothing source (allChunks source) :=
  ⟨countsOnce_perform, fun _ _ => rfl, changesNothing_chunk, fun i => changesNothing_readWith i _,
    fun i _ => changesNothing_readWith i _, fun i _ _ => changesNothing_readWith i _,
    changesNothing_readBytes, changesNothing_allChunks⟩

/-! ## Runs -/

/-- Along a run the revision counts the commands that succeeded, and if none did, no content changed. -/
theorem revision_performAll (source : ChunkSource) (s : Store) (cmds : List (StoreCommand Chunk)) :
    (s.performAll source cmds).2.revision =
        s.revision + (s.performAll source cmds).1.countP Except.isOk ∧
      ((s.performAll source cmds).1.countP Except.isOk = 0 →
        Unchanged source s (s.performAll source cmds).2) := by
  induction cmds generalizing s with
  | nil => exact ⟨rfl, fun _ => .refl s⟩
  | cons cmd rest ih =>
    have hfirst := @countsOnce_perform source cmd s
    have hrun : s.run (perform source cmd) = Action.run (perform source cmd) s := rfl
    simp only [performAll, hrun]
    generalize Action.run (perform source cmd) s = r at hfirst ⊢
    obtain ⟨answer, s'⟩ := r
    obtain ⟨hcount, hsame⟩ := ih s'
    cases answer with
    | error e =>
      rw [List.countP_cons_of_neg (by simp [Except.isOk, Except.toBool])]
      exact ⟨hcount.trans (congrArg (· + _) hfirst.revision), fun h => hfirst.trans (hsame h)⟩
    | ok a =>
      rw [List.countP_cons_of_pos (by simp [Except.isOk, Except.toBool])]
      refine ⟨hcount.trans ?_, fun h => absurd h (Nat.succ_ne_zero _)⟩
      have hone : s'.revision = s.revision + 1 := hfirst
      dsimp only
      omega

/-- Whoever noted the revision and finds it again finds the content too, whatever commands came in
between. -/
theorem unchanged_of_checkRevision {cmds : List (StoreCommand Chunk)}
    (h : (s.performAll source cmds).2.checkRevision s.revision = .ok ()) :
    Unchanged source s (s.performAll source cmds).2 := by
  obtain ⟨hcount, hsame⟩ := revision_performAll source s cmds
  refine hsame ?_
  rw [checkRevision] at h
  split at h
  · omega
  · cases h

end Store

end ChunkedArray
