import ChunkedArray.Store.Read
import ChunkedArray.Proofs.Action
import ChunkedArray.Proofs.Chunk.Compress

/-!
# Reading the slots of a store

A store answers for every slot with a chunk or an error, and it gives the same answer every time:
fetching a pending chunk changes the slot, not the answer. Reads of a store are queries up to that
change.
-/

namespace ChunkedArray

/-- The answer of a slot. -/
def Slot.fetch (source : ChunkSource) (i : Nat) : Slot → Result Chunk
  | reserved => .error (.index (.reserved i))
  | loaded chunk => .ok chunk
  | pending nbytes _ =>
    match (source i).mapError (Error.atChunk i) with
    | .error e => .error e
    | .ok chunk =>
      if chunk.nbytes = nbytes then .ok chunk
      else .error (.format (.lateChunk i chunk.nbytes nbytes))

namespace Store

/-- The answer of a store for a slot. -/
def fetch (s : Store) (source : ChunkSource) (i : Nat) : Result Chunk :=
  match s.table.slots[i]? with
  | none => .error (.index (.chunk i s.nchunks))
  | some slot => slot.fetch source i

theorem chunkSource_congr {s s' : Store} (h : s.source = s'.source) (fs : Files) :
    s.chunkSource fs = s'.chunkSource fs := by
  funext i
  rw [chunkSource, chunkSource, h]

/-- Stores that differ at most in chunks that one of them has fetched already. -/
structure Alike (source : ChunkSource) (s s' : Store) : Prop where
  rest : { s' with table := s.table } = s
  nchunks : s'.nchunks = s.nchunks
  fetch : ∀ i, s'.fetch source i = s.fetch source i

namespace Alike

variable {source : ChunkSource} {s s' s'' : Store}

theorem refl (s : Store) : Alike source s s := ⟨rfl, rfl, fun _ => rfl⟩

theorem codec (h : Alike source s s') : s'.codec = s.codec :=
  (congrArg Store.codec h.rest :)

theorem chunkSize (h : Alike source s s') : s'.chunkSize = s.chunkSize :=
  (congrArg Store.chunkSize h.rest :)

theorem allowResize (h : Alike source s s') : s'.allowResize = s.allowResize :=
  (congrArg Store.allowResize h.rest :)

theorem revision (h : Alike source s s') : s'.revision = s.revision :=
  (congrArg Store.revision h.rest :)

theorem metadata (h : Alike source s s') : s'.metadata = s.metadata :=
  (congrArg Store.metadata h.rest :)

theorem chunkSource (h : Alike source s s') (fs : Files) : s'.chunkSource fs = s.chunkSource fs :=
  chunkSource_congr (congrArg Store.source h.rest :) fs

theorem trans (h : Alike source s s') (h' : Alike source s' s'') : Alike source s s'' := by
  refine ⟨?_, h'.nchunks.trans h.nchunks, fun i => (h'.fetch i).trans (h.fetch i)⟩
  rw [← h.rest, ← h'.rest]

end Alike

/-- A slot that is filled with its own answer keeps all answers. -/
theorem alike_fill {source : ChunkSource} {s : Store} {i : Nat} {c : Chunk}
    (h : s.fetch source i = .ok c) :
    Alike source s { s with table := s.table.fill i c } := by
  refine ⟨rfl, by simp [nchunks, ChunkTable.fill], fun j => ?_⟩
  by_cases hj : j = i
  · subst hj
    rw [h]
    have hlt : j < s.table.slots.size := by
      by_contra hge
      rw [fetch, Array.getElem?_eq_none (by omega)] at h
      cases h
    simp [fetch, ChunkTable.fill, hlt, Slot.fetch]
  · simp [fetch, ChunkTable.fill, Array.getElem?_setIfInBounds_ne (Ne.symm hj), nchunks]

/-- A chunk is read with the answer of its slot. -/
theorem run_chunk (source : ChunkSource) (i : Nat) (s : Store) :
    ∃ s', Action.run (chunk source i) s = (s.fetch source i, s') ∧ Alike source s s' := by
  simp only [chunk, Action.run_bind, Action.run_get]
  cases hslot : s.table.slots[i]? with
  | none => exact ⟨s, by simp [fetch, hslot], .refl s⟩
  | some slot =>
    have hfetch : s.fetch source i = slot.fetch source i := by simp [fetch, hslot]
    rw [hfetch]
    cases slot with
    | reserved => exact ⟨s, rfl, .refl s⟩
    | loaded c => exact ⟨s, rfl, .refl s⟩
    | pending nbytes cbytes =>
      simp only [Action.run_bind, Action.run_liftM, Slot.fetch] at hfetch ⊢
      cases hsource : (source i).mapError (Error.atChunk i) with
      | error e => exact ⟨s, rfl, .refl s⟩
      | ok c =>
        by_cases hsize : c.nbytes = nbytes
        · simp only [hsource, if_pos hsize] at hfetch ⊢
          exact ⟨_, rfl, alike_fill hfetch⟩
        · simp only [if_neg hsize]
          exact ⟨s, rfl, .refl s⟩

theorem isQuery_chunk (source : ChunkSource) (i : Nat) :
    Action.IsQuery (Alike source) (chunk source i) := by
  constructor
  · intro s
    obtain ⟨s', hrun, halike⟩ := run_chunk source i s
    rwa [hrun]
  · intro s s' h
    obtain ⟨_, hrun, _⟩ := run_chunk source i s
    obtain ⟨_, hrun', _⟩ := run_chunk source i s'
    rw [Action.outcome, Action.outcome, hrun, hrun']
    exact h.fetch i

theorem outcome_chunk (source : ChunkSource) (i : Nat) (s : Store) :
    Action.outcome (chunk source i) s = s.fetch source i := by
  obtain ⟨_, hrun, _⟩ := run_chunk source i s
  rw [Action.outcome, hrun]

/-- A chunk in memory is read without a change. -/
theorem run_chunk_loaded {source : ChunkSource} {i : Nat} {s : Store} {c : Chunk}
    (h : s.table.slots[i]? = some (.loaded c)) :
    Action.run (chunk source i) s = (.ok c, s) := by
  simp only [chunk, Action.run_bind, Action.run_get, h, Action.run_pure]

/-! ## Ranges of slots -/

theorem isQuery_readWith (source : ChunkSource) (i : Nat) (read : Chunk → Result Bytes) :
    Action.IsQuery (Alike source) (readWith source i read) :=
  (isQuery_chunk source i).bind (fun _ _ _ h h' => h.trans h') fun c =>
    Action.isQuery_liftM Alike.refl ((read c).mapError (Error.atChunk i))

theorem outcome_readWith (source : ChunkSource) (i : Nat) (read : Chunk → Result Bytes)
    (s : Store) :
    Action.outcome (readWith source i read) s =
      s.fetch source i >>= fun c => (read c).mapError (Error.atChunk i) := by
  rw [readWith, Action.outcome_bind (isQuery_chunk source i) fun c =>
    Action.isQuery_liftM Alike.refl ((read c).mapError (Error.atChunk i)), outcome_chunk]
  simp only [Action.outcome_liftM]

theorem isQuery_getRange (source : ChunkSource) (i start length : Nat) :
    Action.IsQuery (Alike source) (getRange source i start length) :=
  isQuery_readWith source i fun c => c.decompressRange start length

/-- Whether a range of a slot can be read. -/
def Readable (s : Store) (source : ChunkSource) (i start length : Nat) : Prop :=
  ∃ c, s.fetch source i = .ok c ∧ ∃ data, c.decompressRange start length = .ok data

/-- The bytes of a slot; none if the slot does not answer. -/
def raw (s : Store) (source : ChunkSource) (i : Nat) : Bytes :=
  match s.fetch source i with
  | .ok c => c.raw
  | .error _ => #[]

theorem Alike.raw {source : ChunkSource} {s s' : Store} (h : Alike source s s') :
    s'.raw source = s.raw source := by
  funext i
  rw [Store.raw, Store.raw, h.fetch]

/-- A range that can be read shows the bytes of the slot. -/
theorem outcome_getRange_of_readable {s : Store} {source : ChunkSource} {i start length : Nat}
    (h : s.Readable source i start length) (hlength : 0 < length) :
    Action.outcome (getRange source i start length) s = .ok ((s.raw source i).slice start length) := by
  obtain ⟨c, hfetch, data, hdata⟩ := h
  obtain ⟨-, -, -, rfl⟩ := (Chunk.decompressRange_eq_ok_iff hlength).1 hdata
  rw [getRange, outcome_readWith, raw, hfetch]
  simp only [bind, Except.bind, hdata]
  rfl

theorem readable_of_outcome_getRange {s : Store} {source : ChunkSource} {i start length : Nat}
    {data : Bytes} (h : Action.outcome (getRange source i start length) s = .ok data) :
    s.Readable source i start length := by
  rw [getRange, outcome_readWith] at h
  cases hfetch : s.fetch source i with
  | error e =>
    rw [hfetch] at h
    cases h
  | ok c =>
    rw [hfetch] at h
    refine ⟨c, hfetch, ?_⟩
    simp only [bind, Except.bind] at h
    cases hrange : c.decompressRange start length with
    | error e =>
      rw [hrange] at h
      cases h
    | ok out => exact ⟨out, rfl⟩

/-- Inside a range that can be read every range can be read. -/
theorem Readable.sub {s : Store} {source : ChunkSource} {i start length start' length' : Nat}
    (h : s.Readable source i start length) (hlength : 0 < length') (hle : start ≤ start')
    (hstop : start' + length' ≤ start + length) : s.Readable source i start' length' := by
  obtain ⟨c, hfetch, data, hdata⟩ := h
  exact ⟨c, hfetch, _, Chunk.decompressRange_sub hdata hlength hle hstop⟩

end Store

end ChunkedArray
