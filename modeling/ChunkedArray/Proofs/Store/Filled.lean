import ChunkedArray.Proofs.Store.Reachable

/-!
# Filling and overwriting slots

What the operations on a store do to its slots when they succeed, and when they do: chunks of the
nominal size are added at the end, placed into reserved slots, and overwritten by chunks of the same
size. A slot that holds a byte string answers every read with its part of it, and the store stays as
it is. A store that is filled with chunks compressed under its own parameters can be saved and is
given back exactly.
-/

namespace ChunkedArray

/-- A chunk that is given back exactly when it is saved, since a byte has room for its element width,
and that takes little more room than its bytes. -/
structure Chunk.Slim (c : Chunk) : Prop where
  typesize : c.header.typesize < 256
  cbytes : c.cbytes ≤ chunkHeaderSize + c.nbytes

namespace Store

variable {source : ChunkSource} {s : Store} {i : Nat} {content : Bytes}

/-- An action that runs with success is executed. -/
theorem exec_eq_ok_iff {α : Type} {act : StoreM α} {a : α} {s s' : Store} :
    s.exec act = .ok (a, s') ↔ Action.run act s = (.ok a, s') := by
  have hrun : s.run act = Action.run act s := rfl
  rw [exec, hrun]
  generalize Action.run act s = r
  obtain ⟨r, s₁⟩ := r
  cases r with
  | error e => simp
  | ok b => simp

/-! ## Slots in memory -/

/-- A slot in memory holds a byte string. -/
def SlotHolds (s : Store) (i : Nat) (content : Bytes) : Prop :=
  ∃ c, s.table.slots[i]? = some (.loaded c) ∧ c.Holds content

theorem SlotHolds.congr {s' : Store} (h : s.SlotHolds i content)
    (hslot : s'.table.slots[i]? = s.table.slots[i]?) : s'.SlotHolds i content := by
  obtain ⟨c, hc, hholds⟩ := h
  exact ⟨c, hslot.trans hc, hholds⟩

theorem SlotHolds.raw (h : s.SlotHolds i content) : s.raw source i = content := by
  obtain ⟨c, hslot, hholds⟩ := h
  simp only [Store.raw, fetch, hslot, Slot.fetch, hholds.raw]

theorem SlotHolds.readable (h : s.SlotHolds i content) {start length : Nat}
    (hsize : start + length ≤ content.size) : s.Readable source i start length := by
  obtain ⟨c, hslot, hholds⟩ := h
  exact ⟨c, by simp only [fetch, hslot, Slot.fetch], _, hholds.decompressRange hsize⟩

/-- The content of a slot in memory is read without a change. -/
theorem SlotHolds.run_getChunk (h : s.SlotHolds i content) :
    Action.run (getChunk source i) s = (.ok content, s) := by
  obtain ⟨c, hslot, hholds⟩ := h
  rw [getChunk, readWith, Action.run_bind_of_ok (run_chunk_loaded hslot), Action.run_liftM,
    hholds.decompress]
  rfl

/-! ## Stores that are given back exactly -/

/-- A store whose chunks were compressed under its own parameters; it is given back exactly when it is
saved. -/
structure Exact (s : Store) : Prop where
  kept : s.WellKept
  packed : ∀ c, Slot.loaded c ∈ s.table.slots →
    ∃ raw : Bytes, raw.size < 2 ^ 63 ∧ Chunk.compress raw s.codec = .ok c

namespace Exact

variable {raw : Bytes} {c : Chunk}

theorem slim (h : s.Exact) (hc : Slot.loaded c ∈ s.table.slots) : c.Slim := by
  have htypesize := (CodecConfig.validate_eq_ok_iff.1 h.kept.valid).2
  obtain ⟨raw, -, hraw⟩ := h.packed c hc
  constructor
  · rw [Chunk.typesize_of_compress hraw]
    omega
  · rw [Chunk.nbytes_of_compress hraw]
    exact Chunk.cbytes_le_of_compress hraw

/-- The bytes that a slot holds were compressed to its chunk. -/
theorem compress_of_slotHolds (h : s.Exact) (htypesize : 0 < s.codec.typesize)
    (hholds : s.SlotHolds i content) :
    ∃ c, s.table.slots[i]? = some (.loaded c) ∧ Chunk.compress content s.codec = .ok c := by
  obtain ⟨c, hslot, hc⟩ := hholds
  obtain ⟨raw, hraw, hcompress⟩ := h.packed c (Array.mem_of_getElem? hslot)
  rw [← (Chunk.holds_compress htypesize hraw hcompress).raw, hc.raw] at hcompress
  exact ⟨c, hslot, hcompress⟩

/-- Filling a slot with a chunk of the size for which it counted keeps the store exact. -/
theorem fill (h : s.Exact) {slot : Slot} (hslot : s.table.slots[i]? = some slot)
    (hsize : slot.extent s.chunkSize = c.nbytes) (hraw : raw.size < 2 ^ 63)
    (hc : Chunk.compress raw s.codec = .ok c) (revision : Nat) :
    Exact { s with table := s.table.fill i c, revision } :=
  ⟨h.kept.fill hslot hsize (Chunk.kept_of_compress hraw hc) revision,
    forall_loaded_setIfInBounds h.packed ⟨raw, hraw, hc⟩ i⟩

theorem push (h : s.Exact) (hraw : raw.size < 2 ^ 63) (hc : Chunk.compress raw s.codec = .ok c)
    (revision : Nat) : Exact { s with table := s.table.push c, revision } :=
  ⟨h.kept.push (Chunk.kept_of_compress hraw hc) revision,
    forall_loaded_push h.packed ⟨raw, hraw, hc⟩⟩

theorem reserve (h : s.Exact) (count revision : Nat) :
    Exact { s with
      table := .ofSlots s.chunkSize (s.table.slots ++ Array.replicate count Slot.reserved)
      revision } :=
  ⟨h.kept.withSlots revision (forall_loaded_append_reserved h.kept.chunks count),
    forall_loaded_append_reserved h.packed count⟩

end Exact

/-- Stores of one kind: with the same parameters and metadata, from the same source, and the one is
given back exactly if the other is. -/
structure SameKind (s s' : Store) : Prop where
  codec : s'.codec = s.codec
  chunkSize : s'.chunkSize = s.chunkSize
  allowResize : s'.allowResize = s.allowResize
  source : s'.source = s.source
  metadata : s'.metadata = s.metadata
  exactly : s.Exact → s'.Exact

theorem SameKind.refl (s : Store) : SameKind s s := ⟨rfl, rfl, rfl, rfl, rfl, id⟩

theorem SameKind.trans {s s' s'' : Store} (h : SameKind s s') (h' : SameKind s' s'') :
    SameKind s s'' :=
  ⟨h'.codec.trans h.codec, h'.chunkSize.trans h.chunkSize, h'.allowResize.trans h.allowResize,
    h'.source.trans h.source, h'.metadata.trans h.metadata, h'.exactly ∘ h.exactly⟩

/-! ## Overwriting -/

/-- A slot in memory is overwritten by a byte string of the same size. -/
theorem SlotHolds.run_replace (h : s.SlotHolds i content) (source : ChunkSource) {raw : Bytes}
    (hsize : raw.size = content.size) (htypesize : 0 < s.codec.typesize)
    (hblock : Chunk.chosenBlockSize raw.size s.codec < 2 ^ 32) :
    ∃ s', Action.run (replace source i raw) s = (.ok (), s') ∧ SameKind s s' ∧
      s'.revision = s.revision + 1 ∧ s'.nchunks = s.nchunks ∧ s'.SlotHolds i raw ∧
      ∀ j ≠ i, s'.table.slots[j]? = s.table.slots[j]? := by
  obtain ⟨c, hslot, hholds⟩ := h
  have hsame : ¬ c.nbytes ≠ raw.size := by rw [hholds.nbytes, hsize, not_not]
  obtain ⟨c', hc'⟩ := Chunk.exists_compress_eq_ok hblock
  have hlt := hholds.size_lt
  have hraw : raw.size < 2 ^ 63 := by omega
  have hholds' := Chunk.holds_compress htypesize hraw hc'
  have hextent : (Slot.loaded c).extent s.chunkSize = c'.nbytes := by
    rw [Slot.extent_loaded, Chunk.nbytes_of_compress hc', not_not.1 hsame]
  have hi : i < s.table.slots.size := by
    by_contra hge
    rw [Array.getElem?_eq_none (by omega)] at hslot
    cases hslot
  refine ⟨{ s with table := s.table.fill i c', revision := s.revision + 1 }, ?_,
    ⟨rfl, rfl, rfl, rfl, rfl, fun h => h.fill hslot hextent hraw hc' _⟩, rfl,
    by simp [nchunks, ChunkTable.fill], ⟨c', by simp [ChunkTable.fill, hi], hholds'⟩,
    fun j hj => by simp [ChunkTable.fill, Array.getElem?_setIfInBounds_ne (Ne.symm hj)]⟩
  have hcompress : (Chunk.compress raw s.codec).mapError (Error.atChunk i) = .ok c' := by
    rw [hc']
    rfl
  rw [replace, Action.run_bind_of_ok (run_chunk_loaded hslot),
    Action.run_bind_of_ok (Action.run_get s)]
  simp [hsame, hcompress, Action.run_bind, commit]

/-! ## Adding and placing chunks -/

/-- Chunks of the nominal size are added behind chunks of the nominal size. -/
theorem run_appendChunks (s : Store) {chunks : List Chunk}
    (hback : ∀ n, s.table.slots.back?.bind Slot.nbytes? = some n → n = s.chunkSize)
    (hall : ∀ c ∈ chunks, c.nbytes = s.chunkSize)
    (hmade : ∀ c ∈ chunks, ∃ raw : Bytes, raw.size < 2 ^ 63 ∧ Chunk.compress raw s.codec = .ok c) :
    ∃ s', Action.run (appendChunks chunks) s = (.ok (), s') ∧ SameKind s s' ∧
      s'.table.slots = s.table.slots ++ (chunks.map Slot.loaded).toArray := by
  induction chunks generalizing s with
  | nil => exact ⟨s, rfl, .refl s, by simp⟩
  | cons c rest ih =>
    have happend : Action.run (appendChunk c) s =
        (.ok s.nchunks, { s with table := s.table.push c, revision := s.revision + 1 }) := by
      rw [appendChunk, Action.run_bind_of_ok (Action.run_get s)]
      cases hlast : s.table.slots.back?.bind Slot.nbytes? with
      | none => simp [Action.run_map, commit, Except.map]
      | some n => simp [Action.run_map, commit, hback n hlast, Except.map]
    obtain ⟨⟨raw, hraw, hcompress⟩, hmade⟩ := List.forall_mem_cons.1 hmade
    have hpush : SameKind s { s with table := s.table.push c, revision := s.revision + 1 } :=
      ⟨rfl, rfl, rfl, rfl, rfl, fun h => h.push hraw hcompress _⟩
    obtain ⟨s', hrun, hkind, hslots⟩ := ih
      { s with table := s.table.push c, revision := s.revision + 1 }
      (by simp [ChunkTable.push, Slot.nbytes?, hall c List.mem_cons_self])
      (fun c' hc' => hall c' (List.mem_cons_of_mem _ hc')) hmade
    refine ⟨s', ?_, hpush.trans hkind, ?_⟩
    · rw [appendChunks, Action.run_bind_of_ok happend, hrun]
    · rw [hslots]
      simp [ChunkTable.push]

/-- Reserved slots are added at the end. -/
theorem run_reserve (s : Store) (count : Nat) :
    ∃ s', Action.run (reserve count) s = (.ok s.nchunks, s') ∧ SameKind s s' ∧
      s'.table.slots = s.table.slots ++ Array.replicate count Slot.reserved := by
  refine ⟨{ s with
    table := .ofSlots s.chunkSize (s.table.slots ++ Array.replicate count Slot.reserved)
    revision := s.revision + 1 }, ?_, ⟨rfl, rfl, rfl, rfl, rfl, fun h => h.reserve count _⟩, rfl⟩
  rw [reserve, Action.run_bind_of_ok (Action.run_get s)]
  simp [Action.run_map, commit, Except.map]

/-- A chunk is placed into a reserved slot, and where sizes are fixed it is of the nominal size. -/
theorem run_insertChunk {raw : Bytes} {c : Chunk} {s' : Store} (hfixed : s.allowResize = false)
    (hmemory : s.chunkSize < 2 ^ 63) (hcompress : Chunk.compress raw s.codec = .ok c)
    (h : Action.run (insertChunk i c) s = (.ok (), s')) :
    c.nbytes = s.chunkSize ∧ s.table.slots[i]? = some .reserved ∧ SameKind s s' ∧
      s'.table.slots = s.table.slots.setIfInBounds i (.loaded c) := by
  rw [insertChunk, Action.run_bind_of_ok (Action.run_get s)] at h
  by_cases hsize : c.nbytes ≠ s.chunkSize
  · simp [hsize, hfixed] at h
  · cases hslot : s.table.slots[i]? with
    | none => simp [hslot, hsize] at h
    | some slot =>
      cases slot with
      | loaded c' => simp [hslot, hsize] at h
      | pending nbytes cbytes => simp [hslot, hsize] at h
      | reserved =>
        simp [hslot, hsize, hfixed, commit] at h
        obtain rfl := h
        have hnominal : c.nbytes = s.chunkSize := not_not.1 hsize
        have hraw : raw.size < 2 ^ 63 := by rwa [← Chunk.nbytes_of_compress hcompress, hnominal]
        refine ⟨hnominal, rfl, ⟨rfl, rfl, hfixed.symm, rfl, rfl, fun h => ?_⟩, rfl⟩
        have hfill := h.fill hslot hnominal.symm hraw hcompress (s.revision + 1)
        rwa [hfixed] at hfill

/-- A chunk of the nominal size can be placed into a reserved slot. -/
theorem exists_run_insertChunk {c : Chunk} (hsize : c.nbytes = s.chunkSize)
    (hslot : s.table.slots[i]? = some .reserved) :
    ∃ s', Action.run (insertChunk i c) s = (.ok (), s') := by
  rw [insertChunk, Action.run_bind_of_ok (Action.run_get s)]
  simp [hsize, hslot, commit]

end Store

end ChunkedArray
