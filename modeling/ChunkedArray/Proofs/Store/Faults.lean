import ChunkedArray.Proofs.Store.Reachable

/-!
# Faults of chunks

A chunk may be damaged, or its file may be gone, so reading it may fail: the chunk is refused, a block
cannot be decoded, a checksum differs. Such faults are foreseen. No reading of a chunk breaks an
invariant of the library or compares shapes, as long as every pending chunk has a source to come from.
-/

namespace ChunkedArray

/-- An error that is neither a broken invariant of the library nor shapes that do not fit, and no
breakdown. -/
def Error.Foreseen : Error → Prop
  | .internal _ => False
  | .shape _ => False
  | .breakdown _ => False
  | _ => True

/-- A result that fails with a foreseen error if it fails. -/
def Foreseeable {α : Type} (r : Result α) : Prop :=
  ∀ e, r = .error e → e.Foreseen

section Foreseeable

variable {α β : Type} {r : Result α} {e : Error}

theorem foreseeable_ok (a : α) : Foreseeable (.ok a : Result α) := by
  intro e he
  cases he

theorem foreseeable_error (h : e.Foreseen) : Foreseeable (.error e : Result α) := by
  intro e' he
  cases he
  exact h

/-- Steps that are foreseeable one by one are so in a row. -/
theorem Foreseeable.bind {f : α → Result β} (h : Foreseeable r)
    (hf : ∀ a, r = .ok a → Foreseeable (f a)) : Foreseeable (r >>= f) := by
  cases r with
  | error e => exact foreseeable_error (h e rfl)
  | ok a => exact hf a rfl

/-- Errors that name a chunk are of the same group as those that do not. -/
theorem Foreseeable.atChunk (h : Foreseeable r) (i : Nat) :
    Foreseeable (r.mapError (Error.atChunk i)) := by
  cases r with
  | ok a => exact foreseeable_ok a
  | error e =>
    have he := h e rfl
    refine foreseeable_error ?_
    cases e <;> exact he

end Foreseeable

/-! ## Chunks -/

namespace Chunk

variable {c : Chunk}

theorem foreseeable_decodeBlock (c : Chunk) (block : Nat) : Foreseeable (c.decodeBlock block) := by
  rw [decodeBlock]
  dsimp only
  split
  · exact foreseeable_error trivial
  split
  · exact foreseeable_error trivial
  split
  · exact foreseeable_ok _
  · exact foreseeable_error trivial

theorem foreseeable_clipBlocks (start stop : Nat) (out : Bytes) (block count : Nat) :
    Foreseeable (c.clipBlocks start stop out block count) := by
  induction count generalizing out block with
  | zero => exact foreseeable_ok out
  | succ count ih => exact (foreseeable_decodeBlock c block).bind fun _ _ => ih _ _

theorem foreseeable_decompressRange (start length : Nat) :
    Foreseeable (c.decompressRange start length) := by
  rw [decompressRange]
  dsimp only
  split
  · exact foreseeable_error trivial
  split
  · exact foreseeable_ok _
  split
  · exact foreseeable_ok _
  · exact foreseeable_clipBlocks _ _ _ _ _

theorem foreseeable_ofBytes (data : Bytes) : Foreseeable (ofBytes data) := by
  have hcodec (byte : UInt8) : Foreseeable (CodecId.ofByte byte) := by
    rw [CodecId.ofByte]
    split
    · exact foreseeable_ok _
    split
    · exact foreseeable_ok _
    · exact foreseeable_error trivial
  have hheader : Foreseeable (ChunkHeader.ofBytes data) := by
    rw [ChunkHeader.ofBytes]
    dsimp only
    split
    · exact foreseeable_error trivial
    split
    · exact foreseeable_error trivial
    split
    · exact foreseeable_error trivial
    · exact (hcodec _).bind fun _ _ => foreseeable_ok _
  refine hheader.bind fun header _ => ?_
  by_cases hshort : data.size < if header.isStored then
      if chunkHeaderSize + header.nbytes < 2 ^ 64 then chunkHeaderSize + header.nbytes
      else 2 ^ 64 - 1
    else chunkHeaderSize + header.nblocks * blockEntrySize
  · rw [if_pos hshort]
    exact foreseeable_error trivial
  · rw [if_neg hshort]
    exact foreseeable_ok _

end Chunk

theorem SparseFrame.foreseeable_readChunk (f : SparseFrame) (fs : Files) (i : Nat) :
    Foreseeable (f.readChunk fs i) := by
  have hread (path : Path) : Foreseeable (fs.read path) := by
    rw [Files.read]
    split
    · exact foreseeable_ok _
    · exact foreseeable_error trivial
    · exact foreseeable_error trivial
  rw [readChunk]
  split
  · exact foreseeable_error trivial
  · refine (hread _).bind fun data _ => ?_
    split
    · refine (Chunk.foreseeable_ofBytes data).bind fun c _ => ?_
      split
      · exact foreseeable_ok c
      · exact foreseeable_error trivial
    · exact foreseeable_error trivial

/-! ## Slots -/

namespace Store

variable {s s' : Store} {fs : Files} {source : ChunkSource} {c : Chunk} {i : Nat}

/-- Every pending chunk has a source to come from. -/
def Sourced (s : Store) : Prop :=
  s.source = none → ∀ slot ∈ s.table.slots, ∀ nbytes cbytes, slot ≠ .pending nbytes cbytes

/-- A slot of a store whose pending chunks have a source gives a chunk or a foreseen error. -/
theorem Sourced.foreseeable_fetch (h : s.Sourced) (fs : Files) (i : Nat) :
    Foreseeable (s.fetch (s.chunkSource fs) i) := by
  rw [fetch]
  cases hslot : s.table.slots[i]? with
  | none => exact foreseeable_error trivial
  | some slot =>
    cases slot with
    | reserved => exact foreseeable_error trivial
    | loaded c => exact foreseeable_ok c
    | pending nbytes cbytes =>
      have hsource : Foreseeable (s.chunkSource fs i) := by
        rw [chunkSource]
        cases hsome : s.source with
        | some frame => exact frame.foreseeable_readChunk fs i
        | none => exact absurd rfl (h hsome _ (Array.mem_of_getElem? hslot) nbytes cbytes)
      have hnamed := hsource.atChunk i
      dsimp only [Slot.fetch]
      cases hread : (s.chunkSource fs i).mapError (Error.atChunk i) with
      | error e => exact foreseeable_error (hnamed e hread)
      | ok c =>
        dsimp only
        split
        · exact foreseeable_ok c
        · exact foreseeable_error trivial

/-- A range of a slot that answers as foreseen is read as foreseen. -/
theorem foreseeable_getRange (h : Foreseeable (s.fetch source i)) (start length : Nat) :
    Foreseeable (Action.outcome (getRange source i start length) s) := by
  rw [getRange, outcome_readWith]
  exact h.bind fun c _ => (Chunk.foreseeable_decompressRange start length).atChunk i

/-! ## The stores that there are -/

/-- A slot of a table is pending only if it was so in an earlier one. -/
def NotPended (t t' : ChunkTable) : Prop :=
  ∀ slot ∈ t'.slots, slot ∈ t.slots ∨ slot = .reserved ∨ ∃ c, slot = .loaded c

theorem notPended_fill (t : ChunkTable) (i : Nat) (c : Chunk) : NotPended t (t.fill i c) :=
  fun _ hslot => (Array.mem_or_eq_of_mem_setIfInBounds hslot).imp_right fun hnew => .inr ⟨c, hnew⟩

theorem Sourced.of_notPended (h : s.Sourced) (hsource : s'.source = s.source)
    (htable : NotPended s.table s'.table) : s'.Sourced := by
  intro hnone slot hslot nbytes cbytes
  rw [hsource] at hnone
  obtain hold | rfl | ⟨c, rfl⟩ := htable slot hslot
  · exact h hnone slot hold nbytes cbytes
  · exact Slot.noConfusion
  · exact Slot.noConfusion

/-- An action behind which every pending chunk has a source if it had one before. -/
abbrev KeepsSourced {α : Type} (act : StoreM α) : Prop :=
  Action.Ends Sourced (fun _ => True) (fun _ => True) act

/-- Fetching a chunk fills its slot or changes nothing. -/
theorem keepsSourced_chunk (source : ChunkSource) (i : Nat) : KeepsSourced (chunk source i) := by
  refine fun s hs => ⟨?_, fun _ _ => trivial, fun _ _ => trivial⟩
  rw [run_chunk_eq_fill]
  cases s.fetch source i with
  | error e => exact hs
  | ok c => exact hs.of_notPended rfl (notPended_fill _ _ _)

theorem keepsSourced_commit {f : ChunkTable → ChunkTable} (h : ∀ t, NotPended t (f t)) :
    KeepsSourced (commit f) :=
  fun s hs => ⟨hs.of_notPended rfl (h s.table), fun _ _ => trivial, fun _ _ => trivial⟩

theorem keepsSourced_appendChunk (c : Chunk) : KeepsSourced (appendChunk c) := by
  have hpush (t : ChunkTable) : NotPended t (t.push c) := fun _ hslot =>
    (Array.mem_push.1 hslot).imp_right fun hnew => .inr ⟨c, hnew⟩
  rw [appendChunk]
  refine Action.ends_get.bind fun s _ => ?_
  split
  · split
    · exact Action.ends_throw trivial
    · exact (keepsSourced_commit hpush).bind fun _ _ => Action.ends_pure trivial
  · exact (keepsSourced_commit hpush).bind fun _ _ => Action.ends_pure trivial

theorem keepsSourced_compress (raw : Bytes) (codec : CodecConfig) (i : Nat) :
    KeepsSourced (liftM ((Chunk.compress raw codec).mapError (Error.atChunk i)) : StoreM Chunk) :=
  Action.ends_liftM (fun _ _ => trivial) fun _ _ => trivial

theorem keepsSourced_append (raw : Bytes) : KeepsSourced (append raw) := by
  rw [append]
  refine Action.ends_get.bind fun s _ => ?_
  split
  · exact Action.ends_throw trivial
  · exact (keepsSourced_compress raw _ _).bind fun c _ => keepsSourced_appendChunk c

theorem keepsSourced_reserve (count : Nat) : KeepsSourced (reserve count) := by
  rw [reserve]
  refine Action.ends_get.bind fun s _ => (keepsSourced_commit fun t slot hslot => ?_).bind fun _ _ =>
    Action.ends_pure trivial
  exact (Array.mem_append.1 hslot).imp_right fun hnew => .inl (Array.mem_replicate.1 hnew).2

theorem keepsSourced_insertChunk (i : Nat) (c : Chunk) : KeepsSourced (insertChunk i c) := by
  have hfill (s : Store) (t : ChunkTable) : NotPended t
      (if s.allowResize then .ofSlots s.chunkSize (t.fill i c).slots else t.fill i c) := by
    split <;> exact notPended_fill t i c
  rw [insertChunk]
  refine Action.ends_get.bind fun s _ => ?_
  by_cases hsize : c.nbytes ≠ s.chunkSize ∧ (!s.allowResize) = true
  · rw [if_pos hsize]
    exact Action.ends_throw trivial
  · rw [if_neg hsize]
    cases s.table.slots[i]? with
    | none => exact Action.ends_throw trivial
    | some slot =>
      cases slot with
      | reserved => exact keepsSourced_commit (hfill s)
      | loaded old => exact Action.ends_throw trivial
      | pending nbytes cbytes => exact Action.ends_throw trivial

theorem keepsSourced_replace (source : ChunkSource) (i : Nat) (raw : Bytes) :
    KeepsSourced (replace source i raw) := by
  rw [replace]
  refine (keepsSourced_chunk source i).bind fun old _ => Action.ends_get.bind fun s _ => ?_
  by_cases hsize : old.nbytes ≠ raw.size ∧ (!s.allowResize) = true
  · simp only [if_pos hsize]
    exact Action.ends_throw trivial
  · simp only [if_neg hsize]
    refine (keepsSourced_compress raw _ _).bind fun c _ => keepsSourced_commit fun t => ?_
    split <;> exact notPended_fill t i c

theorem keepsSourced_perform (source : ChunkSource) (cmd : StoreCommand Chunk) :
    KeepsSourced (perform source cmd) := by
  cases cmd with
  | append raw => exact (keepsSourced_append raw).map fun _ _ => trivial
  | appendChunk c => exact (keepsSourced_appendChunk c).map fun _ _ => trivial
  | reserve count => exact (keepsSourced_reserve count).map fun _ _ => trivial
  | insertChunk i c => exact (keepsSourced_insertChunk i c).map fun _ _ => trivial
  | replace i raw => exact (keepsSourced_replace source i raw).map fun _ _ => trivial

/-- In every store that there is, the pending chunks have a source. -/
theorem Reachable.sourced (h : s.Reachable) : s.Sourced := by
  -- On how the store came about: only a store opened from a directory has pending chunks.
  induction h with
  | new h =>
    obtain ⟨-, -, rfl⟩ := new_eq_ok h
    intro _ slot hslot
    simp at hslot
  | ofFrame h =>
    obtain ⟨header, chunks, metadata, -, -, -, -, -, h⟩ := ofFrame_eq_ok h
    obtain ⟨-, -, rfl⟩ := ofChunks_eq_ok h
    intro _ slot hslot nbytes cbytes
    obtain ⟨c, -, rfl⟩ := List.mem_map.1 (List.mem_toArray.1 hslot)
    exact Slot.noConfusion
  | openSparse h =>
    obtain ⟨frame, -, h⟩ := bind_eq_ok.1 h
    obtain ⟨metadata, -, h⟩ := bind_eq_ok.1 h
    obtain ⟨s', -, h⟩ := bind_eq_ok.1 h
    cases h
    exact fun hnone => absurd hnone (Option.some_ne_none frame)
  | perform _ fs _ ih => exact (keepsSourced_perform _ _ _ ih).1
  | fetch _ fs i ih => exact (keepsSourced_chunk _ i _ ih).1
  | allowResize _ _ ih => exact ih
  | setKey _ _ _ ih => exact ih
  | deleteKey _ _ ih => exact ih
  | compact _ ih => exact ih
  | clearKeys _ _ ih => exact ih

end Store

end ChunkedArray
