import ChunkedArray.Frame.Sparse
import ChunkedArray.Proofs.Chunk.WellFormed
import ChunkedArray.Proofs.Codec.Config
import ChunkedArray.Proofs.Frame.Header
import ChunkedArray.Proofs.Metadata.Restored
import ChunkedArray.Proofs.Store.Fetch
import ChunkedArray.Proofs.Store.Offsets
import ChunkedArray.Proofs.Store.SlotList

/-!
# The stores that there are

A store starts new, from a contiguous frame or from a sparse one, and changes by commands, by fetching
pending chunks and by what is done to its metadata. All of this keeps its parameters valid and its
offsets current, and the chunks and metadata values in it are such as are read back from their
serialized form.
-/

namespace ChunkedArray

/-- The chunk that a command hands over was made, and its byte string is in memory. -/
inductive StoreCommand.IsMade : StoreCommand Chunk → Prop where
  | append {raw : Bytes} (hsize : raw.size < 2 ^ 63) : IsMade (.append raw)
  | appendChunk {c : Chunk} (hmade : c.Made) : IsMade (.appendChunk c)
  | reserve {count : Nat} : IsMade (.reserve count)
  | insertChunk {i : Nat} {c : Chunk} (hmade : c.Made) : IsMade (.insertChunk i c)
  | replace {i : Nat} {raw : Bytes} (hsize : raw.size < 2 ^ 63) : IsMade (.replace i raw)

/-- A slot counts with the size of the chunk with which it answers. -/
theorem Slot.extent_of_fetch {source : ChunkSource} {i : Nat} {slot : Slot} {c : Chunk}
    (h : slot.fetch source i = .ok c) (nominal : Nat) : slot.extent nominal = c.nbytes := by
  cases slot with
  | reserved => cases h
  | loaded c' =>
    cases h
    rfl
  | pending nbytes cbytes =>
    rw [fetch] at h
    split at h
    · cases h
    · split at h
      · rename_i hsize
        cases h
        exact hsize.symm
      · cases h

/-- A pending slot answers with the chunk from the source. -/
theorem Slot.source_of_fetch_pending {source : ChunkSource} {i nbytes cbytes : Nat} {c : Chunk}
    (h : (pending nbytes cbytes).fetch source i = .ok c) : source i = .ok c := by
  rw [fetch] at h
  split at h
  · cases h
  · rename_i hsource
    split at h
    · cases h
      exact mapError_eq_ok.1 hsource
    · cases h

namespace Store

/-- The stores that there are. A step counts whether it succeeds or fails. -/
inductive Reachable : Store → Prop where
  /-- New. -/
  | new {codec : CodecConfig} {chunkSize : Nat} {allowResize : Bool} {s : Store}
      (h : Store.new codec chunkSize allowResize = .ok s) : Reachable s
  /-- Read from a contiguous frame. -/
  | ofFrame {b : Bytes} {s : Store} (h : Store.ofFrame b = .ok s) : Reachable s
  /-- Opened from a sparse frame. -/
  | openSparse {fs : Files} {dir : Path} {s : Store} (h : Store.openSparse fs dir = .ok s) :
      Reachable s
  /-- Behind a command. -/
  | perform {s : Store} (hs : Reachable s) (fs : Files) {cmd : StoreCommand Chunk}
      (hcmd : cmd.IsMade) : Reachable (s.run (Store.perform (s.chunkSource fs) cmd)).2
  /-- Behind the use of a chunk, which fetches it if it is pending. -/
  | fetch {s : Store} (hs : Reachable s) (fs : Files) (i : Nat) :
      Reachable (s.run (chunk (s.chunkSource fs) i)).2
  /-- With other sizes allowed, or not any more. -/
  | allowResize {s : Store} (hs : Reachable s) (allowed : Bool) :
      Reachable { s with allowResize := allowed }
  /-- With a metadata key set. -/
  | setKey {s : Store} (hs : Reachable s) {key : String} {value : MetaValue} {metadata : Metadata}
      (hsize : value.encode.size < 2 ^ 63) (h : s.metadata.set key value = .ok metadata) :
      Reachable { s with metadata }
  /-- With a metadata key deleted. -/
  | deleteKey {s : Store} (hs : Reachable s) {key : String} {metadata : Metadata}
      (h : s.metadata.delete key = .ok metadata) : Reachable { s with metadata }
  /-- Without the marks of deleted metadata keys. -/
  | compact {s : Store} (hs : Reachable s) :
      Reachable { s with metadata := s.metadata.compact.2 }
  /-- With metadata started anew under valid parameters. -/
  | clearKeys {s : Store} (hs : Reachable s) {codec : CodecConfig} (h : codec.validate = .ok ()) :
      Reachable { s with metadata := { codec } }

/-- A store that can be saved and read back: its parameters are valid, its offsets are current, and
every chunk in memory and every metadata value is read back from its serialized form. -/
structure WellKept (s : Store) : Prop where
  valid : s.codec.validate = .ok ()
  chunkSize : 0 < s.chunkSize
  tallied : s.Tallied
  chunks : ∀ c, Slot.loaded c ∈ s.table.slots → c.Kept
  metadata : s.metadata.WellKept

/-- A source gives chunks that are read back. -/
def Faithful (source : ChunkSource) : Prop :=
  ∀ i c, source i = .ok c → c.Kept

/-! ## Chunks that come from outside -/

/-- A chunk that is accepted from a frame was read from its serialized form. -/
theorem ofBytes_of_restore {i : Nat} {data : Bytes} {entry : IndexEntry} {c : Chunk}
    (h : Chunk.restore i data entry = .ok c) :
    Chunk.ofBytes data = .ok c ∧ c.nbytes = entry.nbytes := by
  obtain ⟨c', hc', h⟩ := bind_eq_ok.1 h
  split at h
  · rename_i hsize
    cases h
    exact ⟨hc', hsize⟩
  · cases h

theorem faithful_chunkSource (s : Store) (fs : Files) : Faithful (s.chunkSource fs) := by
  intro i c h
  rw [chunkSource] at h
  split at h
  · rw [SparseFrame.readChunk] at h
    split at h
    · cases h
    · obtain ⟨data, -, h⟩ := bind_eq_ok.1 h
      split at h
      · exact Chunk.kept_of_ofBytes (ofBytes_of_restore h).1
      · cases h
  · cases h

theorem kept_of_restoreChunks {b : Bytes} {pos i : Nat} {index : List IndexEntry}
    {chunks : List Chunk} (h : restoreChunks b pos i index = .ok chunks) :
    ∀ c ∈ chunks, c.Kept := by
  induction index generalizing pos i chunks with
  | nil =>
    cases h
    simp
  | cons entry rest ih =>
    obtain ⟨c, hc, h⟩ := bind_eq_ok.1 h
    obtain ⟨others, hothers, h⟩ := bind_eq_ok.1 h
    cases h
    exact List.forall_mem_cons.2
      ⟨Chunk.kept_of_ofBytes (ofBytes_of_restore hc).1, ih hothers⟩

/-! ## Steps -/

theorem exists_slot_of_fetch {s : Store} {source : ChunkSource} {i : Nat} {c : Chunk}
    (h : s.fetch source i = .ok c) :
    ∃ slot, s.table.slots[i]? = some slot ∧ slot.fetch source i = .ok c := by
  rw [fetch] at h
  split at h
  · cases h
  · rename_i slot hslot
    exact ⟨slot, hslot, h⟩

/-- The use of a chunk gives the answer of its slot and leaves it there. -/
theorem run_chunk_eq_fill (source : ChunkSource) (i : Nat) (s : Store) :
    Action.run (chunk source i) s = (s.fetch source i,
      match s.fetch source i with
      | .ok c => { s with table := s.table.fill i c }
      | .error _ => s) := by
  simp only [chunk, Action.run_bind, Action.run_get, fetch]
  cases hslot : s.table.slots[i]? with
  | none => rfl
  | some slot =>
    cases slot with
    | reserved => rfl
    | loaded c =>
      obtain ⟨hlt, hget⟩ := Array.getElem?_eq_some_iff.1 hslot
      have hfill : s.table.fill i c = s.table := by
        simp [ChunkTable.fill, Array.setIfInBounds, hlt, ← hget]
      simp [Slot.fetch, hfill]
    | pending nbytes cbytes =>
      simp only [Action.run_bind, Action.run_liftM, Slot.fetch]
      cases (source i).mapError (Error.atChunk i) with
      | error e => rfl
      | ok c =>
        by_cases hsize : c.nbytes = nbytes
        · simp [hsize, publish, Action.run_map, Except.map]
        · simp [hsize]

/-- Behind its use a chunk is in memory. -/
theorem getElem?_of_run_chunk {s s' : Store} {source : ChunkSource} {i : Nat} {c : Chunk}
    (h : Action.run (chunk source i) s = (.ok c, s')) :
    s'.table.slots[i]? = some (.loaded c) := by
  rw [run_chunk_eq_fill] at h
  obtain ⟨hfetch, hs'⟩ := Prod.mk.inj h
  rw [hfetch] at hs'
  subst hs'
  obtain ⟨slot, hslot, -⟩ := exists_slot_of_fetch hfetch
  have hlt := (Array.getElem?_eq_some_iff.1 hslot).1
  simp [ChunkTable.fill, hlt]

section Loaded

variable {P : Chunk → Prop} {slots : Array Slot} {c : Chunk}

/-- What holds of all chunks and of a new one holds of all behind its placement into a slot. -/
theorem forall_loaded_setIfInBounds (h : ∀ c, Slot.loaded c ∈ slots → P c) (hc : P c) (i : Nat) :
    ∀ c', Slot.loaded c' ∈ slots.setIfInBounds i (.loaded c) → P c' := by
  intro c' hc'
  obtain hold | hnew := Array.mem_or_eq_of_mem_setIfInBounds hc'
  · exact h c' hold
  · cases hnew
    exact hc

theorem forall_loaded_push (h : ∀ c, Slot.loaded c ∈ slots → P c) (hc : P c) :
    ∀ c', Slot.loaded c' ∈ slots.push (.loaded c) → P c' := by
  intro c' hc'
  obtain hold | hnew := Array.mem_push.1 hc'
  · exact h c' hold
  · cases hnew
    exact hc

theorem forall_loaded_append_reserved (h : ∀ c, Slot.loaded c ∈ slots → P c) (count : Nat) :
    ∀ c', Slot.loaded c' ∈ slots ++ Array.replicate count Slot.reserved → P c' := by
  intro c' hc'
  obtain hold | hnew := Array.mem_append.1 hc'
  · exact h c' hold
  · exact absurd (Array.mem_replicate.1 hnew).2 (by simp)

end Loaded

namespace WellKept

variable {s : Store}

/-- With other slots, freshly counted, a store stays in order. -/
theorem withSlots (h : s.WellKept) {slots : Array Slot} (revision : Nat)
    (hslots : ∀ c, Slot.loaded c ∈ slots → c.Kept) :
    WellKept { s with table := .ofSlots s.chunkSize slots, revision } :=
  ⟨h.valid, h.chunkSize, rfl, hslots, h.metadata⟩

/-- A slot that is filled with a chunk of the size for which it counted leaves a store in order. -/
theorem fill (h : s.WellKept) {i : Nat} {slot : Slot} {c : Chunk}
    (hslot : s.table.slots[i]? = some slot) (hsize : slot.extent s.chunkSize = c.nbytes)
    (hc : c.Kept) (revision : Nat) :
    WellKept { s with table := s.table.fill i c, revision } := by
  have htable : s.table.fill i c =
      .ofSlots s.chunkSize (s.table.slots.setIfInBounds i (.loaded c)) := by
    rw [← ChunkTable.fill_ofSlots (by simp [hslot, hsize]), ← h.tallied]
  rw [htable]
  exact h.withSlots revision (forall_loaded_setIfInBounds h.chunks hc i)

/-- A slot that is filled and counted afresh leaves a store in order. -/
theorem refill (h : s.WellKept) {c : Chunk} (hc : c.Kept) (i revision : Nat) :
    WellKept { s with table := .ofSlots s.chunkSize (s.table.fill i c).slots, revision } :=
  h.withSlots revision (forall_loaded_setIfInBounds h.chunks hc i)

theorem push (h : s.WellKept) {c : Chunk} (hc : c.Kept) (revision : Nat) :
    WellKept { s with table := s.table.push c, revision } := by
  have htable : s.table.push c = .ofSlots s.chunkSize (s.table.slots.push (.loaded c)) := by
    rw [← ChunkTable.push_ofSlots, ← h.tallied]
  rw [htable]
  exact h.withSlots revision (forall_loaded_push h.chunks hc)

/-- The chunk with which a slot answers is read back. -/
theorem kept_of_fetch (h : s.WellKept) {source : ChunkSource} (hsource : Faithful source)
    {i : Nat} {c : Chunk} (hfetch : s.fetch source i = .ok c) : c.Kept := by
  obtain ⟨slot, hslot, hanswer⟩ := exists_slot_of_fetch hfetch
  cases slot with
  | reserved => cases hanswer
  | loaded c' =>
    cases hanswer
    exact h.chunks c (Array.mem_of_getElem? hslot)
  | pending nbytes cbytes => exact hsource i c (Slot.source_of_fetch_pending hanswer)

/-- Fetching a chunk leaves a store in order. -/
theorem run_chunk (h : s.WellKept) {source : ChunkSource} (hsource : Faithful source) (i : Nat) :
    (Action.run (chunk source i) s).2.WellKept := by
  rw [run_chunk_eq_fill]
  cases hfetch : s.fetch source i with
  | error e => exact h
  | ok c =>
    obtain ⟨slot, hslot, hanswer⟩ := exists_slot_of_fetch hfetch
    exact h.fill hslot (Slot.extent_of_fetch hanswer s.chunkSize)
      (h.kept_of_fetch hsource hfetch) s.revision

theorem run_appendChunk (h : s.WellKept) {c : Chunk} (hc : c.Kept) :
    (Action.run (appendChunk c) s).2.WellKept := by
  rw [appendChunk, Action.run_bind_of_ok (Action.run_get s)]
  cases s.table.slots.back?.bind Slot.nbytes? with
  | none => exact h.push hc (s.revision + 1)
  | some last =>
    by_cases hshort : last ≠ s.chunkSize ∧ (!s.allowResize) = true
    · simp only [if_pos hshort]
      exact h
    · simp only [if_neg hshort]
      exact h.push hc (s.revision + 1)

theorem run_append (h : s.WellKept) {raw : Bytes} (hsize : raw.size < 2 ^ 63) :
    (Action.run (append raw) s).2.WellKept := by
  rw [append, Action.run_bind_of_ok (Action.run_get s)]
  by_cases hlength : raw.isEmpty ∨ s.chunkSize < raw.size
  · rw [if_pos hlength]
    exact h
  · rw [if_neg hlength]
    cases hcompress : (Chunk.compress raw s.codec).mapError (Error.atChunk s.nchunks) with
    | error e => exact h
    | ok c =>
      exact h.run_appendChunk (Chunk.kept_of_compress hsize (mapError_eq_ok.1 hcompress))

theorem run_reserve (h : s.WellKept) (count : Nat) :
    (Action.run (reserve count) s).2.WellKept :=
  h.withSlots (s.revision + 1) (forall_loaded_append_reserved h.chunks count)

theorem run_insertChunk (h : s.WellKept) {c : Chunk} (hc : c.Kept) (i : Nat) :
    (Action.run (insertChunk i c) s).2.WellKept := by
  rw [insertChunk, Action.run_bind_of_ok (Action.run_get s)]
  by_cases hsize : c.nbytes ≠ s.chunkSize ∧ (!s.allowResize) = true
  · rw [if_pos hsize]
    exact h
  rw [if_neg hsize]
  cases hslot : s.table.slots[i]? with
  | none => exact h
  | some slot =>
    cases slot with
    | loaded old => exact h
    | pending nbytes cbytes => exact h
    | reserved =>
      by_cases hresize : s.allowResize = true
      · simp only [if_pos hresize]
        exact h.refill hc i (s.revision + 1)
      · -- Without other sizes the chunk has the nominal one, for which the slot counted.
        simp only [if_neg hresize]
        have hnominal : c.nbytes = s.chunkSize := by simpa [hresize] using hsize
        exact h.fill hslot hnominal.symm hc (s.revision + 1)

theorem run_replace (h : s.WellKept) {source : ChunkSource} (hsource : Faithful source) (i : Nat)
    {raw : Bytes} (hsize : raw.size < 2 ^ 63) :
    (Action.run (replace source i raw) s).2.WellKept := by
  have hkept := h.run_chunk hsource i
  rw [replace, Action.run_bind]
  cases hrun : Action.run (chunk source i) s with
  | mk answer s' =>
    rw [hrun] at hkept
    cases answer with
    | error e => exact hkept
    | ok old =>
      have hslot := getElem?_of_run_chunk hrun
      simp only [Action.run_bind, Action.run_get]
      by_cases hfixed : old.nbytes ≠ raw.size ∧ (!s'.allowResize) = true
      · simp only [if_pos hfixed]
        exact hkept
      simp only [if_neg hfixed]
      cases hcompress : (Chunk.compress raw s'.codec).mapError (Error.atChunk i) with
      | error e => exact hkept
      | ok c =>
        have hok := mapError_eq_ok.1 hcompress
        have hc := Chunk.kept_of_compress hsize hok
        simp only [Action.run_bind, Action.run_liftM]
        by_cases hresized : old.nbytes ≠ raw.size
        · simpa [commit, hresized] using hkept.refill hc i (s'.revision + 1)
        · have hsame : (Slot.loaded old).extent s'.chunkSize = c.nbytes := by
            rw [Slot.extent_loaded, Chunk.nbytes_of_compress hok, not_ne_iff.1 hresized]
          simpa [commit, hresized] using hkept.fill hslot hsame hc (s'.revision + 1)

/-- Every command leaves a store in order. -/
theorem run_perform (h : s.WellKept) {source : ChunkSource} (hsource : Faithful source)
    {cmd : StoreCommand Chunk} (hcmd : cmd.IsMade) :
    (Action.run (perform source cmd) s).2.WellKept := by
  cases hcmd with
  | append hsize => simpa [perform, Action.run_map] using h.run_append hsize
  | appendChunk hmade => simpa [perform, Action.run_map] using h.run_appendChunk hmade.kept
  | reserve => simpa [perform, Action.run_map] using h.run_reserve _
  | insertChunk hmade =>
    simpa [perform, Action.run_map] using h.run_insertChunk hmade.kept _
  | replace hsize => simpa [perform, Action.run_map] using h.run_replace hsource _ hsize

end WellKept

/-! ## Starts -/

theorem wellKept_new {codec : CodecConfig} {chunkSize : Nat} {allowResize : Bool} {s : Store}
    (h : Store.new codec chunkSize allowResize = .ok s) : s.WellKept := by
  obtain ⟨hvalid, hpos, rfl⟩ := new_eq_ok h
  exact ⟨hvalid, hpos, rfl, by simp, Metadata.wellKept_empty (by decide)⟩

/-- Entries in stored form make metadata in order. -/
theorem wellKept_of_insertAll {stored : List (String × Bytes)} {metadata : Metadata}
    (h : ({} : Metadata).insertAll stored = .ok metadata) : metadata.WellKept :=
  (Metadata.wellKept_empty (by decide)).insertAll h

/-- The parts of which a store from a frame is made. -/
theorem ofFrame_eq_ok {b : Bytes} {s : Store} (h : ofFrame b = .ok s) :
    ∃ header chunks metadata, FrameHeader.peek b = .ok header ∧
      header.headerSize + (header.index.map IndexEntry.cbytes).sum < 2 ^ 64 ∧
      header.headerSize + (header.index.map IndexEntry.cbytes).sum ≤ b.size ∧
      restoreChunks b header.headerSize 0 header.index = .ok chunks ∧
      ({} : Metadata).insertAll header.metadata = .ok metadata ∧
      ofChunks header.codec header.chunkSize header.allowResize chunks metadata = .ok s := by
  obtain ⟨header, hheader, h⟩ := bind_eq_ok.1 h
  split at h
  · cases h
  obtain ⟨payload, hpayload, h⟩ := bind_eq_ok.1 h
  obtain ⟨-, rfl⟩ := FrameHeader.checkedTotal_eq_ok.1 hpayload
  dsimp only at h
  split at h
  · cases h
  rename_i hword
  split at h
  · cases h
  rename_i hlong
  obtain ⟨chunks, hchunks, h⟩ := bind_eq_ok.1 h
  obtain ⟨metadata, hmetadata, h⟩ := bind_eq_ok.1 h
  exact ⟨header, chunks, metadata, hheader, by omega, by omega, hchunks, hmetadata, h⟩

theorem wellKept_ofFrame {b : Bytes} {s : Store} (h : ofFrame b = .ok s) : s.WellKept := by
  obtain ⟨header, chunks, metadata, -, -, -, hchunks, hmetadata, h⟩ := ofFrame_eq_ok h
  obtain ⟨hvalid, hpos, rfl⟩ := ofChunks_eq_ok h
  refine ⟨hvalid, hpos, rfl, fun c hc => ?_, wellKept_of_insertAll hmetadata⟩
  obtain ⟨c', hc', hsame⟩ := List.mem_map.1 (List.mem_toArray.1 hc)
  cases hsame
  exact kept_of_restoreChunks hchunks c hc'

theorem wellKept_openSparse {fs : Files} {dir : Path} {s : Store}
    (h : Store.openSparse fs dir = .ok s) : s.WellKept := by
  obtain ⟨frame, -, h⟩ := bind_eq_ok.1 h
  obtain ⟨metadata, hmetadata, h⟩ := bind_eq_ok.1 h
  obtain ⟨s', hnew, h⟩ := bind_eq_ok.1 h
  obtain ⟨hvalid, hpos, rfl⟩ := new_eq_ok hnew
  cases h
  refine ⟨hvalid, hpos, rfl, fun c hc => ?_, wellKept_of_insertAll hmetadata⟩
  simp at hc

/-- Every store that there is can be saved and read back. -/
theorem Reachable.wellKept {s : Store} (h : s.Reachable) : s.WellKept := by
  induction h with
  | new h => exact wellKept_new h
  | ofFrame h => exact wellKept_ofFrame h
  | openSparse h => exact wellKept_openSparse h
  | perform _ fs hcmd ih => exact ih.run_perform (faithful_chunkSource _ fs) hcmd
  | fetch _ fs i ih => exact ih.run_chunk (faithful_chunkSource _ fs) i
  | allowResize _ _ ih => exact ⟨ih.valid, ih.chunkSize, ih.tallied, ih.chunks, ih.metadata⟩
  | setKey _ hsize h ih => exact ⟨ih.valid, ih.chunkSize, ih.tallied, ih.chunks, ih.metadata.set hsize h⟩
  | deleteKey _ h ih => exact ⟨ih.valid, ih.chunkSize, ih.tallied, ih.chunks, ih.metadata.delete h⟩
  | compact _ ih => exact ⟨ih.valid, ih.chunkSize, ih.tallied, ih.chunks, ih.metadata.compact⟩
  | clearKeys _ hvalid ih =>
    have htypesize := (CodecConfig.validate_eq_ok_iff.1 hvalid).2.2
    exact ⟨ih.valid, ih.chunkSize, ih.tallied, ih.chunks, Metadata.wellKept_empty (by omega)⟩

end Store

end ChunkedArray
