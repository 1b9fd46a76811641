import ChunkedArray.Proofs.Store.Fetch
import ChunkedArray.Proofs.Store.Offsets
import ChunkedArray.Proofs.Store.SlotList

/-!
# Stores refine lists of slots

A store whose chunks are in memory shows a plain list of slots. Every command does to that list what
the list would do to itself, with the same answer, and every question about the store is answered
from the list. What carries this from step to step is that the table keeps the running sums of its
sizes and that every chunk holds a byte string.
-/

namespace ChunkedArray

/-- The byte string in a slot, unless it is reserved. -/
def Slot.shown : Slot → Option Bytes
  | reserved => none
  | loaded c => some c.raw
  | pending _ _ => none

/-- The slot is reserved, or its chunk is in memory and holds a byte string. -/
def Slot.InMemory : Slot → Prop
  | reserved => True
  | loaded c => c.Holds c.raw
  | pending _ _ => False

theorem Slot.inMemory_loaded {c : Chunk} {content : Bytes} (h : c.Holds content) :
    (loaded c).InMemory := by
  have hraw := h.raw
  subst hraw
  exact h

/-- A slot counts with the size of what it shows. -/
theorem Slot.InMemory.extent_eq {slot : Slot} (h : slot.InMemory) (nominal : Nat) :
    slot.extent nominal = (slot.shown.map Array.size).getD nominal := by
  cases slot with
  | reserved => rfl
  | loaded c => simpa [shown] using Chunk.Holds.nbytes h
  | pending nbytes cbytes => exact h.elim

namespace Store

/-- The list of slots that a store shows. -/
def slotList (s : Store) : SlotList where
  codec := s.codec
  chunkSize := s.chunkSize
  allowResize := s.allowResize
  slots := s.table.slots.toList.map Slot.shown

/-- A store in memory whose table is in order. -/
structure InMemory (s : Store) : Prop where
  slots : ∀ slot ∈ s.table.slots, slot.InMemory
  tallied : s.Tallied
  typesize : 0 < s.codec.typesize
  chunkSize : 0 < s.chunkSize

@[simp] theorem length_slotList (s : Store) : s.slotList.nchunks = s.nchunks := by
  simp [SlotList.nchunks, slotList, nchunks]

theorem getElem?_slotList (s : Store) (i : Nat) :
    s.slotList.slots[i]? = s.table.slots[i]?.map Slot.shown := by
  simp [slotList]

namespace InMemory

variable {s : Store} {source : ChunkSource}

/-- The sizes in the table are those of the list. -/
theorem map_extent (h : s.InMemory) :
    s.table.slots.toList.map (Slot.extent s.chunkSize) = s.slotList.sizes := by
  rw [SlotList.sizes, slotList, List.map_map]
  refine List.map_congr_left fun slot hslot => ?_
  exact (h.slots slot (by simpa using hslot)).extent_eq s.chunkSize

theorem nbytes_eq (h : s.InMemory) : s.nbytes = s.slotList.nbytes := by
  rw [nbytes, h.tallied, ChunkTable.nbytes_ofSlots, h.map_extent, SlotList.nbytes]

theorem starts_eq (h : s.InMemory) :
    s.table.starts.toList = (List.range s.nchunks).map s.slotList.start := by
  rw [h.tallied, ChunkTable.starts_ofSlots, h.map_extent]
  rfl

/-! ## Commands -/

/-- A store with other slots in memory, freshly counted, is in order and shows them. -/
theorem withSlots (h : s.InMemory) {slots : Array Slot} (revision : Nat)
    (hslots : ∀ slot ∈ slots, slot.InMemory) :
    InMemory { s with table := .ofSlots s.chunkSize slots, revision } :=
  ⟨hslots, rfl, h.typesize, h.chunkSize⟩

theorem slotList_withSlots (s : Store) (slots : Array Slot) (revision : Nat) :
    slotList { s with table := .ofSlots s.chunkSize slots, revision } =
      { s.slotList with slots := slots.toList.map Slot.shown } := rfl

/-- A byte string is compressed unless its blocks are too large. -/
theorem compress_cases (h : s.InMemory) {raw : Bytes} (hsize : raw.size < 2 ^ 63) (i : Nat) :
    (∃ e, s.slotList.compressionFault? raw = some e ∧
      (Chunk.compress raw s.codec).mapError (Error.atChunk i) = .error e) ∨
    (s.slotList.compressionFault? raw = none ∧ ∃ c : Chunk,
      (Chunk.compress raw s.codec).mapError (Error.atChunk i) = .ok c ∧ c.Holds raw) := by
  have hcodec : s.slotList.codec = s.codec := rfl
  by_cases hblock : 2 ^ 32 ≤ Chunk.chosenBlockSize raw.size s.codec
  · refine .inl ⟨_, if_pos (by rwa [hcodec]), ?_⟩
    rw [Chunk.compress_eq_error hblock]
    rfl
  · obtain ⟨c, hc⟩ := Chunk.exists_compress_eq_ok (Nat.not_le.1 hblock)
    refine .inr ⟨if_neg (by rwa [hcodec]), c, ?_, Chunk.holds_compress h.typesize hsize hc⟩
    rw [hc]
    rfl

/-- An action does to a store what a command does to the list that the store shows. -/
def Follows (s : Store) (act : StoreM (Option Nat)) (cmd : StoreCommand Bytes) : Prop :=
  ∃ s', Action.run act s = ((s.slotList.perform cmd).1, s') ∧ s'.InMemory ∧
    s'.slotList = (s.slotList.perform cmd).2

theorem follows_of_refused (h : s.InMemory) {act : StoreM (Option Nat)}
    {cmd : StoreCommand Bytes} {e : Error} (hrefusal : s.slotList.refusal? cmd = some e)
    (hrun : Action.run act s = (.error e, s)) : Follows s act cmd := by
  refine ⟨s, ?_, h, ?_⟩ <;> simp [SlotList.perform, hrefusal, hrun]

theorem follows_of_accepted (h : s.InMemory) {act : StoreM (Option Nat)}
    {cmd : StoreCommand Bytes} (slots : Array Slot) (hrefusal : s.slotList.refusal? cmd = none)
    (hrun : Action.run act s = (.ok (s.slotList.answer cmd),
      { s with table := .ofSlots s.chunkSize slots, revision := s.revision + 1 }))
    (hslots : ∀ slot ∈ slots, slot.InMemory)
    (hshown : slots.toList.map Slot.shown = SlotList.changed s.slotList.slots cmd) :
    Follows s act cmd := by
  refine ⟨_, ?_, h.withSlots (s.revision + 1) hslots, ?_⟩
  · simp [SlotList.perform, hrefusal, hrun]
  · simp [SlotList.perform, hrefusal, slotList_withSlots, hshown]

/-- The size of the last slot, unless it is reserved. -/
theorem back_eq (h : s.InMemory) :
    s.table.slots.back?.bind Slot.nbytes? = s.slotList.slots.getLast?.join.map Array.size := by
  rw [slotList, List.getLast?_map, Array.getLast?_toList]
  cases hback : s.table.slots.back? with
  | none => rfl
  | some slot =>
    have hslot := h.slots slot (Array.mem_of_back? hback)
    cases slot with
    | reserved => rfl
    | loaded c => simpa [Slot.nbytes?, Slot.shown] using Chunk.Holds.nbytes hslot
    | pending nbytes cbytes => exact hslot.elim

/-- A chunk is added at the end unless sizes are fixed and the last slot is short. -/
theorem run_appendChunk (h : s.InMemory) (c : Chunk) :
    Action.run (appendChunk c) s =
      match s.slotList.appendFault? with
      | some e => (.error e, s)
      | none => (.ok s.nchunks, { s with
          table := .ofSlots s.chunkSize (s.table.slots.push (.loaded c))
          revision := s.revision + 1 }) := by
  have htable : s.table.push c = .ofSlots s.chunkSize (s.table.slots.push (.loaded c)) := by
    rw [← ChunkTable.push_ofSlots, ← h.tallied]
  rw [appendChunk, Action.run_bind_of_ok (Action.run_get s), h.back_eq]
  simp only [SlotList.appendFault?, length_slotList]
  cases s.slotList.slots.getLast?.join with
  | none => simp [commit, Action.run_map, Except.map, htable]
  | some last =>
    by_cases hshort : ¬ last.size = s.chunkSize ∧ s.allowResize = false
    · simp [slotList, hshort]
    · simp [slotList, hshort, commit, Action.run_map, Except.map, htable]

/-- Chunks of the nominal size, and at last one of any size, are added behind a slot of the nominal
size or none. -/
theorem run_appendChunks (h : s.InMemory) {chunks : List Chunk}
    (hchunks : ∀ c ∈ chunks, c.Holds c.raw)
    (hback : ∀ n, s.table.slots.back?.bind Slot.nbytes? = some n → n = s.chunkSize)
    (hsizes : ∀ c ∈ chunks.dropLast, c.nbytes = s.chunkSize) :
    Action.run (appendChunks chunks) s = (.ok (), { s with
      table := .ofSlots s.chunkSize (s.table.slots ++ (chunks.map Slot.loaded).toArray)
      revision := s.revision + chunks.length }) := by
  -- On the chunks left. One of another size ends the row, as nothing is added behind it.
  induction chunks generalizing s with
  | nil =>
    simp only [appendChunks, Action.run_pure, List.map_nil, Array.append_empty, List.length_nil,
      Nat.add_zero]
    rw [← h.tallied]
  | cons c rest ih =>
    have hfault : s.slotList.appendFault? = none := by
      have hlast := h.back_eq ▸ hback
      rw [SlotList.appendFault?]
      cases hjoin : s.slotList.slots.getLast?.join with
      | none => rfl
      | some last =>
        have hsize : last.size = s.slotList.chunkSize := hlast _ (by rw [hjoin, Option.map_some])
        simp [hsize]
    have hfirst := h.run_appendChunk c
    rw [hfault] at hfirst
    rw [appendChunks, Action.run_bind_of_ok hfirst]
    cases rest with
    | nil => simp [appendChunks]
    | cons c' rest =>
      have hc := Slot.inMemory_loaded (hchunks c List.mem_cons_self)
      have hnext := h.withSlots (s.revision + 1) fun slot hslot =>
        (Array.mem_push.1 hslot).elim (h.slots slot) fun heq => heq ▸ hc
      rw [ih hnext (fun d hd => hchunks d (List.mem_cons_of_mem _ hd)) ?_
        fun d hd => hsizes d (List.mem_cons_of_mem _ hd)]
      · simp [Nat.add_assoc, Nat.add_comm 1]
      · simpa [Slot.nbytes?] using hsizes c List.mem_cons_self

/-- Adding a chunk that holds a byte string adds this to the list. -/
theorem follows_appendChunk (h : s.InMemory) {c : Chunk} {content : Bytes}
    (hholds : c.Holds content) (source : ChunkSource) :
    Follows s (perform source (.appendChunk c)) (.appendChunk content) := by
  have hrun := h.run_appendChunk c
  cases hfault : s.slotList.appendFault? with
  | some e =>
    rw [hfault] at hrun
    exact h.follows_of_refused hfault (by simp [perform, Action.run_map, hrun, Except.map])
  | none =>
    rw [hfault] at hrun
    refine h.follows_of_accepted (s.table.slots.push (.loaded c)) hfault ?_ ?_ ?_
    · simp [perform, Action.run_map, hrun, Except.map, SlotList.answer]
    · simpa [or_imp, forall_and] using ⟨h.slots, Slot.inMemory_loaded hholds⟩
    · simp [SlotList.changed, slotList, Slot.shown, hholds.raw]

/-- Adding a byte string adds it to the list. -/
theorem follows_append (h : s.InMemory) {raw : Bytes} (hsize : raw.size < 2 ^ 63)
    (source : ChunkSource) : Follows s (perform source (.append raw)) (.append raw) := by
  by_cases hlength : raw.isEmpty ∨ s.chunkSize < raw.size
  · have hrefusal : s.slotList.refusal? (.append raw) =
        some (.parameter (.appendLength s.chunkSize raw.size)) := if_pos hlength
    refine h.follows_of_refused hrefusal ?_
    rw [perform, Action.run_map, append, Action.run_bind_of_ok (Action.run_get s), if_pos hlength]
    rfl
  · have hrefusal : s.slotList.refusal? (.append raw) =
        (s.slotList.compressionFault? raw).or s.slotList.appendFault? := if_neg hlength
    obtain ⟨e, hfault, hcompress⟩ | ⟨hfault, c, hcompress, hholds⟩ :=
      h.compress_cases hsize s.nchunks
    · refine h.follows_of_refused (e := e) (by rw [hrefusal, hfault]; rfl) ?_
      rw [perform, Action.run_map, append, Action.run_bind_of_ok (Action.run_get s),
        if_neg hlength, hcompress]
      rfl
    · have hrun : Action.run (append raw) s = Action.run (appendChunk c) s := by
        rw [append, Action.run_bind_of_ok (Action.run_get s), if_neg hlength, hcompress]
        rfl
      obtain ⟨s', hrun', hmemory, hlist⟩ := h.follows_appendChunk hholds source
      have hsame : s.slotList.perform (.append raw) = s.slotList.perform (.appendChunk raw) := by
        rw [SlotList.perform, SlotList.perform, hrefusal, hfault]
        rfl
      refine ⟨s', ?_, hmemory, ?_⟩
      · rw [hsame, ← hrun', perform, perform, Action.run_map, Action.run_map, hrun]
      · rw [hsame, hlist]

/-- Reserving slots adds reserved ones to the list. -/
theorem follows_reserve (h : s.InMemory) (count : Nat) (source : ChunkSource) :
    Follows s (perform source (.reserve count)) (.reserve count) := by
  refine h.follows_of_accepted
    (s.table.slots ++ Array.replicate count Slot.reserved) rfl ?_ ?_ ?_
  · rw [perform, Action.run_map, reserve, Action.run_bind_of_ok (Action.run_get s)]
    simp [Action.run_map, commit, Except.map, SlotList.answer]
  · simp only [Array.mem_append, Array.mem_replicate]
    rintro slot (hslot | ⟨-, rfl⟩)
    · exact h.slots slot hslot
    · exact trivial
  · simp [SlotList.changed, slotList, Slot.shown]

/-- Slots in memory stay so when one is filled with a chunk that holds a byte string. -/
theorem inMemory_setIfInBounds (h : s.InMemory) {c : Chunk} {content : Bytes}
    (hholds : c.Holds content) (i : Nat) :
    ∀ slot ∈ s.table.slots.setIfInBounds i (.loaded c), slot.InMemory := by
  intro slot hslot
  obtain hold | rfl := Array.mem_or_eq_of_mem_setIfInBounds hslot
  · exact h.slots slot hold
  · exact Slot.inMemory_loaded hholds

/-- A slot that is filled in place with a chunk of its size leaves the table in order. -/
theorem fill_eq (h : s.InMemory) {i : Nat} {slot : Slot} {c : Chunk}
    (hslot : s.table.slots[i]? = some slot) (hsize : slot.extent s.chunkSize = c.nbytes) :
    s.table.fill i c = .ofSlots s.chunkSize (s.table.slots.setIfInBounds i (.loaded c)) := by
  rw [← ChunkTable.fill_ofSlots (by simp [hslot, hsize]), ← h.tallied]

/-- Filling a reserved slot fills that slot of the list. -/
theorem follows_insertChunk (h : s.InMemory) {i : Nat} {c : Chunk} {content : Bytes}
    (hholds : c.Holds content) (source : ChunkSource) :
    Follows s (perform source (.insertChunk i c)) (.insertChunk i content) := by
  have hnbytes := hholds.nbytes
  by_cases hsize : c.nbytes ≠ s.chunkSize ∧ (!s.allowResize) = true
  · have hrefusal : s.slotList.refusal? (.insertChunk i content) =
        some (.parameter (.insertLength i content.size s.chunkSize)) := by
      rw [hnbytes] at hsize
      exact if_pos hsize
    refine h.follows_of_refused hrefusal ?_
    rw [perform, Action.run_map, insertChunk, Action.run_bind_of_ok (Action.run_get s),
      if_pos hsize, hnbytes]
    rfl
  have hfits : ¬ (content.size ≠ s.slotList.chunkSize ∧ (!s.slotList.allowResize) = true) := by
    rw [hnbytes] at hsize
    exact hsize
  have hshown := s.getElem?_slotList i
  -- What stands at the place decides: nothing, a chunk, or a reserved slot, which alone is filled.
  cases hslot : s.table.slots[i]? with
  | none =>
    have hrefusal : s.slotList.refusal? (.insertChunk i content) =
        some (.index (.chunk i s.nchunks)) := by
      rw [SlotList.refusal?, if_neg hfits, hshown, hslot, length_slotList]
      rfl
    refine h.follows_of_refused hrefusal ?_
    rw [perform, Action.run_map, insertChunk, Action.run_bind_of_ok (Action.run_get s),
      if_neg hsize, hslot]
    rfl
  | some slot =>
    cases slot with
    | loaded old =>
      have hrefusal : s.slotList.refusal? (.insertChunk i content) =
          some (.internal (.filledTwice i)) := by
        rw [SlotList.refusal?, if_neg hfits, hshown, hslot]
        rfl
      refine h.follows_of_refused hrefusal ?_
      rw [perform, Action.run_map, insertChunk, Action.run_bind_of_ok (Action.run_get s),
        if_neg hsize, hslot]
      rfl
    | pending nbytes cbytes => exact (h.slots _ (Array.mem_of_getElem? hslot)).elim
    | reserved =>
      have hrefusal : s.slotList.refusal? (.insertChunk i content) = none := by
        rw [SlotList.refusal?, if_neg hfits, hshown, hslot]
        rfl
      refine h.follows_of_accepted _ hrefusal ?_ (h.inMemory_setIfInBounds hholds i) ?_
      · rw [perform, Action.run_map, insertChunk, Action.run_bind_of_ok (Action.run_get s),
          if_neg hsize, hslot]
        cases hresize : s.allowResize with
        | true => simp [commit, hresize, ChunkTable.fill, SlotList.answer, Except.map]
        | false =>
          have hnominal : c.nbytes = s.chunkSize := by simpa [hresize] using hsize
          simp [commit, hresize, h.fill_eq hslot hnominal.symm, SlotList.answer, Except.map]
      · simp [SlotList.changed, slotList, Slot.shown, hholds.raw, List.map_set]

/-- Without a chunk in the slot there is nothing to overwrite. -/
theorem follows_replace_of_empty (h : s.InMemory) {i : Nat} (raw : Bytes) {source : ChunkSource}
    {e : Error} (hrefusal : s.slotList.refusal? (.replace i raw) = some e)
    (hchunk : Action.run (chunk source i) s = (.error e, s)) :
    Follows s (perform source (.replace i raw)) (.replace i raw) := by
  refine h.follows_of_refused hrefusal ?_
  rw [perform, Action.run_map, replace, Action.run_bind, hchunk]
  rfl

/-- What overwriting a chunk in memory does. -/
theorem run_replace_of_loaded {i : Nat} {old : Chunk}
    (hslot : s.table.slots[i]? = some (.loaded old)) (raw : Bytes) (source : ChunkSource) :
    Action.run (replace source i raw) s =
      if old.nbytes ≠ raw.size ∧ (!s.allowResize) = true then
        (.error (.parameter (.replaceLength i raw.size old.nbytes)), s)
      else
        match (Chunk.compress raw s.codec).mapError (Error.atChunk i) with
        | .error e => (.error e, s)
        | .ok c => (.ok (), { s with
            table :=
              if old.nbytes ≠ raw.size then .ofSlots s.chunkSize (s.table.fill i c).slots
              else s.table.fill i c
            revision := s.revision + 1 }) := by
  rw [replace, Action.run_bind_of_ok (run_chunk_loaded hslot),
    Action.run_bind_of_ok (Action.run_get s)]
  by_cases hfixed : old.nbytes ≠ raw.size ∧ (!s.allowResize) = true
  · rw [if_pos hfixed]
    simp only [if_pos hfixed]
    rfl
  · rw [if_neg hfixed]
    simp only [if_neg hfixed]
    cases (Chunk.compress raw s.codec).mapError (Error.atChunk i) with
    | error e => rfl
    | ok c => rfl

/-- A chunk in memory is overwritten unless sizes are fixed and the new one differs, or it cannot
be compressed. -/
theorem follows_replace_loaded (h : s.InMemory) {i : Nat} {old : Chunk} {raw : Bytes}
    (hslot : s.table.slots[i]? = some (.loaded old)) (hsize : raw.size < 2 ^ 63)
    (source : ChunkSource) : Follows s (perform source (.replace i raw)) (.replace i raw) := by
  have hnbytes : old.nbytes = old.raw.size :=
    Chunk.Holds.nbytes (h.slots _ (Array.mem_of_getElem? hslot))
  have hrefusal : s.slotList.refusal? (.replace i raw) =
      if old.raw.size ≠ raw.size ∧ (!s.allowResize) = true then
        some (.parameter (.replaceLength i raw.size old.raw.size))
      else s.slotList.compressionFault? raw := by
    rw [SlotList.refusal?, getElem?_slotList, hslot]
    rfl
  have hreplace := run_replace_of_loaded hslot raw source
  rw [hnbytes] at hreplace
  by_cases hfixed : old.raw.size ≠ raw.size ∧ (!s.allowResize) = true
  · rw [if_pos hfixed] at hrefusal hreplace
    exact h.follows_of_refused hrefusal (by rw [perform, Action.run_map, hreplace]; rfl)
  rw [if_neg hfixed] at hrefusal hreplace
  obtain ⟨e, hfault, hcompress⟩ | ⟨hfault, c, hcompress, hholds⟩ := h.compress_cases hsize i
  · rw [hfault] at hrefusal
    rw [hcompress] at hreplace
    exact h.follows_of_refused hrefusal (by rw [perform, Action.run_map, hreplace]; rfl)
  · rw [hfault] at hrefusal
    rw [hcompress] at hreplace
    refine h.follows_of_accepted _ hrefusal ?_ (h.inMemory_setIfInBounds hholds i) ?_
    · rw [perform, Action.run_map, hreplace]
      by_cases hsame : old.raw.size = raw.size
      · have hkept : (Slot.loaded old).extent s.chunkSize = c.nbytes := by
          rw [Slot.extent_loaded, hnbytes, hsame, hholds.nbytes]
        simp [hsame, h.fill_eq hslot hkept, SlotList.answer, Except.map]
      · simp [hsame, ChunkTable.fill, SlotList.answer, Except.map]
    · simp [SlotList.changed, slotList, Slot.shown, hholds.raw, List.map_set]

/-- Overwriting a slot overwrites that slot of the list. -/
theorem follows_replace (h : s.InMemory) (i : Nat) {raw : Bytes} (hsize : raw.size < 2 ^ 63)
    (source : ChunkSource) : Follows s (perform source (.replace i raw)) (.replace i raw) := by
  cases hslot : s.table.slots[i]? with
  | none =>
    apply h.follows_replace_of_empty raw
    · simp [SlotList.refusal?, getElem?_slotList, hslot]
      rfl
    · simp [chunk, Action.run_bind, hslot]
  | some slot =>
    cases slot with
    | reserved =>
      apply h.follows_replace_of_empty raw
      · simp [SlotList.refusal?, getElem?_slotList, hslot, Slot.shown]
        rfl
      · simp [chunk, Action.run_bind, hslot]
    | loaded old => exact h.follows_replace_loaded hslot hsize source
    | pending nbytes cbytes => exact (h.slots _ (Array.mem_of_getElem? hslot)).elim

/-- Every command does to the list that a store shows what it does to a plain list. -/
theorem follows_perform (h : s.InMemory) {cmd : StoreCommand Chunk} {cmd' : StoreCommand Bytes}
    (hcmd : cmd.Decodes cmd') (source : ChunkSource) : Follows s (perform source cmd) cmd' := by
  cases hcmd with
  | append hsize => exact h.follows_append hsize source
  | appendChunk hmade hok hsize => exact h.follows_appendChunk (hmade.holds hok hsize) source
  | reserve => exact h.follows_reserve _ source
  | insertChunk hmade hok hsize => exact h.follows_insertChunk (hmade.holds hok hsize) source
  | replace hsize => exact h.follows_replace _ hsize source

/-- A run of commands does to the list that a store shows what it does to a plain list. -/
theorem performAll (h : s.InMemory) {cmds : List (StoreCommand Chunk)}
    {cmds' : List (StoreCommand Bytes)} (hcmds : List.Forall₂ StoreCommand.Decodes cmds cmds')
    (source : ChunkSource) :
    (s.performAll source cmds).1 = (s.slotList.performAll cmds').1 ∧
      (s.performAll source cmds).2.InMemory ∧
      (s.performAll source cmds).2.slotList = (s.slotList.performAll cmds').2 := by
  induction hcmds generalizing s with
  | nil => exact ⟨rfl, h, rfl⟩
  | cons hcmd _ ih =>
    obtain ⟨s', hrun, hmemory, hlist⟩ := h.follows_perform hcmd source
    obtain ⟨hanswers, hmemory', hlist'⟩ := ih hmemory
    have hrun' : s.run (perform source _) = _ := hrun
    simp only [Store.performAll, SlotList.performAll, hrun']
    rw [← hlist]
    exact ⟨by rw [hanswers], hmemory', hlist'⟩

end InMemory

end Store

end ChunkedArray
