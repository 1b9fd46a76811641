import ChunkedArray.Proofs.Frame.Cut
import ChunkedArray.Proofs.Guarded.Frame

/-!
# Frames written anew

Many byte strings are frames of one store. The text of the parameters may leave members out, metadata
keys may repeat and stand in any order, flags may have no meaning, and there may be room behind the
fields of the header, in the chunks and behind the last of them. The first reading settles all of this:
the frame that is written for the store is read back as that store, down to every byte of its chunks,
and is the one that is written for it again.
-/

namespace ChunkedArray.Store

open FrameHeader

variable {b : Bytes} {s : Store} {header : FrameHeader} {chunks : List Chunk}
  {source : ChunkSource}

/-! ## What a frame says -/

/-- A store holds what a frame says: its parameters, its chunks, which fill the part of the frame
behind the header, and for every metadata key the value that is listed last. -/
structure ReadFrom (s : Store) (b : Bytes) (header : FrameHeader) (chunks : List Chunk) :
    Prop where
  peek : peek b = .ok header
  codec : s.codec = header.codec
  chunkSize : s.chunkSize = header.chunkSize
  allowResize : s.allowResize = header.allowResize
  slots : s.table.slots = (chunks.map Slot.loaded).toArray
  rows : chunks.map Chunk.indexEntry = header.index
  payload : Bytes.concat (chunks.map Chunk.data) =
    b.slice header.headerSize (header.index.map IndexEntry.cbytes).sum
  parsed : ∀ c ∈ chunks, Chunk.ofBytes c.data = .ok c
  metadata : ∀ key,
    (s.metadata.entry? key).map Chunk.data = header.metadata.reverse.lookup key

/-- The chunks of a frame have the sizes of their rows, lie next to each other, and are read back from
the bytes that they were cut from. -/
theorem restoreChunks_eq_ok {pos i : Nat} {index : List IndexEntry}
    (h : restoreChunks b pos i index = .ok chunks)
    (hinside : pos + (index.map IndexEntry.cbytes).sum ≤ b.size) :
    chunks.map Chunk.indexEntry = index ∧
      Bytes.concat (chunks.map Chunk.data) = b.slice pos (index.map IndexEntry.cbytes).sum ∧
      ∀ c ∈ chunks, Chunk.ofBytes c.data = .ok c := by
  -- On the rows left: the chunk of a row starts where the one before it ended.
  induction index generalizing pos i chunks with
  | nil =>
    cases h
    simp [Bytes.concat, Bytes.slice]
  | cons entry rest ih =>
    obtain ⟨c, hc, h⟩ := bind_eq_ok.1 h
    obtain ⟨others, hothers, h⟩ := bind_eq_ok.1 h
    cases h
    rw [List.map_cons, List.sum_cons] at hinside
    obtain ⟨hrows, hpayload, hparsed⟩ := ih hothers (by omega)
    obtain ⟨hread, hnbytes⟩ := ofBytes_of_restore hc
    have hdata : c.data = b.slice pos entry.cbytes := (Chunk.ofBytes_eq_ok hread).2.1
    have hcbytes : c.cbytes = entry.cbytes := by
      rw [Chunk.cbytes, hdata, Bytes.size_slice]
      omega
    refine ⟨?_, ?_, List.forall_mem_cons.2 ⟨?_, hparsed⟩⟩
    · rw [List.map_cons, hrows, Chunk.indexEntry, hcbytes, hnbytes]
    · rw [List.map_cons, Bytes.concat_cons, hpayload, hdata, List.map_cons, List.sum_cons]
      simp only [Bytes.slice, Array.extract_append_extract]
      congr 1 <;> omega
    · rw [hdata, hread]

/-- A store has nothing that a frame does not keep: no count of changes, no source of pending chunks,
no mark of a deleted key and no metadata parameters of its own. -/
def Settled (s : Store) : Prop :=
  s = { codec := s.codec, chunkSize := s.chunkSize, allowResize := s.allowResize, table := s.table
        metadata := { entries := s.metadata.compact.2.entries } }

theorem readFrom_of_ofFrame (h : ofFrame b = .ok s) :
    s.Settled ∧ ∃ header chunks, s.ReadFrom b header chunks := by
  obtain ⟨header, chunks, metadata, hpeek, -, hinside, hchunks, hmetadata, h⟩ := ofFrame_eq_ok h
  obtain ⟨-, -, rfl⟩ := ofChunks_eq_ok h
  obtain ⟨hrows, hpayload, hparsed⟩ := restoreChunks_eq_ok hchunks hinside
  obtain ⟨hcompact, hcodec⟩ := Metadata.compact_of_insertAll hmetadata
  constructor
  · rw [Settled, hcompact, ← hcodec]
  · refine ⟨header, chunks, hpeek, rfl, rfl, rfl, ?_, hrows, hpayload, hparsed, fun key => ?_⟩
    · rw [ChunkTable.slots_ofSlots]
    · rw [Metadata.entry?_of_insertAll hmetadata key]
      exact Option.or_none

namespace ReadFrom

/-- Every slot answers with its chunk. -/
theorem fetches (h : s.ReadFrom b header chunks) (source : ChunkSource) :
    s.Fetches source chunks := by
  apply List.ext_getElem
  · simp [nchunks, h.slots]
  · intro i hi hi'
    simp only [List.length_map] at hi'
    simp [fetch, h.slots, Slot.fetch, hi']

theorem parsed_of_fetch (h : s.ReadFrom b header chunks) {i : Nat} {c : Chunk}
    (hfetch : s.fetch source i = .ok c) : Chunk.ofBytes c.data = .ok c := by
  obtain ⟨slot, hslot, hanswer⟩ := exists_slot_of_fetch hfetch
  have hmem := Array.mem_of_getElem? hslot
  rw [h.slots] at hmem
  obtain ⟨c', hc', rfl⟩ := List.mem_map.1 (List.mem_toArray.1 hmem)
  cases hanswer
  exact h.parsed c hc'

theorem full (h : s.ReadFrom b header chunks) : s.Full := by
  intro slot hslot
  rw [h.slots] at hslot
  obtain ⟨c, hc, rfl⟩ := List.mem_map.1 (List.mem_toArray.1 hslot)
  exact ⟨c, rfl, Chunk.typesize_lt_of_ofBytes (h.parsed c hc)⟩

theorem hasWords (h : s.ReadFrom b header chunks) : s.HasWords := by
  obtain ⟨hblock, hchunk⟩ := words_of_peek h.peek
  constructor
  · rwa [h.codec]
  · rwa [h.chunkSize]

/-- The total of a store is the one that the header declares, a word. -/
theorem nbytes_lt (h : s.ReadFrom b header chunks) (htallied : s.Tallied) : s.nbytes < 2 ^ 64 := by
  have hrows : chunks.map Chunk.nbytes = header.index.map IndexEntry.nbytes := by
    rw [← h.rows, List.map_map]
    rfl
  rw [htallied.nbytes_eq (h.fetches fun i => .error (.internal (.noSource i))), hrows]
  exact (Guarded.bounded_of_peek h.peek).total

end ReadFrom

/-! ## What is written -/

/-- A settled store with all chunks in memory is what its frame gives back. -/
theorem Settled.restored_eq (h : s.Settled) (htallied : s.Tallied) (hfull : s.Full)
    (hfetch : s.Fetches source chunks) : s.restored chunks = s := by
  have htable := table_restored htallied hfull hfetch
  calc s.restored chunks
      = { codec := s.codec, chunkSize := s.chunkSize, allowResize := s.allowResize
          table := (s.restored chunks).table
          metadata := { entries := s.metadata.compact.2.entries } } := rfl
    _ = s := by rw [htable, ← h]

/-- Whatever frame a store was read from, the frame that is written for it is read back as the same
store, and is written for it again by an action that changes nothing. -/
theorem ofFrame_rewritten {fs : Files} {f head : Bytes} {s' : Store} (h : ofFrame b = .ok s)
    (hframe : s.run (toFrame (s.chunkSource fs)) = (.ok f, s')) (hsize : f.size < 2 ^ 63)
    (hhead : (s.run (frameHead (s.chunkSource fs))).1 = .ok head)
    (hshort : head.size < prefixSize + 2 ^ 32) :
    (∃ header chunks, s.ReadFrom b header chunks) ∧ ofFrame f = .ok s ∧
      ∀ source, s.run (toFrame source) = (.ok f, s) := by
  obtain ⟨hsettled, header, chunks, hread⟩ := readFrom_of_ofFrame h
  have hkept := wellKept_ofFrame h
  have hsource := faithful_chunkSource s fs
  obtain ⟨chunks', hfetch, hrestored⟩ := hkept.ofFrame_of_run_toFrame hsource hread.hasWords
    (hread.nbytes_lt hkept.tallied)
    (fun i c hi => Chunk.countable_of_ofBytes (hread.parsed_of_fetch hi)) hframe hsize hhead hshort
  have hsame := hsettled.restored_eq hkept.tallied hread.full hfetch
  have hagain := hkept.run_toFrame_restored hsource hframe hfetch
  rw [hsame] at hrestored hagain
  exact ⟨⟨header, chunks, hread⟩, hrestored, hagain⟩

/-- A frame that is not the one that is written for its store. -/
def looseFrame : Bytes := #[
  -- The prefix, with a flag that has no meaning.
  0x54, 0x42, 0x4b, 0x46, 1, 0, 4, 0, 115, 0, 0, 0,
  -- Parameters without a member, and the sizes.
  3, 0, 0, 0, 0x7b, 0x20, 0x7d,
  2, 0, 0, 0, 0, 0, 0, 0, 2, 0, 0, 0, 0, 0, 0, 0, 7,
  -- Two values of one key, the second with a byte that it does not use.
  2, 0, 0, 0,
  0, 0, 24, 0, 0, 0, 1, 1, 0, 0, 0, 0, 0, 0, 1, 0, 0, 0, 0, 0, 0, 0, 0, 0, 0, 0, 0, 0, 0, 0,
  0, 0, 25, 0, 0, 0, 1, 1, 0, 0, 0, 0, 0, 0, 1, 0, 0, 0, 0, 0, 0, 0, 0, 0, 0, 0, 0, 0, 0, 0, 8,
  -- The row of one chunk, and two bytes that belong to no field.
  1, 0, 0, 0, 0, 0, 0, 0, 27, 0, 0, 0, 0, 0, 0, 0, 2, 0, 0, 0, 0, 0, 0, 0, 5, 5,
  -- The chunk, with a byte that it does not use, and a byte behind it.
  1, 1, 0, 0, 1, 0, 0, 0, 2, 0, 0, 0, 2, 0, 0, 0, 0, 0, 0, 0, 0, 0, 0, 0, 3, 4, 8, 9]

theorem ofFrame_rewritten_looseFrame :
    ∃ s f, ofFrame looseFrame = .ok s ∧ f.size = 195 ∧
      (∃ header chunks, s.ReadFrom looseFrame header chunks) ∧ ofFrame f = .ok s ∧
      ∀ source, s.run (toFrame source) = (.ok f, s) := by
  have hread : (ofFrame looseFrame).toOption.map (fun s =>
      ((s.run (toFrame (s.chunkSource {}))).1.toOption.map Array.size,
        (s.run (frameHead (s.chunkSource {}))).1.toOption.map Array.size)) =
      some (some 195, some 168) := by
    decide +kernel
  obtain ⟨s, hs, hsizes⟩ := exists_of_toOption hread
  rw [Prod.mk.injEq] at hsizes
  obtain ⟨hframe, hhead⟩ := hsizes
  obtain ⟨f, hf, hsize⟩ := exists_of_toOption hframe
  obtain ⟨head, hh, hshort⟩ := exists_of_toOption hhead
  obtain ⟨hfrom, hagain, hsame⟩ := ofFrame_rewritten hs (Prod.ext hf rfl) (by omega) hh
    (by rw [hshort]; decide)
  exact ⟨s, f, hs, hsize, hfrom, hagain, hsame⟩

end ChunkedArray.Store
