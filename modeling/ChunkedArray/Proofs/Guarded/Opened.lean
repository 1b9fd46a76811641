import Mathlib.Algebra.BigOperators.Ring.List
import ChunkedArray.Proofs.Guarded.Store

/-!
# Opened frames under guards

Nothing in a byte string brings its readers out of bounds. The string is opened as a frame or refused,
and a store that it opens as is read, chunk by chunk, by byte range and by metadata key, without an
access outside of a chunk or of the table of offsets, whatever the heads and the block tables say.
-/

namespace ChunkedArray.Guarded

open StoreAction

/-- The value of a metadata key. -/
def getValue (m : Metadata) (key : String) : Guarded MetaValue :=
  match m.entry? key with
  | none => throw (.metadataKey key)
  | some chunk => do
    let text ← decompress chunk
    ofResult (MetaValue.decode text)

theorem getValue_eq {m : Metadata} (h : ∀ e ∈ m.entries, ∀ c ∈ e.2, c.WellFormed) (key : String) :
    getValue m key = ofResult (m.get key) := by
  rw [getValue, Metadata.get]
  cases hentry : m.entry? key with
  | none => rfl
  | some chunk =>
    have hmem := SortedMap.mem_of_find?_eq_some (Option.join_eq_some_iff.1 hentry)
    exact bind_eq_ofResult (decompress_eq (h _ hmem chunk rfl)) fun _ _ => rfl

section Frame

variable {b : Bytes} {s : Store}

/-- The chunks of a frame were checked. -/
theorem wellFormed_of_restoreChunks {pos i : Nat} {index : List IndexEntry} {chunks : List Chunk}
    (hpos : 0 < pos) (hword : pos + (index.map IndexEntry.cbytes).sum < 2 ^ 64)
    (h : Store.restoreChunks b pos i index = .ok chunks) : ∀ c ∈ chunks, c.WellFormed := by
  induction index generalizing pos i chunks with
  | nil =>
    cases h
    simp
  | cons entry rest ih =>
    rw [List.map_cons, List.sum_cons] at hword
    obtain ⟨c, hc, h⟩ := bind_eq_ok.1 h
    obtain ⟨others, hothers, h⟩ := bind_eq_ok.1 h
    cases h
    refine List.forall_mem_cons.2
      ⟨Chunk.wellFormed_ofBytes ?_ (Store.ofBytes_of_restore hc).1, ih (by omega) (by omega) hothers⟩
    rw [Bytes.size_slice]
    omega

/-- The chunks of a frame have the serialized sizes that the index says. -/
theorem map_cbytes_of_restoreChunks {pos i : Nat} {index : List IndexEntry} {chunks : List Chunk}
    (hstop : pos + (index.map IndexEntry.cbytes).sum ≤ b.size)
    (h : Store.restoreChunks b pos i index = .ok chunks) :
    chunks.map Chunk.cbytes = index.map IndexEntry.cbytes := by
  induction index generalizing pos i chunks with
  | nil =>
    cases h
    rfl
  | cons entry rest ih =>
    rw [List.map_cons, List.sum_cons] at hstop
    obtain ⟨c, hc, h⟩ := bind_eq_ok.1 h
    obtain ⟨others, hothers, h⟩ := bind_eq_ok.1 h
    cases h
    obtain ⟨-, hdata, -⟩ := Chunk.ofBytes_eq_ok (Store.ofBytes_of_restore hc).1
    rw [List.map_cons, List.map_cons, ih (by omega) hothers, Chunk.cbytes, hdata, Bytes.size_slice]
    congr 1
    omega

/-- A chunk has a row of the block table for every four gigabytes of its raw bytes. -/
theorem nbytes_le_cbytes {c : Chunk} (h : c.WellFormed) :
    blockEntrySize * c.nbytes ≤ (2 ^ 32 - 1) * c.cbytes := by
  rw [blockEntrySize, Chunk.cbytes]
  by_cases hstored : c.header.isStored = true
  · have hinside := h.stored hstored
    omega
  · have htable := h.table hstored
    have hsize := h.blockSize_lt
    have hcovered : c.nbytes ≤ c.header.nblocks * c.header.blockSize := by
      rcases Nat.eq_zero_or_pos c.nbytes with hzero | hpos
      · omega
      · obtain ⟨hblock, hcount⟩ := Chunk.isRegular_iff.1 (h.regular hstored hpos)
        rw [← hcount]
        exact Chunk.le_ceil_mul (Nat.pos_of_ne_zero hblock)
    have hblocks := Nat.mul_le_mul_left c.header.nblocks (show c.header.blockSize ≤ 2 ^ 32 - 1 by omega)
    rw [blockEntrySize] at htable
    omega

/-- A store from a frame answers with checked chunks only. -/
theorem checked_ofFrame (h : Store.ofFrame b = .ok s) (source : ChunkSource) : Checked source s := by
  have htallied := (Store.wellKept_ofFrame h).tallied
  obtain ⟨header, chunks, metadata, hheader, hword, -, hchunks, -, h⟩ := Store.ofFrame_eq_ok h
  have hbounded := bounded_of_peek hheader
  have hfront := hbounded.headerSize
  rw [FrameHeader.prefixSize] at hfront
  obtain ⟨-, -, rfl⟩ := Store.ofChunks_eq_ok h
  refine ⟨htallied, ?_, fun i c hc => ?_⟩
  · rw [Store.nbytes, ChunkTable.nbytes_ofSlots, List.toList_toArray, map_extent_loaded,
      map_nbytes_of_restoreChunks hchunks]
    exact hbounded.total
  · obtain ⟨slot, hslot, hanswer⟩ := Store.exists_slot_of_fetch hc
    obtain ⟨c', hc', rfl⟩ := List.mem_map.1 (List.mem_toArray.1 (Array.mem_of_getElem? hslot))
    cases hanswer
    exact wellFormed_of_restoreChunks (by omega) hword hchunks c hc'

/-- The metadata values of a store from a frame were checked. -/
theorem wellFormed_metadata_of_ofFrame (h : Store.ofFrame b = .ok s) :
    ∀ e ∈ s.metadata.entries, ∀ c ∈ e.2, c.WellFormed := by
  obtain ⟨header, chunks, metadata, hheader, -, -, -, hmetadata, h⟩ := Store.ofFrame_eq_ok h
  have hbounded := bounded_of_peek hheader
  obtain ⟨-, -, rfl⟩ := Store.ofChunks_eq_ok h
  refine Metadata.forall_of_insertAll (by simp) (fun e he c hc => ?_) hmetadata
  have hsize := hbounded.metadata e he
  exact Chunk.wellFormed_ofBytes (by omega) hc

/-- Below 48 gigabytes, which is a block table of `2 ^ 32` rows, a frame does not come up to the greatest
word, so the end of a range inside is a word. -/
theorem nbytes_lt_of_ofFrame (h : Store.ofFrame b = .ok s) (hsize : b.size < blockEntrySize * 2 ^ 32) :
    s.nbytes < 2 ^ 64 - 1 := by
  obtain ⟨header, chunks, metadata, hheader, hword, hstop, hchunks, -, h⟩ := Store.ofFrame_eq_ok h
  have hfront := (bounded_of_peek hheader).headerSize
  rw [FrameHeader.prefixSize] at hfront
  obtain ⟨-, -, rfl⟩ := Store.ofChunks_eq_ok h
  have hwell := wellFormed_of_restoreChunks (by omega) hword hchunks
  have hsum : blockEntrySize * (chunks.map Chunk.nbytes).sum ≤
      (2 ^ 32 - 1) * (chunks.map Chunk.cbytes).sum := by
    rw [← List.sum_map_mul_left, ← List.sum_map_mul_left]
    exact List.sum_le_sum fun c hc => nbytes_le_cbytes (hwell c hc)
  rw [map_cbytes_of_restoreChunks hstop hchunks] at hsum
  rw [Store.nbytes, ChunkTable.nbytes_ofSlots, List.toList_toArray, map_extent_loaded]
  rw [blockEntrySize] at hsum hsize
  omega

end Frame

/-- Every byte string is opened or refused as a frame inside its bounds. If it is opened, then for every
slot, range, buffer size and metadata key, reading gives a value or an error, and without guards the same
one. The end of a range that no word can hold counts as the greatest word, which lies behind every store
from a frame below 48 gigabytes. -/
theorem ofFrame_within_bounds (b : Bytes) :
    ofFrame b = ofResult (Store.ofFrame b) ∧
      ∀ s, Store.ofFrame b = .ok s → ∀ source : ChunkSource,
        (∀ i, run (getChunk source i) s = some (s.run (Store.getChunk source i))) ∧
        (∀ i length, run (getInto source i length) s = some (s.run (Store.getInto source i length))) ∧
        (∀ i start length, run (getRange source i start length) s =
          some (s.run (Store.getRange source i start length))) ∧
        (∀ start length, run (readBytes source start length) s =
          some (s.run (Store.readBytes source start length))) ∧
        (∀ key, getValue s.metadata key = ofResult (s.metadata.get key)) ∧
        (b.size < blockEntrySize * 2 ^ 32 → s.nbytes < 2 ^ 64 - 1) := by
  refine ⟨ofFrame_eq b, fun s hs source => ?_⟩
  have hchecked := checked_ofFrame hs source
  have hlevel : Store.Level source s s := .refl s
  have hread (i : Nat) {read : Chunk → Guarded Bytes} {read' : Chunk → Result Bytes}
      (h : ∀ c : Chunk, c.WellFormed → read c = ofResult (read' c)) :
      run (readWith source i read) s = some (s.run (Store.readWith source i read')) := by
    have hagrees : Agrees (Store.Level source s) (readWith source i read)
        (Store.readWith source i read') fun _ => True :=
      agrees_readWith (agrees_chunk source s i) (fun c hc => h c (hchecked.chunks i c hc))
        fun _ _ _ _ => trivial
    exact hagrees.run_eq hlevel
  refine ⟨fun i => ?_, fun i length => ?_, fun i start length => ?_, fun start length => ?_,
    getValue_eq (wellFormed_metadata_of_ofFrame hs), nbytes_lt_of_ofFrame hs⟩
  · exact hread i fun c hc => decompress_eq hc
  · exact hread i fun c hc => decompressInto_eq hc length
  · exact hread i fun c hc => decompressRange_eq hc start length
  · exact (agrees_readBytes hchecked start length).run_eq hlevel

/-- A frame of one chunk of one byte, whose block table says that the block starts at 65535. -/
def strayFrame : Bytes :=
  #[84, 66, 75, 70, 1, 0, 0, 0, 125, 0, 0, 0, 76, 0, 0, 0, 123, 34, 99, 111, 100, 101, 99, 34, 58,
    34, 110, 111, 111, 112, 34, 44, 34, 108, 101, 118, 101, 108, 34, 58, 48, 44, 34, 102, 105, 108,
    116, 101, 114, 115, 34, 58, 91, 34, 115, 104, 117, 102, 102, 108, 101, 34, 93, 44, 34, 98, 108,
    111, 99, 107, 95, 115, 105, 122, 101, 34, 58, 48, 44, 34, 116, 121, 112, 101, 115, 105, 122,
    101, 34, 58, 49, 125, 1, 0, 0, 0, 0, 0, 0, 0, 1, 0, 0, 0, 0, 0, 0, 0, 0, 0, 0, 0, 0, 1, 0, 0, 0,
    0, 0, 0, 0, 37, 0, 0, 0, 0, 0, 0, 0, 1, 0, 0, 0, 0, 0, 0, 0, 0, 1, 0, 0, 1, 0, 0, 0, 1, 0, 0, 0,
    1, 0, 0, 0, 0, 0, 0, 0, 0, 0, 0, 0, 255, 255, 0, 0, 0, 0, 0, 0, 0, 0, 0, 0, 7]

/-- Whether the first chunk of a store is refused because of the offset of its first block. -/
def refusesOffset (s : Store) : Bool :=
  match (s.run (Store.getChunk (s.chunkSource {}) 0)).1 with
  | .error (.codec 0 (.blockOffsets 0)) => true
  | _ => false

theorem getChunk_of_refusesOffset {s : Store} (h : refusesOffset s = true) :
    (s.run (Store.getChunk (s.chunkSource {}) 0)).1 = .error (.codec 0 (.blockOffsets 0)) := by
  rw [refusesOffset] at h
  split at h
  · assumption
  · cases h

/-- The frame with the stray offset is opened, and its chunk is refused. -/
theorem ofFrame_within_bounds_stray :
    ∃ s, ofFrame strayFrame = pure s ∧
      (run (getChunk (s.chunkSource {}) 0) s).map Prod.fst =
        some (.error (.codec 0 (.blockOffsets 0))) := by
  have hrefused : (Store.ofFrame strayFrame).toOption.any refusesOffset = true := by decide +kernel
  obtain ⟨hframe, hreads⟩ := ofFrame_within_bounds strayFrame
  cases hs : Store.ofFrame strayFrame with
  | error e =>
    rw [hs] at hrefused
    cases hrefused
  | ok s =>
    rw [hs] at hrefused
    refine ⟨s, by rw [hframe, hs, ofResult_ok], ?_⟩
    rw [(hreads s hs _).1 0, Option.map_some, getChunk_of_refusesOffset hrefused]

end ChunkedArray.Guarded
