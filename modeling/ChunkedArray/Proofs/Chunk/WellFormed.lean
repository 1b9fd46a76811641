import ChunkedArray.Proofs.Chunk.Serialized

/-!
# Chunks that were checked

What the checks of a serialized form leave behind, and what a compressed chunk has by construction:
the stored bytes or the block table lie inside the form, and the blocks cut the raw bytes from end to
end. Read as one range, such a chunk shows what its blocks join to, whatever its head says about their
checksum.
-/

namespace ChunkedArray.Chunk

/-- A chunk whose head describes what follows it. -/
structure WellFormed (c : Chunk) : Prop where
  data_lt : c.data.size < 2 ^ 64
  nbytes_lt : c.nbytes < 2 ^ 64
  blockSize_lt : c.header.blockSize < 2 ^ 32
  stored : c.header.isStored = true → chunkHeaderSize + c.nbytes ≤ c.data.size
  table : ¬ c.header.isStored = true →
    chunkHeaderSize + c.header.nblocks * blockEntrySize ≤ c.data.size
  regular : ¬ c.header.isStored = true → 0 < c.nbytes →
    ChunkHeader.isRegular c.header.nblocks c.header.blockSize c.nbytes = true
  empty : ¬ c.header.isStored = true → c.nbytes = 0 → c.header.nblocks = 0

/-- The size of a serialized form in memory is far from the greatest word. -/
theorem wellFormed_ofBytes {data : Bytes} {c : Chunk} (hsize : data.size < 2 ^ 64 - 1)
    (h : ofBytes data = .ok c) : c.WellFormed := by
  obtain ⟨hheader, rfl, hstored, htable⟩ := ofBytes_eq_ok h
  obtain ⟨-, hregular, -, -, hfields⟩ := ofBytes_header_eq_ok hheader
  refine ⟨by omega, ?_, ?_, fun hflag => ?_, htable, fun hcoded hpos => ?_, fun hcoded hzero => ?_⟩
  · rw [nbytes, hfields]
    exact LittleEndian.readAt_lt _ _ _
  · rw [hfields]
    exact LittleEndian.readAt_lt _ _ _
  · have hlong := hstored hflag
    rw [nbytes]
    omega
  · exact hregular (.inl ⟨by simpa using hcoded, hpos⟩)
  · -- Blocks without bytes to cut would be no regular layout.
    by_contra hblocks
    obtain ⟨hblock, hcount⟩ := isRegular_iff.1 (hregular (.inr (Nat.pos_of_ne_zero hblocks)))
    rw [nbytes] at hzero
    rw [hzero, Nat.div_eq_of_lt (by omega)] at hcount
    exact hblocks hcount.symm

theorem wellFormed_compress {raw : Bytes} {config : CodecConfig} {c : Chunk}
    (hsize : raw.size < 2 ^ 63) (h : compress raw config = .ok c) : c.WellFormed := by
  have hdata : c.data.size < 2 ^ 64 := by
    have hsmall := cbytes_le_of_compress h
    rw [cbytes, chunkHeaderSize] at hsmall
    omega
  have hnbytes : c.nbytes < 2 ^ 64 := by
    rw [nbytes_of_compress h]
    omega
  have hcovered := covered_compress h
  obtain ⟨hblock, rfl | ⟨rfl, -⟩⟩ := cases_compressWith (compressWith_compress raw config ▸ h)
  · have hflag : (stored (chosenHeader raw config) raw).header.isStored = true :=
      isStored_stored rfl raw
    exact ⟨hdata, hnbytes, hblock, hcovered.stored, fun hcoded => absurd hflag hcoded,
      fun hcoded => absurd hflag hcoded, fun hcoded => absurd hflag hcoded⟩
  · have hpos := chosenBlockSize_pos raw.size config
    refine ⟨hdata, hnbytes, hblock, hcovered.stored, fun _ => ?_,
      fun _ _ => isRegular_iff.2 ⟨hpos.ne', rfl⟩, fun _ hzero => ?_⟩
    · rw [size_coded, payloadStart, length_codedBlocks]
      exact Nat.le_add_right _ _
    · have hempty : raw.size = 0 := hzero
      change (raw.size + chosenBlockSize raw.size config - 1) / chosenBlockSize raw.size config = 0
      exact Nat.div_eq_of_lt (by omega)

theorem Made.wellFormed {c : Chunk} (h : c.Made) : c.WellFormed := by
  cases h with
  | compressed hsize h => exact wellFormed_compress hsize h
  | parsed hsize h => exact wellFormed_ofBytes (by omega) h

/-- A chunk that is read back from its serialized form and, while the form is in memory, describes it. -/
structure Kept (c : Chunk) : Prop where
  readsBack : c.ReadsBack
  wellFormed : c.data.size < 2 ^ 63 → c.WellFormed

theorem kept_of_compress {raw : Bytes} {config : CodecConfig} {c : Chunk}
    (hsize : raw.size < 2 ^ 63) (h : compress raw config = .ok c) : c.Kept :=
  ⟨readsBack_of_compress hsize h, fun _ => wellFormed_compress hsize h⟩

theorem kept_of_ofBytes {data : Bytes} {c : Chunk} (h : ofBytes data = .ok c) : c.Kept := by
  refine ⟨readsBack_of_ofBytes h, fun hsize => wellFormed_ofBytes ?_ h⟩
  rw [← (ofBytes_eq_ok h).2.1]
  omega

theorem Made.kept {c : Chunk} (h : c.Made) : c.Kept :=
  ⟨h.readsBack, fun _ => h.wellFormed⟩

namespace WellFormed

variable {c : Chunk}

/-- The last byte of a coded chunk lies in its last block. -/
theorem nblocks_eq (h : c.WellFormed) (hcoded : ¬ c.header.isStored = true) (hpos : 0 < c.nbytes) :
    0 < c.header.blockSize ∧ c.header.nblocks = (c.nbytes - 1) / c.header.blockSize + 1 := by
  obtain ⟨hblock, hcount⟩ := isRegular_iff.1 (h.regular hcoded hpos)
  have hblock' := Nat.pos_of_ne_zero hblock
  refine ⟨hblock', ?_⟩
  have hsum : c.nbytes + c.header.blockSize - 1 = c.nbytes - 1 + c.header.blockSize := by omega
  rw [← hcount, hsum, Nat.add_div_right _ hblock']

/-- Every block of a coded chunk starts inside its bytes. -/
theorem blockStart_lt (h : c.WellFormed) (hcoded : ¬ c.header.isStored = true) {block : Nat}
    (hblock : block < c.header.nblocks) : block * c.header.blockSize < c.nbytes := by
  have hpos : 0 < c.nbytes := by
    by_contra hzero
    rw [h.empty hcoded (by omega)] at hblock
    exact absurd hblock (Nat.not_lt_zero _)
  obtain ⟨-, hcount⟩ := h.nblocks_eq hcoded hpos
  have hle : block ≤ (c.nbytes - 1) / c.header.blockSize := by omega
  have hmul := Nat.mul_le_mul_right c.header.blockSize hle
  have hdiv := Nat.div_mul_le_self (c.nbytes - 1) c.header.blockSize
  omega

/-- The byte string for which a chunk stands has the size in its head. -/
theorem size_raw (h : c.WellFormed) : c.raw.size = c.nbytes := by
  by_cases hstored : c.header.isStored = true
  · have hinside := h.stored hstored
    rw [raw_of_isStored hstored, Bytes.size_slice]
    omega
  · rw [size_raw_of_not_isStored hstored, codedSize]
    split
    · rename_i hblock
      by_contra hpos
      exact (h.nblocks_eq hstored (by omega)).1.ne' hblock
    · rfl

/-- A range is read in full. -/
theorem size_of_decompressRange (h : c.WellFormed) {start length : Nat} {out : Bytes}
    (hlength : 0 < length) (hread : c.decompressRange start length = .ok out) :
    out.size = length := by
  obtain ⟨-, hinside, -, rfl⟩ := (decompressRange_eq_ok_iff hlength).1 hread
  rw [Array.size_extract, h.size_raw]
  omega

end WellFormed

/-! ## The whole chunk as a range -/

/-- Clipped to the whole chunk, blocks are joined in full. -/
theorem clipBlocks_whole (c : Chunk) (out : Bytes) (block count : Nat) :
    c.clipBlocks 0 c.nbytes out block count = c.decodeBlocks out block count := by
  induction count generalizing out block with
  | zero => rfl
  | succ count ih =>
    rw [clipBlocks, decodeBlocks]
    cases hblock : c.decodeBlock block with
    | error e => rfl
    | ok content =>
      have hsize := size_of_decodeBlock_eq_ok hblock
      rw [ChunkHeader.blockLength, ← nbytes] at hsize
      have hclip : clip 0 c.nbytes (block * c.header.blockSize) content = content := by
        rw [clip, Nat.zero_max, Nat.sub_self]
        exact Array.extract_eq_self_of_le (by omega)
      simp only [bind, Except.bind, hclip]
      exact ih (out ++ content) (block + 1)

/-- Read as one range, a chunk with raw bytes gives what its blocks join to; the checksum in its head
is not looked at. -/
theorem WellFormed.decompressRange_whole {c : Chunk} (h : c.WellFormed) (hpos : 0 < c.nbytes) :
    c.decompressRange 0 c.nbytes = c.content := by
  have hword := h.nbytes_lt
  have hinside : ¬ (2 ^ 64 ≤ 0 + c.nbytes ∨ c.nbytes < 0 + c.nbytes) := by omega
  simp only [decompressRange, if_neg hinside, if_neg hpos.ne', content]
  split
  · rw [Nat.zero_add, Nat.add_zero, Bytes.slice]
  · rename_i hcoded
    obtain ⟨-, hcount⟩ := h.nblocks_eq hcoded hpos
    rw [Nat.zero_add, Nat.zero_div, Nat.sub_zero, clipBlocks_whole, ← hcount]

/-- What the blocks join to has the size in the head. -/
theorem WellFormed.size_of_content {c : Chunk} (h : c.WellFormed) {out : Bytes}
    (hcontent : c.content = .ok out) : out.size = c.nbytes := by
  rcases Nat.eq_zero_or_pos c.nbytes with hzero | hpos
  · -- A chunk without raw bytes has no blocks either.
    rw [content] at hcontent
    split at hcontent
    · cases hcontent
      rw [Bytes.size_slice]
      omega
    · rename_i hcoded
      rw [h.empty hcoded hzero] at hcontent
      cases hcontent
      exact hzero.symm
  · rw [← h.decompressRange_whole hpos] at hcontent
    exact h.size_of_decompressRange hpos hcontent

/-- A chunk is decompressed in full. -/
theorem WellFormed.size_of_decompress {c : Chunk} (h : c.WellFormed) {out : Bytes}
    (hread : c.decompress = .ok out) : out.size = c.nbytes := by
  obtain ⟨content, hcontent, hread⟩ := bind_eq_ok.1 hread
  dsimp only at hread
  split at hread
  · cases hread
    exact h.size_of_content hcontent
  · cases hread

end ChunkedArray.Chunk
