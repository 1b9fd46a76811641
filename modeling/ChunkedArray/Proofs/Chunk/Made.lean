import ChunkedArray.Proofs.Action
import ChunkedArray.Proofs.Chunk.Compress

/-!
# Chunks from anywhere

A chunk is compressed from a byte string or read from a serialized form, and a serialized form is
checked so far that a chunk which decompresses can be read in full: it holds what it decompresses to.
-/

namespace ChunkedArray.Chunk

/-- The chunks that there are: compressed under any parameters, or read from any byte string. A byte
string in memory is shorter than `2 ^ 63`. -/
inductive Made : Chunk → Prop where
  /-- Compressed. -/
  | compressed {raw : Bytes} {config : CodecConfig} {c : Chunk} (hsize : raw.size < 2 ^ 63)
      (h : compress raw config = .ok c) : Made c
  /-- Read from a serialized form. -/
  | parsed {data : Bytes} {c : Chunk} (hsize : data.size < 2 ^ 63) (h : ofBytes data = .ok c) : Made c

/-- The serialized form has room for all raw bytes. -/
structure Covered (c : Chunk) : Prop where
  stored : c.header.isStored = true → chunkHeaderSize + c.nbytes ≤ c.data.size
  coded : ¬ c.header.isStored = true → c.nbytes ≤ c.header.nblocks * c.header.blockSize

/-! ## Heads that were checked -/

/-- Blocks of a size reach to the end of the bytes that they cut. -/
theorem le_ceil_mul {n size : Nat} (hsize : 0 < size) : n ≤ (n + size - 1) / size * size := by
  have hlt := Nat.lt_div_mul_add (a := n + size - 1) hsize
  omega

/-- The block count of a regular head is the number of blocks that its bytes need. -/
theorem isRegular_iff {nblocks blockSize nbytes : Nat} :
    ChunkHeader.isRegular nblocks blockSize nbytes = true ↔
      blockSize ≠ 0 ∧ (nbytes + blockSize - 1) / blockSize = nblocks := by
  simp [ChunkHeader.isRegular]

/-- A head is read from its fields in place, and its block layout is consistent. -/
theorem ofBytes_header_eq_ok {b : Bytes} {h : ChunkHeader} (hok : ChunkHeader.ofBytes b = .ok h) :
    chunkHeaderSize ≤ b.size ∧
      (h.isStored = false ∧ 0 < h.nbytes ∨ 0 < h.nblocks →
        ChunkHeader.isRegular h.nblocks h.blockSize h.nbytes = true) ∧
      (h.isStored = false ∧ 0 < h.nbytes →
        chunkHeaderSize + h.nblocks * blockEntrySize ≤ b.size) ∧
      CodecId.ofByte (b.getD 3 0) = .ok h.codec ∧
      h = { flags := b.getD 0 0, typesize := (b.getD 1 0).toNat, filters := b.getD 2 0
            codec := h.codec, nblocks := LittleEndian.readAt b 4 4
            blockSize := LittleEndian.readAt b 8 4, nbytes := LittleEndian.readAt b 12 8
            checksum := UInt32.ofNat (LittleEndian.readAt b 20 4) } := by
  unfold ChunkHeader.ofBytes at hok
  by_cases hsmall : b.size < chunkHeaderSize
  · simp [hsmall] at hok
  · rw [if_neg hsmall] at hok
    dsimp only at hok
    -- Each guard that was passed says one of the facts.
    split at hok
    · cases hok
    · rename_i hregular
      split at hok
      · cases hok
      · rename_i htable
        obtain ⟨codec, hcodec, hok⟩ := bind_eq_ok.1 hok
        cases hok
        refine ⟨by omega, ?_, ?_, hcodec, rfl⟩
        · simp only [ChunkHeader.isStored] at hregular ⊢
          intro hcase
          by_contra hirregular
          apply hregular
          simp only [Bool.not_eq_true] at hirregular
          rcases hcase with ⟨hflag, hpos⟩ | hpos
          · simp_all
          · simp_all
        · simp only [ChunkHeader.isStored] at htable ⊢
          rintro ⟨hflag, hpos⟩
          by_contra hshort
          apply htable
          simp_all

/-- A serialized form that was read is the data of its chunk, and it reaches to the end of what its
head announces. -/
theorem ofBytes_eq_ok {data : Bytes} {c : Chunk} (h : ofBytes data = .ok c) :
    ChunkHeader.ofBytes data = .ok c.header ∧ c.data = data ∧
      (c.header.isStored = true →
        min (chunkHeaderSize + c.header.nbytes) (2 ^ 64 - 1) ≤ data.size) ∧
      (¬ c.header.isStored = true →
        chunkHeaderSize + c.header.nblocks * blockEntrySize ≤ data.size) := by
  obtain ⟨header, hheader, h⟩ := bind_eq_ok.1 h
  dsimp only at h
  by_cases hstored : header.isStored = true
  · simp only [if_pos hstored] at h
    have hlong : min (chunkHeaderSize + header.nbytes) (2 ^ 64 - 1) ≤ data.size := by
      by_contra hshort
      rw [if_pos (by split <;> omega)] at h
      cases h
    rw [if_neg (by split <;> omega)] at h
    cases h
    exact ⟨hheader, rfl, fun _ => hlong, fun hcoded => absurd hstored hcoded⟩
  · simp only [if_neg hstored] at h
    have hlong : chunkHeaderSize + header.nblocks * blockEntrySize ≤ data.size := by
      by_contra hshort
      rw [if_pos (by omega)] at h
      cases h
    rw [if_neg (by omega)] at h
    cases h
    exact ⟨hheader, rfl, fun hflag => absurd hflag hstored, fun _ => hlong⟩

/-! ## Coverage -/

theorem covered_stored {h : ChunkHeader} {raw : Bytes} (hflags : h.flags = 0)
    (hnbytes : h.nbytes = raw.size) : (stored h raw).Covered := by
  constructor
  · intro _
    simp [stored, Chunk.nbytes, hnbytes]
  · intro hcoded
    exact absurd (isStored_stored hflags raw) hcoded

/-- What `compress` gives has room for the bytes that went in, whatever the coder. -/
theorem covered_compressWith {code : Bytes → Bytes} {raw : Bytes} {config : CodecConfig}
    {c : Chunk} (h : compressWith code raw config = .ok c) : c.Covered := by
  obtain ⟨-, rfl | ⟨rfl, -⟩⟩ := cases_compressWith h
  · exact covered_stored rfl rfl
  · constructor
    · intro hflag
      exact absurd hflag (not_isStored_chosenHeader raw config)
    · intro _
      exact le_ceil_mul (chosenBlockSize_pos raw.size config)

theorem covered_compress {raw : Bytes} {config : CodecConfig} {c : Chunk}
    (h : compress raw config = .ok c) : c.Covered :=
  covered_compressWith (compressWith_compress raw config ▸ h)

/-- What was read from a serialized form has room for the bytes that it announces. -/
theorem covered_ofBytes {data : Bytes} {c : Chunk} (hsize : data.size < 2 ^ 63)
    (h : ofBytes data = .ok c) : c.Covered := by
  obtain ⟨hheader, rfl, hstored, -⟩ := ofBytes_eq_ok h
  obtain ⟨-, hregular, -, -, -⟩ := ofBytes_header_eq_ok hheader
  constructor
  · intro hflag
    have hlong := hstored hflag
    rw [Chunk.nbytes]
    omega
  · intro hcoded
    rw [Chunk.nbytes]
    rcases Nat.eq_zero_or_pos c.header.nbytes with hzero | hpos
    · simp [hzero]
    · obtain ⟨hblock, hcount⟩ :=
        isRegular_iff.1 (hregular (.inl ⟨by simpa using hcoded, hpos⟩))
      rw [← hcount]
      exact le_ceil_mul (Nat.pos_of_ne_zero hblock)

theorem Made.covered {c : Chunk} (h : c.Made) : c.Covered := by
  cases h with
  | compressed _ h => exact covered_compress h
  | parsed hsize h => exact covered_ofBytes hsize h

/-! ## Chunks that decompress -/

/-- Blocks that are joined decode. -/
theorem decodes_of_decodeBlocks_eq_ok {c : Chunk} {block count : Nat} {out content : Bytes}
    (h : c.decodeBlocks out block count = .ok content) (k : Nat) (hle : block ≤ k)
    (hlt : k < block + count) : c.Decodes k := by
  induction count generalizing block out with
  | zero => omega
  | succ count ih =>
    obtain ⟨inner, hinner, hrest⟩ := bind_eq_ok.1 h
    rcases Nat.eq_or_lt_of_le hle with rfl | hbehind
    · exact ⟨inner, hinner⟩
    · exact ih hrest (by omega) (by omega)

/-- The blocks of a coded chunk join to the byte string for which it stands. -/
theorem content_eq_raw {c : Chunk} {content : Bytes} (hcovered : c.Covered)
    (hcoded : ¬ c.header.isStored = true) (h : c.content = .ok content) : content = c.raw := by
  rw [Chunk.content, if_neg hcoded] at h
  have hjoin := @decodeBlocks_eq_ok c c.raw c.header.blockSize 0
    c.header.nblocks fun k hle hlt => by
      obtain ⟨inner, hinner⟩ := decodes_of_decodeBlocks_eq_ok h k hle hlt
      rw [hinner, decodeBlock_eq_slice_raw hcoded hinner]
  have hcover : c.raw.size ≤ c.header.nblocks * c.header.blockSize := by
    have hroom := hcovered.coded hcoded
    rw [size_raw_of_not_isStored hcoded, codedSize]
    split <;> omega
  rw [Nat.zero_mul, Nat.zero_add, Array.extract_zero, Array.extract_eq_self_of_le hcover, h] at hjoin
  simpa using hjoin

/-- A chunk that decompresses holds what it decompresses to. -/
theorem Covered.holds {c : Chunk} {content : Bytes} (hcovered : c.Covered)
    (h : c.decompress = .ok content) (hsize : content.size < 2 ^ 63) : c.Holds content := by
  obtain ⟨out, hout, hcheck⟩ := bind_eq_ok.1 h
  dsimp only at hcheck
  split at hcheck
  · rename_i hchecksum
    cases hcheck
    -- Stored bytes are the content itself; blocks decode to it one by one.
    by_cases hstored : c.header.isStored = true
    · have hslice : content = c.data.slice chunkHeaderSize c.nbytes := by
        rw [Chunk.content, if_pos hstored] at hout
        exact (Except.ok.inj hout).symm
      have hroom := hcovered.stored hstored
      refine ⟨?_, (raw_of_isStored hstored).trans hslice.symm, hsize, hchecksum.symm, hout,
        fun hcoded => absurd hstored hcoded⟩
      rw [hslice, Bytes.size_slice]
      omega
    · have hraw := content_eq_raw hcovered hstored hout
      have hroom := hcovered.coded hstored
      have hlength : content.size = c.codedSize := by
        rw [hraw, size_raw_of_not_isStored hstored]
      rw [codedSize] at hlength
      refine ⟨?_, hraw.symm, hsize, hchecksum.symm, hout, fun _ k hk => ?_⟩
      · split at hlength
        · rename_i hzero
          simp [hzero] at hroom
          omega
        · exact hlength.symm
      · rw [Chunk.content, if_neg hstored] at hout
        refine decodes_of_decodeBlocks_eq_ok hout k (Nat.zero_le k) ?_
        rw [Nat.zero_add]
        refine Nat.lt_of_mul_lt_mul_right (a := c.header.blockSize) (lt_of_lt_of_le hk ?_)
        split at hlength <;> omega
  · cases hcheck

theorem Made.holds {c : Chunk} {content : Bytes} (hmade : c.Made)
    (h : c.decompress = .ok content) (hsize : content.size < 2 ^ 63) : c.Holds content :=
  hmade.covered.holds h hsize

end ChunkedArray.Chunk
