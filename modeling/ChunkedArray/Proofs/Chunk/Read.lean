import ChunkedArray.Chunk.Read
import ChunkedArray.Proofs.Codec.Block

/-!
# Ranges of a chunk

A chunk stands for one byte string, `raw`, whose blocks are read independently of each other. A range
that can be read shows its part of that string, so every range inside it can be read as well and
shows the part of the part.
-/

namespace ChunkedArray.Chunk

/-! ## The bytes of a chunk -/

/-- A block that decodes has the length that the header gives it. -/
theorem size_of_decodeBlock_eq_ok {c : Chunk} {block : Nat} {content : Bytes}
    (h : c.decodeBlock block = .ok content) : content.size = c.header.blockLength block := by
  simp only [decodeBlock] at h
  by_cases hstop : c.blockStop block < (c.blockEntry block).1 ∨ c.data.size < c.blockStop block
  · rw [if_pos hstop] at h
    cases h
  · rw [if_neg hstop] at h
    cases hblock : Block.decode c.header.codec c.header.typesize c.header.filters
        (c.header.blockLength block)
        (c.data.extract (c.blockEntry block).1 (c.blockStop block)) with
    | error fault =>
      rw [hblock] at h
      cases h
    | ok inner =>
      rw [hblock] at h
      by_cases hcrc : Crc32.checksum inner = (c.blockEntry block).2
      · simp only [if_pos hcrc] at h
        cases h
        exact Block.size_of_decode_eq_ok hblock
      · simp only [if_neg hcrc] at h
        cases h

/-- The byte at a position of a coded chunk; zero in a block that does not decode. -/
def codedByte (c : Chunk) (pos : Nat) : UInt8 :=
  match c.decodeBlock (pos / c.header.blockSize) with
  | .ok content => content.getD (pos % c.header.blockSize) 0
  | .error _ => 0

/-- The number of raw bytes in a chunk's blocks; blocks of no size hold none. -/
def codedSize (c : Chunk) : Nat :=
  if c.header.blockSize = 0 then 0 else c.nbytes

/-- The byte string for which a chunk stands. -/
def raw (c : Chunk) : Bytes :=
  if c.header.isStored then c.data.slice chunkHeaderSize c.nbytes
  else Array.ofFn fun pos : Fin c.codedSize => c.codedByte pos

theorem raw_of_isStored {c : Chunk} (h : c.header.isStored = true) :
    c.raw = c.data.slice chunkHeaderSize c.nbytes :=
  if_pos h

theorem raw_of_not_isStored {c : Chunk} (h : ¬ c.header.isStored = true) :
    c.raw = Array.ofFn fun pos : Fin c.codedSize => c.codedByte pos :=
  if_neg h

theorem size_raw_of_not_isStored {c : Chunk} (h : ¬ c.header.isStored = true) :
    c.raw.size = c.codedSize := by
  rw [raw_of_not_isStored h, Array.size_ofFn]

/-- A block that decodes is its part of the chunk. -/
theorem decodeBlock_eq_slice_raw {c : Chunk} (hcoded : ¬ c.header.isStored = true) {block : Nat}
    {content : Bytes} (h : c.decodeBlock block = .ok content) :
    content = c.raw.slice (block * c.header.blockSize) c.header.blockSize := by
  have hlength := size_of_decodeBlock_eq_ok h
  rw [ChunkHeader.blockLength] at hlength
  by_cases hzero : c.header.blockSize = 0
  · have hcontent : content = #[] := Array.eq_empty_of_size_eq_zero (by omega)
    rw [hcontent, hzero, Bytes.slice, Nat.add_zero, Array.extract_eq_empty_of_le (by simp)]
  have hraw : c.raw.size = c.header.nbytes := by
    rw [size_raw_of_not_isStored hcoded, codedSize, if_neg hzero, nbytes]
  refine Bytes.ext_getD ?_ fun i hi => ?_
  · rw [Bytes.size_slice, hraw]
    omega
  · have hlt : i < c.header.blockSize := by omega
    have hquot : (block * c.header.blockSize + i) / c.header.blockSize = block := by
      rw [Nat.mul_comm, Nat.mul_add_div (Nat.zero_lt_of_lt hlt), Nat.div_eq_of_lt hlt, Nat.add_zero]
    have hrem : (block * c.header.blockSize + i) % c.header.blockSize = i := by
      rw [Nat.mul_comm, Nat.mul_add_mod, Nat.mod_eq_of_lt hlt]
    rw [Bytes.getD_slice, if_pos hlt, raw_of_not_isStored hcoded,
      Bytes.getD_ofFn _ (by rw [codedSize, if_neg hzero, nbytes]; omega), codedByte, hquot, hrem, h]

/-! ## Ranges -/

/-- The part of a block that lies in a range is that part of the chunk. -/
theorem clip_slice (raw : Bytes) (start stop blockStart blockSize : Nat) :
    clip start stop blockStart (raw.slice blockStart blockSize) =
      raw.extract (max start blockStart) (min stop (blockStart + blockSize)) := by
  have hstart : blockStart + (max start blockStart - blockStart) = max start blockStart := by omega
  have hlow : blockStart ≤ max start blockStart := Nat.le_max_right _ _
  rw [clip, Bytes.slice, Array.extract_extract, hstart, Array.extract_eq_extract_right,
    Nat.sub_min_sub_right, Nat.sub_min_sub_right, Array.size_extract]
  generalize max start blockStart = low at hlow
  rcases Nat.le_total raw.size blockStart with hout | hin
  · have hnone (j : Nat) : min j raw.size - low = 0 :=
      Nat.sub_eq_zero_of_le ((Nat.min_le_right _ _).trans (hout.trans hlow))
    rw [hnone, hnone]
  · rw [Nat.add_sub_cancel' (Nat.le_min.2 ⟨Nat.le_add_right _ _, hin⟩)]
    rcases Nat.le_total stop blockStart with hbefore | hafter
    · omega
    · rw [Nat.add_sub_cancel' (Nat.le_min.2 ⟨hafter, Nat.le_min.2 ⟨Nat.le_add_right _ _, hin⟩⟩)]
      omega

/-- Parts of consecutive blocks join. -/
theorem extract_append_clip (raw : Bytes) (start stop pos blockSize : Nat) :
    raw.extract start (min stop pos) ++ raw.extract (max start pos) (min stop (pos + blockSize)) =
      raw.extract start (min stop (pos + blockSize)) := by
  by_cases hbefore : pos ≤ start
  · rw [Array.extract_eq_empty_of_le (by omega), Array.empty_append, Nat.max_eq_left hbefore]
  · by_cases hafter : stop ≤ pos
    · rw [Array.extract_eq_empty_of_le (i := max start pos) (by omega), Array.append_empty,
        Nat.min_eq_left hafter, Nat.min_eq_left (by omega)]
    · rw [Nat.min_eq_right (by omega), Nat.max_eq_right (by omega), Array.extract_append_extract,
        Nat.min_eq_left (by omega), Nat.max_eq_right (by omega)]

/-- Whether a block decodes. -/
def Decodes (c : Chunk) (block : Nat) : Prop :=
  ∃ content, c.decodeBlock block = .ok content

/-- Blocks that decode are joined. -/
theorem clipBlocks_eq_ok {c : Chunk} (hcoded : ¬ c.header.isStored = true) (start stop : Nat)
    (block count : Nat) (h : ∀ k, block ≤ k → k < block + count → c.Decodes k) :
    c.clipBlocks start stop (c.raw.extract start (min stop (block * c.header.blockSize))) block
        count =
      .ok (c.raw.extract start (min stop ((block + count) * c.header.blockSize))) := by
  induction count generalizing block with
  | zero => rfl
  | succ count ih =>
    obtain ⟨content, hcontent⟩ := h block le_rfl (by omega)
    have hnext := ih (block + 1) fun k hle hlt => h k (by omega) (by omega)
    have hcount : block + 1 + count = block + (count + 1) := by omega
    rw [clipBlocks, hcontent, decodeBlock_eq_slice_raw hcoded hcontent]
    simp only [bind, Except.bind]
    rw [clip_slice, extract_append_clip, ← Nat.succ_mul, Nat.succ_eq_add_one, hnext, hcount]

/-- Blocks that are joined decode. -/
theorem decodes_of_clipBlocks_eq_ok {c : Chunk} {start stop block count : Nat} {out content : Bytes}
    (h : c.clipBlocks start stop out block count = .ok content) (k : Nat) (hle : block ≤ k)
    (hlt : k < block + count) : c.Decodes k := by
  induction count generalizing block out with
  | zero => omega
  | succ count ih =>
    rw [clipBlocks] at h
    cases hblock : c.decodeBlock block with
    | error e =>
      rw [hblock] at h
      cases h
    | ok inner =>
      rw [hblock] at h
      by_cases hk : k = block
      · subst hk
        exact ⟨inner, hblock⟩
      · exact ih h (by omega) (by omega)

/-- The blocks under a range decode. -/
def RangeDecodes (c : Chunk) (start length : Nat) : Prop :=
  ¬ c.header.isStored = true → ∀ k, start / c.header.blockSize ≤ k →
    k ≤ (start + length - 1) / c.header.blockSize → c.Decodes k

/-- The blocks under a range, cut to it, join to the range if they decode. -/
theorem clipBlocks_of_rangeDecodes {c : Chunk} (hcoded : ¬ c.header.isStored = true)
    {start length : Nat} (hlength : 0 < length) (hdecodes : c.RangeDecodes start length) :
    c.clipBlocks start (start + length) #[] (start / c.header.blockSize)
        ((start + length - 1) / c.header.blockSize + 1 - start / c.header.blockSize) =
      .ok (c.raw.extract start (start + length)) := by
  have hspan : start / c.header.blockSize ≤ (start + length - 1) / c.header.blockSize :=
    Nat.div_le_div_right (by omega)
  have hfirst := Nat.div_mul_le_self start c.header.blockSize
  have hblocks := clipBlocks_eq_ok hcoded start (start + length) (start / c.header.blockSize)
    ((start + length - 1) / c.header.blockSize + 1 - start / c.header.blockSize)
    fun k hle hlt => hdecodes hcoded k hle (by omega)
  rw [Array.extract_eq_empty_of_le (by omega)] at hblocks
  rw [hblocks, Nat.add_sub_cancel' (by omega)]
  congr 1
  by_cases hzero : c.header.blockSize = 0
  · have hraw : c.raw = #[] := Array.eq_empty_of_size_eq_zero (by
      rw [size_raw_of_not_isStored hcoded, codedSize, if_pos hzero])
    simp [hraw]
  · have hlast := Nat.lt_div_mul_add (a := start + length - 1) (Nat.pos_of_ne_zero hzero)
    rw [Nat.min_eq_left (by rw [Nat.succ_mul]; omega)]

/-- The bytes of a stored chunk stand behind its header. -/
theorem extract_raw_of_isStored {c : Chunk} (hstored : c.header.isStored = true) {start stop : Nat}
    (hstop : stop ≤ c.nbytes) :
    c.raw.extract start stop = c.data.extract (chunkHeaderSize + start) (chunkHeaderSize + stop) := by
  rw [raw_of_isStored hstored, Bytes.slice, Array.extract_extract, Nat.min_eq_left (by omega)]

/-- A range is read if it lies inside the chunk and the blocks under it decode. -/
theorem decompressRange_eq_ok_iff {c : Chunk} {start length : Nat} {out : Bytes} (hlength : 0 < length) :
    c.decompressRange start length = .ok out ↔
      start + length < 2 ^ 64 ∧ start + length ≤ c.nbytes ∧ c.RangeDecodes start length ∧
        out = c.raw.extract start (start + length) := by
  by_cases hout : 2 ^ 64 ≤ start + length ∨ c.nbytes < start + length
  · simp only [decompressRange, if_pos hout]
    constructor
    · intro h
      cases h
    · rintro ⟨hword, hsize, -⟩
      omega
  · simp only [decompressRange, if_neg hout, if_neg hlength.ne']
    by_cases hstored : c.header.isStored = true
    · rw [if_pos hstored, extract_raw_of_isStored hstored (by omega)]
      constructor
      · intro h
        cases h
        exact ⟨by omega, by omega, fun hcoded => absurd hstored hcoded, rfl⟩
      · rintro ⟨-, -, -, rfl⟩
        rfl
    · rw [if_neg hstored]
      constructor
      · intro h
        have hdecodes : c.RangeDecodes start length := fun _ k hle hlt =>
          decodes_of_clipBlocks_eq_ok h k hle (by omega)
        rw [clipBlocks_of_rangeDecodes hstored hlength hdecodes] at h
        cases h
        exact ⟨by omega, by omega, hdecodes, rfl⟩
      · rintro ⟨-, -, hdecodes, rfl⟩
        exact clipBlocks_of_rangeDecodes hstored hlength hdecodes

/-- Inside a range that was read every range can be read, and it shows the same bytes. -/
theorem decompressRange_sub {c : Chunk} {start length : Nat} {out : Bytes}
    (h : c.decompressRange start length = .ok out) {start' length' : Nat} (hlength : 0 < length')
    (hle : start ≤ start') (hstop : start' + length' ≤ start + length) :
    c.decompressRange start' length' = .ok (out.slice (start' - start) length') := by
  obtain ⟨hword, hsize, hdecodes, rfl⟩ := (decompressRange_eq_ok_iff (by omega)).1 h
  refine (decompressRange_eq_ok_iff hlength).2 ⟨by omega, by omega, ?_, ?_⟩
  · intro hcoded k hfirst hlast
    refine hdecodes hcoded k (le_trans (Nat.div_le_div_right hle) hfirst) (le_trans hlast ?_)
    exact Nat.div_le_div_right (by omega)
  · rw [Bytes.slice, Array.extract_extract, Nat.min_eq_left (by omega)]
    congr 1 <;> omega

end ChunkedArray.Chunk
