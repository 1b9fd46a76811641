import ChunkedArray.Proofs.Chunk.Made

/-!
# Serialized chunks read back

The serialized form of a chunk is read back as the chunk, but for the element width in its head, of
which one byte is kept. A count of blocks that does not fit its four bytes would be read back wrong;
a chunk below four gigabytes has no such count, be it its raw bytes or its serialized form that are
so short.
-/

namespace ChunkedArray

namespace ChunkHeader

/-- The head that is read back: the element width keeps its low byte. -/
def narrowed (h : ChunkHeader) : ChunkHeader :=
  { h with typesize := h.typesize % 256 }

theorem narrowed_of_lt {h : ChunkHeader} (htypesize : h.typesize < 256) : h.narrowed = h := by
  rw [narrowed, Nat.mod_eq_of_lt htypesize]

/-- The first four bytes of a head. -/
def leadBytes (h : ChunkHeader) : Bytes :=
  #[h.flags, UInt8.ofNat h.typesize, h.filters, h.codec.toByte]

/-- The fields of a head at their places in front of anything else. -/
structure FieldsAt (h : ChunkHeader) (b : Bytes) : Prop where
  flags : b.getD 0 0 = h.flags
  typesize : b.getD 1 0 = UInt8.ofNat h.typesize
  filters : b.getD 2 0 = h.filters
  codec : b.getD 3 0 = h.codec.toByte
  nblocks : LittleEndian.readAt b 4 4 = h.nblocks % 2 ^ 32
  blockSize : LittleEndian.readAt b 8 4 = h.blockSize % 2 ^ 32
  nbytes : LittleEndian.readAt b 12 8 = h.nbytes % 2 ^ 64
  checksum : LittleEndian.readAt b 20 4 = h.checksum.toNat

/-- A number between two strings is read at the end of the first one. -/
theorem readAt_of_split {b : Bytes} (front back : Bytes) {width n pos : Nat}
    (hb : b = front ++ (LittleEndian.bytes width n ++ back)) (hpos : front.size = pos) :
    LittleEndian.readAt b pos width = n % 256 ^ width := by
  rw [hb, ← hpos, LittleEndian.readAt_append_bytes]

theorem size_leadBytes (h : ChunkHeader) : h.leadBytes.size = 4 := rfl

theorem fieldsAt (h : ChunkHeader) (rest : Bytes) : FieldsAt h (h.toBytes ++ rest) := by
  have hlead := h.size_leadBytes
  -- The numbers from the last one to the first, each in front of what follows it.
  let behindNbytes := LittleEndian.bytes 4 h.checksum.toNat ++ rest
  let behindBlockSize := LittleEndian.bytes 8 h.nbytes ++ behindNbytes
  let behindNblocks := LittleEndian.bytes 4 h.blockSize ++ behindBlockSize
  have hsplit : h.toBytes ++ rest =
      h.leadBytes ++ (LittleEndian.bytes 4 h.nblocks ++ behindNblocks) := by
    simp only [toBytes, leadBytes, behindNblocks, behindBlockSize, behindNbytes, Array.append_assoc]
  have hbyte (i : Nat) (hi : i < 4) : (h.toBytes ++ rest).getD i 0 = h.leadBytes.getD i 0 := by
    rw [hsplit, Bytes.getD_append, hlead, if_pos hi]
  have hchecksum : LittleEndian.readAt (h.toBytes ++ rest) 20 4 = h.checksum.toNat % 256 ^ 4 :=
    readAt_of_split (h.leadBytes ++ LittleEndian.bytes 4 h.nblocks ++
      LittleEndian.bytes 4 h.blockSize ++ LittleEndian.bytes 8 h.nbytes) rest
      (by simp only [hsplit, behindNblocks, behindBlockSize, behindNbytes, Array.append_assoc])
      (by simp [hlead])
  have hlt : h.checksum.toNat < 256 ^ 4 := h.checksum.toNat_lt
  rw [Nat.mod_eq_of_lt hlt] at hchecksum
  refine ⟨hbyte 0 (by decide), hbyte 1 (by decide), hbyte 2 (by decide), hbyte 3 (by decide),
    ?_, ?_, ?_, hchecksum⟩
  · exact readAt_of_split h.leadBytes behindNblocks hsplit hlead
  · exact readAt_of_split (h.leadBytes ++ LittleEndian.bytes 4 h.nblocks) behindBlockSize
      (by simp only [hsplit, behindNblocks, Array.append_assoc])
      (by simp [hlead])
  · exact readAt_of_split (h.leadBytes ++ LittleEndian.bytes 4 h.nblocks ++
      LittleEndian.bytes 4 h.blockSize) behindNbytes
      (by simp only [hsplit, behindNblocks, behindBlockSize, Array.append_assoc])
      (by simp [hlead])

/-- A head with a regular layout whose sizes fit their fields is read back. -/
theorem ofBytes_toBytes {h : ChunkHeader} {rest : Bytes} (hnblocks : h.nblocks < 2 ^ 32)
    (hblockSize : h.blockSize < 2 ^ 32) (hnbytes : h.nbytes < 2 ^ 64)
    (hregular : isRegular h.nblocks h.blockSize h.nbytes = true)
    (htable : h.isStored = false → h.nblocks * blockEntrySize ≤ rest.size) :
    ofBytes (h.toBytes ++ rest) = .ok h.narrowed := by
  obtain ⟨hflags, htypesize, hfilters, hcodec, hcount, hblock, hsize, hchecksum⟩ :=
    fieldsAt h rest
  rw [Nat.mod_eq_of_lt hnblocks] at hcount
  rw [Nat.mod_eq_of_lt hblockSize] at hblock
  rw [Nat.mod_eq_of_lt hnbytes] at hsize
  have hlength : (h.toBytes ++ rest).size = chunkHeaderSize + rest.size := by simp
  have hroom : ¬ ((h.flags &&& 1 == 0 && decide (0 < h.nbytes)) &&
      decide ((h.toBytes ++ rest).size < chunkHeaderSize + h.nblocks * blockEntrySize)) = true := by
    simp only [Bool.and_eq_true, beq_iff_eq, decide_eq_true_eq, hlength]
    rintro ⟨⟨hcoded, -⟩, hshort⟩
    have hfit := htable (by simp [isStored, hcoded])
    omega
  rw [ofBytes, if_neg (by omega), hflags, htypesize, hfilters, hcodec, hcount, hblock, hsize,
    hchecksum, CodecId.ofByte_toByte]
  simp only
  rw [if_neg (by simp [hregular]), if_neg hroom]
  simp [narrowed, bind, Except.bind, pure, Except.pure]

end ChunkHeader

namespace Chunk

/-- The chunk that is read back from the serialized form of a chunk. -/
def narrowed (c : Chunk) : Chunk :=
  { c with header := c.header.narrowed }

@[simp] theorem data_narrowed (c : Chunk) : c.narrowed.data = c.data := rfl

@[simp] theorem nbytes_narrowed (c : Chunk) : c.narrowed.nbytes = c.nbytes := rfl

@[simp] theorem cbytes_narrowed (c : Chunk) : c.narrowed.cbytes = c.cbytes := rfl

theorem narrowed_of_lt {c : Chunk} (h : c.header.typesize < 256) : c.narrowed = c := by
  rw [narrowed, ChunkHeader.narrowed_of_lt h]

/-- A head that is read back in front of enough bytes makes a chunk. -/
theorem ofBytes_eq_ok_of_header {data : Bytes} {header : ChunkHeader}
    (hheader : ChunkHeader.ofBytes data = .ok header)
    (hstored : header.isStored = true → chunkHeaderSize + header.nbytes ≤ data.size)
    (hcoded : ¬ header.isStored = true →
      chunkHeaderSize + header.nblocks * blockEntrySize ≤ data.size) :
    ofBytes data = .ok ⟨data, header⟩ := by
  rw [ofBytes, hheader]
  simp only [bind, Except.bind]
  by_cases hflag : header.isStored = true
  · have hroom := hstored hflag
    simp only [if_pos hflag]
    rw [if_neg (by split <;> omega)]
    rfl
  · have hroom := hcoded hflag
    simp only [if_neg hflag]
    rw [if_neg (by omega)]
    rfl

/-- The head that `compress` writes is regular. -/
theorem isRegular_chosenHeader (raw : Bytes) (config : CodecConfig) :
    ChunkHeader.isRegular (chosenHeader raw config).nblocks (chosenHeader raw config).blockSize
      (chosenHeader raw config).nbytes = true :=
  isRegular_iff.2 ⟨(chosenBlockSize_pos raw.size config).ne', rfl⟩

/-- A chunk of whatever coder is read back from its serialized form. -/
theorem ofBytes_data_of_compressWith {code : Bytes → Bytes} {raw : Bytes} {config : CodecConfig}
    {c : Chunk} (hsize : raw.size < 2 ^ 63) (h : compressWith code raw config = .ok c)
    (hnblocks : c.header.nblocks < 2 ^ 32) : ofBytes c.data = .ok c.narrowed := by
  have hregular := isRegular_chosenHeader raw config
  obtain ⟨hblock, rfl | ⟨rfl, -⟩⟩ := cases_compressWith h
  · have hflag : (stored (chosenHeader raw config) raw).header.isStored = true :=
      isStored_stored rfl raw
    refine ofBytes_eq_ok_of_header (ChunkHeader.ofBytes_toBytes hnblocks hblock
      (lt_trans hsize (by decide)) hregular fun hcoded => ?_) (fun _ => ?_) fun hcoded => ?_
    · exact absurd hflag (Bool.not_eq_true _ ▸ hcoded)
    · simp [ChunkHeader.narrowed, chosenHeader, stored]
    · exact absurd hflag hcoded
  · have hlength := length_codedBlocks code raw config
    have hflag := not_isStored_chosenHeader raw config
    have hdata : (coded (chosenHeader raw config) (codedBlocks code raw config)).data = _ :=
      Array.append_assoc
    refine ofBytes_eq_ok_of_header ?_ (fun hstored => absurd hstored hflag) fun _ => ?_
    · rw [hdata]
      refine ChunkHeader.ofBytes_toBytes hnblocks hblock (lt_trans hsize (by decide)) hregular
        fun _ => ?_
      rw [Array.size_append, size_concat_tableRows, hlength]
      omega
    · rw [size_coded, payloadStart, hlength]
      exact Nat.le_add_right _ _

/-- One byte has room for the element width of a chunk that was read. -/
theorem typesize_lt_of_ofBytes {data : Bytes} {c : Chunk} (h : ofBytes data = .ok c) :
    c.header.typesize < 256 := by
  obtain ⟨-, -, -, -, hfields⟩ := ofBytes_header_eq_ok (ofBytes_eq_ok h).1
  rw [hfields]
  exact UInt8.toNat_lt _

/-- A chunk has the element width under which it was compressed. -/
theorem typesize_of_compressWith {code : Bytes → Bytes} {raw : Bytes} {config : CodecConfig}
    {c : Chunk} (h : compressWith code raw config = .ok c) :
    c.header.typesize = max config.typesize 1 := by
  obtain ⟨-, rfl | ⟨rfl, -⟩⟩ := cases_compressWith h
  · rfl
  · rfl

theorem typesize_of_compress {raw : Bytes} {config : CodecConfig} {c : Chunk}
    (h : compress raw config = .ok c) : c.header.typesize = max config.typesize 1 :=
  typesize_of_compressWith (compressWith_compress raw config ▸ h)

theorem ceil_le {n size : Nat} (hsize : 0 < size) : (n + size - 1) / size ≤ n := by
  have hle := Nat.le_mul_of_pos_right n hsize
  refine Nat.le_of_lt_succ ((Nat.div_lt_iff_lt_mul hsize).2 ?_)
  rw [Nat.succ_mul]
  omega

/-- A chunk has at most one block for every byte, and if it is coded, a row for every block. -/
theorem nblocks_le_of_compressWith {code : Bytes → Bytes} {raw : Bytes} {config : CodecConfig}
    {c : Chunk} (h : compressWith code raw config = .ok c) :
    c.header.nblocks ≤ raw.size ∧ c.header.nblocks ≤ c.data.size := by
  have hceil := ceil_le (n := raw.size) (chosenBlockSize_pos raw.size config)
  obtain ⟨-, rfl | ⟨rfl, -⟩⟩ := cases_compressWith h
  · refine ⟨hceil, le_trans hceil ?_⟩
    simp [stored]
  · refine ⟨hceil, ?_⟩
    have hrow := Nat.le_mul_of_pos_right (chosenHeader raw config).nblocks
      (show 0 < blockEntrySize by decide)
    rw [size_coded, payloadStart, length_codedBlocks]
    exact le_trans hrow (le_trans (Nat.le_add_left _ _) (Nat.le_add_right _ _))

/-- The number of blocks of a chunk fits its field, as it does in a chunk below four gigabytes, raw or
serialized. -/
def Countable (c : Chunk) : Prop :=
  c.header.nblocks < 2 ^ 32 ∨ c.nbytes < 2 ^ 32 ∨ c.data.size < 2 ^ 32

/-- A chunk whose number of blocks fits its field is read back from its serialized form. -/
def ReadsBack (c : Chunk) : Prop :=
  c.Countable → ofBytes c.data = .ok c.narrowed

theorem readsBack_of_compress {raw : Bytes} {config : CodecConfig} {c : Chunk}
    (hsize : raw.size < 2 ^ 63) (h : compress raw config = .ok c) : c.ReadsBack := by
  intro hcount
  have hnbytes := nbytes_of_compress h
  rw [← compressWith_compress] at h
  obtain ⟨hle, hdata⟩ := nblocks_le_of_compressWith h
  have hnblocks : c.header.nblocks < 2 ^ 32 := by
    obtain hcount | hcount | hcount := hcount <;> omega
  exact ofBytes_data_of_compressWith hsize h hnblocks

/-- The number of blocks of a chunk that was read stood in its field. -/
theorem countable_of_ofBytes {data : Bytes} {c : Chunk} (h : ofBytes data = .ok c) :
    c.Countable := by
  obtain ⟨-, -, -, -, hfields⟩ := ofBytes_header_eq_ok (ofBytes_eq_ok h).1
  refine .inl ?_
  rw [hfields]
  exact LittleEndian.readAt_lt _ _ _

theorem readsBack_of_ofBytes {data : Bytes} {c : Chunk} (h : ofBytes data = .ok c) :
    c.ReadsBack := by
  intro _
  rw [narrowed_of_lt (typesize_lt_of_ofBytes h), (ofBytes_eq_ok h).2.1, h]

theorem Made.readsBack {c : Chunk} (h : c.Made) : c.ReadsBack := by
  cases h with
  | compressed hsize h => exact readsBack_of_compress hsize h
  | parsed _ h => exact readsBack_of_ofBytes h

end Chunk

end ChunkedArray
