import ChunkedArray.Proofs.Chunk.Read

/-!
# Compressed chunks read back

`compress` fails on nothing but a block size that has no room in the head, which depends on the
configuration and on the number of bytes alone. What it gives decompresses to the bytes that went
in, and every range of it shows its part of them.
-/

namespace ChunkedArray

namespace Bytes

theorem foldl_append_eq_concat (front : Bytes) (parts : List Bytes) :
    parts.foldl (· ++ ·) front = front ++ concat parts := by
  induction parts generalizing front with
  | nil => simp [concat]
  | cons part parts ih =>
    rw [concat, List.foldl_cons, List.foldl_cons, ih, ih (#[] ++ part), Array.empty_append,
      Array.append_assoc]

theorem concat_cons (b : Bytes) (parts : List Bytes) : concat (b :: parts) = b ++ concat parts := by
  rw [concat, List.foldl_cons, Array.empty_append, foldl_append_eq_concat]

theorem concat_singleton (b : Bytes) : concat [b] = b := by
  rw [concat, List.foldl_cons, List.foldl_nil, Array.empty_append]

theorem concat_append (front back : List Bytes) :
    concat (front ++ back) = concat front ++ concat back := by
  induction front with
  | nil => simp [concat]
  | cons part front ih => rw [List.cons_append, concat_cons, concat_cons, ih, Array.append_assoc]

theorem size_concat (parts : List Bytes) : (concat parts).size = (parts.map Array.size).sum := by
  induction parts with
  | nil => rfl
  | cons part parts ih => rw [concat_cons, Array.size_append, ih, List.map_cons, List.sum_cons]

end Bytes

namespace Chunk

/-! ## The block table -/

/-- The size of coded blocks together. -/
def payloadSize (blocks : List (Bytes × UInt32)) : Nat :=
  (blocks.map fun b => b.1.size).sum

theorem payloadSize_cons (b : Bytes × UInt32) (blocks : List (Bytes × UInt32)) :
    payloadSize (b :: blocks) = b.1.size + payloadSize blocks := by
  rw [payloadSize, List.map_cons, List.sum_cons, payloadSize]

theorem payloadSize_append (front back : List (Bytes × UInt32)) :
    payloadSize (front ++ back) = payloadSize front + payloadSize back := by
  rw [payloadSize, List.map_append, List.sum_append, payloadSize, payloadSize]

theorem size_concat_payload (blocks : List (Bytes × UInt32)) :
    (Bytes.concat (blocks.map Prod.fst)).size = payloadSize blocks := by
  rw [Bytes.size_concat, List.map_map, payloadSize]
  rfl

theorem size_concat_tableRows (offset : Nat) (blocks : List (Bytes × UInt32)) :
    (Bytes.concat (tableRows offset blocks)).size = blocks.length * blockEntrySize := by
  induction blocks generalizing offset with
  | nil => rfl
  | cons b blocks ih =>
    rw [tableRows, Bytes.concat_cons, Array.size_append, ih, Array.size_append,
      LittleEndian.size_bytes, LittleEndian.size_bytes, List.length_cons, Nat.succ_mul, Nat.add_comm]
    rfl

/-- The rows behind the first blocks start where those end. -/
theorem tableRows_append (offset : Nat) (front back : List (Bytes × UInt32)) :
    tableRows offset (front ++ back) =
      tableRows offset front ++ tableRows (offset + payloadSize front) back := by
  induction front generalizing offset with
  | nil => rfl
  | cons b front ih =>
    rw [List.cons_append, tableRows, tableRows, ih, payloadSize_cons, Nat.add_assoc,
      List.cons_append]

/-- Where the payload of `blocks` starts. -/
def payloadStart (blocks : List (Bytes × UInt32)) : Nat :=
  chunkHeaderSize + blocks.length * blockEntrySize

theorem size_coded (h : ChunkHeader) (blocks : List (Bytes × UInt32)) :
    (coded h blocks).data.size = payloadStart blocks + payloadSize blocks := by
  simp only [coded, Array.size_append, ChunkHeader.size_toBytes, size_concat_tableRows,
    size_concat_payload, payloadStart]

/-- The row of a block names its start and its checksum. -/
theorem blockEntry_coded (h : ChunkHeader) (front back : List (Bytes × UInt32))
    (b : Bytes × UInt32) (hword : (coded h (front ++ b :: back)).data.size < 2 ^ 64) :
    (coded h (front ++ b :: back)).blockEntry front.length =
      (payloadStart (front ++ b :: back) + payloadSize front, b.2) := by
  rw [size_coded, payloadSize_append, payloadSize_cons] at hword
  generalize hstart : payloadStart (front ++ b :: back) = start at hword ⊢
  have hdata : (coded h (front ++ b :: back)).data =
      (h.toBytes ++ Bytes.concat (tableRows start front)) ++
        (LittleEndian.bytes 8 (start + payloadSize front) ++
          (LittleEndian.bytes 4 b.2.toNat ++
            (Bytes.concat (tableRows (start + payloadSize front + b.1.size) back) ++
              Bytes.concat ((front ++ b :: back).map Prod.fst)))) := by
    rw [← hstart]
    simp only [coded, payloadStart, tableRows_append, tableRows, Bytes.concat_append,
      Bytes.concat_cons, Array.append_assoc]
  have hpos : (h.toBytes ++ Bytes.concat (tableRows start front)).size =
      chunkHeaderSize + front.length * blockEntrySize := by
    rw [Array.size_append, ChunkHeader.size_toBytes, size_concat_tableRows]
  generalize h.toBytes ++ Bytes.concat (tableRows start front) = before at hdata hpos
  generalize Bytes.concat (tableRows (start + payloadSize front + b.1.size) back) ++
    Bytes.concat ((front ++ b :: back).map Prod.fst) = behind at hdata
  have hdata' : (coded h (front ++ b :: back)).data =
      (before ++ LittleEndian.bytes 8 (start + payloadSize front)) ++
        (LittleEndian.bytes 4 b.2.toNat ++ behind) := by
    rw [hdata, Array.append_assoc]
  -- Both numbers of the row are read off behind the rows in front of it.
  have hoffset := LittleEndian.readAt_append_bytes before
    (LittleEndian.bytes 4 b.2.toNat ++ behind) 8 (start + payloadSize front)
  have hcrc := LittleEndian.readAt_append_bytes
    (before ++ LittleEndian.bytes 8 (start + payloadSize front)) behind 4 b.2.toNat
  have hcrcLt := b.2.toNat_lt
  rw [← hdata, hpos, Nat.mod_eq_of_lt (by omega)] at hoffset
  rw [← hdata', Array.size_append, hpos, LittleEndian.size_bytes,
    Nat.mod_eq_of_lt (by omega)] at hcrc
  simp only [blockEntry, hoffset, hcrc, UInt32.ofNat_toNat]

/-- A block ends where the next one starts or with the chunk. -/
theorem blockStop_coded (h : ChunkHeader) (front back : List (Bytes × UInt32))
    (b : Bytes × UInt32) (hword : (coded h (front ++ b :: back)).data.size < 2 ^ 64)
    (hcount : h.nblocks = (front ++ b :: back).length) :
    (coded h (front ++ b :: back)).blockStop front.length =
      payloadStart (front ++ b :: back) + payloadSize front + b.1.size := by
  have hheader : (coded h (front ++ b :: back)).header = h := rfl
  rw [blockStop, hheader, hcount]
  cases back with
  | nil =>
    rw [if_neg (by simp), size_coded, payloadSize_append, payloadSize_cons]
    simp [payloadSize, Nat.add_assoc]
  | cons next back =>
    have hsplit : front ++ b :: next :: back = (front ++ [b]) ++ next :: back := by simp
    have hnext : front.length + 1 = (front ++ [b]).length := by simp
    rw [if_pos (by simp), hnext, hsplit, blockEntry_coded h _ _ _ (by rwa [← hsplit]),
      payloadSize_append, payloadSize_cons]
    simp [payloadSize, Nat.add_assoc]

/-- The bytes between the start and the stop of a block are those of the block. -/
theorem extract_coded (h : ChunkHeader) (front back : List (Bytes × UInt32)) (b : Bytes × UInt32) :
    (coded h (front ++ b :: back)).data.extract
        (payloadStart (front ++ b :: back) + payloadSize front)
        (payloadStart (front ++ b :: back) + payloadSize front + b.1.size) = b.1 := by
  generalize hstart : payloadStart (front ++ b :: back) = start
  have hdata : (coded h (front ++ b :: back)).data =
      (h.toBytes ++ Bytes.concat (tableRows start (front ++ b :: back)) ++
        Bytes.concat (front.map Prod.fst)) ++ (b.1 ++ Bytes.concat (back.map Prod.fst)) := by
    rw [← hstart]
    simp only [coded, payloadStart, List.map_append, List.map_cons, Bytes.concat_append,
      Bytes.concat_cons, Array.append_assoc]
  have hpos : (h.toBytes ++ Bytes.concat (tableRows start (front ++ b :: back)) ++
      Bytes.concat (front.map Prod.fst)).size = start + payloadSize front := by
    rw [Array.size_append, Array.size_append, ChunkHeader.size_toBytes, size_concat_tableRows,
      size_concat_payload, ← hstart, payloadStart]
  rw [hdata, ← hpos]
  exact Bytes.extract_middle _ _ _

/-- A block of a chunk is decoded from its own bytes and checked against its own checksum. -/
theorem decodeBlock_coded_iff (h : ChunkHeader) (front back : List (Bytes × UInt32))
    (b : Bytes × UInt32) (hword : (coded h (front ++ b :: back)).data.size < 2 ^ 64)
    (hcount : h.nblocks = (front ++ b :: back).length) (content : Bytes) :
    (coded h (front ++ b :: back)).decodeBlock front.length = .ok content ↔
      Block.decode h.codec h.typesize h.filters (h.blockLength front.length) b.1 = .ok content ∧
        Crc32.checksum content = b.2 := by
  have hsize := size_coded h (front ++ b :: back)
  rw [payloadSize_append, payloadSize_cons] at hsize
  have hheader : (coded h (front ++ b :: back)).header = h := rfl
  simp only [decodeBlock, blockEntry_coded h front back b hword,
    blockStop_coded h front back b hword hcount, extract_coded, hheader]
  rw [if_neg (by omega)]
  cases Block.decode h.codec h.typesize h.filters (h.blockLength front.length) b.1 with
  | error fault => simp
  | ok inner =>
    dsimp only
    split
    · rename_i hcrc
      simp only [Except.ok.injEq]
      exact ⟨fun hsame => ⟨hsame, hsame ▸ hcrc⟩, And.left⟩
    · rename_i hcrc
      simp only [reduceCtorEq, Except.ok.injEq, false_iff, not_and]
      exact fun hsame hcrc' => hcrc (hsame ▸ hcrc')

/-- Every block of a chunk is found by its number. -/
theorem decodeBlock_coded_iff_of_lt {h : ChunkHeader} {blocks : List (Bytes × UInt32)}
    {content : Bytes} {k : Nat} (hk : k < blocks.length)
    (hword : (coded h blocks).data.size < 2 ^ 64) (hcount : h.nblocks = blocks.length) :
    (coded h blocks).decodeBlock k = .ok content ↔
      Block.decode h.codec h.typesize h.filters (h.blockLength k) blocks[k].1 = .ok content ∧
        Crc32.checksum content = blocks[k].2 := by
  have hsplit : blocks = blocks.take k ++ blocks[k] :: blocks.drop (k + 1) := by
    rw [← List.drop_eq_getElem_cons hk, List.take_append_drop]
  have hfront : (blocks.take k).length = k := by
    rw [List.length_take, Nat.min_eq_left hk.le]
  have hdecoded := decodeBlock_coded_iff h (blocks.take k) (blocks.drop (k + 1)) blocks[k]
    (by rwa [← hsplit]) (by rwa [← hsplit]) content
  rwa [← hsplit, hfront] at hdecoded

/-! ## Chunks that hold a byte string -/

/-- The chunk can be read in full, whole and by range, and what it shows is `content`. -/
structure Holds (c : Chunk) (content : Bytes) : Prop where
  nbytes : c.nbytes = content.size
  raw : c.raw = content
  size_lt : content.size < 2 ^ 63
  checksum : c.header.checksum = Crc32.checksum content
  whole : c.content = .ok content
  decodes : ¬ c.header.isStored = true → ∀ k, k * c.header.blockSize < content.size → c.Decodes k

/-- A chunk decompresses to what it holds. -/
theorem Holds.decompress {c : Chunk} {content : Bytes} (h : c.Holds content) :
    c.decompress = .ok content := by
  rw [Chunk.decompress, h.whole]
  exact if_pos h.checksum.symm

/-- Every range of a chunk shows its part of what the chunk holds. -/
theorem Holds.decompressRange {c : Chunk} {content : Bytes} (h : c.Holds content) {start length : Nat}
    (hsize : start + length ≤ content.size) :
    c.decompressRange start length = .ok (content.slice start length) := by
  have hlt := h.size_lt
  by_cases hlength : length = 0
  · have hin : ¬ (2 ^ 64 ≤ start + length ∨ c.nbytes < start + length) := by
      rw [h.nbytes]
      omega
    have hempty : content.slice start length = #[] := by
      rw [Bytes.slice, Array.extract_eq_empty_of_le (by omega)]
    simp only [Chunk.decompressRange, if_neg hin, if_pos hlength, hempty]
  · refine (decompressRange_eq_ok_iff (Nat.pos_of_ne_zero hlength)).2
      ⟨by omega, by rw [h.nbytes]; exact hsize, fun hcoded k _ hlast => ?_, ?_⟩
    · refine h.decodes hcoded k ?_
      have hmul := Nat.mul_le_mul_right c.header.blockSize hlast
      have hdiv := Nat.div_mul_le_self (start + length - 1) c.header.blockSize
      omega
    · rw [h.raw, Bytes.slice]

/-- Blocks that decode to consecutive slices are joined to the string that they cut. -/
theorem decodeBlocks_eq_ok {c : Chunk} {content : Bytes} {blockSize : Nat} (block count : Nat)
    (h : ∀ k, block ≤ k → k < block + count →
      c.decodeBlock k = .ok (content.slice (k * blockSize) blockSize)) :
    c.decodeBlocks (content.extract 0 (block * blockSize)) block count =
      .ok (content.extract 0 ((block + count) * blockSize)) := by
  induction count generalizing block with
  | zero => rfl
  | succ count ih =>
    have hnext := ih (block + 1) fun k hle hlt => h k (by omega) (by omega)
    have hcount : block + 1 + count = block + (count + 1) := by omega
    rw [decodeBlocks, h block le_rfl (by omega)]
    simp only [bind, Except.bind]
    rw [Bytes.slice, Array.extract_append_extract, Nat.zero_min,
      Nat.max_eq_right (Nat.le_add_right _ _), ← Nat.succ_mul, Nat.succ_eq_add_one, hnext, hcount]

theorem getElem_cutBlocks (raw : Bytes) (blockSize pos count : Nat) {k : Nat}
    (hk : k < (cutBlocks raw blockSize pos count).length) :
    (cutBlocks raw blockSize pos count)[k] = raw.slice (pos + k * blockSize) blockSize := by
  induction count generalizing pos k with
  | zero => exact absurd hk (Nat.not_lt_zero k)
  | succ count ih =>
    cases k with
    | zero => simp [cutBlocks]
    | succ k =>
      have hpos : pos + blockSize + k * blockSize = pos + (k + 1) * blockSize := by
        rw [Nat.succ_mul]
        omega
      simp only [cutBlocks, List.getElem_cons_succ, ih, hpos]

theorem length_cutBlocks (raw : Bytes) (blockSize pos count : Nat) :
    (cutBlocks raw blockSize pos count).length = count := by
  induction count generalizing pos with
  | zero => rfl
  | succ count ih => rw [cutBlocks, List.length_cons, ih]

/-- The blocks joined are the byte string between their ends. -/
theorem concat_cutBlocks (raw : Bytes) (blockSize pos count : Nat) :
    Bytes.concat (cutBlocks raw blockSize pos count) =
      raw.extract pos (pos + count * blockSize) := by
  induction count generalizing pos with
  | zero => simp [cutBlocks, Bytes.concat]
  | succ count ih =>
    rw [cutBlocks, Bytes.concat_cons, ih, Bytes.slice, Array.extract_append_extract,
      Nat.min_eq_left (Nat.le_add_right _ _), Nat.max_eq_right (Nat.le_add_right _ _), Nat.succ_mul,
      Nat.add_assoc, Nat.add_comm blockSize]

/-- Every block but the last has the block size. -/
theorem size_of_mem_dropLast_cutBlocks {raw block : Bytes} {blockSize : Nat}
    (h : block ∈ (cutBlocks raw blockSize 0 ((raw.size + blockSize - 1) / blockSize)).dropLast) :
    block.size = blockSize := by
  obtain ⟨i, hi, rfl⟩ := List.getElem_of_mem h
  rw [List.length_dropLast, length_cutBlocks] at hi
  have hcount := Nat.div_mul_le_self (raw.size + blockSize - 1) blockSize
  have hnext : (i + 2) * blockSize ≤ (raw.size + blockSize - 1) / blockSize * blockSize :=
    Nat.mul_le_mul_right _ (by omega)
  rw [List.getElem_dropLast, getElem_cutBlocks, Bytes.size_slice]
  rw [Nat.add_mul] at hnext
  omega

/-- A chunk of blocks that were coded from consecutive slices holds the string that they cut. -/
theorem holds_coded {h : ChunkHeader} {content : Bytes} {blocks : List (Bytes × UInt32)}
    (hcoded : ¬ h.isStored = true) (hblockSize : 0 < h.blockSize)
    (hcount : h.nblocks = (content.size + h.blockSize - 1) / h.blockSize)
    (hlength : h.nblocks = blocks.length) (hnbytes : h.nbytes = content.size)
    (hcrc : h.checksum = Crc32.checksum content) (hsize : content.size < 2 ^ 63)
    (hword : (coded h blocks).data.size < 2 ^ 64)
    (hdecode : ∀ k (hk : k < blocks.length),
      Block.decode h.codec h.typesize h.filters (h.blockLength k) blocks[k].1 =
          .ok (content.slice (k * h.blockSize) h.blockSize) ∧
        Crc32.checksum (content.slice (k * h.blockSize) h.blockSize) = blocks[k].2) :
    (coded h blocks).Holds content := by
  have hblock (k : Nat) (hk : k < blocks.length) :
      (coded h blocks).decodeBlock k = .ok (content.slice (k * h.blockSize) h.blockSize) :=
    (decodeBlock_coded_iff_of_lt hk hword hlength).2 (hdecode k hk)
  have hcover : content.size ≤ h.nblocks * h.blockSize := by
    rw [hcount]
    have hlt := Nat.lt_div_mul_add (a := content.size + h.blockSize - 1) hblockSize
    omega
  have hinside (k : Nat) (hk : k * h.blockSize < content.size) : k < blocks.length := by
    rw [← hlength]
    exact Nat.lt_of_mul_lt_mul_right (lt_of_lt_of_le hk hcover)
  have hheader : (coded h blocks).header = h := rfl
  constructor
  · exact hnbytes
  · have hraw : (coded h blocks).raw.size = content.size := by
      rw [size_raw_of_not_isStored hcoded, codedSize, hheader, if_neg hblockSize.ne']
      exact hnbytes
    refine Bytes.ext_getD hraw fun i hi => ?_
    -- Both strings have the same slice where the block of the position lies.
    have hquot := Nat.div_add_mod' i h.blockSize
    have hslice := decodeBlock_eq_slice_raw hcoded
      (hblock (i / h.blockSize) (hinside _ (by omega)))
    have hbyte := congrArg (fun b : Bytes => b.getD (i % h.blockSize) 0) hslice
    simp only [hheader, Bytes.getD_slice, if_pos (Nat.mod_lt i hblockSize), hquot] at hbyte
    exact hbyte.symm
  · exact hsize
  · exact hcrc
  · have hjoin := decodeBlocks_eq_ok 0 h.nblocks fun k _ hk => hblock k (by omega)
    rw [Nat.zero_mul, Nat.zero_add, Array.extract_zero] at hjoin
    rw [Chunk.content, hheader, if_neg hcoded, hjoin, Array.extract_eq_self_of_le hcover]
  · exact fun _ k hk => ⟨_, hblock k (hinside k hk)⟩

/-- A head without flags gets that of stored bytes. -/
theorem isStored_stored {h : ChunkHeader} (hflags : h.flags = 0) (content : Bytes) :
    (stored h content).header.isStored = true := by
  simp [stored, ChunkHeader.isStored, hflags]

/-- A chunk of stored bytes holds them. -/
theorem holds_stored {h : ChunkHeader} {content : Bytes} (hnbytes : h.nbytes = content.size)
    (hflags : h.flags = 0) (hcrc : h.checksum = Crc32.checksum content)
    (hsize : content.size < 2 ^ 63) : (stored h content).Holds content := by
  have hstored := isStored_stored hflags content
  have hslice : (stored h content).data.slice chunkHeaderSize (stored h content).nbytes = content := by
    have hmiddle := Bytes.extract_middle
      { h with flags := h.flags ||| 1 }.toBytes content #[]
    rw [Array.append_empty, ChunkHeader.size_toBytes, ← hnbytes] at hmiddle
    exact hmiddle
  constructor
  · exact hnbytes
  · rw [raw_of_isStored hstored, hslice]
  · exact hsize
  · exact hcrc
  · rw [Chunk.content, if_pos hstored, hslice]
  · exact fun hcoded => absurd hstored hcoded

/-! ## Compression -/

/-- The block size that `compress` uses. -/
def chosenBlockSize (size : Nat) (config : CodecConfig) : Nat :=
  effectiveBlockSize size config.blockSize (max config.typesize 1)

theorem chosenBlockSize_pos (size : Nat) (config : CodecConfig) :
    0 < chosenBlockSize size config := by
  rw [chosenBlockSize, effectiveBlockSize]
  split <;> omega

/-- The head that `compress` writes. -/
def chosenHeader (raw : Bytes) (config : CodecConfig) : ChunkHeader where
  flags := 0
  typesize := max config.typesize 1
  filters := Filter.mask config.filters
  codec := config.codec
  nblocks := (raw.size + chosenBlockSize raw.size config - 1) / chosenBlockSize raw.size config
  blockSize := chosenBlockSize raw.size config
  nbytes := raw.size
  checksum := Crc32.checksum raw

theorem not_isStored_chosenHeader (raw : Bytes) (config : CodecConfig) :
    ¬ (chosenHeader raw config).isStored = true := by
  simp [ChunkHeader.isStored, chosenHeader]

theorem compress_eq_error {raw : Bytes} {config : CodecConfig}
    (h : 2 ^ 32 ≤ chosenBlockSize raw.size config) :
    compress raw config = .error (.parameter (.blockSize (chosenBlockSize raw.size config))) :=
  if_pos h

/-- The blocks that a coder makes of a byte string, with the checksums of their content. -/
def codedBlocks (code : Bytes → Bytes) (raw : Bytes) (config : CodecConfig) :
    List (Bytes × UInt32) :=
  (cutBlocks raw (chosenBlockSize raw.size config) 0 (chosenHeader raw config).nblocks).map
    fun block => (Block.encodeWith code config.typesize (Filter.mask config.filters) block,
      Crc32.checksum block)

/-- Compresses a byte string with a coder of the caller's choice. -/
def compressWith (code : Bytes → Bytes) (raw : Bytes) (config : CodecConfig) : Result Chunk :=
  if 2 ^ 32 ≤ chosenBlockSize raw.size config then
    .error (.parameter (.blockSize (chosenBlockSize raw.size config)))
  else if 0 < config.level ∧ 0 < (chosenHeader raw config).nblocks then
    if payloadSize (codedBlocks code raw config) +
        (chosenHeader raw config).nblocks * blockEntrySize < raw.size then
      .ok (coded (chosenHeader raw config) (codedBlocks code raw config))
    else .ok (stored (chosenHeader raw config) raw)
  else .ok (stored (chosenHeader raw config) raw)

/-- `compress` uses the coder that comes with the codec. -/
theorem compressWith_compress (raw : Bytes) (config : CodecConfig) :
    compressWith (fun b => config.codec.compress b) raw config = compress raw config :=
  rfl

/-- Without an error the blocks are kept if that saves space, and the raw bytes otherwise. -/
theorem compressWith_eq_ok (code : Bytes → Bytes) {raw : Bytes} {config : CodecConfig}
    (h : chosenBlockSize raw.size config < 2 ^ 32) :
    compressWith code raw config = .ok (stored (chosenHeader raw config) raw) ∨
      compressWith code raw config =
          .ok (coded (chosenHeader raw config) (codedBlocks code raw config)) ∧
        payloadSize (codedBlocks code raw config) +
          (chosenHeader raw config).nblocks * blockEntrySize < raw.size := by
  rw [compressWith, if_neg (Nat.not_le.2 h)]
  split
  · split
    · rename_i hsaves
      exact .inr ⟨rfl, hsaves⟩
    · exact .inl rfl
  · exact .inl rfl

/-- A chunk that was made stores the raw bytes, or its blocks save space. -/
theorem cases_compressWith {code : Bytes → Bytes} {raw : Bytes} {config : CodecConfig} {c : Chunk}
    (h : compressWith code raw config = .ok c) :
    chosenBlockSize raw.size config < 2 ^ 32 ∧
      (c = stored (chosenHeader raw config) raw ∨
        c = coded (chosenHeader raw config) (codedBlocks code raw config) ∧
          payloadSize (codedBlocks code raw config) +
            (chosenHeader raw config).nblocks * blockEntrySize < raw.size) := by
  have hblock : chosenBlockSize raw.size config < 2 ^ 32 := by
    by_contra hword
    rw [compressWith, if_pos (Nat.not_lt.1 hword)] at h
    cases h
  refine ⟨hblock, ?_⟩
  obtain hstored | ⟨hcoded, hsaves⟩ := compressWith_eq_ok code hblock
  · rw [hstored] at h
    cases h
    exact .inl rfl
  · rw [hcoded] at h
    cases h
    exact .inr ⟨rfl, hsaves⟩

theorem chosenBlockSize_lt_of_compress {raw : Bytes} {config : CodecConfig} {c : Chunk}
    (h : compress raw config = .ok c) : chosenBlockSize raw.size config < 2 ^ 32 :=
  (cases_compressWith (compressWith_compress raw config ▸ h)).1

/-- A chunk knows how many bytes were compressed. -/
theorem nbytes_of_compress {raw : Bytes} {config : CodecConfig} {c : Chunk}
    (h : compress raw config = .ok c) : c.nbytes = raw.size := by
  rw [← compressWith_compress] at h
  obtain ⟨-, rfl | ⟨rfl, -⟩⟩ := cases_compressWith h
  · rfl
  · rfl

/-- A chunk takes no more room than its head and the bytes that were compressed. -/
theorem cbytes_le_of_compress {raw : Bytes} {config : CodecConfig} {c : Chunk}
    (h : compress raw config = .ok c) : c.cbytes ≤ chunkHeaderSize + raw.size := by
  rw [← compressWith_compress] at h
  obtain ⟨-, rfl | ⟨rfl, hsaves⟩⟩ := cases_compressWith h
  · simp [cbytes, stored]
  · rw [cbytes, size_coded, payloadStart, codedBlocks, List.length_map, length_cutBlocks]
    rw [codedBlocks] at hsaves
    omega

/-- Whether a byte string is compressed depends on its size alone. -/
theorem exists_compress_eq_ok {raw : Bytes} {config : CodecConfig}
    (h : chosenBlockSize raw.size config < 2 ^ 32) : ∃ c, compress raw config = .ok c := by
  obtain hstored | ⟨hcoded, -⟩ := compressWith_eq_ok (fun b => config.codec.compress b) h
  · exact ⟨_, hstored⟩
  · exact ⟨_, hcoded⟩

theorem length_codedBlocks (code : Bytes → Bytes) (raw : Bytes) (config : CodecConfig) :
    (codedBlocks code raw config).length = (chosenHeader raw config).nblocks := by
  rw [codedBlocks, List.length_map, length_cutBlocks]

/-- A block is coded from its slice, next to the checksum of the slice. -/
theorem getElem_codedBlocks {code : Bytes → Bytes} {raw : Bytes} {config : CodecConfig} {k : Nat}
    (hk : k < (codedBlocks code raw config).length) :
    (codedBlocks code raw config)[k] =
      (Block.encodeWith code config.typesize (Filter.mask config.filters)
          (raw.slice (k * chosenBlockSize raw.size config) (chosenBlockSize raw.size config)),
        Crc32.checksum
          (raw.slice (k * chosenBlockSize raw.size config) (chosenBlockSize raw.size config))) := by
  simp only [codedBlocks, List.getElem_map, getElem_cutBlocks, Nat.zero_add]

theorem blockLength_chosenHeader (raw : Bytes) (config : CodecConfig) (k : Nat) :
    (chosenHeader raw config).blockLength k =
      (raw.slice (k * chosenBlockSize raw.size config)
        (chosenBlockSize raw.size config)).size := by
  rw [Bytes.size_slice, ChunkHeader.blockLength]
  simp only [chosenHeader]
  omega

/-- Every coded block decodes to its slice. -/
theorem decode_codedBlocks {code : Bytes → Bytes} {raw : Bytes} {config : CodecConfig}
    (hcode : config.codec.Restores code) (htypesize : 0 < config.typesize) {k : Nat}
    (hk : k < (codedBlocks code raw config).length) :
    Block.decode config.codec (max config.typesize 1) (Filter.mask config.filters)
          ((chosenHeader raw config).blockLength k) (codedBlocks code raw config)[k].1 =
        .ok (raw.slice (k * chosenBlockSize raw.size config) (chosenBlockSize raw.size config)) ∧
      Crc32.checksum
          (raw.slice (k * chosenBlockSize raw.size config) (chosenBlockSize raw.size config)) =
        (codedBlocks code raw config)[k].2 := by
  rw [getElem_codedBlocks hk, blockLength_chosenHeader, Nat.max_eq_left htypesize]
  exact ⟨Block.decode_encodeWith hcode _ _ _, rfl⟩

theorem size_coded_lt {code : Bytes → Bytes} {raw : Bytes} {config : CodecConfig}
    (hsize : raw.size < 2 ^ 63)
    (hsaves : payloadSize (codedBlocks code raw config) +
      (chosenHeader raw config).nblocks * blockEntrySize < raw.size) :
    (coded (chosenHeader raw config) (codedBlocks code raw config)).data.size < 2 ^ 64 := by
  have hheader : chunkHeaderSize = 24 := rfl
  rw [← length_codedBlocks code] at hsaves
  rw [size_coded, payloadStart]
  omega

/-- Whatever coder made it, a compressed chunk holds what was compressed. -/
theorem exists_compressWith_holds {code : Bytes → Bytes} {raw : Bytes} {config : CodecConfig}
    (hcode : config.codec.Restores code) (htypesize : 0 < config.typesize)
    (hsize : raw.size < 2 ^ 63) (hblock : chosenBlockSize raw.size config < 2 ^ 32) :
    ∃ c, compressWith code raw config = .ok c ∧ c.Holds raw := by
  obtain hstored | ⟨hcoded, hsaves⟩ := compressWith_eq_ok code hblock
  · exact ⟨_, hstored, holds_stored rfl rfl rfl hsize⟩
  · have hlength := length_codedBlocks code raw config
    exact ⟨_, hcoded, holds_coded (not_isStored_chosenHeader raw config) (chosenBlockSize_pos _ _)
      rfl hlength.symm rfl rfl hsize (size_coded_lt hsize hsaves) fun k hk => decode_codedBlocks hcode htypesize hk⟩

/-- A compressed chunk holds what was compressed. -/
theorem holds_compress {raw : Bytes} {config : CodecConfig} {c : Chunk}
    (htypesize : 0 < config.typesize) (hsize : raw.size < 2 ^ 63)
    (h : compress raw config = .ok c) : c.Holds raw := by
  obtain ⟨c', hc', hholds⟩ := exists_compressWith_holds config.codec.decompress_compress htypesize
    hsize (chosenBlockSize_lt_of_compress h)
  rw [compressWith_compress, h] at hc'
  cases hc'
  exact hholds

end Chunk

end ChunkedArray
