import ChunkedArray.Proofs.Chunk.WellFormed
import ChunkedArray.Proofs.Guarded.Basic

/-!
# Chunks under guards

A chunk is taken from its serialized form, and read, without an access outside of the form, of the
block table in it or of a block. What makes the accesses safe is what `ofBytes` checks
(`Chunk.WellFormed`), not what a head says beyond that: filters, element widths and the offsets of
blocks may be anything.
-/

namespace ChunkedArray.Guarded

/-! ## Filters -/

/-- Rearranges planes into elements. -/
def unshuffle (typesize : Nat) (b : Bytes) : Guarded Bytes :=
  if Shuffle.isTrivial typesize b then pure b
  else do
    let count ← div b.size typesize
    let body ← mul count typesize
    let bytes ← (List.range b.size).mapM fun i =>
      if i < body then do
        let plane ← mul (i % typesize) count
        byteAt b (← add plane (i / typesize))
      else byteAt b i
    pure bytes.toArray

theorem unshuffle_eq {typesize : Nat} {b : Bytes} (hb : b.size < 2 ^ 64) :
    unshuffle typesize b = pure (Shuffle.decode typesize b) := by
  rw [unshuffle, Shuffle.decode]
  split
  · rfl
  rename_i htrivial
  have htypesize : 0 < typesize := by
    simp only [Shuffle.isTrivial, Bool.or_eq_true, decide_eq_true_eq] at htrivial
    omega
  have hbody := Nat.div_mul_le_self b.size typesize
  have hbyte (i : Nat) (hi : i ∈ List.range b.size) :
      (if i < b.size / typesize * typesize then do
          let plane ← mul (i % typesize) (b.size / typesize)
          byteAt b (← add plane (i / typesize))
        else byteAt b i) =
        pure (if i < b.size / typesize * typesize then
          b.getD (Shuffle.planePosition typesize (b.size / typesize) i) 0 else b.getD i 0) := by
    split
    · rename_i hinside
      have hplane := Shuffle.planePosition_lt hinside
      rw [Shuffle.planePosition] at hplane ⊢
      generalize i / typesize = element at hplane ⊢
      rw [mul_of_lt (by omega), pure_bind, add_of_lt (by omega), pure_bind, byteAt_of_lt (by omega)]
    · exact byteAt_of_lt (List.mem_range.1 hi)
  rw [div_of_pos htypesize, pure_bind, mul_of_lt (by omega), pure_bind, mapM_eq_pure hbyte, pure_bind]
  congr 1
  refine Array.ext (by simp) fun i hi hi' => ?_
  have hlt : i < b.size := by simpa using hi'
  simp [hlt]

/-- Restores `n` more bytes behind those restored so far. -/
def restoreBytes (typesize body : Nat) (b out : Bytes) : (n : Nat) → Guarded Bytes
  | 0 => pure out
  | n + 1 => do
    let x ← byteAt b out.size
    if typesize ≤ out.size ∧ out.size < body then
      let before ← byteAt out (← sub out.size typesize)
      restoreBytes typesize body b (out.push (x ^^^ before)) n
    else restoreBytes typesize body b (out.push x) n

theorem restoreBytes_eq {typesize body : Nat} {b out : Bytes} {n : Nat} (htypesize : 0 < typesize)
    (h : out.size + n ≤ b.size) :
    restoreBytes typesize body b out n = pure (XorDelta.restoreBytes typesize body b out n) := by
  induction n generalizing out with
  | zero => rfl
  | succ n ih =>
    rw [restoreBytes, XorDelta.restoreBytes, byteAt_of_lt (by omega), pure_bind]
    split
    · rw [sub_of_le (by omega), pure_bind, byteAt_of_lt (by omega), pure_bind]
      exact ih (by rw [Array.size_push]; omega)
    · exact ih (by rw [Array.size_push]; omega)

/-- Undoes the differences of neighbouring elements. -/
def undelta (typesize : Nat) (b : Bytes) : Guarded Bytes :=
  if typesize = 0 then pure b
  else do
    let body ← mul (← div b.size typesize) typesize
    restoreBytes typesize body b #[] b.size

theorem undelta_eq {typesize : Nat} {b : Bytes} (hb : b.size < 2 ^ 64) :
    undelta typesize b = pure (XorDelta.decode typesize b) := by
  rw [undelta, XorDelta.decode]
  split
  · rfl
  · rename_i htypesize
    have hbody := Nat.div_mul_le_self b.size typesize
    rw [div_of_pos (Nat.pos_of_ne_zero htypesize), pure_bind, mul_of_lt (by omega), pure_bind,
      restoreBytes_eq (Nat.pos_of_ne_zero htypesize) (by simp)]
    rfl

/-- Undoes a filter. -/
def undo (typesize : Nat) (b : Bytes) : Filter → Guarded Bytes
  | .shuffle => unshuffle typesize b
  | .delta => undelta typesize b

theorem undo_eq {typesize : Nat} {b : Bytes} (hb : b.size < 2 ^ 64) (f : Filter) :
    undo typesize b f = pure (f.undo typesize b) := by
  cases f with
  | shuffle => exact unshuffle_eq hb
  | delta => exact undelta_eq hb

theorem foldlM_undo_eq {typesize : Nat} {b : Bytes} (hb : b.size < 2 ^ 64) (filters : List Filter) :
    filters.foldlM (undo typesize) b = pure (filters.foldl (fun b f => f.undo typesize b) b) := by
  refine (foldlM_eq_pure (fun b => b.size < 2 ^ 64) (fun b hb f _ => ?_) hb).1
  exact ⟨undo_eq hb f, by rwa [Filter.size_undo]⟩

/-! ## Blocks -/

/-- Decodes one block and undoes its filters. -/
def decodeContent (h : ChunkHeader) (expected : Nat) (b : Bytes) : Guarded Bytes := do
  let b ← ofResult ((h.codec.decompress b expected).mapError (Error.codec 0))
  (Filter.ofMask h.filters).reverse.foldlM (undo h.typesize) b

theorem decodeContent_eq {h : ChunkHeader} {expected : Nat} (b : Bytes) (hword : expected < 2 ^ 64) :
    decodeContent h expected b =
      ofResult ((Block.decode h.codec h.typesize h.filters expected b).mapError (Error.codec 0)) := by
  rw [decodeContent, Block.decode]
  cases hcodec : h.codec.decompress b expected with
  | error fault => rfl
  | ok inner =>
    have hsize := CodecId.size_of_decompress_eq_ok hcodec
    exact foldlM_undo_eq (by omega) _

/-- The size of a block. -/
def blockLength (h : ChunkHeader) (block : Nat) : Guarded Nat := do
  let start ← mul block h.blockSize
  pure (min h.blockSize (← sub h.nbytes start))

/-- The offset and the checksum in a row of the block table. -/
def blockEntry (c : Chunk) (block : Nat) : Guarded (Nat × UInt32) := do
  let rows ← mul block blockEntrySize
  let pos ← add chunkHeaderSize rows
  let start ← numberAt c.data pos 8
  let checksum ← numberAt c.data (← add pos 8) 4
  pure (start, UInt32.ofNat checksum)

/-- Where a coded block ends. -/
def blockStop (c : Chunk) (block : Nat) : Guarded Nat := do
  if block + 1 < c.header.nblocks then
    let next ← blockEntry c (block + 1)
    pure next.1
  else pure c.data.size

/-- Decodes one block and checks it. -/
def decodeBlock (c : Chunk) (block : Nat) : Guarded Bytes := do
  let entry ← blockEntry c block
  let stop ← blockStop c block
  if stop < entry.1 ∨ c.data.size < stop then throw (.codec 0 (.blockOffsets block))
  else
    let coded ← slice c.data entry.1 stop
    let expected ← blockLength c.header block
    let content ← decodeContent c.header expected coded
    let computed := Crc32.checksum content
    if computed = entry.2 then pure content else throw (.checksum 0 entry.2 computed)

section Blocks

variable {c : Chunk} {block : Nat}

theorem blockEntry_eq (h : c.WellFormed) (hcoded : ¬ c.header.isStored = true)
    (hblock : block < c.header.nblocks) : blockEntry c block = pure (c.blockEntry block) := by
  have htable := h.table hcoded
  have hrow := Nat.mul_le_mul_right blockEntrySize (Nat.succ_le_of_lt hblock)
  have hdata := h.data_lt
  rw [Nat.succ_mul] at hrow
  have hinside : chunkHeaderSize + block * blockEntrySize + 12 ≤ c.data.size := by
    simp only [blockEntrySize] at hrow htable ⊢
    omega
  rw [blockEntry, mul_of_lt (by omega), pure_bind, add_of_lt (by omega), pure_bind,
    numberAt_of_le (by omega) (by omega), pure_bind, add_of_lt (by omega), pure_bind,
    numberAt_of_le (by omega) (by omega), pure_bind, Chunk.blockEntry]

theorem blockStop_eq (h : c.WellFormed) (hcoded : ¬ c.header.isStored = true) :
    blockStop c block = pure (c.blockStop block) := by
  rw [blockStop, Chunk.blockStop]
  split
  · rename_i hnext
    rw [blockEntry_eq h hcoded hnext, pure_bind]
  · rfl

theorem blockLength_eq (h : c.WellFormed) (hcoded : ¬ c.header.isStored = true)
    (hblock : block < c.header.nblocks) :
    blockLength c.header block = pure (c.header.blockLength block) := by
  have hstart := h.blockStart_lt hcoded hblock
  have hword := h.nbytes_lt
  rw [Chunk.nbytes] at hstart hword
  rw [blockLength, mul_of_lt (by omega), pure_bind, sub_of_le hstart.le, pure_bind,
    ChunkHeader.blockLength]

/-- A block is decoded from a slice of the chunk, whatever its offsets are. -/
theorem decodeBlock_eq (h : c.WellFormed) (hcoded : ¬ c.header.isStored = true)
    (hblock : block < c.header.nblocks) : decodeBlock c block = ofResult (c.decodeBlock block) := by
  rw [decodeBlock, blockEntry_eq h hcoded hblock, pure_bind, blockStop_eq h hcoded, pure_bind]
  simp only [Chunk.decodeBlock]
  by_cases hoffsets : c.blockStop block < (c.blockEntry block).1 ∨ c.data.size < c.blockStop block
  · rw [if_pos hoffsets, if_pos hoffsets]
    rfl
  rw [if_neg hoffsets, if_neg hoffsets, slice_of_le (by omega) (by omega), pure_bind,
    blockLength_eq h hcoded hblock, pure_bind]
  have hlength : c.header.blockLength block < 2 ^ 64 := by
    have hsize := h.blockSize_lt
    rw [ChunkHeader.blockLength]
    omega
  rw [decodeContent_eq _ hlength]
  cases Block.decode c.header.codec c.header.typesize c.header.filters (c.header.blockLength block)
    (c.data.extract (c.blockEntry block).1 (c.blockStop block)) with
  | error fault => rfl
  | ok content =>
    change (if Crc32.checksum content = (c.blockEntry block).2 then pure content else _) = _
    dsimp only
    split <;> rfl

end Blocks

/-! ## Whole chunks -/

/-- Decodes `count` blocks from `block` on and joins them behind `out`, each inside the raw bytes. -/
def decodeBlocks (c : Chunk) (out : Bytes) (block : Nat) : (count : Nat) → Guarded Bytes
  | 0 => pure out
  | count + 1 => do
    let start ← mul block c.header.blockSize
    let content ← decodeBlock c block
    require ((← add start content.size) ≤ c.nbytes)
    decodeBlocks c (out ++ content) (block + 1) count

/-- The raw bytes of the chunk, before their checksum is verified. -/
def content (c : Chunk) : Guarded Bytes := do
  if c.header.isStored then slice c.data chunkHeaderSize (← add chunkHeaderSize c.nbytes)
  else decodeBlocks c #[] 0 c.header.nblocks

/-- The raw bytes of the chunk. -/
def decompress (c : Chunk) : Guarded Bytes := do
  let out ← content c
  let computed := Crc32.checksum out
  if computed = c.header.checksum then pure out
  else throw (.checksum 0 c.header.checksum computed)

/-- The raw bytes of the chunk, for a buffer of `length` bytes. -/
def decompressInto (c : Chunk) (length : Nat) : Guarded Bytes :=
  if length ≠ c.nbytes then throw (.shape (.outputLength length c.nbytes))
  else decompress c

section Whole

variable {c : Chunk}

theorem decodeBlocks_eq (h : c.WellFormed) (hcoded : ¬ c.header.isStored = true) (out : Bytes)
    {block count : Nat} (hcount : block + count ≤ c.header.nblocks) :
    decodeBlocks c out block count = ofResult (c.decodeBlocks out block count) := by
  induction count generalizing out block with
  | zero => rfl
  | succ count ih =>
    have hstart := h.blockStart_lt hcoded (show block < c.header.nblocks by omega)
    have hword := h.nbytes_lt
    rw [decodeBlocks, mul_of_lt (by omega), pure_bind]
    refine bind_eq_ofResult (decodeBlock_eq h hcoded (by omega)) fun content hcontent => ?_
    have hsize := Chunk.size_of_decodeBlock_eq_ok hcontent
    rw [ChunkHeader.blockLength, ← Chunk.nbytes] at hsize
    rw [add_of_lt (by omega), pure_bind, require_of (by omega), pure_bind]
    exact ih (out ++ content) (by omega)

theorem content_eq (h : c.WellFormed) : content c = ofResult c.content := by
  rw [content, Chunk.content]
  split
  · rename_i hstored
    have hinside := h.stored hstored
    have hdata := h.data_lt
    rw [add_of_lt (by omega), pure_bind, slice_of_le (by omega) hinside]
    rfl
  · rename_i hcoded
    exact decodeBlocks_eq h hcoded #[] (by omega)

theorem decompress_eq (h : c.WellFormed) : decompress c = ofResult c.decompress := by
  refine bind_eq_ofResult (content_eq h) fun out _ => ?_
  dsimp only
  split <;> rfl

theorem decompressInto_eq (h : c.WellFormed) (length : Nat) :
    decompressInto c length = ofResult (c.decompressInto length) := by
  rw [decompressInto, Chunk.decompressInto]
  split
  · rfl
  · exact decompress_eq h

end Whole

/-! ## Ranges -/

/-- Decodes `count` blocks from `block` on and joins what lies in `start … stop`. -/
def clipBlocks (c : Chunk) (start stop : Nat) (out : Bytes) (block : Nat) :
    (count : Nat) → Guarded Bytes
  | 0 => pure out
  | count + 1 => do
    let content ← decodeBlock c block
    let blockStart ← mul block c.header.blockSize
    let low ← sub (max start blockStart) blockStart
    let blockStop ← add blockStart content.size
    let high ← sub (min stop blockStop) blockStart
    let piece ← slice content low high
    clipBlocks c start stop (out ++ piece) (block + 1) count

/-- The raw bytes `start … start + length`. -/
def decompressRange (c : Chunk) (start length : Nat) : Guarded Bytes := do
  let stop := start + length
  if 2 ^ 64 ≤ stop ∨ c.nbytes < stop then
    throw (.index (.chunkRange start (Chunk.saturatingAdd start length) c.nbytes))
  else if length = 0 then pure #[]
  else if c.header.isStored then
    let low ← add chunkHeaderSize start
    slice c.data low (← add chunkHeaderSize stop)
  else
    let first ← div start c.header.blockSize
    let last ← div (← sub stop 1) c.header.blockSize
    clipBlocks c start stop #[] first (last + 1 - first)

section Range

variable {c : Chunk}

/-- Blocks under a range are clipped inside their content. -/
theorem clipBlocks_eq (h : c.WellFormed) (hcoded : ¬ c.header.isStored = true) {start stop : Nat}
    (hrange : start < stop) (hstop : stop ≤ c.nbytes) (out : Bytes) {block count : Nat}
    (hfirst : start / c.header.blockSize ≤ block)
    (hlast : block + count ≤ (stop - 1) / c.header.blockSize + 1) :
    clipBlocks c start stop out block count = ofResult (c.clipBlocks start stop out block count) := by
  -- On the blocks left. The bounds keep a block between the first and the last one under the range, where
  -- no difference goes below zero.
  induction count generalizing out block with
  | zero => rfl
  | succ count ih =>
    obtain ⟨hsize, hcount⟩ := h.nblocks_eq hcoded (by omega)
    have hword := h.nbytes_lt
    have hmono := Nat.div_le_div_right (c := c.header.blockSize)
      (show stop - 1 ≤ c.nbytes - 1 by omega)
    have hblock : block < c.header.nblocks := by omega
    have hbefore : block * c.header.blockSize ≤ stop - 1 :=
      (Nat.le_div_iff_mul_le hsize).1 (by omega)
    have hbehind : start < block * c.header.blockSize + c.header.blockSize := by
      rw [← Nat.succ_mul]
      exact (Nat.div_lt_iff_lt_mul hsize).1 (by omega)
    rw [clipBlocks]
    refine bind_eq_ofResult (decodeBlock_eq h hcoded hblock) fun content hcontent => ?_
    have hlength := Chunk.size_of_decodeBlock_eq_ok hcontent
    rw [ChunkHeader.blockLength, ← Chunk.nbytes] at hlength
    rw [mul_of_lt (by omega), pure_bind, sub_of_le (Nat.le_max_right _ _), pure_bind,
      add_of_lt (by omega), pure_bind, sub_of_le (by omega), pure_bind,
      slice_of_le (by omega) (by omega), pure_bind]
    exact ih _ (by omega) (by omega)

/-- A range is read inside the chunk, or refused. -/
theorem decompressRange_eq (h : c.WellFormed) (start length : Nat) :
    decompressRange c start length = ofResult (c.decompressRange start length) := by
  rw [decompressRange, Chunk.decompressRange]
  dsimp only
  split
  · rfl
  rename_i hinside
  split
  · rfl
  have hword := h.nbytes_lt
  split
  · rename_i hstored
    have hdata := h.data_lt
    have hstored' := h.stored hstored
    rw [add_of_lt (by omega), pure_bind, add_of_lt (by omega), pure_bind,
      slice_of_le (by omega) (by omega)]
    rfl
  · rename_i hcoded
    obtain ⟨hsize, -⟩ := h.nblocks_eq hcoded (by omega)
    rw [div_of_pos hsize, pure_bind, sub_of_le (by omega), pure_bind, div_of_pos hsize, pure_bind]
    refine clipBlocks_eq h hcoded (by omega) (by omega) #[] le_rfl ?_
    have hmono := Nat.div_le_div_right (c := c.header.blockSize)
      (show start ≤ start + length - 1 by omega)
    omega

end Range

/-! ## Serialized forms -/

/-- Whether block count, block size and chunk size agree. -/
def isRegular (nblocks blockSize nbytes : Nat) : Guarded Bool :=
  if blockSize = 0 then pure false
  else do pure ((← ceilDiv nbytes blockSize) == nblocks)

theorem isRegular_eq (nblocks blockSize nbytes : Nat) :
    isRegular nblocks blockSize nbytes =
      pure (ChunkHeader.isRegular nblocks blockSize nbytes) := by
  rw [isRegular, ChunkHeader.isRegular]
  split
  · rename_i hzero
    rw [hzero]
    rfl
  · rename_i hblock
    rw [ceilDiv_of_pos (Nat.pos_of_ne_zero hblock), pure_bind, bne_iff_ne.2 hblock, Bool.true_and]

/-- Reads a head and checks that it describes the bytes behind it. -/
def headerOfBytes (b : Bytes) : Guarded ChunkHeader := do
  if b.size < chunkHeaderSize then
    throw (.format (.chunkTooSmall chunkHeaderSize b.size))
  else
    let flags ← byteAt b 0
    let typesize ← byteAt b 1
    let filters ← byteAt b 2
    let codec ← byteAt b 3
    let nblocks ← numberAt b 4 4
    let blockSize ← numberAt b 8 4
    let nbytes ← numberAt b 12 8
    let checksum ← numberAt b 20 4
    let isCoded := flags &&& 1 == 0 && 0 < nbytes
    let regular ← isRegular nblocks blockSize nbytes
    if (isCoded || 0 < nblocks) && !regular then
      throw (.format (.blockLayout nblocks blockSize nbytes))
    else if isCoded && b.size < chunkHeaderSize + nblocks * blockEntrySize then
      throw (.format (.blockTable nblocks b.size))
    else
      let codec ← ofResult (CodecId.ofByte codec)
      pure {
        flags, nblocks, blockSize, nbytes, codec, filters
        typesize := typesize.toNat
        checksum := UInt32.ofNat checksum }

/-- The least size of a chunk with a head: a stored chunk holds its raw bytes, another one its block
table. -/
def minimumSize (h : ChunkHeader) : Guarded Nat :=
  if h.isStored then
    pure (if chunkHeaderSize + h.nbytes < 2 ^ 64 then chunkHeaderSize + h.nbytes else 2 ^ 64 - 1)
  else do add chunkHeaderSize (← mul h.nblocks blockEntrySize)

theorem minimumSize_eq {h : ChunkHeader} (hblocks : h.nblocks < 2 ^ 32) :
    minimumSize h = pure (if h.isStored then
        if chunkHeaderSize + h.nbytes < 2 ^ 64 then chunkHeaderSize + h.nbytes else 2 ^ 64 - 1
      else chunkHeaderSize + h.nblocks * blockEntrySize) := by
  rw [minimumSize, chunkHeaderSize, blockEntrySize]
  split
  · rfl
  · rw [mul_of_lt (by omega), pure_bind, add_of_lt (by omega)]

/-- A chunk from its serialized form. -/
def ofBytes (data : Bytes) : Guarded Chunk := do
  let header ← headerOfBytes data
  let minimum ← minimumSize header
  if data.size < minimum then throw (.format (.chunkTruncated minimum data.size))
  else pure ⟨data, header⟩

theorem headerOfBytes_eq (b : Bytes) : headerOfBytes b = ofResult (ChunkHeader.ofBytes b) := by
  rw [headerOfBytes, ChunkHeader.ofBytes]
  split
  · rfl
  rename_i hlong
  rw [chunkHeaderSize] at hlong
  rw [byteAt_of_lt (by omega), pure_bind, byteAt_of_lt (by omega), pure_bind, byteAt_of_lt (by omega),
    pure_bind, byteAt_of_lt (by omega), pure_bind, numberAt_of_le (by decide) (by omega), pure_bind,
    numberAt_of_le (by decide) (by omega), pure_bind, numberAt_of_le (by decide) (by omega), pure_bind,
    numberAt_of_le (by decide) (by omega), pure_bind, isRegular_eq, pure_bind]
  dsimp only
  split
  · rfl
  split
  · rfl
  exact bind_eq_ofResult rfl fun _ _ => rfl

/-- Every byte string is taken for a chunk or refused, with all accesses inside. -/
theorem ofBytes_eq (data : Bytes) : ofBytes data = ofResult (Chunk.ofBytes data) := by
  refine bind_eq_ofResult (headerOfBytes_eq data) fun header hheader => ?_
  obtain ⟨-, -, -, -, hfields⟩ := Chunk.ofBytes_header_eq_ok hheader
  have hblocks : header.nblocks < 2 ^ 32 := by
    rw [hfields]
    exact LittleEndian.readAt_lt _ _ _
  rw [minimumSize_eq hblocks, pure_bind]
  dsimp only
  rw [apply_ite ofResult]
  rfl

end ChunkedArray.Guarded
