import ChunkedArray.Codec.Zstd.Frame
import ChunkedArray.Proofs.Bytes.LittleEndian

/-!
# Zstandard frames read back

A frame of stored blocks is read block by block: its head declares a window as large as a block and
no size, so the buffer always has room for the next block, whether or not it was used again from
its start. `encode` writes such a frame or one that was checked to read back, so whatever it writes
reads back.
-/

namespace ChunkedArray.Zstd

/-! ## Rows of blocks -/

/-- Blocks are written behind what is there. -/
theorem exists_writeBlocks_eq_append (block : Bool → Bytes → Bytes) (b out : Bytes)
    (pos fuel : Nat) : ∃ rest, writeBlocks block b out pos fuel = out ++ rest := by
  induction fuel generalizing out pos with
  | zero => exact ⟨#[], by simp [writeBlocks]⟩
  | succ fuel ih =>
    by_cases hlast : b.size ≤ pos + maxBlock
    · exact ⟨block true (b.extract pos), by simp only [writeBlocks, if_pos hlast]⟩
    · obtain ⟨rest, hrest⟩ :=
        ih (out ++ block false (b.extract pos (pos + maxBlock))) (pos + maxBlock)
      refine ⟨block false (b.extract pos (pos + maxBlock)) ++ rest, ?_⟩
      simp only [writeBlocks, if_neg hlast, hrest, Array.append_assoc]

theorem size_storedBlock (last : Bool) (b : Bytes) : (storedBlock last b).size = 3 + b.size := by
  simp [storedBlock, blockHead]

/-- The head of a stored block says what it stores. -/
theorem readBlockHead_storedBlock (front rest : Bytes) (last : Bool) {content : Bytes}
    (hsize : content.size ≤ maxBlock) :
    readBlockHead (front ++ (storedBlock last content ++ rest)) front.size =
      some ⟨last, 0, content.size⟩ := by
  have hnumber : LittleEndian.readAt (front ++ (storedBlock last content ++ rest)) front.size 3 =
      content.size * 8 + last.toNat := by
    rw [storedBlock, blockHead, Array.append_assoc, LittleEndian.readAt_append_bytes]
    have hbit := Bool.toNat_lt last
    have hmax : maxBlock = 131072 := rfl
    omega
  have hlast : decide ((content.size * 8 + last.toNat) % 2 = 1) = last := by
    cases last <;> simp <;> omega
  have hkind : (content.size * 8 + last.toNat) / 2 % 4 = 0 := by
    have hbit := Bool.toNat_lt last
    omega
  have hlength : (content.size * 8 + last.toNat) / 8 = content.size := by
    have hbit := Bool.toNat_lt last
    omega
  have hbody : BlockHead.bodySize ⟨last, 0, content.size⟩ = content.size := rfl
  simp only [readBlockHead, hnumber, hlast, hkind, hlength, hbody]
  rw [if_neg]
  simp only [Array.size_append, size_storedBlock]
  omega

/-- The content of a stored block stands behind its head. -/
theorem slice_storedBlock (front rest : Bytes) (last : Bool) (content : Bytes) :
    (front ++ (storedBlock last content ++ rest)).slice (front.size + 3) content.size = content := by
  have h := Bytes.extract_middle (front ++ blockHead last 0 content.size) content rest
  rw [Array.size_append, blockHead, LittleEndian.size_bytes, Array.append_assoc] at h
  rwa [Bytes.slice, storedBlock, Array.append_assoc]

/-! ## Reading block by block -/

/-- The space has room for a whole block behind content of `pos` bytes and is used again. -/
structure Ring.Ready (ring : Ring) (pos : Nat) : Prop where
  turns : ring.turns = true
  start_le : ring.start ≤ pos
  room : pos - ring.start + maxBlock ≤ ring.size

theorem Ring.Ready.advance {ring : Ring} {pos stop : Nat} (h : ring.Ready pos) (hle : pos ≤ stop) :
    (ring.advance maxBlock stop).Ready stop := by
  have hroom := h.room
  by_cases hturn : ring.turns ∧ ring.size < stop - ring.start + maxBlock
  · rw [Ring.advance, if_pos hturn]
    exact ⟨h.turns, le_rfl, by dsimp only; omega⟩
  · rw [Ring.advance, if_neg hturn]
    have hsize : ¬ ring.size < stop - ring.start + maxBlock := fun hlt => hturn ⟨h.turns, hlt⟩
    exact ⟨h.turns, h.start_le.trans hle, Nat.le_of_not_lt hsize⟩

/-- How `encode` wants its frames to be read. -/
def blockwise : Reading := ⟨maxBlock, false⟩

/-- A stored block adds its content. -/
theorem decodeBlock_storedBlock (front rest : Bytes) (last : Bool) {content out : Bytes}
    (hsize : content.size ≤ maxBlock) {ring : Ring} (memory : Memory) (h : ring.Ready out.size) :
    decodeBlock (front ++ (storedBlock last content ++ rest)) (blockwise.room ring out) memory out
      ⟨last, 0, content.size⟩ (front.size + 3) = some (out ++ content, memory) := by
  have hroom := h.room
  have hspace : content.size ≤ ring.size - (out.size - ring.start) := by omega
  simp [decodeBlock, Reading.room, blockwise, BlockHead.bodySize, hspace, hsize.not_gt,
    slice_storedBlock]

/-- One step of the reader over a stored block. -/
theorem readBlocks_storedBlock (front rest : Bytes) (last : Bool) {content out : Bytes}
    (hsize : content.size ≤ maxBlock) {ring : Ring} (memory : Memory) (h : ring.Ready out.size)
    (fuel : Nat) :
    ∃ ring' endsEmpty, ring'.Ready (out.size + content.size) ∧
      readBlocks (front ++ (storedBlock last content ++ rest)) blockwise ring memory out front.size
        (fuel + 1) =
        if last then some ⟨front.size + (3 + content.size), out ++ content, endsEmpty⟩
        else readBlocks (front ++ (storedBlock last content ++ rest)) blockwise ring' memory
          (out ++ content) (front.size + (3 + content.size)) fuel := by
  have hhead := readBlockHead_storedBlock front rest last hsize
  have hbody : BlockHead.bodySize ⟨last, 0, content.size⟩ = content.size := rfl
  by_cases hempty : content.size = 0
  · refine ⟨ring, true, by simpa [hempty] using h, ?_⟩
    have hcontent : content = #[] := Array.eq_empty_of_size_eq_zero hempty
    subst hcontent
    simp [readBlocks, hhead, blockwise, BlockHead.bodySize]
  · refine ⟨ring.advance maxBlock (out.size + content.size), false,
      h.advance (Nat.le_add_right _ _), ?_⟩
    have hblock := decodeBlock_storedBlock front rest last hsize memory h
    simp only [readBlocks, hhead, hbody, Option.bind_eq_bind, Option.bind_some]
    rw [if_neg (fun hskip => hempty hskip.2), hblock, Nat.add_assoc]
    simp only [Option.bind_some, Array.size_append]
    rfl

/-- The reader gets the content from the row of stored blocks that the writer made of it. -/
theorem readBlocks_writeBlocks {b : Bytes} (front : Bytes) {pos fuel : Nat} (readFuel : Nat)
    (ring : Ring) (memory : Memory) (hpos : pos ≤ b.size) (hfuel : b.size < pos + fuel) (hring : ring.Ready pos)
    (hread : (writeBlocks storedBlock b front pos fuel).size ≤ front.size + readFuel) :
    ∃ endsEmpty,
      readBlocks (writeBlocks storedBlock b front pos fuel) blockwise ring memory (b.extract 0 pos)
        front.size readFuel =
        some ⟨(writeBlocks storedBlock b front pos fuel).size, b, endsEmpty⟩ := by
  -- On the fuel of the writer. The reader is in front of the block at `pos` with what was written
  -- before it, and its own fuel lasts for the bytes that are left.
  induction fuel generalizing front pos readFuel ring with
  | zero => omega
  | succ fuel ih =>
    have hout : (b.extract 0 pos).size = pos := by simp [Nat.min_eq_left hpos]
    by_cases hlast : b.size ≤ pos + maxBlock
    · -- What is left fits one block, which is the last.
      simp only [writeBlocks, if_pos hlast] at hread ⊢
      rw [Array.size_append, size_storedBlock] at hread
      obtain ⟨readFuel, rfl⟩ : ∃ n, readFuel = n + 1 := ⟨readFuel - 1, by omega⟩
      have hsize : (b.extract pos).size ≤ maxBlock := by
        simp only [Array.size_extract]
        omega
      obtain ⟨_, endsEmpty, -, hstep⟩ := readBlocks_storedBlock front #[] true hsize memory
        (by rwa [hout]) readFuel
      rw [Array.append_empty, if_pos rfl] at hstep
      refine ⟨endsEmpty, ?_⟩
      rw [hstep, Array.size_append, size_storedBlock, Array.extract_append_extract]
      simp
    · simp only [writeBlocks, if_neg hlast] at hread ⊢
      obtain ⟨rest, hrest⟩ := exists_writeBlocks_eq_append storedBlock b
        (front ++ storedBlock false (b.extract pos (pos + maxBlock))) (pos + maxBlock) fuel
      have hcontent : (b.extract pos (pos + maxBlock)).size = maxBlock := by
        simp only [Array.size_extract]
        omega
      have hfront : (front ++ storedBlock false (b.extract pos (pos + maxBlock))).size =
          front.size + (3 + maxBlock) := by
        rw [Array.size_append, size_storedBlock, hcontent]
      have hgrow : front.size + (3 + maxBlock) ≤ front.size + readFuel := by
        refine le_trans ?_ hread
        rw [hrest, Array.size_append, hfront]
        exact Nat.le_add_right _ _
      obtain ⟨readFuel, rfl⟩ : ∃ n, readFuel = n + 1 := ⟨readFuel - 1, by omega⟩
      obtain ⟨ring', _, hring', hstep⟩ := readBlocks_storedBlock front rest false
        (le_of_eq hcontent) memory (by rwa [hout]) readFuel
      rw [← Array.append_assoc, ← hrest, if_neg Bool.false_ne_true, hcontent] at hstep
      rw [hout, hcontent] at hring'
      have hmax : 0 < maxBlock := by decide
      obtain ⟨endsEmpty, hblocks⟩ := ih
        (front ++ storedBlock false (b.extract pos (pos + maxBlock))) readFuel ring'
        (show pos + maxBlock ≤ b.size by omega) (by omega) hring' (by omega)
      refine ⟨endsEmpty, ?_⟩
      rw [hstep, Array.extract_append_extract]
      rw [hfront] at hblocks
      simpa using hblocks

/-! ## Whole frames -/

theorem size_headBytes : headBytes.size = 6 := rfl

/-- What the head of a written frame says: a window as large as a block and no declared size. -/
def writtenHead : FrameHead :=
  ⟨6, maxBlock, none, false⟩

/-- The buffers for a written frame. -/
def writtenBuffers : Buffers :=
  ⟨maxBlock, 3 * maxBlock + 64, 0⟩

theorem readHead_headBytes (rest : Bytes) : readHead (headBytes ++ rest) 4 = some writtenHead := by
  have hflags : (headBytes ++ rest).getD 4 0 = 0 := by
    rw [Bytes.getD_append, size_headBytes, if_pos (by omega)]
    rfl
  have hwindow : (headBytes ++ rest).getD 5 0 = 0x38 := by
    rw [Bytes.getD_append, size_headBytes, if_pos (by omega)]
    rfl
  have hsize : ¬ (headBytes ++ rest).size < 6 := by
    rw [Array.size_append, size_headBytes]
    omega
  have hflags' : (0 : UInt8).toNat = 0 := rfl
  have hwindow' : windowLog (0x38 : UInt8).toNat = 17 := rfl
  simp only [readHead, hflags, hwindow, hflags', hwindow']
  rw [if_neg]
  · rfl
  · rintro (hlt | hflag | hdictionary | ⟨-, hlog⟩)
    · exact hsize hlt
    · exact absurd hflag (by decide)
    · exact hdictionary rfl
    · exact absurd hlog (by decide)

/-- A frame of stored blocks is read block by block. -/
theorem readBlockwise_frameWith_storedBlock (b : Bytes) :
    readBlockwise (frameWith storedBlock b) writtenHead {} =
      some ⟨(frameWith storedBlock b).size, b, writtenBuffers⟩ := by
  have hwindow : ¬ maxWindow < writtenHead.window := by decide
  obtain ⟨endsEmpty, hblocks⟩ := readBlocks_writeBlocks headBytes (frameWith storedBlock b).size
    { size := writtenBuffers.content, turns := true } {} (Nat.zero_le b.size)
    (show b.size < 0 + (b.size + 1) by omega) ⟨rfl, le_rfl, by decide⟩ (Nat.le_add_left _ _)
  rw [Array.extract_zero, ← frameWith] at hblocks
  have hread : readBlockwise (frameWith storedBlock b) writtenHead {} =
      (readBlocks (frameWith storedBlock b) blockwise
        { size := writtenBuffers.content, turns := true } {} #[] headBytes.size
        (frameWith storedBlock b).size).bind fun blocks =>
      (checkContent (frameWith storedBlock b) writtenHead blocks).bind fun stop =>
        if blocks.endsEmpty ∨ writtenHead.declares blocks.content then
          some ⟨stop, blocks.content, writtenBuffers⟩
        else none := if_neg hwindow
  rw [hread, hblocks]
  simp [checkContent, FrameHead.declares, writtenHead]

/-- A frame of stored blocks reads back. -/
theorem decode_frameWith_storedBlock (b : Bytes) : decode (frameWith storedBlock b) = some b := by
  obtain ⟨rest, hrest⟩ := exists_writeBlocks_eq_append storedBlock b headBytes 0 (b.size + 1)
  have hframe : frameWith storedBlock b = headBytes ++ rest := hrest
  have hsize : ¬ (frameWith storedBlock b).size < 5 := by
    rw [hframe, Array.size_append, size_headBytes]
    omega
  have hmagic : LittleEndian.readAt (frameWith storedBlock b) 0 4 = frameMagic := by
    rw [hframe, LittleEndian.readAt_append_left _ _ (by rw [size_headBytes]; omega)]
    rfl
  have hhead : readHead (frameWith storedBlock b) 4 = some writtenHead := by
    rw [hframe, readHead_headBytes]
  have honce : isAtOnce (frameWith storedBlock b) 0 writtenHead = false := rfl
  have hread : readFrame (frameWith storedBlock b) 0 {} =
      some ⟨(frameWith storedBlock b).size, b, writtenBuffers⟩ := by
    simp [readFrame, hsize, hmagic, hhead, honce, readBlockwise_frameWith_storedBlock]
  simp [decode, readFrames, hread]

/-- Whatever is written reads back. -/
theorem decode_encode (b : Bytes) : decode (encode b) = some b := by
  simp only [encode]
  by_cases hpacked : (frameWith packedBlock b).size < (frameWith storedBlock b).size ∧
      decode (frameWith packedBlock b) = some b
  · rw [if_pos hpacked]
    exact hpacked.2
  · rw [if_neg hpacked]
    exact decode_frameWith_storedBlock b

end ChunkedArray.Zstd
