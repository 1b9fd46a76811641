import ChunkedArray.Proofs.Frame.Contiguous

/-!
# Frames cut short or continued

A frame ends where its header says: behind the header lie the chunks, as many bytes as the index adds
up to. A frame that is cut anywhere before that end is refused, and what follows the end is not read.
Both come from one fact, that reading a header depends on the bytes of that header only; where the cut
falls decides which check refuses the frame.
-/

namespace ChunkedArray

theorem exists_of_toOption {ε α β : Type} {x : Except ε α} {f : α → β} {y : β}
    (h : x.toOption.map f = some y) : ∃ a, x = .ok a ∧ f a = y := by
  cases x with
  | error e => cases h
  | ok a => exact ⟨a, rfl, Option.some.inj h⟩

/-! ## Common fronts -/

/-- Two byte strings have the same first `n` bytes. -/
structure Bytes.SameFront (n : Nat) (a b : Bytes) : Prop where
  left : n ≤ a.size
  right : n ≤ b.size
  extract : a.extract 0 n = b.extract 0 n

namespace Bytes.SameFront

variable {n k : Nat} {a b : Bytes}

theorem getD (h : SameFront n a b) {i : Nat} (hi : i < n) : a.getD i 0 = b.getD i 0 := by
  have hbyte := congrArg (fun front => Array.getD front i 0) h.extract
  rwa [getD_extract, getD_extract, Nat.zero_add, if_pos (by omega), if_pos (by omega)] at hbyte

theorem mono (h : SameFront n a b) (hk : k ≤ n) : SameFront k a b := by
  constructor
  · exact hk.trans h.left
  · exact hk.trans h.right
  · have hcut := congrArg (fun front => Array.extract front 0 k) h.extract
    simpa [Array.extract_extract, hk] using hcut

theorem slice (h : SameFront n a b) {start len : Nat} (hle : start + len ≤ n) :
    a.slice start len = b.slice start len := by
  have hcut := congrArg (fun front => Array.extract front start (start + len)) h.extract
  simpa [Bytes.slice, Array.extract_extract, hle] using hcut

theorem readAt (h : SameFront n a b) {pos width : Nat} (hle : pos + width ≤ n) :
    LittleEndian.readAt a pos width = LittleEndian.readAt b pos width :=
  LittleEndian.readAt_congr fun i hi => h.getD (by omega)

/-- A byte string that is cut behind byte `n` keeps its first `n` bytes. -/
theorem of_extract (hb : n ≤ b.size) {m : Nat} (hm : n ≤ m) : SameFront n (b.extract 0 m) b := by
  constructor
  · rw [Array.size_extract]
    omega
  · exact hb
  · rw [Array.extract_extract, Nat.zero_add, Nat.zero_add, Nat.min_eq_left hm]

/-- Whatever continues the first `n` bytes, they stay. -/
theorem of_extract_append (hb : n ≤ b.size) (x : Bytes) : SameFront n (b.extract 0 n ++ x) b := by
  have hsize : (b.extract 0 n).size = n := by
    rw [Array.size_extract]
    omega
  constructor
  · rw [Array.size_append]
    omega
  · exact hb
  · rw [Array.extract_append, hsize, Array.extract_extract]
    simp

end Bytes.SameFront

namespace FrameHeader

open LittleEndian (readAt)

variable {a b : Bytes} {header : FrameHeader}

/-! ## Headers -/

/-- The size of a contiguous frame: prefix, header and the chunks of the index. -/
def frameSize (h : FrameHeader) : Nat :=
  h.headerSize + (h.index.map IndexEntry.cbytes).sum

/-- Why the first `m` bytes of a frame are no frame. -/
def cutFault (h : FrameHeader) (m : Nat) : FormatFault :=
  if m < prefixSize then .frameTooSmall prefixSize m
  else if m < h.headerSize then .headerLength
  else .frameTruncated h.frameSize m

/-- A byte string starts with the prefix of a frame. -/
structure HasPrefix (b : Bytes) : Prop where
  size : prefixSize ≤ b.size
  magic : b.slice 0 4 = magic
  version_le : readAt b 4 2 ≤ formatVersion
  version_ne : readAt b 4 2 ≠ 0

theorem HasPrefix.congr (h : HasPrefix b) (hfront : Bytes.SameFront prefixSize a b) :
    HasPrefix a := by
  constructor
  · exact hfront.left
  · rw [hfront.slice (by decide), h.magic]
  · rw [hfront.readAt (by decide)]
    exact h.version_le
  · rw [hfront.readAt (by decide)]
    exact h.version_ne

/-- Behind a prefix lies the header, if there are enough bytes for it. -/
theorem HasPrefix.peek_eq (h : HasPrefix b) :
    peek b =
      if b.size < prefixSize + readAt b 8 4 then .error (.format .headerLength)
      else (do
        let (header, _) ← (body (readAt b 4 2) (UInt16.ofNat (readAt b 6 2)) (readAt b 8 4)).run
          (b.slice prefixSize (readAt b 8 4)).toList
        pure header) := by
  rw [peek, if_neg (Nat.not_lt.2 h.size), if_neg (not_not_intro h.magic)]
  dsimp only
  rw [if_neg (Nat.not_lt.2 h.version_le), if_neg h.version_ne]

theorem hasPrefix_of_peek (h : peek b = .ok header) : HasPrefix b := by
  rw [peek] at h
  split at h
  · cases h
  rename_i hsize
  split at h
  · cases h
  rename_i hmagic
  dsimp only at h
  split at h
  · cases h
  rename_i hversion
  split at h
  · cases h
  rename_i hpositive
  exact ⟨Nat.not_lt.1 hsize, not_not.1 hmagic, Nat.not_lt.1 hversion, hpositive⟩

theorem lt_of_number {width n : Nat} {text rest : List UInt8}
    (h : (number width).run text = .ok (n, rest)) : n < 256 ^ width := by
  obtain ⟨⟨taken, text'⟩, htaken, h⟩ := bind_eq_ok.1 h
  cases h
  rw [take] at htaken
  split at htaken
  · rename_i hlength
    cases htaken
    have hlt := LittleEndian.toNat_lt (text.take width)
    rwa [hlength] at hlt
  · cases htaken

theorem blockSize_lt_of_codecField {codec : CodecConfig} {text rest : List UInt8}
    (h : codecField.run text = .ok (codec, rest)) : codec.blockSize < 2 ^ 64 := by
  obtain ⟨⟨field, text'⟩, -, h⟩ := bind_eq_ok.1 h
  obtain ⟨codec', hload, h⟩ := bind_eq_ok.1 h
  cases h
  exact CodecConfig.blockSize_lt_of_load hload

/-- The numbers in a header fit their fields, and the fields end where the declared length says,
whether they use all of it or not. -/
theorem sizes_of_run_body {version : Nat} {flags : UInt16} {length : Nat}
    {text rest : List UInt8} (h : (body version flags length).run text = .ok (header, rest)) :
    header.headerSize = prefixSize + length ∧ header.codec.blockSize < 2 ^ 64 ∧
      header.chunkSize < 2 ^ 64 := by
  obtain ⟨⟨codec, text⟩, hcodec, h⟩ := bind_eq_ok.1 h
  obtain ⟨⟨chunkSize, text⟩, hchunkSize, h⟩ := bind_eq_ok.1 h
  obtain ⟨⟨nbytes, text⟩, -, h⟩ := bind_eq_ok.1 h
  obtain ⟨⟨resize, text⟩, -, h⟩ := bind_eq_ok.1 h
  obtain ⟨⟨entries, text⟩, -, h⟩ := bind_eq_ok.1 h
  obtain ⟨⟨metadata, text⟩, -, h⟩ := bind_eq_ok.1 h
  obtain ⟨⟨nchunks, text⟩, -, h⟩ := bind_eq_ok.1 h
  dsimp only at h
  split at h
  · cases h
  obtain ⟨⟨index, text⟩, -, h⟩ := bind_eq_ok.1 h
  obtain ⟨⟨declared, text⟩, -, h⟩ := bind_eq_ok.1 h
  dsimp only at h
  split at h
  · cases h
  cases h
  exact ⟨rfl, blockSize_lt_of_codecField hcodec, lt_of_number hchunkSize⟩

theorem run_body_of_peek (h : peek b = .ok header) :
    prefixSize + readAt b 8 4 ≤ b.size ∧
      ∃ rest, (body (readAt b 4 2) (UInt16.ofNat (readAt b 6 2)) (readAt b 8 4)).run
        (b.slice prefixSize (readAt b 8 4)).toList = .ok (header, rest) := by
  rw [(hasPrefix_of_peek h).peek_eq] at h
  split at h
  · cases h
  rename_i hinside
  obtain ⟨⟨header', rest⟩, hrun, hpure⟩ := bind_eq_ok.1 h
  cases hpure
  exact ⟨Nat.not_lt.1 hinside, rest, hrun⟩

/-- A header that was read has the declared length, and lies inside. -/
theorem headerSize_of_peek (h : peek b = .ok header) :
    header.headerSize = prefixSize + readAt b 8 4 ∧ header.headerSize ≤ b.size := by
  obtain ⟨hinside, rest, hrun⟩ := run_body_of_peek h
  have hsize := (sizes_of_run_body hrun).1
  exact ⟨hsize, hsize.trans_le hinside⟩

/-- The sizes among the parameters in a header that was read are words. -/
theorem words_of_peek (h : peek b = .ok header) :
    header.codec.blockSize < 2 ^ 64 ∧ header.chunkSize < 2 ^ 64 := by
  obtain ⟨-, rest, hrun⟩ := run_body_of_peek h
  exact (sizes_of_run_body hrun).2

theorem prefixSize_le_of_peek (h : peek b = .ok header) : prefixSize ≤ header.headerSize := by
  rw [(headerSize_of_peek h).1]
  exact Nat.le_add_right _ _

/-- Reading a header depends on the bytes of the header only. -/
theorem peek_congr (h : peek b = .ok header) (hfront : Bytes.SameFront header.headerSize a b) :
    peek a = .ok header := by
  obtain ⟨hsize, hinside⟩ := headerSize_of_peek h
  have hfront' := hfront.mono (prefixSize_le_of_peek h)
  have hlead := hasPrefix_of_peek h
  rw [hlead.peek_eq, if_neg (by omega)] at h
  rw [(hlead.congr hfront').peek_eq, hfront'.readAt (by decide : 4 + 2 ≤ prefixSize),
    hfront'.readAt (by decide : 6 + 2 ≤ prefixSize), hfront'.readAt (by decide : 8 + 4 ≤ prefixSize),
    hfront.slice hsize.ge, if_neg (by have := hfront.left; omega), h]

/-- A header that is cut off is refused. -/
theorem peek_cut (h : peek b = .ok header) {m : Nat} (hm : m < header.headerSize) :
    peek (b.extract 0 m) = .error (.format (header.cutFault m)) := by
  obtain ⟨hsize, hinside⟩ := headerSize_of_peek h
  have hlength : (b.extract 0 m).size = m := by
    rw [Array.size_extract]
    omega
  by_cases hshort : m < prefixSize
  · rw [peek, hlength, if_pos hshort, cutFault, if_pos hshort]
  · have hlead := hasPrefix_of_peek h
    have hfront := Bytes.SameFront.of_extract hlead.size (Nat.not_lt.1 hshort)
    rw [(hlead.congr hfront).peek_eq, hfront.readAt (by decide), hlength, ← hsize, if_pos hm,
      cutFault, if_neg hshort, if_pos hm]

end FrameHeader

namespace Store

open FrameHeader

variable {a b : Bytes} {header : FrameHeader} {s : Store}

/-! ## Frames -/

/-- Cutting out the chunks depends on their bytes only. -/
theorem restoreChunks_congr {n : Nat} (hfront : Bytes.SameFront n a b) {pos i : Nat}
    {index : List IndexEntry} (hle : pos + (index.map IndexEntry.cbytes).sum ≤ n) :
    restoreChunks a pos i index = restoreChunks b pos i index := by
  induction index generalizing pos i with
  | nil => rfl
  | cons entry rest ih =>
    rw [List.map_cons, List.sum_cons] at hle
    unfold restoreChunks
    rw [hfront.slice (by omega), ih (by omega)]

/-- Reading a frame depends on the bytes up to its end only. -/
theorem ofFrame_congr (hpeek : peek b = .ok header)
    (hfront : Bytes.SameFront header.frameSize a b) : ofFrame a = ofFrame b := by
  have hheader := peek_congr hpeek (hfront.mono (Nat.le_add_right _ _))
  have hchunks := restoreChunks_congr hfront (i := 0) (le_refl header.frameSize)
  unfold ofFrame
  rw [hheader, hpeek]
  simp only [bind, Except.bind]
  split
  · rfl
  cases hpayload : header.payloadSize with
  | error e => rfl
  | ok payload =>
    obtain ⟨-, rfl⟩ := checkedTotal_eq_ok.1 hpayload
    have hleft := hfront.left
    have hright := hfront.right
    rw [frameSize] at hleft hright
    dsimp only
    rw [if_neg (Nat.not_lt.2 hleft), if_neg (Nat.not_lt.2 hright), hchunks]

/-- The header of a contiguous frame is not that of a sparse one. -/
theorem isSparse_of_ofFrame (h : ofFrame b = .ok s) (hpeek : peek b = .ok header) :
    header.isSparse = false := by
  by_contra hsparse
  rw [Bool.not_eq_false] at hsparse
  rw [ofFrame, hpeek] at h
  simp only [bind, Except.bind] at h
  rw [if_pos hsparse] at h
  cases h

/-- A frame whose header is whole and whose chunks are cut off is refused. -/
theorem ofFrame_of_payload_cut (h : ofFrame b = .ok s) (hpeek : peek b = .ok header) {m : Nat}
    (hheader : header.headerSize ≤ m) (hm : m < header.frameSize) :
    ofFrame (b.extract 0 m) = .error (.format (header.cutFault m)) := by
  obtain ⟨header', -, -, hpeek', hword, hinside, -⟩ := ofFrame_eq_ok h
  obtain rfl : header' = header := Except.ok.inj (hpeek'.symm.trans hpeek)
  have hcut := peek_congr hpeek (.of_extract (headerSize_of_peek hpeek).2 hheader)
  have hlead := prefixSize_le_of_peek hpeek
  have hlength : (b.extract 0 m).size = m := by
    rw [Array.size_extract]
    rw [frameSize] at hm
    omega
  have hpayload : header'.payloadSize = .ok (header'.index.map IndexEntry.cbytes).sum :=
    checkedTotal_eq_ok.2 ⟨by omega, rfl⟩
  have hlayout := isSparse_of_ofFrame h hpeek
  rw [cutFault, if_neg (by omega), if_neg (by omega)]
  unfold ofFrame
  rw [hcut]
  simp only [bind, Except.bind, hpayload, hlayout, hlength]
  rw [if_neg Bool.false_ne_true, if_neg (by omega),
    if_pos (show m < header'.headerSize + (header'.index.map IndexEntry.cbytes).sum from hm)]
  rfl

/-- A frame has an end, given by its header. Cut anywhere before that end it is refused, and the cause
names the part that is missing; continued by any bytes behind that end it gives the same store. -/
theorem ofFrame_cut (h : ofFrame b = .ok s) :
    ∃ header, peek b = .ok header ∧ header.frameSize ≤ b.size ∧
      (∀ m < header.frameSize,
        ofFrame (b.extract 0 m) = .error (.format (header.cutFault m))) ∧
      ∀ x, ofFrame (b.extract 0 header.frameSize ++ x) = .ok s := by
  obtain ⟨header, -, -, hpeek, -, hinside, -⟩ := ofFrame_eq_ok h
  rw [← frameSize] at hinside
  refine ⟨header, hpeek, hinside, fun m hm => ?_, fun x => ?_⟩
  · by_cases hheader : m < header.headerSize
    · rw [ofFrame, peek_cut hpeek hheader]
      rfl
    · exact ofFrame_of_payload_cut h hpeek (Nat.not_lt.1 hheader) hm
  · rw [ofFrame_congr hpeek (.of_extract_append hinside x), h]

/-- The frame of a store of one chunk of two bytes, and bytes behind it. -/
theorem ofFrame_cut_two_bytes :
    let start : Store := { codec := { codec := .noop, level := 0 }, chunkSize := 2 }
    let s := (start.run (perform (start.chunkSource {}) (.append #[1, 2]))).2
    ∃ b r header, (s.run (toFrame (s.chunkSource {}))).1 = .ok b ∧
      ofFrame (b ++ #[7, 7]) = .ok r ∧ r.nbytes = 2 ∧
      peek (b ++ #[7, 7]) = .ok header ∧ header.headerSize = 137 ∧ header.frameSize = b.size ∧
      (∀ m < header.frameSize,
        ofFrame ((b ++ #[7, 7]).extract 0 m) = .error (.format (header.cutFault m))) ∧
      ∀ x, ofFrame ((b ++ #[7, 7]).extract 0 header.frameSize ++ x) = .ok r := by
  intro start s
  have hrun : (s.run (toFrame (s.chunkSource {}))).1.toOption.map (fun b =>
      (b.size, (ofFrame (b ++ #[7, 7])).toOption.map nbytes,
        (peek (b ++ #[7, 7])).toOption.map fun header => (header.headerSize, header.frameSize))) =
      some (163, some 2, some (137, 163)) := by
    decide +kernel
  obtain ⟨b, hb, hfacts⟩ := exists_of_toOption hrun
  rw [Prod.mk.injEq, Prod.mk.injEq] at hfacts
  obtain ⟨hsize, hread, hheader⟩ := hfacts
  obtain ⟨r, hr, hnbytes⟩ := exists_of_toOption hread
  obtain ⟨header, hpeek, hsizes⟩ := exists_of_toOption hheader
  rw [Prod.mk.injEq] at hsizes
  obtain ⟨hfront, hend⟩ := hsizes
  obtain ⟨header', hpeek', -, hcut, hcontinued⟩ := ofFrame_cut hr
  obtain rfl : header' = header := Except.ok.inj (hpeek'.symm.trans hpeek)
  exact ⟨b, r, header', hb, hr, hnbytes, hpeek, hfront, hend.trans hsize.symm, hcut, hcontinued⟩

end Store

end ChunkedArray
