import ChunkedArray.Proofs.Frame.Cut

/-!
# Headers as long as their length says

The prefix of a frame has four bytes for the length of the header. A header that is longer is written
all the same, with the low four bytes of its length, so no reader finds its end: the fields of codec
text, keys and values are checked one by one before they are written, their sum is not. This is the only
way in which a header that is written is not read back.
-/

namespace ChunkedArray.FrameHeader

variable {h : FrameHeader} {b : Bytes}

/-! ## Piece by piece -/

theorem shortField_eq_pieces (b : Bytes) :
    shortField b = (fieldPieces 2 (2 ^ 16 - 1) b).map Bytes.concat := by
  have hfits : b.size < 2 ^ 16 ↔ b.size ≤ 2 ^ 16 - 1 := by omega
  simp only [shortField, fieldPieces, hfits]
  split
  · simp [Except.map, Bytes.concat]
  · rfl

theorem longField_eq_pieces (b : Bytes) :
    longField b = (fieldPieces 4 maxFieldLength b).map Bytes.concat := by
  unfold longField fieldPieces
  split
  · simp [Except.map, Bytes.concat]
  · rfl

theorem metadataBytes_eq_pieces (entries : List (String × Bytes)) :
    (metadataBytes entries).map Bytes.concat = (metadataPieces entries).map Bytes.concat := by
  induction entries with
  | nil => rfl
  | cons entry rest ih =>
    obtain ⟨key, value⟩ := entry
    rw [metadataBytes, metadataPieces, shortField_eq_pieces, longField_eq_pieces]
    cases fieldPieces 2 (2 ^ 16 - 1) key.toUTF8.data with
    | error e => rfl
    | ok key =>
      cases fieldPieces 4 maxFieldLength value with
      | error e => rfl
      | ok value =>
        obtain ⟨e, hfields, hpieces⟩ | ⟨fields, pieces, hfields, hpieces, hjoined⟩ := cases_of_map_eq ih
        · rw [hfields, hpieces]
          rfl
        · rw [hfields, hpieces]
          refine congrArg Except.ok ?_
          rw [Bytes.concat_cons, Bytes.concat_cons, Bytes.concat_append, Bytes.concat_append, hjoined,
            Array.append_assoc]

/-- The pieces joined are what is written. -/
theorem toBytes_eq_pieces (h : FrameHeader) : h.toBytes = h.pieces.map Bytes.concat := by
  have hmetadata := metadataBytes_eq_pieces h.metadata
  rw [toBytes, pieces, longField_eq_pieces]
  cases fieldPieces 4 maxFieldLength h.codec.toJson.render.toArray with
  | error e => rfl
  | ok codec =>
    obtain ⟨e, hfields, hpieces⟩ | ⟨fields, pieces, hfields, hpieces, hjoined⟩ :=
      cases_of_map_eq hmetadata
    · rw [hfields, hpieces]
      rfl
    · rw [hfields, hpieces]
      have hbody (middle back : List Bytes) :
          Bytes.concat (Bytes.concat codec :: middle ++ fields ++ back) =
            Bytes.concat (codec ++ middle ++ pieces ++ back) := by
        simp only [List.cons_append, Bytes.concat_cons, Bytes.concat_append, hjoined,
          Array.append_assoc]
      refine congrArg Except.ok ?_
      rw [Bytes.concat_cons, Bytes.concat_cons, Bytes.concat_cons, Bytes.concat_cons,
        ← Bytes.size_concat, ← hbody]
      simp only [Array.append_assoc, List.cons_append, List.nil_append]

/-! ## Lengths -/

/-- The length of prefix and header: the fixed fields, the codec text, the metadata entries behind their
lengths and the rows of the index. -/
def writtenSize (h : FrameHeader) : Nat :=
  prefixSize + (h.codec.toJson.render.length +
    (h.metadata.map fun e => e.1.toUTF8.size + e.2.size + 6).sum + 16 * h.index.length + 33)

theorem size_of_toBytes (hb : h.toBytes = .ok b) : b.size = h.writtenSize := by
  obtain ⟨hcodec, hmetadata⟩ := exists_toBytes_iff.1 ⟨b, hb⟩
  obtain ⟨b', hb', hsize⟩ := exists_toBytes hcodec (fun e he => (hmetadata e he).1) fun e he =>
    (hmetadata e he).2
  obtain rfl := Except.ok.inj (hb.symm.trans hb')
  exact hsize

/-- The header that is found has the length that four bytes can hold. -/
theorem headerSize_lt_of_peek {header : FrameHeader} (hpeek : peek b = .ok header) :
    header.headerSize < prefixSize + 2 ^ 32 := by
  have hlength := LittleEndian.readAt_lt b 8 4
  rw [(headerSize_of_peek hpeek).1]
  omega

/-- The header that is read back from what is written, with the version that is written. -/
def readBack (h : FrameHeader) : FrameHeader :=
  { h with version := formatVersion, headerSize := h.writtenSize }

/-- A header is refused exactly if its codec text, a key or a value does not fit its field. If it is
written, it is read back from the front of any byte string exactly if its length fits four bytes. -/
theorem toBytes_refuses_or_reads_back (hconsistent : h.Consistent) :
    ((∃ b, h.toBytes = .ok b) ↔ h.codec.toJson.render.length ≤ maxFieldLength ∧
      ∀ e ∈ h.metadata, e.1.toUTF8.size < 2 ^ 16 ∧ e.2.size ≤ maxFieldLength) ∧
    ∀ b, h.toBytes = .ok b → b.size = h.writtenSize ∧
      ∀ x, peek (b ++ x) = .ok h.readBack ↔ h.writtenSize < prefixSize + 2 ^ 32 := by
  refine ⟨exists_toBytes_iff, fun b hb => ?_⟩
  have hsize := size_of_toBytes hb
  refine ⟨hsize, fun x => ⟨fun hpeek => headerSize_lt_of_peek hpeek, fun hshort => ?_⟩⟩
  -- What is written does not depend on the version of the header.
  have hcurrent : Consistent { h with version := formatVersion } := by
    obtain ⟨hvalid, hblock, hchunk, hcbytes, htotal, hnbytes⟩ := hconsistent
    exact ⟨hvalid, hblock, hchunk, hcbytes, htotal, hnbytes⟩
  have hread := peek_toBytes (h := { h with version := formatVersion }) hb hcurrent rfl
    (hsize ▸ hshort) x
  rw [hread, readBack, hsize]

/-- The header of an empty store with one value under equal keys. -/
def repeating (value : Bytes) (count : Nat) : FrameHeader where
  version := 0
  flags := 2
  codec := { codec := .noop }
  chunkSize := 1
  nbytes := 0
  allowResize := true
  metadata := List.replicate count ("k", value)
  index := []

theorem consistent_repeating (value : Bytes) (count : Nat) :
    (repeating value count).Consistent := by
  constructor
  · rfl
  · exact Nat.two_pow_pos 64
  · exact Nat.one_lt_two_pow (by decide)
  · simp [repeating]
  · rfl
  · exact Nat.two_pow_pos 64

/-- The sum of the fields is the only thing that can be wrong with such a header. -/
theorem exists_toBytes_repeating {value : Bytes} (hvalue : value.size ≤ maxFieldLength)
    (count : Nat) : ∃ b, (repeating value count).toBytes = .ok b := by
  have hcodec : ({ codec := .noop } : CodecConfig).toJson.render.length ≤ maxFieldLength := by
    decide +kernel
  have hkey : "k".toUTF8.size < 2 ^ 16 := by decide
  refine exists_toBytes_iff.2 ⟨hcodec, fun e he => ?_⟩
  rw [List.eq_of_mem_replicate he]
  exact ⟨hkey, hvalue⟩

theorem le_writtenSize_repeating (value : Bytes) (count : Nat) :
    prefixSize + count * value.size ≤ (repeating value count).writtenSize := by
  have hentries : ((repeating value count).metadata.map fun e =>
      e.1.toUTF8.size + e.2.size + 6).sum = count * ("k".toUTF8.size + value.size + 6) := by
    rw [repeating, List.map_replicate, List.sum_replicate_nat]
  have hentry : count * value.size ≤ count * ("k".toUTF8.size + value.size + 6) :=
    Nat.mul_le_mul_left _ (by omega)
  rw [writtenSize, hentries]
  omega

/-- Two values under one key are read back with the version that is written. -/
theorem toBytes_reads_back_repeating :
    ∃ b, (repeating #[1, 2] 2).toBytes = .ok b ∧
      ∀ x, peek (b ++ x) = .ok (repeating #[1, 2] 2).readBack := by
  obtain ⟨-, hread⟩ := toBytes_refuses_or_reads_back (consistent_repeating #[1, 2] 2)
  obtain ⟨b, hb⟩ := exists_toBytes_repeating (show #[1, 2].size ≤ maxFieldLength by decide) 2
  have hshort : (repeating #[1, 2] 2).writtenSize < prefixSize + 2 ^ 32 := by
    decide +kernel
  exact ⟨b, hb, fun x => ((hread b hb).2 x).2 hshort⟩

/-- As many values of the greatest length as make four gigabytes are written, and are not read back
whatever follows. -/
theorem toBytes_not_read_back_four_gigabytes :
    (repeating (Bytes.zeros maxFieldLength) 256).Consistent ∧
      ∃ b, (repeating (Bytes.zeros maxFieldLength) 256).toBytes = .ok b ∧
        ∀ x, peek (b ++ x) ≠ .ok (repeating (Bytes.zeros maxFieldLength) 256).readBack := by
  have hsize : (Bytes.zeros maxFieldLength).size = maxFieldLength := Bytes.size_zeros _
  -- From here on the value is any one of this length.
  generalize Bytes.zeros maxFieldLength = value at hsize
  refine ⟨consistent_repeating value 256, ?_⟩
  obtain ⟨b, hb⟩ := exists_toBytes_repeating hsize.le 256
  refine ⟨b, hb, fun x hpeek => ?_⟩
  have hshort := headerSize_lt_of_peek hpeek
  have hlong := le_writtenSize_repeating value 256
  rw [hsize, maxFieldLength] at hlong
  rw [readBack] at hshort
  dsimp only at hshort
  omega

end ChunkedArray.FrameHeader
