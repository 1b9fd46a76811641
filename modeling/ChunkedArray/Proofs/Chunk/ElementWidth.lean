import ChunkedArray.Proofs.Chunk.Serialized

/-!
# The element width in the head of a chunk

The head of a chunk has one byte for the element width, and elements of no width are written down as
elements of one byte. Parameters that were validated have a width from 1 to 255, but `compress` takes
any. A width that needs more than a byte loses its upper part in the serialized form; with no width at
all, no differences are taken and differences of single bytes are undone. For byte strings below four
gigabytes these are the only ways in which a chunk fails to come back from its serialized form.
-/

namespace ChunkedArray.Chunk

variable {c : Chunk} {raw : Bytes} {config : CodecConfig} {code : Bytes → Bytes}

/-- A chunk is read back from its serialized form as it is, and what was compressed comes out of it. -/
structure ComesBack (c : Chunk) (raw : Bytes) : Prop where
  parsed : ofBytes c.data = .ok c
  decompressed : c.decompress = .ok raw

/-- The element width suits the head: it fits its byte, and if there is none, no block has differences
that would be undone. -/
structure WidthSuits (config : CodecConfig) (raw : Bytes) (h : ChunkHeader) : Prop where
  byte : config.typesize < 256
  flat : config.typesize = 0 → .delta ∈ config.filters → ¬ h.isStored = true →
    ∀ block ∈ cutBlocks raw h.blockSize 0 h.nblocks, XorDelta.Flat block

/-! ## Blocks -/

/-- A coded block decodes to its slice, unless elements of no width left it with differences that are
undone. -/
theorem decode_codedBlocks_iff (hcode : config.codec.Restores code) {k : Nat}
    (hk : k < (codedBlocks code raw config).length) :
    Block.decode config.codec (max config.typesize 1) (Filter.mask config.filters)
          ((chosenHeader raw config).blockLength k) (codedBlocks code raw config)[k].1 =
        .ok (raw.slice (k * chosenBlockSize raw.size config) (chosenBlockSize raw.size config)) ↔
      (config.typesize = 0 → .delta ∈ config.filters → XorDelta.Flat
        (raw.slice (k * chosenBlockSize raw.size config) (chosenBlockSize raw.size config))) := by
  rcases Nat.eq_zero_or_pos config.typesize with hzero | hpos
  · rw [getElem_codedBlocks hk, blockLength_chosenHeader, hzero, ← Filter.mem_ofMask_mask]
    simp only [forall_const]
    exact Block.decode_one_encodeWith_zero_iff hcode _ _
  · exact iff_of_true (decode_codedBlocks hcode hpos hk).1 fun hzero => absurd hzero hpos.ne'

/-- A block of which there is one starts inside. -/
theorem mul_lt_of_lt_ceil {n size k : Nat} (hsize : 0 < size) (hk : k < (n + size - 1) / size) :
    k * size < n := by
  have hle := Nat.mul_le_of_le_div size (k + 1) (n + size - 1) hk
  rw [Nat.succ_mul] at hle
  omega

/-! ## Chunks -/

/-- A coded chunk that holds what was compressed has nothing to undo: each block decodes to its part of
what the chunk holds. -/
theorem flat_of_holds_coded (hcode : config.codec.Restores code)
    (hword : (coded (chosenHeader raw config) (codedBlocks code raw config)).data.size < 2 ^ 64)
    (hholds : (coded (chosenHeader raw config) (codedBlocks code raw config)).Holds raw)
    (hzero : config.typesize = 0) (hdelta : .delta ∈ config.filters) :
    ∀ block ∈ cutBlocks raw (chosenBlockSize raw.size config) 0 (chosenHeader raw config).nblocks,
      XorDelta.Flat block := by
  intro block hblock
  have hlength := length_codedBlocks code raw config
  have hcoded := not_isStored_chosenHeader raw config
  obtain ⟨k, hk, rfl⟩ := List.getElem_of_mem hblock
  rw [getElem_cutBlocks, Nat.zero_add]
  rw [length_cutBlocks] at hk
  obtain ⟨content, hcontent⟩ :=
    hholds.decodes hcoded k (mul_lt_of_lt_ceil (chosenBlockSize_pos raw.size config) hk)
  have hslice := decodeBlock_eq_slice_raw hcoded hcontent
  rw [hholds.raw] at hslice
  subst hslice
  have hinside := hk.trans_eq hlength.symm
  have hdecoded := ((decodeBlock_coded_iff_of_lt hinside hword hlength.symm).1 hcontent).1
  exact (decode_codedBlocks_iff hcode hinside).1 hdecoded hzero hdelta

/-- A coded chunk without anything to undo holds what was compressed. -/
theorem holds_coded_of_flat (hcode : config.codec.Restores code) (hsize : raw.size < 2 ^ 63)
    (hword : (coded (chosenHeader raw config) (codedBlocks code raw config)).data.size < 2 ^ 64)
    (hflat : config.typesize = 0 → .delta ∈ config.filters →
      ∀ block ∈ cutBlocks raw (chosenBlockSize raw.size config) 0 (chosenHeader raw config).nblocks,
        XorDelta.Flat block) :
    (coded (chosenHeader raw config) (codedBlocks code raw config)).Holds raw := by
  have hlength := length_codedBlocks code raw config
  refine holds_coded (not_isStored_chosenHeader raw config) (chosenBlockSize_pos raw.size config) rfl
    hlength.symm rfl rfl hsize hword fun k hk => ⟨?_, ?_⟩
  · apply (decode_codedBlocks_iff hcode hk).2
    intro hzero hdelta
    refine hflat hzero hdelta _ (List.mem_iff_getElem.2 ⟨k, ?_, ?_⟩)
    · rw [length_cutBlocks]
      exact hk.trans_eq hlength
    · rw [getElem_cutBlocks, Nat.zero_add]
  · rw [getElem_codedBlocks hk]
    rfl

/-- Whatever coder made it, a chunk decompresses to what was compressed exactly if elements of no width
left nothing to undo. -/
theorem decompress_compressWith_iff (hcode : config.codec.Restores code) (hsize : raw.size < 2 ^ 63)
    (h : compressWith code raw config = .ok c) :
    c.decompress = .ok raw ↔
      (config.typesize = 0 → .delta ∈ config.filters → ¬ c.header.isStored = true →
        ∀ block ∈ cutBlocks raw c.header.blockSize 0 c.header.nblocks, XorDelta.Flat block) := by
  have hcovered := covered_compressWith h
  obtain ⟨-, rfl | ⟨rfl, hsaves⟩⟩ := cases_compressWith h
  · have hholds : (stored (chosenHeader raw config) raw).Holds raw := holds_stored rfl rfl rfl hsize
    exact iff_of_true hholds.decompress fun _ _ hcoded => absurd (isStored_stored rfl raw) hcoded
  · have hword := size_coded_lt hsize hsaves
    constructor
    · intro hread hzero hdelta _
      exact flat_of_holds_coded hcode hword (hcovered.holds hread hsize) hzero hdelta
    · intro hflat
      exact (holds_coded_of_flat hcode hsize hword fun hzero hdelta =>
        hflat hzero hdelta (not_isStored_chosenHeader raw config)).decompress

/-- A chunk of a byte string below four gigabytes is read back, with the low byte of its element width. -/
theorem ofBytes_data_of_short (hsize : raw.size < 2 ^ 32)
    (h : compressWith code raw config = .ok c) : ofBytes c.data = .ok c.narrowed :=
  ofBytes_data_of_compressWith (hsize.trans (by decide)) h
    ((nblocks_le_of_compressWith h).1.trans_lt hsize)

/-- A chunk that is read back has its own head exactly if the element width fits its byte. -/
theorem narrowed_eq_self_iff : c.narrowed = c ↔ c.header.typesize < 256 := by
  constructor
  · intro h
    have hwidth := congrArg (fun c => c.header.typesize) h
    have hlt := Nat.mod_lt c.header.typesize (show 0 < 256 by decide)
    exact hwidth ▸ hlt
  · exact narrowed_of_lt

theorem comesBack_iff (hcode : config.codec.Restores code) (hsize : raw.size < 2 ^ 32)
    (h : compressWith code raw config = .ok c) :
    c.ComesBack raw ↔ WidthSuits config raw c.header := by
  have hparsed : ofBytes c.data = .ok c ↔ config.typesize < 256 := by
    rw [ofBytes_data_of_short hsize h, Except.ok.injEq, narrowed_eq_self_iff,
      typesize_of_compressWith h]
    omega
  have hdecompressed := decompress_compressWith_iff hcode (hsize.trans (by decide)) h
  constructor
  · rintro ⟨hparse, hread⟩
    exact ⟨hparsed.1 hparse, hdecompressed.1 hread⟩
  · rintro ⟨hbyte, hflat⟩
    exact ⟨hparsed.2 hbyte, hdecompressed.2 hflat⟩

/-- A chunk of a byte string below four gigabytes, made by the coder that comes with its codec or by any
other that the codec reads back, has a serialized form which is read; it comes back as it is, and with
what was compressed, exactly if the element width suits its head. -/
theorem compress_comesBack_iff (hsize : raw.size < 2 ^ 32) :
    (∀ c, compress raw config = .ok c →
      ofBytes c.data = .ok c.narrowed ∧ (c.ComesBack raw ↔ WidthSuits config raw c.header)) ∧
    ∀ code, config.codec.Restores code → ∀ c, compressWith code raw config = .ok c →
      ofBytes c.data = .ok c.narrowed ∧
        (c.ComesBack raw ↔ WidthSuits config raw c.header) := by
  have hcoder (code : Bytes → Bytes) (hcode : config.codec.Restores code) (c : Chunk)
      (h : compressWith code raw config = .ok c) :
      ofBytes c.data = .ok c.narrowed ∧ (c.ComesBack raw ↔ WidthSuits config raw c.header) :=
    ⟨ofBytes_data_of_short hsize h, comesBack_iff hcode hsize h⟩
  exact ⟨hcoder _ config.codec.decompress_compress, hcoder⟩

/-- The greatest element width that comes back, and the next one. -/
theorem compress_comesBack_byte :
    (∃ c, compress #[7] { codec := .noop, typesize := 255 } = .ok c ∧ c.ComesBack #[7]) ∧
      ∃ c, compress #[7] { codec := .noop, typesize := 256 } = .ok c ∧ ¬ c.ComesBack #[7] := by
  have hmade (typesize : Nat) :
      ∃ c, compress #[7] { codec := .noop, typesize } = .ok c :=
    exists_compress_eq_ok (by simp [chosenBlockSize, effectiveBlockSize])
  obtain ⟨c, hc⟩ := hmade 255
  obtain ⟨c', hc'⟩ := hmade 256
  have hiff := ((compress_comesBack_iff (by decide)).1 c hc).2
  have hiff' := ((compress_comesBack_iff (by decide)).1 c' hc').2
  refine ⟨⟨c, hc, hiff.2 ⟨by decide, ?_⟩⟩, c', hc', fun hback => ?_⟩
  · intro hzero
    cases hzero
  · exact absurd (hiff'.1 hback).byte (by decide)

/-- One byte under an element width of 256 is compressed, and its chunk is read back with an element
width of zero. -/
theorem compress_not_read_back :
    ∃ c c', compress #[7] { codec := .noop, typesize := 256 } = .ok c ∧ ofBytes c.data = .ok c' ∧
      c' ≠ c ∧ c'.header.typesize = 0 ∧ c.header.typesize = 256 := by
  refine ⟨_, _, rfl, rfl, ?_, rfl, rfl⟩
  decide +kernel

end ChunkedArray.Chunk
