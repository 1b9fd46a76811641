import ChunkedArray.Proofs.Chunk.Compress
import ChunkedArray.Proofs.Codec.Config

/-!
# Lossless chunks

Below four GiB every byte string is compressed under every valid configuration, and the chunk gives it
back along each way of reading: whole, into a buffer, and by range. A buffer of another length and a
range that leaves the chunk are refused. Of the codec only this much is used, that its reader takes
back what its coder made of a block.
-/

namespace ChunkedArray.Chunk

variable {c : Chunk} {raw : Bytes} {config : CodecConfig}

/-- A chunk gives back a byte string along each way of reading it, and nothing else. -/
structure Lossless (c : Chunk) (raw : Bytes) : Prop where
  whole : c.decompress = .ok raw
  into : c.decompressInto raw.size = .ok raw
  into_of_ne : ∀ length, length ≠ raw.size →
    c.decompressInto length = .error (.shape (.outputLength length raw.size))
  range : ∀ start length, start + length ≤ raw.size →
    c.decompressRange start length = .ok (raw.slice start length)
  range_of_lt : ∀ start length, raw.size < start + length →
    c.decompressRange start length =
      .error (.index (.chunkRange start (saturatingAdd start length) raw.size))

/-- A chunk that holds a byte string gives it back, and refuses all other lengths and ranges. -/
theorem Holds.lossless (h : c.Holds raw) : c.Lossless raw := by
  constructor
  · exact h.decompress
  · rw [decompressInto, if_neg (not_not_intro h.nbytes.symm), h.decompress]
  · intro length hlength
    rw [decompressInto, h.nbytes, if_pos hlength]
  · intro start length hinside
    exact h.decompressRange hinside
  · intro start length hbeyond
    rw [Chunk.decompressRange, h.nbytes]
    exact if_pos (.inr hbeyond)

/-- The block that is rounded to whole elements is no longer than the chunk or one element. -/
theorem chosenBlockSize_lt (hsize : raw.size < 2 ^ 32) (htypesize : config.typesize < 2 ^ 32) :
    chosenBlockSize raw.size config < 2 ^ 32 := by
  rw [chosenBlockSize, effectiveBlockSize]
  split
  · omega
  · rename_i hblock
    have hle := Nat.div_mul_le_self config.blockSize (max config.typesize 1)
    omega

/-- Every byte string below four GiB is compressed without loss, under every valid configuration and
by whatever coder the codec reads back; the one that comes with the codec is such a coder. -/
theorem compress_lossless (hsize : raw.size < 2 ^ 32) (hvalid : config.validate = .ok ()) :
    (∃ c, compress raw config = .ok c ∧ c.Lossless raw) ∧
      ∀ code, config.codec.Restores code →
        ∃ c, compressWith code raw config = .ok c ∧ c.Lossless raw := by
  obtain ⟨-, hpos, hle⟩ := CodecConfig.validate_eq_ok_iff.1 hvalid
  have hblock : chosenBlockSize raw.size config < 2 ^ 32 := chosenBlockSize_lt hsize (by omega)
  have hcoder (code : Bytes → Bytes) (hcode : config.codec.Restores code) :
      ∃ c, compressWith code raw config = .ok c ∧ c.Lossless raw := by
    obtain ⟨c, hc, hholds⟩ := exists_compressWith_holds hcode hpos (by omega) hblock
    exact ⟨c, hc, hholds.lossless⟩
  refine ⟨?_, hcoder⟩
  rw [← compressWith_compress]
  exact hcoder _ config.codec.decompress_compress

/-- A chunk of six bytes in blocks of four, though five were asked for, under both filters. -/
theorem compress_lossless_six_bytes :
    let config : CodecConfig :=
      { level := 9, filters := [.shuffle, .delta], blockSize := 5, typesize := 4 }
    (∃ c, compress #[1, 2, 3, 4, 5, 6] config = .ok c ∧ c.Lossless #[1, 2, 3, 4, 5, 6]) ∧
      ∀ code, CodecId.zstd.Restores code →
        ∃ c, compressWith code #[1, 2, 3, 4, 5, 6] config = .ok c ∧
          c.Lossless #[1, 2, 3, 4, 5, 6] :=
  compress_lossless (by decide) rfl

end ChunkedArray.Chunk
