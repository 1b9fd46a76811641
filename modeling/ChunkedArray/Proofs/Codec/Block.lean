import ChunkedArray.Proofs.Codec.Filters
import ChunkedArray.Proofs.Codec.Zstd

/-!
# Blocks read back

A coded block decodes to its content if the reader knows the element width, the mask and the length
of the content. A block that decodes at all has the length that was expected of it.
-/

namespace ChunkedArray

namespace CodecId

/-- The reader of a codec takes back whatever a coder makes of a block. Nothing else is relied on, so
coders that search for matches in other ways, or at other levels, all serve. -/
def Restores (codec : CodecId) (code : Bytes → Bytes) : Prop :=
  ∀ b, codec.decompress (code b) b.size = .ok b

/-- A codec restores what it coded. -/
theorem decompress_compress (codec : CodecId) (b : Bytes) :
    codec.decompress (codec.compress b) b.size = .ok b := by
  cases codec with
  | zstd => simp [decompress, compress, Zstd.decode_encode]
  | noop => simp [decompress, compress]

/-- A codec gives the expected length or nothing. -/
theorem size_of_decompress_eq_ok {codec : CodecId} {b content : Bytes} {expected : Nat}
    (h : codec.decompress b expected = .ok content) : content.size = expected := by
  cases codec with
  | zstd =>
    simp only [decompress] at h
    cases hdecode : Zstd.decode b with
    | none => simp [hdecode] at h
    | some inner =>
      simp only [hdecode] at h
      by_cases hsize : inner.size = expected
      · rw [if_pos hsize] at h
        cases h
        exact hsize
      · rw [if_neg hsize] at h
        cases h
  | noop =>
    simp only [decompress] at h
    by_cases hsize : b.size = expected
    · rw [if_pos hsize] at h
      cases h
      exact hsize
    · rw [if_neg hsize] at h
      cases h

end CodecId

namespace Block

/-- Filters one block and hands it to a coder. -/
def encodeWith (code : Bytes → Bytes) (typesize : Nat) (mask : UInt8) (b : Bytes) : Bytes :=
  code ((Filter.ofMask mask).foldl (fun b f => f.apply typesize b) b)

/-- A block is restored from what a coder made of it. -/
theorem decode_encodeWith {codec : CodecId} {code : Bytes → Bytes} (hcode : codec.Restores code)
    (typesize : Nat) (mask : UInt8) (b : Bytes) :
    decode codec typesize mask b.size (encodeWith code typesize mask b) = .ok b := by
  have hfilters := Filter.reversible_foldl typesize (Filter.ofMask mask)
  have hcodec := hcode ((Filter.ofMask mask).foldl (fun b f => f.apply typesize b) b)
  rw [hfilters.size_encode] at hcodec
  rw [decode, encodeWith, hcodec]
  exact congrArg Except.ok (hfilters.decode_encode b)

/-- A block is restored from its coded form. -/
theorem decode_encode (codec : CodecId) (typesize : Nat) (mask : UInt8) (b : Bytes) :
    decode codec typesize mask b.size (encode codec typesize mask b) = .ok b :=
  decode_encodeWith codec.decompress_compress typesize mask b

/-- A block whose elements had no width when it was coded is read as one of single bytes. It is restored
exactly if there are no differences to undo. -/
theorem decode_one_encodeWith_zero_iff {codec : CodecId} {code : Bytes → Bytes}
    (hcode : codec.Restores code) (mask : UInt8) (b : Bytes) :
    decode codec 1 mask b.size (encodeWith code 0 mask b) = .ok b ↔
      (.delta ∈ Filter.ofMask mask → XorDelta.Flat b) := by
  rw [encodeWith, Filter.foldl_apply_zero, decode, hcode b, ← Filter.foldl_undo_one_eq_self_iff]
  exact ⟨Except.ok.inj, congrArg Except.ok⟩

/-- A block that decodes has the expected length. -/
theorem size_of_decode_eq_ok {codec : CodecId} {typesize expected : Nat} {mask : UInt8}
    {b content : Bytes} (h : decode codec typesize mask expected b = .ok content) :
    content.size = expected := by
  rw [decode] at h
  cases hcodec : codec.decompress b expected with
  | error fault =>
    rw [hcodec] at h
    cases h
  | ok inner =>
    rw [hcodec] at h
    cases h
    have hfilters := Filter.reversible_foldl typesize (Filter.ofMask mask)
    exact (hfilters.size_decode inner).trans (CodecId.size_of_decompress_eq_ok hcodec)

end Block

end ChunkedArray
