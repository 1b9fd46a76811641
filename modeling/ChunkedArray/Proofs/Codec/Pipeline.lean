import ChunkedArray.Proofs.Codec.Block
import ChunkedArray.Proofs.Codec.InPlace

/-!
# The filter pipeline

The filters stand around a codec of which they know two functions. A codec that gives back the blocks it
was given gives them back through any filters (`BlockCodec.decode_of_encode_eq_ok`), since these are undone
(`Filter.reversible_foldl`); nothing else about the codec matters.
-/

namespace ChunkedArray

/-- A codec as the filters see it: it codes a block at a level, and restores it if it is told how long the
block was. Both may fail. -/
structure BlockCodec (ε : Type) where
  /-- Codes a block. -/
  compress (block : Bytes) (level : UInt8) : Except ε Bytes
  /-- Restores a block of `expected` bytes. -/
  decompress (coded : Bytes) (expected : Nat) : Except ε Bytes

namespace BlockCodec

variable {ε : Type} {codec : BlockCodec ε} {typesize : Nat} {level mask : UInt8} {b coded : Bytes}

/-- The blocks that a codec codes are those that it restores. -/
def Lossless (codec : BlockCodec ε) : Prop :=
  ∀ block level coded, codec.compress block level = .ok coded →
    codec.decompress coded block.size = .ok block

/-- Filters and codes one block. -/
def encode (codec : BlockCodec ε) (typesize : Nat) (level mask : UInt8) (b : Bytes) : Except ε Bytes :=
  codec.compress ((Filter.ofMask mask).foldl (fun b f => f.apply typesize b) b) level

/-- Restores one block and undoes its filters. -/
def decode (codec : BlockCodec ε) (typesize : Nat) (mask : UInt8) (expected : Nat) (coded : Bytes) :
    Except ε Bytes := do
  let b ← codec.decompress coded expected
  pure ((Filter.ofMask mask).reverse.foldl (fun b f => f.undo typesize b) b)

/-- A codec of the format, at whatever level. -/
def ofId (id : CodecId) : BlockCodec CodecFault where
  compress block _ := .ok (id.compress block)
  decompress coded expected := id.decompress coded expected

theorem lossless_ofId (id : CodecId) : (ofId id).Lossless := by
  rintro block level _ ⟨⟩
  exact id.decompress_compress block

/-- What is coded is restored, whatever the filters. -/
theorem decode_of_encode_eq_ok (hcodec : codec.Lossless)
    (h : codec.encode typesize level mask b = .ok coded) :
    codec.decode typesize mask b.size coded = .ok b := by
  have hfilters := Filter.reversible_foldl typesize (Filter.ofMask mask)
  have hrestored := hcodec _ level coded h
  rw [hfilters.size_encode] at hrestored
  rw [decode, hrestored]
  exact congrArg Except.ok (hfilters.decode_encode b)

/-- At every element width both filters, and the filters of every mask one after the other, are bijections
that keep the length of a block and the bytes behind its last whole element. The loops that take and undo
the differences in place give the same bytes, over words as over bytes. A codec that restores what it codes
restores it through the filters of the mask, and the codecs of the format do. -/
theorem pipeline_reversible (typesize : Nat) (mask : UInt8) :
    Reversible typesize (Shuffle.encode typesize) (Shuffle.decode typesize) ∧
    Reversible typesize (XorDelta.encode typesize) (XorDelta.decode typesize) ∧
    Reversible typesize (fun b => (Filter.ofMask mask).foldl (fun b f => f.apply typesize b) b)
      (fun b => (Filter.ofMask mask).reverse.foldl (fun b f => f.undo typesize b) b) ∧
    (∀ aligned b, XorDelta.encodeInPlace aligned typesize b = XorDelta.encode typesize b ∧
      XorDelta.decodeInPlace aligned typesize b = XorDelta.decode typesize b) ∧
    (∀ b, XorDelta.encodeWords b = XorDelta.encode 8 b ∧
      XorDelta.decodeWords b = XorDelta.decode 8 b) ∧
    (∀ (ε : Type) (codec : BlockCodec ε), codec.Lossless → ∀ level b coded,
      codec.encode typesize level mask b = .ok coded →
        codec.decode typesize mask b.size coded = .ok b) ∧
    ∀ id b, Block.decode id typesize mask b.size (Block.encode id typesize mask b) = .ok b := by
  refine ⟨Shuffle.reversible typesize, XorDelta.reversible typesize,
    Filter.reversible_foldl typesize _, fun aligned b => ⟨?_, ?_⟩, fun b => ⟨?_, ?_⟩,
    fun ε codec hcodec level b coded h => decode_of_encode_eq_ok hcodec h, fun id b => ?_⟩
  · exact XorDelta.encodeInPlace_eq aligned typesize b
  · exact XorDelta.decodeInPlace_eq aligned typesize b
  · exact XorDelta.encodeWords_eq b
  · exact XorDelta.decodeWords_eq b
  · have hcoded : (ofId id).encode typesize 0 mask b = .ok (Block.encode id typesize mask b) := rfl
    exact decode_of_encode_eq_ok (lossless_ofId id) hcoded

/-- Two elements of three bytes and two bytes behind them, through both filters. -/
theorem pipeline_reversible_three :
    (ofId .noop).Lossless ∧
      (ofId .noop).encode 3 5 3 #[1, 2, 3, 4, 5, 6, 7, 8] = .ok #[1, 5, 2, 7, 3, 5, 7, 8] ∧
      (ofId .noop).decode 3 3 8 #[1, 5, 2, 7, 3, 5, 7, 8] = .ok #[1, 2, 3, 4, 5, 6, 7, 8] := by
  obtain ⟨-, -, -, -, -, hcodec, -⟩ := pipeline_reversible 3 3
  have hcoded : (ofId .noop).encode 3 5 3 #[1, 2, 3, 4, 5, 6, 7, 8] = .ok #[1, 5, 2, 7, 3, 5, 7, 8] := rfl
  exact ⟨lossless_ofId .noop, hcoded, hcodec _ (ofId .noop) (lossless_ofId .noop) 5 _ _ hcoded⟩

end BlockCodec

end ChunkedArray
