import ChunkedArray.Codec.Config
import ChunkedArray.Codec.Shuffle
import ChunkedArray.Codec.XorDelta
import ChunkedArray.Codec.Zstd.Frame

/-!
# Blocks

A block passes through the filters of its chunk and then through the codec; reading passes through
the same steps in reverse. A codec refuses a stored block whose content has another length than
expected.
-/

namespace ChunkedArray

namespace Filter

/-- Applies a filter. -/
def apply (typesize : Nat) (b : Bytes) : Filter → Bytes
  | shuffle => Shuffle.encode typesize b
  | delta => XorDelta.encode typesize b

/-- Undoes a filter. -/
def undo (typesize : Nat) (b : Bytes) : Filter → Bytes
  | shuffle => Shuffle.decode typesize b
  | delta => XorDelta.decode typesize b

end Filter

namespace CodecId

/-- Codes one block. -/
def compress (b : Bytes) : CodecId → Bytes
  | zstd => Zstd.encode b
  | noop => b

/-- Decodes one block whose content has `expected` bytes. -/
def decompress (b : Bytes) (expected : Nat) : CodecId → Except CodecFault Bytes
  | zstd =>
    match Zstd.decode b with
    | none => .error .malformed
    | some content =>
      if content.size = expected then .ok content
      else .error (.contentLength expected content.size)
  | noop => if b.size = expected then .ok b else .error (.storedLength b.size expected)

end CodecId

namespace Block

/-- Filters and codes one block. -/
def encode (codec : CodecId) (typesize : Nat) (mask : UInt8) (b : Bytes) : Bytes :=
  codec.compress ((Filter.ofMask mask).foldl (fun b f => f.apply typesize b) b)

/-- Decodes one block and undoes its filters. -/
def decode (codec : CodecId) (typesize : Nat) (mask : UInt8) (expected : Nat) (b : Bytes) :
    Except CodecFault Bytes := do
  let b ← codec.decompress b expected
  pure ((Filter.ofMask mask).reverse.foldl (fun b f => f.undo typesize b) b)

end Block

end ChunkedArray
