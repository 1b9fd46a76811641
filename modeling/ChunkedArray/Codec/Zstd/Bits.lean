import ChunkedArray.Bytes

/-!
# Backward bit streams

The codes of a compressed block form a stream that is read from its last byte to its first, the high
bits of a byte before its low bits. The highest set bit of the last byte marks the start and is not
part of the stream. Here a stream is the list of its bits in reading order.
-/

namespace ChunkedArray.Zstd

/-- The bits of the `width` low places of a number, the highest first. -/
def bitsOf (width n : Nat) : List Bool :=
  (List.range width).reverse.map n.testBit

/-- The number with the given bits, the highest first. -/
def ofBits (bits : List Bool) : Nat :=
  bits.foldl (fun n b => 2 * n + b.toNat) 0

/-- Takes a number of `width` bits off the front of a stream. -/
def takeBits (width : Nat) (bits : List Bool) : Option (Nat × List Bool) :=
  let taken := bits.take width
  if taken.length = width then some (ofBits taken, bits.drop width) else none

/-- Unpacks a stream from its bytes. -/
def unpackBits (b : Bytes) : Option (List Bool) :=
  match (b.back?.getD 0).toNat with
  | 0 => none
  | _ =>
    match (b.toList.reverse.flatMap fun x => bitsOf 8 x.toNat).dropWhile (! ·) with
    | _ :: bits => some bits
    | [] => none

/-- Groups bits by eight from the end of the stream on, padding the last group with zeros. -/
def packFrom (done : Bytes) : (fuel : Nat) → List Bool → Bytes
  | 0, _ => done
  | fuel + 1, bits =>
    if bits.isEmpty then done
    else packFrom (done.push (UInt8.ofNat (ofBits (bits.take 8).reverse))) fuel (bits.drop 8)

/-- Packs a stream into bytes, with the mark in front of its first bit. -/
def packBits (bits : List Bool) : Bytes :=
  let marked := (true :: bits).reverse
  packFrom #[] marked.length marked

end ChunkedArray.Zstd
