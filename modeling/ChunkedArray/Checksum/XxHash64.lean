import ChunkedArray.Bytes.LittleEndian

/-!
# XXH64

The 64-bit hash with seed zero that a compressed frame may carry as its content checksum. Stripes
of 32 bytes feed four lanes; the lanes are merged, the remaining bytes are mixed in eight, four and
one at a time, and a final avalanche spreads the bits.
-/

namespace ChunkedArray.XxHash64

/-- The first of the five mixing primes. -/
def prime1 : UInt64 := 0x9e3779b185ebca87
/-- The second mixing prime. -/
def prime2 : UInt64 := 0xc2b2ae3d27d4eb4f
/-- The third mixing prime. -/
def prime3 : UInt64 := 0x165667b19e3779f9
/-- The fourth mixing prime. -/
def prime4 : UInt64 := 0x85ebca77c2b2ae63
/-- The fifth mixing prime. -/
def prime5 : UInt64 := 0x27d4eb2f165667c5

/-- Rotates a word left by `r` bits, `0 < r < 64`. -/
def rotl (x : UInt64) (r : UInt64) : UInt64 :=
  (x <<< r) ||| (x >>> (64 - r))

/-- Feeds one word of input into a lane. -/
def round (lane input : UInt64) : UInt64 :=
  rotl (lane + input * prime2) 31 * prime1

/-- Folds a finished lane into the merged state. -/
def merge (acc lane : UInt64) : UInt64 :=
  (acc ^^^ round 0 lane) * prime1 + prime4

/-- The eight bytes at `pos` as a word. -/
def wordAt (b : Bytes) (pos : Nat) : UInt64 :=
  UInt64.ofNat (LittleEndian.readAt b pos 8)

/-- Runs the four lanes over `stripes` stripes from `pos` on and merges them. -/
def lanes (b : Bytes) (pos : Nat) (a₁ a₂ a₃ a₄ : UInt64) : (stripes : Nat) → UInt64
  | 0 =>
    let acc := rotl a₁ 1 + rotl a₂ 7 + rotl a₃ 12 + rotl a₄ 18
    merge (merge (merge (merge acc a₁) a₂) a₃) a₄
  | n + 1 =>
    lanes b (pos + 32) (round a₁ (wordAt b pos)) (round a₂ (wordAt b (pos + 8)))
      (round a₃ (wordAt b (pos + 16))) (round a₄ (wordAt b (pos + 24))) n

/-- Mixes in `n` words of eight bytes from `pos` on. -/
def mixWords (b : Bytes) (pos : Nat) (acc : UInt64) : (n : Nat) → UInt64
  | 0 => acc
  | n + 1 =>
    mixWords b (pos + 8) (rotl (acc ^^^ round 0 (wordAt b pos)) 27 * prime1 + prime4) n

/-- Mixes in a half word of four bytes at `pos`. -/
def mixHalf (b : Bytes) (pos : Nat) (acc : UInt64) : UInt64 :=
  rotl (acc ^^^ (UInt64.ofNat (LittleEndian.readAt b pos 4) * prime1)) 23 * prime2 + prime3

/-- Mixes in `n` single bytes from `pos` on. -/
def mixBytes (b : Bytes) (pos : Nat) (acc : UInt64) : (n : Nat) → UInt64
  | 0 => acc
  | n + 1 =>
    mixBytes b (pos + 1) (rotl (acc ^^^ ((b.getD pos 0).toUInt64 * prime5)) 11 * prime1) n

/-- Spreads every bit of the state over the whole word. -/
def avalanche (acc : UInt64) : UInt64 :=
  let acc := (acc ^^^ (acc >>> 33)) * prime2
  let acc := (acc ^^^ (acc >>> 29)) * prime3
  acc ^^^ (acc >>> 32)

/-- The hash of a byte string. -/
def hash (b : Bytes) : UInt64 :=
  let start :=
    if b.size ≥ 32 then lanes b 0 (prime1 + prime2) prime2 0 (0 - prime1) (b.size / 32) else prime5
  let acc := start + UInt64.ofNat b.size
  let pos := b.size / 32 * 32
  let acc := mixWords b pos acc ((b.size - pos) / 8)
  let pos := pos + (b.size - pos) / 8 * 8
  let (acc, pos) := if b.size - pos ≥ 4 then (mixHalf b pos acc, pos + 4) else (acc, pos)
  avalanche (mixBytes b pos acc (b.size - pos))

end ChunkedArray.XxHash64
