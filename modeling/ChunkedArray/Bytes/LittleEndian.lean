import ChunkedArray.Bytes

/-!
# Little-endian numbers

Every multi-byte number of the format is written least significant byte first, in a fixed width.
`ofNat` writes the low bytes of a number, `toNat` reads a byte string, and `readAt` reads a number
in place. Reading undoes writing up to the width (`toNat_ofNat`).
-/

namespace ChunkedArray.LittleEndian

/-- The `width` low bytes of `n`, least significant first. -/
def ofNat : (width : Nat) → (n : Nat) → List UInt8
  | 0, _ => []
  | width + 1, n => UInt8.ofNat (n % 256) :: ofNat width (n / 256)

/-- The number whose bytes are given, least significant first. -/
def toNat : List UInt8 → Nat
  | [] => 0
  | b :: rest => b.toNat + 256 * toNat rest

/-- The number written at `pos` in `width` bytes; bytes beyond the end read as zero. -/
def readAt (b : Bytes) (pos : Nat) : (width : Nat) → Nat
  | 0 => 0
  | width + 1 => (b.getD pos 0).toNat + 256 * readAt b (pos + 1) width

/-- A number as a byte string of the given width. -/
def bytes (width n : Nat) : Bytes :=
  (ofNat width n).toArray

@[simp] theorem length_ofNat (width n : Nat) : (ofNat width n).length = width := by
  induction width generalizing n with
  | zero => rfl
  | succ width ih => simp [ofNat, ih]

@[simp] theorem size_bytes (width n : Nat) : (bytes width n).size = width := by
  simp [bytes]

/-- Reading back gives the number modulo the width. -/
theorem toNat_ofNat (width n : Nat) : toNat (ofNat width n) = n % 256 ^ width := by
  induction width generalizing n with
  | zero => simp [ofNat, toNat, Nat.mod_one]
  | succ width ih =>
    have h : (UInt8.ofNat (n % 256)).toNat = n % 256 := by simp
    rw [ofNat, toNat, ih, h, Nat.pow_succ, Nat.mul_comm (256 ^ width) 256, Nat.mod_mul]

end ChunkedArray.LittleEndian
