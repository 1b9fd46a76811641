import ChunkedArray.Arithmetic

/-!
# Byte strings

A byte string is an array of octets. Besides the array operations of the core library the
format needs three of its own: a slice by position and length, a run of zero bytes, and a copy
of a stretch of one string over a stretch of another. All three are total: positions outside a
string read as nothing and are never written.
-/

namespace ChunkedArray

/-- A string of octets. -/
abbrev Bytes := Array UInt8

namespace Bytes

/-- The `len` bytes from position `start` on; fewer where the string ends before. -/
def slice (b : Bytes) (start len : Nat) : Bytes :=
  b.extract start (start + len)

/-- A run of `n` zero bytes. -/
def zeros (n : Nat) : Bytes :=
  Array.replicate n 0

/-- Overwrites `dst` from `pos` on with `len` bytes of `src` from `start` on. -/
def blit (dst : Bytes) (pos : Nat) (src : Bytes) (start : Nat) : (len : Nat) → Bytes
  | 0 => dst
  | len + 1 => blit (dst.setIfInBounds pos (src.getD start 0)) (pos + 1) src (start + 1) len

/-- Joins byte strings in order. -/
def concat (parts : List Bytes) : Bytes :=
  parts.foldl (· ++ ·) #[]

/-- Overwrites a byte string with another from a position on, lengthening it if needed; a negative
position counts from the end. -/
def overwrite (b : Bytes) (position : Int) (src : Bytes) : Bytes :=
  let pos := (if position < 0 then b.size + position else position).toNat
  blit (b ++ zeros (pos + src.size - b.size)) pos src 0 src.size

@[simp] theorem size_zeros (n : Nat) : (zeros n).size = n := by simp [zeros]

theorem size_slice (b : Bytes) (start len : Nat) :
    (slice b start len).size = min (start + len) b.size - start := by
  simp [slice]

@[simp] theorem size_blit (dst : Bytes) (pos : Nat) (src : Bytes) (start len : Nat) :
    (blit dst pos src start len).size = dst.size := by
  induction len generalizing dst pos start with
  | zero => rfl
  | succ len ih => simp [blit, ih]

/-- A copy changes exactly the covered positions, and there it shows the source. -/
theorem getElem?_blit (dst : Bytes) (pos : Nat) (src : Bytes) (start len i : Nat)
    (hi : i < dst.size) :
    (blit dst pos src start len)[i]? =
      if pos ≤ i ∧ i < pos + len then some (src.getD (start + (i - pos)) 0) else dst[i]? := by
  induction len generalizing dst pos start with
  | zero =>
    rw [blit, if_neg (by omega)]
  | succ len ih =>
    rw [blit, ih _ _ _ (by simpa using hi)]
    by_cases h : pos = i
    · subst h
      rw [if_neg (by omega), if_pos (by omega), Array.getElem?_setIfInBounds_self_of_lt hi]
      simp
    · by_cases h' : pos + 1 ≤ i ∧ i < pos + 1 + len
      · have h'' : pos ≤ i ∧ i < pos + (len + 1) := by omega
        rw [if_pos h', if_pos h'']
        congr 2
        omega
      · have h'' : ¬ (pos ≤ i ∧ i < pos + (len + 1)) := by omega
        rw [if_neg h', if_neg h'', Array.getElem?_setIfInBounds_ne h]

end Bytes

end ChunkedArray
