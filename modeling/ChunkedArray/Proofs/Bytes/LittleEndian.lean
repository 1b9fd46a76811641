import ChunkedArray.Bytes.LittleEndian
import ChunkedArray.Proofs.Bytes.Copy

/-!
# Numbers in place

A number read in place depends on the bytes of its field alone, so a number that was written into a
longer string reads back there, as far as its width holds it. Its digits to the base 256 are the bytes.
-/

namespace ChunkedArray.LittleEndian

theorem toNat_lt (text : List UInt8) : toNat text < 256 ^ text.length := by
  induction text with
  | nil => exact Nat.one_pos
  | cons x rest ih =>
    have hbyte := x.toNat_lt
    rw [toNat, List.length_cons, Nat.pow_succ]
    omega

/-- A number fits the width in which it is read. -/
theorem readAt_lt (b : Bytes) (pos width : Nat) : readAt b pos width < 256 ^ width := by
  induction width generalizing pos with
  | zero => exact Nat.one_pos
  | succ width ih =>
    have hbyte := (b.getD pos 0).toNat_lt
    have hrest := ih (pos + 1)
    rw [readAt, Nat.pow_succ]
    omega

/-- A number read in place depends on the bytes of its field. -/
theorem readAt_congr {a b : Bytes} {p q width : Nat}
    (h : ∀ i < width, a.getD (p + i) 0 = b.getD (q + i) 0) : readAt a p width = readAt b q width := by
  induction width generalizing p q with
  | zero => rfl
  | succ width ih =>
    have hfirst : a.getD p 0 = b.getD q 0 := h 0 (Nat.zero_lt_succ width)
    have hrest : readAt a (p + 1) width = readAt b (q + 1) width := by
      refine ih fun i hi => ?_
      rw [Nat.add_right_comm p, Nat.add_right_comm q]
      exact h (i + 1) (Nat.succ_lt_succ hi)
    rw [readAt, readAt, hfirst, hrest]

/-- A number behind another string is read there. -/
theorem readAt_append_right (a b : Bytes) (pos width : Nat) :
    readAt (a ++ b) (a.size + pos) width = readAt b pos width := by
  refine readAt_congr fun i _ => ?_
  rw [Bytes.getD_append, if_neg (by omega)]
  congr 1
  omega

/-- A number inside the first of two strings is read there. -/
theorem readAt_append_left (a b : Bytes) {pos width : Nat} (h : pos + width ≤ a.size) :
    readAt (a ++ b) pos width = readAt a pos width := by
  refine readAt_congr fun i hi => ?_
  rw [Bytes.getD_append, if_pos (by omega)]

/-- The bytes of a list spell the number that is read in their place. -/
theorem readAt_toArray (front bytes : List UInt8) :
    readAt (front ++ bytes).toArray front.length bytes.length = toNat bytes := by
  induction bytes generalizing front with
  | nil => rfl
  | cons x rest ih =>
    have hx : (front ++ x :: rest).toArray.getD front.length 0 = x := by
      simp [Array.getD_eq_getD_getElem?]
    have hrest := ih (front ++ [x])
    rw [List.append_assoc, List.singleton_append, List.length_append, List.length_singleton]
      at hrest
    rw [List.length_cons, readAt, hx, hrest, toNat]

/-- A written number reads back up to its width. -/
theorem readAt_bytes (width n : Nat) : readAt (bytes width n) 0 width = n % 256 ^ width := by
  have h := readAt_toArray [] (ofNat width n)
  rwa [List.nil_append, List.length_nil, length_ofNat, toNat_ofNat] at h

/-- A number written between two strings reads back up to its width. -/
theorem readAt_append_bytes (a b : Bytes) (width n : Nat) :
    readAt (a ++ (bytes width n ++ b)) a.size width = n % 256 ^ width := by
  have hright := readAt_append_right a (bytes width n ++ b) 0 width
  rw [Nat.add_zero] at hright
  rw [hright, readAt_append_left _ _ (by simp), readAt_bytes]

/-! ## Digits -/

/-- The bytes of a number are its digits to the base 256. -/
theorem getElem?_ofNat {width k : Nat} (hk : k < width) (n : Nat) :
    (ofNat width n)[k]? = some (UInt8.ofNat (n / 256 ^ k)) := by
  induction width generalizing k n with
  | zero => cases hk
  | succ width ih =>
    cases k with
    | zero =>
      have hbyte : UInt8.ofNat (n % 256) = UInt8.ofNat n := UInt8.toNat_inj.1 (by simp)
      rw [ofNat, List.getElem?_cons_zero, hbyte, Nat.pow_zero, Nat.div_one]
    | succ k =>
      rw [ofNat, List.getElem?_cons_succ, ih (Nat.lt_of_succ_lt_succ hk), Nat.div_div_eq_div_mul,
        Nat.pow_succ, Nat.mul_comm 256]

/-- The digits of a number read in place are the bytes of its field. -/
theorem ofNat_readAt_div (b : Bytes) (pos : Nat) {width k : Nat} (hk : k < width) :
    UInt8.ofNat (readAt b pos width / 256 ^ k) = b.getD (pos + k) 0 := by
  induction width generalizing k pos with
  | zero => cases hk
  | succ width ih =>
    have hbyte := (b.getD pos 0).toNat_lt
    cases k with
    | zero =>
      refine UInt8.toNat_inj.1 ?_
      rw [Nat.add_zero pos, readAt, Nat.pow_zero, Nat.div_one, UInt8.toNat_ofNat']
      omega
    | succ k =>
      have hrest : readAt b pos (width + 1) / 256 = readAt b (pos + 1) width := by
        rw [readAt]
        omega
      rw [Nat.pow_succ, Nat.mul_comm, ← Nat.div_div_eq_div_mul, hrest,
        ih (pos + 1) (Nat.lt_of_succ_lt_succ hk)]
      congr 1
      omega

/-- Only the bytes that fit are written. -/
theorem ofNat_mod (width n : Nat) : ofNat width (n % 256 ^ width) = ofNat width n := by
  induction width generalizing n with
  | zero => rfl
  | succ width ih =>
    have hfirst : n % 256 ^ (width + 1) % 256 = n % 256 :=
      Nat.mod_mod_of_dvd n (Dvd.intro_left _ rfl)
    have hrest : n % 256 ^ (width + 1) / 256 = n / 256 % 256 ^ width := by
      rw [Nat.pow_succ, Nat.mul_comm, Nat.mod_mul_right_div_self]
    rw [ofNat, ofNat, hfirst, hrest, ih]

theorem bytes_mod (width n : Nat) : bytes width (n % 256 ^ width) = bytes width n := by
  rw [bytes, bytes, ofNat_mod]

/-- A number read in place is spelled by the bytes of its field. -/
theorem getD_bytes_readAt (b : Bytes) (pos : Nat) {width k : Nat} (hk : k < width) :
    (bytes width (readAt b pos width)).getD k 0 = b.getD (pos + k) 0 := by
  rw [bytes, Array.getD_eq_getD_getElem?, List.getElem?_toArray, getElem?_ofNat hk,
    ofNat_readAt_div b pos hk]
  rfl

end ChunkedArray.LittleEndian
