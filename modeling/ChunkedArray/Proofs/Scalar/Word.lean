import ChunkedArray.Arithmetic
import ChunkedArray.Scalar.Kind
import Mathlib.Data.Int.Bitwise
import Mathlib.Data.Int.ModEq
import Mathlib.Data.Rat.Floor

/-!
# Words and integers

A word of any width stands for an integer, read with or without a sign. Every integer is congruent,
modulo the number of words, to that of exactly one word; `BitVec.ofInt` finds it. An operator of words
that rounds or looks at a sign is right if it gives the word of what exact arithmetic makes of the
integers of its operands: this is shown of division rounded down, of its remainder and of the
magnitude, and of the bitwise operators, which exact arithmetic applies to integers with infinitely
many bits.
-/

namespace ChunkedArray

namespace Word

variable {width : Nat} {signed : Bool} {x y : BitVec width}

/-- The integer that a word stands for. -/
def integer (signed : Bool) (x : BitVec width) : Int :=
  if signed then x.toInt else x.toNat

/-- The quotient rounded down; a zero divisor gives zero. -/
def floorDiv (signed : Bool) (x y : BitVec width) : BitVec width :=
  if y = 0 then 0
  else if signed then
    if x.srem y ≠ 0 ∧ x.slt 0 ≠ y.slt 0 then x.sdiv y - 1 else x.sdiv y
  else x / y

/-- The remainder of the quotient rounded down; a zero divisor gives zero. -/
def floorRem (signed : Bool) (x y : BitVec width) : BitVec width :=
  if y = 0 then 0
  else if signed then
    if x.srem y ≠ 0 ∧ (x.srem y).slt 0 ≠ y.slt 0 then x.srem y + y else x.srem y
  else x % y

/-- The magnitude; the least signed word is its own. -/
def magnitude (signed : Bool) (x : BitVec width) : BitVec width :=
  if signed ∧ x.slt 0 then -x else x

@[simp] theorem integer_true (x : BitVec width) : integer true x = x.toInt := rfl

@[simp] theorem integer_false (x : BitVec width) : integer false x = x.toNat := rfl

/-- A word is the one that its integer finds. -/
@[simp] theorem ofInt_integer (signed : Bool) (x : BitVec width) :
    BitVec.ofInt width (integer signed x) = x := by
  cases signed with
  | false => rw [integer_false, BitVec.ofInt_natCast, BitVec.ofNat_toNat, BitVec.setWidth_eq]
  | true => exact BitVec.ofInt_toInt

/-- The integer of the word that an integer finds is congruent to the integer. -/
theorem integer_ofInt_modEq (signed : Bool) (n : Int) :
    integer signed (BitVec.ofInt width n) ≡ n [ZMOD 2 ^ width] := by
  cases signed with
  | false =>
    have hnonneg : 0 ≤ n % ((2 ^ width : Nat) : Int) := Int.emod_nonneg _ (by positivity)
    rw [integer_false, BitVec.toNat_ofInt, Int.toNat_of_nonneg hnonneg, Nat.cast_pow, Nat.cast_ofNat]
    exact Int.mod_modEq n _
  | true =>
    have hbmod := @Int.bmod_emod n (2 ^ width)
    rw [integer_true, BitVec.toInt_ofInt]
    exact_mod_cast hbmod

/-- The integers of a word with and without a sign are congruent. -/
theorem integer_modEq (signed signed' : Bool) (x : BitVec width) :
    integer signed x ≡ integer signed' x [ZMOD 2 ^ width] := by
  have hmod := @integer_ofInt_modEq width signed (integer signed' x)
  rwa [ofInt_integer] at hmod

theorem ofInt_sub (m n : Int) :
    BitVec.ofInt width (m - n) = BitVec.ofInt width m - BitVec.ofInt width n := by
  rw [Int.sub_eq_add_neg, BitVec.ofInt_add, BitVec.ofInt_neg, BitVec.sub_eq_add_neg]

theorem ofInt_zero : BitVec.ofInt width 0 = 0 :=
  BitVec.ofInt_ofNat width 0

theorem ofInt_one : BitVec.ofInt width 1 = 1 :=
  BitVec.ofInt_ofNat width 1

/-- The word of an integer has the bits of the integer that fit. -/
theorem getLsbD_ofInt (n : Int) (i : Nat) :
    (BitVec.ofInt width n).getLsbD i = (decide (i < width) && n.testBit i) := by
  cases n with
  | ofNat m =>
    rw [Int.ofNat_eq_natCast, BitVec.ofInt_natCast, BitVec.getLsbD_ofNat]
    rfl
  | negSucc m =>
    rw [BitVec.ofInt_negSucc_eq_not_ofNat, BitVec.getLsbD_not, BitVec.getLsbD_ofNat, Int.testBit]
    by_cases h : i < width <;> simp [h]

theorem ofInt_land (m n : Int) :
    BitVec.ofInt width (Int.land m n) = BitVec.ofInt width m &&& BitVec.ofInt width n := by
  refine BitVec.eq_of_getLsbD_eq fun i hi => ?_
  rw [BitVec.getLsbD_and, getLsbD_ofInt, getLsbD_ofInt, getLsbD_ofInt, Int.testBit_land]
  simp [hi]

theorem ofInt_lor (m n : Int) :
    BitVec.ofInt width (Int.lor m n) = BitVec.ofInt width m ||| BitVec.ofInt width n := by
  refine BitVec.eq_of_getLsbD_eq fun i hi => ?_
  rw [BitVec.getLsbD_or, getLsbD_ofInt, getLsbD_ofInt, getLsbD_ofInt, Int.testBit_lor]
  simp [hi]

theorem ofInt_xor (m n : Int) :
    BitVec.ofInt width (Int.xor m n) = BitVec.ofInt width m ^^^ BitVec.ofInt width n := by
  refine BitVec.eq_of_getLsbD_eq fun i hi => ?_
  rw [BitVec.getLsbD_xor, getLsbD_ofInt, getLsbD_ofInt, getLsbD_ofInt, Int.testBit_lxor]
  simp [hi]

/-! ## Division rounded down -/

/-- The floor of an exact quotient. -/
theorem floor_div (m n : Int) : ⌊(m : ℚ) / n⌋ = m.fdiv n := by
  obtain ⟨k, rfl | rfl⟩ := n.eq_nat_or_neg
  · rw [Int.cast_natCast, Rat.floor_intCast_div_natCast, Int.fdiv_eq_ediv_of_nonneg _ k.cast_nonneg]
  · have hneg : (m : ℚ) / ((-(k : Int) : Int) : ℚ) = ((-m : Int) : ℚ) / (k : ℚ) := by
      rw [Int.cast_neg, Int.cast_neg, Int.cast_natCast, div_neg, neg_div]
    rw [hneg, Rat.floor_intCast_div_natCast, ← Int.neg_fdiv_neg, Int.neg_neg,
      Int.fdiv_eq_ediv_of_nonneg _ k.cast_nonneg]

theorem eq_zero_iff_toInt : y = 0 ↔ y.toInt = 0 := by
  rw [← BitVec.toInt_inj, BitVec.ofNat_eq_ofNat, BitVec.toInt_zero]

theorem eq_zero_iff_integer (signed : Bool) : x = 0 ↔ integer signed x = 0 := by
  cases signed with
  | true => exact eq_zero_iff_toInt
  | false =>
    rw [integer_false, Int.natCast_eq_zero, ← BitVec.toNat_inj, BitVec.ofNat_eq_ofNat, BitVec.toNat_zero]

/-- The truncated remainder is zero exactly if the divisor divides the dividend. -/
theorem srem_eq_zero_iff : x.srem y = 0 ↔ y.toInt ∣ x.toInt := by
  rw [eq_zero_iff_toInt, BitVec.toInt_srem, Int.dvd_iff_tmod_eq_zero]

theorem slt_zero : x.slt 0 = decide (x.toInt < 0) := by
  rw [BitVec.slt_eq_decide, BitVec.ofNat_eq_ofNat, BitVec.toInt_zero]

theorem ofInt_tdiv : BitVec.ofInt width (x.toInt.tdiv y.toInt) = x.sdiv y := by
  rw [← BitVec.toInt_inj, BitVec.toInt_ofInt, BitVec.toInt_sdiv]

theorem ofInt_tmod : BitVec.ofInt width (x.toInt.tmod y.toInt) = x.srem y := by
  rw [← BitVec.toInt_inj, BitVec.toInt_ofInt, ← BitVec.toInt_srem, BitVec.toInt_bmod_cancel]

/-- Rounding down takes one from a truncated quotient that is below zero and not whole. -/
theorem fdiv_eq_tdiv {m n : Int} (hn : n ≠ 0) :
    m.fdiv n = if ¬n ∣ m ∧ decide (m < 0) ≠ decide (n < 0) then m.tdiv n - 1 else m.tdiv n := by
  rw [Int.fdiv_eq_tdiv]
  by_cases hdvd : n ∣ m
  · simp [hdvd]
  · rcases lt_or_gt_of_ne hn with hneg | hpos
    · have hsign := Int.sign_eq_neg_one_of_neg hneg
      by_cases hm : 0 ≤ m <;> simp [hdvd, hm, hneg, hsign, hneg.not_ge, not_lt]
    · have hsign := Int.sign_eq_one_of_pos hpos
      by_cases hm : 0 ≤ m <;> simp [hdvd, hm, hpos.le, hsign, hpos.not_gt, not_lt]

/-- A truncated remainder that is not zero has the sign of the dividend. -/
theorem tmod_neg_iff {m n : Int} (h : ¬n ∣ m) : m.tmod n < 0 ↔ m < 0 := by
  rw [Int.dvd_iff_tmod_eq_zero] at h
  constructor
  · intro hneg
    by_contra hm
    exact hneg.not_ge (Int.tmod_nonneg n (not_lt.1 hm))
  · intro hm
    have hnonneg := Int.tmod_nonneg n (neg_nonneg.2 hm.le)
    rw [Int.neg_tmod] at hnonneg
    omega

/-- The remainder of the quotient rounded down adds the divisor to a truncated remainder of the other
sign. -/
theorem fmod_eq_tmod {m n : Int} (hn : n ≠ 0) :
    m.fmod n =
      if ¬n ∣ m ∧ decide (m.tmod n < 0) ≠ decide (n < 0) then m.tmod n + n else m.tmod n := by
  rw [Int.fmod_def, fdiv_eq_tdiv hn]
  have htmod := Int.tmod_def m n
  by_cases hdvd : n ∣ m
  · rw [if_neg fun h => h.1 hdvd, if_neg fun h => h.1 hdvd, htmod]
  · have hsign : decide (m.tmod n < 0) = decide (m < 0) := decide_eq_decide.2 (tmod_neg_iff hdvd)
    rw [hsign]
    split
    · rw [htmod, Int.mul_sub, Int.mul_one]
      omega
    · rw [htmod]

theorem ofInt_fdiv : BitVec.ofInt width ((integer signed x).fdiv (integer signed y)) =
    floorDiv signed x y := by
  cases signed with
  | false =>
    rw [integer_false, integer_false, ← Int.ofNat_fdiv, BitVec.ofInt_natCast, floorDiv]
    split
    · next hy => rw [hy, BitVec.ofNat_eq_ofNat, BitVec.toNat_zero, Nat.div_zero]
    · rw [if_neg (by decide), ← BitVec.toNat_udiv, BitVec.ofNat_toNat, BitVec.setWidth_eq]
  | true =>
    rw [integer_true, integer_true, floorDiv]
    split
    · next hy => rw [eq_zero_iff_toInt.1 hy, Int.fdiv_zero, ofInt_zero]
    · next hy =>
      rw [if_pos rfl, fdiv_eq_tdiv (mt eq_zero_iff_toInt.2 hy)]
      simp only [ne_eq, srem_eq_zero_iff, slt_zero]
      split
      · rw [ofInt_sub, ofInt_tdiv, ofInt_one]
      · exact ofInt_tdiv

/-- The remainder that belongs to the quotient rounded down. -/
theorem ofInt_floorRem : BitVec.ofInt width (if integer signed y = 0 then 0 else
      integer signed x - integer signed y * (integer signed x).fdiv (integer signed y)) =
    floorRem signed x y := by
  rw [← Int.fmod_def]
  cases signed with
  | false =>
    rw [integer_false, integer_false, ← Int.ofNat_fmod, floorRem]
    have hzero : y = 0 ↔ (y.toNat : Int) = 0 := eq_zero_iff_integer false
    split
    · next hy => rw [if_pos (hzero.2 hy), ofInt_zero]
    · next hy =>
      rw [if_neg (mt hzero.1 hy), if_neg (by decide), BitVec.ofInt_natCast, ← BitVec.toNat_umod,
        BitVec.ofNat_toNat, BitVec.setWidth_eq]
  | true =>
    rw [integer_true, integer_true, floorRem]
    by_cases hy : y = 0
    · rw [if_pos hy, if_pos (eq_zero_iff_toInt.1 hy), ofInt_zero]
    · have hne := mt eq_zero_iff_toInt.2 hy
      rw [if_neg hy, if_neg hne, if_pos rfl, fmod_eq_tmod hne]
      simp only [ne_eq, srem_eq_zero_iff, slt_zero, BitVec.toInt_srem]
      split
      · rw [BitVec.ofInt_add, ofInt_tmod, BitVec.ofInt_toInt]
      · exact ofInt_tmod

theorem ofInt_abs : BitVec.ofInt width |integer signed x| = magnitude signed x := by
  cases signed with
  | false =>
    have hnonneg : 0 ≤ integer false x := Int.natCast_nonneg x.toNat
    rw [abs_of_nonneg hnonneg, ofInt_integer, magnitude, if_neg fun h => Bool.false_ne_true h.1]
  | true =>
    rw [integer_true, magnitude, slt_zero]
    by_cases h : x.toInt < 0
    · rw [abs_of_neg h, if_pos ⟨rfl, decide_eq_true h⟩, BitVec.ofInt_neg, BitVec.ofInt_toInt]
    · rw [abs_of_nonneg (not_lt.1 h), if_neg fun h' => h (of_decide_eq_true h'.2), BitVec.ofInt_toInt]

end Word

/-! ## Integers of a kind -/

namespace ScalarKind

/-- Whether the integers of a kind have a sign. -/
def signed (kind : ScalarKind) : Bool :=
  kind.scalarClass = .signed

/-- Whether an integer is an element of a kind; truth values count as zero and one. -/
def Contains (kind : ScalarKind) (n : Int) : Prop :=
  match kind.scalarClass with
  | .bool => n = 0 ∨ n = 1
  | .signed => -2 ^ (kind.bits - 1) ≤ n ∧ n < 2 ^ (kind.bits - 1)
  | .unsigned => 0 ≤ n ∧ n < 2 ^ kind.bits
  | .float => False

/-- An integer reduced to a kind: modulo the number of its elements into their range, or to whether it
is zero if they are truth values. Floating-point numbers are none of its business. -/
def reduce (kind : ScalarKind) (n : Int) : Int :=
  match kind.scalarClass with
  | .bool => if n = 0 then 0 else 1
  | .signed => n.bmod (2 ^ kind.bits)
  | .unsigned => n % 2 ^ kind.bits
  | .float => n

variable {kind : ScalarKind} {m n : Int}

theorem isInt_iff : kind.isInt = true ↔ kind.scalarClass = .signed ∨ kind.scalarClass = .unsigned := by
  simp [isInt]

/-- To reduce an integer reads its word in the width of the kind. -/
theorem integer_ofInt (h : kind.isInt = true) (n : Int) :
    Word.integer kind.signed (BitVec.ofInt kind.bits n) = kind.reduce n := by
  rw [signed, reduce]
  rcases isInt_iff.1 h with hclass | hclass
  · rw [hclass]
    exact BitVec.toInt_ofInt n
  · rw [hclass]
    refine (congrArg Nat.cast (BitVec.toNat_ofInt n)).trans ?_
    rw [Int.toNat_of_nonneg (Int.emod_nonneg _ (by positivity)), Nat.cast_pow, Nat.cast_ofNat]

theorem contains_integer (h : kind.isInt = true) (x : BitVec kind.bits) :
    kind.Contains (Word.integer kind.signed x) := by
  rw [signed, Contains]
  rcases isInt_iff.1 h with hclass | hclass
  · rw [hclass]
    exact ⟨BitVec.le_toInt x, BitVec.toInt_lt⟩
  · rw [hclass]
    have hlt : (x.toNat : Int) < 2 ^ kind.bits := by exact_mod_cast x.isLt
    exact ⟨Int.natCast_nonneg _, hlt⟩

theorem contains_reduce (h : kind.isInt = true) (n : Int) : kind.Contains (kind.reduce n) := by
  rw [← integer_ofInt h]
  exact contains_integer h _

/-- An element of a kind is not changed when it is reduced to the kind. -/
theorem reduce_of_contains (h : kind.Contains n) : kind.reduce n = n := by
  unfold Contains at h
  unfold reduce
  split at h
  · rcases h with rfl | rfl <;> rfl
  · have hpos : 0 < kind.bits := by cases kind <;> decide
    have hpow : (2 : Int) ^ kind.bits = 2 * 2 ^ (kind.bits - 1) := by
      rw [← Int.pow_succ', Nat.sub_one_add_one hpos.ne']
    refine Int.bmod_eq_of_le ?_ ?_ <;> push_cast <;> omega
  · exact Int.emod_eq_of_lt h.1 h.2
  · cases h

theorem reduce_modEq (h : kind.isInt = true) (n : Int) : kind.reduce n ≡ n [ZMOD 2 ^ kind.bits] := by
  rw [← integer_ofInt h]
  exact Word.integer_ofInt_modEq _ n

/-- Congruent integers are reduced to the same one. -/
theorem reduce_congr (h : kind.isInt = true) (hmn : m ≡ n [ZMOD 2 ^ kind.bits]) :
    kind.reduce m = kind.reduce n := by
  rw [reduce, reduce]
  rcases isInt_iff.1 h with hclass | hclass
  · rw [hclass]
    have hemod : m % (2 ^ kind.bits : Nat) = n % (2 ^ kind.bits : Nat) := by exact_mod_cast hmn
    simp only [Int.bmod_def, hemod]
  · rw [hclass]
    exact hmn

/-- What is congruent modulo the words of 64 bits is reduced to the same integer of every kind. -/
theorem reduce_congr_word (h : kind.isInt = true) (hmn : m ≡ n [ZMOD 2 ^ 64]) :
    kind.reduce m = kind.reduce n := by
  refine reduce_congr h (hmn.of_dvd (pow_dvd_pow 2 ?_))
  cases kind <;> decide

/-- The reduced integer is the one element of an integer kind that is congruent to the integer. -/
theorem eq_reduce_iff (h : kind.isInt = true) :
    m = kind.reduce n ↔ kind.Contains m ∧ m ≡ n [ZMOD 2 ^ kind.bits] := by
  constructor
  · rintro rfl
    exact ⟨contains_reduce h n, reduce_modEq h n⟩
  · rintro ⟨hm, hcongr⟩
    rw [← reduce_of_contains hm]
    exact reduce_congr h hcongr

/-- An integer is held by an integer kind exactly if it stays as it is when it is reduced. -/
theorem contains_iff_reduce_eq (h : kind.isInt = true) : kind.Contains n ↔ kind.reduce n = n :=
  ⟨reduce_of_contains, fun heq => heq ▸ contains_reduce h n⟩

theorem isFloat_of_isInt (h : kind.isInt = true) : kind.isFloat = false := by
  revert h
  cases kind <;> decide

theorem isInt_or_bool (h : kind.isFloat = false) : kind.isInt = true ∨ kind = .bool := by
  revert h
  cases kind <;> decide

/-- To reduce an integer twice reduces it once. -/
theorem reduce_reduce (h : kind.isFloat = false) (n : Int) :
    kind.reduce (kind.reduce n) = kind.reduce n := by
  rcases isInt_or_bool h with hint | rfl
  · exact reduce_of_contains (contains_reduce hint n)
  · change (if (if n = 0 then 0 else 1) = 0 then (0 : Int) else 1) = if n = 0 then 0 else 1
    split <;> rfl

end ScalarKind

end ChunkedArray
