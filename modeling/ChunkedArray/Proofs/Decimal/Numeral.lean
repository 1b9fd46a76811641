import ChunkedArray.Decimal.Numeral

/-!
# Digits of numbers

The decimal digits of a number are below ten, start with a zero for zero alone, and spell the number.
-/

namespace ChunkedArray.Numeral

theorem digits_of_lt {n : Nat} (h : n < 10) : digits n = [n] := by
  rw [digits, Nat.toDigits_of_lt_base h, List.map_singleton, Nat.toNat_digitChar_of_lt_ten h,
    Nat.add_sub_cancel_left]

/-- The last digit is the rest modulo ten. -/
theorem digits_of_le {n : Nat} (h : 10 ≤ n) : digits n = digits (n / 10) ++ [n % 10] := by
  have hlast : n % 10 < 10 := Nat.mod_lt n (by decide)
  rw [digits, Nat.toDigits_of_base_le (by decide) h, List.map_append, List.map_singleton,
    Nat.toNat_digitChar_of_lt_ten hlast, Nat.add_sub_cancel_left]
  rfl

/-- A number below ten, or a digit behind a number that is not zero. -/
theorem digits_induction {motive : Nat → Prop} (small : ∀ n < 10, motive n)
    (large : ∀ n, 10 ≤ n → 0 < n / 10 → motive (n / 10) → motive n) (n : Nat) : motive n := by
  induction n using Nat.strongRecOn with
  | _ n ih =>
    rcases Nat.lt_or_ge n 10 with hsmall | hlarge
    · exact small n hsmall
    · exact large n hlarge (by omega) (ih (n / 10) (by omega))

theorem lt_ten_of_mem_digits {n d : Nat} (h : d ∈ digits n) : d < 10 := by
  induction n using digits_induction with
  | small n hn =>
    rw [digits_of_lt hn, List.mem_singleton] at h
    omega
  | large n hn _ ih =>
    rw [digits_of_le hn, List.mem_append, List.mem_singleton] at h
    rcases h with h | rfl
    · exact ih h
    · exact Nat.mod_lt n (by decide)

theorem digits_ne_nil (n : Nat) : digits n ≠ [] := by
  simp [digits, Nat.toDigits_ne_nil]

/-- No number but zero starts with a zero. -/
theorem head?_digits {n : Nat} (h : 0 < n) : (digits n).head? ≠ some 0 := by
  induction n using digits_induction with
  | small n hn => simpa [digits_of_lt hn] using Nat.pos_iff_ne_zero.1 h
  | large n hn hpos ih =>
    obtain ⟨d, rest, hdigits⟩ := List.exists_cons_of_ne_nil (digits_ne_nil (n / 10))
    have hhead := ih hpos
    rw [hdigits] at hhead
    rw [digits_of_le hn, hdigits]
    simpa using hhead

theorem ofDigits_append_singleton (ds : List Nat) (d : Nat) :
    ofDigits (ds ++ [d]) = 10 * ofDigits ds + d := by
  simp [ofDigits]

/-- The digits of a number spell it. -/
theorem ofDigits_digits (n : Nat) : ofDigits (digits n) = n := by
  induction n using digits_induction with
  | small n hn => simp [digits_of_lt hn, ofDigits]
  | large n hn _ ih =>
    rw [digits_of_le hn, ofDigits_append_singleton, ih]
    omega

end ChunkedArray.Numeral
