import ChunkedArray.Proofs.Bytes.LittleEndian
import ChunkedArray.Proofs.Codec.Filters

/-!
# Differences in place

A block is overwritten by its differences. The loop that takes them runs from the end, so that the element
before is still the original one; the loop that undoes them runs from the front, so that it is restored
already. Both loops go over bytes, or over words if the elements have eight bytes that lie aligned in
memory. They give the bytes of `encode` and `decode` either way (`encodeInPlace_eq`, `decodeInPlace_eq`).
-/

namespace ChunkedArray.XorDelta

/-! ## The loops -/

section Loops

variable {α : Type} [XorOp α] [OfNat α 0]

/-- Replaces an item by its exclusive or with the one `lag` places before. -/
def mixAt (lag : Nat) (xs : Array α) (i : Nat) : Array α :=
  xs.setIfInBounds i (xs.getD i 0 ^^^ xs.getD (i - lag) 0)

/-- The loop from the item before `stop` back to the one at `lag`. -/
def mixBackwards (lag stop : Nat) (xs : Array α) : Array α :=
  (List.range' lag (stop - lag)).reverse.foldl (mixAt lag) xs

/-- The loop from the item at `lag` on to the one before `stop`. -/
def mixForwards (lag stop : Nat) (xs : Array α) : Array α :=
  (List.range' lag (stop - lag)).foldl (mixAt lag) xs

variable {lag stop : Nat} {xs : Array α}

@[simp] theorem size_mixAt (lag : Nat) (xs : Array α) (i : Nat) : (mixAt lag xs i).size = xs.size :=
  Array.size_setIfInBounds

theorem getD_mixAt (lag : Nat) {xs : Array α} {i : Nat} (hi : i < xs.size) (k : Nat) :
    (mixAt lag xs i).getD k 0 =
      if k = i then xs.getD i 0 ^^^ xs.getD (i - lag) 0 else xs.getD k 0 := by
  rw [mixAt, Array.getD_eq_getD_getElem?, Array.getElem?_setIfInBounds]
  by_cases hk : k = i
  · rw [if_pos hk, if_pos hk.symm, if_pos hi]
    rfl
  · rw [if_neg hk, if_neg (Ne.symm hk), Array.getD_eq_getD_getElem?]

theorem size_foldl_mixAt (lag : Nat) (xs : Array α) (places : List Nat) :
    (places.foldl (mixAt lag) xs).size = xs.size := by
  induction places generalizing xs with
  | nil => rfl
  | cons i places ih => rw [List.foldl_cons, ih, size_mixAt]

/-- A loop over `n` items from the last back to the first: what a later turn reads no earlier one
wrote. -/
theorem getD_foldl_mixAt_reverse (hlag : 0 < lag) {n : Nat} (hn : lag + n ≤ xs.size) (k : Nat) :
    ((List.range' lag n).reverse.foldl (mixAt lag) xs).getD k 0 =
      if lag ≤ k ∧ k < lag + n then xs.getD k 0 ^^^ xs.getD (k - lag) 0 else xs.getD k 0 := by
  induction n generalizing xs with
  | zero =>
    rw [if_neg (by omega)]
    rfl
  | succ n ih =>
    rw [List.range'_1_concat, List.reverse_append, List.reverse_singleton, List.singleton_append,
      List.foldl_cons, @ih (mixAt lag xs (lag + n)) (by rw [size_mixAt]; omega)]
    simp only [getD_mixAt lag (show lag + n < xs.size by omega)]
    grind

/-- Backwards every item meets the original one before it. -/
theorem getD_mixBackwards (hlag : 0 < lag) (hstop : stop ≤ xs.size) (k : Nat) :
    (mixBackwards lag stop xs).getD k 0 =
      if lag ≤ k ∧ k < stop then xs.getD k 0 ^^^ xs.getD (k - lag) 0 else xs.getD k 0 := by
  by_cases hle : lag ≤ stop
  · have hlast : lag + (stop - lag) ≤ xs.size := by omega
    have hrange := getD_foldl_mixAt_reverse hlag hlast k
    rwa [Nat.add_sub_cancel' hle] at hrange
  · rw [mixBackwards, Nat.sub_eq_zero_of_le (by omega), if_neg (by omega)]
    rfl

/-- A loop over `n` items from the first on: what a later turn reads is written already. -/
theorem getD_foldl_mixAt (hlag : 0 < lag) {n : Nat} (hn : lag + n ≤ xs.size) (k : Nat) :
    ((List.range' lag n).foldl (mixAt lag) xs).getD k 0 =
      if lag ≤ k ∧ k < lag + n then
        xs.getD k 0 ^^^ ((List.range' lag n).foldl (mixAt lag) xs).getD (k - lag) 0
      else xs.getD k 0 := by
  induction n generalizing k with
  | zero =>
    rw [if_neg (by omega)]
    rfl
  | succ n ih =>
    have hlt : lag + n < ((List.range' lag n).foldl (mixAt lag) xs).size := by
      rw [size_foldl_mixAt]
      omega
    have hkeep := ih (by omega)
    rw [List.range'_1_concat, List.foldl_append, List.foldl_cons, List.foldl_nil]
    simp only [getD_mixAt lag hlt]
    grind

/-- Forwards every item meets the new one before it. -/
theorem getD_mixForwards (hlag : 0 < lag) (hstop : stop ≤ xs.size) (k : Nat) :
    (mixForwards lag stop xs).getD k 0 =
      if lag ≤ k ∧ k < stop then xs.getD k 0 ^^^ (mixForwards lag stop xs).getD (k - lag) 0
      else xs.getD k 0 := by
  by_cases hle : lag ≤ stop
  · have hlast : lag + (stop - lag) ≤ xs.size := by omega
    have hrange := getD_foldl_mixAt hlag hlast k
    rwa [Nat.add_sub_cancel' hle] at hrange
  · rw [mixForwards, Nat.sub_eq_zero_of_le (by omega), if_neg (by omega)]
    rfl

end Loops

/-! ## Over bytes -/

theorem bodySize_le (typesize : Nat) (b : Bytes) : bodySize typesize b ≤ b.size :=
  Nat.div_mul_le_self b.size typesize

theorem mixBackwards_bytes {typesize : Nat} (h : 0 < typesize) (b : Bytes) :
    mixBackwards typesize (bodySize typesize b) b = encodeBytes typesize b := by
  have hsize : (mixBackwards typesize (bodySize typesize b) b).size = b.size :=
    size_foldl_mixAt typesize b _
  refine Bytes.ext_getD (by rw [hsize, encodeBytes, Array.size_ofFn]) fun i hi => ?_
  rw [getD_mixBackwards h (bodySize_le typesize b), getD_encodeBytes typesize (by omega)]

theorem mixForwards_bytes {typesize : Nat} (h : 0 < typesize) (b : Bytes) :
    mixForwards typesize (bodySize typesize b) b = decodeBytes typesize b := by
  have hsize : (mixForwards typesize (bodySize typesize b) b).size = b.size :=
    size_foldl_mixAt typesize b _
  refine Bytes.ext_getD (by rw [hsize, decodeBytes, size_restoreBytes]; simp) fun i hi => ?_
  rw [hsize] at hi
  -- A byte is restored from the one an element before it.
  induction i using Nat.strong_induction_on with
  | _ i ih =>
    rw [getD_mixForwards h (bodySize_le typesize b), getD_decodeBytes h hi]
    split
    · rw [ih (i - typesize) (by omega) (by omega)]
    · rfl

/-! ## Over words -/

/-- The words of the whole elements of eight bytes. -/
def words (b : Bytes) : Array UInt64 :=
  ((List.range (b.size / 8)).map (wordAt b)).toArray

/-- The byte of a word at place `k`, the least significant one first. -/
def byteOf (w : UInt64) (k : Nat) : UInt8 :=
  UInt8.ofNat (w.toNat / 256 ^ k)

/-- Exclusive or works byte by byte. -/
theorem byteOf_xor (v w : UInt64) (k : Nat) : byteOf (v ^^^ w) k = byteOf v k ^^^ byteOf w k := by
  have hpow : 256 ^ k = 2 ^ (8 * k) := (Nat.pow_mul 2 8 k).symm
  rw [byteOf, byteOf, byteOf, UInt64.toNat_xor, hpow, Nat.xor_div_two_pow, UInt8.ofNat_xor]

theorem byteOf_wordAt (b : Bytes) (j : Nat) {k : Nat} (hk : k < 8) :
    byteOf (wordAt b j) k = b.getD (8 * j + k) 0 := by
  have hword : (wordAt b j).toNat = LittleEndian.readAt b (8 * j) 8 :=
    UInt64.toNat_ofNat_of_lt' (LittleEndian.readAt_lt b (8 * j) 8)
  rw [byteOf, hword, LittleEndian.ofNat_readAt_div b _ hk]

/-- A byte string made of words shows their bytes. -/
theorem getD_ofWords (ws : List UInt64) (j : Nat) {k : Nat} (hk : k < 8) :
    (ofWords ws).getD (8 * j + k) 0 = byteOf (ws.getD j 0) k := by
  rw [ofWords, Array.getD_eq_getD_getElem?, List.getElem?_toArray]
  induction ws generalizing j with
  | nil => simp [byteOf]
  | cons w ws ih =>
    rw [List.flatMap_cons]
    cases j with
    | zero =>
      rw [List.getElem?_append_left (by simpa using hk), Nat.mul_zero, Nat.zero_add,
        LittleEndian.getElem?_ofNat hk]
      rfl
    | succ j =>
      rw [List.getElem?_append_right (by simp; omega), LittleEndian.length_ofNat,
        show 8 * (j + 1) + k - 8 = 8 * j + k by omega, ih j]
      rfl

theorem size_ofWords (ws : List UInt64) : (ofWords ws).size = 8 * ws.length := by
  induction ws with
  | nil => rfl
  | cons w ws ih =>
    rw [ofWords, List.size_toArray] at ih ⊢
    rw [List.flatMap_cons, List.length_append, ih, LittleEndian.length_ofNat, List.length_cons,
      Nat.mul_succ, Nat.add_comm]

/-- Words in the place of the whole elements show their bytes there and leave those behind. -/
theorem getD_ofWords_append {b : Bytes} {ws : List UInt64} (hlength : ws.length = b.size / 8)
    (i : Nat) : (ofWords ws ++ b.extract (bodySize 8 b)).getD i 0 =
      if i < bodySize 8 b then byteOf (ws.getD (i / 8) 0) (i % 8) else b.getD i 0 := by
  have hsize : (ofWords ws).size = bodySize 8 b := by
    rw [size_ofWords, hlength, bodySize, Nat.mul_comm]
  rw [Bytes.getD_append, hsize]
  split
  · rw [← getD_ofWords ws (i / 8) (Nat.mod_lt i (by decide)), Nat.div_add_mod]
  · rename_i hi
    rw [Bytes.getD_extract, Nat.add_sub_cancel' (Nat.le_of_not_lt hi)]
    split
    · rfl
    · exact (Bytes.getD_of_size_le (by omega)).symm

theorem size_ofWords_append {b : Bytes} {ws : List UInt64} (hlength : ws.length = b.size / 8) :
    (ofWords ws ++ b.extract (bodySize 8 b)).size = b.size := by
  have hle := bodySize_le 8 b
  rw [bodySize] at hle
  rw [Array.size_append, size_ofWords, Array.size_extract, hlength, bodySize]
  omega

/-- Words that are the differences of the words of a block spell its differences. -/
theorem ofWords_append_eq_encodeBytes {b : Bytes} {ws : List UInt64}
    (hlength : ws.length = b.size / 8) (hws : ∀ j < b.size / 8, ws.getD j 0 =
      if 0 < j then wordAt b j ^^^ wordAt b (j - 1) else wordAt b j) :
    ofWords ws ++ b.extract (bodySize 8 b) = encodeBytes 8 b := by
  have hsize := size_ofWords_append hlength
  refine Bytes.ext_getD (by rw [hsize, encodeBytes, Array.size_ofFn]) fun i hi => ?_
  rw [getD_ofWords_append hlength, getD_encodeBytes 8 (by omega)]
  have hmod : i % 8 < 8 := Nat.mod_lt i (by decide)
  by_cases hbody : i < bodySize 8 b
  · have hj : i / 8 < b.size / 8 := Nat.div_lt_of_lt_mul (by rwa [Nat.mul_comm])
    rw [if_pos hbody, hws _ hj]
    by_cases hfirst : 8 ≤ i
    · rw [if_pos (by omega), if_pos ⟨hfirst, hbody⟩, byteOf_xor, byteOf_wordAt b _ hmod,
        byteOf_wordAt b _ hmod, Nat.div_add_mod, show 8 * (i / 8 - 1) + i % 8 = i - 8 by omega]
    · rw [if_neg (by omega), if_neg (by omega), byteOf_wordAt b _ hmod, Nat.div_add_mod]
  · rw [if_neg hbody, if_neg (by omega)]

/-- Words of which those of a block are the differences spell what the block restores to. -/
theorem ofWords_append_eq_decodeBytes {b : Bytes} {ws : List UInt64}
    (hlength : ws.length = b.size / 8) (hws : ∀ j < b.size / 8, ws.getD j 0 =
      if 0 < j then wordAt b j ^^^ ws.getD (j - 1) 0 else wordAt b j) :
    ofWords ws ++ b.extract (bodySize 8 b) = decodeBytes 8 b := by
  have hsize := size_ofWords_append hlength
  refine Bytes.ext_getD (by rw [hsize, decodeBytes, size_restoreBytes]; simp) fun i hi => ?_
  rw [hsize] at hi
  -- A byte is restored from the one a word before it.
  induction i using Nat.strong_induction_on with
  | _ i ih =>
    rw [getD_ofWords_append hlength, getD_decodeBytes (by decide) hi]
    have hmod : i % 8 < 8 := Nat.mod_lt i (by decide)
    by_cases hbody : i < bodySize 8 b
    · have hj : i / 8 < b.size / 8 := Nat.div_lt_of_lt_mul (by rwa [Nat.mul_comm])
      rw [if_pos hbody, hws _ hj]
      by_cases hfirst : 8 ≤ i
      · have hbefore := ih (i - 8) (by omega) (by omega)
        rw [getD_ofWords_append hlength, if_pos (by omega), show (i - 8) / 8 = i / 8 - 1 by omega,
          show (i - 8) % 8 = i % 8 by omega] at hbefore
        rw [if_pos (by omega), if_pos ⟨hfirst, hbody⟩, byteOf_xor, byteOf_wordAt b _ hmod,
          Nat.div_add_mod, hbefore]
      · rw [if_neg (by omega), if_neg (by omega), byteOf_wordAt b _ hmod, Nat.div_add_mod]
    · rw [if_neg hbody, if_neg (by omega)]

/-- The differences of words are those of bytes. -/
theorem encodeWords_eq (b : Bytes) : encodeWords b = encode 8 b := by
  rw [encodeWords, encode, if_neg (by decide)]
  refine ofWords_append_eq_encodeBytes (by simp) fun j hj => ?_
  rcases Nat.eq_zero_or_pos j with rfl | hpos
  · simp [hj]
  · simp [hj, hpos, Nat.ne_of_gt hpos]

theorem getD_restoreWords (before : UInt64) (ws : List UInt64) {j : Nat} (hj : j < ws.length) :
    (restoreWords before ws).getD j 0 =
      ws.getD j 0 ^^^ if 0 < j then (restoreWords before ws).getD (j - 1) 0 else before := by
  induction ws generalizing before j with
  | nil => cases hj
  | cons w ws ih =>
    cases j with
    | zero => rfl
    | succ j =>
      have hrest := ih (w ^^^ before) (Nat.lt_of_succ_lt_succ hj)
      rw [restoreWords, List.getD_cons_succ, List.getD_cons_succ, hrest]
      cases j with
      | zero => rfl
      | succ j => rfl

theorem length_restoreWords (before : UInt64) (ws : List UInt64) :
    (restoreWords before ws).length = ws.length := by
  induction ws generalizing before with
  | nil => rfl
  | cons w ws ih => rw [restoreWords, List.length_cons, ih, List.length_cons]

/-- Words are restored to what bytes are restored to. -/
theorem decodeWords_eq (b : Bytes) : decodeWords b = decode 8 b := by
  rw [decodeWords, decode, if_neg (by decide)]
  refine ofWords_append_eq_decodeBytes (by simp [length_restoreWords]) fun j hj => ?_
  rw [getD_restoreWords _ _ (by simpa using hj)]
  rcases Nat.eq_zero_or_pos j with rfl | hpos
  · simp [hj]
  · simp [hj, hpos]

/-! ## The loops as they are chosen -/

/-- Takes the differences in place: over words if the elements have eight bytes and the block is
aligned, else over bytes. Elements of no width are left alone. -/
def encodeInPlace (aligned : Bool) (typesize : Nat) (b : Bytes) : Bytes :=
  if typesize = 0 then b
  else if typesize = 8 ∧ aligned then
    ofWords (mixBackwards 1 (words b).size (words b)).toList ++ b.extract (bodySize 8 b)
  else mixBackwards typesize (bodySize typesize b) b

/-- Undoes the differences in place. -/
def decodeInPlace (aligned : Bool) (typesize : Nat) (b : Bytes) : Bytes :=
  if typesize = 0 then b
  else if typesize = 8 ∧ aligned then
    ofWords (mixForwards 1 (words b).size (words b)).toList ++ b.extract (bodySize 8 b)
  else mixForwards typesize (bodySize typesize b) b

@[simp] theorem size_words (b : Bytes) : (words b).size = b.size / 8 := by
  simp [words]

theorem getD_words {b : Bytes} {j : Nat} (hj : j < b.size / 8) :
    (words b).getD j 0 = wordAt b j := by
  simp [words, Array.getD_eq_getD_getElem?, hj]

theorem getD_toList (ws : Array UInt64) (j : Nat) : ws.toList.getD j 0 = ws.getD j 0 := by
  rw [List.getD_eq_getElem?_getD, Array.getElem?_toList, Array.getD_eq_getD_getElem?]

/-- Whichever loop is taken, it leaves the differences of the filter. -/
theorem encodeInPlace_eq (aligned : Bool) (typesize : Nat) (b : Bytes) :
    encodeInPlace aligned typesize b = encode typesize b := by
  rw [encodeInPlace, encode]
  split
  · rfl
  · rename_i hpos
    split
    · rename_i hwords
      rw [hwords.1]
      refine ofWords_append_eq_encodeBytes ?_ fun j hj => ?_
      · rw [Array.length_toList, mixBackwards, size_foldl_mixAt, size_words]
      · rw [getD_toList, getD_mixBackwards Nat.one_pos le_rfl, getD_words hj, size_words]
        by_cases hj0 : 0 < j
        · rw [if_pos ⟨hj0, hj⟩, if_pos hj0, getD_words (by omega)]
        · rw [if_neg (by omega), if_neg hj0]
    · exact mixBackwards_bytes (Nat.pos_of_ne_zero hpos) b

/-- Whichever loop is taken, it restores what the filter restores. -/
theorem decodeInPlace_eq (aligned : Bool) (typesize : Nat) (b : Bytes) :
    decodeInPlace aligned typesize b = decode typesize b := by
  rw [decodeInPlace, decode]
  split
  · rfl
  · rename_i hpos
    split
    · rename_i hwords
      rw [hwords.1]
      refine ofWords_append_eq_decodeBytes ?_ fun j hj => ?_
      · rw [Array.length_toList, mixForwards, size_foldl_mixAt, size_words]
      · rw [getD_toList, getD_toList, getD_mixForwards Nat.one_pos le_rfl, getD_words hj, size_words]
        by_cases hj0 : 0 < j
        · rw [if_pos ⟨hj0, hj⟩, if_pos hj0]
        · rw [if_neg (by omega), if_neg hj0]
    · exact mixForwards_bytes (Nat.pos_of_ne_zero hpos) b

end ChunkedArray.XorDelta
