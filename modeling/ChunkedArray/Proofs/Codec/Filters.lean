import ChunkedArray.Codec.Block
import ChunkedArray.Proofs.Bytes.Copy

/-!
# Filters are undone

Both filters are bijections on the blocks of one length: `decode` and `encode` undo each other in both
orders, whatever the element width and however many bytes are left over behind the last whole element, and
these bytes stay as they are (`Reversible`). A mask of filters is undone by the filters in reverse order
(`Filter.reversible_foldl`).
-/

namespace ChunkedArray

namespace Shuffle

/-! ## Planes -/

theorem planePosition_lt {typesize count i : Nat} (h : i < count * typesize) :
    planePosition typesize count i < count * typesize := by
  have htypesize : 0 < typesize := Nat.pos_of_mul_pos_left (Nat.zero_lt_of_lt h)
  have hdiv : i / typesize < count := Nat.div_lt_of_lt_mul (by rwa [Nat.mul_comm])
  have hmod : i % typesize + 1 ≤ typesize := Nat.mod_lt _ htypesize
  calc planePosition typesize count i = i % typesize * count + i / typesize := rfl
    _ < i % typesize * count + count := by omega
    _ = (i % typesize + 1) * count := (Nat.succ_mul _ _).symm
    _ ≤ typesize * count := Nat.mul_le_mul_right _ hmod
    _ = count * typesize := Nat.mul_comm _ _

theorem planeSource_eq (typesize count i : Nat) :
    planeSource typesize count i = planePosition count typesize i := rfl

/-- A byte is found in the planes where it was put. -/
theorem planeSource_planePosition {typesize count i : Nat} (h : i < count * typesize) :
    planeSource typesize count (planePosition typesize count i) = i := by
  have hdiv : i / typesize < count := Nat.div_lt_of_lt_mul (by rwa [Nat.mul_comm])
  have hcount : 0 < count := Nat.zero_lt_of_lt hdiv
  have hquot : (i % typesize * count + i / typesize) / count = i % typesize := by
    rw [Nat.mul_comm, Nat.mul_add_div hcount, Nat.div_eq_of_lt hdiv, Nat.add_zero]
  have hrem : (i % typesize * count + i / typesize) % count = i / typesize := by
    rw [Nat.mul_comm, Nat.mul_add_mod, Nat.mod_eq_of_lt hdiv]
  rw [planeSource, planePosition, hquot, hrem, Nat.mul_comm]
  exact Nat.div_add_mod i typesize

theorem planePosition_planeSource {typesize count i : Nat} (h : i < count * typesize) :
    planePosition typesize count (planeSource typesize count i) = i := by
  rw [planeSource_eq, ← planeSource_eq count typesize]
  exact planeSource_planePosition (by rwa [Nat.mul_comm])

theorem planeSource_lt {typesize count i : Nat} (h : i < count * typesize) :
    planeSource typesize count i < count * typesize := by
  rw [planeSource_eq, Nat.mul_comm]
  exact planePosition_lt (by rwa [Nat.mul_comm])

theorem getD_encode {typesize : Nat} {b : Bytes} (h : ¬ isTrivial typesize b = true) {i : Nat}
    (hi : i < b.size) :
    (encode typesize b).getD i 0 =
      b.getD (if i < b.size / typesize * typesize then planeSource typesize (b.size / typesize) i
        else i) 0 := by
  simp only [encode, if_neg h]
  rw [Bytes.getD_ofFn _ hi, Fin.getElem_fin, ← Bytes.getD_eq_getElem hi]
  by_cases hbody : i < b.size / typesize * typesize
  · rw [if_pos hbody, if_pos hbody]
  · rw [if_neg hbody, if_neg hbody]

theorem getD_decode {typesize : Nat} {b : Bytes} (h : ¬ isTrivial typesize b = true) {i : Nat}
    (hi : i < b.size) :
    (decode typesize b).getD i 0 =
      b.getD (if i < b.size / typesize * typesize then planePosition typesize (b.size / typesize) i
        else i) 0 := by
  simp only [decode, if_neg h]
  rw [Bytes.getD_ofFn _ hi, Fin.getElem_fin, ← Bytes.getD_eq_getElem hi]
  by_cases hbody : i < b.size / typesize * typesize
  · rw [if_pos hbody, if_pos hbody]
  · rw [if_neg hbody, if_neg hbody]

theorem isTrivial_congr {typesize : Nat} {a b : Bytes} (h : a.size = b.size) :
    isTrivial typesize a = isTrivial typesize b := by
  rw [isTrivial, isTrivial, h]

/-- Elements are restored from their planes. -/
theorem decode_encode (typesize : Nat) (b : Bytes) : decode typesize (encode typesize b) = b := by
  by_cases h : isTrivial typesize b = true
  · have henc : encode typesize b = b := if_pos h
    rw [henc, decode, if_pos h]
  · have h' : ¬ isTrivial typesize (encode typesize b) = true := by
      rwa [isTrivial_congr (size_encode typesize b)]
    refine Bytes.ext_getD (by simp) fun i hi => ?_
    have hi : i < b.size := by simpa using hi
    rw [getD_decode h' (by simpa using hi), size_encode]
    by_cases hbody : i < b.size / typesize * typesize
    · have hpos := planePosition_lt hbody
      have hle := Nat.div_mul_le_self b.size typesize
      rw [if_pos hbody, getD_encode h (by omega), if_pos hpos, planeSource_planePosition hbody]
    · rw [if_neg hbody, getD_encode h hi, if_neg hbody]

/-- Planes are restored from their elements. -/
theorem encode_decode (typesize : Nat) (b : Bytes) : encode typesize (decode typesize b) = b := by
  by_cases h : isTrivial typesize b = true
  · have hdec : decode typesize b = b := if_pos h
    rw [hdec, encode, if_pos h]
  · have h' : ¬ isTrivial typesize (decode typesize b) = true := by
      rwa [isTrivial_congr (size_decode typesize b)]
    refine Bytes.ext_getD (by simp) fun i hi => ?_
    have hi : i < b.size := by simpa using hi
    rw [getD_encode h' (by simpa using hi), size_decode]
    by_cases hbody : i < b.size / typesize * typesize
    · have hpos := planeSource_lt hbody
      have hle := Nat.div_mul_le_self b.size typesize
      rw [if_pos hbody, getD_decode h (by omega), if_pos hpos, planePosition_planeSource hbody]
    · rw [if_neg hbody, getD_decode h hi, if_neg hbody]

/-- Elements of one byte, or of none, are their own planes. -/
theorem encode_of_le_one {typesize : Nat} (h : typesize ≤ 1) (b : Bytes) :
    encode typesize b = b := by
  rw [encode, isTrivial, decide_eq_true h, Bool.true_or, if_pos rfl]

theorem decode_of_le_one {typesize : Nat} (h : typesize ≤ 1) (b : Bytes) :
    decode typesize b = b := by
  rw [decode, isTrivial, decide_eq_true h, Bool.true_or, if_pos rfl]

end Shuffle

namespace XorDelta

/-! ## Differences -/

theorem getD_encodeBytes (typesize : Nat) {b : Bytes} {i : Nat} (hi : i < b.size) :
    (encodeBytes typesize b).getD i 0 =
      if typesize ≤ i ∧ i < bodySize typesize b then b.getD i 0 ^^^ b.getD (i - typesize) 0
      else b.getD i 0 := by
  rw [encodeBytes, Bytes.getD_ofFn _ hi]

/-- Restoring keeps what is restored already and adds bytes that undo the differences. -/
theorem getD_restoreBytes (typesize body : Nat) (b out : Bytes) (n : Nat) (htypesize : 0 < typesize) :
    (∀ i < out.size, (restoreBytes typesize body b out n).getD i 0 = out.getD i 0) ∧
      ∀ i, out.size ≤ i → i < out.size + n → (restoreBytes typesize body b out n).getD i 0 =
        if typesize ≤ i ∧ i < body then
          b.getD i 0 ^^^ (restoreBytes typesize body b out n).getD (i - typesize) 0
        else b.getD i 0 := by
  -- On the bytes left to restore: each one needs a byte that is restored already.
  induction n generalizing out with
  | zero => exact ⟨fun _ _ => rfl, fun i hle hlt => absurd hlt (by omega)⟩
  | succ n ih =>
    simp only [restoreBytes]
    generalize hx : (if typesize ≤ out.size ∧ out.size < body then
      b.getD out.size 0 ^^^ out.getD (out.size - typesize) 0 else b.getD out.size 0) = x
    have hpush (i : Nat) (hi : i < out.size) : (out.push x).getD i 0 = out.getD i 0 := by
      simp only [Array.getD_eq_getD_getElem?, Array.getElem?_push]
      rw [if_neg (by omega)]
    have hlast : (out.push x).getD out.size 0 = x := by
      simp [Array.getD_eq_getD_getElem?]
    obtain ⟨hkeep, hnew⟩ := ih (out.push x)
    rw [Array.size_push] at hkeep hnew
    constructor
    · intro i hi
      rw [hkeep i (by omega), hpush i hi]
    · intro i hle hlt
      by_cases hi : i = out.size
      · subst hi
        rw [hkeep _ (by omega), hlast]
        by_cases hbody : typesize ≤ out.size ∧ out.size < body
        · rw [if_pos hbody] at hx ⊢
          rw [hkeep _ (by omega), hpush _ (by omega), hx]
        · rw [if_neg hbody] at hx ⊢
          exact hx.symm
      · exact hnew i (by omega) (by omega)

theorem getD_decodeBytes {typesize : Nat} (htypesize : 0 < typesize) {b : Bytes} {i : Nat}
    (hi : i < b.size) :
    (decodeBytes typesize b).getD i 0 =
      if typesize ≤ i ∧ i < bodySize typesize b then
        b.getD i 0 ^^^ (decodeBytes typesize b).getD (i - typesize) 0
      else b.getD i 0 :=
  (getD_restoreBytes typesize (bodySize typesize b) b #[] b.size htypesize).2 i (Nat.zero_le _)
    (by simpa using hi)

theorem bodySize_congr {typesize : Nat} {a b : Bytes} (h : a.size = b.size) :
    bodySize typesize a = bodySize typesize b := by
  rw [bodySize, bodySize, h]

/-- Elements are restored from their differences. -/
theorem decode_encode (typesize : Nat) (b : Bytes) : decode typesize (encode typesize b) = b := by
  by_cases h0 : typesize = 0
  · simp [decode, encode, h0]
  · have htypesize : 0 < typesize := Nat.pos_of_ne_zero h0
    refine Bytes.ext_getD (by simp) fun i hi => ?_
    rw [size_decode, size_encode] at hi
    have hsize : (encodeBytes typesize b).size = b.size := by simp [encodeBytes]
    simp only [decode, encode, if_neg h0]
    -- An element is restored from the element before it.
    induction i using Nat.strong_induction_on with
    | _ i ih =>
      rw [getD_decodeBytes htypesize (by omega), getD_encodeBytes typesize hi, bodySize_congr hsize]
      split
      · rename_i hbody
        rw [ih (i - typesize) (by omega) (by omega), UInt8.xor_assoc, UInt8.xor_self, UInt8.xor_zero]
      · rfl

/-- Differences are restored from their elements. -/
theorem encode_decode (typesize : Nat) (b : Bytes) : encode typesize (decode typesize b) = b := by
  by_cases h0 : typesize = 0
  · simp [decode, encode, h0]
  · have htypesize : 0 < typesize := Nat.pos_of_ne_zero h0
    refine Bytes.ext_getD (by simp) fun i hi => ?_
    rw [size_encode, size_decode] at hi
    have hsize : (decodeBytes typesize b).size = b.size := by simp [decodeBytes, size_restoreBytes]
    simp only [decode, encode, if_neg h0]
    rw [getD_encodeBytes typesize (by omega), getD_decodeBytes htypesize hi, bodySize_congr hsize]
    split
    · rw [UInt8.xor_assoc, UInt8.xor_self, UInt8.xor_zero]
    · rfl

/-! ## Blocks without differences -/

/-- All bytes but the last are zero, so the differences of neighbouring bytes are the bytes. -/
def Flat (b : Bytes) : Prop :=
  ∀ i, i + 1 < b.size → b.getD i 0 = 0

theorem xor_eq_left {x y : UInt8} : x ^^^ y = x ↔ y = 0 := by
  constructor
  · intro h
    have hcancel := congrArg (x ^^^ ·) h
    simpa [← UInt8.xor_assoc] using hcancel
  · rintro rfl
    exact UInt8.xor_zero

theorem decode_eq_self_iff {typesize : Nat} {b : Bytes} :
    decode typesize b = b ↔ encode typesize b = b := by
  constructor
  · intro h
    rw [← h, encode_decode, h]
  · intro h
    rw [← h, decode_encode, h]

/-- The differences of single bytes leave exactly the flat blocks as they are. -/
theorem encode_one_eq_self_iff {b : Bytes} : encode 1 b = b ↔ Flat b := by
  have hbyte (i : Nat) (hi : i + 1 < b.size) :
      (encode 1 b).getD (i + 1) 0 = b.getD (i + 1) 0 ^^^ b.getD i 0 := by
    have hbody : bodySize 1 b = b.size := by simp [bodySize]
    rw [encode, if_neg one_ne_zero, getD_encodeBytes 1 hi, hbody, if_pos ⟨by omega, hi⟩,
      Nat.add_sub_cancel]
  constructor
  · intro h i hi
    have hsame := hbyte i hi
    rw [h] at hsame
    exact xor_eq_left.1 hsame.symm
  · intro h
    refine Bytes.ext_getD (size_encode 1 b) fun i hi => ?_
    rw [size_encode] at hi
    cases i with
    | zero => rw [encode, if_neg one_ne_zero, getD_encodeBytes 1 hi, if_neg (by omega)]
    | succ i => rw [hbyte i hi, h i hi, UInt8.xor_zero]

end XorDelta

/-! ## Maps that are undone -/

/-- Two maps of byte strings that undo each other and keep the length of a string and the bytes behind its
last whole element. -/
structure Reversible (typesize : Nat) (encode decode : Bytes → Bytes) : Prop where
  /-- What is coded is restored. -/
  decode_encode (b : Bytes) : decode (encode b) = b
  /-- What is restored is coded again. -/
  encode_decode (b : Bytes) : encode (decode b) = b
  size_encode (b : Bytes) : (encode b).size = b.size
  size_decode (b : Bytes) : (decode b).size = b.size
  /-- Coding leaves the bytes behind the last whole element. -/
  tail_encode (b : Bytes) : (encode b).extract (XorDelta.bodySize typesize b) =
    b.extract (XorDelta.bodySize typesize b)
  /-- Restoring leaves them, too. -/
  tail_decode (b : Bytes) : (decode b).extract (XorDelta.bodySize typesize b) =
    b.extract (XorDelta.bodySize typesize b)

namespace Reversible

variable {typesize : Nat} {encode decode encode' decode' : Bytes → Bytes}

/-- What coding keeps restoring keeps as well. -/
theorem of_encode (hdecode : ∀ b, decode (encode b) = b) (hencode : ∀ b, encode (decode b) = b)
    (hsize : ∀ b, (encode b).size = b.size)
    (htail : ∀ b, (encode b).extract (XorDelta.bodySize typesize b) =
      b.extract (XorDelta.bodySize typesize b)) : Reversible typesize encode decode := by
  have hsize' (b : Bytes) : (decode b).size = b.size := by rw [← hsize, hencode]
  refine ⟨hdecode, hencode, hsize, hsize', htail, fun b => ?_⟩
  have hback := htail (decode b)
  rw [hencode, XorDelta.bodySize_congr (hsize' b)] at hback
  exact hback.symm

theorem refl (typesize : Nat) : Reversible typesize id id :=
  of_encode (fun _ => rfl) (fun _ => rfl) (fun _ => rfl) fun _ => rfl

/-- One coding after another is undone in the opposite order. -/
theorem trans (h : Reversible typesize encode decode) (h' : Reversible typesize encode' decode') :
    Reversible typesize (encode' ∘ encode) (decode ∘ decode') := by
  refine of_encode (fun b => ?_) (fun b => ?_) (fun b => ?_) fun b => ?_
  · rw [Function.comp_apply, Function.comp_apply, h'.decode_encode, h.decode_encode]
  · rw [Function.comp_apply, Function.comp_apply, h.encode_decode, h'.encode_decode]
  · rw [Function.comp_apply, h'.size_encode, h.size_encode]
  · have htail := h'.tail_encode (encode b)
    rw [XorDelta.bodySize_congr (h.size_encode b)] at htail
    rw [Function.comp_apply, htail, h.tail_encode]

end Reversible

/-- Strings of one length that agree from a position on have the same end. -/
theorem Bytes.extract_congr {a b : Bytes} {start : Nat} (hsize : a.size = b.size)
    (h : ∀ i, start ≤ i → i < b.size → a.getD i 0 = b.getD i 0) : a.extract start = b.extract start := by
  refine ext_getD (by rw [Array.size_extract, Array.size_extract, hsize]) fun i hi => ?_
  rw [Array.size_extract] at hi
  rw [getD_extract, getD_extract, hsize, h (start + i) (Nat.le_add_right _ _) (by omega)]

theorem Shuffle.reversible (typesize : Nat) : Reversible typesize (encode typesize) (decode typesize) := by
  refine .of_encode (decode_encode typesize) (encode_decode typesize) (size_encode typesize) fun b => ?_
  refine Bytes.extract_congr (size_encode typesize b) fun i hbody hi => ?_
  by_cases htrivial : isTrivial typesize b = true
  · rw [encode, if_pos htrivial]
  · rw [XorDelta.bodySize] at hbody
    rw [getD_encode htrivial hi, if_neg (Nat.not_lt_of_le hbody)]

theorem XorDelta.reversible (typesize : Nat) :
    Reversible typesize (encode typesize) (decode typesize) := by
  refine .of_encode (decode_encode typesize) (encode_decode typesize) (size_encode typesize) fun b => ?_
  refine Bytes.extract_congr (size_encode typesize b) fun i hbody hi => ?_
  by_cases hwidth : typesize = 0
  · rw [encode, if_pos hwidth]
  · rw [encode, if_neg hwidth, getD_encodeBytes typesize hi, if_neg (by omega)]

namespace Filter

/-! ## Masks of filters -/

theorem reversible (typesize : Nat) (f : Filter) :
    Reversible typesize (fun b => f.apply typesize b) fun b => f.undo typesize b := by
  cases f with
  | shuffle => exact Shuffle.reversible typesize
  | delta => exact XorDelta.reversible typesize

/-- A row of filters is undone in the opposite order. -/
theorem reversible_foldl (typesize : Nat) (filters : List Filter) :
    Reversible typesize (fun b => filters.foldl (fun b f => f.apply typesize b) b)
      fun b => filters.reverse.foldl (fun b f => f.undo typesize b) b := by
  induction filters with
  | nil => exact .refl typesize
  | cons f filters ih =>
    simp only [List.reverse_cons, List.foldl_append, List.foldl_cons, List.foldl_nil]
    exact (f.reversible typesize).trans ih

@[simp] theorem size_undo (typesize : Nat) (b : Bytes) (f : Filter) :
    (f.undo typesize b).size = b.size :=
  (f.reversible typesize).size_decode b

theorem bit_and_bit {f g : Filter} : g.bit &&& f.bit = 0 ↔ g ≠ f := by
  cases f <;> cases g <;> decide

/-- A mask gains the bits of the filters that are added to it. -/
theorem foldl_or_bit (m : UInt8) (f : Filter) (filters : List Filter) :
    filters.foldl (fun m f => m ||| f.bit) m &&& f.bit = 0 ↔ m &&& f.bit = 0 ∧ f ∉ filters := by
  induction filters generalizing m with
  | nil => simp
  | cons g filters ih =>
    have hdistrib : (m ||| g.bit) &&& f.bit = m &&& f.bit ||| g.bit &&& f.bit :=
      UInt8.toBitVec_inj.1 BitVec.and_or_distrib_right
    rw [List.foldl_cons, ih, hdistrib, UInt8.or_eq_zero_iff, bit_and_bit, List.mem_cons, not_or,
      and_assoc, ne_comm (a := g)]

/-- The filters of a mask are those that it was made from. -/
theorem mem_ofMask_mask {f : Filter} {filters : List Filter} :
    f ∈ ofMask (mask filters) ↔ f ∈ filters := by
  have hbits := foldl_or_bit 0 f filters
  rw [UInt8.zero_and, eq_self_iff_true, true_and] at hbits
  rw [ofMask, List.mem_filter, mask, bne_iff_ne, ne_eq, hbits, not_not]
  exact and_iff_right (by cases f <;> simp)

/-! ## Elements of no width -/

theorem foldl_apply_zero (b : Bytes) (filters : List Filter) :
    filters.foldl (fun b f => f.apply 0 b) b = b := by
  induction filters with
  | nil => rfl
  | cons f filters ih =>
    have hsame : f.apply 0 b = b := by
      cases f with
      | shuffle => exact Shuffle.encode_of_le_one (Nat.zero_le 1) b
      | delta => exact (if_pos rfl : XorDelta.encode 0 b = b)
    rw [List.foldl_cons, hsame, ih]

/-- Read as single bytes, bytes that no filter has changed stay as they are exactly if they are flat or
no differences are undone. -/
theorem foldl_undo_one_eq_self_iff (mask : UInt8) (b : Bytes) :
    (ofMask mask).reverse.foldl (fun b f => f.undo 1 b) b = b ↔
      (delta ∈ ofMask mask → XorDelta.Flat b) := by
  have hshuffle (b : Bytes) : undo 1 b shuffle = b := Shuffle.decode_of_le_one le_rfl b
  have hdelta : undo 1 b delta = b ↔ XorDelta.Flat b :=
    XorDelta.decode_eq_self_iff.trans XorDelta.encode_one_eq_self_iff
  by_cases hd : (mask &&& delta.bit != 0) = true
  · by_cases hs : (mask &&& shuffle.bit != 0) = true
    · simp [ofMask, hd, hs, hshuffle, hdelta]
    · simp [ofMask, hd, hs, hdelta]
  · by_cases hs : (mask &&& shuffle.bit != 0) = true
    · simp [ofMask, hd, hs, hshuffle]
    · simp [ofMask, hd, hs]

end Filter

end ChunkedArray
