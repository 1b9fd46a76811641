import ChunkedArray.Proofs.Expr.Kernel
import ChunkedArray.Proofs.Scalar.Word

/-!
# Integer kernels and exact arithmetic

The operators of integers other than the power are those of exact arithmetic, followed by a reduction
to a kind. Words of any width have kernels for them; the kernels that the evaluator uses, for signed
and for unsigned words of 64 bits, are those at that width. What is carried in 64 bits is therefore
right modulo the number of words, and since the width of every kind divides 64, bringing it into the
range of the kind gives what words of the width of the kind would have given.
-/

namespace ChunkedArray

namespace UnaryOp

/-- The operator of exact arithmetic. -/
def exactOp? : UnaryOp → Option (Int → Int)
  | neg => some fun n => -n
  | not => some fun n => -n - 1
  | abs => some fun n => |n|
  | sqrt | exp | log | sin | cos => none

/-- The kernel on words of any width. -/
def wordKernel? (signed : Bool) {width : Nat} : UnaryOp → Option (BitVec width → BitVec width)
  | neg => some fun x => -x
  | not => some fun x => ~~~x
  | abs => some (Word.magnitude signed)
  | sqrt | exp | log | sin | cos => none

end UnaryOp

namespace BinaryOp

/-- The operator of exact arithmetic. -/
def exactOp? : BinaryOp → Option (Int → Int → Int)
  | add => some fun m n => m + n
  | sub => some fun m n => m - n
  | mul => some fun m n => m * n
  | floorDiv => some fun m n => if n = 0 then 0 else ⌊(m : ℚ) / n⌋
  | rem => some fun m n => if n = 0 then 0 else m - n * ⌊(m : ℚ) / n⌋
  | bitAnd => some Int.land
  | bitOr => some Int.lor
  | bitXor => some Int.xor
  | div | pow => none

/-- The kernel on words of any width. -/
def wordKernel? (signed : Bool) {width : Nat} :
    BinaryOp → Option (BitVec width → BitVec width → BitVec width)
  | add => some fun x y => x + y
  | sub => some fun x y => x - y
  | mul => some fun x y => x * y
  | floorDiv => some (Word.floorDiv signed)
  | rem => some (Word.floorRem signed)
  | bitAnd => some fun x y => x &&& y
  | bitOr => some fun x y => x ||| y
  | bitXor => some fun x y => x ^^^ y
  | div | pow => none

end BinaryOp

/-! ## Kernels on words -/

variable {width : Nat} {signed : Bool}

/-- A kernel on words gives the word of the exact result. -/
theorem UnaryOp.exists_wordKernel {op : UnaryOp} {f : Int → Int} (h : op.exactOp? = some f) :
    ∃ g, op.wordKernel? signed = some g ∧ ∀ x : BitVec width,
      g x = BitVec.ofInt width (f (Word.integer signed x)) := by
  cases op with
  | neg =>
    cases h
    refine ⟨_, rfl, fun x => ?_⟩
    rw [BitVec.ofInt_neg, Word.ofInt_integer]
  | not =>
    cases h
    refine ⟨_, rfl, fun x => ?_⟩
    rw [Word.ofInt_sub, BitVec.ofInt_neg, Word.ofInt_integer, Word.ofInt_one, BitVec.not_eq_neg_add]
    rfl
  | abs =>
    cases h
    exact ⟨_, rfl, fun x => Word.ofInt_abs.symm⟩
  | _ => cases h

/-- A kernel on words gives the word of the exact result. -/
theorem BinaryOp.exists_wordKernel {op : BinaryOp} {f : Int → Int → Int} (h : op.exactOp? = some f) :
    ∃ g, op.wordKernel? signed = some g ∧ ∀ x y : BitVec width,
      g x y = BitVec.ofInt width (f (Word.integer signed x) (Word.integer signed y)) := by
  cases op with
  | add =>
    cases h
    refine ⟨_, rfl, fun x y => ?_⟩
    rw [BitVec.ofInt_add, Word.ofInt_integer, Word.ofInt_integer]
  | sub =>
    cases h
    refine ⟨_, rfl, fun x y => ?_⟩
    rw [Word.ofInt_sub, Word.ofInt_integer, Word.ofInt_integer]
  | mul =>
    cases h
    refine ⟨_, rfl, fun x y => ?_⟩
    rw [BitVec.ofInt_mul, Word.ofInt_integer, Word.ofInt_integer]
  | floorDiv =>
    cases h
    refine ⟨_, rfl, fun x y => ?_⟩
    simp only [← Word.ofInt_fdiv, Word.floor_div]
    split
    · next hy => rw [hy, Int.fdiv_zero]
    · rfl
  | rem =>
    cases h
    refine ⟨_, rfl, fun x y => ?_⟩
    simp only [← Word.ofInt_floorRem, Word.floor_div]
  | bitAnd =>
    cases h
    refine ⟨_, rfl, fun x y => ?_⟩
    rw [Word.ofInt_land, Word.ofInt_integer, Word.ofInt_integer]
  | bitOr =>
    cases h
    refine ⟨_, rfl, fun x y => ?_⟩
    rw [Word.ofInt_lor, Word.ofInt_integer, Word.ofInt_integer]
  | bitXor =>
    cases h
    refine ⟨_, rfl, fun x y => ?_⟩
    rw [Word.ofInt_xor, Word.ofInt_integer, Word.ofInt_integer]
  | _ => cases h

/-! ## The kernels of the evaluator -/

namespace BinaryOp

theorem decide_neg (x : Int64) : decide (x < 0) = x.toBitVec.slt 0 :=
  Bool.decide_eq_true

theorem eq_zero_iff_toBitVec {x : Int64} : x = 0 ↔ x.toBitVec = 0 :=
  Int64.toBitVec_inj.symm

/-- What is rounded is no whole number and has operands of different signs. -/
theorem rounds_iff (r x y : Int64) : (r != 0 && decide (x < 0) != decide (y < 0)) = true ↔
    r.toBitVec ≠ 0 ∧ x.toBitVec.slt 0 ≠ y.toBitVec.slt 0 := by
  rw [Bool.and_eq_true, bne_iff_ne, bne_iff_ne, ne_eq, eq_zero_iff_toBitVec, decide_neg, decide_neg]

theorem toBitVec_floorDivInt (x y : Int64) :
    (floorDivInt x y).toBitVec = Word.floorDiv true x.toBitVec y.toBitVec := by
  unfold floorDivInt Word.floorDiv
  simp only [rounds_iff, eq_zero_iff_toBitVec, apply_ite Int64.toBitVec, Int64.toBitVec_mod, if_true]
  rfl

theorem toBitVec_floorRemInt (x y : Int64) :
    (floorRemInt x y).toBitVec = Word.floorRem true x.toBitVec y.toBitVec := by
  unfold floorRemInt Word.floorRem
  simp only [rounds_iff, eq_zero_iff_toBitVec, apply_ite Int64.toBitVec, Int64.toBitVec_mod, if_true]
  rfl

/-- The kernels of the evaluator on signed integers are those on words of 64 bits. -/
theorem exists_intKernel {op : BinaryOp} {g : BitVec 64 → BitVec 64 → BitVec 64}
    (h : op.wordKernel? true = some g) :
    ∃ k, op.intKernel? = some k ∧ ∀ x y, (k x y).toBitVec = g x.toBitVec y.toBitVec := by
  cases op with
  | floorDiv =>
    cases h
    exact ⟨_, rfl, toBitVec_floorDivInt⟩
  | rem =>
    cases h
    exact ⟨_, rfl, toBitVec_floorRemInt⟩
  | div => cases h
  | pow => cases h
  | _ =>
    cases h
    exact ⟨_, rfl, fun _ _ => rfl⟩

/-- The kernels of the evaluator on unsigned integers are those on words of 64 bits. -/
theorem exists_uintKernel {op : BinaryOp} {g : BitVec 64 → BitVec 64 → BitVec 64}
    (h : op.wordKernel? false = some g) :
    ∃ k, op.uintKernel? = some k ∧ ∀ x y, (k x y).toBitVec = g x.toBitVec y.toBitVec := by
  have hzero (y : UInt64) : y = 0 ↔ y.toBitVec = 0 := UInt64.toBitVec_inj.symm
  cases op with
  | floorDiv =>
    cases h
    refine ⟨_, rfl, fun x y => ?_⟩
    simp only [Word.floorDiv, hzero]
    split <;> rfl
  | rem =>
    cases h
    refine ⟨_, rfl, fun x y => ?_⟩
    simp only [Word.floorRem, hzero]
    split <;> rfl
  | div => cases h
  | pow => cases h
  | _ =>
    cases h
    exact ⟨_, rfl, fun _ _ => rfl⟩

end BinaryOp

/-! ## Integers of values -/

namespace Value

/-- The integer that a value of an integer kind stands for; truth values count as zero and one. -/
def integer : Value → Int
  | bool b => b.toInt
  | int i => i.toInt
  | uint n => n.toNat
  | single _ | double _ => 0

end Value

/-- Whether elements are held as floating-point numbers. -/
def Representation.isFloat : Representation → Bool
  | bool | int | uint => false
  | single | double => true

namespace ScalarKind

variable {kind : ScalarKind}

@[simp] theorem isFloat_representation (kind : ScalarKind) :
    kind.representation.isFloat = kind.isFloat := by
  cases kind <;> rfl

theorem representation_eq_bool_iff : kind.representation = .bool ↔ kind = .bool := by
  cases kind <;> decide

theorem representation_eq_int_iff : kind.representation = .int ↔ kind.scalarClass = .signed := by
  cases kind <;> decide

theorem representation_eq_uint_iff : kind.representation = .uint ↔ kind.scalarClass = .unsigned := by
  cases kind <;> decide

/-- A signed integer is brought into the range of a kind by reducing it. -/
theorem toInt_wrapInt (h : kind.scalarClass = .signed) (i : Int64) :
    (kind.wrapInt i).toInt = kind.reduce i.toInt := by
  rw [reduce, h]
  cases kind with
  | int8 => rw [wrapInt, Int8.toInt_toInt64, Int64.toInt_toInt8]; rfl
  | int16 => rw [wrapInt, Int16.toInt_toInt64, Int64.toInt_toInt16]; rfl
  | int32 => rw [wrapInt, Int32.toInt_toInt64, Int64.toInt_toInt32]; rfl
  | int64 => exact (BitVec.toInt_bmod_cancel i.toBitVec).symm
  | _ => cases h

/-- An unsigned integer is brought into the range of a kind by reducing it. -/
theorem toNat_wrapUInt (h : kind.scalarClass = .unsigned) (n : UInt64) :
    ((kind.wrapUInt n).toNat : Int) = kind.reduce n.toNat := by
  rw [reduce, h]
  cases kind with
  | uint8 => rw [wrapUInt, UInt8.toNat_toUInt64, UInt64.toNat_toUInt8]; rfl
  | uint16 => rw [wrapUInt, UInt16.toNat_toUInt64, UInt64.toNat_toUInt16]; rfl
  | uint32 => rw [wrapUInt, UInt32.toNat_toUInt64, UInt64.toNat_toUInt32]; rfl
  | uint64 => exact (Int.emod_eq_of_lt (Int.natCast_nonneg _) (by exact_mod_cast n.toNat_lt)).symm
  | _ => cases h

end ScalarKind

namespace Value

variable {kind : ScalarKind} {v : Value}

/-- An element that is brought into the range of its kind is reduced to it. -/
theorem integer_wrap (hkind : kind.isFloat = false) (h : v.representation = kind.representation) :
    (v.wrap kind).integer = kind.reduce v.integer := by
  cases v with
  | bool b =>
    obtain rfl := ScalarKind.representation_eq_bool_iff.1 h.symm
    cases b <;> rfl
  | int i => exact ScalarKind.toInt_wrapInt (ScalarKind.representation_eq_int_iff.1 h.symm) i
  | uint n => exact ScalarKind.toNat_wrapUInt (ScalarKind.representation_eq_uint_iff.1 h.symm) n
  | _ => cases kind <;> cases hkind <;> cases h

/-- A value that is no floating-point number is cast to the signed integer of the same word. -/
theorem toInt_modEq (h : v.representation.isFloat = false) :
    v.toInt.toInt ≡ v.integer [ZMOD 2 ^ 64] := by
  cases v with
  | bool b => cases b <;> rfl
  | int i => rfl
  | uint n => exact Word.integer_modEq true false n.toBitVec
  | _ => cases h

theorem toUInt_modEq (h : v.representation.isFloat = false) :
    v.toUInt.toNat ≡ v.integer [ZMOD 2 ^ 64] := by
  cases v with
  | bool b => cases b <;> rfl
  | int i => exact Word.integer_modEq false true i.toBitVec
  | uint n => rfl
  | _ => cases h

/-- A value is cast to whether its integer is not zero. -/
theorem toInt_toBool (h : v.representation.isFloat = false) :
    v.toBool.toInt = ScalarKind.bool.reduce v.integer := by
  cases v with
  | bool b => cases b <;> rfl
  | int i =>
    have hzero : i.toInt = 0 ↔ i = 0 := @Int64.toInt_inj i 0
    change (i != 0).toInt = if i.toInt = 0 then 0 else 1
    split
    · next hi => rw [hzero.1 hi]; rfl
    · next hi => rw [bne_iff_ne.2 (mt hzero.2 hi)]; rfl
  | uint n =>
    have hzero : (n.toNat : Int) = 0 ↔ n = 0 := Int.natCast_eq_zero.trans (@UInt64.toNat_inj n 0)
    change (n != 0).toInt = if (n.toNat : Int) = 0 then 0 else 1
    split
    · next hn => rw [hzero.1 hn]; rfl
    · next hn => rw [bne_iff_ne.2 (mt hzero.2 hn)]; rfl
  | _ => cases h

/-- To cast a value to a kind reduces its integer. -/
theorem integer_cast (hkind : kind.isFloat = false)
    (h : v.representation.isFloat = false) :
    (v.cast kind).integer = kind.reduce v.integer := by
  rw [cast]
  cases hrep : kind.representation with
  | bool =>
    obtain rfl := ScalarKind.representation_eq_bool_iff.1 hrep
    exact toInt_toBool h
  | int =>
    have hclass := ScalarKind.representation_eq_int_iff.1 hrep
    have hwrap := @integer_wrap kind (int v.toInt) hkind hrep.symm
    exact hwrap.trans
      (ScalarKind.reduce_congr_word (ScalarKind.isInt_iff.2 (.inl hclass)) (toInt_modEq h))
  | uint =>
    have hclass := ScalarKind.representation_eq_uint_iff.1 hrep
    have hwrap := @integer_wrap kind (uint v.toUInt) hkind hrep.symm
    exact hwrap.trans
      (ScalarKind.reduce_congr_word (ScalarKind.isInt_iff.2 (.inr hclass)) (toUInt_modEq h))
  | _ => cases kind <;> cases hkind <;> cases hrep

end Value

/-! ## Operators on values -/

/-- The signed integer of a word that an integer finds is congruent to the integer. -/
theorem Int64.toInt_modEq {x : Int64} {n : Int} (h : x.toBitVec = BitVec.ofInt 64 n) :
    x.toInt ≡ n [ZMOD 2 ^ 64] := by
  have hmod := @Word.integer_ofInt_modEq 64 true n
  rwa [← h] at hmod

/-- The unsigned integer of a word that an integer finds is congruent to the integer. -/
theorem UInt64.toNat_modEq {x : UInt64} {n : Int} (h : x.toBitVec = BitVec.ofInt 64 n) :
    x.toNat ≡ n [ZMOD 2 ^ 64] := by
  have hmod := @Word.integer_ofInt_modEq 64 false n
  rwa [← h] at hmod

section Words

variable {kind : ScalarKind} {n : Int}

/-- A signed result that is right as a word of 64 bits is right when it is brought into range. -/
theorem Value.integer_wrap_int (hrep : kind.representation = .int) {x : Int64}
    (h : x.toBitVec = BitVec.ofInt 64 n) : ((int x).wrap kind).integer = kind.reduce n := by
  have hclass := ScalarKind.representation_eq_int_iff.1 hrep
  refine (ScalarKind.toInt_wrapInt hclass x).trans ?_
  exact ScalarKind.reduce_congr_word (ScalarKind.isInt_iff.2 (.inl hclass)) (Int64.toInt_modEq h)

/-- An unsigned result that is right as a word of 64 bits is right when it is brought into range. -/
theorem Value.integer_wrap_uint (hrep : kind.representation = .uint) {x : UInt64}
    (h : x.toBitVec = BitVec.ofInt 64 n) : ((uint x).wrap kind).integer = kind.reduce n := by
  have hclass := ScalarKind.representation_eq_uint_iff.1 hrep
  refine (ScalarKind.toNat_wrapUInt hclass x).trans ?_
  exact ScalarKind.reduce_congr_word (ScalarKind.isInt_iff.2 (.inr hclass)) (UInt64.toNat_modEq h)

end Words

section Read

variable {kind : ScalarKind}

theorem Value.representation_ofWord (kind : ScalarKind) (word : UInt64) :
    (ofWord kind word).representation = kind.representation := by
  rw [ofWord]
  cases kind.representation <;> rfl

theorem Value.representation_ofBytes (kind : ScalarKind) (b : Bytes) :
    (ofBytes kind b).representation = kind.representation :=
  representation_ofWord kind _

/-- The value of an element is the number that its bytes spell in their place, reduced to its kind. -/
theorem Value.integer_ofWord_decodeAt (hkind : kind.isFloat = false) (b : Bytes) (pos : Nat) :
    (ofWord kind (Element.decodeAt kind b pos)).integer =
      kind.reduce (LittleEndian.readAt b pos kind.itemsize) := by
  have hlt := LittleEndian.readAt_lt b pos kind.itemsize
  rw [Element.decodeAt]
  generalize LittleEndian.readAt b pos kind.itemsize = m at hlt
  have hword : (UInt64.ofNat m).toBitVec = BitVec.ofInt 64 m := (BitVec.ofInt_natCast 64 m).symm
  -- Truth values are told from zero, signed words are wrapped, and unsigned ones are in range already.
  cases hrep : kind.representation with
  | bool =>
    obtain rfl := ScalarKind.representation_eq_bool_iff.1 hrep
    have hzero : UInt64.ofNat m = 0 ↔ (m : Int) = 0 := by
      rw [← UInt64.toNat_inj, UInt64.toNat_ofNat', Nat.mod_eq_of_lt (hlt.trans (by decide))]
      exact Int.natCast_eq_zero.symm
    rw [if_pos rfl, ofWord]
    change Bool.toInt (_ != 0) = if (m : Int) = 0 then 0 else 1
    simp only [hzero]
    split <;> rfl
  | int =>
    have hne : kind ≠ .bool := by
      rintro rfl
      cases hrep
    rw [if_neg hne, ofWord, hrep]
    exact Value.integer_wrap_int hrep hword
  | uint =>
    have hne : kind ≠ .bool := by
      rintro rfl
      cases hrep
    have hclass := ScalarKind.representation_eq_uint_iff.1 hrep
    have hcontains : kind.Contains m := by
      rw [ScalarKind.Contains, hclass, ScalarKind.bits, pow_mul]
      exact ⟨Int.natCast_nonneg m, by exact_mod_cast hlt⟩
    have hsmall : m < 2 ^ 64 := hlt.trans_le (by cases kind <;> decide)
    rw [if_neg hne, ofWord, hrep, ScalarKind.reduce_of_contains hcontains]
    exact congrArg Nat.cast ((UInt64.toNat_ofNat').trans (Nat.mod_eq_of_lt hsmall))
  | _ => cases kind <;> cases hkind <;> cases hrep

/-- The value of an element is the number that its bytes spell, reduced to its kind. -/
theorem Value.integer_ofBytes (hkind : kind.isFloat = false) (b : Bytes) :
    (ofBytes kind b).integer = kind.reduce (LittleEndian.readAt b 0 kind.itemsize) :=
  integer_ofWord_decodeAt hkind b 0

end Read

namespace UnaryOp

variable {op : UnaryOp} {f : Int → Int} {kind : ScalarKind} {v : Value}

theorem toBitVec_absInt (x : Int64) : (absInt x).toBitVec = Word.magnitude true x.toBitVec := by
  have hneg : x < 0 ↔ x.toBitVec.slt 0 = true := Iff.rfl
  unfold absInt Word.magnitude
  simp only [hneg, apply_ite Int64.toBitVec, true_and]
  rfl

/-- The kernels of the evaluator on signed integers are those on words of 64 bits. -/
theorem exists_intKernel {g : BitVec 64 → BitVec 64} (h : op.wordKernel? true = some g) (x : Int64) :
    ∃ y, computeValue kind op (.int x) = .ok (.int y) ∧ y.toBitVec = g x.toBitVec := by
  cases op with
  | neg =>
    cases h
    exact ⟨_, rfl, rfl⟩
  | not =>
    cases h
    exact ⟨_, rfl, rfl⟩
  | abs =>
    cases h
    exact ⟨_, rfl, toBitVec_absInt x⟩
  | _ => cases h

/-- The kernels of the evaluator on unsigned integers are those on words of 64 bits. -/
theorem exists_uintKernel {g : BitVec 64 → BitVec 64} (h : op.wordKernel? false = some g)
    (x : UInt64) :
    ∃ y, computeValue kind op (.uint x) = .ok (.uint y) ∧ y.toBitVec = g x.toBitVec := by
  cases op with
  | neg =>
    cases h
    exact ⟨_, rfl, rfl⟩
  | not =>
    cases h
    exact ⟨_, rfl, rfl⟩
  | abs =>
    cases h
    exact ⟨x, rfl, rfl⟩
  | _ => cases h

/-- An operator applied to an element of a kind gives the exact result reduced to the kind. -/
theorem exists_applyValue (hf : op.exactOp? = some f) (hkind : op.resultKind kind = .ok kind)
    (hnot : op = not → kind ≠ .bool) (hfloat : kind.isFloat = false)
    (hv : v.representation = kind.representation) :
    ∃ x, op.applyValue kind v = .ok x ∧ x.representation = kind.representation ∧
      x.integer = kind.reduce (f v.integer) := by
  cases v with
  | bool b =>
    obtain rfl := ScalarKind.representation_eq_bool_iff.1 hv.symm
    cases op with
    | neg => cases hkind
    | not => exact absurd rfl (hnot rfl)
    | abs =>
      cases hf
      exact ⟨.bool b, rfl, rfl, by cases b <;> rfl⟩
    | _ => cases hf
  | int i =>
    obtain ⟨g, hg, hexact⟩ := @exists_wordKernel 64 true op f hf
    obtain ⟨y, hy, hword⟩ := exists_intKernel hg i
    refine ⟨(Value.int y).wrap kind, ?_, hv, Value.integer_wrap_int hv.symm ?_⟩
    · rw [applyValue, hy]
      rfl
    · rw [hword, hexact, Word.integer_true, Int64.toInt_toBitVec]
      rfl
  | uint n =>
    obtain ⟨g, hg, hexact⟩ := @exists_wordKernel 64 false op f hf
    obtain ⟨y, hy, hword⟩ := exists_uintKernel hg n
    refine ⟨(Value.uint y).wrap kind, ?_, hv, Value.integer_wrap_uint hv.symm ?_⟩
    · rw [applyValue, hy]
      rfl
    · rw [hword, hexact, Word.integer_false, UInt64.toNat_toBitVec]
      rfl
  | _ => cases kind <;> cases hfloat <;> cases hv

end UnaryOp

namespace BinaryOp

variable {op : BinaryOp} {f : Int → Int → Int} {kind : ScalarKind} {u v : Value}

/-- The operators of truth values are those of the bits of zero and one. -/
theorem exact_toInt {k : Bool → Bool → Bool} (hf : op.exactOp? = some f)
    (hk : op.boolKernel? = some k) (a b : Bool) : f a.toInt b.toInt = (k a b).toInt := by
  cases op <;> cases hk <;> cases hf <;> cases a <;> cases b <;> rfl

/-- An operator applied in a kind gives the exact result of the reduced operands, reduced again. -/
theorem exists_applyValue (hf : op.exactOp? = some f)
    (hkernel : op.hasKernel kind.representation = true) (hfloat : kind.isFloat = false)
    (hu : u.representation.isFloat = false) (hv : v.representation.isFloat = false) :
    ∃ x, op.applyValue kind u v = .ok x ∧ x.representation = kind.representation ∧
      x.integer = kind.reduce (f (kind.reduce u.integer) (kind.reduce v.integer)) := by
  have hurep := Value.representation_cast kind u
  have hvrep := Value.representation_cast kind v
  rw [applyValue, ← Value.integer_cast hfloat hu, ← Value.integer_cast hfloat hv]
  generalize u.cast kind = u at hurep
  generalize v.cast kind = v at hvrep
  have hsame : v.representation = u.representation := hvrep.trans hurep.symm
  -- Both operands have the representation of the kind now, so one kernel is left in each case.
  cases u with
  | bool a =>
    cases v with
    | bool b =>
      obtain rfl := ScalarKind.representation_eq_bool_iff.1 hurep.symm
      obtain ⟨k, hk⟩ := Option.isSome_iff_exists.1 hkernel
      refine ⟨.bool (k a b), ?_, rfl, ?_⟩
      · rw [combineValue, hk]
        rfl
      · rw [Value.integer, Value.integer, Value.integer, exact_toInt hf hk]
        cases k a b <;> rfl
    | _ => cases hsame
  | int a =>
    cases v with
    | int b =>
      obtain ⟨g, hg, hexact⟩ := @exists_wordKernel 64 true op f hf
      obtain ⟨k, hk, hword⟩ := exists_intKernel hg
      refine ⟨(Value.int (k a b)).wrap kind, ?_, hurep, Value.integer_wrap_int hurep.symm ?_⟩
      · rw [combineValue, hk]
        rfl
      · rw [hword, hexact, Word.integer_true, Word.integer_true, Int64.toInt_toBitVec,
          Int64.toInt_toBitVec]
        rfl
    | _ => cases hsame
  | uint a =>
    cases v with
    | uint b =>
      obtain ⟨g, hg, hexact⟩ := @exists_wordKernel 64 false op f hf
      obtain ⟨k, hk, hword⟩ := exists_uintKernel hg
      refine ⟨(Value.uint (k a b)).wrap kind, ?_, hurep, Value.integer_wrap_uint hurep.symm ?_⟩
      · rw [combineValue, hk]
        rfl
      · rw [hword, hexact, Word.integer_false, Word.integer_false, UInt64.toNat_toBitVec,
          UInt64.toNat_toBitVec]
        rfl
    | _ => cases hsame
  | _ => cases kind <;> cases hfloat <;> cases hurep

end BinaryOp

end ChunkedArray
