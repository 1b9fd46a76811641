import ChunkedArray.Proofs.Expr.Elements
import Mathlib.RingTheory.Int.Basic
import Mathlib.Tactic.Ring

/-!
# Integer powers

A power is computed by repeated squaring of words, so it wraps like every other operator, but exponents
beyond the greatest one that is told apart are cut down to it. An even base gives zero for both. An odd
base gives the right power only where the two exponents differ by a multiple of its order, so the
greatest exponents of the widest kinds give wrong powers.
-/

namespace ChunkedArray

open ChunkedArray.Action ChunkedArray.Shape

namespace ScalarKind

variable {kind : ScalarKind} {m n : Int}

/-- Integers are reduced to the same one exactly if they are congruent. -/
theorem reduce_eq_iff (h : kind.isInt = true) :
    kind.reduce m = kind.reduce n ↔ m ≡ n [ZMOD 2 ^ kind.bits] := by
  refine ⟨fun heq => ?_, reduce_congr h⟩
  have hm := (reduce_modEq h m).symm
  rw [heq] at hm
  exact hm.trans (reduce_modEq h n)

end ScalarKind

namespace BinaryOp

/-- The power of a word is the word of the power. -/
theorem toBitVec_powWord {x : UInt64} {n : Nat} {m : Int} (h : x.toBitVec = BitVec.ofInt 64 m) :
    (powWord x n).toBitVec = BitVec.ofInt 64 (m ^ n) := by
  have hsquare {x : UInt64} {m : Int} (h : x.toBitVec = BitVec.ofInt 64 m) :
      (x * x).toBitVec = BitVec.ofInt 64 (m * m) := by
    rw [UInt64.toBitVec_mul, h, BitVec.ofInt_mul]
  induction x, n using powWord.induct generalizing m with
  | case1 x =>
    rw [Int.pow_zero, powWord]
    rfl
  | case2 x n hn hodd ih =>
    have hpow : m * (m * m) ^ (n / 2) = m ^ n := by
      conv_rhs => rw [← Nat.div_add_mod n 2, hodd]
      ring
    rw [powWord, if_neg hn, if_pos hodd, UInt64.toBitVec_mul, h, ih (hsquare h), ← BitVec.ofInt_mul,
      hpow]
  | case3 x n hn heven ih =>
    have hpow : (m * m) ^ (n / 2) = m ^ n := by
      conv_rhs => rw [← Nat.div_add_mod n 2, Nat.mod_two_ne_one.1 heven]
      ring
    rw [powWord, if_neg hn, if_neg heven, ih (hsquare h), hpow]

/-- Where the exponent is cut down, the right power is reached exactly by an even base and by one whose
order divides what is missing. -/
theorem pow_cut_modEq_iff {m : Int} {n : Nat} (h : maxExponent < n) :
    m ^ maxExponent ≡ m ^ n [ZMOD 2 ^ 64] ↔ Even m ∨ (2 : Int) ^ 64 ∣ m ^ (n - maxExponent) - 1 := by
  have hfactor : m ^ n - m ^ maxExponent = m ^ maxExponent * (m ^ (n - maxExponent) - 1) := by
    rw [mul_sub, ← pow_add, Nat.add_sub_cancel' h.le, mul_one]
  rw [Int.modEq_iff_dvd, hfactor]
  rcases Int.even_or_odd m with heven | hodd
  · -- An even base is zero from the exponent 64 on.
    have hzero : (2 : Int) ^ 64 ∣ m ^ maxExponent :=
      (pow_dvd_pow_of_dvd heven.two_dvd 64).trans (pow_dvd_pow m (by decide))
    exact iff_of_true (hzero.mul_right _) (.inl heven)
  · have hcoprime : IsCoprime ((2 : Int) ^ 64) (m ^ maxExponent) :=
      (Int.isCoprime_two_left.2 hodd).pow
    rw [or_iff_right (Int.not_even_iff_odd.2 hodd)]
    exact ⟨hcoprime.dvd_of_dvd_mul_left, fun hdvd => hdvd.mul_left _⟩

/-- The power of signed words whose exponent is not below zero. -/
theorem toBitVec_powInt {x y : Int64} (h : 0 ≤ y.toInt) :
    (powInt x y).toBitVec = BitVec.ofInt 64 (x.toInt ^ min y.toInt.toNat maxExponent) := by
  have hword : x.toUInt64.toBitVec = BitVec.ofInt 64 x.toInt := BitVec.ofInt_toInt.symm
  have hneg : ¬y < 0 := by
    rw [Int64.lt_iff_toInt_lt]
    exact h.not_gt
  rw [powInt, if_neg hneg, UInt64.toBitVec_toInt64, toBitVec_powWord hword]

variable {kind : ScalarKind} {u v : Value} {m n : Int}

/-- The power of two elements of an integer kind, the exponent not below zero, is the power with the
exponent cut down to the greatest one that is told apart, reduced to the kind. -/
theorem exists_applyValue_pow (hkind : kind.isInt = true) (hu : u.representation.isFloat = false)
    (hv : v.representation.isFloat = false) (hbase : kind.Contains u.integer)
    (hexponent : kind.Contains v.integer) (hnonneg : 0 ≤ v.integer) :
    ∃ x, pow.applyValue kind u v = .ok x ∧
      x.integer = kind.reduce (u.integer ^ min v.integer.toNat maxExponent) := by
  have hfloat := ScalarKind.isFloat_of_isInt hkind
  have hurep := Value.representation_cast kind u
  have hvrep := Value.representation_cast kind v
  have hucast := (Value.integer_cast hfloat hu).trans (ScalarKind.reduce_of_contains hbase)
  have hvcast := (Value.integer_cast hfloat hv).trans (ScalarKind.reduce_of_contains hexponent)
  rw [← hvcast] at hnonneg
  rw [applyValue, ← hucast, ← hvcast]
  generalize u.cast kind = u at hurep
  generalize v.cast kind = v at hvrep hnonneg
  have hsame : v.representation = u.representation := hvrep.trans hurep.symm
  -- Exact powers of signed and of unsigned words; truth values have no power.
  cases u with
  | bool a =>
    obtain rfl := ScalarKind.representation_eq_bool_iff.1 hurep.symm
    cases hkind
  | int a =>
    cases v with
    | int b => exact ⟨_, rfl, Value.integer_wrap_int hurep.symm (toBitVec_powInt hnonneg)⟩
    | _ => cases hsame
  | uint a =>
    cases v with
    | uint b =>
      have hword : a.toBitVec = BitVec.ofInt 64 a.toNat := (Word.ofInt_integer false a.toBitVec).symm
      exact ⟨_, rfl, Value.integer_wrap_uint hurep.symm (toBitVec_powWord hword)⟩
    | _ => cases hsame
  | _ => cases kind <;> cases hkind <;> cases hurep

/-- Which powers survive that the exponent is cut down. -/
theorem reduce_pow_cut_iff (hkind : kind.isInt = true) (hn : kind.Contains n) :
    kind.reduce (m ^ min n.toNat maxExponent) = kind.reduce (m ^ n.toNat) ↔
      n.toNat ≤ maxExponent ∨ Even m ∨ (2 : Int) ^ 64 ∣ m ^ (n.toNat - maxExponent) - 1 := by
  rcases le_or_gt n.toNat maxExponent with hle | hlt
  · rw [Nat.min_eq_left hle]
    exact iff_of_true rfl (.inl hle)
  · -- Only kinds of 64 bits have exponents that are cut down.
    have hbits : kind.bits = 64 := by
      have hlarge : 2 ^ 32 ≤ n := by
        rw [maxExponent] at hlt
        omega
      cases kind with
      | int64 | uint64 => rfl
      | bool | float32 | float64 => cases hkind
      | _ => exact absurd (hlarge.trans_lt (And.right hn)) (by decide)
    rw [Nat.min_eq_right hlt.le, ScalarKind.reduce_eq_iff hkind, hbits, pow_cut_modEq_iff hlt,
      or_iff_right hlt.not_ge]

end BinaryOp

namespace Expr

variable {reads : String → Prop} {rules : UserFunction → Rule} {w : Workspace} {box : Box}
variable {kind : ScalarKind} {l r e : Expr} {lx rx : Operand}

/-- Two expressions of one integer kind meet in it. -/
theorem meet_of_kind (hkind : kind.isInt = true) (hl : l.kind = kind) (hr : r.kind = kind) :
    (ExprType.meet l.type r.type).1 = kind := by
  have hagainst : ExprType.weakAgainst kind kind = kind := by
    revert hkind
    cases kind <;> decide
  have hpromote : ScalarKind.promote kind kind = kind := if_pos rfl
  rw [Expr.kind] at hl hr
  rw [ExprType.meet, hl, hr, hagainst, hpromote]
  split <;> rfl

section Node

variable (hkind : kind.isInt = true) (hl : WellBuilt w l) (hr : WellBuilt w r) (hlkind : l.kind = kind)
variable (hrkind : r.kind = kind) (he : mkBinary .pow l r = .ok e) (hlawful : e.Lawful reads rules)
variable (hbox : box.Inside e.shape) (hne : box.Nonempty)
variable (hcount : (operandBox e.shape box).shape.isCountable = true)
variable (hlx : outcome (eval box l) w = .ok lx) (hrx : outcome (eval box r) w = .ok rx)

include hkind hl hr hlkind hrkind he hlawful hbox hne hcount hlx hrx

/-- The power of two expressions of one integer kind is the power of their elements, the exponent cut
down to the greatest one that is told apart, reduced to the kind. -/
theorem exists_eval_pow : e.kind = kind ∧ ∃ x, outcome (eval box e) w = .ok x ∧
    x.shape = (operandBox e.shape box).shape ∧ ∀ d, x.shape.Holds d → ∀ m n : Int,
      (lx.get (lx.shape.project d)).integer = m → (rx.get (rx.shape.project d)).integer = n → 0 ≤ n →
        kind.Contains n ∧ (x.get d).integer = kind.reduce (m ^ min n.toNat maxExponent) := by
  obtain ⟨type, rfl, hshape, hoperand⟩ := mkBinary_eq_ok he
  have hresult : type.kind = kind := by
    rw [meet_of_kind hkind hlkind hrkind] at hoperand
    cases kind <;> cases hkind <;> exact (Except.ok.inj hoperand).symm
  obtain ⟨x, hx, hconforms, hcombines, hlc, hrc⟩ :=
    exists_eval_binary hl.typed hr.typed hlawful hshape hoperand hbox hne hcount hlx hrx
  refine ⟨hresult, x, hx, hconforms.shape, fun d hd m n hm hn hnonneg => ?_⟩
  obtain ⟨hls, hrs⟩ := stretches_of_broadcast hcombines.shape
  have hfloat := ScalarKind.isFloat_of_isInt hkind
  have hbase := hlc.contains (hlkind ▸ hkind) (holds_project hls hd)
  have hexponent := hrc.contains (hrkind ▸ hkind) (holds_project hrs hd)
  have hu := Operand.isFloat_get hlc.holds (lx.shape.project d)
  have hv := Operand.isFloat_get hrc.holds (rx.shape.project d)
  have hget := hcombines.get d hd
  rw [hlkind] at hbase hu
  rw [hrkind] at hexponent hv
  subst hm hn
  obtain ⟨y, hy, hpower⟩ := BinaryOp.exists_applyValue_pow hkind (hu.trans hfloat) (hv.trans hfloat)
    hbase hexponent hnonneg
  rw [hresult, hy] at hget
  cases hget
  exact ⟨hexponent, hpower⟩

/-- Integer powers wrap, with the exponent cut down to the greatest one that is told apart. The power is
the right one, reduced to the kind, exactly if the exponent was told apart, the base is even, or the
order of the base divides what is missing. -/
theorem eval_pow : e.kind = kind ∧ ∃ x, outcome (eval box e) w = .ok x ∧
    x.shape = (operandBox e.shape box).shape ∧ ∀ d, x.shape.Holds d → ∀ m n : Int,
      (lx.get (lx.shape.project d)).integer = m → (rx.get (rx.shape.project d)).integer = n → 0 ≤ n →
        (x.get d).integer = kind.reduce (m ^ min n.toNat maxExponent) ∧
        ((x.get d).integer = kind.reduce (m ^ n.toNat) ↔ n.toNat ≤ maxExponent ∨ Even m ∨
          (2 : Int) ^ 64 ∣ m ^ (n.toNat - maxExponent) - 1) := by
  obtain ⟨hresult, x, hx, hshape, hvalue⟩ :=
    exists_eval_pow hkind hl hr hlkind hrkind he hlawful hbox hne hcount hlx hrx
  refine ⟨hresult, x, hx, hshape, fun d hd m n hm hn hnonneg => ?_⟩
  obtain ⟨hexponent, hpower⟩ := hvalue d hd m n hm hn hnonneg
  rw [hpower]
  exact ⟨rfl, BinaryOp.reduce_pow_cut_iff hkind hexponent⟩

end Node

section Literals

variable (base exponent : Int64)

/-- The power of two scalars. -/
def powOfLiterals : Expr :=
  .binary .pow ⟨[], .int64, true⟩ (.literal (.int base)) (.literal (.int exponent))

theorem lawful_powOfLiterals :
    Lawful (fun _ => True) (fun _ _ _ => .ok default) (powOfLiterals base exponent) :=
  ⟨fun _ _ => trivial, fun _ hf => by cases hf⟩

end Literals

/-- Three to the fifth power. -/
theorem eval_pow_three : ∃ x, outcome (eval [] (powOfLiterals 3 5)) {} = .ok x ∧
    (x.get []).integer = 243 := by
  obtain ⟨-, x, hx, hshape, hvalue⟩ := @eval_pow _ _ {} [] .int64 _ _ _ _ _ rfl
    (.literal (.int 3)) (.literal (.int 5)) rfl rfl rfl (lawful_powOfLiterals 3 5) .nil
    (List.forall_mem_nil _) rfl rfl rfl
  exact ⟨x, hx, (hvalue [] (hshape ▸ .nil) 3 5 rfl rfl (by decide)).1⟩

/-- The power of minus one with the exponent `2 ^ 32` comes out as minus one. -/
theorem eval_pow_minus_one : ∃ x,
    outcome (eval [] (powOfLiterals (-1) 4294967296)) {} = .ok x ∧ (x.get []).integer = -1 ∧
      ScalarKind.int64.reduce ((-1) ^ 4294967296) = 1 := by
  obtain ⟨-, x, hx, hshape, hvalue⟩ := @exists_eval_pow _ _ {} [] .int64 _ _ _ _ _ rfl
    (.literal (.int (-1))) (.literal (.int 4294967296)) rfl rfl rfl (lawful_powOfLiterals _ _) .nil
    (List.forall_mem_nil _) rfl rfl rfl
  obtain ⟨-, hpower⟩ := hvalue [] (hshape ▸ .nil) (-1) 4294967296 rfl rfl (by decide)
  have hcut : min (Int.toNat 4294967296) maxExponent = 4294967295 := by decide
  rw [hcut, Odd.neg_one_pow (by decide)] at hpower
  refine ⟨x, hx, hpower, ?_⟩
  rw [Even.neg_one_pow (by decide)]
  rfl

end Expr

end ChunkedArray
