import ChunkedArray.Arithmetic

/-!
# Floating-point words

Floating-point elements are kept as their bit patterns, so that an element that no operator touches
passes through unchanged, whatever its payload. Arithmetic interprets the patterns. An operator with
an undefined result gives the quiet form of its first operand that is not a number, or else the
default pattern.

Every finite magnitude is a whole number of the smallest positive one, its number of `units`. On
units the remainder is exact integer arithmetic.
-/

namespace ChunkedArray

/-- The words of a binary floating-point format and its arithmetic. What an operator gives where its
result is undefined is settled by the functions below. -/
class FloatWord (ω : Type) where
  /-- The width of the fraction. -/
  fractionBits : Nat
  /-- The width of the exponent. -/
  exponentBits : Nat
  /-- The bits of a word. -/
  toNat : ω → Nat
  /-- The word with the given bits. -/
  ofNat : Nat → ω
  /-- The rounded sum. -/
  rawAdd : ω → ω → ω
  /-- The rounded difference. -/
  rawSub : ω → ω → ω
  /-- The rounded product. -/
  rawMul : ω → ω → ω
  /-- The rounded quotient. -/
  rawDiv : ω → ω → ω
  /-- The power to any exponent. -/
  rawPow : ω → ω → ω
  /-- The greatest integer that is not above. -/
  rawFloor : ω → ω
  /-- The square root. -/
  rawSqrt : ω → ω
  /-- The exponential. -/
  rawExp : ω → ω
  /-- The natural logarithm. -/
  rawLog : ω → ω
  /-- The sine. -/
  rawSin : ω → ω
  /-- The cosine. -/
  rawCos : ω → ω
  /-- Whether one number is below another. -/
  lt : ω → ω → Bool
  /-- Whether one number is at most another. -/
  le : ω → ω → Bool
  /-- Whether two numbers are equal. -/
  eq : ω → ω → Bool

namespace FloatWord

/-- Single precision. -/
instance : FloatWord UInt32 where
  fractionBits := 23
  exponentBits := 8
  toNat := UInt32.toNat
  ofNat := UInt32.ofNat
  rawAdd x y := (Float32.ofBits x + Float32.ofBits y).toBits
  rawSub x y := (Float32.ofBits x - Float32.ofBits y).toBits
  rawMul x y := (Float32.ofBits x * Float32.ofBits y).toBits
  rawDiv x y := (Float32.ofBits x / Float32.ofBits y).toBits
  rawPow x y := (Float32.pow (Float32.ofBits x) (Float32.ofBits y)).toBits
  rawFloor x := (Float32.ofBits x).floor.toBits
  rawSqrt x := (Float32.ofBits x).sqrt.toBits
  rawExp x := (Float32.ofBits x).exp.toBits
  rawLog x := (Float32.ofBits x).log.toBits
  rawSin x := (Float32.ofBits x).sin.toBits
  rawCos x := (Float32.ofBits x).cos.toBits
  lt x y := Float32.ofBits x < Float32.ofBits y
  le x y := Float32.ofBits x ≤ Float32.ofBits y
  eq x y := Float32.ofBits x == Float32.ofBits y

/-- Double precision. -/
instance : FloatWord UInt64 where
  fractionBits := 52
  exponentBits := 11
  toNat := UInt64.toNat
  ofNat := UInt64.ofNat
  rawAdd x y := (Float.ofBits x + Float.ofBits y).toBits
  rawSub x y := (Float.ofBits x - Float.ofBits y).toBits
  rawMul x y := (Float.ofBits x * Float.ofBits y).toBits
  rawDiv x y := (Float.ofBits x / Float.ofBits y).toBits
  rawPow x y := (Float.pow (Float.ofBits x) (Float.ofBits y)).toBits
  rawFloor x := (Float.ofBits x).floor.toBits
  rawSqrt x := (Float.ofBits x).sqrt.toBits
  rawExp x := (Float.ofBits x).exp.toBits
  rawLog x := (Float.ofBits x).log.toBits
  rawSin x := (Float.ofBits x).sin.toBits
  rawCos x := (Float.ofBits x).cos.toBits
  lt x y := Float.ofBits x < Float.ofBits y
  le x y := Float.ofBits x ≤ Float.ofBits y
  eq x y := Float.ofBits x == Float.ofBits y

variable {ω : Type} [FloatWord ω]

/-! ## Fields of a word -/

variable (ω) in
/-- The weight of the sign bit. -/
def signWeight : Nat := 2 ^ (fractionBits ω + exponentBits ω)

variable (ω) in
/-- The exponent field of infinities and of what is not a number. -/
def topField : Nat := 2 ^ exponentBits ω - 1

/-- Whether the sign bit is set. -/
def isNegative (x : ω) : Bool := signWeight ω ≤ toNat x

/-- The exponent field. -/
def field (x : ω) : Nat := toNat x / 2 ^ fractionBits ω % 2 ^ exponentBits ω

/-- The fraction field. -/
def fraction (x : ω) : Nat := toNat x % 2 ^ fractionBits ω

/-- Whether a word is not a number. -/
def isNaN (x : ω) : Bool := field x == topField ω && fraction x != 0

/-- Whether a word is an infinity. -/
def isInfinite (x : ω) : Bool := field x == topField ω && fraction x == 0

variable (ω) in
/-- The weight of the bit that marks a quiet pattern. -/
def quietWeight : Nat := 2 ^ (fractionBits ω - 1)

/-- The quiet form of a word that is not a number. -/
def quiet (x : ω) : ω := ofNat (toNat x ||| quietWeight ω)

variable (ω) in
/-- The pattern of an undefined result: negative, quiet, without payload. -/
def defaultNaN : ω :=
  ofNat (signWeight ω + topField ω * 2 ^ fractionBits ω + quietWeight ω)

/-- Settles the result `r` of an operator on `x`. -/
def settle₁ (x r : ω) : ω :=
  if isNaN r then (if isNaN x then quiet x else defaultNaN ω) else r

/-- Settles the result `r` of an operator on `x` and `y`. -/
def settle₂ (x y r : ω) : ω :=
  if isNaN r then (if isNaN x then quiet x else if isNaN y then quiet y else defaultNaN ω) else r

/-! ## Units -/

/-- The magnitude of a finite word as a multiple of the smallest positive one. -/
def units (x : ω) : Nat :=
  if field x = 0 then fraction x
  else (2 ^ fractionBits ω + fraction x) * 2 ^ (field x - 1)

variable (ω) in
/-- The units of the number one. -/
def unitsOfOne : Nat := 2 ^ (fractionBits ω + (2 ^ (exponentBits ω - 1) - 2))

/-- The non-negative word of a magnitude that the format holds exactly. -/
def ofUnits (r : Nat) : ω :=
  let shift := r.log2 - fractionBits ω
  ofNat (shift * 2 ^ fractionBits ω + r / 2 ^ shift)

/-- The value of a word that stands for an integer. -/
def toInt? (x : ω) : Option Int :=
  if field x = topField ω ∨ units x % unitsOfOne ω ≠ 0 then none
  else
    let n : Int := (units x / unitsOfOne ω : Nat)
    some (if isNegative x then -n else n)

/-! ## Operators -/

/-- The negative: the sign bit is flipped. -/
def neg (x : ω) : ω :=
  if isNegative x then ofNat (toNat x - signWeight ω) else ofNat (toNat x + signWeight ω)

/-- The magnitude: the sign bit is cleared. -/
def abs (x : ω) : ω := if isNegative x then neg x else x

/-- The sum. -/
def add (x y : ω) : ω := settle₂ x y (rawAdd x y)

/-- The difference. -/
def sub (x y : ω) : ω := settle₂ x y (rawSub x y)

/-- The product. -/
def mul (x y : ω) : ω := settle₂ x y (rawMul x y)

/-- The quotient. -/
def div (x y : ω) : ω := settle₂ x y (rawDiv x y)

/-- The greatest integer that is not above. -/
def floor (x : ω) : ω := settle₁ x (rawFloor x)

/-- The square root. -/
def sqrt (x : ω) : ω := settle₁ x (rawSqrt x)

/-- The exponential. -/
def exp (x : ω) : ω := settle₁ x (rawExp x)

/-- The natural logarithm. -/
def log (x : ω) : ω := settle₁ x (rawLog x)

/-- The sine. -/
def sin (x : ω) : ω := settle₁ x (rawSin x)

/-- The cosine. -/
def cos (x : ω) : ω := settle₁ x (rawCos x)

/-- The number zero. -/
def zero : ω := ofNat 0

/-- The number one. -/
def one : ω := ofUnits (unitsOfOne ω)

/-- The remainder of the quotient cut off towards zero; it has the sign of `x`. -/
def truncRem (x y : ω) : ω :=
  if isNaN x then quiet x
  else if isNaN y then quiet y
  else if isInfinite x ∨ (field y = 0 ∧ fraction y = 0) then defaultNaN ω
  else if isInfinite y then x
  else
    let r : ω := ofUnits (units x % units y)
    if isNegative x then neg r else r

/-- The remainder of the quotient rounded down; it has the sign of `y`. -/
def floorRem (x y : ω) : ω :=
  let r := truncRem x y
  if !eq r zero && lt r zero != lt y zero then add r y else r

/-- Multiplies `acc` by the `n`th power of `x`, squaring from the low bits of `n` up. -/
def powerFrom (x acc : ω) (n : Nat) : ω :=
  let acc := if n % 2 = 1 then mul acc x else acc
  if n / 2 = 0 then acc else powerFrom (mul x x) acc (n / 2)
termination_by n
decreasing_by omega

/-- The power to an integer: by repeated squaring, then inverted if the exponent is negative. -/
def powInt (x : ω) (n : Int) : ω :=
  let r := powerFrom x one n.natAbs
  if n < 0 then div one r else r

/-- The power. An exponent that stands for an integer of 32 bits multiplies. -/
def pow (x y : ω) : ω :=
  match toInt? y with
  | some n => if -(2 ^ 31) ≤ n ∧ n < 2 ^ 31 then powInt x n else settle₂ x y (rawPow x y)
  | none => settle₂ x y (rawPow x y)

/-! ## Conversions -/

/-- A word that is not a number in another format: its quiet form with the high bits of the
payload. -/
def convertNaN {υ : Type} [FloatWord υ] (x : ω) : υ :=
  let payload :=
    if fractionBits ω ≤ fractionBits υ then fraction x * 2 ^ (fractionBits υ - fractionBits ω)
    else fraction x / 2 ^ (fractionBits ω - fractionBits υ)
  let sign := if isNegative x then signWeight υ else 0
  quiet (ofNat (sign + topField υ * 2 ^ fractionBits υ + payload))

/-- Single precision from double precision. -/
def toSingle (x : UInt64) : UInt32 :=
  if isNaN x then convertNaN x else (Float.ofBits x).toFloat32.toBits

/-- Double precision from single precision. -/
def toDouble (x : UInt32) : UInt64 :=
  if isNaN x then convertNaN x else (Float32.ofBits x).toFloat.toBits

end FloatWord

end ChunkedArray
