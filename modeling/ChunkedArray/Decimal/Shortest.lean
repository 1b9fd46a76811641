import ChunkedArray.Arithmetic

/-!
# The shortest decimal that reads back

A binary fraction `m * 2 ^ q` stands for every real number that rounds to it. Among the decimals in
that interval `shortest` takes one with the fewest digits and, of those, the nearest. Two of them
may be equally near; which one is taken is a parameter, since the places that write numbers differ
in it. The grids of ten are tried from coarse to fine: if a point of a grid lies in the interval, so
does one of the value's two neighbours on that grid, so only those are tested.
-/

namespace ChunkedArray.Shortest

/-- The parts of a finite binary number in double precision. -/
structure Parts where
  /-- The integer significand. -/
  significand : Nat
  /-- The exponent of two. -/
  exponent : Int
  /-- Whether the next lower number is only half as far away as the next higher one. -/
  lowerIsNear : Bool
deriving DecidableEq, Repr

/-- The parts of the finite number with the given bits, its sign left out. -/
def parts (bits : UInt64) : Parts :=
  let biased := ((bits >>> 52) &&& 0x7ff).toNat
  let fraction := (bits &&& 0xfffffffffffff).toNat
  if biased = 0 then ⟨fraction, -1074, false⟩
  else ⟨fraction + 2 ^ 52, (biased : Int) - 1075, decide (fraction = 0 ∧ 1 < biased)⟩

/-- A decimal `digits * 10 ^ exponent`. -/
structure Decimal where
  /-- The digits, read as one number. -/
  digits : Nat
  /-- The exponent of ten. -/
  exponent : Int
deriving DecidableEq, Repr

/-- Which of two equally near decimals is taken. -/
inductive Tie where
  /-- The greater one. -/
  | up
  /-- The one with the even last digit. -/
  | toEven
deriving DecidableEq, Repr

namespace Tie

/-- The choice between `below` and its successor when they are equally near. -/
def choose (below : Nat) : Tie → Nat
  | up => below + 1
  | toEven => if below % 2 = 0 then below else below + 1

end Tie

/-- `n * 2 ^ e₂ / 10 ^ e₁₀` as a fraction of natural numbers. -/
def scaled (n : Nat) (e₂ e₁₀ : Int) : Nat × Nat :=
  (n * 2 ^ e₂.toNat * 10 ^ (-e₁₀).toNat, 2 ^ (-e₂).toNat * 10 ^ e₁₀.toNat)

/-- Tests one multiple `c` of `10 ^ k` against the interval of the value, in quarters of a unit. -/
def inside (p : Parts) (k : Int) (c : Nat) : Bool :=
  let low := scaled (4 * p.significand - (if p.lowerIsNear then 1 else 2)) (p.exponent - 2) k
  let high := scaled (4 * p.significand + 2) (p.exponent - 2) k
  if p.significand % 2 = 0 then low.1 ≤ c * low.2 && c * high.2 ≤ high.1
  else low.1 < c * low.2 && c * high.2 < high.1

/-- The best multiple of `10 ^ k` in the interval, if one of the two neighbours lies in it. -/
def onGrid (tie : Tie) (p : Parts) (k : Int) : Option Nat :=
  let v := scaled p.significand p.exponent k
  let below := v.1 / v.2
  let rest := v.1 % v.2
  match inside p k below, inside p k (below + 1) with
  | true, true =>
    if 2 * rest < v.2 then some below
    else if v.2 < 2 * rest then some (below + 1)
    else some (tie.choose below)
  | true, false => some below
  | false, true => some (below + 1)
  | false, false => none

/-- Tries the grids `10 ^ k`, `10 ^ (k - 1)` and so on. -/
def search (tie : Tie) (p : Parts) (k : Int) : (grids : Nat) → Decimal
  | 0 => ⟨0, 0⟩
  | grids + 1 =>
    match onGrid tie p k with
    | some c => ⟨c, k⟩
    | none => search tie p (k - 1) grids

/-- The shortest decimal of a positive finite number; eighteen digits always suffice. -/
def shortest (tie : Tie) (bits : UInt64) : Decimal :=
  let p := parts bits
  search tie p (((p.significand.log2 : Int) + p.exponent) * 1233 / 4096 + 2) 24

end ChunkedArray.Shortest
