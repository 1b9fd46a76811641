import ChunkedArray.Decimal.Numeral
import ChunkedArray.Decimal.Shortest

/-!
# Text of floating-point numbers

The shortest digits of a finite double, set out as a numeral: positionally while the point stays
near the digits, otherwise with an exponent. How far the point may move, and which of two equally
near decimals is written, are parameters of the place where the text is written.
-/

namespace ChunkedArray

/-- How a finite number is written. -/
structure FloatLayout where
  /-- Which of two equally near decimals is written. -/
  tie : Shortest.Tie
  /-- The point stands more than this many places after the first digit. -/
  leastPoint : Int
  /-- The point stands at most this many places after the first digit. -/
  greatestPoint : Int

namespace FloatLayout

/-- The digits of a decimal as a positional numeral or one with an exponent. -/
def arrange (layout : FloatLayout) (negative : Bool) (d : Shortest.Decimal) : Numeral :=
  let ds := Numeral.digits d.digits
  let point : Int := ds.length + d.exponent
  if layout.leastPoint < point ∧ point ≤ layout.greatestPoint then
    if 0 ≤ d.exponent then
      ⟨negative, ds ++ List.replicate d.exponent.toNat 0, [0], none⟩
    else if 0 < point then
      ⟨negative, ds.take point.toNat, ds.drop point.toNat, none⟩
    else
      ⟨negative, [0], List.replicate (-point).toNat 0 ++ ds, none⟩
  else
    ⟨negative, ds.take 1, ds.drop 1, some (point - 1)⟩

/-- The numeral of the finite double with the given bits. -/
def numeral (layout : FloatLayout) (bits : UInt64) : Numeral :=
  let negative := bits >>> 63 != 0
  if bits &&& 0x7fffffffffffffff = 0 then ⟨negative, [0], [0], none⟩
  else layout.arrange negative (Shortest.shortest layout.tie bits)

end FloatLayout

namespace Float64

/-- Whether the double with these bits is neither infinite nor not a number. -/
def isFinite (bits : UInt64) : Bool :=
  (bits >>> 52) &&& 0x7ff != 0x7ff

/-- Whether the double with these bits is not a number. -/
def isNaN (bits : UInt64) : Bool :=
  !isFinite bits && bits &&& 0xfffffffffffff != 0

/-- Inside messages a number is positional from `0.0001` to below `10 ^ 16`, and a tie goes away
from zero. -/
def messageLayout : FloatLayout := ⟨.up, -4, 16⟩

/-- The text of a double inside a message, where a positive exponent has no sign. -/
def messageText (bits : UInt64) : String :=
  if isFinite bits then (messageLayout.numeral bits).text false
  else if isNaN bits then "NaN"
  else if bits >>> 63 = 0 then "inf" else "-inf"

end Float64

end ChunkedArray
