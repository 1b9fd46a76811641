import ChunkedArray.Error

/-!
# Broadcasting

Two shapes meet aligned at their last axes; an axis of length one stretches to the other's length,
and a missing axis counts as one of length one. `project` maps the coordinates of an element of the
common shape to those of the operand's element that stands there.
-/

namespace ChunkedArray.Shape

/-- The common length of two aligned axes. -/
def broadcastAxis (m n : Nat) : Option Nat :=
  if m = n then some m else if m = 1 then some n else if n = 1 then some m else none

/-- The common shape of two shapes given from the last axis to the first. -/
def broadcastReversed : Shape → Shape → Option Shape
  | [], b => some b
  | a, [] => some a
  | m :: a, n :: b => do
    let k ← broadcastAxis m n
    let rest ← broadcastReversed a b
    some (k :: rest)

/-- The common shape of two shapes, if they have one. -/
def broadcast? (a b : Shape) : Option Shape :=
  (broadcastReversed a.reverse b.reverse).map List.reverse

/-- The common shape of two shapes. -/
def broadcast (a b : Shape) : Result Shape :=
  match broadcast? a b with
  | some shape => .ok shape
  | none => .error (.shape (.notBroadcastable a b))

/-- Whether an operand can be stretched to a shape: aligned at the end, every axis has the length of
its counterpart or one. -/
def stretchesTo (operand target : Shape) : Bool :=
  operand.length ≤ target.length &&
    (operand.zip (target.drop (target.length - operand.length))).all fun p => p.1 == p.2 || p.1 == 1

/-- The coordinates in an operand of the element at coordinates `coords` of a larger shape. -/
def project (operand : Shape) (coords : List Nat) : List Nat :=
  List.zipWith (fun n i => if n = 1 then 0 else i) operand
    (coords.drop (coords.length - operand.length))

theorem broadcastAxis_comm (m n : Nat) : broadcastAxis m n = broadcastAxis n m := by
  unfold broadcastAxis
  grind

end ChunkedArray.Shape
