import ChunkedArray.Error

/-!
# Regions

A region asks for a part of an array: for each of its leading axes a single position or a slice
`start:stop:step`, with missing axes taken whole. Resolved against a shape, every axis becomes an
arithmetic progression of positions. Negative bounds count from the end; slices clip to the axis,
and a strict resolution refuses bounds beyond either end instead. Positions are signed 64-bit words:
an axis too long for them has no position at all.
-/

namespace ChunkedArray

/-- The request for one axis. -/
inductive Slice where
  /-- A single position; the axis stays, with length one. -/
  | single (index : Int)
  /-- Positions from `start` up to, not including, `stop`, in steps of `step`. -/
  | range (start stop : Option Int) (step : Int)
deriving DecidableEq, Repr

/-- The positions `first`, `first + step`, … of one axis, `count` of them. -/
structure Progression where
  /-- The first position. -/
  first : Nat
  /-- The number of positions. -/
  count : Nat
  /-- The distance from one position to the next. -/
  step : Int
deriving DecidableEq, Repr

/-- A half-open range of positions. -/
structure Span where
  /-- The first position. -/
  start : Nat
  /-- The position after the last. -/
  stop : Nat
deriving DecidableEq, Repr

namespace Span

/-- The number of positions. -/
def length (s : Span) : Nat := s.stop - s.start

/-- Whether there is no position. -/
def isEmpty (s : Span) : Bool := s.stop ≤ s.start

/-- The positions in both spans. -/
def inter (a b : Span) : Span := ⟨max a.start b.start, min a.stop b.stop⟩

end Span

/-- A box of elements: a span for every axis. -/
abbrev Box := List Span

/-- The shape of a box. -/
def Box.shape (box : Box) : Shape :=
  box.map Span.length

/-- The coordinates of the first corner of a box. -/
def Box.origin (box : Box) : List Nat :=
  box.map Span.start

namespace Progression

/-- The position number `k`. -/
def index (p : Progression) (k : Nat) : Nat :=
  ((p.first : Int) + k * p.step).toNat

/-- The smallest span that holds every position. -/
def bounds (p : Progression) : Span :=
  if p.count = 0 then ⟨0, 0⟩
  else
    let last := p.index (p.count - 1)
    ⟨min p.first last, max p.first last + 1⟩

/-- All positions. -/
def indices (p : Progression) : List Nat :=
  (List.range p.count).map p.index

end Progression

namespace Slice

/-- The whole axis. -/
def full : Slice := range none none 1

/-- The positions of a span. -/
def ofSpan (s : Span) : Slice := range (some s.start) (some s.stop) 1

/-- A position between two bounds. -/
def clamp (low high i : Int) : Int := max low (min i high)

/-- The number of positions from one end of `low … high` towards the other in steps of `step`. -/
def strideCount (low high : Int) (step : Nat) : Nat :=
  if low < high then (high - low - 1).toNat / step + 1 else 0

/-- The length of an axis as a signed word; a length beyond the largest one comes out negative. -/
def signedLength (length : Nat) : Int :=
  if length < 2 ^ 63 then length else (length : Int) - 2 ^ 64

/-- Whether a bound lies between both ends of an axis, counted from either end. -/
def boundInside (length bound : Int) : Bool :=
  -length ≤ bound && bound ≤ length

/-- Counts a negative position from the end of the axis. -/
def wrap (length i : Int) : Int := if i < 0 then i + length else i

/-- The positions that a slice selects from an axis. -/
def resolve (strict : Bool) (length : Nat) : Slice → Result Progression
  | .single i =>
    let position := wrap (signedLength length) i
    if position < 0 ∨ signedLength length ≤ position then .error (.index (.axis i length))
    else .ok ⟨position.toNat, 1, 1⟩
  | .range start stop step =>
    if step = 0 then .error (.parameter .zeroStep)
    else
      let n := signedLength length
      match if strict then (start.toList ++ stop.toList).find? fun b => !boundInside n b
        else none with
      | some bound => .error (.index (.sliceBound bound length))
      | none =>
        let bound (i : Option Int) (low high otherwise : Int) : Int :=
          match i with
          | some i => clamp low high (wrap n i)
          | none => otherwise
        let (first, count) :=
          if 0 < step then
            let low := bound start 0 n 0
            (low, strideCount low (bound stop 0 n n) step.natAbs)
          else
            let high := bound start (-1) (n - 1) (n - 1)
            (high, strideCount (bound stop (-1) (n - 1) (-1)) high step.natAbs)
        .ok ⟨if count = 0 then 0 else first.toNat, count, step⟩

end Slice

/-- A region: requests for the leading axes. -/
abbrev Region := List Slice

/-- A resolved region: the positions of every axis. -/
abbrev Selection := List Progression

namespace Region

/-- The region of a box. -/
def ofBox (box : Box) : Region := box.map Slice.ofSpan

/-- Resolves the request of every axis, from the first on. -/
def resolveAxes (strict : Bool) : Shape → Region → Result Selection
  | [], _ => .ok []
  | n :: shape, region => do
    let p ← (region.head?.getD Slice.full).resolve strict n
    let rest ← resolveAxes strict shape region.tail
    pure (p :: rest)

/-- Resolves a region; it may have fewer axes than the array, not more. -/
def resolveWith (strict : Bool) (region : Region) (shape : Shape) : Result Selection :=
  if shape.length < region.length then .error (.index (.rank region.length shape.length))
  else resolveAxes strict shape region

/-- Resolves a region, clipping slices to the array. -/
def resolve (region : Region) (shape : Shape) : Result Selection :=
  resolveWith false region shape

/-- Resolves a region, refusing bounds outside the array. -/
def resolveStrict (region : Region) (shape : Shape) : Result Selection :=
  resolveWith true region shape

end Region

namespace Selection

/-- The shape of the selected part. -/
def shape (sel : Selection) : Shape := sel.map Progression.count

/-- The number of selected elements. -/
def size (sel : Selection) : Nat := sel.shape.size

/-- Whether nothing is selected. -/
def isEmpty (sel : Selection) : Bool := sel.size == 0

/-- The smallest box that holds every selected element. -/
def boundingBox (sel : Selection) : Box := sel.map Progression.bounds

/-- Whether every axis is walked in steps of one. -/
def isBox (sel : Selection) : Bool := sel.all fun p => p.step == 1

/-- The pairs of number and local position of those positions of an axis that lie in a span. -/
def axisHits (p : Progression) (span : Span) : List (Nat × Nat) :=
  (List.range p.count).filterMap fun k =>
    let i := p.index k
    if span.start ≤ i ∧ i < span.stop then some (k, i - span.start) else none

/-- For every axis, the pairs of output position and local position of what a box holds of the
selection; `none` if the box holds nothing of it. -/
def hits (sel : Selection) (box : Box) : Option (List (List (Nat × Nat))) :=
  let all := List.zipWith axisHits sel box
  if all.any List.isEmpty then none else some all

end Selection

end ChunkedArray
