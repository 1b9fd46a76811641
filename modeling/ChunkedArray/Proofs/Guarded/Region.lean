import ChunkedArray.Proofs.Guarded.Basic
import ChunkedArray.Proofs.Shape.Stepping

/-!
# Regions under guards

Bounds and steps are signed words, and so are the positions that are computed from them. Under guards a
number that is no signed word gives up, and so does a negative one that is used as a size. On axes whose
length is a signed word this does not happen, whatever the bounds and steps: a bound is moved by the
length only if it is negative, positions are counted before the first one is multiplied out, and the
multiples of the step that are needed stay shorter than the axis.
-/

namespace ChunkedArray

namespace Guarded

variable {length : Nat} {p : Progression} {n i low high : Int}

/-! ## Signed words -/

/-- A signed word. -/
def IsSigned (i : Int) : Prop := -2 ^ 63 ≤ i ∧ i < 2 ^ 63

instance (i : Int) : Decidable (IsSigned i) := inferInstanceAs (Decidable (_ ∧ _))

/-- Gives up on a number that is no signed word. -/
def signed (i : Int) : Guarded Int := do
  require (IsSigned i)
  pure i

/-- A signed word as a size. -/
def unsigned (i : Int) : Guarded Nat := do
  require (0 ≤ i)
  pure i.toNat

theorem signed_of (h : IsSigned i) : signed i = pure i := by
  rw [signed, require_of h, pure_bind]

theorem unsigned_of (h : 0 ≤ i) : unsigned i = pure i.toNat := by
  rw [unsigned, require_of h, pure_bind]

/-! ## Slices -/

/-- Counts a negative position from the end of the axis. -/
def wrap (n i : Int) : Guarded Int :=
  if i < 0 then signed (i + n) else pure i

/-- A position between two bounds, the lower of which is no greater. -/
def clamp (low high i : Int) : Guarded Int := do
  require (low ≤ high)
  pure (Slice.clamp low high i)

/-- What a bound means, given or not. -/
def placed (n low high otherwise : Int) : Option Int → Guarded Int
  | some i => do
    let i ← wrap n i
    clamp low high i
  | none => pure otherwise

/-- The number of positions from one end of `low … high` towards the other. -/
def strideCount (low high : Int) (step : Nat) : Guarded Nat :=
  if low < high then do
    let distance ← signed (high - low)
    let distance ← signed (distance - 1)
    let distance ← unsigned distance
    let steps ← div distance step
    add steps 1
  else pure 0

/-- The first bound that lies beyond either end. -/
def firstOutside (n : Int) : List Int → Guarded (Option Int)
  | [] => pure none
  | bound :: rest => do
    let front ← signed (-n)
    if front ≤ bound ∧ bound ≤ n then firstOutside n rest else pure (some bound)

/-- A progression; without positions the first one is not looked at. -/
def progression (first : Int) (count : Nat) (step : Int) : Guarded Progression := do
  let first ← if count = 0 then pure 0 else unsigned first
  pure ⟨first, count, step⟩

/-- The positions from one bound to another, clipped to the axis. -/
def stepThrough (n : Int) (start stop : Option Int) (step : Int) : Guarded Progression :=
  if 0 < step then do
    let low ← placed n 0 n 0 start
    let high ← placed n 0 n n stop
    let count ← strideCount low high step.natAbs
    progression low count step
  else do
    let top ← signed (n - 1)
    let high ← placed n (-1) top top start
    let low ← placed n (-1) top (-1) stop
    let count ← strideCount low high step.natAbs
    progression high count step

/-- The positions that a slice selects from an axis. -/
def resolve (strict : Bool) (length : Nat) : Slice → Guarded Progression
  | .single i => do
    let n ← signed length
    let position ← wrap n i
    if position < 0 ∨ n ≤ position then throw (.index (.axis i length))
    else do
      let position ← unsigned position
      pure ⟨position, 1, 1⟩
  | .range start stop step =>
    if step = 0 then throw (.parameter .zeroStep)
    else do
      let n ← signed length
      let outside ← if strict then firstOutside n (start.toList ++ stop.toList) else pure none
      match outside with
      | some bound => throw (.index (.sliceBound bound length))
      | none =>
        stepThrough n start stop step

/-- Resolves the request of every axis, from the first on. -/
def resolveAxes (strict : Bool) : Shape → Region → Guarded Selection
  | [], _ => pure []
  | n :: shape, region => do
    let p ← resolve strict n (region.head?.getD Slice.full)
    let rest ← resolveAxes strict shape region.tail
    pure (p :: rest)

/-- Resolves a region; it may have fewer axes than the array, not more. -/
def resolveWith (strict : Bool) (region : Region) (shape : Shape) : Guarded Selection :=
  if shape.length < region.length then throw (.index (.rank region.length shape.length))
  else resolveAxes strict shape region

/-! ## Positions -/

/-- The position number `k`. -/
def index (p : Progression) (k : Nat) : Guarded Nat := do
  let first ← signed p.first
  let number ← signed k
  let distance ← signed (number * p.step)
  let position ← signed (first + distance)
  unsigned position

/-- The smallest span that holds every position. -/
def bounds (p : Progression) : Guarded Span :=
  if p.count = 0 then pure ⟨0, 0⟩
  else do
    let final ← sub p.count 1
    let last ← index p final
    let stop ← add (max p.first last) 1
    pure ⟨min p.first last, stop⟩

/-! ## Slices need no guard -/

variable {s : Slice} {strict : Bool}

/-- The numbers of a slice are signed words. -/
def SignedSlice : Slice → Prop
  | .single i => IsSigned i
  | .range start stop step => (∀ i ∈ start, IsSigned i) ∧ (∀ i ∈ stop, IsSigned i) ∧ IsSigned step

theorem wrap_eq (h : length < 2 ^ 63) (hi : IsSigned i) :
    wrap length i = pure (Slice.wrap length i) := by
  unfold wrap Slice.wrap
  split
  · rw [signed_of]
    unfold IsSigned at hi ⊢
    omega
  · rfl

/-- A bound that is given is moved by the length and clamped without a guard. -/
theorem placed_some (h : length < 2 ^ 63) (hi : IsSigned i) (step otherwise : Int) :
    placed length (Slice.lowest step) (Slice.highest length step) otherwise (some i) =
      pure (Slice.place length step i) := by
  have hplace := Slice.place_within length step i
  rw [placed, wrap_eq h hi, pure_bind, clamp, require_of (hplace.1.trans hplace.2), pure_bind,
    Slice.clamp_wrap_eq_place]

theorem placed_startOf (h : length < 2 ^ 63) {start : Option Int} (hstart : ∀ i ∈ start, IsSigned i)
    (step : Int) :
    placed length (Slice.lowest step) (Slice.highest length step)
        (if step < 0 then Slice.highest length step else Slice.lowest step) start =
      pure (Slice.startOf length start step) := by
  cases start with
  | some i => exact placed_some h (hstart i rfl) step _
  | none => rfl

theorem placed_stopOf (h : length < 2 ^ 63) {stop : Option Int} (hstop : ∀ i ∈ stop, IsSigned i)
    (step : Int) :
    placed length (Slice.lowest step) (Slice.highest length step)
        (if step < 0 then Slice.lowest step else Slice.highest length step) stop =
      pure (Slice.stopOf length stop step) := by
  cases stop with
  | some i => exact placed_some h (hstop i rfl) step _
  | none => rfl

/-- Ends that are less than a signed word apart are counted without a guard. -/
theorem strideCount_eq {step : Nat} (h : high - low < 2 ^ 63) (hstep : 0 < step) :
    strideCount low high step = pure (Slice.strideCount low high step) := by
  unfold strideCount Slice.strideCount
  split
  · have hdiv := Nat.div_le_self (high - low - 1).toNat step
    rw [signed_of ⟨by omega, h⟩, pure_bind, signed_of ⟨by omega, by omega⟩, pure_bind,
      unsigned_of (by omega), pure_bind, div_of_pos hstep, pure_bind, add_of_lt (by omega)]
  · rfl

theorem firstOutside_eq (h : length < 2 ^ 63) (bounds : List Int) :
    firstOutside length bounds =
      pure (bounds.find? fun bound => !Slice.boundInside length bound) := by
  induction bounds with
  | nil => rfl
  | cons bound rest ih =>
    have hinside : Slice.boundInside length bound =
        decide (-(length : Int) ≤ bound ∧ bound ≤ length) := (Bool.decide_and _ _).symm
    rw [firstOutside, signed_of ⟨by omega, by omega⟩, pure_bind, List.find?_cons, ih, hinside]
    split
    · rename_i hbound
      rw [decide_eq_true hbound]
      rfl
    · rename_i hbound
      rw [decide_eq_false hbound]
      rfl

theorem progression_eq {first step : Int} {count : Nat} (h : count ≠ 0 → 0 ≤ first) :
    progression first count step = pure ⟨if count = 0 then 0 else first.toNat, count, step⟩ := by
  unfold progression
  split
  · rfl
  · rename_i hcount
    rw [unsigned_of (h hcount)]
    rfl

/-- From one bound to another there are steps without a guard, up as well as down. -/
theorem stepThrough_eq (h : length < 2 ^ 63) {start stop : Option Int} {step : Int}
    (hstep : step ≠ 0) (hstart : ∀ i ∈ start, IsSigned i) (hstop : ∀ i ∈ stop, IsSigned i) :
    stepThrough length start stop step =
      ofResult ((Slice.range start stop step).resolve false length) := by
  have habs : 0 < step.natAbs := Int.natAbs_pos.2 hstep
  have hfirst := placed_startOf h hstart step
  have hlast := placed_stopOf h hstop step
  have hfrom := Slice.startOf_within length start step
  have hto := Slice.stopOf_within length stop step
  rw [Slice.resolve_range_eq h hstep, ofResult_ok, ← progression_eq Slice.startOf_nonneg]
  unfold stepThrough
  unfold Slice.highest Slice.lowest at hfirst hlast hfrom hto
  by_cases hpos : 0 < step
  · have hup : ¬ step < 0 := by omega
    simp only [if_neg hup] at hfirst hlast hfrom hto
    rw [if_pos hpos, hfirst, pure_bind, hlast, pure_bind, strideCount_eq (by omega) habs, pure_bind,
      Slice.countFrom, if_pos hpos]
  · have hdown : step < 0 := by omega
    simp only [if_pos hdown] at hfirst hlast hfrom hto
    rw [if_neg hpos, signed_of ⟨by omega, by omega⟩, pure_bind, hfirst, pure_bind, hlast, pure_bind,
      strideCount_eq (by omega) habs, pure_bind, Slice.countFrom, if_neg hpos]

/-- On an axis whose length is a signed word, a slice is resolved without a guard. -/
theorem resolve_eq (h : length < 2 ^ 63) (hs : SignedSlice s) :
    resolve strict length s = ofResult (s.resolve strict length) := by
  have hlength : signed length = pure (length : Int) := signed_of ⟨by omega, by omega⟩
  cases s with
  | single i =>
    rw [resolve, hlength, pure_bind, wrap_eq h hs, pure_bind, Slice.resolve,
      Slice.signedLength_of_lt h]
    split
    · rfl
    · rw [unsigned_of (by omega), pure_bind]
      rfl
  | range start stop step =>
    obtain ⟨hstart, hstop, -⟩ := hs
    by_cases hstep : step = 0
    · rw [resolve, Slice.resolve, if_pos hstep, if_pos hstep]
      rfl
    have hclip := stepThrough_eq h hstep hstart hstop
    rw [resolve, if_neg hstep, hlength, pure_bind]
    cases strict with
    | false => exact hclip
    | true =>
      rw [if_pos rfl, firstOutside_eq h, pure_bind, Slice.resolve_strict_range_eq h hstep]
      cases (start.toList ++ stop.toList).find? fun bound => !Slice.boundInside length bound with
      | none => exact hclip
      | some bound => rfl

/-! ## Regions need no guard -/

variable {shape : Shape} {region : Region}

theorem signedSlice_full : SignedSlice Slice.full :=
  ⟨fun _ h => (Option.not_mem_none _ h).elim, fun _ h => (Option.not_mem_none _ h).elim, by decide⟩

theorem resolveAxes_eq (hshape : ∀ n ∈ shape, n < 2 ^ 63) (hregion : ∀ s ∈ region, SignedSlice s) :
    resolveAxes strict shape region = ofResult (Region.resolveAxes strict shape region) := by
  induction shape generalizing region with
  | nil => rfl
  | cons n shape ih =>
    obtain ⟨hn, hshape⟩ := List.forall_mem_cons.1 hshape
    have hhead : SignedSlice (region.head?.getD Slice.full) := by
      cases region with
      | nil => exact signedSlice_full
      | cons s region => exact hregion s List.mem_cons_self
    have hrest := ih hshape fun s hs => hregion s (List.mem_of_mem_tail hs)
    exact bind_eq_ofResult (resolve_eq hn hhead) fun p _ => bind_eq_ofResult hrest fun _ _ => rfl

/-- A region whose numbers are signed words is resolved without a guard. -/
theorem resolveWith_eq (hshape : ∀ n ∈ shape, n < 2 ^ 63) (hregion : ∀ s ∈ region, SignedSlice s) :
    resolveWith strict region shape = ofResult (region.resolveWith strict shape) := by
  unfold resolveWith Region.resolveWith
  split
  · rfl
  · exact resolveAxes_eq hshape hregion

/-! ## Positions need no guard -/

/-- A multiple of the step between two positions of an axis is shorter than the axis. -/
theorem index_eq {k : Nat} (hp : p.Fits length) (h : length < 2 ^ 63) (hk : k < p.count) :
    index p k = pure (p.index k) := by
  have hfirst := hp.nonneg 0 (Nat.zero_lt_of_lt hk)
  have hfirst' := hp.lt 0 (Nat.zero_lt_of_lt hk)
  have hposition := hp.nonneg k hk
  have hposition' := hp.lt k hk
  have hnumber : k ≤ ((k : Int) * p.step).natAbs := by
    rw [Int.natAbs_mul, Int.natAbs_natCast]
    exact Nat.le_mul_of_pos_right k (Int.natAbs_pos.2 hp.step_ne_zero)
  rw [Nat.cast_zero, zero_mul, add_zero] at hfirst hfirst'
  rw [index, signed_of ⟨by omega, by omega⟩, pure_bind, signed_of ⟨by omega, by omega⟩, pure_bind,
    signed_of ⟨by omega, by omega⟩, pure_bind, signed_of ⟨by omega, by omega⟩, pure_bind,
    unsigned_of hposition]
  rfl

theorem bounds_eq (hp : p.Fits length) (h : length < 2 ^ 63) : bounds p = pure p.bounds := by
  unfold bounds Progression.bounds
  split
  · rfl
  · have hlast : p.count - 1 < p.count := by omega
    have hfirst : p.first < length := by
      have hzero := hp.index_lt (show 0 < p.count by omega)
      rwa [Progression.index, Nat.cast_zero, zero_mul, add_zero, Int.toNat_natCast] at hzero
    have hfinal := hp.index_lt hlast
    rw [sub_of_le (by omega), pure_bind, index_eq hp h hlast, pure_bind, add_of_lt (by omega)]
    rfl

end Guarded

namespace Region

/-- On axes whose lengths are signed words, bounds and steps may be any signed words. A region is resolved
without a guard, exactly if it has no more axes than the array and every request can be answered; every
axis then has the positions that its request asks for, and they and their bounds are computed without a
guard. A strict resolution is the same, of a region whose bounds are all inside. -/
theorem resolve_steps_through (region : Region) (shape : Shape) (hshape : ∀ n ∈ shape, n < 2 ^ 63)
    (hregion : ∀ s ∈ region, Guarded.SignedSlice s) :
    (∀ strict, Guarded.resolveWith strict region shape =
      Guarded.ofResult (region.resolveWith strict shape)) ∧
    ((∃ sel, region.resolve shape = .ok sel) ↔ region.length ≤ shape.length ∧
      ∀ r ∈ region.requests shape, r.1.Answerable r.2) ∧
    (∀ sel, region.resolve shape = .ok sel →
      List.Forall₂ (fun r p => p.Answers r.2 r.1 ∧
        (∀ k < p.count, Guarded.index p k = pure (p.index k)) ∧ Guarded.bounds p = pure p.bounds)
        (region.requests shape) sel) ∧
    ∀ sel, region.resolveStrict shape = .ok sel ↔ region.resolve shape = .ok sel ∧
      ∀ r ∈ region.requests shape, r.1.BoundsInside r.2 := by
  refine ⟨fun strict => Guarded.resolveWith_eq hshape hregion, exists_resolve_iff hshape, ?_,
    fun sel => resolveStrict_eq_ok_iff hshape⟩
  intro sel hsel
  have hresolved := (List.forall₂_and_left _ _).2
    ⟨fun r hr => hshape _ (of_mem_requests hr).2, (resolveWith_eq_ok_iff.1 hsel).2⟩
  refine hresolved.imp fun r p ⟨hlength, hp⟩ => ?_
  have hfits := Slice.fits_of_resolve hp
  exact ⟨Slice.answers_of_resolve hlength hp, fun k => Guarded.index_eq hfits hlength,
    Guarded.bounds_eq hfits hlength⟩

/-- Steps down from behind the axis, steps as long as a signed word allows in either direction, and a
position counted from the end. -/
theorem resolve_steps_through_extremes :
    let region : Region := [.range (some 20) none (-3), .range none none (2 ^ 63 - 1),
      .range none (some (-2 ^ 63)) (-2 ^ 63), .single (-1)]
    let shape : Shape := [10, 4, 4, 4]
    let sel : Selection := [⟨9, 4, -3⟩, ⟨0, 1, 2 ^ 63 - 1⟩, ⟨3, 1, -2 ^ 63⟩, ⟨3, 1, 1⟩]
    Guarded.resolveWith false region shape = pure sel ∧
      List.Forall₂ (fun r p => p.Answers r.2 r.1) (region.requests shape) sel ∧
      ¬ ∃ sel, region.resolveStrict shape = .ok sel := by
  intro region shape sel
  have hshape : ∀ n ∈ shape, n < 2 ^ 63 := by decide
  have hregion : ∀ s ∈ region, Guarded.SignedSlice s := by
    simp [region, Guarded.SignedSlice, Guarded.IsSigned]
  obtain ⟨hguarded, -, hanswers, hstrict⟩ :=
    resolve_steps_through region shape hshape hregion
  have hsel : region.resolve shape = .ok sel := rfl
  refine ⟨?_, ?_, ?_⟩
  · rw [hguarded, ← Guarded.ofResult_ok, ← hsel]
    rfl
  · exact (hanswers sel hsel).imp fun _ _ h => h.1
  · rintro ⟨sel', h⟩
    have hinside := ((hstrict sel').1 h).2 (.range (some 20) none (-3), 10) (by decide)
    exact absurd (hinside 20 (by decide)).2 (by decide)

end Region

end ChunkedArray
