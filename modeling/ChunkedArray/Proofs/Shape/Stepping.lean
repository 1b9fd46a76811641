import ChunkedArray.Proofs.Action
import ChunkedArray.Proofs.Shape.Selection

/-!
# Slices stepped through

What a slice asks for, said without clamping or counting: a bound that is negative counts from the end,
a bound that lies beyond the axis means the end of it on that side, a bound that is left out means the
end from which or towards which the steps go, and the positions are those that are met on the way from
the first bound in front of the second. Resolution gives these positions, all of them on the axis and
none twice, and its bounds are the least span that holds them.
-/

namespace ChunkedArray

namespace Slice

/-! ## What a slice asks for -/

/-- The least number that a bound can mean. Steps down may stop in front of the axis. -/
def lowest (step : Int) : Int := if step < 0 then -1 else 0

/-- The greatest number that a bound can mean. Steps up may stop behind the axis. -/
def highest (length : Nat) (step : Int) : Int := if step < 0 then length - 1 else length

/-- What a given bound means. -/
def place (length : Nat) (step bound : Int) : Int :=
  if bound < 0 then max (bound + length) (lowest step) else min bound (highest length step)

/-- Where the steps start. -/
def startOf (length : Nat) (start : Option Int) (step : Int) : Int :=
  match start with
  | some bound => place length step bound
  | none => if step < 0 then highest length step else lowest step

/-- In front of what the steps stop. -/
def stopOf (length : Nat) (stop : Option Int) (step : Int) : Int :=
  match stop with
  | some bound => place length step bound
  | none => if step < 0 then lowest step else highest length step

/-- The numbers from `start` on that are met in front of `stop`. -/
def walk (start stop step : Int) : List Int :=
  if 0 < step ∧ start < stop ∨ step < 0 ∧ stop < start then start :: walk (start + step) stop step
  else []
termination_by if 0 < step then (stop - start).toNat else (start - stop).toNat
decreasing_by
  split <;> omega

/-- The positions that a slice asks for. -/
def positions (length : Nat) : Slice → List Int
  | single i => [if i < 0 then i + length else i]
  | range start stop step => walk (startOf length start step) (stopOf length stop step) step

/-- A single position lies on the axis, from whichever end it is counted; steps lead somewhere. -/
def Answerable (length : Nat) : Slice → Prop
  | single i => -(length : Int) ≤ i ∧ i < length
  | range _ _ step => step ≠ 0

/-- The bounds of a slice lie on the axis or at its end, from whichever end they are counted. -/
def BoundsInside (length : Nat) : Slice → Prop
  | single _ => True
  | range start stop _ => ∀ bound ∈ start.toList ++ stop.toList, -(length : Int) ≤ bound ∧ bound ≤ length

end Slice

namespace Progression

/-- A progression has the positions that a slice asks for: all on the axis, none twice, and a span
holds all of them exactly if it holds their bounds. -/
structure Answers (p : Progression) (length : Nat) (s : Slice) : Prop where
  positions : p.indices.map Int.ofNat = s.positions length
  lt : ∀ i ∈ p.indices, i < length
  nodup : p.indices.Nodup
  bounds : ∀ a b, Set.Ico p.bounds.start p.bounds.stop ⊆ Set.Ico a b ↔
    ∀ i ∈ p.indices, i ∈ Set.Ico a b

variable {p : Progression} {n : Nat}

theorem mem_indices {i : Nat} : i ∈ p.indices ↔ ∃ k < p.count, p.index k = i := by
  simp [indices]

theorem Fits.nodup_indices (h : p.Fits n) : p.indices.Nodup := by
  refine List.Nodup.map_on (fun j hj k hk heq => ?_) List.nodup_range
  exact h.index_inj (List.mem_range.1 hj) (List.mem_range.1 hk) heq

/-- The first and the last position are the ends of the bounds. -/
theorem ends_mem_indices (hcount : 0 < p.count) :
    p.bounds.start ∈ p.indices ∧ p.bounds.stop - 1 ∈ p.indices ∧ 0 < p.bounds.stop := by
  have hfirst : p.first ∈ p.indices := mem_indices.2 ⟨0, hcount, by simp [index]⟩
  have hlast : p.index (p.count - 1) ∈ p.indices := mem_indices.2 ⟨_, by omega, rfl⟩
  simp only [bounds, if_neg hcount.ne', Nat.add_sub_cancel]
  refine ⟨?_, ?_, Nat.succ_pos _⟩
  · rcases Nat.le_total p.first (p.index (p.count - 1)) with hle | hle
    · rwa [Nat.min_eq_left hle]
    · rwa [Nat.min_eq_right hle]
  · rcases Nat.le_total p.first (p.index (p.count - 1)) with hle | hle
    · rwa [Nat.max_eq_right hle]
    · rwa [Nat.max_eq_left hle]

/-- A span holds all positions exactly if it holds their bounds. -/
theorem Fits.bounds_subset_iff (h : p.Fits n) (a b : Nat) :
    Set.Ico p.bounds.start p.bounds.stop ⊆ Set.Ico a b ↔ ∀ i ∈ p.indices, i ∈ Set.Ico a b := by
  constructor
  · intro hsub i hi
    obtain ⟨k, hk, rfl⟩ := mem_indices.1 hi
    exact hsub (h.index_mem_bounds hk)
  · intro hall i hi
    rcases Nat.eq_zero_or_pos p.count with hzero | hcount
    · have hempty : p.bounds = ⟨0, 0⟩ := if_pos hzero
      rw [hempty] at hi
      exact absurd hi.2 (Nat.not_lt_zero i)
    · obtain ⟨hstart, hstop, hpos⟩ := ends_mem_indices hcount
      have hlow := (hall _ hstart).1
      have hhigh := (hall _ hstop).2
      exact ⟨hlow.trans hi.1, by have := hi.2; omega⟩

end Progression

namespace Slice

variable {length : Nat} {s : Slice} {p : Progression}

/-! ## Steps between two bounds -/

/-- One step further there is one position less. -/
theorem strideCount_succ {low high : Int} {step : Nat} (hstep : 0 < step) (h : low < high) :
    strideCount low high step = strideCount (low + step) high step + 1 ∧
      strideCount low high step = strideCount low (high - step) step + 1 := by
  have hsplit : (high - low - 1).toNat / step =
      if low + step < high then (high - low - 1 - step).toNat / step + 1 else 0 := by
    split
    · have hsum : (high - low - 1).toNat = (high - low - 1 - step).toNat + step := by omega
      rw [hsum, Nat.add_div_right _ hstep]
    · exact Nat.div_eq_of_lt (by omega)
  have hup : high - (low + step) - 1 = high - low - 1 - step := by omega
  have hdown : high - step - low - 1 = high - low - 1 - step := by omega
  unfold strideCount
  rw [if_pos h, hsplit, hup, hdown]
  by_cases hmore : low + step < high
  · rw [if_pos hmore, if_pos (by omega)]
    exact ⟨rfl, rfl⟩
  · rw [if_neg hmore, if_neg (by omega)]
    exact ⟨rfl, rfl⟩

/-- The number of positions that are met from `start` on. -/
def countFrom (start stop step : Int) : Nat :=
  if 0 < step then strideCount start stop step.natAbs else strideCount stop start step.natAbs

/-- Counting gives the positions that are met one after the other. -/
theorem walk_eq_map (start stop step : Int) (hstep : step ≠ 0) :
    walk start stop step =
      (List.range (countFrom start stop step)).map fun k : Nat => start + k * step := by
  -- On the walk itself: a position that is met is one counted from its own start.
  fun_induction walk start stop step with
  | case1 start hinside ih =>
    have hcount : countFrom start stop step = countFrom (start + step) stop step + 1 := by
      unfold countFrom
      rcases hinside with ⟨hpos, hlt⟩ | ⟨hneg, hlt⟩
      · have habs : (step.natAbs : Int) = step := Int.natAbs_of_nonneg hpos.le
        rw [if_pos hpos, if_pos hpos, (strideCount_succ (by omega) hlt).1, habs]
      · have habs : start - (step.natAbs : Int) = start + step := by omega
        rw [if_neg (by omega), if_neg (by omega), (strideCount_succ (by omega) hlt).2, habs]
    rw [ih, hcount, List.range_succ_eq_map, List.map_cons, List.map_map]
    congr 1
    · simp
    · apply List.map_congr_left
      intro k _
      rw [Function.comp_apply, Nat.cast_succ, add_mul, one_mul]
      omega
  | case2 start houtside =>
    have hcount : countFrom start stop step = 0 := by
      unfold countFrom strideCount
      split <;> rw [if_neg (by omega)]
    rw [hcount]
    rfl

/-! ## Resolution -/

theorem signedLength_of_lt (h : length < 2 ^ 63) : signedLength length = length := if_pos h

/-- A given bound is clamped to what it means. -/
theorem clamp_wrap_eq_place (length : Nat) (step bound : Int) :
    clamp (lowest step) (highest length step) (wrap length bound) = place length step bound := by
  unfold clamp wrap place lowest highest
  split <;> split <;> omega

/-- Whatever a bound means lies between the least and the greatest number that it can mean. -/
theorem place_within (length : Nat) (step bound : Int) :
    lowest step ≤ place length step bound ∧ place length step bound ≤ highest length step := by
  unfold place lowest highest
  split <;> split <;> omega

theorem startOf_within (length : Nat) (start : Option Int) (step : Int) :
    lowest step ≤ startOf length start step ∧ startOf length start step ≤ highest length step := by
  cases start with
  | some bound => exact place_within length step bound
  | none =>
    rw [startOf]
    unfold lowest highest
    split <;> omega

theorem stopOf_within (length : Nat) (stop : Option Int) (step : Int) :
    lowest step ≤ stopOf length stop step ∧ stopOf length stop step ≤ highest length step := by
  cases stop with
  | some bound => exact place_within length step bound
  | none =>
    rw [stopOf]
    unfold lowest highest
    split <;> omega

/-- Steps that lead anywhere start on the axis. -/
theorem startOf_nonneg {start stop : Option Int} {step : Int}
    (h : countFrom (startOf length start step) (stopOf length stop step) step ≠ 0) :
    0 ≤ startOf length start step := by
  have hstart := (startOf_within length start step).1
  have hstop := (stopOf_within length stop step).1
  unfold countFrom strideCount at h
  unfold lowest at hstart hstop
  by_cases hneg : step < 0
  · rw [if_pos hneg] at hstop
    rw [if_neg (by omega)] at h
    by_contra hlow
    exact h (if_neg (by omega))
  · rwa [if_neg hneg] at hstart

/-- Only the bounds tell a strict resolution from one that clips. -/
theorem find?_not_boundInside_eq_none_iff (bounds : List Int) :
    (bounds.find? fun b => !boundInside length b) = none ↔
      ∀ b ∈ bounds, -(length : Int) ≤ b ∧ b ≤ length := by
  simp [boundInside]

/-- A range is resolved to the number of steps from where it starts to where it stops. -/
theorem resolve_range_eq (h : length < 2 ^ 63) {start stop : Option Int} {step : Int}
    (hstep : step ≠ 0) :
    (range start stop step).resolve false length =
      .ok ⟨if countFrom (startOf length start step) (stopOf length stop step) step = 0 then 0
          else (startOf length start step).toNat,
        countFrom (startOf length start step) (stopOf length stop step) step, step⟩ := by
  have hplace := clamp_wrap_eq_place length step
  rcases lt_or_gt_of_ne hstep with hneg | hpos
  · have hdown : ¬ 0 < step := by omega
    simp only [lowest, highest, if_pos hneg] at hplace
    cases start <;> cases stop <;>
      simp only [resolve, if_neg hstep, signedLength_of_lt h, if_neg hdown, countFrom, startOf, stopOf,
        lowest, highest, if_pos hneg, hplace, Bool.false_eq_true, if_false]
  · have hup : ¬ step < 0 := by omega
    simp only [lowest, highest, if_neg hup] at hplace
    cases start <;> cases stop <;>
      simp only [resolve, if_neg hstep, signedLength_of_lt h, if_pos hpos, countFrom, startOf, stopOf,
        lowest, highest, if_neg hup, hplace, Bool.false_eq_true, if_false]

theorem resolve_strict_range_eq (h : length < 2 ^ 63) {start stop : Option Int} {step : Int}
    (hstep : step ≠ 0) :
    (range start stop step).resolve true length =
      match (start.toList ++ stop.toList).find? fun b => !boundInside length b with
      | some bound => .error (.index (.sliceBound bound length))
      | none => (range start stop step).resolve false length := by
  cases hfind : (start.toList ++ stop.toList).find? fun b => !boundInside length b with
  | none =>
    simp only [resolve, if_neg hstep, signedLength_of_lt h, hfind, if_true, Bool.false_eq_true,
      if_false]
  | some bound =>
    simp only [resolve, if_neg hstep, signedLength_of_lt h, hfind, if_true]

/-- A single position is resolved to its place on the axis, or refused. -/
theorem resolve_single_eq (h : length < 2 ^ 63) (strict : Bool) (i : Int) :
    (single i).resolve strict length =
      if -(length : Int) ≤ i ∧ i < length then .ok ⟨(wrap length i).toNat, 1, 1⟩
      else .error (.index (.axis i length)) := by
  have hplace : wrap length i < 0 ∨ (length : Int) ≤ wrap length i ↔
      ¬ (-(length : Int) ≤ i ∧ i < length) := by
    unfold wrap
    split <;> omega
  simp only [resolve, signedLength_of_lt h, hplace, ite_not]

/-- A slice is resolved exactly if it can be answered. -/
theorem exists_resolve_iff (h : length < 2 ^ 63) :
    (∃ p, s.resolve false length = .ok p) ↔ s.Answerable length := by
  cases s with
  | single i =>
    rw [resolve_single_eq h, Answerable]
    split
    · rename_i hinside
      exact iff_of_true ⟨_, rfl⟩ hinside
    · rename_i houtside
      refine iff_of_false (fun hp => ?_) houtside
      obtain ⟨p, hp⟩ := hp
      cases hp
  | range start stop step =>
    by_cases hstep : step = 0
    · refine iff_of_false (fun ⟨p, hp⟩ => ?_) (not_not_intro hstep)
      rw [resolve, if_pos hstep] at hp
      cases hp
    · exact iff_of_true ⟨_, resolve_range_eq h hstep⟩ hstep

/-- The positions of a resolved slice are those that it asks for. -/
theorem map_indices_of_resolve (h : length < 2 ^ 63) (hp : s.resolve false length = .ok p) :
    p.indices.map Int.ofNat = s.positions length := by
  have hfits := fits_of_resolve hp
  have hcast : p.indices.map Int.ofNat =
      (List.range p.count).map fun k : Nat => (p.first : Int) + k * p.step := by
    rw [Progression.indices, List.map_map]
    exact List.map_congr_left fun k hk => hfits.cast_index (List.mem_range.1 hk)
  rw [hcast]
  cases s with
  | single i =>
    have hinside : -(length : Int) ≤ i ∧ i < length := (exists_resolve_iff h).1 ⟨p, hp⟩
    rw [resolve_single_eq h, if_pos hinside] at hp
    cases hp
    have hplace : ((wrap length i).toNat : Int) = wrap length i := by
      refine Int.toNat_of_nonneg ?_
      unfold wrap
      split <;> omega
    simp only [positions, List.range_one, List.map_cons, List.map_nil, hplace, Nat.cast_zero, zero_mul,
      add_zero]
    rfl
  | range start stop step =>
    have hstep : step ≠ 0 := (exists_resolve_iff h).1 ⟨p, hp⟩
    rw [resolve_range_eq h hstep] at hp
    cases hp
    rw [positions, walk_eq_map _ _ _ hstep]
    -- With no position at all, the first one is not looked at.
    apply List.map_congr_left
    intro k hk
    have hcount : countFrom (startOf length start step) (stopOf length stop step) step ≠ 0 :=
      Nat.ne_of_gt (Nat.zero_lt_of_lt (List.mem_range.1 hk))
    dsimp only
    rw [if_neg hcount, Int.toNat_of_nonneg (startOf_nonneg hcount)]

theorem answers_of_resolve (h : length < 2 ^ 63) (hp : s.resolve false length = .ok p) :
    p.Answers length s := by
  have hfits := fits_of_resolve hp
  constructor
  · exact map_indices_of_resolve h hp
  · intro i hi
    obtain ⟨k, hk, rfl⟩ := Progression.mem_indices.1 hi
    exact hfits.index_lt hk
  · exact hfits.nodup_indices
  · exact hfits.bounds_subset_iff

/-- A strict resolution is one that clips, of a slice with its bounds inside. -/
theorem resolve_strict_iff (h : length < 2 ^ 63) :
    s.resolve true length = .ok p ↔ s.resolve false length = .ok p ∧ s.BoundsInside length := by
  cases s with
  | single i => exact (and_iff_left trivial).symm
  | range start stop step =>
    by_cases hstep : step = 0
    · simp [resolve, hstep]
    · rw [resolve_strict_range_eq h hstep, BoundsInside, ← find?_not_boundInside_eq_none_iff]
      cases hfind : (start.toList ++ stop.toList).find? fun b => !boundInside length b with
      | none => simp
      | some bound => simp

end Slice

/-! ## Lists of partners -/

theorem forall₂_congr_of_mem {α β : Type} {R S : α → β → Prop} {l : List α} {l' : List β}
    (h : ∀ a ∈ l, ∀ b, R a b ↔ S a b) : List.Forall₂ R l l' ↔ List.Forall₂ S l l' := by
  constructor
  · intro hR
    exact ((List.forall₂_and_left _ _).2 ⟨h, hR⟩).imp fun a b hab => (hab.1 b).1 hab.2
  · intro hS
    exact ((List.forall₂_and_left _ _).2 ⟨h, hS⟩).imp fun a b hab => (hab.1 b).2 hab.2

/-- Each of some values has a partner exactly if there is a list of partners. -/
theorem exists_forall₂_iff {α β : Type} {R : α → β → Prop} {l : List α} :
    (∃ l', List.Forall₂ R l l') ↔ ∀ a ∈ l, ∃ b, R a b := by
  induction l with
  | nil => simp
  | cons a l ih =>
    rw [List.forall_mem_cons, ← ih]
    simp only [List.forall₂_cons_left_iff]
    constructor
    · rintro ⟨-, b, l', hb, hl', rfl⟩
      exact ⟨⟨b, hb⟩, l', hl'⟩
    · rintro ⟨⟨b, hb⟩, l', hl'⟩
      exact ⟨b :: l', b, l', hb, hl', rfl⟩

namespace Region

/-! ## Regions -/

/-- The requests for all axes; one that a region leaves out is for the whole axis. -/
def requests (region : Region) (shape : Shape) : List (Slice × Nat) :=
  (region ++ List.replicate (shape.length - region.length) Slice.full).zip shape

variable {region : Region} {shape : Shape} {sel : Selection} {strict : Bool}

theorem requests_cons (region : Region) (n : Nat) (shape : Shape) :
    requests region (n :: shape) =
      (region.head?.getD Slice.full, n) :: requests region.tail shape := by
  cases region with
  | nil => simp [requests, List.replicate_succ]
  | cons s region => simp [requests]

/-- A request is one of the region or for the whole axis, and is made of an axis of the shape. -/
theorem of_mem_requests {r : Slice × Nat} (h : r ∈ requests region shape) :
    (r.1 ∈ region ∨ r.1 = Slice.full) ∧ r.2 ∈ shape := by
  obtain ⟨hslice, haxis⟩ := List.of_mem_zip (show (r.1, r.2) ∈ _ from h)
  refine ⟨?_, haxis⟩
  obtain hgiven | hmissing := List.mem_append.1 hslice
  · exact .inl hgiven
  · exact .inr (List.eq_of_mem_replicate hmissing)

theorem resolveAxes_eq_ok_iff :
    resolveAxes strict shape region = .ok sel ↔
      List.Forall₂ (fun r p => r.1.resolve strict r.2 = .ok p) (requests region shape) sel := by
  induction shape generalizing region sel with
  | nil =>
    rw [requests, List.zip_nil_right, List.forall₂_nil_left_iff, resolveAxes, Except.ok.injEq]
    exact eq_comm
  | cons n shape ih =>
    rw [requests_cons, List.forall₂_cons_left_iff]
    constructor
    · intro h
      obtain ⟨p, hp, h⟩ := bind_eq_ok.1 h
      obtain ⟨rest, hrest, h⟩ := bind_eq_ok.1 h
      cases h
      exact ⟨p, rest, hp, ih.1 hrest, rfl⟩
    · rintro ⟨p, rest, hp, hrest, rfl⟩
      exact bind_eq_ok.2 ⟨p, hp, bind_eq_ok.2 ⟨rest, ih.2 hrest, rfl⟩⟩

/-- A region is resolved request by request. -/
theorem resolveWith_eq_ok_iff :
    resolveWith strict region shape = .ok sel ↔ region.length ≤ shape.length ∧
      List.Forall₂ (fun r p => r.1.resolve strict r.2 = .ok p) (requests region shape) sel := by
  rw [resolveWith]
  split
  · rename_i hlong
    exact iff_of_false (fun h => by cases h) fun h => absurd h.1 (Nat.not_le.2 hlong)
  · rename_i hshort
    rw [resolveAxes_eq_ok_iff, and_iff_right (Nat.not_lt.1 hshort)]

variable (hshape : ∀ n ∈ shape, n < 2 ^ 63)
include hshape

/-- A region is resolved exactly if it has no more axes than the array and every request can be
answered. -/
theorem exists_resolve_iff :
    (∃ sel, region.resolve shape = .ok sel) ↔ region.length ≤ shape.length ∧
      ∀ r ∈ region.requests shape, r.1.Answerable r.2 := by
  simp only [resolve, resolveWith_eq_ok_iff, exists_and_left, exists_forall₂_iff]
  refine and_congr_right fun _ => forall₂_congr fun r hr => ?_
  exact Slice.exists_resolve_iff (hshape _ (of_mem_requests hr).2)

/-- Every axis of a resolved region has the positions that its request asks for. -/
theorem answers_of_resolve (h : region.resolve shape = .ok sel) :
    List.Forall₂ (fun r p => p.Answers r.2 r.1) (region.requests shape) sel := by
  have hresolved := (List.forall₂_and_left _ _).2
    ⟨fun r hr => hshape _ (of_mem_requests hr).2, (resolveWith_eq_ok_iff.1 h).2⟩
  exact hresolved.imp fun r p hp => Slice.answers_of_resolve hp.1 hp.2

/-- A strict resolution is one that clips, of a region with all its bounds inside. -/
theorem resolveStrict_eq_ok_iff :
    region.resolveStrict shape = .ok sel ↔ region.resolve shape = .ok sel ∧
      ∀ r ∈ region.requests shape, r.1.BoundsInside r.2 := by
  have haxes (sel : Selection) :
      List.Forall₂ (fun r p => r.1.resolve true r.2 = .ok p) (region.requests shape) sel ↔
        List.Forall₂ (fun r p => r.1.BoundsInside r.2 ∧ r.1.resolve false r.2 = .ok p)
          (region.requests shape) sel := by
    refine forall₂_congr_of_mem fun r hr p => ?_
    rw [Slice.resolve_strict_iff (hshape _ (of_mem_requests hr).2), and_comm]
  rw [resolveStrict, resolve, resolveWith_eq_ok_iff, resolveWith_eq_ok_iff, haxes,
    List.forall₂_and_left]
  tauto

end Region

end ChunkedArray
