import ChunkedArray.Proofs.Shape.Coords

/-!
# Selections

A resolved region selects, along every axis, an arithmetic progression of positions. Resolution
gives progressions that stay on their axes and never repeat a position (`Slice.fits_of_resolve`), so
an element of the output and the element of the array that it shows determine each other. The hits
of a box are exactly the output coordinates whose positions lie in the box (`mem_cartesian_hits`).
-/

namespace ChunkedArray

namespace Progression

/-- Every position lies on an axis of length `n`, and the positions differ from each other. -/
structure Fits (p : Progression) (n : Nat) : Prop where
  /-- No step stays in place. -/
  step_ne_zero : p.step ≠ 0
  /-- No position lies in front of the axis. -/
  nonneg : ∀ k < p.count, 0 ≤ (p.first : Int) + k * p.step
  /-- No position lies behind the axis. -/
  lt : ∀ k < p.count, (p.first : Int) + k * p.step < n

variable {p : Progression} {n : Nat}

theorem Fits.cast_index (h : p.Fits n) {k : Nat} (hk : k < p.count) :
    (p.index k : Int) = p.first + k * p.step :=
  Int.toNat_of_nonneg (h.nonneg k hk)

theorem Fits.index_lt (h : p.Fits n) {k : Nat} (hk : k < p.count) : p.index k < n := by
  have hlt := h.lt k hk
  rw [← h.cast_index hk] at hlt
  exact_mod_cast hlt

/-- No position is selected twice. -/
theorem Fits.index_inj (h : p.Fits n) {j k : Nat} (hj : j < p.count) (hk : k < p.count)
    (heq : p.index j = p.index k) : j = k := by
  have hcast : (p.first : Int) + j * p.step = p.first + k * p.step := by
    rw [← h.cast_index hj, ← h.cast_index hk, heq]
  have hmul : (j : Int) * p.step = k * p.step := by linarith
  exact_mod_cast mul_right_cancel₀ h.step_ne_zero hmul

/-- Every position lies in the bounds. -/
theorem Fits.index_mem_bounds (h : p.Fits n) {k : Nat} (hk : k < p.count) :
    p.bounds.start ≤ p.index k ∧ p.index k < p.bounds.stop := by
  have hpos : 0 < p.count := by omega
  have hlast : p.count - 1 < p.count := by omega
  have hk' : (k : Int) ≤ ((p.count - 1 : Nat) : Int) := by omega
  have hcast := h.cast_index hk
  have hlastCast := h.cast_index hlast
  simp only [bounds, if_neg (Nat.pos_iff_ne_zero.1 hpos)]
  rcases Int.lt_or_lt_of_ne h.step_ne_zero with hneg | hplus
  · have hstep : ((p.count - 1 : Nat) : Int) * p.step ≤ k * p.step := by nlinarith
    have hfirst : (k : Int) * p.step ≤ 0 := by nlinarith
    omega
  · have hstep : (k : Int) * p.step ≤ ((p.count - 1 : Nat) : Int) * p.step := by nlinarith
    have hfirst : 0 ≤ (k : Int) * p.step := by positivity
    omega

/-- The bounds of positions on an axis lie on the axis. -/
theorem Fits.bounds_le (h : p.Fits n) (hpos : 0 < p.count) :
    p.bounds.start < p.bounds.stop ∧ p.bounds.stop ≤ n := by
  have hfirst : p.index 0 < n := h.index_lt hpos
  have hzero : p.index 0 = p.first := by simp [index]
  have hlast : p.index (p.count - 1) < n := h.index_lt (by omega)
  simp only [bounds, if_neg (Nat.pos_iff_ne_zero.1 hpos)]
  omega

end Progression

namespace Slice

/-- The positions counted between two ends stay in front of the upper end. -/
theorem add_mul_lt_of_lt_strideCount {low high : Int} {step k : Nat} (hstep : 0 < step)
    (hk : k < strideCount low high step) : low + k * step < high := by
  unfold strideCount at hk
  split at hk
  · have hmul : k * step ≤ (high - low - 1).toNat :=
      (Nat.le_div_iff_mul_le hstep).1 (by omega)
    have hcast : (k : Int) * step ≤ ((high - low - 1).toNat : Int) := by exact_mod_cast hmul
    omega
  · omega

/-- No axis is longer than it is counted by signed words. -/
theorem signedLength_le (length : Nat) : signedLength length ≤ length := by
  unfold signedLength
  split <;> omega

/-- Steps upwards from the lower of two bounds stay on an axis that has all positions between them. -/
theorem fits_upwards {low high step : Int} {length : Nat} (hstep : 0 < step) (hlow : 0 ≤ low)
    (hhigh : high ≤ length) :
    Progression.Fits ⟨if strideCount low high step.natAbs = 0 then 0 else low.toNat,
      strideCount low high step.natAbs, step⟩ length := by
  have hpos : 0 < step.natAbs := Int.natAbs_pos.2 hstep.ne'
  have hsame : (step.natAbs : Int) = step := Int.natAbs_of_nonneg hstep.le
  refine ⟨hstep.ne', fun k hk => ?_, fun k hk => ?_⟩
  all_goals
    dsimp only at hk ⊢
    have hlt := add_mul_lt_of_lt_strideCount hpos hk
    have hkstep : 0 ≤ (k : Int) * step := by positivity
    rw [hsame] at hlt
    rw [if_neg (by omega)]
    omega

/-- Steps downwards from the upper of two bounds, which itself is not selected below, stay on the axis. -/
theorem fits_downwards {low high step : Int} {length : Nat} (hstep : step < 0) (hlow : -1 ≤ low)
    (hhigh : high < length) :
    Progression.Fits ⟨if strideCount low high step.natAbs = 0 then 0 else high.toNat,
      strideCount low high step.natAbs, step⟩ length := by
  have hpos : 0 < step.natAbs := Int.natAbs_pos.2 hstep.ne
  have hsame : (step.natAbs : Int) = -step := Int.ofNat_natAbs_of_nonpos hstep.le
  refine ⟨hstep.ne, fun k hk => ?_, fun k hk => ?_⟩
  all_goals
    dsimp only at hk ⊢
    have hlt := add_mul_lt_of_lt_strideCount hpos hk
    have hkstep : 0 ≤ (k : Int) * (-step) := mul_nonneg (by omega) (by omega)
    rw [hsame] at hlt
    rw [mul_neg] at hlt hkstep
    rw [if_neg (by omega)]
    omega

/-- Resolution selects positions on the axis, none of them twice. -/
theorem fits_of_resolve {strict : Bool} {length : Nat} {s : Slice} {p : Progression}
    (h : s.resolve strict length = .ok p) : p.Fits length := by
  have hn := signedLength_le length
  cases s with
  | single i =>
    simp only [resolve] at h
    split at h
    · cases h
    · cases h
      refine ⟨Int.one_ne_zero, fun k hk => ?_, fun k hk => ?_⟩
      all_goals
        dsimp only at hk ⊢
        omega
  | range start stop step =>
    simp only [resolve] at h
    split at h
    · cases h
    rename_i hzero
    split at h
    · cases h
    cases h
    -- A bound that is given is clamped to the axis, and one that is not is an end of it.
    by_cases hstep : 0 < step
    · simp only [if_pos hstep]
      refine fits_upwards hstep ?_ ?_
      · cases start <;> simp only [clamp] <;> omega
      · cases stop <;> simp only [clamp] <;> omega
    · simp only [if_neg hstep]
      refine fits_downwards (by omega) ?_ ?_
      · cases stop <;> simp only [clamp] <;> omega
      · cases start <;> simp only [clamp] <;> omega

end Slice

namespace Selection

/-- The progressions of a selection stay on the axes of a shape. -/
def Fits (sel : Selection) (shape : Shape) : Prop :=
  List.Forall₂ Progression.Fits sel shape

/-- The coordinates in the array of the output element at coordinates `q`. -/
def position (sel : Selection) (q : List Nat) : List Nat :=
  List.zipWith Progression.index sel q

/-- The coordinates of all selected elements in C order. -/
def coords (sel : Selection) : List (List Nat) :=
  cartesian (sel.map Progression.indices)

theorem size_pos_iff {sel : Selection} : 0 < sel.size ↔ ¬ sel.isEmpty = true := by
  rw [Selection.isEmpty, beq_iff_eq, Nat.pos_iff_ne_zero]

end Selection

namespace Region

theorem fits_of_resolveAxes {strict : Bool} {shape : Shape} {region : Region} {sel : Selection}
    (h : resolveAxes strict shape region = .ok sel) : sel.Fits shape := by
  induction shape generalizing region sel with
  | nil =>
    cases h
    exact List.Forall₂.nil
  | cons n shape ih =>
    simp only [resolveAxes, bind, Except.bind] at h
    split at h
    · cases h
    rename_i p hp
    split at h
    · cases h
    rename_i rest hrest
    cases h
    exact List.Forall₂.cons (Slice.fits_of_resolve hp) (ih hrest)

/-- A resolved region fits the shape against which it was resolved. -/
theorem fits_of_resolveWith {strict : Bool} {shape : Shape} {region : Region} {sel : Selection}
    (h : region.resolveWith strict shape = .ok sel) : sel.Fits shape := by
  unfold resolveWith at h
  split at h
  · cases h
  · exact fits_of_resolveAxes h

end Region

end ChunkedArray
