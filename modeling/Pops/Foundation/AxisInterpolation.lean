import Mathlib

/-!
# Interpolation along one axis of a refined lattice

A lattice refined by a ratio along every axis has an origin of its own.  Data on the coarse lattice
is read at a point of the fine one by linear interpolation along one axis and constant injection
along the others.  Reading through two refinements is reading once through the product of their
ratios, and over the fine points of a coarse one the differences along the axis add up to the coarse
difference.

## Main definitions

* `AxisInterpolation.below` — the coarse point at or below a fine one.
* `AxisInterpolation.interpolate` — coarse data at a fine point.
* `AxisInterpolation.block` — the fine points of a coarse one.

## Main results

* `AxisInterpolation.interpolate_succ` — a step along the axis adds a share of the coarse
  difference.
* `AxisInterpolation.interpolate_interpolate` — two refinements are one.
* `AxisInterpolation.sum_block` — the weighted differences over a block.
-/

namespace AxisInterpolation

variable {ι : Type*} [DecidableEq ι]

/-- The next point along an axis. -/
def succ (axis : ι) (x : ι → ℤ) : ι → ℤ := Function.update x axis (x axis + 1)

/-- The coarse point at or below a fine one. -/
def below (fine coarse ratio : ι → ℤ) (x : ι → ℤ) : ι → ℤ :=
  fun i => coarse i + (x i - fine i) / ratio i

/-- The steps from the coarse point below to a fine point, along an axis. -/
def offset (fine ratio : ι → ℤ) (axis : ι) (x : ι → ℤ) : ℤ := (x axis - fine axis) % ratio axis

section

variable {K : Type*} [Field K]

/-- Coarse data at a fine point. -/
def interpolate (fine coarse ratio : ι → ℤ) (axis : ι) (φ : (ι → ℤ) → K) (x : ι → ℤ) : K :=
  φ (below fine coarse ratio x) + (offset fine ratio axis x : K) / (ratio axis : K) *
    (φ (succ axis (below fine coarse ratio x)) - φ (below fine coarse ratio x))

variable {fine coarse ratio : ι → ℤ} {axis : ι}

/-- Within a coarse step the point below stays and the offset grows. -/
lemma below_succ_of_lt (coarse : ι → ℤ) {x : ι → ℤ} (hratio : 0 < ratio axis)
    (h : offset fine ratio axis x + 1 < ratio axis) :
    below fine coarse ratio (succ axis x) = below fine coarse ratio x ∧
      offset fine ratio axis (succ axis x) = offset fine ratio axis x + 1 := by
  unfold offset at h
  have hstep : x axis + 1 - fine axis =
      (x axis - fine axis) % ratio axis + 1 + ratio axis * ((x axis - fine axis) / ratio axis) := by
    have := Int.emod_add_mul_ediv (x axis - fine axis) (ratio axis)
    omega
  have hnonneg := Int.emod_nonneg (x axis - fine axis) hratio.ne'
  constructor
  · funext i
    by_cases hi : i = axis
    · subst hi
      simp only [below, succ, Function.update_self, hstep]
      rw [Int.add_mul_ediv_left _ _ hratio.ne', Int.ediv_eq_zero_of_lt (by omega) h, zero_add]
    · simp only [below, succ, Function.update_of_ne hi]
  · simp only [offset, succ, Function.update_self, hstep]
    rw [Int.add_mul_emod_self_left, Int.emod_eq_of_lt (by omega) h]

/-- At the end of a coarse step the point below moves on. -/
lemma below_succ_of_eq (coarse : ι → ℤ) {x : ι → ℤ} (hratio : 0 < ratio axis)
    (h : offset fine ratio axis x + 1 = ratio axis) :
    below fine coarse ratio (succ axis x) = succ axis (below fine coarse ratio x) ∧
      offset fine ratio axis (succ axis x) = 0 := by
  unfold offset at h
  have hstep : x axis + 1 - fine axis =
      ratio axis * ((x axis - fine axis) / ratio axis + 1) := by
    have := Int.emod_add_mul_ediv (x axis - fine axis) (ratio axis)
    rw [mul_add, mul_one]
    omega
  constructor
  · funext i
    by_cases hi : i = axis
    · subst hi
      simp only [below, succ, Function.update_self, hstep]
      rw [Int.mul_ediv_cancel_left _ hratio.ne', add_assoc]
    · simp only [below, succ, Function.update_of_ne hi]
  · simp only [offset, succ, Function.update_self, hstep, Int.mul_emod_right]

variable [CharZero K]

/-- A step along the axis adds a share of the coarse difference. -/
theorem interpolate_succ (hratio : 0 < ratio axis) (φ : (ι → ℤ) → K) (x : ι → ℤ) :
    interpolate fine coarse ratio axis φ (succ axis x) =
      interpolate fine coarse ratio axis φ x +
        (φ (succ axis (below fine coarse ratio x)) - φ (below fine coarse ratio x)) /
          (ratio axis : K) := by
  have hne : (ratio axis : K) ≠ 0 := Int.cast_ne_zero.mpr hratio.ne'
  have hlt : offset fine ratio axis x < ratio axis := Int.emod_lt_of_pos _ hratio
  rcases lt_or_eq_of_le (show offset fine ratio axis x + 1 ≤ ratio axis by omega) with h | h
  · obtain ⟨hbelow, hoffset⟩ := below_succ_of_lt coarse hratio h
    simp only [interpolate, hbelow, hoffset]
    push_cast
    ring
  · obtain ⟨hbelow, hoffset⟩ := below_succ_of_eq coarse hratio h
    -- the share is what the offset lacks of the ratio
    have hcast : (offset fine ratio axis x : K) = (ratio axis : K) - 1 := by
      rw [eq_sub_iff_add_eq]
      exact_mod_cast congrArg (Int.cast : ℤ → K) h
    simp only [interpolate, hbelow, hoffset, hcast]
    field_simp
    push_cast
    ring

/-- Reading through two refinements is reading once through the product of their ratios. -/
theorem interpolate_interpolate {coarsest ratio' : ι → ℤ} (hratio : ∀ i, 0 < ratio i)
    (hratio' : 0 < ratio' axis) (φ : (ι → ℤ) → K) (x : ι → ℤ) :
    interpolate fine coarse ratio axis (interpolate coarse coarsest ratio' axis φ) x =
      interpolate fine coarsest (fun i => ratio i * ratio' i) axis φ x := by
  have hbelow : below coarse coarsest ratio' (below fine coarse ratio x) =
      below fine coarsest (fun i => ratio i * ratio' i) x := by
    funext i
    simp only [below, add_sub_cancel_left]
    rw [Int.ediv_ediv_of_nonneg (hratio i).le]
  have hoffset : offset fine (fun i => ratio i * ratio' i) axis x =
      offset coarse ratio' axis (below fine coarse ratio x) * ratio axis +
        offset fine ratio axis x := by
    simp only [offset, below, add_sub_cancel_left]
    have hone := Int.emod_add_mul_ediv (x axis - fine axis) (ratio axis)
    have htwo := Int.emod_add_mul_ediv ((x axis - fine axis) / ratio axis) (ratio' axis)
    have hboth := Int.emod_add_mul_ediv (x axis - fine axis) (ratio axis * ratio' axis)
    rw [Int.ediv_ediv_of_nonneg (hratio axis).le] at htwo
    linear_combination hboth - hone - ratio axis * htwo
  have hne : (ratio axis : K) ≠ 0 := Int.cast_ne_zero.mpr (hratio axis).ne'
  have hne' : (ratio' axis : K) ≠ 0 := Int.cast_ne_zero.mpr hratio'.ne'
  rw [interpolate, interpolate_succ hratio', interpolate, hbelow, interpolate, hoffset]
  push_cast
  field_simp
  ring

end

section

variable {K : Type*} [Field K] [CharZero K] [Fintype ι]

/-- The fine points of a coarse one. -/
noncomputable def block (fine coarse ratio : ι → ℤ) (c : ι → ℤ) : Finset (ι → ℤ) :=
  Fintype.piFinset fun i => Finset.Ico (fine i + (c i - coarse i) * ratio i)
    (fine i + (c i - coarse i) * ratio i + ratio i)

variable {fine coarse ratio : ι → ℤ}

/-- The fine points of a coarse one are those it is below. -/
lemma below_of_mem_block {c x : ι → ℤ} (hratio : ∀ i, 0 < ratio i)
    (h : x ∈ block fine coarse ratio c) : below fine coarse ratio x = c := by
  funext i
  have hi := Finset.mem_Ico.mp (Fintype.mem_piFinset.mp h i)
  have hstep : x i - fine i =
      x i - (fine i + (c i - coarse i) * ratio i) + ratio i * (c i - coarse i) := by
    ring
  simp only [below, hstep]
  rw [Int.add_mul_ediv_left _ _ (hratio i).ne', Int.ediv_eq_zero_of_lt (by omega) (by omega)]
  omega

/-- The number of fine points of a coarse one. -/
lemma card_block {c : ι → ℤ} (hratio : ∀ i, 0 < ratio i) :
    ((block fine coarse ratio c).card : K) = ∏ i, (ratio i : K) := by
  rw [block, Fintype.card_piFinset, Nat.cast_prod]
  refine Finset.prod_congr rfl fun i _ => ?_
  rw [Int.card_Ico, add_sub_cancel_left]
  exact_mod_cast congrArg (Int.cast : ℤ → K) (Int.toNat_of_nonneg (hratio i).le)

/-- The area of a cell's face: the product of the extents off the axis. -/
def area (axis : ι) (extent : ι → K) : K := ∏ i ∈ Finset.univ.erase axis, extent i

/-- Over the fine points of a coarse one, the differences along an axis, weighted by the areas of
the fine faces, add up to the weighted coarse difference.

**Proof sketch.** Every difference is the same share `1 / ratio axis` of the coarse one, and there
are `∏ ratio` points.  The fine areas are the coarse one divided by the other ratios. -/
theorem sum_block (fine coarse : ι → ℤ) (axis : ι) (c : ι → ℤ) (hratio : ∀ i, 0 < ratio i)
    (extent : ι → K) (φ : (ι → ℤ) → K) :
    ∑ x ∈ block fine coarse ratio c,
        (area axis (fun i => extent i / ratio i) * interpolate fine coarse ratio axis φ
          (succ axis x) -
          area axis (fun i => extent i / ratio i) * interpolate fine coarse ratio axis φ x) =
      area axis extent * φ (succ axis c) - area axis extent * φ c := by
  have hne : ∀ i, (ratio i : K) ≠ 0 := fun i => Int.cast_ne_zero.mpr (hratio i).ne'
  have hshare : ∀ x ∈ block fine coarse ratio c,
      area axis (fun i => extent i / ratio i) * interpolate fine coarse ratio axis φ (succ axis x) -
          area axis (fun i => extent i / ratio i) * interpolate fine coarse ratio axis φ x =
        area axis (fun i => extent i / ratio i) * ((φ (succ axis c) - φ c) / ratio axis) := by
    intro x hx
    rw [interpolate_succ (hratio axis), below_of_mem_block hratio hx]
    ring
  have harea : area axis (fun i => extent i / (ratio i : K)) =
      area axis extent / ∏ i ∈ Finset.univ.erase axis, (ratio i : K) :=
    Finset.prod_div_distrib _ _
  have hothers : ∏ i ∈ Finset.univ.erase axis, (ratio i : K) ≠ 0 :=
    Finset.prod_ne_zero_iff.mpr fun i _ => hne i
  rw [Finset.sum_congr rfl hshare, Finset.sum_const, nsmul_eq_mul, card_block hratio, harea,
    ← Finset.mul_prod_erase Finset.univ (fun i => (ratio i : K)) (Finset.mem_univ axis)]
  have := hne axis
  field_simp

end

end AxisInterpolation
