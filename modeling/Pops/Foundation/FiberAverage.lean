import Mathlib

/-!
# Averages over fibers

The mean of a function over a finite set, in a field of characteristic zero.  When a map sends a
fine set onto a coarse set with fibers of one common size, the means over the fibers add up to the
total of the function, up to that size.

## Main definitions

* `FiberAverage.mean` — the mean over a finite set.

## Main results

* `FiberAverage.mean_of_const` — the mean of a constant is the constant.
* `FiberAverage.sum_mean_mul` — the means over fibers of one size keep the total.
-/

namespace FiberAverage

variable {F C K : Type*} [Field K]

/-- The mean of a function over a finite set. -/
def mean (s : Finset F) (f : F → K) : K := (∑ j ∈ s, f j) / s.card

variable [CharZero K]

/-- The mean times the number of points is the sum. -/
lemma mean_mul_card {s : Finset F} (hs : s.Nonempty) (f : F → K) :
    mean s f * s.card = ∑ j ∈ s, f j := by
  have hcard : (s.card : K) ≠ 0 := Nat.cast_ne_zero.mpr hs.card_pos.ne'
  exact div_mul_cancel₀ _ hcard

/-- The mean of a function with one value is that value. -/
theorem mean_of_const {s : Finset F} (hs : s.Nonempty) {f : F → K} {v : K}
    (h : ∀ j ∈ s, f j = v) : mean s f = v := by
  have hcard : (s.card : K) ≠ 0 := Nat.cast_ne_zero.mpr hs.card_pos.ne'
  rw [mean, Finset.sum_congr rfl h, Finset.sum_const, nsmul_eq_mul]
  exact mul_div_cancel_left₀ v hcard

/-- **Means over fibers keep the total.** If every point of the coarse set has a fiber of `n`
points, all of them in the fine set, and the fine set consists of these fibers, then `n` times the
sum of the means is the sum over the fine set. -/
theorem sum_mean_mul [DecidableEq C] {coarse : Finset C} {fine : Finset F} {parent : F → C}
    {fiber : C → Finset F} {n : ℕ} (hn : n ≠ 0)
    (hfiber : ∀ i ∈ coarse, ∀ j, j ∈ fiber i ↔ j ∈ fine ∧ parent j = i)
    (hcard : ∀ i ∈ coarse, (fiber i).card = n) (hparent : ∀ j ∈ fine, parent j ∈ coarse)
    (f : F → K) : (∑ i ∈ coarse, mean (fiber i) f) * n = ∑ j ∈ fine, f j := by
  rw [Finset.sum_mul, ← Finset.sum_fiberwise_of_maps_to hparent]
  refine Finset.sum_congr rfl fun i hi => ?_
  have hnonempty : (fiber i).Nonempty := by
    rw [← Finset.card_pos, hcard i hi]
    omega
  have hfilter : fine.filter (fun j => parent j = i) = fiber i := by
    ext j
    rw [Finset.mem_filter, hfiber i hi]
  rw [hfilter, ← mean_mul_card hnonempty, hcard i hi]

end FiberAverage
