import Mathlib

/-!
# Balanced splits of an interval

An interval of `n` points cut into `k` consecutive segments whose widths differ by at most one,
the wider segments first: segment `i` starts at `i * (n / k) + min i (n % k)` and has `n / k`
points, one more when `i < n % k`.

## Main definitions

* `BalancedSplit.offset`, `width` — start and width of a segment.

## Main results

* `BalancedSplit.offset_succ`, `offset_last` — the segments are consecutive and end at `n`.
* `BalancedSplit.width_pos`, `width_le` — bounds on the widths.
* `BalancedSplit.exists_segment`, `segment_unique` — every point lies in exactly one segment.
-/

namespace BalancedSplit

/-- The first point of segment `i`. -/
def offset (n k i : ℕ) : ℕ := i * (n / k) + (if i < n % k then i else n % k)

/-- The number of points of segment `i`. -/
def width (n k i : ℕ) : ℕ := n / k + (if i < n % k then 1 else 0)

variable {n k i j x m : ℕ}

/-- The segments are consecutive. -/
theorem offset_succ (n k i : ℕ) : offset n k (i + 1) = offset n k i + width n k i := by
  have hmul : (i + 1) * (n / k) = i * (n / k) + n / k := Nat.succ_mul i (n / k)
  unfold offset width
  split_ifs <;> omega

/-- The first segment starts at zero. -/
@[simp] lemma offset_zero (n k : ℕ) : offset n k 0 = 0 := by
  unfold offset
  split_ifs <;> omega

/-- The segments end at `n`. -/
theorem offset_last (hk : 0 < k) : offset n k k = n := by
  have hmod := Nat.mod_lt n hk
  have hdiv := Nat.div_add_mod n k
  unfold offset
  rw [if_neg (by omega)]
  exact hdiv

/-- Starts are monotone in the segment. -/
lemma offset_mono (n k : ℕ) : Monotone (offset n k) :=
  monotone_nat_of_le_succ fun i => by rw [offset_succ]; omega

/-- No segment is empty when there are at most as many segments as points. -/
theorem width_pos (hk : 0 < k) (hkn : k ≤ n) (i : ℕ) : 0 < width n k i := by
  have := Nat.div_pos hkn hk
  unfold width
  omega

/-- A segment has at most `m` points when `k` segments of `m` points suffice. -/
theorem width_le (hnk : n ≤ k * m) (i : ℕ) : width n k i ≤ m := by
  have hdiv := Nat.div_add_mod n k
  have hle : n / k ≤ m := Nat.div_le_of_le_mul hnk
  unfold width
  split_ifs with h
  · have hlt : n / k < m := by
      by_contra hge
      obtain rfl : m = n / k := by omega
      omega
    omega
  · omega

/-- A segment ends inside the interval. -/
lemma offset_add_width_le (hk : 0 < k) (hi : i < k) : offset n k i + width n k i ≤ n := by
  rw [← offset_succ]
  calc offset n k (i + 1) ≤ offset n k k := offset_mono n k hi
    _ = n := offset_last hk

/-- Every point of the interval lies in some segment.

**Proof sketch.** The starts grow from `0` to `n`; take the last segment that starts at or
before the point. -/
theorem exists_segment (hk : 0 < k) (hx : x < n) :
    ∃ i < k, offset n k i ≤ x ∧ x < offset n k i + width n k i := by
  have hgo : ∀ m, x < offset n k m → ∃ i < m, offset n k i ≤ x ∧
      x < offset n k i + width n k i := by
    intro m
    induction m with
    | zero =>
      intro h
      rw [offset_zero] at h
      omega
    | succ m ih =>
      intro h
      by_cases hm : x < offset n k m
      · obtain ⟨i, hi, h1, h2⟩ := ih hm
        exact ⟨i, by omega, h1, h2⟩
      · rw [offset_succ] at h
        exact ⟨m, by omega, by omega, h⟩
  exact hgo k (by rw [offset_last hk]; exact hx)

/-- No point lies in two segments. -/
theorem segment_unique (hi1 : offset n k i ≤ x) (hi2 : x < offset n k i + width n k i)
    (hj1 : offset n k j ≤ x) (hj2 : x < offset n k j + width n k j) : i = j := by
  rw [← offset_succ] at hi2 hj2
  rcases lt_trichotomy i j with h | h | h
  · have := offset_mono n k (show i + 1 ≤ j from h)
    omega
  · exact h
  · have := offset_mono n k (show j + 1 ≤ i from h)
    omega

end BalancedSplit
