import Mathlib

/-!
# Rounding to the nearest integer, ties to even

## Main definitions

* `NearestEven.nearestEven` — the nearest integer of a rational, the even one of two.

## Main results

* `NearestEven.abs_sub_le` — the error is at most one half.
* `NearestEven.lt_of_one_lt` — numbers more than one apart stay apart.
* `NearestEven.sub_le_floor` — two roundings are at most the rounded-down distance plus one apart.
* `NearestEven.nearestEven_neg` — the rounding of the negative.
* `NearestEven.lt_even_iff` — the rounding is below an even integer just when the number is more
  than one half below it.
-/

namespace NearestEven

/-- The nearest integer; of two nearest integers the even one. -/
def nearestEven (x : ℚ) : ℤ :=
  if x - ⌊x⌋ < 1 / 2 then ⌊x⌋
  else if 1 / 2 < x - ⌊x⌋ then ⌊x⌋ + 1
  else ⌊x⌋ + ⌊x⌋ % 2

variable {x y : ℚ}

/-- An integer is its own rounding. -/
@[simp] lemma nearestEven_intCast (k : ℤ) : nearestEven k = k := by
  simp [nearestEven]

/-- The rounding is at most one half away. -/
theorem abs_sub_le (x : ℚ) : |(nearestEven x : ℚ) - x| ≤ 1 / 2 := by
  have hlo := Int.floor_le x
  have hhi := Int.lt_floor_add_one x
  have hparity : ⌊x⌋ % 2 = 0 ∨ ⌊x⌋ % 2 = 1 := by omega
  unfold nearestEven
  split_ifs with h1 h2
  · rw [abs_le]
    constructor <;> linarith
  · push_cast
    rw [abs_le]
    constructor <;> linarith
  · push_cast
    rcases hparity with h | h <;> rw [h, abs_le] <;> push_cast <;> constructor <;> linarith

/-- Numbers more than one apart have different roundings. -/
theorem lt_of_one_lt (h : x + 1 < y) : nearestEven x < nearestEven y := by
  have hx := abs_le.mp (abs_sub_le x)
  have hy := abs_le.mp (abs_sub_le y)
  have : (nearestEven x : ℚ) < nearestEven y := by linarith
  exact_mod_cast this

/-- Two roundings are at most the rounded-down distance plus one apart. -/
theorem sub_le_floor (x y : ℚ) : nearestEven y - nearestEven x ≤ ⌊y - x⌋ + 1 := by
  have hx := abs_le.mp (abs_sub_le x)
  have hy := abs_le.mp (abs_sub_le y)
  have hle : (nearestEven y : ℚ) - nearestEven x - 1 ≤ y - x := by linarith
  have : nearestEven y - nearestEven x - 1 ≤ ⌊y - x⌋ := by
    rw [Int.le_floor]
    push_cast
    exact hle
  omega

/-- The rounding is at least an integer that is at most the number. -/
lemma le_nearestEven {k : ℤ} (h : (k : ℚ) ≤ x) : k ≤ nearestEven x := by
  have herror := (abs_le.mp (abs_sub_le x)).1
  have : ((k - 1 : ℤ) : ℚ) < nearestEven x := by
    push_cast
    linarith
  have := Int.cast_lt.mp this
  omega

/-- The rounding is at most an integer that is at least the number. -/
lemma nearestEven_le {k : ℤ} (h : x ≤ (k : ℚ)) : nearestEven x ≤ k := by
  have herror := (abs_le.mp (abs_sub_le x)).2
  have : (nearestEven x : ℚ) < ((k + 1 : ℤ) : ℚ) := by
    push_cast
    linarith
  have := Int.cast_lt.mp this
  omega

/-- The rounding of the negative is the negative of the rounding. -/
theorem nearestEven_neg (x : ℚ) : nearestEven (-x) = -nearestEven x := by
  by_cases hint : (⌊x⌋ : ℚ) = x
  · rw [← hint, ← Int.cast_neg, nearestEven_intCast, nearestEven_intCast]
  · have hlo : (⌊x⌋ : ℚ) < x := lt_of_le_of_ne (Int.floor_le x) hint
    have hhi := Int.lt_floor_add_one x
    -- the number behind the point is mirrored
    have hfloor : ⌊-x⌋ = -⌊x⌋ - 1 := by
      rw [Int.floor_eq_iff]
      push_cast
      constructor <;> linarith
    unfold nearestEven
    rw [hfloor]
    push_cast
    split_ifs <;> first | omega | (exfalso; linarith)

/-- The rounding is below an even integer just when the number is more than one half below it. -/
theorem lt_even_iff {k : ℤ} (hk : k % 2 = 0) : nearestEven x < k ↔ x < k - 1 / 2 := by
  constructor
  · intro h
    by_contra hle
    rw [not_lt] at hle
    have hhalf : (k : ℚ) ≤ x + 1 / 2 := by linarith
    rcases le_or_gt (k : ℚ) x with hx | hx
    · exact absurd (le_nearestEven hx) (by omega)
    · have hfloor : ⌊x⌋ = k - 1 := by
        rw [Int.floor_eq_iff]
        push_cast
        constructor <;> linarith
      unfold nearestEven at h
      rw [hfloor] at h
      push_cast at h
      split_ifs at h with h1 h2
      · linarith
      · omega
      · omega
  · intro h
    have herror := (abs_le.mp (abs_sub_le x)).2
    have : (nearestEven x : ℚ) < k := by linarith
    exact_mod_cast this

end NearestEven
