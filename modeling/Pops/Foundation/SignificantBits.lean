import Pops.Foundation.NearestEven

/-!
# Rounding to a number of significant bits

Binary rounding with an unbounded exponent: a rational other than zero is scaled so that it has the
given number of bits in front of the point, rounded to the nearest integer with ties to even, and
scaled back.

## Main definitions

* `SignificantBits.unit` — the weight of the last significant bit.
* `SignificantBits.roundTo` — the rounding.
* `SignificantBits.binary64` — the nearest finite binary64 number.

## Main results

* `SignificantBits.roundTo_pos` — positive numbers stay positive.
* `SignificantBits.roundTo_lt_iff` — which numbers stay below a power of two.
* `SignificantBits.binary64_natCast` — which integers do not overflow.
-/

namespace SignificantBits

open NearestEven

/-- The weight of the last of `bits` significant bits. -/
def unit (bits : ℕ) (x : ℚ) : ℚ :=
  2 ^ (Int.log 2 |x| + 1 - bits)

/-- The nearest number of `bits` significant bits; of two nearest ones the even one. -/
def roundTo (bits : ℕ) (x : ℚ) : ℚ :=
  if x = 0 then 0 else nearestEven (x / unit bits x) * unit bits x

/-- The nearest finite binary64 number, if there is one: small numbers are rounded to multiples of
the least positive number, and a number that is rounded to `2 ^ 1024` overflows. -/
def binary64 (x : ℚ) : Option ℚ :=
  let rounded :=
    if |x| < 2 ^ (-1022 : ℤ) then (nearestEven (x * 2 ^ 1074) : ℚ) / 2 ^ 1074 else roundTo 53 x
  if |rounded| < 2 ^ 1024 then some rounded else none

variable {bits : ℕ} {x : ℚ}

/-- The weight of the last significant bit is positive. -/
lemma unit_pos (bits : ℕ) (x : ℚ) : 0 < unit bits x :=
  zpow_pos two_pos _

/-- The first significant bit is at most the number. -/
lemma unit_mul_le (bits : ℕ) (hx : x ≠ 0) : unit bits x * 2 ^ ((bits : ℤ) - 1) ≤ |x| := by
  have hlog : (2 : ℚ) ^ Int.log 2 |x| ≤ |x| := by
    exact_mod_cast Int.zpow_log_le_self (b := 2) one_lt_two (abs_pos.mpr hx)
  rw [unit, ← zpow_add₀ two_ne_zero]
  convert hlog using 2
  omega

/-- The rounding of a positive number is positive. -/
theorem roundTo_pos (hbits : 0 < bits) (hx : 0 < x) : 0 < roundTo bits x := by
  have hunit := unit_pos bits x
  rw [roundTo, if_neg hx.ne']
  refine mul_pos ?_ hunit
  have hone : (1 : ℚ) ≤ 2 ^ ((bits : ℤ) - 1) := one_le_zpow₀ one_le_two (by omega)
  have hle : unit bits x ≤ x := by
    calc unit bits x ≤ unit bits x * 2 ^ ((bits : ℤ) - 1) := le_mul_of_one_le_right hunit.le hone
      _ ≤ |x| := unit_mul_le bits hx.ne'
      _ = x := abs_of_pos hx
  have hquotient : 1 ≤ x / unit bits x := (one_le_div hunit).mpr hle
  have herror := (abs_le.mp (abs_sub_le (x / unit bits x))).1
  linarith

/-- The weight of the last bit of a negative number. -/
lemma unit_neg (bits : ℕ) (x : ℚ) : unit bits (-x) = unit bits x := by
  rw [unit, unit, abs_neg]

/-- The rounding of the negative is the negative of the rounding. -/
lemma roundTo_neg (bits : ℕ) (x : ℚ) : roundTo bits (-x) = -roundTo bits x := by
  unfold roundTo
  by_cases hx : x = 0
  · rw [if_pos (neg_eq_zero.mpr hx), if_pos hx, neg_zero]
  · rw [if_neg (neg_ne_zero.mpr hx), if_neg hx, unit_neg, neg_div, nearestEven_neg, Int.cast_neg,
      neg_mul]

/-- **The rounding of a positive number is below a power of two** just when the number is more than
half a unit below it.

**Proof sketch.** Below the preceding power nothing can round that far; from the power on nothing
can round below it; in between the units are those of the last bit in front of the power, and the
power is an even number of these. -/
theorem roundTo_lt_iff (hbits : 0 < bits) (hx : 0 < x) (e : ℤ) :
    roundTo bits x < 2 ^ e ↔ x < 2 ^ e - 2 ^ (e - bits - 1) := by
  have hlo : (2 : ℚ) ^ Int.log 2 x ≤ x := by
    exact_mod_cast Int.zpow_log_le_self (b := 2) one_lt_two hx
  have hhi : x < (2 : ℚ) ^ (Int.log 2 x + 1) := by
    exact_mod_cast Int.lt_zpow_succ_log_self (b := 2) one_lt_two x
  have hunit := unit_pos bits x
  have hround : roundTo bits x = nearestEven (x / unit bits x) * unit bits x := by
    rw [roundTo, if_neg hx.ne']
  have hdef : unit bits x = 2 ^ (Int.log 2 x + 1 - bits) := by
    rw [unit, abs_of_pos hx]
  -- a power of two times the unit
  have hscale : ∀ k : ℤ, (2 : ℚ) ^ k * unit bits x = 2 ^ (Int.log 2 x + 1 - bits + k) := by
    intro k
    rw [hdef, ← zpow_add₀ two_ne_zero, add_comm]
  have hquotient : x / unit bits x * unit bits x = x := div_mul_cancel₀ x hunit.ne'
  rcases lt_trichotomy (Int.log 2 x + 1) e with hlt | heq | hgt
  · have hupper : nearestEven (x / unit bits x) ≤ 2 ^ bits := by
      refine nearestEven_le ?_
      rw [div_le_iff₀ hunit]
      push_cast
      rw [← zpow_natCast, hscale]
      refine hhi.le.trans (le_of_eq ?_)
      congr 1
      omega
    have hsmall : roundTo bits x ≤ 2 ^ (e - 1) := by
      rw [hround]
      calc (nearestEven (x / unit bits x) : ℚ) * unit bits x
          ≤ (2 : ℚ) ^ (bits : ℤ) * unit bits x := by
            refine mul_le_mul_of_nonneg_right ?_ hunit.le
            rw [zpow_natCast]
            exact_mod_cast hupper
        _ = 2 ^ (Int.log 2 x + 1) := by
            rw [hscale]
            congr 1
            omega
        _ ≤ 2 ^ (e - 1) := zpow_le_zpow_right₀ one_le_two (by omega)
    have hhalf : (2 : ℚ) ^ (e - 1) + 2 ^ (e - 1) = 2 ^ e := by
      rw [← two_mul, ← zpow_one_add₀ two_ne_zero]
      congr 1
      omega
    have hpos : (0 : ℚ) < 2 ^ (e - 1) := zpow_pos two_pos _
    have hlast : (2 : ℚ) ^ (e - bits - 1) ≤ 2 ^ (e - 1) := zpow_le_zpow_right₀ one_le_two (by omega)
    have hx' : x < 2 ^ (e - 1) := hhi.trans_le (zpow_le_zpow_right₀ one_le_two (by omega))
    constructor
    · intro _
      linarith
    · intro _
      linarith
  · have hpower : (2 : ℚ) ^ e = ((2 ^ bits : ℤ) : ℚ) * unit bits x := by
      push_cast
      rw [← zpow_natCast, hscale]
      congr 1
      omega
    have hhalf : (2 : ℚ) ^ (e - bits - 1) = 1 / 2 * unit bits x := by
      rw [one_div, ← zpow_neg_one, hscale]
      congr 1
      omega
    have heven : (2 ^ bits : ℤ) % 2 = 0 := by
      obtain ⟨b, rfl⟩ := Nat.exists_eq_succ_of_ne_zero hbits.ne'
      rw [pow_succ]
      omega
    rw [hround, hpower, hhalf, mul_lt_mul_iff_left₀ hunit, Int.cast_lt, lt_even_iff heven,
      ← sub_mul, ← mul_lt_mul_iff_left₀ hunit, hquotient]
  · have hlower : 2 ^ (bits - 1) ≤ nearestEven (x / unit bits x) := by
      refine le_nearestEven ?_
      rw [le_div_iff₀ hunit]
      push_cast
      rw [← zpow_natCast, hscale]
      refine le_trans (le_of_eq ?_) hlo
      congr 1
      omega
    have hlarge : (2 : ℚ) ^ e ≤ roundTo bits x := by
      rw [hround]
      calc (2 : ℚ) ^ e ≤ 2 ^ Int.log 2 x := zpow_le_zpow_right₀ one_le_two (by omega)
        _ = (2 : ℚ) ^ ((bits - 1 : ℕ) : ℤ) * unit bits x := by
            rw [hscale]
            congr 1
            omega
        _ ≤ nearestEven (x / unit bits x) * unit bits x := by
            refine mul_le_mul_of_nonneg_right ?_ hunit.le
            rw [zpow_natCast]
            exact_mod_cast hlower
    have hx' : (2 : ℚ) ^ e ≤ x := (zpow_le_zpow_right₀ one_le_two (by omega)).trans hlo
    have hpos : (0 : ℚ) < 2 ^ (e - bits - 1) := zpow_pos two_pos _
    constructor
    · intro h
      linarith
    · intro h
      linarith

/-- A number that is not small has a finite binary64 number unless it is rounded too far. -/
lemma isSome_binary64 (h : ¬ |x| < 2 ^ (-1022 : ℤ)) :
    (binary64 x).isSome ↔ |roundTo 53 x| < 2 ^ 1024 := by
  unfold binary64
  rw [if_neg h]
  by_cases hfinite : |roundTo 53 x| < 2 ^ 1024
  · simp [hfinite]
  · simp [hfinite]

/-- The difference of two powers of two. -/
lemma two_zpow_sub {a b : ℕ} (h : b ≤ a) :
    (2 : ℚ) ^ (a : ℤ) - 2 ^ (b : ℤ) = ((2 ^ a - 2 ^ b : ℕ) : ℚ) := by
  rw [Nat.cast_sub (Nat.pow_le_pow_right two_pos h), Nat.cast_pow, Nat.cast_pow, zpow_natCast,
    zpow_natCast, Nat.cast_ofNat]

/-- **Which integers have a finite binary64 number**, of either sign. -/
theorem binary64_natCast (n : ℕ) (negative : Bool) :
    (binary64 (if negative then -(n : ℚ) else n)).isSome ↔ n < 2 ^ 1024 - 2 ^ 970 := by
  have hsize : |(if negative then -(n : ℚ) else n)| = n := by
    cases negative with
    | false => exact abs_of_nonneg n.cast_nonneg
    | true => exact (abs_neg _).trans (abs_of_nonneg n.cast_nonneg)
  rcases Nat.eq_zero_or_pos n with rfl | hn
  · have hzero : (if negative then -((0 : ℕ) : ℚ) else (0 : ℕ)) = 0 := by
      cases negative <;> simp
    rw [hzero]
    decide +kernel
  · have hn' : (0 : ℚ) < n := by exact_mod_cast hn
    have hone : (1 : ℚ) ≤ n := by exact_mod_cast hn
    have hnormal : ¬ (n : ℚ) < 2 ^ (-1022 : ℤ) :=
      not_lt.mpr ((zpow_le_one_of_nonpos₀ one_le_two (by decide)).trans hone)
    have habs : |roundTo 53 (if negative then -(n : ℚ) else n)| = roundTo 53 n := by
      have hpos := @roundTo_pos 53 n (by decide) hn'
      cases negative with
      | false => exact abs_of_pos hpos
      | true =>
        show |roundTo 53 (-(n : ℚ))| = _
        rw [roundTo_neg, abs_neg, abs_of_pos hpos]
    have hlt := @roundTo_lt_iff 53 n (by decide) hn' (1024 : ℕ)
    have hexponent : ((1024 : ℕ) : ℤ) - (53 : ℕ) - 1 = (970 : ℕ) := by decide
    rw [hexponent, two_zpow_sub (by decide), Nat.cast_lt, zpow_natCast] at hlt
    rw [← hsize] at hnormal
    rw [← hlt, ← habs, isSome_binary64 hnormal]

end SignificantBits
