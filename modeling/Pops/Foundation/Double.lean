import Pops.Foundation.SignificantBits

/-!
# Binary64 numbers by value

A binary64 number is kept as the rational number that it stands for, as an infinity, or as the
result of an invalid operation.  Sums, products and quotients are rounded to the nearest number,
ties to even.  Both zeros are one number, so that a quotient by zero, which would depend on the
sign of the zero, is left invalid.

## Main definitions

* `SignificantBits.Representable` — the rational numbers that are binary64 numbers.
* `Double` — the numbers, with their rounded operations and comparisons.
* `Double.value` — the rational number that a finite number stands for.
* `Double.frexp` — the fraction and the exponent of a finite number.

## Main results

* `SignificantBits.Representable.binary64_eq`, `representable_of_binary64` — the representable
  numbers are those that rounding keeps, and those that it returns.
* `Double.value_add`, `value_mul`, `value_div` — an operation whose result is representable is
  exact.
* `Double.exists_mantissa` — the significant bits of a finite number are an integer.
-/

namespace SignificantBits

open NearestEven

variable {x r : ℚ}

/-- An integer of at most 53 bits times a power of two that is not below the least positive number,
and that does not overflow. -/
def Representable (x : ℚ) : Prop :=
  ∃ mantissa exponent : ℤ, |mantissa| ≤ 2 ^ 53 ∧ -1074 ≤ exponent ∧
    x = mantissa * 2 ^ exponent ∧ |x| < 2 ^ 1024

/-- A representable number is a multiple of the weight of its last significant bit. -/
lemma Representable.exists_mul_unit (h : Representable x) (hx : x ≠ 0) :
    ∃ n : ℤ, x = n * unit 53 x := by
  obtain ⟨m, e, hm, -, hxe, -⟩ := h
  have hpow : (0 : ℚ) < 2 ^ e := zpow_pos two_pos _
  have hlog : (2 : ℚ) ^ Int.log 2 |x| ≤ |x| := by
    exact_mod_cast Int.zpow_log_le_self (b := 2) one_lt_two (abs_pos.mpr hx)
  have habs : |x| = |(m : ℚ)| * 2 ^ e := by rw [hxe, abs_mul, abs_of_pos hpow]
  rcases le_or_gt (Int.log 2 |x| + 1 - 53) e with hle | hgt
  · -- the mantissa is shifted to the left
    refine ⟨m * 2 ^ (e - (Int.log 2 |x| + 1 - 53)).toNat, ?_⟩
    have hshift : (2 : ℚ) ^ (e - (Int.log 2 |x| + 1 - 53)).toNat * unit 53 x = 2 ^ e := by
      rw [unit, ← zpow_natCast, ← zpow_add₀ two_ne_zero]
      congr 1
      push_cast
      omega
    push_cast
    rw [mul_assoc, hshift]
    exact hxe
  · -- the mantissa has all its bits, and is a power of two
    have hlarge : (2 : ℚ) ^ (Int.log 2 |x| - e) ≤ |(m : ℚ)| := by
      rw [zpow_sub₀ two_ne_zero, div_le_iff₀ hpow, ← habs]
      exact hlog
    have hm' : |(m : ℚ)| ≤ 2 ^ (53 : ℤ) := by exact_mod_cast hm
    have hexp : Int.log 2 |x| - e = 53 := by
      have hle := (zpow_le_zpow_iff_right₀ (one_lt_two (α := ℚ))).mp (hlarge.trans hm')
      omega
    have hfull : |m| = 2 ^ 53 := by
      rw [hexp] at hlarge
      exact_mod_cast le_antisymm hm' hlarge
    have hunit : unit 53 x = 2 ^ e * 2 := by
      rw [unit, ← zpow_add_one₀ two_ne_zero]
      congr 1
      push_cast
      omega
    rcases (abs_eq (by positivity)).mp hfull with rfl | rfl
    · refine ⟨2 ^ 52, ?_⟩
      rw [hunit, hxe]
      push_cast
      ring
    · refine ⟨-2 ^ 52, ?_⟩
      rw [hunit, hxe]
      push_cast
      ring

/-- **Rounding keeps a representable number.** -/
theorem Representable.binary64_eq (h : Representable x) : binary64 x = some x := by
  have hsize : |x| < 2 ^ 1024 := by
    obtain ⟨-, -, -, -, -, hsize⟩ := h
    exact hsize
  have hrounded : (if |x| < 2 ^ (-1022 : ℤ) then (nearestEven (x * 2 ^ 1074) : ℚ) / 2 ^ 1074
      else roundTo 53 x) = x := by
    split_ifs with hsmall
    · obtain ⟨m, e, -, he, hxe, -⟩ := h
      have hint : x * 2 ^ 1074 = ((m * 2 ^ (e + 1074).toNat : ℤ) : ℚ) := by
        push_cast
        rw [hxe, mul_assoc, ← zpow_natCast, ← zpow_natCast, ← zpow_add₀ two_ne_zero]
        congr 2
        push_cast
        omega
      rw [hint, nearestEven_intCast, ← hint, mul_div_cancel_right₀ x (by positivity)]
    · unfold roundTo
      split_ifs with hzero
      · exact hzero.symm
      · obtain ⟨n, hn⟩ := h.exists_mul_unit hzero
        have hquotient : x / unit 53 x = n := by
          rw [div_eq_iff (unit_pos 53 x).ne']
          exact hn
        rw [hquotient, nearestEven_intCast, ← hn]
  unfold binary64
  simp only [hrounded, if_pos hsize]

/-- **Rounding returns representable numbers.** -/
theorem representable_of_binary64 (h : binary64 x = some r) : Representable r := by
  unfold binary64 at h
  simp only [Option.ite_none_right_eq_some, Option.some.injEq] at h
  obtain ⟨hsize, hr⟩ := h
  rw [hr] at hsize
  split_ifs at hr with hsmall
  · -- a multiple of the least positive number
    have hbound : |x * 2 ^ 1074| ≤ ((2 ^ 52 : ℤ) : ℚ) := by
      have hscale : (0 : ℚ) < 2 ^ 1074 := by positivity
      rw [abs_mul, abs_of_pos hscale]
      calc |x| * 2 ^ 1074 ≤ 2 ^ (-1022 : ℤ) * 2 ^ 1074 := by gcongr
        _ = 2 ^ ((-1022 : ℤ) + (1074 : ℕ)) := by rw [← zpow_natCast, ← zpow_add₀ two_ne_zero]
        _ = ((2 ^ 52 : ℤ) : ℚ) := by norm_num
    have hlower : -(2 ^ 52) ≤ nearestEven (x * 2 ^ 1074) :=
      le_nearestEven (by rw [Int.cast_neg]; exact (abs_le.mp hbound).1)
    have hupper : nearestEven (x * 2 ^ 1074) ≤ 2 ^ 52 := nearestEven_le (abs_le.mp hbound).2
    refine ⟨nearestEven (x * 2 ^ 1074), -1074, ?_, le_rfl, ?_, hsize⟩
    · rw [abs_le]
      constructor <;> omega
    · show r = _ * 2 ^ (-((1074 : ℕ) : ℤ))
      rw [← hr, zpow_neg, zpow_natCast, div_eq_mul_inv]
  · have hunit := unit_pos 53 x
    rw [roundTo] at hr
    split_ifs at hr with hzero
    · exact ⟨0, 0, by norm_num, by norm_num, by rw [← hr]; norm_num, hsize⟩
    · have hlog : |x| < (2 : ℚ) ^ (Int.log 2 |x| + 1) := by
        exact_mod_cast Int.lt_zpow_succ_log_self (b := 2) one_lt_two |x|
      have hbound : |x / unit 53 x| ≤ ((2 ^ 53 : ℤ) : ℚ) := by
        rw [abs_div, abs_of_pos hunit, div_le_iff₀ hunit]
        refine hlog.le.trans (le_of_eq ?_)
        rw [unit, Int.cast_pow, Int.cast_ofNat, ← zpow_natCast, ← zpow_add₀ two_ne_zero]
        congr 1
        omega
      have hlower : -(2 ^ 53) ≤ nearestEven (x / unit 53 x) :=
        le_nearestEven (by rw [Int.cast_neg]; exact (abs_le.mp hbound).1)
      have hupper : nearestEven (x / unit 53 x) ≤ 2 ^ 53 := nearestEven_le (abs_le.mp hbound).2
      have hexp : -1022 ≤ Int.log 2 |x| := by
        rw [← Int.zpow_le_iff_le_log one_lt_two (abs_pos.mpr hzero)]
        exact_mod_cast not_lt.mp hsmall
      refine ⟨nearestEven (x / unit 53 x), Int.log 2 |x| + 1 - (53 : ℕ), ?_, ?_, ?_, hsize⟩
      · rw [abs_le]
        constructor <;> omega
      · push_cast
        omega
      · rw [← hr]
        rfl

/-- Rounding twice is rounding once. -/
lemma binary64_idem (h : binary64 x = some r) : binary64 r = some r :=
  (representable_of_binary64 h).binary64_eq

end SignificantBits

/-! ## Numbers -/

/-- A binary64 number. -/
inductive Double
  /-- A finite number, by its value. -/
  | finite (value : ℚ) (rounded : SignificantBits.binary64 value = some value)
  /-- An infinity. -/
  | infinite (negative : Bool)
  /-- The result of an invalid operation. -/
  | nan
  deriving DecidableEq

namespace Double

open SignificantBits

/-- The number that a rational is rounded to; an infinity on overflow. -/
def ofRat (x : ℚ) : Double :=
  if h : (binary64 x).isSome then
    finite ((binary64 x).get h) (binary64_idem (Option.some_get h).symm)
  else infinite (decide (x < 0))

/-- The number that an integer is rounded to. -/
def ofInt (n : ℤ) : Double := ofRat n

/-- The rational number that a finite number stands for. -/
def value : Double → Option ℚ
  | finite x _ => some x
  | infinite _ => none
  | nan => none

/-- `std::isfinite(x)`. -/
def isFinite (x : Double) : Bool := x.value.isSome

/-- `x > 0`. -/
def isPositive : Double → Bool
  | finite x _ => decide (0 < x)
  | infinite negative => !negative
  | nan => false

/-- `x == y`: equality of numbers; a NaN is equal to nothing. -/
def equal : Double → Double → Bool
  | finite x _, finite y _ => decide (x = y)
  | infinite negative, infinite negative' => negative == negative'
  | _, _ => false

/-- `x + y`. -/
def add : Double → Double → Double
  | finite x _, finite y _ => ofRat (x + y)
  | finite _ _, infinite negative => infinite negative
  | infinite negative, finite _ _ => infinite negative
  | infinite negative, infinite negative' =>
    if negative = negative' then infinite negative else nan
  | _, _ => nan

/-- `x * y`. -/
def mul : Double → Double → Double
  | finite x _, finite y _ => ofRat (x * y)
  | finite x _, infinite negative =>
    if x = 0 then nan else infinite (xor negative (decide (x < 0)))
  | infinite negative, finite y _ =>
    if y = 0 then nan else infinite (xor negative (decide (y < 0)))
  | infinite negative, infinite negative' => infinite (xor negative negative')
  | _, _ => nan

/-- `x / y` for `y` other than zero. -/
def div : Double → Double → Double
  | finite x _, finite y _ => if y = 0 then nan else ofRat (x / y)
  | finite _ _, infinite _ => ofRat 0
  | infinite negative, finite y _ =>
    if y = 0 then nan else infinite (xor negative (decide (y < 0)))
  | _, _ => nan

instance : Add Double := ⟨add⟩

instance : Mul Double := ⟨mul⟩

instance : Div Double := ⟨div⟩

/-- `std::frexp` of the magnitude of a number other than zero: a fraction that is at least one half
and below one, and the exponent of a power of two. -/
def frexp (x : ℚ) : ℚ × ℤ := (|x| / 2 ^ (Int.log 2 |x| + 1), Int.log 2 |x| + 1)

variable {a b : Double} {x y : ℚ}

/-- A number with a value is the finite number of it. -/
lemma eq_finite (h : a.value = some x) : ∃ rounded, a = .finite x rounded := by
  cases a with
  | finite x' rounded =>
    obtain rfl : x' = x := Option.some.inj h
    exact ⟨rounded, rfl⟩
  | infinite _ => cases h
  | nan => cases h

/-- A number is determined by its value. -/
lemma eq_of_value (ha : a.value = some x) (hb : b.value = some x) : a = b := by
  obtain ⟨_, rfl⟩ := eq_finite ha
  obtain ⟨_, rfl⟩ := eq_finite hb
  rfl

/-- The value of a finite number is representable. -/
lemma representable_of_value (h : a.value = some x) : Representable x := by
  obtain ⟨rounded, rfl⟩ := eq_finite h
  exact representable_of_binary64 rounded

/-- Equal numbers are the same. -/
lemma eq_of_equal (h : a.equal b = true) : a = b := by
  cases a with
  | finite x _ =>
    cases b with
    | finite y _ =>
      obtain rfl : x = y := of_decide_eq_true h
      rfl
    | infinite _ => cases h
    | nan => cases h
  | infinite _ =>
    cases b with
    | finite _ _ => cases h
    | infinite _ => rw [eq_of_beq h]
    | nan => cases h
  | nan => cases h

/-- A finite number equals itself. -/
lemma equal_self (h : a.value = some x) : a.equal a = true := by
  obtain ⟨_, rfl⟩ := eq_finite h
  exact decide_eq_true rfl

/-- A representable number is rounded to itself. -/
lemma value_ofRat (hx : Representable x) : (ofRat x).value = some x := by
  have hrounded := hx.binary64_eq
  have hsome : (binary64 x).isSome := by rw [hrounded]; rfl
  rw [ofRat, dif_pos hsome]
  exact (Option.some_get hsome).trans hrounded

/-- A sum that is representable is exact. -/
theorem value_add (ha : a.value = some x) (hb : b.value = some y) (h : Representable (x + y)) :
    (a + b).value = some (x + y) := by
  obtain ⟨_, rfl⟩ := eq_finite ha
  obtain ⟨_, rfl⟩ := eq_finite hb
  exact value_ofRat h

/-- A product that is representable is exact. -/
theorem value_mul (ha : a.value = some x) (hb : b.value = some y) (h : Representable (x * y)) :
    (a * b).value = some (x * y) := by
  obtain ⟨_, rfl⟩ := eq_finite ha
  obtain ⟨_, rfl⟩ := eq_finite hb
  exact value_ofRat h

/-- A quotient that is representable is exact. -/
theorem value_div (ha : a.value = some x) (hb : b.value = some y) (hy : y ≠ 0)
    (h : Representable (x / y)) : (a / b).value = some (x / y) := by
  obtain ⟨_, rfl⟩ := eq_finite ha
  obtain ⟨_, rfl⟩ := eq_finite hb
  show (if y = 0 then nan else ofRat (x / y)).value = _
  rw [if_neg hy]
  exact value_ofRat h

/-- A finite quotient by a finite number has a finite dividend. -/
lemma exists_value_of_div (h : (a / b).value = some x) (hb : b.value = some y) :
    ∃ z, a.value = some z := by
  cases b with
  | finite y' _ =>
    cases a with
    | finite z _ => exact ⟨z, rfl⟩
    | infinite negative =>
      change (if y' = 0 then nan else infinite (xor negative (decide (y' < 0)))).value = some x at h
      split_ifs at h <;> cases h
    | nan => cases h
  | infinite _ => cases hb
  | nan => cases hb

/-- Zero is representable. -/
lemma representable_zero : Representable 0 :=
  ⟨0, 0, by norm_num, by norm_num, by norm_num, by norm_num⟩

/-- One is representable. -/
lemma representable_one : Representable 1 :=
  ⟨1, 0, by norm_num, by norm_num, by norm_num, by simpa using one_lt_pow₀ one_lt_two (by decide)⟩

/-- The zero that a sum starts from adds nothing. -/
lemma zero_add_of_value (ha : a.value = some x) : ofRat 0 + a = a := by
  have hx := representable_of_value ha
  have h := value_add (value_ofRat representable_zero) ha (by rwa [zero_add])
  rw [zero_add] at h
  exact eq_of_value h ha

/-- The one that a product starts from changes nothing. -/
lemma one_mul_of_value (ha : a.value = some x) : ofRat 1 * a = a := by
  have hx := representable_of_value ha
  have h := value_mul (value_ofRat representable_one) ha (by rwa [one_mul])
  rw [one_mul] at h
  exact eq_of_value h ha

/-- A factor of one changes nothing. -/
lemma mul_one_of_value (ha : a.value = some x) : a * ofRat 1 = a := by
  have hx := representable_of_value ha
  have h := value_mul ha (value_ofRat representable_one) (by rwa [mul_one])
  rw [mul_one] at h
  exact eq_of_value h ha

/-- **The significant bits of a number are an integer**, and give the number back. -/
theorem exists_mantissa (hx : Representable x) (hne : x ≠ 0) :
    |x| = ⌊(frexp x).1 * 2 ^ 53⌋₊ * 2 ^ ((frexp x).2 - 53) := by
  obtain ⟨n, hn⟩ := hx.exists_mul_unit hne
  have hunit := unit_pos 53 x
  have hsplit : (2 : ℚ) ^ (Int.log 2 |x| + 1) = 2 ^ 53 * unit 53 x := by
    rw [unit, ← zpow_natCast, ← zpow_add₀ two_ne_zero]
    congr 1
    omega
  have hmantissa : (frexp x).1 * 2 ^ 53 = (n.natAbs : ℕ) := by
    have habs : |x| = (n.natAbs : ℚ) * unit 53 x := by
      conv_lhs => rw [hn]
      rw [abs_mul, abs_of_pos hunit, Nat.cast_natAbs, Int.cast_abs]
    rw [frexp, hsplit, habs]
    field_simp
  rw [hmantissa, Nat.floor_natCast]
  conv_lhs => rw [hn]
  rw [abs_mul, abs_of_pos hunit, Nat.cast_natAbs, Int.cast_abs]
  rfl

-- one sixth is rounded, and its product with one tenth is rounded again
example : (ofRat (1 / 6)).value = some (6004799503160661 / 36028797018963968) := by decide +kernel

example : (ofRat (1 / 6) * ofRat (1 / 10)).value ≠ some (1 / 60) := by decide +kernel

end Double
