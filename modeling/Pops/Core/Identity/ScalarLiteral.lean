import Pops.Foundation.PyException

/-!
# Exact scalar literals

A symbolic constant holds a lossless number of one of Python's exact domains: an integer, a
fraction, or a decimal with its own coefficient and exponent.  Numbers are combined without the
ambient decimal context: sums, differences and products of decimals are exact, and a quotient of
decimals is a decimal when its reduced denominator has no prime factors other than two and five.

Coefficients pass through the texts of integers on the way, which the interpreter limits in their
number of digits, and a decimal holds a limited range of exponents: an operation whose operands or
whose result are beyond these raises.

## Main definitions

* `Pops.Scalar.Decimal`, `Number`, `Literal` — numbers, and literals with their unit and target
  annotations.
* `Pops.Scalar.decimalParts`, `decimalFromParts` — a decimal taken apart and made.
* `Pops.Scalar.Fits` — a number can be held as a decimal with an exponent.
* `Pops.Scalar.exactDecimalAdd`, `exactDecimalNegate`, `exactDecimalMultiply`,
  `exactDecimalDivide` — the operations on decimals.
* `Pops.Scalar.Balanced` — the reduced denominator has as many factors two as factors five.

## Main results

* `Pops.Scalar.decimalFromParts_eq_ok_iff` — a decimal is made just when its number fits.
* `Pops.Scalar.value_exactDecimalAdd`, `value_exactDecimalMultiply` — the operations are exact.
* `Pops.Scalar.value_exactDecimalDivide` — the quotient has the powers of two and five of the
  denominator interchanged.
* `Pops.Scalar.exactDecimalDivide_eq_iff` — so it is exact just when these agree.
-/

namespace Pops

namespace Scalar

/-! ## Numbers -/

/-- `MAX_PREC`: the most digits of a decimal. -/
def maxPrec : ℕ := 999999999999999999

/-- `MAX_EMAX`: the largest exponent of the first digit of a decimal. -/
def maxEmax : ℤ := 999999999999999999

/-- `MIN_ETINY`: the least exponent of a decimal. -/
def minEtiny : ℤ := -1999999999999999997

/-- A decimal can hold a coefficient with an exponent. -/
def Representable (coefficient : ℕ) (exponent : ℤ) : Prop :=
  (Nat.toDigits 10 coefficient).length ≤ maxPrec ∧ minEtiny ≤ exponent ∧
    exponent + (Nat.toDigits 10 coefficient).length - 1 ≤ maxEmax

instance (coefficient : ℕ) (exponent : ℤ) : Decidable (Representable coefficient exponent) :=
  inferInstanceAs (Decidable (_ ∧ _ ∧ _))

/-- A finite `decimal.Decimal`: its sign, the number its digits spell, and its exponent.  The
decimal string of a literal's payload spells these three. -/
structure Decimal where
  sign : Bool
  coefficient : ℕ
  exponent : ℤ
  representable : Representable coefficient exponent := by decide
  deriving DecidableEq, Repr

/-- The number a decimal stands for. -/
def Decimal.value (d : Decimal) : ℚ :=
  (if d.sign then -(d.coefficient : ℚ) else d.coefficient) * 10 ^ d.exponent

/-- An exact Python number. -/
inductive Number
  | int (v : ℤ)
  | fraction (v : ℚ)
  | decimal (v : Decimal)
  deriving DecidableEq, Repr

/-- The value of a number; Python's `==` compares numbers of different domains by it. -/
def Number.value : Number → ℚ
  | .int v => v
  | .fraction v => v
  | .decimal v => v.value

/-- `isinstance(value, Decimal)`. -/
def Number.isDecimal : Number → Bool
  | .decimal _ => true
  | _ => false

/-- The name of a number's Python class. -/
def Number.typeName : Number → String
  | .int _ => "int"
  | .fraction _ => "Fraction"
  | .decimal _ => "Decimal"

/-- An exact numeric scalar literal with its annotations. -/
structure Literal where
  number : Number
  unit : Option String
  target : Option String
  deriving DecidableEq, Repr

/-- `ScalarLiteral.from_value(value)` of an integer. -/
def Literal.ofInt (v : ℤ) : Literal := ⟨.int v, none, none⟩

/-- Exact algebra combines numbers of one domain, and integers with any domain. -/
def numericDomainsCompatible : Number → Number → Bool
  | .fraction _, .decimal _ => false
  | .decimal _, .fraction _ => false
  | _, _ => true

/-! ## Decimal arithmetic -/

/-- `Decimal((sign, digits, exponent))`: an exponent that is no C integer, and a number that a
decimal cannot hold as it is, are refused. -/
def decimalOfTuple (sign : Bool) (coefficient : ℕ) (exponent : ℤ) : Raises Decimal :=
  if exponent < -2 ^ 63 ∨ 2 ^ 63 ≤ exponent then
    .error ⟨.overflowError, "Python int too large to convert to C ssize_t"⟩
  else if h : Representable coefficient exponent then .ok ⟨sign, coefficient, exponent, h⟩
  else .error ⟨.invalidOperation, "[<class 'decimal.InvalidOperation'>]"⟩

/-- The coefficient and the exponent of a decimal or an integer; the coefficient of a decimal is
read back from its digits. -/
def decimalParts [Interpreter] : Number → Raises (ℤ × ℤ)
  | .int v => .ok (v, 0)
  | .decimal v => do
    let coefficient ← intOfDigits (Nat.toDigits 10 v.coefficient)
    return (if v.sign then -(coefficient : ℤ) else coefficient, v.exponent)
  | .fraction _ =>
    .error (typeError "exact Decimal algebra accepts only finite Decimal and int operands")

/-- The digits of a coefficient: `str(abs(coefficient))`, and one zero for zero. -/
def coefficientDigits [Interpreter] (coefficient : ℤ) : Raises (List Char) :=
  if coefficient = 0 then .ok ['0'] else strDigits coefficient.natAbs

/-- The decimal of a coefficient and an exponent, made from the digits of the coefficient. -/
def decimalFromParts [Interpreter] (coefficient exponent : ℤ) : Raises Decimal := do
  let digits ← coefficientDigits coefficient
  decimalOfTuple (decide (coefficient < 0)) (Nat.ofDigitChars 10 digits 0) exponent

/-- Context-independent exact decimal addition. -/
def exactDecimalAdd [Interpreter] (left right : Number) : Raises Decimal := do
  let (leftCoeff, leftExp) ← decimalParts left
  let (rightCoeff, rightExp) ← decimalParts right
  let exponent := min leftExp rightExp
  let coefficient := leftCoeff * 10 ^ (leftExp - exponent).toNat +
    rightCoeff * 10 ^ (rightExp - exponent).toNat
  decimalFromParts coefficient exponent

/-- The negation of a decimal flips its sign, also that of a zero. -/
def exactDecimalNegate (v : Decimal) : Decimal := { v with sign := !v.sign }

/-- Context-independent exact decimal multiplication. -/
def exactDecimalMultiply [Interpreter] (left right : Number) : Raises Decimal := do
  let (leftCoeff, leftExp) ← decimalParts left
  let (rightCoeff, rightExp) ← decimalParts right
  decimalFromParts (leftCoeff * rightCoeff) (leftExp + rightExp)

/-- The loop `while denominator % p == 0: denominator //= p; powers += 1`, at most as many times as
the fuel says: the number of rounds and what is left. -/
def stripFactor (p : ℕ) : ℕ → ℕ → ℕ × ℕ
  | 0, n => (0, n)
  | fuel + 1, n =>
    if n % p = 0 then ((stripFactor p fuel (n / p)).1 + 1, (stripFactor p fuel (n / p)).2)
    else (0, n)

/-- `powers_two` of a denominator. -/
def powersTwo (denominator : ℕ) : ℕ := (stripFactor 2 denominator denominator).1

/-- The denominator without its factors two. -/
def oddPart (denominator : ℕ) : ℕ := (stripFactor 2 denominator denominator).2

/-- `powers_five` of a denominator, counted once the factors two are gone. -/
def powersFive (denominator : ℕ) : ℕ :=
  (stripFactor 5 (oddPart denominator) (oddPart denominator)).1

/-- The denominator without its factors two and five. -/
def remainingPart (denominator : ℕ) : ℕ :=
  (stripFactor 5 (oddPart denominator) (oddPart denominator)).2

/-- The terminating decimal quotient, or `none` when the quotient does not terminate. -/
def exactDecimalDivide [Interpreter] (left right : Number) : Raises (Option Decimal) := do
  raiseIf (right.value = 0) (zeroDivisionError "division by zero")
  let quotient := left.value / right.value
  let powersTwo := powersTwo quotient.den
  let powersFive := powersFive quotient.den
  if remainingPart quotient.den ≠ 1 then
    return none
  let scale := max powersTwo powersFive
  let coefficient := quotient.num * 5 ^ (scale - powersTwo) * 2 ^ (scale - powersFive)
  return some (← decimalFromParts coefficient (-scale))

/-! ## Decimals from their parts -/

/-- A number can be held as a decimal with an exponent: its digits are within the interpreter's
limit and the precision, and its magnitude and the exponent are within the range of exponents. -/
structure Fits [Interpreter] (x : ℚ) (exponent : ℤ) : Prop where
  limit : Interpreter.maxStrDigits ≠ 0 → |x| < 10 ^ (Interpreter.maxStrDigits + exponent)
  precision : |x| < 10 ^ (maxPrec + exponent)
  tiny : minEtiny ≤ exponent
  huge : exponent ≤ maxEmax
  magnitude : |x| < 10 ^ (maxEmax + 1)

/-- The coefficient of a number with few digits, and the number. -/
private lemma natAbs_lt_pow_iff (coefficient exponent : ℤ) (k : ℕ) :
    coefficient.natAbs < 10 ^ k ↔ |(coefficient : ℚ) * 10 ^ exponent| < 10 ^ (k + exponent) := by
  have hpos : (0 : ℚ) < 10 ^ exponent := by positivity
  rw [abs_mul, abs_of_pos hpos, zpow_add₀ (by norm_num), zpow_natCast, mul_lt_mul_iff_left₀ hpos]
  rw [← Int.cast_abs, Int.abs_eq_natAbs, Int.cast_natCast]
  exact_mod_cast Iff.rfl

/-- A decimal can hold a coefficient just when the precision and the range of exponents allow
its number. -/
lemma representable_iff {coefficient exponent : ℤ} :
    Representable coefficient.natAbs exponent ↔
      |(coefficient : ℚ) * 10 ^ exponent| < 10 ^ (maxPrec + exponent) ∧ minEtiny ≤ exponent ∧
        exponent ≤ maxEmax ∧ |(coefficient : ℚ) * 10 ^ exponent| < 10 ^ (maxEmax + 1) := by
  have hpos := Nat.length_toDigits_pos (b := 10) (n := coefficient.natAbs)
  unfold Representable
  rw [Nat.length_toDigits_le_iff (by decide) (by decide), natAbs_lt_pow_iff coefficient exponent]
  refine and_congr_right fun _ => and_congr_right fun _ => ?_
  by_cases hhuge : exponent ≤ maxEmax
  · -- the first digit is at most at the largest exponent
    obtain ⟨k, hk⟩ : ∃ k : ℕ, maxEmax + 1 = (k + 1 : ℕ) + exponent :=
      ⟨(maxEmax - exponent).toNat, by omega⟩
    rw [hk, ← natAbs_lt_pow_iff, ← Nat.length_toDigits_le_iff (by decide) (by omega)]
    constructor
    · exact fun h => ⟨hhuge, by omega⟩
    · exact fun h => by omega
  · exact ⟨fun h => absurd (by omega) hhuge, fun h => absurd h.1 hhuge⟩

/-- A decimal is made of the parts that it can hold. -/
lemma decimalOfTuple_eq_ok_iff {sign : Bool} {coefficient : ℕ} {exponent : ℤ} {d : Decimal} :
    decimalOfTuple sign coefficient exponent = .ok d ↔ Representable coefficient exponent ∧
      d.sign = sign ∧ d.coefficient = coefficient ∧ d.exponent = exponent := by
  have hpos := Nat.length_toDigits_pos (b := 10) (n := coefficient)
  unfold decimalOfTuple
  split_ifs with hrange hheld
  · refine ⟨fun h => h.elim, ?_⟩
    rintro ⟨⟨-, htiny, hhuge⟩, -⟩
    unfold minEtiny at htiny
    unfold maxEmax at hhuge
    omega
  · cases d
    simp [hheld, eq_comm]
  · exact ⟨fun h => (by cases h), fun h => absurd h.1 hheld⟩

/-- The digits of a coefficient within the limit. -/
lemma coefficientDigits_eq_ok_iff [Interpreter] {coefficient : ℤ} {digits : List Char} :
    coefficientDigits coefficient = .ok digits ↔
      WithinLimit coefficient.natAbs ∧ digits = Nat.toDigits 10 coefficient.natAbs := by
  unfold coefficientDigits
  split_ifs with hzero
  · subst hzero
    simp [withinLimit_zero, eq_comm]
  · exact strDigits_eq_ok_iff

/-- **A decimal is made of its parts just when their number fits**, and then it has these parts. -/
theorem decimalFromParts_eq_ok_iff [Interpreter] {coefficient exponent : ℤ} {d : Decimal} :
    decimalFromParts coefficient exponent = .ok d ↔ Fits (coefficient * 10 ^ exponent) exponent ∧
      d.sign = decide (coefficient < 0) ∧ d.coefficient = coefficient.natAbs ∧
        d.exponent = exponent := by
  simp only [decimalFromParts, bind_eq_ok, coefficientDigits_eq_ok_iff, and_assoc,
    exists_and_left, exists_eq_left, Nat.ofDigitChars_ten_toDigits]
  rw [decimalOfTuple_eq_ok_iff, representable_iff, ← and_assoc]
  refine and_congr_left fun _ => ?_
  unfold WithinLimit
  rw [natAbs_lt_pow_iff coefficient exponent]
  constructor
  · rintro ⟨hlimit, hprecision, htiny, hhuge, hmagnitude⟩
    exact ⟨hlimit, hprecision, htiny, hhuge, hmagnitude⟩
  · rintro ⟨hlimit, hprecision, htiny, hhuge, hmagnitude⟩
    exact ⟨hlimit, hprecision, htiny, hhuge, hmagnitude⟩

/-- The value of a decimal made from its parts. -/
lemma value_decimalFromParts [Interpreter] {coefficient exponent : ℤ} {d : Decimal}
    (h : decimalFromParts coefficient exponent = .ok d) :
    d.value = coefficient * 10 ^ exponent := by
  obtain ⟨-, hsign, hcoefficient, hexponent⟩ := decimalFromParts_eq_ok_iff.mp h
  rw [Decimal.value, hsign, hcoefficient, hexponent]
  rcases lt_or_ge coefficient 0 with h | h
  · simp [h, Nat.cast_natAbs, abs_of_neg h]
  · simp [not_lt.mpr h, Nat.cast_natAbs, abs_of_nonneg h]

/-- A decimal made from its parts fits. -/
lemma fits_of_decimalFromParts [Interpreter] {coefficient exponent : ℤ} {d : Decimal}
    (h : decimalFromParts coefficient exponent = .ok d) : Fits d.value exponent := by
  rw [value_decimalFromParts h]
  exact (decimalFromParts_eq_ok_iff.mp h).1

/-- Zero fits. -/
lemma fits_zero [Interpreter] : Fits 0 0 where
  limit _ := by
    rw [abs_zero]
    positivity
  precision := by
    rw [abs_zero]
    positivity
  tiny := by decide
  huge := by decide
  magnitude := by
    rw [abs_zero]
    positivity

/-- A decimal is made just when the number of the parts fits. -/
lemma exists_decimalFromParts_iff [Interpreter] {coefficient exponent : ℤ} :
    (∃ d, decimalFromParts coefficient exponent = .ok d) ↔
      Fits (coefficient * 10 ^ exponent) exponent := by
  constructor
  · rintro ⟨d, h⟩
    exact (decimalFromParts_eq_ok_iff.mp h).1
  · intro h
    have hheld : Representable coefficient.natAbs exponent :=
      representable_iff.mpr ⟨h.precision, h.tiny, h.huge, h.magnitude⟩
    exact ⟨⟨decide (coefficient < 0), coefficient.natAbs, exponent, hheld⟩,
      decimalFromParts_eq_ok_iff.mpr ⟨h, rfl, rfl, rfl⟩⟩

/-! ## The operations are exact -/

/-- The parts of a number spell its value. -/
lemma value_of_decimalParts [Interpreter] {x : Number} {coefficient exponent : ℤ}
    (h : decimalParts x = .ok (coefficient, exponent)) :
    x.value = coefficient * 10 ^ exponent := by
  cases x with
  | int v =>
    simp only [decimalParts, Except.ok.injEq, Prod.mk.injEq] at h
    obtain ⟨rfl, rfl⟩ := h
    simp [Number.value]
  | fraction v => simp [decimalParts] at h
  | decimal v =>
    simp only [decimalParts, bind_eq_ok, intOfDigits_eq_ok_iff, pure_eq_ok, Prod.mk.injEq] at h
    obtain ⟨_, ⟨-, rfl⟩, rfl, rfl⟩ := h
    unfold Number.value Decimal.value
    cases hsign : v.sign <;> simp [hsign]

/-- A power of ten with a larger exponent, brought to a smaller one. -/
private lemma ten_zpow_toNat {e exponent : ℤ} (h : exponent ≤ e) :
    (10 : ℚ) ^ e = 10 ^ (e - exponent).toNat * 10 ^ exponent := by
  have hsum : e = ((e - exponent).toNat : ℤ) + exponent := by omega
  conv_lhs => rw [hsum]
  rw [zpow_add₀ (by norm_num), zpow_natCast]

/-- Two summands brought to the smaller exponent. -/
lemma scaled_sum (leftCoeff rightCoeff leftExp rightExp : ℤ) :
    ((leftCoeff * 10 ^ (leftExp - min leftExp rightExp).toNat +
      rightCoeff * 10 ^ (rightExp - min leftExp rightExp).toNat : ℤ) : ℚ) *
        10 ^ min leftExp rightExp = leftCoeff * 10 ^ leftExp + rightCoeff * 10 ^ rightExp := by
  rw [ten_zpow_toNat (min_le_left leftExp rightExp), ten_zpow_toNat (min_le_right leftExp rightExp)]
  push_cast
  ring

/-- The product of two numbers with exponents. -/
lemma scaled_product (leftCoeff rightCoeff leftExp rightExp : ℤ) :
    ((leftCoeff * rightCoeff : ℤ) : ℚ) * 10 ^ (leftExp + rightExp) =
      leftCoeff * 10 ^ leftExp * (rightCoeff * 10 ^ rightExp) := by
  rw [zpow_add₀ (by norm_num)]
  push_cast
  ring

/-- Decimal addition is exact. -/
theorem value_exactDecimalAdd [Interpreter] {left right : Number} {d : Decimal}
    (h : exactDecimalAdd left right = .ok d) : d.value = left.value + right.value := by
  simp only [exactDecimalAdd, bind_eq_ok, Prod.exists] at h
  obtain ⟨leftCoeff, leftExp, hl, rightCoeff, rightExp, hr, h⟩ := h
  rw [value_decimalFromParts h, value_of_decimalParts hl, value_of_decimalParts hr]
  exact scaled_sum leftCoeff rightCoeff leftExp rightExp

/-- Decimal negation is exact. -/
@[simp] lemma value_exactDecimalNegate (v : Decimal) :
    (exactDecimalNegate v).value = -v.value := by
  unfold exactDecimalNegate Decimal.value
  cases v.sign <;> simp

/-- Decimal multiplication is exact. -/
theorem value_exactDecimalMultiply [Interpreter] {left right : Number} {d : Decimal}
    (h : exactDecimalMultiply left right = .ok d) : d.value = left.value * right.value := by
  simp only [exactDecimalMultiply, bind_eq_ok, Prod.exists] at h
  obtain ⟨leftCoeff, leftExp, hl, rightCoeff, rightExp, hr, h⟩ := h
  rw [value_decimalFromParts h, value_of_decimalParts hl, value_of_decimalParts hr]
  exact scaled_product leftCoeff rightCoeff leftExp rightExp

/-! ## Terminating quotients -/

/-- The counted factors and what is left multiply to the whole. -/
lemma stripFactor_mul {p : ℕ} (fuel n : ℕ) :
    p ^ (stripFactor p fuel n).1 * (stripFactor p fuel n).2 = n := by
  induction fuel generalizing n with
  | zero => simp [stripFactor]
  | succ fuel ih =>
    unfold stripFactor
    split_ifs with h
    · have hn : p * (n / p) = n := Nat.mul_div_cancel' (Nat.dvd_of_mod_eq_zero h)
      rw [pow_succ', mul_assoc, ih (n / p), hn]
    · simp

/-- The denominator in terms of its counted factors. -/
lemma den_eq_powers {n : ℕ} (h : remainingPart n = 1) :
    n = 2 ^ powersTwo n * 5 ^ powersFive n := by
  have htwo : 2 ^ powersTwo n * oddPart n = n := stripFactor_mul n n
  have hfive : 5 ^ powersFive n * remainingPart n = oddPart n :=
    stripFactor_mul (oddPart n) (oddPart n)
  rw [h, mul_one] at hfive
  rw [hfive, htwo]

/-- The reduced denominator of a quotient has as many factors two as factors five. -/
def Balanced (quotient : ℚ) : Prop := powersTwo quotient.den = powersFive quotient.den

instance (quotient : ℚ) : Decidable (Balanced quotient) := by
  unfold Balanced
  infer_instance

/-- The coefficient of a quotient, scaled by its power of ten: the powers of two and five have
changed places. -/
lemma scaled_coefficient (num : ℤ) (i j : ℕ) :
    ((num * 5 ^ (max i j - i) * 2 ^ (max i j - j) : ℤ) : ℚ) * 10 ^ (-(max i j : ℤ)) =
      num / (2 ^ j * 5 ^ i) := by
  have hten : (10 : ℚ) ^ (-(max i j : ℤ)) = ((2 ^ max i j * 5 ^ max i j : ℕ) : ℚ)⁻¹ := by
    rw [zpow_neg, ← Nat.cast_max, zpow_natCast, ← mul_pow]
    norm_num
  have htwo : (2 : ℚ) ^ max i j = 2 ^ (max i j - j) * 2 ^ j := by
    rw [← pow_add]
    congr 1
    omega
  have hfive : (5 : ℚ) ^ max i j = 5 ^ (max i j - i) * 5 ^ i := by
    rw [← pow_add]
    congr 1
    omega
  rw [hten]
  push_cast
  rw [htwo, hfive]
  field_simp

/-- **The quotient of decimals.**  A returned quotient is the numerator over the denominator with
the powers of two and five interchanged. -/
theorem value_exactDecimalDivide [Interpreter] {left right : Number} {d : Decimal}
    (h : exactDecimalDivide left right = .ok (some d)) :
    right.value ≠ 0 ∧ remainingPart (left.value / right.value).den = 1 ∧
      Fits d.value (-(max (powersTwo (left.value / right.value).den)
        (powersFive (left.value / right.value).den) : ℕ)) ∧
      d.value = (left.value / right.value).num /
        (2 ^ powersFive (left.value / right.value).den *
          5 ^ powersTwo (left.value / right.value).den) := by
  simp only [exactDecimalDivide, bind_eq_ok, raiseIf_eq_ok] at h
  obtain ⟨-, hright, h⟩ := h
  by_cases hrest : remainingPart (left.value / right.value).den = 1
  · rw [if_neg (not_not.mpr hrest)] at h
    simp only [bind_eq_ok, pure_eq_ok, Option.some.injEq, exists_eq_right] at h
    refine ⟨hright, hrest, fits_of_decimalFromParts h, ?_⟩
    rw [value_decimalFromParts h]
    have hscaled := scaled_coefficient (left.value / right.value).num
      (powersTwo (left.value / right.value).den) (powersFive (left.value / right.value).den)
    rw [← hscaled]
    push_cast
    rfl
  · rw [if_pos hrest] at h
    simp at h

/-- The powers of two and five of a number that has no other factors are determined by it. -/
private lemma powers_swap {i j : ℕ} (h : 2 ^ i * 5 ^ j = 2 ^ j * 5 ^ i) : i = j := by
  rcases lt_trichotomy i j with hlt | heq | hlt
  · exfalso
    have hdvd : 5 ^ j ∣ 2 ^ j * 5 ^ i := h ▸ Dvd.intro_left _ rfl
    have hcop : Nat.Coprime (5 ^ j) (2 ^ j) := Nat.Coprime.pow _ _ (by decide)
    exact absurd ((Nat.pow_dvd_pow_iff_le_right (by decide)).mp (hcop.dvd_of_dvd_mul_left hdvd))
      (by omega)
  · exact heq
  · exfalso
    have hdvd : 5 ^ i ∣ 2 ^ i * 5 ^ j := h ▸ Dvd.intro_left _ rfl
    have hcop : Nat.Coprime (5 ^ i) (2 ^ i) := Nat.Coprime.pow _ _ (by decide)
    exact absurd ((Nat.pow_dvd_pow_iff_le_right (by decide)).mp (hcop.dvd_of_dvd_mul_left hdvd))
      (by omega)

/-- **The quotient of decimals is exact just when it is balanced.** -/
theorem exactDecimalDivide_eq_iff [Interpreter] {left right : Number} {d : Decimal}
    (h : exactDecimalDivide left right = .ok (some d)) :
    d.value = left.value / right.value ↔ Balanced (left.value / right.value) := by
  obtain ⟨-, hrest, -, hval⟩ := value_exactDecimalDivide h
  set quotient := left.value / right.value with hq
  have hden := den_eq_powers hrest
  have hqden : quotient = quotient.num /
      (2 ^ powersTwo quotient.den * 5 ^ powersFive quotient.den) := by
    conv_lhs => rw [← Rat.num_div_den quotient, hden]
    push_cast
    rfl
  unfold Balanced
  constructor
  · intro heq
    by_cases hnum : quotient.num = 0
    · -- a zero quotient has denominator one
      have hone : quotient.den = 1 := by
        rw [Rat.num_eq_zero.mp hnum]
        rfl
      rw [hone]
      decide
    · have hnum' : (quotient.num : ℚ) ≠ 0 := Int.cast_ne_zero.mpr hnum
      have hquot := (hval.symm.trans heq).trans hqden
      rw [div_eq_mul_inv, div_eq_mul_inv] at hquot
      have hswap := inv_injective (mul_left_cancel₀ hnum' hquot)
      exact powers_swap (by exact_mod_cast hswap.symm)
  · intro hbal
    rw [hval, hbal]
    conv_rhs => rw [hqden, hbal]

end Scalar

end Pops
