import Pops.Amr.Levels.WideInt

/-!
# Exact clock rationals

`pops::amr::Rational`: the positions of the AMR scheduler inside a macro step.  Values are
fractions of two `std::int64_t` in lowest terms with a positive denominator.  Every operation
cancels common factors before it multiplies, and throws `std::overflow_error` when an intermediate
leaves its range; the order is decided by continued fractions without any product.

## Main definitions

* `Pops.Rational`, `Rational.create` — a fraction and its normalizing constructor.
* `Pops.Rational.add`, `mul`, `div`, `less` — the operators.
* `Pops.Rational.Exact` — an operation returns the canonical representation of a rational number
  whenever it has one, and reports an overflow otherwise.

## Main results

* `Pops.Rational.create_exact` — the constructor.
* `Pops.rational_exact_iff` — the operators are exact but for one kind of division.
-/

namespace Pops

/-- A fraction of two `std::int64_t`. -/
@[ext] structure Rational where
  numerator : ℤ
  denominator : ℤ
  deriving DecidableEq

namespace Rational

/-! ## Magnitudes -/

/-- The absolute value, computed without negating the smallest integer. -/
def magnitude (value : ℤ) : ℕ := if value < 0 then (-(value + 1)).toNat + 1 else value.toNat

/-- The error of every operation whose result leaves the range. -/
def arithmeticOverflow : Exception := overflowError "AMR clock rational arithmetic overflow"

/-- The largest magnitude of a negative integer. -/
def negativeLimit : ℕ := 9223372036854775808

/-- The largest magnitude of an integer with the given sign. -/
def limit (negative : Bool) : ℕ := if negative then negativeLimit else int64Max.toNat

/-- The integer with the given magnitude and sign. -/
def signedMagnitude (magnitude : ℕ) (negative : Bool) : Throws ℤ := do
  throwIf (magnitude > limit negative) arithmeticOverflow
  if negative ∧ magnitude = negativeLimit then pure int64Min
  else pure (if negative then -(magnitude : ℤ) else magnitude)

/-- Division by a divisor of the magnitude. -/
def divideExact (value : ℤ) (divisor : ℕ) : Throws ℤ :=
  signedMagnitude (magnitude value / divisor) (value < 0)

/-- The product, checked against the limit of its sign. -/
def checkedMul (a b : ℤ) : Throws ℤ :=
  if a = 0 ∨ b = 0 then pure 0
  else do
    let negative := decide (a < 0) != decide (b < 0)
    let left := magnitude a
    let right := magnitude b
    throwIf (left > limit negative / right) arithmeticOverflow
    signedMagnitude (wrap (left * right)) negative

/-- The constructor: cancel the common factor and move the sign to the numerator. -/
def create (n d : ℤ) : Throws Rational := do
  throwIf (d = 0) (invalidArgument "AMR clock rational denominator must be non-zero")
  let negative := decide (n < 0) != decide (d < 0)
  let g := Nat.gcd (magnitude n) (magnitude d)
  let numeratorMagnitude := magnitude n / g
  let denominatorMagnitude := magnitude d / g
  throwIf (denominatorMagnitude > int64Max.toNat)
    (overflowError "AMR clock rational exceeds the exact int64 range")
  let numerator ← signedMagnitude numeratorMagnitude
    (negative && decide (numeratorMagnitude ≠ 0))
  pure ⟨numerator, denominatorMagnitude⟩

/-! ## Operators -/

/-- A magnitude of 128 bits with a sign. -/
structure Signed128 where
  magnitude : UInt128
  negative : Bool

/-- The sum of two signed magnitudes. -/
def combine (left right : UInt128) (leftNegative rightNegative : Bool) : Signed128 :=
  if leftNegative = rightNegative then ⟨left.add right, leftNegative⟩
  else if left.less right then ⟨right.subtract left, rightNegative⟩
  else
    let difference := left.subtract right
    ⟨difference, decide (difference.high ≠ 0 ∨ difference.low ≠ 0) && leftNegative⟩

/-- The sum or difference of two products. -/
def addProducts (a : ℤ) (aFactor : ℕ) (b : ℤ) (bFactor : ℕ) (subtractB : Bool) : Signed128 :=
  combine (UInt128.multiplyWide (magnitude a) aFactor) (UInt128.multiplyWide (magnitude b) bFactor)
    (decide (a < 0)) (decide (b < 0) != subtractB)

/-- The sum, or the difference when `subtract` is set. -/
def addOrSubtract (a b : Rational) (subtract : Bool) : Throws Rational := do
  let common := Nat.gcd a.denominator.toNat b.denominator.toNat
  let numerator := addProducts a.numerator (b.denominator.toNat / common) b.numerator
    (a.denominator.toNat / common) subtract
  let reduction := Nat.gcd (numerator.magnitude.remainder common) common
  let reduced := numerator.magnitude.divide reduction
  throwIf (reduced.high ≠ 0) arithmeticOverflow
  let n ← signedMagnitude reduced.low numerator.negative
  let d ← checkedMul (a.denominator.toNat / reduction : ℕ) (b.denominator.toNat / common : ℕ)
  create n d

/-- `a + b`. -/
def add (a b : Rational) : Throws Rational := addOrSubtract a b false

/-- `a - b`. -/
def sub (a b : Rational) : Throws Rational := addOrSubtract a b true

/-- `a * b`: the product, with the common factors taken out crosswise before it is formed. -/
def mul (a b : Rational) : Throws Rational := do
  let ga := Nat.gcd (magnitude a.numerator) b.denominator.toNat
  let gb := Nat.gcd (magnitude b.numerator) a.denominator.toNat
  let left ← divideExact a.numerator ga
  let right ← divideExact b.numerator gb
  let n ← checkedMul left right
  let d ← checkedMul (a.denominator.toNat / gb : ℕ) (b.denominator.toNat / ga : ℕ)
  create n d

/-- `a / b`: the product with the reciprocal; a zero divisor is refused. -/
def div (a b : Rational) : Throws Rational := do
  throwIf (b.numerator = 0) (invalidArgument "AMR clock rational division by zero")
  let gn := Nat.gcd (magnitude a.numerator) (magnitude b.numerator)
  let gd := Nat.gcd a.denominator.toNat b.denominator.toNat
  let an ← divideExact a.numerator gn
  let bd ← divideExact b.denominator gd
  let n ← checkedMul an bd
  let ad ← divideExact a.denominator gd
  let bn ← divideExact b.numerator gn
  let d ← checkedMul ad bn
  create n d

/-- The continued-fraction comparison `an / ad < bn / bd`; `none` is a division by zero. -/
def positiveLess (an ad bn bd : ℕ) (reversed : Bool) : Option Bool :=
  if _had : ad = 0 ∨ bd = 0 then none
  else
    let aq := an / ad
    let bq := bn / bd
    if aq ≠ bq then some (if reversed then aq > bq else aq < bq)
    else
      let ar := an % ad
      let br := bn % bd
      if ar = 0 ∨ br = 0 then
        if ar = br then some false else some (if reversed then br = 0 else ar = 0)
      else positiveLess ad ar bd br (!reversed)
termination_by ad
decreasing_by exact Nat.mod_lt _ (Nat.pos_of_ne_zero fun h => ‹¬ (ad = 0 ∨ bd = 0)› (.inl h))

/-- `a < b`: the signs decide first, then the integral parts, then the reciprocals of the
remainders. -/
def less (a b : Rational) : Option Bool :=
  if a.numerator < 0 ∧ b.numerator ≥ 0 then some true
  else if a.numerator ≥ 0 ∧ b.numerator < 0 then some false
  else if a.numerator < 0 then
    positiveLess (magnitude b.numerator) b.denominator.toNat (magnitude a.numerator)
      a.denominator.toNat false
  else
    positiveLess (magnitude a.numerator) a.denominator.toNat (magnitude b.numerator)
      b.denominator.toNat false

/-! ## Specification -/

/-- A value in canonical form. -/
structure Canonical (r : Rational) : Prop where
  numerator_isInt64 : IsInt64 r.numerator
  denominator_pos : 0 < r.denominator
  denominator_le : r.denominator ≤ int64Max
  coprime : IsCoprime r.numerator r.denominator

/-- The rational number of a fraction. -/
def toRat (r : Rational) : ℚ := r.numerator / r.denominator

/-- The canonical form of a rational number. -/
def ofRat (q : ℚ) : Rational := ⟨q.num, q.den⟩

/-- The canonical form fits the fields. -/
def Representable (q : ℚ) : Prop := IsInt64 q.num ∧ (q.den : ℤ) ≤ int64Max

/-- The computation returns the canonical form of `q` when it fits, and reports an overflow when
it does not. -/
def Exact (x : Throws Rational) (q : ℚ) : Prop :=
  (Representable q → x = .ok (ofRat q)) ∧
    (¬ Representable q → ∃ what, x = .error (overflowError what))

/-- The integer with the given magnitude and sign. -/
def signed (m : ℕ) (negative : Bool) : ℤ := if negative then -(m : ℤ) else m

/-- An integer that must fit. -/
def checked (z : ℤ) : Throws ℤ := if IsInt64 z then .ok z else .error arithmeticOverflow

/-- Two integers that must fit, as a fraction. -/
def fraction (n d : ℤ) : Throws Rational := do
  let n ← checked n
  let d ← checked d
  create n d

/-! ## Magnitudes and products -/

/-- The magnitude is the absolute value. -/
@[simp] lemma magnitude_eq (v : ℤ) : magnitude v = v.natAbs := by
  unfold magnitude
  split_ifs <;> omega

/-- An integer is the signed magnitude of itself. -/
lemma signed_natAbs (v : ℤ) : signed v.natAbs (v < 0) = v := by
  unfold signed
  by_cases h : v < 0
  · simp only [h, decide_true, if_true]
    omega
  · simp only [h, decide_false, if_neg Bool.false_ne_true]
    omega

/-- A signed magnitude fits exactly when it respects the limit of its sign. -/
lemma signed_isInt64_iff {m : ℕ} {negative : Bool} :
    IsInt64 (signed m negative) ↔ m ≤ limit negative := by
  cases negative
  · simp only [signed, limit, negativeLimit, IsInt64, int64Min, int64Max,
      Bool.false_eq_true, if_false]
    omega
  · simp only [signed, limit, negativeLimit, IsInt64, int64Min, int64Max, if_true]
    omega

/-- A signed magnitude is returned exactly when it fits. -/
lemma signedMagnitude_eq (m : ℕ) (negative : Bool) :
    signedMagnitude m negative = checked (signed m negative) := by
  unfold checked
  by_cases h : m ≤ limit negative
  · rw [if_pos (signed_isInt64_iff.mpr h)]
    rw [signedMagnitude, throwIf_neg (not_lt.mpr h), ok_bind]
    by_cases hmin : negative = true ∧ m = negativeLimit
    · rw [if_pos hmin, hmin.1, hmin.2]
      rfl
    · rw [if_neg hmin]
      rfl
  · rw [if_neg (mt signed_isInt64_iff.mp h)]
    have hthrow : throwIf (m > limit negative) arithmeticOverflow = .error arithmeticOverflow :=
      if_pos (not_le.mp h)
    rw [signedMagnitude]
    exact congrArg (· >>= fun _ => _) hthrow

/-- A product is returned exactly when it fits. -/
lemma checkedMul_eq (a b : ℤ) :
    checkedMul a b = checked (a * b) := by
  unfold checkedMul
  by_cases hzero : a = 0 ∨ b = 0
  · rw [if_pos hzero]
    have hprod : a * b = 0 := mul_eq_zero.mpr hzero
    rw [hprod]
    rfl
  · rw [if_neg hzero]
    simp only [not_or] at hzero
    set negative := decide (a < 0) != decide (b < 0) with hnegative
    have hsigned : a * b = signed (a.natAbs * b.natAbs) negative := by
      have hsign : a * b = if negative then -((a.natAbs : ℤ) * b.natAbs)
          else (a.natAbs : ℤ) * b.natAbs := by
        rw [hnegative]
        by_cases h1 : a < 0 <;> by_cases h2 : b < 0
        · simp only [h1, h2, decide_true, bne_self_eq_false, Bool.false_eq_true, if_false]
          rw [show (a.natAbs : ℤ) = -a by omega, show (b.natAbs : ℤ) = -b by omega]
          ring
        · simp only [h1, h2, decide_true, decide_false, Bool.bne_false, if_true]
          rw [show (a.natAbs : ℤ) = -a by omega, show (b.natAbs : ℤ) = b by omega]
          ring
        · simp only [h1, h2, decide_true, decide_false, Bool.bne_true, Bool.not_false, if_true]
          rw [show (a.natAbs : ℤ) = a by omega, show (b.natAbs : ℤ) = -b by omega]
          ring
        · simp only [h1, h2, decide_false, bne_self_eq_false, Bool.false_eq_true, if_false]
          rw [show (a.natAbs : ℤ) = a by omega, show (b.natAbs : ℤ) = b by omega]
      rw [hsign, signed]
      push_cast
      rfl
    have hpos : 0 < b.natAbs := by omega
    have hbound : a.natAbs > limit negative / b.natAbs ↔ ¬ IsInt64 (a * b) := by
      rw [hsigned, signed_isInt64_iff, gt_iff_lt, ← not_le, Nat.le_div_iff_mul_le hpos]
    have hlimit : limit negative < radix := by
      unfold limit radix int64Max negativeLimit
      split_ifs <;> omega
    simp only [magnitude_eq]
    by_cases hfit : IsInt64 (a * b)
    · have hnot : ¬ a.natAbs > limit negative / b.natAbs :=
        fun h => hbound.mp h hfit
      have hwrap : wrap (a.natAbs * b.natAbs) = a.natAbs * b.natAbs := by
        rw [hsigned, signed_isInt64_iff] at hfit
        exact Nat.mod_eq_of_lt (by omega)
      rw [throwIf_neg hnot, ok_bind, signedMagnitude_eq, hwrap, ← hsigned]
    · have hthrow : throwIf (a.natAbs > limit negative / b.natAbs) arithmeticOverflow =
          .error arithmeticOverflow := if_pos (hbound.mpr hfit)
      rw [checked, if_neg hfit]
      exact congrArg (· >>= fun _ => _) hthrow

/-- Dividing by a divisor of the magnitude is exact. -/
lemma divideExact_eq {v : ℤ} {g : ℕ} (hv : IsInt64 v) (hg : (g : ℤ) ∣ v) (hpos : 0 < g) :
    divideExact v g = .ok (v / g) := by
  have hdiv : v / g = signed (v.natAbs / g) (v < 0) := by
    obtain ⟨k, rfl⟩ := hg
    have hg0 : (g : ℤ) ≠ 0 := by omega
    rw [Int.mul_ediv_cancel_left _ hg0, Int.natAbs_mul, Int.natAbs_natCast,
      Nat.mul_div_cancel_left _ hpos]
    have hsign : (g : ℤ) * k < 0 ↔ k < 0 := by
      constructor
      · intro h
        exact neg_of_mul_neg_right h (by omega)
      · intro h
        exact mul_neg_of_pos_of_neg (by omega) h
    simp only [hsign]
    exact (signed_natAbs k).symm
  have hfit : IsInt64 (v / g) := by
    have hle := Nat.div_le_self v.natAbs g
    rw [hdiv, signed_isInt64_iff]
    refine hle.trans ?_
    rw [← signed_isInt64_iff, signed_natAbs]
    exact hv
  rw [divideExact, magnitude_eq, signedMagnitude_eq, ← hdiv, checked, if_pos hfit]

/-! ## Lowest terms -/

/-- A fraction in lowest terms is the numerator and the denominator of its value. -/
lemma num_den_of_coprime {N D : ℤ} (hD : 0 < D) (h : IsCoprime N D) :
    ((N : ℚ) / D).num = N ∧ (((N : ℚ) / D).den : ℤ) = D := by
  have hcop : Nat.Coprime N.natAbs D.natAbs := Int.isCoprime_iff_gcd_eq_one.mp h
  exact ⟨Rat.num_div_eq_of_coprime hD hcop, Rat.den_div_eq_of_coprime hD hcop⟩

/-- The signed quotient of two integers after cancelling a common factor of the magnitudes. -/
lemma signed_cross {n d : ℤ} {nm dm g : ℕ} (hn : n.natAbs = nm * g) (hd : d.natAbs = dm * g) :
    n * dm = signed nm (decide (n < 0) != decide (d < 0)) * d := by
  have hcases : ∀ z : ℤ, z = if z < 0 then -(z.natAbs : ℤ) else z.natAbs := by
    intro z
    split_ifs <;> omega
  have hn' := hcases n
  have hd' := hcases d
  rw [hn] at hn'
  rw [hd] at hd'
  unfold signed
  by_cases h1 : n < 0 <;> by_cases h2 : d < 0
  · simp only [h1, h2, decide_true, bne_self_eq_false, Bool.false_eq_true, if_false, if_true] at *
    rw [hn', hd']
    push_cast
    ring
  · simp only [h1, h2, decide_true, decide_false, Bool.bne_false, if_true, if_false] at *
    rw [hn', hd']
    push_cast
    ring
  · simp only [h1, h2, decide_true, decide_false, Bool.bne_true, Bool.not_false, if_true,
      if_false] at *
    rw [hn', hd']
    push_cast
    ring
  · simp only [h1, h2, decide_false, bne_self_eq_false, Bool.false_eq_true, if_false] at *
    rw [hn', hd']
    push_cast
    ring

/-- **The constructor is exact**: it returns the canonical form of the quotient when it fits. -/
theorem create_exact (n : ℤ) {d : ℤ} (hd : d ≠ 0) : Exact (create n d) ((n : ℚ) / d) := by
  set g := Nat.gcd n.natAbs d.natAbs with hg
  have hgpos : 0 < g := Nat.gcd_pos_of_pos_right _ (by omega)
  set nm := n.natAbs / g with hnm
  set dm := d.natAbs / g with hdm
  have hn : n.natAbs = nm * g := (Nat.div_mul_cancel (Nat.gcd_dvd_left _ _)).symm
  have hdn : d.natAbs = dm * g := (Nat.div_mul_cancel (Nat.gcd_dvd_right _ _)).symm
  have hdmpos : 0 < dm := Nat.div_pos (Nat.le_of_dvd (by omega) (Nat.gcd_dvd_right _ _)) hgpos
  set negative := (decide (n < 0) != decide (d < 0)) && decide (nm ≠ 0) with hneg
  have hsigned : signed nm negative = signed nm (decide (n < 0) != decide (d < 0)) := by
    by_cases hzero : nm = 0
    · simp [signed, hzero]
    · simp [hneg, hzero]
  have hcop : IsCoprime (signed nm negative) (dm : ℤ) := by
    have hnat : Nat.Coprime nm dm := Nat.coprime_div_gcd_div_gcd hgpos
    have hint := Nat.isCoprime_iff_coprime.mpr hnat
    unfold signed
    split_ifs
    · exact hint.neg_left
    · exact hint
  have hvalue : (n : ℚ) / d = (signed nm negative : ℤ) / (dm : ℤ) := by
    have hcross := signed_cross hn hdn
    rw [← hsigned] at hcross
    have hd0 : (d : ℚ) ≠ 0 := by exact_mod_cast hd
    have hdm0 : ((dm : ℤ) : ℚ) ≠ 0 := by
      have : (dm : ℤ) ≠ 0 := by omega
      exact_mod_cast this
    rw [div_eq_div_iff hd0 hdm0]
    exact_mod_cast hcross
  obtain ⟨hnum, hden⟩ := num_den_of_coprime (by omega : (0 : ℤ) < dm) hcop
  unfold Exact Representable ofRat
  rw [hvalue, hnum, hden]
  simp only [create, magnitude_eq, ← hg, ← hnm, ← hdm, ← hneg, signedMagnitude_eq,
    throwIf_neg hd, ok_bind]
  by_cases hden_le : dm ≤ int64Max.toNat
  · rw [throwIf_neg (not_lt.mpr hden_le), ok_bind, checked]
    by_cases hfit : IsInt64 (signed nm negative)
    · rw [if_pos hfit, ok_bind]
      exact ⟨fun _ => rfl, fun hnot => absurd ⟨hfit, by omega⟩ hnot⟩
    · rw [if_neg hfit]
      exact ⟨fun h => absurd h.1 hfit, fun _ => ⟨_, rfl⟩⟩
  · have hthrow : throwIf (dm > int64Max.toNat)
        (overflowError "AMR clock rational exceeds the exact int64 range") =
        .error (overflowError "AMR clock rational exceeds the exact int64 range") :=
      if_pos (not_le.mp hden_le)
    rw [hthrow]
    exact ⟨fun h => absurd h.2 (by omega), fun _ => ⟨_, rfl⟩⟩

/-- **Coprime integers as a checked fraction** are exact, unless the denominator is negative and
the numerator is the one integer that only fits with the opposite sign. -/
theorem fraction_exact_iff {N D : ℤ} (hD : D ≠ 0) (hcop : IsCoprime N D) :
    Exact (fraction N D) ((N : ℚ) / D) ↔
      ¬ (D < 0 ∧ N = 9223372036854775808 ∧ -D ≤ int64Max) := by
  -- the canonical form has the sign of the denominator moved to the numerator
  have hform : ∃ s : ℤ, (s = 1 ∧ 0 < D ∨ s = -1 ∧ D < 0) ∧ ((N : ℚ) / D).num = s * N ∧
      (((N : ℚ) / D).den : ℤ) = s * D := by
    rcases lt_or_gt_of_ne hD with hneg | hpos
    · have hval : (N : ℚ) / D = ((-N : ℤ) : ℚ) / ((-D : ℤ) : ℚ) := by
        push_cast
        rw [neg_div_neg_eq]
      obtain ⟨h1, h2⟩ := num_den_of_coprime (by omega : 0 < -D) hcop.neg_neg
      rw [hval, h1, h2]
      exact ⟨-1, .inr ⟨rfl, hneg⟩, by ring, by ring⟩
    · obtain ⟨h1, h2⟩ := num_den_of_coprime hpos hcop
      exact ⟨1, .inl ⟨rfl, hpos⟩, by rw [h1]; ring, by rw [h2]; ring⟩
  obtain ⟨s, hs, hnum, hden⟩ := hform
  have hrep : Representable ((N : ℚ) / D) ↔ IsInt64 (s * N) ∧ s * D ≤ int64Max := by
    rw [Representable, hnum, hden]
  by_cases hfitN : IsInt64 N
  · have hN : N ≠ 9223372036854775808 := by
      have := hfitN.2
      unfold int64Max at this
      omega
    refine iff_of_true ?_ fun h => hN h.2.1
    by_cases hfitD : IsInt64 D
    · have hfraction : fraction N D = create N D := by
        rw [fraction, checked, if_pos hfitN, ok_bind, checked, if_pos hfitD, ok_bind]
      rw [hfraction]
      exact create_exact N hD
    · have hfraction : fraction N D = .error arithmeticOverflow := by
        rw [fraction, checked, if_pos hfitN, ok_bind, checked, if_neg hfitD]
        rfl
      have hnot : ¬ Representable ((N : ℚ) / D) := by
        rw [hrep]
        intro h
        refine hfitD ?_
        have h2 := h.2
        unfold IsInt64 int64Min int64Max at *
        rcases hs with ⟨rfl, _⟩ | ⟨rfl, _⟩ <;> omega
      rw [hfraction]
      exact ⟨fun h => absurd h hnot, fun _ => ⟨_, rfl⟩⟩
  · have hfraction : fraction N D = .error arithmeticOverflow := by
      rw [fraction, checked, if_neg hfitN]
      rfl
    have hrep' : Representable ((N : ℚ) / D) ↔
        D < 0 ∧ N = 9223372036854775808 ∧ -D ≤ int64Max := by
      rw [hrep]
      unfold IsInt64 int64Min int64Max at *
      rcases hs with ⟨rfl, _⟩ | ⟨rfl, _⟩ <;> omega
    rw [hfraction, ← hrep']
    refine ⟨fun h hr => ?_, fun h => ⟨fun hr => absurd hr h, fun _ => ⟨_, rfl⟩⟩⟩
    have := h.1 hr
    simp at this

/-! ## The operators as checked fractions -/

/-- Cancelling the greatest common divisor leaves coprime integers. -/
lemma coprime_div {x y : ℤ} (h : 0 < Int.gcd x y) :
    IsCoprime (x / Int.gcd x y) (y / Int.gcd x y) :=
  Int.isCoprime_iff_gcd_eq_one.mpr (Int.gcd_div_gcd_div_gcd h)

/-- Exact quotients of coprime integers are coprime. -/
lemma coprime_of_quotients {x y g h : ℤ} (hxy : IsCoprime x y) (hg : g ∣ x) (hh : h ∣ y) :
    IsCoprime (x / g) (y / h) :=
  (hxy.of_isCoprime_of_dvd_left (Int.ediv_dvd_of_dvd hg)).of_isCoprime_of_dvd_right
    (Int.ediv_dvd_of_dvd hh)

/-- The quotient of a positive integer by a natural number is positive. -/
lemma quotient_pos {x y : ℤ} {g : ℕ} (hx : 0 < x) (h : x = g * y) : 0 < y := by
  rw [h] at hx
  exact pos_of_mul_pos_right hx (Int.natCast_nonneg g)

section Operators

variable {a b : Rational} (ha : a.Canonical) (hb : b.Canonical)

include ha in
/-- The denominator as an unsigned integer. -/
lemma toNat_denominator : a.denominator.toNat = a.denominator.natAbs := by
  have := ha.denominator_pos
  omega

include ha in
/-- The denominator is an `std::int64_t`. -/
lemma denominator_isInt64 : IsInt64 a.denominator := by
  have h1 := ha.denominator_pos
  refine ⟨?_, ha.denominator_le⟩
  unfold int64Min
  omega

include ha in
/-- The quotient of the denominator by a divisor, computed on unsigned integers. -/
lemma natAbs_denominator_div (g : ℕ) :
    ((a.denominator.natAbs / g : ℕ) : ℤ) = a.denominator / g := by
  have := ha.denominator_pos
  rw [Int.natCast_div]
  congr 1
  omega

include ha hb in
/-- The product is a checked fraction of cross-cancelled parts. -/
lemma mul_eq : mul a b = fraction
    (a.numerator / Int.gcd a.numerator b.denominator *
      (b.numerator / Int.gcd b.numerator a.denominator))
    (a.denominator / Int.gcd b.numerator a.denominator *
      (b.denominator / Int.gcd a.numerator b.denominator)) := by
  have hga : 0 < Int.gcd a.numerator b.denominator :=
    Int.gcd_pos_of_ne_zero_right _ hb.denominator_pos.ne'
  have hgb : 0 < Int.gcd b.numerator a.denominator :=
    Int.gcd_pos_of_ne_zero_right _ ha.denominator_pos.ne'
  rw [mul, magnitude_eq, magnitude_eq, toNat_denominator ha, toNat_denominator hb]
  show (divideExact a.numerator (Int.gcd a.numerator b.denominator) >>= fun left =>
    divideExact b.numerator (Int.gcd b.numerator a.denominator) >>= fun right => _) = _
  rw [divideExact_eq ha.numerator_isInt64 (Int.gcd_dvd_left ..) hga,
    divideExact_eq hb.numerator_isInt64 (Int.gcd_dvd_left ..) hgb, ok_bind, ok_bind,
    checkedMul_eq, checkedMul_eq]
  have h1 := natAbs_denominator_div ha (Int.gcd b.numerator a.denominator)
  have h2 := natAbs_denominator_div hb (Int.gcd a.numerator b.denominator)
  unfold Int.gcd at h1 h2
  rw [h1, h2]
  rfl

include ha hb in
/-- The quotient is a checked fraction of cancelled parts, with the sign of the divisor in the
denominator. -/
lemma div_eq (hne : b.numerator ≠ 0) : div a b = fraction
    (a.numerator / Int.gcd a.numerator b.numerator *
      (b.denominator / Int.gcd a.denominator b.denominator))
    (a.denominator / Int.gcd a.denominator b.denominator *
      (b.numerator / Int.gcd a.numerator b.numerator)) := by
  have hgn : 0 < Int.gcd a.numerator b.numerator := Int.gcd_pos_of_ne_zero_right _ hne
  have hgd : 0 < Int.gcd a.denominator b.denominator :=
    Int.gcd_pos_of_ne_zero_right _ hb.denominator_pos.ne'
  have h1 := divideExact_eq ha.numerator_isInt64 (Int.gcd_dvd_left a.numerator b.numerator) hgn
  have h2 := divideExact_eq (denominator_isInt64 hb)
    (Int.gcd_dvd_right a.denominator b.denominator) hgd
  have h3 := divideExact_eq (denominator_isInt64 ha)
    (Int.gcd_dvd_left a.denominator b.denominator) hgd
  have h4 := divideExact_eq hb.numerator_isInt64 (Int.gcd_dvd_right a.numerator b.numerator) hgn
  unfold Int.gcd at h1 h2 h3 h4 ⊢
  rw [div, throwIf_neg hne, ok_bind, magnitude_eq, magnitude_eq, toNat_denominator ha,
    toNat_denominator hb]
  simp only [h1, h2, h3, h4, ok_bind, checkedMul_eq]
  rfl

/-- A factor of the magnitude is a factor of the signed value. -/
lemma signed_mul (m f : ℕ) (negative : Bool) :
    signed (m * f) negative = signed m negative * f := by
  unfold signed
  split_ifs <;> push_cast <;> ring

/-- Changing the sign. -/
lemma signed_bne (m : ℕ) (negative flip : Bool) :
    signed m (negative != flip) = (if flip then -1 else 1) * signed m negative := by
  unfold signed
  cases negative <;> cases flip <;> simp

/-- **The sum of two signed magnitudes is exact.** -/
theorem combine_spec {left right : UInt128} (hl : left.Valid) (hr : right.Valid)
    (hfit : left.value + right.value < radix * radix) (ln rn : Bool) :
    (combine left right ln rn).magnitude.Valid ∧
      signed (combine left right ln rn).magnitude.value (combine left right ln rn).negative =
        signed left.value ln + signed right.value rn := by
  unfold combine
  by_cases hsame : ln = rn
  · subst hsame
    obtain ⟨hvalid, hvalue⟩ := UInt128.add_spec hl hr hfit
    rw [if_pos rfl]
    refine ⟨hvalid, ?_⟩
    simp only [hvalue, signed]
    split_ifs <;> push_cast <;> ring
  · rw [if_neg hsame]
    -- the signs differ, so the larger magnitude decides
    have hdiffer : rn = !ln := by cases ln <;> cases rn <;> simp_all
    subst hdiffer
    by_cases hless : left.less right = true
    · have hlt := (UInt128.less_iff hl hr).mp hless
      obtain ⟨hvalid, hvalue⟩ := UInt128.subtract_spec hr hl hlt.le
      rw [if_pos hless]
      refine ⟨hvalid, ?_⟩
      simp only [hvalue, signed]
      cases ln <;> simp only [Bool.not_true, Bool.not_false, Bool.false_eq_true, if_false,
        if_true] <;>
        omega
    · have hle : right.value ≤ left.value := not_lt.mp fun h =>
        hless ((UInt128.less_iff hl hr).mpr h)
      obtain ⟨hvalid, hvalue⟩ := UInt128.subtract_spec hl hr hle
      rw [if_neg hless]
      refine ⟨hvalid, ?_⟩
      have hzero : ((left.subtract right).high ≠ 0 ∨ (left.subtract right).low ≠ 0) ↔
          left.value - right.value ≠ 0 := by
        have hradix := radix_pos
        rw [← hvalue, UInt128.value, ne_eq, ne_eq, ne_eq, Nat.add_eq_zero_iff, Nat.mul_eq_zero]
        omega
      simp only [hvalue, hzero, signed]
      by_cases hdiff : left.value - right.value = 0
      · cases ln <;> simp [hdiff] <;> omega
      · cases ln <;> simp [hdiff] <;> omega

/-- **The sum of two products is exact.** -/
theorem addProducts_spec {x y : ℤ} {xf yf : ℕ} (hx : IsInt64 x) (hy : IsInt64 y)
    (hxf : xf ≤ int64Max.toNat) (hyf : yf ≤ int64Max.toNat) (subtract : Bool) :
    (addProducts x xf y yf subtract).magnitude.Valid ∧
      signed (addProducts x xf y yf subtract).magnitude.value
        (addProducts x xf y yf subtract).negative =
          x * xf + (if subtract then -1 else 1) * (y * yf) := by
  have hmax : int64Max.toNat = 9223372036854775807 := rfl
  have hradix : radix = 18446744073709551616 := by unfold radix; rfl
  have hbound : ∀ {z : ℤ}, IsInt64 z → z.natAbs ≤ 9223372036854775808 := by
    intro z hz
    unfold IsInt64 int64Min int64Max at hz
    omega
  have hxb := hbound hx
  have hyb := hbound hy
  obtain ⟨hlv, hl⟩ := UInt128.multiplyWide_spec (show x.natAbs < radix by omega)
    (show xf < radix by omega)
  obtain ⟨hrv, hr⟩ := UInt128.multiplyWide_spec (show y.natAbs < radix by omega)
    (show yf < radix by omega)
  have hl' : x.natAbs * xf ≤ 9223372036854775808 * 9223372036854775807 :=
    Nat.mul_le_mul hxb (hmax ▸ hxf)
  have hr' : y.natAbs * yf ≤ 9223372036854775808 * 9223372036854775807 :=
    Nat.mul_le_mul hyb (hmax ▸ hyf)
  rw [addProducts, magnitude_eq, magnitude_eq]
  obtain ⟨hvalid, hvalue⟩ := combine_spec hlv hrv (by rw [hl, hr, hradix]; omega) (x < 0)
    (decide (y < 0) != subtract)
  refine ⟨hvalid, ?_⟩
  rw [hvalue, hl, hr, signed_mul, signed_natAbs, signed_bne, signed_mul, signed_natAbs]

include ha hb in
/-- The sum or difference is a checked fraction over the reduced common denominator. -/
lemma addOrSubtract_eq (subtract : Bool) {s : ℤ}
    (hs : s = a.numerator * (b.denominator / Int.gcd a.denominator b.denominator) +
      (if subtract then -1 else 1) *
        (b.numerator * (a.denominator / Int.gcd a.denominator b.denominator))) :
    addOrSubtract a b subtract = fraction
      (s / Int.gcd s (Int.gcd a.denominator b.denominator))
      (a.denominator / Int.gcd s (Int.gcd a.denominator b.denominator) *
        (b.denominator / Int.gcd a.denominator b.denominator)) := by
  set g := Int.gcd a.denominator b.denominator with hg
  have hgpos : 0 < g := Int.gcd_pos_of_ne_zero_right _ hb.denominator_pos.ne'
  have hgle : (g : ℤ) ≤ int64Max :=
    (Int.le_of_dvd ha.denominator_pos (Int.gcd_dvd_left ..)).trans ha.denominator_le
  have hfactor : ∀ {r : Rational}, r.Canonical → r.denominator.natAbs / g ≤ int64Max.toNat := by
    intro r hr
    have h1 := hr.denominator_le
    have h2 := hr.denominator_pos
    exact (Nat.div_le_self _ _).trans (by omega)
  obtain ⟨hvalid, hvalue⟩ := addProducts_spec ha.numerator_isInt64 hb.numerator_isInt64
    (hfactor hb) (hfactor ha) subtract
  rw [natAbs_denominator_div hb, natAbs_denominator_div ha, ← hs] at hvalue
  set p := addProducts a.numerator (b.denominator.natAbs / g) b.numerator
    (a.denominator.natAbs / g) subtract with hp
  have habs : s.natAbs = p.magnitude.value := by
    rw [← hvalue, signed]
    split_ifs <;> omega
  have hmax : (g : ℤ) ≤ 9223372036854775807 := hgle
  have hreduction : Nat.gcd (p.magnitude.remainder g) g = Int.gcd s g := by
    rw [UInt128.remainder_eq hvalid hgpos (by omega), ← Nat.gcd_rec, Nat.gcd_comm, ← habs]
    rfl
  set r := Int.gcd s g with hr
  have hrpos : 0 < r := Int.gcd_pos_of_ne_zero_right _ (by omega)
  have hrle : r ≤ g := Nat.le_of_dvd hgpos (Int.natCast_dvd_natCast.mp (Int.gcd_dvd_right ..))
  obtain ⟨hdvalid, hdvalue⟩ := UInt128.divide_spec hvalid hrpos (by omega)
  have hquotient : signed (p.magnitude.value / r) p.negative = s / r := by
    have hdvd : (r : ℤ) ∣ s := Int.gcd_dvd_left ..
    have hmul : s = signed (p.magnitude.value / r) p.negative * r := by
      rw [← signed_mul, Nat.div_mul_cancel, hvalue]
      rw [← habs]
      exact Int.natCast_dvd.mp hdvd
    rw [hmul, Int.mul_ediv_cancel _ (by omega)]
  have hnumerator : (throwIf ((p.magnitude.divide r).high ≠ 0) arithmeticOverflow >>= fun _ =>
      signedMagnitude (p.magnitude.divide r).low p.negative) = checked (s / r) := by
    by_cases hhigh : (p.magnitude.divide r).high = 0
    · have hlow : (p.magnitude.divide r).low = p.magnitude.value / r := by
        rw [← hdvalue, UInt128.value, hhigh, Nat.zero_mul, Nat.zero_add]
      rw [throwIf_neg (not_not.mpr hhigh), ok_bind, signedMagnitude_eq, hlow, hquotient]
    · have hthrow : throwIf ((p.magnitude.divide r).high ≠ 0) arithmeticOverflow =
          .error arithmeticOverflow := if_pos hhigh
      have hbig : ¬ IsInt64 (s / r) := by
        have hge : radix ≤ p.magnitude.value / r := by
          rw [← hdvalue, UInt128.value]
          exact (Nat.le_mul_of_pos_left _ (Nat.pos_of_ne_zero hhigh)).trans (Nat.le_add_right _ _)
        rw [← hquotient, signed_isInt64_iff]
        unfold radix at hge
        unfold limit negativeLimit int64Max
        split_ifs <;> omega
      rw [hthrow, checked, if_neg hbig]
      rfl
  rw [addOrSubtract, toNat_denominator ha, toNat_denominator hb]
  show (throwIf ((p.magnitude.divide (Nat.gcd (p.magnitude.remainder g) g)).high ≠ 0)
    arithmeticOverflow >>= fun _ => signedMagnitude
      (p.magnitude.divide (Nat.gcd (p.magnitude.remainder g) g)).low p.negative >>= fun n =>
        checkedMul (a.denominator.natAbs / Nat.gcd (p.magnitude.remainder g) g : ℕ)
          (b.denominator.natAbs / g : ℕ) >>= fun d => create n d) = _
  rw [← bind_assoc, hreduction, hnumerator, checkedMul_eq, natAbs_denominator_div ha,
    natAbs_denominator_div hb]
  rfl

/-! ## Exactness -/

include ha hb in
/-- **Products are exact.** -/
theorem mul_exact : Exact (mul a b) (a.toRat * b.toRat) := by
  set ga := Int.gcd a.numerator b.denominator with hga
  set gb := Int.gcd b.numerator a.denominator with hgb
  have hga0 : 0 < ga := Int.gcd_pos_of_ne_zero_right _ hb.denominator_pos.ne'
  have hgb0 : 0 < gb := Int.gcd_pos_of_ne_zero_right _ ha.denominator_pos.ne'
  obtain ⟨n1, hn1⟩ : (ga : ℤ) ∣ a.numerator := Int.gcd_dvd_left ..
  obtain ⟨d2, hd2⟩ : (ga : ℤ) ∣ b.denominator := Int.gcd_dvd_right ..
  obtain ⟨n2, hn2⟩ : (gb : ℤ) ∣ b.numerator := Int.gcd_dvd_left ..
  obtain ⟨d1, hd1⟩ : (gb : ℤ) ∣ a.denominator := Int.gcd_dvd_right ..
  have hga' : (ga : ℤ) ≠ 0 := by omega
  have hgb' : (gb : ℤ) ≠ 0 := by omega
  have q1 : a.numerator / ga = n1 := by rw [hn1, Int.mul_ediv_cancel_left _ hga']
  have q2 : b.denominator / ga = d2 := by rw [hd2, Int.mul_ediv_cancel_left _ hga']
  have q3 : b.numerator / gb = n2 := by rw [hn2, Int.mul_ediv_cancel_left _ hgb']
  have q4 : a.denominator / gb = d1 := by rw [hd1, Int.mul_ediv_cancel_left _ hgb']
  have hd1pos : 0 < d1 := quotient_pos ha.denominator_pos hd1
  have hd2pos : 0 < d2 := quotient_pos hb.denominator_pos hd2
  have c12 : IsCoprime n1 d2 := q1 ▸ q2 ▸ coprime_div hga0
  have c21 : IsCoprime n2 d1 := q3 ▸ q4 ▸ coprime_div hgb0
  have c11 : IsCoprime n1 d1 :=
    q1 ▸ q4 ▸ coprime_of_quotients ha.coprime (Int.gcd_dvd_left ..) (Int.gcd_dvd_right ..)
  have c22 : IsCoprime n2 d2 :=
    q3 ▸ q2 ▸ coprime_of_quotients hb.coprime (Int.gcd_dvd_left ..) (Int.gcd_dvd_right ..)
  have hcop : IsCoprime (n1 * n2) (d1 * d2) :=
    (c11.mul_right c12).mul_left (c21.mul_right c22)
  have hvalue : a.toRat * b.toRat = ((n1 * n2 : ℤ) : ℚ) / ((d1 * d2 : ℤ) : ℚ) := by
    have h1 : (d1 : ℚ) ≠ 0 := by exact_mod_cast hd1pos.ne'
    have h2 : (d2 : ℚ) ≠ 0 := by exact_mod_cast hd2pos.ne'
    have h3 : (ga : ℚ) ≠ 0 := by exact_mod_cast hga0.ne'
    have h4 : (gb : ℚ) ≠ 0 := by exact_mod_cast hgb0.ne'
    rw [toRat, toRat, hn1, hd1, hn2, hd2]
    push_cast
    field_simp
  rw [mul_eq ha hb, q1, q2, q3, q4, hvalue]
  have hpos : 0 < d1 * d2 := mul_pos hd1pos hd2pos
  exact (fraction_exact_iff hpos.ne' hcop).mpr fun h => absurd h.1 (by omega)

include ha hb in
/-- **Sums and differences are exact.**

**Proof sketch.** Over the least common denominator, a factor that the new numerator shares with
the denominator divides the common part of the two denominators, and that factor is cancelled
before the denominators are multiplied. -/
theorem addOrSubtract_exact (subtract : Bool) : Exact (addOrSubtract a b subtract)
    (a.toRat + (if subtract then -1 else 1) * b.toRat) := by
  set g := Int.gcd a.denominator b.denominator with hg
  have hg0 : 0 < g := Int.gcd_pos_of_ne_zero_right _ hb.denominator_pos.ne'
  obtain ⟨d1, hd1⟩ : (g : ℤ) ∣ a.denominator := Int.gcd_dvd_left ..
  obtain ⟨d2, hd2⟩ : (g : ℤ) ∣ b.denominator := Int.gcd_dvd_right ..
  have hg' : (g : ℤ) ≠ 0 := by omega
  have q1 : a.denominator / g = d1 := by rw [hd1, Int.mul_ediv_cancel_left _ hg']
  have q2 : b.denominator / g = d2 := by rw [hd2, Int.mul_ediv_cancel_left _ hg']
  have hd1pos : 0 < d1 := quotient_pos ha.denominator_pos hd1
  have hd2pos : 0 < d2 := quotient_pos hb.denominator_pos hd2
  obtain ⟨e, he, hunit⟩ : ∃ e : ℤ, (if subtract then (-1 : ℤ) else 1) = e ∧ e * e = 1 := by
    cases subtract
    · exact ⟨1, rfl, rfl⟩
    · exact ⟨-1, rfl, rfl⟩
  have heq : (if subtract then (-1 : ℚ) else 1) = (e : ℚ) := by
    cases subtract
    · rw [← he]; norm_num
    · rw [← he]; norm_num
  set s := a.numerator * d2 + e * (b.numerator * d1) with hs
  set r := Int.gcd s g with hr
  have hr0 : 0 < r := Int.gcd_pos_of_ne_zero_right _ hg'
  obtain ⟨n, hn⟩ : (r : ℤ) ∣ s := Int.gcd_dvd_left ..
  obtain ⟨g1, hg1⟩ : (r : ℤ) ∣ g := Int.gcd_dvd_right ..
  have hr' : (r : ℤ) ≠ 0 := by omega
  have hg1pos : 0 < g1 := quotient_pos (by omega) hg1
  have q3 : s / r = n := by rw [hn, Int.mul_ediv_cancel_left _ hr']
  have q4 : a.denominator / r = g1 * d1 := by
    rw [hd1, hg1, mul_assoc, Int.mul_ediv_cancel_left _ hr']
  -- the numerator shares no factor with the two reduced denominators
  have hd12 : IsCoprime d1 d2 := q1 ▸ q2 ▸ coprime_div hg0
  have hn1 : IsCoprime a.numerator d1 :=
    ha.coprime.of_isCoprime_of_dvd_right (hd1 ▸ Dvd.intro_left _ rfl)
  have hn2 : IsCoprime b.numerator d2 :=
    hb.coprime.of_isCoprime_of_dvd_right (hd2 ▸ Dvd.intro_left _ rfl)
  have hs1 : IsCoprime s d1 := by
    rw [hs, show e * (b.numerator * d1) = d1 * (e * b.numerator) by ring]
    exact (hn1.mul_left hd12.symm).add_mul_left_left _
  have hs2 : IsCoprime s d2 := by
    rw [hs, show a.numerator * d2 + e * (b.numerator * d1) =
      e * (b.numerator * d1) + d2 * a.numerator by ring]
    have hcoe : IsCoprime e d2 := ⟨e, 0, by rw [hunit]; ring⟩
    exact (hcoe.mul_left (hn2.mul_left hd12)).add_mul_left_left _
  have hns : n ∣ s := hn ▸ Dvd.intro_left _ rfl
  have c1 : IsCoprime n d1 := hs1.of_isCoprime_of_dvd_left hns
  have c2 : IsCoprime n d2 := hs2.of_isCoprime_of_dvd_left hns
  have cg : IsCoprime n g1 := by
    have hdiv := coprime_div hr0
    have q5 : (g : ℤ) / r = g1 := by rw [hg1, Int.mul_ediv_cancel_left _ hr']
    rwa [← hr, q3, q5] at hdiv
  have hcop : IsCoprime n (g1 * d1 * d2) := (cg.mul_right c1).mul_right c2
  have hvalue : a.toRat + (if subtract then (-1 : ℚ) else 1) * b.toRat =
      (n : ℚ) / ((g1 * d1 * d2 : ℤ) : ℚ) := by
    have h1 : (d1 : ℚ) ≠ 0 := by exact_mod_cast hd1pos.ne'
    have h2 : (d2 : ℚ) ≠ 0 := by exact_mod_cast hd2pos.ne'
    have h3 : (g1 : ℚ) ≠ 0 := by exact_mod_cast hg1pos.ne'
    have h4 : (r : ℚ) ≠ 0 := by exact_mod_cast hr0.ne'
    have hsum : (a.numerator : ℚ) * d2 + e * (b.numerator * d1) = r * n := by
      exact_mod_cast hn
    have hgq : ((g : ℤ) : ℚ) = r * g1 := by exact_mod_cast hg1
    rw [heq, toRat, toRat, hd1, hd2]
    push_cast [hgq]
    field_simp
    linear_combination hsum
  rw [addOrSubtract_eq ha hb subtract (s := s) (by rw [q1, q2, he]), ← hr, q2, q3, q4, hvalue]
  have hpos : 0 < g1 * d1 * d2 := mul_pos (mul_pos hg1pos hd1pos) hd2pos
  exact (fraction_exact_iff hpos.ne' hcop).mpr fun h => absurd h.1 (by omega)

/-- The inputs on which a representable quotient is lost: the dividend is positive and the exact
quotient has the smallest `std::int64_t` as its numerator. -/
def LosesQuotient (a b : Rational) : Prop :=
  0 < a.numerator ∧ (a.toRat / b.toRat).num = int64Min ∧ ((a.toRat / b.toRat).den : ℤ) ≤ int64Max

include ha hb in
/-- **Quotients are exact** but for one kind of inputs: the numerator is bounded with the sign of
the dividend before the sign of the divisor is moved to it. -/
theorem div_exact_iff (hne : b.numerator ≠ 0) :
    Exact (div a b) (a.toRat / b.toRat) ↔ ¬ LosesQuotient a b := by
  set gn := Int.gcd a.numerator b.numerator with hgn
  set gd := Int.gcd a.denominator b.denominator with hgd
  have hgn0 : 0 < gn := Int.gcd_pos_of_ne_zero_right _ hne
  have hgd0 : 0 < gd := Int.gcd_pos_of_ne_zero_right _ hb.denominator_pos.ne'
  obtain ⟨n1, hn1⟩ : (gn : ℤ) ∣ a.numerator := Int.gcd_dvd_left ..
  obtain ⟨n2, hn2⟩ : (gn : ℤ) ∣ b.numerator := Int.gcd_dvd_right ..
  obtain ⟨d1, hd1⟩ : (gd : ℤ) ∣ a.denominator := Int.gcd_dvd_left ..
  obtain ⟨d2, hd2⟩ : (gd : ℤ) ∣ b.denominator := Int.gcd_dvd_right ..
  have hgn' : (gn : ℤ) ≠ 0 := by omega
  have hgd' : (gd : ℤ) ≠ 0 := by omega
  have q1 : a.numerator / gn = n1 := by rw [hn1, Int.mul_ediv_cancel_left _ hgn']
  have q2 : b.numerator / gn = n2 := by rw [hn2, Int.mul_ediv_cancel_left _ hgn']
  have q3 : a.denominator / gd = d1 := by rw [hd1, Int.mul_ediv_cancel_left _ hgd']
  have q4 : b.denominator / gd = d2 := by rw [hd2, Int.mul_ediv_cancel_left _ hgd']
  have hd1pos : 0 < d1 := quotient_pos ha.denominator_pos hd1
  have hd2pos : 0 < d2 := quotient_pos hb.denominator_pos hd2
  have hn2ne : n2 ≠ 0 := by
    rintro rfl
    rw [mul_zero] at hn2
    exact hne hn2
  have cnn : IsCoprime n1 n2 := q1 ▸ q2 ▸ coprime_div hgn0
  have cdd : IsCoprime d2 d1 := (q3 ▸ q4 ▸ coprime_div hgd0 : IsCoprime d1 d2).symm
  have c1 : IsCoprime n1 d1 :=
    q1 ▸ q3 ▸ coprime_of_quotients ha.coprime (Int.gcd_dvd_left ..) (Int.gcd_dvd_left ..)
  have c2 : IsCoprime d2 n2 :=
    (q2 ▸ q4 ▸ coprime_of_quotients hb.coprime (Int.gcd_dvd_right ..) (Int.gcd_dvd_right ..) :
      IsCoprime n2 d2).symm
  have hcop : IsCoprime (n1 * d2) (d1 * n2) := (c1.mul_right cnn).mul_left (cdd.mul_right c2)
  have hvalue : a.toRat / b.toRat = ((n1 * d2 : ℤ) : ℚ) / ((d1 * n2 : ℤ) : ℚ) := by
    have h1 : (d1 : ℚ) ≠ 0 := by exact_mod_cast hd1pos.ne'
    have h2 : (d2 : ℚ) ≠ 0 := by exact_mod_cast hd2pos.ne'
    have h3 : (n2 : ℚ) ≠ 0 := by exact_mod_cast hn2ne
    have h4 : (gn : ℚ) ≠ 0 := by exact_mod_cast hgn0.ne'
    have h5 : (gd : ℚ) ≠ 0 := by exact_mod_cast hgd0.ne'
    rw [toRat, toRat, hn1, hd1, hn2, hd2]
    push_cast
    field_simp
  have hDne : d1 * n2 ≠ 0 := mul_ne_zero hd1pos.ne' hn2ne
  rw [div_eq ha hb hne, q1, q2, q3, q4, hvalue, fraction_exact_iff hDne hcop, not_iff_not,
    LosesQuotient, hvalue]
  have hsign : 0 < a.numerator ↔ 0 < n1 * d2 := by
    have hgpos : (0 : ℤ) < gn := by omega
    rw [hn1, mul_pos_iff_of_pos_left hgpos, mul_pos_iff_of_pos_right hd2pos]
  rw [hsign]
  rcases lt_or_gt_of_ne hDne with hneg | hpos
  · -- the canonical form has the opposite signs
    have hval : ((n1 * d2 : ℤ) : ℚ) / ((d1 * n2 : ℤ) : ℚ) =
        ((-(n1 * d2) : ℤ) : ℚ) / ((-(d1 * n2) : ℤ) : ℚ) := by
      push_cast
      rw [neg_div_neg_eq]
    obtain ⟨h1, h2⟩ := num_den_of_coprime (by omega : 0 < -(d1 * n2)) hcop.neg_neg
    rw [hval, h1, h2]
    unfold int64Min int64Max
    omega
  · obtain ⟨h1, h2⟩ := num_den_of_coprime hpos hcop
    rw [h1, h2]
    unfold int64Min int64Max
    omega

end Operators

/-! ## Comparison -/

/-- Comparing quotients of positive denominators by cross products. -/
lemma cross_lt_of_div_lt {an ad bn bd : ℕ} (had : 0 < ad) (hbd : 0 < bd)
    (h : an / ad < bn / bd) : an * bd < bn * ad := by
  have h1 : an < (an / ad + 1) * ad := by
    have := Nat.lt_div_mul_add had (a := an)
    rw [Nat.add_mul, Nat.one_mul]
    exact this
  have h2 : bn / bd * bd ≤ bn := Nat.div_mul_le_self bn bd
  calc an * bd < (an / ad + 1) * ad * bd := Nat.mul_lt_mul_of_pos_right h1 hbd
    _ ≤ bn / bd * ad * bd := Nat.mul_le_mul_right _ (Nat.mul_le_mul_right _ h)
    _ = bn / bd * bd * ad := by ring
    _ ≤ bn * ad := Nat.mul_le_mul_right _ h2

/-- With equal quotients the remainders decide. -/
lemma cross_lt_iff_of_div_eq {an ad bn bd : ℕ} (h : an / ad = bn / bd) :
    an * bd < bn * ad ↔ an % ad * bd < bn % bd * ad := by
  have h1 := Nat.div_add_mod an ad
  have h2 := Nat.div_add_mod bn bd
  have h3 : an * bd = an / ad * (ad * bd) + an % ad * bd := by
    calc an * bd = (ad * (an / ad) + an % ad) * bd := by rw [h1]
      _ = an / ad * (ad * bd) + an % ad * bd := by ring
  have h4 : bn * ad = an / ad * (ad * bd) + bn % bd * ad := by
    calc bn * ad = (bd * (bn / bd) + bn % bd) * ad := by rw [h2]
      _ = an / ad * (ad * bd) + bn % bd * ad := by rw [← h]; ring
  rw [h3, h4]
  omega

/-- **The continued-fraction comparison is exact**: it never divides by zero, and a round that
takes reciprocals reverses the order.

**Proof sketch.** Induction on the first denominator, which every round replaces by a remainder. -/
theorem positiveLess_eq (an ad bn bd : ℕ) (had : 0 < ad) (hbd : 0 < bd) (reversed : Bool) :
    positiveLess an ad bn bd reversed =
      some (if reversed then decide (bn * ad < an * bd) else decide (an * bd < bn * ad)) := by
  induction ad using Nat.strong_induction_on generalizing an bn bd reversed with
  | _ ad ih =>
    have hne : ¬ (ad = 0 ∨ bd = 0) := by omega
    rw [positiveLess, dif_neg hne]
    by_cases hq : an / ad = bn / bd
    · rw [if_neg (not_not.mpr hq)]
      have hforward := cross_lt_iff_of_div_eq hq
      have hbackward := cross_lt_iff_of_div_eq hq.symm
      by_cases hzero : an % ad = 0 ∨ bn % bd = 0
      · rw [if_pos hzero]
        by_cases hboth : an % ad = bn % bd
        · have h1 : an % ad = 0 := by omega
          have h2 : bn % bd = 0 := by omega
          rw [if_pos hboth]
          simp [hforward, hbackward, h1, h2]
        · rw [if_neg hboth]
          rcases hzero with h1 | h2
          · have h2 : 0 < bn % bd := by omega
            have h3 : 0 < bn % bd * ad := Nat.mul_pos h2 had
            cases reversed <;> simp [hforward, hbackward, h1, h2.ne', h3]
          · have h1 : 0 < an % ad := by omega
            have h3 : 0 < an % ad * bd := Nat.mul_pos h1 hbd
            cases reversed <;> simp [hforward, hbackward, h1.ne', h2, h3]
      · rw [if_neg hzero]
        simp only [not_or] at hzero
        rw [ih (an % ad) (Nat.mod_lt _ had) ad bd (bn % bd) (Nat.pos_of_ne_zero hzero.1)
          (Nat.pos_of_ne_zero hzero.2)]
        cases reversed
        · simp only [Bool.not_false, if_true, Bool.false_eq_true, if_false, hforward]
          rw [Nat.mul_comm bd, Nat.mul_comm ad]
        · simp only [Bool.not_true, if_true, Bool.false_eq_true, if_false, hbackward]
          rw [Nat.mul_comm bd, Nat.mul_comm ad]
    · rw [if_pos hq]
      rcases Nat.lt_or_gt_of_ne hq with hlt | hgt
      · have hcross := cross_lt_of_div_lt had hbd hlt
        cases reversed
        · simp [hlt, hcross]
        · simp [Nat.lt_asymm hlt, Nat.lt_asymm hcross]
      · have hcross := cross_lt_of_div_lt hbd had hgt
        cases reversed
        · simp [Nat.lt_asymm hgt, Nat.lt_asymm hcross]
        · simp [hgt, hcross]

/-- **The order is exact.** -/
theorem less_eq {a b : Rational} (ha : a.Canonical) (hb : b.Canonical) :
    less a b = some (decide (a.toRat < b.toRat)) := by
  have hda := ha.denominator_pos
  have hdb := hb.denominator_pos
  have hcross : a.toRat < b.toRat ↔
      a.numerator * b.denominator < b.numerator * a.denominator := by
    have h1 : (0 : ℚ) < a.denominator := by exact_mod_cast hda
    have h2 : (0 : ℚ) < b.denominator := by exact_mod_cast hdb
    rw [toRat, toRat, div_lt_div_iff₀ h1 h2]
    exact_mod_cast Iff.rfl
  have hpositive : ∀ {x y : Rational}, 0 < x.denominator → 0 < y.denominator →
      positiveLess (magnitude x.numerator) x.denominator.toNat (magnitude y.numerator)
        y.denominator.toNat false = some (decide
          ((x.numerator.natAbs : ℤ) * y.denominator < y.numerator.natAbs * x.denominator)) := by
    intro x y hx hy
    rw [positiveLess_eq _ _ _ _ (by omega) (by omega), magnitude_eq, magnitude_eq]
    simp only [Bool.false_eq_true, if_false, Option.some.injEq, decide_eq_decide]
    rw [← Int.ofNat_lt]
    push_cast
    rw [Int.toNat_of_nonneg hx.le, Int.toNat_of_nonneg hy.le]
  rw [show decide (a.toRat < b.toRat) =
    decide (a.numerator * b.denominator < b.numerator *
      a.denominator) from decide_eq_decide.mpr hcross]
  unfold less
  by_cases h1 : a.numerator < 0
  · by_cases h2 : b.numerator < 0
    · rw [if_neg (by omega), if_neg (by omega), if_pos h1, hpositive hdb hda]
      rw [show (a.numerator.natAbs : ℤ) = -a.numerator by omega,
        show (b.numerator.natAbs : ℤ) = -b.numerator by omega]
      simp only [neg_mul, neg_lt_neg_iff]
    · rw [if_pos (by omega)]
      have h3 : a.numerator * b.denominator < 0 := mul_neg_of_neg_of_pos h1 hdb
      have h4 : 0 ≤ b.numerator * a.denominator := mul_nonneg (by omega) hda.le
      rw [decide_eq_true (h3.trans_le h4)]
  · by_cases h2 : b.numerator < 0
    · rw [if_neg (by omega), if_pos (by omega)]
      have h3 : 0 ≤ a.numerator * b.denominator := mul_nonneg (by omega) hdb.le
      have h4 : b.numerator * a.denominator < 0 := mul_neg_of_neg_of_pos h2 hda
      rw [decide_eq_false (by omega)]
    · rw [if_neg (by omega), if_neg (by omega), if_neg h1, hpositive hda hdb]
      rw [show (a.numerator.natAbs : ℤ) = a.numerator by omega,
        show (b.numerator.natAbs : ℤ) = b.numerator by omega]

/-- What exact clock arithmetic promises for two values. -/
structure ExactArithmetic (a b : Rational) : Prop where
  add : Exact (add a b) (a.toRat + b.toRat)
  sub : Exact (sub a b) (a.toRat - b.toRat)
  mul : Exact (mul a b) (a.toRat * b.toRat)
  div : b.numerator ≠ 0 → Exact (div a b) (a.toRat / b.toRat)
  less : less a b = some (decide (a.toRat < b.toRat))

end Rational

open Rational in
/-- **Clock arithmetic is exact but for one kind of division.**  For all canonical values, sums,
differences, products and quotients are the canonical form of the exact result whenever it fits and
an overflow error otherwise, and the comparison loop ends with the exact order, if and only if it
is not the case that the dividend is positive and the exact quotient fits with the smallest
`std::int64_t` as its numerator.

**Proof sketch.** Every operator is a checked fraction of coprime integers
(`mul_eq`, `addOrSubtract_eq`, `div_eq`).  Such a fraction is exact unless its denominator is
negative and its numerator is `2⁶³` (`fraction_exact_iff`); only a division by a negative value has
a negative denominator. -/
theorem rational_exact_iff {a b : Rational} (ha : a.Canonical) (hb : b.Canonical) :
    ExactArithmetic a b ↔ ¬ LosesQuotient a b := by
  refine ⟨fun h => ?_, fun h => ⟨?_, ?_, mul_exact ha hb, fun hne => ?_, less_eq ha hb⟩⟩
  · by_cases hne : b.numerator = 0
    · -- a quotient by zero is zero, whose numerator is not the smallest integer
      intro hloses
      have hzero : a.toRat / b.toRat = 0 := by simp [toRat, hne]
      have hnum := hloses.2.1
      rw [hzero] at hnum
      exact absurd hnum (by decide)
    · exact (div_exact_iff ha hb hne).mp (h.div hne)
  · have hadd := addOrSubtract_exact ha hb false
    simp only [Bool.false_eq_true, if_false, one_mul] at hadd
    exact hadd
  · have hsub := addOrSubtract_exact ha hb true
    simp only [if_true, neg_one_mul, ← sub_eq_add_neg] at hsub
    exact hsub
  · exact (div_exact_iff ha hb hne).mpr h

open Rational in
/-- The arithmetic of one half and one third is exact. -/
theorem rational_exact_halves : ExactArithmetic ⟨1, 2⟩ ⟨1, 3⟩ := by
  refine (rational_exact_iff ⟨by decide, by decide, by decide, ⟨1, 0, by norm_num⟩⟩
    ⟨by decide, by decide, by decide, ⟨1, 0, by norm_num⟩⟩).mpr fun h => ?_
  have hnum := h.2.1
  have hpos : 0 < (toRat ⟨1, 2⟩ / toRat ⟨1, 3⟩).num := by
    rw [Rat.num_pos]
    norm_num [toRat]
  rw [hnum] at hpos
  exact absurd hpos (by decide)

open Rational in
/-- The quotient of `2⁶²` by minus one half is lost: `-2⁶³` fits, but the numerator is bounded as
the positive number `2⁶³`. -/
theorem rational_loses_quotient :
    ∃ a b : Rational, a.Canonical ∧ b.Canonical ∧ ¬ ExactArithmetic a b := by
  refine ⟨⟨4611686018427387904, 1⟩, ⟨-1, 2⟩,
    ⟨by decide, by decide, by decide, ⟨0, 1, by norm_num⟩⟩,
    ⟨by decide, by decide, by decide, ⟨-1, 0, by norm_num⟩⟩, fun h => ?_⟩
  have hq : toRat ⟨4611686018427387904, 1⟩ / toRat ⟨-1, 2⟩ = ((-9223372036854775808 : ℤ) : ℚ) := by
    norm_num [toRat]
  have hrep : Representable (toRat ⟨4611686018427387904, 1⟩ / toRat ⟨-1, 2⟩) := by
    rw [hq, Representable, Rat.num_intCast, Rat.den_intCast]
    decide
  have hok := (h.div (by decide)).1 hrep
  have herror : Rational.div ⟨4611686018427387904, 1⟩ ⟨-1, 2⟩ = .error arithmeticOverflow := by
    decide +kernel
  rw [herror] at hok
  simp at hok

end Pops
