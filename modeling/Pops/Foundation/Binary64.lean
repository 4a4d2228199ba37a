import Mathlib

/-!
# Binary64 values as bits

A `double` is kept as its 64 bits, so that two values are equal exactly when they are bit for bit
the same.  Whether a product of finite values is finite does not depend on signs: it is decided on
magnitudes `m · 2ᵉ`, rounded to the nearest magnitude with 53 bits, ties to even, after every
multiplication.

## Main definitions

* `Binary64.isFinite`, `isPositive` — the tests of `<cmath>` and the comparison with zero.
* `Binary64.magnitude` — the magnitude of a finite value.
* `Binary64.Magnitude.mul` — the rounded product, if it does not overflow.
-/

/-- The bits of a `double`. -/
abbrev Binary64 := UInt64

namespace Binary64

/-- The eleven bits of the exponent. -/
def exponentField (bits : Binary64) : ℕ := bits.toNat / 2 ^ 52 % 2 ^ 11

/-- The fifty-two bits of the fraction. -/
def fractionField (bits : Binary64) : ℕ := bits.toNat % 2 ^ 52

/-- The bit of the sign. -/
def isNegative (bits : Binary64) : Bool := decide (2 ^ 63 ≤ bits.toNat)

/-- `std::isfinite(value)`. -/
def isFinite (bits : Binary64) : Bool := decide (exponentField bits ≠ 2047)

/-- `std::isnan(value)`. -/
def isNan (bits : Binary64) : Bool :=
  decide (exponentField bits = 2047) && decide (fractionField bits ≠ 0)

/-- `value > 0.0`. -/
def isPositive (bits : Binary64) : Bool :=
  !isNegative bits && decide (bits.toNat ≠ 0) && !isNan bits

/-- `value == 0.0`, of either sign. -/
def isZero (bits : Binary64) : Bool := decide (bits.toNat % 2 ^ 63 = 0)

/-- `left == right`: equality of numbers: the zeros are equal, a NaN is equal to nothing. -/
def equal (left right : Binary64) : Bool :=
  !isNan left && !isNan right && (decide (left = right) || isZero left && isZero right)

/-- `value < 0.0`. -/
def isBelowZero (bits : Binary64) : Bool := isNegative bits && !isZero bits && !isNan bits

/-- The position of a value among all values that are numbers. -/
def position (bits : Binary64) : ℤ :=
  if isNegative bits then -(bits.toNat % 2 ^ 63 : ℕ) else (bits.toNat % 2 ^ 63 : ℕ)

/-- `left < right`. -/
def less (left right : Binary64) : Bool :=
  !isNan left && !isNan right && decide (position left < position right)

/-- A magnitude `mantissa · 2 ^ exponent`. -/
structure Magnitude where
  mantissa : ℕ
  exponent : ℤ
  deriving DecidableEq, Repr

/-- The magnitude of a finite value. -/
def magnitude (bits : Binary64) : Option Magnitude :=
  if exponentField bits = 2047 then none
  -- subnormal values have no leading bit
  else if exponentField bits = 0 then some ⟨fractionField bits, -1074⟩
  else some ⟨2 ^ 52 + fractionField bits, (exponentField bits : ℤ) - 1075⟩

namespace Magnitude

/-- The magnitude of an `int`, which has an exact binary64 value. -/
def ofInt (value : ℤ) : Magnitude := ⟨value.natAbs, 0⟩

/-- The nearest binary64 magnitude, ties to even; `none` on overflow. -/
def round (x : Magnitude) : Option Magnitude :=
  -- the bits below the last one kept: more than 53 bits, or below the subnormal spacing
  let shift := max (x.mantissa.log2 + 1 - 53) (-1074 - x.exponent).toNat
  let kept := x.mantissa / 2 ^ shift
  let lost := x.mantissa % 2 ^ shift
  let rounded := if 2 ^ shift < 2 * lost ∨ 2 * lost = 2 ^ shift ∧
    kept % 2 = 1 then kept + 1 else kept
  if rounded ≠ 0 ∧ 1024 ≤ rounded.log2 + (x.exponent + shift) then none
  else some ⟨rounded, x.exponent + shift⟩

/-- The rounded product of two magnitudes. -/
def mul (x y : Magnitude) : Option Magnitude :=
  round ⟨x.mantissa * y.mantissa, x.exponent + y.exponent⟩

-- the largest finite value doubled overflows, halved and doubled it does not
example : (magnitude 0x7fefffffffffffff).bind (fun x => mul x (ofInt 2)) = none := by
  decide +kernel

example : ((magnitude 0x7fefffffffffffff).bind fun x => (magnitude 0x3fe0000000000000).bind
    fun y => (mul x y).bind fun z => mul z (ofInt 2)).isSome = true := by
  decide +kernel

end Magnitude

end Binary64
