import Pops.Foundation.MachineInt

/-!
# Arithmetic with checked ranges

A value of a machine type is computed exactly and then held against the range of its type.  A
computation written with these operations returns only if no value of it leaves its type and no
divisor is zero.

## Main definitions

* `Pops.Checked.int32`, `int64`, `uint64` — a value of a type.
* `Pops.Checked.quotient`, `remainder` — unsigned division.

## Main results

* `Pops.Checked.uint64_eq_ok` and its companions — when an operation returns, and what.
-/

namespace Pops.Checked

/-- What a value outside its type, or a division by zero, is answered with. -/
def undefined : Exception := logicError "undefined arithmetic"

/-- A value of `int`. -/
def int32 (z : ℤ) : Throws ℤ := do
  throwIf (¬ IsInt z) undefined
  pure z

/-- A value of `std::int64_t`. -/
def int64 (z : ℤ) : Throws ℤ := do
  throwIf (¬ IsInt64 z) undefined
  pure z

/-- A value of `std::uint64_t` or `std::size_t`. -/
def uint64 (z : ℤ) : Throws ℕ := do
  throwIf (z < 0 ∨ z > sizeMax) undefined
  pure z.toNat

/-- An unsigned quotient. -/
def quotient (n k : ℕ) : Throws ℕ := do
  throwIf (k = 0) undefined
  pure (n / k)

/-- An unsigned remainder. -/
def remainder (n k : ℕ) : Throws ℕ := do
  throwIf (k = 0) undefined
  pure (n % k)

variable {z r : ℤ} {n k m : ℕ}

/-- An `int` is returned when the number is in its range. -/
@[simp] lemma int32_eq_ok : int32 z = .ok r ↔ IsInt z ∧ z = r := by
  simp only [int32, bind_eq_ok, throwIf_eq_ok, exists_const, pure_eq_ok, not_not]

/-- A signed word is returned when the number is in its range. -/
@[simp] lemma int64_eq_ok : int64 z = .ok r ↔ IsInt64 z ∧ z = r := by
  simp only [int64, bind_eq_ok, throwIf_eq_ok, exists_const, pure_eq_ok, not_not]

/-- An unsigned word is returned when the number is in its range. -/
@[simp] theorem uint64_eq_ok : uint64 z = .ok n ↔ n ≤ sizeMax ∧ z = n := by
  simp only [uint64, bind_eq_ok, throwIf_eq_ok, exists_const, pure_eq_ok]
  constructor
  · rintro ⟨hrange, rfl⟩
    exact ⟨by omega, by omega⟩
  · rintro ⟨hrange, rfl⟩
    exact ⟨by omega, by omega⟩

/-- A quotient is returned when the divisor is not zero. -/
@[simp] lemma quotient_eq_ok : quotient n k = .ok m ↔ 0 < k ∧ n / k = m := by
  simp only [quotient, bind_eq_ok, throwIf_eq_ok, exists_const, pure_eq_ok,
    Nat.pos_iff_ne_zero, ne_eq]

/-- A remainder is returned when the divisor is not zero. -/
@[simp] lemma remainder_eq_ok : remainder n k = .ok m ↔ 0 < k ∧ n % k = m := by
  simp only [remainder, bind_eq_ok, throwIf_eq_ok, exists_const, pure_eq_ok,
    Nat.pos_iff_ne_zero, ne_eq]

end Pops.Checked
