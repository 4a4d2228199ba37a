import Pops.Foundation.Exception

/-!
# Machine integers

Signed and unsigned machine integers are mathematical integers with an explicit range.  `int`
has 32 bits, `std::int64_t` and `std::size_t` have 64.  An unchecked narrowing
`static_cast<int>` reduces modulo `2³²` into the signed range; a checked one throws.

## Main definitions

* `Pops.IsInt`, `IsInt64` — the ranges of `int` and `std::int64_t`.
* `Pops.castInt` — `static_cast<int>`.
* `Pops.checkedIndex` — a narrowing that throws outside the range of `int`.

## Main results

* `Pops.castInt_of_isInt` — a narrowing cast of a value in range is that value.
-/

namespace Pops

/-- `std::numeric_limits<int>::min()`. -/
def intMin : ℤ := -2147483648

/-- `std::numeric_limits<int>::max()`. -/
def intMax : ℤ := 2147483647

/-- `std::numeric_limits<std::int64_t>::min()`. -/
def int64Min : ℤ := -9223372036854775808

/-- `std::numeric_limits<std::int64_t>::max()`. -/
def int64Max : ℤ := 9223372036854775807

/-- `std::numeric_limits<std::size_t>::max()`. -/
def sizeMax : ℕ := 18446744073709551615

/-- The value is an `int`. -/
def IsInt (z : ℤ) : Prop := intMin ≤ z ∧ z ≤ intMax

/-- The value is a `std::int64_t`. -/
def IsInt64 (z : ℤ) : Prop := int64Min ≤ z ∧ z ≤ int64Max

instance (z : ℤ) : Decidable (IsInt z) := inferInstanceAs (Decidable (_ ∧ _))

instance (z : ℤ) : Decidable (IsInt64 z) := inferInstanceAs (Decidable (_ ∧ _))

/-- `static_cast<int>(value)`: the representative of `value` modulo `2³²` in the range of `int`. -/
def castInt (value : ℤ) : ℤ := Int.bmod value 4294967296

/-- The checked narrowing of a 64-bit value to `int`. -/
def checkedIndex (value : ℤ) (operation : String) : Throws ℤ := do
  throwIf (value < intMin ∨ value > intMax) (overflowError operation)
  pure value

/-- A narrowing cast of a value in range is that value. -/
theorem castInt_of_isInt {z : ℤ} (h : IsInt z) : castInt z = z := by
  unfold IsInt intMin intMax at h
  exact Int.bmod_eq_of_le (by omega) (by omega)

/-- A narrowing cast always gives a value of `int`. -/
lemma isInt_castInt (z : ℤ) : IsInt (castInt z) := by
  have h1 := Int.le_bmod (x := z) (m := 4294967296) (by norm_num)
  have h2 := Int.bmod_lt (x := z) (m := 4294967296) (by norm_num)
  unfold IsInt castInt intMin intMax
  omega

/-- A value between two values in range is in range. -/
theorem IsInt.between {x y z : ℤ} (hx : IsInt x) (hz : IsInt z) (hxy : x ≤ y) (hyz : y ≤ z) :
    IsInt y :=
  ⟨hx.1.trans hxy, hyz.trans hz.2⟩

/-- The checked narrowing returns exactly the values in range, unchanged. -/
@[simp] lemma checkedIndex_eq_ok {value r : ℤ} {operation : String} :
    checkedIndex value operation = .ok r ↔ IsInt value ∧ value = r := by
  unfold checkedIndex IsInt
  simp only [bind_eq_ok, throwIf_eq_ok, pure_eq_ok]
  constructor
  · rintro ⟨_, h, rfl⟩
    omega
  · rintro ⟨h, rfl⟩
    exact ⟨(), by omega, rfl⟩

end Pops
