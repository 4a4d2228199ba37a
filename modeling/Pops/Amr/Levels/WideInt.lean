import Pops.Foundation.LongDivision
import Pops.Foundation.MachineInt

/-!
# 128-bit intermediates of the clock arithmetic

The private `UInt128` helpers of `pops::amr::Rational`: a product of 64-bit factors from 32-bit
halves, sums and differences with carry and borrow, and bitwise long division.  A `std::uint64_t`
is a natural number; every operation that may wrap is reduced modulo `2⁶⁴`.

## Main definitions

* `Pops.UInt128`, `UInt128.value` — two limbs and the number they represent.
* `Pops.UInt128.multiplyWide`, `add`, `subtract`, `remainder`, `divide` — the helpers.

## Main results

* `Pops.UInt128.multiplyWide_spec`, `add_spec`, `subtract_spec`, `remainder_eq`, `divide_spec` — the
  helpers compute the exact operations.
-/

namespace Pops

/-- The number of values of `std::uint64_t`. -/
@[irreducible] def radix : ℕ := 18446744073709551616

/-- The number of values is positive. -/
lemma radix_pos : 0 < radix := by
  unfold radix
  omega

/-- The number of values as a power. -/
lemma radix_eq : radix = 2 ^ 64 := by
  unfold radix
  norm_num

/-- Reduction of an unsigned result into the range of `std::uint64_t`. -/
def wrap (x : ℕ) : ℕ := x % radix

/-- The unsigned difference `x - y`. -/
def wrapSub (x y : ℕ) : ℕ := wrap (x + radix - y)

/-- Two limbs of 64 bits. -/
structure UInt128 where
  high : ℕ
  low : ℕ
  deriving DecidableEq

namespace UInt128

/-- The represented number. -/
def value (u : UInt128) : ℕ := u.high * radix + u.low

/-- Both limbs are in range. -/
structure Valid (u : UInt128) : Prop where
  high_lt : u.high < radix
  low_lt : u.low < radix

/-- The product of two 64-bit factors. -/
def multiplyWide (a b : ℕ) : UInt128 :=
  let mask := 0xffffffff
  let a0 := a &&& mask
  let a1 := a >>> 32
  let b0 := b &&& mask
  let b1 := b >>> 32
  let p00 := wrap (a0 * b0)
  let p01 := wrap (a0 * b1)
  let p10 := wrap (a1 * b0)
  let p11 := wrap (a1 * b1)
  let middle := wrap ((p00 >>> 32) + (p01 &&& mask) + (p10 &&& mask))
  ⟨wrap (p11 + (p01 >>> 32) + (p10 >>> 32) + (middle >>> 32)),
    wrap (middle <<< 32) ||| (p00 &&& mask)⟩

/-- `a < b`. -/
def less (a b : UInt128) : Bool := if a.high ≠ b.high then a.high < b.high else a.low < b.low

/-- The sum. -/
def add (a b : UInt128) : UInt128 :=
  let low := wrap (a.low + b.low)
  ⟨wrap (a.high + b.high + if low < a.low then 1 else 0), low⟩

/-- The difference. -/
def subtract (a b : UInt128) : UInt128 :=
  ⟨wrapSub (wrapSub a.high b.high) (if a.low < b.low then 1 else 0), wrapSub a.low b.low⟩

/-- One bit of a value. -/
def bit (u : UInt128) (index : ℕ) : Bool :=
  if index < 64 then u.low.testBit index else u.high.testBit (index - 64)

/-- Set one bit of a value. -/
def setBit (u : UInt128) (index : ℕ) : UInt128 :=
  if index < 64 then ⟨u.high, u.low ||| 1 <<< index⟩ else ⟨u.high ||| 1 <<< (index - 64), u.low⟩

/-- The bit indices from 127 down to 0. -/
def indices : List ℕ := (List.range 128).reverse

/-- The remainder with one more bit of the dividend. -/
def shiftIn (u : UInt128) (remainder index : ℕ) : ℕ :=
  wrap (remainder * 2 + if u.bit index then 1 else 0)

/-- One round of the remainder loop. -/
def remainderStep (u : UInt128) (divisor remainder index : ℕ) : ℕ :=
  let remainder := shiftIn u remainder index
  if remainder ≥ divisor then remainder - divisor else remainder

/-- The remainder by a 64-bit divisor. -/
def remainder (u : UInt128) (divisor : ℕ) : ℕ := indices.foldl (remainderStep u divisor) 0

/-- One round of the division: the quotient so far and the remainder. -/
def divideStep (u : UInt128) (divisor : ℕ) (state : UInt128 × ℕ) (index : ℕ) : UInt128 × ℕ :=
  let remainder := shiftIn u state.2 index
  if remainder < divisor then (state.1, remainder)
  else (state.1.setBit index, remainder - divisor)

/-- The quotient by a 64-bit divisor. -/
def divide (u : UInt128) (divisor : ℕ) : UInt128 :=
  (indices.foldl (divideStep u divisor) (⟨0, 0⟩, 0)).1

/-! ## Products, sums and differences -/

/-- The low half of a 64-bit number. -/
lemma and_mask (x : ℕ) : x &&& 0xffffffff = x % 4294967296 :=
  Nat.and_two_pow_sub_one_eq_mod x 32

/-- The high half of a 64-bit number. -/
lemma shiftRight_half (x : ℕ) : x >>> 32 = x / 4294967296 := Nat.shiftRight_eq_div_pow x 32

/-- Two halves put together. -/
lemma shiftLeft_or {x y : ℕ} (hy : y < 4294967296) :
    wrap (x <<< 32) ||| y = x % 4294967296 * 4294967296 + y := by
  have hwrap : wrap (x <<< 32) = 2 ^ 32 * (x % 4294967296) := by
    rw [wrap, Nat.shiftLeft_eq, radix]
    omega
  rw [hwrap, ← Nat.two_pow_add_eq_or_of_lt hy]
  ring

/-- A product of halves needs no reduction. -/
lemma wrap_mul {x y : ℕ} (hx : x < 4294967296) (hy : y < 4294967296) :
    wrap (x * y) = x * y ∧ x * y ≤ 18446744065119617025 := by
  have hle : x * y ≤ 4294967295 * 4294967295 := Nat.mul_le_mul (by omega) (by omega)
  refine ⟨Nat.mod_eq_of_lt ?_, by omega⟩
  unfold radix
  omega

/-- **The wide product is exact.** -/
theorem multiplyWide_spec {a b : ℕ} (ha : a < radix) (hb : b < radix) :
    (multiplyWide a b).Valid ∧ (multiplyWide a b).value = a * b := by
  unfold radix at ha hb
  have ha0 : a % 4294967296 < 4294967296 := Nat.mod_lt _ (by omega)
  have hb0 : b % 4294967296 < 4294967296 := Nat.mod_lt _ (by omega)
  have ha1 : a / 4294967296 < 4294967296 := by omega
  have hb1 : b / 4294967296 < 4294967296 := by omega
  obtain ⟨h00, l00⟩ := wrap_mul ha0 hb0
  obtain ⟨h01, l01⟩ := wrap_mul ha0 hb1
  obtain ⟨h10, l10⟩ := wrap_mul ha1 hb0
  obtain ⟨h11, l11⟩ := wrap_mul ha1 hb1
  have hproduct : a * b = a / 4294967296 * (b / 4294967296) * 18446744073709551616 +
      (a % 4294967296 * (b / 4294967296) + a / 4294967296 * (b % 4294967296)) * 4294967296 +
        a % 4294967296 * (b % 4294967296) := by
    have hda := Nat.div_add_mod a 4294967296
    have hdb := Nat.div_add_mod b 4294967296
    calc a * b = (4294967296 * (a / 4294967296) + a % 4294967296) *
          (4294967296 * (b / 4294967296) + b % 4294967296) := by rw [hda, hdb]
      _ = _ := by ring
  have hbound : a * b ≤ 18446744073709551615 * 18446744073709551615 :=
    Nat.mul_le_mul (by omega) (by omega)
  simp only [multiplyWide, and_mask, shiftRight_half, h00, h01, h10, h11]
  -- the four partial products are atoms from here on
  generalize a % 4294967296 * (b % 4294967296) = p00 at *
  generalize a % 4294967296 * (b / 4294967296) = p01 at *
  generalize a / 4294967296 * (b % 4294967296) = p10 at *
  generalize a / 4294967296 * (b / 4294967296) = p11 at *
  rw [shiftLeft_or (Nat.mod_lt _ (by omega))]
  refine ⟨⟨Nat.mod_lt _ radix_pos, ?_⟩, ?_⟩
  · simp only [wrap, radix]
    omega
  · simp only [value, wrap, radix]
    rw [hproduct] at hbound ⊢
    omega

/-- The comparison is exact. -/
lemma less_iff {a b : UInt128} (ha : a.Valid) (hb : b.Valid) :
    a.less b = true ↔ a.value < b.value := by
  have h1 := ha.low_lt
  have h2 := hb.low_lt
  unfold less value radix at *
  split_ifs with h <;> simp only [decide_eq_true_eq] <;> omega

/-- The sum is exact when it fits. -/
theorem add_spec {a b : UInt128} (ha : a.Valid) (hb : b.Valid)
    (hfit : a.value + b.value < radix * radix) :
    (a.add b).Valid ∧ (a.add b).value = a.value + b.value := by
  obtain ⟨_, h1⟩ := ha
  obtain ⟨_, h2⟩ := hb
  refine ⟨⟨Nat.mod_lt _ radix_pos, Nat.mod_lt _ radix_pos⟩, ?_⟩
  simp only [add, value, wrap, radix] at *
  by_cases hcarry : (a.low + b.low) % 18446744073709551616 < a.low
  · simp only [hcarry, if_true]
    omega
  · simp only [hcarry, if_false]
    omega

/-- The difference is exact when it is not negative. -/
theorem subtract_spec {a b : UInt128} (ha : a.Valid) (hb : b.Valid) (hle : b.value ≤ a.value) :
    (a.subtract b).Valid ∧ (a.subtract b).value = a.value - b.value := by
  obtain ⟨h1, h2⟩ := ha
  obtain ⟨h3, h4⟩ := hb
  refine ⟨⟨Nat.mod_lt _ radix_pos, Nat.mod_lt _ radix_pos⟩, ?_⟩
  simp only [subtract, value, wrapSub, wrap, radix] at *
  split_ifs <;> omega

/-! ## Long division -/

/-- The bits of a value. -/
lemma bit_eq {u : UInt128} (h : u.Valid) {index : ℕ} :
    u.bit index = u.value.testBit index := by
  have hvalue : u.value = 2 ^ 64 * u.high + u.low := by
    rw [value, Nat.mul_comm, radix_eq]
  rw [bit, hvalue, Nat.testBit_two_pow_mul_add _ (radix_eq ▸ h.low_lt)]

/-- Setting a bit of a limb below which nothing is set adds its weight. -/
lemma or_bit {x i : ℕ} (hx : x < radix) (hi : i < 64) (hdvd : 2 ^ (i + 1) ∣ x) :
    x ||| 1 <<< i = x + 2 ^ i ∧ x + 2 ^ i < radix := by
  obtain ⟨k, rfl⟩ := hdvd
  have hlt : 2 ^ i < 2 ^ (i + 1) := Nat.pow_lt_pow_right (by omega) (by omega)
  have hpow : 2 ^ (i + 1) * 2 ^ (63 - i) = radix := by
    rw [← pow_add, show i + 1 + (63 - i) = 64 by omega, radix_eq]
  have hk : k < 2 ^ (63 - i) := by
    rw [← hpow] at hx
    exact Nat.lt_of_mul_lt_mul_left hx
  refine ⟨?_, ?_⟩
  · rw [Nat.one_shiftLeft, ← Nat.two_pow_add_eq_or_of_lt hlt]
  · calc 2 ^ (i + 1) * k + 2 ^ i < 2 ^ (i + 1) * k + 2 ^ (i + 1) := Nat.add_lt_add_left hlt _
      _ = 2 ^ (i + 1) * (k + 1) := by ring
      _ ≤ radix := hpow ▸ Nat.mul_le_mul_left _ hk

/-- Setting a bit below which nothing is set adds its weight. -/
lemma setBit_spec {u : UInt128} (h : u.Valid) {index : ℕ} (hindex : index < 128)
    (hdvd : 2 ^ (index + 1) ∣ u.value) :
    (u.setBit index).Valid ∧ (u.setBit index).value = u.value + 2 ^ index := by
  have hradix := radix_eq
  unfold setBit
  by_cases hlow : index < 64
  · have hlimb : 2 ^ (index + 1) ∣ u.low := by
      have hhigh : 2 ^ (index + 1) ∣ u.high * radix :=
        Dvd.dvd.mul_left (hradix ▸ Nat.pow_dvd_pow 2 (by omega)) _
      exact (Nat.dvd_add_right hhigh).mp hdvd
    obtain ⟨hor, hlt⟩ := or_bit h.low_lt hlow hlimb
    rw [if_pos hlow, hor]
    refine ⟨⟨h.high_lt, hlt⟩, ?_⟩
    simp only [value]
    omega
  · -- nothing is set in the low limb, and the high limb is shifted by 64 bits
    have hzero : u.low = 0 := by
      have hpow : radix ∣ 2 ^ (index + 1) := by
        rw [hradix]
        exact Nat.pow_dvd_pow 2 (by omega)
      have hdvd64 := hpow.trans hdvd
      have hlimb := (Nat.dvd_add_right (Dvd.intro_left u.high rfl)).mp hdvd64
      exact Nat.eq_zero_of_dvd_of_lt hlimb h.low_lt
    have hsplit : (2 : ℕ) ^ (index + 1) = 2 ^ (index - 64 + 1) * radix := by
      rw [hradix, ← pow_add]
      congr 1
      omega
    have hlimb : 2 ^ (index - 64 + 1) ∣ u.high := by
      rw [value, hzero, Nat.add_zero, hsplit] at hdvd
      exact Nat.dvd_of_mul_dvd_mul_right radix_pos hdvd
    obtain ⟨hor, hlt⟩ := or_bit h.high_lt (by omega) hlimb
    have hweight : (2 : ℕ) ^ index = 2 ^ (index - 64) * radix := by
      rw [hradix, ← pow_add]
      congr 1
      omega
    rw [if_neg hlow, hor]
    refine ⟨⟨hlt, h.low_lt⟩, ?_⟩
    simp only [value, hweight]
    ring

section Division

variable {u : UInt128} (h : u.Valid) {divisor : ℕ} (hpos : 0 < divisor)
  (hmax : divisor ≤ 9223372036854775808)

include h hpos hmax in
/-- Shifting the next bit into the remainder of the part above it. -/
lemma shiftIn_eq (index : ℕ) :
    shiftIn u (u.value / 2 ^ (index + 1) % divisor) index =
      2 * (u.value / 2 ^ (index + 1) % divisor) + if u.value.testBit index then 1 else 0 := by
  have hlt := Nat.mod_lt (u.value / 2 ^ (index + 1)) hpos
  rw [shiftIn, bit_eq h, wrap, Nat.mod_eq_of_lt, Nat.mul_comm]
  unfold radix
  split_ifs <;> omega

/-- A bit is at most one. -/
lemma bit_le_one (p : Bool) : (if p then 1 else 0) ≤ 1 := by
  cases p <;> simp

include h in
/-- Nothing is left above the topmost bit. -/
lemma value_lt : u.value < 2 ^ 128 := by
  have h1 := h.high_lt
  have h2 := h.low_lt
  unfold value radix at *
  omega

include h hpos hmax in
/-- **The remainder is exact.**

**Proof sketch.** Before the bit with index `k - 1` is read, the accumulator is the remainder of
the part of the value above it; the induction is on `k`. -/
theorem remainder_eq : u.remainder divisor = u.value % divisor := by
  have hstep : ∀ k < 128, ∀ r, r = u.value / 2 ^ (k + 1) % divisor →
      remainderStep u divisor r k = u.value / 2 ^ k % divisor := by
    rintro k - r rfl
    simp only [remainderStep, shiftIn_eq h hpos hmax, ge_iff_le]
    rw [LongDivision.div_two_pow u.value k, LongDivision.mod_step hpos (bit_le_one _)]
  have hstart : 0 = u.value / 2 ^ 128 % divisor := by
    rw [Nat.div_eq_of_lt (value_lt h), Nat.zero_mod]
  have hend := LongDivision.foldl_down (P := fun k r => r = u.value / 2 ^ k % divisor) hstep hstart
  rwa [pow_zero, Nat.div_one] at hend

/-- The quotient and the remainder of the part of the value above bit `k`. -/
def DividedAbove (u : UInt128) (divisor k : ℕ) (state : UInt128 × ℕ) : Prop :=
  state.1.Valid ∧ state.1.value = u.value / 2 ^ k / divisor * 2 ^ k ∧
    state.2 = u.value / 2 ^ k % divisor

include h hpos hmax in
/-- One round of the division. -/
lemma divideStep_spec {k : ℕ} (hk : k < 128) {state : UInt128 × ℕ}
    (hstate : DividedAbove u divisor (k + 1) state) :
    DividedAbove u divisor k (divideStep u divisor state k) := by
  obtain ⟨hvalid, hquotient, hremainder⟩ := hstate
  have hdiv := LongDivision.div_two_pow u.value k
  have hq := LongDivision.div_step (x := u.value / 2 ^ (k + 1)) hpos
    (bit_le_one (u.value.testBit k))
  have hr := LongDivision.mod_step (x := u.value / 2 ^ (k + 1)) hpos
    (bit_le_one (u.value.testBit k))
  rw [← hdiv] at hq hr
  unfold divideStep DividedAbove
  simp only [hremainder, shiftIn_eq h hpos hmax]
  by_cases hless : 2 * (u.value / 2 ^ (k + 1) % divisor) +
      (if u.value.testBit k then 1 else 0) < divisor
  · rw [if_neg (by omega)] at hq hr
    rw [if_pos hless, hq, hr]
    refine ⟨hvalid, ?_, rfl⟩
    rw [hquotient, pow_succ]
    ring
  · rw [if_pos (by omega)] at hq hr
    rw [if_neg hless, hq, hr]
    obtain ⟨hvalid', hvalue⟩ := setBit_spec hvalid hk
      (by rw [hquotient]; exact Dvd.intro_left _ rfl)
    refine ⟨hvalid', ?_, rfl⟩
    rw [hvalue, hquotient, pow_succ]
    ring

include h hpos hmax in
/-- **The quotient is exact.** -/
theorem divide_spec : (u.divide divisor).Valid ∧ (u.divide divisor).value = u.value / divisor := by
  have hstart : DividedAbove u divisor 128 (⟨0, 0⟩, 0) := by
    unfold DividedAbove
    rw [Nat.div_eq_of_lt (value_lt h)]
    exact ⟨⟨radix_pos, radix_pos⟩, by simp [value], by simp⟩
  obtain ⟨hvalid, hvalue, _⟩ := LongDivision.foldl_down (P := DividedAbove u divisor)
    (fun k hk _ hstate => divideStep_spec h hpos hmax hk hstate) hstart
  rw [pow_zero, Nat.div_one, Nat.mul_one] at hvalue
  exact ⟨hvalid, hvalue⟩

end Division

end UInt128

end Pops
