import Mathlib

/-!
# Binary long division

Long division reads the bits of the dividend from the top.  Appending one bit to the part read so
far doubles the quotient and the remainder, and subtracts the divisor at most once.

## Main results

* `LongDivision.mod_step`, `div_step` — remainder and quotient after one more bit.
* `LongDivision.div_two_pow` — the part of a number above a bit.
* `LongDivision.foldl_down` — the rule for a loop over descending bit indices.
-/

namespace LongDivision

variable {m x b : ℕ}

/-- The doubled remainder with one more bit is below twice the divisor. -/
lemma doubled_lt (hm : 0 < m) (hb : b ≤ 1) : 2 * (x % m) + b < 2 * m := by
  have := Nat.mod_lt x hm
  omega

/-- One more bit of the dividend, split at the divisor. -/
lemma doubled_eq (m x b : ℕ) : 2 * x + b = m * (2 * (x / m)) + (2 * (x % m) + b) := by
  have h := Nat.div_add_mod x m
  calc 2 * x + b = 2 * (m * (x / m) + x % m) + b := by rw [h]
    _ = m * (2 * (x / m)) + (2 * (x % m) + b) := by ring

/-- The remainder after one more bit. -/
theorem mod_step (hm : 0 < m) (hb : b ≤ 1) :
    (2 * x + b) % m =
      if m ≤ 2 * (x % m) + b then 2 * (x % m) + b - m else 2 * (x % m) + b := by
  have hlt := doubled_lt (x := x) hm hb
  rw [doubled_eq m x b, Nat.mul_add_mod]
  split_ifs with h
  · rw [Nat.mod_eq_sub_mod h, Nat.mod_eq_of_lt (by omega)]
  · exact Nat.mod_eq_of_lt (by omega)

/-- The quotient after one more bit. -/
theorem div_step (hm : 0 < m) (hb : b ≤ 1) :
    (2 * x + b) / m = 2 * (x / m) + if m ≤ 2 * (x % m) + b then 1 else 0 := by
  have hlt := doubled_lt (x := x) hm hb
  rw [doubled_eq m x b, Nat.mul_add_div hm]
  congr 1
  split_ifs with h
  · rw [Nat.div_eq_sub_div hm h, Nat.div_eq_of_lt (by omega)]
  · exact Nat.div_eq_of_lt (by omega)

/-- The part of a number above a bit, in terms of the part above the next bit. -/
theorem div_two_pow (v i : ℕ) :
    v / 2 ^ i = 2 * (v / 2 ^ (i + 1)) + if v.testBit i then 1 else 0 := by
  have hhalf : v / 2 ^ (i + 1) = v / 2 ^ i / 2 := by
    rw [pow_succ, Nat.div_div_eq_div_mul]
  have hbit : (if v.testBit i then 1 else 0) = v / 2 ^ i % 2 := by
    rw [Nat.testBit_eq_decide_div_mod_eq]
    have := Nat.mod_two_eq_zero_or_one (v / 2 ^ i)
    rcases this with h | h <;> simp [h]
  rw [hhalf, hbit]
  omega

/-- The rule for a loop over descending indices: what holds above index `n` at the start and is
carried one index down by every round holds above index `0` at the end. -/
theorem foldl_down {σ : Type*} {f : σ → ℕ → σ} {P : ℕ → σ → Prop} {n : ℕ}
    (hstep : ∀ k < n, ∀ s, P (k + 1) s → P k (f s k)) {s : σ} (hs : P n s) :
    P 0 ((List.range n).reverse.foldl f s) := by
  induction n generalizing s with
  | zero => exact hs
  | succ n ih =>
    rw [List.range_succ, List.reverse_append, List.reverse_singleton, List.singleton_append,
      List.foldl_cons]
    exact ih (fun k hk => hstep k (by omega)) (hstep n (by omega) s hs)

end LongDivision
