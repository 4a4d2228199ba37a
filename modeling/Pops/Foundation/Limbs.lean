import Mathlib

/-!
# Fixed-length limb arithmetic

Unsigned numbers stored as a list of limbs below a base `B`, least significant limb first, of a
fixed length.  Addition reports the carry out of the last limb; adding a word at an offset
propagates its carry upwards and fails when the carry leaves the last limb.

## Main definitions

* `Limbs.value` — the number a limb list stands for.
* `Limbs.addCarry` — limb-wise addition with carry.
* `Limbs.addWord` — adding one word at an offset.
* `Limbs.Number` — a number of a fixed count of limbs, with its two operations.

## Main results

* `Limbs.value_addCarry` — the sum, with its carry, is exact.
* `Limbs.addWord_spec` — the word is added exactly, and adding fails only on overflow.
* `Limbs.Number.toNat_injective` — numbers of one shape are equal when they stand for one value.
* `Limbs.Number.add_carry_eq_zero_iff`, `addWord_eq_some_iff` — both operations are exact and fail
  exactly on overflow.
-/

namespace Limbs

/-- The number a limb list stands for in base `B`. -/
def value (B : ℕ) : List ℕ → ℕ
  | [] => 0
  | l :: ls => l + B * value B ls

/-- Limb-wise addition of two lists with an incoming carry: the sum limbs and the outgoing
carry. -/
def addCarry (B : ℕ) : List ℕ → List ℕ → ℕ → List ℕ × ℕ
  | l :: ls, r :: rs, carry =>
    let sum := l + r + carry
    let rest := addCarry B ls rs (sum / B)
    (sum % B :: rest.1, rest.2)
  | _, _, carry => ([], carry)

/-- Add `word` to the limb at `offset`, propagating the carry while it is nonzero. -/
def addWord (B : ℕ) : List ℕ → (offset word : ℕ) → Option (List ℕ)
  | ls, _, 0 => some ls
  | [], _, _ + 1 => none
  | l :: ls, 0, word + 1 =>
    (addWord B ls 0 ((l + (word + 1)) / B)).map ((l + (word + 1)) % B :: ·)
  | l :: ls, offset + 1, word + 1 => (addWord B ls offset (word + 1)).map (l :: ·)

variable {B : ℕ}

/-- No limbs have the value zero. -/
@[simp] lemma value_nil : value B [] = 0 := rfl

/-- The value of a lowest limb and the others. -/
@[simp] lemma value_cons (l : ℕ) (ls : List ℕ) : value B (l :: ls) = l + B * value B ls := rfl

/-- A limb list of length `n` stands for a number below `Bⁿ`. -/
lemma value_lt {ls : List ℕ} (h : ∀ l ∈ ls, l < B) : value B ls < B ^ ls.length := by
  induction ls with
  | nil => simp
  | cons l ls ih =>
    have hl := h l (by simp)
    have hls := ih fun m hm => h m (by simp [hm])
    rw [value_cons, List.length_cons, pow_succ']
    calc l + B * value B ls < B * (value B ls + 1) := by rw [Nat.mul_add]; omega
      _ ≤ B * B ^ ls.length := Nat.mul_le_mul_left _ hls

/-- Limb lists of one length that stand for the same number are equal. -/
lemma value_injective {ls rs : List ℕ} (hlen : ls.length = rs.length)
    (hl : ∀ l ∈ ls, l < B) (hr : ∀ r ∈ rs, r < B) (h : value B ls = value B rs) : ls = rs := by
  induction ls generalizing rs with
  | nil => exact (List.length_eq_zero_iff.mp hlen.symm).symm
  | cons l ls ih =>
    cases rs with
    | nil => simp at hlen
    | cons r rs =>
      have hlB := hl l (by simp)
      have hrB := hr r (by simp)
      simp only [value_cons] at h
      have hmod : l = r := by
        have := congrArg (· % B) h
        simpa [Nat.add_mul_mod_self_left, Nat.mod_eq_of_lt hlB, Nat.mod_eq_of_lt hrB] using this
      subst hmod
      have hrest : value B ls = value B rs :=
        Nat.eq_of_mul_eq_mul_left (by omega : 0 < B) (Nat.add_left_cancel h)
      rw [ih (by simpa using hlen) (fun m hm => hl m (by simp [hm]))
        (fun m hm => hr m (by simp [hm])) hrest]

/-- The sum limbs and the outgoing carry stand for the exact sum. -/
theorem value_addCarry (ls rs : List ℕ) (hlen : ls.length = rs.length) (carry : ℕ) :
    value B (addCarry B ls rs carry).1 + B ^ ls.length * (addCarry B ls rs carry).2 =
      value B ls + value B rs + carry := by
  induction ls generalizing rs carry with
  | nil => simp [addCarry, List.length_eq_zero_iff.mp hlen.symm]
  | cons l ls ih =>
    cases rs with
    | nil => simp at hlen
    | cons r rs =>
      have hrec := ih rs (by simpa using hlen) ((l + r + carry) / B)
      have hdiv := Nat.mod_add_div (l + r + carry) B
      simp only [addCarry, value_cons, List.length_cons, pow_succ']
      calc (l + r + carry) % B + B * value B (addCarry B ls rs ((l + r + carry) / B)).1 +
            B * B ^ ls.length * (addCarry B ls rs ((l + r + carry) / B)).2
          = (l + r + carry) % B + B * (value B (addCarry B ls rs ((l + r + carry) / B)).1 +
            B ^ ls.length * (addCarry B ls rs ((l + r + carry) / B)).2) := by ring
        _ = l + B * value B ls + (r + B * value B rs) + carry := by
          rw [hrec, Nat.mul_add, Nat.mul_add]
          omega

/-- The sum has as many limbs as its operands. -/
lemma length_addCarry (ls rs : List ℕ) (hlen : ls.length = rs.length) (carry : ℕ) :
    (addCarry B ls rs carry).1.length = ls.length := by
  induction ls generalizing rs carry with
  | nil => simp [addCarry]
  | cons l ls ih =>
    cases rs with
    | nil => simp at hlen
    | cons r rs => simp [addCarry, ih rs (by simpa using hlen)]

/-- Every limb of a sum is below the base. -/
lemma addCarry_lt (hB : 0 < B) (ls rs : List ℕ) (carry : ℕ) :
    ∀ l ∈ (addCarry B ls rs carry).1, l < B := by
  induction ls generalizing rs carry with
  | nil => simp [addCarry]
  | cons l ls ih =>
    cases rs with
    | nil => simp [addCarry]
    | cons r rs =>
      intro m hm
      simp only [addCarry, List.mem_cons] at hm
      rcases hm with rfl | hm
      · exact Nat.mod_lt _ hB
      · exact ih rs _ m hm

/-- Adding a word at an offset is exact and keeps the limbs in range when the sum fits the
length of the list, and fails otherwise.

**Proof sketch.** Induction on the list.  At the offset the limb takes the sum modulo `B` and
the quotient moves to the next limb, so the two parts of `Nat.mod_add_div` account for the
whole word; below the offset the first limb is kept and the claim is the one for the tail. -/
theorem addWord_spec (hB : 0 < B) {ls : List ℕ} (hls : ∀ l ∈ ls, l < B) (offset word : ℕ) :
    (value B ls + word * B ^ offset < B ^ ls.length →
      ∃ rs, addWord B ls offset word = some rs ∧ rs.length = ls.length ∧ (∀ r ∈ rs, r < B) ∧
        value B rs = value B ls + word * B ^ offset) ∧
    (B ^ ls.length ≤ value B ls + word * B ^ offset → addWord B ls offset word = none) := by
  induction ls generalizing offset word with
  | nil =>
    have hpow : 0 < B ^ offset := Nat.pow_pos hB
    cases word with
    | zero => simp [addWord]
    | succ word =>
      have hpos : 0 < (word + 1) * B ^ offset := Nat.mul_pos word.succ_pos hpow
      refine ⟨fun h => ?_, fun _ => rfl⟩
      simp only [value_nil, List.length_nil, pow_zero] at h
      omega
  | cons l ls ih =>
    have hl := hls l (by simp)
    have htail : ∀ m ∈ ls, m < B := fun m hm => hls m (by simp [hm])
    cases word with
    | zero =>
      have hlt := value_lt hls
      simp only [zero_mul, Nat.add_zero]
      exact ⟨fun _ => ⟨l :: ls, by simp [addWord], rfl, hls, rfl⟩, fun h => by omega⟩
    | succ word =>
      cases offset with
      | zero =>
        obtain ⟨hok, hfail⟩ := ih htail 0 ((l + (word + 1)) / B)
        have hdiv := Nat.mod_add_div (l + (word + 1)) B
        have hmod := Nat.mod_lt (l + (word + 1)) hB
        have hsplit : value B (l :: ls) + (word + 1) * B ^ 0 =
            (l + (word + 1)) % B + B * (value B ls + (l + (word + 1)) / B * B ^ 0) := by
          simp only [value_cons, pow_zero, mul_one, Nat.mul_add]
          omega
        rw [hsplit, List.length_cons, pow_succ']
        constructor
        · intro h
          have hlt : value B ls + (l + (word + 1)) / B * B ^ 0 < B ^ ls.length :=
            Nat.lt_of_mul_lt_mul_left (a := B) (by omega)
          obtain ⟨rs, hrs, hlen, hrange, hval⟩ := hok hlt
          refine ⟨(l + (word + 1)) % B :: rs, by simp [addWord, hrs], by simp [hlen], ?_, ?_⟩
          · intro r hr
            rcases List.mem_cons.mp hr with rfl | hr
            · exact hmod
            · exact hrange r hr
          · rw [value_cons, hval]
        · intro h
          have hge : B ^ ls.length ≤ value B ls + (l + (word + 1)) / B * B ^ 0 := by
            by_contra hlt
            rw [not_le] at hlt
            have := Nat.mul_le_mul_left B hlt
            rw [Nat.succ_eq_add_one, Nat.mul_add] at this
            omega
          simp [addWord, hfail hge]
      | succ offset =>
        obtain ⟨hok, hfail⟩ := ih htail offset (word + 1)
        have hsplit : value B (l :: ls) + (word + 1) * B ^ (offset + 1) =
            l + B * (value B ls + (word + 1) * B ^ offset) := by
          rw [value_cons, pow_succ']
          ring
        rw [hsplit, List.length_cons, pow_succ']
        constructor
        · intro h
          have hlt : value B ls + (word + 1) * B ^ offset < B ^ ls.length :=
            Nat.lt_of_mul_lt_mul_left (a := B) (by omega)
          obtain ⟨rs, hrs, hlen, hrange, hval⟩ := hok hlt
          refine ⟨l :: rs, by simp [addWord, hrs], by simp [hlen], ?_, ?_⟩
          · intro r hr
            rcases List.mem_cons.mp hr with rfl | hr
            · exact hl
            · exact hrange r hr
          · rw [value_cons, hval]
        · intro h
          have hge : B ^ ls.length ≤ value B ls + (word + 1) * B ^ offset := by
            by_contra hlt
            rw [not_le] at hlt
            have := Nat.mul_le_mul_left B hlt
            rw [Nat.succ_eq_add_one, Nat.mul_add] at this
            omega
          simp [addWord, hfail hge]

/-- A successful addition of a word keeps the number of limbs and their range. -/
lemma addWord_shape (hB : 0 < B) {ls rs : List ℕ} (hls : ∀ l ∈ ls, l < B) {offset word : ℕ}
    (h : addWord B ls offset word = some rs) : rs.length = ls.length ∧ ∀ r ∈ rs, r < B := by
  obtain ⟨hok, hfail⟩ := addWord_spec hB hls offset word
  rcases Nat.lt_or_ge (value B ls + word * B ^ offset) (B ^ ls.length) with hlt | hge
  · obtain ⟨ts, hts, hlen, hrange, _⟩ := hok hlt
    rw [h, Option.some.injEq] at hts
    exact ⟨hts ▸ hlen, hts ▸ hrange⟩
  · rw [hfail hge] at h
    cases h

/-! ## Numbers of a fixed length -/

/-- An unsigned number of `n` limbs below `B`. -/
structure Number (B n : ℕ) where
  limbs : List ℕ
  length_limbs : limbs.length = n
  limbs_lt : ∀ l ∈ limbs, l < B
  deriving DecidableEq

namespace Number

variable {n : ℕ}

/-- The natural number the limbs stand for. -/
def toNat (x : Number B n) : ℕ := value B x.limbs

/-- A number of `n` limbs is below `Bⁿ`. -/
lemma toNat_lt (x : Number B n) : x.toNat < B ^ n := by
  have := value_lt x.limbs_lt
  rwa [x.length_limbs] at this

/-- Numbers of one shape are equal when they stand for the same natural number. -/
theorem toNat_injective {x y : Number B n} (h : x.toNat = y.toNat) : x = y := by
  obtain ⟨xs, hx, hxB⟩ := x
  obtain ⟨ys, hy, hyB⟩ := y
  congr 1
  exact value_injective (hx.trans hy.symm) hxB hyB h

/-- Every natural number below `Bⁿ` is stored by some number of `n` limbs. -/
lemma exists_toNat {v : ℕ} (hv : v < B ^ n) : ∃ x : Number B n, x.toNat = v := by
  induction n generalizing v with
  | zero =>
    obtain rfl : v = 0 := by simpa using hv
    exact ⟨⟨[], rfl, by simp⟩, rfl⟩
  | succ n ih =>
    have hB : 0 < B := Nat.pos_of_ne_zero fun h => by simp [h] at hv
    obtain ⟨x, hx⟩ := ih (v := v / B) (Nat.div_lt_of_lt_mul (by rwa [pow_succ'] at hv))
    refine ⟨⟨v % B :: x.limbs, by simp [x.length_limbs], ?_⟩, ?_⟩
    · intro l hl
      rcases List.mem_cons.mp hl with rfl | hl
      · exact Nat.mod_lt _ hB
      · exact x.limbs_lt l hl
    · change v % B + B * x.toNat = v
      rw [hx]
      exact Nat.mod_add_div v B

/-- Limb-wise sum modulo `Bⁿ`, with the outgoing carry. -/
def add (hB : 0 < B) (x y : Number B n) : Number B n × ℕ :=
  let r := addCarry B x.limbs y.limbs 0
  (⟨r.1, (length_addCarry _ _ (x.length_limbs.trans y.length_limbs.symm) 0).trans x.length_limbs,
    addCarry_lt hB _ _ 0⟩, r.2)

/-- The sum and its carry are exact. -/
lemma toNat_add (hB : 0 < B) (x y : Number B n) :
    (x.add hB y).1.toNat + B ^ n * (x.add hB y).2 = x.toNat + y.toNat := by
  have h := value_addCarry (B := B) x.limbs y.limbs (x.length_limbs.trans y.length_limbs.symm) 0
  rw [x.length_limbs] at h
  exact h

/-- The carry is zero exactly when the sum fits, and then the sum is exact. -/
theorem add_carry_eq_zero_iff (hB : 0 < B) (x y : Number B n) :
    (x.add hB y).2 = 0 ↔ x.toNat + y.toNat < B ^ n := by
  have hsum := toNat_add hB x y
  have hlt := (x.add hB y).1.toNat_lt
  constructor
  · intro h
    rw [h] at hsum
    omega
  · intro h
    by_contra hne
    have := Nat.mul_le_mul_left (B ^ n) (Nat.one_le_iff_ne_zero.mpr hne)
    omega

/-- Add `word` to the limb at `offset`; `none` when the carry leaves the last limb. -/
def addWord (hB : 0 < B) (x : Number B n) (offset word : ℕ) : Option (Number B n) :=
  match h : Limbs.addWord B x.limbs offset word with
  | some rs => some ⟨rs, (addWord_shape hB x.limbs_lt h).1.trans x.length_limbs,
      (addWord_shape hB x.limbs_lt h).2⟩
  | none => none

/-- Adding a word is exact when the sum fits `n` limbs and fails otherwise. -/
theorem addWord_eq_some_iff (hB : 0 < B) {x y : Number B n} {offset word : ℕ} :
    x.addWord hB offset word = some y ↔ y.toNat = x.toNat + word * B ^ offset := by
  obtain ⟨hok, hfail⟩ := addWord_spec hB x.limbs_lt offset word
  rw [x.length_limbs] at hok hfail
  unfold addWord
  split
  · rename_i rs hrs
    have hlt : value B x.limbs + word * B ^ offset < B ^ n := by
      by_contra hge
      rw [hfail (by omega)] at hrs
      cases hrs
    obtain ⟨ts, hts, _, _, hval⟩ := hok hlt
    rw [hrs, Option.some.injEq] at hts
    subst hts
    constructor
    · intro h
      cases h
      exact hval
    · intro h
      exact congrArg some (toNat_injective (hval.trans h.symm))
  · rename_i hnone
    refine ⟨fun h => (by cases h), fun h => ?_⟩
    obtain ⟨ts, hts, _⟩ := hok (h ▸ y.toNat_lt)
    rw [hnone] at hts
    cases hts

end Number

end Limbs
