import Mathlib

/-!
# Mixed-radix ordinals

The digits `x 0, …, x (d-1)` of a number in the mixed radix `r 0, …, r (d-1)`, digit `0` least
significant.  `unrank` peels digits off by the loop `digit = q % r; q /= r`; `rank` is the
Horner form and `rankLoop` the form with a running stride.

## Main definitions

* `MixedRadix.unrank` — the digits of an ordinal.
* `MixedRadix.rank`, `rankLoop` — the ordinal of a digit vector.
* `MixedRadix.digits` — all digit vectors, in ordinal order.
* `MixedRadix.strides` — the weight of every digit.
* `MixedRadix.listValue` — the ordinal of a list of digits, most significant first.

## Main results

* `MixedRadix.unrank_rank`, `rank_unrank` — the two maps are inverse to each other.
* `MixedRadix.mem_digits`, `nodup_digits` — the enumeration visits every digit vector exactly once.
* `MixedRadix.foldl_horner`, `horner_injective` — the Horner loop over a list of digits.
-/

namespace MixedRadix

/-- The digits of the ordinal `q` in the radices `r`, by repeated division. -/
def unrank : {d : ℕ} → (Fin d → ℕ) → ℕ → (Fin d → ℕ)
  | 0, _, _ => Fin.elim0
  | _ + 1, r, q => Fin.cons (q % r 0) (unrank (Fin.tail r) (q / r 0))

/-- The ordinal with digits `x` in the radices `r`. -/
def rank : {d : ℕ} → (Fin d → ℕ) → (Fin d → ℕ) → ℕ
  | 0, _, _ => 0
  | _ + 1, r, x => x 0 + r 0 * rank (Fin.tail r) (Fin.tail x)

/-- The ordinal with digits `x`, accumulated with a running stride. -/
def rankLoop : {d : ℕ} → (Fin d → ℕ) → (Fin d → ℕ) → (linear stride : ℕ) → ℕ
  | 0, _, _, linear, _ => linear
  | _ + 1, r, x, linear, stride =>
    rankLoop (Fin.tail r) (Fin.tail x) (linear + x 0 * stride) (stride * r 0)

/-- The weights of the digits when digit `0` weighs `stride`. -/
def strides : {d : ℕ} → (Fin d → ℕ) → (stride : ℕ) → (Fin d → ℕ)
  | 0, _, _ => Fin.elim0
  | _ + 1, r, stride => Fin.cons stride (strides (Fin.tail r) (stride * r 0))

/-- All digit vectors in the radices `r`, in ordinal order. -/
def digits {d : ℕ} (r : Fin d → ℕ) : List (Fin d → ℕ) :=
  (List.range (∏ a, r a)).map (unrank r)

variable {d : ℕ}

/-- The running-stride loop computes the Horner form. -/
lemma rankLoop_eq (r x : Fin d → ℕ) (linear stride : ℕ) :
    rankLoop r x linear stride = linear + stride * rank r x := by
  induction d generalizing linear stride with
  | zero => simp [rankLoop, rank]
  | succ d ih =>
    simp only [rankLoop, rank, ih]
    ring

/-- The weighted sum of the digits is the ordinal. -/
lemma sum_mul_strides (r x : Fin d → ℕ) (stride : ℕ) :
    ∑ a, x a * strides r stride a = stride * rank r x := by
  induction d generalizing stride with
  | zero => simp [rank]
  | succ d ih =>
    have htail := ih (Fin.tail r) (Fin.tail x) (stride * r 0)
    simp only [Fin.tail] at htail
    simp only [Fin.sum_univ_succ, strides, Fin.cons_zero, Fin.cons_succ, rank]
    rw [htail]
    ring

/-- Every digit is below its radix. -/
lemma unrank_lt {r : Fin d → ℕ} (hr : ∀ a, 0 < r a) (q : ℕ) (a : Fin d) :
    unrank r q a < r a := by
  induction d generalizing q with
  | zero => exact a.elim0
  | succ d ih =>
    refine Fin.cases ?_ (fun b => ?_) a
    · simpa [unrank] using Nat.mod_lt q (hr 0)
    · simp only [unrank, Fin.cons_succ]
      exact ih (r := Fin.tail r) (fun c => hr c.succ) (q / r 0) b

/-- The zero digits have the ordinal zero. -/
@[simp] lemma rank_zero (r : Fin d → ℕ) : rank r 0 = 0 := by
  induction d with
  | zero => rfl
  | succ d ih =>
    have htail : Fin.tail (0 : Fin (d + 1) → ℕ) = 0 := rfl
    simp [rank, htail, ih]

/-- A digit vector below the radices has an ordinal below their product. -/
lemma rank_lt {r x : Fin d → ℕ} (hx : ∀ a, x a < r a) : rank r x < ∏ a, r a := by
  induction d with
  | zero => simp [rank]
  | succ d ih =>
    have htail : rank (Fin.tail r) (Fin.tail x) < ∏ a, Fin.tail r a := ih fun a => hx a.succ
    rw [Fin.prod_univ_succ]
    change x 0 + r 0 * rank (Fin.tail r) (Fin.tail x) < r 0 * ∏ a, Fin.tail r a
    have h0 := hx 0
    calc x 0 + r 0 * rank (Fin.tail r) (Fin.tail x)
        < r 0 * (rank (Fin.tail r) (Fin.tail x) + 1) := by rw [Nat.mul_add]; omega
      _ ≤ r 0 * ∏ a, Fin.tail r a := Nat.mul_le_mul_left _ htail

/-- Decoding an encoded digit vector gives it back. -/
theorem unrank_rank {r x : Fin d → ℕ} (hx : ∀ a, x a < r a) : unrank r (rank r x) = x := by
  induction d with
  | zero => exact funext fun a => a.elim0
  | succ d ih =>
    have h0 := hx 0
    have hmod : rank r x % r 0 = x 0 := by
      simp only [rank]
      rw [Nat.add_mul_mod_self_left, Nat.mod_eq_of_lt h0]
    have hdiv : rank r x / r 0 = rank (Fin.tail r) (Fin.tail x) := by
      simp only [rank]
      rw [Nat.add_mul_div_left _ _ (by omega), Nat.div_eq_of_lt h0, Nat.zero_add]
    have htail : unrank (Fin.tail r) (rank (Fin.tail r) (Fin.tail x)) = Fin.tail x :=
      ih fun a => hx a.succ
    rw [unrank, hmod, hdiv, htail]
    exact Fin.cons_self_tail x

/-- Encoding the digits of an ordinal below the product of the radices gives it back. -/
theorem rank_unrank {r : Fin d → ℕ} {q : ℕ} (hq : q < ∏ a, r a) : rank r (unrank r q) = q := by
  induction d generalizing q with
  | zero =>
    simp only [Finset.univ_eq_empty, Finset.prod_empty] at hq
    simp only [rank]
    omega
  | succ d ih =>
    rw [Fin.prod_univ_succ] at hq
    have hlt : q / r 0 < ∏ a, Fin.tail r a := Nat.div_lt_of_lt_mul hq
    simp only [rank, unrank, Fin.cons_zero, Fin.tail_cons, ih hlt]
    exact Nat.mod_add_div q (r 0)

/-- The enumeration visits exactly the digit vectors below the radices. -/
theorem mem_digits {r x : Fin d → ℕ} : x ∈ digits r ↔ ∀ a, x a < r a := by
  simp only [digits, List.mem_map, List.mem_range]
  constructor
  · rintro ⟨q, hq, rfl⟩
    refine unrank_lt (fun a => Nat.pos_of_ne_zero fun h0 => ?_) q
    rw [Finset.prod_eq_zero (Finset.mem_univ a) h0] at hq
    omega
  · intro hx
    exact ⟨rank r x, rank_lt hx, unrank_rank hx⟩

/-- The enumeration visits no digit vector twice. -/
theorem nodup_digits (r : Fin d → ℕ) : (digits r).Nodup := by
  refine List.Nodup.map_on ?_ List.nodup_range
  intro p hp q hq h
  rw [List.mem_range] at hp hq
  rw [← rank_unrank hp, ← rank_unrank hq, h]

/-! ## Lists of digits -/

/-- The product of the radices of a list of pairs (radix, digit). -/
def radixProduct (ds : List (ℤ × ℤ)) : ℤ := (ds.map Prod.fst).prod

/-- The ordinal of a list of pairs (radix, digit), most significant digit first. -/
def listValue : List (ℤ × ℤ) → ℤ
  | [] => 0
  | (_, x) :: ds => x * radixProduct ds + listValue ds

/-- Every digit is below its radix. -/
def DigitsBelow (ds : List (ℤ × ℤ)) : Prop := ∀ p ∈ ds, 0 ≤ p.2 ∧ p.2 < p.1

/-- The product of a first radix and the others. -/
@[simp] lemma radixProduct_cons (p : ℤ × ℤ) (ds : List (ℤ × ℤ)) :
    radixProduct (p :: ds) = p.1 * radixProduct ds := by
  simp [radixProduct]

/-- The Horner loop, started at `m`. -/
theorem foldl_horner (ds : List (ℤ × ℤ)) (m : ℤ) :
    ds.foldl (fun t p => t * p.1 + p.2) m = m * radixProduct ds + listValue ds := by
  induction ds generalizing m with
  | nil => simp [radixProduct, listValue]
  | cons p ds ih =>
    obtain ⟨r, x⟩ := p
    simp only [List.foldl_cons, ih, radixProduct_cons, listValue]
    ring

/-- The ordinal is below the product of the radices. -/
lemma listValue_bounds {ds : List (ℤ × ℤ)} (h : DigitsBelow ds) :
    0 ≤ listValue ds ∧ listValue ds < radixProduct ds := by
  induction ds with
  | nil => simp [listValue, radixProduct]
  | cons p ds ih =>
    obtain ⟨r, x⟩ := p
    obtain ⟨hx, hr⟩ := h (r, x) (by simp)
    obtain ⟨hlow, hhigh⟩ := ih fun q hq => h q (by simp [hq])
    simp only [listValue, radixProduct_cons]
    simp only at hx hr
    constructor
    · have := mul_nonneg hx (by omega : 0 ≤ radixProduct ds)
      omega
    · have : (x + 1) * radixProduct ds ≤ r * radixProduct ds :=
        mul_le_mul_of_nonneg_right (by omega) (by omega)
      linarith

/-- **The Horner loop is injective** in its start and its digits, for the same radices. -/
theorem horner_injective {ds es : List (ℤ × ℤ)} (hd : DigitsBelow ds) (he : DigitsBelow es)
    (hradix : ds.map Prod.fst = es.map Prod.fst) {m n : ℤ}
    (h : m * radixProduct ds + listValue ds = n * radixProduct es + listValue es) :
    m = n ∧ ds = es := by
  induction ds generalizing es m n with
  | nil =>
    cases es with
    | nil => simpa [radixProduct, listValue] using h
    | cons _ _ => simp at hradix
  | cons p ds ih =>
    cases es with
    | nil => simp at hradix
    | cons q es =>
      obtain ⟨r, x⟩ := p
      obtain ⟨r', y⟩ := q
      simp only [List.map_cons, List.cons.injEq] at hradix
      obtain ⟨rfl, hrest⟩ := hradix
      simp only [radixProduct_cons, listValue] at h
      -- move the leading digit into the start, and split it off again
      have hstep := ih (fun q hq => hd q (by simp [hq])) (fun q hq => he q (by simp [hq])) hrest
        (m := m * r + x) (n := n * r + y) (by linarith)
      obtain ⟨hlead, rfl⟩ := hstep
      obtain ⟨hx, hxr⟩ := hd (r, x) (by simp)
      obtain ⟨hy, hyr⟩ := he (r, y) (by simp)
      simp only at hx hxr hy hyr
      have hm : m = n := by
        have hdiv : (m * r + x) / r = (n * r + y) / r := by rw [hlead]
        rwa [Int.add_comm, Int.add_mul_ediv_right _ _ (by omega), Int.ediv_eq_zero_of_lt hx hxr,
          Int.add_comm (n * r), Int.add_mul_ediv_right _ _ (by omega),
          Int.ediv_eq_zero_of_lt hy hyr, zero_add, zero_add] at hdiv
      subst hm
      have : x = y := by linarith
      exact ⟨rfl, by rw [this]⟩

end MixedRadix
