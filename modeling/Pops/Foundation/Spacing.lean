import Mathlib

/-!
# Gaps of an increasing list

The gaps between neighbours of a list add up to the distance of its ends, so the largest gap is at
least the distance over the number of gaps.

## Main definitions

* `Spacing.gaps`, `largestGap` — the distances of neighbours, and the largest of them.

## Main results

* `Spacing.span_le` — the ends are at most the number of gaps times the largest gap apart.
* `Spacing.span_le_sort` — the same for a set of integers that contains both ends.
-/

namespace Spacing

/-- The distances of neighbours. -/
def gaps : List ℤ → List ℤ
  | [] => []
  | [_] => []
  | a :: b :: l => (b - a) :: gaps (b :: l)

/-- The largest distance of neighbours. -/
def largestGap (l : List ℤ) : ℤ := (gaps l).foldr max 0

/-- A gap is at most the largest one. -/
lemma le_largestGap {l : List ℤ} {gap : ℤ} (h : gap ∈ gaps l) : gap ≤ largestGap l := by
  unfold largestGap
  generalize gaps l = g at h
  induction g with
  | nil => cases h
  | cons first rest ih =>
    rcases List.mem_cons.mp h with rfl | h
    · exact le_max_left _ _
    · exact (ih h).trans (le_max_right _ _)

/-- The largest gap is not negative. -/
lemma largestGap_nonneg (l : List ℤ) : 0 ≤ largestGap l := by
  unfold largestGap
  induction gaps l with
  | nil => exact le_rfl
  | cons first rest ih => exact ih.trans (le_max_right _ _)

/-- A bound of all gaps bounds the largest one. -/
lemma largestGap_le {l : List ℤ} {bound : ℤ} (hbound : 0 ≤ bound)
    (h : ∀ gap ∈ gaps l, gap ≤ bound) : largestGap l ≤ bound := by
  unfold largestGap
  generalize gaps l = g at h
  induction g with
  | nil => exact hbound
  | cons first rest ih =>
    exact max_le (h first (by simp)) (ih fun gap hgap => h gap (by simp [hgap]))

/-- The gaps of a list that is given by a function of the position. -/
lemma mem_gaps_map {f : ℕ → ℤ} : ∀ {n start : ℕ} {gap : ℤ},
    gap ∈ gaps ((List.range' start n).map f) → ∃ i, start ≤ i ∧ i + 1 < start + n ∧
      gap = f (i + 1) - f i
  | 0, _, _, h => by cases h
  | 1, _, _, h => by cases h
  | n + 2, start, gap, h => by
    rw [List.range'_succ, List.range'_succ, List.map_cons, List.map_cons, gaps,
      List.mem_cons] at h
    rcases h with rfl | h
    · exact ⟨start, le_rfl, by omega, rfl⟩
    · rw [← List.map_cons, ← List.range'_succ] at h
      obtain ⟨i, hi, hend, rfl⟩ := mem_gaps_map h
      exact ⟨i, by omega, by omega, rfl⟩

/-- From the first element to any other it is at most the number of gaps times the largest gap. -/
lemma span_le_of_gaps {bound : ℤ} : ∀ {l : List ℤ} {a : ℤ},
    (∀ gap ∈ gaps (a :: l), 0 ≤ gap ∧ gap ≤ bound) → ∀ x ∈ a :: l, x - a ≤ l.length * bound
  | [], a, _, x, hx => by
    rw [List.mem_singleton.mp hx]
    simp
  | b :: l, a, h, x, hx => by
    have hab := h (b - a) (by simp [gaps])
    have hrest := @span_le_of_gaps bound l b fun gap hgap => h gap (by simp [gaps, hgap])
    have hnonneg : 0 ≤ (l.length : ℤ) * bound :=
      mul_nonneg (Int.natCast_nonneg _) (hab.1.trans hab.2)
    rw [List.length_cons]
    push_cast
    rw [add_mul, one_mul]
    rcases List.mem_cons.mp hx with rfl | hx
    · omega
    · have := hrest x hx
      omega

/-- The gaps of an increasing list are positive. -/
lemma gaps_pos : ∀ {l : List ℤ}, l.Pairwise (· < ·) → ∀ gap ∈ gaps l, 0 < gap
  | [], _, _, h => by cases h
  | [_], _, _, h => by cases h
  | a :: b :: l, hl, gap, h => by
    rw [gaps, List.mem_cons] at h
    rcases h with rfl | h
    · have := List.rel_of_pairwise_cons hl (List.mem_cons_self ..)
      omega
    · exact gaps_pos hl.of_cons gap h

/-- The ends of an increasing list are at most the number of its gaps times the largest gap apart.
-/
theorem span_le {l : List ℤ} (hl : l.Pairwise (· < ·)) {x y : ℤ} (hx : x ∈ l) (hy : y ∈ l)
    (hfirst : ∀ z ∈ l, x ≤ z) : y - x ≤ (l.length - 1 : ℤ) * largestGap l := by
  cases l with
  | nil => cases hx
  | cons a rest =>
    have hax : a = x := by
      have hxa := hfirst a (by simp)
      rcases List.mem_cons.mp hx with rfl | hx
      · rfl
      · have := List.rel_of_pairwise_cons hl hx
        omega
    subst hax
    have h := span_le_of_gaps (fun gap hgap => ⟨(gaps_pos hl gap hgap).le, le_largestGap hgap⟩) y hy
    rw [List.length_cons]
    push_cast
    rw [add_sub_cancel_right]
    exact h

/-- The same for a set of integers. -/
theorem span_le_sort {s : Finset ℤ} {x y : ℤ} (hx : x ∈ s) (hy : y ∈ s)
    (hfirst : ∀ z ∈ s, x ≤ z) : y - x ≤ (s.card - 1 : ℤ) * largestGap (s.sort (· ≤ ·)) := by
  have h := span_le s.sortedLT_sort.pairwise ((Finset.mem_sort _).mpr hx)
    ((Finset.mem_sort _).mpr hy) fun z hz => hfirst z ((Finset.mem_sort _).mp hz)
  rwa [Finset.length_sort] at h

end Spacing
