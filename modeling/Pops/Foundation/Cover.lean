import Mathlib

/-!
# Covers by disjoint finite sets, decided by counting

A list of pairwise disjoint finite sets covers a finite set `s` exactly when the cardinalities
of its traces on `s` add up to the cardinality of `s`.

## Main definitions

* `Cover.union` — the union of a list of finite sets.

## Main results

* `Cover.card_union` — the union of pairwise disjoint sets has the summed cardinality.
* `Cover.sum_card_inter_eq_iff` — coverage of one set is equality of counts.
* `Cover.union_eq_iff_card` — two disjoint families with the same total and the same summed
  pairwise intersections have the same union.
* `Cover.existsUnique_mem` — a point covered by a disjoint family lies in exactly one member.
* `Cover.countP_le_one` — a predicate that determines its points holds at most once.
-/

namespace Cover

variable {α : Type*} [DecidableEq α]

/-- The union of a list of finite sets. -/
def union (l : List (Finset α)) : Finset α := l.foldr (· ∪ ·) ∅

/-- The union of no sets. -/
@[simp] lemma union_nil : union ([] : List (Finset α)) = ∅ := rfl

/-- The union of a first set and the others. -/
@[simp] lemma union_cons (t : Finset α) (l : List (Finset α)) :
    union (t :: l) = t ∪ union l := rfl

/-- A point of the union is a point of some member. -/
@[simp] lemma mem_union {l : List (Finset α)} {x : α} : x ∈ union l ↔ ∃ t ∈ l, x ∈ t := by
  induction l with
  | nil => simp
  | cons t l ih => simp [ih]

/-- A set disjoint from every member is disjoint from the union. -/
lemma disjoint_union {t : Finset α} {l : List (Finset α)} (h : ∀ u ∈ l, Disjoint t u) :
    Disjoint t (union l) := by
  rw [Finset.disjoint_left]
  intro x hx hu
  obtain ⟨u, hul, hxu⟩ := mem_union.mp hu
  exact Finset.disjoint_left.mp (h u hul) hx hxu

/-- The union of pairwise disjoint sets has the summed cardinality. -/
theorem card_union {l : List (Finset α)} (hl : l.Pairwise Disjoint) :
    (union l).card = (l.map Finset.card).sum := by
  induction l with
  | nil => simp
  | cons t l ih =>
    rw [List.pairwise_cons] at hl
    rw [union_cons, Finset.card_union_of_disjoint (disjoint_union hl.1), ih hl.2]
    simp

/-- The traces of pairwise disjoint sets on `s` count the covered part of `s`. -/
lemma sum_card_inter (s : Finset α) {l : List (Finset α)} (hl : l.Pairwise Disjoint) :
    (l.map fun t => (s ∩ t).card).sum = (s ∩ union l).card := by
  induction l with
  | nil => simp
  | cons t l ih =>
    rw [List.pairwise_cons] at hl
    have hdis : Disjoint (s ∩ t) (s ∩ union l) :=
      (disjoint_union hl.1).mono Finset.inter_subset_right Finset.inter_subset_right
    rw [List.map_cons, List.sum_cons, ih hl.2, union_cons, Finset.inter_union_distrib_left,
      Finset.card_union_of_disjoint hdis]

/-- The traces of pairwise disjoint sets on `s` never count more than `s`. -/
lemma sum_card_inter_le (s : Finset α) {l : List (Finset α)} (hl : l.Pairwise Disjoint) :
    (l.map fun t => (s ∩ t).card).sum ≤ s.card := by
  rw [sum_card_inter s hl]
  exact Finset.card_le_card Finset.inter_subset_left

/-- Pairwise disjoint subsets of `s` never count more than `s`. -/
lemma sum_card_le {s : Finset α} {l : List (Finset α)} (hl : l.Pairwise Disjoint)
    (hs : ∀ t ∈ l, t ⊆ s) : (l.map Finset.card).sum ≤ s.card := by
  rw [← card_union hl]
  refine Finset.card_le_card fun x hx => ?_
  obtain ⟨t, ht, hxt⟩ := mem_union.mp hx
  exact hs t ht hxt

/-- Pairwise disjoint sets cover `s` exactly when their traces on `s` count all of `s`. -/
theorem sum_card_inter_eq_iff (s : Finset α) {l : List (Finset α)} (hl : l.Pairwise Disjoint) :
    (l.map fun t => (s ∩ t).card).sum = s.card ↔ ∀ x ∈ s, ∃ t ∈ l, x ∈ t := by
  rw [sum_card_inter s hl]
  constructor
  · intro h x hx
    have heq : s ∩ union l = s := Finset.eq_of_subset_of_card_le Finset.inter_subset_left h.ge
    rw [← heq] at hx
    exact mem_union.mp (Finset.mem_inter.mp hx).2
  · intro h
    congr 1
    exact Finset.inter_eq_left.mpr fun x hx => mem_union.mpr (h x hx)

/-- Two disjoint families have the same union exactly when the cells they share count all of
each of them. -/
theorem union_eq_iff_card {k l : List (Finset α)} (hk : k.Pairwise Disjoint)
    (hl : l.Pairwise Disjoint) :
    union k = union l ↔
      (k.map fun s => (l.map fun t => (s ∩ t).card).sum).sum = (k.map Finset.card).sum ∧
        (k.map fun s => (l.map fun t => (s ∩ t).card).sum).sum = (l.map Finset.card).sum := by
  have hshared : (k.map fun s => (l.map fun t => (s ∩ t).card).sum).sum =
      (union k ∩ union l).card := by
    have hcongr : (k.map fun s => (l.map fun t => (s ∩ t).card).sum) =
        k.map fun s => (union l ∩ s).card :=
      List.map_congr_left fun s _ => by rw [sum_card_inter s hl, Finset.inter_comm]
    rw [hcongr, sum_card_inter (union l) hk, Finset.inter_comm]
  rw [hshared, ← card_union hk, ← card_union hl]
  constructor
  · intro h
    rw [h, Finset.inter_self]
    exact ⟨rfl, rfl⟩
  · rintro ⟨h1, h2⟩
    have hkl : union k ∩ union l = union k :=
      Finset.eq_of_subset_of_card_le Finset.inter_subset_left h1.ge
    have hlk : union k ∩ union l = union l :=
      Finset.eq_of_subset_of_card_le Finset.inter_subset_right h2.ge
    rw [← hkl, hlk]

omit [DecidableEq α] in
/-- A point covered by a pairwise disjoint family lies in exactly one of its members. -/
theorem existsUnique_mem {ι : Type*} {l : List ι} {f : ι → Finset α}
    (hl : (l.map f).Pairwise Disjoint) {x : α} (hx : ∃ a ∈ l, x ∈ f a) :
    ∃! i : Fin l.length, x ∈ f l[i] := by
  obtain ⟨a, ha, hxa⟩ := hx
  obtain ⟨i, hi, rfl⟩ := List.getElem_of_mem ha
  rw [List.pairwise_map, List.pairwise_iff_getElem] at hl
  refine ⟨⟨i, hi⟩, hxa, fun j hxj => Fin.ext ?_⟩
  rcases lt_trichotomy i j.1 with h | h | h
  · exact absurd hxj (Finset.disjoint_left.mp (hl i j.1 hi j.2 h) hxa)
  · exact h.symm
  · exact absurd hxa (Finset.disjoint_left.mp (hl j.1 i j.2 hi h) hxj)

omit [DecidableEq α] in
/-- If every covered point lies in one member only, the family is pairwise disjoint. -/
lemma pairwise_disjoint_of_unique {ι : Type*} {l : List ι} {f : ι → Finset α}
    (h : ∀ a ∈ l, ∀ x ∈ f a, ∃! i : Fin l.length, x ∈ f l[i]) : (l.map f).Pairwise Disjoint := by
  rw [List.pairwise_map, List.pairwise_iff_getElem]
  intro i j hi hj hij
  rw [Finset.disjoint_left]
  intro x hxi hxj
  have hunique : (⟨i, hi⟩ : Fin l.length) = ⟨j, hj⟩ :=
    (h l[i] (List.getElem_mem hi) x hxi).unique hxi hxj
  have := congrArg Fin.val hunique
  simp only at this
  omega

/-! ## Counting points of a list -/

omit [DecidableEq α] in
/-- In a list without repetition a predicate holds at most once when it determines its points. -/
theorem countP_le_one {l : List α} (hl : l.Nodup) {p : α → Bool}
    (h : ∀ a ∈ l, ∀ b ∈ l, p a → p b → a = b) : l.countP p ≤ 1 := by
  rw [List.countP_eq_length_filter]
  by_contra hlt
  have hfilter := hl.filter p
  rw [List.nodup_iff_injective_getElem] at hfilter
  have h0 := List.getElem_mem (l := l.filter p) (n := 0) (by omega)
  have h1 := List.getElem_mem (l := l.filter p) (n := 1) (by omega)
  rw [List.mem_filter] at h0 h1
  have heq := h _ h0.1 _ h1.1 h0.2 h1.2
  have hindex := @hfilter ⟨0, by omega⟩ ⟨1, by omega⟩ heq
  simp at hindex

/-- If every round contributes one point or none, the points are counted by the rounds. -/
lemma countP_flatMap_indicator {ι β : Type*} {l : List ι} {f : ι → List β} {p : β → Bool}
    {q : ι → Bool} (h : ∀ a ∈ l, (f a).countP p = if q a then 1 else 0) :
    (l.flatMap f).countP p = l.countP q := by
  induction l with
  | nil => rfl
  | cons a l ih =>
    rw [List.flatMap_cons, List.countP_append, h a (by simp), ih fun b hb => h b (by simp [hb]),
      List.countP_cons, Nat.add_comm]

end Cover
