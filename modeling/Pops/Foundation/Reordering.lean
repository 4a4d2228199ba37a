import Mathlib

/-!
# Reordering of steps

Two orders of the same steps lead to the same state when every two steps that change their order
commute.  Which steps change their order is told by sublists of two elements: `[a, b]` is a sublist
of a list when `a` stands before `b` in it.

## Main results

* `Reordering.foldl_eq_of_inverted` — a reordering where inverted steps commute.
* `Reordering.pair_sublist_flatMap` — what stands before what in a concatenation.
* `Reordering.pair_sublist_iff` — what stands before what, by positions.
-/

namespace Reordering

variable {α β σ : Type*}

/-- A step that commutes with a list of steps may come first. -/
lemma foldl_bubble {f : σ → α → σ} {b : α} :
    ∀ {front : List α}, (∀ a ∈ front, ∀ s, f (f s a) b = f (f s b) a) →
      ∀ s, f (front.foldl f s) b = front.foldl f (f s b)
  | [], _, _ => rfl
  | a :: front, h, s => by
    rw [List.foldl_cons, List.foldl_cons, foldl_bubble (fun a' ha' => h a' (by simp [ha'])),
      h a List.mem_cons_self]

/-- **Two orders of the same steps, where steps in a different order commute, lead to the same
state.**

**Proof sketch.** Induction on the second order.  Its first step commutes with everything that
stands in front of it in the first order. -/
theorem foldl_eq_of_inverted {f : σ → α → σ} :
    ∀ {l' l : List α}, l.Perm l' →
      (∀ a b, [a, b].Sublist l → [b, a].Sublist l' → ∀ s, f (f s a) b = f (f s b) a) →
      ∀ s, l.foldl f s = l'.foldl f s
  | [], l, hperm, _, s => by rw [hperm.eq_nil]
  | b :: l', l, hperm, hinverted, s => by
    obtain ⟨front, back, rfl⟩ := List.append_of_mem (hperm.symm.subset List.mem_cons_self)
    have hrest : (front ++ back).Perm l' :=
      List.Perm.cons_inv (List.perm_middle.symm.trans hperm)
    have hbubble : ∀ a ∈ front, ∀ s, f (f s a) b = f (f s b) a := by
      intro a ha
      refine hinverted a b ?_ ?_
      · have h := (List.singleton_sublist.mpr ha).append
          (List.singleton_sublist.mpr (List.mem_cons_self (a := b) (l := back)))
        simpa using h
      · exact List.Sublist.cons_cons b (List.singleton_sublist.mpr
          (hrest.subset (List.mem_append_left _ ha)))
    have htail : (front ++ back).Sublist (front ++ b :: back) :=
      (List.sublist_cons_self b back).append_left front
    calc (front ++ b :: back).foldl f s
        = back.foldl f (f (front.foldl f s) b) := by rw [List.foldl_append, List.foldl_cons]
      _ = (front ++ back).foldl f (f s b) := by rw [foldl_bubble hbubble, List.foldl_append]
      _ = l'.foldl f (f s b) := foldl_eq_of_inverted hrest
          (fun a c hac hca => hinverted a c (hac.trans htail) (hca.cons b)) _
      _ = (b :: l').foldl f s := rfl

/-- What stands before what in a concatenation: both come from one part, or from two parts in this
order. -/
theorem pair_sublist_flatMap {f : β → List α} {a b : α} :
    ∀ {l : List β}, [a, b].Sublist (l.flatMap f) →
      (∃ i ∈ l, [a, b].Sublist (f i)) ∨ ∃ i j, [i, j].Sublist l ∧ a ∈ f i ∧ b ∈ f j
  | [], h => by simp at h
  | i :: l, h => by
    rw [List.flatMap_cons, List.sublist_append_iff] at h
    obtain ⟨left, right, heq, hleft, hright⟩ := h
    match left, right, heq with
    | [], _, rfl =>
      rcases pair_sublist_flatMap hright with ⟨j, hj, hpair⟩ | ⟨j, k, hjk, hmem⟩
      · exact .inl ⟨j, List.mem_cons_of_mem i hj, hpair⟩
      · exact .inr ⟨j, k, hjk.cons i, hmem⟩
    | [_], [_], rfl =>
      obtain ⟨j, hj, hb⟩ := List.mem_flatMap.mp (List.singleton_sublist.mp hright)
      exact .inr ⟨i, j, List.Sublist.cons_cons i (List.singleton_sublist.mpr hj),
        List.singleton_sublist.mp hleft, hb⟩
    | [_, _], [], rfl => exact .inl ⟨i, List.mem_cons_self, hleft⟩

/-- What stands before what, by positions. -/
theorem pair_sublist_iff {a b : α} {l : List α} :
    [a, b].Sublist l ↔ ∃ i j : ℕ, i < j ∧ l[i]? = some a ∧ l[j]? = some b := by
  refine ⟨fun h => ?_, ?_⟩
  · induction l with
    | nil => simp at h
    | cons c l ih =>
      cases h with
      | cons _ h =>
        obtain ⟨i, j, hij, hi, hj⟩ := ih h
        exact ⟨i + 1, j + 1, by omega, by simpa using hi, by simpa using hj⟩
      | cons_cons _ h =>
        obtain ⟨j, hj⟩ := List.mem_iff_getElem?.mp (List.singleton_sublist.mp h)
        exact ⟨0, j + 1, by omega, by simp, by simpa using hj⟩
  · rintro ⟨i, j, hij, hi, hj⟩
    have hback : b ∈ l.drop (i + 1) :=
      List.mem_of_getElem? (i := j - (i + 1)) (by rw [List.getElem?_drop, ← hj]; congr 1; omega)
    have hfront : a ∈ l.take (i + 1) :=
      List.mem_of_getElem? (i := i) (by rw [List.getElem?_take_of_lt (by omega), hi])
    have h := (List.singleton_sublist.mpr hfront).append (List.singleton_sublist.mpr hback)
    rwa [List.take_append_drop, List.singleton_append] at h

/-- Two elements of a list stand in one order or the other. -/
lemma pair_sublist_or {a b : α} (hab : a ≠ b) {l : List α} (ha : a ∈ l) (hb : b ∈ l) :
    [a, b].Sublist l ∨ [b, a].Sublist l := by
  obtain ⟨i, hi⟩ := List.mem_iff_getElem?.mp ha
  obtain ⟨j, hj⟩ := List.mem_iff_getElem?.mp hb
  rcases lt_trichotomy i j with hij | rfl | hij
  · exact .inl (pair_sublist_iff.mpr ⟨i, j, hij, hi, hj⟩)
  · exact absurd (Option.some.inj (hi.symm.trans hj)) hab
  · exact .inr (pair_sublist_iff.mpr ⟨j, i, hij, hj, hi⟩)

end Reordering
