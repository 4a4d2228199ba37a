import Mathlib

/-!
# Swap chains

The loop `for (k = size; k-- > 1;) swap(v[k], v[k - 1]);` moves every element of a vector one place
towards the end and the last element to the front.

## Main definitions

* `SwapChain.swap` — exchange two neighbouring elements.
* `SwapChain.shift` — the loop.

## Main results

* `SwapChain.shift_concat` — the last element goes to the front of the others.
* `SwapChain.getElem?_shift` — what stands at a place after the loop.
-/

namespace SwapChain

variable {α : Type*}

/-- `swap(v[k + 1], v[k])`. -/
def swap (l : List α) (k : ℕ) : List α :=
  match l[k]?, l[k + 1]? with
  | some a, some b => (l.set k b).set (k + 1) a
  | _, _ => l

/-- The swaps at `k`, `k - 1`, down to `0`. -/
def swapsBelow : ℕ → List α → List α
  | 0, l => l
  | k + 1, l => swapsBelow k (swap l k)

/-- The loop over a whole vector. -/
def shift (l : List α) : List α := swapsBelow (l.length - 1) l

/-- A swap of neighbours behind a front. -/
lemma swap_append (front : List α) (a b : α) (rest : List α) :
    swap (front ++ a :: b :: rest) front.length = front ++ b :: a :: rest := by
  have hfirst : (front ++ a :: b :: rest)[front.length]? = some a := by simp
  have hsecond : (front ++ a :: b :: rest)[front.length + 1]? = some b := by
    rw [List.getElem?_append_right (by omega)]
    simp
  rw [swap, hfirst, hsecond]
  simp only
  rw [List.set_append_right _ _ (by omega), Nat.sub_self, List.set_cons_zero,
    List.set_append_right _ _ (by omega)]
  simp

/-- The swaps below a place carry the element there to the front.  The induction is on the elements
in front of it, from the last. -/
lemma swapsBelow_append (front : List α) (b : α) (rest : List α) :
    swapsBelow front.length (front ++ b :: rest) = b :: (front ++ rest) := by
  induction front using List.reverseRecOn generalizing rest with
  | nil => rfl
  | append_singleton front a ih =>
    rw [List.length_append, List.length_singleton, swapsBelow, List.append_assoc,
      List.singleton_append, swap_append, ih, List.append_assoc, List.singleton_append]

/-- **The last element goes to the front of the others.** -/
theorem shift_concat (l : List α) (a : α) : shift (l ++ [a]) = a :: l := by
  have h := swapsBelow_append l a []
  rw [List.append_nil] at h
  rw [shift, List.length_append, List.length_singleton, Nat.add_sub_cancel]
  exact h

/-- The loop only moves elements. -/
lemma shift_perm (l : List α) : (shift l).Perm l := by
  rcases List.eq_nil_or_concat l with rfl | ⟨l, a, rfl⟩
  · exact List.Perm.refl _
  · rw [List.concat_eq_append, shift_concat]
    exact (List.perm_append_singleton a l).symm

/-- Shifting keeps the number of slots. -/
@[simp] lemma length_shift (l : List α) : (shift l).length = l.length := (shift_perm l).length_eq

/-- **Every place holds what stood in front of it.** -/
theorem getElem?_shift {l : List α} {k : ℕ} (h : k + 1 < l.length) : (shift l)[k + 1]? = l[k]? := by
  rcases List.eq_nil_or_concat l with rfl | ⟨l, a, rfl⟩
  · simp at h
  · rw [List.concat_eq_append] at h ⊢
    rw [List.length_append, List.length_singleton] at h
    rw [shift_concat, List.getElem?_cons_succ, List.getElem?_append_left (by omega)]

end SwapChain
