import Mathlib

/-!
# Sequences of writes to a store

A store is a function from addresses to values.  Running a list of writes leaves every address
that is not written as it was; an address whose writes all carry one value ends up with it,
whatever the order of the writes.

## Main definitions

* `Store.writes` — run a list of writes.

## Main results

* `Store.writes_of_notMem` — the frame rule.
* `Store.writes_of_mem` — the value of a written address.
-/

namespace Store

variable {A V : Type*} [DecidableEq A]

/-- Run a list of writes, each an address and a value. -/
def writes (f : A → V) (ws : List (A × V)) : A → V :=
  ws.foldl (fun f w => Function.update f w.1 w.2) f

/-- No writes leave the store. -/
@[simp] lemma writes_nil (f : A → V) : writes f [] = f := rfl

/-- Writes are run one list after the other. -/
lemma writes_append (f : A → V) (ws us : List (A × V)) :
    writes f (ws ++ us) = writes (writes f ws) us :=
  List.foldl_append

/-- A loop that runs a list of writes in every round runs all of them. -/
lemma foldl_writes {ι : Type*} (f : A → V) (l : List ι) (ws : ι → List (A × V)) :
    l.foldl (fun f i => writes f (ws i)) f = writes f (l.flatMap ws) := by
  induction l generalizing f with
  | nil => rfl
  | cons i l ih => rw [List.foldl_cons, ih, List.flatMap_cons, writes_append]

/-- The last write decides its own address only. -/
lemma writes_append_singleton (f : A → V) (ws : List (A × V)) (w : A × V) (a : A) :
    writes f (ws ++ [w]) a = if a = w.1 then w.2 else writes f ws a := by
  rw [writes_append]
  show Function.update (writes f ws) w.1 w.2 a = _
  by_cases h : a = w.1
  · rw [if_pos h, h, Function.update_self]
  · rw [if_neg h, Function.update_of_ne h]

/-- The frame rule: an address that is not written keeps its value. -/
theorem writes_of_notMem (f : A → V) {ws : List (A × V)} {a : A} (h : ∀ w ∈ ws, w.1 ≠ a) :
    writes f ws a = f a := by
  induction ws using List.reverseRecOn with
  | nil => rfl
  | append_singleton ws w ih =>
    rw [writes_append_singleton, if_neg fun ha => h w (by simp) ha.symm]
    exact ih fun u hu => h u (by simp [hu])

/-- An address ends up with the value that every write to it carries. -/
theorem writes_of_mem (f : A → V) {ws : List (A × V)} {a : A} {v : V}
    (hmem : ∃ w ∈ ws, w.1 = a) (hv : ∀ w ∈ ws, w.1 = a → w.2 = v) : writes f ws a = v := by
  induction ws using List.reverseRecOn with
  | nil =>
    obtain ⟨w, hw, _⟩ := hmem
    simp at hw
  | append_singleton ws w ih =>
    rw [writes_append_singleton]
    by_cases ha : a = w.1
    · rw [if_pos ha]
      exact hv w (by simp) ha.symm
    · rw [if_neg ha]
      refine ih ?_ fun u hu => hv u (by simp [hu])
      obtain ⟨u, hu, hua⟩ := hmem
      rcases List.mem_append.mp hu with hu | hu
      · exact ⟨u, hu, hua⟩
      · rw [List.mem_singleton] at hu
        exact absurd (hu ▸ hua).symm ha

end Store
