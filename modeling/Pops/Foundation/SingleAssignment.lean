import Mathlib

/-!
# Lists of single assignments

A list of definitions gives a value to one name each.  When no name is defined twice and every
definition reads names of earlier definitions only, the environment that is left at the end
satisfies the equation of every definition.

## Main definitions

* `SingleAssignment.run` — evaluates the definitions in their order.
* `SingleAssignment.Ordered` — no name is defined twice, or read before it is defined.

## Main results

* `SingleAssignment.run_eq` — the final environment satisfies every definition.
-/

namespace SingleAssignment

variable {ι α V : Type*} [DecidableEq ι] (name : α → ι) (reads : α → List ι)
  (meaning : (ι → V) → α → V)

/-- The environment after the definitions of a list. -/
def run : List α → (ι → V) → ι → V
  | [], env => env
  | a :: l, env => run l (Function.update env (name a) (meaning env a))

/-- No name is defined twice, and no definition reads its own name or the name of a later one. -/
def Ordered : List α → Prop
  | [] => True
  | a :: l => name a ∉ l.map name ∧ (∀ i ∈ reads a, i ∉ (a :: l).map name) ∧ Ordered l

variable {name reads meaning}

/-- Names that are not defined keep their values. -/
lemma run_of_notMem {i : ι} : ∀ {l : List α} {env : ι → V}, i ∉ l.map name →
    run name meaning l env i = env i
  | [], _, _ => rfl
  | a :: l, env, h => by
    rw [List.map_cons, List.mem_cons, not_or] at h
    rw [run, run_of_notMem h.2, Function.update_of_ne h.1]

/-- The final environment satisfies every definition.

**Proof sketch.** By induction on the list: later definitions change neither the name of the first
one nor the names that it reads. -/
theorem run_eq
    (hlocal : ∀ a env env', (∀ i ∈ reads a, env i = env' i) → meaning env a = meaning env' a) :
    ∀ {l : List α} (env : ι → V), Ordered name reads l → ∀ a ∈ l,
      run name meaning l env (name a) = meaning (run name meaning l env) a
  | [], _, _, a, ha => by simp at ha
  | first :: l, env, ⟨hname, hreads, hl⟩, a, ha => by
    rcases List.mem_cons.mp ha with rfl | hmem
    · rw [run, run_of_notMem hname, Function.update_self]
      refine hlocal a _ _ fun i hi => ?_
      have hi' := hreads i hi
      rw [List.map_cons, List.mem_cons, not_or] at hi'
      rw [run_of_notMem hi'.2, Function.update_of_ne hi'.1]
    · exact run_eq hlocal _ hl a hmem

end SingleAssignment
