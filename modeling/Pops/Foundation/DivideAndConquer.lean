import Mathlib

/-!
# Divide and conquer

A recursion that drops a problem, answers it, splits it into smaller problems, or fails on it.  The
run counts its nodes and lists the answers from left to right; it fails when one of its problems
does.

A problem stands for the set of points `cells a` and an answer for the set `region b`.  What every
split does to these sets decides what the answers of a run are: disjoint when the children of a
split are disjoint, complete when every split keeps the wanted points.

## Main definitions

* `DivideAndConquer.Step` — what is done with a problem.
* `DivideAndConquer.run` — the nodes and the answers of a run with bounded depth.

## Main results

* `DivideAndConquer.run_induction` — the induction rule of a run.
* `DivideAndConquer.run_unique` — a run does not depend on the bound of its depth.
* `DivideAndConquer.answers_spec` — the answers of a run are disjoint, in place and complete.
* `DivideAndConquer.nodes_le`, `sum_nodeBound_le` — the number of nodes when every split leaves
  weight to two children.
-/

namespace DivideAndConquer

universe u

variable {α β : Type u}

/-- What is done with a problem. -/
inductive Step (α β : Type u)
  | drop
  | answer (result : β)
  | split (children : List α)
  | fail

/-- Solve problems one after the other. -/
def runAll (solve : α → Option (ℕ × List β)) : List α → Option (ℕ × List β)
  | [] => some (0, [])
  | a :: rest => do
    let (nodes, answers) ← solve a
    let (others, more) ← runAll solve rest
    some (nodes + others, answers ++ more)

/-- The number of nodes and the answers of a run of at most the given depth. -/
def run (step : α → Step α β) : ℕ → α → Option (ℕ × List β)
  | 0, _ => none
  | depth + 1, a =>
    match step a with
    | .drop => some (1, [])
    | .answer b => some (1, [b])
    | .split children => do
      let (nodes, answers) ← runAll (run step depth) children
      some (1 + nodes, answers)
    | .fail => none

/-- A relation between a problem and its run holds of all problems of a list, with the runs put
together. -/
inductive Together (P : α → ℕ → List β → Prop) : List α → ℕ → List β → Prop
  | nil : Together P [] 0 []
  | cons {a : α} {rest : List α} {nodes others : ℕ} {answers more : List β} :
      P a nodes answers → Together P rest others more →
        Together P (a :: rest) (nodes + others) (answers ++ more)

/-- The runs of a list of problems, put together. -/
lemma together_of_runAll {solve : α → Option (ℕ × List β)} {P : α → ℕ → List β → Prop}
    (hP : ∀ a nodes answers, solve a = some (nodes, answers) → P a nodes answers)
    {children : List α} :
    ∀ {nodes : ℕ} {answers : List β}, runAll solve children = some (nodes, answers) →
      Together P children nodes answers := by
  induction children with
  | nil =>
    intro nodes answers h
    simp only [runAll, Option.some.injEq, Prod.mk.injEq] at h
    obtain ⟨rfl, rfl⟩ := h
    exact .nil
  | cons a rest ih =>
    intro nodes answers h
    simp only [runAll, Option.bind_eq_bind, Option.bind_eq_some_iff, Option.some.injEq,
      Prod.mk.injEq, Prod.exists] at h
    obtain ⟨own, front, hown, others, back, hothers, rfl, rfl⟩ := h
    exact .cons (hP _ _ _ hown) (ih hothers)

variable {step : α → Step α β}

/-- **The induction rule of a run**: a relation that drops, answers and splits establish holds of
every run. -/
theorem run_induction {P : α → ℕ → List β → Prop}
    (hdrop : ∀ a, step a = .drop → P a 1 [])
    (hanswer : ∀ a b, step a = .answer b → P a 1 [b])
    (hsplit : ∀ a children nodes answers, step a = .split children →
      Together P children nodes answers → P a (1 + nodes) answers) {depth : ℕ} :
    ∀ {a : α} {nodes : ℕ} {answers : List β}, run step depth a = some (nodes, answers) →
      P a nodes answers := by
  induction depth with
  | zero => exact fun h => nomatch h
  | succ depth ih =>
    intro a nodes answers h
    unfold run at h
    cases hstep : step a with
    | drop =>
      simp only [hstep, Option.some.injEq, Prod.mk.injEq] at h
      obtain ⟨rfl, rfl⟩ := h
      exact hdrop a hstep
    | answer b =>
      simp only [hstep, Option.some.injEq, Prod.mk.injEq] at h
      obtain ⟨rfl, rfl⟩ := h
      exact hanswer a b hstep
    | split children =>
      simp only [hstep, Option.bind_eq_bind, Option.bind_eq_some_iff, Option.some.injEq,
        Prod.mk.injEq, Prod.exists] at h
      obtain ⟨inner, answers, hinner, rfl, rfl⟩ := h
      exact hsplit a children inner answers hstep
        (together_of_runAll (fun _ _ _ => ih) hinner)
    | fail => simp [hstep] at h

/-! ## The depth -/

/-- More depth does not change a run of a list of problems. -/
lemma runAll_mono {solve other : α → Option (ℕ × List β)}
    (h : ∀ a r, solve a = some r → other a = some r) {children : List α} :
    ∀ {r : ℕ × List β}, runAll solve children = some r → runAll other children = some r := by
  induction children with
  | nil => exact fun h => h
  | cons a rest ih =>
    intro r hr
    simp only [runAll, Option.bind_eq_bind, Option.bind_eq_some_iff, Option.some.injEq,
      Prod.exists] at hr ⊢
    obtain ⟨nodes, answers, ha, others, more, hrest, rfl⟩ := hr
    exact ⟨nodes, answers, h _ _ ha, others, more, ih hrest, rfl⟩

/-- More depth does not change a run. -/
lemma run_mono {depth : ℕ} : ∀ {more : ℕ} {a : α} {r : ℕ × List β}, depth ≤ more →
    run step depth a = some r → run step more a = some r := by
  induction depth with
  | zero => exact fun _ h => nomatch h
  | succ depth ih =>
    intro more a r hle h
    obtain ⟨more, rfl⟩ : ∃ m, more = m + 1 := ⟨more - 1, by omega⟩
    unfold run at h ⊢
    cases hstep : step a with
    | drop => simpa only [hstep] using h
    | answer b => simpa only [hstep] using h
    | split children =>
      simp only [hstep, Option.bind_eq_bind, Option.bind_eq_some_iff, Prod.exists] at h ⊢
      obtain ⟨nodes, answers, hinner, hr⟩ := h
      exact ⟨nodes, answers, runAll_mono (fun _ _ => ih (by omega)) hinner, hr⟩
    | fail => simp [hstep] at h

/-- Two runs of one problem are equal. -/
theorem run_unique {depth other : ℕ} {a : α} {r s : ℕ × List β} (h : run step depth a = some r)
    (h' : run step other a = some s) : r = s :=
  Option.some.inj ((run_mono (le_max_left depth other) h).symm.trans
    (run_mono (le_max_right depth other) h'))

/-! ## Points -/

section Points

variable {ι : Type u} {cells : α → Set ι} {region : β → Set ι} {wanted : Set ι} {Good : β → Prop}

/-- What a run answers: good answers in the cells of the problem, pairwise disjoint, that hold every
wanted point. -/
structure Answered (cells : α → Set ι) (region : β → Set ι) (wanted : Set ι) (Good : β → Prop)
    (a : α) (answers : List β) : Prop where
  good : ∀ b ∈ answers, Good b ∧ region b ⊆ cells a
  disjoint : answers.Pairwise fun b c => Disjoint (region b) (region c)
  complete : ∀ x ∈ wanted, x ∈ cells a → ∃ b ∈ answers, x ∈ region b

/-- What is asked of a step: dropped problems hold no wanted point, answers are good and hold the
wanted points of their problem, and the children of a split are disjoint, in their problem, and hold
its wanted points. -/
structure Sound (step : α → Step α β) (cells : α → Set ι) (region : β → Set ι) (wanted : Set ι)
    (Good : β → Prop) : Prop where
  drop : ∀ a, step a = .drop → ∀ x ∈ wanted, x ∉ cells a
  answer : ∀ a b, step a = .answer b → Good b ∧ region b ⊆ cells a ∧
    ∀ x ∈ wanted, x ∈ cells a → x ∈ region b
  split : ∀ a children, step a = .split children →
    (∀ c ∈ children, cells c ⊆ cells a) ∧
      (children.Pairwise fun b c => Disjoint (cells b) (cells c)) ∧
      ∀ x ∈ wanted, x ∈ cells a → ∃ c ∈ children, x ∈ cells c

/-- The answers to disjoint problems, put together. -/
lemma together_answered {children : List α} {nodes : ℕ} {answers : List β}
    (h : Together (fun a _ answers => Answered cells region wanted Good a answers) children nodes
      answers) (hdisjoint : children.Pairwise fun b c => Disjoint (cells b) (cells c)) :
    (∀ b ∈ answers, Good b ∧ ∃ c ∈ children, region b ⊆ cells c) ∧
      (answers.Pairwise fun b c => Disjoint (region b) (region c)) ∧
      ∀ x ∈ wanted, (∃ c ∈ children, x ∈ cells c) → ∃ b ∈ answers, x ∈ region b := by
  induction h with
  | nil => simp
  | @cons a rest _ _ front back ha _ ih =>
    rw [List.pairwise_cons] at hdisjoint
    obtain ⟨hgood, hpairs, hcomplete⟩ := ih hdisjoint.2
    refine ⟨fun b hb => ?_, ?_, fun x hx hxc => ?_⟩
    · rcases List.mem_append.mp hb with hb | hb
      · exact ⟨(ha.good b hb).1, a, by simp, (ha.good b hb).2⟩
      · obtain ⟨hbGood, c, hc, hbc⟩ := hgood b hb
        exact ⟨hbGood, c, by simp [hc], hbc⟩
    · rw [List.pairwise_append]
      refine ⟨ha.disjoint, hpairs, fun b hb b' hb' => ?_⟩
      obtain ⟨-, c, hc, hbc⟩ := hgood b' hb'
      exact (hdisjoint.1 c hc).mono (ha.good b hb).2 hbc
    · obtain ⟨c, hc, hxc⟩ := hxc
      rcases List.mem_cons.mp hc with rfl | hc
      · obtain ⟨b, hb, hxb⟩ := ha.complete x hx hxc
        exact ⟨b, by simp [hb], hxb⟩
      · obtain ⟨b, hb, hxb⟩ := hcomplete x hx ⟨c, hc, hxc⟩
        exact ⟨b, by simp [hb], hxb⟩

/-- **The answers of a run of sound steps are disjoint, in place and complete.** -/
theorem answers_spec (hsound : Sound step cells region wanted Good) {depth : ℕ} {a : α} {nodes : ℕ}
    {answers : List β} (h : run step depth a = some (nodes, answers)) :
    Answered cells region wanted Good a answers := by
  refine run_induction (P := fun a _ answers => Answered cells region wanted Good a answers)
    (fun a ha => ?_) (fun a b hb => ?_) (fun a children nodes answers hs htogether => ?_) h
  · exact ⟨by simp, List.Pairwise.nil, fun x hx hxa => absurd hxa (hsound.drop a ha x hx)⟩
  · obtain ⟨hgood, hsub, hkeep⟩ := hsound.answer a b hb
    exact ⟨by simp [hgood, hsub], List.pairwise_singleton _ _,
      fun x hx hxa => ⟨b, by simp, hkeep x hx hxa⟩⟩
  · obtain ⟨hsub, hdisjoint, hkeep⟩ := hsound.split a children hs
    obtain ⟨hgood, hpairs, hcomplete⟩ := together_answered htogether hdisjoint
    refine ⟨fun b hb => ?_, hpairs, fun x hx hxa => hcomplete x hx (hkeep x hx hxa)⟩
    obtain ⟨hbGood, c, hc, hbc⟩ := hgood b hb
    exact ⟨hbGood, hbc.trans (hsub c hc)⟩

end Points

/-! ## The number of nodes -/

/-- The runs of several problems cost at most the sum of their costs. -/
lemma together_nodes_le {cost : α → ℕ} {children : List α} {nodes : ℕ} {answers : List β}
    (h : Together (fun a nodes (_ : List β) => nodes ≤ cost a) children nodes answers) :
    nodes ≤ (children.map cost).sum := by
  induction h with
  | nil => simp
  | cons ha _ ih =>
    rw [List.map_cons, List.sum_cons]
    omega

/-- **The number of nodes**: a run visits at most as many nodes as its problem costs, when every
split costs one more than its children. -/
theorem nodes_le {cost : α → ℕ} (hone : ∀ a, 1 ≤ cost a)
    (hsplit : ∀ a children, step a = .split children → 1 + (children.map cost).sum ≤ cost a)
    {depth : ℕ} {a : α} {nodes : ℕ} {answers : List β}
    (h : run step depth a = some (nodes, answers)) : nodes ≤ cost a := by
  refine run_induction (P := fun a nodes (_ : List β) => nodes ≤ cost a)
    (fun a _ => hone a) (fun a b _ => hone a) (fun a children nodes answers hs htogether => ?_) h
  have := together_nodes_le htogether
  have := hsplit a children hs
  omega

/-- The cost of a problem of a weight: one node, and one family of children for every unit of weight
but one. -/
def nodeBound (arity weight : ℕ) : ℕ := 1 + arity * (weight - 1)

/-- The cost of a split of at most `arity` children, at least two of which have weight. -/
theorem sum_nodeBound_le {weight : α → ℕ} {arity total : ℕ} {children : List α}
    (hlength : children.length ≤ arity) (hsum : (children.map weight).sum ≤ total)
    (htwo : 2 ≤ children.countP fun c => 0 < weight c) :
    1 + (children.map fun c => nodeBound arity (weight c)).sum ≤ nodeBound arity total := by
  -- a child with weight saves one unit of it
  have hchildren : ∀ l : List α, (l.map fun c => nodeBound arity (weight c)).sum +
      arity * l.countP (fun c => 0 < weight c) = l.length + arity * (l.map weight).sum := by
    intro l
    induction l with
    | nil => rfl
    | cons a rest ih =>
      rw [List.countP_cons, List.length_cons, List.map_cons, List.sum_cons, List.map_cons,
        List.sum_cons]
      unfold nodeBound at *
      by_cases hpos : 0 < weight a
      · have hweight : arity * (weight a - 1) + arity = arity * weight a := by
          rw [← Nat.mul_succ]
          congr 1
          omega
        simp only [hpos, decide_true, if_true, Nat.mul_add, Nat.mul_one]
        omega
      · have hzero : weight a = 0 := by omega
        simp only [hzero, lt_self_iff_false, decide_false, Bool.false_eq_true, if_false,
          Nat.add_zero, Nat.zero_add, Nat.zero_sub, Nat.mul_zero]
        omega
  have hmul : arity * 2 ≤ arity * children.countP (fun c => 0 < weight c) :=
    Nat.mul_le_mul_left _ htwo
  have hsumMul : arity * (children.map weight).sum ≤ arity * total := Nat.mul_le_mul_left _ hsum
  have := hchildren children
  unfold nodeBound at *
  rw [Nat.mul_sub, Nat.mul_one]
  omega

end DivideAndConquer
