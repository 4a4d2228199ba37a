import Mathlib

/-!
# Ordered trees in postfix notation

A tree whose labels have a fixed arity is written in postfix notation: the arguments from left
to right, then the label.  A machine with a bounded stack reads such a word from left to right;
at a label it pops as many values as the arity says, combines them and pushes the result.

## Main definitions

* `Pops.Tree`, `Tree.flatten` — ordered trees and their postfix words.
* `Pops.Tree.Ranked` — every label has as many arguments as its arity says.
* `Pops.Tree.fold` — the bottom-up evaluation of a tree.
* `Pops.Tree.need` — the height of stack at which the word of a tree can be read.
* `Pops.StackMachine`, `StackMachine.run` — a machine with a bounded stack.

## Main results

* `Pops.StackMachine.run_flatten` — on the word of a ranked tree the machine pushes the value of
  the tree, and it does so exactly when the tree has a value and the stack has the room.
* `Pops.StackMachine.run_parses` — every word that the machine reads spells a list of ranked
  trees.
* `Pops.Tree.flatten_injective` — a word spells at most one ranked tree.
* `Pops.StackMachine.length_step` — the height of the stack after one label.
-/

universe u v w

namespace Pops

/-- An ordered tree: a label and its arguments. -/
inductive Tree (α : Type u)
  | node (label : α) (args : List (Tree α))

namespace Tree

variable {α : Type u} {β : Type v}

/-- Induction on an ordered tree. -/
theorem induction {motive : Tree α → Prop}
    (node : ∀ a ts, (∀ t ∈ ts, motive t) → motive (node a ts)) (t : Tree α) : motive t := by
  refine @Tree.rec α motive (fun ts => ∀ t ∈ ts, motive t) node ?_ ?_ t
  · intro t ht
    cases ht
  · intro head tail hhead htail t ht
    rcases List.mem_cons.mp ht with rfl | ht
    · exact hhead
    · exact htail t ht

mutual
/-- The postfix word of a tree: the words of its arguments, then its label. -/
def flatten : Tree α → List α
  | .node a ts => flattenAll ts ++ [a]

/-- The postfix words of a list of trees, one after the other. -/
def flattenAll : List (Tree α) → List α
  | [] => []
  | t :: ts => flatten t ++ flattenAll ts
end

mutual
/-- The bottom-up evaluation of a tree by a partial function of a label and the values of its
arguments. -/
def fold (combine : α → List β → Option β) : Tree α → Option β
  | .node a ts => (foldAll combine ts).bind (combine a)

/-- The values of a list of trees, if all of them have one. -/
def foldAll (combine : α → List β → Option β) : List (Tree α) → Option (List β)
  | [] => some []
  | t :: ts => (fold combine t).bind fun b => (foldAll combine ts).map (b :: ·)
end

mutual
/-- The height of stack at which the word of a tree can be read: argument `i` is read on top of
the `i` values of the arguments before it. -/
def need : Tree α → ℕ
  | .node _ ts => needFrom 0 ts

/-- The height needed for a list of arguments on top of `k` values. -/
def needFrom : ℕ → List (Tree α) → ℕ
  | _, [] => 1
  | k, t :: ts => max (k + need t) (needFrom (k + 1) ts)
end

mutual
/-- The number of labels on a longest branch. -/
def depth : Tree α → ℕ
  | .node _ ts => depthAll ts + 1

/-- The greatest depth of a list of trees. -/
def depthAll : List (Tree α) → ℕ
  | [] => 0
  | t :: ts => max (depth t) (depthAll ts)
end

/-- Every label of the tree has as many arguments as its arity says. -/
inductive Ranked (arity : α → ℕ) : Tree α → Prop
  | node {a : α} {ts : List (Tree α)} (hlength : ts.length = arity a)
      (hargs : ∀ t ∈ ts, Ranked arity t) : Ranked arity (.node a ts)

/-- The words of two lists of trees stand one after the other. -/
@[simp] lemma flattenAll_append (ts us : List (Tree α)) :
    flattenAll (ts ++ us) = flattenAll ts ++ flattenAll us := by
  induction ts with
  | nil => simp [flattenAll]
  | cons t ts ih => simp [flattenAll, ih]

/-- Reading a tree needs room for its value. -/
lemma one_le_needFrom (ts : List (Tree α)) : ∀ k, 1 ≤ needFrom k ts := by
  induction ts with
  | nil => intro k; simp [needFrom]
  | cons t ts ih =>
    intro k
    have := ih (k + 1)
    simp only [needFrom]
    omega

/-- The values of trees whose values are known. -/
lemma foldAll_eq_map {combine : α → List β → Option β} {g : Tree α → β} {ts : List (Tree α)}
    (h : ∀ t ∈ ts, fold combine t = some (g t)) : foldAll combine ts = some (ts.map g) := by
  induction ts with
  | nil => rfl
  | cons t ts ih => simp [foldAll, h t (by simp), ih fun s hs => h s (by simp [hs])]

/-- Building the tree back out of its own nodes. -/
lemma fold_node (t : Tree α) : fold (fun a ts => some (node a ts)) t = some t := by
  induction t using Tree.induction with
  | node a ts ih => simp [fold, foldAll_eq_map (g := id) ih]

end Tree

/-- A machine that reads labels with a stack of values: how many values a label takes, the value
that it makes of them, and the greatest height of the stack. -/
structure StackMachine (α : Type u) (β : Type v) where
  /-- The number of values that a label takes from the stack. -/
  arity : α → ℕ
  /-- The value of a label at its arguments, first argument first. -/
  combine : α → List β → Option β
  /-- The greatest height of the stack. -/
  limit : ℕ

namespace StackMachine

variable {α : Type u} {β : Type v} (M : StackMachine α β)

/-- One label: the arguments are taken from the top of the stack (its head), last argument
first, and their combination is pushed. -/
def step (stack : List β) (a : α) : Option (List β) :=
  if M.arity a ≤ stack.length ∧ stack.length - M.arity a < M.limit then
    (M.combine a (stack.take (M.arity a)).reverse).map (· :: stack.drop (M.arity a))
  else none

/-- A whole word. -/
def run (stack : List β) (word : List α) : Option (List β) := word.foldlM M.step stack

/-- The empty word leaves the stack. -/
@[simp] lemma run_nil (stack : List β) : M.run stack [] = some stack := rfl

/-- A word is run symbol by symbol. -/
@[simp] lemma run_cons (stack : List β) (a : α) (word : List α) :
    M.run stack (a :: word) = (M.step stack a).bind fun s => M.run s word := rfl

/-- Two words one after the other run one after the other. -/
@[simp] lemma run_append (stack : List β) (w₁ w₂ : List α) :
    M.run stack (w₁ ++ w₂) = (M.run stack w₁).bind fun s => M.run s w₂ := by
  simp [run, List.foldlM_append]

/-- What a step that succeeds has done. -/
lemma step_eq_some {stack stack' : List β} {a : α} :
    M.step stack a = some stack' ↔
      M.arity a ≤ stack.length ∧ stack.length - M.arity a < M.limit ∧
        ∃ b, M.combine a (stack.take (M.arity a)).reverse = some b ∧
          stack' = b :: stack.drop (M.arity a) := by
  unfold step
  split_ifs with h
  · simp [h, eq_comm]
  · simp only [false_iff]
    rintro ⟨h₁, h₂, -⟩
    exact h ⟨h₁, h₂⟩

/-- A step on a stack whose top holds exactly the arguments of the label. -/
lemma step_args {stack : List β} {a : α} {bs : List β} (hbs : bs.length = M.arity a)
    {stack' : List β} :
    M.step (bs.reverse ++ stack) a = some stack' ↔
      stack.length < M.limit ∧ ∃ b, M.combine a bs = some b ∧ stack' = b :: stack := by
  have htake : ((bs.reverse ++ stack).take (M.arity a)).reverse = bs := by
    rw [List.take_append_of_le_length (by simp [hbs]), List.take_of_length_le (by simp [hbs]),
      List.reverse_reverse]
  have hdrop : (bs.reverse ++ stack).drop (M.arity a) = stack := by
    rw [← hbs, ← List.length_reverse, List.drop_left]
  rw [step_eq_some, htake, hdrop]
  simp only [List.length_append, List.length_reverse]
  constructor
  · rintro ⟨-, h, hb⟩
    exact ⟨by omega, hb⟩
  · rintro ⟨h, hb⟩
    exact ⟨by omega, by omega, hb⟩

/-- The list form of `run_flatten`, for arguments that satisfy it.

**Proof sketch.**  Induction on the list.  The word of the first tree pushes its value; the rest
is read on a stack that is one higher, which is what the offset of `needFrom` counts. -/
theorem run_flattenAll {ts : List (Tree α)} {stack' : List β} {m : ℕ} (hm : m < M.limit)
    (hargs : ∀ t ∈ ts, ∀ stack stack' : List β, M.run stack t.flatten = some stack' ↔
      ∃ b, t.fold M.combine = some b ∧ stack.length + t.need ≤ M.limit ∧ stack' = b :: stack) :
    ∀ stack : List β, ∀ k, k + m = stack.length →
      (M.run stack (Tree.flattenAll ts) = some stack' ↔
        ∃ bs, Tree.foldAll M.combine ts = some bs ∧ m + Tree.needFrom k ts ≤ M.limit ∧
          stack' = bs.reverse ++ stack) := by
  induction ts with
  | nil =>
    intro stack k hk
    simp only [Tree.flattenAll, Tree.foldAll, Tree.needFrom, run_nil, Option.some.injEq]
    constructor
    · rintro rfl
      exact ⟨[], rfl, hm, rfl⟩
    · rintro ⟨bs, rfl, -, rfl⟩
      rfl
  | cons t ts ih =>
    intro stack k hk
    have iht := hargs t (by simp)
    have ihts := ih fun t ht => hargs t (by simp [ht])
    simp only [Tree.flattenAll, Tree.foldAll, Tree.needFrom, run_append]
    constructor
    · intro h
      obtain ⟨s, hs, hrest⟩ := Option.bind_eq_some_iff.mp h
      obtain ⟨b, hb, hroom, rfl⟩ := (iht stack s).mp hs
      obtain ⟨bs, hbs, hneed, rfl⟩ := (ihts (b :: stack) (k + 1) (by simp; omega)).mp hrest
      refine ⟨b :: bs, by simp [hb, hbs], ?_, by simp⟩
      omega
    · rintro ⟨bs, hfold, hneed, rfl⟩
      obtain ⟨b, hb, hbs⟩ := Option.bind_eq_some_iff.mp hfold
      obtain ⟨cs, hcs, rfl⟩ := Option.map_eq_some_iff.mp hbs
      have hhead : M.run stack t.flatten = some (b :: stack) :=
        (iht stack _).mpr ⟨b, hb, by omega, rfl⟩
      have htail : M.run (b :: stack) (Tree.flattenAll ts) = some ((b :: cs).reverse ++ stack) :=
        (ihts (b :: stack) (k + 1) (by simp; omega)).mpr ⟨cs, hcs, by omega, by simp⟩
      simp [hhead, htail]

/-- As many values as trees. -/
lemma length_foldAll {ts : List (Tree α)} : ∀ {bs : List β},
    Tree.foldAll M.combine ts = some bs → bs.length = ts.length := by
  induction ts with
  | nil =>
    intro bs h
    simp only [Tree.foldAll, Option.some.injEq] at h
    simp [← h]
  | cons t ts ih =>
    intro bs h
    obtain ⟨b, -, hbs⟩ := Option.bind_eq_some_iff.mp h
    obtain ⟨cs, hcs, rfl⟩ := Option.map_eq_some_iff.mp hbs
    simp [ih hcs]

/-- **A machine reads the word of a tree as the tree**: it pushes the value of the tree, and it
succeeds exactly when the tree has a value and the stack has room for reading it.

**Proof sketch.**  Induction on the tree.  The arguments push their values (`run_flattenAll`),
which the label then finds on top of the stack (`step_args`). -/
theorem run_flatten {t : Tree α} (ht : t.Ranked M.arity) (stack stack' : List β) :
    M.run stack t.flatten = some stack' ↔
      ∃ b, t.fold M.combine = some b ∧ stack.length + t.need ≤ M.limit ∧
        stack' = b :: stack := by
  induction t using Tree.induction generalizing stack stack' with
  | node a ts ih =>
    obtain ⟨hlength, hranked⟩ := ht
    have hargs := fun t ht => ih t ht (hranked t ht)
    have hone := Tree.one_le_needFrom ts 0
    simp only [Tree.flatten, Tree.fold, Tree.need, run_append, run_cons, run_nil]
    constructor
    · intro h
      obtain ⟨s, hs, hstep⟩ := Option.bind_eq_some_iff.mp h
      obtain ⟨s', hstep, hs'⟩ := Option.bind_eq_some_iff.mp hstep
      cases hs'
      -- the stack has room for one more value, whether or not the label has arguments
      have hroom : stack.length < M.limit := by
        cases ts with
        | nil =>
          cases hs
          have := ((M.step_eq_some).mp hstep).2.1
          simp only [List.length_nil] at hlength
          omega
        | cons t ts =>
          obtain ⟨s₁, hs₁, -⟩ := Option.bind_eq_some_iff.mp ((M.run_append _ _ _).symm.trans hs)
          obtain ⟨-, -, hneed, -⟩ := (hargs t (by simp) stack s₁).mp hs₁
          have : 1 ≤ t.need := by
            cases t with
            | node b us => exact Tree.one_le_needFrom us 0
          omega
      obtain ⟨bs, hbs, hneed, rfl⟩ :=
        (M.run_flattenAll hroom hargs stack 0 (by simp)).mp hs
      obtain ⟨-, b, hb, rfl⟩ := (M.step_args ((M.length_foldAll hbs).trans hlength)).mp hstep
      exact ⟨b, by simp [hbs, hb], hneed, rfl⟩
    · rintro ⟨b, hfold, hneed, rfl⟩
      obtain ⟨bs, hbs, hb⟩ := Option.bind_eq_some_iff.mp hfold
      have hs : M.run stack (Tree.flattenAll ts) = some (bs.reverse ++ stack) :=
        (M.run_flattenAll (by omega) hargs stack 0 (by simp)).mpr ⟨bs, hbs, hneed, rfl⟩
      have hstep : M.step (bs.reverse ++ stack) a = some (b :: stack) :=
        (M.step_args ((M.length_foldAll hbs).trans hlength)).mpr ⟨by omega, b, hb, rfl⟩
      simp [hs, hstep]

/-- **Every word that a machine reads spells ranked trees**, one for each value left on the
stack.

**Proof sketch.**  Induction on the word from its end.  The last label takes the trees of its
arguments, which are the last ones of the list that spells the word before it. -/
theorem run_parses (word : List α) : ∀ {stack : List β}, M.run [] word = some stack →
    ∃ ts : List (Tree α), ts.length = stack.length ∧ (∀ t ∈ ts, t.Ranked M.arity) ∧
      Tree.flattenAll ts = word := by
  induction word using List.reverseRecOn with
  | nil =>
    intro stack h
    cases h
    exact ⟨[], rfl, by simp, rfl⟩
  | append_singleton word a ih =>
    intro stack h
    rw [run_append] at h
    obtain ⟨s, hs, hstep⟩ := Option.bind_eq_some_iff.mp h
    obtain ⟨s', hstep, hs'⟩ := Option.bind_eq_some_iff.mp hstep
    cases hs'
    obtain ⟨harity, -, b, -, rfl⟩ := M.step_eq_some.mp hstep
    obtain ⟨ts, hlength, hranked, hword⟩ := ih hs
    set n := ts.length - M.arity a with hn
    refine ⟨ts.take n ++ [.node a (ts.drop n)], ?_, ?_, ?_⟩
    · simp only [List.length_append, List.length_take, List.length_cons, List.length_nil,
        List.length_drop]
      omega
    · intro t ht
      rcases List.mem_append.mp ht with ht | ht
      · exact hranked t (List.mem_of_mem_take ht)
      · obtain rfl := List.mem_singleton.mp ht
        refine .node ?_ fun u hu => hranked u (List.mem_of_mem_drop hu)
        simp only [List.length_drop]
        omega
    · simp only [Tree.flattenAll_append, Tree.flattenAll, Tree.flatten, List.append_nil]
      rw [← List.append_assoc, ← Tree.flattenAll_append, List.take_append_drop, hword]

/-- A step leaves the stack within the limit. -/
theorem length_step {stack stack' : List β} {a : α} (h : M.step stack a = some stack') :
    stack'.length = stack.length - M.arity a + 1 ∧ stack'.length ≤ M.limit := by
  obtain ⟨-, hlimit, b, -, rfl⟩ := M.step_eq_some.mp h
  have hlength : (b :: stack.drop (M.arity a)).length = stack.length - M.arity a + 1 := by simp
  exact ⟨hlength, by omega⟩

end StackMachine

/-- **A word spells at most one ranked tree.**

**Proof sketch.**  The machine that builds trees reads the word of a tree back as the tree, and
its run depends on the word only. -/
theorem Tree.flatten_injective {α : Type u} {arity : α → ℕ} {t t' : Tree α}
    (ht : t.Ranked arity) (ht' : t'.Ranked arity) (h : t.flatten = t'.flatten) : t = t' := by
  let M : StackMachine α (Tree α) := ⟨arity, fun a ts => some (.node a ts), max t.need t'.need⟩
  have hrun : M.run [] t.flatten = some [t] :=
    (M.run_flatten ht [] _).mpr ⟨t, Tree.fold_node t, by simp [M], rfl⟩
  have hrun' : M.run [] t'.flatten = some [t'] :=
    (M.run_flatten ht' [] _).mpr ⟨t', Tree.fold_node t', by simp [M], rfl⟩
  rw [h, hrun'] at hrun
  simpa using hrun.symm

end Pops
