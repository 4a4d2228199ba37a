import Mathlib

/-!
# Ordering dependencies in rounds

A table maps every key to the keys it waits for.  Each round takes all the keys that wait for
nothing, in some order of their own, and strikes them from the table.  The rounds end with an
empty table, and then the taken keys respect every dependency, or with a nonempty table in which
every key waits, and then no order respects them.

## Main definitions

* `DependencyRounds.Before`, `Respects` — positions in an order, and the orders of a table that
  respect its dependencies.
* `DependencyRounds.rounds` — the loop.

## Main results

* `DependencyRounds.Before.trans` — precedence in an order without repetitions is transitive.
* `DependencyRounds.rounds_ne_outOfFuel` — as many rounds as there are keys are enough.
* `DependencyRounds.rounds_sorted` — the result respects the dependencies.
* `DependencyRounds.rounds_cycle_iff` — the loop gives up exactly when no order respects them.
-/

namespace DependencyRounds

variable {α : Type*}

/-! ## Precedence -/

/-- The order splits so that `a` is in its first part and `b` in its second. -/
def Before (order : List α) (a b : α) : Prop :=
  ∃ first second, order = first ++ second ∧ a ∈ first ∧ b ∈ second

/-- Precedence in an order without repetitions is transitive. -/
theorem Before.trans {order : List α} (hnodup : order.Nodup) {a b c : α} (hab : Before order a b)
    (hbc : Before order b c) : Before order a c := by
  obtain ⟨first, second, rfl, ha, hb⟩ := hab
  obtain ⟨first', second', heq, hb', hc⟩ := hbc
  rcases List.append_eq_append_iff.mp heq with ⟨between, rfl, rfl⟩ | ⟨between, rfl, rfl⟩
  · exact ⟨first ++ between, second', by simp, List.mem_append_left _ ha, hc⟩
  · -- the two cuts cannot cross, since `b` occurs once
    exact absurd rfl ((List.nodup_append.mp hnodup).2.2 b (List.mem_append_left _ hb') b hb)

/-- Nothing comes before the first key of an order without repetitions. -/
lemma not_before_head {a b : α} {order : List α} (hnodup : (b :: order).Nodup) :
    ¬ Before (b :: order) a b := by
  rintro ⟨first, second, heq, ha, hb⟩
  cases first with
  | nil => cases ha
  | cons x first =>
    obtain ⟨rfl, rfl⟩ := List.cons_eq_cons.mp heq
    exact (List.nodup_cons.mp hnodup).1 (List.mem_append_right _ hb)

/-- Precedence survives a selection that keeps both. -/
lemma Before.filter {order : List α} {a b : α} (h : Before order a b) {p : α → Bool}
    (ha : p a = true) (hb : p b = true) : Before (order.filter p) a b := by
  obtain ⟨first, second, rfl, ha', hb'⟩ := h
  exact ⟨first.filter p, second.filter p, by simp, List.mem_filter.mpr ⟨ha', ha⟩,
    List.mem_filter.mpr ⟨hb', hb⟩⟩

/-- Precedence survives an earlier part. -/
lemma Before.append_left {order : List α} {a b : α} (h : Before order a b) (earlier : List α) :
    Before (earlier ++ order) a b := by
  obtain ⟨first, second, rfl, ha, hb⟩ := h
  exact ⟨earlier ++ first, second, by simp, List.mem_append_right _ ha, hb⟩

/-- The order takes every key of the table once and respects its dependencies. -/
def Respects (table : List (α × List α)) (order : List α) : Prop :=
  order.Perm (table.map Prod.fst) ∧
    ∀ entry ∈ table, ∀ parent ∈ entry.2, Before order parent entry.1

/-! ## Rounds -/

/-- How the rounds end. -/
inductive Outcome (α : Type*)
  | sorted (order : List α)
  | cycle
  | outOfFuel
  deriving DecidableEq

/-- The keys that wait for nothing. -/
def ready (sort : List α → List α) (table : List (α × List α)) : List α :=
  sort ((table.filter fun entry => entry.2 = []).map Prod.fst)

/-- A key is ready when its entry waits for nothing. -/
lemma mem_ready {sort : List α → List α} (hsort : ∀ l, (sort l).Perm l)
    {table : List (α × List α)} {a : α} : a ∈ ready sort table ↔ (a, []) ∈ table := by
  rw [ready, (hsort _).mem_iff]
  simp

/-- In a table without repeated keys, the struck entries are the ready ones. -/
lemma mem_ready_iff {sort : List α → List α} (hsort : ∀ l, (sort l).Perm l)
    {table : List (α × List α)} (hkeys : (table.map Prod.fst).Nodup) {entry : α × List α}
    (hentry : entry ∈ table) :
    entry.1 ∈ ready sort table ↔ entry.2 = [] := by
  rw [mem_ready hsort]
  refine ⟨fun h => ?_, fun h => ?_⟩
  · have := List.inj_on_of_nodup_map hkeys h hentry rfl
    rw [← this]
  · rw [← h]
    exact hentry

variable [DecidableEq α]

/-- The table after the taken keys are struck from it. -/
def strike (taken : List α) (table : List (α × List α)) : List (α × List α) :=
  (table.filter fun entry => entry.1 ∉ taken).map fun entry =>
    (entry.1, entry.2.filter fun parent => parent ∉ taken)

/-- The loop: take the ready keys, strike them, and go on while the table has keys. -/
def rounds (sort : List α → List α) : ℕ → List (α × List α) → List α → Outcome α
  | _, [], taken => .sorted taken
  | 0, _ :: _, _ => .outOfFuel
  | fuel + 1, entry :: table, taken =>
    if ready sort (entry :: table) = [] then .cycle
    else rounds sort fuel (strike (ready sort (entry :: table)) (entry :: table))
      (taken ++ ready sort (entry :: table))

/-- What is left of an order after some keys are struck respects the table that is left. -/
lemma Respects.strike {table : List (α × List α)} {order : List α} (h : Respects table order)
    (taken : List α) : Respects (strike taken table) (order.filter fun a => a ∉ taken) := by
  refine ⟨?_, ?_⟩
  · refine (h.1.filter _).trans (List.Perm.of_eq ?_)
    simp [DependencyRounds.strike, List.filter_map, Function.comp_def]
  · intro entry hentry parent hparent
    obtain ⟨original, horiginal, rfl⟩ := List.mem_map.mp hentry
    obtain ⟨hmem, hstays⟩ := List.mem_filter.mp horiginal
    obtain ⟨hparent, hp⟩ := List.mem_filter.mp hparent
    exact (h.2 original hmem parent hparent).filter hp hstays

section Rounds

variable {sort : List α → List α} (hsort : ∀ l, (sort l).Perm l)
include hsort

/-- The keys of a table are the ready ones and the keys that stay. -/
lemma ready_append_strike {table : List (α × List α)} (hkeys : (table.map Prod.fst).Nodup) :
    (ready sort table ++ (strike (ready sort table) table).map Prod.fst).Perm
      (table.map Prod.fst) := by
  have hready : (ready sort table).Perm
      ((table.filter fun entry => entry.1 ∈ ready sort table).map Prod.fst) := by
    refine (hsort _).trans (List.Perm.of_eq ?_)
    congr 1
    apply List.filter_congr
    intro entry hentry
    simp only [mem_ready_iff hsort hkeys hentry]
  have hstrike : (strike (ready sort table) table).map Prod.fst =
      (table.filter fun entry => entry.1 ∉ ready sort table).map Prod.fst := by
    simp [strike, Function.comp_def]
  rw [hstrike]
  refine (hready.append_right _).trans ?_
  rw [← List.map_append]
  refine List.Perm.map _ ?_
  have := List.filter_append_perm (fun entry => decide (entry.1 ∈ ready sort table)) table
  simpa using this

/-- Striking the ready keys keeps the keys distinct. -/
lemma nodup_strike {table : List (α × List α)} (hkeys : (table.map Prod.fst).Nodup) :
    ((strike (ready sort table) table).map Prod.fst).Nodup :=
  (List.nodup_append.mp ((ready_append_strike hsort hkeys).nodup_iff.mpr hkeys)).2.1

/-- As many rounds as there are keys are enough. -/
theorem rounds_ne_outOfFuel {fuel : ℕ} {table : List (α × List α)} {taken : List α}
    (hkeys : (table.map Prod.fst).Nodup) (hfuel : table.length ≤ fuel) :
    rounds sort fuel table taken ≠ .outOfFuel := by
  induction fuel generalizing table taken with
  | zero =>
    obtain rfl : table = [] := List.length_eq_zero_iff.mp (by omega)
    simp [rounds]
  | succ fuel ih =>
    cases table with
    | nil => simp [rounds]
    | cons entry table =>
      rw [rounds]
      split_ifs with hready
      · simp
      · apply ih (nodup_strike hsort hkeys)
        -- a round strikes at least one key
        have hlen := (ready_append_strike hsort hkeys).length_eq
        have hpos := List.length_pos_of_ne_nil hready
        rw [List.length_append, List.length_map, List.length_map] at hlen
        omega

/-- The taken keys respect the dependencies of the table. -/
theorem rounds_sorted {fuel : ℕ} {table : List (α × List α)} {taken order : List α}
    (hkeys : (table.map Prod.fst).Nodup) (h : rounds sort fuel table taken = .sorted order) :
    ∃ rest, order = taken ++ rest ∧ Respects table rest := by
  induction fuel generalizing table taken with
  | zero =>
    cases table with
    | nil =>
      simp only [rounds, Outcome.sorted.injEq] at h
      exact ⟨[], by simp [h], by simp, by simp⟩
    | cons entry table => simp [rounds] at h
  | succ fuel ih =>
    cases table with
    | nil =>
      simp only [rounds, Outcome.sorted.injEq] at h
      exact ⟨[], by simp [h], by simp, by simp⟩
    | cons entry table =>
      rw [rounds] at h
      split_ifs at h with hready
      obtain ⟨rest, rfl, hperm, hbefore⟩ := ih (nodup_strike hsort hkeys) h
      generalize entry :: table = table at *
      refine ⟨ready sort table ++ rest, by simp,
        (hperm.append_left _).trans (ready_append_strike hsort hkeys), ?_⟩
      intro entry hentry parent hparent
      have hwaits : entry.1 ∉ ready sort table := by
        rw [mem_ready_iff hsort hkeys hentry]
        exact List.ne_nil_of_mem hparent
      have hstays : (entry.1, entry.2.filter fun p => p ∉ ready sort table) ∈
          strike (ready sort table) table :=
        List.mem_map.mpr ⟨entry, List.mem_filter.mpr ⟨hentry, by simpa using hwaits⟩, rfl⟩
      -- the parent is taken in this round or stays in the table
      by_cases hp : parent ∈ ready sort table
      · exact ⟨_, _, rfl, hp, hperm.mem_iff.mpr (List.mem_map.mpr ⟨_, hstays, rfl⟩)⟩
      · exact (hbefore _ hstays parent
          (List.mem_filter.mpr ⟨hparent, by simpa using hp⟩)).append_left _

omit [DecidableEq α] in
/-- A nonempty table that some order respects has a ready key: the first one. -/
lemma Respects.ready_ne_nil {table : List (α × List α)} {order : List α}
    (hkeys : (table.map Prod.fst).Nodup) (hne : table ≠ []) (h : Respects table order) :
    ready sort table ≠ [] := by
  have hnodup : order.Nodup := h.1.nodup_iff.mpr hkeys
  cases order with
  | nil =>
    have hempty := h.1.symm.eq_nil
    exact absurd (List.map_eq_nil_iff.mp hempty) hne
  | cons first order =>
    obtain ⟨entry, hentry, hfirst⟩ := List.mem_map.mp (h.1.mem_iff.mp (List.mem_cons_self ..))
    have hempty : entry.2 = [] := by
      apply List.eq_nil_iff_forall_not_mem.mpr
      intro parent hparent
      have := h.2 entry hentry parent hparent
      rw [hfirst] at this
      exact not_before_head hnodup this
    exact List.ne_nil_of_mem ((mem_ready_iff hsort hkeys hentry).mpr hempty)

/-- **Exactness.** The loop gives up exactly when no order respects the dependencies. -/
theorem rounds_cycle_iff {fuel : ℕ} {table : List (α × List α)} {taken : List α}
    (hkeys : (table.map Prod.fst).Nodup) (hfuel : table.length ≤ fuel) :
    rounds sort fuel table taken = .cycle ↔ ¬ ∃ order, Respects table order := by
  refine ⟨fun h => ?_, fun h => ?_⟩
  · rintro ⟨order, horder⟩
    induction fuel generalizing table taken order with
    | zero =>
      obtain rfl : table = [] := List.length_eq_zero_iff.mp (by omega)
      simp [rounds] at h
    | succ fuel ih =>
      cases table with
      | nil => simp [rounds] at h
      | cons entry table =>
        rw [rounds] at h
        have hne := horder.ready_ne_nil hsort hkeys (by simp)
        rw [if_neg hne] at h
        have hlen := (ready_append_strike hsort hkeys).length_eq
        have hpos := List.length_pos_of_ne_nil hne
        rw [List.length_append, List.length_map, List.length_map] at hlen
        exact ih (nodup_strike hsort hkeys) (by omega) h _ (horder.strike _)
  · cases hend : rounds sort fuel table taken with
    | sorted order =>
      obtain ⟨rest, _, hrest⟩ := rounds_sorted hsort hkeys hend
      exact absurd ⟨rest, hrest⟩ h
    | cycle => rfl
    | outOfFuel => exact absurd hend (rounds_ne_outOfFuel hsort hkeys hfuel)

end Rounds

end DependencyRounds
