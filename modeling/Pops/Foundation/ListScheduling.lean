import Mathlib

/-!
# Jobs on identical machines

An ordered list of weighted jobs is placed on finitely many identical machines.  The *greedy*
rule places every job, in the order of the list, on a machine that carries the least load at that
moment.  When the jobs come in the order of non-increasing weights, the load of a greedy
placement stays within `4/3 − 1/(3R)` of the load of every other placement on `R` machines.

## Main definitions

* `ListScheduling.load`, `count` — the weight and the number of the jobs on a machine.
* `ListScheduling.Greedy` — every job went to a machine of least load.

## Main results

* `ListScheduling.sum_load`, `sum_count` — the machines share out all the jobs.
* `ListScheduling.Greedy.load_le_of_large` — when every job weighs more than a third of the
  bound of some placement, the greedy placement keeps that bound.
* `ListScheduling.Greedy.graham` — the ratio `4/3 − 1/(3R)`.
* `ListScheduling.Greedy.load_le_of_length_le` — with no more jobs than machines the greedy
  placement is optimal.

## References

The ratio is Graham's bound for the longest-processing-time rule.
-/

namespace ListScheduling

variable {ι κ K : Type*} [DecidableEq κ]

/-- The jobs on a machine. -/
def on (place : ι → κ) (jobs : List ι) (r : κ) : List ι := jobs.filter fun j => place j = r

/-- The number of jobs on a machine. -/
def count (place : ι → κ) (jobs : List ι) (r : κ) : ℕ := (on place jobs r).length

/-- The job is on the machine that it was placed on. -/
@[simp] lemma mem_on {place : ι → κ} {jobs : List ι} {r : κ} {j : ι} :
    j ∈ on place jobs r ↔ j ∈ jobs ∧ place j = r := by
  simp [on]

/-- The machines hold every job exactly once. -/
theorem sum_count {place : ι → κ} {jobs : List ι} {machines : Finset κ}
    (hmem : ∀ j ∈ jobs, place j ∈ machines) :
    ∑ r ∈ machines, count place jobs r = jobs.length := by
  induction jobs with
  | nil => simp [count, on]
  | cons j jobs ih =>
    have hstep : ∀ r, count place (j :: jobs) r =
        (if place j = r then 1 else 0) + count place jobs r := by
      intro r
      unfold count on
      by_cases h : place j = r <;> simp [h, Nat.add_comm]
    simp only [hstep, Finset.sum_add_distrib, ih fun i hi => hmem i (by simp [hi])]
    rw [Finset.sum_ite_eq machines (place j) fun _ => 1, if_pos (hmem j (by simp)),
      List.length_cons, Nat.add_comm]

section Load

variable [AddCommMonoid K]

/-- The total weight of the jobs on a machine. -/
def load (weight : ι → K) (place : ι → κ) (jobs : List ι) (r : κ) : K :=
  ((on place jobs r).map weight).sum

/-- No jobs are no load. -/
@[simp] lemma load_nil (weight : ι → K) (place : ι → κ) (r : κ) :
    load weight place [] r = 0 := by
  simp [load, on]

/-- A further job adds its weight to its own machine. -/
lemma load_append (weight : ι → K) (place : ι → κ) (jobs : List ι) (j : ι) (r : κ) :
    load weight place (jobs ++ [j]) r =
      load weight place jobs r + if place j = r then weight j else 0 := by
  unfold load on
  by_cases h : place j = r <;> simp [h]

/-- A further job adds its weight to its own machine. -/
lemma load_append_self (weight : ι → K) (place : ι → κ) (jobs : List ι) (j : ι) :
    load weight place (jobs ++ [j]) (place j) = load weight place jobs (place j) + weight j := by
  rw [load_append, if_pos rfl]

/-- A further job leaves the other machines alone. -/
lemma load_append_ne (weight : ι → K) {place : ι → κ} (jobs : List ι) {j : ι} {r : κ}
    (h : place j ≠ r) : load weight place (jobs ++ [j]) r = load weight place jobs r := by
  rw [load_append, if_neg h, add_zero]

/-- The load depends only on where the listed jobs are placed. -/
lemma load_congr {weight : ι → K} {place place' : ι → κ} {jobs : List ι}
    (h : ∀ j ∈ jobs, place j = place' j) (r : κ) :
    load weight place jobs r = load weight place' jobs r := by
  have hon : on place jobs r = on place' jobs r := by
    apply List.filter_congr
    intro j hj
    rw [h j hj]
  rw [load, load, hon]

/-- The load does not depend on the order of the jobs. -/
lemma load_perm {weight : ι → K} {place : ι → κ} {jobs jobs' : List ι} (h : jobs.Perm jobs')
    (r : κ) : load weight place jobs r = load weight place jobs' r :=
  ((h.filter _).map _).sum_eq

/-- A machine without jobs carries nothing. -/
lemma load_eq_zero {weight : ι → K} {place : ι → κ} {jobs : List ι} {r : κ}
    (h : ∀ j ∈ jobs, place j ≠ r) : load weight place jobs r = 0 := by
  have hon : on place jobs r = [] := List.filter_eq_nil_iff.mpr fun j hj => by simpa using h j hj
  rw [load, hon, List.map_nil, List.sum_nil]

/-- The machines share out the whole weight. -/
theorem sum_load {weight : ι → K} {place : ι → κ} {jobs : List ι} {machines : Finset κ}
    (hmem : ∀ j ∈ jobs, place j ∈ machines) :
    ∑ r ∈ machines, load weight place jobs r = (jobs.map weight).sum := by
  induction jobs using List.reverseRecOn with
  | nil => simp
  | append_singleton jobs j ih =>
    simp only [load_append, Finset.sum_add_distrib,
      ih fun i hi => hmem i (List.mem_append_left _ hi)]
    rw [Finset.sum_ite_eq machines (place j) fun _ => weight j, if_pos (hmem j (by simp))]
    simp

/-- The load of the first `n` numbered jobs as a sum. -/
lemma load_range (weight : ℕ → K) (place : ℕ → κ) (n : ℕ) (r : κ) :
    load weight place (List.range n) r =
      ∑ p ∈ Finset.range n, if place p = r then weight p else 0 := by
  induction n with
  | zero => simp
  | succ n ih => rw [List.range_succ, load_append, ih, Finset.sum_range_succ]

/-- Every job was placed on a machine that carried the least load at that moment. -/
def Greedy [LE K] (weight : ι → K) (place : ι → κ) (machines : Finset κ) (jobs : List ι) : Prop :=
  ∀ before j after, jobs = before ++ j :: after → ∀ r ∈ machines,
    load weight place before (place j) ≤ load weight place before r

/-- The first jobs of a greedy placement are placed greedily. -/
theorem Greedy.init [LE K] {weight : ι → K} {place : ι → κ} {machines : Finset κ}
    {jobs rest : List ι} (h : Greedy weight place machines (jobs ++ rest)) :
    Greedy weight place machines jobs := by
  intro before j after hjobs
  exact h before j (after ++ rest) (by rw [hjobs]; simp)

/-- The last job of a greedy placement went to a machine of least load. -/
lemma Greedy.last [LE K] {weight : ι → K} {place : ι → κ} {machines : Finset κ} {jobs : List ι}
    {j : ι} (h : Greedy weight place machines (jobs ++ [j])) {r : κ} (hr : r ∈ machines) :
    load weight place jobs (place j) ≤ load weight place jobs r :=
  h jobs j [] rfl r hr

/-- A greedy placement goes on with a job on a machine of least load. -/
lemma Greedy.snoc [LE K] {weight : ι → K} {place : ι → κ} {machines : Finset κ} {jobs : List ι}
    {j : ι} (h : Greedy weight place machines jobs)
    (hj : ∀ r ∈ machines, load weight place jobs (place j) ≤ load weight place jobs r) :
    Greedy weight place machines (jobs ++ [j]) := by
  intro before i after hjobs
  rcases List.eq_nil_or_concat after with rfl | ⟨after', k, rfl⟩
  · obtain ⟨rfl, hsingle⟩ := List.append_inj' hjobs rfl
    obtain rfl : j = i := by simpa using hsingle
    exact hj
  · have hjobs' : jobs ++ [j] = (before ++ i :: after') ++ [k] := by
      rw [hjobs]
      simp
    exact h before i after' (List.append_inj' hjobs' rfl).1

/-- Greedy placement depends only on where the listed jobs are placed. -/
lemma Greedy.congr [LE K] {weight : ι → K} {place place' : ι → κ} {machines : Finset κ}
    {jobs : List ι} (h : Greedy weight place machines jobs)
    (heq : ∀ j ∈ jobs, place j = place' j) : Greedy weight place' machines jobs := by
  intro before j after hjobs r hr
  have hbefore : ∀ i ∈ before, place i = place' i :=
    fun i hi => heq i (by rw [hjobs]; exact List.mem_append_left _ hi)
  rw [← heq j (by rw [hjobs]; simp), ← load_congr hbefore, ← load_congr hbefore]
  exact h before j after hjobs r hr

end Load

section Ordered

variable [CommRing K] [LinearOrder K] [IsStrictOrderedRing K]
variable {weight : ι → K} {place other : ι → κ} {machines : Finset κ} {jobs : List ι} {M : K}

/-- A machine carries at least `c` for each of its jobs when every job weighs at least `c`. -/
lemma count_mul_le_load (place : ι → κ) {c : K} (h : ∀ j ∈ jobs, c ≤ weight j) (r : κ) :
    count place jobs r * c ≤ load weight place jobs r := by
  have hsum := List.card_nsmul_le_sum ((on place jobs r).map weight) c (by
    intro x hx
    obtain ⟨j, hj, rfl⟩ := List.mem_map.mp hx
    exact h j (mem_on.mp hj).1)
  rwa [List.length_map, nsmul_eq_mul] at hsum

/-- Loads are non-negative. -/
lemma load_nonneg (place : ι → κ) (h : ∀ j ∈ jobs, 0 ≤ weight j) (r : κ) :
    0 ≤ load weight place jobs r := by
  have := count_mul_le_load place h r
  rwa [mul_zero] at this

/-- A further job does not make any load smaller. -/
lemma load_le_append {j : ι} (h : 0 ≤ weight j) (r : κ) :
    load weight place jobs r ≤ load weight place (jobs ++ [j]) r := by
  rw [load_append]
  split_ifs <;> linarith

/-- The weight of a job is at most the load of its machine. -/
lemma weight_le_load (h : ∀ j ∈ jobs, 0 ≤ weight j) {j : ι} (hj : j ∈ jobs) :
    weight j ≤ load weight place jobs (place j) := by
  apply List.single_le_sum
  · intro x hx
    obtain ⟨k, hk, rfl⟩ := List.mem_map.mp hx
    exact h k (mem_on.mp hk).1
  · exact List.mem_map.mpr ⟨j, mem_on.mpr ⟨hj, rfl⟩, rfl⟩

/-- A machine that holds a job and a second one carries the first and at least `c` more. -/
lemma weight_add_le_load {c : K} (hc : 0 ≤ c) (h : ∀ j ∈ jobs, c ≤ weight j) {j : ι}
    (hj : j ∈ jobs) (htwo : 2 ≤ count place jobs (place j)) :
    weight j + c ≤ load weight place jobs (place j) := by
  classical
  have hperm := List.perm_cons_erase (mem_on.mpr ⟨hj, rfl⟩ : j ∈ on place jobs (place j))
  have hsum : load weight place jobs (place j) =
      weight j + (((on place jobs (place j)).erase j).map weight).sum := by
    unfold load
    rw [(hperm.map weight).sum_eq, List.map_cons, List.sum_cons]
  -- what is left after the job still holds another one
  obtain ⟨i, rest, hrest⟩ : ∃ i rest, (on place jobs (place j)).erase j = i :: rest := by
    have hlen := hperm.length_eq
    rw [List.length_cons] at hlen
    unfold count at htwo
    exact List.exists_cons_of_length_pos (by omega)
  have hin : ∀ k ∈ i :: rest, c ≤ weight k := by
    intro k hk
    rw [← hrest] at hk
    exact h k (mem_on.mp (List.mem_of_mem_erase hk)).1
  have htail : 0 ≤ (rest.map weight).sum := by
    apply List.sum_nonneg
    intro x hx
    obtain ⟨k, hk, rfl⟩ := List.mem_map.mp hx
    exact hc.trans (hin k (by simp [hk]))
  have hi := hin i (by simp)
  rw [hsum, hrest, List.map_cons, List.sum_cons]
  linarith

/-- No machine holds three jobs of more than a third of its load. -/
lemma count_le_two {c : K} (hc0 : 0 ≤ c) (hc : M < 3 * c) (h : ∀ j ∈ jobs, c ≤ weight j) {r : κ}
    (hload : load weight place jobs r ≤ M) : count place jobs r ≤ 2 := by
  by_contra hgt
  have hthree : (3 : K) ≤ count place jobs r := by exact_mod_cast Nat.lt_of_not_le hgt
  have hmul := count_mul_le_load place h r
  have := mul_le_mul_of_nonneg_right hthree hc0
  linarith

/-- With at most two jobs on every machine, of which the machines of `alone` hold at most one, two
jobs a machine are enough for all the jobs and the machines of `alone`. -/
lemma length_add_card_le {alone : Finset κ} (hmem : ∀ j ∈ jobs, place j ∈ machines)
    (hsub : alone ⊆ machines) (htwo : ∀ r ∈ machines, count place jobs r ≤ 2)
    (hone : ∀ r ∈ alone, count place jobs r ≤ 1) :
    jobs.length + alone.card ≤ 2 * machines.card := by
  rw [← sum_count hmem, ← Finset.inter_eq_right.mpr hsub, ← Finset.filter_mem_eq_inter,
    Finset.card_filter, ← Finset.sum_add_distrib, mul_comm, ← smul_eq_mul]
  apply Finset.sum_le_card_nsmul
  intro r hr
  have h2 := htwo r hr
  split_ifs with hr'
  · have h1 := hone r hr'
    omega
  · omega

/-- **The counting argument.** Let every job weigh at least `c > M / 3`, let some placement of
`jobs ++ [j]` keep the bound `M`, and let `place` put `jobs` on the machines within `M`.  Then
some machine has room for `c` more.

**Proof sketch.** Otherwise every machine holds one or two jobs: three are too heavy, and an
empty one has room.  A job that `place` leaves alone on its machine must also be alone under the
other placement, since with any second job it would exceed `M`.  So the other placement has at
least as many machines with a single job, and holds at most as many jobs as `place` does: one
fewer than it has. -/
theorem exists_room {j : ι} {c : K} (hc : M < 3 * c) (hcj : c ≤ weight j) (hM : c ≤ M)
    (hjobs : ∀ i ∈ jobs, c ≤ weight i)
    (hplace : ∀ i ∈ jobs, place i ∈ machines) (hother : ∀ i ∈ jobs ++ [j], other i ∈ machines)
    (hbound : ∀ r ∈ machines, load weight other (jobs ++ [j]) r ≤ M) :
    ∃ r ∈ machines, load weight place jobs r + c ≤ M := by
  classical
  by_contra hnone
  push Not at hnone
  have : Nonempty ι := ⟨j⟩
  have hc0 : 0 ≤ c := by linarith
  have hall : ∀ i ∈ jobs ++ [j], c ≤ weight i := by
    intro i hi
    rcases List.mem_append.mp hi with hi | hi
    · exact hjobs i hi
    · rwa [List.mem_singleton.mp hi]
  have hone : ∀ r ∈ machines, 1 ≤ count place jobs r := by
    intro r hr
    by_contra hzero
    have hon : on place jobs r = [] := List.length_eq_zero_iff.mp (by unfold count at hzero; omega)
    have := hnone r hr
    rw [load, hon, List.map_nil, List.sum_nil] at this
    linarith
  -- the only job of a machine with a single job
  let alone := machines.filter fun r => count place jobs r = 1
  have hsingle : ∀ r ∈ alone, ∃ i, i ∈ jobs ∧ on place jobs r = [i] ∧ place i = r := by
    intro r hr
    obtain ⟨i, hi⟩ := List.length_eq_one_iff.mp (Finset.mem_filter.mp hr).2
    have hmem : i ∈ on place jobs r := by simp [hi]
    exact ⟨i, (mem_on.mp hmem).1, hi, (mem_on.mp hmem).2⟩
  choose! single hin hon hat using hsingle
  have hin' : ∀ r ∈ alone, single r ∈ jobs ++ [j] :=
    fun r hr => List.mem_append_left _ (hin r hr)
  -- it stays alone under the other placement
  have hstays : ∀ r ∈ alone, count other (jobs ++ [j]) (other (single r)) ≤ 1 := by
    intro r hr
    by_contra hne
    have hpair := weight_add_le_load hc0 hall (hin' r hr) (Nat.lt_of_not_le hne)
    have hmax := hbound _ (hother _ (hin' r hr))
    have hfull := hnone r (Finset.mem_filter.mp hr).1
    rw [load, hon r hr, List.map_singleton, List.sum_singleton] at hfull
    linarith
  have hinj : Set.InjOn (fun r => other (single r)) alone := by
    intro r hr r' hr' heq
    have hmem : single r ∈ on other (jobs ++ [j]) (other (single r)) :=
      mem_on.mpr ⟨hin' r hr, rfl⟩
    have hmem' : single r' ∈ on other (jobs ++ [j]) (other (single r)) :=
      mem_on.mpr ⟨hin' r' hr', heq.symm⟩
    obtain ⟨i, hi⟩ := List.length_eq_one_iff.mp
      (le_antisymm (hstays r hr) (List.length_pos_of_mem hmem))
    rw [hi, List.mem_singleton] at hmem hmem'
    rw [← hat r hr, ← hat r' hr', hmem, hmem']
  have hsub : alone.image (fun r => other (single r)) ⊆ machines := by
    intro r hr
    obtain ⟨r', hr', rfl⟩ := Finset.mem_image.mp hr
    exact hother _ (hin' r' hr')
  -- count the jobs of both placements over the machines
  have hplaced : 2 * machines.card ≤ jobs.length + alone.card := by
    rw [← sum_count hplace, Finset.card_filter, ← Finset.sum_add_distrib, mul_comm, ← smul_eq_mul]
    apply Finset.card_nsmul_le_sum
    intro r hr
    have h1 := hone r hr
    split_ifs <;> omega
  have hmoved := length_add_card_le hother hsub
    (fun r hr => count_le_two hc0 hc hall (hbound r hr)) (by
      intro r hr
      obtain ⟨r', hr', rfl⟩ := Finset.mem_image.mp hr
      exact hstays r' hr')
  rw [Finset.card_image_of_injOn hinj, List.length_append, List.length_singleton] at hmoved
  omega

/-- When every job weighs more than a third of `M`, the greedy placement of jobs of non-increasing
weights keeps every bound `M` that some placement keeps. -/
theorem Greedy.load_le_of_large (hgreedy : Greedy weight place machines jobs)
    (hsorted : jobs.Pairwise fun i k => weight k ≤ weight i)
    (hpos : ∀ j ∈ jobs, 0 ≤ weight j) (hlarge : ∀ j ∈ jobs, M < 3 * weight j) (hM : 0 ≤ M)
    (hplace : ∀ j ∈ jobs, place j ∈ machines) (hother : ∀ j ∈ jobs, other j ∈ machines)
    (hbound : ∀ r ∈ machines, load weight other jobs r ≤ M) :
    ∀ r ∈ machines, load weight place jobs r ≤ M := by
  induction jobs using List.reverseRecOn with
  | nil =>
    intro r _
    rwa [load_nil]
  | append_singleton jobs j ih =>
    have hinit : ∀ i ∈ jobs, i ∈ jobs ++ [j] := fun i hi => List.mem_append_left _ hi
    have hj : j ∈ jobs ++ [j] := by simp
    have hleast : ∀ i ∈ jobs, weight j ≤ weight i :=
      fun i hi => (List.pairwise_append.mp hsorted).2.2 i hi j (by simp)
    have hbefore := ih hgreedy.init (List.pairwise_append.mp hsorted).1
      (fun i hi => hpos i (hinit i hi)) (fun i hi => hlarge i (hinit i hi))
      (fun i hi => hplace i (hinit i hi)) (fun i hi => hother i (hinit i hi))
      (fun r hr => (load_le_append (hpos j hj) r).trans (hbound r hr))
    intro r hr
    by_cases hrj : place j = r
    · -- the machine of the last job carried the least load, and some machine had room for it
      subst hrj
      obtain ⟨room, hroom, hle⟩ := exists_room (hlarge j hj) le_rfl
        ((weight_le_load hpos hj).trans (hbound _ (hother j hj))) hleast
        (fun i hi => hplace i (hinit i hi)) hother hbound
      have := hgreedy.last hroom
      rw [load_append_self]
      linarith
    · rw [load_append_ne _ _ hrj]
      exact hbefore r hr

/-- **Graham's bound.** On `R` machines, the greedy placement of jobs of non-increasing weights
loads no machine beyond `4/3 − 1/(3R)` of any bound that some placement keeps.

**Proof sketch.** By induction on the jobs, only the machine of the last job is to be looked at.
If that job weighs at most `M / 3`, the average of the loads before it bounds the machine; if it
weighs more, so does every job, and the greedy placement keeps `M` itself. -/
theorem Greedy.graham (hgreedy : Greedy weight place machines jobs)
    (hsorted : jobs.Pairwise fun i k => weight k ≤ weight i)
    (hpos : ∀ j ∈ jobs, 0 ≤ weight j)
    (hplace : ∀ j ∈ jobs, place j ∈ machines) (hother : ∀ j ∈ jobs, other j ∈ machines)
    (hbound : ∀ r ∈ machines, load weight other jobs r ≤ M) :
    ∀ r ∈ machines, 3 * machines.card * load weight place jobs r ≤ (4 * machines.card - 1) * M := by
  intro r hr
  have hcard : (1 : K) ≤ machines.card := by exact_mod_cast Finset.card_pos.mpr ⟨r, hr⟩
  have hM : 0 ≤ M := (load_nonneg other hpos r).trans (hbound r hr)
  induction jobs using List.reverseRecOn with
  | nil =>
    rw [load_nil, mul_zero]
    exact mul_nonneg (by linarith) hM
  | append_singleton jobs j ih =>
    have hinit : ∀ i ∈ jobs, i ∈ jobs ++ [j] := fun i hi => List.mem_append_left _ hi
    have hj : j ∈ jobs ++ [j] := by simp
    by_cases hrj : place j = r
    · subst hrj
      rcases le_or_gt (3 * weight j) M with hsmall | hlarge
      · -- the load before the last job is at most the average
        have haverage : machines.card * load weight place jobs (place j) ≤
            (jobs.map weight).sum := by
          rw [← sum_load fun i hi => hplace i (hinit i hi), ← nsmul_eq_mul]
          exact Finset.card_nsmul_le_sum _ _ _ fun r hr => hgreedy.last hr
        have htotal : (jobs.map weight).sum + weight j ≤ machines.card * M := by
          have hsum : _ = ((jobs ++ [j]).map weight).sum := sum_load hother
          rw [List.map_append, List.sum_append, List.map_singleton, List.sum_singleton] at hsum
          rw [← hsum, ← nsmul_eq_mul]
          exact Finset.sum_le_card_nsmul _ _ _ hbound
        have hrest := mul_le_mul_of_nonneg_left hsmall (by linarith : (0 : K) ≤ machines.card - 1)
        rw [load_append_self]
        linarith
      · have hkeep := hgreedy.load_le_of_large hsorted hpos (fun i hi => by
          rcases List.mem_append.mp hi with hi | hi
          · have := (List.pairwise_append.mp hsorted).2.2 i hi j (by simp)
            linarith
          · rwa [List.mem_singleton.mp hi]) hM hplace hother hbound (place j) hr
        have h1 := mul_le_mul_of_nonneg_left hkeep (by linarith : (0 : K) ≤ 3 * machines.card)
        have h2 := mul_le_mul_of_nonneg_right hcard hM
        linarith
    · rw [load_append_ne _ _ hrj]
      exact ih hgreedy.init (List.pairwise_append.mp hsorted).1
        (fun i hi => hpos i (hinit i hi)) (fun i hi => hplace i (hinit i hi))
        (fun i hi => hother i (hinit i hi))
        (fun r hr => (load_le_append (hpos j hj) r).trans (hbound r hr))

/-- With no more jobs than machines the greedy placement keeps every bound that some placement
keeps: there is always an idle machine for the next job. -/
theorem Greedy.load_le_of_length_le (hgreedy : Greedy weight place machines jobs)
    (hpos : ∀ j ∈ jobs, 0 ≤ weight j) (hM : 0 ≤ M) (hlen : jobs.length ≤ machines.card)
    (hother : ∀ j ∈ jobs, other j ∈ machines)
    (hbound : ∀ r ∈ machines, load weight other jobs r ≤ M) :
    ∀ r ∈ machines, load weight place jobs r ≤ M := by
  induction jobs using List.reverseRecOn with
  | nil =>
    intro r _
    rwa [load_nil]
  | append_singleton jobs j ih =>
    have hinit : ∀ i ∈ jobs, i ∈ jobs ++ [j] := fun i hi => List.mem_append_left _ hi
    have hj : j ∈ jobs ++ [j] := by simp
    rw [List.length_append, List.length_singleton] at hlen
    have hbefore := ih hgreedy.init (fun i hi => hpos i (hinit i hi)) (by omega)
      (fun i hi => hother i (hinit i hi))
      (fun r hr => (load_le_append (hpos j hj) r).trans (hbound r hr))
    intro r hr
    by_cases hrj : place j = r
    · subst hrj
      obtain ⟨idle, hidle, hnone⟩ : ∃ idle ∈ machines, ∀ i ∈ jobs, place i ≠ idle := by
        by_contra hall
        push Not at hall
        have hsub : machines ⊆ (jobs.map place).toFinset := by
          intro r hr
          obtain ⟨i, hi, rfl⟩ := hall r hr
          exact List.mem_toFinset.mpr (List.mem_map.mpr ⟨i, hi, rfl⟩)
        have hcard := (Finset.card_le_card hsub).trans (List.toFinset_card_le _)
        rw [List.length_map] at hcard
        omega
      have hleast := hgreedy.last hidle
      rw [load_eq_zero hnone] at hleast
      have hown := (weight_le_load hpos hj).trans (hbound _ (hother j hj))
      rw [load_append_self]
      linarith
    · rw [load_append_ne _ _ hrj]
      exact hbefore r hr

end Ordered

end ListScheduling
