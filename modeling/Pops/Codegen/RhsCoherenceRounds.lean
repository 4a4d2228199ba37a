import Pops.Codegen.RhsCoherence

/-!
# The rounds partition the default residuals

Every default residual is in exactly one round.  The members of a round have one stage point, one
cohort and different blocks, and the residuals of a block enter the rounds in the order in which
they were authored.

## Main definitions

* `Pops.Codegen.RhsCoherence.residuals` — the default residuals with their positions.
* `Pops.Codegen.RhsCoherence.Regular` — what the loop over the nodes keeps of a stage.

## Main results

* `Pops.Codegen.RhsCoherence.partition_spec` — the stages after the loop.
* `Pops.Codegen.RhsCoherence.planRound_spec` — the checks of a round that passed.
* `Pops.Codegen.RhsCoherence.planRhsCoherence_partitions` — the rounds of a plan.
-/

namespace Pops

namespace Codegen

namespace RhsCoherence

variable {P : Type}

/-- The default residuals of nodes with positions. -/
def residualsOf (indexed : List (Value P × ℕ)) : List (Indexed P) :=
  indexed.filterMap fun row => (groupableDefaultRhs row.1).map (Indexed.mk row.2)

/-- The default residuals with their positions. -/
def residuals (values : List (Value P)) : List (Indexed P) := residualsOf values.zipIdx

/-! ## Appending to a round -/

namespace StageRounds

/-- The entries after an entry was appended. -/
lemma flatten_appendTo : ∀ (rounds : List (List (Indexed P))) (k : ℕ) (entry : Indexed P),
    (appendTo rounds k entry).flatten.Perm (entry :: rounds.flatten)
  | [], 0, entry => by simp [appendTo]
  | [], k + 1, entry => by simpa [appendTo] using flatten_appendTo [] k entry
  | round :: rounds, 0, entry => by
    simp only [appendTo, List.flatten_cons, List.append_assoc, List.singleton_append]
    exact List.perm_middle
  | round :: rounds, k + 1, entry => by
    simp only [appendTo, List.flatten_cons]
    exact ((flatten_appendTo rounds k entry).append_left round).trans List.perm_middle

/-- The rounds after an entry was appended to a round or as the next round. -/
lemma getElem?_appendTo : ∀ {rounds : List (List (Indexed P))} {k : ℕ} {entry : Indexed P},
    k ≤ rounds.length → ∀ j, (appendTo rounds k entry)[j]? =
      if j = k then some ((rounds[k]?.getD []) ++ [entry]) else rounds[j]?
  | [], 0, entry, _, 0 => by simp [appendTo]
  | [], 0, entry, _, j + 1 => by simp [appendTo]
  | [], k + 1, _, h, _ => absurd h (by simp)
  | round :: rounds, 0, entry, _, 0 => by simp [appendTo]
  | round :: rounds, 0, entry, _, j + 1 => by simp [appendTo]
  | round :: rounds, k + 1, entry, _, 0 => by simp [appendTo]
  | round :: rounds, k + 1, entry, h, j + 1 => by
    have ih : (appendTo rounds k entry)[j]? = _ := getElem?_appendTo (Nat.le_of_succ_le_succ h) j
    simpa [appendTo] using ih

/-- The number of rounds after an entry was appended. -/
lemma length_le_appendTo : ∀ (rounds : List (List (Indexed P))) (k : ℕ) (entry : Indexed P),
    rounds.length ≤ (appendTo rounds k entry).length ∧ k < (appendTo rounds k entry).length
  | [], 0, entry => by simp [appendTo]
  | [], k + 1, entry => by simpa [appendTo] using (length_le_appendTo [] k entry).2
  | round :: rounds, 0, entry => by simp [appendTo]
  | round :: rounds, k + 1, entry => by simpa [appendTo] using length_le_appendTo rounds k entry

/-- How many residuals of a block the stage has. -/
def count (stage : StageRounds P) (block : String) : ℕ := (stage.counts.lookup block).getD 0

/-- The counts after a residual. -/
lemma count_record (stage : StageRounds P) (entry : Indexed P) (block : String) :
    (stage.record entry).count block =
      if block = entry.residual.block then stage.count block + 1 else stage.count block := by
  unfold count record
  by_cases h : block = entry.residual.block
  · simp [h]
  · simp [List.lookup_cons, h, beq_false_of_ne h]

end StageRounds

/-! ## Stages -/

section Stages

variable {cohorts : List (String × List String)}

/-- What the loop over the nodes keeps of a stage, when all positions up to `n` are done. -/
structure Regular (cohorts : List (String × List String)) (n : ℕ) (stage : StageRounds P) :
    Prop where
  count_le : ∀ block, stage.count block ≤ stage.rounds.length
  count_lt : ∀ (k : ℕ) (round : List (Indexed P)), stage.rounds[k]? = some round → ∀ entry ∈ round,
    k < stage.count entry.residual.block
  nonempty : ∀ round ∈ stage.rounds, round ≠ []
  members : ∀ round ∈ stage.rounds, ∀ entry ∈ round, entry.index < n ∧
    entry.residual.point = stage.point ∧ cohorts.lookup entry.residual.block = some stage.cohort
  increasing : ∀ round ∈ stage.rounds, round.Pairwise fun e e' => e.index < e'.index
  distinct : ∀ round ∈ stage.rounds, round.Pairwise fun e e' => e.residual.block ≠ e'.residual.block
  authored : ∀ (j k : ℕ) (round round' : List (Indexed P)), stage.rounds[j]? = some round →
    stage.rounds[k]? = some round' → j < k → ∀ e ∈ round, ∀ e' ∈ round',
      e.residual.block = e'.residual.block → e.index < e'.index

/-- A stage is kept when the loop goes on. -/
lemma Regular.mono {n m : ℕ} {stage : StageRounds P} (h : Regular cohorts n stage) (hnm : n ≤ m) :
    Regular cohorts m stage :=
  { h with members := fun round hround entry hentry =>
      ⟨(h.members round hround entry hentry).1.trans_le hnm,
        (h.members round hround entry hentry).2⟩ }

/-- A new stage. -/
lemma regular_empty (n : ℕ) (point : P) (names : List String) :
    Regular cohorts n ⟨point, [], [], names⟩ := by
  constructor <;> simp [StageRounds.count]

/-- The rounds after a residual: the round of its occurrence has it as its last member. -/
lemma mem_record {n : ℕ} {stage : StageRounds P} (h : Regular cohorts n stage) (entry : Indexed P)
    {j : ℕ} {round : List (Indexed P)} (hround : (stage.record entry).rounds[j]? = some round) :
    stage.rounds[j]? = some round ∨ j = stage.count entry.residual.block ∧
      round = (stage.rounds[j]?.getD []) ++ [entry] := by
  change (StageRounds.appendTo stage.rounds (stage.count entry.residual.block) entry)[j]? =
    _ at hround
  rw [StageRounds.getElem?_appendTo (h.count_le entry.residual.block)] at hround
  split_ifs at hround with hj
  · refine .inr ⟨hj, ?_⟩
    rw [hj]
    exact (Option.some.inj hround).symm
  · exact .inl hround

/-- The old members of a round. -/
lemma mem_getD {stage : StageRounds P} {j : ℕ} {e : Indexed P}
    (h : e ∈ stage.rounds[j]?.getD []) :
    ∃ round, stage.rounds[j]? = some round ∧ e ∈ round := by
  cases hround : stage.rounds[j]? with
  | none => simp [hround] at h
  | some round => exact ⟨round, rfl, by simpa [hround] using h⟩

/-- **A stage after a residual.** -/
theorem Regular.record {n : ℕ} {stage : StageRounds P} (h : Regular cohorts n stage)
    {entry : Indexed P} (hindex : entry.index = n) (hpoint : entry.residual.point = stage.point)
    (hcohort : cohorts.lookup entry.residual.block = some stage.cohort) :
    Regular cohorts (n + 1) (stage.record entry) := by
  -- the rounds of the stage and their members, by position
  have hold : ∀ {j : ℕ} {round : List (Indexed P)}, (stage.record entry).rounds[j]? = some round →
      ∀ e ∈ round, (∃ old, stage.rounds[j]? = some old ∧ e ∈ old) ∨
        e = entry ∧ j = stage.count entry.residual.block := by
    intro j round hround e he
    rcases mem_record h entry hround with hsame | ⟨hj, rfl⟩
    · exact .inl ⟨round, hsame, he⟩
    · rcases List.mem_append.mp he with he | he
      · exact .inl (mem_getD he)
      · exact .inr ⟨List.mem_singleton.mp he, hj⟩
  have hbefore : ∀ {j : ℕ} {old : List (Indexed P)}, stage.rounds[j]? = some old → ∀ e ∈ old,
      e.index < n := fun hold e he => (h.members _ (List.mem_of_getElem? hold) e he).1
  refine ⟨fun block => ?_, fun k round hround e he => ?_, fun round hround => ?_,
    fun round hround e he => ?_, fun round hround => ?_, fun round hround => ?_, ?_⟩
  · have hlength :=
      StageRounds.length_le_appendTo stage.rounds (stage.count entry.residual.block) entry
    rw [StageRounds.count_record]
    show _ ≤ (StageRounds.appendTo stage.rounds (stage.count entry.residual.block) entry).length
    split_ifs with hblock
    · rw [hblock]
      exact hlength.2
    · exact (h.count_le block).trans hlength.1
  · rw [StageRounds.count_record]
    rcases hold hround e he with ⟨old, hk, hmem⟩ | ⟨rfl, hk⟩
    · have := h.count_lt k old hk e hmem
      split_ifs <;> omega
    · rw [if_pos rfl, hk]
      omega
  · obtain ⟨j, hj⟩ := List.mem_iff_getElem?.mp hround
    rcases mem_record h entry hj with hsame | ⟨-, rfl⟩
    · exact h.nonempty round (List.mem_of_getElem? hsame)
    · simp
  · obtain ⟨j, hj⟩ := List.mem_iff_getElem?.mp hround
    rcases hold hj e he with ⟨old, hk, hmem⟩ | ⟨rfl, -⟩
    · obtain ⟨hlt, hrest⟩ := h.members old (List.mem_of_getElem? hk) e hmem
      exact ⟨by omega, hrest⟩
    · exact ⟨by omega, hpoint, hcohort⟩
  · obtain ⟨j, hj⟩ := List.mem_iff_getElem?.mp hround
    rcases mem_record h entry hj with hsame | ⟨-, rfl⟩
    · exact h.increasing round (List.mem_of_getElem? hsame)
    · rw [List.pairwise_append]
      refine ⟨?_, List.pairwise_singleton _ _, fun e he e' he' => ?_⟩
      · cases hround : stage.rounds[j]? with
        | none => simp
        | some old => simpa [hround] using h.increasing old (List.mem_of_getElem? hround)
      · obtain ⟨old, hk, hmem⟩ := mem_getD he
        rw [List.mem_singleton.mp he', hindex]
        exact hbefore hk e hmem
  · obtain ⟨j, hj⟩ := List.mem_iff_getElem?.mp hround
    rcases mem_record h entry hj with hsame | ⟨hcount, rfl⟩
    · exact h.distinct round (List.mem_of_getElem? hsame)
    · rw [List.pairwise_append]
      refine ⟨?_, List.pairwise_singleton _ _, fun e he e' he' => ?_⟩
      · cases hround : stage.rounds[j]? with
        | none => simp
        | some old => simpa [hround] using h.distinct old (List.mem_of_getElem? hround)
      · -- the block of the residual is not in the round of its occurrence yet
        obtain ⟨old, hk, hmem⟩ := mem_getD he
        rw [List.mem_singleton.mp he']
        intro heq
        have := h.count_lt j old hk e hmem
        rw [heq] at this
        omega
  · intro j k round round' hj hk hjk e he e' he' hblock
    rcases hold hj e he with ⟨old, hold', hmem⟩ | ⟨rfl, hcount⟩
    · rcases hold hk e' he' with ⟨old', hold'', hmem'⟩ | ⟨rfl, -⟩
      · exact h.authored j k old old' hold' hold'' hjk e hmem e' hmem' hblock
      · rw [hindex]
        exact hbefore hold' e hmem
    · rcases hold hk e' he' with ⟨old', hold'', hmem'⟩ | ⟨rfl, hcount'⟩
      · have := h.count_lt k old' hold'' e' hmem'
        rw [← hblock] at this
        omega
      · omega

variable [DecidableEq P]

/-- The stages after a residual. -/
lemma recordIn_spec {n : ℕ} {names : List String} {entry : Indexed P} (hindex : entry.index = n)
    (hcohort : cohorts.lookup entry.residual.block = some names) :
    ∀ {stages : List (StageRounds P)}, (∀ stage ∈ stages, Regular cohorts n stage) →
      (∀ stage ∈ recordIn names entry stages, Regular cohorts (n + 1) stage) ∧
        ((recordIn names entry stages).flatMap fun stage => stage.rounds.flatten).Perm
          (entry :: stages.flatMap fun stage => stage.rounds.flatten)
  | [], _ => by
    refine ⟨?_, ?_⟩
    · simp only [recordIn, List.mem_singleton, forall_eq]
      exact (regular_empty n entry.residual.point names).record hindex rfl hcohort
    · simp only [recordIn, List.flatMap_singleton, List.flatMap_nil]
      exact StageRounds.flatten_appendTo [] _ entry
  | stage :: stages, h => by
    have hstage := h stage List.mem_cons_self
    have hrest : ∀ s ∈ stages, Regular cohorts n s := fun s hs =>
      h s (List.mem_cons_of_mem stage hs)
    rw [recordIn]
    split_ifs with hsame
    · refine ⟨fun s hs => ?_, ?_⟩
      · rcases List.mem_cons.mp hs with rfl | hs
        · exact hstage.record hindex hsame.1.symm (hsame.2 ▸ hcohort)
        · exact (hrest s hs).mono (Nat.le_succ n)
      · rw [List.flatMap_cons, List.flatMap_cons]
        exact (StageRounds.flatten_appendTo stage.rounds _ entry).append_right _
    · obtain ⟨hregular, hperm⟩ := recordIn_spec hindex hcohort hrest
      refine ⟨fun s hs => ?_, ?_⟩
      · rcases List.mem_cons.mp hs with rfl | hs
        · exact hstage.mono (Nat.le_succ n)
        · exact hregular s hs
      · rw [List.flatMap_cons, List.flatMap_cons]
        exact (hperm.append_left _).trans List.perm_middle

/-- The points and the cohorts of the stages after a residual. -/
lemma recordIn_keys (names : List String) (entry : Indexed P) : ∀ stages : List (StageRounds P),
    (recordIn names entry stages).map (fun stage => (stage.point, stage.cohort)) =
        stages.map (fun stage => (stage.point, stage.cohort)) ∨
      (entry.residual.point, names) ∉ stages.map (fun stage => (stage.point, stage.cohort)) ∧
        (recordIn names entry stages).map (fun stage => (stage.point, stage.cohort)) =
          stages.map (fun stage => (stage.point, stage.cohort)) ++ [(entry.residual.point, names)]
  | [] => .inr ⟨by simp, rfl⟩
  | stage :: stages => by
    rw [recordIn]
    split_ifs with hsame
    · exact .inl rfl
    · rcases recordIn_keys names entry stages with hkeys | ⟨hnew, hkeys⟩
      · exact .inl (by rw [List.map_cons, hkeys, List.map_cons])
      · refine .inr ⟨?_, by rw [List.map_cons, hkeys, List.map_cons, List.cons_append]⟩
        rw [List.map_cons, List.mem_cons, Prod.mk.injEq, not_or]
        exact ⟨fun h => hsame ⟨h.1.symm, h.2.symm⟩, hnew⟩

/-- No two stages have one point and one cohort. -/
lemma partition_nodup : ∀ {indexed : List (Value P × ℕ)} {stages stages' : List (StageRounds P)},
    (stages.map fun stage => (stage.point, stage.cohort)).Nodup →
    partition cohorts indexed stages = .ok stages' →
    (stages'.map fun stage => (stage.point, stage.cohort)).Nodup
  | [], _, _, hnodup, h => by
    rw [partition, Except.ok.injEq] at h
    exact h ▸ hnodup
  | (value, index) :: rest, stages, stages', hnodup, h => by
    rw [partition] at h
    split at h
    · exact partition_nodup hnodup h
    · split at h
      · cases h
      · refine partition_nodup ?_ h
        rcases recordIn_keys _ _ stages with hkeys | ⟨hnew, hkeys⟩
        · rw [hkeys]
          exact hnodup
        · rw [hkeys]
          exact List.nodup_append.mpr ⟨hnodup, List.nodup_singleton _, fun a ha b hb hab =>
            hnew (List.mem_singleton.mp hb ▸ hab ▸ ha)⟩

/-- **The stages after the loop**: they hold every default residual once. -/
theorem partition_spec :
    ∀ {values : List (Value P)} {n : ℕ} {stages stages' : List (StageRounds P)},
    (∀ stage ∈ stages, Regular cohorts n stage) →
    partition cohorts (values.zipIdx n) stages = .ok stages' →
    (∀ stage ∈ stages', Regular cohorts (n + values.length) stage) ∧
      (stages'.flatMap fun stage => stage.rounds.flatten).Perm
        (residualsOf (values.zipIdx n) ++ stages.flatMap fun stage => stage.rounds.flatten)
  | [], n, stages, stages', hstages, h => by
    simp only [List.zipIdx_nil, partition, Except.ok.injEq] at h
    subst h
    exact ⟨by simpa using hstages, by simp [residualsOf]⟩
  | value :: values, n, stages, stages', hstages, h => by
    have hlength : n + (value :: values).length = n + 1 + values.length := by
      rw [List.length_cons]
      omega
    rw [List.zipIdx_cons, partition] at h
    rw [hlength, List.zipIdx_cons, residualsOf, List.filterMap_cons]
    cases hresidual : groupableDefaultRhs value with
    | none =>
      simp only [hresidual] at h
      exact partition_spec (fun stage hstage => (hstages stage hstage).mono (Nat.le_succ n)) h
    | some residual =>
      simp only [hresidual] at h
      cases hcohort : cohorts.lookup residual.block with
      | none => simp [hcohort] at h
      | some names =>
        simp only [hcohort] at h
        have hindex : (Indexed.mk n residual).index = n := rfl
        obtain ⟨hregular, hperm⟩ := recordIn_spec hindex hcohort hstages
        obtain ⟨hall, hflat⟩ := partition_spec hregular h
        exact ⟨hall, (hflat.trans (hperm.append_left _)).trans List.perm_middle⟩

end Stages

/-! ## Rounds -/

/-- A loop that raises passes when there is no error. -/
lemma raiseFirst_eq_ok {α : Type} {error : α → Option PyError} {l : List α} {u : Unit} :
    raiseFirst error l = .ok u ↔ ∀ a ∈ l, error a = none := by
  unfold raiseFirst
  cases h : l.findSome? error with
  | some e =>
    obtain ⟨a, ha, herror⟩ := List.exists_of_findSome?_eq_some h
    refine ⟨fun hok => (by cases hok), fun hnone => ?_⟩
    rw [hnone a ha] at herror
    cases herror
  | none => exact ⟨fun _ => List.findSome?_eq_none_iff.mp h, fun _ => rfl⟩

/-- The elements of `values[first:stop]`. -/
lemma mem_between {α : Type} {values : List α} {first stop j : ℕ} {a : α} (hfirst : first ≤ j)
    (hstop : j < stop) (ha : values[j]? = some a) : a ∈ between values first stop := by
  refine List.mem_of_getElem? (i := j - first) ?_
  rw [between, List.getElem?_take_of_lt (by omega), List.getElem?_drop, ← ha]
  congr 1
  omega

/-- A node that a round may cross. -/
def Crossable (node : Value P) :
    Prop := (groupableDefaultRhs node).isSome ∨ node.op ∈ reorderableOps

/-- The checks of a round with several members that passed: the states are there at the barrier,
which does not lie behind the last member, what lies between a member and the barrier may be
crossed, and no node in front of the barrier reads a member that is delayed past it. -/
structure Movable (values : List (Value P)) (round : Round P) : Prop where
  produced : ∀ e ∈ round.indexedValues, ∃ p, producerIndex values e.residual.state.id = some p ∧
    p < round.barrierIndex
  inside : ∃ last ∈ round.indexedValues, round.barrierIndex ≤ last.index
  crossed : ∀ e ∈ round.indexedValues, ∀ (j : ℕ) (node : Value P), values[j]? = some node →
    node.id ∉ round.indexedValues.map (fun e => e.residual.id) →
    e.index < j ∧ j < round.barrierIndex ∨ round.barrierIndex ≤ j ∧ j < e.index → Crossable node
  delayed : ∀ e ∈ round.indexedValues, ∀ (j : ℕ) (node : Value P), values[j]? = some node →
    node.id ∉ round.indexedValues.map (fun e => e.residual.id) → e.index < j →
      j < round.barrierIndex →
    ∀ input ∈ node.inputs, input.id ∉ round.indexedValues.map (fun e => e.residual.id)

/-- A consumer without an error reads no member. -/
lemma notMem_of_consumerError {memberIds : List ℕ} {consumer : Value P}
    (hmember : consumer.id ∉ memberIds) (h : consumerError memberIds consumer = none) :
    ∀ input ∈ consumer.inputs, input.id ∉ memberIds := by
  intro input hinput hid
  unfold consumerError at h
  rw [if_neg hmember] at h
  have hconsumed : input.id ∈ ((consumer.inputs.map Value.id).filter (· ∈ memberIds)).insertionSort
      (· ≤ ·) := by
    rw [(List.perm_insertionSort _ _).mem_iff, List.mem_filter]
    exact ⟨List.mem_map_of_mem hinput, by simpa using hid⟩
  dsimp only at h
  split_ifs at h with hempty
  rw [hempty] at hconsumed
  cases hconsumed

/-- The producers of the states of the members. -/
lemma stateProducers_spec {values : List (Value P)} {candidates : List (Indexed P)}
    {producers : List ℕ} (h : candidates.mapM (stateProducer values) = .ok producers) :
    ∀ e ∈ candidates, ∃ p, producerIndex values e.residual.state.id = some p ∧ p ∈ producers := by
  intro e he
  obtain ⟨p, hp, hproducer⟩ := (mem_of_mapM h).1 e he
  refine ⟨p, ?_, hp⟩
  unfold stateProducer at hproducer
  split at hproducer
  case h_1 index hindex =>
    rw [hindex, Except.ok.inj hproducer]
  case h_2 => cases hproducer

/-- A maximum over a list. -/
lemma le_foldl_max {l : List ℕ} {a b : ℕ} (h : a ∈ l ∨ a ≤ b) : a ≤ l.foldl max b := by
  induction l generalizing b with
  | nil => simpa using h
  | cons c l ih =>
    refine ih ?_
    rcases h with h | h
    · rcases List.mem_cons.mp h with rfl | h
      · exact .inr (le_max_right b a)
      · exact .inl h
    · exact .inr (h.trans (le_max_left b c))

section Plan

variable [DecidableEq P] {values : List (Value P)} {cohorts : List (String × List String)}

/-- A node without a crossing error may be crossed. -/
lemma crossable_of_crossingError {stage : StageRounds P} {memberIds : List ℕ} {node : Value P}
    (hmember : node.id ∉ memberIds) (h : crossingError cohorts stage memberIds node = none) :
    Crossable node := by
  unfold crossingError at h
  rw [if_neg hmember] at h
  cases hnode : groupableDefaultRhs node with
  | some residual => exact .inl (by rw [hnode]; rfl)
  | none =>
    simp only [hnode] at h
    right
    by_contra hop
    simp [hop] at h

/-- **A planned round.** -/
theorem planRound_spec {stage : StageRounds P} {occurrence : ℕ} {candidates : List (Indexed P)}
    {occupied occupied' : List ℕ} {round : Round P}
    (hincreasing : candidates.Pairwise fun e e' => e.index < e'.index)
    (h : planRound values cohorts stage occurrence candidates occupied = .ok (round, occupied')) :
    round.point = stage.point ∧ round.occurrence = occurrence ∧ round.indexedValues = candidates ∧
      (1 < candidates.length → Movable values round ∧ round.barrierIndex ∉ occupied ∧
        occupied' = round.barrierIndex :: occupied) ∧
      (candidates.length ≤ 1 → occupied' = occupied) := by
  match candidates, hincreasing, h with
  | [], _, h => cases h
  | [only], _, h =>
    simp only [planRound, Except.ok.injEq, Prod.mk.injEq] at h
    obtain ⟨rfl, rfl⟩ := h
    exact ⟨rfl, rfl, rfl, by simp, fun _ => rfl⟩
  | first :: second :: rest, hincreasing, h =>
    simp only [planRound, bind_eq_ok, raiseIf_eq_ok, raiseFirst_eq_ok, Except.ok.injEq,
      Prod.mk.injEq] at h
    obtain ⟨producers, hproducers, -, hlast, -, hcrossing, -, hconsumer, -, hfree, rfl, rfl⟩ := h
    -- the first member is the smallest one and the last member the largest one
    have hfirst : ∀ e ∈ first :: second :: rest, first.index ≤ e.index := by
      intro e he
      rcases List.mem_cons.mp he with rfl | he
      · exact le_rfl
      · exact (List.rel_of_pairwise_cons hincreasing he).le
    have hmax : ∀ e ∈ first :: second :: rest,
        e.index ≤ ((second :: rest).getLast (by simp)).index := by
      intro e he
      have hlastmem := List.getLast_mem (l := second :: rest) (by simp)
      rcases List.mem_cons.mp he with rfl | he
      · exact (List.rel_of_pairwise_cons hincreasing hlastmem).le
      · have htail := (List.pairwise_cons.mp hincreasing).2
        rw [← List.dropLast_append_getLast (l := second :: rest) (by simp)] at he htail
        rcases List.mem_append.mp he with he | he
        · exact ((List.pairwise_append.mp htail).2.2 e he _ (by simp)).le
        · rw [List.mem_singleton.mp he]
    refine ⟨rfl, rfl, rfl, fun _ => ⟨⟨fun e he => ?_, ?_, ?_, ?_⟩, hfree, rfl⟩, by simp⟩
    · obtain ⟨p, hp, hmem⟩ := stateProducers_spec hproducers e he
      refine ⟨p, hp, ?_⟩
      have hle : p ≤ producers.foldl max 0 := le_foldl_max (.inl hmem)
      show p < max first.index (producers.foldl max 0 + 1)
      omega
    · exact ⟨_, List.mem_cons_of_mem _ (List.getLast_mem (by simp)), not_lt.mp hlast⟩
    · intro e he j node hnode hmember hj
      have hlow := hfirst e he
      have hhigh := hmax e he
      refine crossable_of_crossingError hmember (hcrossing node (mem_between (j := j) ?_ ?_ hnode))
      · show first.index ≤ j
        change e.index < j ∧ _ ∨ max first.index (producers.foldl max 0 + 1) ≤ j ∧ _ at hj
        omega
      · change e.index < j ∧ j < max first.index (producers.foldl max 0 + 1) ∨ _ at hj
        omega
    · intro e he j node hnode hmember hlow hj
      have := hfirst e he
      exact notMem_of_consumerError hmember
        (hconsumer node (mem_between (j := j) (by omega) hj hnode))

/-- A round of a stage, with its number and its members. -/
def IsRound (stage : StageRounds P) (round : Round P) : Prop :=
  round.point = stage.point ∧ stage.rounds[round.occurrence]? = some round.indexedValues

/-- The barriers of the groups, the last one first. -/
def barriers (rounds : List (Round P)) : List ℕ := ((groups rounds).map Round.barrierIndex).reverse

omit [DecidableEq P] in
/-- The groups of rounds one after the other. -/
lemma groups_append (rounds others : List (Round P)) :
    groups (rounds ++ others) = groups rounds ++ groups others := List.filter_append ..

omit [DecidableEq P] in
/-- The barriers of rounds one after the other. -/
lemma barriers_append (rounds others : List (Round P)) :
    barriers (rounds ++ others) = barriers others ++ barriers rounds := by
  simp [barriers, groups_append]

/-- The planned rounds of a stage. -/
lemma planStage_spec {stage : StageRounds P} :
    ∀ {candidates : List (List (Indexed P))} {k : ℕ} {occupied occupied' : List ℕ}
      {rounds : List (Round P)}, (∀ round ∈ candidates, round.Pairwise fun e e' =>
        e.index < e'.index) →
      planStage values cohorts stage k candidates occupied = .ok (rounds, occupied') →
      rounds.map Round.indexedValues = candidates ∧
        (∀ round ∈ rounds, round.point = stage.point ∧ k ≤ round.occurrence ∧
          candidates[round.occurrence - k]? = some round.indexedValues) ∧
        (∀ round ∈ groups rounds, Movable values round) ∧ occupied' = barriers rounds ++ occupied ∧
        (occupied.Nodup → occupied'.Nodup)
  | [], k, occupied, occupied', rounds, _, h => by
    simp only [planStage, Except.ok.injEq, Prod.mk.injEq] at h
    obtain ⟨rfl, rfl⟩ := h
    simp [barriers, groups]
  | first :: rest, k, occupied, occupied', rounds, hincreasing, h => by
    simp only [planStage, bind_eq_ok, Except.ok.injEq, Prod.mk.injEq, Prod.exists] at h
    obtain ⟨round, middle, hround, others, last, hrest, rfl, rfl⟩ := h
    obtain ⟨hpoint, hoccurrence, hmembers, hmany, hone⟩ :=
      planRound_spec (hincreasing first List.mem_cons_self) hround
    obtain ⟨hmap, hall, hmovable, hlast, hnodup⟩ :=
      planStage_spec (fun r hr => hincreasing r (List.mem_cons_of_mem first hr)) hrest
    refine ⟨by rw [List.map_cons, hmembers, hmap], fun r hr => ?_, ?_⟩
    · rcases List.mem_cons.mp hr with rfl | hr
      · exact ⟨hpoint, hoccurrence.ge, by rw [hoccurrence, Nat.sub_self, hmembers]; rfl⟩
      · obtain ⟨hp, hk, hget⟩ := hall r hr
        refine ⟨hp, by omega, ?_⟩
        rw [show r.occurrence - k = r.occurrence - (k + 1) + 1 by omega,
          List.getElem?_cons_succ, hget]
    · by_cases hlength : 1 < first.length
      · obtain ⟨hmove, hfree, rfl⟩ := hmany hlength
        have hgroups : groups (round :: others) = round :: groups others := by
          simp [groups, hmembers, hlength]
        refine ⟨fun r hr => ?_, ?_, fun hocc => hnodup (List.nodup_cons.mpr ⟨hfree, hocc⟩)⟩
        · rw [hgroups] at hr
          rcases List.mem_cons.mp hr with rfl | hr
          · exact hmove
          · exact hmovable r hr
        · simp [hlast, barriers, hgroups]
      · have hgroups : groups (round :: others) = groups others := by
          simp [groups, hmembers, hlength]
        have hsame := hone (not_lt.mp hlength)
        refine ⟨by rwa [hgroups], ?_, fun hocc => hnodup (hsame ▸ hocc)⟩
        simp [hlast, barriers, hgroups, hsame]

/-- The planned rounds of all stages. -/
lemma planStages_spec :
    ∀ {stages : List (StageRounds P)} {occupied : List ℕ} {rounds : List (Round P)},
    (∀ stage ∈ stages, ∀ round ∈ stage.rounds, round.Pairwise fun e e' => e.index < e'.index) →
    planStages values cohorts stages occupied = .ok rounds →
    rounds.flatMap Round.indexedValues = stages.flatMap (fun stage => stage.rounds.flatten) ∧
      (∀ round ∈ rounds, ∃ stage ∈ stages, IsRound stage round) ∧
      (∀ round ∈ groups rounds, Movable values round) ∧
      (occupied.Nodup → (barriers rounds ++ occupied).Nodup)
  | [], occupied, rounds, _, h => by
    simp only [planStages, Except.ok.injEq] at h
    subst h
    simp [barriers, groups]
  | stage :: stages, occupied, rounds, hincreasing, h => by
    simp only [planStages, bind_eq_ok, Except.ok.injEq, Prod.exists] at h
    obtain ⟨first, middle, hfirst, others, hothers, rfl⟩ := h
    obtain ⟨hmap, hall, hmovable, rfl, hnodup⟩ :=
      planStage_spec (hincreasing stage List.mem_cons_self) hfirst
    obtain ⟨hflat, hrounds, hmovable', hnodup'⟩ :=
      planStages_spec (fun s hs => hincreasing s (List.mem_cons_of_mem stage hs)) hothers
    refine ⟨?_, fun round hround => ?_, fun round hround => ?_, fun hocc => ?_⟩
    · rw [List.flatMap_append, hflat, List.flatMap_cons, ← hmap, List.flatMap_def]
    · rcases List.mem_append.mp hround with hround | hround
      · obtain ⟨hpoint, -, hget⟩ := hall round hround
        exact ⟨stage, List.mem_cons_self, hpoint, hget⟩
      · obtain ⟨s, hs, his⟩ := hrounds round hround
        exact ⟨s, List.mem_cons_of_mem stage hs, his⟩
    · rw [groups_append] at hround
      exact (List.mem_append.mp hround).elim (hmovable round) (hmovable' round)
    · rw [barriers_append, List.append_assoc]
      exact hnodup' (hnodup hocc)

/-! ## Plans -/

/-- What is behind a plan: its rounds are those of the stages, sorted. -/
lemma plan_stages {neighbours : Option Neighbours} {rounds : List (Round P)}
    (h : planRhsCoherence values neighbours = .ok rounds) :
    ∃ cohorts stages sorted, rhsCohorts values neighbours = .ok cohorts ∧
      (∀ stage ∈ stages, Regular cohorts values.length stage) ∧
      (stages.flatMap fun stage => stage.rounds.flatten).Perm (residuals values) ∧
      (stages.map fun stage => (stage.point, stage.cohort)).Nodup ∧
      planStages values cohorts stages [] = .ok sorted ∧ rounds.Perm sorted := by
  simp only [planRhsCoherence, bind_eq_ok, Except.ok.injEq] at h
  obtain ⟨cohorts, hcohorts, stages, hstages, sorted, hsorted, rfl⟩ := h
  have hnone : ∀ stage ∈ ([] : List (StageRounds P)), Regular cohorts 0 stage := by simp
  obtain ⟨hregular, hperm⟩ := partition_spec hnone hstages
  refine ⟨cohorts, stages, sorted, hcohorts, by simpa using hregular, ?_,
    partition_nodup (by simp) hstages, hsorted, List.perm_insertionSort _ _⟩
  simpa [residuals] using hperm

omit [DecidableEq P] in
/-- Two members of a plan with one stage point and one block enter the rounds in their order. -/
lemma occurrence_lt_iff {n : ℕ} {stages : List (StageRounds P)}
    (hregular : ∀ stage ∈ stages, Regular cohorts n stage)
    (hnodup : (stages.map fun stage => (stage.point, stage.cohort)).Nodup)
    {stage stage' : StageRounds P} (hstage : stage ∈ stages) (hstage' : stage' ∈ stages)
    {round round' : Round P} (hround : IsRound stage round) (hround' : IsRound stage' round')
    {e e' : Indexed P} (he : e ∈ round.indexedValues) (he' : e' ∈ round'.indexedValues)
    (hpoint : round.point = round'.point) (hblock : e.residual.block = e'.residual.block) :
    e.index < e'.index ↔ round.occurrence < round'.occurrence := by
  have hmem := List.mem_of_getElem? hround.2
  have hmem' := List.mem_of_getElem? hround'.2
  obtain ⟨-, -, hlookup⟩ := (hregular stage hstage).members _ hmem e he
  obtain ⟨-, -, hlookup'⟩ := (hregular stage' hstage').members _ hmem' e' he'
  -- one block has one cohort, and one stage has this cohort and the point
  have hkey : (stage.point, stage.cohort) = (stage'.point, stage'.cohort) := by
    rw [hblock] at hlookup
    rw [← hround.1, ← hround'.1, hpoint, Option.some.inj (hlookup.symm.trans hlookup')]
  obtain rfl : stage = stage' := List.inj_on_of_nodup_map hnodup hstage hstage' hkey
  have hstage := hregular stage hstage
  rcases lt_trichotomy round.occurrence round'.occurrence with hlt | heq | hgt
  · exact iff_of_true (hstage.authored _ _ _ _ hround.2 hround'.2 hlt e he e' he' hblock) hlt
  · -- the blocks of one round are different
    have hsame : round.indexedValues = round'.indexedValues :=
      Option.some.inj (hround.2.symm.trans (heq ▸ hround'.2))
    have hblocks : (round.indexedValues.map fun e => e.residual.block).Nodup :=
      List.pairwise_map.mpr (hstage.distinct _ hmem)
    have hee : e = e' := List.inj_on_of_nodup_map hblocks he (hsame ▸ he') hblock
    rw [hee, heq]
    simp
  · have := hstage.authored _ _ _ _ hround'.2 hround.2 hgt e' he' e he hblock.symm
    omega

/-- **The rounds of a plan.**  Every default residual is in exactly one round.  The members of a
round have its stage point, one cohort, different blocks and increasing positions, and two residuals
of one block at one stage point enter the rounds in the order in which they were authored.

**Proof sketch.** The loop over the nodes keeps `Regular` stages with different points or cohorts
(`partition_spec`, `partition_nodup`), and the checks of the rounds change nothing
(`planStages_spec`). -/
theorem planRhsCoherence_partitions {neighbours : Option Neighbours} {rounds : List (Round P)}
    (h : planRhsCoherence values neighbours = .ok rounds) :
    ∃ cohorts, rhsCohorts values neighbours = .ok cohorts ∧
      (rounds.flatMap Round.indexedValues).Perm (residuals values) ∧
      (∀ round ∈ rounds, round.indexedValues ≠ [] ∧
        (round.indexedValues.Pairwise fun e e' =>
          e.index < e'.index ∧ e.residual.block ≠ e'.residual.block) ∧
        ∃ names, ∀ e ∈ round.indexedValues, e.residual.point = round.point ∧
          cohorts.lookup e.residual.block = some names) ∧
      ∀ round ∈ rounds, ∀ round' ∈ rounds, round.point = round'.point →
        ∀ e ∈ round.indexedValues, ∀ e' ∈ round'.indexedValues,
        e.residual.block = e'.residual.block →
          (e.index < e'.index ↔ round.occurrence < round'.occurrence) := by
  obtain ⟨cohorts, stages, sorted, hcohorts, hregular, hperm, hnodup, hsorted, hrounds⟩ :=
    plan_stages h
  obtain ⟨hflat, hstage, -, -⟩ :=
    planStages_spec (fun stage hstage => (hregular stage hstage).increasing) hsorted
  refine ⟨cohorts, hcohorts, ?_, fun round hround => ?_,
    fun round hround round' hround' hpoint e he e' he'
    hblock => ?_⟩
  · exact (hrounds.flatMap_right Round.indexedValues).trans (hflat ▸ hperm)
  · obtain ⟨stage, hmem, hpoint, hget⟩ := hstage round (hrounds.subset hround)
    have hin := List.mem_of_getElem? hget
    have hstage := hregular stage hmem
    refine ⟨hstage.nonempty _ hin, (hstage.increasing _ hin).and (hstage.distinct _ hin),
      stage.cohort, fun e he => ?_⟩
    obtain ⟨-, he', hcohort⟩ := hstage.members _ hin e he
    exact ⟨he'.trans hpoint.symm, hcohort⟩
  · obtain ⟨stage, hmem, his⟩ := hstage round (hrounds.subset hround)
    obtain ⟨stage', hmem', his'⟩ := hstage round' (hrounds.subset hround')
    exact occurrence_lt_iff hregular hnodup hmem hmem' his his' he he' hpoint hblock

end Plan

/-! ## Two coupled blocks -/

/-- The state of a block. -/
def stateOf (id : ℕ) (block : String) : Value ℕ := .other id block "state" (some block) none []

/-- The default residual of a block at a state. -/
def residualOf (id : ℕ) (block : String) (state : Value ℕ) : Value ℕ :=
  .rhs id "rate" block ⟨none, none, none⟩ 0 none state []

/-- The residual of the left block is authored in front of the state of the right block. -/
def coupledValues : List (Value ℕ) :=
  [stateOf 0 "left", residualOf 1 "left" (stateOf 0 "left"), stateOf 2 "right",
    residualOf 3 "right" (stateOf 2 "right")]

/-- The rounds of two coupled blocks are planned. -/
lemma planned_coupledValues : ∃ rounds, planRhsCoherence coupledValues none = .ok rounds := by
  have hok : (planRhsCoherence coupledValues none).isOk = true := by decide +kernel
  cases hplan : planRhsCoherence coupledValues none with
  | error e =>
    rw [hplan] at hok
    cases hok
  | ok rounds => exact ⟨rounds, rfl⟩

/-- The rounds of two coupled blocks partition their residuals; the members of a round share its
stage point, and the residuals of a block keep their order. -/
theorem planRhsCoherence_partitions_coupled : ∃ rounds cohorts,
    planRhsCoherence coupledValues none = .ok rounds ∧ rhsCohorts coupledValues none = .ok cohorts ∧
      (rounds.flatMap Round.indexedValues).Perm (residuals coupledValues) ∧
      (∀ round ∈ rounds, round.indexedValues ≠ [] ∧
        (round.indexedValues.Pairwise fun e e' =>
          e.index < e'.index ∧ e.residual.block ≠ e'.residual.block) ∧
        ∃ names, ∀ e ∈ round.indexedValues, e.residual.point = round.point ∧
          cohorts.lookup e.residual.block = some names) ∧
      ∀ round ∈ rounds, ∀ round' ∈ rounds, round.point = round'.point →
        ∀ e ∈ round.indexedValues, ∀ e' ∈ round'.indexedValues,
        e.residual.block = e'.residual.block →
          (e.index < e'.index ↔ round.occurrence < round'.occurrence) := by
  obtain ⟨rounds, hplan⟩ := planned_coupledValues
  obtain ⟨cohorts, hcohorts, hperm, hmembers, horder⟩ := planRhsCoherence_partitions hplan
  exact ⟨rounds, cohorts, hplan, hcohorts, hperm, hmembers, horder⟩

end RhsCoherence

end Codegen

end Pops
