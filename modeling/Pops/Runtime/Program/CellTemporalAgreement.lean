import Pops.Runtime.Program.CellTemporalSchedule

/-!
# Agreement of the ranks of a cell-local temporal executor

Every phase of an operation keeps what the ranks have in common: the partition with its accepted
image and its attempt, the clocks of the batches, the attempt flag, and the attempts for which the
provider has been told to commit.  A phase that fails on one rank is undone on all of them.

## Main definitions

* `Pops.CellTemporal.Common` — what the ranks have in common.
* `Pops.CellTemporal.Layout`, `Active` — the invariants of the common part.
* `Pops.CellTemporal.Consistent` — the ranks agree, and the invariants hold.

## Main results

* `Pops.CellTemporal.phase` — a phase with consensus.
* `Pops.CellTemporal.runBatch_spec`, `executeBatches_spec` — one event, and the loop over all of
  them.
* `Pops.CellTemporal.advanceToBarrier_spec` — an attempt up to its barrier.
-/

namespace Pops.CellTemporal

open Spmd

/-! ## What the ranks have in common -/

/-- The attempts that a provider has been asked to begin, in a log with the newest call first. -/
def attempts : List Call → ℕ
  | [] => 0
  | .beginAttempt _ :: calls => attempts calls + 1
  | _ :: calls => attempts calls

/-- The attempts that a provider has been told to commit, by their number. -/
def committed : List Call → List ℕ
  | [] => []
  | .commitAttempt :: calls => attempts calls :: committed calls
  | _ :: calls => committed calls

/-- What the ranks have in common. -/
structure Common where
  partition : Partition
  clocks : List Clock
  targetTick : ℤ
  attemptActive : Bool
  attempts : ℕ
  committed : List ℕ
  events : List Event

/-- The common part of the state of a rank. -/
def Executor.common (s : Executor) : Common :=
  ⟨s.partition, s.batches.map RungBatch.clock, s.targetTick, s.attemptActive,
    CellTemporal.attempts s.calls, CellTemporal.committed s.calls, s.events⟩

/-- The prepared batches are the cells of the accepted image, grouped by rung. -/
structure Layout (c : Common) : Prop where
  valid : Valid c.partition.accepted
  strides : ∀ clock ∈ c.clocks, clock.stride = stride clock.rung
  sorted : c.clocks.Pairwise fun clock clock' => clock.rung < clock'.rung
  indices : ∀ clock ∈ c.clocks, clock.indices ≠ [] ∧ clock.indices.Pairwise (· < ·) ∧
    ∀ i, i ∈ clock.indices ↔
      ∃ cell, c.partition.accepted.cells[i]? = some cell ∧ cell.rung = clock.rung
  covered : ∀ cell ∈ c.partition.accepted.cells, ∃ clock ∈ c.clocks, clock.rung = cell.rung

/-- No attempt is active. -/
def Inactive (c : Common) : Prop := c.attemptActive = false ∧ c.partition.attemptActive = false

/-- An attempt is active, and its clocks are on their way from the accepted tick to the target. -/
structure Active (c : Common) : Prop where
  active : c.attemptActive = true
  attempt : c.partition.attemptActive = true
  target : c.partition.targetTick = c.targetTick
  ahead : c.partition.accepted.synchronizationTick < c.targetTick
  range : c.targetTick ≤ int64Max
  clocks : ClocksOk c.partition.accepted.synchronizationTick c.targetTick c.clocks
  length : c.partition.pendingTicks.length = c.partition.accepted.cells.length
  pending : ∀ clock ∈ c.clocks, ∀ i ∈ clock.indices,
    c.partition.pendingTicks[i]? = some clock.tick
  schedule : Schedule c.partition.accepted.synchronizationTick c.targetTick c.clocks c.events

/-- The invariant of the common part. -/
def Ok (c : Common) : Prop := Layout c ∧ (Inactive c ∨ Active c)

/-- The common part after `rollback`. -/
def Common.rollback (c : Common) : Common :=
  if c.attemptActive then
    ⟨c.partition.rollback, c.clocks, 0, false, c.attempts, c.committed, c.events⟩
  else c

/-- A rollback of a rank is a rollback of its common part. -/
lemma common_rollback (s : Executor) : (rollback s).common = s.common.rollback := by
  by_cases h : s.attemptActive = true
  · simp only [CellTemporal.rollback, Common.rollback, Executor.common, h, if_true]
    rfl
  · have hactive : s.common.attemptActive = false := by simpa [Executor.common] using h
    simp [CellTemporal.rollback, Common.rollback, h, hactive]

/-- A rollback keeps the layout. -/
theorem Layout.rollback {c : Common} (h : Layout c) : Layout c.rollback := by
  unfold Common.rollback
  split_ifs
  · exact ⟨h.valid, h.strides, h.sorted, h.indices, h.covered⟩
  · exact h

/-- A rollback ends an active attempt. -/
lemma ok_rollback_of_active {c : Common} (h : Layout c) (hactive : c.attemptActive = true) :
    Ok c.rollback := by
  refine ⟨h.rollback, .inl ?_⟩
  simp [Common.rollback, hactive, Inactive, Partition.rollback]

/-- A rollback keeps the invariant. -/
theorem Ok.rollback {c : Common} (h : Ok c) : Ok c.rollback := by
  rcases h.2 with hinactive | hactive
  · refine ⟨h.1.rollback, .inl ?_⟩
    simpa [Common.rollback, hinactive.1] using hinactive
  · exact ok_rollback_of_active h.1 hactive.active

section Agreement

variable {ι : Type} [Fintype ι] [Inhabited ι]

/-- All ranks have the common part. -/
def Agreed (c : Common) (s : ι → Executor) : Prop := ∀ rank, (s rank).common = c

/-- The ranks agree, and the invariant holds. -/
def Consistent (s : ι → Executor) : Prop := ∃ c, Ok c ∧ Agreed c s

/-- The ranks have aborted, for a reason. -/
def Aborted (F : Prop) (s : ι → Executor) : Prop := F ∧ Consistent s

variable {α : Type} {F : Prop} {c d : Common}

omit [Fintype ι] [Inhabited ι] in
/-- Ranks that roll back have aborted. -/
lemma aborted_rollback (hF : F) (hok : Ok c.rollback) {s : ι → Executor} (hs : Agreed c s) :
    Aborted F fun rank => rollback (s rank) := by
  refine ⟨hF, c.rollback, hok, fun rank => ?_⟩
  rw [common_rollback, hs rank]

/-- A phase with consensus takes one common part to another, whether it fails or not; if it fails
on some rank, all ranks roll back. -/
theorem phase {block : ι → Block Executor α} {message : String} {R : ι → α → Prop}
    (hstep : ∀ rank s, s.common = c → (block rank s).2.common = d)
    (hok : Ok d.rollback)
    (hfail : ∀ rank s e, s.common = c → (block rank s).1 = .error e → F)
    (hresult : ∀ rank s a s', s.common = c → block rank s = (.ok a, s') → R rank a) :
    Triple (Agreed c) (fun rank => consensus (block rank) rollback message)
      (fun a s => (∀ rank, R rank (a rank)) ∧ Agreed d s) (Aborted F) := by
  apply Triple.consensus
  · intro s hs a s' hblock
    refine ⟨fun rank => hresult rank (s rank) (a rank) (s' rank) (hs rank) (hblock rank), ?_⟩
    intro rank
    have hcommon := hstep rank (s rank) (hs rank)
    rw [hblock rank] at hcommon
    exact hcommon
  · rintro s hs ⟨rank, e, he⟩
    have hF := hfail rank (s rank) e (hs rank) he
    exact aborted_rollback hF hok fun rank => hstep rank (s rank) (hs rank)

/-- A read of ranks that agree. -/
lemma read_agreed {E : (ι → Executor) → Prop} :
    Triple (Agreed c) (fun _ => (Spmd.read : Computation Executor Executor))
      (fun a s => Agreed c a ∧ Agreed c s) E :=
  Triple.read.consequence (fun _ hs => hs) (fun _ _ h => ⟨h.1 ▸ h.2, h.2⟩) fun _ hs => hs

end Agreement

/-! ## Calls keep the common part -/

/-- The calls that begin or commit an attempt. -/
def Call.IsLifecycle : Call → Prop
  | .beginAttempt _ => True
  | .commitAttempt => True
  | _ => False

/-- A call that neither begins nor commits an attempt keeps the common part. -/
lemma common_log {s : Executor} {call : Call} (h : ¬ call.IsLifecycle) :
    (s.log call).common = s.common := by
  have hattempts : attempts (call :: s.calls) = attempts s.calls := by
    cases call <;> first | rfl | exact absurd trivial h
  have hcommitted : committed (call :: s.calls) = committed s.calls := by
    cases call <;> first | rfl | exact absurd trivial h
  simp only [Executor.common, Executor.log, hattempts, hcommitted]

/-- A call that may throw keeps the common part. -/
lemma preserves_callThrows {env : Environment} {call : Call} (h : ¬ call.IsLifecycle) :
    (callThrows env call).Preserves Executor.common := by
  intro s
  unfold callThrows
  split
  · exact common_log h
  · exact common_log h

/-- A call of an optional part of the lifecycle keeps the common part. -/
lemma preserves_hook {present : Bool} {env : Environment} {call : Call}
    (h : ¬ call.IsLifecycle) : (hook present env call).Preserves Executor.common := by
  unfold hook
  split_ifs
  · exact preserves_callThrows h
  · exact Block.preserves_pure _ _

/-- The digest of a contract keeps the common part. -/
lemma preserves_contractDigest (setup : Setup) (env : Environment) (state : AcceptedState) :
    (contractDigest setup env state).Preserves Executor.common := by
  apply Block.preserves_bind (preserves_callThrows (by simp [Call.IsLifecycle]))
  intro _
  apply Block.preserves_bind (Block.preserves_read _)
  intro s
  apply Block.preserves_bind (preserves_callThrows (by simp [Call.IsLifecycle]))
  intro _
  exact Block.preserves_pure _ _

/-! ## One event -/

/-- The environments of all ranks succeed: no call throws or is refused, every stage is accepted,
and the ranks serialize the same parameters. -/
structure Succeeds {ι : Type} (env : ι → Environment) : Prop where
  calls : ∀ rank log, (env rank).failure log = none
  support : ∀ rank log, refusedFlag ((env rank).support log) = 0
  outcomes : ∀ rank log, encodeOutcome ((env rank).outcome log) = 0
  parameters : ∀ rank log rank' log', (env rank).parameters log = (env rank').parameters log'

/-- The common part with an event launched. -/
def Common.launch (c : Common) (clock : Clock) : Common :=
  { c with events := c.events ++ [clock.event c.clocks] }

/-- The attempt clocks of a partition with a batch advanced. -/
def Partition.advanced (p : Partition) (indices : List ℕ) (tick : ℤ) : Partition :=
  ⟨p.accepted, indices.foldl (fun pending index => pending.set index tick) p.pendingTicks,
    p.targetTick, p.attemptActive⟩

/-- The common part after an event. -/
def Common.advance (c : Common) (position : ℕ) (clock : Clock) : Common :=
  { c.launch clock with
    partition := c.partition.advanced clock.indices clock.nextEnd
    clocks := c.clocks.set position (clock.moveTo clock.nextEnd) }

/-- The attempt clocks after a batch has advanced. -/
lemma getElem?_foldl_set (indices : List ℕ) (pending : List ℤ) (tick : ℤ) (i : ℕ) :
    (indices.foldl (fun pending index => pending.set index tick) pending)[i]? =
      if i ∈ indices ∧ i < pending.length then some tick else pending[i]? := by
  induction indices generalizing pending with
  | nil => simp
  | cons index indices ih =>
    simp only [List.foldl_cons, ih, List.length_set, List.mem_cons]
    by_cases hrest : i ∈ indices ∧ i < pending.length
    · simp [hrest]
    · rw [if_neg hrest, List.getElem?_set]
      by_cases hi : index = i
      · subst hi
        by_cases hlt : index < pending.length
        · simp [hlt]
        · simp [hlt]
      · have hne : i ≠ index := fun heq => hi heq.symm
        simp only [if_neg hi, hne, false_or]
        rw [if_neg hrest]

/-- A batch advances no clock that it does not have. -/
lemma length_foldl_set (indices : List ℕ) (pending : List ℤ) (tick : ℤ) :
    (indices.foldl (fun pending index => pending.set index tick) pending).length =
      pending.length := by
  induction indices generalizing pending with
  | nil => rfl
  | cons index indices ih => rw [List.foldl_cons, ih, List.length_set]

section Batches

variable {c : Common} {position : ℕ} {clock : Clock}

/-- An event keeps the layout. -/
theorem Layout.advance (h : Layout c) (hactive : Active c)
    (hnext : IsNext c.targetTick c.clocks position clock) : Layout (c.advance position clock) := by
  have hclocks := hactive.clocks.step hnext
  have hclock := List.mem_of_getElem? hnext.found
  refine ⟨h.valid, hclocks.strides, hclocks.sorted, fun other hother => ?_, fun cell hcell => ?_⟩
  · rcases hactive.clocks.mem_set hnext.found hother with rfl | ⟨hother, -⟩
    · exact h.indices clock hclock
    · exact h.indices other hother
  · obtain ⟨other, hother, hrung⟩ := h.covered cell hcell
    have hmem : cell.rung ∈ (c.advance position clock).clocks.map Clock.rung := by
      have hrungs : (c.clocks.set position (clock.moveTo clock.nextEnd)).map Clock.rung =
          c.clocks.map Clock.rung := map_rung_set hnext.found
      simp only [Common.advance, hrungs]
      exact hrung ▸ List.mem_map_of_mem hother
    obtain ⟨other', hother', hrung'⟩ := List.mem_map.mp hmem
    exact ⟨other', hother', hrung'⟩

/-- An event keeps the invariant of the attempt. -/
theorem Active.advance (hlayout : Layout c) (h : Active c)
    (hnext : IsNext c.targetTick c.clocks position clock) : Active (c.advance position clock) := by
  have hclock := List.mem_of_getElem? hnext.found
  refine ⟨h.active, h.attempt, h.target, h.ahead, h.range, h.clocks.step hnext, ?_, ?_,
    h.schedule.step h.clocks hnext⟩
  · exact (length_foldl_set _ _ _).trans h.length
  · intro other hother i hi
    simp only [Common.advance, Partition.advanced, getElem?_foldl_set]
    rcases h.clocks.mem_set hnext.found hother with rfl | ⟨hother, hrung⟩
    · have hpending := h.pending clock hclock i hi
      obtain ⟨hlt, -⟩ := List.getElem?_eq_some_iff.mp hpending
      exact if_pos ⟨hi, hlt⟩
    · -- a cell has one rung, so the batch does not touch the cells of another one
      have hother' : i ∉ clock.indices := by
        intro hi'
        obtain ⟨cell, hcell, hcell'⟩ := ((hlayout.indices clock hclock).2.2 i).mp hi'
        obtain ⟨cell', hfound, hcell''⟩ := ((hlayout.indices other hother).2.2 i).mp hi
        rw [hcell] at hfound
        rw [← Option.some.inj hfound] at hcell''
        exact hrung (hcell''.symm.trans hcell')
      rw [if_neg fun h => hother' h.1]
      exact h.pending other hother i hi

/-- The clock advance of the next batch is accepted. -/
theorem Active.advanceBatch (hlayout : Layout c) (h : Active c)
    (hnext : IsNext c.targetTick c.clocks position clock) :
    c.partition.advanceBatch clock.rung clock.indices clock.nextEnd =
      (.ok (), c.partition.advanced clock.indices clock.nextEnd) := by
  have hclock := List.mem_of_getElem? hnext.found
  obtain ⟨hlt, hle⟩ := h.clocks.nextEnd_le hclock hnext.behind
  obtain ⟨hnonempty, hsorted, hindices⟩ := hlayout.indices clock hclock
  have hstart := (h.clocks.ticks clock hclock).1
  have hsync := hlayout.valid.tick
  have hrange := h.range
  have htarget := h.target
  -- every index of the batch passes the checks, after any smaller index
  have hcheck : ∀ i ∈ clock.indices, ∀ previous, (∀ j ∈ previous, j < i) →
      c.partition.checkIndex clock.rung clock.nextEnd previous i = .ok (some i) := by
    intro i hi previous hprevious
    obtain ⟨cell, hcell, hrung⟩ := (hindices i).mp hi
    have hpending : c.partition.pendingTicks.getD i 0 = clock.tick := by
      rw [List.getD_eq_getElem?_getD, h.pending clock hclock i hi]
      rfl
    have hforward : Partition.checkForward clock.nextEnd clock.tick (stride cell.rung) =
        .ok () := by
      have hdifference := tickDifference_of_le (a := clock.nextEnd) (b := clock.tick)
        (by omega) (by omega) (by omega)
      have hdvd : stride cell.rung ∣ clock.nextEnd - clock.tick := by
        rw [hrung, ← hlayout.strides clock hclock, Clock.nextEnd, add_sub_cancel_left]
      rw [Partition.checkForward, if_neg (by omega), hdifference, ok_bind]
      exact throwIf_neg (not_not.mpr (tmod_stride_eq_zero.mpr hdvd))
    have hincreasing : ¬ Partition.NotIncreasing previous i := by
      rintro ⟨j, rfl, hj⟩
      have := hprevious j rfl
      omega
    simp only [Partition.checkIndex, hcell, hpending, throwIf_neg hincreasing,
      throwIf_neg (not_not.mpr hrung), hforward, ok_bind]
    rfl
  have hloop : ∀ (indices : List ℕ) (previous : Option ℕ), (∀ i ∈ indices, i ∈ clock.indices) →
      indices.Pairwise (· < ·) → (∀ i ∈ indices, ∀ j ∈ previous, j < i) →
      ∃ last, indices.foldlM (c.partition.checkIndex clock.rung clock.nextEnd) previous =
        .ok last := by
    intro indices
    induction indices with
    | nil => exact fun previous _ _ _ => ⟨previous, rfl⟩
    | cons i indices ih =>
      intro previous hmem hpairwise hprevious
      rw [List.pairwise_cons] at hpairwise
      obtain ⟨last, hlast⟩ := ih (some i) (fun j hj => hmem j (by simp [hj])) hpairwise.2
        fun j hj k hk => (Option.mem_some.mp hk) ▸ hpairwise.1 j hj
      refine ⟨last, ?_⟩
      rw [List.foldlM_cons, hcheck i (hmem i (by simp)) previous (hprevious i (by simp)), ok_bind]
      exact hlast
  obtain ⟨last, hlast⟩ := hloop clock.indices none (fun _ hi => hi) hsorted (by simp)
  have hbatch : c.partition.checkBatch clock.rung clock.indices clock.nextEnd = .ok () := by
    have hattempt := h.attempt
    rw [Partition.checkBatch, throwIf_neg (by simp [hattempt]), ok_bind, throwIf_neg hnonempty,
      ok_bind, throwIf_neg (by omega), ok_bind, hlast]
    rfl
  rw [Partition.advanceBatch, hbatch]
  rfl

end Batches

/-! ## The phases of an event -/

/-- A call that throws has failed. -/
lemma callThrows_error {env : Environment} {call : Call} {s : Executor} {e : Exception}
    (h : (callThrows env call s).1 = .error e) : ∃ log, env.failure log ≠ none := by
  unfold callThrows at h
  split at h
  · cases h
  · rename_i e' hfailure
    exact ⟨(s.log call).calls, by rw [hfailure]; simp⟩

/-- A call of an optional part of the lifecycle that throws has failed. -/
lemma hook_error {present : Bool} {env : Environment} {call : Call} {s : Executor}
    {e : Exception} (h : (hook present env call s).1 = .error e) :
    ∃ log, env.failure log ≠ none := by
  unfold hook at h
  split_ifs at h
  exact callThrows_error h

/-- A failed call of a rank is a failure of the environments. -/
lemma not_succeeds_of_failure {ι : Type} {env : ι → Environment} {rank : ι}
    (h : ∃ log, (env rank).failure log ≠ none) : ¬ Succeeds env := by
  obtain ⟨log, hlog⟩ := h
  exact fun hsucceeds => hlog (hsucceeds.calls rank log)

/-- The kernel returns, keeps the common part, and accepts what the provider accepts. -/
lemma evaluateRecords_spec (env : Environment) (begin_ end_ denominator : ℤ)
    (records : List DeviceRecord) (aggregate : ℕ) (s : Executor) :
    ∃ result s', evaluateRecords env begin_ end_ denominator records aggregate s =
    (.ok result, s') ∧
      s'.common = s.common ∧
      ((∀ log, encodeOutcome (env.outcome log) = 0) → aggregate = 0 → result = 0) := by
  induction records generalizing aggregate s with
  | nil => exact ⟨aggregate, s, rfl, rfl, fun _ h => h⟩
  | cons record records ih =>
    obtain ⟨result, s', hrun, hcommon, hresult⟩ := ih
      (max aggregate (encodeOutcome (env.outcome (s.log (.evaluate
        ⟨record, begin_, end_, denominator⟩)).calls)))
      (s.log (.evaluate ⟨record, begin_, end_, denominator⟩))
    refine ⟨result, s', hrun, ?_, fun haccepts hzero => ?_⟩
    · rw [hcommon]
      exact common_log (by simp [Call.IsLifecycle])
    · apply hresult haccepts
      rw [haccepts, hzero]
      rfl

section Kernel

variable {env : Environment} {batch : RungBatch} {descriptor : RungBatchDescriptor} {s : Executor}

/-- The launch of a kernel launches the event of the clock. -/
lemma common_launchBatch (hend : descriptor.endTick = batch.clock.nextEnd) :
    (launchBatch env batch descriptor s).2.common = s.common.launch batch.clock := by
  have hlaunch : (s.launch batch descriptor.endTick).common = s.common.launch batch.clock := by
    simp [Executor.launch, Executor.common, Common.launch, Clock.event, hend, RungBatch.clock,
      Function.comp_def]
  rw [← hlaunch]
  apply Block.preserves_bind (preserves_callThrows (by simp [Call.IsLifecycle]))
  intro _ s'
  obtain ⟨result, s'', hrun, hcommon, -⟩ := evaluateRecords_spec env descriptor.beginTick
    descriptor.endTick descriptor.tickDenominator
    ((s.records.drop batch.localOffset).take batch.localCount) 0 s'
  rw [hrun]
  exact hcommon

/-- The launch fails only if a call fails. -/
lemma launchBatch_error {e : Exception} (h : (launchBatch env batch descriptor s).1 = .error e) :
    ∃ log, env.failure log ≠ none := by
  match hlaunch : callThrows env (.launch descriptor) (s.launch batch descriptor.endTick) with
  | (.error e', s') => exact callThrows_error (e := e') (by rw [hlaunch])
  | (.ok (), s') =>
    obtain ⟨result, t, hrun, -⟩ := evaluateRecords_spec env descriptor.beginTick
      descriptor.endTick descriptor.tickDenominator
      ((s.records.drop batch.localOffset).take batch.localCount) 0 s'
    have hblock : launchBatch env batch descriptor s = (.ok result, t) :=
      Block.bind_eq_ok.mpr ⟨(), s', hlaunch, hrun⟩
    rw [hblock] at h
    cases h

/-- The kernel accepts what the provider accepts. -/
lemma launchBatch_accepts {own : ℕ} {s' : Executor}
    (h : launchBatch env batch descriptor s = (.ok own, s'))
    (haccepts : ∀ log, encodeOutcome (env.outcome log) = 0) : own = 0 := by
  obtain ⟨_, t, -, hrun⟩ := Block.bind_eq_ok.mp h
  obtain ⟨result, t', hrun', -, hresult⟩ := evaluateRecords_spec env descriptor.beginTick
    descriptor.endTick descriptor.tickDenominator
    ((s.records.drop batch.localOffset).take batch.localCount) 0 t
  rw [hrun'] at hrun
  have heq : result = own := Except.ok.inj (Prod.mk.inj hrun).1
  exact heq ▸ hresult haccepts rfl

end Kernel

section Event

variable {ι : Type} [Fintype ι] [Inhabited ι] {setup : Setup} {env : ι → Environment} {c : Common}
  {position : ℕ} {clock : Clock} {batch : ι → RungBatch} {descriptor : ι → RungBatchDescriptor}

/-- A call of an optional part of the lifecycle, with consensus, keeps the common part. -/
lemma hook_phase {F : Prop} (hok : Ok c.rollback) (hF : ¬ Succeeds env → F) {present : Bool}
    {call : ι → Call} (hcall : ∀ rank, ¬ (call rank).IsLifecycle) {message : String} :
    Triple (Agreed c)
      (fun rank => consensus (hook present (env rank) (call rank)) rollback message)
      (fun _ s => Agreed c s) (Aborted F) := by
  refine (phase (R := fun _ _ => True) (fun rank s hs => ?_) hok (fun rank s e _ he => ?_)
    fun _ _ _ _ _ _ => trivial).consequence (fun _ hs => hs) (fun _ _ h => h.2) fun _ hs => hs
  · exact (preserves_hook (hcall rank) s).trans hs
  · exact hF (not_succeeds_of_failure (hook_error he))

/-- The completion of an event advances the clock of its batch. -/
lemma common_completeBatch {b : RungBatch} {d : RungBatchDescriptor} {s : Executor}
    (hmoved : RungBatch.clock { b with currentTick := d.endTick } = clock.moveTo clock.nextEnd) :
    (completeBatch setup d b position s).common =
      { s.common with
        clocks := s.common.clocks.set position (clock.moveTo clock.nextEnd) } := by
  have hset : ∀ t : Executor, (t.setTick position b d.endTick).common =
      { t.common with
        clocks := t.common.clocks.set position (clock.moveTo clock.nextEnd) } := by
    intro t
    simp only [Executor.setTick, Executor.common, List.map_set, hmoved]
  unfold completeBatch
  rw [hset]
  split_ifs
  · rw [common_log (by simp [Call.IsLifecycle])]
  · rfl

/-- **One event.**  All ranks take the interval of the next clock, or all of them abort because
the environment of some rank failed.

**Proof sketch.**  Every phase keeps the common part, apart from the launch, which adds the event,
and the clock advance, which is accepted because the next clock is at a tick that its rung can
leave (`Active.advanceBatch`).  A phase that fails on one rank is undone on all of them
(`phase`). -/
theorem runBatch_spec (hlayout : Layout c) (hactive : Active c)
    (hnext : IsNext c.targetTick c.clocks position clock)
    (hbatch : ∀ rank, (batch rank).clock = clock)
    (hend : ∀ rank, (descriptor rank).endTick = clock.nextEnd) :
    Triple (Agreed c)
      (fun rank => runBatch setup (env rank) (batch rank) position (descriptor rank))
      (fun _ s => Agreed (c.advance position clock) s) (Aborted (¬ Succeeds env)) := by
  have hok := ok_rollback_of_active hlayout hactive.active
  have hlaunched : Layout (c.launch clock) :=
    ⟨hlayout.valid, hlayout.strides, hlayout.sorted, hlayout.indices, hlayout.covered⟩
  have hok' : Ok (c.launch clock).rollback := ok_rollback_of_active hlaunched hactive.active
  have hcall : ∀ (call : RungBatchDescriptor → Call), (∀ d, ¬ (call d).IsLifecycle) →
      ∀ rank, ¬ (call (descriptor rank)).IsLifecycle := fun _ h rank => h _
  refine Triple.bind (hook_phase hok id (hcall _ fun _ => id)) fun _ => ?_
  refine Triple.bind (hook_phase hok id (hcall _ fun _ => id)) fun _ => ?_
  -- the launch adds the event of the clock
  refine Triple.bind (phase (d := c.launch clock)
    (R := fun rank own => Succeeds env → own = 0) ?_ hok' ?_ ?_) fun own => ?_
  · intro rank s hs
    rw [common_launchBatch (by rw [hbatch, hend]), hs, hbatch]
  · intro rank s e _ he
    exact not_succeeds_of_failure (launchBatch_error he)
  · intro rank s own s' _ hrun hsucceeds
    exact launchBatch_accepts hrun (hsucceeds.outcomes rank)
  apply Triple.pre_and
  intro hown
  refine Triple.bind (Triple.allReduceOne fun rank => (own rank : ℤ)) fun aggregate => ?_
  apply Triple.pre_and
  rintro rfl
  refine Triple.bind (Triple.throwWhen (fun _ => Iff.rfl) fun s hs hrefused => ?_) fun _ => ?_
  · refine aborted_rollback (fun hsucceeds => hrefused ?_) hok' hs
    exact combine_const (by decide) fun rank => by rw [hown rank hsucceeds]; rfl
  apply Triple.pre_and
  intro _
  refine Triple.bind (hook_phase hok' id (hcall _ fun _ => id)) fun _ => ?_
  -- the clock advance is accepted
  have hpartition : ∀ rank (s : Executor), s.common = c.launch clock →
      s.partition.advanceBatch (batch rank).rung (batch rank).globalIndices
        (descriptor rank).endTick =
        (.ok (), c.partition.advanced clock.indices clock.nextEnd) := by
    intro rank s hs
    have hpart : s.partition = c.partition := congrArg Common.partition hs
    have hrung : (batch rank).rung = clock.rung := congrArg Clock.rung (hbatch rank)
    have hindices : (batch rank).globalIndices = clock.indices :=
      congrArg Clock.indices (hbatch rank)
    rw [hrung, hindices, hend, hpart]
    exact hactive.advanceBatch hlayout hnext
  refine Triple.bind (phase (R := fun _ _ => True)
    (d := { c.launch clock with
      partition := c.partition.advanced clock.indices clock.nextEnd }) ?_ ?_ ?_ ?_) fun _ => ?_
  · intro rank s hs
    simp only [advancePartition, hpartition rank s hs]
    rw [← hs]
    rfl
  · refine ok_rollback_of_active ?_ hactive.active
    exact ⟨hlayout.valid, hlayout.strides, hlayout.sorted, hlayout.indices, hlayout.covered⟩
  · intro rank s e hs he
    simp only [advancePartition, hpartition rank s hs] at he
    cases he
  · exact fun _ _ _ _ _ _ => trivial
  apply Triple.update
  rintro s ⟨-, hs⟩ rank
  have hmoved : RungBatch.clock { batch rank with currentTick := (descriptor rank).endTick } =
      clock.moveTo clock.nextEnd := by
    rw [hend, ← hbatch rank]
    rfl
  rw [common_completeBatch hmoved, hs rank]
  rfl

/-- `execute_batch_` on the next batch of every rank. -/
lemma executeBatch_spec (hlayout : Layout c) (hactive : Active c)
    (hnext : IsNext c.targetTick c.clocks position clock)
    (hbatch : ∀ rank, (batch rank).clock = clock) :
    Triple (Agreed c) (fun rank => executeBatch setup (env rank) (batch rank) position)
      (fun _ s => Agreed (c.advance position clock) s) (Aborted (¬ Succeeds env)) := by
  have hclock := List.mem_of_getElem? hnext.found
  obtain ⟨hlt, hle⟩ := hactive.clocks.nextEnd_le hclock hnext.behind
  have hstart := (hactive.clocks.ticks clock hclock).1
  have hsync := hlayout.valid.tick
  have hrange := hactive.range
  have hsum : ∀ rank, tickSum (batch rank).currentTick (batch rank).stride = .ok clock.nextEnd := by
    intro rank
    have htick : (batch rank).currentTick = clock.tick := congrArg Clock.tick (hbatch rank)
    have hstride : (batch rank).stride = clock.stride := congrArg Clock.stride (hbatch rank)
    rw [htick, hstride]
    have hpos : 0 < clock.stride := by
      rw [hlayout.strides clock hclock]
      exact stride_pos _
    exact tickSum_of_le (by omega) (by omega) (by unfold Clock.nextEnd at hle; omega)
  refine Triple.bind read_agreed fun a => ?_
  apply Triple.pre_and
  intro ha
  simp only [hsum]
  have htarget : ∀ rank, (a rank).targetTick = c.targetTick :=
    fun rank => congrArg Common.targetTick (ha rank)
  refine Triple.bind (Triple.throwWhen ?_ ?_) fun _ => ?_
  · intro rank
    rw [htarget, htarget]
  · intro s _ hcross
    rw [htarget] at hcross
    omega
  · apply Triple.pre_and
    intro _
    exact runBatch_spec hlayout hactive hnext hbatch fun _ => rfl

/-! ## The loop over all events -/

/-- The ticks that the clocks have to go. -/
def Common.remaining (c : Common) : ℕ :=
  (c.clocks.map fun clock => (c.targetTick - clock.tick).toNat).sum

/-- Moving one clock forward leaves fewer ticks to go. -/
lemma sum_remaining_set {target : ℤ} {moved : Clock} :
    ∀ {clocks : List Clock} {position : ℕ}, clocks[position]? = some clock →
      (target - moved.tick).toNat < (target - clock.tick).toNat →
      ((clocks.set position moved).map fun clock => (target - clock.tick).toNat).sum <
        (clocks.map fun clock => (target - clock.tick).toNat).sum
  | [], _, hfound, _ => by simp at hfound
  | head :: tail, 0, hfound, hlt => by
    simp only [List.getElem?_cons_zero, Option.some.injEq] at hfound
    subst hfound
    simp only [List.set_cons_zero, List.map_cons, List.sum_cons]
    omega
  | head :: tail, position + 1, hfound, hlt => by
    have htail : tail[position]? = some clock := by simpa using hfound
    have ih := sum_remaining_set htail hlt
    simp only [List.set_cons_succ, List.map_cons, List.sum_cons]
    omega

/-- An event leaves fewer ticks to go. -/
lemma Active.remaining_advance (h : Active c)
    (hnext : IsNext c.targetTick c.clocks position clock) :
    (c.advance position clock).remaining < c.remaining := by
  obtain ⟨hlt, hle⟩ := h.clocks.nextEnd_le (List.mem_of_getElem? hnext.found) hnext.behind
  have hbehind := hnext.behind
  refine sum_remaining_set hnext.found ?_
  show (c.targetTick - clock.nextEnd).toNat < (c.targetTick - clock.tick).toNat
  omega

/-- The clocks have reached the target of the attempt that another common part began. -/
structure Finished (c c' : Common) : Prop where
  layout : Layout c'
  active : Active c'
  ticks : ∀ clock ∈ c'.clocks, clock.tick = c.targetTick
  accepted : c'.partition.accepted = c.partition.accepted
  target : c'.targetTick = c.targetTick

/-- **The loop of `advance_to_barrier`.**  All ranks execute the same events and reach the target,
or all of them abort because the environment of some rank failed.

**Proof sketch.**  Induction on the rounds.  Every rank selects the clock at the same position
(`nextBatch_spec`, `IsNext.unique`), the event keeps the invariants and leaves fewer ticks to go,
so the rounds suffice. -/
theorem executeBatches_spec (rounds : ℕ) (hlayout : Layout c) (hactive : Active c)
    (hrounds : c.remaining < rounds) :
    Triple (Agreed c) (fun rank => executeBatches setup (env rank) rounds)
      (fun _ s => ∃ c', Finished c c' ∧ Agreed c' s) (Aborted (¬ Succeeds env)) := by
  induction rounds generalizing c with
  | zero => omega
  | succ rounds ih =>
    refine Triple.bind read_agreed fun a => ?_
    apply Triple.pre_and
    intro ha
    have hclocks : ∀ rank, (a rank).batches.map RungBatch.clock = c.clocks :=
      fun rank => congrArg Common.clocks (ha rank)
    have htarget : ∀ rank, (a rank).targetTick = c.targetTick :=
      fun rank => congrArg Common.targetTick (ha rank)
    have hclocksOk : ∀ rank, ClocksOk c.partition.accepted.synchronizationTick c.targetTick
        ((a rank).batches.map RungBatch.clock) :=
      fun rank => (hclocks rank).symm ▸ hactive.clocks
    have hspec := fun rank => nextBatch_spec (hclocksOk rank) hlayout.valid.tick hactive.range
    by_cases hdone : ∀ clock ∈ c.clocks, clock.tick = c.targetTick
    · -- no rank has a batch left
      have hnone : ∀ rank, nextBatch (a rank).targetTick (a rank).batches = .ok none := by
        intro rank
        rw [htarget]
        rcases hspec rank with ⟨hnone, -⟩ | ⟨batch, position, -, -, hnext⟩
        · exact hnone
        · rw [hclocks] at hnext
          have := hdone _ (List.mem_of_getElem? hnext.found)
          have := hnext.behind
          omega
      simp only [hnone]
      apply Triple.pure (a := fun _ => ())
      intro s hs
      exact ⟨c, ⟨hlayout, hactive, hdone, rfl, rfl⟩, hs⟩
    · -- every rank selects the batch at one position
      have hsome : ∀ rank, ∃ batch position, nextBatch c.targetTick (a rank).batches =
          .ok (some (batch, position)) ∧ IsNext c.targetTick c.clocks position batch.clock := by
        intro rank
        rcases hspec rank with ⟨-, hall⟩ | ⟨batch, position, hsome, -, hnext⟩
        · refine absurd (fun clock hclock => ?_) hdone
          rw [← hclocks rank] at hclock
          obtain ⟨batch, hbatch, rfl⟩ := List.mem_map.mp hclock
          exact hall batch hbatch
        · rw [hclocks] at hnext
          exact ⟨batch, position, hsome, hnext⟩
      choose batch positions hsome hnext using hsome
      have hsame := fun rank => (hnext rank).unique hactive.clocks (hnext default)
      have hselect : ∀ rank, nextBatch (a rank).targetTick (a rank).batches =
          .ok (some (batch rank, positions default)) := by
        intro rank
        rw [htarget, hsome rank, (hsame rank).1]
      simp only [hselect]
      refine Triple.bind (executeBatch_spec hlayout hactive (hnext default)
        fun rank => (hsame rank).2) fun _ => ?_
      have hless := hactive.remaining_advance (hnext default)
      refine (ih (hlayout.advance hactive (hnext default)) (hactive.advance hlayout (hnext default))
        (by omega)).consequence (fun _ hs => hs) ?_ fun _ h => h
      rintro _ s ⟨c', hfinished, hs⟩
      exact ⟨c', ⟨hfinished.layout, hfinished.active, hfinished.ticks, hfinished.accepted,
        hfinished.target⟩, hs⟩

/-- At the target the barrier of the partition is reached. -/
lemma requireBarrier_of_ticks (hlayout : Layout c) (hactive : Active c)
    (hticks : ∀ clock ∈ c.clocks, clock.tick = c.targetTick) (operation : String) :
    c.partition.requireBarrier operation = .ok () := by
  apply throwIf_neg
  rintro ⟨-, tick, htick, hne⟩
  obtain ⟨i, hi⟩ := List.mem_iff_getElem?.mp htick
  obtain ⟨hlt, -⟩ := List.getElem?_eq_some_iff.mp hi
  rw [hactive.length] at hlt
  -- the cell of the tick belongs to a batch, and the batch is at the target
  have hcell := List.getElem?_eq_getElem hlt
  obtain ⟨clock, hclock, hrung⟩ := hlayout.covered _ (List.mem_of_getElem? hcell)
  have hmem : i ∈ clock.indices :=
    ((hlayout.indices clock hclock).2.2 i).mpr ⟨_, hcell, hrung.symm⟩
  have hpending := hactive.pending clock hclock i hmem
  rw [hi] at hpending
  apply hne
  rw [hactive.target, ← hticks clock hclock]
  exact Option.some.inj hpending

/-- The ranks reduce a flag that they have in common. -/
lemma allReduce_flag {op : ReduceOp} (hop : op ≠ .sum) {a : ι → Executor} (ha : Agreed c a)
    {E : (ι → Executor) → Prop} :
    Triple (Agreed c)
      (fun rank => allReduceOne op .long (flag (a rank).attemptActive))
      (fun v s => (v = fun _ => flag c.attemptActive) ∧ Agreed c s) E := by
  refine (Triple.allReduceOne fun rank => flag (a rank).attemptActive).consequence
    (fun _ hs => hs) (fun v s h => ⟨?_, h.2⟩) fun _ h => h
  rw [h.1, combine_const hop fun rank => ?_]
  rw [← ha rank]
  rfl

/-- **`advance_to_barrier`.**  All ranks reach the target, or all of them abort: because there is
no attempt, or because the environment of some rank failed. -/
theorem advanceToBarrier_spec (hok : Ok c) :
    Triple (Agreed c) (fun rank => advanceToBarrier setup (env rank))
      (fun _ s => ∃ c', Finished c c' ∧ Agreed c' s)
      (Aborted (c.attemptActive = false ∨ ¬ Succeeds env)) := by
  refine Triple.bind read_agreed fun a => ?_
  apply Triple.pre_and
  intro ha
  refine Triple.bind (allReduce_flag (by decide) ha) fun v => ?_
  apply Triple.pre_and
  rintro rfl
  refine Triple.bind (Triple.throwWhen (fun _ => Iff.rfl) fun s hs hinactive => ?_) fun _ => ?_
  · refine aborted_rollback (.inl ?_) hok.rollback hs
    cases hcase : c.attemptActive with
    | false => rfl
    | true => simp [flag, hcase] at hinactive
  apply Triple.pre_and
  intro hflag
  have hactive : Active c := by
    rcases hok.2 with hinactive | hactive
    · simp [flag, hinactive.1] at hflag
    · exact hactive
  refine Triple.bind read_agreed fun b => ?_
  apply Triple.pre_and
  intro hb
  have hremaining : ∀ rank, remainingTicks (b rank).targetTick (b rank).batches = c.remaining := by
    intro rank
    rw [← hb rank]
    simp [remainingTicks, Common.remaining, Executor.common, RungBatch.clock, Function.comp_def]
  simp only [hremaining]
  refine Triple.bind ((executeBatches_spec (c.remaining + 1) hok.1 hactive (by omega)).consequence
    (fun _ hs => hs) (fun _ _ h => h) fun _ h => ⟨.inr h.1, h.2⟩) fun _ => ?_
  -- the barrier holds on every rank
  intro s hs
  obtain ⟨c', hfinished, hs⟩ := hs
  have hbarrier := fun operation => requireBarrier_of_ticks hfinished.layout hfinished.active
    (by rw [hfinished.target]; exact hfinished.ticks) operation
  have hpartition : ∀ t : Executor, t.common = c' → t.partition = c'.partition :=
    fun t ht => congrArg Common.partition ht
  refine ((phase (R := fun _ _ => True) (fun _ _ ht => ht)
    (ok_rollback_of_active hfinished.layout hfinished.active.active) ?_
    fun _ _ _ _ _ _ => trivial).consequence (fun _ h => h) (fun _ _ h => ⟨c', hfinished, h.2⟩)
    fun _ h => h) s hs
  intro rank t e ht he
  simp only [hpartition t ht, hbarrier] at he
  cases he

end Event

end Pops.CellTemporal
