import Pops.Runtime.Stepping.ErrorControlled

/-!
# Runs of error-controlled rounds

What a round does, for any rounding that keeps positive numbers positive: the durations that it
tries, how it ends, and the engine that it leaves.  Along a run the queue of the temporal state
holds at most the proposal of the present clock, and no operation on it raises.

## Main definitions

* `Pops.Stepping.Coherent` — the temporal state of an engine is at its clock.
* `Pops.Stepping.RoundSpec` — what a round does.
* `Pops.Stepping.Entry.Bounded`, `Floored` — the bounds of the policy on one round.

## Main results

* `Pops.Stepping.executeRound_spec` — every round does that.
* `Pops.Stepping.history_bounds_iff` — a run respects the policy, except that a round may start
  below the smallest duration.
-/

namespace Pops.Stepping

open StepRejection (SolveStatus)
open TemporalRestartState

/-! ## The invariant -/

/-- The parts of a temporal state that no round changes. -/
def Bound (temporal : TemporalRestartState) : Option Strategy × Option ProgramSchedule :=
  (temporal.strategy, temporal.programSchedule)

/-- The temporal state is at the clock of the engine. -/
structure Live (temporal : TemporalRestartState) (s : Session) : Prop where
  time_eq : temporal.time = s.time
  macroStep_eq : temporal.macroStep = s.macroStep

/-- The temporal state is at the clock of the engine, and its queue holds at most the proposal of
that clock. -/
def Coherent (rnd : ℚ → ℚ) (s : Session) : Prop :=
  ∀ temporal, s.temporal = some temporal → Live temporal s ∧
    (temporal.eventQueue = [] ∨
      ∃ dt, 0 < dt ∧ temporal.eventQueue = [proposalEvent rnd s.time s.macroStep dt])

/-- The queue holds the proposal of the cursor, and the cursor knows it. -/
structure Prepared (rnd : ℚ → ℚ) (cursor : Cursor) (s : Session) : Prop where
  positive : 0 < cursor.proposal
  absent : s.temporal = none → cursor.queuedEvent = none
  queued : ∀ temporal, s.temporal = some temporal → Live temporal s ∧
    cursor.queuedEvent = some (proposalEvent rnd s.time s.macroStep cursor.proposal) ∧
    temporal.eventQueue = [proposalEvent rnd s.time s.macroStep cursor.proposal]

section Operations

variable {rnd : ℚ → ℚ} {policy : ErrorControlledDt} {s : Session} {cursor : Cursor}
  {temporal : TemporalRestartState}

/-- A prepared engine is coherent. -/
lemma Prepared.coherent (h : Prepared rnd cursor s) : Coherent rnd s := by
  intro temporal htemporal
  obtain ⟨hlive, -, hqueue⟩ := h.queued temporal htemporal
  exact ⟨hlive, .inr ⟨cursor.proposal, h.positive, hqueue⟩⟩

/-- Whether an engine is coherent depends on its clock and its temporal state. -/
lemma Coherent.of_kept {s' : Session} (h : Coherent rnd s) (htime : s'.time = s.time)
    (hstep : s'.macroStep = s.macroStep) (htemporal : s'.temporal = s.temporal) :
    Coherent rnd s' := by
  intro temporal h'
  rw [htemporal] at h'
  obtain ⟨hlive, hqueue⟩ := h temporal h'
  refine ⟨⟨hlive.time_eq.trans htime.symm, hlive.macroStep_eq.trans hstep.symm⟩, ?_⟩
  rwa [htime, hstep]

/-- At the clock of the engine the check of the clock passes. -/
lemma Live.requireLiveClock (h : Live temporal s) :
    temporal.requireLiveClock s.time s.macroStep = .ok () := by
  rw [TemporalRestartState.requireLiveClock, raiseIf_eq_ok, h.time_eq, h.macroStep_eq]
  simp

/-- Queueing into an empty queue. -/
lemma queue_empty (h : Live temporal s) (hempty : temporal.eventQueue = []) {dt : ℚ}
    (hdt : 0 < dt) :
    temporal.queueErrorControlledProposal rnd dt s.time s.macroStep false =
      .ok (proposalEvent rnd s.time s.macroStep dt,
        { temporal with eventQueue := [proposalEvent rnd s.time s.macroStep dt] }) := by
  simp only [queueErrorControlledProposal, h.requireLiveClock, raiseIf,
    if_neg (not_le.mpr hdt), hempty]
  rfl

/-- Replacing the only event. -/
lemma queue_replace (h : Live temporal s) {event : Event} (hqueue : temporal.eventQueue = [event])
    {dt : ℚ} (hdt : 0 < dt) :
    temporal.queueErrorControlledProposal rnd dt s.time s.macroStep true =
      .ok (proposalEvent rnd s.time s.macroStep dt,
        { temporal with eventQueue := [proposalEvent rnd s.time s.macroStep dt] }) := by
  simp only [queueErrorControlledProposal, h.requireLiveClock, raiseIf,
    if_neg (not_le.mpr hdt), hqueue]
  rfl

/-- Reading the queued proposal. -/
lemma queued_eq (h : Live temporal s) {dt : ℚ}
    (hqueue : temporal.eventQueue = [proposalEvent rnd s.time s.macroStep dt]) :
    temporal.queuedErrorControlledProposal rnd s.time s.macroStep =
      .ok (proposalEvent rnd s.time s.macroStep dt, dt) := by
  simp only [queuedErrorControlledProposal, h.requireLiveClock, hqueue, raiseIf, proposalEvent]
  simp

/-- The engine with a proposal in its queue. -/
def Session.queueing (rnd : ℚ → ℚ) (s : Session) (temporal : TemporalRestartState) (dt : ℚ) :
    Session :=
  let queue := [proposalEvent rnd s.time s.macroStep dt]
  { s with temporal := some { temporal with eventQueue := queue } }

/-- With its proposal in the queue a cursor is prepared. -/
lemma prepared_queueing (h : Live temporal s) {dt : ℚ} (hdt : 0 < dt) (attempts : ℕ) :
    Prepared rnd ⟨dt, some (proposalEvent rnd s.time s.macroStep dt), attempts⟩
      (s.queueing rnd temporal dt) where
  positive := hdt
  absent h' := by cases h'
  queued temporal' h' := by
    obtain rfl := Option.some.inj h'
    exact ⟨⟨h.time_eq, h.macroStep_eq⟩, rfl, rfl⟩

/-- An engine without a temporal state is prepared. -/
lemma prepared_none (h : s.temporal = none) {dt : ℚ} (hdt : 0 < dt) (attempts : ℕ) :
    Prepared rnd ⟨dt, none, attempts⟩ s where
  positive := hdt
  absent _ := rfl
  queued temporal h' := by
    rw [h] at h'
    cases h'

/-- The engines differ in the temporal state only, and there the schedule and the strategy are kept.
-/
structure Kept (s s' : Session) : Prop where
  time_eq : s'.time = s.time
  macroStep_eq : s'.macroStep = s.macroStep
  nextDt_eq : s'.controller.nextDt = s.controller.nextDt
  bound_eq : s'.temporal.map Bound = s.temporal.map Bound

/-- A session keeps itself. -/
lemma Kept.refl (s : Session) : Kept s s := ⟨rfl, rfl, rfl, rfl⟩

/-- What is kept by two steps is kept by both. -/
theorem Kept.trans {s s' s'' : Session} (h : Kept s s') (h' : Kept s' s'') : Kept s s'' :=
  ⟨h'.time_eq.trans h.time_eq, h'.macroStep_eq.trans h.macroStep_eq, h'.nextDt_eq.trans h.nextDt_eq,
    h'.bound_eq.trans h.bound_eq⟩

/-- Queueing keeps the rest. -/
lemma kept_queueing (h : s.temporal = some temporal) (dt : ℚ) :
    Kept s (s.queueing rnd temporal dt) :=
  ⟨rfl, rfl, rfl, by rw [h]; rfl⟩

/-- The preparation never raises; it leaves the proposal in the queue. -/
lemma prepareAttempts_spec (h : Coherent rnd s) {tEnd : ℚ}
    (hpos : 0 < firstProposal rnd policy s tEnd) :
    ∃ cursor s', prepareAttempts rnd policy s tEnd = .ok (cursor, s') ∧
      cursor.proposal = firstProposal rnd policy s tEnd ∧ cursor.attempts = 0 ∧
      Prepared rnd cursor s' ∧ Kept s s' := by
  unfold prepareAttempts queueAttempt
  generalize firstProposal rnd policy s tEnd = proposal at hpos ⊢
  cases htemporal : s.temporal with
  | none => exact ⟨_, s, rfl, rfl, rfl, prepared_none htemporal hpos 0, Kept.refl s⟩
  | some temporal =>
    obtain ⟨hlive, hempty | ⟨dt, hdt, hqueue⟩⟩ := h temporal htemporal
    · refine ⟨⟨proposal, some (proposalEvent rnd s.time s.macroStep proposal), 0⟩,
        s.queueing rnd temporal proposal, ?_, rfl, rfl, prepared_queueing hlive hpos 0,
        kept_queueing htemporal proposal⟩
      simp only [hempty, if_true, queue_empty hlive hempty hpos]
      rfl
    · have hne : temporal.eventQueue ≠ [] := by
        rw [hqueue]
        exact List.cons_ne_nil _ _
      simp only [if_neg hne, queued_eq hlive hqueue]
      by_cases hsame : proposal = dt
      · subst hsame
        refine ⟨⟨proposal, some (proposalEvent rnd s.time s.macroStep proposal), 0⟩,
          s, ?_, rfl, rfl, ⟨hpos, ?_, ?_⟩, Kept.refl s⟩
        · simp only [ok_bind, if_true]
          rfl
        · intro h'
          rw [htemporal] at h'
          cases h'
        · intro temporal' h'
          rw [htemporal] at h'
          obtain rfl := Option.some.inj h'
          exact ⟨hlive, rfl, hqueue⟩
      · refine ⟨⟨proposal, some (proposalEvent rnd s.time s.macroStep proposal), 0⟩,
          s.queueing rnd temporal proposal, ?_, rfl, rfl, prepared_queueing hlive hpos 0,
          kept_queueing htemporal proposal⟩
        simp only [ok_bind, if_neg hsame, queue_replace hlive hqueue hpos]
        rfl

/-! ## One attempt -/

/-- The engine in front of the acceptance of a step: the clock has advanced, and the temporal state
has taken the proposal off its queue. -/
structure Landed (rnd : ℚ → ℚ) (s : Session) (dt : ℚ) (s' : Session) : Prop where
  time_eq : s'.time = rnd (s.time + dt)
  macroStep_eq : s'.macroStep = s.macroStep + 1
  bound_eq : s'.temporal.map Bound = s.temporal.map Bound
  accepted : ∀ temporal, s'.temporal = some temporal → Live temporal s' ∧
    temporal.lastAcceptedDt = some (rnd (s'.time - s.time)) ∧ temporal.status = .accepted ∧
    temporal.synchronized = true ∧ temporal.restoredPending = false ∧
    temporal.cursors = boundaryCursors temporal.programSchedule s'.time s'.macroStep

/-- What was kept in front of a step does not matter behind it. -/
lemma Landed.of_kept {s₀ s₁ s' : Session} {dt : ℚ} (h : Landed rnd s₁ dt s')
    (hkept : Kept s₀ s₁) :
    Landed rnd s₀ dt s' where
  time_eq := by rw [h.time_eq, hkept.time_eq]
  macroStep_eq := by rw [h.macroStep_eq, hkept.macroStep_eq]
  bound_eq := h.bound_eq.trans hkept.bound_eq
  accepted temporal htemporal := by
    rw [← hkept.time_eq]
    exact h.accepted temporal htemporal

/-- The acceptance of the queued proposal at a later time. -/
lemma accept_eq {dt : ℚ}
    (hqueue : temporal.eventQueue = [proposalEvent rnd s.time s.macroStep dt])
    (hlater : s.time < rnd (s.time + dt)) (hpositive : 0 < rnd (rnd (s.time + dt) - s.time)) :
    temporal.accept rnd s.time s.macroStep (rnd (s.time + dt)) (s.macroStep + 1)
        (some (proposalEvent rnd s.time s.macroStep dt)) =
      .ok ({ temporal with eventQueue := [] }.acceptedAt (rnd (s.time + dt)) (s.macroStep + 1)
        (rnd (rnd (s.time + dt) - s.time))) := by
  simp only [accept, raiseIf, ne_eq, not_true_eq_false, false_or, if_neg (not_le.mpr hlater),
    if_neg (not_le.mpr hpositive), hqueue, List.head?_cons, proposalEvent, or_false,
      if_false, ok_bind,
    List.tail_cons]
  rfl

/-- An attempt whose step returns at a later time. -/
lemma nativeAttempt_returned (hrnd : ∀ x, 0 < x → 0 < rnd x) (h : Prepared rnd cursor s)
    (hlater : s.time < rnd (s.time + cursor.proposal)) :
    ∃ s', nativeAttempt rnd s cursor .returned = (.ok (), s') ∧ Landed rnd s cursor.proposal s' ∧
      s'.controller = s.controller ∧
      ∀ temporal, s'.temporal = some temporal → temporal.eventQueue = [] := by
  unfold nativeAttempt
  cases htemporal : s.temporal with
  | none =>
    have hnone : ∀ temporal, (s.advanced rnd cursor.proposal).temporal ≠ some temporal := by
      intro temporal h'
      rw [Session.advanced, htemporal] at h'
      cases h'
    exact ⟨_, rfl, ⟨rfl, rfl, rfl, fun temporal h' => absurd h' (hnone temporal)⟩, rfl,
      fun temporal h' => absurd h' (hnone temporal)⟩
  | some temporal =>
    obtain ⟨hlive, hevent, hqueue⟩ := h.queued temporal htemporal
    have hpositive : 0 < rnd (rnd (s.time + cursor.proposal) - s.time) := hrnd _ (by linarith)
    have hbefore : temporal.beforeQueuedAttempt
        (proposalEvent rnd s.time s.macroStep cursor.proposal)
        s.time s.macroStep = .ok () := by
      simp only [beforeQueuedAttempt, beforeAttempt, hlive.requireLiveClock, ok_bind, hqueue,
        List.head?_cons, ne_eq, not_true_eq_false, raiseIf, if_false]
    refine ⟨{ s.advanced rnd cursor.proposal with
      temporal :=
        some ({ temporal with eventQueue := [] }.acceptedAt (rnd (s.time + cursor.proposal))
        (s.macroStep + 1) (rnd (rnd (s.time + cursor.proposal) - s.time))) }, ?_, ?_, rfl, ?_⟩
    · have haccept := accept_eq hqueue hlater hpositive
      simp only [temporalAttempt, hevent, hbefore, Session.advanced, haccept]
    · refine ⟨rfl, rfl, ?_, ?_⟩
      · rw [htemporal]
        rfl
      · intro temporal' h'
        obtain rfl := Option.some.inj h'
        exact ⟨⟨rfl, rfl⟩, rfl, rfl, rfl, rfl, rfl⟩
    · intro temporal' h'
      obtain rfl := Option.some.inj h'
      rfl

/-- The checks in front of an attempt pass. -/
lemma Prepared.beforeQueuedAttempt (h : Prepared rnd cursor s)
    (htemporal : s.temporal = some temporal) :
    temporal.beforeQueuedAttempt (proposalEvent rnd s.time s.macroStep cursor.proposal)
      s.time s.macroStep = .ok () := by
  obtain ⟨hlive, -, hqueue⟩ := h.queued temporal htemporal
  simp only [TemporalRestartState.beforeQueuedAttempt, beforeAttempt,
    hlive.requireLiveClock, ok_bind,
    hqueue, List.head?_cons, ne_eq, not_true_eq_false, raiseIf, if_false]

/-- The temporal state after an unsuccessful attempt; the cursor stays prepared. -/
lemma Prepared.recordUnsuccessful (h : Prepared rnd cursor s)
    (htemporal : s.temporal = some temporal) (status : Status) :
    ∃ temporal', temporal.recordUnsuccessful status s.time s.macroStep = .ok temporal' ∧
      Prepared rnd cursor { s with temporal := some temporal' } ∧
      Kept s { s with temporal := some temporal' } := by
  obtain ⟨hlive, hevent, hqueue⟩ := h.queued temporal htemporal
  refine ⟨{ temporal with
      transactionStats := temporal.transactionStats.count status
      status := status
      synchronized := false
      restoredPending := false }, ?_, ⟨h.positive, ?_, ?_⟩, ⟨rfl, rfl, rfl, ?_⟩⟩
  · simp only [TemporalRestartState.recordUnsuccessful, hlive.requireLiveClock, ok_bind]
    rfl
  · intro h'
    cases h'
  · intro temporal' h'
    obtain rfl := Option.some.inj h'
    exact ⟨⟨hlive.time_eq, hlive.macroStep_eq⟩, hevent, hqueue⟩
  · rw [htemporal]
    rfl

/-- A rejected attempt leaves the cursor prepared. -/
lemma nativeAttempt_rejected (h : Prepared rnd cursor s) (status : Option SolveStatus) :
    ∃ s', nativeAttempt rnd s cursor (.rejected status) = (.error (.rejected status), s') ∧
      Prepared rnd cursor s' ∧ Kept s s' := by
  unfold nativeAttempt
  cases htemporal : s.temporal with
  | none => exact ⟨s, rfl, h, Kept.refl s⟩
  | some temporal =>
    obtain ⟨temporal', hrecord, hprepared, hkept⟩ := h.recordUnsuccessful htemporal .rejected
    refine ⟨_, ?_, hprepared, hkept⟩
    simp only [temporalAttempt, (h.queued temporal htemporal).2.1, h.beforeQueuedAttempt htemporal,
      reject, hrecord]

/-- So does an attempt that fails. -/
lemma nativeAttempt_failed (h : Prepared rnd cursor s) :
    ∃ s', nativeAttempt rnd s cursor .failed = (.error .failed, s') ∧
      Prepared rnd cursor s' ∧ Kept s s' := by
  unfold nativeAttempt
  cases htemporal : s.temporal with
  | none => exact ⟨s, rfl, h, Kept.refl s⟩
  | some temporal =>
    obtain ⟨temporal', hrecord, hprepared, hkept⟩ := h.recordUnsuccessful htemporal .failed
    refine ⟨_, ?_, hprepared, hkept⟩
    simp only [temporalAttempt, (h.queued temporal htemporal).2.1, h.beforeQueuedAttempt htemporal,
      fail, hrecord]

/-- A step that returned is either accepted by the temporal state or refused by it. -/
lemma nativeAttempt_returned_cases (rnd : ℚ → ℚ) (s : Session) (cursor : Cursor) :
    (∃ s', nativeAttempt rnd s cursor .returned = (.ok (), s')) ∨
      ∃ e s', nativeAttempt rnd s cursor .returned = (.error (.raised e), s') := by
  unfold nativeAttempt
  cases s.temporal with
  | none => exact .inl ⟨_, rfl⟩
  | some temporal =>
    simp only [temporalAttempt]
    split
    · exact .inr ⟨_, _, rfl⟩
    · split
      · exact .inr ⟨_, _, rfl⟩
      · exact .inl ⟨_, rfl⟩

/-- A step that returned has landed. -/
lemma landed_of_returned {outcome : ℕ → NativeOutcome} {fuel : ℕ}
    (houtcome : outcome (cursor.attempts + 1) = .returned) :
    (executeAttempts rnd policy outcome (fuel + 1) cursor s).landed = some cursor.proposal := by
  rcases nativeAttempt_returned_cases rnd s { cursor with attempts := cursor.attempts + 1 } with
    ⟨s', h⟩ | ⟨e, s', h⟩
  · rcases haccept :
        acceptAttempt rnd policy { cursor with attempts := cursor.attempts + 1 } s' with
      ⟨_ | _, s''⟩ <;> simp only [executeAttempts, houtcome, h, haccept]
  · simp only [executeAttempts, houtcome, h, if_true]

/-- A retry never raises.  When it is granted, attempts are left and the shrunk duration is not
below the smallest one. -/
lemma retry_spec (h : Prepared rnd cursor s) (hmin : 0 < policy.dtMin)
    (status : Option SolveStatus) :
    cursor.retry rnd policy s status = .ok none ∨
      ∃ next s', cursor.retry rnd policy s status = .ok (some (next, s')) ∧
        (cursor.attempts : ℤ) ≤ policy.maxRejections ∧ next.attempts = cursor.attempts ∧
        next.proposal = rnd (cursor.proposal * policy.shrink) ∧ policy.dtMin ≤ next.proposal ∧
        Prepared rnd next s' ∧ Kept s s' := by
  unfold Cursor.retry
  by_cases hterminal : terminal status
  · exact .inl (if_pos hterminal)
  by_cases hbudget : (cursor.attempts : ℤ) > policy.maxRejections
  · rw [if_neg hterminal, if_pos hbudget]
    exact .inl rfl
  by_cases hfloor : rnd (cursor.proposal * policy.shrink) < policy.dtMin
  · simp only [if_neg hterminal, if_neg hbudget, if_pos hfloor]
    exact .inl rfl
  have hpos : 0 < rnd (cursor.proposal * policy.shrink) := hmin.trans_le (not_lt.mp hfloor)
  right
  simp only [if_neg hterminal, if_neg hbudget, if_neg hfloor]
  cases htemporal : s.temporal with
  | none =>
    refine ⟨_, s, rfl, not_lt.mp hbudget, rfl, rfl, not_lt.mp hfloor, ?_, Kept.refl s⟩
    rw [h.absent htemporal]
    exact prepared_none htemporal hpos _
  | some temporal =>
    obtain ⟨hlive, -, hqueue⟩ := h.queued temporal htemporal
    refine ⟨⟨rnd (cursor.proposal * policy.shrink), some (proposalEvent rnd s.time s.macroStep
        (rnd (cursor.proposal * policy.shrink))), cursor.attempts⟩,
      s.queueing rnd temporal (rnd (cursor.proposal * policy.shrink)), ?_,
        not_lt.mp hbudget, rfl, rfl,
      not_lt.mp hfloor, prepared_queueing hlive hpos _, kept_queueing htemporal _⟩
    simp only [queue_replace hlive hqueue hpos]
    rfl

/-- The acceptance publishes the grown proposal. -/
lemma acceptAttempt_spec {s₀ : Session} {dt : ℚ} (h : Landed rnd s₀ dt s)
    (hempty : ∀ temporal, s.temporal = some temporal → temporal.eventQueue = [])
    (hpos : 0 < min policy.dtMax (rnd (cursor.proposal * policy.growth))) :
    ∃ s', acceptAttempt rnd policy cursor s = (.ok (), s') ∧ Landed rnd s₀ dt s' ∧
      s'.controller.nextDt = min policy.dtMax (rnd (cursor.proposal * policy.growth)) ∧
      ∀ temporal, s'.temporal = some temporal → temporal.eventQueue =
        [proposalEvent rnd s'.time s'.macroStep s'.controller.nextDt] := by
  unfold acceptAttempt
  generalize min policy.dtMax (rnd (cursor.proposal * policy.growth)) = nextDt at hpos ⊢
  cases htemporal : s.temporal with
  | none =>
    refine ⟨{ s with controller := ⟨nextDt, cursor.attempts⟩ }, ?_,
      ⟨h.time_eq, h.macroStep_eq, h.bound_eq, ?_⟩, rfl, ?_⟩
    · simp only [htemporal]
    all_goals
      intro temporal h'
      rw [htemporal] at h'
      cases h'
  | some temporal =>
    obtain ⟨hlive, hlast, hstatus, hsync, hpending, hcursors⟩ := h.accepted temporal htemporal
    refine ⟨{ s.queueing rnd temporal nextDt with controller := ⟨nextDt, cursor.attempts⟩ }, ?_,
      ⟨h.time_eq, h.macroStep_eq, ?_, ?_⟩, rfl, ?_⟩
    · simp only [queue_empty hlive (hempty temporal htemporal) hpos]
      rfl
    · rw [← h.bound_eq, htemporal]
      rfl
    · intro temporal' h'
      obtain rfl := Option.some.inj h'
      exact ⟨⟨hlive.time_eq, hlive.macroStep_eq⟩, hlast, hstatus, hsync, hpending, hcursors⟩
    · intro temporal' h'
      obtain rfl := Option.some.inj h'
      rfl

/-! ## One round -/

/-- What the rest of a round does: the durations that it tries, the first of them given, and the
engine that it leaves. -/
structure RoundSpec (rnd : ℚ → ℚ) (policy : ErrorControlledDt) (s : Session) (first : ℚ) (fuel : ℕ)
    (report : Report) : Prop where
  chain : ∃ rest, report.attempted = first :: rest ∧
    (first :: rest).IsChain fun dt next => next = rnd (dt * policy.shrink) ∧ policy.dtMin ≤ next
  length_le : report.attempted.length ≤ fuel
  ends : report.ending = .accepted ∨ report.ending = .rejected ∨ report.ending = .failed
  coherent : Coherent rnd report.session
  accepted : report.ending = .accepted → ∃ dt ∈ report.attempted, report.landed = some dt ∧
    Landed rnd s dt report.session ∧
    report.session.controller.nextDt = min policy.dtMax (rnd (dt * policy.growth)) ∧
    ∀ temporal, report.session.temporal = some temporal → temporal.eventQueue =
      [proposalEvent rnd report.session.time report.session.macroStep
        report.session.controller.nextDt]
  refused : report.ending ≠ .accepted → report.landed = none ∧ Kept s report.session

/-- **One round**, from a prepared cursor.

**Proof sketch.** Induction on the attempts that are left: an attempt returns and is accepted, or it
fails, or it is rejected and the retry is refused or prepares the next cursor. -/
theorem executeAttempts_spec (hrnd : ∀ x, 0 < x → 0 < rnd x) (hmin : 0 < policy.dtMin)
    (hmax : 0 < policy.dtMax) (hgrowth : 0 < policy.growth) {outcome : ℕ → NativeOutcome} :
    ∀ {fuel : ℕ} {cursor : Cursor} {s : Session}, Prepared rnd cursor s →
      (cursor.attempts + fuel : ℤ) = policy.maxRejections + 1 → 0 < fuel →
      (∀ dt, 0 < dt → (executeAttempts rnd policy outcome fuel cursor s).landed = some dt →
        s.time < rnd (s.time + dt)) →
      RoundSpec rnd policy s cursor.proposal fuel
      (executeAttempts rnd policy outcome fuel cursor s) := by
  intro fuel
  induction fuel with
  | zero =>
    intro cursor s _ _ hfuel
    omega
  | succ fuel ih =>
    intro cursor s hcursor hattempts _ hlater
    generalize hn : cursor.attempts + 1 = n at *
    have h : Prepared rnd { cursor with attempts := n } s :=
      ⟨hcursor.positive, hcursor.absent, hcursor.queued⟩
    cases houtcome : outcome n with
    | returned =>
      by_cases hadvances : s.time < rnd (s.time + cursor.proposal)
      · obtain ⟨s₁, hnative, hlanded, -, hempty⟩ := nativeAttempt_returned hrnd h hadvances
        have hpos : 0 < min policy.dtMax (rnd (cursor.proposal * policy.growth)) :=
          lt_min hmax (hrnd _ (mul_pos h.positive hgrowth))
        obtain ⟨s₂, haccept, hlanded₂, hnextDt, hqueue⟩ :=
          @acceptAttempt_spec rnd policy s₁ { cursor with attempts := n } s cursor.proposal
            hlanded hempty
            hpos
        have hreport : executeAttempts rnd policy outcome (fuel + 1) cursor s =
            ⟨[cursor.proposal], some cursor.proposal, .accepted, s₂⟩ := by
          simp only [executeAttempts, hn, houtcome, hnative, haccept]
        rw [hreport]
        refine ⟨⟨[], rfl, List.isChain_singleton _⟩, Nat.succ_le_succ (Nat.zero_le _), .inl rfl, ?_,
          fun _ => ⟨cursor.proposal, List.mem_singleton_self _, rfl, hlanded₂, hnextDt, hqueue⟩,
          fun hne => absurd rfl hne⟩
        intro temporal htemporal
        refine ⟨(hlanded₂.accepted temporal htemporal).1, .inr ⟨_, ?_, hqueue temporal htemporal⟩⟩
        rw [hnextDt]
        exact hpos
      · subst hn
        exact absurd (hlater _ hcursor.positive (landed_of_returned houtcome)) hadvances
    | rejected status =>
      obtain ⟨s₁, hnative, hprepared, hkept⟩ := nativeAttempt_rejected h status
      rcases retry_spec hprepared hmin status with hretry | ⟨next, s₂, hretry, hbudget,
        hcount, hnext, hfloor, hprepared₂, hkept₂⟩
      · have hreport : executeAttempts rnd policy outcome (fuel + 1) cursor s =
            ⟨[cursor.proposal], none, .rejected,
              { s₁ with controller := { s₁.controller with attempts := n } }⟩ := by
          simp only [executeAttempts, hn, houtcome, hnative, hretry]
        rw [hreport]
        exact ⟨⟨[], rfl, List.isChain_singleton _⟩, Nat.succ_le_succ (Nat.zero_le _),
          .inr (.inl rfl), hprepared.coherent.of_kept rfl rfl rfl, fun hne => (by cases hne),
          fun _ => ⟨rfl, hkept.time_eq, hkept.macroStep_eq, hkept.nextDt_eq, hkept.bound_eq⟩⟩
      · have hreport : executeAttempts rnd policy outcome (fuel + 1) cursor s =
            { executeAttempts rnd policy outcome fuel next s₂ with
              attempted := cursor.proposal ::
                (executeAttempts rnd policy outcome fuel next s₂).attempted } := by
          simp only [executeAttempts, hn, houtcome, hnative, hretry]
        have hkept' := hkept.trans hkept₂
        have hrest := ih hprepared₂ (by simp only at hcount; omega) (by simp only at hbudget; omega)
          fun dt hpos hdt => by
            rw [hkept'.time_eq]
            exact hlater dt hpos (by rw [hreport]; exact hdt)
        rw [hreport]
        obtain ⟨rest, hattempted, hchain⟩ := hrest.chain
        refine ⟨⟨_, rfl, ?_⟩, Nat.succ_le_succ hrest.length_le, hrest.ends, hrest.coherent, ?_, ?_⟩
        · rw [hattempted]
          exact List.isChain_cons_cons.mpr ⟨⟨hnext, hfloor⟩, hchain⟩
        · intro haccepted
          obtain ⟨dt, hmem, hdt, hlanded, hgrown, hqueue⟩ := hrest.accepted haccepted
          exact ⟨dt, List.mem_cons_of_mem _ hmem, hdt, hlanded.of_kept hkept', hgrown, hqueue⟩
        · intro hrefused
          obtain ⟨hnone, hlast⟩ := hrest.refused hrefused
          exact ⟨hnone, hkept'.trans hlast⟩
    | failed =>
      obtain ⟨s₁, hnative, hprepared, hkept⟩ := nativeAttempt_failed h
      have hreport : executeAttempts rnd policy outcome (fuel + 1) cursor s =
          ⟨[cursor.proposal], none, .failed, s₁⟩ := by
        simp only [executeAttempts, hn, houtcome, hnative]
      rw [hreport]
      exact ⟨⟨[], rfl, List.isChain_singleton _⟩, Nat.succ_le_succ (Nat.zero_le _), .inr (.inr rfl),
        hprepared.coherent, fun hne => (by cases hne), fun _ => ⟨rfl, hkept⟩⟩

/-- **A round.**  From a coherent engine, with a positive first proposal, every round ends accepted,
rejected or failed; nothing that it does to the queue raises. -/
theorem executeRound_spec (hrnd : ∀ x, 0 < x → 0 < rnd x) (hpolicy : policy.postInit = .ok ())
    (h : Coherent rnd s) {round : Round} (hpos : 0 < firstProposal rnd policy s round.tEnd)
    (hlater : ∀ dt, 0 < dt → (executeRound rnd policy s round).landed = some dt →
      s.time < rnd (s.time + dt)) :
    RoundSpec rnd policy s (firstProposal rnd policy s round.tEnd) (policy.maxRejections.toNat + 1)
      (executeRound rnd policy s round) := by
  obtain ⟨⟨-, -, -, hmin, hmax, -, hgrowth⟩, hrejections, -⟩ :=
    ErrorControlledDt.postInit_eq_ok.mp hpolicy
  obtain ⟨cursor, s', hprepare, hproposal, hattempts, hprepared, hkept⟩ :=
    prepareAttempts_spec h hpos
  have hround : executeRound rnd policy s round =
      executeAttempts rnd policy round.outcome (policy.maxRejections.toNat + 1) cursor s' := by
    simp only [executeRound, hprepare]
  rw [hround] at hlater ⊢
  have hspec := @executeAttempts_spec rnd policy hrnd hmin hmax hgrowth round.outcome
    (policy.maxRejections.toNat + 1) cursor s' hprepared (by omega) (Nat.succ_pos _)
    fun dt hdt hlanded => by
      rw [hkept.time_eq]
      exact hlater dt hdt hlanded
  rw [← hproposal]
  exact ⟨hspec.chain, hspec.length_le, hspec.ends, hspec.coherent, fun haccepted => by
      obtain ⟨dt, hmem, hdt, hlanded, hrest⟩ := hspec.accepted haccepted
      exact ⟨dt, hmem, hdt, hlanded.of_kept hkept, hrest⟩,
    fun hrefused => ⟨(hspec.refused hrefused).1, hkept.trans (hspec.refused hrefused).2⟩⟩

/-- The first proposal of a round with an interval left is positive. -/
lemma firstProposal_pos (hrnd : ∀ x, 0 < x → 0 < rnd x) (hmax : 0 < policy.dtMax)
    (hnext : 0 < s.controller.nextDt) {tEnd : ℚ} (hleft : s.time < tEnd) :
    0 < firstProposal rnd policy s tEnd :=
  lt_min (lt_min hnext hmax) (hrnd _ (by linarith))

/-- Every duration of a chain is positive. -/
lemma positive_of_chain (hmin : 0 < policy.dtMin) : ∀ {rest : List ℚ} {first : ℚ}, 0 < first →
    (first :: rest).IsChain (fun dt next => next = rnd (dt * policy.shrink) ∧ policy.dtMin ≤ next) →
    ∀ dt ∈ first :: rest, 0 < dt
  | [], first, hfirst, _, dt, hdt => by
    rw [List.mem_singleton.mp hdt]
    exact hfirst
  | next :: rest, first, hfirst, hchain, dt, hdt => by
    obtain ⟨⟨-, hfloor⟩, hrest⟩ := List.isChain_cons_cons.mp hchain
    rcases List.mem_cons.mp hdt with rfl | hdt
    · exact hfirst
    · exact positive_of_chain hmin (hmin.trans_le hfloor) hrest dt hdt

/-- The stored proposal stays positive. -/
lemma RoundSpec.nextDt_pos {first : ℚ} {fuel : ℕ} {report : Report}
    (h : RoundSpec rnd policy s first fuel report) (hrnd : ∀ x, 0 < x → 0 < rnd x)
    (hpolicy : policy.postInit = .ok ()) (hfirst : 0 < first) (hnext : 0 < s.controller.nextDt) :
    0 < report.session.controller.nextDt := by
  obtain ⟨⟨-, -, -, hmin, hmax, -, hgrowth⟩, -⟩ := ErrorControlledDt.postInit_eq_ok.mp hpolicy
  by_cases haccepted : report.ending = .accepted
  · obtain ⟨dt, hmem, -, -, hgrown, -⟩ := h.accepted haccepted
    obtain ⟨rest, hattempted, hchain⟩ := h.chain
    have hdt : 0 < dt := by
      rw [hattempted] at hmem
      exact (positive_of_chain hmin hfirst hchain) dt hmem
    rw [hgrown]
    exact lt_min hmax (hrnd _ (mul_pos hdt hgrowth))
  · rw [(h.refused haccepted).2.nextDt_eq]
    exact hnext

/-- A round keeps what the temporal state is bound to. -/
lemma RoundSpec.bound_eq {first : ℚ} {fuel : ℕ} {report : Report}
    (h : RoundSpec rnd policy s first fuel report) :
    report.session.temporal.map Bound = s.temporal.map Bound := by
  by_cases haccepted : report.ending = .accepted
  · obtain ⟨dt, -, -, hlanded, -⟩ := h.accepted haccepted
    exact hlanded.bound_eq
  · exact (h.refused haccepted).2.bound_eq

end Operations

/-! ## A run -/

section Run

variable {rnd : ℚ → ℚ} {policy : ErrorControlledDt}

/-- **A run of rounds**: every round starts coherent and does what a round does. -/
theorem history_spec (hrnd : ∀ x, 0 < x → 0 < rnd x) (hpolicy : policy.postInit = .ok ()) :
    ∀ {rounds : List Round} {s : Session}, Coherent rnd s → 0 < s.controller.nextDt →
      (∀ entry ∈ history rnd policy s rounds, entry.before.time < entry.round.tEnd) →
      (∀ entry ∈ history rnd policy s rounds, ∀ dt, 0 < dt → entry.report.landed = some dt →
        entry.before.time < rnd (entry.before.time + dt)) →
      ∀ entry ∈ history rnd policy s rounds, Coherent rnd entry.before ∧
        0 < entry.before.controller.nextDt ∧ entry.before.temporal.map Bound =
        s.temporal.map Bound ∧
        RoundSpec rnd policy entry.before (firstProposal rnd policy entry.before entry.round.tEnd)
          (policy.maxRejections.toNat + 1) entry.report := by
  intro rounds
  induction rounds with
  | nil =>
    intro s _ _ _ _ entry hentry
    cases hentry
  | cons round rest ih =>
    intro s h hnext hleft hlater
    rw [history, List.forall_mem_cons] at hleft hlater ⊢
    have hmax := (ErrorControlledDt.postInit_eq_ok.mp hpolicy).1.2.2.2.2.1
    have hfirst := firstProposal_pos hrnd hmax hnext hleft.1
    have hspec := executeRound_spec hrnd hpolicy h hfirst hlater.1
    refine ⟨⟨h, hnext, rfl, hspec⟩, fun entry hentry => ?_⟩
    rw [← hspec.bound_eq]
    exact ih hspec.coherent (hspec.nextDt_pos hrnd hpolicy hfirst hnext) hleft.2 hlater.2
      entry hentry

end Run

/-! ## The bounds of the policy in exact arithmetic -/

section Exact

variable {policy : ErrorControlledDt}

/-- A round respects the policy, apart from its smallest duration: every duration that it tries is
positive, at most the largest one and at most the interval that is left; the durations decrease; the
attempts are at most one more than the rejections; and without an acceptance the stored proposal
stays. -/
def Entry.Bounded (entry : Entry) (policy : ErrorControlledDt) : Prop :=
  (∀ dt ∈ entry.report.attempted,
    0 < dt ∧ dt ≤ policy.dtMax ∧ dt ≤ entry.round.tEnd - entry.before.time) ∧
  entry.report.attempted.Pairwise (· > ·) ∧
  (entry.report.attempted.length : ℤ) ≤ policy.maxRejections + 1 ∧
  (entry.report.ending ≠ .accepted →
    entry.report.session.controller.nextDt = entry.before.controller.nextDt)

/-- A round respects the smallest duration: what it tries below it is the whole interval that is
left. -/
def Entry.Floored (entry : Entry) (policy : ErrorControlledDt) : Prop :=
  ∀ dt ∈ entry.report.attempted, dt < policy.dtMin → dt = entry.round.tEnd - entry.before.time

instance (entry : Entry) (policy : ErrorControlledDt) : Decidable (entry.Floored policy) :=
  inferInstanceAs (Decidable (∀ dt ∈ _, _))

/-- Behind the first duration of a round the durations shrink, and none is below the smallest one.
-/
lemma chain_decreasing (hmin : 0 < policy.dtMin) (hshrink : policy.shrink < 1) :
    ∀ {rest : List ℚ} {first : ℚ}, 0 < first →
      (first :: rest).IsChain (fun dt next => next = dt * policy.shrink ∧ policy.dtMin ≤ next) →
      (first :: rest).Pairwise (· > ·) ∧ ∀ dt ∈ rest, policy.dtMin ≤ dt ∧ dt < first
  | [], first, _, _ => ⟨List.pairwise_singleton _ _, by simp⟩
  | next :: rest, first, hfirst, hchain => by
    obtain ⟨⟨hnext, hfloor⟩, hrest⟩ := List.isChain_cons_cons.mp hchain
    obtain ⟨hpairwise, hbelow⟩ := chain_decreasing hmin hshrink (hmin.trans_le hfloor) hrest
    have hlt : next < first := by
      rw [hnext]
      exact mul_lt_of_lt_one_right hfirst hshrink
    have hall : ∀ dt ∈ next :: rest, policy.dtMin ≤ dt ∧ dt < first := by
      intro dt hdt
      rcases List.mem_cons.mp hdt with rfl | hdt
      · exact ⟨hfloor, hlt⟩
      · exact ⟨(hbelow dt hdt).1, (hbelow dt hdt).2.trans hlt⟩
    exact ⟨List.pairwise_cons.mpr ⟨fun dt hdt => (hall dt hdt).2, hpairwise⟩, hall⟩

/-- The bounds of one round: the smallest duration is respected unless the stored proposal is below
it and fits into the interval that is left. -/
lemma bounds_of_spec (hpolicy : policy.postInit = .ok ()) {entry : Entry}
    (hnext : 0 < entry.before.controller.nextDt) (hleft : entry.before.time < entry.round.tEnd)
    (h : RoundSpec id policy entry.before (firstProposal id policy entry.before entry.round.tEnd)
      (policy.maxRejections.toNat + 1) entry.report) :
    entry.Bounded policy ∧ (entry.Floored policy ↔
      policy.dtMin ≤ entry.before.controller.nextDt ∨
        entry.round.tEnd - entry.before.time ≤ entry.before.controller.nextDt) := by
  obtain ⟨⟨-, -, -, hmin, hmax, -, -⟩, hrejections, ⟨hlow, hhigh⟩, hshrink, -⟩ :=
    ErrorControlledDt.postInit_eq_ok.mp hpolicy
  have hfirst := @firstProposal_pos id policy entry.before (fun _ hx => hx) hmax hnext
    entry.round.tEnd hleft
  obtain ⟨rest, hattempted, hchain⟩ := h.chain
  obtain ⟨hpairwise, hrest⟩ := chain_decreasing hmin hshrink hfirst hchain
  have hle : firstProposal id policy entry.before entry.round.tEnd ≤ policy.dtMax :=
    (min_le_left _ _).trans (min_le_right _ _)
  have hle' : firstProposal id policy entry.before entry.round.tEnd ≤
      entry.round.tEnd - entry.before.time := min_le_right _ _
  have hfloored : entry.Floored policy ↔
      (firstProposal id policy entry.before entry.round.tEnd < policy.dtMin →
        firstProposal id policy entry.before entry.round.tEnd =
          entry.round.tEnd - entry.before.time) := by
    rw [Entry.Floored, hattempted, List.forall_mem_cons]
    exact ⟨fun h => h.1, fun h => ⟨h, fun dt hdt hbelow =>
      absurd (hrest dt hdt).1 (not_le.mpr hbelow)⟩⟩
  refine ⟨⟨?_, ?_, ?_, fun hrefused => (h.refused hrefused).2.nextDt_eq⟩, hfloored.trans ⟨?_, ?_⟩⟩
  · rw [hattempted]
    intro dt hdt
    rcases List.mem_cons.mp hdt with rfl | hdt
    · exact ⟨hfirst, hle, hle'⟩
    · obtain ⟨hdtmin, hlt⟩ := hrest dt hdt
      exact ⟨hmin.trans_le hdtmin, hlt.le.trans hle, hlt.le.trans hle'⟩
  · rw [hattempted]
    exact hpairwise
  · have := h.length_le
    omega
  · intro hproposal
    by_contra hcontra
    obtain ⟨hbelow, hfits⟩ := not_or.mp hcontra
    have hbelow := not_le.mp hbelow
    have hfits := not_le.mp hfits
    have hvalue : firstProposal id policy entry.before entry.round.tEnd =
        entry.before.controller.nextDt := by
      show min (min _ _) (entry.round.tEnd - entry.before.time) = _
      rw [min_eq_left (hbelow.le.trans (hlow.trans hhigh)), min_eq_left hfits.le]
    rw [hvalue] at hproposal
    exact hfits.ne (hproposal hbelow)
  · rintro hcondition hbelow
    unfold firstProposal at hbelow ⊢
    refine min_eq_right ?_
    by_contra hcontra
    have hcontra := not_le.mp hcontra
    rw [min_eq_left hcontra.le] at hbelow
    rcases hcondition with hstored | hfits
    · exact absurd (le_min hstored (hlow.trans hhigh)) (not_le.mpr hbelow)
    · rcases min_lt_iff.mp hcontra with hlt | hlt
      · exact absurd hfits (not_le.mpr hlt)
      · rw [min_eq_right (hlt.le.trans hfits)] at hbelow
        exact absurd (hlow.trans hhigh) (not_le.mpr hbelow)

/-- **When a run respects the policy.**  In a run of rounds with intervals left, from the initial
proposal, every round keeps the bounds of the policy if and only if no round starts with a stored
proposal below the smallest duration that fits into the interval that is left.

**Proof sketch.** The durations behind the first one of a round are shrunk ones that passed the
floor.  The first one is the stored proposal, or the largest duration, or the interval; the stored
proposal is below the floor when it has grown from a clipped interval. -/
theorem history_bounds_iff (policy : Policy) (s : Session) (rounds : List Round)
    (hstart : s.controller.nextDt = policy.val.dtInit) (hcoherent : Coherent id s)
    (hleft : ∀ entry ∈ history id policy.val s rounds, entry.before.time < entry.round.tEnd) :
    (∀ entry ∈ history id policy.val s rounds,
        entry.Bounded policy.val ∧ entry.Floored policy.val) ↔
      ∀ entry ∈ history id policy.val s rounds,
        policy.val.dtMin ≤ entry.before.controller.nextDt ∨
          entry.round.tEnd - entry.before.time ≤ entry.before.controller.nextDt := by
  have hpolicy := policy.property
  have hinit := (ErrorControlledDt.postInit_eq_ok.mp hpolicy).1.1
  have hspec := history_spec (fun _ hx => hx) hpolicy hcoherent (by rw [hstart]; exact hinit) hleft
    fun entry _ dt hdt _ => lt_add_of_pos_right _ hdt
  refine forall₂_congr fun entry hentry => ?_
  obtain ⟨-, hnext, -, hround⟩ := hspec entry hentry
  obtain ⟨hbounded, hfloored⟩ := bounds_of_spec hpolicy hnext (hleft entry hentry) hround
  rw [← hfloored]
  exact and_iff_right hbounded

/-- Steps between one half and two, from an initial step of one. -/
def unitPolicy : Policy := ⟨⟨1, 1, 1, 1 / 2, 2, 3, 1 / 2, 5 / 4⟩, by decide +kernel⟩

/-- The engine at the start, without a temporal state. -/
def unitSession : Session := ⟨0, 0, ⟨1, 0⟩, none⟩

/-- A round up to a time whose steps return. -/
def returningRound (tEnd : ℚ) : Round := ⟨tEnd, fun _ => .returned⟩

/-- A run of two rounds respects the policy. -/
theorem history_bounds_two :
    (history id unitPolicy.val unitSession [returningRound 1, returningRound 3]).length = 2 ∧
    ∀ entry ∈ history id unitPolicy.val unitSession [returningRound 1, returningRound 3],
      entry.Bounded unitPolicy.val ∧ entry.Floored unitPolicy.val :=
  ⟨by decide +kernel,
    (history_bounds_iff unitPolicy unitSession [returningRound 1, returningRound 3]
    rfl (fun _ h => by cases h) (by decide +kernel)).mpr (by decide +kernel)⟩

/-- A run with an output time at one tenth. -/
def clippedRun : List Entry :=
  history id unitPolicy.val unitSession [returningRound (1 / 10), returningRound 10]

/-- Behind an output time at one tenth the next step is one eighth, below the smallest duration one
half and far from the target. -/
theorem history_below_floor :
    (∀ entry ∈ clippedRun, entry.before.time < entry.round.tEnd) ∧
      ¬ ∀ entry ∈ clippedRun, entry.Bounded unitPolicy.val ∧ entry.Floored unitPolicy.val := by
  refine ⟨by decide +kernel, fun h => ?_⟩
  have hfloored : ∀ entry ∈ clippedRun, entry.Floored unitPolicy.val :=
    fun entry hentry => (h entry hentry).2
  revert hfloored
  decide +kernel

end Exact

end Pops.Stepping
