import Pops.Foundation.SignificantBits
import Pops.Runtime.Stepping.ErrorControlledRuns

/-!
# Checkpoints of error-controlled runs

The next proposal of an error-controlled run is held three times: in the controller, in the queue of
the temporal state, and as the value that the checks of a checkpoint compute from the last accepted
duration.  The first two agree along every run.  The third one is computed from the difference of
the clocks, the first two from the proposal itself, and rounding may tell them apart.

## Main definitions

* `Pops.Stepping.startState`, `startSession` — the start of a run.
* `Pops.Stepping.Controller.restoreTemporalState` — a controller restored from a temporal state.
* `Pops.Stepping.Session.Resumes` — a checkpoint can be written, read back and resumed.

## Main results

* `Pops.Stepping.TemporalRestartState.fromJson_checkpointJson` — every written checkpoint is read
  back.
* `Pops.Stepping.checkpointJson_iff` — when a checkpoint can be written at an accepted boundary.
* `Pops.Stepping.history_resumes_iff` — when every accepted boundary of a run can be resumed.
-/

namespace Pops.Stepping

open SignificantBits TemporalRestartState

/-! ## Definitions -/

section Definitions

variable (rnd : ℚ → ℚ)

/-- A fresh temporal state, bound to the schedule of an installed Program, if there is one. -/
def installedState (schedule : Option ProgramSchedule) : Raises TemporalRestartState :=
  match schedule with
  | none => pure initial
  | some schedule => initial.configureProgram schedule 0 0

/-- The temporal state at the start of a run. -/
def startState (schedule : Option ProgramSchedule) (policy : ErrorControlledDt) :
    Raises TemporalRestartState := do
  let state ← installedState schedule
  state.beginRun rnd (.errorControlledDt policy) 0 0

/-- A new controller. -/
def Controller.new (policy : ErrorControlledDt) : Controller := ⟨policy.dtInit, 0⟩

/-- The engine at the start of a run. -/
def startSession (policy : ErrorControlledDt) (temporal : TemporalRestartState) : Session :=
  ⟨0, 0, .new policy, some temporal⟩

/-- `restore_temporal_state`: a restored controller takes the queued proposal. -/
def Controller.restoreTemporalState (controller : Controller) (temporal : TemporalRestartState) :
    Raises Controller :=
  if temporal.restoredPending then do
    let (_, proposal) ← temporal.queuedErrorControlledProposal rnd temporal.time temporal.macroStep
    pure { controller with nextDt := proposal }
  else pure controller

/-- A checkpoint of the engine can be written; it is read back with the same fields, and a new
controller restored from it proposes for every later target what the controller of the engine
proposes. -/
def Session.Resumes (policy : ErrorControlledDt) (json : JsonText) (s : Session) : Prop :=
  ∃ temporal text controller, s.temporal = some temporal ∧
    temporal.checkpointJson rnd json s.time s.macroStep = .ok text ∧
    TemporalRestartState.fromJson rnd json text s.time s.macroStep =
      .ok { temporal with restoredPending := true } ∧
    (Controller.new policy).restoreTemporalState rnd { temporal with restoredPending := true } =
      .ok controller ∧
    ∀ tEnd, s.time < tEnd → firstProposal rnd policy { s with controller := controller } tEnd =
      firstProposal rnd policy s tEnd

/-- A checkpoint of the engine can be written. -/
def Session.Writes (json : JsonText) (s : Session) : Prop :=
  (s.temporal.map fun temporal =>
    (temporal.checkpointJson rnd json s.time s.macroStep).isOk) = some true

instance (json : JsonText) (s : Session) : Decidable (s.Writes rnd json) :=
  inferInstanceAs (Decidable (_ = _))

/-- The round ends without an error of the temporal state, and an accepted one can be resumed. -/
def Entry.Resumes (policy : ErrorControlledDt) (json : JsonText) (entry : Entry) : Prop :=
  (entry.report.ending = .accepted ∨ entry.report.ending = .rejected ∨
    entry.report.ending = .failed) ∧
  (entry.report.ending = .accepted → entry.report.session.Resumes rnd policy json)

/-- The clock at which a duration starts measures the duration well enough: the next proposal
computed from the difference of the clocks is the one computed from the duration. -/
def Measures (policy : ErrorControlledDt) (time dt : ℚ) : Prop :=
  min policy.dtMax (rnd (rnd (rnd (time + dt) - time) * policy.growth)) =
    min policy.dtMax (rnd (dt * policy.growth))

instance (policy : ErrorControlledDt) (time dt : ℚ) : Decidable (Measures rnd policy time dt) :=
  inferInstanceAs (Decidable (_ = _))

end Definitions

/-! ## Writing and reading a checkpoint -/

section Checkpoint

variable {rnd : ℚ → ℚ} {json : JsonText}

/-- **Every written checkpoint is read back** at its clock, with the same fields.

**Proof sketch.** The two functions make the same checks; what the reader normalizes passed a check
of the writer. -/
theorem TemporalRestartState.fromJson_checkpointJson {state : TemporalRestartState} {time : ℚ}
    {macroStep : ℕ} {text : json.Text}
    (h : state.checkpointJson rnd json time macroStep = .ok text) :
    TemporalRestartState.fromJson rnd json text time macroStep =
      .ok { state with restoredPending := true } := by
  obtain ⟨⟨strategy, schedule, stateTime, stateStep, cursors, lastDt, queue, stats, status,
    synchronized⟩, pending⟩ := state
  simp only [checkpointJson, requireLiveClock, bind_eq_ok, raiseIf_eq_ok, not_or, not_not,
    exists_const, ne_eq] at h
  obtain ⟨⟨rfl, rfl⟩, ⟨rfl, hsynchronized⟩, h⟩ := h
  obtain rfl : synchronized = true := by simpa using hsynchronized
  cases strategy with
  | none => cases h
  | some strategy =>
    simp only [bind_eq_ok, raiseIf_eq_ok, not_not, pure_eq_ok] at h
    obtain ⟨⟨⟩, hschedule, -, hcursors, ⟨⟩, hcontroller, ⟨⟩, hevents, rfl⟩ := h
    simp only [fromJson, json.loads_dumps, ok_bind, hschedule, hcontroller, hevents,
      raiseIf, ← hcursors, ne_eq, not_true_eq_false, or_self, if_false, Bool.true_eq_false]
    rfl

variable {policy : ErrorControlledDt} {temporal : TemporalRestartState} {s : Session}

/-- **When a checkpoint can be written** at an accepted boundary with one queued proposal: the
proposal is the one that the last accepted duration gives. -/
theorem checkpointJson_iff (hpolicy : policy.postInit = .ok ()) (hlive : Live temporal s)
    (hstep : 0 < s.macroStep) (hstatus : temporal.status = .accepted)
    (hsynchronized : temporal.synchronized = true)
    (hcursors : temporal.cursors = boundaryCursors temporal.programSchedule s.time s.macroStep)
    (hstrategy : temporal.strategy = some (.errorControlledDt policy))
    (hschedule : validateOptionalSchedule temporal.programSchedule = .ok ()) {lastDt dt : ℚ}
    (hlast : temporal.lastAcceptedDt = some lastDt) (hlastDt : 0 < lastDt) (hdt : 0 < dt)
    (hqueue : temporal.eventQueue = [proposalEvent rnd s.time s.macroStep dt]) :
    (∃ text, temporal.checkpointJson rnd json s.time s.macroStep = .ok text) ↔
      min policy.dtMax (rnd (lastDt * policy.growth)) = dt := by
  have hcontroller : validateControllerState temporal.lastAcceptedDt = .ok () := by
    rw [validateControllerState, raiseIf_eq_ok, hlast]
    rintro ⟨dt, hmem, hle⟩
    obtain rfl := Option.some.inj hmem
    exact absurd hlastDt (not_lt.mpr hle)
  have hevents : validateControllerEvents rnd temporal.eventQueue (.errorControlledDt policy)
      temporal.lastAcceptedDt s.time s.macroStep = .ok () ↔
        min policy.dtMax (rnd (lastDt * policy.growth)) = dt := by
    simp only [validateControllerEvents, hqueue, hlast, proposalEvent, bind_eq_ok, raiseIf_eq_ok,
      exists_const, hpolicy, ne_eq, not_true_eq_false, not_false_eq_true, true_and, not_le,
        hdt, not_not]
    constructor
    · rintro ⟨-, -, h⟩
      exact h.symm
    · intro h
      exact ⟨by simp [hstep.ne'], by simp, h.symm⟩
  rw [← hevents]
  simp only [checkpointJson, hlive.requireLiveClock, ok_bind, hstatus, hsynchronized, hstrategy,
    hschedule, hcontroller, ← hcursors, raiseIf, ne_eq, not_true_eq_false, or_self, if_false,
    Bool.true_eq_false, bind_eq_ok, pure_eq_ok]
  constructor
  · rintro ⟨text, ⟨⟩, hok, -⟩
    exact hok
  · intro hok
    exact ⟨_, (), hok, rfl⟩

/-- What can be resumed can be written. -/
theorem Session.Resumes.writes (h : s.Resumes rnd policy json) : s.Writes rnd json := by
  obtain ⟨temporal, text, -, htemporal, htext, -⟩ := h
  rw [Session.Writes, htemporal, Option.map_some, htext]
  rfl

/-- A controller restored from a temporal state with a queued proposal makes this proposal. -/
lemma restoreTemporalState_eq (controller : Controller) (hlive : Live temporal s) {dt : ℚ}
    (hqueue : temporal.eventQueue = [proposalEvent rnd s.time s.macroStep dt]) :
    controller.restoreTemporalState rnd { temporal with restoredPending := true } =
      .ok { controller with nextDt := dt } := by
  have hlive' : Live { temporal with restoredPending := true } s :=
    ⟨hlive.time_eq, hlive.macroStep_eq⟩
  simp only [Controller.restoreTemporalState, if_true]
  rw [hlive.time_eq, hlive.macroStep_eq, queued_eq hlive' hqueue]
  rfl

end Checkpoint

/-! ## Runs -/

section Run

variable {rnd : ℚ → ℚ} {json : JsonText} {policy : ErrorControlledDt}
  {schedule : Option ProgramSchedule} {temporal : TemporalRestartState}

/-- A state that no run has used. -/
structure Fresh (state : TemporalRestartState) (schedule : Option ProgramSchedule) : Prop where
  time_eq : state.time = 0
  macroStep_eq : state.macroStep = 0
  schedule_eq : state.programSchedule = schedule
  strategy_eq : state.strategy = none
  pending_eq : state.restoredPending = false
  last_eq : state.lastAcceptedDt = none
  queue_eq : state.eventQueue = []

/-- An installed Program has a validated schedule, and its state is fresh. -/
lemma installedState_spec {state : TemporalRestartState}
    (h : installedState schedule = .ok state) :
    Fresh state schedule ∧ validateOptionalSchedule schedule = .ok () := by
  cases schedule with
  | none =>
    obtain rfl := pure_eq_ok.mp h
    exact ⟨⟨rfl, rfl, rfl, rfl, rfl, rfl, rfl⟩, rfl⟩
  | some schedule =>
    simp only [installedState, configureProgram, bind_eq_ok, pure_eq_ok] at h
    obtain ⟨⟨⟩, -, ⟨⟩, hvalid, ⟨⟩, -, ⟨⟩, -, rfl⟩ := h
    exact ⟨⟨rfl, rfl, rfl, rfl, rfl, rfl, rfl⟩, hvalid⟩

/-- The start of a run queues the initial duration. -/
lemma beginRun_fresh {state : TemporalRestartState} (h : Fresh state schedule)
    (hinit : 0 < policy.dtInit) :
    state.beginRun rnd (.errorControlledDt policy) 0 0 = .ok { state with
      time := 0
      macroStep := 0
      cursors := boundaryCursors state.programSchedule 0 0
      strategy := some (.errorControlledDt policy)
      eventQueue := [proposalEvent rnd 0 0 policy.dtInit] } := by
  simp only [beginRun, ok_bind, h.time_eq, h.macroStep_eq, h.strategy_eq, h.pending_eq, h.last_eq,
    h.queue_eq, and_self, if_true, raiseIf, Bool.false_eq_true, false_and, if_false,
    queueErrorControlledProposal, requireLiveClock, ne_eq, not_true_eq_false, or_self,
      not_le.mpr hinit]
  rfl

/-- What the start of a run guarantees. -/
lemma startState_spec (hinit : 0 < policy.dtInit)
    (h : startState rnd schedule policy = .ok temporal) :
    Coherent rnd (startSession policy temporal) ∧
      Bound temporal = (some (.errorControlledDt policy), schedule) ∧
      validateOptionalSchedule schedule = .ok () := by
  obtain ⟨state, hstate, hbegin⟩ := bind_eq_ok.mp h
  obtain ⟨hfresh, hvalid⟩ := installedState_spec hstate
  rw [beginRun_fresh hfresh hinit] at hbegin
  obtain rfl := Except.ok.inj hbegin
  refine ⟨?_, by rw [← hfresh.schedule_eq]; rfl, hvalid⟩
  intro temporal' h'
  obtain rfl := Option.some.inj h'
  exact ⟨⟨rfl, rfl⟩, .inr ⟨policy.dtInit, hinit, rfl⟩⟩

/-- One round: it can be resumed if and only if the clock measures the duration that was accepted.
-/
lemma resumes_of_spec {entry : Entry} {fuel : ℕ} {first : ℚ} (hrnd : ∀ x, 0 < x → 0 < rnd x)
    (hpolicy : policy.postInit = .ok ()) (hvalid : validateOptionalSchedule schedule = .ok ())
    (hbound : entry.before.temporal.map Bound = some (some (.errorControlledDt policy), schedule))
    (hfirst : 0 < first)
    (hlater : ∀ dt, 0 < dt → entry.report.landed = some dt →
      entry.before.time < rnd (entry.before.time + dt))
    (h : RoundSpec rnd policy entry.before first fuel entry.report) :
    entry.Resumes rnd policy json ↔
      ∀ dt, entry.report.landed = some dt → Measures rnd policy entry.before.time dt := by
  rw [Entry.Resumes, and_iff_right h.ends]
  by_cases haccepted : entry.report.ending = .accepted
  · obtain ⟨dt, hmem, hlandedDt, hlanded, hgrown, hqueue⟩ := h.accepted haccepted
    obtain ⟨⟨-, -, -, hmin, hmax, -, hgrowth⟩, -⟩ := ErrorControlledDt.postInit_eq_ok.mp hpolicy
    have hdt : 0 < dt := by
      obtain ⟨rest, hattempted, hchain⟩ := h.chain
      rw [hattempted] at hmem
      exact positive_of_chain hmin hfirst hchain dt hmem
    have hnext : 0 < entry.report.session.controller.nextDt := by
      rw [hgrown]
      exact lt_min hmax (hrnd _ (mul_pos hdt hgrowth))
    have hlast : 0 < rnd (entry.report.session.time - entry.before.time) := by
      have := hlater dt hdt hlandedDt
      rw [hlanded.time_eq]
      exact hrnd _ (by linarith)
    obtain ⟨temporal, htemporal, hkept⟩ :
        ∃ temporal, entry.report.session.temporal = some temporal ∧
          Bound temporal = (some (.errorControlledDt policy), schedule) :=
      Option.map_eq_some_iff.mp (h.bound_eq.trans hbound)
    obtain ⟨hstrategy, rfl⟩ := Prod.mk.inj hkept
    obtain ⟨hlive, hlastDt, hstatus, hsynchronized, -, hcursors⟩ :=
      hlanded.accepted temporal htemporal
    have hstep : 0 < entry.report.session.macroStep := by
      rw [hlanded.macroStep_eq]
      omega
    have hwritten :
        (∃ text, temporal.checkpointJson rnd json entry.report.session.time
          entry.report.session.macroStep = .ok text) ↔ _ :=
      checkpointJson_iff hpolicy hlive hstep hstatus hsynchronized hcursors hstrategy hvalid hlastDt
        hlast hnext (hqueue temporal htemporal)
    have hmeasures : (∀ dt, entry.report.landed = some dt →
        Measures rnd policy entry.before.time dt) ↔
        min policy.dtMax (rnd (rnd (entry.report.session.time - entry.before.time) *
          policy.growth)) =
          entry.report.session.controller.nextDt := by
      rw [hlandedDt, hgrown, hlanded.time_eq]
      exact ⟨fun hall => hall dt rfl, fun heq dt' hdt' => by
        obtain rfl := Option.some.inj hdt'
        exact heq⟩
    rw [hmeasures, ← hwritten]
    constructor
    · intro hresumes
      obtain ⟨temporal', text, -, htemporal', htext, -⟩ := hresumes haccepted
      obtain rfl := Option.some.inj (htemporal.symm.trans htemporal')
      exact ⟨text, htext⟩
    · rintro ⟨text, htext⟩ -
      exact ⟨temporal, text, _, htemporal, htext, fromJson_checkpointJson htext,
        restoreTemporalState_eq _ hlive (hqueue temporal htemporal), fun tEnd _ => rfl⟩
  · obtain ⟨hlanded, -⟩ := h.refused haccepted
    rw [hlanded]
    exact ⟨fun _ dt hdt => (by cases hdt), fun _ hcontra => absurd hcontra haccepted⟩

/-- **When a run can be resumed** from every accepted boundary, in rounded arithmetic: if and only
if the clocks measure every accepted duration well enough for the growth rule.

**Proof sketch.** Along a run the queue holds the stored proposal, so that nothing raises.  At an
accepted boundary the stored proposal has grown from the duration of the step, while the checks of
the checkpoint let it grow from the difference of the two clocks; everything else that they check
holds.  What is written is read back, and a controller restored from it takes the queued proposal.
-/
theorem history_resumes_iff (json : JsonText) (policy : Policy) (schedule : Option ProgramSchedule)
    (temporal : TemporalRestartState) (rounds : List Round)
    (hstart : startState (roundTo 53) schedule policy.val = .ok temporal)
    (hleft : ∀ entry ∈ history (roundTo 53) policy.val (startSession policy.val temporal) rounds,
      entry.before.time < entry.round.tEnd)
    (hlater : ∀ entry ∈ history (roundTo 53) policy.val (startSession policy.val temporal) rounds,
      ∀ dt ∈ entry.report.landed, entry.before.time < roundTo 53 (entry.before.time + dt)) :
    (∀ entry ∈ history (roundTo 53) policy.val (startSession policy.val temporal) rounds,
        entry.Resumes (roundTo 53) policy.val json) ↔
      ∀ entry ∈ history (roundTo 53) policy.val (startSession policy.val temporal) rounds,
        ∀ dt ∈ entry.report.landed, Measures (roundTo 53) policy.val entry.before.time dt := by
  have hrnd : ∀ x : ℚ, 0 < x → 0 < roundTo 53 x := fun x => roundTo_pos (by decide)
  have hpolicy := policy.property
  obtain ⟨⟨hinit, -, -, -, hmax, -⟩, -⟩ := ErrorControlledDt.postInit_eq_ok.mp hpolicy
  obtain ⟨hcoherent, hbound, hvalid⟩ := startState_spec hinit hstart
  have hadvances : ∀ entry ∈
      history (roundTo 53) policy.val (startSession policy.val temporal) rounds,
      ∀ dt, 0 < dt → entry.report.landed = some dt →
        entry.before.time < roundTo 53 (entry.before.time + dt) :=
    fun entry hentry dt _ => hlater entry hentry dt
  have hspec := history_spec hrnd hpolicy hcoherent hinit hleft hadvances
  refine forall₂_congr fun entry hentry => ?_
  obtain ⟨-, hnext, hkept, hround⟩ := hspec entry hentry
  refine resumes_of_spec hrnd hpolicy hvalid (hkept.trans (congrArg some hbound)) ?_
    (hadvances entry hentry) hround
  exact firstProposal_pos hrnd hmax hnext (hleft entry hentry)

/-- Steps from an initial step of one that may grow to two. -/
def growingPolicy : Policy := ⟨⟨1, 1, 1, 1, 2, 3, 1 / 2, 2⟩, by decide +kernel⟩

/-- Steps that grow by the last significant bit of one. -/
def slowPolicy : Policy := ⟨⟨1, 1, 1, 1, 2, 3, 1 / 2, 1 + 1 / 2 ^ 52⟩, by decide +kernel⟩

/-- Texts that are the data themselves. -/
def dataText : JsonText := ⟨Envelope, id, .ok, fun _ => rfl⟩

/-- The temporal state of a run with a policy, without a Program. -/
def startedState (policy : ErrorControlledDt) : TemporalRestartState :=
  { initial with
    strategy := some (.errorControlledDt policy)
    eventQueue := [proposalEvent (roundTo 53) 0 0 policy.dtInit] }

/-- A run of two rounds, of one and of two units, can be resumed from both boundaries. -/
theorem history_resumes_two :
    (history (roundTo 53) growingPolicy.val
        (startSession growingPolicy.val (startedState growingPolicy.val))
        [returningRound 1, returningRound 3]).length = 2 ∧
    ∀ entry ∈ history (roundTo 53) growingPolicy.val
        (startSession growingPolicy.val (startedState growingPolicy.val))
        [returningRound 1, returningRound 3],
      entry.Resumes (roundTo 53) growingPolicy.val dataText :=
  ⟨by decide +kernel, (history_resumes_iff dataText growingPolicy none
    (startedState growingPolicy.val) [returningRound 1, returningRound 3] (by decide +kernel)
    (by decide +kernel) (by decide +kernel)).mpr (by decide +kernel)⟩

/-- A run with the first step of one unit and a target that clips no step. -/
def slowRun : List Entry :=
  history (roundTo 53) slowPolicy.val (startSession slowPolicy.val (startedState slowPolicy.val))
    [returningRound 1, returningRound 10]

/-- The second step of one unit and one bit advances the clock from one to two.  The difference is
one, and grows to less than the stored proposal: the checkpoint is refused. -/
theorem history_not_resumes :
    startState (roundTo 53) none slowPolicy.val = .ok (startedState slowPolicy.val) ∧
      (∀ entry ∈ slowRun, entry.before.time < entry.round.tEnd ∧
        ∀ dt ∈ entry.report.landed, entry.before.time < roundTo 53 (entry.before.time + dt)) ∧
      ¬ ∀ entry ∈ slowRun, entry.Resumes (roundTo 53) slowPolicy.val dataText := by
  refine ⟨by decide +kernel, by decide +kernel, fun h => ?_⟩
  have hwritten : ∀ entry ∈ slowRun, entry.report.ending = .accepted →
      entry.report.session.Writes (roundTo 53) dataText :=
    fun entry hentry haccepted => ((h entry hentry).2 haccepted).writes
  revert hwritten
  decide +kernel

end Run

end Pops.Stepping
