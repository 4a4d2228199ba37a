import Pops.Runtime.Program.StepRejection
import Pops.Runtime.Stepping.TemporalRestart

/-!
# Error-controlled stepping

`ErrorControlledDtController` proposes the duration of the next native step: the stored proposal,
clipped by the largest duration and by the interval that is left.  A rejected attempt is retried
with the duration shrunk, an accepted one grows the stored proposal.  `_execute_prepared_attempts`
drives one round of attempts up to its acceptance or its failure.

A round is a target time with the outcomes of the native steps; an outcome is found by the number of
the attempt.

## Main definitions

* `Pops.Stepping.Session` — the clock of the engine, the controller and the temporal state.
* `Pops.Stepping.prepareAttempts`, `nativeAttempt`, `Cursor.retry`, `acceptAttempt` — the operations
  of the controller.
* `Pops.Stepping.executeRound`, `history` — one round, and a run of rounds.
-/

namespace Pops.Stepping

open StepRejection (SolveStatus)

/-! ## States -/

/-- What a native step does. -/
inductive NativeOutcome
  | returned
  | rejected (status : Option SolveStatus)
  | failed
  deriving DecidableEq

/-- What an attempt raises: the rejection of the native step, another failure of it, or an error of
the temporal state. -/
inductive AttemptError
  | rejected (status : Option SolveStatus)
  | failed
  | raised (error : PyError)
  deriving DecidableEq

/-- The fields of the controller. -/
structure Controller where
  nextDt : ℚ
  attempts : ℕ
  deriving DecidableEq

/-- The engine with its native clock and its controller. -/
structure Session where
  time : ℚ
  macroStep : ℕ
  controller : Controller
  temporal : Option TemporalRestartState

/-- The fields of `_PreparedStepAttempts` and the variables of its closures. -/
structure Cursor where
  proposal : ℚ
  queuedEvent : Option Event
  attempts : ℕ

/-- A round: the target time and the outcomes of the native steps. -/
structure Round where
  tEnd : ℚ
  outcome : ℕ → NativeOutcome

/-- How a round ends. -/
inductive Ending
  | accepted
  | rejected
  | failed
  | raised (error : PyError)
  | outOfFuel
  deriving DecidableEq

/-- What a round leaves: the durations of its native steps, the one that returned, the ending and
the engine. -/
structure Report where
  attempted : List ℚ
  landed : Option ℚ
  ending : Ending
  session : Session

/-! ## The operations -/

section Operations

variable (rnd : ℚ → ℚ) (policy : ErrorControlledDt)

/-- The duration that `prepare_attempts` proposes. -/
def firstProposal (s : Session) (tEnd : ℚ) : ℚ :=
  min (min s.controller.nextDt policy.dtMax) (rnd (tEnd - s.time))

/-- The part of `prepare_attempts` that puts a proposal into the queue. -/
def queueAttempt (s : Session) (proposal : ℚ) : Raises (Cursor × Session) :=
  match s.temporal with
  | none => pure (⟨proposal, none, 0⟩, s)
  | some temporal =>
    if temporal.eventQueue = [] then do
      let (event, temporal) ←
        temporal.queueErrorControlledProposal rnd proposal s.time s.macroStep false
      pure (⟨proposal, some event, 0⟩, { s with temporal := some temporal })
    else do
      let (event, queuedDt) ← temporal.queuedErrorControlledProposal rnd s.time s.macroStep
      if proposal = queuedDt then pure (⟨proposal, some event, 0⟩, s)
      else do
        let (event, temporal) ←
          temporal.queueErrorControlledProposal rnd proposal s.time s.macroStep true
        pure (⟨proposal, some event, 0⟩, { s with temporal := some temporal })

/-- `prepare_attempts`: queue the first proposal of a run. -/
def prepareAttempts (s : Session) (tEnd : ℚ) : Raises (Cursor × Session) :=
  queueAttempt rnd s (firstProposal rnd policy s tEnd)

/-- The engine after a native step that returned. -/
def Session.advanced (s : Session) (dt : ℚ) : Session :=
  { s with time := rnd (s.time + dt), macroStep := s.macroStep + 1 }

/-- `_native_attempt` of one step, for a temporal state. -/
def temporalAttempt (temporal : TemporalRestartState) (s : Session) (cursor : Cursor)
    (outcome : NativeOutcome) : Except AttemptError Unit × Session :=
  let before := match cursor.queuedEvent with
    | none => temporal.beforeAttempt s.time s.macroStep
    | some event => temporal.beforeQueuedAttempt event s.time s.macroStep
  match before with
  | .error e => (.error (.raised e), s)
  | .ok _ =>
    match outcome with
    | .returned =>
      let landed := s.advanced rnd cursor.proposal
      match temporal.accept rnd s.time s.macroStep landed.time landed.macroStep
        cursor.queuedEvent with
      | .error e => (.error (.raised e), landed)
      | .ok temporal => (.ok (), { landed with temporal := some temporal })
    | .rejected status =>
      match temporal.reject s.time s.macroStep with
      | .error e => (.error (.raised e), s)
      | .ok temporal => (.error (.rejected status), { s with temporal := some temporal })
    | .failed =>
      match temporal.fail s.time s.macroStep with
      | .error e => (.error (.raised e), s)
      | .ok temporal => (.error .failed, { s with temporal := some temporal })

/-- `_native_attempt` of one step. -/
def nativeAttempt (s : Session) (cursor : Cursor) (outcome : NativeOutcome) :
    Except AttemptError Unit × Session :=
  match s.temporal with
  | some temporal => temporalAttempt rnd temporal s cursor outcome
  | none =>
    match outcome with
    | .returned => (.ok (), s.advanced rnd cursor.proposal)
    | .rejected status => (.error (.rejected status), s)
    | .failed => (.error .failed, s)

/-- The failures that a smaller step does not repair. -/
def terminal (status : Option SolveStatus) : Prop :=
  status = some .capabilityFailure ∨ status = some .invalidInput ∨ status = some .incompatibleRhs

instance (status : Option SolveStatus) : Decidable (terminal status) :=
  inferInstanceAs (Decidable (_ ∨ _))

/-- The `retry` of the cursor after a rejection; `none` is the answer `False`. -/
def Cursor.retry (cursor : Cursor) (s : Session) (status : Option SolveStatus) :
    Raises (Option (Cursor × Session)) :=
  if terminal status then pure none
  else if (cursor.attempts : ℤ) > policy.maxRejections then pure none
  else
    let reduced := rnd (cursor.proposal * policy.shrink)
    if reduced < policy.dtMin then pure none
    else
      match s.temporal with
      | none => pure (some ({ cursor with proposal := reduced }, s))
      | some temporal => do
        let (event, temporal) ←
          temporal.queueErrorControlledProposal rnd reduced s.time s.macroStep true
        pure (some ({ cursor with proposal := reduced, queuedEvent := some event },
          { s with temporal := some temporal }))

/-- The `accept` of the cursor. -/
def acceptAttempt (cursor : Cursor) (s : Session) : Except PyError Unit × Session :=
  let nextDt := min policy.dtMax (rnd (cursor.proposal * policy.growth))
  let s := { s with controller := ⟨nextDt, cursor.attempts⟩ }
  match s.temporal with
  | none => (.ok (), s)
  | some temporal =>
    match temporal.queueErrorControlledProposal rnd nextDt s.time s.macroStep false with
    | .error e => (.error e, s)
    | .ok (_, temporal) => (.ok (), { s with temporal := some temporal })

/-- The loop of `_execute_prepared_attempts`, for at most `fuel` attempts. -/
def executeAttempts (outcome : ℕ → NativeOutcome) : (fuel : ℕ) → Cursor → Session → Report
  | 0, _, s => ⟨[], none, .outOfFuel, s⟩
  | fuel + 1, cursor, s =>
    let cursor := { cursor with attempts := cursor.attempts + 1 }
    match nativeAttempt rnd s cursor (outcome cursor.attempts) with
    | (.error (.raised e), s) =>
      ⟨[cursor.proposal], if outcome cursor.attempts = .returned then some cursor.proposal
        else none, .raised e, s⟩
    | (.error .failed, s) => ⟨[cursor.proposal], none, .failed, s⟩
    | (.error (.rejected status), s) =>
      match cursor.retry rnd policy s status with
      | .error e => ⟨[cursor.proposal], none, .raised e, s⟩
      | .ok none => ⟨[cursor.proposal], none, .rejected,
          { s with controller := { s.controller with attempts := cursor.attempts } }⟩
      | .ok (some (next, s)) =>
        let report := executeAttempts outcome fuel next s
        { report with attempted := cursor.proposal :: report.attempted }
    | (.ok _, s) =>
      match acceptAttempt rnd policy cursor s with
      | (.error e, s) => ⟨[cursor.proposal], some cursor.proposal, .raised e, s⟩
      | (.ok _, s) => ⟨[cursor.proposal], some cursor.proposal, .accepted, s⟩

/-- One round: `execute` of the controller. -/
def executeRound (s : Session) (round : Round) : Report :=
  match prepareAttempts rnd policy s round.tEnd with
  | .error e => ⟨[], none, .raised e, s⟩
  | .ok (cursor, s) =>
    executeAttempts rnd policy round.outcome (policy.maxRejections.toNat + 1) cursor s

/-- A round of a run with the engine before it. -/
structure Entry where
  before : Session
  round : Round
  report : Report

/-- A run of rounds. -/
def history : Session → List Round → List Entry
  | _, [] => []
  | s, round :: rest =>
    ⟨s, round, executeRound rnd policy s round⟩ ::
    history (executeRound rnd policy s round).session rest

end Operations

end Pops.Stepping
