import Pops.Time.Step.Strategy

/-!
# The temporal restart state

`TemporalRestartState` is what a checkpoint keeps of the time of a run: the bound strategy, the
installed schedule of clocks, the accepted clock with the cursors that follow from it, the last
accepted duration, and the queue with the next proposal of an error-controlled run.  Times are
rationals; `rnd` rounds the sums and differences of times and the products of durations.

The characters of the JSON text are a parameter: what is modelled is the data that is written and
read back.

## Main definitions

* `Pops.Stepping.ProgramSchedule`, `validateProgramSchedule` — the installed clocks.
* `Pops.Stepping.TemporalRestartState` — the state, with its operations on the queue and the clock.
* `Pops.Stepping.TemporalRestartState.checkpointJson`, `fromJson` — writing and reading an envelope.

-/

namespace Pops.Stepping

/-! ## The installed schedule -/

/-- A logical clock: its qualified name and its ticks in a macro step. -/
structure ClockRow where
  id : String
  ticksPerMacro : ℤ
  deriving DecidableEq

/-- A subcycled clock. -/
structure SubcycleRow where
  nodeId : ℤ
  parentClock : String
  childClock : String
  count : ℤ
  deriving DecidableEq

/-- A synchronization of two clocks. -/
structure SynchronizationRow where
  nodeId : ℤ
  sourceClock : String
  targetClock : String
  deriving DecidableEq

/-- A schedule on a clock. -/
structure ScheduleRow where
  nodeId : ℤ
  clock : String
  cacheRequired : Bool
  deriving DecidableEq

/-- A history ring. -/
structure HistoryRow where
  name : String
  clock : String
  depth : ℤ
  ringSlots : ℤ
  ncomp : Option ℤ
  deriving DecidableEq

/-- The temporal schedule of a Program. -/
structure ProgramSchedule where
  primaryClock : String
  clocks : List ClockRow
  subcycles : List SubcycleRow
  synchronizations : List SynchronizationRow
  schedules : List ScheduleRow
  histories : List HistoryRow
  deriving DecidableEq

/-- `_positive_int`: the number is at least one. -/
def positiveInt (value : ℤ) (name : String) : Raises Unit :=
  raiseIf (value ≤ 0) (valueError s!"{name} must be a positive integer")

/-- A node id that is new; it is added to those seen before. -/
def newNode (kind : String) (seen : List ℤ) (node : ℤ) : Raises (List ℤ) := do
  raiseIf (node < 0) (valueError s!"temporal {kind} node_id must be a non-negative integer")
  raiseIf (node ∈ seen) (valueError s!"temporal {kind} node_id {node} is duplicated")
  pure (node :: seen)

/-- A clock joins the clocks before it. -/
def validateClock (clocks : List (String × ℤ)) (row : ClockRow) : Raises (List (String × ℤ)) := do
  raiseIf (clocks.lookup row.id ≠ none)
    (valueError s!"temporal program schedule declares clock {row.id} twice")
  positiveInt row.ticksPerMacro "temporal clock ticks_per_macro"
  pure ((row.id, row.ticksPerMacro) :: clocks)

/-- A subcycle; the nodes and the parents of the children seen before are carried along. -/
def validateSubcycle (clocks : List (String × ℤ))
    (seen : List ℤ × List (String × (String × ℤ))) (row : SubcycleRow) :
    Raises (List ℤ × List (String × (String × ℤ))) := do
  let nodes ← newNode "subcycle" seen.1 row.nodeId
  positiveInt row.count "temporal subcycle count"
  match clocks.lookup row.parentClock, clocks.lookup row.childClock with
  | some parent, some child => do
    raiseIf (row.parentClock = row.childClock)
      (valueError "temporal subcycle references invalid qualified clocks")
    raiseIf (∃ known ∈ seen.2.lookup row.childClock, known ≠ (row.parentClock, row.count))
      (valueError "temporal child clock has conflicting subcycle parents")
    raiseIf (child ≠ parent * row.count)
      (valueError "temporal subcycle ticks_per_macro is inconsistent with count")
    pure (nodes, (row.childClock, (row.parentClock, row.count)) :: seen.2)
  | _, _ => throw (valueError "temporal subcycle references invalid qualified clocks")

/-- A synchronization. -/
def validateSynchronization (clocks : List (String × ℤ)) (seen : List ℤ)
    (row : SynchronizationRow) :
    Raises (List ℤ) := do
  let nodes ← newNode "synchronization" seen row.nodeId
  raiseIf (clocks.lookup row.sourceClock = none ∨ clocks.lookup row.targetClock = none ∨
      row.sourceClock = row.targetClock)
    (valueError "temporal synchronization references invalid qualified clocks")
  pure nodes

/-- A schedule. -/
def validateSchedule (clocks : List (String × ℤ)) (seen : List ℤ) (row : ScheduleRow) :
    Raises (List ℤ) := do
  let nodes ← newNode "schedule" seen row.nodeId
  raiseIf (clocks.lookup row.clock = none)
    (valueError "temporal schedule references an undeclared clock")
  pure nodes

/-- A history. -/
def validateHistory (clocks : List (String × ℤ)) (names : List String) (row : HistoryRow) :
    Raises (List String) := do
  raiseIf (row.name = "" ∨ row.name ∈ names)
    (valueError "temporal history names must be unique non-empty text")
  raiseIf (clocks.lookup row.clock = none)
    (valueError s!"temporal history '{row.name}' references an undeclared clock")
  positiveInt row.depth "temporal history depth"
  raiseIf (row.ringSlots ≠ row.depth + 1)
    (valueError "temporal history ring_slots must equal depth + 1")
  match row.ncomp with
  | none => pure (row.name :: names)
  | some ncomp => do
    positiveInt ncomp "temporal history ncomp"
    pure (row.name :: names)

/-- `_validate_program_schedule`: one primary clock, and a parent for every other one. -/
def validateProgramSchedule (schedule : ProgramSchedule) : Raises Unit := do
  raiseIf (schedule.primaryClock = "")
    (valueError "temporal program schedule primary_clock must be qualified text")
  raiseIf (schedule.clocks = [])
    (valueError "temporal program schedule must declare at least one clock")
  let clocks ← schedule.clocks.foldlM validateClock []
  raiseIf (clocks.lookup schedule.primaryClock ≠ some 1)
    (valueError "primary temporal clock must exist with ticks_per_macro=1")
  let children ← schedule.subcycles.foldlM (validateSubcycle clocks) ([], [])
  raiseIf (∃ row ∈ schedule.clocks, row.id ≠ schedule.primaryClock ∧
    children.2.lookup row.id = none)
    (valueError "every non-primary temporal clock requires one subcycle parent")
  raiseIf (∃ row ∈ schedule.subcycles, row.childClock = schedule.primaryClock)
    (valueError "every non-primary temporal clock requires one subcycle parent")
  let _ ← schedule.synchronizations.foldlM (validateSynchronization clocks) []
  let _ ← schedule.schedules.foldlM (validateSchedule clocks) []
  let _ ← schedule.histories.foldlM (validateHistory clocks) []

/-! ## The cursors of an accepted boundary -/

/-- A cursor of the schedule section. -/
inductive ScheduleCursor
  | macroStep (macroStep : ℕ)
  | subcycle (nodeId : ℤ) (macroStep nextIteration : ℕ)
  | schedule (nodeId : ℤ) (macroStep : ℕ) (clockTick : ℤ)
  deriving DecidableEq

/-- The cursor of a clock: its time and its tick. -/
structure ClockCursor where
  id : String
  time : ℚ
  tick : ℤ
  deriving DecidableEq

/-- The cursor of a synchronization. -/
structure SynchronizationCursor where
  nodeId : ℤ
  macroStep : ℕ
  sourceTick : ℤ
  targetTick : ℤ
  deriving DecidableEq

/-- The cursor of a history. -/
structure HistoryCursor where
  name : String
  clock : String
  newestTick : ℤ
  oldestTick : ℤ
  validLags : ℤ
  coldStartExtended : Bool
  initialized : Bool
  deriving DecidableEq

/-- The cursor of a cache. -/
structure CacheCursor where
  nodeId : ℤ
  clock : String
  validThroughTick : ℤ
  initialized : Bool
  deriving DecidableEq

/-- The five sections of cursors, all in the phase `accepted`. -/
structure Cursors where
  clocks : List ClockCursor
  schedules : List ScheduleCursor
  synchronizations : List SynchronizationCursor
  histories : List HistoryCursor
  caches : List CacheCursor
  deriving DecidableEq

/-- The tick of a clock; the clocks of a validated schedule are declared. -/
def ProgramSchedule.tick (schedule : ProgramSchedule) (macroStep : ℕ) (clock : String) : ℤ :=
  macroStep * (((schedule.clocks.map fun row => (row.id, row.ticksPerMacro)).lookup clock).getD 0)

/-- `_boundary_cursors`: the cursors of a schedule at the end of a macro step. -/
def boundaryCursors (schedule : Option ProgramSchedule) (time : ℚ) (macroStep : ℕ) : Cursors :=
  match schedule with
  | none => ⟨[], [.macroStep macroStep], [], [], []⟩
  | some schedule =>
    { clocks := schedule.clocks.map fun row => ⟨row.id, time, macroStep * row.ticksPerMacro⟩
      schedules := .macroStep macroStep ::
        (schedule.subcycles.map fun row => .subcycle row.nodeId macroStep 0) ++
        schedule.schedules.map fun row =>
          .schedule row.nodeId macroStep (schedule.tick macroStep row.clock)
      synchronizations := schedule.synchronizations.map fun row =>
        ⟨row.nodeId, macroStep, schedule.tick macroStep row.sourceClock,
          schedule.tick macroStep row.targetClock⟩
      histories := schedule.histories.map fun row =>
        let tick := schedule.tick macroStep row.clock
        ⟨row.name, row.clock, tick, max 0 (tick - row.depth),
          if macroStep > 0 then row.depth else 0,
          decide (macroStep > 0 ∧ tick < row.depth), decide (macroStep > 0)⟩
      caches := (schedule.schedules.filter fun row => row.cacheRequired).map fun row =>
        ⟨row.nodeId, row.clock, schedule.tick macroStep row.clock, decide (macroStep > 0)⟩ }

/-! ## The state -/

/-- A queued event with a proposed duration. -/
structure Event where
  kind : String
  time : ℚ
  cursor : ℕ
  dt : ℚ
  deriving DecidableEq

/-- `_ERROR_PROPOSAL_KIND`: the kind of the event that holds a proposal. -/
def errorProposalKind : String := "error_controlled_dt.proposal"

/-- The bound strategy. -/
inductive Strategy
  | errorControlledDt (policy : ErrorControlledDt)
  | other (kind : String)
  deriving DecidableEq

/-- What became of the last attempt. -/
inductive Status
  | accepted
  | rejected
  | failed
  deriving DecidableEq

/-- The attempts by what became of them. -/
structure TransactionStats where
  accepted : ℕ
  rejected : ℕ
  failed : ℕ
  deriving DecidableEq

/-- One attempt more that ended so. -/
def TransactionStats.count (stats : TransactionStats) : Status → TransactionStats
  | .accepted => { stats with accepted := stats.accepted + 1 }
  | .rejected => { stats with rejected := stats.rejected + 1 }
  | .failed => { stats with failed := stats.failed + 1 }

/-- What `to_data` writes. -/
structure Envelope where
  strategy : Option Strategy
  programSchedule : Option ProgramSchedule
  time : ℚ
  macroStep : ℕ
  cursors : Cursors
  lastAcceptedDt : Option ℚ
  eventQueue : List Event
  transactionStats : TransactionStats
  status : Status
  synchronized : Bool
  deriving DecidableEq

/-- `TemporalRestartState`: the envelope of a checkpoint, and whether its next step is still the
restored one. -/
structure TemporalRestartState extends Envelope where
  restoredPending : Bool
  deriving DecidableEq

/-- `json.dumps` and `strict_json_loads` on envelopes: a text is read back as the data that was
written. -/
structure JsonText where
  Text : Type
  dumps : Envelope → Text
  loads : Text → Raises Envelope
  loads_dumps : ∀ data, loads (dumps data) = .ok data

namespace TemporalRestartState

/-- The state before a run is bound. -/
def initial : TemporalRestartState :=
  ⟨⟨none, none, 0, 0, boundaryCursors none 0 0, none, [], ⟨0, 0, 0⟩, .accepted, true⟩, false⟩

/-- `_require_live_clock`: the caller stands at the time and step of the state. -/
def requireLiveClock (state : TemporalRestartState) (time : ℚ) (macroStep : ℕ) : Raises Unit :=
  raiseIf (time ≠ state.time ∨ macroStep ≠ state.macroStep)
    ⟨.runtimeError, "temporal state is desynchronized from the native runtime clock"⟩

/-- `configure_program`: take over the schedule of a Program, which has to fit a restored state. -/
def configureProgram (state : TemporalRestartState) (schedule : ProgramSchedule) (time : ℚ)
    (macroStep : ℕ) : Raises TemporalRestartState := do
  state.requireLiveClock time macroStep
  validateProgramSchedule schedule
  raiseIf (state.programSchedule ≠ none ∧ state.programSchedule ≠ some schedule)
    ⟨.runtimeError, "installed temporal program schedule differs from restored schedule"⟩
  let cursors := boundaryCursors (some schedule) time macroStep
  raiseIf (state.restoredPending = true ∧ state.cursors ≠ cursors)
    ⟨.runtimeError, "restored temporal cursors differ from the installed schedule"⟩
  pure { state with programSchedule := some schedule, cursors := cursors }

section Rounding

variable (rnd : ℚ → ℚ)

/-- The event of a proposal. -/
def proposalEvent (time : ℚ) (macroStep : ℕ) (dt : ℚ) : Event :=
  ⟨errorProposalKind, rnd (time + dt), macroStep + 1, dt⟩

/-- `queue_error_controlled_proposal`: queue a proposal, or replace the queued one. -/
def queueErrorControlledProposal (state : TemporalRestartState) (dt time : ℚ) (macroStep : ℕ)
    (replace : Bool) : Raises (Event × TemporalRestartState) := do
  state.requireLiveClock time macroStep
  raiseIf (dt ≤ 0) (valueError "ErrorControlledDt queued proposal must be finite and positive")
  let candidate := proposalEvent rnd time macroStep dt
  if replace then
    match state.eventQueue with
    | [] => throw ⟨.runtimeError, "cannot replace an absent temporal proposal"⟩
    | _ :: rest => pure (candidate, { state with eventQueue := candidate :: rest })
  else
    match state.eventQueue with
    | [] => pure (candidate, { state with eventQueue := [candidate] })
    | head :: _ => do
      raiseIf (head ≠ candidate) ⟨.runtimeError, "a different temporal proposal is already queued"⟩
      pure (candidate, state)

/-- `queued_error_controlled_proposal`: the queued proposal, which has to be the next event. -/
def queuedErrorControlledProposal (state : TemporalRestartState) (time : ℚ) (macroStep : ℕ) :
    Raises (Event × ℚ) := do
  state.requireLiveClock time macroStep
  match state.eventQueue with
  | [] => throw ⟨.runtimeError, "ErrorControlledDt has no queued next proposal"⟩
  | event :: _ => do
    raiseIf (event.kind ≠ errorProposalKind ∨ event.cursor ≠ macroStep + 1)
      ⟨.runtimeError, "ErrorControlledDt queued proposal is not the next event"⟩
    raiseIf (event.time ≠ rnd (time + event.dt))
      ⟨.runtimeError, "ErrorControlledDt queued proposal time is inconsistent"⟩
    pure (event, event.dt)

/-- `begin_run`: start a run; a restored state insists on its own strategy. -/
def beginRun (state : TemporalRestartState) (strategy : Strategy) (time : ℚ) (macroStep : ℕ) :
    Raises TemporalRestartState := do
  state.requireLiveClock time macroStep
  let state := if state.strategy = none ∧ state.restoredPending = false then
    { state with
      time := time
      macroStep := macroStep
      cursors := boundaryCursors state.programSchedule time macroStep }
  else state
  raiseIf (state.restoredPending = true ∧ state.strategy ≠ some strategy)
    ⟨.runtimeError, "restart requires the checkpointed step strategy for the exact next attempt"⟩
  if state.restoredPending then pure state
  else
    let state := { state with strategy := some strategy }
    match strategy with
    | .other _ => pure state
    | .errorControlledDt policy =>
      if macroStep = 0 ∧ state.lastAcceptedDt = none ∧ state.eventQueue = [] then do
        let (_, state) ← state.queueErrorControlledProposal rnd policy.dtInit time macroStep false
        pure state
      else pure state

/-- `before_attempt`: an attempt starts at the live clock. -/
def beforeAttempt (state : TemporalRestartState) (time : ℚ) (macroStep : ℕ) : Raises Unit :=
  state.requireLiveClock time macroStep

/-- `before_queued_attempt`: the attempt is the queued event. -/
def beforeQueuedAttempt (state : TemporalRestartState) (event : Event) (time : ℚ) (macroStep : ℕ) :
    Raises Unit := do
  state.beforeAttempt time macroStep
  raiseIf (state.eventQueue.head? ≠ some event)
    ⟨.runtimeError, "native attempt does not match the queued temporal event"⟩

/-- The state at a new accepted boundary. -/
def acceptedAt (state : TemporalRestartState) (time : ℚ) (macroStep : ℕ) (lastDt : ℚ) :
    TemporalRestartState :=
  { state with
    time := time
    macroStep := macroStep
    cursors := boundaryCursors state.programSchedule time macroStep
    lastAcceptedDt := some lastDt
    transactionStats := state.transactionStats.count .accepted
    status := .accepted
    synchronized := true
    restoredPending := false }

/-- `accept`: an attempt advanced the clock once, by the event that it consumed. -/
def accept (state : TemporalRestartState) (beforeTime : ℚ) (beforeStep : ℕ) (time : ℚ)
    (macroStep : ℕ) (consumedEvent : Option Event) : Raises TemporalRestartState := do
  raiseIf (macroStep ≠ beforeStep + 1 ∨ time ≤ beforeTime) ⟨.runtimeError,
    "accepted temporal attempt must advance time and macro_step exactly once"⟩
  let lastDt := rnd (time - beforeTime)
  raiseIf (lastDt ≤ 0)
    (valueError "last_accepted_dt must be a canonical finite positive hexadecimal float")
  match consumedEvent with
  | none => pure (state.acceptedAt time macroStep lastDt)
  | some event => do
    raiseIf (state.eventQueue.head? ≠ some event)
      ⟨.runtimeError, "accepted attempt did not consume the temporal queue head"⟩
    raiseIf (event.time ≠ time ∨ event.cursor ≠ macroStep)
      ⟨.runtimeError, "accepted attempt did not land on the queued temporal event"⟩
    let state := { state with eventQueue := state.eventQueue.tail }
    pure (state.acceptedAt time macroStep lastDt)

/-- `_record_unsuccessful`: count an attempt that did not succeed. -/
def recordUnsuccessful (state : TemporalRestartState) (status : Status) (time : ℚ)
    (macroStep : ℕ) : Raises TemporalRestartState := do
  state.requireLiveClock time macroStep
  pure { state with
    transactionStats := state.transactionStats.count status
    status := status
    synchronized := false
    restoredPending := false }

/-- `reject`: record a refused attempt. -/
def reject (state : TemporalRestartState) (time : ℚ) (macroStep : ℕ) :
    Raises TemporalRestartState :=
  state.recordUnsuccessful .rejected time macroStep

/-- `fail`: record a failed attempt. -/
def fail (state : TemporalRestartState) (time : ℚ) (macroStep : ℕ) :
    Raises TemporalRestartState :=
  state.recordUnsuccessful .failed time macroStep

/-! ## Checkpoints -/

/-- `_validate_controller_state`: the last accepted step is positive. -/
def validateControllerState (lastAcceptedDt : Option ℚ) : Raises Unit :=
  raiseIf (∃ dt ∈ lastAcceptedDt, dt ≤ 0)
    (valueError "last_accepted_dt must be a canonical finite positive hexadecimal float")

/-- `_validate_controller_events`: the events are those that the strategy leaves at a boundary. -/
def validateControllerEvents (events : List Event) (strategy : Strategy) (lastAcceptedDt : Option ℚ)
    (time : ℚ) (macroStep : ℕ) : Raises Unit := do
  raiseIf (macroStep = 0 ∧ lastAcceptedDt ≠ none) (valueError
    "temporal controller state cannot have an accepted dt before the first macro step")
  raiseIf (macroStep > 0 ∧ lastAcceptedDt = none)
    (valueError "temporal controller state lacks the last accepted dt")
  match strategy with
  | .other _ => do
    raiseIf (events ≠ [])
      (valueError "the installed step strategy does not own temporal queued events")
  | .errorControlledDt policy =>
    match events with
    | [] => throw (valueError
        "ErrorControlledDt accepted restart state lacks its queued next proposal")
    | _ :: _ :: _ => throw (valueError "ErrorControlledDt owns exactly one queued next proposal")
    | [proposal] => do
      raiseIf (proposal.kind ≠ errorProposalKind)
        (valueError "ErrorControlledDt queue has the wrong event kind")
      raiseIf (proposal.cursor ≠ macroStep + 1)
        (valueError "ErrorControlledDt proposal cursor is not the next macro step")
      raiseIf (proposal.dt ≤ 0)
        (valueError "ErrorControlledDt proposal dt must be canonical, finite, and positive")
      raiseIf (proposal.time ≠ rnd (time + proposal.dt))
        (valueError "ErrorControlledDt proposal time disagrees with its dt")
      policy.postInit
      match lastAcceptedDt with
      | none => do
        raiseIf (macroStep ≠ 0)
          (valueError "ErrorControlledDt proposal lacks the prior accepted dt authority")
        raiseIf (proposal.dt ≠ policy.dtInit)
          (valueError "ErrorControlledDt initial queued proposal differs from dt_init")
      | some lastDt =>
        raiseIf (proposal.dt ≠ min policy.dtMax (rnd (lastDt * policy.growth))) (valueError
          "ErrorControlledDt queued proposal differs from the accepted controller state")

/-- `_validate_program_schedule` of a schedule that may be absent. -/
def validateOptionalSchedule (schedule : Option ProgramSchedule) : Raises Unit :=
  match schedule with
  | none => pure ()
  | some schedule => validateProgramSchedule schedule

/-- `checkpoint_json`: the text of a checkpoint at the live clock. -/
def checkpointJson (json : JsonText) (state : TemporalRestartState) (time : ℚ) (macroStep : ℕ) :
    Raises json.Text := do
  state.requireLiveClock time macroStep
  raiseIf (state.status ≠ .accepted ∨ state.synchronized = false)
    ⟨.runtimeError, "checkpoint requires an accepted synchronized step boundary"⟩
  match state.strategy with
  | none => throw ⟨.runtimeError, "checkpoint requires a declared step strategy"⟩
  | some strategy => do
    validateOptionalSchedule state.programSchedule
    raiseIf (state.cursors ≠ boundaryCursors state.programSchedule time macroStep)
      ⟨.runtimeError, "checkpoint temporal cursors are not at one synchronized boundary"⟩
    validateControllerState state.lastAcceptedDt
    validateControllerEvents rnd state.eventQueue strategy state.lastAcceptedDt time macroStep
    pure (json.dumps state.toEnvelope)

/-- `from_json`, without an installed schedule to compare with. -/
def fromJson (json : JsonText) (payload : json.Text) (time : ℚ) (macroStep : ℕ) :
    Raises TemporalRestartState := do
  let data ← json.loads payload
  match data.strategy with
  | none => throw (typeError
      "step strategy manifest must contain exact strategy/controls mappings")
  | some strategy => do
    validateOptionalSchedule data.programSchedule
    raiseIf (data.time ≠ time ∨ data.macroStep ≠ macroStep)
      (valueError "temporal restart clock differs from the checkpoint clock")
    raiseIf (data.cursors ≠ boundaryCursors data.programSchedule time macroStep)
      (valueError "temporal restart cursors are not at one synchronized boundary")
    raiseIf (data.status ≠ .accepted ∨ data.synchronized = false)
      (valueError "checkpoint temporal state is not an accepted synchronized point")
    validateControllerState data.lastAcceptedDt
    validateControllerEvents rnd data.eventQueue strategy data.lastAcceptedDt time macroStep
    pure ⟨{ data with
      time := time, macroStep := macroStep, status := .accepted, synchronized := true }, true⟩

end Rounding

end TemporalRestartState

end Pops.Stepping
