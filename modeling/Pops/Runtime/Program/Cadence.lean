import Pops.Foundation.MachineInt

/-!
# The cadence dispatcher

A Program with stride `s` runs on every `s`-th macro-step of the facade, over the window of the
held steps, and splits the window into substeps.  One dispatcher serves the ordinary step and the
step that is suspended at map ports and resumed later: it prepares the window, moves the public
cursors back to the start of a substep while the Program runs, and publishes the clock at the end.
Times and durations are exact rational numbers, so every test for a finite number is passed.

## Main definitions

* `Pops.Cadence.ProgramRuntimeState` — the fields of the dispatcher.
* `Pops.Cadence.prepareCadenceStep`, `prepareCadenceSubstep` — the window of a step and its
  partition.
* `Pops.Cadence.advanceCadenceRegion`, `dispatchCadenceStep` — the dispatcher.
* `Pops.Cadence.Operation`, `trace` — sequences of calls.
-/

namespace Pops.Cadence

/-! ## State -/

/-- `PreparedCadenceStep`: what a macro step will do, computed before the state changes. -/
structure PreparedCadenceStep where
  due : Bool
  effectiveDt : ℚ
  windowStart : ℚ
  windowEnd : ℚ
  numericalDt : ℚ
  windowSteps : ℤ
  deriving DecidableEq

/-- `PreparedCadenceSubstep`: the ends and the length of one substep. -/
structure PreparedCadenceSubstep where
  start : ℚ
  stop : ℚ
  dt : ℚ
  deriving DecidableEq

/-- `CadenceContinuation`; of the callback that is to be resumed only its presence is kept, and of
the port only its identity. -/
structure CadenceContinuation where
  cadence : PreparedCadenceStep
  partition : PreparedCadenceSubstep
  acceptedTime : ℚ
  requestedDt : ℚ
  acceptedMacroStep : ℤ
  substep : ℤ
  numericalStarted : Bool
  executing : Bool
  next : Bool
  portIdentity : String
  deriving DecidableEq

/-- The fields of `ProgramRuntimeState` that the dispatcher reads or writes. -/
structure ProgramRuntimeState where
  substeps : ℤ
  stride : ℤ
  windowDt : ℚ
  windowSteps : ℤ
  windowStart : ℚ
  dispatchActive : Bool
  clockRestorePending : Bool
  lastDt : ℚ
  balanceActive : Bool
  balanceTarget : ℤ
  balanceReplay : Bool
  balanceCompleted : Bool
  balanceWasDue : Bool
  continuation : Option CadenceContinuation
  deriving DecidableEq

/-- What the dispatcher works on: its state and the two public cursors.  Two records of the run
are kept beside them: the durations of the accepted steps, and the intervals on which `step_` was
started since the current step began. -/
structure World where
  state : ProgramRuntimeState
  time : ℚ
  macroStep : ℤ
  accepted : List ℚ
  ran : List PreparedCadenceSubstep
  deriving DecidableEq

/-- How a call of `step_`, or of the continuation it left, ends: it returns, it suspends the
Program at a map port, or it throws. -/
inductive Callback
  | returns
  | suspends (identity : String)
  | throws (e : Exception)
  deriving DecidableEq

/-! ## Preparation -/

/-- `validate_cadence_window_image`: the held steps fit the macro step, and no time is accumulated
exactly if no step is held. -/
def validateCadenceWindowImage (s : ProgramRuntimeState) (accumulatedDt : ℚ) (heldSteps : ℤ)
    (windowStartTime : ℚ) (macroStep : ℤ) (runtime : String) : Throws Unit := do
  throwIf (macroStep < 0)
    (invalidArgument (runtime ++ " Program cadence requires macro_step >= 0"))
  throwIf (s.stride < 1 ∨ s.substeps < 1)
    (logicError (runtime ++ " Program cadence configuration is invalid"))
  throwIf (heldSteps < 0 ∨ heldSteps ≥ s.stride)
    (runtimeError (runtime ++ " Program cadence window has an invalid held-step count"))
  throwIf (heldSteps ≠ macroStep.tmod s.stride)
    (runtimeError (runtime ++ " Program cadence window phase differs from the authoritative " ++
      "macro-step; restore the strict cadence-window checkpoint state before set_clock"))
  throwIf (accumulatedDt < 0)
    (runtimeError (runtime ++ " Program cadence window duration must be finite and non-negative"))
  throwIf ((heldSteps = 0) ≠ (accumulatedDt = 0))
    (runtimeError (runtime ++ " Program cadence window duration/count are inconsistent " ++
      "(zero iff no step is held)"))
  throwIf (heldSteps = 0 ∧ windowStartTime ≠ 0)
    (runtimeError (runtime ++ " Program cadence inactive window must use the canonical zero " ++
      "start time"))

/-- `validate_cadence_window_time_image`: a window that holds steps started before the accepted
time. -/
def validateCadenceWindowTimeImage (heldSteps : ℤ) (windowStartTime acceptedTime : ℚ)
    (runtime : String) : Throws Unit :=
  throwIf (heldSteps ≠ 0 ∧ ¬windowStartTime < acceptedTime)
    (runtimeError (runtime ++ " Program cadence active window start must precede the accepted " ++
      "physical time"))

/-- `prepare_cadence_step`: the checked window of the next step: whether it is due, its ends and its
length. -/
def prepareCadenceStep (s : ProgramRuntimeState) (acceptedTime : ℚ) (macroStep : ℤ) (dt : ℚ)
    (runtime : String) : Throws PreparedCadenceStep := do
  throwIf (s.clockRestorePending = true)
    (runtimeError (runtime ++ " Program cadence clock restore was not completed by set_clock"))
  validateCadenceWindowImage s s.windowDt s.windowSteps s.windowStart macroStep runtime
  validateCadenceWindowTimeImage s.windowSteps s.windowStart acceptedTime runtime
  throwIf (¬dt > 0)
    (invalidArgument (runtime ++ " Program cadence requires a finite positive dt"))
  let finalTime := acceptedTime + dt
  throwIf (¬finalTime > acceptedTime)
    (overflowError (runtime ++ " Program cadence dt does not advance the finite physical clock"))
  let effectiveDt := s.windowDt + dt
  throwIf (¬effectiveDt > s.windowDt)
    (overflowError (runtime ++
      " Program cadence dt does not advance the accumulated window duration"))
  let windowStart := if s.windowSteps = 0 then acceptedTime else s.windowStart
  let numericalDt := if s.windowSteps = 0 then dt else finalTime - windowStart
  throwIf (¬numericalDt > 0 ∨ windowStart + numericalDt ≠ finalTime)
    (overflowError (runtime ++
      " Program cadence cannot represent one coherent facade/Program window endpoint"))
  let windowSteps := s.windowSteps + 1
  throwIf (windowSteps < 1 ∨ windowSteps > s.stride)
    (logicError (runtime ++ " Program cadence window crossed its configured stride"))
  pure ⟨decide (windowSteps = s.stride), effectiveDt, windowStart, finalTime, numericalDt,
    windowSteps⟩

/-- The lambda `endpoint` of `prepare_cadence_substep`. -/
def endpoint (step : PreparedCadenceStep) (substeps boundary : ℤ) : ℚ :=
  if boundary = 0 then step.windowStart
  else if boundary = substeps then step.windowEnd
  else step.windowStart + step.numericalDt * ((boundary : ℚ) / (substeps : ℚ))

/-- `prepare_cadence_substep`: the ends of one substep, refused if they do not fit together. -/
def prepareCadenceSubstep (step : PreparedCadenceStep) (substep substeps : ℤ) (runtime : String) :
    Throws PreparedCadenceSubstep := do
  throwIf (step.due = false)
    (logicError (runtime ++ " Program cadence cannot partition a held window"))
  throwIf (substeps < 1 ∨ substep < 0 ∨ substep ≥ substeps)
    (logicError (runtime ++ " Program cadence received an invalid substep partition"))
  let start := endpoint step substeps substep
  let stop := endpoint step substeps (substep + 1)
  let dt := if substeps = 1 then step.numericalDt else stop - start
  throwIf (¬stop > start ∨ ¬dt > 0 ∨ start + dt ≠ stop)
    (overflowError (runtime ++
      " Program cadence partition cannot represent a positive coherent substep endpoint"))
  pure ⟨start, stop, dt⟩

/-- `validate_cadence_partition`: the window of a due step can be cut into its substeps. -/
def validateCadencePartition (step : PreparedCadenceStep) (substeps : ℤ) (runtime : String) :
    Throws Unit := do
  throwIf (substeps < 1 ∨ step.due = false ∨ ¬step.windowEnd > step.windowStart ∨
      ¬step.numericalDt > 0 ∨ step.windowStart + step.numericalDt ≠ step.windowEnd)
    (logicError (runtime ++ " Program cadence prepared an invalid numerical window"))
  forEach (List.range substeps.toNat) fun substep => do
    let _ ← prepareCadenceSubstep step (substep : ℤ) substeps runtime
    pure ()

/-- `commit_cadence_step`: the window after the step: empty if the step was due, and grown by it
otherwise. -/
def commitCadenceStep (s : ProgramRuntimeState) (step : PreparedCadenceStep) (runtime : String) :
    Throws ProgramRuntimeState := do
  throwIf (step.windowSteps ≠ s.windowSteps + 1 ∨ step.windowSteps < 1 ∨
      step.windowSteps > s.stride ∨ step.due ≠ decide (step.windowSteps = s.stride) ∨
      ¬step.effectiveDt > 0 ∨ ¬step.windowEnd > step.windowStart ∨ ¬step.numericalDt > 0 ∨
      step.windowStart + step.numericalDt ≠ step.windowEnd)
    (logicError (runtime ++ " Program cadence attempted to commit an invalid step image"))
  pure (if step.due then { s with windowDt := 0, windowSteps := 0, windowStart := 0 }
    else { s with
      windowDt := step.effectiveDt
      windowSteps := step.windowSteps
      windowStart := step.windowStart })

/-! ## The balance window -/

/-- `begin_balance_due_window`: a public step starts, and its target is the next macro step. -/
def beginBalanceDueWindow (s : ProgramRuntimeState) (acceptedMacroStep : ℤ) (runtime : String) :
    Throws ProgramRuntimeState := do
  throwIf (s.balanceActive = true)
    (logicError (runtime ++ " balance due window is already active"))
  throwIf (s.balanceReplay = true)
    (logicError (runtime ++ " cannot enter a public-step window during balance replay"))
  throwIf (acceptedMacroStep < 0 ∨ acceptedMacroStep = intMax)
    (overflowError (runtime ++ " balance due target step is not representable"))
  pure { s with balanceTarget := acceptedMacroStep + 1, balanceActive := true }

/-- `end_balance_due_window`: no public step is under way. -/
def endBalanceDueWindow (s : ProgramRuntimeState) : ProgramRuntimeState :=
  { s with balanceActive := false, balanceTarget := 0 }

/-- `complete_balance_step`: the step is complete, and whether the Program was due in it. -/
def completeBalanceStep (s : ProgramRuntimeState) (programWasDue : Bool) : ProgramRuntimeState :=
  { s with balanceCompleted := true, balanceWasDue := programWasDue }

/-- `cancel_cadence_continuation`: drop the open continuation, and with it the public step. -/
def cancelCadenceContinuation (s : ProgramRuntimeState) : ProgramRuntimeState :=
  endBalanceDueWindow { s with continuation := none, dispatchActive := false }

/-! ## The dispatcher -/

/-- The first part of `advance_cadence_region`: the frame of a new step. -/
def openFrame (w : World) (dt : ℚ) (runtime : String) : Throws World := do
  throwIf (w.state.dispatchActive = true)
    (logicError (runtime ++ " Program region dispatch is reentrant or has no Program"))
  let cadence ← prepareCadenceStep w.state w.time w.macroStep dt runtime
  throwIf (w.macroStep = intMax)
    (overflowError (runtime ++ " Program cadence macro-step counter overflow"))
  let state ←
    if cadence.due then do
      validateCadencePartition cadence w.state.substeps runtime
      throwIf (w.macroStep < cadence.windowSteps - 1)
        (logicError (runtime ++ " Program cadence window starts before macro-step zero"))
      beginBalanceDueWindow w.state w.macroStep runtime
    else pure w.state
  let frame : CadenceContinuation :=
    ⟨cadence, ⟨0, 0, 0⟩, w.time, dt, w.macroStep, 0, false, false, false, ""⟩
  pure { w with
    state := { state with continuation := some frame, dispatchActive := true }
    ran := [] }

/-- How the loop over the substeps ends. -/
inductive LoopEnd
  | finished (w : World) (frame : CadenceContinuation)
  | suspended (w : World) (frame : CadenceContinuation)
  | failed (w : World) (e : Exception)

/-- The start of a substep in the loop: unless the Program is to be resumed, its partition is
prepared, the cursors are moved and `step_` is entered. -/
def enterSubstep (w : World) (frame : CadenceContinuation) (runtime : String) :
    Throws (World × CadenceContinuation) :=
  if frame.numericalStarted = false then do
    let partition ← prepareCadenceSubstep frame.cadence frame.substep w.state.substeps runtime
    pure ({ w with
        state := { w.state with lastDt := partition.dt }
        time := partition.start
        macroStep := frame.acceptedMacroStep - (frame.cadence.windowSteps - 1)
        ran := w.ran ++ [partition] },
      { frame with partition := partition, numericalStarted := true, executing := true })
  else do
    throwIf (frame.next = false)
      (logicError (runtime ++ " suspended Program has no continuation"))
    pure (w, { frame with next := false, executing := true })

/-- What a callback does to the frame: `suspend_program_map` stores the port and the continuation,
and refuses a port without an identity. -/
def finishCallback (frame : CadenceContinuation) : Callback → Throws CadenceContinuation
  | .returns => .ok { frame with executing := false }
  | .suspends identity => do
    throwIf (identity = "")
      (logicError "Program map suspension requires one executing region and qualified fields")
    pure { frame with portIdentity := identity, next := true, executing := false }
  | .throws e => .error e

/-- The loop over the substeps that are left; every pass takes the next callback. -/
def runSubsteps (runtime : String) :
    ℕ → World → CadenceContinuation → List Callback → LoopEnd
  | 0, w, frame, _ => .finished w frame
  | remaining + 1, w, frame, callbacks =>
    match enterSubstep w frame runtime with
    | .error e => .failed w e
    | .ok (w, frame) =>
      match finishCallback frame (callbacks.headD .returns) with
      | .error e => .failed w e
      | .ok frame =>
        if frame.portIdentity ≠ "" then .suspended w frame
        else if frame.next = true then
          .failed w (logicError (runtime ++ " Program continuation has no qualified barrier"))
        else
          runSubsteps runtime remaining { w with time := frame.partition.stop }
            { frame with substep := frame.substep + 1, numericalStarted := false } callbacks.tail

/-- The number of passes that the loop may make. -/
def passes (w : World) (frame : CadenceContinuation) : ℕ :=
  if frame.cadence.due then (w.state.substeps - frame.substep).toNat else 0

/-- The `catch` of `advance_cadence_region`. -/
def restoreCursors (w : World) (frame : CadenceContinuation) : World :=
  { w with
    state := cancelCadenceContinuation w.state
    time := frame.acceptedTime
    macroStep := frame.acceptedMacroStep }

/-- The last part of `advance_cadence_region`: the step is committed and the clock published. -/
def publishStep (w : World) (frame : CadenceContinuation) (runtime : String) : Throws World := do
  let state ← commitCadenceStep (endBalanceDueWindow w.state) frame.cadence runtime
  pure { w with
    state := cancelCadenceContinuation (completeBalanceStep state frame.cadence.due)
    time := frame.cadence.windowEnd
    macroStep := frame.acceptedMacroStep + 1
    accepted := w.accepted ++ [frame.requestedDt] }

/-- The second part of `advance_cadence_region`: an open frame is run.  The result is the identity
of the port at which the Program is suspended, or empty after a completed step. -/
def resumeFrame (w : World) (frame : CadenceContinuation) (dt : ℚ) (callbacks : List Callback)
    (runtime : String) : Except Exception String × World :=
  if frame.executing = true ∨ frame.requestedDt ≠ dt ∨ frame.portIdentity ≠ "" then
    (.error (logicError (runtime ++
      " Program resume requires the same dt and a consumed map port")), w)
  else
    match runSubsteps runtime (passes w frame) w frame callbacks with
    | .failed w e => (.error e, restoreCursors w frame)
    | .suspended w frame =>
      (.ok frame.portIdentity, { w with state := { w.state with continuation := some frame } })
    | .finished w frame =>
      match publishStep w frame runtime with
      | .error e => (.error e, restoreCursors w frame)
      | .ok w => (.ok "", w)

/-- `advance_cadence_region`: resume the open frame, or open one, and run it to its next port or its
end. -/
def advanceCadenceRegion (w : World) (dt : ℚ) (callbacks : List Callback) (runtime : String) :
    Except Exception String × World :=
  match w.state.continuation with
  | some frame => resumeFrame w frame dt callbacks runtime
  | none =>
    match openFrame w dt runtime with
    | .error e => (.error e, w)
    | .ok w =>
      match w.state.continuation with
      | some frame => resumeFrame w frame dt callbacks runtime
      | none => (.ok "", w)

/-- `dispatch_cadence_step`: one whole step: the region runs to its end, or everything is put back.
-/
def dispatchCadenceStep (w : World) (dt : ℚ) (callbacks : List Callback) (runtime : String) :
    Except Exception Unit × World :=
  if w.state.continuation.isSome = true ∨ w.state.dispatchActive = true then
    (.error (logicError (runtime ++ " Program cadence dispatch is non-reentrant")), w)
  else
    let restore (w' : World) : World :=
      { w' with
        state := cancelCadenceContinuation w'.state, time := w.time, macroStep := w.macroStep }
    match advanceCadenceRegion w dt callbacks runtime with
    | (.error e, w') => (.error e, restore w')
    | (.ok port, w') =>
      if port ≠ "" then
        (.error (logicError (runtime ++
          " Program map requires its resolved multi-layout coordinator")), restore w')
      else (.ok (), w')

/-- `release_program_map`: release the port at which the frame is suspended. -/
def releaseProgramMap (w : World) (identity : String) : Except Exception Unit × World :=
  let failure := logicError "Program map read/write does not match its suspended qualified port"
  match w.state.continuation with
  | none => (.error failure, w)
  | some frame =>
    if frame.executing = true ∨ frame.portIdentity ≠ identity ∨ frame.portIdentity = "" then
      (.error failure, w)
    else
      (.ok (), { w with
        state := { w.state with continuation := some { frame with portIdentity := "" } } })

/-! ## Sequences of calls -/

/-- A call on the dispatcher; the callbacks say how the calls of the Program end. -/
inductive Operation
  | dispatch (dt : ℚ) (callbacks : List Callback)
  | advance (dt : ℚ) (callbacks : List Callback)
  | release (identity : String)

/-- The end of a call: the identity of a port, or empty. -/
def Operation.run (op : Operation) (w : World) (runtime : String) :
    Except Exception String × World :=
  match op with
  | .dispatch dt callbacks =>
    let (result, w) := dispatchCadenceStep w dt callbacks runtime
    (result.map fun _ => "", w)
  | .advance dt callbacks => advanceCadenceRegion w dt callbacks runtime
  | .release identity =>
    let (result, w) := releaseProgramMap w identity
    (result.map fun _ => "", w)

/-- One call of a run: the world before it, the call, its end and the world after it. -/
structure Entry where
  before : World
  op : Operation
  result : Except Exception String
  after : World

/-- The run of a sequence of calls. -/
def trace (runtime : String) : World → List Operation → List Entry
  | _, [] => []
  | w, op :: ops =>
    let end_ := op.run w runtime
    ⟨w, op, end_.1, end_.2⟩ :: trace runtime end_.2 ops

/-- A freshly configured state whose clock stands at zero. -/
def fresh (substeps stride : ℤ) : World where
  state := ⟨substeps, stride, 0, 0, 0, false, false, 0, false, 0, false, false, false, none⟩
  time := 0
  macroStep := 0
  accepted := []
  ran := []

end Pops.Cadence
