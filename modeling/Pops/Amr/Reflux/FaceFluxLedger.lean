import Pops.Foundation.Method
import Pops.Amr.Levels.Rational
import Pops.Mesh.Index.Box

/-!
# The transactional face-flux ledger

`TransactionalFaceFluxLedger` collects the numerical fluxes through the faces between two levels.
Fragments are accumulated in a transaction and stay pending until the outermost transaction commits;
nested transactions are savepoints of the pending fragments.  A fragment is identified by its key,
which includes the attempt of the outer transaction.

Floating-point members are of an arbitrary type `τ` with the few operations the validation uses.

## Main definitions

* `Pops.FaceFluxFragmentKey`, `FaceFluxFragmentKey.less` — identities and their order.
* `Pops.validateFaceFluxFragment` — the checks on a fragment.
* `Pops.FluxLedger` with `begin`, `commit`, `rollback`, `clear`, `accumulate` and
  `discardPublishedAttempt`.

## Main results

* `Pops.FluxLedger.Call.perform_atomic` — a call that throws leaves the ledger as it was.
* `Pops.FaceFluxFragmentKey.axis_eq_of_sameIdentity` — equal identities are on one axis.
-/

namespace Pops

/-! ## Identities -/

/-- The centering of a contribution. -/
inductive FaceLedgerCentering
  | face
  | cell
  deriving DecidableEq, Repr

/-- The side of the level transition that a contribution comes from. -/
inductive FaceLedgerRole
  | coarse
  | fine
  deriving DecidableEq, Repr

/-- The kind of a contribution. -/
inductive FaceLedgerContribution
  | numericalFlux
  | source
  deriving DecidableEq, Repr

/-- The underlying integer of a centering. -/
def FaceLedgerCentering.code : FaceLedgerCentering → ℕ
  | face => 0
  | cell => 1

/-- The underlying integer of a role. -/
def FaceLedgerRole.code : FaceLedgerRole → ℕ
  | coarse => 0
  | fine => 1

/-- The underlying integer of a kind. -/
def FaceLedgerContribution.code : FaceLedgerContribution → ℕ
  | numericalFlux => 0
  | source => 1

/-- Two adjacent levels. -/
structure LevelTransition where
  coarse : ℤ
  fine : ℤ
  deriving DecidableEq, Repr

/-- A clock stamp with the fields of its phase as they were given. -/
structure FluxClock (τ : Type) where
  level : ℤ
  macroStep : ℤ
  phase : Rational
  physicalTime : τ

/-- The identity of one fragment. -/
structure FaceFluxFragmentKey (d : ℕ) (τ : Type) where
  owner : String
  state : String
  levels : LevelTransition
  centering : FaceLedgerCentering
  axis : ℤ
  face : Index d
  coarseFace : Index d
  clock : FluxClock τ
  stage : String
  attempt : ℕ
  role : FaceLedgerRole
  contribution : FaceLedgerContribution
  temporalFamily : String

/-- The lexicographic order of indices. -/
def indexLess : {d : ℕ} → Index d → Index d → Bool
  | 0, _, _ => false
  | _ + 1, left, right =>
    if left 0 ≠ right 0 then left 0 < right 0 else indexLess (Fin.tail left) (Fin.tail right)

/-- Neither index is less. -/
def indexEqual {d : ℕ} (left right : Index d) :
    Bool := !indexLess left right && !indexLess right left

/-- The exact coordinates of a clock. -/
def clockCoordinate {τ : Type} (stamp : FluxClock τ) : ℤ ×ₗ ℤ ×ₗ ℤ ×ₗ ℤ :=
  toLex (stamp.level, toLex (stamp.macroStep,
    toLex (stamp.phase.numerator, stamp.phase.denominator)))

namespace FaceFluxFragmentKey

variable {d : ℕ} {τ : Type}

/-- The first fields of the order. -/
def prefixFields (key : FaceFluxFragmentKey d τ) : String ×ₗ String ×ₗ ℤ ×ₗ ℤ ×ₗ ℕ ×ₗ ℤ :=
  toLex (key.owner, toLex (key.state, toLex (key.levels.coarse, toLex (key.levels.fine,
    toLex (key.centering.code, key.axis)))))

/-- The last fields of the order. -/
def suffixFields (key : FaceFluxFragmentKey d τ) : String ×ₗ String ×ₗ ℕ ×ₗ ℕ ×ₗ ℕ :=
  toLex (key.temporalFamily, toLex (key.stage, toLex (key.attempt,
    toLex (key.role.code, key.contribution.code))))

/-- The order of the identities. -/
def less (left right : FaceFluxFragmentKey d τ) : Bool :=
  if left.prefixFields ≠ right.prefixFields then left.prefixFields < right.prefixFields
  else if !indexEqual left.coarseFace right.coarseFace then
    indexLess left.coarseFace right.coarseFace
  else if !indexEqual left.face right.face then indexLess left.face right.face
  else if clockCoordinate left.clock ≠ clockCoordinate right.clock then
    clockCoordinate left.clock < clockCoordinate right.clock
  else left.suffixFields < right.suffixFields

/-- Neither identity is less. -/
def sameIdentity (left right : FaceFluxFragmentKey d τ) : Bool :=
  !less left right && !less right left

/-- Having one identity is symmetric. -/
lemma sameIdentity_comm (left right : FaceFluxFragmentKey d τ) :
    sameIdentity left right = sameIdentity right left :=
  Bool.and_comm ..

/-- Identities that neither is less are on one axis: the axis is one of the fields that are
compared first. -/
theorem axis_eq_of_sameIdentity {left right : FaceFluxFragmentKey d τ}
    (h : sameIdentity left right = true) : left.axis = right.axis := by
  have hextends : left.prefixFields = right.prefixFields := by
    by_contra hne
    simp only [sameIdentity, less, if_pos hne, if_pos (Ne.symm hne), Bool.and_eq_true,
      Bool.not_eq_true', decide_eq_false_iff_not, not_lt] at h
    exact hne (le_antisymm h.2 h.1)
  simp only [prefixFields, EmbeddingLike.apply_eq_iff_eq, Prod.mk.injEq] at hextends
  exact hextends.2.2.2.2.2

end FaceFluxFragmentKey

/-! ## Validation -/

/-- The operations on floating-point numbers that the validation of a fragment uses. -/
structure FluxArithmetic (τ : Type) where
  /-- `Rational::value()`. -/
  value : Rational → τ
  mul : τ → τ → τ
  isFinite : τ → Bool
  /-- `x > 0.0`. -/
  isPositive : τ → Bool

/-- The metric and temporal measure of a fragment. -/
structure FaceFluxFragmentMeasure (τ : Type) where
  stageWeight : Rational
  substepBegin : Rational
  substepEnd : Rational
  substepDuration : τ
  faceMeasure : τ

/-- The factor between a flux density and the transport it stands for. -/
def weightedFaceFluxScale {τ : Type} (arithmetic : FluxArithmetic τ)
    (measure : FaceFluxFragmentMeasure τ) : τ :=
  arithmetic.mul (arithmetic.mul (arithmetic.value measure.stageWeight) measure.substepDuration)
    measure.faceMeasure

/-- An axis inside the dimension. -/
def checkedAxis (axis : ℤ) (dimension : ℕ) : Throws (Fin dimension) :=
  if h : 0 ≤ axis ∧ axis < dimension then .ok ⟨axis.toNat, by omega⟩
  else .error (invalidArgument "ND face-flux ledger axis is outside its compile-time dimension")

/-- The level whose clock a fragment carries. -/
def FaceFluxFragmentKey.clockLevel {d : ℕ} {τ : Type} (key : FaceFluxFragmentKey d τ) : ℤ :=
  match key.role with
  | .coarse => key.levels.coarse
  | .fine => key.levels.fine

/-- The checks on a fragment, with the axis they have checked. -/
def validateFaceFluxFragment {d : ℕ} {τ : Type} (arithmetic : FluxArithmetic τ)
    (key : FaceFluxFragmentKey d τ) (measure : FaceFluxFragmentMeasure τ) : Throws (Fin d) := do
  throwIf (key.owner = "" ∨ key.state = "" ∨ key.stage = "")
    (invalidArgument "ND face-flux identity requires owner, state, and stage")
  throwIf (key.levels.coarse < 0 ∨ key.levels.coarse = intMax ∨
      key.levels.fine ≠ key.levels.coarse + 1)
    (invalidArgument "ND face-flux identity requires one adjacent level transition")
  let axis ← checkedAxis key.axis d
  throwIf (key.centering ≠ .face)
    (invalidArgument "ND face-flux ledger accepts only face-centered contributions")
  throwIf (key.contribution ≠ .numericalFlux)
    (invalidArgument "ND face-flux ledger explicitly excludes source contributions")
  throwIf (key.clock.level ≠ key.clockLevel ∨ key.clock.macroStep < 0 ∨
      ¬ arithmetic.isFinite key.clock.physicalTime)
    (invalidArgument "ND face-flux clock is not qualified by its role and level")
  throwIf (key.clock.phase.denominator ≤ 0)
    (invalidArgument "ND face-flux clock phase is not a canonical exact rational")
  let phase ← Rational.create key.clock.phase.numerator key.clock.phase.denominator
  throwIf (phase ≠ key.clock.phase)
    (invalidArgument "ND face-flux clock phase must retain canonical exact form")
  throwIf (measure.stageWeight.denominator ≤ 0 ∨ measure.substepBegin.denominator ≤ 0 ∨
      measure.substepEnd.denominator ≤ 0 ∨
      ¬ arithmetic.isFinite (arithmetic.value measure.stageWeight) ∨
      Rational.less measure.substepBegin measure.substepEnd ≠ some true ∨
      Rational.less key.clock.phase measure.substepBegin = some true ∨
      Rational.less measure.substepEnd key.clock.phase = some true ∨
      ¬ arithmetic.isPositive measure.substepDuration ∨
      ¬ arithmetic.isFinite measure.substepDuration ∨
      ¬ arithmetic.isPositive measure.faceMeasure ∨ ¬ arithmetic.isFinite measure.faceMeasure)
    (invalidArgument
      "ND face-flux measure requires finite stage, time, and positive metric weights")
  let weight ← Rational.create measure.stageWeight.numerator measure.stageWeight.denominator
  throwIf (weight ≠ measure.stageWeight)
    (invalidArgument "ND face-flux stage weight must retain canonical exact form")
  let substepBegin ← Rational.create measure.substepBegin.numerator measure.substepBegin.denominator
  throwIf (substepBegin ≠ measure.substepBegin)
    (invalidArgument "ND face-flux substep interval must retain canonical exact form")
  let substepEnd ← Rational.create measure.substepEnd.numerator measure.substepEnd.denominator
  throwIf (substepEnd ≠ measure.substepEnd)
    (invalidArgument "ND face-flux substep interval must retain canonical exact form")
  throwIf (¬ arithmetic.isFinite (weightedFaceFluxScale arithmetic measure))
    (invalidArgument "ND face-flux weighted metric-time scale is not finite")
  pure axis

/-- The checked axis is the given one. -/
lemma checkedAxis_eq_ok {axis : ℤ} {d : ℕ} {a : Fin d} (h : checkedAxis axis d = .ok a) :
    axis = (a : ℕ) := by
  unfold checkedAxis at h
  split_ifs at h with hrange
  cases h
  show axis = (axis.toNat : ℤ)
  omega

/-- A validated fragment is on the axis of its key. -/
lemma validateFaceFluxFragment_axis {d : ℕ} {τ : Type} {arithmetic : FluxArithmetic τ}
    {key : FaceFluxFragmentKey d τ} {measure : FaceFluxFragmentMeasure τ} {a : Fin d}
    (h : validateFaceFluxFragment arithmetic key measure = .ok a) : key.axis = (a : ℕ) := by
  simp only [validateFaceFluxFragment, bind_eq_ok, throwIf_eq_ok, pure_eq_ok] at h
  obtain ⟨_, -, _, -, axis, haxis, h⟩ := h
  obtain ⟨_, -, _, -, _, -, _, -, _, -, _, -, _, -, _, -, _, -, _, -, _, -, _, -, _, -, _,
    -, rfl⟩ := h
  exact checkedAxis_eq_ok haxis

/-! ## The ledger -/

/-- A fragment. -/
structure FaceFluxFragment (d : ℕ) (τ payload : Type) where
  key : FaceFluxFragmentKey d τ
  measure : FaceFluxFragmentMeasure τ
  payload : payload

/-- The bounds on what a ledger retains. -/
structure FaceFluxLedgerBudget where
  maxPendingEntries : ℕ
  maxPublishedEntries : ℕ
  maxTransactionDepth : ℕ

/-- The members of a ledger.  The innermost savepoint is the first. -/
structure FluxLedger (d : ℕ) (τ payload : Type) where
  pending : Fin d → List (FaceFluxFragment d τ payload)
  published : Fin d → List (FaceFluxFragment d τ payload)
  savepoints : List (Fin d → ℕ)
  activeAttempt : Option ℕ
  lastClosedAttempt : Option ℕ
  budget : FaceFluxLedgerBudget

namespace FluxLedger

variable {d : ℕ} {τ payload : Type}

/-- The number of fragments on all axes. -/
def totalSize (entries : Fin d → List (FaceFluxFragment d τ payload)) : ℕ :=
  ∑ axis, (entries axis).length

/-- One of the fragments has the identity. -/
def containsIdentity (entries : List (FaceFluxFragment d τ payload))
    (key : FaceFluxFragmentKey d τ) : Bool :=
  entries.any fun entry => entry.key.sameIdentity key

/-- The constructor. -/
def create (budget : FaceFluxLedgerBudget) : Throws (FluxLedger d τ payload) := do
  throwIf (budget.maxPendingEntries = 0 ∨ budget.maxPublishedEntries = 0 ∨
      budget.maxTransactionDepth = 0)
    (invalidArgument "ND face-flux ledger budgets must be strictly positive")
  pure ⟨fun _ => [], fun _ => [], [], none, none, budget⟩

/-- The guard of the methods that need a transaction. -/
def requireTransaction (operation : String) : Method (FluxLedger d τ payload) PUnit :=
  .require (fun s => s.savepoints = []) (runtimeError
    ("ND face-flux ledger " ++ operation ++ " requires an active transaction"))

/-- The check on the attempt of a new transaction. -/
def checkAttempt (outer : Bool) (attempt : ℕ) : Method (FluxLedger d τ payload) PUnit :=
  if ¬ outer then
    .require (fun s => s.activeAttempt ≠ some attempt) (invalidArgument
      "nested ND face-flux transaction must retain the outer attempt identity")
  else
    .require (fun s => ∃ last ∈ s.lastClosedAttempt, attempt ≤ last) (invalidArgument
      "ND face-flux attempt identities must increase monotonically")

/-- Open a transaction. -/
def begin (attempt : ℕ) : Method (FluxLedger d τ payload) PUnit := do
  let outer ← Method.read fun s => s.activeAttempt.isNone
  checkAttempt outer attempt
  .require (fun s => s.savepoints.length ≥ s.budget.maxTransactionDepth) (lengthError
    "ND face-flux transaction depth exceeds its prepared budget")
  .update fun s =>
    { s with savepoints := (fun axis => (s.pending axis).length) :: s.savepoints }
  if outer then .update fun s => { s with activeAttempt := some attempt }

/-- Close the transaction that is the last one open. -/
def closeOuterTransaction : Method (FluxLedger d τ payload) PUnit :=
  .update fun s =>
    { s with savepoints := s.savepoints.tail, lastClosedAttempt := s.activeAttempt,
             activeAttempt := none }

/-- Commit the innermost transaction; the outermost one publishes. -/
def commit : Method (FluxLedger d τ payload) PUnit := do
  requireTransaction "commit"
  let nested ← Method.read fun s => decide (s.savepoints.length > 1)
  if nested then .update fun s => { s with savepoints := s.savepoints.tail }
  else
    .require (fun s => totalSize s.published > s.budget.maxPublishedEntries ∨
        totalSize s.pending > s.budget.maxPublishedEntries - totalSize s.published)
      (lengthError "ND face-flux publication exceeds its prepared budget")
    .update fun s => { s with published := fun axis => s.published axis ++ s.pending axis }
    .update fun s => { s with pending := fun _ => [] }
    closeOuterTransaction

/-- Undo the innermost transaction. -/
def rollback : Method (FluxLedger d τ payload) PUnit := do
  requireTransaction "rollback"
  .update fun s =>
    { s with pending := fun axis => (s.pending axis).take ((s.savepoints.headD fun _ => 0) axis) }
  .update fun s => { s with savepoints := s.savepoints.tail }
  let closed ← Method.read fun s => s.savepoints.isEmpty
  if closed then
    .update fun s => { s with lastClosedAttempt := s.activeAttempt, activeAttempt := none }

/-- Forget everything. -/
def clear : Method (FluxLedger d τ payload) PUnit := do
  .require (fun s => s.savepoints ≠ [])
    (runtimeError "cannot clear an active ND face-flux ledger transaction")
  .update fun s => { s with pending := fun _ => [] }
  .update fun s => { s with published := fun _ => [] }
  .update fun s => { s with lastClosedAttempt := none }

/-- Add a fragment to the innermost transaction. -/
def accumulate (arithmetic : FluxArithmetic τ) (entry : FaceFluxFragment d τ payload) :
    Method (FluxLedger d τ payload) PUnit := do
  requireTransaction "accumulation"
  .require (fun s => s.activeAttempt ≠ some entry.key.attempt)
    (invalidArgument "ND face-flux fragment uses a stale attempt identity")
  let axis ← Method.call (validateFaceFluxFragment arithmetic entry.key entry.measure)
  .require (fun s => totalSize s.pending ≥ s.budget.maxPendingEntries)
    (lengthError "ND face-flux pending entries exceed their prepared budget")
  .require (fun s => containsIdentity (s.pending axis) entry.key = true ∨
      containsIdentity (s.published axis) entry.key = true)
    (runtimeError "ND face-flux transaction contains a duplicate clock-stage face identity")
  .update fun s =>
    { s with pending := Function.update s.pending axis (s.pending axis ++ [entry]) }

/-- The number of published fragments of an attempt. -/
def publishedOfAttempt (attempt : ℕ) (s : FluxLedger d τ payload) : ℕ :=
  ∑ axis, ((s.published axis).filter fun entry => entry.key.attempt = attempt).length

/-- Remove the published fragments of an attempt, and count them. -/
def discardPublishedAttempt (attempt : ℕ) : Method (FluxLedger d τ payload) ℕ := do
  .require (fun s => s.savepoints ≠ [])
    (runtimeError "cannot discard published ND face fluxes during an active transaction")
  let removed ← Method.read (publishedOfAttempt attempt)
  .update fun s =>
    { s with published := fun axis => (s.published axis).filter fun entry =>
        entry.key.attempt ≠ attempt }
  pure removed

/-! ## Calls -/

/-- A call of a method that writes. -/
inductive Call (d : ℕ) (τ payload : Type)
  | begin (attempt : ℕ)
  | commit
  | rollback
  | clear
  | accumulate (entry : FaceFluxFragment d τ payload)
  | discardPublishedAttempt (attempt : ℕ)

/-- The type of what a call returns. -/
def Call.Result : Call d τ payload → Type
  | discardPublishedAttempt _ => ℕ
  | _ => PUnit

/-- The method of a call. -/
def Call.perform (arithmetic : FluxArithmetic τ) :
    (call : Call d τ payload) → Method (FluxLedger d τ payload) call.Result
  | begin attempt => FluxLedger.begin attempt
  | commit => FluxLedger.commit
  | rollback => FluxLedger.rollback
  | clear => FluxLedger.clear
  | accumulate entry => FluxLedger.accumulate arithmetic entry
  | discardPublishedAttempt attempt => FluxLedger.discardPublishedAttempt attempt

/-- The guards only read. -/
lemma readOnly_requireTransaction (operation : String) :
    (requireTransaction operation : Method (FluxLedger d τ payload) PUnit).ReadOnly :=
  Method.readOnly_require _ _

/-- The check of the attempt changes nothing. -/
lemma readOnly_checkAttempt (outer : Bool) (attempt : ℕ) :
    (checkAttempt outer attempt : Method (FluxLedger d τ payload) PUnit).ReadOnly := by
  unfold checkAttempt
  split_ifs
  · exact Method.readOnly_require _ _
  · exact Method.readOnly_require _ _

/-- **A call that throws leaves the ledger as it was.**

**Proof sketch.** Every method checks before it writes, and nothing throws after the first write. -/
theorem Call.perform_atomic (arithmetic : FluxArithmetic τ) (call : Call d τ payload) :
    (call.perform arithmetic).Atomic := by
  cases call with
  | begin attempt =>
    refine .bind (Method.readOnly_read _) fun outer => ?_
    refine .bind (readOnly_checkAttempt _ _) fun _ =>
      .bind (Method.readOnly_require _ _) fun _ => ?_
    refine ((Method.total_update _).bind fun _ => ?_).atomic
    split_ifs
    · exact Method.total_update _
    · exact Method.total_pure _
  | commit =>
    refine .bind (readOnly_requireTransaction _) fun _ => .bind (Method.readOnly_read _) fun _ => ?_
    split_ifs
    · exact (Method.total_update _).atomic
    · refine .bind (Method.readOnly_require _ _) fun _ => ?_
      exact ((Method.total_update _).bind fun _ => (Method.total_update _).bind
        fun _ => Method.total_update _).atomic
  | rollback =>
    refine .bind (readOnly_requireTransaction _) fun _ => ?_
    refine ((Method.total_update _).bind fun _ => (Method.total_update _).bind fun _ =>
      (Method.total_read _).bind fun closed => ?_).atomic
    split_ifs
    · exact Method.total_update _
    · exact Method.total_pure _
  | clear =>
    refine .bind (Method.readOnly_require _ _) fun _ => ?_
    exact ((Method.total_update _).bind fun _ => (Method.total_update _).bind
      fun _ => Method.total_update _).atomic
  | accumulate entry =>
    refine .bind (readOnly_requireTransaction _) fun _ => .bind (Method.readOnly_require _ _)
      fun _ => .bind (Method.readOnly_call _) fun axis => ?_
    refine .bind (Method.readOnly_require _ _) fun _ => .bind (Method.readOnly_require _ _)
      fun _ => ?_
    exact (Method.total_update _).atomic
  | discardPublishedAttempt attempt =>
    refine .bind (Method.readOnly_require _ _) fun _ => .bind (Method.readOnly_read _)
      fun removed => ?_
    exact ((Method.total_update _).bind fun _ => Method.total_pure _).atomic

end FluxLedger

end Pops
