import Pops.Amr.Reflux.FaceFluxLedger

/-!
# The transactional interface-flux ledger

`TransactionalInterfaceFluxLedger` keeps the fluxes that a Program evaluates on the interfaces
between the blocks of two levels.  Fragments are accumulated in nested transactions and published by
the outermost commit, which replaces what was published before.  A Program may also evaluate a
residual in a scope that can only be rolled back, and it may settle the weight of a stage after the
fragment was accumulated.  A commit can be prepared, published and taken back.

The exact contracts of the prepared objects are left out: nothing in the ledger reads them.

## Main definitions

* `Pops.InterfaceFluxFragmentKey`, `validateInterfaceFluxFragment` — identities and checks.
* `Pops.InterfaceFluxLedger` with its methods.
* `Pops.InterfaceFluxLedger.Call` — the calls of a run.

## Main results

* `Pops.InterfaceFluxLedger.Call.perform_atomic` — a call that throws leaves the ledger as it was.
-/

namespace Pops

/-! ## Identities -/

/-- `InterfaceFluxOrientation`: the level whose outward normal orients a flux. -/
inductive InterfaceFluxOrientation
  | coarseOutward
  | fineOutward
  deriving DecidableEq, Repr

/-- The underlying integer of an orientation. -/
def InterfaceFluxOrientation.code : InterfaceFluxOrientation → ℕ
  | coarseOutward => 0
  | fineOutward => 1

/-- `ClockWindow`: the clocks at which a window opens and closes. -/
structure FluxWindow (τ : Type) where
  opening : FluxClock τ
  closing : FluxClock τ

/-- `interface_flux_window_coordinate`: the exact coordinates of both ends, without the physical
times. -/
def windowCoordinate {τ : Type} (window : FluxWindow τ) :
    (ℤ ×ₗ ℤ ×ₗ ℤ ×ₗ ℤ) ×ₗ (ℤ ×ₗ ℤ ×ₗ ℤ ×ₗ ℤ) :=
  toLex (clockCoordinate window.opening, clockCoordinate window.closing)

/-- `InterfaceFluxFragmentKey`: what identifies a fragment; the physical times in it are checked,
not compared. -/
structure InterfaceFluxFragmentKey (τ : Type) where
  interfaceIdentity : String
  topologyEpoch : ℕ
  coarseLevel : ℤ
  fineLevel : ℤ
  clock : FluxClock τ
  stageIdentity : String
  graphIdentity : String
  rateIdentity : String
  applicationIdentity : String
  interval : FluxWindow τ
  orientation : InterfaceFluxOrientation
  leftBlock : ℕ
  rightBlock : ℕ

namespace InterfaceFluxFragmentKey

variable {τ : Type}

/-- The fields of the order up to the clock. -/
def leadingFields (key : InterfaceFluxFragmentKey τ) :
    String ×ₗ ℕ ×ₗ ℤ ×ₗ ℤ ×ₗ (ℤ ×ₗ ℤ ×ₗ ℤ ×ₗ ℤ) :=
  toLex (key.interfaceIdentity, toLex (key.topologyEpoch, toLex (key.coarseLevel,
    toLex (key.fineLevel, clockCoordinate key.clock))))

/-- The fields of the order after the clock. -/
def trailingFields (key : InterfaceFluxFragmentKey τ) :
    String ×ₗ String ×ₗ String ×ₗ String ×ₗ
      ((ℤ ×ₗ ℤ ×ₗ ℤ ×ₗ ℤ) ×ₗ (ℤ ×ₗ ℤ ×ₗ ℤ ×ₗ ℤ)) ×ₗ ℕ ×ₗ ℕ ×ₗ ℕ :=
  toLex (key.stageIdentity, toLex (key.graphIdentity, toLex (key.rateIdentity,
    toLex (key.applicationIdentity, toLex (windowCoordinate key.interval,
      toLex (key.orientation.code, toLex (key.leftBlock, key.rightBlock)))))))

/-- `operator<`: the lexicographic order of the exact coordinates.  The physical times take no
part in it. -/
def less (left right : InterfaceFluxFragmentKey τ) : Bool :=
  if left.leadingFields ≠ right.leadingFields then left.leadingFields < right.leadingFields
  else left.trailingFields < right.trailingFields

/-- `same_identity_`: neither key is less than the other. -/
def sameIdentity (left right : InterfaceFluxFragmentKey τ) : Bool :=
  !less left right && !less right left

end InterfaceFluxFragmentKey

/-! ## Validation -/

/-- The operations on floating-point numbers that the validation of a fragment uses. -/
structure InterfaceTimeArithmetic (τ : Type) where
  isFinite : τ → Bool
  less : τ → τ → Bool
  /-- `x > 0.0`. -/
  isPositive : τ → Bool
  /-- The duration between two timestamps differs from a duration by more than the tolerance. -/
  disagree : τ → τ → τ → Bool

/-- `InterfaceFluxFragmentMeasure`: the weights of a fragment; the stage weight may still be
pending. -/
structure InterfaceFluxFragmentMeasure (τ : Type) where
  stageWeight : Rational
  faceMeasure : τ
  substepDuration : τ
  stageWeightResolved : Bool

/-- `validate_interface_flux_fragment`: the checks of one fragment, in the order of the source. -/
def validateInterfaceFluxFragment {τ : Type} (arithmetic : InterfaceTimeArithmetic τ)
    (key : InterfaceFluxFragmentKey τ) (measure : InterfaceFluxFragmentMeasure τ)
    (topologyEpoch : ℕ) : Throws Unit := do
  throwIf (key.topologyEpoch ≠ topologyEpoch)
    (invalidArgument "AMR interface-flux fragment uses a stale topology epoch")
  throwIf (key.interfaceIdentity = "" ∨ key.stageIdentity = "" ∨ key.graphIdentity = "" ∨
      key.rateIdentity = "" ∨ key.applicationIdentity = "" ∨ key.coarseLevel < 0 ∨
      key.fineLevel ≠ key.coarseLevel + 1 ∨ key.leftBlock = key.rightBlock)
    (invalidArgument "AMR interface-flux fragment is not fully qualified")
  throwIf (key.clock.level ≠ key.coarseLevel ∧ key.clock.level ≠ key.fineLevel)
    (invalidArgument "AMR interface-flux clock is outside its coarse/fine level pair")
  throwIf (key.interval.opening.level ≠ key.clock.level ∨
      key.interval.closing.level ≠ key.clock.level ∨
      key.interval.opening.macroStep ≠ key.clock.macroStep ∨
      key.interval.closing.macroStep ≠ key.clock.macroStep ∨
      Rational.less key.interval.opening.phase key.interval.closing.phase ≠ some true ∨
      Rational.less key.clock.phase key.interval.opening.phase = some true ∨
      Rational.less key.interval.closing.phase key.clock.phase = some true)
    (invalidArgument "AMR interface-flux clock is outside its exact temporal interval")
  let beginTime := key.interval.opening.physicalTime
  let endTime := key.interval.closing.physicalTime
  throwIf (¬arithmetic.isFinite key.clock.physicalTime ∨ ¬arithmetic.isFinite beginTime ∨
      ¬arithmetic.isFinite endTime ∨ ¬arithmetic.less beginTime endTime ∨
      arithmetic.less key.clock.physicalTime beginTime ∨
      arithmetic.less endTime key.clock.physicalTime ∨
      ¬arithmetic.isPositive measure.faceMeasure ∨ ¬arithmetic.isFinite measure.faceMeasure ∨
      ¬arithmetic.isPositive measure.substepDuration ∨
      ¬arithmetic.isFinite measure.substepDuration ∨
      arithmetic.disagree beginTime endTime measure.substepDuration)
    (invalidArgument
      "AMR interface-flux fragment requires consistent finite positive geometry/time")

/-- A validated fragment has the topology epoch it was validated for. -/
lemma validateInterfaceFluxFragment_epoch {τ : Type} {arithmetic : InterfaceTimeArithmetic τ}
    {key : InterfaceFluxFragmentKey τ} {measure : InterfaceFluxFragmentMeasure τ}
    {topologyEpoch : ℕ} {x : Unit}
    (h : validateInterfaceFluxFragment arithmetic key measure topologyEpoch = .ok x) :
    key.topologyEpoch = topologyEpoch := by
  simp only [validateInterfaceFluxFragment, bind_eq_ok, throwIf_eq_ok, exists_const] at h
  exact not_not.mp h.1

/-! ## The ledger -/

/-- `InterfaceFluxFragment`: a key with its measure and payload. -/
structure InterfaceFluxFragment (τ payload : Type) where
  key : InterfaceFluxFragmentKey τ
  measure : InterfaceFluxFragmentMeasure τ
  payload : payload

/-- `InterfaceFluxLedgerBudget`: the limits that a ledger promises to keep. -/
structure InterfaceFluxLedgerBudget where
  maxFragmentsPerWindow : UInt64
  maxPayloadTermsPerWindow : UInt64
  maxTransactionDepth : UInt64
  exactContract : String
  maxEvaluationFragments : UInt64
  maxEvaluationPayloadTerms : UInt64
  deriving DecidableEq

/-- The members of `TransactionalInterfaceFluxLedger`.  The innermost savepoint is the first. -/
structure InterfaceFluxLedger (τ payload : Type) where
  topologyEpoch : ℕ
  budget : InterfaceFluxLedgerBudget
  pending : List (InterfaceFluxFragment τ payload)
  published : List (InterfaceFluxFragment τ payload)
  savepoints : List ℕ
  evaluation : Bool

/-- What the ledger is a template of: the operations on floating-point numbers, and the
`payload.size()` of a payload (one for a payload without a size). -/
structure InterfaceFluxTraits (τ payload : Type) where
  arithmetic : InterfaceTimeArithmetic τ
  size : payload → UInt64

namespace InterfaceFluxLedger

variable {τ payload : Type} (traits : InterfaceFluxTraits τ payload)

/-- `payload_terms_` of a payload. -/
def payloadTerms (value : payload) : ℕ := (traits.size value).toNat

/-- `payload_terms_` of fragments: their sum, unless it exceeds `std::size_t`. -/
def payloadTermsOf : ℕ → List (InterfaceFluxFragment τ payload) → Throws ℕ
  | result, [] => pure result
  | result, entry :: rest => do
    let count := payloadTerms traits entry.payload
    throwIf (count > sizeMax - result)
      (lengthError "AMR interface-flux payload-term count exceeds size_t")
    payloadTermsOf (result + count) rest

/-- `validate_budget_`: the budget names a contract, its bounds are complete and their sums fit in
`size_t`. -/
def validateBudget (budget : InterfaceFluxLedgerBudget) : Throws Unit := do
  throwIf (budget.exactContract = "" ∨ budget.maxTransactionDepth = 0)
    (invalidArgument "AMR interface-flux ledger requires an exact budget contract")
  throwIf ((budget.maxFragmentsPerWindow = 0) ≠ (budget.maxPayloadTermsPerWindow = 0))
    (invalidArgument "AMR interface-flux ledger budget must be either inactive or fully bounded")
  throwIf ((budget.maxEvaluationFragments = 0) ≠ (budget.maxEvaluationPayloadTerms = 0) ∨
      (budget.maxEvaluationFragments ≠ 0 ∧ budget.maxTransactionDepth < 2))
    (invalidArgument "AMR interface-flux evaluation budget is incomplete")
  throwIf (budget.maxEvaluationFragments.toNat > sizeMax - budget.maxFragmentsPerWindow.toNat ∨
      budget.maxEvaluationPayloadTerms.toNat > sizeMax - budget.maxPayloadTermsPerWindow.toNat)
    (lengthError "AMR interface-flux combined workspace budget exceeds size_t")

/-- `require_within_budget_`: an image stays within the fragments and payload terms of a window. -/
def requireWithinBudget (entries : List (InterfaceFluxFragment τ payload))
    (budget : InterfaceFluxLedgerBudget) (phase : String) : Throws Unit := do
  let failure := lengthError ("AMR interface-flux " ++ phase ++
    " image exceeds its authenticated window budget")
  throwIf (entries.length > budget.maxFragmentsPerWindow.toNat) failure
  let terms ← payloadTermsOf traits 0 entries
  throwIf (terms > budget.maxPayloadTermsPerWindow.toNat) failure

/-- The constructor. -/
def create (topologyEpoch : ℕ) (budget : InterfaceFluxLedgerBudget) :
    Throws (InterfaceFluxLedger τ payload) := do
  validateBudget budget
  pure ⟨topologyEpoch, budget, [], [], [], false⟩

/-- `prepare_budget`: a budget is accepted once, in a ledger without transactions. -/
def prepareBudget (budget : InterfaceFluxLedgerBudget) (s : InterfaceFluxLedger τ payload) :
    Throws InterfaceFluxLedgerBudget := do
  throwIf (s.savepoints ≠ [])
    (runtimeError "cannot replace an active AMR interface-flux ledger budget")
  validateBudget budget
  requireWithinBudget traits s.published budget "accepted"
  pure budget

/-- `PreparedBegin`: what an opened transaction will publish. -/
structure PreparedBegin where
  evaluation : Bool
  savepoints : List ℕ

/-- `prepare_begin`: the checks before a transaction is opened. -/
def prepareBegin (s : InterfaceFluxLedger τ payload) : Throws PreparedBegin := do
  throwIf (s.evaluation = true)
    (runtimeError "AMR interface-flux evaluation cannot nest another transaction")
  throwIf (s.savepoints.length ≥ s.budget.maxTransactionDepth.toNat)
    (runtimeError "AMR interface-flux ledger transaction depth exceeds its authenticated budget")
  pure ⟨false, s.pending.length :: s.savepoints⟩

/-- `prepare_evaluation_begin`: the checks before an evaluation is entered inside the outermost
transaction. -/
def prepareEvaluationBegin (s : InterfaceFluxLedger τ payload) : Throws PreparedBegin := do
  throwIf (s.savepoints.length ≠ 1)
    (runtimeError "AMR interface-flux evaluation requires one outer attempt")
  let prepared ← prepareBegin s
  pure { prepared with evaluation := true }

/-- `publish_prepared_begin`: the savepoint is pushed; nothing can fail any more. -/
def publishPreparedBegin (prepared : PreparedBegin) (s : InterfaceFluxLedger τ payload) :
    InterfaceFluxLedger τ payload :=
  { s with savepoints := prepared.savepoints, evaluation := prepared.evaluation }

/-- `PreparedCommit`: the entries that a commit will publish. -/
structure PreparedCommit (τ payload : Type) where
  pending : List (InterfaceFluxFragment τ payload)
  accepted : List (InterfaceFluxFragment τ payload)
  savepoints : List ℕ
  published : Bool

/-- `prepare_commit`: the checks before a commit, and the merged entries of an outermost one. -/
def prepareCommit (s : InterfaceFluxLedger τ payload) : Throws (PreparedCommit τ payload) := do
  throwIf (s.evaluation = true) (runtimeError "AMR interface-flux evaluation is rollback-only")
  throwIf (s.savepoints = [])
    (runtimeError "AMR interface-flux ledger commit without active transaction")
  requireWithinBudget traits s.pending s.budget "pending"
  throwIf (s.savepoints.length = 1 ∧
      ∃ entry ∈ s.pending, entry.measure.stageWeightResolved = false)
    (runtimeError "AMR interface-flux ledger cannot publish an unresolved Program stage weight")
  let savepoints := s.savepoints.tail
  if savepoints = [] then pure ⟨[], s.pending, savepoints, false⟩
  else pure ⟨s.pending, s.published, savepoints, false⟩

/-- `publish_prepared_commit`: the prepared object receives what the ledger held. -/
def publishPreparedCommit (s : InterfaceFluxLedger τ payload)
    (prepared : PreparedCommit τ payload) :
    InterfaceFluxLedger τ payload × PreparedCommit τ payload :=
  ({ s with
      pending := prepared.pending
      published := prepared.accepted
      savepoints := prepared.savepoints },
    ⟨s.pending, s.published, s.savepoints, true⟩)

/-- `restore_prepared_commit`, which terminates the program unless the object is published. -/
def restorePreparedCommit (s : InterfaceFluxLedger τ payload)
    (prepared : PreparedCommit τ payload) :
    Option (InterfaceFluxLedger τ payload × PreparedCommit τ payload) :=
  if prepared.published = true then
    some ({ s with
        pending := prepared.pending
        published := prepared.accepted
        savepoints := prepared.savepoints },
      ⟨s.pending, s.published, s.savepoints, false⟩)
  else none

/-- The loop of `prepare_accumulation` over the candidates: `earlier` are the candidates before. -/
def checkCandidates (s : InterfaceFluxLedger τ payload) (limit : ℕ) :
    List (InterfaceFluxFragment τ payload) → ℕ → List (InterfaceFluxFragment τ payload) →
    Throws Unit
  | _, _, [] => pure ()
  | earlier, terms, candidate :: rest => do
    validateInterfaceFluxFragment traits.arithmetic candidate.key candidate.measure s.topologyEpoch
    throwIf (s.pending.any (fun entry => entry.key.sameIdentity candidate.key) = true ∨
        earlier.any (fun entry => entry.key.sameIdentity candidate.key) = true)
      (runtimeError
        "AMR interface-flux attempt contains a duplicate stage/clock fragment identity")
    let candidateTerms := payloadTerms traits candidate.payload
    throwIf (candidateTerms > limit - min terms limit)
      (lengthError "AMR interface-flux payload-term budget exceeded before allocation")
    checkCandidates s limit (earlier ++ [candidate]) ((terms + candidateTerms) % (sizeMax + 1)) rest

/-- `prepare_accumulation`: the fragments to stage, checked one by one within the budget that is
left. -/
def prepareAccumulation (entries : List (InterfaceFluxFragment τ payload))
    (s : InterfaceFluxLedger τ payload) : Throws (List (InterfaceFluxFragment τ payload)) := do
  throwIf (s.savepoints = [])
    (runtimeError "AMR interface-flux accumulation requires an active transaction")
  let first := if s.evaluation then s.savepoints.headD 0 else 0
  let fragments :=
    if s.evaluation then s.budget.maxEvaluationFragments.toNat
    else s.budget.maxFragmentsPerWindow.toNat
  let limit :=
    if s.evaluation then s.budget.maxEvaluationPayloadTerms.toNat
    else s.budget.maxPayloadTermsPerWindow.toNat
  throwIf (entries.length > fragments - min (s.pending.length - first) fragments)
    (lengthError "AMR interface-flux fragment budget exceeded before allocation")
  let terms := (s.pending.drop first).foldl
    (fun terms entry => (terms + payloadTerms traits entry.payload) % (sizeMax + 1)) 0
  checkCandidates traits s limit [] terms entries
  pure (s.pending ++ entries)

/-! ## Methods that write -/

/-- `begin`: open a transaction. -/
def begin : Method (InterfaceFluxLedger τ payload) PUnit := do
  let prepared ← Method.inspect prepareBegin
  .update (publishPreparedBegin prepared)

/-- `prepare_evaluation_begin` and its publication. -/
def evaluationBegin : Method (InterfaceFluxLedger τ payload) PUnit := do
  let prepared ← Method.inspect prepareEvaluationBegin
  .update (publishPreparedBegin prepared)

/-- `commit`: close the innermost transaction and keep what it staged. -/
def commit : Method (InterfaceFluxLedger τ payload) PUnit := do
  let prepared ← Method.inspect (prepareCommit traits)
  .update fun s => (publishPreparedCommit s prepared).1

/-- A prepared commit that is published and then restored. -/
def commitAndRestore : Method (InterfaceFluxLedger τ payload) PUnit := do
  let prepared ← Method.inspect (prepareCommit traits)
  .update fun s =>
    let published := publishPreparedCommit s prepared
    ((restorePreparedCommit published.1 published.2).map Prod.fst).getD published.1

/-- `rollback`: close the innermost transaction and drop what it staged. -/
def rollback : Method (InterfaceFluxLedger τ payload) PUnit := do
  .require (fun s => s.savepoints = [])
    (runtimeError "AMR interface-flux ledger rollback without active transaction")
  .update fun s =>
    { s with
      pending := s.pending.take (s.savepoints.headD 0)
      savepoints := s.savepoints.tail
      evaluation := false }

/-- `clear`: forget every accepted fragment, outside of transactions. -/
def clear : Method (InterfaceFluxLedger τ payload) PUnit := do
  .require (fun s => s.savepoints ≠ [])
    (runtimeError "cannot clear an active AMR interface-flux ledger transaction")
  .update fun s => { s with pending := [], published := [] }

/-- `advance_topology_epoch`: move to a later epoch and forget the fragments of the older one,
outside of transactions. -/
def advanceTopologyEpoch (topologyEpoch : ℕ) : Method (InterfaceFluxLedger τ payload) PUnit := do
  .require (fun s => s.savepoints ≠ [])
    (runtimeError "cannot advance AMR interface-flux topology during a transaction")
  .require (fun s => topologyEpoch < s.topologyEpoch)
    (invalidArgument "AMR interface-flux topology epoch cannot move backward")
  let same ← Method.read fun s => decide (topologyEpoch = s.topologyEpoch)
  if same then pure ⟨⟩
  else
    clear
    .update fun s => { s with topologyEpoch := topologyEpoch }

/-- `prepare_budget` and `publish_prepared_budget`. -/
def replaceBudget (budget : InterfaceFluxLedgerBudget) :
    Method (InterfaceFluxLedger τ payload) PUnit := do
  let prepared ← Method.inspect (prepareBudget traits budget)
  .update fun s => { s with budget := prepared }

/-- `prepare_accumulation` and `publish_prepared_accumulation`; `accumulate` is the case of one
fragment. -/
def accumulate (entries : List (InterfaceFluxFragment τ payload)) :
    Method (InterfaceFluxLedger τ payload) PUnit := do
  let prepared ← Method.inspect (prepareAccumulation traits entries)
  .update fun s => { s with pending := prepared }

/-- A fragment whose stage weight is settled. -/
def resolveFragment (stageWeight : Rational) (entry : InterfaceFluxFragment τ payload) :
    InterfaceFluxFragment τ payload :=
  { entry with measure := { entry.measure with
      stageWeight := stageWeight
      stageWeightResolved := true } }

/-- `resolve_pending_stage_weight`: give a pending fragment its stage weight, once, in the outermost
transaction. -/
def resolvePendingStageWeight (index : ℕ) (stageWeight : Rational) :
    Method (InterfaceFluxLedger τ payload) PUnit := do
  .require (fun s => s.savepoints = [])
    (runtimeError "AMR interface-flux stage-weight resolution requires an active transaction")
  .require (fun s => s.savepoints.length ≠ 1) (runtimeError
    "AMR interface-flux stage weights resolve only in the outer attempt transaction")
  .require (fun s => index ≥ s.pending.length)
    (outOfRange "AMR interface-flux pending fragment index is out of range")
  .require (fun s => ∃ entry ∈ s.pending[index]?, entry.measure.stageWeightResolved = true)
    (logicError "AMR interface-flux stage weight was already resolved")
  .update fun s => { s with pending := s.pending.modify index (resolveFragment stageWeight) }

/-! ## Calls -/

/-- A call of a method that writes. -/
inductive Call (τ payload : Type)
  | begin
  | evaluationBegin
  | accumulate (entries : List (InterfaceFluxFragment τ payload))
  | resolve (index : ℕ) (stageWeight : Rational)
  | rollback
  | commit
  | commitAndRestore
  | clear
  | replaceBudget (budget : InterfaceFluxLedgerBudget)
  | advanceTopology (topologyEpoch : ℕ)

/-- The method of a call. -/
def Call.perform : Call τ payload → Method (InterfaceFluxLedger τ payload) PUnit
  | .begin => InterfaceFluxLedger.begin
  | .evaluationBegin => InterfaceFluxLedger.evaluationBegin
  | .accumulate entries => InterfaceFluxLedger.accumulate traits entries
  | .resolve index stageWeight => resolvePendingStageWeight index stageWeight
  | .rollback => InterfaceFluxLedger.rollback
  | .commit => InterfaceFluxLedger.commit traits
  | .commitAndRestore => InterfaceFluxLedger.commitAndRestore traits
  | .clear => InterfaceFluxLedger.clear
  | .replaceBudget budget => InterfaceFluxLedger.replaceBudget traits budget
  | .advanceTopology topologyEpoch => advanceTopologyEpoch topologyEpoch

/-- A prepared change is published only after its preparation returned. -/
lemma atomic_prepared {α : Type} (prepare : InterfaceFluxLedger τ payload → Throws α)
    (publish : α → InterfaceFluxLedger τ payload → InterfaceFluxLedger τ payload) :
    (Method.inspect prepare >>= fun prepared => Method.update (publish prepared)).Atomic :=
  .bind (Method.readOnly_inspect _) fun _ => (Method.total_update _).atomic

/-- **A call that throws leaves the ledger as it was.** -/
theorem Call.perform_atomic (call : Call τ payload) : (call.perform traits).Atomic := by
  cases call with
  | begin => exact atomic_prepared _ _
  | evaluationBegin => exact atomic_prepared _ _
  | accumulate entries => exact atomic_prepared _ _
  | commit => exact atomic_prepared _ _
  | commitAndRestore => exact atomic_prepared _ _
  | replaceBudget budget => exact atomic_prepared _ _
  | resolve index stageWeight =>
    refine .bind (Method.readOnly_require _ _) fun _ => .bind (Method.readOnly_require _ _)
      fun _ => .bind (Method.readOnly_require _ _) fun _ => ?_
    exact .bind (Method.readOnly_require _ _) fun _ => (Method.total_update _).atomic
  | rollback =>
    exact .bind (Method.readOnly_require _ _) fun _ => (Method.total_update _).atomic
  | clear =>
    exact .bind (Method.readOnly_require _ _) fun _ => (Method.total_update _).atomic
  | advanceTopology topologyEpoch =>
    refine .bind (Method.readOnly_require _ _) fun _ => .bind (Method.readOnly_require _ _)
      fun _ => .bind (Method.readOnly_read _) fun same => ?_
    split_ifs
    · exact (Method.total_pure _).atomic
    · refine Method.Atomic.bind_total ?_ fun _ => Method.total_update _
      exact .bind (Method.readOnly_require _ _) fun _ => (Method.total_update _).atomic

end InterfaceFluxLedger

end Pops
