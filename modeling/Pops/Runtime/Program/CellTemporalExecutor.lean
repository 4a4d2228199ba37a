import Pops.Foundation.OrderedMap
import Pops.Foundation.Spmd
import Pops.Runtime.Program.CellTemporalPartition

/-!
# The prepared cell-local temporal executor

`PreparedBatchedCellTemporalExecutor` (`runtime/program/cell_temporal_partition_executor.hpp`) runs
on every rank of an execution lane.  It groups the cells of a partition by rung, and advances the
rungs to a common target tick one event at a time; every phase that may fail on one rank is closed
by a reduction before any rank goes on.

The provider, and the allocations that may throw, are the environment of a rank: it answers the
last of the calls made so far.  Every call is logged, so that the log is what a rank has asked of
its provider.  A run that would overflow a tick or not end is stuck.

## Main definitions

* `Pops.CellTemporal.Call`, `Environment` — what a rank asks of its environment.
* `Pops.CellTemporal.Executor` — the state of one rank.
* `Pops.CellTemporal.nextBatch`, `executeBatch` — the rung events.
* `Pops.CellTemporal.construct`, `beginAttempt`, `advanceToBarrier`, `commit`,
  `restoreAcceptedBoundary` — the operations.
-/

namespace Pops.CellTemporal

open Spmd

/-! ## The environment of a rank -/

/-- `PreparedProviderSupport`: the answer of a provider: a code, zero for acceptance, and a reason.
-/
structure PreparedProviderSupport where
  code : ℕ
  reason : String
  deriving DecidableEq, Repr

/-- `well_formed`: an accepted support has no reason, and a refused one has. -/
def PreparedProviderSupport.wellFormed (support : PreparedProviderSupport) : Bool :=
  if support.code = 0 then support.reason = "" else support.reason ≠ ""

/-- `CellTemporalAttemptDescriptor`: what a provider is told about an attempt. -/
structure AttemptDescriptor where
  topologyEpoch : ℕ
  beginTick : ℤ
  targetTick : ℤ
  tickDenominator : ℤ
  cellCount : ℕ
  localCellCount : ℕ
  deriving DecidableEq, Repr

/-- `CellTemporalRungBatchDescriptor`: what a provider is told about a batch. -/
structure RungBatchDescriptor where
  rung : ℤ
  beginTick : ℤ
  endTick : ℤ
  tickDenominator : ℤ
  cellCount : ℕ
  localCellCount : ℕ
  deriving DecidableEq, Repr

/-- `DeviceCellTemporalRecord`: a record as a provider sees it. -/
structure DeviceRecord where
  globalRecordIndex : ℕ
  providerLocalIndex : ℕ
  level : ℤ
  cell : ℕ
  rung : ℤ
  deriving DecidableEq, Repr

/-- `CellTemporalStagePoint`: a record with the ticks between which it is advanced. -/
structure StagePoint where
  record : DeviceRecord
  beginTick : ℤ
  endTick : ℤ
  tickDenominator : ℤ
  deriving DecidableEq, Repr

/-- `CellTemporalStageOutcome`, with the underlying values of its fields. -/
structure StageOutcome where
  disposition : ℕ
  reasonCode : ℕ
  deriving DecidableEq, Repr

/-- What a rank asks of its environment: the calls of its provider, the launch of a kernel, and
the allocations of a block. -/
inductive Call
  | allocate
  | serializeExactParameters
  | beginAttempt (attempt : AttemptDescriptor)
  | prepareRungBatchLocal (batch : RungBatchDescriptor)
  | materializeRungBatchSnapshot (batch : RungBatchDescriptor)
  | launch (batch : RungBatchDescriptor)
  | evaluate (point : StagePoint)
  | finalizeRungBatchCandidate (batch : RungBatchDescriptor)
  | completeRungBatch (batch : RungBatchDescriptor)
  | prepareAttemptFinalizeLocal
  | materializeAttemptFinalize
  | prepareCommitAttempt
  | commitAttempt
  | rollbackAttempt
  | restoreAcceptedBoundary (accepted : AcceptedState)
  deriving DecidableEq, Repr

/-- The environment of a rank.  It answers the last call of a log, newest first. -/
structure Environment where
  failure : List Call → Option Exception
  support : List Call → PreparedProviderSupport
  outcome : List Call → StageOutcome
  parameters : List Call → List ℤ
  localRecordIndices : List ℕ
  exactLane : Bool

/-- What `exact_execution_contract` serializes. -/
structure ExactContract where
  laneIdentity : String
  providerIdentity : String
  topologyEpoch : ℕ
  synchronizationTick : ℤ
  tickDenominator : ℤ
  cells : List Record
  parameters : List ℤ
  deriving DecidableEq, Repr

/-- What all ranks share at compile time: the identity of the provider and the optional parts of
its lifecycle; the lane; and the digest of a contract, 64 hexadecimal digits. -/
structure Setup where
  providerName : String
  providerVersion : ℕ
  rungBatchLifecycle : Bool
  acceptedBoundaryLifecycle : Bool
  attemptFinalizeLifecycle : Bool
  laneIdentity : String
  sha256 : ExactContract → List ℤ
  length_sha256 : ∀ contract, (sha256 contract).length = 64

/-! ## The state of a rank -/

/-- `RungBatch`: the records of one rung, which are due together. -/
structure RungBatch where
  rung : ℤ
  stride : ℤ
  currentTick : ℤ
  localOffset : ℕ
  localCount : ℕ
  globalIndices : List ℕ
  deriving DecidableEq, Repr

/-- An event: the interval of a rung, with the clocks of all rungs just before it. -/
structure Event where
  rung : ℤ
  beginTick : ℤ
  endTick : ℤ
  clocks : List (ℤ × ℤ)
  deriving DecidableEq, Repr

/-- `PreparedBatchedCellTemporalExecutor`, with the log of its calls and the events launched in
the current attempt. -/
structure Executor where
  providerIdentity : String
  partition : Partition
  records : List DeviceRecord
  batches : List RungBatch
  targetTick : ℤ
  attemptActive : Bool
  calls : List Call
  events : List Event

/-- `CellTemporalPartitionAcceptedState{}`: the state of a global partition at tick zero. -/
def defaultAcceptedState : AcceptedState :=
  ⟨.global, globalTemporalPartitionProvider, 0, 0, 1, []⟩

/-- The members before the body of the constructor runs. -/
def blank : Executor := ⟨"", ⟨defaultAcceptedState, [], 0, false⟩, [], [], 0, false, [], []⟩

/-- The state with a call logged. -/
def Executor.log (s : Executor) (call : Call) : Executor :=
  { s with calls := call :: s.calls }

/-- A call that may throw. -/
def callThrows (env : Environment) (call : Call) : Block Executor Unit := fun s =>
  match env.failure (s.log call).calls with
  | none => (.ok (), s.log call)
  | some e => (.error e, s.log call)

/-- A call of an optional part of the lifecycle. -/
def hook (present : Bool) (env : Environment) (call : Call) : Block Executor Unit :=
  if present then callThrows env call else pure ()

/-- A call that returns a support decision. -/
def callSupport (env : Environment) (call : Executor → Call) :
    Block Executor PreparedProviderSupport := fun s =>
  (.ok (env.support (s.log (call s)).calls), s.log (call s))

/-- `rollback`: drop the attempt in flight, if there is one. -/
def rollback (s : Executor) : Executor :=
  if s.attemptActive then
    { s.log .rollbackAttempt with
      partition := s.partition.rollback, targetTick := 0, attemptActive := false }
  else s

/-- A flag as a `long`. -/
def flag (b : Bool) : ℤ := if b then 1 else 0

/-- `!support.well_formed() || !support.accepted() ? 1L : 0L`: what a rank contributes to the vote
on a provider. -/
def refusedFlag (support : PreparedProviderSupport) : ℤ :=
  flag (!support.wellFormed || support.code ≠ 0)

/-- The reason of a refusal. -/
def refusalReason (support : PreparedProviderSupport) : String :=
  if support.wellFormed then support.reason else "malformed prepared-provider support decision"

/-! ## Exact consensus on bytes -/

/-- `append_contract_unsigned`: the bytes of a value, the most significant one first. -/
def unsignedBytes (width value : ℕ) : List ℤ :=
  (List.range width).map fun i => ((value / 256 ^ (width - 1 - i) % 256 : ℕ) : ℤ)

/-- The bytes of a text. -/
def textBytes (text : String) : List ℤ := text.toList.map fun c => (c.toNat : ℤ)

/-- `append_contract_frame`. -/
def contractFrame (kind : Char) (payload : List ℤ) : List ℤ :=
  (kind.toNat : ℤ) :: unsignedBytes 8 payload.length ++ payload

/-- The name of the target contract. -/
def targetName : String := "pops.cell-temporal-executor-target"

/-- The contract of `require_collective_target_`. -/
def targetBytes (target : ℤ) : List ℤ :=
  contractFrame 't' (textBytes targetName) ++
    contractFrame 's' ((('u'.toNat : ℕ) : ℤ) :: 4 :: unsignedBytes 4 1) ++
    contractFrame 's' ((('i'.toNat : ℕ) : ℤ) :: 8 ::
      unsignedBytes 8 (target % 18446744073709551616).toNat)

/-- `std::bad_alloc`. -/
def badAlloc : Exception := runtimeError "std::bad_alloc"

/-- An allocation whose failure is reduced and thrown as `std::bad_alloc` on all ranks. -/
def collectiveAllocation (env : Environment) : Computation Executor Unit :=
  consensus (callThrows env .allocate) id "std::bad_alloc"

/-- The bytes of all pairs, one after the other. -/
def pairPayload (values : List (List ℤ × List ℤ)) : List ℤ :=
  values.flatMap fun value => value.1 ++ value.2

/-- The lengths of all pairs. -/
def pairLengths (values : List (List ℤ × List ℤ)) : List ℤ :=
  values.flatMap fun value => [(value.1.length : ℤ), (value.2.length : ℤ)]

/-- A component is too long for a `long`, or all of them together for a `std::size_t`. -/
def InvalidLengths (values : List (List ℤ × List ℤ)) : Prop :=
  (∃ value ∈ values, (value.1.length : ℤ) > int64Max ∨ (value.2.length : ℤ) > int64Max) ∨
    (pairPayload values).length > sizeMax

instance (values : List (List ℤ × List ℤ)) : Decidable (InvalidLengths values) :=
  inferInstanceAs (Decidable (_ ∨ _))

/-- The last part of `all_ranks_agree_exact_ordered_byte_pairs`: consensus on the bytes. -/
def agreeOnPayload (env : Environment) (values : List (List ℤ × List ℤ)) :
    Computation Executor Bool := do
  collectiveAllocation env
  allAgree .char (pairPayload values)

/-- The second part of `all_ranks_agree_exact_ordered_byte_pairs`: consensus on the lengths. -/
def agreeOnLengths (env : Environment) (values : List (List ℤ × List ℤ)) :
    Computation Executor Bool := do
  let invalid ← allReduceMax (flag (InvalidLengths values))
  throwWhen (invalid ≠ 0) id
    (lengthError "exact collective consensus payload size overflows capacity")
  collectiveAllocation env
  let agree ← allAgree .long (pairLengths values)
  if agree then agreeOnPayload env values else pure false

/-- `all_ranks_agree_exact_ordered_byte_pairs`: every rank holds the same pairs, in the same order.
-/
def allRanksAgree (env : Environment) (values : List (List ℤ × List ℤ)) :
    Computation Executor Bool := do
  let invalid ← allReduceMax (flag ((values.length : ℤ) > int64Max))
  throwWhen (invalid ≠ 0) id
    (lengthError "exact collective consensus pair count exceeds long capacity")
  let agree ← allAgree .long [(values.length : ℤ)]
  if agree then agreeOnLengths env values else pure false

/-- `require_collective_target_`: every rank advances to the same target. -/
def requireCollectiveTarget (env : Environment) (target : ℤ) : Computation Executor Unit := do
  consensus (callThrows env .allocate) id
    "cell-local temporal target preparation failed on another rank"
  let agree ← allRanksAgree env [(textBytes targetName, targetBytes target)]
  throwWhen (agree = false) id
    (invalidArgument "cell-local temporal target differs between execution-lane ranks")

/-! ## Envelopes -/

/-- `FixedCollectiveEnvelope`: what the ranks compare of a state: numbers and a digest. -/
structure Envelope where
  scalars : List ℤ
  digest : List ℤ
  deriving DecidableEq, Repr

/-- `encode_u64`: the high and the low half. -/
def encodeU64 (value : ℕ) : List ℤ :=
  [((value / 4294967296 : ℕ) : ℤ), ((value % 4294967296 : ℕ) : ℤ)]

/-- The scalars of an envelope. -/
def envelopeScalars (schema : ℕ) (state : AcceptedState) : List ℤ :=
  (schema : ℤ) :: encodeU64 state.cells.length ++ encodeU64 state.topologyEpoch ++
    encodeU64 state.synchronizationTick.toNat ++ encodeU64 state.tickDenominator.toNat ++
    [0x43454c4c, 0x54494d45]

/-- `fixed_collective_envelope`: the envelope of a valid state, refused with a malformed digest. -/
def fixedCollectiveEnvelope (schema : ℕ) (state : AcceptedState) (digest : List ℤ) :
    Throws Envelope := do
  throwIf (digest.length ≠ 64 ∨ state.synchronizationTick < 0 ∨ state.tickDenominator ≤ 0)
    (invalidArgument "cell-local temporal fixed envelope is malformed")
  pure ⟨envelopeScalars schema state, digest⟩

/-- `fixed_collective_envelope_agrees`: every rank holds the same envelope. -/
def envelopeAgrees (envelope : Envelope) : Computation Executor Bool := do
  let scalars ← allAgree .long envelope.scalars
  let digest ← allAgree .char envelope.digest
  pure (scalars && digest)

/-- `exact_execution_contract`: what an execution is bound to: the lane, the provider, the accepted
clock, the records and the parameters. -/
def exactExecutionContract (setup : Setup) (state : AcceptedState) (parameters : List ℤ) :
    ExactContract :=
  ⟨setup.laneIdentity, state.providerIdentity, state.topologyEpoch, state.synchronizationTick,
    state.tickDenominator, state.cells, parameters⟩

/-- The exact contract of an image, and its digest. -/
def contractDigest (setup : Setup) (env : Environment) (state : AcceptedState) :
    Block Executor (List ℤ) := do
  callThrows env .serializeExactParameters
  let s ← Block.read
  callThrows env .allocate
  pure (setup.sha256 (exactExecutionContract setup state (env.parameters s.calls)))

/-! ## Rung events -/

/-- The selection of `next_batch_`: the selected batch with its position, and its end. -/
structure Selection where
  selected : Option (RungBatch × ℕ)
  selectedEnd : ℤ
  deriving DecidableEq, Repr

/-- A batch that ends at the same tick as the selected one takes its place. -/
def PrecedesSelected (selection : Selection) (batch : RungBatch) : Prop :=
  ∀ selected ∈ selection.selected, batch.rung < selected.1.rung

instance (selection : Selection) (batch : RungBatch) :
    Decidable (PrecedesSelected selection batch) :=
  inferInstanceAs (Decidable (∀ selected ∈ selection.selected, _))

/-- One batch in the loop of `next_batch_`. -/
def selectBatch (target : ℤ) (selection : Selection) (entry : RungBatch × ℕ) :
    Throws Selection :=
  if entry.1.currentTick ≥ target then pure selection
  else do
    let endTick ← tickSum entry.1.currentTick entry.1.stride
    pure (if endTick < selection.selectedEnd ∨
        (endTick = selection.selectedEnd ∧ PrecedesSelected selection entry.1) then
      ⟨some entry, endTick⟩ else selection)

/-- `next_batch_`: the batch to be executed next, or none at the barrier. -/
def nextBatch (target : ℤ) (batches : List RungBatch) : Throws (Option (RungBatch × ℕ)) := do
  let selection ← batches.zipIdx.foldlM (selectBatch target) ⟨none, int64Max⟩
  pure selection.selected

/-- `kMalformedOutcomeReason`: the code of an outcome that breaks its own contract. -/
def malformedOutcomeReason : ℕ := 4294967295

/-- `encode_outcome`: the disposition and the reason of an outcome in one number. -/
def encodeOutcome (outcome : StageOutcome) : ℕ :=
  if outcome.disposition > 2 ∨ ¬ (outcome.disposition = 0 ↔ outcome.reasonCode = 0) then
    2 * 4294967296 + malformedOutcomeReason
  else outcome.disposition * 4294967296 + outcome.reasonCode

/-- The kernel at one record. -/
def evaluateRecord (env : Environment) (begin_ end_ denominator : ℤ)
    (aggregate : ℕ) (record : DeviceRecord) : Block Executor ℕ := fun s =>
  let s' := s.log (.evaluate ⟨record, begin_, end_, denominator⟩)
  (.ok (max aggregate (encodeOutcome (env.outcome s'.calls))), s')

/-- The kernel over the local records of a batch. -/
def evaluateRecords (env : Environment) (begin_ end_ denominator : ℤ) :
    List DeviceRecord → ℕ → Block Executor ℕ
  | [], aggregate => pure aggregate
  | record :: records, aggregate => do
    let aggregate ← evaluateRecord env begin_ end_ denominator aggregate record
    evaluateRecords env begin_ end_ denominator records aggregate

/-- The state with an event launched. -/
def Executor.launch (s : Executor) (batch : RungBatch) (end_ : ℤ) : Executor :=
  { s with events := s.events ++ [⟨batch.rung, batch.currentTick, end_,
      s.batches.map fun b => (b.rung, b.currentTick)⟩] }

/-- The launch of the kernel of a batch. -/
def launchBatch (env : Environment) (batch : RungBatch) (descriptor : RungBatchDescriptor) :
    Block Executor ℕ := fun s =>
  (do
    callThrows env (.launch descriptor)
    evaluateRecords env descriptor.beginTick descriptor.endTick descriptor.tickDenominator
      ((s.records.drop batch.localOffset).take batch.localCount) 0 : Block Executor ℕ)
    (s.launch batch descriptor.endTick)

/-- The message of `CellTemporalStageFailure`. -/
def stageFailure (aggregate : ℤ) : Exception :=
  runtimeError ("cell-local temporal stage " ++
    (if aggregate / 4294967296 = 1 then "rejected" else "failed") ++
    " with provider reason code " ++ toString (aggregate % 4294967296))

/-- The clock advance of a batch in the partition. -/
def advancePartition (batch : RungBatch) (end_ : ℤ) : Block Executor Unit := fun s =>
  ((s.partition.advanceBatch batch.rung batch.globalIndices end_).1,
    { s with partition := (s.partition.advanceBatch batch.rung batch.globalIndices end_).2 })

/-- The state with the clock of one batch advanced. -/
def Executor.setTick (s : Executor) (position : ℕ) (batch : RungBatch) (tick : ℤ) : Executor :=
  { s with batches := s.batches.set position { batch with currentTick := tick } }

/-- The end of `execute_batch_`. -/
def completeBatch (setup : Setup) (descriptor : RungBatchDescriptor) (batch : RungBatch)
    (position : ℕ) (s : Executor) : Executor :=
  (if setup.rungBatchLifecycle then s.log (.completeRungBatch descriptor) else s).setTick position
    batch descriptor.endTick

/-- The phases of `execute_batch_`, for a batch and the end of its event. -/
def runBatch (setup : Setup) (env : Environment) (batch : RungBatch) (position : ℕ)
    (descriptor : RungBatchDescriptor) : Computation Executor Unit := do
  consensus (hook setup.rungBatchLifecycle env (.prepareRungBatchLocal descriptor)) rollback
    "cell-local temporal rung-batch preparation failed on another rank"
  consensus (hook setup.rungBatchLifecycle env (.materializeRungBatchSnapshot descriptor)) rollback
    "cell-local temporal rung-batch snapshot failed on another rank"
  let own ← consensus (launchBatch env batch descriptor) rollback
    "cell-local temporal rung-batch kernel failed on another rank"
  let aggregate ← allReduceOne .max .uint64 own
  throwWhen (aggregate ≠ 0) rollback (stageFailure aggregate)
  consensus (hook setup.rungBatchLifecycle env (.finalizeRungBatchCandidate descriptor)) rollback
    "cell-local temporal rung-batch finalization failed on another rank"
  consensus (advancePartition batch descriptor.endTick) rollback
    "cell-local temporal clock advance failed on another rank"
  update (completeBatch setup descriptor batch position)

/-- The descriptor of an event. -/
def rungBatchDescriptor (s : Executor) (batch : RungBatch) (end_ : ℤ) : RungBatchDescriptor :=
  ⟨batch.rung, batch.currentTick, end_, s.partition.accepted.tickDenominator,
    batch.globalIndices.length, batch.localCount⟩

/-- `execute_batch_`: advance one batch, which must not cross the barrier. -/
def executeBatch (setup : Setup) (env : Environment) (batch : RungBatch) (position : ℕ) :
    Computation Executor Unit := do
  let s ← read
  match tickSum batch.currentTick batch.stride with
  | .error _ => undefined
  | .ok end_ => do
    throwWhen (end_ > s.targetTick) rollback
      (logicError "prepared cell-local rung crosses its synchronization barrier")
    runBatch setup env batch position (rungBatchDescriptor s batch end_)

/-- The loop of `advance_to_barrier`, for at most a number of rounds. -/
def executeBatches (setup : Setup) (env : Environment) : ℕ → Computation Executor Unit
  | 0 => undefined
  | rounds + 1 => do
    let s ← read
    match nextBatch s.targetTick s.batches with
    | .error _ => undefined
    | .ok none => pure ()
    | .ok (some (batch, position)) => do
      executeBatch setup env batch position
      executeBatches setup env rounds

/-! ## Operations -/

/-- The ticks that all batches together have to go: every event takes at least one of them. -/
def remainingTicks (target : ℤ) (batches : List RungBatch) : ℕ :=
  (batches.map fun batch => (target - batch.currentTick).toNat).sum

/-- `advance_to_barrier`: execute batches until every record has reached the target. -/
def advanceToBarrier (setup : Setup) (env : Environment) : Computation Executor Unit := do
  let s ← read
  let active ← allReduceMin (flag s.attemptActive)
  throwWhen (active ≠ 1) rollback
    (logicError "cell-local temporal execution requires an active attempt")
  let s ← read
  executeBatches setup env (remainingTicks s.targetTick s.batches + 1)
  consensus (fun s => (s.partition.requireBarrier "cell-local temporal executor", s)) rollback
    "cell-local temporal barrier validation failed on another rank"

/-- The clock preparation of `begin_attempt`. -/
def beginPartition (env : Environment) (target : ℤ) : Block Executor Unit := do
  callThrows env .allocate
  fun s => ((s.partition.beginAttempt target).1,
    { s with partition := (s.partition.beginAttempt target).2 })

/-- The state with the clocks of the partition rolled back. -/
def rollbackPartition (s : Executor) : Executor := { s with partition := s.partition.rollback }

/-- The state with all clocks at the accepted tick, before the first event of an attempt. -/
def resetClocks (s : Executor) : Executor :=
  { s with
    batches := s.batches.map fun batch =>
      { batch with currentTick := s.partition.accepted.synchronizationTick }
    events := [] }

/-- The descriptor of an attempt. -/
def attemptDescriptor (target : ℤ) (s : Executor) : AttemptDescriptor :=
  ⟨s.partition.accepted.topologyEpoch, s.partition.accepted.synchronizationTick, target,
    s.partition.accepted.tickDenominator, s.partition.accepted.cells.length, s.records.length⟩

/-- The exception of a refused attempt. -/
def attemptRefused (support : PreparedProviderSupport) : Exception :=
  if refusedFlag support ≠ 0 then
    runtimeError ("cell-local temporal provider refused attempt preparation: " ++
      refusalReason support)
  else
    runtimeError "cell-local temporal provider refused attempt preparation on another rank"

/-- The state with the attempt active. -/
def activate (target : ℤ) (s : Executor) : Executor :=
  { s with targetTick := target, attemptActive := true }

/-- `begin_attempt`: open an attempt, after every rank has agreed on its target. -/
def beginAttempt (env : Environment) (target : ℤ) : Computation Executor Unit := do
  let s ← read
  let minimum ← allReduceMin (flag s.attemptActive)
  let maximum ← allReduceMax (flag s.attemptActive)
  throwWhen (maximum ≠ 0) (if minimum ≠ maximum then rollback else id)
    (logicError "cell-local temporal attempt is already active")
  requireCollectiveTarget env target
  consensus (beginPartition env target) rollbackPartition
    "cell-local temporal clock preparation failed on another rank"
  update resetClocks
  let support ← localCode (callSupport env fun s => .beginAttempt (attemptDescriptor target s))
  let refused ← allReduceMax (refusedFlag support)
  throwWhen (refused ≠ 0) (fun s => rollbackPartition (s.log .rollbackAttempt))
    (attemptRefused support)
  update (activate target)

/-- The local finalization of `commit`. -/
def finalizeLocal (setup : Setup) (env : Environment) : Block Executor Unit := do
  let s ← Block.read
  Block.lift (throwIf (s.attemptActive = false)
    (logicError "cell-local temporal commit requires an active attempt"))
  Block.lift (s.partition.requireBarrier "cell-local temporal provider commit")
  hook setup.attemptFinalizeLifecycle env .prepareAttemptFinalizeLocal

/-- The candidate of `commit`. -/
def prepareCommit (setup : Setup) (env : Environment) : Block Executor (Partition × Envelope) := do
  let s ← Block.read
  let digest ← contractDigest setup env (s.partition.accepted.moveTo s.targetTick)
  let next ← Block.lift (Partition.create (s.partition.accepted.moveTo s.targetTick))
  let envelope ← Block.lift (fixedCollectiveEnvelope 5 next.accepted digest)
  pure (next, envelope)

/-- The exception of a refused publication. -/
def publicationRefused (support : PreparedProviderSupport) : Exception :=
  if refusedFlag support = 0 then
    runtimeError "cell-local temporal provider refused accepted publication on another rank"
  else
    runtimeError ("cell-local temporal provider refused accepted publication: " ++
      refusalReason support)

/-- The state with the candidate published. -/
def publish (next : Partition) (s : Executor) : Executor :=
  { s.log .commitAttempt with partition := next, targetTick := 0, attemptActive := false }

/-- `commit`: finalize the attempt and publish it, if every rank can. -/
def commit (setup : Setup) (env : Environment) : Computation Executor Unit := do
  consensus (finalizeLocal setup env) rollback
    "cell-local temporal local attempt finalization failed on another rank"
  consensus (hook setup.attemptFinalizeLifecycle env .materializeAttemptFinalize) rollback
    "cell-local temporal collective attempt finalization failed on another rank"
  let candidate ← consensus (prepareCommit setup env) rollback
    "cell-local temporal commit preparation failed on another rank"
  let agree ← envelopeAgrees candidate.2
  throwWhen (agree = false) rollback
    (invalidArgument "cell-local temporal commit candidate differs between execution-lane ranks")
  let support ← localCode (callSupport env fun _ => .prepareCommitAttempt)
  let refused ← allReduceMax (refusedFlag support)
  throwWhen (refused ≠ 0) rollback (publicationRefused support)
  update (publish candidate.1)

/-- The record of a restored image is the prepared one, at another tick. -/
def SameRecord (restored prepared : Record) : Prop :=
  restored.level = prepared.level ∧ restored.cell = prepared.cell ∧ restored.rung = prepared.rung

instance (restored prepared : Record) : Decidable (SameRecord restored prepared) :=
  inferInstanceAs (Decidable (_ ∧ _))

/-- The checks of `restore_accepted_boundary` between the restored and the current image. -/
def checkSameAuthority (next current : AcceptedState) : Throws Unit := do
  throwIf (next.kind ≠ current.kind ∨ next.providerIdentity ≠ current.providerIdentity ∨
      next.topologyEpoch ≠ current.topologyEpoch ∨
      next.tickDenominator ≠ current.tickDenominator ∨ next.cells.length ≠ current.cells.length)
    (invalidArgument "cell-local temporal executor restore targets another prepared authority")
  forEach (next.cells.zip current.cells) fun pair =>
    throwIf (¬ SameRecord pair.1 pair.2)
      (invalidArgument "cell-local temporal executor restore changes a prepared cell or rung")

/-- The preparation of `restore_accepted_boundary`. -/
def prepareRestore (setup : Setup) (env : Environment) (accepted : AcceptedState) :
    Block Executor (Partition × Envelope) := do
  let s ← Block.read
  Block.lift (throwIf (s.attemptActive = true)
    (logicError "cell-local temporal executor cannot restore an active attempt"))
  Block.lift (throwIf (setup.acceptedBoundaryLifecycle = false)
    (logicError "cell-local temporal provider cannot resynchronize an accepted rollback boundary"))
  callThrows env .allocate
  let candidate ← Block.lift (Partition.create accepted)
  Block.lift (candidate.requirePreparedExecutionRoute s.providerIdentity)
  Block.lift (checkSameAuthority candidate.accepted s.partition.accepted)
  let digest ← contractDigest setup env candidate.accepted
  let envelope ← Block.lift (fixedCollectiveEnvelope 4 candidate.accepted digest)
  pure (candidate, envelope)

/-- The state with the restored image. -/
def publishRestored (candidate : Partition) (s : Executor) : Executor :=
  { s.log (.restoreAcceptedBoundary candidate.accepted) with
    partition := candidate
    batches := s.batches.map fun batch =>
      { batch with currentTick := candidate.accepted.synchronizationTick }
    targetTick := 0 }

/-- `restore_accepted_boundary`: replace the accepted state by a restored one, if every rank holds
the same. -/
def restoreAcceptedBoundary (setup : Setup) (env : Environment) (accepted : AcceptedState) :
    Computation Executor Unit := do
  let candidate ← consensus (prepareRestore setup env accepted) rollback
    "cell-local temporal restore preparation failed on another rank"
  let agree ← envelopeAgrees candidate.2
  throwWhen (agree = false) id
    (invalidArgument "cell-local temporal restore target differs between execution-lane ranks")
  update (publishRestored candidate.1)

/-! ## Construction -/

/-- `canonical_provider_identity`: the name and the version of a provider. -/
def canonicalProviderIdentity (name : String) (version : ℕ) : Throws String := do
  throwIf (name = "" ∨ version = 0)
    (invalidArgument "cell-local temporal provider requires a non-empty name and non-zero version")
  pure (name ++ "@" ++ toString version)

/-- The preparation of the constructor. -/
def prepareConstruction (setup : Setup) (env : Environment) (accepted : AcceptedState) :
    Block Executor (Partition × String × Envelope) := do
  callThrows env .allocate
  let partition ← Block.lift (Partition.create accepted)
  let identity ← Block.lift (canonicalProviderIdentity setup.providerName setup.providerVersion)
  Block.lift (partition.requirePreparedExecutionRoute identity)
  let digest ← contractDigest setup env partition.accepted
  let envelope ← Block.lift (fixedCollectiveEnvelope 3 partition.accepted digest)
  pure (partition, identity, envelope)

/-- One index in the ownership loop of `prepare_batches_`, with the index before it and the records
so far. -/
def ownRecord (cells : List Record) (progress : Option ℕ × List DeviceRecord)
    (entry : ℕ × ℕ) : Throws (Option ℕ × List DeviceRecord) :=
  match cells[entry.1]? with
  | none =>
    .error (invalidArgument
      "cell-local temporal provider ownership must be a canonical record subset")
  | some cell => do
    throwIf (Partition.NotIncreasing progress.1 entry.1)
      (invalidArgument "cell-local temporal provider ownership must be a canonical record subset")
    pure (some entry.1, progress.2 ++ [⟨entry.1, entry.2, cell.level, cell.cell, cell.rung⟩])

/-- The records of a rank, in the order of their indices. -/
def ownRecords (cells : List Record) (indices : List ℕ) : Throws (List DeviceRecord) := do
  let progress ← indices.zipIdx.foldlM (ownRecord cells) (none, [])
  pure progress.2

/-- One cell in the grouping loop of `prepare_batches_`. -/
def groupCell (grouped : List (ℤ × List ℕ)) (entry : Record × ℕ) : List (ℤ × List ℕ) :=
  OrderedMap.assign grouped entry.1.rung
    ((OrderedMap.lookup grouped entry.1.rung).getD [] ++ [entry.2])

/-- The indices of every rung, in increasing order of the rungs. -/
def groupByRung (cells : List Record) : List (ℤ × List ℕ) := cells.zipIdx.foldl groupCell []

/-- One rung in the last loop of `prepare_batches_`: the records so far and the batches so far. -/
def addBatch (tick : ℤ) (records : List DeviceRecord)
    (progress : List DeviceRecord × List RungBatch) (group : ℤ × List ℕ) :
    List DeviceRecord × List RungBatch :=
  let own := records.filter fun record => record.rung = group.1
  (progress.1 ++ own, progress.2 ++
    [⟨group.1, stride group.1, tick, progress.1.length, own.length, group.2⟩])

/-- `prepare_batches_`: group the records into batches by rung. -/
def prepareBatches (env : Environment) : Block Executor Unit := do
  callThrows env .allocate
  let s ← Block.read
  let records ← Block.lift (ownRecords s.partition.accepted.cells env.localRecordIndices)
  fun s =>
    let prepared := (groupByRung s.partition.accepted.cells).foldl
      (addBatch s.partition.accepted.synchronizationTick records) ([], [])
    (.ok (), { s with records := prepared.1, batches := prepared.2 })

/-- The ownership of a rank: one for every record that it owns. -/
def ownership (s : Executor) : List ℤ :=
  (List.range s.partition.accepted.cells.length).map fun index =>
    flag (s.records.any fun record => record.globalRecordIndex = index)

/-- `require_unique_collective_ownership_`: every record is owned by exactly one rank. -/
def requireUniqueCollectiveOwnership (env : Environment) : Computation Executor Unit := do
  consensus (callThrows env .allocate) id
    "cell-local temporal ownership preparation failed on another rank"
  let s ← read
  let owners ← allReduce .sum .real (ownership s)
  throwWhen (∃ count ∈ owners, count ≠ 1) id
    (invalidArgument "cell-local temporal records require exactly one execution-lane owner")

/-- The constructor. -/
def construct (setup : Setup) (env : Environment) (accepted : AcceptedState) :
    Computation Executor Unit := do
  let failed ← allReduceMax (flag (!env.exactLane))
  throwWhen (failed ≠ 0) id (invalidArgument
    "cell-local temporal provider and executor require the same exact execution lane")
  let prepared ← consensus (prepareConstruction setup env accepted) id
    "cell-local temporal executor preparation failed on another rank"
  let agree ← envelopeAgrees prepared.2.2
  throwWhen (agree = false) id (invalidArgument
    "cell-local temporal executor fixed plan envelope differs between execution-lane ranks")
  update fun s => { s with partition := prepared.1, providerIdentity := prepared.2.1 }
  consensus (prepareBatches env) id
    "cell-local temporal ownership preparation failed on another rank"
  requireUniqueCollectiveOwnership env

/-- A value of `std::int64_t`. -/
abbrev Tick : Type := { tick : ℤ // IsInt64 tick }

/-- The operations that all ranks call together.  The arguments may differ from rank to rank. -/
inductive Operation (ι : Type)
  | beginAttempt (target : ι → Tick)
  | advanceToBarrier
  | commit
  | restoreAcceptedBoundary (accepted : ι → AcceptedState)

/-- The code of a rank in an operation. -/
def Operation.code {ι : Type} (setup : Setup) (env : ι → Environment) (operation : Operation ι)
    (rank : ι) : Computation Executor Unit :=
  match operation with
  | .beginAttempt target => CellTemporal.beginAttempt (env rank) (target rank)
  | .advanceToBarrier => CellTemporal.advanceToBarrier setup (env rank)
  | .commit => CellTemporal.commit setup (env rank)
  | .restoreAcceptedBoundary accepted =>
    CellTemporal.restoreAcceptedBoundary setup (env rank) (accepted rank)

end Pops.CellTemporal
