import Pops.Runtime.Program.CellTemporalPartition
import Pops.Runtime.Program.CheckpointImage
import Pops.Runtime.Program.HistoryKeys
import Pops.Runtime.Program.HistoryRings

/-!
# The accepted state of an AMR program

Between two steps a program has an accepted state: clocks, history descriptors with the provenance
of every slot, deferred remaps, the temporal partition and the published fragments of the flux
ledgers.  `validate_state` accepts complete and canonically ordered states, `write_state` appends
one to an image, and `serialized_amr_program_accepted_state_capacity` counts the bytes of the
largest state of a shape without building one.  The floating-point operations that the validation of
fragments and of remaps uses are parameters here.

## Main definitions

* `Pops.ProgramState` — the accepted state.
* `Pops.ProgramState.validateState` — `validate_state`.
* `Pops.ProgramState.writeState` — `write_state`.
* `Pops.StateCapacity`, `StateCapacity.capacity` — a shape, and the bytes counted for it.
-/

namespace Pops

/-! ## The state -/

/-- `AmrProgramHistoryDescriptor`: a history of the Program: its owner, its identities and its
shape. -/
structure HistoryDescriptor where
  name : String
  programOwner : ℤ
  stateIdentity : String
  spaceIdentity : String
  clockIdentity : String
  interpolationIdentity : String
  depth : ℤ
  components : ℤ
  deriving DecidableEq

/-- `AmrProgramHistorySlotProvenance`: one slot of a history on a level: its step, its age and its
sample. -/
structure HistorySlotProvenance where
  name : String
  level : ℤ
  slot : ℤ
  outgoingDt : Binary64
  initialized : Bool
  fillCount : ℤ
  sample : HistorySampleIdentity

/-- `AmrProgramPendingHistoryRemap`: a history whose values still have to be moved to a new layout.
-/
structure PendingHistoryRemap where
  key : String
  parentLevel : ℤ
  childLevel : ℤ
  priorTopologyEpoch : ℕ
  priorMaterializationGeneration : ℕ
  publishedTopologyEpoch : ℕ
  publishedMaterializationGeneration : ℕ
  acceptedMacroStep : ℤ
  temporalNumerator : ℤ
  temporalDenominator : ℤ
  sourceDt : Binary64
  targetDt : Binary64
  consumed : Bool

/-- `AmrProgramSynchronizationEvent`. -/
structure SynchronizationEvent where
  parentLevel : ℤ
  childLevel : ℤ
  runtimeBlock : ℤ
  phase : String
  clock : FluxClock Binary64

/-- `AmrProgramFaceEvidenceProvenance`: the layout at which the face fluxes were accepted. -/
structure FaceEvidenceProvenance where
  spatialContract : String
  topologyEpoch : ℕ
  materializationGeneration : ℕ
  levelCount : ℕ

/-- `AmrProgramAcceptedState`: everything that a checkpoint of the accepted state holds. -/
structure ProgramState (d : ℕ) where
  spatialContract : String
  topologyEpoch : ℕ
  materializationGeneration : ℕ
  levelClocks : List (FluxClock Binary64)
  logicalClockTicks : List (String × ℤ)
  histories : List HistoryDescriptor
  historySlots : List HistorySlotProvenance
  pendingHistoryRemaps : List PendingHistoryRemap
  historyFluxPayload : List Byte
  temporalPartition : CellTemporal.AcceptedState
  taggingHysteresisState : List Byte
  fluxBudgetContract : String
  couplingContract : String
  faceEvidenceProvenance : Option FaceEvidenceProvenance
  acceptedFaceFlux : Fin d → List (FaceFluxFragment d Binary64 (List Binary64))
  acceptedInterfaceFlux : List (InterfaceFluxFragment Binary64 (List Binary64))
  synchronizationEvents : List SynchronizationEvent

/-! ## Validation -/

/-- The floating-point operations of `validate_state`. -/
structure CheckpointArithmetic where
  face : FluxArithmetic Binary64
  coupling : InterfaceTimeArithmetic Binary64
  /-- `value / static_cast<double>(numerator)`. -/
  divide : Binary64 → ℤ → Binary64

/-- `validate_history_sample_provenance`: a registered zero start is not initialised, and a
publication is, with the step of its slot. -/
def validateHistorySampleProvenance (sample : HistorySampleIdentity) (initialized : Bool)
    (outgoingDt : Binary64) : Throws Unit := do
  sample.validate
  throwIf ((sample.kind = .registeredZeroStart ∧ initialized = true) ∨
      (sample.kind = .publication ∧
        (initialized = false ∨ ¬ Binary64.equal outgoingDt sample.intervalBits)))
    (invalidArgument "history sample differs from its publication metadata")

namespace HistoryDescriptor

/-- A descriptor lacks an identity or has an invalid shape. -/
def Incomplete (history : HistoryDescriptor) : Prop :=
  history.name = "" ∨ history.programOwner < 0 ∨ history.stateIdentity = "" ∨
    history.spaceIdentity = "" ∨ history.clockIdentity = "" ∨ history.interpolationIdentity = "" ∨
    history.depth < 2 ∨ history.components < 1

instance (history : HistoryDescriptor) : Decidable history.Incomplete :=
  inferInstanceAs (Decidable (_ ∨ _))

end HistoryDescriptor

namespace ProgramState

variable {d : ℕ}

/-- The check of one level clock. -/
def validateClock (clock : FluxClock Binary64 × ℕ) : Throws Unit := do
  let e := invalidArgument "exact AMR Program checkpoint has an invalid level clock"
  throwIf (clock.1.level ≠ clock.2 ∨ clock.1.macroStep < 0 ∨ clock.1.phase.denominator ≤ 0) e
  let phase ← Rational.create clock.1.phase.numerator clock.1.phase.denominator
  throwIf (phase ≠ clock.1.phase ∨ ¬ Binary64.isFinite clock.1.physicalTime) e

/-- The check of one descriptor, with the name of the one before it. -/
def validateHistory (previous : String) (history : HistoryDescriptor) : Throws String := do
  throwIf history.Incomplete
    (invalidArgument "exact AMR Program checkpoint has an incomplete history descriptor")
  throwIf (previous ≠ "" ∧ history.name ≤ previous)
    (invalidArgument
      "exact AMR Program checkpoint history descriptors must be uniquely ordered")
  pure history.name

/-- The lexicographic order of `std::tuple<std::string, int, int>`. -/
def slotCode (slot : HistorySlotProvenance) : String ×ₗ ℤ ×ₗ ℤ :=
  toLex (slot.name, toLex (slot.level, slot.slot))

/-- The check of one slot, with the code of the one before it. -/
def validateSlot (state : ProgramState d) (previous : Option (String ×ₗ ℤ ×ₗ ℤ))
    (slot : HistorySlotProvenance) : Throws (Option (String ×ₗ ℤ ×ₗ ℤ)) := do
  validateHistorySampleProvenance slot.sample slot.initialized slot.outgoingDt
  let e := invalidArgument "exact AMR Program checkpoint has invalid history-slot provenance"
  match state.histories.find? fun history => history.name = slot.name with
  | none => throw e
  | some descriptor => do
    throwIf (slot.level < 0 ∨ slot.level.toNat ≥ state.levelClocks.length ∨ slot.slot < 0 ∨
        slot.slot ≥ descriptor.depth ∨ ¬ Binary64.isFinite slot.outgoingDt ∨
        Binary64.isBelowZero slot.outgoingDt ∨ slot.fillCount < 0 ∨
        slot.fillCount > descriptor.depth) e
    throwIf (slot.initialized ≠ decide (slot.fillCount > 0) ∨
        (if slot.fillCount = 0 then ¬ Binary64.isZero slot.outgoingDt
          else ¬ Binary64.isPositive slot.outgoingDt))
      (invalidArgument
        "exact AMR Program checkpoint history dt differs from its publication metadata")
    throwIf (∃ code ∈ previous, ¬ code < slotCode slot)
      (invalidArgument
        "exact AMR Program checkpoint history-slot provenance is not uniquely ordered")
    pure (some (slotCode slot))

/-- The next slot has to be this one, published as the slots of the level before it. -/
def coverSlot (name : String) (level : ℕ)
    (rest : List HistorySlotProvenance × Option (Bool × ℤ)) (slot : ℕ) :
    Throws (List HistorySlotProvenance × Option (Bool × ℤ)) :=
  match rest.1 with
  | [] => throw (invalidArgument "exact AMR Program checkpoint omits history-slot provenance")
  | provenance :: slots => do
    throwIf (provenance.name ≠ name ∨ provenance.level ≠ level ∨ provenance.slot ≠ slot)
      (invalidArgument
        "exact AMR Program checkpoint does not cover every history level and slot")
    throwIf (∃ publication ∈ rest.2, publication ≠ (provenance.initialized, provenance.fillCount))
      (invalidArgument
        "exact AMR Program checkpoint history publication differs between slots")
    pure (slots, some (provenance.initialized, provenance.fillCount))

/-- The slots of a level. -/
def coverLevel (history : HistoryDescriptor) (slots : List HistorySlotProvenance) (level : ℕ) :
    Throws (List HistorySlotProvenance) := do
  let rest ← (List.range history.depth.toNat).foldlM (coverSlot history.name level) (slots, none)
  pure rest.1

/-- The slots of a history. -/
def coverHistory (levels : ℕ) (slots : List HistorySlotProvenance) (history : HistoryDescriptor) :
    Throws (List HistorySlotProvenance) :=
  (List.range levels).foldlM (coverLevel history) slots

/-- Every history has its slots, and there are no others. -/
def coverSlots (state : ProgramState d) : Throws Unit := do
  let rest ← state.histories.foldlM (coverHistory state.levelClocks.length) state.historySlots
  throwIf (rest ≠ [])
    (invalidArgument "exact AMR Program checkpoint has foreign history-slot provenance")

/-- The check of one deferred remap, with the key of the one before it. -/
def validatePending (arithmetic : CheckpointArithmetic) (state : ProgramState d) (previous : String)
    (pending : PendingHistoryRemap) : Throws String := do
  let (level, name) ← HistoryKeys.parsePendingKey pending.key.toList
  let history := state.histories.find? fun row => row.name.toList = name
  let lagSlot := state.historySlots.find? fun slot =>
    decide (slot.name.toList = name ∧ slot.level = pending.childLevel ∧ slot.slot = 1)
  throwIf (pending.key = "" ∨ (previous ≠ "" ∧ pending.key ≤ previous) ∨ pending.parentLevel < 0 ∨
      pending.parentLevel = intMax ∨ pending.childLevel ≠ pending.parentLevel + 1 ∨
      pending.childLevel ≥ castInt state.levelClocks.length ∨ pending.consumed = true ∨
      level ≠ pending.childLevel ∨ (history.map (·.depth) ≠ some 2) ∨
      (lagSlot.map (·.initialized) ≠ some true) ∨
      (∃ slot ∈ lagSlot, ¬ Binary64.equal slot.outgoingDt pending.sourceDt) ∨
      ((state.levelClocks[pending.childLevel.toNat]?).map (·.macroStep) ≠
        some pending.acceptedMacroStep) ∨
      pending.priorTopologyEpoch = sizeMax ∨ pending.priorMaterializationGeneration = sizeMax ∨
      pending.priorTopologyEpoch + 1 ≠ pending.publishedTopologyEpoch ∨
      pending.priorMaterializationGeneration + 1 ≠ pending.publishedMaterializationGeneration ∨
      pending.publishedTopologyEpoch ≠ state.topologyEpoch ∨
      pending.publishedMaterializationGeneration ≠ state.materializationGeneration ∨
      pending.acceptedMacroStep < 0 ∨ pending.temporalDenominator ≠ 1 ∨
      (pending.temporalNumerator ≠ 1 ∧ pending.temporalNumerator ≠ 2) ∨
      ¬ Binary64.isFinite pending.sourceDt ∨ ¬ Binary64.isFinite pending.targetDt ∨
      ¬ Binary64.isPositive pending.sourceDt ∨ ¬ Binary64.isPositive pending.targetDt ∨
      ¬ Binary64.equal pending.targetDt
        (arithmetic.divide pending.sourceDt pending.temporalNumerator))
    (invalidArgument "exact AMR Program checkpoint has an invalid pending history remap")
  pure pending.key

/-- The state has face fragments or synchronization events. -/
def HasFaceEvidence (state : ProgramState d) : Prop :=
  state.synchronizationEvents ≠ [] ∨ ∃ axis, state.acceptedFaceFlux axis ≠ []

instance (state : ProgramState d) : Decidable state.HasFaceEvidence :=
  have : Decidable (state.synchronizationEvents ≠ []) :=
    decidable_of_iff (state.synchronizationEvents.isEmpty = false) (by simp)
  have : DecidablePred fun axis => state.acceptedFaceFlux axis ≠ [] := fun axis =>
    decidable_of_iff ((state.acceptedFaceFlux axis).isEmpty = false) (by simp)
  inferInstanceAs (Decidable (_ ∨ _))

/-- The number of levels of the geometry the evidence comes from. -/
def evidenceLevels (state : ProgramState d) : ℕ :=
  (state.faceEvidenceProvenance.map (·.levelCount)).getD 0

/-- The checks on the geometry of the evidence. -/
def validateEvidence (state : ProgramState d) : Throws Unit := do
  throwIf (state.HasFaceEvidence ∧ state.faceEvidenceProvenance.isNone)
    (invalidArgument "exact AMR Program face evidence lacks its originating geometry")
  throwIf (¬ state.HasFaceEvidence ∧ state.faceEvidenceProvenance.isSome)
    (invalidArgument "empty AMR Program face evidence cannot retain geometry provenance")
  throwIf (∃ origin ∈ state.faceEvidenceProvenance, origin.spatialContract = "" ∨
      origin.levelCount = 0 ∨ (origin.levelCount : ℤ) > intMax)
    (invalidArgument "exact AMR Program face evidence has invalid geometry provenance")

/-- The check of one face fragment, with the key of the one before it. -/
def validateFace (arithmetic : CheckpointArithmetic) (state : ProgramState d) (axis : Fin d)
    (previous : Option (FaceFluxFragmentKey d Binary64))
    (fragment : FaceFluxFragment d Binary64 (List Binary64)) :
    Throws (Option (FaceFluxFragmentKey d Binary64)) := do
  throwIf (fragment.key.axis ≠ (axis : ℤ))
    (invalidArgument "exact AMR Program checkpoint stores a flux face under another axis")
  let _ ← validateFaceFluxFragment arithmetic.face fragment.key fragment.measure
  throwIf (fragment.key.levels.fine.toNat ≥ state.evidenceLevels)
    (invalidArgument "exact AMR Program face fragment is outside its originating hierarchy")
  throwIf (fragment.payload = [])
    (invalidArgument "exact AMR Program checkpoint face payload cannot be empty")
  throwIf (∃ component ∈ fragment.payload, ¬ Binary64.isFinite component)
    (invalidArgument "exact AMR Program checkpoint face payload must be finite")
  throwIf (∃ key ∈ previous, ¬ key.less fragment.key)
    (invalidArgument "exact AMR Program checkpoint face fragments must be uniquely ordered")
  pure (some fragment.key)

/-- The check of one interface fragment, with the key of the one before it. -/
def validateInterface (arithmetic : CheckpointArithmetic) (state : ProgramState d)
    (previous : Option (InterfaceFluxFragmentKey Binary64))
    (fragment : InterfaceFluxFragment Binary64 (List Binary64)) :
    Throws (Option (InterfaceFluxFragmentKey Binary64)) := do
  validateInterfaceFluxFragment arithmetic.coupling fragment.key fragment.measure
    state.topologyEpoch
  throwIf (fragment.measure.stageWeightResolved = false ∨ fragment.payload = [])
    (invalidArgument "exact AMR Program checkpoint interface fragment is not accepted")
  throwIf (∃ component ∈ fragment.payload, ¬ Binary64.isFinite component)
    (invalidArgument "exact AMR Program checkpoint interface payload must be finite")
  throwIf (∃ key ∈ previous, ¬ key.less fragment.key)
    (invalidArgument "exact AMR Program checkpoint interface fragments must be uniquely ordered")
  pure (some fragment.key)

/-- The check of one synchronization event. -/
def validateEvent (state : ProgramState d) (event : SynchronizationEvent) : Throws Unit :=
  throwIf (event.parentLevel < 0 ∨ event.childLevel ≠ event.parentLevel + 1 ∨
      event.childLevel.toNat ≥ state.evidenceLevels ∨ event.runtimeBlock < 0 ∨
      (event.phase ≠ "reflux" ∧ event.phase ≠ "average_down") ∨
      event.clock.level ≠ event.parentLevel ∨ event.clock.macroStep < 0 ∨
      ¬ Binary64.isFinite event.clock.physicalTime)
    (invalidArgument "exact AMR Program checkpoint has an invalid synchronization event")

/-- `validate_state`: the checks of a state before it is written and after it is read. -/
def validateState (arithmetic : CheckpointArithmetic) (state : ProgramState d) : Throws Unit := do
  throwIf (state.spatialContract = "")
    (invalidArgument "exact AMR Program checkpoint requires its spatial contract")
  throwIf (state.levelClocks.length = 0)
    (invalidArgument "exact AMR Program checkpoint requires at least one level clock")
  forEach state.levelClocks.zipIdx validateClock
  CellTemporal.validate state.temporalPartition
  throwIf (state.temporalPartition.kind = .cellLocal ∧
      state.temporalPartition.topologyEpoch ≠ state.topologyEpoch)
    (invalidArgument "exact AMR Program checkpoint temporal partition names another topology")
  let _ ← state.histories.foldlM validateHistory ""
  let _ ← state.historySlots.foldlM (validateSlot state) none
  coverSlots state
  let _ ← state.pendingHistoryRemaps.foldlM (validatePending arithmetic state) ""
  throwIf (state.historyFluxPayload ≠ [] ∧ state.historyFluxPayload.length < 8)
    (invalidArgument "exact AMR Program checkpoint has a truncated history-flux payload")
  validateEvidence state
  forEach (List.finRange d) fun axis => do
    let _ ← (state.acceptedFaceFlux axis).foldlM (validateFace arithmetic state axis) none
    pure ()
  let _ ← state.acceptedInterfaceFlux.foldlM (validateInterface arithmetic state) none
  forEach state.synchronizationEvents (validateEvent state)

end ProgramState

/-! ## Writing -/

/-- The underlying integer of the kind of a sample. -/
def sampleKindCode : HistorySampleKind → ℕ
  | .unknownLegacy => 0
  | .registeredZeroStart => 1
  | .publication => 2

/-- The underlying integer of the kind of a partition. -/
def partitionKindCode : CellTemporal.TemporalPartitionKind → ℕ
  | .global => 0
  | .cellLocal => 1
  | .unsupported code => code

namespace ProgramState

open Image

variable {d : ℕ}

/-- `kMagic`: the first eight bytes, with the version of the format. -/
def magic : List Byte := ofString "POPSAND7"

/-- The image of a logical clock. -/
def writeTick (entry : String × ℤ) : List Byte := text entry.1 ++ i64 entry.2

/-- The image of a descriptor. -/
def writeHistory (history : HistoryDescriptor) : List Byte :=
  text history.name ++ (i64 history.programOwner ++ (text history.stateIdentity ++
    (text history.spaceIdentity ++ (text history.clockIdentity ++
      (text history.interpolationIdentity ++ (i64 history.depth ++ i64 history.components))))))

/-- The image of the provenance of a slot. -/
def writeSlot (slot : HistorySlotProvenance) : List Byte :=
  text slot.name ++ (i64 slot.level ++ (i64 slot.slot ++ (real slot.outgoingDt ++
    (flag slot.initialized ++ (i64 slot.fillCount ++ (u64 (sampleKindCode slot.sample.kind) ++
      (real slot.sample.startBits ++ (real slot.sample.intervalBits ++
        u64 slot.sample.ordinal))))))))

/-- The image of a deferred remap. -/
def writePending (pending : PendingHistoryRemap) : List Byte :=
  text pending.key ++ (i64 pending.parentLevel ++ (i64 pending.childLevel ++
    (u64 pending.priorTopologyEpoch ++ (u64 pending.priorMaterializationGeneration ++
      (u64 pending.publishedTopologyEpoch ++ (u64 pending.publishedMaterializationGeneration ++
        (i64 pending.acceptedMacroStep ++ (i64 pending.temporalNumerator ++
          (i64 pending.temporalDenominator ++ (real pending.sourceDt ++ (real pending.targetDt ++
            flag pending.consumed)))))))))))

/-- The image of a cell record. -/
def writeCell (cell : CellTemporal.Record) : List Byte :=
  i64 cell.level ++ (u64 cell.cell ++ (i64 cell.rung ++ i64 cell.acceptedTick))

/-- `write_temporal_partition`: the kind, the provider and the records of a partition. -/
def writeTemporalPartition (value : CellTemporal.AcceptedState) : List Byte :=
  u64 (partitionKindCode value.kind) ++ (text value.providerIdentity ++ (u64 value.topologyEpoch ++
    (i64 value.synchronizationTick ++ (i64 value.tickDenominator ++
      sequence writeCell value.cells))))

/-- `write_face_fragment`: the key, the measures and the payload of a face fragment. -/
def writeFaceFragment (fragment : FaceFluxFragment d Binary64 (List Binary64)) : List Byte :=
  text fragment.key.owner ++ (text fragment.key.state ++ (i64 fragment.key.levels.coarse ++
    (i64 fragment.key.levels.fine ++ (u64 fragment.key.centering.code ++ (i64 fragment.key.axis ++
      (index fragment.key.face ++ (index fragment.key.coarseFace ++ (clock fragment.key.clock ++
        (text fragment.key.temporalFamily ++
          (text fragment.key.stage ++ (u64 fragment.key.attempt ++
          (u64 fragment.key.role.code ++ (u64 fragment.key.contribution.code ++
            (rational fragment.measure.stageWeight ++ (rational fragment.measure.substepBegin ++
              (rational fragment.measure.substepEnd ++ (real fragment.measure.substepDuration ++
                (real fragment.measure.faceMeasure ++
                  sequence real fragment.payload))))))))))))))))))

/-- `write_interface_fragment`: the key, the measures and the payload of an interface fragment. -/
def writeInterfaceFragment (fragment : InterfaceFluxFragment Binary64 (List Binary64)) :
    List Byte :=
  text fragment.key.interfaceIdentity ++ (u64 fragment.key.topologyEpoch ++
    (i64 fragment.key.coarseLevel ++ (i64 fragment.key.fineLevel ++ (clock fragment.key.clock ++
      (text fragment.key.stageIdentity ++ (text fragment.key.graphIdentity ++
        (text fragment.key.rateIdentity ++ (text fragment.key.applicationIdentity ++
          (clockWindow fragment.key.interval ++ (u64 fragment.key.orientation.code ++
            (u64 fragment.key.leftBlock ++ (u64 fragment.key.rightBlock ++
              (rational fragment.measure.stageWeight ++ (real fragment.measure.faceMeasure ++
                (real fragment.measure.substepDuration ++
                  (flag fragment.measure.stageWeightResolved ++
                    sequence real fragment.payload))))))))))))))))

/-- The image of a synchronization event. -/
def writeEvent (event : SynchronizationEvent) : List Byte :=
  i64 event.parentLevel ++ (i64 event.childLevel ++ (i64 event.runtimeBlock ++
    (text event.phase ++ clock event.clock)))

/-- The image of the geometry of the evidence, behind its tag. -/
def writeEvidence (evidence : Option FaceEvidenceProvenance) : List Byte :=
  match evidence with
  | none => flag false
  | some origin => flag true ++ (text origin.spatialContract ++ (u64 origin.topologyEpoch ++
      (u64 origin.materializationGeneration ++ u64 origin.levelCount)))

/-- `write_state`.  The checks that the writers of fragments and of the partition repeat are those
of `validate_state`. -/
def writeState (state : ProgramState d) : List Byte :=
  magic ++ (i64 d ++ (text state.spatialContract ++ (u64 state.topologyEpoch ++
    (u64 state.materializationGeneration ++ (sequence clock state.levelClocks ++
      (sequence writeTick state.logicalClockTicks ++ (sequence writeHistory state.histories ++
        (sequence writeSlot state.historySlots ++
          (sequence writePending state.pendingHistoryRemaps ++ (bytes state.historyFluxPayload ++
            (writeTemporalPartition state.temporalPartition ++
              (bytes state.taggingHysteresisState ++ (text state.fluxBudgetContract ++
                (text state.couplingContract ++
                  ((List.finRange d).flatMap (fun axis =>
                      sequence writeFaceFragment (state.acceptedFaceFlux axis)) ++
                    (sequence writeInterfaceFragment state.acceptedInterfaceFlux ++
                      (sequence writeEvent state.synchronizationEvents ++
                        writeEvidence state.faceEvidenceProvenance)))))))))))))))))

/-- `serialize_amr_program_accepted_state`: the image of a valid state. -/
def serialize (arithmetic : CheckpointArithmetic) (state : ProgramState d) :
    Throws (List Byte) := do
  validateState arithmetic state
  pure state.writeState

end ProgramState

/-! ## Capacity -/

/-- `AmrProgramAcceptedStateCapacity`: counts of characters and of terms. -/
structure StateCapacity (d : ℕ) where
  spatialContractCharacters : ℕ
  levelCount : ℕ
  logicalClockIdentities : List String
  histories : List HistoryDescriptor
  temporalProviderIdentity : String
  temporalCellCount : ℕ
  taggingHysteresisBytes : ℕ
  historyFluxPayloadBytes : ℕ
  pendingHistoryRemapCount : ℕ
  pendingHistoryRemapKeyCharacters : ℕ
  fluxBudgetContractCharacters : ℕ
  couplingContractCharacters : ℕ
  faceFragmentCounts : Fin d → ℕ
  faceOwnerCharacters : ℕ
  faceStateCharacters : ℕ
  faceTemporalFamilyCharacters : ℕ
  faceStageCharacters : ℕ
  facePayloadTerms : ℕ
  interfaceFragmentCount : ℕ
  interfaceIdentityCharacters : ℕ
  interfaceProgramIdentityCharacters : ℕ
  interfaceStageCharacters : ℕ
  interfacePayloadTerms : ℕ
  synchronizationEventCount : ℕ
  synchronizationPhaseCharacters : ℕ

namespace StateCapacity

open CountingWriter

variable {d : ℕ}

/-- The sum of two sizes, with the message of its overflow. -/
def checkedSum (left right : ℕ) (message : String) : Throws ℕ := do
  throwIf (right > sizeMax - left) (lengthError message)
  pure (left + right)

/-- Sums of two `std::size_t` that no check guards. -/
def wrappedSum (left right : ℕ) : ℕ := (left + right) % (sizeMax + 1)

/-- The bytes of a logical clock. -/
def countTick (count : ℕ) (identity : String) : Throws ℕ := do
  throwIf (identity = "")
    (invalidArgument "AMR Program checkpoint capacity has an empty logical clock")
  let count ← sized count identity.length
  word count

/-- The bytes of a descriptor, and the slots of the histories so far. -/
def countHistory (levelCount : ℕ) (counts : ℕ × ℕ) (history : HistoryDescriptor) :
    Throws (ℕ × ℕ) := do
  throwIf history.Incomplete
    (invalidArgument "AMR Program checkpoint capacity has an invalid history row")
  let count ← sized counts.1 history.name.length
  let count ← word count
  let count ← sized count history.stateIdentity.length
  let count ← sized count history.spaceIdentity.length
  let count ← sized count history.clockIdentity.length
  let count ← sized count history.interpolationIdentity.length
  let count ← word count
  let count ← word count
  let depth := history.depth.toNat
  throwIf (levelCount > sizeMax / depth ∨ levelCount * depth > sizeMax - counts.2)
    (lengthError "AMR Program checkpoint history-slot capacity exceeds size_t")
  pure (count, counts.2 + levelCount * depth)

/-- The bytes of the slots of a history: ten words and the name for each of them. -/
def countSlots (levelCount count : ℕ) (history : HistoryDescriptor) : Throws ℕ := do
  throwIf (history.name.length > sizeMax - 80)
    (lengthError "AMR Program checkpoint history name capacity exceeds size_t")
  repeatedBytes count (levelCount * history.depth.toNat) (80 + history.name.length)

/-- The bytes of the deferred remaps: the length word, the key and the twelve words behind it.  No
check guards the sum of these sizes. -/
def countPending (c : StateCapacity d) (count : ℕ) : Throws ℕ :=
  if c.pendingHistoryRemapCount ≠ 0 then do
    throwIf (c.pendingHistoryRemapKeyCharacters = 0)
      (invalidArgument "AMR Program checkpoint capacity has empty pending-remap keys")
    repeatedBytes count c.pendingHistoryRemapCount
      (wrappedSum (wrappedSum 8 c.pendingHistoryRemapKeyCharacters) 96)
  else pure count

/-- The bytes of the face fragments of an axis without their texts and payloads, and the fragments
of the axes so far. -/
def countFaces (c : StateCapacity d) (counts : ℕ × ℕ) (axis : Fin d) : Throws (ℕ × ℕ) := do
  let count ← word counts.1
  let fragments ← checkedSum counts.2 (c.faceFragmentCounts axis)
    "AMR Program face-fragment capacity exceeds size_t"
  let count ← repeatedBytes count (c.faceFragmentCounts axis) ((25 + 2 * d) * 8)
  pure (count, fragments)

/-- The characters of the texts of a face fragment. -/
def faceCharacters (c : StateCapacity d) : Throws ℕ := do
  let message := "AMR Program face identity capacity exceeds size_t"
  let characters ← checkedSum c.faceOwnerCharacters c.faceStateCharacters message
  let characters ← checkedSum characters c.faceTemporalFamilyCharacters message
  checkedSum characters c.faceStageCharacters message

/-- The characters of the texts of an interface fragment. -/
def interfaceCharacters (c : StateCapacity d) : Throws ℕ := do
  let message := "AMR Program interface identity capacity exceeds size_t"
  let characters ← checkedSum c.interfaceIdentityCharacters c.interfaceProgramIdentityCharacters
      message
  checkedSum characters c.interfaceStageCharacters message

/-- The bytes in front of the deferred remaps. -/
def countHistories (c : StateCapacity d) : Throws ℕ := do
  let count ← add 0 8
  let count ← word count
  let count ← sized count c.spatialContractCharacters
  let count ← word count
  let count ← word count
  let count ← word count
  let count ← repeatedBytes count c.levelCount 40
  let count ← word count
  let count ← c.logicalClockIdentities.foldlM countTick count
  let count ← word count
  let counts ← c.histories.foldlM (countHistory c.levelCount) (count, 0)
  let count ← word counts.1
  c.histories.foldlM (countSlots c.levelCount) count

/-- The bytes from the payload of the histories to the contracts. -/
def countPartition (c : StateCapacity d) (count : ℕ) : Throws ℕ := do
  let count ← sized count c.historyFluxPayloadBytes
  let count ← word count
  let count ← sized count c.temporalProviderIdentity.length
  let count ← word count
  let count ← word count
  let count ← word count
  let count ← word count
  let count ← repeatedBytes count c.temporalCellCount 32
  let count ← sized count c.taggingHysteresisBytes
  let count ← sized count c.fluxBudgetContractCharacters
  sized count c.couplingContractCharacters

/-- The bytes of the fragments. -/
def countFragments (c : StateCapacity d) (count : ℕ) : Throws ℕ := do
  let counts ← (List.finRange d).foldlM (countFaces c) (count, 0)
  let faceTexts ← c.faceCharacters
  let count ← repeatedBytes counts.1 counts.2 faceTexts
  let count ← repeatedBytes count c.facePayloadTerms 8
  let count ← word count
  let count ← repeatedBytes count c.interfaceFragmentCount 256
  let interfaceTexts ← c.interfaceCharacters
  let count ← repeatedBytes count c.interfaceFragmentCount interfaceTexts
  repeatedBytes count c.interfacePayloadTerms 8

/-- The bytes of the synchronization events and of the geometry of the evidence. -/
def countEvents (c : StateCapacity d) (count : ℕ) : Throws ℕ := do
  let count ← word count
  let count ← repeatedBytes count c.synchronizationEventCount 72
  let count ← repeatedBytes count c.synchronizationEventCount c.synchronizationPhaseCharacters
  let count ← word count
  let count ← sized count c.spatialContractCharacters
  let count ← word count
  let count ← word count
  word count

/-- `serialized_amr_program_accepted_state_capacity`: the bound on the length of an image, added up
in `size_t`. -/
def capacity (c : StateCapacity d) : Throws ℕ := do
  throwIf (c.spatialContractCharacters = 0 ∨ c.levelCount = 0 ∨ c.logicalClockIdentities = [] ∨
      c.temporalProviderIdentity = "" ∨ c.fluxBudgetContractCharacters = 0 ∨
      c.couplingContractCharacters = 0)
    (invalidArgument "AMR Program checkpoint capacity has incomplete frozen metadata")
  let count ← c.countHistories
  let count ← word count
  let count ← c.countPending count
  let count ← c.countPartition count
  let count ← c.countFragments count
  c.countEvents count

end StateCapacity

end Pops
