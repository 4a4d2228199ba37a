import Pops.Runtime.Program.AcceptedState

/-!
# The capacity bounds every state of its shape

The capacity counts the fields of the image one by one.  Except for one sum of sizes, every addition
and multiplication is checked, so an accepted shape is counted exactly.  The image of a valid state
whose counts and texts stay within a shape is no longer than what was counted: a validated state has
exactly the slots of its histories, and the other containers are bounded by the shape.

The sum that no check guards is the size of a deferred remap.  When it wraps, the capacity misses
almost the whole key, and a state with a deferred remap does not fit.

## Main definitions

* `Pops.StateCapacity.exact` — the bytes of a shape, as a natural number.
* `Pops.StateCapacity.Within` — the counts and the texts of a state stay within a shape.

## Main results

* `Pops.StateCapacity.capacity_eq_ok` — what an accepted shape counts.
* `Pops.StateCapacity.length_writeState_le` — the image of a state within a shape.
* `Pops.StateCapacity.capacity_bounds_iff` — when the capacity is a bound.
-/

namespace Pops

namespace StateCapacity

open CountingWriter Image

variable {d : ℕ}

/-! ## Counting -/

/-- The bytes of a logical clock. -/
def tickBytes (identity : String) : ℕ := 8 + identity.length + 8

/-- The bytes of a descriptor. -/
def historyBytes (history : HistoryDescriptor) : ℕ :=
  64 + history.name.length + history.stateIdentity.length + history.spaceIdentity.length +
    history.clockIdentity.length + history.interpolationIdentity.length

/-- The bytes of the slots of a history. -/
def slotBytes (levels : ℕ) (history : HistoryDescriptor) : ℕ :=
  levels * history.depth.toNat * (80 + history.name.length)

/-- The bytes in front of the deferred remaps. -/
def historiesBytes (c : StateCapacity d) : ℕ :=
  72 + c.spatialContractCharacters + c.levelCount * 40 +
    (c.logicalClockIdentities.map tickBytes).sum + (c.histories.map historyBytes).sum +
    (c.histories.map (slotBytes c.levelCount)).sum

/-- The bytes of the deferred remaps. -/
def pendingBytes (c : StateCapacity d) : ℕ :=
  c.pendingHistoryRemapCount * (104 + c.pendingHistoryRemapKeyCharacters)

/-- The bytes that are counted for the deferred remaps. -/
def countedPendingBytes (c : StateCapacity d) : ℕ :=
  c.pendingHistoryRemapCount *
    wrappedSum (wrappedSum 8 c.pendingHistoryRemapKeyCharacters) 96

/-- The bytes from the payload of the histories to the contracts. -/
def partitionBytes (c : StateCapacity d) : ℕ :=
  80 + c.historyFluxPayloadBytes + c.temporalProviderIdentity.length + c.temporalCellCount * 32 +
    c.taggingHysteresisBytes + c.fluxBudgetContractCharacters + c.couplingContractCharacters

/-- The bytes of the face fragments of an axis, without their texts and payloads. -/
def axisBytes (c : StateCapacity d) (axis : Fin d) : ℕ :=
  8 + c.faceFragmentCounts axis * ((25 + 2 * d) * 8)

/-- The number of face fragments. -/
def faceCount (c : StateCapacity d) : ℕ := ((List.finRange d).map c.faceFragmentCounts).sum

/-- The bytes of the fragments. -/
def fragmentBytes (c : StateCapacity d) : ℕ :=
  8 + ((List.finRange d).map c.axisBytes).sum +
    c.faceCount * (c.faceOwnerCharacters + c.faceStateCharacters + c.faceTemporalFamilyCharacters +
      c.faceStageCharacters) +
    c.facePayloadTerms * 8 + c.interfaceFragmentCount * 256 +
    c.interfaceFragmentCount * (c.interfaceIdentityCharacters +
      c.interfaceProgramIdentityCharacters + c.interfaceStageCharacters) +
    c.interfacePayloadTerms * 8

/-- The bytes of the synchronization events and of the geometry of the evidence. -/
def eventBytes (c : StateCapacity d) : ℕ :=
  48 + c.synchronizationEventCount * 72 +
    c.synchronizationEventCount * c.synchronizationPhaseCharacters + c.spatialContractCharacters

/-- The bytes of a shape, as a natural number. -/
def exact (c : StateCapacity d) : ℕ :=
  c.historiesBytes + 8 + c.pendingBytes + c.partitionBytes + c.fragmentBytes + c.eventBytes

/-- A checked sum is a sum. -/
lemma checkedSum_eq {left right result : ℕ} {message : String}
    (h : checkedSum left right message = .ok result) : result = left + right := by
  simp only [checkedSum, bind_eq_ok, pure_eq_ok] at h
  obtain ⟨_, -, rfl⟩ := h
  rfl

/-- A returned count grows by the bytes of a tick. -/
lemma countTick_eq {count result : ℕ} {identity : String}
    (h : countTick count identity = .ok result) : result = count + tickBytes identity := by
  simp only [countTick, bind_eq_ok] at h
  obtain ⟨_, -, middle, hmiddle, h⟩ := h
  rw [word_eq h, sized_eq hmiddle, tickBytes]
  omega

/-- A returned count grows by the bytes of a history. -/
lemma countHistory_eq {levels : ℕ} {counts result : ℕ × ℕ} {history : HistoryDescriptor}
    (h : countHistory levels counts history = .ok result) :
    result.1 = counts.1 + historyBytes history := by
  simp only [countHistory, bind_eq_ok, pure_eq_ok] at h
  obtain ⟨_, -, n₁, h₁, n₂, h₂, n₃, h₃, n₄, h₄, n₅, h₅, n₆, h₆, n₇, h₇, n₈, h₈, _, -, rfl⟩ := h
  show n₈ = _
  rw [word_eq h₈, word_eq h₇, sized_eq h₆, sized_eq h₅, sized_eq h₄, sized_eq h₃, word_eq h₂,
    sized_eq h₁, historyBytes]
  omega

/-- A returned count grows by the bytes of the slots of a history. -/
lemma countSlots_eq {levels count result : ℕ} {history : HistoryDescriptor}
    (h : countSlots levels count history = .ok result) :
    result = count + slotBytes levels history := by
  simp only [countSlots, bind_eq_ok] at h
  obtain ⟨_, -, h⟩ := h
  exact repeatedBytes_eq h

/-- A returned count is the bytes of all histories. -/
lemma countHistories_eq {c : StateCapacity d} {n : ℕ} (h : c.countHistories = .ok n) :
    n = c.historiesBytes := by
  simp only [countHistories, bind_eq_ok] at h
  obtain ⟨n₁, h₁, n₂, h₂, n₃, h₃, n₄, h₄, n₅, h₅, n₆, h₆, n₇, h₇, n₈, h₈, n₉, h₉, n₁₀, h₁₀, counts,
    hcounts, n₁₁, h₁₁, h⟩ := h
  have hslots := foldlM_measure id (slotBytes c.levelCount) (fun _ _ _ => countSlots_eq) h
  have hhistories := foldlM_measure Prod.fst historyBytes (fun _ _ _ => countHistory_eq) hcounts
  have hticks := foldlM_measure id tickBytes (fun _ _ _ => countTick_eq) h₉
  simp only [id_eq] at hslots hticks
  rw [hslots, word_eq h₁₁, hhistories, word_eq h₁₀, hticks, word_eq h₈, repeatedBytes_eq h₇,
    word_eq h₆, word_eq h₅, word_eq h₄, sized_eq h₃, word_eq h₂, add_eq h₁, historiesBytes]
  omega

/-- A returned count grows by the bytes of the pending remaps. -/
lemma countPending_eq {c : StateCapacity d} {count n : ℕ} (h : c.countPending count = .ok n) :
    n = count + c.countedPendingBytes := by
  unfold countPending at h
  split_ifs at h with hzero
  · simp only [bind_eq_ok] at h
    obtain ⟨_, -, h⟩ := h
    exact repeatedBytes_eq h
  · rw [pure_eq_ok] at h
    rw [countedPendingBytes, not_not.mp hzero, zero_mul, add_zero, h]

/-- A returned count grows by the bytes of the temporal partition. -/
lemma countPartition_eq {c : StateCapacity d} {count n : ℕ} (h : c.countPartition count = .ok n) :
    n = count + c.partitionBytes := by
  simp only [countPartition, bind_eq_ok] at h
  obtain ⟨n₁, h₁, n₂, h₂, n₃, h₃, n₄, h₄, n₅, h₅, n₆, h₆, n₇, h₇, n₈, h₈, n₉, h₉, n₁₀, h₁₀, h⟩ := h
  rw [sized_eq h, sized_eq h₁₀, sized_eq h₉, repeatedBytes_eq h₈, word_eq h₇,
    word_eq h₆, word_eq h₅, word_eq h₄, sized_eq h₃, word_eq h₂, sized_eq h₁, partitionBytes]
  omega

/-- Returned counts grow by the bytes and the fragments of the faces of an axis. -/
lemma countFaces_eq {c : StateCapacity d} {counts result : ℕ × ℕ} {axis : Fin d}
    (h : c.countFaces counts axis = .ok result) :
    result.1 = counts.1 + c.axisBytes axis ∧ result.2 = counts.2 + c.faceFragmentCounts axis := by
  simp only [countFaces, bind_eq_ok, pure_eq_ok] at h
  obtain ⟨n₁, h₁, fragments, hfragments, n₂, h₂, rfl⟩ := h
  refine ⟨?_, checkedSum_eq hfragments⟩
  show n₂ = _
  rw [repeatedBytes_eq h₂, word_eq h₁, axisBytes, add_assoc]

/-- A returned count is the characters of the texts of a face fragment. -/
lemma faceCharacters_eq {c : StateCapacity d} {n : ℕ} (h : c.faceCharacters = .ok n) :
    n = c.faceOwnerCharacters + c.faceStateCharacters + c.faceTemporalFamilyCharacters +
      c.faceStageCharacters := by
  simp only [faceCharacters, bind_eq_ok] at h
  obtain ⟨n₁, h₁, n₂, h₂, h⟩ := h
  rw [checkedSum_eq h, checkedSum_eq h₂, checkedSum_eq h₁]

/-- A returned count is the characters of the texts of an interface fragment. -/
lemma interfaceCharacters_eq {c : StateCapacity d} {n : ℕ} (h : c.interfaceCharacters = .ok n) :
    n = c.interfaceIdentityCharacters + c.interfaceProgramIdentityCharacters +
      c.interfaceStageCharacters := by
  simp only [interfaceCharacters, bind_eq_ok] at h
  obtain ⟨n₁, h₁, h⟩ := h
  rw [checkedSum_eq h, checkedSum_eq h₁]

/-- A returned count grows by the bytes of the fragments. -/
lemma countFragments_eq {c : StateCapacity d} {count n : ℕ} (h : c.countFragments count = .ok n) :
    n = count + c.fragmentBytes := by
  simp only [countFragments, bind_eq_ok] at h
  obtain ⟨counts, hcounts, faceTexts, hface, n₁, h₁, n₂, h₂, n₃, h₃, n₄, h₄, interfaceTexts,
    hinterface, n₅, h₅, h⟩ := h
  have hbytes := foldlM_measure Prod.fst c.axisBytes (fun _ _ _ h => (countFaces_eq h).1) hcounts
  have hfragments :=
    foldlM_measure Prod.snd c.faceFragmentCounts (fun _ _ _ h => (countFaces_eq h).2) hcounts
  rw [repeatedBytes_eq h, repeatedBytes_eq h₅, repeatedBytes_eq h₄, word_eq h₃, repeatedBytes_eq h₂,
    repeatedBytes_eq h₁, hbytes, hfragments, faceCharacters_eq hface,
    interfaceCharacters_eq hinterface, fragmentBytes, faceCount, zero_add]
  omega

/-- A returned count grows by the bytes of the events. -/
lemma countEvents_eq {c : StateCapacity d} {count n : ℕ} (h : c.countEvents count = .ok n) :
    n = count + c.eventBytes := by
  simp only [countEvents, bind_eq_ok] at h
  obtain ⟨n₁, h₁, n₂, h₂, n₃, h₃, n₄, h₄, n₅, h₅, n₆, h₆, n₇, h₇, h⟩ := h
  rw [word_eq h, word_eq h₇, word_eq h₆, sized_eq h₅, word_eq h₄, repeatedBytes_eq h₃,
    repeatedBytes_eq h₂, word_eq h₁, eventBytes]
  omega

/-- An accepted shape is counted exactly, except for its deferred remaps. -/
theorem capacity_eq_ok {c : StateCapacity d} {n : ℕ} (h : c.capacity = .ok n) :
    n = c.historiesBytes + 8 + c.countedPendingBytes + c.partitionBytes + c.fragmentBytes +
      c.eventBytes := by
  simp only [capacity, bind_eq_ok] at h
  obtain ⟨_, -, n₁, h₁, n₂, h₂, n₃, h₃, n₄, h₄, n₅, h₅, h⟩ := h
  rw [countEvents_eq h, countFragments_eq h₅, countPartition_eq h₄, countPending_eq h₃, word_eq h₂,
    countHistories_eq h₁]

/-! ## States within a shape -/

/-- The rows of a state stay within rows of the shape, each within one of its own. -/
def Dominated {α β : Type} (within : α → β → Prop) (rows : List α) (bounds : List β) : Prop :=
  ∃ chosen, chosen.Subperm bounds ∧ List.Forall₂ within rows chosen

/-- Sums of dominated rows. -/
lemma Dominated.sum_le {α β : Type} {within : α → β → Prop} {rows : List α} {bounds : List β}
    (h : Dominated within rows bounds) {f : α → ℕ} {g : β → ℕ}
    (hle : ∀ a b, within a b → f a ≤ g b) : (rows.map f).sum ≤ (bounds.map g).sum := by
  obtain ⟨chosen, ⟨kept, hperm, hsublist⟩, hrows⟩ := h
  calc (rows.map f).sum ≤ (chosen.map g).sum :=
        List.Forall₂.sum_le_sum (List.forall₂_map_left_iff.mpr
          (List.forall₂_map_right_iff.mpr (hrows.imp fun a b => hle a b)))
    _ = (kept.map g).sum := (hperm.map g).symm.sum_eq
    _ ≤ (bounds.map g).sum := (hsublist.map g).sum_le_sum fun _ _ => Nat.zero_le _

/-- A descriptor within another. -/
structure HistoryWithin (history row : HistoryDescriptor) : Prop where
  name : history.name.length ≤ row.name.length
  stateIdentity : history.stateIdentity.length ≤ row.stateIdentity.length
  spaceIdentity : history.spaceIdentity.length ≤ row.spaceIdentity.length
  clockIdentity : history.clockIdentity.length ≤ row.clockIdentity.length
  interpolationIdentity : history.interpolationIdentity.length ≤ row.interpolationIdentity.length
  depth : history.depth ≤ row.depth

/-- The counts and the texts of a state stay within a shape.  The three program identities of an
interface fragment share one bound, and the payload terms of all fragments another. -/
structure Within (c : StateCapacity d) (state : ProgramState d) : Prop where
  spatialContract : state.spatialContract.length ≤ c.spatialContractCharacters
  levels : state.levelClocks.length ≤ c.levelCount
  clocks : Dominated (fun (entry : String × ℤ) (identity : String) =>
    entry.1.length ≤ identity.length) state.logicalClockTicks c.logicalClockIdentities
  histories : Dominated HistoryWithin state.histories c.histories
  pending : state.pendingHistoryRemaps.length ≤ c.pendingHistoryRemapCount
  pendingKey : ∀ pending ∈ state.pendingHistoryRemaps,
    pending.key.length ≤ c.pendingHistoryRemapKeyCharacters
  payload : state.historyFluxPayload.length ≤ c.historyFluxPayloadBytes
  provider : state.temporalPartition.providerIdentity.length ≤ c.temporalProviderIdentity.length
  cells : state.temporalPartition.cells.length ≤ c.temporalCellCount
  tagging : state.taggingHysteresisState.length ≤ c.taggingHysteresisBytes
  fluxBudget : state.fluxBudgetContract.length ≤ c.fluxBudgetContractCharacters
  coupling : state.couplingContract.length ≤ c.couplingContractCharacters
  faces : ∀ axis, (state.acceptedFaceFlux axis).length ≤ c.faceFragmentCounts axis
  faceTexts : ∀ axis, ∀ fragment ∈ state.acceptedFaceFlux axis,
    fragment.key.owner.length ≤ c.faceOwnerCharacters ∧
      fragment.key.state.length ≤ c.faceStateCharacters ∧
      fragment.key.temporalFamily.length ≤ c.faceTemporalFamilyCharacters ∧
      fragment.key.stage.length ≤ c.faceStageCharacters
  facePayload : ((List.finRange d).map fun axis =>
    ((state.acceptedFaceFlux axis).map fun fragment => fragment.payload.length).sum).sum ≤
      c.facePayloadTerms
  interfaces : state.acceptedInterfaceFlux.length ≤ c.interfaceFragmentCount
  interfaceTexts : ∀ fragment ∈ state.acceptedInterfaceFlux,
    fragment.key.interfaceIdentity.length ≤ c.interfaceIdentityCharacters ∧
      fragment.key.graphIdentity.length + fragment.key.rateIdentity.length +
        fragment.key.applicationIdentity.length ≤ c.interfaceProgramIdentityCharacters ∧
      fragment.key.stageIdentity.length ≤ c.interfaceStageCharacters
  interfacePayload : (state.acceptedInterfaceFlux.map fun fragment => fragment.payload.length).sum ≤
    c.interfacePayloadTerms
  events : state.synchronizationEvents.length ≤ c.synchronizationEventCount
  eventPhase : ∀ event ∈ state.synchronizationEvents,
    event.phase.length ≤ c.synchronizationPhaseCharacters
  evidence : ∀ origin ∈ state.faceEvidenceProvenance,
    origin.spatialContract.length ≤ c.spatialContractCharacters

/-! ## Lengths -/

section

open ProgramState

/-- A tick has two words and its clock. -/
@[simp] lemma length_writeTick (entry : String × ℤ) :
    (writeTick entry).length = 8 + entry.1.length + 8 := by
  simp [writeTick]

/-- A history is written in as many bytes as are counted for it. -/
@[simp] lemma length_writeHistory (history : HistoryDescriptor) :
    (writeHistory history).length = historyBytes history := by
  simp only [writeHistory, List.length_append, length_text, length_i64, historyBytes]
  omega

/-- A slot has ten words and its name. -/
@[simp] lemma length_writeSlot (slot : HistorySlotProvenance) :
    (writeSlot slot).length = 80 + slot.name.length := by
  simp only [writeSlot, List.length_append, length_text, length_i64, length_real, length_flag,
    length_u64]
  omega

/-- A pending remap has thirteen words and its key. -/
@[simp] lemma length_writePending (pending : PendingHistoryRemap) :
    (writePending pending).length = 104 + pending.key.length := by
  simp only [writePending, List.length_append, length_text, length_i64, length_real, length_flag,
    length_u64]
  omega

/-- The record of a cell has four words. -/
lemma length_writeCell (cell : CellTemporal.Record) : (writeCell cell).length = 32 := by
  simp [writeCell]

/-- A temporal partition has six words, the identity of its provider and its cells. -/
@[simp] lemma length_writeTemporalPartition (value : CellTemporal.AcceptedState) :
    (writeTemporalPartition value).length =
      48 + value.providerIdentity.length + value.cells.length * 32 := by
  simp only [writeTemporalPartition, List.length_append, length_text, length_i64, length_u64,
    length_sequence_const length_writeCell]
  omega

/-- A face fragment has twenty-five words, two for every axis, four texts and its payload. -/
@[simp] lemma length_writeFaceFragment
    (fragment : FaceFluxFragment d Binary64 (List Binary64)) :
    (writeFaceFragment fragment).length = (25 + 2 * d) * 8 +
      (fragment.key.owner.length + fragment.key.state.length + fragment.key.temporalFamily.length +
        fragment.key.stage.length) + fragment.payload.length * 8 := by
  simp only [writeFaceFragment, List.length_append, length_text, length_i64, length_u64,
    length_real, length_rational, length_clock, length_index, length_sequence_const length_real]
  omega

/-- An interface fragment has thirty-two words, its texts and its payload. -/
@[simp] lemma length_writeInterfaceFragment
    (fragment : InterfaceFluxFragment Binary64 (List Binary64)) :
    (writeInterfaceFragment fragment).length = 256 +
      (fragment.key.interfaceIdentity.length + (fragment.key.graphIdentity.length +
        fragment.key.rateIdentity.length + fragment.key.applicationIdentity.length) +
        fragment.key.stageIdentity.length) + fragment.payload.length * 8 := by
  simp only [writeInterfaceFragment, List.length_append, length_text, length_i64, length_u64,
    length_real, length_rational, length_clock, length_clockWindow, length_flag,
    length_sequence_const length_real]
  omega

/-- An event has nine words and its phase. -/
@[simp] lemma length_writeEvent (event : SynchronizationEvent) :
    (writeEvent event).length = 72 + event.phase.length := by
  simp only [writeEvent, List.length_append, length_text, length_i64, length_clock]
  omega

/-- The image of the evidence. -/
lemma length_writeEvidence_le {evidence : Option FaceEvidenceProvenance} {n : ℕ}
    (h : ∀ origin ∈ evidence, origin.spatialContract.length ≤ n) :
    (writeEvidence evidence).length ≤ 40 + n := by
  cases evidence with
  | none =>
    simp only [writeEvidence, length_flag]
    omega
  | some origin =>
    have := h origin rfl
    simp only [writeEvidence, List.length_append, length_flag, length_text, length_u64]
    omega

/-- A container whose elements have bounded images. -/
lemma length_sequence_le {α : Type} {write : α → List Byte} {elements : List α} {count size : ℕ}
    (hcount : elements.length ≤ count) (hsize : ∀ x ∈ elements, (write x).length ≤ size) :
    (sequence write elements).length ≤ 8 + count * size := by
  rw [length_sequence]
  have hsum := List.sum_le_card_nsmul (elements.map fun x => (write x).length) size
    (by simpa using hsize)
  rw [List.length_map, smul_eq_mul] at hsum
  have := hsum.trans (Nat.mul_le_mul_right size hcount)
  omega

/-- A container whose elements have bounded images and payloads. -/
lemma length_sequence_payload_le {α : Type} {write : α → List Byte} {elements : List α}
    {payload : α → ℕ} {count size : ℕ} (hcount : elements.length ≤ count)
    (hsize : ∀ x ∈ elements, (write x).length ≤ size + payload x * 8) :
    (sequence write elements).length ≤ 8 + count * size + (elements.map payload).sum * 8 := by
  rw [length_sequence]
  have hsum : ∀ l : List α, (∀ x ∈ l, (write x).length ≤ size + payload x * 8) →
      (l.map fun x => (write x).length).sum ≤ l.length * size + (l.map payload).sum * 8 := by
    intro l hl
    induction l with
    | nil => simp
    | cons x l ih =>
      have hx := hl x List.mem_cons_self
      have hrest := ih fun y hy => hl y (List.mem_cons_of_mem _ hy)
      simp only [List.map_cons, List.sum_cons, List.length_cons, Nat.add_mul, Nat.one_mul]
      omega
  have := (hsum elements hsize).trans (Nat.add_le_add_right (Nat.mul_le_mul_right size hcount) _)
  omega

/-! ## The slots of a validated state -/

/-- The bytes of slots. -/
def slotsBytes (slots : List HistorySlotProvenance) : ℕ :=
  (slots.map fun slot => 80 + slot.name.length).sum

/-- A covered slot has the name of its history. -/
lemma coverSlot_bytes {name : String} {level : ℕ}
    {rest rest' : List HistorySlotProvenance × Option (Bool × ℤ)} {slot : ℕ}
    (h : coverSlot name level rest slot = .ok rest') :
    slotsBytes rest.1 = 80 + name.length + slotsBytes rest'.1 := by
  obtain ⟨slots, publication⟩ := rest
  cases slots with
  | nil => cases h
  | cons provenance slots =>
    simp only [coverSlot, bind_eq_ok, throwIf_eq_ok, pure_eq_ok] at h
    obtain ⟨_, hname, _, -, rfl⟩ := h
    obtain rfl : provenance.name = name := by
      by_contra hne
      exact hname (.inl hne)
    simp [slotsBytes]

/-- The covered slots of a level. -/
lemma coverLevel_bytes {history : HistoryDescriptor} {slots rest : List HistorySlotProvenance}
    {level : ℕ} (h : coverLevel history slots level = .ok rest) :
    slotsBytes slots = history.depth.toNat * (80 + history.name.length) + slotsBytes rest := by
  simp only [coverLevel, bind_eq_ok, pure_eq_ok] at h
  obtain ⟨covered, hcovered, rfl⟩ := h
  have hbytes := foldlM_consume (fun rest => slotsBytes rest.1) (fun _ => 80 + history.name.length)
    (fun _ _ _ => coverSlot_bytes) hcovered
  rwa [List.map_const', List.sum_replicate, List.length_range, smul_eq_mul] at hbytes

/-- The covered slots of a history. -/
lemma coverHistory_bytes {levels : ℕ} {slots rest : List HistorySlotProvenance}
    {history : HistoryDescriptor} (h : coverHistory levels slots history = .ok rest) :
    slotsBytes slots = slotBytes levels history + slotsBytes rest := by
  have hbytes := foldlM_consume slotsBytes
    (fun _ => history.depth.toNat * (80 + history.name.length)) (fun _ _ _ => coverLevel_bytes) h
  rwa [List.map_const', List.sum_replicate, List.length_range, smul_eq_mul, ← mul_assoc] at hbytes

/-- The slots of a validated state are those of its histories. -/
lemma slotsBytes_of_validate {arithmetic : CheckpointArithmetic} {state : ProgramState d}
    (h : state.validateState arithmetic = .ok ()) :
    slotsBytes state.historySlots =
      (state.histories.map (slotBytes state.levelClocks.length)).sum := by
  simp only [validateState, bind_eq_ok] at h
  obtain ⟨_, -, _, -, _, -, _, -, _, -, _, -, _, -, _, hcover, -⟩ := h
  simp only [coverSlots, bind_eq_ok, throwIf_eq_ok, not_not] at hcover
  obtain ⟨rest, hrest, rfl⟩ := hcover
  have hbytes := foldlM_consume slotsBytes (slotBytes state.levelClocks.length)
    (fun _ _ _ => coverHistory_bytes) hrest
  simpa [slotsBytes] using hbytes

/-! ## The bound -/

/-- The image up to the slots. -/
lemma histories_length_le {c : StateCapacity d} {state : ProgramState d}
    (hwithin : c.Within state)
    (hslots : slotsBytes state.historySlots =
      (state.histories.map (slotBytes state.levelClocks.length)).sum) :
    40 + state.spatialContract.length + (sequence clock state.levelClocks).length +
      (sequence writeTick state.logicalClockTicks).length +
      (sequence writeHistory state.histories).length +
      (sequence writeSlot state.historySlots).length ≤ c.historiesBytes := by
  have hspatial := hwithin.spatialContract
  have hlevels := Nat.mul_le_mul_right 40 hwithin.levels
  have hticks : (state.logicalClockTicks.map fun entry => (writeTick entry).length).sum ≤
      (c.logicalClockIdentities.map tickBytes).sum := by
    refine hwithin.clocks.sum_le fun entry identity hle => ?_
    rw [length_writeTick, tickBytes]
    omega
  have hhistories : (state.histories.map fun history => (writeHistory history).length).sum ≤
      (c.histories.map historyBytes).sum := by
    refine hwithin.histories.sum_le fun history row hrow => ?_
    obtain ⟨h₁, h₂, h₃, h₄, h₅, -⟩ := hrow
    rw [length_writeHistory, historyBytes, historyBytes]
    omega
  have hcovered : (state.historySlots.map fun slot => (writeSlot slot).length).sum ≤
      (c.histories.map (slotBytes c.levelCount)).sum := by
    simp only [length_writeSlot]
    rw [show (state.historySlots.map fun slot => 80 + slot.name.length).sum =
      slotsBytes state.historySlots from rfl, hslots]
    refine hwithin.histories.sum_le fun history row hrow => ?_
    have hdepth : history.depth.toNat ≤ row.depth.toNat := by
      have := hrow.depth
      omega
    have hname := hrow.name
    exact Nat.mul_le_mul (Nat.mul_le_mul hwithin.levels hdepth) (by omega)
  rw [length_sequence_const length_clock, length_sequence, length_sequence, length_sequence,
    historiesBytes]
  omega

/-- The image of the fragments. -/
lemma fragments_length_le {c : StateCapacity d} {state : ProgramState d}
    (hwithin : c.Within state) :
    ((List.finRange d).flatMap fun axis =>
        sequence writeFaceFragment (state.acceptedFaceFlux axis)).length +
      (sequence writeInterfaceFragment state.acceptedInterfaceFlux).length ≤ c.fragmentBytes := by
  set texts := c.faceOwnerCharacters + c.faceStateCharacters + c.faceTemporalFamilyCharacters +
    c.faceStageCharacters with htexts
  -- an axis: its words, its texts and its payloads
  have haxis : ∀ axis, (sequence writeFaceFragment (state.acceptedFaceFlux axis)).length ≤
      c.axisBytes axis + c.faceFragmentCounts axis * texts +
        ((state.acceptedFaceFlux axis).map fun fragment => fragment.payload.length).sum * 8 := by
    intro axis
    have hle : (sequence writeFaceFragment (state.acceptedFaceFlux axis)).length ≤
        8 + c.faceFragmentCounts axis * ((25 + 2 * d) * 8 + texts) +
          ((state.acceptedFaceFlux axis).map fun fragment => fragment.payload.length).sum * 8 := by
      refine length_sequence_payload_le (hwithin.faces axis) fun fragment hfragment => ?_
      have := hwithin.faceTexts axis fragment hfragment
      rw [length_writeFaceFragment]
      omega
    rw [Nat.mul_add] at hle
    rw [axisBytes]
    omega
  have hfaces : ((List.finRange d).flatMap fun axis =>
      sequence writeFaceFragment (state.acceptedFaceFlux axis)).length ≤
        ((List.finRange d).map c.axisBytes).sum + c.faceCount * texts + c.facePayloadTerms * 8 := by
    rw [List.length_flatMap]
    have hsum := List.sum_le_sum (l := List.finRange d) fun axis _ => haxis axis
    simp only [List.sum_map_add, List.sum_map_mul_right] at hsum
    have hpayload := Nat.mul_le_mul_right 8 hwithin.facePayload
    rw [faceCount]
    omega
  have hinterfaces : (sequence writeInterfaceFragment state.acceptedInterfaceFlux).length ≤
      8 + c.interfaceFragmentCount * (256 + (c.interfaceIdentityCharacters +
        c.interfaceProgramIdentityCharacters + c.interfaceStageCharacters)) +
        (state.acceptedInterfaceFlux.map fun fragment => fragment.payload.length).sum * 8 := by
    refine length_sequence_payload_le hwithin.interfaces fun fragment hfragment => ?_
    have := hwithin.interfaceTexts fragment hfragment
    rw [length_writeInterfaceFragment]
    omega
  have hpayload := Nat.mul_le_mul_right 8 hwithin.interfacePayload
  rw [Nat.mul_add] at hinterfaces
  rw [fragmentBytes, ← htexts]
  omega

/-- The first bytes of an image. -/
lemma length_magic : magic.length = 8 := by
  rw [magic, length_ofString]
  decide

/-- The length of an image, in the order in which the shape is counted. -/
lemma length_writeState (state : ProgramState d) : state.writeState.length =
    (40 + state.spatialContract.length + (sequence clock state.levelClocks).length +
      (sequence writeTick state.logicalClockTicks).length +
      (sequence writeHistory state.histories).length +
      (sequence writeSlot state.historySlots).length) +
    (sequence writePending state.pendingHistoryRemaps).length +
    (80 + state.historyFluxPayload.length + state.temporalPartition.providerIdentity.length +
      state.temporalPartition.cells.length * 32 + state.taggingHysteresisState.length +
      state.fluxBudgetContract.length + state.couplingContract.length) +
    (((List.finRange d).flatMap fun axis =>
        sequence writeFaceFragment (state.acceptedFaceFlux axis)).length +
      (sequence writeInterfaceFragment state.acceptedInterfaceFlux).length) +
    ((sequence writeEvent state.synchronizationEvents).length +
      (writeEvidence state.faceEvidenceProvenance).length) := by
  simp only [writeState, List.length_append, length_i64, length_text, length_u64, length_bytes,
    length_writeTemporalPartition, length_magic]
  ring

/-- The image of a validated state within a shape has at most the bytes of the shape. -/
theorem length_writeState_le {arithmetic : CheckpointArithmetic} {c : StateCapacity d}
    {state : ProgramState d} (hvalid : state.validateState arithmetic = .ok ())
    (hwithin : c.Within state) : state.writeState.length ≤ c.exact := by
  have hhistories := histories_length_le hwithin (slotsBytes_of_validate hvalid)
  have hfragments := fragments_length_le hwithin
  have hpending : (sequence writePending state.pendingHistoryRemaps).length ≤
      8 + c.pendingBytes := by
    refine length_sequence_le hwithin.pending fun pending hmem => ?_
    have := hwithin.pendingKey pending hmem
    rw [length_writePending]
    omega
  have hpartition : 80 + state.historyFluxPayload.length +
      state.temporalPartition.providerIdentity.length +
      state.temporalPartition.cells.length * 32 + state.taggingHysteresisState.length +
      state.fluxBudgetContract.length + state.couplingContract.length ≤ c.partitionBytes := by
    have := hwithin.payload
    have := hwithin.provider
    have := hwithin.cells
    have := hwithin.tagging
    have := hwithin.fluxBudget
    have := hwithin.coupling
    rw [partitionBytes]
    omega
  have hevents : (sequence writeEvent state.synchronizationEvents).length +
      (writeEvidence state.faceEvidenceProvenance).length ≤ c.eventBytes := by
    have hsequence : (sequence writeEvent state.synchronizationEvents).length ≤
        8 + c.synchronizationEventCount * (72 + c.synchronizationPhaseCharacters) := by
      refine length_sequence_le hwithin.events fun event hmem => ?_
      have := hwithin.eventPhase event hmem
      rw [length_writeEvent]
      omega
    have := length_writeEvidence_le hwithin.evidence
    rw [Nat.mul_add] at hsequence
    rw [eventBytes]
    omega
  rw [length_writeState, exact, Nat.add_assoc c.historiesBytes]
  exact Nat.add_le_add (Nat.add_le_add (Nat.add_le_add (Nat.add_le_add hhistories hpending)
    hpartition) hfragments) hevents

/-- Without a wrapped size, what is counted for the deferred remaps is their size. -/
lemma countedPendingBytes_eq_iff (c : StateCapacity d) :
    c.countedPendingBytes = c.pendingBytes ↔
      c.pendingHistoryRemapCount = 0 ∨ 104 + c.pendingHistoryRemapKeyCharacters ≤ sizeMax := by
  unfold countedPendingBytes pendingBytes wrappedSum sizeMax
  rw [mul_eq_mul_left_iff]
  omega

/-- **When the capacity is a bound.**  For an accepted shape, the capacity is the number of bytes of
the shape, computed without an overflow, and bounds the image of every valid state within the shape,
exactly when there are no deferred remaps or the size of one of them is a `std::size_t`. -/
theorem capacity_bounds_iff (arithmetic : CheckpointArithmetic) (c : StateCapacity d) (n : ℕ)
    (h : c.capacity = .ok n) :
    (n = c.exact ∧ ∀ state image, state.serialize arithmetic = .ok image → c.Within state →
      image.length ≤ n) ↔
      c.pendingHistoryRemapCount = 0 ∨ 104 + c.pendingHistoryRemapKeyCharacters ≤ sizeMax := by
  have hn := capacity_eq_ok h
  rw [← countedPendingBytes_eq_iff]
  constructor
  · rintro ⟨hexact, -⟩
    rw [exact] at hexact
    omega
  · intro hpending
    have hexact : n = c.exact := by
      rw [exact]
      omega
    refine ⟨hexact, fun state image himage hwithin => ?_⟩
    simp only [serialize, bind_eq_ok, pure_eq_ok] at himage
    obtain ⟨_, hvalid, rfl⟩ := himage
    rw [hexact]
    exact length_writeState_le hvalid hwithin

/-! ## A deferred remap -/

/-- Arithmetic that is exact for the quotient by one. -/
def plainArithmetic : CheckpointArithmetic where
  face := ⟨fun _ => 0, fun _ _ => 0, Binary64.isFinite, Binary64.isPositive⟩
  coupling := ⟨Binary64.isFinite, fun _ _ => true, Binary64.isPositive, fun _ _ _ => false⟩
  divide := fun bits _ => bits

/-- A history of depth two. -/
def lagHistory : HistoryDescriptor := ⟨"h", 0, "s", "p", "c", "i", 2, 1⟩

/-- The provenance of a published slot. -/
def lagSlot (level slot : ℤ) : HistorySlotProvenance :=
  ⟨"h", level, slot, 0x3FF0000000000000, true, 2, ⟨0, 0x3FF0000000000000, 1, .publication⟩⟩

/-- A state with two levels, one history and a deferred remap of it. -/
def deferredState : ProgramState 1 where
  spatialContract := "x"
  topologyEpoch := 1
  materializationGeneration := 1
  levelClocks := [⟨0, 0, ⟨0, 1⟩, 0⟩, ⟨1, 0, ⟨0, 1⟩, 0⟩]
  logicalClockTicks := [("c", 0)]
  histories := [lagHistory]
  historySlots := [lagSlot 0 0, lagSlot 0 1, lagSlot 1 0, lagSlot 1 1]
  pendingHistoryRemaps := [⟨"pops.amr.level-history.v1/1/1:h", 0, 1, 0, 0, 1, 1, 0, 1, 1,
    0x3FF0000000000000, 0x3FF0000000000000, false⟩]
  historyFluxPayload := []
  temporalPartition := ⟨.global, CellTemporal.globalTemporalPartitionProvider, 0, 0, 1, []⟩
  taggingHysteresisState := []
  fluxBudgetContract := "f"
  couplingContract := "g"
  faceEvidenceProvenance := none
  acceptedFaceFlux := fun _ => []
  acceptedInterfaceFlux := []
  synchronizationEvents := []

/-- The shape of the state, with a bound for the keys of the deferred remaps. -/
def deferredShape (keyCharacters : ℕ) : StateCapacity 1 where
  spatialContractCharacters := 1
  levelCount := 2
  logicalClockIdentities := ["c"]
  histories := [lagHistory]
  temporalProviderIdentity := CellTemporal.globalTemporalPartitionProvider
  temporalCellCount := 0
  taggingHysteresisBytes := 0
  historyFluxPayloadBytes := 0
  pendingHistoryRemapCount := 1
  pendingHistoryRemapKeyCharacters := keyCharacters
  fluxBudgetContractCharacters := 1
  couplingContractCharacters := 1
  faceFragmentCounts := fun _ => 0
  faceOwnerCharacters := 0
  faceStateCharacters := 0
  faceTemporalFamilyCharacters := 0
  faceStageCharacters := 0
  facePayloadTerms := 0
  interfaceFragmentCount := 0
  interfaceIdentityCharacters := 0
  interfaceProgramIdentityCharacters := 0
  interfaceStageCharacters := 0
  interfacePayloadTerms := 0
  synchronizationEventCount := 0
  synchronizationPhaseCharacters := 0

/-- The state is valid. -/
lemma serialize_deferredState :
    deferredState.serialize plainArithmetic = .ok deferredState.writeState := by
  have hvalid : deferredState.validateState plainArithmetic = .ok () := by decide +kernel
  rw [serialize, hvalid]
  rfl

/-- The state is within its shape. -/
lemma within_deferredShape {keyCharacters : ℕ} (h : 31 ≤ keyCharacters) :
    (deferredShape keyCharacters).Within deferredState where
  spatialContract := le_rfl
  levels := le_rfl
  clocks := ⟨["c"], List.Subperm.refl _, .cons le_rfl .nil⟩
  histories := ⟨[lagHistory], List.Subperm.refl _,
    .cons ⟨le_rfl, le_rfl, le_rfl, le_rfl, le_rfl, le_rfl⟩ .nil⟩
  pending := le_rfl
  pendingKey := by
    intro pending hpending
    rw [List.mem_singleton.mp hpending]
    exact h
  payload := le_rfl
  provider := le_rfl
  cells := le_rfl
  tagging := le_rfl
  fluxBudget := le_rfl
  coupling := le_rfl
  faces := fun _ => le_rfl
  faceTexts := fun _ _ h => absurd h List.not_mem_nil
  facePayload := le_of_eq rfl
  interfaces := le_rfl
  interfaceTexts := fun _ h => absurd h List.not_mem_nil
  interfacePayload := le_rfl
  events := le_rfl
  eventPhase := fun _ h => absurd h List.not_mem_nil
  evidence := fun _ h => by cases h

/-- A shape with room for the key bounds the state. -/
theorem capacity_bounds_deferred :
    (deferredShape 31).capacity = .ok (deferredShape 31).exact ∧
      deferredState.writeState.length ≤ (deferredShape 31).exact := by
  have hcapacity : (deferredShape 31).capacity = .ok (deferredShape 31).exact := by decide +kernel
  have hbounds := (capacity_bounds_iff plainArithmetic _ _ hcapacity).mpr (.inr (by decide +kernel))
  exact ⟨hcapacity, hbounds.2 _ _ serialize_deferredState (within_deferredShape le_rfl)⟩

/-- A shape whose remap size wraps to nothing is accepted, and the state does not fit. -/
theorem capacity_wraps :
    ∃ n image, (deferredShape (2 ^ 64 - 104)).capacity = .ok n ∧
      deferredState.serialize plainArithmetic = .ok image ∧
      (deferredShape (2 ^ 64 - 104)).Within deferredState ∧ n < image.length ∧
      n ≠ (deferredShape (2 ^ 64 - 104)).exact := by
  have hcapacity : (deferredShape (2 ^ 64 - 104)).capacity =
      .ok ((deferredShape 31).exact - 135) := by decide +kernel
  refine ⟨_, _, hcapacity, serialize_deferredState, within_deferredShape (by norm_num), ?_, ?_⟩
  · rw [length_writeState]
    decide +kernel
  · decide +kernel

end

end StateCapacity

end Pops
