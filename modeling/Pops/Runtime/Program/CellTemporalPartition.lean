import Pops.Foundation.MachineInt

/-!
# Cell-local temporal partitions

`BatchedCellTemporalPartition` (`runtime/program/cell_temporal_partition.hpp`) owns the accepted
clocks of all cells and the clocks of one attempt.  A cell of rung `r` advances in steps of `2 ^ r`
ticks; an accepted image is a synchronization barrier, with every cell at the same tick.

An operation that throws may have changed the attempt before, so every operation returns the
partition that it leaves together with its outcome.

## Main definitions

* `Pops.CellTemporal.AcceptedState`, `validate` — accepted images.
* `Pops.CellTemporal.Partition` and its `beginAttempt`, `advanceBatch`, `requireBarrier`, `commit`
  and `rollback`.

## Main results

* `Pops.CellTemporal.validate_eq_ok` — what a validated image of cell clocks is.
* `Pops.CellTemporal.Valid.moveTo` — a validated image stays valid at another aligned tick.
* `Pops.CellTemporal.Partition.beginAttempt_eq_ok` — the targets that an attempt accepts.
-/

namespace Pops.CellTemporal

/-- `kGlobalTemporalPartitionProvider`: the provider of a single global partition. -/
def globalTemporalPartitionProvider : String := "pops.temporal-partition.global@1"

/-- `TemporalPartitionKind`: the two kinds, and every other value of the underlying type. -/
inductive TemporalPartitionKind
  | global
  | cellLocal
  | unsupported (code : ℕ)
  deriving DecidableEq, Repr

/-- `CellTemporalPartitionRecord`: a cell of a level with its rung and its accepted tick. -/
structure Record where
  level : ℤ
  cell : ℕ
  rung : ℤ
  acceptedTick : ℤ
  deriving DecidableEq, Repr

/-- `CellTemporalPartitionAcceptedState`: the accepted records, with the epoch and the tick they
stand at. -/
structure AcceptedState where
  kind : TemporalPartitionKind
  providerIdentity : String
  topologyEpoch : ℕ
  synchronizationTick : ℤ
  tickDenominator : ℤ
  cells : List Record
  deriving DecidableEq, Repr

/-- `std::int64_t{1} << rung`. -/
def stride (rung : ℤ) : ℤ := 2 ^ rung.toNat

/-- A stride is positive. -/
lemma stride_pos (rung : ℤ) : 0 < stride rung := by
  unfold stride
  positivity

/-- The lexicographic order of `std::tuple<int, std::uint64_t>`. -/
def IdentityLt (previous identity : ℤ × ℕ) : Prop :=
  previous.1 < identity.1 ∨ (previous.1 = identity.1 ∧ previous.2 < identity.2)

instance (previous identity : ℤ × ℕ) : Decidable (IdentityLt previous identity) :=
  inferInstanceAs (Decidable (_ ∨ _))

/-- A record does not follow the record before it, if there is one. -/
def OutOfOrder (previous : Option (ℤ × ℕ)) (identity : ℤ × ℕ) : Prop :=
  ∃ before, previous = some before ∧ ¬ IdentityLt before identity

instance (previous : Option (ℤ × ℕ)) (identity : ℤ × ℕ) :
    Decidable (OutOfOrder previous identity) :=
  match previous with
  | none => isFalse fun ⟨_, h, _⟩ => by cases h
  | some before =>
    decidable_of_iff (¬ IdentityLt before identity) (by simp [OutOfOrder])

/-- One record in the loop of `validate_cell_temporal_partition_state`, with the identity of the
record before it. -/
def validateRecord (synchronizationTick : ℤ) (previous : Option (ℤ × ℕ)) (cell : Record) :
    Throws (Option (ℤ × ℕ)) := do
  throwIf (cell.level < 0 ∨ cell.rung < 0 ∨ cell.rung > 30 ∨ cell.acceptedTick < 0)
    (invalidArgument "temporal partition cell record is outside its bounded domain")
  throwIf (OutOfOrder previous (cell.level, cell.cell))
    (invalidArgument "temporal partition cell records must be unique and canonically ordered")
  throwIf (cell.acceptedTick ≠ synchronizationTick)
    (invalidArgument "temporal partition accepted checkpoint is not at a synchronization barrier")
  throwIf (cell.acceptedTick.tmod (stride cell.rung) ≠ 0)
    (invalidArgument "temporal partition accepted tick is not aligned to its cell rung")
  pure (some (cell.level, cell.cell))

/-- The loop of `validate_cell_temporal_partition_state`. -/
def validateCells (state : AcceptedState) : Throws Unit := do
  let _ ← state.cells.foldlM (validateRecord state.synchronizationTick) none
  pure ()

/-- The checks of `validate_cell_temporal_partition_state` for a kind. -/
def validateKind (state : AcceptedState) : Throws Unit :=
  match state.kind with
  | .global =>
    throwIf (state.providerIdentity ≠ globalTemporalPartitionProvider ∨ state.topologyEpoch ≠ 0 ∨
        state.cells ≠ [])
      (invalidArgument "global temporal partition state cannot carry topology or cell-local clocks")
  | .unsupported _ =>
    .error (invalidArgument "temporal partition state has an unsupported kind")
  | .cellLocal => do
    throwIf (state.providerIdentity = globalTemporalPartitionProvider ∨ state.cells = [])
      (invalidArgument
        "cell-local temporal partition state requires its prepared provider and cell clocks")
    validateCells state

/-- `validate_cell_temporal_partition_state`: the clock is valid, and the records fit the kind. -/
def validate (state : AcceptedState) : Throws Unit := do
  throwIf (state.providerIdentity = "")
    (invalidArgument "temporal partition provider identity cannot be empty")
  throwIf (state.synchronizationTick < 0 ∨ state.tickDenominator ≤ 0)
    (invalidArgument ("temporal partition accepted clock requires non-negative ticks and a " ++
      "positive denominator"))
  validateKind state

/-! ## Attempts -/

/-- `BatchedCellTemporalPartition`: an accepted state with the attempt in flight. -/
structure Partition where
  accepted : AcceptedState
  pendingTicks : List ℤ
  targetTick : ℤ
  attemptActive : Bool
  deriving DecidableEq, Repr

/-- The behaviour of a signed addition that overflows is undefined: the program ends. -/
def signedOverflow : Exception := ⟨.terminate, "signed integer overflow"⟩

/-- A sum of ticks in `std::int64_t`. -/
def tickSum (a b : ℤ) : Throws ℤ := do
  throwIf (¬ IsInt64 (a + b)) signedOverflow
  pure (a + b)

/-- A difference of ticks in `std::int64_t`. -/
def tickDifference (a b : ℤ) : Throws ℤ := do
  throwIf (¬ IsInt64 (a - b)) signedOverflow
  pure (a - b)

namespace Partition

/-- The constructor of `BatchedCellTemporalPartition`. -/
def create (accepted : AcceptedState) : Throws Partition := do
  validate accepted
  pure ⟨accepted, [], 0, false⟩

/-- `clear_attempt_`, the body of `rollback`. -/
def rollback (p : Partition) : Partition := ⟨p.accepted, [], 0, false⟩

/-- One record in the loop of `begin_attempt`. -/
def checkTarget (target : ℤ) (cell : Record) : Throws Unit := do
  let distance ← tickDifference target cell.acceptedTick
  throwIf (distance.tmod (stride cell.rung) ≠ 0)
    (invalidArgument "temporal partition attempt target is unreachable for one prepared rung")

/-- The loop of `begin_attempt`: its outcome, and the clocks pushed so far. -/
def pushPending (target : ℤ) : List Record → List ℤ → Throws Unit × List ℤ
  | [], pending => (.ok (), pending)
  | cell :: cells, pending =>
    match checkTarget target cell with
    | .error e => (.error e, pending)
    | .ok () => pushPending target cells (pending ++ [cell.acceptedTick])

/-- `begin_attempt`: open an attempt at a later tick. -/
def beginAttempt (p : Partition) (target : ℤ) : Throws Unit × Partition :=
  if p.attemptActive then
    (.error (logicError "temporal partition attempt is already active"), p)
  else if target ≤ p.accepted.synchronizationTick then
    (.error (invalidArgument "temporal partition attempt target must advance accepted time"), p)
  else
    match pushPending target p.accepted.cells [] with
    | (.error e, pending) => (.error e, ⟨p.accepted, pending, p.targetTick, p.attemptActive⟩)
    | (.ok (), pending) => (.ok (), ⟨p.accepted, pending, target, true⟩)

/-- An index does not follow the index before it, if there is one. -/
def NotIncreasing (previous : Option ℕ) (index : ℕ) : Prop :=
  ∃ before, previous = some before ∧ index ≤ before

instance (previous : Option ℕ) (index : ℕ) : Decidable (NotIncreasing previous index) :=
  match previous with
  | none => isFalse fun ⟨_, h, _⟩ => by cases h
  | some before => decidable_of_iff (index ≤ before) (by simp [NotIncreasing])

/-- The check of the clock of one record in `advance_batch`. -/
def checkForward (target tick step : ℤ) : Throws Unit :=
  if target ≤ tick then
    .error (invalidArgument "temporal partition batch target is not a forward rung-aligned tick")
  else do
    let distance ← tickDifference target tick
    throwIf (distance.tmod step ≠ 0)
      (invalidArgument "temporal partition batch target is not a forward rung-aligned tick")

/-- One index in the first loop of `advance_batch`, with the index before it. -/
def checkIndex (p : Partition) (rung target : ℤ) (previous : Option ℕ) (index : ℕ) :
    Throws (Option ℕ) :=
  match p.accepted.cells[index]? with
  | none =>
    .error (invalidArgument
      "temporal partition batch indices must be unique and canonically ordered")
  | some cell => do
    throwIf (NotIncreasing previous index)
      (invalidArgument "temporal partition batch indices must be unique and canonically ordered")
    throwIf (cell.rung ≠ rung)
      (invalidArgument "temporal partition batch mixes prepared rungs")
    checkForward target (p.pendingTicks.getD index 0) (stride cell.rung)
    pure (some index)

/-- The checks of `advance_batch`. -/
def checkBatch (p : Partition) (rung : ℤ) (indices : List ℕ) (target : ℤ) : Throws Unit := do
  throwIf (p.attemptActive = false)
    (logicError "temporal partition batch requires an active attempt")
  throwIf (indices = []) (invalidArgument "temporal partition batch cannot be empty")
  throwIf (target > p.targetTick)
    (invalidArgument "temporal partition batch crosses its synchronization target")
  let _ ← indices.foldlM (p.checkIndex rung target) none
  pure ()

/-- `advance_batch`: advance the listed records of one rung to a tick. -/
def advanceBatch (p : Partition) (rung : ℤ) (indices : List ℕ) (target : ℤ) :
    Throws Unit × Partition :=
  match p.checkBatch rung indices target with
  | .error e => (.error e, p)
  | .ok () =>
    (.ok (),
      ⟨p.accepted, indices.foldl (fun pending index => pending.set index target) p.pendingTicks,
      p.targetTick, p.attemptActive⟩)

/-- `require_barrier`: every record has reached the target of an open attempt. -/
def requireBarrier (p : Partition) (operation : String) : Throws Unit :=
  throwIf (p.attemptActive = true ∧ ∃ tick ∈ p.pendingTicks, tick ≠ p.targetTick)
    (logicError (operation ++ " requires every cell-local clock at the synchronization barrier"))

/-- `commit`: the pending ticks become accepted ones. -/
def commit (p : Partition) : Throws Partition := do
  throwIf (p.attemptActive = false)
    (logicError "temporal partition commit requires an active attempt")
  p.requireBarrier "temporal partition commit"
  pure ⟨⟨p.accepted.kind, p.accepted.providerIdentity, p.accepted.topologyEpoch, p.targetTick,
    p.accepted.tickDenominator,
    List.zipWith (fun cell tick => ⟨cell.level, cell.cell, cell.rung, tick⟩) p.accepted.cells
      p.pendingTicks⟩, [], 0, false⟩

/-- `require_prepared_execution_route`: a global partition takes no provider, and a cell-local one
takes its own. -/
def requirePreparedExecutionRoute (p : Partition) (preparedProviderIdentity : String) :
    Throws Unit :=
  if p.accepted.kind = .global then
    throwIf (preparedProviderIdentity ≠ "")
      (logicError "global temporal partition cannot consume a cell-local prepared executor")
  else do
    throwIf (preparedProviderIdentity = "")
      (logicError ("cell-local temporal partition requires a prepared local-stage and " ++
        "time-integrated flux-ledger executor; the global AMR step cannot silently replace it"))
    throwIf (preparedProviderIdentity ≠ p.accepted.providerIdentity)
      (logicError ("cell-local temporal partition prepared-provider identity does not match its " ++
        "accepted checkpoint"))

end Partition

/-! ## Validated images -/

/-- The identity of a record. -/
def Record.identity (cell : Record) : ℤ × ℕ := (cell.level, cell.cell)

/-- The identities follow one another, after the one before them if there is one. -/
def Ordered : Option (ℤ × ℕ) → List (ℤ × ℕ) → Prop
  | _, [] => True
  | previous, identity :: identities =>
    ¬ OutOfOrder previous identity ∧ Ordered (some identity) identities

/-- A record of a validated image at a tick. -/
structure RecordOk (tick : ℤ) (cell : Record) : Prop where
  level : 0 ≤ cell.level
  rung : 0 ≤ cell.rung ∧ cell.rung ≤ 30
  aligned : stride cell.rung ∣ tick
  tick : cell.acceptedTick = tick

/-- A validated image of cell clocks. -/
structure Valid (state : AcceptedState) : Prop where
  kind : state.kind = .cellLocal
  named : state.providerIdentity ≠ ""
  prepared : state.providerIdentity ≠ globalTemporalPartitionProvider
  tick : 0 ≤ state.synchronizationTick
  denominator : 0 < state.tickDenominator
  nonempty : state.cells ≠ []
  records : ∀ cell ∈ state.cells, RecordOk state.synchronizationTick cell
  ordered : Ordered none (state.cells.map Record.identity)

/-- A truncated remainder by a stride is zero exactly at the multiples of the stride. -/
lemma tmod_stride_eq_zero {tick rung : ℤ} :
    tick.tmod (stride rung) = 0 ↔ stride rung ∣ tick :=
  (Int.dvd_iff_tmod_eq_zero).symm

/-- The loop of the validation passes exactly when every record is in its domain and the records
are ordered. -/
lemma validateCells_loop {tick : ℤ} (htick : 0 ≤ tick) (cells : List Record)
    (previous : Option (ℤ × ℕ)) :
    (∃ last, cells.foldlM (validateRecord tick) previous = .ok last) ↔
      (∀ cell ∈ cells, RecordOk tick cell) ∧ Ordered previous (cells.map Record.identity) := by
  induction cells generalizing previous with
  | nil => simp [Ordered, pure, Except.pure]
  | cons cell cells ih =>
    have hrecord : ∀ next, validateRecord tick previous cell = .ok next ↔
        (RecordOk tick cell ∧ ¬ OutOfOrder previous cell.identity) ∧ next = some cell.identity := by
      intro next
      simp only [validateRecord, bind_eq_ok, throwIf_eq_ok, pure_eq_ok, exists_const, not_or,
        not_lt, not_not, gt_iff_lt, ne_eq, tmod_stride_eq_zero]
      constructor
      · rintro ⟨⟨hlevel, hrung, hrung', -⟩, horder, htick, haligned, rfl⟩
        exact ⟨⟨⟨hlevel, ⟨hrung, hrung'⟩, htick ▸ haligned, htick⟩, horder⟩, rfl⟩
      · rintro ⟨⟨⟨hlevel, hrung, haligned, hcell⟩, horder⟩, rfl⟩
        exact ⟨⟨hlevel, hrung.1, hrung.2, hcell ▸ htick⟩, horder, hcell, hcell ▸ haligned, rfl⟩
    simp only [List.foldlM_cons, bind_eq_ok, List.forall_mem_cons, List.map_cons, Ordered]
    constructor
    · rintro ⟨last, next, hnext, hloop⟩
      obtain ⟨⟨hcell, horder⟩, rfl⟩ := (hrecord next).mp hnext
      obtain ⟨hcells, hordered⟩ := (ih _).mp ⟨last, hloop⟩
      exact ⟨⟨hcell, hcells⟩, horder, hordered⟩
    · rintro ⟨⟨hcell, hcells⟩, horder, hordered⟩
      obtain ⟨last, hloop⟩ := (ih (some cell.identity)).mpr ⟨hcells, hordered⟩
      exact ⟨last, _, (hrecord _).mpr ⟨⟨hcell, horder⟩, rfl⟩, hloop⟩

/-- The validation of an image of cell clocks passes exactly on the valid ones. -/
theorem validate_eq_ok {state : AcceptedState} (hkind : state.kind = .cellLocal) :
    validate state = .ok () ↔ Valid state := by
  simp only [validate, validateKind, hkind, bind_eq_ok, throwIf_eq_ok, exists_const, not_or,
    not_lt, not_le, validateCells, pure_eq_ok]
  constructor
  · rintro ⟨hnamed, ⟨htick, hdenominator⟩, ⟨hprepared, hnonempty⟩, hloop⟩
    obtain ⟨last, hloop, -⟩ := hloop
    obtain ⟨hrecords, hordered⟩ := (validateCells_loop htick _ _).mp ⟨last, hloop⟩
    exact ⟨hkind, hnamed, hprepared, htick, hdenominator, hnonempty, hrecords, hordered⟩
  · intro h
    obtain ⟨last, hloop⟩ := (validateCells_loop h.tick _ _).mpr ⟨h.records, h.ordered⟩
    exact ⟨h.named, ⟨h.tick, h.denominator⟩, ⟨h.prepared, h.nonempty⟩, last, hloop, trivial⟩

/-- An image with all its clocks moved to another tick. -/
def AcceptedState.moveTo (state : AcceptedState) (tick : ℤ) : AcceptedState :=
  ⟨state.kind, state.providerIdentity, state.topologyEpoch, tick, state.tickDenominator,
    state.cells.map fun cell => ⟨cell.level, cell.cell, cell.rung, tick⟩⟩

/-- A valid image stays valid at another tick that all its rungs can reach. -/
theorem Valid.moveTo {state : AcceptedState} (h : Valid state) {tick : ℤ} (htick : 0 ≤ tick)
    (haligned : ∀ cell ∈ state.cells, stride cell.rung ∣ tick) : Valid (state.moveTo tick) := by
  refine ⟨h.kind, h.named, h.prepared, htick, h.denominator, ?_, ?_, ?_⟩
  · simpa [AcceptedState.moveTo] using h.nonempty
  · intro cell hcell
    obtain ⟨old, hold, rfl⟩ := List.mem_map.mp hcell
    have hrecord := h.records old hold
    exact ⟨hrecord.level, hrecord.rung, haligned old hold, rfl⟩
  · have hidentity : (state.moveTo tick).cells.map Record.identity =
        state.cells.map Record.identity := by
      simp [AcceptedState.moveTo, Record.identity, Function.comp_def]
    rw [hidentity]
    exact h.ordered

/-- Two valid images of one prepared authority differ in their tick only. -/
lemma Valid.eq_moveTo {current next : AcceptedState} (hnext : Valid next)
    (hkind : next.kind = current.kind)
    (hprovider : next.providerIdentity = current.providerIdentity)
    (hepoch : next.topologyEpoch = current.topologyEpoch)
    (hdenominator : next.tickDenominator = current.tickDenominator)
    (hcells : List.Forall₂ (fun restored prepared : Record => restored.level = prepared.level ∧
      restored.cell = prepared.cell ∧ restored.rung = prepared.rung) next.cells current.cells) :
    next = current.moveTo next.synchronizationTick := by
  have hlist : next.cells = current.cells.map fun cell =>
      ⟨cell.level, cell.cell, cell.rung, next.synchronizationTick⟩ := by
    have hticks : ∀ cell ∈ next.cells, cell.acceptedTick = next.synchronizationTick :=
      fun cell hcell => (hnext.records cell hcell).tick
    generalize next.cells = cells, current.cells = prepareds at hcells hticks
    induction hcells with
    | nil => rfl
    | @cons restored prepared cells prepareds hrecord hrest ih =>
      obtain ⟨hlevel, hcell, hrung⟩ := hrecord
      rw [List.map_cons, ih fun cell hcell => hticks cell (by simp [hcell])]
      have htick := hticks restored (by simp)
      rw [← hlevel, ← hcell, ← hrung, ← htick]
  obtain ⟨kind, provider, epoch, tick, denominator, cells⟩ := next
  simp only at hkind hprovider hepoch hdenominator hlist
  subst hkind hprovider hepoch hdenominator
  rw [hlist]
  rfl

/-! ## The targets of an attempt -/

/-- A difference of two ticks that are not negative is in range. -/
lemma tickDifference_of_le {a b : ℤ} (hb : 0 ≤ b) (hba : b ≤ a) (ha : a ≤ int64Max) :
    tickDifference a b = .ok (a - b) := by
  simp only [tickDifference, bind_eq_ok, throwIf_eq_ok, exists_const, pure_eq_ok, and_true, not_not]
  constructor
  · unfold int64Min
    omega
  · omega

/-- A sum of two ticks within the range. -/
lemma tickSum_of_le {a b : ℤ} (ha : 0 ≤ a) (hb : 0 ≤ b) (hab : a + b ≤ int64Max) :
    tickSum a b = .ok (a + b) := by
  simp only [tickSum, bind_eq_ok, throwIf_eq_ok, exists_const, pure_eq_ok, and_true, not_not]
  constructor
  · unfold int64Min
    omega
  · exact hab

/-- The loop of `begin_attempt` passes exactly when every rung reaches the target, and then it has
pushed every clock. -/
lemma Partition.pushPending_eq_ok {target : ℤ} (cells : List Record) (pending pending' : List ℤ) :
    Partition.pushPending target cells pending = (.ok (), pending') ↔
      (∀ cell ∈ cells, Partition.checkTarget target cell = .ok ()) ∧
        pending' = pending ++ cells.map Record.acceptedTick := by
  induction cells generalizing pending with
  | nil => simp [Partition.pushPending, eq_comm (b := pending')]
  | cons cell cells ih =>
    simp only [Partition.pushPending]
    cases hcell : Partition.checkTarget target cell with
    | error e => simp [hcell]
    | ok u => simp [hcell, ih]

/-- The targets that an attempt accepts: they lie ahead, and every rung reaches them. -/
theorem Partition.beginAttempt_eq_ok {p p' : Partition} {target : ℤ}
    (h : p.beginAttempt target = (.ok (), p')) :
    p.attemptActive = false ∧ p.accepted.synchronizationTick < target ∧
      (∀ cell ∈ p.accepted.cells, Partition.checkTarget target cell = .ok ()) ∧
      p' = ⟨p.accepted, p.accepted.cells.map Record.acceptedTick, target, true⟩ := by
  unfold Partition.beginAttempt at h
  split_ifs at h with hactive htarget
  · cases h
  · cases h
  · cases hpush : Partition.pushPending target p.accepted.cells [] with
    | mk outcome pending =>
      rw [hpush] at h
      cases outcome with
      | error e => simp at h
      | ok u =>
        obtain ⟨hcheck, hpending⟩ := (Partition.pushPending_eq_ok _ _ _).mp hpush
        simp only [List.nil_append] at hpending
        simp only [Prod.mk.injEq, true_and] at h
        subst hpending
        exact ⟨by simpa using hactive, by omega, hcheck, h.symm⟩

/-- A target that a rung reaches is a multiple of its stride. -/
lemma Partition.stride_dvd_target {target tick : ℤ} {cell : Record} (hcell : RecordOk tick cell)
    (h : Partition.checkTarget target cell = .ok ()) : stride cell.rung ∣ target := by
  simp only [Partition.checkTarget, tickDifference, bind_eq_ok, throwIf_eq_ok, exists_const,
    pure_eq_ok, not_not, ne_eq, tmod_stride_eq_zero] at h
  obtain ⟨_, ⟨-, rfl⟩, hdvd⟩ := h
  have haligned := hcell.aligned
  rw [hcell.tick] at hdvd
  have hsum := dvd_add hdvd haligned
  rwa [Int.sub_add_cancel] at hsum

/-- What an attempt leaves of a partition when its preparation throws. -/
lemma Partition.rollback_beginAttempt (p : Partition) (target : ℤ) :
    (p.beginAttempt target).2.rollback = p.rollback := by
  unfold Partition.beginAttempt
  split_ifs
  · rfl
  · rfl
  · split <;> rfl

end Pops.CellTemporal
