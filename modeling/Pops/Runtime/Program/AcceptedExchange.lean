import Pops.Amr.Levels.Rational
import Pops.Foundation.Binary64
import Pops.Foundation.ByteReader
import Pops.Foundation.DecimalText
import Pops.Foundation.Method

/-!
# The mailbox of accepted exchanges

`AcceptedExchangeLedger` collects the exchanges that an accepted temporal quadrature selects.  Every
record carries four identities, which are its key; the ledger keeps the records in staging order and
an index of their keys.  A batch that fails on some rank is undone by restoring the size, and the
whole ledger is written to and read from a canonical byte image.  Values of type `double` are kept
as their bits.

## Main definitions

* `Pops.ExchangeRecord` — a record, its key and its check.
* `Pops.ExchangeRecord.qualifyRuntimePoint` — the context of a record at a runtime point.
* `Pops.AcceptedExchangeLedger` — the ledger with its operations `stage`, `restoreSize`, `clear`,
  `stageExchangeBatch`, `checkpoint` and `fromCheckpoint`.
* `Pops.AcceptedExchangeLedger.Operation` — the operations of a run.
-/

namespace Pops

/-! ## Texts -/

/-- The largest size of an object of the target. -/
def objectMaxSize : ℕ := 2 ^ 63 - 1

/-- A `std::string`. -/
abbrev Text := { bytes : List Byte // bytes.length ≤ objectMaxSize }

/-- The construction of a `std::string`, which throws when the text is too long. -/
def Text.create (bytes : List Byte) : Throws Text :=
  if h : bytes.length ≤ objectMaxSize then .ok ⟨bytes, h⟩
  else .error (lengthError "basic_string::_M_create")

/-- A text is created from its bytes and from nothing else. -/
@[simp] lemma Text.create_eq_ok {bytes : List Byte} {text : Text} :
    Text.create bytes = .ok text ↔ bytes = text.val := by
  unfold Text.create
  split_ifs with h
  · rw [Except.ok.injEq, Subtype.ext_iff]
  · simp only [false_iff]
    rintro rfl
    exact h text.property

/-! ## Records -/

/-- `std::bit_cast<std::uint64_t>` of a `std::int64_t`. -/
def bitsOfInt64 (value : ℤ) : UInt64 := UInt64.ofNat (value % 2 ^ 64).toNat

/-- `std::bit_cast<std::int64_t>` of a `std::uint64_t`. -/
def int64OfBits (bits : UInt64) : ℤ := Int.bmod bits.toNat (2 ^ 64)

/-- One mathematical occurrence selected by the accepted temporal quadrature. -/
structure ExchangeRecord where
  operationIdentity : Text
  occurrenceIdentity : Text
  evaluationContext : Text
  quadratureIdentity : Text
  orientation : ℤ
  faceMeasure : Binary64
  numericalFlux : Binary64
  temporalWeight : Binary64
  multiplicity : ℤ
  orientation_isInt : IsInt orientation
  multiplicity_isInt : IsInt multiplicity
  deriving DecidableEq

/-- A point of a run, as far as the qualification of a record reads it. -/
structure BoundaryEvaluationPoint where
  clock : Text
  tick : ℤ
  level : ℤ
  substep : ℤ
  stage : ℤ
  stageFraction : Rational
  dt : Binary64
  physicalTime : Binary64
  deriving DecidableEq

namespace ExchangeRecord

/-- The four identities that tell a record from every other. -/
abbrev Key := Text × Text × Text × Text

/-- The key of a record. -/
def key (record : ExchangeRecord) : Key :=
  (record.operationIdentity, record.occurrenceIdentity, record.evaluationContext,
    record.quadratureIdentity)

/-- The magnitude of the integrated amount, if no product overflows. -/
def integratedAmount (record : ExchangeRecord) : Option Binary64.Magnitude := do
  let measure ← (Binary64.Magnitude.ofInt record.orientation).mul
    (← Binary64.magnitude record.faceMeasure)
  let flux ← measure.mul (← Binary64.magnitude record.numericalFlux)
  let weighted ← flux.mul (← Binary64.magnitude record.temporalWeight)
  weighted.mul (Binary64.Magnitude.ofInt record.multiplicity)

/-- `validate`: the identities are there, the orientation is a sign, and the numbers are finite. -/
def validate (record : ExchangeRecord) : Throws Unit := do
  throwIf (record.operationIdentity.val = [] ∨ record.occurrenceIdentity.val = [] ∨
      record.evaluationContext.val = [] ∨ record.quadratureIdentity.val = [])
    (invalidArgument
      "exchange record requires exact operation/occurrence/context/quadrature identities")
  throwIf ((record.orientation ≠ -1 ∧ record.orientation ≠ 1) ∨ record.multiplicity ≤ 0 ∨
      ¬ Binary64.isFinite record.faceMeasure ∨ ¬ Binary64.isPositive record.faceMeasure ∨
      ¬ Binary64.isFinite record.numericalFlux ∨ ¬ Binary64.isFinite record.temporalWeight ∨
      record.integratedAmount = none)
    (invalidArgument "exchange record has invalid orientation, measure, weight or multiplicity")

/-- The text that qualifies a context by a runtime point. -/
def frameText (point : BoundaryEvaluationPoint) (context : List Byte) : List Byte :=
  ascii "pops.exchange.frame.v1/" ++ (sizedText point.clock.val ++ 47 ::
    (decimalText point.tick ++ 47 :: (decimalText point.level ++ 47 ::
      (decimalText point.substep ++ 47 :: (decimalText point.stage ++ 47 ::
        (decimalText point.stageFraction.numerator ++ 47 ::
          (decimalText point.stageFraction.denominator ++ 47 ::
            (decimalText point.dt.toNat ++ 47 :: (decimalText point.physicalTime.toNat ++ 47 ::
              sizedText context)))))))))

/-- `qualify_runtime_point`: put the evaluation point in front of the context of the record. -/
def qualifyRuntimePoint (record : ExchangeRecord) (point : BoundaryEvaluationPoint) :
    Throws ExchangeRecord := do
  throwIf (point.clock.val = [] ∨ point.tick < 0 ∨ point.level < 0 ∨ point.substep < 0 ∨
      point.stage < 0 ∨ point.stageFraction.less ⟨0, 1⟩ = some true ∨
      Rational.less ⟨1, 1⟩ point.stageFraction = some true ∨ ¬ Binary64.isFinite point.dt ∨
      ¬ Binary64.isPositive point.dt ∨ ¬ Binary64.isFinite point.physicalTime)
    (invalidArgument "accepted exchange requires a complete runtime evaluation point")
  let context ← Text.create (frameText point record.evaluationContext.val)
  pure { record with evaluationContext := context }

/-! ### Byte image -/

/-- The bytes of a record. -/
def write (record : ExchangeRecord) : List Byte :=
  Reader.writeText record.operationIdentity.val ++
    (Reader.writeText record.occurrenceIdentity.val ++
      (Reader.writeText record.evaluationContext.val ++
        (Reader.writeText record.quadratureIdentity.val ++
          (Reader.writeWord (bitsOfInt64 record.orientation) ++
            (Reader.writeWord record.faceMeasure ++ (Reader.writeWord record.numericalFlux ++
              (Reader.writeWord record.temporalWeight ++
                Reader.writeWord (bitsOfInt64 record.multiplicity))))))))

/-- The error of an image that ends too early. -/
def truncated : Exception := invalidArgument "accepted exchange checkpoint is truncated"

/-- A text of the image. -/
def readText : Reader Text := do
  let bytes ← Reader.text truncated
    (invalidArgument "accepted exchange checkpoint text exceeds its byte image")
  Reader.call (Text.create bytes)

/-- A record of the image. -/
def read : Reader ExchangeRecord := do
  let operation ← readText
  let occurrence ← readText
  let context ← readText
  let quadrature ← readText
  let orientation ← Reader.word truncated
  Reader.call (throwIf (int64OfBits orientation ≠ -1 ∧ int64OfBits orientation ≠ 1)
    (invalidArgument "accepted exchange checkpoint has an invalid orientation"))
  let faceMeasure ← Reader.word truncated
  let numericalFlux ← Reader.word truncated
  let temporalWeight ← Reader.word truncated
  let multiplicity ← Reader.word truncated
  Reader.call (throwIf (multiplicity.toNat = 0 ∨ multiplicity.toNat > intMax.toNat)
    (invalidArgument "accepted exchange checkpoint has an invalid multiplicity"))
  pure ⟨operation, occurrence, context, quadrature, castInt (int64OfBits orientation), faceMeasure,
    numericalFlux, temporalWeight, castInt multiplicity.toNat, isInt_castInt _, isInt_castInt _⟩

end ExchangeRecord

/-! ## The ledger -/

/-- The records in staging order and the index of their keys. -/
@[ext] structure AcceptedExchangeLedger where
  records : List ExchangeRecord
  keys : Finset ExchangeRecord.Key
  deriving DecidableEq

/-- Which of the two allocations of a staging succeed: the node of the index, and the growth of the
vector. -/
structure Allocation where
  node : Bool
  growth : Bool

namespace AcceptedExchangeLedger

/-- The ledger without records. -/
def empty : AcceptedExchangeLedger := ⟨[], ∅⟩

/-- `std::bad_alloc`. -/
def badAlloc : Exception := runtimeError "std::bad_alloc"

instance (key : ExchangeRecord.Key) :
    DecidablePred fun ledger : AcceptedExchangeLedger => key ∈ ledger.keys :=
  fun ledger => Finset.decidableMem key ledger.keys

/-- `keys_.emplace(key)`, which throws when the key is present. -/
def emplace (key : ExchangeRecord.Key) (allocation : Allocation) :
    Method AcceptedExchangeLedger PUnit := do
  Method.require (fun _ => allocation.node = false) badAlloc
  Method.require (fun ledger : AcceptedExchangeLedger => key ∈ ledger.keys)
    (invalidArgument "duplicate accepted exchange occurrence/quadrature contribution")
  Method.update fun ledger => { ledger with keys := insert key ledger.keys }

/-- `records_.push_back(record)`. -/
def pushBack (record : ExchangeRecord) (allocation : Allocation) :
    Method AcceptedExchangeLedger PUnit := do
  Method.require (fun ledger : AcceptedExchangeLedger => objectMaxSize ≤ ledger.records.length)
    (lengthError "vector::_M_realloc_append")
  Method.require (fun _ => allocation.growth = false) badAlloc
  Method.update fun ledger => { ledger with records := ledger.records ++ [record] }

/-- `stage`: record a valid exchange; its key is taken back if the record cannot be appended. -/
def stage (record : ExchangeRecord) (allocation : Allocation) :
    Method AcceptedExchangeLedger PUnit := do
  let _ ← Method.call (record.validate.map fun _ => PUnit.unit)
  emplace record.key allocation
  (pushBack record allocation).undoing fun ledger =>
    { ledger with keys := ledger.keys.erase record.key }

/-- One round of `restore_size`: the last record goes, with its key. -/
def popBack (ledger : AcceptedExchangeLedger) : AcceptedExchangeLedger :=
  match ledger.records.getLast? with
  | none => ledger
  | some record => ⟨ledger.records.dropLast, ledger.keys.erase record.key⟩

/-- `restore_size`: as many rounds as there are records beyond the size. -/
def restoreSize (size : ℕ) (ledger : AcceptedExchangeLedger) : AcceptedExchangeLedger :=
  popBack^[ledger.records.length - size] ledger

/-- `clear`: forget every record. -/
def clear (_ : AcceptedExchangeLedger) : AcceptedExchangeLedger := empty

/-- The loop over the records of a batch. -/
def stageEach : List (ExchangeRecord × Allocation) → Method AcceptedExchangeLedger PUnit
  | [] => pure PUnit.unit
  | (record, allocation) :: rest => do
    stage record allocation
    stageEach rest

/-- `stage_exchange_batch_collectively` on one rank.  `peers` is what the lane throws because of a
failure of another rank. -/
def stageExchangeBatch (records : List (ExchangeRecord × Allocation)) (peers : Option Exception) :
    Method AcceptedExchangeLedger PUnit := fun ledger =>
  match stageEach records ledger, peers with
  | (.ok _, staged), none => (.ok PUnit.unit, staged)
  | (.error e, staged), none => (.error e, restoreSize ledger.records.length staged)
  | (_, staged), some e => (.error e, restoreSize ledger.records.length staged)

/-! ### Byte image -/

/-- The first eight bytes of an image. -/
def magic : List Byte := ascii "POPSEX01"

/-- `checkpoint`: the bytes of the records, in order. -/
def checkpoint (ledger : AcceptedExchangeLedger) : Throws (List Byte) := do
  let images ← ledger.records.mapM fun record => do
    record.validate
    pure record.write
  pure (magic ++ (Reader.writeWord (UInt64.ofNat ledger.records.length) ++ images.flatten))

/-- The loop over the records of an image, staged one by one. -/
def readRecords (allocation : ℕ → Allocation) :
    ℕ → AcceptedExchangeLedger → Reader AcceptedExchangeLedger
  | 0, ledger => pure ledger
  | count + 1, ledger => do
    let record ← ExchangeRecord.read
    let ledger' ← Reader.call ((stage record (allocation ledger.records.length)).run ledger)
    readRecords allocation count ledger'

/-- The image behind its first eight bytes. -/
def readBody (allocation : ℕ → Allocation) : Reader AcceptedExchangeLedger := do
  let count ← Reader.word ExchangeRecord.truncated
  let left ← Reader.remaining
  Reader.call (throwIf (count.toNat > left / 72)
    (invalidArgument "accepted exchange checkpoint count exceeds its byte image"))
  readRecords allocation count.toNat empty

/-- `from_checkpoint`: the records of an image, staged one by one. -/
def fromCheckpoint (allocation : ℕ → Allocation) (bytes : List Byte) :
    Throws AcceptedExchangeLedger := do
  throwIf (bytes.length < 16 ∨ bytes.take 8 ≠ magic)
    (invalidArgument "accepted exchange checkpoint has an invalid header")
  let (ledger, rest) ← readBody allocation (bytes.drop 8)
  throwIf (rest ≠ [])
    (invalidArgument "accepted exchange checkpoint has trailing bytes")
  pure ledger

/-! ### Runs -/

/-- The operations of a run.  A restored ledger takes the place of the present one. -/
inductive Operation
  | stage (record : ExchangeRecord) (allocation : Allocation)
  | stageBatch (records : List (ExchangeRecord × Allocation)) (peers : Option Exception)
  | restoreSize (size : ℕ)
  | clear
  | checkpoint
  | fromCheckpoint (allocation : ℕ → Allocation) (bytes : List Byte)

/-- One operation: whether it returned, and the ledger that it leaves. -/
def Operation.apply : Operation → Method AcceptedExchangeLedger PUnit
  | .stage record allocation => AcceptedExchangeLedger.stage record allocation
  | .stageBatch records peers => stageExchangeBatch records peers
  | .restoreSize size => Method.update (AcceptedExchangeLedger.restoreSize size)
  | .clear => Method.update AcceptedExchangeLedger.clear
  | .checkpoint => Method.inspect fun ledger => ledger.checkpoint.map fun _ => PUnit.unit
  | .fromCheckpoint allocation bytes => do
    let candidate ← Method.call (AcceptedExchangeLedger.fromCheckpoint allocation bytes)
    Method.update fun _ => candidate

/-- The ledger after a run, in which an operation that throws is followed by the next one. -/
def runs (operations : List Operation) : AcceptedExchangeLedger :=
  operations.foldl (fun ledger operation => (operation.apply ledger).2) empty

end AcceptedExchangeLedger

end Pops
