import Pops.Foundation.Binary64
import Pops.Foundation.Exception
import Pops.Foundation.OrderedMap
import Pops.Foundation.SwapChain

/-!
# History rings

A multistep Program keeps the values of earlier steps in rings, newest at slot zero.  A store writes
slot zero, and every slot on the first store of a ring; a rotation of a logical clock moves the
slots of every ring of that clock one place towards older.  Beside its values a ring keeps, slot for
slot, the step size, the identity of the sample and, on adaptive meshes, the flux expression.

The members of `HistoryManager` that are maps over the same names are one record per name here.

## Main definitions

* `Pops.HistorySampleIdentity`, `nextHistorySample` — the identity of a sample, and of the next one.
* `Pops.HistoryRing` — a ring with its operations `store` and `rotate`.
* `Pops.Histories.store`, `rotate` — the operations on all rings of a runtime.
-/

namespace Pops

/-! ## Sample identities -/

/-- Where a sample comes from. -/
inductive HistorySampleKind
  | unknownLegacy
  | registeredZeroStart
  | publication
  deriving DecidableEq, Repr

/-- The publication window of a sample and its occurrence in that window. -/
structure HistorySampleIdentity where
  startBits : Binary64
  intervalBits : Binary64
  ordinal : ℕ
  kind : HistorySampleKind
  deriving DecidableEq, Repr

namespace HistorySampleIdentity

/-- The identity of the slots of a new ring. -/
def zeroStart : HistorySampleIdentity := ⟨0, 0, 0, .registeredZeroStart⟩

/-- The window and the occurrence. -/
def window (sample : HistorySampleIdentity) : Binary64 × Binary64 × ℕ :=
  (sample.startBits, sample.intervalBits, sample.ordinal)

/-- `validate`: a publication has an ordinal and a finite window, and any other sample has neither.
-/
def validate (sample : HistorySampleIdentity) : Throws Unit :=
  if sample.kind ≠ .publication then
    throwIf (sample.startBits ≠ 0 ∨ sample.intervalBits ≠ 0 ∨ sample.ordinal ≠ 0)
      (invalidArgument "unknown history sample identity has nonzero window metadata")
  else
    throwIf (sample.ordinal = 0 ∨ ¬ Binary64.isFinite sample.startBits ∨
        ¬ Binary64.isFinite sample.intervalBits ∨ ¬ Binary64.isPositive sample.intervalBits)
      (invalidArgument "history sample identity has an invalid physical window")

end HistorySampleIdentity

/-- `std::numeric_limits<std::uint64_t>::max()`. -/
def ordinalMax : ℕ := 18446744073709551615

/-- The largest ordinal of the publications in a window. -/
def latestOrdinal (start interval : Binary64) (slots : List HistorySampleIdentity) : Throws ℕ :=
  slots.foldlM (fun latest sample => do
    sample.validate
    pure (if sample.kind = .publication ∧ sample.startBits = start ∧
      sample.intervalBits = interval then max latest sample.ordinal else latest)) 0

/-- `next_history_sample`: the sample that the next store publishes: a new ordinal, or the pending
one again. -/
def nextHistorySample (slots : List HistorySampleIdentity) (pending : Bool)
    (start interval : Binary64) : Throws HistorySampleIdentity := do
  HistorySampleIdentity.validate ⟨start, interval, 1, .publication⟩
  let latest ← latestOrdinal start interval slots
  match slots.head? with
  | some front =>
    if pending ∧ front.kind = .publication then do
      throwIf (front.startBits ≠ start ∨ front.intervalBits ≠ interval)
        (invalidArgument "pending history publication changed its physical window")
      pure front
    else do
      throwIf (latest = ordinalMax)
        (overflowError "history publication ordinal exhausted its physical window")
      pure ⟨start, interval, latest + 1, .publication⟩
  | none => do
    throwIf (latest = ordinalMax)
      (overflowError "history publication ordinal exhausted its physical window")
    pure ⟨start, interval, latest + 1, .publication⟩

/-! ## Rings -/

/-- The two runtimes that own rings. -/
inductive HistoryBackend
  | uniform
  | amr
  deriving DecidableEq, Repr

/-- A ring of values `V` with flux expressions `F`. -/
structure HistoryRing (V F : Type) where
  slots : List V
  depth : ℕ
  initialized : Bool
  fillCount : ℕ
  storePending : Bool
  clock : Option String
  level : ℤ
  slotDt : List Binary64
  slotSample : List HistorySampleIdentity
  expressions : List F

namespace HistoryRing

variable {V F : Type}

/-- The ring that `register_history` creates.  Only adaptive meshes keep flux expressions. -/
def register (backend : HistoryBackend) (lag : ℕ) (zero : V) (expression : F)
    (clock : Option String) (level : ℤ) : HistoryRing V F where
  slots := List.replicate (lag + 1) zero
  depth := lag + 1
  initialized := false
  fillCount := 0
  storePending := false
  clock := clock
  level := level
  slotDt := List.replicate (lag + 1) 0
  slotSample := List.replicate (lag + 1) HistorySampleIdentity.zeroStart
  expressions := match backend with
    | .uniform => []
    | .amr => List.replicate (lag + 1) expression

/-- `validated_samples`: the samples of a ring whose parts agree. -/
def validatedSamples (ring : HistoryRing V F) : Throws (List HistorySampleIdentity) := do
  throwIf (ring.slotSample.length ≠ ring.slots.length ∨
      ring.slotDt.length ≠ ring.slotSample.length)
    (invalidArgument "history sample ledger differs from its ring depth")
  forEach ring.slotSample HistorySampleIdentity.validate
  pure ring.slotSample

/-- Write slot zero, and every slot of a ring that was never written. -/
def write {α : Type} (initialized : Bool) (slots : List α) (value : α) : List α :=
  if initialized then slots.set 0 value else slots.map fun _ => value

/-- `prepare_sample_store`: the samples after a store, computed before the ring changes. -/
def prepareSampleStore (ring : HistoryRing V F) (start interval : Binary64) :
    Throws (List HistorySampleIdentity) := do
  let samples ← ring.validatedSamples
  let sample ← nextHistorySample samples ring.storePending start interval
  pure (write ring.initialized samples sample)

/-- The checks of a store that only adaptive meshes make. -/
def checkStore (backend : HistoryBackend) (ring : HistoryRing V F) (dt : Binary64) : Throws Unit :=
  match backend with
  | .uniform => pure ()
  | .amr => do
    throwIf (¬ Binary64.isFinite dt ∨ ¬ Binary64.isPositive dt)
      (logicError "AMR Program history store has no positive exact interval")
    throwIf (ring.expressions.length ≠ ring.slots.length)
      (logicError "AMR Program history flux provenance differs from its ring depth")

/-- The error of a store to a ring that is not there. -/
def notRegistered : HistoryBackend → Exception
  | .uniform => outOfRange "ProgramContext history is not registered"
  | .amr => outOfRange "AMR Program history is not registered on the active level"

/-- The ring that a store publishes. -/
def publish (backend : HistoryBackend) (ring : HistoryRing V F) (value : V) (expression : F)
    (dt : Binary64) (samples : List HistorySampleIdentity) : HistoryRing V F :=
  { ring with
    slots := write ring.initialized ring.slots value
    slotDt := write ring.initialized ring.slotDt dt
    slotSample := samples
    expressions := match backend with
      | .uniform => ring.expressions
      | .amr => write ring.initialized ring.expressions expression
    initialized := true
    storePending := true }

/-- `store_history_` on a ring.  `sameContract` is the check that two fields have one layout. -/
def store (backend : HistoryBackend) (sameContract : V → V → Throws Unit) (ring : HistoryRing V F)
    (value : V) (expression : F) (start dt : Binary64) : Throws (HistoryRing V F) := do
  match ring.slots.head? with
  | none => throw (notRegistered backend)
  | some front =>
    sameContract front value
    ring.checkStore backend dt
    let samples ← ring.prepareSampleStore start dt
    pure (ring.publish backend value expression dt samples)

/-- The rotation of one ring: every vector by its own swap chain. -/
def rotate (backend : HistoryBackend) (ring : HistoryRing V F) : HistoryRing V F :=
  { ring with
    slots := SwapChain.shift ring.slots
    slotDt := SwapChain.shift ring.slotDt
    slotSample := SwapChain.shift ring.slotSample
    expressions := match backend with
      | .uniform => ring.expressions
      | .amr => SwapChain.shift ring.expressions
    fillCount := if ring.storePending then min ring.slots.length (ring.fillCount + 1)
      else ring.fillCount
    storePending := false }

/-- The rotation selects the ring. -/
def Selected (backend : HistoryBackend) (level : ℤ) (clock : Option String)
    (ring : HistoryRing V F) : Prop :=
  (backend = .amr → ring.level = level) ∧ (clock ≠ none → ring.clock = clock)

instance (backend : HistoryBackend) (level : ℤ) (clock : Option String) (ring : HistoryRing V F) :
    Decidable (ring.Selected backend level clock) :=
  inferInstanceAs (Decidable ((_ → _) ∧ (_ → _)))

/-- The checks of a rotation, which only adaptive meshes make, on every ring of the level. -/
def checkRotate (backend : HistoryBackend) (level : ℤ) (clock : Option String)
    (ring : HistoryRing V F) : Throws Unit :=
  if backend = .uniform ∨ ring.level ≠ level then pure ()
  else do
    throwIf (ring.clock = none ∨ ring.slots.length ≠ ring.slotDt.length ∨
        ring.slots.length ≠ ring.expressions.length ∨ ring.slots.length ≠ ring.depth)
      (runtimeError "AMR Program history registry is incomplete")
    if clock = none ∨ ring.clock = clock then do
      let _ ← ring.validatedSamples
      pure ()
    else pure ()

end HistoryRing

/-! ## All rings of a runtime -/

/-- The rings by name. -/
abbrev Histories (V F : Type) := List (String × HistoryRing V F)

namespace Histories

variable {V F : Type}

/-- What a collective phase throws because of a failure elsewhere. -/
def collective (fault : Option Exception) : Throws Unit :=
  match fault with
  | some e => .error e
  | none => .ok ()

/-- `store_history_`: prepare the new ring, agree, publish. -/
def store (backend : HistoryBackend) (sameContract : V → V → Throws Unit)
    (histories : Histories V F) (key : String) (value : V) (expression : F) (start dt : Binary64)
    (fault : Option Exception) : Throws (Histories V F) := do
  match OrderedMap.lookup histories key with
  | none => throw (HistoryRing.notRegistered backend)
  | some ring =>
    let stored ← ring.store backend sameContract value expression start dt
    collective fault
    pure (OrderedMap.assign histories key stored)

/-- `rotate_histories_` and `HistoryManager::rotate`. -/
def rotate (backend : HistoryBackend) (histories : Histories V F) (level : ℤ)
    (clock : Option String) (fault : Option Exception) : Throws (Histories V F) := do
  throwIf (backend = .amr ∧ clock = some "")
    (invalidArgument "AMR Program history rotation requires a clock identity")
  forEach histories fun entry => entry.2.checkRotate backend level clock
  collective fault
  pure (histories.map fun entry =>
    (entry.1, if entry.2.Selected backend level clock then entry.2.rotate backend else entry.2))

end Histories

end Pops
