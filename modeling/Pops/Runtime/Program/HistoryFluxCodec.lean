import Pops.Foundation.GuardedReader
import Pops.Runtime.Program.AcceptedExchange
import Pops.Runtime.Program.CheckpointImage
import Pops.Runtime.Program.FluxExpression
import Pops.Runtime.Program.HistoryFlux

/-!
# The payload of history fluxes

Every slot of every history ring keeps a flux expression: terms with an exact coefficient and a
basis, which holds the evaluation point, the window, the archived faces, the shared samples and the
snapshot of the history.  `serialize_expressions` writes a registry of such expressions, and
`prepare_history_flux_payload_restore_` reads it back.  The reader guards every container by its
limit and by a least number of bytes for an element, and checks every field against the live
context.

The certification of a projected snapshot, the digest, the identity of a shared sample and its
authentication by the facade are parameters of the context.

## Main definitions

* `Pops.HistoryFlux.Basis`, `Registry` — what is written.
* `Pops.HistoryFlux.serializeExpressions` — `serialize_expressions`.
* `Pops.HistoryFlux.RestoreContext` — the live context of a restore.
* `Pops.HistoryFlux.restore` — `prepare_history_flux_payload_restore_`.
-/

namespace Pops

namespace HistoryFlux

/-! ## The registry -/

/-- `BoundaryEvaluationPoint`: the point at which a flux was evaluated. -/
structure BoundaryPoint where
  clock : List Byte
  tick : ℤ
  level : ℤ
  substep : ℤ
  stage : ℤ
  stageFraction : Rational
  dt : Binary64
  physicalTime : Binary64
  graphIdentity : List Byte
  rateIdentity : List Byte
  applicationIdentity : List Byte

/-- `BasisFace`: a face with its measure and flux density, and the coarse face under it. -/
structure BasisFace (d : ℕ) where
  role : FaceLedgerRole
  axis : ℤ
  face : Index d
  coarseFace : Index d
  faceMeasure : Binary64
  fluxDensity : List Binary64

/-- `BasisProvider`: who evaluated a flux. -/
inductive BasisProvider
  | preparedResidual
  | preparedDefaultFlux
  | exactFace
  | namedCell
  | diffusiveFace
  deriving DecidableEq

/-- The underlying integer of a provider. -/
def BasisProvider.code : BasisProvider → ℕ
  | preparedResidual => 0
  | preparedDefaultFlux => 1
  | exactFace => 2
  | namedCell => 3
  | diffusiveFace => 4

/-- `InterfaceSide`: the side of an interface that a sample belongs to. -/
inductive InterfaceSide
  | low
  | high
  deriving DecidableEq

/-- The underlying integer of a side. -/
def InterfaceSide.code : InterfaceSide → ℕ
  | low => 0
  | high => 1

/-- `InterfaceFluxSample`: a flux that two blocks share across their interface. -/
structure SharedSample where
  interfaceIdentity : List Byte
  routeContract : List Byte
  leftBlock : ℕ
  rightBlock : ℕ
  level : ℤ
  sourceTopologyEpoch : ℕ
  faceMeasure : Binary64
  leftAxis : ℤ
  rightAxis : ℤ
  leftSide : InterfaceSide
  rightSide : InterfaceSide
  leftNormalSpacing : Binary64
  rightNormalSpacing : Binary64
  faceCount : ℕ
  componentCount : ℤ
  rightComponentForLeft : List ℤ
  sourcePoint : BoundaryPoint
  fluxDensity : List Binary64

/-- `Basis`: everything that identifies one archived evaluation. -/
structure Basis (d : ℕ) where
  identity : ℕ
  runtimeBlock : ℕ
  level : ℤ
  point : BoundaryPoint
  rhsIdentity : ℤ
  provider : BasisProvider
  temporalFamily : List Byte
  window : FluxWindow Binary64
  faces : List (BasisFace d)
  sharedSamples : List SharedSample
  historySnapshot : Option (Snapshot d)

/-- The expressions of the slots of every ring. -/
abbrev Registry (d : ℕ) := List (List Byte × List (FluxExpression (Basis d)))

/-! ## Writing -/

section

open Image

variable {d : ℕ}

/-- Two coordinates of an axis. -/
def writePair (pair : ℤ × ℤ) : List Byte := i64 pair.1 ++ i64 pair.2

/-- The bounds of a box on one axis, with the cell size. -/
def writeMetric (metric : ℤ × ℤ × Binary64) : List Byte :=
  i64 metric.1 ++ (i64 metric.2.1 ++ real metric.2.2)

/-- The bounds of a patch on every axis. -/
def writePatch (patch : Box d) : List Byte :=
  (List.ofFn fun axis => writePair (patch.lo axis, patch.hi axis)).flatten

/-- `write_physical_metadata`: the bytes of the geometry of an archive. -/
def writePhysicalMetadata (archive : Archive d) : List Byte :=
  bytes archive.sourceIdentity ++ (i64 archive.level ++ (i64 archive.components ++
    ((List.ofFn fun axis => writeMetric (archive.domain.lo axis, archive.domain.hi axis,
      archive.cellSize axis)).flatten ++ sequence writePatch archive.patches)))

/-- `write_descriptor` of a snapshot that is there. -/
def writeSnapshot : Snapshot d → List Byte
  | .raw archive => u64 1 ++ (bytes archive.identity ++ writePhysicalMetadata archive)
  | .projection archive ratio parent =>
    u64 2 ++ (bytes archive.identity ++ (writePhysicalMetadata archive ++
      ((List.ofFn fun axis => i64 (ratio axis)).flatten ++ writeSnapshot parent)))

/-- `write_descriptor`: the bytes of a snapshot, or a zero for none. -/
def writeDescriptor : Option (Snapshot d) → List Byte
  | none => u64 0
  | some snapshot => writeSnapshot snapshot

/-- The number of archives of a lineage. -/
def Snapshot.generations : Snapshot d → ℕ
  | .raw _ => 1
  | .projection _ _ parent => parent.generations + 1

/-- One term of a coefficient. -/
def writeCoefficient (entry : ℤ × Rational) : List Byte :=
  i64 entry.1 ++ (i64 entry.2.numerator ++ i64 entry.2.denominator)

/-- `write_point`: the clock coordinates, the fraction, the numbers and the identities. -/
def writePoint (point : BoundaryPoint) : List Byte :=
  bytes point.clock ++ (i64 point.tick ++ (i64 point.level ++ (i64 point.substep ++
    (i64 point.stage ++ (rational point.stageFraction ++ (real point.dt ++
      (real point.physicalTime ++ (bytes point.graphIdentity ++ (bytes point.rateIdentity ++
        bytes point.applicationIdentity)))))))))

/-- One archived face. -/
def writeFace (face : BasisFace d) : List Byte :=
  u64 face.role.code ++ (i64 face.axis ++
    ((List.ofFn fun axis => writePair (face.face axis, face.coarseFace axis)).flatten ++
      (real face.faceMeasure ++ sequence real face.fluxDensity)))

/-- `write_shared_flux_sample_`: the fields of a shared sample, in order. -/
def writeShared (sample : SharedSample) : List Byte :=
  bytes sample.interfaceIdentity ++ (bytes sample.routeContract ++ (u64 sample.leftBlock ++
    (u64 sample.rightBlock ++ (i64 sample.level ++ (u64 sample.sourceTopologyEpoch ++
      (real sample.faceMeasure ++ (i64 sample.leftAxis ++ (i64 sample.rightAxis ++
        (u64 sample.leftSide.code ++ (u64 sample.rightSide.code ++ (real sample.leftNormalSpacing ++
          (real sample.rightNormalSpacing ++ (u64 sample.faceCount ++ (i64 sample.componentCount ++
            (sequence i64 sample.rightComponentForLeft ++ (writePoint sample.sourcePoint ++
              sequence real sample.fluxDensity))))))))))))))))

/-- The image of a basis; the descriptor is written only if some term of the registry has one. -/
def writeBasis (snapshots : Bool) (basis : Basis d) : List Byte :=
  u64 basis.runtimeBlock ++
    (i64 basis.level ++ (i64 basis.rhsIdentity ++ (u64 basis.provider.code ++
    (bytes basis.temporalFamily ++ (writePoint basis.point ++ (clockWindow basis.window ++
      (sequence writeFace basis.faces ++ (sequence writeShared basis.sharedSamples ++
        (if snapshots then writeDescriptor basis.historySnapshot else [])))))))))

/-- The image of a term. -/
def writeTerm (snapshots : Bool) (entry : ℕ × FluxExpressionTerm (Basis d)) : List Byte :=
  u64 entry.1 ++ (sequence writeCoefficient entry.2.coefficient ++
    writeBasis snapshots entry.2.basis)

/-- The expressions of a ring behind its key. -/
def writeRing (snapshots : Bool) (ring : List Byte × List (FluxExpression (Basis d))) : List Byte :=
  bytes ring.1 ++ sequence (sequence (writeTerm snapshots)) ring.2

/-- Some term of the registry has a snapshot. -/
def hasSnapshots (histories : Registry d) : Bool :=
  histories.any fun ring => ring.2.any fun expression => expression.any fun entry =>
    entry.2.basis.historySnapshot.isSome

/-- The first word of a payload with snapshots, of one without them, and of one without families. -/
def snapshotVersion : ℕ := 0x504f5053464c5834

/-- The first word of a payload without snapshots. -/
def plainVersion : ℕ := 0x504f5053464c5833

/-- The first word of a payload without temporal families. -/
def legacyVersion : ℕ := 0x504f5053464c5832

/-- The checks of the writer on a term. -/
def checkTerm (maxLevels : ℕ) (entry : ℕ × FluxExpressionTerm (Basis d)) : Throws Unit := do
  throwIf (entry.2.basis.identity ≠ entry.1)
    (logicError "AMR Program history flux payload has an unauthenticated basis")
  throwIf (∃ snapshot ∈ entry.2.basis.historySnapshot, snapshot.generations > maxLevels)
    (invalidArgument "AMR history flux descriptor exceeds authored levels")

/-- `serialize_expressions`: the image of a registry with its version, or nothing for an empty one.
-/
def serializeExpressions (histories : Registry d) (maxLevels : ℕ) : Throws (List Byte) :=
  if histories = [] then pure []
  else do
    forEach histories fun ring => forEach ring.2 fun expression =>
      forEach expression (checkTerm maxLevels)
    let snapshots := hasSnapshots histories
    pure (u64 (if snapshots then snapshotVersion else plainVersion) ++
      sequence (writeRing snapshots) histories)

end

/-! ## The live context -/

/-- What a restore reads of the live context. -/
structure RestoreContext (d : ℕ) where
  /-- The rings, by key, with their depths. -/
  rings : List (List Byte × ℕ)
  /-- The runtime owner of a ring. -/
  owner : List Byte → Option ℤ
  /-- The ring has been published. -/
  initialized : List Byte → Bool
  /-- `prepared_rhs_basis_bounds_`, by runtime block. -/
  rhsBasisBounds : List ℕ
  /-- `prepared_coefficient_term_bounds_`, by runtime block. -/
  coefficientTermBounds : List ℕ
  /-- `declared_flux_temporal_families_`: the declared temporal families, by block, residual and
  provider. -/
  declaredFamilies : List ((ℕ × ℤ × BasisProvider) × List Byte)
  /-- The number of live levels. -/
  levels : ℕ
  /-- The transition above a level has interface faces. -/
  hasInterfaceFaces : ℕ → Bool
  /-- The hash of the installed program. -/
  installedProgramHash : List Byte
  /-- `authenticate_prepared_amr_interface_sample`: the check of a shared sample by the facade. -/
  authenticate : SharedSample → Throws Unit
  /-- `shared_flux_source_identity_`: the identity of the source of a shared sample. -/
  sharedIdentity : SharedSample → List Byte
  /-- `program_history_flux_snapshots`: the registered snapshots, by identity. -/
  snapshots : List Byte → Option (Snapshot d)
  /-- `configured_n_levels`: the largest number of levels. -/
  configuredLevels : ℕ
  /-- `certify_snapshot`: the check of a projected snapshot. -/
  certify : Snapshot d → Throws Unit
  /-- `identity::sha256_hex`: the digest, as hexadecimal digits. -/
  sha256 : List Byte → List Byte

/-! ## Reading -/

/-- `Reader::fail_`. -/
def readFailure (reason : String) : Exception :=
  runtimeError ("invalid exact AMR Program checkpoint: " ++ reason)

/-- The error of an image that ends too early. -/
def truncatedPayload : Exception := readFailure "truncated payload"

/-- The error of a count that fails a guard. -/
def incredible : Exception := readFailure "container length is not credible for this payload"

/-- `kMaxElements`: the largest number of elements of one container. -/
def maxElements : ℕ := 2 ^ 30

/-- `Reader::u64`. -/
def readU64 : Reader ℕ := do
  let value ← Reader.word truncatedPayload
  pure value.toNat

/-- `Reader::i64`. -/
def readI64 : Reader ℤ := do
  let value ← Reader.word truncatedPayload
  pure (int64OfBits value)

/-- `Reader::i32`: a signed number that has to be an `int`. -/
def readI32 : Reader ℤ := do
  let value ← readI64
  Reader.call (throwIf (value < intMin ∨ value > intMax)
    (readFailure "integer is outside the native int range"))
  pure value

/-- `Reader::real`. -/
def readReal : Reader Binary64 := Reader.word truncatedPayload

/-- `Reader::string`: a text, whose length has to fit in what is left. -/
def readString : Reader (List Byte) := do
  let count ← Reader.credibleCount truncatedPayload incredible maxElements 1
  Reader.raw count

/-- A container whose elements take at least so many bytes. -/
def readContainer {α : Type} (elementBytes : ℕ) (r : Reader α) : Reader (List α) :=
  Reader.container truncatedPayload incredible maxElements elementBytes r

/-- `read_rational`: a fraction, reduced by its constructor. -/
def readRational : Reader Rational := do
  let numerator ← readI64
  let denominator ← readI64
  Reader.call (Rational.create numerator denominator)

/-- `read_clock`. -/
def readClock : Reader (FluxClock Binary64) := do
  let level ← readI32
  let macroStep ← readI64
  let phase ← readRational
  let physicalTime ← readReal
  pure ⟨level, macroStep, phase, physicalTime⟩

section

variable {d : ℕ} (ctx : RestoreContext d)

/-- `detail::points`: the number of points of a box, refused if it leaves `size_t`. -/
def points (box : Box d) : Throws ℕ := do
  throwIf box.Empty (invalidArgument "AMR history flux requires nonempty boxes")
  (List.finRange d).foldlM (fun result axis => do
    throwIf (result ≠ 0 ∧ (box.length axis).toNat > sizeMax / result)
      (overflowError "AMR history flux allocation product overflow")
    pure (result * (box.length axis).toNat)) 1

/-- Two coordinates of an axis. -/
def readPair : Reader (ℤ × ℤ) := do
  let first ← readI32
  let second ← readI32
  pure (first, second)

/-- The bounds of a box on one axis, with the cell size. -/
def readMetric : Reader (ℤ × ℤ × Binary64) := do
  let lo ← readI32
  let hi ← readI32
  let size ← readReal
  pure (lo, hi, size)

/-- A patch. -/
def readPatch : Reader (Box d) := do
  let bounds ← Reader.axes fun _ => readPair
  pure ⟨fun axis => (bounds axis).1, fun axis => (bounds axis).2⟩

/-- `read_physical_metadata`, with the identity that was read before. -/
def readPhysicalMetadata (identity : List Byte) : Reader (Archive d) := do
  let sourceIdentity ← readString
  let level ← readI32
  let components ← readI32
  Reader.call (throwIf (level < 0 ∨ level ≥ ctx.configuredLevels ∨ components ≤ 0)
    (invalidArgument "AMR history flux archive has foreign level/components"))
  let metrics ← Reader.axes fun _ : Fin d => readMetric
  let domain : Box d := ⟨fun axis => (metrics axis).1, fun axis => (metrics axis).2.1⟩
  let count ← Reader.credibleCount truncatedPayload incredible maxElements (2 * d * 8)
  let e := invalidArgument "AMR history flux archive patch count exceeds its domain"
  Reader.call (throwIf (count = 0) e)
  let limit ← Reader.call (points domain)
  Reader.call (throwIf (count > limit) e)
  let patches ← Reader.iterate (fun patches => do
    let patch ← readPatch
    pure (patches ++ [patch])) count []
  pure ⟨identity, sourceIdentity, level, components, domain, fun axis => (metrics axis).2.2,
    patches, [], 1, 0, []⟩

/-- `projection_identity`: the digest of the parent, the geometry and the ratio. -/
def projectionIdentity (archive : Archive d) (ratio : Fin d → ℤ) (parent : Snapshot d) :
    List Byte :=
  ascii "pops.amr.history-face-projection.v1:sha256:" ++ ctx.sha256
    (Image.bytes (ascii "pops.amr.history-face-projection.v1") ++
      (Image.bytes parent.archive.identity ++ (writePhysicalMetadata archive ++
        (List.ofFn fun axis => Image.i64 (ratio axis)).flatten)))

/-- The raw archive of the context that a descriptor names. -/
def rawSource (archive : Archive d) : Throws (Snapshot d) :=
  match ctx.snapshots archive.identity with
  | some (.raw found) => do
    throwIf (writePhysicalMetadata archive ≠ writePhysicalMetadata found)
      (invalidArgument "AMR history flux archive differs from its source descriptor")
    pure (.raw found)
  | _ => throw (invalidArgument "AMR history flux checkpoint lacks its physical face archive")

/-- The projection of a parent that a descriptor describes. -/
def projectedSource (archive : Archive d) (ratio : Fin d → ℤ) (parent : Option (Snapshot d)) :
    Throws (Snapshot d) :=
  match parent with
  | none => throw (invalidArgument "AMR history flux projection lacks its parent snapshot")
  | some parent => do
    let archive' := { archive with
      rankCount := parent.archive.rankCount
      localRank := parent.archive.localRank
      owners := List.replicate archive.patches.length 0 }
    ctx.certify (.projection archive' ratio parent)
    throwIf (projectionIdentity ctx archive' ratio parent ≠ archive.identity)
      (invalidArgument "AMR history flux projection differs from its lineage digest")
    pure (.projection archive' ratio parent)

/-- `read_descriptor` with the levels that remain. -/
def readDescriptor : ℕ → Reader (Option (Snapshot d))
  | 0 => do
    let kind ← readU64
    if kind = 0 then pure none
    else Reader.call (throw
      (invalidArgument "AMR history flux descriptor has invalid bounded lineage"))
  | remaining + 1 => do
    let kind ← readU64
    if kind = 0 then pure none
    else do
      Reader.call (throwIf (kind ≠ 1 ∧ kind ≠ 2)
        (invalidArgument "AMR history flux descriptor has invalid bounded lineage"))
      let identity ← readString
      let archive ← readPhysicalMetadata ctx identity
      if kind = 1 then do
        let source ← Reader.call (rawSource ctx archive)
        pure (some source)
      else do
        let ratio ← Reader.axes fun _ : Fin d => readI32
        let parent ← readDescriptor remaining
        let source ← Reader.call (projectedSource ctx archive ratio parent)
        pure (some source)

/-- One term of a coefficient. -/
def readCoefficientTerm (coefficient : ExactPolynomial) : Reader ExactPolynomial := do
  let power ← readI32
  let numerator ← readI64
  let denominator ← readI64
  let rational ← Reader.call (Rational.create numerator denominator)
  let again ← Reader.call (Rational.create rational.numerator rational.denominator)
  Reader.call (throwIf (power < 0 ∨ rational.denominator ≤ 0 ∨ again ≠ rational ∨
      (OrderedMap.lookup coefficient power).isSome)
    (invalidArgument "AMR Program history flux payload has invalid coefficient"))
  pure (OrderedMap.emplace coefficient power rational)

/-- The coefficient of a term. -/
def readCoefficient : Reader ExactPolynomial := do
  let count ← Reader.credibleCount truncatedPayload incredible maxElements 24
  let coefficient ← Reader.iterate readCoefficientTerm count []
  Reader.call (throwIf (coefficient = [])
    (invalidArgument "AMR Program history flux payload has an empty coefficient"))
  pure coefficient

/-- The provider with a code. -/
def readProvider : Reader BasisProvider := do
  let code ← readU64
  match code with
  | 0 => pure .preparedResidual
  | 1 => pure .preparedDefaultFlux
  | 2 => pure .exactFace
  | 3 => pure .namedCell
  | 4 => pure .diffusiveFace
  | _ => Reader.call (throw
      (invalidArgument "AMR Program history flux payload has an invalid provider"))

/-- `restored_flux_temporal_family_`: the temporal family of a term: the declared one, which a newer
image has to repeat. -/
def restoredFamily (block : ℕ) (rhsIdentity : ℤ) (provider : BasisProvider) (encoded : List Byte)
    (legacy : Bool) : Throws (List Byte) :=
  match ctx.declaredFamilies.find? fun entry => entry.1 = (block, rhsIdentity, provider) with
  | some declared => do
    throwIf (legacy = false ∧ encoded ≠ declared.2)
      (invalidArgument "history flux checkpoint differs from its declared producer family")
    pure declared.2
  | none => do
    throwIf (ctx.declaredFamilies ≠ [])
      (invalidArgument "history flux checkpoint has no declared producer family")
    throwIf (legacy = false ∧ encoded ≠ [] ∧ provider ≠ .exactFace)
      (invalidArgument "history flux checkpoint has an undeclared producer family")
    pure encoded

/-- The fields of a point. -/
def readPointFields : Reader BoundaryPoint := do
  let clock ← readString
  let tick ← readI64
  let level ← readI32
  let substep ← readI32
  let stage ← readI32
  let stageFraction ← readRational
  let dt ← readReal
  let physicalTime ← readReal
  let graphIdentity ← readString
  let rateIdentity ← readString
  let applicationIdentity ← readString
  pure ⟨clock, tick, level, substep, stage, stageFraction, dt, physicalTime, graphIdentity,
    rateIdentity, applicationIdentity⟩

/-- The checks on the point of a basis. -/
def checkPoint (point : BoundaryPoint) : Throws Unit := do
  let again ← Rational.create point.stageFraction.numerator point.stageFraction.denominator
  throwIf (point.clock = [] ∨ point.stage < 0 ∨ point.stageFraction.denominator ≤ 0 ∨
      again ≠ point.stageFraction ∨ ¬ Binary64.isFinite point.dt ∨ ¬ Binary64.isPositive point.dt ∨
      ¬ Binary64.isFinite point.physicalTime)
    (invalidArgument "AMR Program history flux payload has an invalid point")

/-- The window of a basis. -/
def readWindow : Reader (FluxWindow Binary64) := do
  let opening ← readClock
  let closing ← readClock
  Reader.call (throwIf (Rational.less opening.phase closing.phase ≠ some true ∨
      ¬ Binary64.less opening.physicalTime closing.physicalTime)
    (invalidArgument "AMR Program history flux payload has an invalid window"))
  pure ⟨opening, closing⟩

/-- One value of a density. -/
def readDensity : Reader Binary64 := do
  let value ← readReal
  Reader.call (throwIf (¬ Binary64.isFinite value)
    (invalidArgument "AMR Program history flux payload has a non-finite density"))
  pure value

/-- One archived face. -/
def readBasisFace : Reader (BasisFace d) := do
  let code ← readU64
  Reader.call (throwIf (code > 1)
    (invalidArgument "AMR Program history flux payload has an invalid face role"))
  let axis ← readI32
  Reader.call (throwIf (axis < 0 ∨ axis ≥ d)
    (invalidArgument "AMR Program history flux payload has an invalid face axis"))
  let pairs ← Reader.axes fun _ => readPair
  let faceMeasure ← readReal
  let count ← Reader.credibleCount truncatedPayload incredible maxElements 8
  Reader.call (throwIf (¬ Binary64.isPositive faceMeasure ∨ ¬ Binary64.isFinite faceMeasure ∨
      count = 0)
    (invalidArgument "AMR Program history flux payload has an invalid face"))
  let fluxDensity ← Reader.iterate (fun values => do
    let value ← readDensity
    pure (values ++ [value])) count []
  pure ⟨if code = 0 then .coarse else .fine, axis, fun a => (pairs a).1, fun a => (pairs a).2,
    faceMeasure, fluxDensity⟩

/-- A side. -/
def sideOf (code : ℕ) : InterfaceSide := if code = 0 then .low else .high

/-- A certificate is a canonical digest. -/
def CanonicalDigest (certificate : List Byte) : Prop :=
  certificate.length = 64 ∧ ∀ c ∈ certificate, (48 ≤ c ∧ c ≤ 57) ∨ (97 ≤ c ∧ c ≤ 102)

instance (certificate : List Byte) : Decidable (CanonicalDigest certificate) :=
  inferInstanceAs (Decidable (_ ∧ _))

/-- `read_shared_flux_sample_`: the fields of a shared sample, whose sides have to be valid. -/
def readShared (endpoint : ℕ) : Reader SharedSample := do
  let interfaceIdentity ← readString
  let routeContract ← readString
  let leftBlock ← readU64
  let rightBlock ← readU64
  let level ← readI32
  let sourceTopologyEpoch ← readU64
  let faceMeasure ← readReal
  let leftAxis ← readI32
  let rightAxis ← readI32
  let leftSide ← readU64
  let rightSide ← readU64
  Reader.call (throwIf (leftSide > 1 ∨ rightSide > 1)
    (invalidArgument "retained shared endpoint side is invalid"))
  let leftNormalSpacing ← readReal
  let rightNormalSpacing ← readReal
  let faceCount ← readU64
  let componentCount ← readI32
  let rightComponentForLeft ← readContainer 8 readI32
  Reader.call (throwIf (¬ CanonicalDigest routeContract)
    (invalidArgument "retained shared route certificate is not canonical SHA256"))
  let sourcePoint ← readPointFields
  let fluxDensity ← readContainer 8 readReal
  Reader.call (throwIf ((leftBlock ≠ endpoint ∧ rightBlock ≠ endpoint) ∨
      sourcePoint.graphIdentity ≠ ctx.installedProgramHash)
    (invalidArgument "restored shared flux sample has a foreign endpoint or Program"))
  let sample : SharedSample := ⟨interfaceIdentity, routeContract, leftBlock, rightBlock, level,
    sourceTopologyEpoch, faceMeasure, leftAxis, rightAxis, sideOf leftSide, sideOf rightSide,
    leftNormalSpacing, rightNormalSpacing, faceCount, componentCount, rightComponentForLeft,
    sourcePoint, fluxDensity⟩
  Reader.call (ctx.authenticate sample)
  pure sample

/-- One shared sample of a basis, after the ones before it. -/
def readSharedOf (block : ℕ) (level : ℤ) (samples : List SharedSample) :
    Reader (List SharedSample) := do
  let sample ← readShared ctx block
  Reader.call (throwIf (sample.level ≠ level ∨
      ctx.sharedIdentity sample ∈ samples.map ctx.sharedIdentity)
    (invalidArgument "history basis repeats or misplaces a shared source sample"))
  pure (samples ++ [sample])

/-- The shared samples of a basis. -/
def readSharedSamples (block : ℕ) (level : ℤ) : Reader (List SharedSample) := do
  let count ← Reader.credibleCount truncatedPayload incredible maxElements 232
  Reader.iterate (readSharedOf ctx block level) count []

/-- The live topology has no interface at a level. -/
def emptyFacesAuthorized (level : ℤ) : Bool :=
  decide (0 ≤ level ∧ level.toNat < ctx.levels ∧
    (0 < level.toNat → ctx.hasInterfaceFaces (level.toNat - 1) = false) ∧
    (level.toNat + 1 < ctx.levels → ctx.hasInterfaceFaces level.toNat = false))

/-- Which of the three formats the payload has. -/
structure Format where
  legacy : Bool
  snapshots : Bool

/-- The least number of bytes that the reader takes a term to have. -/
def termBytes (d : ℕ) (format : Format) : ℕ := ((if format.legacy then 28 else 29) + 2 * d) * 8

/-- The temporal family of a basis as it was encoded. -/
def readFamily (format : Format) : Reader (List Byte) :=
  if format.legacy then pure [] else readString

/-- The snapshot of a basis as it was encoded. -/
def readSnapshot (format : Format) : Reader (Option (Snapshot d)) :=
  if format.snapshots then readDescriptor ctx ctx.configuredLevels else pure none

/-- The basis of a term. -/
def readBasis (format : Format) (identity : ℕ) : Reader (Basis d) := do
  let runtimeBlock ← readU64
  let level ← readI32
  let rhsIdentity ← readI32
  let provider ← readProvider
  let encoded ← readFamily format
  let temporalFamily ← Reader.call
    (restoredFamily ctx runtimeBlock rhsIdentity provider encoded format.legacy)
  let point ← readPointFields
  Reader.call (checkPoint point)
  let window ← readWindow
  let faces ← readContainer ((5 + 2 * d) * 8) readBasisFace
  let sharedSamples ← readSharedSamples ctx runtimeBlock level
  let historySnapshot ← readSnapshot ctx format
  pure ⟨identity, runtimeBlock, level, point, rhsIdentity, provider, temporalFamily, window, faces,
    sharedSamples, historySnapshot⟩

/-- One term of an expression, after the ones before it. -/
def readTerm (format : Format) (expression : FluxExpression (Basis d)) :
    Reader (FluxExpression (Basis d)) := do
  let identity ← readU64
  let coefficient ← readCoefficient
  let basis ← readBasis ctx format identity
  Reader.call (throwIf (basis.runtimeBlock ≥ ctx.rhsBasisBounds.length ∨
      (basis.faces = [] ∧ emptyFacesAuthorized ctx basis.level = false) ∨
      (OrderedMap.lookup expression identity).isSome)
    (invalidArgument "AMR Program history flux payload has a duplicate basis"))
  pure (OrderedMap.emplace expression identity ⟨basis, coefficient⟩)

/-- The budget of the artifact for an expression. -/
def requireExpressionBudget (expression : FluxExpression (Basis d)) : Throws Unit :=
  (expression.foldlM (fun (basesByBlock : ℕ → ℕ) (entry : ℕ × FluxExpressionTerm (Basis d)) => do
    let block := entry.2.basis.runtimeBlock
    throwIf (block ≥ ctx.rhsBasisBounds.length ∨ block ≥ ctx.coefficientTermBounds.length)
      (logicError "AMR Program flux expression has a foreign basis identity")
    let count := basesByBlock block + 1
    throwIf (count > ctx.rhsBasisBounds.getD block 0 ∨
        entry.2.coefficient.length > ctx.coefficientTermBounds.getD block 0)
      (lengthError "AMR Program flux expression exceeds its authenticated artifact budget")
    pure (Function.update basesByBlock block count)) fun _ => 0).map fun _ => ()

/-- The expression of a slot, after those of the slots before it. -/
def readExpression (format : Format) (slots : List (FluxExpression (Basis d))) :
    Reader (List (FluxExpression (Basis d))) := do
  let count ← Reader.credibleCount truncatedPayload incredible maxElements (termBytes d format)
  let expression ← Reader.iterate (readTerm ctx format) count []
  Reader.call (requireExpressionBudget ctx expression)
  pure (slots ++ [expression])

/-- The depth of the live ring with a key. -/
def liveDepth (key : List Byte) : Throws ℕ :=
  match OrderedMap.lookup ctx.rings key with
  | some depth => do
    throwIf (key = []) (invalidArgument "AMR Program history flux payload names a foreign ring")
    pure depth
  | none => throw (invalidArgument "AMR Program history flux payload names a foreign ring")

/-- The expressions of a ring, after the rings before it. -/
def readRing (format : Format) (candidate : Registry d) : Reader (Registry d) := do
  let key ← readString
  let depth ← Reader.call (liveDepth ctx key)
  let count ← Reader.credibleCount truncatedPayload incredible maxElements 8
  Reader.call (throwIf (count ≠ depth)
    (invalidArgument "AMR Program history flux payload differs from ring depth"))
  let slots ← Reader.iterate (readExpression ctx format) count []
  Reader.call (throwIf (OrderedMap.lookup candidate key).isSome
    (invalidArgument "AMR Program history flux payload repeats a ring"))
  pure (OrderedMap.emplace candidate key slots)

/-- The format that the first word of a payload names. -/
def formatOf (version : ℕ) : Throws Format := do
  throwIf (version ≠ legacyVersion ∧ version ≠ snapshotVersion ∧ version ≠ plainVersion)
    (invalidArgument "history flux checkpoint lacks explicit shared-sample format")
  pure ⟨version = legacyVersion, version = snapshotVersion⟩

/-- A payload with at least one ring. -/
def readPayload : Reader (Registry d) := do
  let version ← readU64
  let format ← Reader.call (formatOf version)
  let count ← Reader.credibleCount truncatedPayload incredible maxElements 16
  Reader.iterate (readRing ctx format) count []

/-- An empty payload is refused for a published ring of a block with bases. -/
def checkOwner (ring : List Byte × ℕ) : Throws Unit := do
  let foreign := invalidArgument "AMR Program history flux payload has a foreign runtime owner"
  let owner ← match ctx.owner ring.1 with
    | some owner => pure owner
    | none => throw foreign
  throwIf (owner < 0 ∨ owner.toNat ≥ ctx.rhsBasisBounds.length) foreign
  throwIf (ctx.initialized ring.1 ∧ ctx.rhsBasisBounds.getD owner.toNat 0 ≠ 0)
    (invalidArgument "AMR Program checkpoint omits initialized history-flux provenance")

/-- The registry without any flux, for an empty payload. -/
def emptyRegistry : Throws (Registry d) := do
  forEach ctx.rings (checkOwner ctx)
  pure (ctx.rings.map fun ring => (ring.1, List.replicate ring.2 []))

/-- `prepare_history_flux_payload_restore_`: read a whole registry, with nothing left over and with
every live ring. -/
def restore (image : List Byte) : Throws (Registry d) :=
  if image = [] then emptyRegistry ctx
  else do
    let (candidate, rest) ← readPayload ctx image
    throwIf (rest ≠ []) (readFailure "trailing bytes after the accepted-state image")
    throwIf (candidate.length ≠ ctx.rings.length)
      (invalidArgument "AMR Program history flux payload omits a live ring")
    pure candidate

end

end HistoryFlux

end Pops
