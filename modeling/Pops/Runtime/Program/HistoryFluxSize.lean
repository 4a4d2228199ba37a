import Pops.Runtime.Program.HistoryFluxCodec

/-!
# The size of a payload of history fluxes

How many bytes the writer spends on every record of a registry, in the fields of the record: a word
for every number, and a word and its letters for every text.

## Main definitions

* `Pops.HistoryFlux.termSize` — the bytes of a term.
* `Pops.HistoryFlux.expressionSize`, `ringSize` — those of a slot and of a ring.

## Main results

* `Pops.HistoryFlux.length_writeTerm` — a term is written in so many bytes.
* `Pops.HistoryFlux.length_writeExpression`, `length_writeRing` — likewise slots and rings.
* `Pops.HistoryFlux.termSize_ge` — a term has at least 34 words.
-/

namespace Pops

namespace HistoryFlux

open Image

variable {d : ℕ}

/-! ## Sizes -/

/-- The bytes of a point: twelve words and four texts. -/
def pointSize (point : BoundaryPoint) : ℕ :=
  12 * 8 + (point.clock.length + point.graphIdentity.length + point.rateIdentity.length +
    point.applicationIdentity.length)

/-- The bytes of an archived face: four words, two for every axis, and the density. -/
def faceSize (face : BasisFace d) : ℕ := (4 + 2 * d) * 8 + face.fluxDensity.length * 8

/-- The bytes of a shared sample: seventeen words, two texts, two arrays and a point. -/
def sharedSize (sample : SharedSample) : ℕ :=
  17 * 8 + (sample.interfaceIdentity.length + sample.routeContract.length) +
    (sample.rightComponentForLeft.length * 8 + sample.fluxDensity.length * 8) +
    pointSize sample.sourcePoint

/-- The bytes of an archive: four words, a text, three words for every axis and two for every axis
of every patch. -/
def metadataSize (archive : Archive d) : ℕ :=
  (4 + 3 * d) * 8 + archive.sourceIdentity.length + archive.patches.length * (2 * d * 8)

/-- The bytes of a snapshot: two words, a text and an archive for every generation, and a word for
every axis of a projection. -/
def snapshotSize : Snapshot d → ℕ
  | .raw archive => 2 * 8 + archive.identity.length + metadataSize archive
  | .projection archive _ parent =>
    (2 + d) * 8 + archive.identity.length + metadataSize archive + snapshotSize parent

/-- The bytes of a descriptor; it is there only if some term of the registry has a snapshot. -/
def descriptorSize (snapshots : Bool) (snapshot : Option (Snapshot d)) : ℕ :=
  if snapshots then snapshot.elim 8 snapshotSize else 0

/-- The bytes of a basis: seventeen words, a text, a point, the faces, the shared samples and the
descriptor. -/
def basisSize (snapshots : Bool) (basis : Basis d) : ℕ :=
  17 * 8 + basis.temporalFamily.length + pointSize basis.point + (basis.faces.map faceSize).sum +
    (basis.sharedSamples.map sharedSize).sum + descriptorSize snapshots basis.historySnapshot

/-- The bytes of a term: two words, three for every term of the coefficient, and the basis. -/
def termSize (snapshots : Bool) (entry : ℕ × FluxExpressionTerm (Basis d)) : ℕ :=
  2 * 8 + entry.2.coefficient.length * 24 + basisSize snapshots entry.2.basis

/-- The bytes of the expression of a slot: a word and its terms. -/
def expressionSize (snapshots : Bool) (expression : FluxExpression (Basis d)) : ℕ :=
  8 + (expression.map (termSize snapshots)).sum

/-- The bytes of a ring: two words, its key and its slots. -/
def ringSize (snapshots : Bool) (ring : List Byte × List (FluxExpression (Basis d))) : ℕ :=
  2 * 8 + ring.1.length + (ring.2.map (expressionSize snapshots)).sum

/-! ## Lengths -/

/-- One array entry for every axis. -/
lemma length_ofFn_flatten {write : Fin d → List Byte} {n : ℕ} (h : ∀ a, (write a).length = n) :
    (List.ofFn write).flatten.length = d * n := by
  rw [List.length_flatten, List.map_ofFn, show List.length ∘ write = fun _ => n from funext h,
    List.sum_ofFn, Finset.sum_const, Finset.card_univ, Fintype.card_fin, smul_eq_mul]

/-- The bytes of a sequence, in the sizes of its elements. -/
lemma length_sequence_size {α : Type} {write : α → List Byte} {size : α → ℕ}
    (h : ∀ x, (write x).length = size x) (elements : List α) :
    (sequence write elements).length = 8 + (elements.map size).sum := by
  rw [length_sequence, funext h]

/-- The bytes of two coordinates. -/
@[simp] lemma length_writePair (pair : ℤ × ℤ) : (writePair pair).length = 16 := by
  simp [writePair]

/-- The bytes of the bounds and the cell size of an axis. -/
@[simp] lemma length_writeMetric (metric : ℤ × ℤ × Binary64) :
    (writeMetric metric).length = 24 := by
  simp [writeMetric]

/-- The bytes of a patch. -/
lemma length_writePatch (patch : Box d) : (writePatch patch).length = 2 * d * 8 := by
  rw [writePatch, length_ofFn_flatten fun a => length_writePair _]
  ring

/-- The bytes of a term of a coefficient. -/
lemma length_writeCoefficient (entry : ℤ × Rational) : (writeCoefficient entry).length = 24 := by
  simp [writeCoefficient]

/-- The bytes of a point. -/
lemma length_writePoint (point : BoundaryPoint) :
    (writePoint point).length = pointSize point := by
  simp only [writePoint, List.length_append, length_bytes, length_i64, length_rational, length_real,
    pointSize]
  omega

/-- The bytes of an archived face. -/
lemma length_writeFace (face : BasisFace d) : (writeFace face).length = faceSize face := by
  have hpairs := @length_ofFn_flatten d (fun a => writePair (face.face a, face.coarseFace a)) 16
    fun a => length_writePair _
  simp only [writeFace, List.length_append, length_u64, length_i64, length_real, hpairs,
    length_sequence_const length_real, faceSize]
  omega

/-- The bytes of a shared sample. -/
lemma length_writeShared (sample : SharedSample) :
    (writeShared sample).length = sharedSize sample := by
  simp only [writeShared, List.length_append, length_bytes, length_u64, length_i64, length_real,
    length_sequence_const length_i64, length_sequence_const length_real, length_writePoint,
    sharedSize]
  omega

/-- The bytes of an archive. -/
lemma length_writePhysicalMetadata (archive : Archive d) :
    (writePhysicalMetadata archive).length = metadataSize archive := by
  have hmetrics := @length_ofFn_flatten d (fun a => writeMetric (archive.domain.lo a,
    archive.domain.hi a, archive.cellSize a)) 24 fun a => length_writeMetric _
  simp only [writePhysicalMetadata, List.length_append, length_bytes, length_i64, hmetrics,
    length_sequence_const length_writePatch, metadataSize]
  omega

/-- The bytes of a snapshot. -/
lemma length_writeSnapshot (snapshot : Snapshot d) :
    (writeSnapshot snapshot).length = snapshotSize snapshot := by
  induction snapshot with
  | raw archive =>
    simp only [writeSnapshot, List.length_append, length_u64, length_bytes,
      length_writePhysicalMetadata, snapshotSize]
    omega
  | projection archive ratio parent ih =>
    have hratio := @length_ofFn_flatten d (fun a => i64 (ratio a)) 8 fun a => length_i64 _
    simp only [writeSnapshot, List.length_append, length_u64, length_bytes,
      length_writePhysicalMetadata, hratio, ih, snapshotSize]
    omega

/-- The bytes of a descriptor. -/
lemma length_writeDescriptor (snapshots : Bool) (snapshot : Option (Snapshot d)) :
    (if snapshots then writeDescriptor snapshot else []).length =
      descriptorSize snapshots snapshot := by
  unfold descriptorSize
  cases snapshots with
  | false => rfl
  | true =>
    cases snapshot with
    | none => exact length_u64 0
    | some snapshot => exact length_writeSnapshot snapshot

/-- The bytes of a basis. -/
lemma length_writeBasis (snapshots : Bool) (basis : Basis d) :
    (writeBasis snapshots basis).length = basisSize snapshots basis := by
  simp only [writeBasis, List.length_append, length_u64, length_i64, length_bytes,
    length_clockWindow, length_writePoint, length_sequence_size length_writeFace,
    length_sequence_size length_writeShared, length_writeDescriptor, basisSize]
  omega

/-- **The bytes of a term.** -/
theorem length_writeTerm (snapshots : Bool) (entry : ℕ × FluxExpressionTerm (Basis d)) :
    (writeTerm snapshots entry).length = termSize snapshots entry := by
  simp only [writeTerm, List.length_append, length_u64,
    length_sequence_const length_writeCoefficient, length_writeBasis, termSize]
  omega

/-- **The bytes of an expression.** -/
theorem length_writeExpression (snapshots : Bool) (expression : FluxExpression (Basis d)) :
    (sequence (writeTerm snapshots) expression).length = expressionSize snapshots expression :=
  length_sequence_size (length_writeTerm snapshots) expression

/-- **The bytes of a ring.** -/
theorem length_writeRing (snapshots : Bool)
    (ring : List Byte × List (FluxExpression (Basis d))) :
    (writeRing snapshots ring).length = ringSize snapshots ring := by
  simp only [writeRing, List.length_append, length_bytes,
    length_sequence_size (length_writeExpression snapshots), ringSize]
  omega

/-- The images of elements, in their sizes. -/
lemma length_flatMap_size {α : Type} {write : α → List Byte} {size : α → ℕ}
    (h : ∀ x, (write x).length = size x) (elements : List α) :
    (elements.flatMap write).length = (elements.map size).sum := by
  rw [List.length_flatMap, funext h]

/-- A face has at least a density of one value. -/
lemma faceSize_ge {face : BasisFace d} (h : face.fluxDensity ≠ []) :
    (5 + 2 * d) * 8 ≤ faceSize face := by
  have hdensity := List.length_pos_of_ne_nil h
  unfold faceSize
  omega

/-- A shared sample has at least 29 words. -/
lemma sharedSize_ge (sample : SharedSample) : 232 ≤ sharedSize sample := by
  unfold sharedSize pointSize
  omega

/-- **A term has at least 34 words**; in three dimensions the reader expects 35. -/
theorem termSize_ge (snapshots : Bool) {entry : ℕ × FluxExpressionTerm (Basis d)}
    (h : entry.2.coefficient ≠ []) : 34 * 8 ≤ termSize snapshots entry := by
  have hcoefficient := List.length_pos_of_ne_nil h
  unfold termSize basisSize pointSize
  omega

end HistoryFlux

end Pops
