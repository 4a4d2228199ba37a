import Pops.Amr.Levels.Rational
import Pops.Foundation.Binary64
import Pops.Foundation.OrderedMap
import Pops.Foundation.PrefixCode
import Pops.Mesh.Index.Box

/-!
# Archived history fluxes

A history flux of an earlier step is archived with the geometry of its level.  When a level is
refined, the archive of the finer level is a projection of its parent: a face of the fine level is
read from the faces of the coarse level, by linear interpolation along its normal and constant
injection along its tangents.  `source_queries` resolves a face through a lineage of projections to
weighted faces of the archive at its root.  The comparison of cell sizes is a floating-point test
and a parameter here.

## Main definitions

* `Pops.HistoryFlux.FaceQuery` — a face and the order of the queries.
* `Pops.HistoryFlux.Snapshot` — a lineage of archives.
* `Pops.HistoryFlux.sourceQueries` — the weighted faces of the root.
-/

namespace Pops

namespace HistoryFlux

/-- A face orthogonal to an axis. -/
structure FaceQuery (d : ℕ) where
  axis : Fin d
  face : Index d

namespace FaceQuery

variable {d : ℕ}

/-- A query is its axis and its face. -/
@[ext] protected theorem ext {p q : FaceQuery d} (haxis : p.axis = q.axis)
    (hface : p.face = q.face) :
    p = q := by
  cases p
  cases q
  simp only at haxis hface
  rw [haxis, hface]

/-- The coordinates in the order in which queries are compared: the axis, then the face from its
last coordinate to its first. -/
def code (query : FaceQuery d) : List ℤ := (query.axis : ℤ) :: (List.ofFn query.face).reverse

/-- Different queries have different codes. -/
lemma code_injective : Function.Injective (code (d := d)) := by
  intro p q h
  obtain ⟨haxis, hface⟩ := List.cons.inj h
  refine FaceQuery.ext (Fin.ext (by exact_mod_cast haxis)) ?_
  exact List.ofFn_injective (List.reverse_injective hface)

instance : LinearOrder (FaceQuery d) := LinearOrder.lift' code code_injective

/-- The next face along the axis. -/
def next (query : FaceQuery d) : FaceQuery d :=
  ⟨query.axis, Function.update query.face query.axis (query.face query.axis + 1)⟩

end FaceQuery

/-- `nd::face_box`: the faces of a box along an axis. -/
def faceBox {d : ℕ} (cells : Box d) (axis : Fin d) : Throws (Box d) :=
  if cells.Empty then pure cells
  else do
    throwIf (cells.hi axis = intMax)
      (overflowError "ND face-box upper bound exceeds the signed index range")
    pure (cells.setHi axis (cells.hi axis + 1))

/-- The archive of one level.  `owned` are the patches whose samples are stored here. -/
structure Archive (d : ℕ) where
  identity : List Byte
  sourceIdentity : List Byte
  level : ℤ
  components : ℤ
  domain : Box d
  cellSize : Fin d → Binary64
  patches : List (Box d)
  owners : List ℤ
  rankCount : ℤ
  localRank : ℤ
  owned : List ℕ

/-- A lineage of archives: a raw one, or the projection of a parent by refinement ratios. -/
inductive Snapshot (d : ℕ)
  | raw (archive : Archive d)
  | projection (archive : Archive d) (ratio : Fin d → ℤ) (parent : Snapshot d)

namespace Snapshot

variable {d : ℕ}

/-- The archive of the level itself. -/
def archive : Snapshot d → Archive d
  | .raw archive => archive
  | .projection archive _ _ => archive

/-- The raw archive at the end of the lineage. -/
def root : Snapshot d → Archive d
  | .raw archive => archive
  | .projection _ _ parent => parent.root

/-- The product of the ratios of the lineage. -/
def ratios : Snapshot d → Fin d → ℤ
  | .raw _ => fun _ => 1
  | .projection _ ratio parent => fun a => ratio a * parent.ratios a

end Snapshot

/-- The weighted faces of one level. -/
abbrev Queries (d : ℕ) := List (FaceQuery d × Rational)

section

variable {d : ℕ} (metricMismatch : Binary64 → ℤ → Binary64 → Bool)

/-- The checks of `metadata` that do not depend on a parent. -/
def checkArchive (s : Archive d) : Throws Unit := do
  throwIf (s.identity = [] ∨ s.level < 0 ∨ s.components ≤ 0 ∨ s.domain.Empty ∨ s.rankCount ≤ 0 ∨
      s.localRank < 0 ∨ s.localRank ≥ s.rankCount ∨ s.patches = [] ∨
      s.owners.length ≠ s.patches.length)
    (invalidArgument "AMR history flux snapshot metadata is invalid")
  let _ ← forEachAxis fun a => do
    throwIf (¬ Binary64.isFinite (s.cellSize a) ∨ ¬ Binary64.isPositive (s.cellSize a))
      (invalidArgument "AMR history flux cell metric is invalid")
    faceBox s.domain a
  pure ()

/-- The checks of `metadata` on one axis of a projection. -/
def checkRatio (s p : Archive d) (ratio : Fin d → ℤ) (a : Fin d) : Throws Unit := do
  throwIf (ratio a < 1) (invalidArgument "AMR history flux refinement ratio is invalid")
  throwIf (p.domain.Empty ∨ s.domain.length a ≠ p.domain.length a * ratio a)
    (invalidArgument "AMR history flux projection domain extent mismatch")
  throwIf (metricMismatch (p.cellSize a) (ratio a) (s.cellSize a))
    (invalidArgument "AMR history flux projection metric mismatch")

/-- `detail::metadata`: the checks of a snapshot and of its projection from the parent. -/
def metadata : Snapshot d → Throws Unit
  | .raw s => do
    checkArchive s
    throwIf (s.sourceIdentity = [])
      (invalidArgument "AMR history flux raw source identity is missing")
  | .projection s ratio parent => do
    checkArchive s
    throwIf (s.level ≤ 0 ∨ parent.archive.level ≠ s.level - 1 ∨
        s.components ≠ parent.archive.components ∨ s.owned ≠ [] ∨
        s.rankCount ≠ parent.archive.rankCount ∨ s.localRank ≠ parent.archive.localRank)
      (invalidArgument "AMR history flux projection lineage is invalid")
    let _ ← forEachAxis (checkRatio metricMismatch s parent.archive ratio)
    throwIf (∀ a, ¬ ratio a > 1)
      (invalidArgument "AMR history flux projection must refine at least one axis")

/-- The first of these patches whose faces have the face. -/
def supportingFrom (query : FaceQuery d) : List (Box d) → ℕ → Throws ℕ
  | [], _ => throw (outOfRange "AMR history flux query has no archived face support")
  | cells :: rest, patch => do
    let faces ← faceBox cells query.axis
    if faces.Contains query.face then pure patch else supportingFrom query rest (patch + 1)

/-- `detail::supporting_patch`: the patch that supports a query. -/
def supportingPatch (s : Archive d) (query : FaceQuery d) : Throws ℕ :=
  supportingFrom query s.patches 0

/-- The quotient of the floor division, from the division that truncates. -/
def floorQuotient (relative ratio : ℤ) : ℤ :=
  relative.tdiv ratio - if relative.tmod ratio < 0 then 1 else 0

/-- The coarse face at or below a fine face. -/
def lowerFace (domain parentDomain : Box d) (ratio : Fin d → ℤ) (query : FaceQuery d) :
    Throws (FaceQuery d) := do
  let face ← forEachAxis fun a => checkedIndex
    (parentDomain.lo a + floorQuotient (query.face a - domain.lo a) (ratio a))
    "AMR history flux projected face exceeds integer coordinates"
  pure ⟨query.axis, face⟩

/-- What the fine face leaves of the floor division along its normal. -/
def normalRemainder (domain : Box d) (ratio : Fin d → ℤ) (query : FaceQuery d) : ℤ :=
  let relative := query.face query.axis - domain.lo query.axis
  relative - floorQuotient relative (ratio query.axis) * ratio query.axis

/-- `next[face] = next[face] + weight * Rational(part, ratio)`: add a share of a weight to the
weight of a face. -/
def addWeight (next : Queries d) (face : FaceQuery d) (weight : Rational) (part ratio : ℤ) :
    Throws (Queries d) := do
  let share ← Rational.create part ratio
  let product ← weight.mul share
  let sum ← ((OrderedMap.lookup next face).getD ⟨0, 1⟩).add product
  pure (OrderedMap.assign next face sum)

/-- The projection of one weighted face to the parent. -/
def projectQuery (domain parentDomain : Box d) (ratio : Fin d → ℤ) (next : Queries d)
    (entry : FaceQuery d × Rational) : Throws (Queries d) := do
  let lower ← lowerFace domain parentDomain ratio entry.1
  let remainder := normalRemainder domain ratio entry.1
  let next' ← addWeight next lower entry.2 (ratio entry.1.axis - remainder) (ratio entry.1.axis)
  if remainder ≠ 0 then do
    let coordinate ← checkedIndex (lower.face entry.1.axis + 1)
      "AMR history flux upper face exceeds integer coordinates"
    addWeight next' ⟨entry.1.axis, Function.update lower.face entry.1.axis coordinate⟩ entry.2
      remainder (ratio entry.1.axis)
  else pure next'

/-- The checks of one level on its queries. -/
def checkLevel (snapshot : Snapshot d) (levels : ℕ) (queries : Queries d) : Throws Unit := do
  throwIf (levels = 0) (invalidArgument "AMR history flux query lineage exceeds its bound")
  metadata metricMismatch snapshot
  forEach queries fun entry => (supportingPatch snapshot.archive entry.1).map fun _ => ()

/-- The loop of `source_queries` down the lineage; `levels` is what is left of its bound. -/
def resolve : Snapshot d → ℕ → Queries d → Throws (Queries d)
  | .raw s, levels, queries => do
    checkLevel metricMismatch (.raw s) levels queries
    pure queries
  | .projection s ratio parent, levels, queries => do
    checkLevel metricMismatch (.projection s ratio parent) levels queries
    let next ← queries.foldlM (projectQuery s.domain parent.archive.domain ratio) []
    resolve parent (levels - 1) next

/-- `source_queries`: the weighted faces of the root archive. -/
def sourceQueries (snapshot : Snapshot d) (query : FaceQuery d) (maxLevels : ℕ) :
    Throws (Queries d) :=
  resolve metricMismatch snapshot maxLevels [(query, ⟨1, 1⟩)]

end

end HistoryFlux

end Pops
