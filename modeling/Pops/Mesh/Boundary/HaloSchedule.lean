import Pops.Foundation.Routing
import Pops.Mesh.Layout.Distribution

/-!
# Halo schedules

`pops::HaloSchedule`: the per-rank plan that fills the ghost cells of every patch from the valid
cells of the same level.  The constructor enumerates the periodic images that can reach the
requested ghost depth, intersects every grown patch with every shifted patch, cuts the patch
itself out of the intersection and classifies the resulting jobs by ownership.

## Main definitions

* `Pops.HaloSchedule`, `HaloSchedule.create` — the plan and its constructor.
* `Pops.HaloSchedule.subtract` — the decomposition of a box minus another one.
* `Pops.HaloSchedule.imageShift` — translations by whole domain lengths along the periodic axes.
* `Pops.HaloSchedule.collectJobs`, `classify` — the jobs in loop order, and what a rank does with
  each.
-/

namespace Pops

/-! ## Topology -/

/-- A side of an axis. -/
inductive BoundarySide
  | lower
  | upper
  deriving DecidableEq, Repr

/-- One oriented Cartesian domain face. -/
structure Face (d : ℕ) where
  axis : Fin d
  side : BoundarySide
  deriving DecidableEq

/-- Whether a face is physical or identified with the opposite one. -/
inductive BoundaryFaceKind
  | physical
  | periodic
  deriving DecidableEq, Repr

/-- Cartesian topology: every face has a kind, and periodic faces come in pairs of opposite sides
of one axis. -/
structure BoundaryTopology (d : ℕ) where
  kind : Face d → BoundaryFaceKind
  paired : ∀ axis, kind ⟨axis, .lower⟩ = kind ⟨axis, .upper⟩

namespace BoundaryTopology

variable {d : ℕ}

/-- The face is periodic. -/
def IsPeriodic (topology : BoundaryTopology d) (face : Face d) : Prop :=
  topology.kind face = .periodic

instance (topology : BoundaryTopology d) (face : Face d) : Decidable (topology.IsPeriodic face) :=
  inferInstanceAs (Decidable (_ = _))

/-- The topology with the given periodic axes. -/
def axisPeriodic (periodicAxes : Fin d → Bool) : BoundaryTopology d where
  kind face := if periodicAxes face.axis then .periodic else .physical
  paired _ := rfl

end BoundaryTopology

/-! ## The schedule -/

/-- Finite preparation budget of a halo schedule. -/
structure HaloScheduleBudget where
  layout : BoxArrayValidationBudget
  boxImagePairs : ℕ
  jobs : ℕ
  periodicImages : ℕ
  peerPlans : ℕ
  localElements : ℕ
  sendElements : ℕ
  receiveElements : ℕ

/-- The coverage contract of a halo schedule. -/
inductive HaloLayoutCoverage
  | fullDomain
  | sparseLevel
  deriving DecidableEq, Repr

/-- One box of ghost cells of a destination patch, filled from one source patch. -/
@[ext] structure HaloJob (d : ℕ) where
  sourceBox : ℕ
  destinationBox : ℕ
  destinationRegion : Box d
  sourceFromDestination : Index d
  offset : ℕ
  elements : ℕ
  deriving DecidableEq

/-- The jobs shared with one peer and the number of their elements. -/
structure HaloPeerPlan (d : ℕ) where
  peer : Index d
  jobs : List (HaloJob d)
  elements : ℕ

/-- The constructor arguments that all ranks share. -/
structure HaloInputs (d : ℕ) where
  layout : BoxArray d
  distribution : Distribution d
  domain : Box d
  ghosts : Extent d
  topology : BoundaryTopology d
  ncomp : ℤ
  coverage : HaloLayoutCoverage
  ncomp_isInt : IsInt ncomp

/-- A per-rank immutable halo plan. -/
structure HaloSchedule (d : ℕ) where
  inputs : HaloInputs d
  localRank : Index d
  canonicalJobs : List (HaloJob d)
  localJobs : List (HaloJob d)
  send : List (HaloPeerPlan d)
  receive : List (HaloPeerPlan d)
  localElements : ℕ
  sendElements : ℕ
  receiveElements : ℕ

namespace HaloSchedule

variable {d : ℕ}

/-- A checked product of sizes. -/
def checkedProduct (left right : ℕ) (operation : String) : Throws ℕ := do
  throwIf (left ≠ 0 ∧ right > sizeMax / left) (lengthError operation)
  pure (left * right)

/-- A checked addition within a limit. -/
def checkedAdd (total value limit : ℕ) (operation : String) : Throws ℕ := do
  throwIf (total > limit ∨ value > limit - total) (lengthError operation)
  pure (total + value)

/-- A checked product of nonnegative `std::int64_t` values. -/
def checkedMultiply (left right : ℤ) (operation : String) : Throws ℤ := do
  throwIf (left < 0 ∨ right < 0) (invalidArgument operation)
  throwIf (left ≠ 0 ∧ right > int64Max.tdiv left) (overflowError operation)
  pure (left * right)

/-- The patch together with its ghost cells. -/
def grow (box : Box d) (ghosts : Extent d) : Throws (Box d) :=
  (List.finRange d).foldlM (fun result axis => do
    throwIf (ghosts axis < 0)
      (invalidArgument "pops::HaloSchedule ghost extents must be non-negative")
    let amount ← checkedIndex (ghosts axis) "pops::HaloSchedule ghost extent exceeds int"
    result.grow axis amount) box

/-- Cut the part of the remainder below the overlap off along one axis. -/
def cutLower (overlap : Box d) (axis : Fin d) (state : List (Box d) × Box d) :
    List (Box d) × Box d :=
  if state.2.lo axis < overlap.lo axis then
    (state.1 ++ [state.2.setHi axis (overlap.lo axis - 1)],
      state.2.setLo axis (overlap.lo axis))
  else state

/-- Cut the part of the remainder above the overlap off along one axis. -/
def cutUpper (overlap : Box d) (axis : Fin d) (state : List (Box d) × Box d) :
    List (Box d) × Box d :=
  if overlap.hi axis < state.2.hi axis then
    (state.1 ++ [state.2.setLo axis (overlap.hi axis + 1)],
      state.2.setHi axis (overlap.hi axis))
  else state

/-- The disjoint decomposition of `subject` minus `cut`. -/
def subtract (subject cut : Box d) : List (Box d) :=
  let overlap := subject.intersect cut
  if overlap.Empty then [subject]
  else if overlap = subject then []
  else ((List.finRange d).foldl
    (fun state axis => cutUpper overlap axis (cutLower overlap axis state)) ([], subject)).1

/-- The number of periodic images along one axis. -/
def axisImageCount (inputs : HaloInputs d) (axis : Fin d) : Throws ℕ := do
  throwIf (inputs.ghosts axis < 0)
    (invalidArgument "pops::HaloSchedule ghost extents must be non-negative")
  if inputs.topology.IsPeriodic ⟨axis, .lower⟩ ∧ inputs.ghosts axis ≠ 0 then
    throwIf (inputs.domain.length axis ≤ 0)
      (invalidArgument "pops::HaloSchedule periodic domain must be non-empty")
    let wraps := 1 + (inputs.ghosts axis - 1).tdiv (inputs.domain.length axis)
    throwIf (wraps > ((sizeMax - 1) / 2 : ℕ))
      (lengthError "pops::HaloSchedule periodic image count exceeds size_t")
    pure (1 + 2 * wraps.toNat)
  else pure 1

/-- The number of periodic images along every axis, and their product. -/
def imageCounts (inputs : HaloInputs d) : Throws ((Fin d → ℕ) × ℕ) :=
  (List.finRange d).foldlM (fun state axis => do
    let count ← axisImageCount inputs axis
    let total ← checkedProduct state.2 count
      "pops::HaloSchedule periodic image product exceeds size_t"
    pure (Function.update state.1 axis count, total)) (fun _ => 0, 1)

/-- The shift along one axis of an image option: `0`, then `±1`, `±2`, … domain lengths. -/
def axisShift (option : ℕ) (length : ℤ) : Throws ℤ :=
  if option = 0 then pure 0
  else do
    let wrap := 1 + (option - 1) / 2
    throwIf ((wrap : ℤ) > int64Max)
      (overflowError "pops::HaloSchedule periodic wrap exceeds int64_t")
    let magnitude ← checkedMultiply wrap length
      "pops::HaloSchedule periodic shift overflows int64_t"
    checkedIndex (if option % 2 = 1 then magnitude else -magnitude)
      "pops::HaloSchedule periodic shift exceeds Index range"

/-- The shift of an image ordinal. -/
def imageShift (ordinal : ℕ) (counts : Fin d → ℕ) (domain : Box d) : Throws (Index d) :=
  forEachAxis fun axis => axisShift (MixedRadix.unrank counts ordinal axis) (domain.length axis)

/-- The opposite of a shift. -/
def negate (value : Index d) : Throws (Index d) :=
  forEachAxis fun axis => checkedIndex (-value axis)
    "pops::HaloSchedule periodic shift negation overflows"

/-- The number of elements of a region over all components. -/
def checkedElements (ncomp : ℤ) (region : Box d) : Throws ℕ := do
  let cells ← region.numPts
  throwIf (cells ≤ 0 ∨ cells.toNat > sizeMax / ncomp.toNat)
    (overflowError "pops::HaloSchedule payload size exceeds size_t")
  pure (cells.toNat * ncomp.toNat)

/-! ## The job loops -/

/-- The innermost loop: one region of the decomposition becomes a job. -/
def addRegion (inputs : HaloInputs d) (jobBudget : ℕ) (destination source : Box d × ℕ)
    (shift : Index d) (jobs : List (HaloJob d)) (region : Box d) : Throws (List (HaloJob d)) := do
  throwIf (jobs.length ≥ jobBudget) (lengthError "pops::HaloSchedule job budget exceeded")
  let sourceRegion ← region.shift shift
  throwIf (¬ source.1.ContainsBox sourceRegion)
    (logicError "pops::HaloSchedule generated an invalid source region")
  let elements ← checkedElements inputs.ncomp region
  pure (jobs ++ [⟨source.2, destination.2, region, shift, 0, elements⟩])

/-- The loop over the source patches of one image. -/
def addSource (inputs : HaloInputs d) (jobBudget : ℕ) (destination : Box d × ℕ) (grown : Box d)
    (shift inverse : Index d) (jobs : List (HaloJob d)) (source : Box d × ℕ) :
    Throws (List (HaloJob d)) := do
  let image ← source.1.shift inverse
  if (grown.intersect image).Empty then
    pure jobs
  else
    (subtract (grown.intersect image) destination.1).foldlM
      (addRegion inputs jobBudget destination source shift) jobs

/-- The loop over the periodic images of one destination patch. -/
def addImage (inputs : HaloInputs d) (jobBudget : ℕ) (counts : Fin d → ℕ)
    (destination : Box d × ℕ) (grown : Box d) (jobs : List (HaloJob d)) (image : ℕ) :
    Throws (List (HaloJob d)) := do
  let shift ← imageShift image counts inputs.domain
  let inverse ← negate shift
  inputs.layout.boxes.zipIdx.foldlM (addSource inputs jobBudget destination grown shift inverse)
    jobs

/-- The loop over the destination patches. -/
def addDestination (inputs : HaloInputs d) (jobBudget : ℕ) (counts : Fin d → ℕ) (total : ℕ)
    (jobs : List (HaloJob d)) (destination : Box d × ℕ) : Throws (List (HaloJob d)) := do
  let grown ← grow destination.1 inputs.ghosts
  (List.range total).foldlM (addImage inputs jobBudget counts destination grown) jobs

/-- The canonical jobs, in loop order. -/
def collectJobs (inputs : HaloInputs d) (jobBudget : ℕ) (counts : Fin d → ℕ) (total : ℕ) :
    Throws (List (HaloJob d)) :=
  inputs.layout.boxes.zipIdx.foldlM (addDestination inputs jobBudget counts total) []

/-! ## Classification -/

/-- The plan of a peer takes up jobs one after another; a job starts at the element count. -/
def peerPlan : Grouping.Collector (Index d) (HaloJob d) (HaloPeerPlan d) where
  key := HaloPeerPlan.peer
  fresh peer := ⟨peer, [], 0⟩
  push plan job := { plan with
    jobs := plan.jobs ++ [{ job with offset := plan.elements }]
    elements := plan.elements + job.elements }
  key_fresh _ := rfl
  key_push _ _ := rfl

/-- The size in bytes of a peer plan. -/
def peerPlanBytes (d : ℕ) : ℕ := (4 * d + 7) / 8 * 8 + 32

/-- The plan of a peer; a new one must respect the limit. -/
def findPlan (plans : List (HaloPeerPlan d)) (peer : Index d) (limit : ℕ) :
    Throws (HaloPeerPlan d) :=
  match Grouping.find HaloPeerPlan.peer plans peer with
  | some plan => pure plan
  | none => do
    throwIf (plans.length ≥ limit ∨ plans.length ≥ vectorMaxSize (peerPlanBytes d))
      (lengthError "pops::HaloSchedule peer plan budget exceeded")
    pure ⟨peer, [], 0⟩

/-- A new peer must leave the send and receive plans together within the limit. -/
def requirePeerBudget (schedule : HaloSchedule d) (plans : List (HaloPeerPlan d))
    (peer : Index d) (limit : ℕ) : Throws Unit :=
  if ∃ plan ∈ plans, plan.peer = peer then pure ()
  else throwIf (schedule.send.length > limit ∨
      schedule.receive.length ≥ limit - schedule.send.length)
    (lengthError "pops::HaloSchedule peer plan budget exceeded")

/-- Sort a job into the local jobs, a send plan or a receive plan of this rank. -/
def classify (budget : HaloScheduleBudget) (schedule : HaloSchedule d) (job : HaloJob d) :
    Throws (HaloSchedule d) := do
  let sourceLocal ← schedule.inputs.distribution.isLocal job.sourceBox schedule.localRank
  let destinationLocal ←
    schedule.inputs.distribution.isLocal job.destinationBox schedule.localRank
  if sourceLocal && destinationLocal then
    let total ← checkedAdd schedule.localElements job.elements budget.localElements
      "pops::HaloSchedule local element budget exceeded"
    pure { schedule with
      localJobs := schedule.localJobs ++ [{ job with offset := schedule.localElements }]
      localElements := total }
  else
    throwIf schedule.inputs.distribution.Replicated
      (logicError "pops::HaloSchedule replicated ownership classification is invalid")
    if sourceLocal then
      let peer ← schedule.inputs.distribution.owner job.destinationBox
      requirePeerBudget schedule schedule.send peer budget.peerPlans
      let plan ← findPlan schedule.send peer budget.peerPlans
      let _ ← checkedAdd plan.elements job.elements budget.sendElements
        "pops::HaloSchedule peer send elements exceed budget"
      let total ← checkedAdd schedule.sendElements job.elements budget.sendElements
        "pops::HaloSchedule send element budget exceeded"
      pure { schedule with
        send := peerPlan.append schedule.send peer job
        sendElements := total }
    else if destinationLocal then
      let peer ← schedule.inputs.distribution.owner job.sourceBox
      requirePeerBudget schedule schedule.receive peer budget.peerPlans
      let plan ← findPlan schedule.receive peer budget.peerPlans
      let _ ← checkedAdd plan.elements job.elements budget.receiveElements
        "pops::HaloSchedule peer receive elements exceed budget"
      let total ← checkedAdd schedule.receiveElements job.elements budget.receiveElements
        "pops::HaloSchedule receive element budget exceeded"
      pure { schedule with
        receive := peerPlan.append schedule.receive peer job
        receiveElements := total }
    else pure schedule

/-- Sort peer plans by the linear rank of the peer.  Peers are owners of patches, which the
process space contains, so the comparison never throws. -/
def sortPeerPlans (space : RankSpace d) (plans : List (HaloPeerPlan d)) : List (HaloPeerPlan d) :=
  plans.mergeSort fun left right => space.rankOf left.peer ≤ space.rankOf right.peer

/-- The coverage check of the constructor. -/
def validateCoverage (inputs : HaloInputs d) (budget : BoxArrayValidationBudget) :
    Throws Unit :=
  match inputs.coverage with
  | .fullDomain => do
    let tiles ← inputs.layout.tilesExactly inputs.domain budget
    throwIf (tiles = false)
      (invalidArgument "pops::HaloSchedule full-domain layout must tile exactly")
  | .sparseLevel => do
    let disjoint ← inputs.layout.isDisjointWithin inputs.domain budget
    throwIf (disjoint = false) (invalidArgument
      "pops::HaloSchedule sparse layout must be disjoint and inside its domain")

/-- The constructor. -/
def create (inputs : HaloInputs d) (localRank : Index d) (budget : HaloScheduleBudget) :
    Throws (HaloSchedule d) := do
  throwIf (inputs.distribution.layout ≠ inputs.layout)
    (invalidArgument "pops::HaloSchedule distribution does not match its layout")
  throwIf (¬ inputs.distribution.rankSpace.Contains localRank)
    (outOfRange "pops::HaloSchedule local rank is outside the rank space")
  validateCoverage inputs budget.layout
  throwIf (inputs.ncomp < 1)
    (invalidArgument "pops::HaloSchedule component count must be positive")
  let images ← imageCounts inputs
  throwIf (images.2 > budget.periodicImages)
    (lengthError "pops::HaloSchedule periodic image budget exceeded")
  let pairCount ← checkedProduct inputs.layout.boxes.length inputs.layout.boxes.length
    "pops::HaloSchedule patch pair count exceeds size_t"
  let work ← checkedProduct pairCount images.2 "pops::HaloSchedule box-image work exceeds size_t"
  throwIf (work > budget.boxImagePairs)
    (lengthError "pops::HaloSchedule box-image pair budget exceeded")
  let jobs ← collectJobs inputs budget.jobs images.1 images.2
  let schedule ← jobs.foldlM (classify budget) ⟨inputs, localRank, jobs, [], [], [], 0, 0, 0⟩
  pure { schedule with
    send := sortPeerPlans inputs.distribution.rankSpace schedule.send
    receive := sortPeerPlans inputs.distribution.rankSpace schedule.receive }

end HaloSchedule

end Pops
