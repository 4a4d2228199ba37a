import Pops.Foundation.FiberAverage
import Pops.Mesh.Execution.ForEach
import Pops.Mesh.Layout.CopySchedule

/-!
# Layout redistribution and piecewise-constant transfer

`pops::parallel_copy`, `pops::average_down` and `pops::interpolate`.  Averaging runs on a scratch
field over the coarsened fine layout, with one coarse patch for every fine patch, and a copy
schedule redistributes the scratch field to the coarse layout; interpolation goes the other way.
Cell values are elements of a field.

## Main definitions

* `Pops.Refinement.coarsen`, `refine` — boxes and layouts under a ratio.
* `Pops.Refinement.parallelCopy` — the replay of a copy schedule.
* `Pops.Refinement.averageDown`, `interpolate` — the two transfers.
-/

namespace Pops

variable {d : ℕ}

/-- The layout of boxes that are stored with `int` bounds. -/
def BoxArray.ofBoxes (boxes : List (Box d)) : BoxArray d where
  boxes := boxes.map fun b => ⟨fun a => castInt (b.lo a), fun a => castInt (b.hi a)⟩
  isInt b hb := by
    obtain ⟨_, _, rfl⟩ := List.mem_map.mp hb
    exact fun a => ⟨isInt_castInt _, isInt_castInt _⟩

/-! ## Schedules and fields -/

namespace CopySchedule

variable {V : Type}

/-- The schedule has jobs for other ranks. -/
def HasRemoteJobs (schedule : CopySchedule d) : Prop :=
  schedule.send ≠ [] ∨ schedule.receive ≠ []

instance (schedule : CopySchedule d) : Decidable schedule.HasRemoteJobs :=
  decidable_of_iff (schedule.send.isEmpty = false ∨ schedule.receive.isEmpty = false)
    (by simp [HasRemoteJobs])

/-- Only schedules without remote jobs can be executed. -/
def requireLocalExecution (schedule : CopySchedule d) : Throws Unit :=
  throwIf schedule.HasRemoteJobs (logicError
    "pops::CopySchedule contains remote ND jobs; this build has no production ND transport")

/-- The schedule was prepared for these fields. -/
def authenticate (schedule : CopySchedule d) (destination source : MultiFab d V) : Throws Unit :=
  throwIf (destination.layout ≠ schedule.destinationLayout ∨
      destination.distribution ≠ schedule.destinationDistribution ∨
      source.layout ≠ schedule.sourceLayout ∨
      source.distribution ≠ schedule.sourceDistribution ∨
      destination.localRank ≠ schedule.localRank ∨ source.localRank ≠ schedule.localRank)
    (invalidArgument "pops::CopySchedule does not match the source/destination fields")

/-- The schedule between two fields. -/
def prepare (destination source : MultiFab d V) (budget : CopyScheduleBudget) :
    Throws (CopySchedule d) := do
  throwIf (destination.localRank ≠ source.localRank)
    (invalidArgument "pops::prepare_copy_schedule fields use different local ranks")
  create destination.layout destination.distribution source.layout source.distribution
    destination.localRank budget

end CopySchedule

namespace Refinement

/-! ## Ratios -/

/-- The ratios are positive `int` values. -/
def validateRatio (ratio : Extent d) (operation : String) : Throws Unit := do
  let _ ← forEachAxis fun axis => throwIf (ratio axis ≤ 0 ∨ ratio axis > intMax)
    (invalidArgument (operation ++ ": refinement ratios must be positive native indices"))

/-- The checked number of fine cells of a coarse cell. -/
def childCount (ratio : Extent d) (operation : String) : Throws ℤ := do
  validateRatio ratio operation
  (List.finRange d).foldlM (fun result axis => do
    throwIf (result > int64Max / ratio axis)
      (overflowError (operation ++ ": child count exceeds int64_t"))
    pure (result * ratio axis)) 1

/-- Truncated division corrected to the floor. -/
def floorDivIndex (numerator denominator : ℤ) : Throws ℤ := do
  throwIf (denominator ≤ 0)
    (invalidArgument "pops::Box::coarsen: ratio must be strictly positive")
  throwIf (numerator = intMin ∧ denominator = -1)
    (overflowError "pops::Box::coarsen: quotient is outside the signed index range")
  let quotient := numerator.tdiv denominator
  let remainder := numerator.tmod denominator
  pure (if remainder < 0 then quotient - 1 else quotient)

/-! ## Boxes and layouts -/

/-- Coarsen a box. -/
def coarsen (box : Box d) (ratio : Extent d) : Throws (Box d) := do
  validateRatio ratio "pops::coarsen"
  if box.Empty then pure box
  else do
    let bounds ← forEachAxis fun axis => do
      let lower ← floorDivIndex (box.lo axis) (ratio axis)
      let upper ← floorDivIndex (box.hi axis) (ratio axis)
      pure (lower, upper)
    pure ⟨fun a => (bounds a).1, fun a => (bounds a).2⟩

/-- Refine a box. -/
def refine (box : Box d) (ratio : Extent d) : Throws (Box d) := do
  validateRatio ratio "pops::refine"
  if box.Empty then pure box
  else do
    let bounds ← forEachAxis fun axis => do
      let lower ← checkedIndex (box.lo axis * ratio axis)
        "pops::refine lower bound exceeds Index range"
      let upper ← checkedIndex (box.hi axis * ratio axis + ratio axis - 1)
        "pops::refine upper bound exceeds Index range"
      pure (lower, upper)
    pure ⟨fun a => (bounds a).1, fun a => (bounds a).2⟩

/-- Coarsen every patch of a layout. -/
def coarsenLayout (layout : BoxArray d) (ratio : Extent d) : Throws (BoxArray d) := do
  let boxes ← layout.boxes.mapM fun box => coarsen box ratio
  pure (BoxArray.ofBoxes boxes)

/-- Refine every patch of a layout. -/
def refineLayout (layout : BoxArray d) (ratio : Extent d) : Throws (BoxArray d) := do
  let boxes ← layout.boxes.mapM fun box => refine box ratio
  pure (BoxArray.ofBoxes boxes)

/-- The ownership of another layout, carried over patch by patch. -/
def rebindDistribution (layout : BoxArray d) (model : Distribution d) :
    Throws (Distribution d) := do
  throwIf (layout.boxes.length ≠ model.layout.boxes.length) (invalidArgument
    "pops::refinement distribution rebind requires the same global patch count")
  if model.Replicated then Distribution.replicated layout model.rankSpace
  else Distribution.partitioned layout model.rankSpace model.owners

/-! ## Kernels -/

/-- The fine cell of an ordinal in a coarse cell. -/
def fineIndex (ratio : Extent d) (coarseIndex : Index d) (ordinal : ℕ) : Index d := fun axis =>
  castInt (coarseIndex axis * ratio axis +
    MixedRadix.unrank (fun a => (ratio a).toNat) ordinal axis)

/-- The coarse cell of a fine cell. -/
def coarseIndex (ratio : Extent d) (fineIndex : Index d) : Index d := fun axis =>
  let quotient := (fineIndex axis).tdiv (ratio axis)
  castInt (if (fineIndex axis).tmod (ratio axis) < 0 then quotient - 1 else quotient)

section Kernels

variable {K : Type} (data : ℕ × ℤ → K)

/-- The copied value. -/
def copyKernel (source : FieldView d) (sourceComponent : ℤ) (index : Index d) (component : ℕ) :
    K :=
  data (source.address index (sourceComponent + component))

/-- The average of the fine cells of a coarse cell. -/
def averageDownKernel [Field K] (fine : FieldView d) (ratio : Extent d) (children : ℤ)
    (index : Index d) (component : ℕ) : K :=
  (List.range children.toNat).foldl (fun sum ordinal =>
    sum + data (fine.address (fineIndex ratio index ordinal) component)) 0 / (children : K)

/-- The value of the coarse cell of a fine cell. -/
def interpolateKernel (coarse : FieldView d) (ratio : Extent d) (index : Index d)
    (component : ℕ) : K :=
  data (coarse.address (coarseIndex ratio index) component)

end Kernels

/-- The launches of the copy and of the transfer kernels. -/
structure TransferSpace (d : ℕ) where
  copy : CellLaunches d
  transfer : CellLaunches d

/-! ## Transfers -/

section Transfers

variable {K : Type}

/-- One job of a copy. -/
def copyJob (launches : CellLaunches d) (source : MultiFab d K)
    (destinationComponent sourceComponent componentCount : ℤ) (destination : MultiFab d K)
    (job : CopyJob d) : Throws (MultiFab d K) := do
  let destinationFab ← destination.fabGlobal job.destinationBox
  let sourceFab ← source.fabGlobal job.sourceBox
  destination.launch launches destinationFab job.region destinationComponent componentCount
    (copyKernel source.data sourceFab sourceComponent)

/-- Replay a schedule on a range of components. -/
def parallelCopyComponents (launches : CellLaunches d) (destination source : MultiFab d K)
    (schedule : CopySchedule d) (destinationComponent sourceComponent componentCount : ℤ) :
    Throws (MultiFab d K) := do
  schedule.authenticate destination source
  throwIf (destinationComponent < 0 ∨ sourceComponent < 0 ∨ componentCount ≤ 0 ∨
      destinationComponent > destination.ncomp - componentCount ∨
      sourceComponent > source.ncomp - componentCount)
    (invalidArgument "pops::parallel_copy component range is invalid")
  schedule.requireLocalExecution
  schedule.localJobs.foldlM
    (copyJob launches source destinationComponent sourceComponent componentCount) destination

/-- Replay a schedule on all components. -/
def parallelCopy (launches : CellLaunches d) (destination source : MultiFab d K)
    (schedule : CopySchedule d) : Throws (MultiFab d K) := do
  throwIf (destination.ncomp ≠ source.ncomp)
    (invalidArgument "pops::parallel_copy fields have different component counts")
  parallelCopyComponents launches destination source schedule 0 0 destination.ncomp

/-- The fields agree in components and ranks. -/
def validateTransferFields (fine coarse : MultiFab d K) (ratio : Extent d) (operation : String) :
    Throws Unit := do
  validateRatio ratio operation
  throwIf (fine.ncomp ≠ coarse.ncomp)
    (invalidArgument (operation ++ ": fine and coarse component counts differ"))
  throwIf (fine.distribution.rankSpace ≠ coarse.distribution.rankSpace ∨
      fine.localRank ≠ coarse.localRank)
    (invalidArgument (operation ++ ": fine and coarse rank identities differ"))

/-- The scratch field over the coarsened fine layout. -/
def prepareScratch [Zero K] (fine : MultiFab d K) (ratio : Extent d) (operation : String) :
    Throws (MultiFab d K) := do
  let scratchLayout ← coarsenLayout fine.layout ratio
  let refined ← refineLayout scratchLayout ratio
  throwIf (refined.boxes ≠ fine.layout.boxes) (invalidArgument
    (operation ++ " requires fine patches aligned to the refinement ratio"))
  let scratchDistribution ← rebindDistribution scratchLayout fine.distribution
  MultiFab.create 0 scratchLayout scratchDistribution fine.localRank fine.ncomp 0

/-- Average one patch down to the scratch field. -/
def averagePatch [Field K] (launches : CellLaunches d) (fine : MultiFab d K) (ratio : Extent d)
    (children : ℤ) (scratch : MultiFab d K) (global : ℕ) : Throws (MultiFab d K) := do
  let coarseFab ← scratch.fabGlobal global
  scratch.launch launches coarseFab (scratch.box global) 0 fine.ncomp
    (averageDownKernel fine.data (fine.view global) ratio children)

/-- Interpolate one patch from the scratch field. -/
def interpolatePatch (launches : CellLaunches d) (scratch : MultiFab d K) (ratio : Extent d)
    (fine : MultiFab d K) (global : ℕ) : Throws (MultiFab d K) := do
  let coarseFab ← scratch.fabGlobal global
  fine.launch launches (fine.view global) (fine.box global) 0 fine.ncomp
    (interpolateKernel scratch.data coarseFab ratio)

/-- Average a fine field down to a coarse field. -/
def averageDown [Field K] (space : TransferSpace d) (fine coarse : MultiFab d K)
    (ratio : Extent d) (copyBudget : CopyScheduleBudget) : Throws (MultiFab d K) := do
  validateTransferFields fine coarse ratio "pops::average_down"
  let children ← childCount ratio "pops::average_down"
  let scratch ← prepareScratch fine ratio "pops::average_down"
  let schedule ← CopySchedule.prepare coarse scratch copyBudget
  schedule.requireLocalExecution
  let scratch ← fine.localGlobalIndices.foldlM (averagePatch space.transfer fine ratio children)
    scratch
  parallelCopy space.copy coarse scratch schedule

/-- Interpolate a coarse field to a fine field. -/
def interpolate [Zero K] (space : TransferSpace d) (coarse fine : MultiFab d K)
    (ratio : Extent d) (copyBudget : CopyScheduleBudget) : Throws (MultiFab d K) := do
  validateTransferFields fine coarse ratio "pops::interpolate"
  let scratch ← prepareScratch fine ratio "pops::interpolate"
  let schedule ← CopySchedule.prepare scratch coarse copyBudget
  schedule.requireLocalExecution
  let scratch ← parallelCopy space.copy scratch coarse schedule
  fine.localGlobalIndices.foldlM (interpolatePatch space.transfer scratch ratio) fine

end Transfers

end Refinement

end Pops
