import Pops.Mesh.Boundary.HaloSchedule

/-!
# Physical and periodic boundary regions

`pops::prepare_boundary_schedule`: the frame of ghost cells around a domain as a list of disjoint
boxes.  Every axis is cut into the domain itself and strips of ghost cells, a physical axis into
one strip a side, a periodic one into strips of the width of the domain.  The boxes are the
products of the strips, and every box composes the operations of its strips.

## Main definitions

* `Pops.BoundaryOperation`, `BoundaryRegionPlan`, `BoundarySchedule` — operations, entries and
  schedules.
* `Pops.makeAxisSlices` — the strips of one axis.
* `Pops.composeBoundaryRegionPlan` — the composition of the operations of one box.
* `Pops.prepareBoundarySchedule` — the schedule.

## Main results

* `Pops.makeAxisSlices_spec` — the strips of an axis partition it, and their operations lead back
  into the domain.
* `Pops.composeBoundaryRegionPlan_spec` — the composition keeps the operations and adds up their
  shifts.
* `Pops.prepareBoundarySchedule_partition` — the boxes partition the frame.
-/

namespace Pops

variable {d : ℕ}

/-! ## Regions and operations -/

/-- The stable ordinal of a face. -/
def Face.ordinal (face : Face d) : ℕ := 2 * face.axis + if face.side = .upper then 1 else 0

/-- What happens at one face. -/
structure BoundaryOperation (d : ℕ) where
  face : Face d
  kind : BoundaryFaceKind
  /-- translation of a ghost index to its periodic source -/
  sourceFromDestinationShift : Index d
  deriving DecidableEq

/-- A nonempty intersection of oriented boundary faces, in increasing order. -/
structure BoundaryRegion (d : ℕ) where
  faces : List (Face d)
  deriving DecidableEq

/-- The constructor of `BoundaryRegion`: at most one side per axis. -/
def BoundaryRegion.create (faces : List (Face d)) : Throws (BoundaryRegion d) := do
  throwIf (faces.length = 0 ∨ faces.length > d)
    (invalidArgument "pops::BoundaryRegion requires between one and Dim faces")
  let sorted := faces.insertionSort fun left right => left.ordinal ≤ right.ordinal
  throwIf (∃ pair ∈ sorted.zip sorted.tail, pair.1.axis = pair.2.axis)
    (invalidArgument "pops::BoundaryRegion cannot contain two sides of one axis")
  pure ⟨sorted⟩

/-- One box of ghost cells and its operations. -/
structure BoundaryRegionPlan (d : ℕ) where
  region : BoundaryRegion d
  destination : Box d
  operations : List (BoundaryOperation d)
  sourceFromDestinationShift : Index d

/-- The number of entries that a schedule may have. -/
structure BoundaryScheduleBudget where
  entries : ℕ

/-- A schedule with its inputs. -/
structure BoundarySchedule (d : ℕ) where
  domain : Box d
  ghosts : Extent d
  topology : BoundaryTopology d
  entries : List (BoundaryRegionPlan d)

/-! ## Strips of one axis -/

/-- Checked sum of `std::int64_t` values. -/
def checkedAdd (left right : ℤ) (operation : String) : Throws ℤ := do
  throwIf ((right > 0 ∧ left > int64Max - right) ∨ (right < 0 ∧ left < int64Min - right))
    (overflowError operation)
  pure (left + right)

/-- Checked product of non-negative `std::int64_t` values. -/
def checkedMultiply (left right : ℤ) (operation : String) : Throws ℤ := do
  throwIf (left < 0 ∨ right < 0) (invalidArgument operation)
  throwIf (left ≠ 0 ∧ right > int64Max / left) (overflowError operation)
  pure (left * right)

/-- The number of domain widths that cover a ghost depth. -/
def wrapCount (ghosts extent : ℤ) : ℤ := ghosts / extent + if ghosts % extent = 0 then 0 else 1

/-- The number of strips of one axis. -/
def checkedAxisSegmentCount (ghosts extent : ℤ) (periodic : Bool) : Throws ℕ := do
  throwIf (ghosts < 0) (invalidArgument "pops::mesh boundary ghost depths must be non-negative")
  if ghosts = 0 then pure 1
  else if periodic = false then pure 3
  else do
    throwIf (extent ≤ 0)
      (invalidArgument "pops::mesh periodic boundary requires a positive domain extent")
    throwIf (wrapCount ghosts extent > ((sizeMax - 1) / 2 : ℕ))
      (lengthError "pops::mesh boundary axis schedule exceeds size_t")
    pure (1 + 2 * (wrapCount ghosts extent).toNat)

/-- A strip of one axis, with its operation unless it is the domain itself. -/
structure AxisSlice (d : ℕ) where
  lower : ℤ
  upper : ℤ
  operation : Option (BoundaryOperation d)
  deriving DecidableEq

/-- The translation along one axis. -/
def axisTranslation (axis : Fin d) (shift : ℤ) : Index d := Function.update 0 axis shift

/-- The two strips of one wrap. -/
def makeWrapSlices (domain : Box d) (depth extent : ℤ) (axis : Fin d)
    (result : List (AxisSlice d)) (wrap : ℕ) : Throws (List (AxisSlice d)) := do
  let previous ← checkedMultiply (wrap - 1) extent "pops::mesh periodic wrap offset overflow"
  let reached ← checkedMultiply wrap extent "pops::mesh periodic wrap offset overflow"
  let capped := min depth reached
  let shift ← checkedIndex reached "pops::mesh periodic shift exceeds Index range"
  let lowerStart ← checkedAdd (domain.lo axis) (-capped)
    "pops::mesh lower periodic ghost region overflows int64_t"
  let lowerStart ← checkedIndex lowerStart
    "pops::mesh lower periodic ghost region exceeds native index range"
  let lowerEnd ← checkedAdd (domain.lo axis) (-previous)
    "pops::mesh lower periodic ghost region overflows int64_t"
  let lowerEnd ← checkedAdd lowerEnd (-1)
    "pops::mesh lower periodic ghost region overflows int64_t"
  let lowerEnd ← checkedIndex lowerEnd
    "pops::mesh lower periodic ghost region exceeds native index range"
  let upperStart ← checkedAdd (domain.hi axis) previous
    "pops::mesh upper periodic ghost region overflows int64_t"
  let upperStart ← checkedAdd upperStart 1
    "pops::mesh upper periodic ghost region overflows int64_t"
  let upperStart ← checkedIndex upperStart
    "pops::mesh upper periodic ghost region exceeds native index range"
  let upperEnd ← checkedAdd (domain.hi axis) capped
    "pops::mesh upper periodic ghost region overflows int64_t"
  let upperEnd ← checkedIndex upperEnd
    "pops::mesh upper periodic ghost region exceeds native index range"
  pure (result ++
    [⟨lowerStart, lowerEnd, some ⟨⟨axis, .lower⟩, .periodic, axisTranslation axis shift⟩⟩,
      ⟨upperStart, upperEnd, some ⟨⟨axis, .upper⟩, .periodic, axisTranslation axis (-shift)⟩⟩])

/-- The strips of one axis: the domain first, then the ghost strips. -/
def makeAxisSlices (domain : Box d) (ghosts : Extent d) (topology : BoundaryTopology d)
    (axis : Fin d) : Throws (List (AxisSlice d)) := do
  let depth := ghosts axis
  let extent := domain.length axis
  let _ ← checkedAxisSegmentCount depth extent (topology.IsPeriodic ⟨axis, .lower⟩)
  let interior : AxisSlice d := ⟨domain.lo axis, domain.hi axis, none⟩
  if depth = 0 then pure [interior]
  else if ¬ topology.IsPeriodic ⟨axis, .lower⟩ then do
    let lowerStart ← checkedAdd (domain.lo axis) (-depth)
      "pops::mesh lower physical ghost region overflows int64_t"
    let lowerStart ← checkedIndex lowerStart
      "pops::mesh lower physical ghost region exceeds native index range"
    let lowerEnd ← checkedIndex (domain.lo axis - 1)
      "pops::mesh lower physical ghost region exceeds native index range"
    let upperStart ← checkedIndex (domain.hi axis + 1)
      "pops::mesh upper physical ghost region exceeds native index range"
    let upperEnd ← checkedAdd (domain.hi axis) depth
      "pops::mesh upper physical ghost region overflows int64_t"
    let upperEnd ← checkedIndex upperEnd
      "pops::mesh upper physical ghost region exceeds native index range"
    pure [interior, ⟨lowerStart, lowerEnd, some ⟨⟨axis, .lower⟩, .physical, 0⟩⟩,
      ⟨upperStart, upperEnd, some ⟨⟨axis, .upper⟩, .physical, 0⟩⟩]
  else
    (List.range' 1 (wrapCount depth extent).toNat).foldlM
      (makeWrapSlices domain depth extent axis) [interior]

/-! ## Composition -/

/-- One axis of the shift of a periodic operation. -/
def composeShift (operation : BoundaryOperation d) (composed : Index d) (shiftAxis : Fin d) :
    Throws (Index d) := do
  let value := operation.sourceFromDestinationShift shiftAxis
  throwIf (shiftAxis ≠ operation.face.axis ∧ value ≠ 0)
    (invalidArgument "pops::mesh axis-translation boundary operation carries a tangential shift")
  throwIf (value ≠ 0 ∧ composed shiftAxis ≠ 0)
    (invalidArgument "pops::mesh boundary composition has conflicting translation contributors")
  pure (if value ≠ 0 then Function.update composed shiftAxis value else composed)

/-- One operation of a composition, after the axis of the previous one. -/
def composeOperation (state : Option (Fin d) × Index d) (operation : BoundaryOperation d) :
    Throws (Option (Fin d) × Index d) := do
  throwIf (state.1 = some operation.face.axis)
    (invalidArgument "pops::mesh boundary composition has conflicting sides on one axis")
  if operation.kind = .physical then do
    throwIf (operation.sourceFromDestinationShift ≠ 0)
      (invalidArgument "pops::mesh physical boundary operation carries a shift")
    pure (some operation.face.axis, state.2)
  else do
    throwIf (operation.sourceFromDestinationShift operation.face.axis = 0)
      (invalidArgument "pops::mesh periodic boundary operation carries a zero shift")
    let composed ← (List.finRange d).foldlM (composeShift operation) state.2
    pure (some operation.face.axis, composed)

/-- The entry of a box and its operations. -/
def composeBoundaryRegionPlan (destination : Box d) (operations : List (BoundaryOperation d)) :
    Throws (BoundaryRegionPlan d) := do
  throwIf destination.Empty
    (invalidArgument "pops::mesh boundary plan destination must be non-empty")
  throwIf (operations.length = 0 ∨ operations.length > d)
    (invalidArgument "pops::mesh boundary plan operation count is outside [1, Dim]")
  let operations := operations.insertionSort fun left right =>
    left.face.ordinal ≤ right.face.ordinal
  let final ← operations.foldlM composeOperation (none, 0)
  let region ← BoundaryRegion.create (operations.map BoundaryOperation.face)
  pure ⟨region, destination, operations, final.2⟩

/-! ## The schedule -/

/-- The size of one entry in bytes. -/
def boundaryRegionPlanBytes (d : ℕ) : ℕ := 4 * d * d + 32 * d + 8

/-- The strip of an axis that a digit selects. -/
def selectedSlice (axes : Fin d → List (AxisSlice d)) (digit : Fin d → ℕ) (axis : Fin d) :
    AxisSlice d :=
  (axes axis).getD (digit axis) ⟨0, -1, none⟩

/-- The box of the selected strips. -/
def boundaryDestination (axes : Fin d → List (AxisSlice d)) (digit : Fin d → ℕ) : Box d where
  lo axis := (selectedSlice axes digit axis).lower
  hi axis := (selectedSlice axes digit axis).upper

/-- The operations of the selected strips, in the order of the axes. -/
def boundaryOperations (axes : Fin d → List (AxisSlice d)) (digit : Fin d → ℕ) :
    List (BoundaryOperation d) :=
  (List.finRange d).filterMap fun axis => (selectedSlice axes digit axis).operation

/-- Enumerate the disjoint boxes of the ghost frame, axis 0 fastest. -/
def prepareBoundarySchedule (domain : Box d) (ghosts : Extent d) (topology : BoundaryTopology d)
    (budget : BoundaryScheduleBudget) : Throws (BoundarySchedule d) := do
  throwIf domain.Empty
    (invalidArgument "pops::mesh boundary schedule requires a non-empty domain")
  let cartesianCount ← (List.finRange d).foldlM (fun cartesianCount axis => do
    let axisCount ← checkedAxisSegmentCount (ghosts axis) (domain.length axis)
      (topology.IsPeriodic ⟨axis, .lower⟩)
    throwIf (axisCount > sizeMax / cartesianCount)
      (lengthError "pops::mesh boundary schedule Cartesian size overflows size_t")
    pure (cartesianCount * axisCount)) 1
  throwIf (cartesianCount - 1 > budget.entries)
    (lengthError "pops::mesh boundary schedule exceeds its explicit entry budget")
  let axes ← forEachAxis (makeAxisSlices domain ghosts topology)
  throwIf (cartesianCount - 1 > vectorMaxSize (boundaryRegionPlanBytes d))
    (lengthError "pops::mesh boundary schedule exceeds vector capacity")
  let entries ← (List.range' 1 (cartesianCount - 1)).mapM fun ordinal =>
    composeBoundaryRegionPlan
      (boundaryDestination axes (MixedRadix.unrank (fun axis => (axes axis).length) ordinal))
      (boundaryOperations axes (MixedRadix.unrank (fun axis => (axes axis).length) ordinal))
  pure ⟨domain, ghosts, topology, entries⟩

/-! ## The strips of one axis -/

/-- A checked sum is the sum. -/
lemma eq_of_checkedAdd {left right value : ℤ} {operation : String}
    (h : checkedAdd left right operation = .ok value) : value = left + right := by
  simp only [checkedAdd, bind_eq_ok, throwIf_eq_ok, exists_const, pure_eq_ok] at h
  exact h.2.symm

/-- A checked product is the product. -/
lemma eq_of_checkedMultiply {left right value : ℤ} {operation : String}
    (h : checkedMultiply left right operation = .ok value) : value = left * right := by
  simp only [checkedMultiply, bind_eq_ok, throwIf_eq_ok, exists_const, pure_eq_ok] at h
  exact h.2.2.symm

/-- A checked index is the value. -/
lemma eq_of_checkedIndex {value index : ℤ} {operation : String}
    (h : checkedIndex value operation = .ok index) : index = value := by
  simp only [checkedIndex, bind_eq_ok, throwIf_eq_ok, exists_const, pure_eq_ok] at h
  exact h.2.symm

/-- The lower strip of a wrap. -/
def lowerStrip (domain : Box d) (depth extent : ℤ) (axis : Fin d) (wrap : ℕ) : AxisSlice d where
  lower := domain.lo axis - min depth (wrap * extent)
  upper := domain.lo axis - (wrap - 1) * extent - 1
  operation := some ⟨⟨axis, .lower⟩, .periodic, axisTranslation axis (wrap * extent)⟩

/-- The upper strip of a wrap. -/
def upperStrip (domain : Box d) (depth extent : ℤ) (axis : Fin d) (wrap : ℕ) : AxisSlice d where
  lower := domain.hi axis + (wrap - 1) * extent + 1
  upper := domain.hi axis + min depth (wrap * extent)
  operation := some ⟨⟨axis, .upper⟩, .periodic, axisTranslation axis (-(wrap * extent))⟩

/-- A wrap adds its two strips. -/
lemma makeWrapSlices_eq {domain : Box d} {depth extent : ℤ} {axis : Fin d}
    {result slices : List (AxisSlice d)} {wrap : ℕ}
    (h : makeWrapSlices domain depth extent axis result wrap = .ok slices) :
    slices = result ++
      [lowerStrip domain depth extent axis wrap, upperStrip domain depth extent axis wrap] := by
  simp only [makeWrapSlices, bind_eq_ok, pure_eq_ok] at h
  obtain ⟨previous, hprevious, reached, hreached, shift, hshift, _, h1, _, h2, _, h3, _, h4, _, h5,
    _, h6, _, h7, _, h8, _, h9, _, h10, rfl⟩ := h
  have hprevious := eq_of_checkedMultiply hprevious
  have hreached := eq_of_checkedMultiply hreached
  have hshift := eq_of_checkedIndex hshift
  have h1 := eq_of_checkedAdd h1
  have h2 := eq_of_checkedIndex h2
  have h3 := eq_of_checkedAdd h3
  have h4 := eq_of_checkedAdd h4
  have h5 := eq_of_checkedIndex h5
  have h6 := eq_of_checkedAdd h6
  have h7 := eq_of_checkedAdd h7
  have h8 := eq_of_checkedIndex h8
  have h9 := eq_of_checkedAdd h9
  have h10 := eq_of_checkedIndex h10
  subst hprevious hreached hshift h1 h2 h3 h4 h5 h6 h7 h8 h9 h10
  rfl

/-- The ghost strips of an axis. -/
def ghostStrips (domain : Box d) (ghosts : Extent d) (topology : BoundaryTopology d)
    (axis : Fin d) : List (AxisSlice d) :=
  if ghosts axis = 0 then []
  else if topology.IsPeriodic ⟨axis, .lower⟩ then
    (List.range' 1 (wrapCount (ghosts axis) (domain.length axis)).toNat).flatMap fun wrap =>
      [lowerStrip domain (ghosts axis) (domain.length axis) axis wrap,
        upperStrip domain (ghosts axis) (domain.length axis) axis wrap]
  else [⟨domain.lo axis - ghosts axis, domain.lo axis - 1, some ⟨⟨axis, .lower⟩, .physical, 0⟩⟩,
    ⟨domain.hi axis + 1, domain.hi axis + ghosts axis, some ⟨⟨axis, .upper⟩, .physical, 0⟩⟩]

/-- The strips of an axis are the domain and the ghost strips, and the ghost depth is not
negative. -/
lemma makeAxisSlices_eq {domain : Box d} {ghosts : Extent d} {topology : BoundaryTopology d}
    {axis : Fin d} {slices : List (AxisSlice d)}
    (h : makeAxisSlices domain ghosts topology axis = .ok slices) :
    0 ≤ ghosts axis ∧
      slices = ⟨domain.lo axis, domain.hi axis, none⟩ ::
      ghostStrips domain ghosts topology axis := by
  simp only [makeAxisSlices, bind_eq_ok] at h
  obtain ⟨count, hcount, h⟩ := h
  have hdepth : 0 ≤ ghosts axis := by
    simp only [checkedAxisSegmentCount, bind_eq_ok, throwIf_eq_ok, exists_const] at hcount
    omega
  refine ⟨hdepth, ?_⟩
  unfold ghostStrips
  split_ifs at h with hzero hperiodic
  · simp only [pure_eq_ok] at h
    rw [if_pos hzero, h]
  · rw [if_neg hzero, if_pos hperiodic]
    have hfold := (foldlM_collect (Q := fun _ => True) h fun acc wrap r _ hstep =>
      ⟨makeWrapSlices_eq hstep, trivial⟩).1
    simpa using hfold
  · simp only [bind_eq_ok, pure_eq_ok] at h
    obtain ⟨_, h1, _, h2, _, h3, _, h4, _, h5, _, h6, rfl⟩ := h
    have h1 := eq_of_checkedAdd h1
    have h2 := eq_of_checkedIndex h2
    have h3 := eq_of_checkedIndex h3
    have h4 := eq_of_checkedIndex h4
    have h5 := eq_of_checkedAdd h5
    have h6 := eq_of_checkedIndex h6
    subst h1 h2 h3 h4 h5 h6
    rw [if_neg hzero, if_neg hperiodic, sub_eq_add_neg (domain.lo axis) (ghosts axis)]

/-- The wraps cover the ghost depth and every wrap is needed. -/
lemma wrapCount_spec {depth extent : ℤ} (hdepth : 0 < depth) (hextent : 0 < extent) :
    (wrapCount depth extent - 1) * extent < depth ∧ depth ≤ wrapCount depth extent * extent ∧
      0 < wrapCount depth extent := by
  have hdiv := Int.mul_ediv_add_emod depth extent
  have hmod := Int.emod_nonneg depth hextent.ne'
  have hlt := Int.emod_lt_of_pos depth hextent
  have hquot : 0 ≤ depth / extent := Int.ediv_nonneg hdepth.le hextent.le
  unfold wrapCount
  split_ifs with hzero
  · have hpos : 0 < depth / extent := by
      by_contra hle
      have : depth / extent = 0 := by omega
      rw [this, hzero] at hdiv
      omega
    refine ⟨?_, ?_, by omega⟩ <;> nlinarith
  · have hpos : 0 < depth % extent := lt_of_le_of_ne hmod (Ne.symm hzero)
    refine ⟨?_, ?_, by omega⟩ <;> nlinarith

/-- The strip contains the coordinate. -/
def AxisSlice.Contains (slice : AxisSlice d) (x : ℤ) : Prop := slice.lower ≤ x ∧ x ≤ slice.upper

/-- The strips of an axis: they partition it, and their operations lead back into the domain. -/
structure AxisPartition (domain : Box d) (ghosts : Extent d) (topology : BoundaryTopology d)
    (axis : Fin d) (slices : List (AxisSlice d)) : Prop where
  nonempty : ∀ slice ∈ slices, slice.lower ≤ slice.upper
  apart : slices.Pairwise fun s t => s.upper < t.lower ∨ t.upper < s.lower
  cover : ∀ x, (∃ slice ∈ slices, slice.Contains x) ↔
    domain.lo axis - ghosts axis ≤ x ∧ x ≤ domain.hi axis + ghosts axis
  interior : ∀ slice ∈ slices, slice.operation = none →
    slice.lower = domain.lo axis ∧ slice.upper = domain.hi axis
  outside : ∀ slice ∈ slices, ∀ operation, slice.operation = some operation →
    operation.face.axis = axis ∧ ∀ x, slice.Contains x →
      (operation.face.side = .lower ∧ x < domain.lo axis) ∨
        (operation.face.side = .upper ∧ domain.hi axis < x)
  periodic : ∀ slice ∈ slices, ∀ operation, slice.operation = some operation →
    topology.IsPeriodic ⟨axis, .lower⟩ → operation.kind = .periodic ∧
      ∃ shift, operation.sourceFromDestinationShift = axisTranslation axis shift ∧
        ∀ x, slice.Contains x → domain.lo axis ≤ x + shift ∧ x + shift ≤ domain.hi axis
  physical : ∀ slice ∈ slices, ∀ operation, slice.operation = some operation →
    ¬ topology.IsPeriodic ⟨axis, .lower⟩ → operation.kind = .physical ∧
      operation.sourceFromDestinationShift = 0

section Strips

variable {domain : Box d} {ghosts : Extent d} {topology : BoundaryTopology d} {axis : Fin d}

/-- A physical axis, or an axis without ghosts. -/
lemma axisPartition_physical (hne : domain.lo axis ≤ domain.hi axis) (hdepth : 0 ≤ ghosts axis)
    (hphysical : ghosts axis = 0 ∨ ¬ topology.IsPeriodic ⟨axis, .lower⟩) :
    AxisPartition domain ghosts topology axis
      (⟨domain.lo axis, domain.hi axis, none⟩ :: ghostStrips domain ghosts topology axis) := by
  unfold ghostStrips
  by_cases hzero : ghosts axis = 0
  · rw [if_pos hzero]
    refine ⟨by simpa using hne, by simp, fun x => ?_, by simp, by simp, by simp, by simp⟩
    simp [AxisSlice.Contains, hzero]
  · have hperiodic := hphysical.resolve_left hzero
    rw [if_neg hzero, if_neg hperiodic]
    refine ⟨?_, ?_, fun x => ?_, by simp, ?_, ?_, by simp⟩
    · simp only [List.forall_mem_cons, List.not_mem_nil, false_imp_iff, implies_true, and_true]
      omega
    · refine List.pairwise_cons.mpr ⟨?_, List.pairwise_pair.mpr ?_⟩
      · simp only [List.forall_mem_cons, List.not_mem_nil, false_imp_iff, implies_true, and_true]
        omega
      · simp only
        omega
    · simp only [List.exists_mem_cons_iff, AxisSlice.Contains]
      simp
      omega
    · simp [AxisSlice.Contains]
      omega
    · intro slice _ operation _ h
      exact absurd h hperiodic

/-- A wrap of the enumeration starts before the ghost depth ends. -/
lemma wrap_spec {depth extent : ℤ} (hdepth : 0 < depth) (hextent : 0 < extent) {wrap : ℕ}
    (h : wrap ∈ List.range' 1 (wrapCount depth extent).toNat) :
    (wrap : ℤ) * extent = (wrap - 1) * extent + extent ∧ 0 ≤ ((wrap : ℤ) - 1) * extent ∧
      ((wrap : ℤ) - 1) * extent < depth := by
  obtain ⟨hlast, _, hpos⟩ := wrapCount_spec hdepth hextent
  simp only [List.mem_range'_1] at h
  have hle : (wrap : ℤ) - 1 ≤ wrapCount depth extent - 1 := by omega
  have hmul := mul_le_mul_of_nonneg_right hle hextent.le
  exact ⟨by ring, mul_nonneg (by omega) hextent.le, by omega⟩

/-- Every ghost distance is reached by a wrap. -/
lemma exists_wrap {depth extent t : ℤ} (hextent : 0 < extent) (ht : 0 < t) (hle : t ≤ depth) :
    ∃ wrap ∈ List.range' 1 (wrapCount depth extent).toNat,
      ((wrap : ℤ) - 1) * extent < t ∧ t ≤ wrap * extent := by
  obtain ⟨_, hcover, hpos⟩ := wrapCount_spec (ht.trans_le hle) hextent
  have hdiv := Int.mul_ediv_add_emod (t - 1) extent
  have hmod := Int.emod_nonneg (t - 1) hextent.ne'
  have hlt := Int.emod_lt_of_pos (t - 1) hextent
  have hquot : 0 ≤ (t - 1) / extent := Int.ediv_nonneg (by omega) hextent.le
  have hbelow : (t - 1) / extent < wrapCount depth extent :=
    Int.ediv_lt_of_lt_mul hextent (by omega)
  have hcast : (((t - 1) / extent + 1).toNat : ℤ) = (t - 1) / extent + 1 := by omega
  refine ⟨((t - 1) / extent + 1).toNat, ?_, ?_, ?_⟩
  · simp only [List.mem_range'_1]
    omega
  · rw [hcast, add_sub_cancel_right, mul_comm]
    omega
  · rw [hcast, add_mul, one_mul, mul_comm ((t - 1) / extent)]
    omega

/-- The strips of two wraps on a periodic axis. -/
lemma strips_apart {depth extent : ℤ} (hextent : 0 < extent)
    (hne : domain.lo axis ≤ domain.hi axis) {wrap wrap' : ℕ} (hpos : 1 ≤ wrap)
    (hlt : wrap < wrap') :
    ∀ s ∈ [lowerStrip domain depth extent axis wrap, upperStrip domain depth extent axis wrap],
      ∀ t ∈ [lowerStrip domain depth extent axis wrap', upperStrip domain depth extent axis wrap'],
        s.upper < t.lower ∨ t.upper < s.lower := by
  have hle : (wrap : ℤ) ≤ (wrap' : ℤ) - 1 := by omega
  have hmul := mul_le_mul_of_nonneg_right hle hextent.le
  have h0 : 0 ≤ ((wrap : ℤ) - 1) * extent := mul_nonneg (by omega) hextent.le
  have hstep : (wrap : ℤ) * extent = (wrap - 1) * extent + extent := by ring
  simp only [List.forall_mem_cons, List.not_mem_nil, false_imp_iff, implies_true, and_true,
    lowerStrip, upperStrip]
  omega

/-- A periodic axis with ghosts. -/
lemma axisPartition_periodic (hne : domain.lo axis ≤ domain.hi axis) (hdepth : 0 < ghosts axis)
    (hlength : domain.length axis = domain.hi axis - domain.lo axis + 1)
    (hperiodic : topology.IsPeriodic ⟨axis, .lower⟩) :
    AxisPartition domain ghosts topology axis
      (⟨domain.lo axis, domain.hi axis, none⟩ :: ghostStrips domain ghosts topology axis) := by
  have hextent : 0 < domain.length axis := by omega
  -- a property of all strips is one of the domain and of the two strips of every wrap
  have hall : ∀ P : AxisSlice d → Prop, P ⟨domain.lo axis, domain.hi axis, none⟩ →
      (∀ wrap ∈ List.range' 1 (wrapCount (ghosts axis) (domain.length axis)).toNat,
        P (lowerStrip domain (ghosts axis) (domain.length axis) axis wrap) ∧
          P (upperStrip domain (ghosts axis) (domain.length axis) axis wrap)) →
      ∀ slice ∈ (⟨domain.lo axis, domain.hi axis, none⟩ : AxisSlice d) ::
        ghostStrips domain ghosts topology axis, P slice := by
    intro P hdomain hwraps slice hslice
    rcases List.mem_cons.mp hslice with rfl | hslice
    · exact hdomain
    · rw [ghostStrips, if_neg hdepth.ne', if_pos hperiodic] at hslice
      obtain ⟨wrap, hwrap, hslice⟩ := List.mem_flatMap.mp hslice
      simp only [List.mem_cons, List.not_mem_nil, or_false] at hslice
      rcases hslice with rfl | rfl
      · exact (hwraps wrap hwrap).1
      · exact (hwraps wrap hwrap).2
  refine ⟨?_, ?_, ?_, ?_, ?_, ?_, ?_⟩
  · refine hall _ hne fun wrap hwrap => ?_
    obtain ⟨h1, h2, h3⟩ := wrap_spec hdepth hextent hwrap
    simp only [lowerStrip, upperStrip]
    omega
  · refine List.pairwise_cons.mpr ⟨fun slice hslice => ?_, ?_⟩
    · rw [ghostStrips, if_neg hdepth.ne', if_pos hperiodic] at hslice
      obtain ⟨wrap, hwrap, hslice⟩ := List.mem_flatMap.mp hslice
      obtain ⟨h1, h2, h3⟩ := wrap_spec hdepth hextent hwrap
      simp only [List.mem_cons, List.not_mem_nil, or_false] at hslice
      rcases hslice with rfl | rfl <;> simp only [lowerStrip, upperStrip] <;> omega
    · rw [ghostStrips, if_neg hdepth.ne', if_pos hperiodic, List.pairwise_flatMap]
      refine ⟨fun wrap hwrap => List.pairwise_pair.mpr ?_, ?_⟩
      · obtain ⟨h1, h2, h3⟩ := wrap_spec hdepth hextent hwrap
        simp only [lowerStrip, upperStrip]
        omega
      · refine (List.pairwise_lt_range').imp_of_mem fun hwrap _ hlt => ?_
        simp only [List.mem_range'_1] at hwrap
        exact strips_apart hextent hne hwrap.1 hlt
  · intro x
    refine ⟨fun ⟨slice, hslice, hx⟩ => ?_, fun ⟨hlo, hhi⟩ => ?_⟩
    · revert hx
      refine hall (fun slice => slice.Contains x → _) ?_ (fun wrap hwrap => ?_) slice hslice
      · simp only [AxisSlice.Contains]
        omega
      · obtain ⟨h1, h2, h3⟩ := wrap_spec hdepth hextent hwrap
        simp only [AxisSlice.Contains, lowerStrip, upperStrip]
        omega
    · have hstrip : ∀ wrap ∈ List.range' 1 (wrapCount (ghosts axis) (domain.length axis)).toNat,
          ∀ slice ∈ [lowerStrip domain (ghosts axis) (domain.length axis) axis wrap,
            upperStrip domain (ghosts axis) (domain.length axis) axis wrap],
          slice ∈ ghostStrips domain ghosts topology axis := by
        intro wrap hwrap slice hslice
        rw [ghostStrips, if_neg hdepth.ne', if_pos hperiodic]
        exact List.mem_flatMap.mpr ⟨wrap, hwrap, hslice⟩
      rcases lt_or_ge x (domain.lo axis) with hbelow | hbelow
      · obtain ⟨wrap, hwrap, h1, h2⟩ := exists_wrap hextent
          (show 0 < domain.lo axis - x by omega) (show _ ≤ ghosts axis by omega)
        refine ⟨_, List.mem_cons_of_mem _ (hstrip wrap hwrap _ (List.mem_cons_self ..)), ?_⟩
        simp only [AxisSlice.Contains, lowerStrip]
        omega
      · rcases lt_or_ge (domain.hi axis) x with habove | habove
        · obtain ⟨wrap, hwrap, h1, h2⟩ := exists_wrap hextent
            (show 0 < x - domain.hi axis by omega) (show _ ≤ ghosts axis by omega)
          refine ⟨_, List.mem_cons_of_mem _ (hstrip wrap hwrap _
            (List.mem_cons_of_mem _ (List.mem_cons_self ..))), ?_⟩
          simp only [AxisSlice.Contains, upperStrip]
          omega
        · exact ⟨_, List.mem_cons_self .., hbelow, habove⟩
  · refine hall _ (fun _ => ⟨rfl, rfl⟩) fun wrap hwrap => ?_
    simp [lowerStrip, upperStrip]
  · refine hall _ (by simp) fun wrap hwrap => ?_
    obtain ⟨h1, h2, h3⟩ := wrap_spec hdepth hextent hwrap
    simp only [lowerStrip, upperStrip, Option.some.injEq, forall_eq', AxisSlice.Contains,
      true_and, reduceCtorEq, false_and, or_false, false_or]
    refine ⟨fun x hx => ?_, fun x hx => ?_⟩ <;> omega
  · refine hall _ (by simp) fun wrap hwrap => ?_
    obtain ⟨h1, h2, h3⟩ := wrap_spec hdepth hextent hwrap
    simp only [lowerStrip, upperStrip, Option.some.injEq, forall_eq', AxisSlice.Contains,
      true_and]
    refine ⟨fun _ => ⟨_, rfl, ?_⟩, fun _ => ⟨_, rfl, ?_⟩⟩ <;> omega
  · intro slice _ operation _ hphysical
    exact absurd hperiodic hphysical

end Strips

/-- The strips of an axis are as many as were counted. -/
lemma length_ghostStrips {domain : Box d} {ghosts : Extent d} {topology : BoundaryTopology d}
    {axis : Fin d} {count : ℕ}
    (h : checkedAxisSegmentCount (ghosts axis) (domain.length axis)
      (topology.IsPeriodic ⟨axis, .lower⟩) = .ok count) :
    count = (ghostStrips domain ghosts topology axis).length + 1 := by
  simp only [checkedAxisSegmentCount, bind_eq_ok, throwIf_eq_ok, exists_const] at h
  obtain ⟨_, h⟩ := h
  unfold ghostStrips
  by_cases hzero : ghosts axis = 0
  · simp only [if_pos hzero, pure_eq_ok] at h ⊢
    simp [h]
  · by_cases hperiodic : topology.IsPeriodic ⟨axis, .lower⟩
    · simp only [if_neg hzero, hperiodic, decide_true, Bool.true_eq_false, if_false, bind_eq_ok,
        throwIf_eq_ok, exists_const, pure_eq_ok, if_true] at h ⊢
      obtain ⟨_, _, rfl⟩ := h
      rw [List.length_flatMap]
      simp
      omega
    · simp only [if_neg hzero, hperiodic, decide_false, if_true, pure_eq_ok, if_false] at h ⊢
      simp [← h]

/-- **The strips of one axis.** They partition the axis, the domain is the first of them, and their
number is the counted one. -/
theorem makeAxisSlices_spec {domain : Box d} {ghosts : Extent d} {topology : BoundaryTopology d}
    {axis : Fin d} {slices : List (AxisSlice d)} (hne : ¬ domain.Empty)
    (h : makeAxisSlices domain ghosts topology axis = .ok slices) :
    AxisPartition domain ghosts topology axis slices ∧
      slices.head? = some ⟨domain.lo axis, domain.hi axis, none⟩ ∧
      slices.length = (ghostStrips domain ghosts topology axis).length + 1 := by
  obtain ⟨hdepth, rfl⟩ := makeAxisSlices_eq h
  have hle := Box.lo_le_hi hne axis
  refine ⟨?_, rfl, rfl⟩
  by_cases hperiodic : ghosts axis = 0 ∨ ¬ topology.IsPeriodic ⟨axis, .lower⟩
  · exact axisPartition_physical hle hdepth hperiodic
  · push Not at hperiodic
    exact axisPartition_periodic hle (lt_of_le_of_ne hdepth (Ne.symm hperiodic.1))
      (Box.length_of_nonempty hne axis) hperiodic.2

/-! ## Composition -/

/-- The shifts of a periodic operation are along its own axis and meet no other contribution. -/
lemma composeShift_spec {operation : BoundaryOperation d} {composed final : Index d}
    (h : (List.finRange d).foldlM (composeShift operation) composed = .ok final) :
    (∀ a, operation.sourceFromDestinationShift a ≠ 0 →
      a = operation.face.axis ∧ composed a = 0) ∧
      ∀ a, final a = if operation.sourceFromDestinationShift a ≠ 0
        then operation.sourceFromDestinationShift a else composed a := by
  have hloop := foldlM_invariant (P := fun done (current : Index d) =>
    (∀ a ∈ done, operation.sourceFromDestinationShift a ≠ 0 →
      a = operation.face.axis ∧ composed a = 0) ∧
      ∀ a, current a = if a ∈ done ∧ operation.sourceFromDestinationShift a ≠ 0
        then operation.sourceFromDestinationShift a else composed a) h
    ⟨by simp, by simp⟩ (by
      intro done axis rest current next heq ⟨hown, hcurrent⟩ hstep
      have hnew : axis ∉ done := by
        have hnodup := List.nodup_finRange d
        rw [heq] at hnodup
        exact fun hin => (List.nodup_append.mp hnodup).2.2 axis hin axis (by simp) rfl
      simp only [composeShift, bind_eq_ok, throwIf_eq_ok, exists_const, pure_eq_ok] at hstep
      obtain ⟨htangential, hconflict, rfl⟩ := hstep
      have hbefore : current axis = composed axis := by simp [hcurrent axis, hnew]
      refine ⟨fun a ha hvalue => ?_, fun a => ?_⟩
      · rcases List.mem_append.mp ha with ha | ha
        · exact hown a ha hvalue
        · obtain rfl := List.mem_singleton.mp ha
          rw [hbefore] at hconflict
          tauto
      · by_cases ha : a = axis
        · subst ha
          by_cases hvalue : operation.sourceFromDestinationShift a = 0
          · simp [hvalue, hbefore]
          · simp [hvalue]
        · have hsame : current a = (if operation.sourceFromDestinationShift axis ≠ 0 then
              Function.update current axis (operation.sourceFromDestinationShift axis)
              else current) a := by
            split_ifs <;> simp [ha]
          rw [← hsame, hcurrent a]
          simp [ha])
  simpa using hloop

/-- What the composed shift of some operations is on an axis. -/
def ComposedAt (operations : List (BoundaryOperation d)) (composed : Index d) (axis : Fin d) :
    Prop :=
  (∃ operation ∈ operations, operation.kind = .periodic ∧ operation.face.axis = axis ∧
      composed axis = operation.sourceFromDestinationShift axis) ∨
    ((∀ operation ∈ operations, operation.kind = .periodic → operation.face.axis ≠ axis) ∧
      composed axis = 0)

/-- The composition of operations adds up the shifts of the periodic ones. -/
lemma foldlM_composeOperation {operations : List (BoundaryOperation d)}
    {final : Option (Fin d) × Index d}
    (h : operations.foldlM composeOperation (none, 0) = .ok final) (axis : Fin d) :
    ComposedAt operations final.2 axis := by
  refine foldlM_invariant (P := fun done (state : Option (Fin d) × Index d) =>
    ComposedAt done state.2 axis) h (.inr ⟨by simp, rfl⟩) ?_
  intro done operation rest state next _ hstate hstep
  simp only [composeOperation, bind_eq_ok, throwIf_eq_ok, exists_const] at hstep
  obtain ⟨_, hstep⟩ := hstep
  split_ifs at hstep with hphysical
  · simp only [bind_eq_ok, throwIf_eq_ok, exists_const, pure_eq_ok] at hstep
    obtain ⟨_, rfl⟩ := hstep
    rcases hstate with ⟨other, hother, hrest⟩ | ⟨hnone, hzero⟩
    · exact .inl ⟨other, List.mem_append_left _ hother, hrest⟩
    · refine .inr ⟨fun other hother hkind => ?_, hzero⟩
      rcases List.mem_append.mp hother with hother | hother
      · exact hnone other hother hkind
      · rw [List.mem_singleton.mp hother, hphysical] at hkind
        cases hkind
  · simp only [bind_eq_ok, throwIf_eq_ok, exists_const, pure_eq_ok] at hstep
    obtain ⟨hnonzero, composed, hcomposed, rfl⟩ := hstep
    obtain ⟨hown, hvalue⟩ := composeShift_spec hcomposed
    have hkind : operation.kind = .periodic := by
      cases hk : operation.kind with
      | physical => exact absurd hk hphysical
      | periodic => rfl
    by_cases haxis : operation.face.axis = axis
    · subst haxis
      exact .inl ⟨operation, by simp, hkind, rfl, by simp [hvalue, hnonzero]⟩
    · have hsame : composed axis = state.2 axis := by
        rw [hvalue, if_neg]
        intro hshift
        exact haxis (hown axis hshift).1.symm
      rcases hstate with ⟨other, hother, hrest⟩ | ⟨hnone, hzero⟩
      · exact .inl ⟨other, List.mem_append_left _ hother, hrest.1, hrest.2.1, by
          show composed axis = _
          rw [hsame, hrest.2.2]⟩
      · refine .inr ⟨fun other hother hkind' => ?_, by
          show composed axis = 0
          rw [hsame, hzero]⟩
        rcases List.mem_append.mp hother with hother | hother
        · exact hnone other hother hkind'
        · rwa [List.mem_singleton.mp hother]

/-- **The composition.** It keeps the box and the operations and adds up their shifts. -/
theorem composeBoundaryRegionPlan_spec {destination : Box d}
    {operations : List (BoundaryOperation d)} {plan : BoundaryRegionPlan d}
    (h : composeBoundaryRegionPlan destination operations = .ok plan) :
    ¬ destination.Empty ∧ plan.destination = destination ∧ plan.operations.Perm operations ∧
      ∀ axis, ComposedAt operations plan.sourceFromDestinationShift axis := by
  simp only [composeBoundaryRegionPlan, bind_eq_ok, throwIf_eq_ok, exists_const,
    pure_eq_ok] at h
  obtain ⟨hne, _, final, hfinal, region, _, rfl⟩ := h
  have hperm := List.perm_insertionSort (fun left right : BoundaryOperation d =>
    left.face.ordinal ≤ right.face.ordinal) operations
  refine ⟨hne, rfl, hperm, fun axis => ?_⟩
  have hcomposed := foldlM_composeOperation hfinal axis
  simpa only [ComposedAt, hperm.mem_iff] using hcomposed

/-! ## The product of the strips -/

/-- The box grown by the ghost depths. -/
def ghostFrame (domain : Box d) (ghosts : Extent d) : Box d where
  lo axis := domain.lo axis - ghosts axis
  hi axis := domain.hi axis + ghosts axis

/-- The cell lies beyond the face of the domain. -/
def Face.Beyond (face : Face d) (domain : Box d) (c : Index d) : Prop :=
  (face.side = .lower ∧ c face.axis < domain.lo face.axis) ∨
    (face.side = .upper ∧ domain.hi face.axis < c face.axis)

/-- The cells of a product are those with every coordinate in the selected strip. -/
lemma mem_boundaryDestination {axes : Fin d → List (AxisSlice d)} {digit : Fin d → ℕ}
    {c : Index d} : c ∈ (boundaryDestination axes digit).cells ↔
      ∀ axis, (selectedSlice axes digit axis).Contains (c axis) := by
  simp [boundaryDestination, AxisSlice.Contains]

/-- The operations of a product are those of the selected strips. -/
lemma mem_boundaryOperations {axes : Fin d → List (AxisSlice d)} {digit : Fin d → ℕ}
    {operation : BoundaryOperation d} : operation ∈ boundaryOperations axes digit ↔
      ∃ axis, (selectedSlice axes digit axis).operation = some operation := by
  simp [boundaryOperations]

section Product

variable {domain : Box d} {ghosts : Extent d} {topology : BoundaryTopology d}
  {axes : Fin d → List (AxisSlice d)} {digit digit' : Fin d → ℕ} {c : Index d}

/-- A digit below the number of strips selects one of them. -/
lemma selectedSlice_mem (hdigit : ∀ axis, digit axis < (axes axis).length) (axis : Fin d) :
    selectedSlice axes digit axis ∈ axes axis := by
  rw [selectedSlice, List.getD_eq_getElem _ _ (hdigit axis)]
  exact List.getElem_mem _

/-- Different digits select disjoint products. -/
lemma boundaryDestination_disjoint
    (hpart : ∀ axis, AxisPartition domain ghosts topology axis (axes axis))
    (hdigit : ∀ axis, digit axis < (axes axis).length)
    (hdigit' : ∀ axis, digit' axis < (axes axis).length) (hne : digit ≠ digit') :
    Disjoint (boundaryDestination axes digit).cells (boundaryDestination axes digit').cells := by
  obtain ⟨axis, haxis⟩ := Function.ne_iff.mp hne
  rw [Finset.disjoint_left]
  intro c hc hc'
  have h := mem_boundaryDestination.mp hc axis
  have h' := mem_boundaryDestination.mp hc' axis
  simp only [selectedSlice, List.getD_eq_getElem _ _ (hdigit axis),
    List.getD_eq_getElem _ _ (hdigit' axis), AxisSlice.Contains] at h h'
  have hapart := List.pairwise_iff_getElem.mp (hpart axis).apart
  rcases Nat.lt_or_gt_of_ne haxis with hlt | hlt
  · have := hapart _ _ (hdigit axis) (hdigit' axis) hlt
    omega
  · have := hapart _ _ (hdigit' axis) (hdigit axis) hlt
    omega

/-- Every cell of the frame is in a product. -/
lemma exists_digit (hpart : ∀ axis, AxisPartition domain ghosts topology axis (axes axis))
    (hc : c ∈ (ghostFrame domain ghosts).cells) :
    ∃ digit : Fin d → ℕ, (∀ axis, digit axis < (axes axis).length) ∧
      c ∈ (boundaryDestination axes digit).cells := by
  have hstrip : ∀ axis, ∃ i, i < (axes axis).length ∧
      ((axes axis).getD i ⟨0, -1, none⟩).Contains (c axis) := by
    intro axis
    obtain ⟨slice, hslice, hcontains⟩ :=
      ((hpart axis).cover (c axis)).mpr (Box.mem_cells.mp hc axis)
    obtain ⟨i, hi, rfl⟩ := List.getElem_of_mem hslice
    exact ⟨i, hi, by rwa [List.getD_eq_getElem _ _ hi]⟩
  choose digit hlt hcontains using hstrip
  exact ⟨digit, hlt, mem_boundaryDestination.mpr hcontains⟩

/-- The products lie in the frame. -/
lemma boundaryDestination_subset
    (hpart : ∀ axis, AxisPartition domain ghosts topology axis (axes axis))
    (hdigit : ∀ axis, digit axis < (axes axis).length)
    (hc : c ∈ (boundaryDestination axes digit).cells) : c ∈ (ghostFrame domain ghosts).cells := by
  refine Box.mem_cells.mpr fun axis => ((hpart axis).cover (c axis)).mp ?_
  exact ⟨_, selectedSlice_mem hdigit axis, mem_boundaryDestination.mp hc axis⟩

/-- The domain is the product of the first strips. -/
lemma boundaryDestination_zero
    (hhead : ∀ axis, (axes axis).head? = some ⟨domain.lo axis, domain.hi axis, none⟩) :
    boundaryDestination axes 0 = domain := by
  have hselect : ∀ axis, selectedSlice axes 0 axis = ⟨domain.lo axis, domain.hi axis, none⟩ := by
    intro axis
    obtain ⟨rest, hrest⟩ := List.head?_eq_some_iff.mp (hhead axis)
    simp [selectedSlice, hrest]
  simp only [boundaryDestination, hselect]

/-- The operation of an axis is the operation of the strip selected on it. -/
lemma operation_of_axis (hpart : ∀ axis, AxisPartition domain ghosts topology axis (axes axis))
    (hdigit : ∀ axis, digit axis < (axes axis).length) {operation : BoundaryOperation d}
    (h : operation ∈ boundaryOperations axes digit) :
    (selectedSlice axes digit operation.face.axis).operation = some operation := by
  obtain ⟨axis, haxis⟩ := mem_boundaryOperations.mp h
  rwa [((hpart axis).outside _ (selectedSlice_mem hdigit axis) operation haxis).1]

/-- The composed shift leads every cell of a product into the domain on the periodic axes, and is
zero on the other axes. -/
lemma composed_leads_back
    (hpart : ∀ axis, AxisPartition domain ghosts topology axis (axes axis))
    (hdigit : ∀ axis, digit axis < (axes axis).length)
    (hc : c ∈ (boundaryDestination axes digit).cells) {composed : Index d}
    (hcomposed : ∀ axis, ComposedAt (boundaryOperations axes digit) composed axis) (axis : Fin d) :
    if topology.IsPeriodic ⟨axis, .lower⟩ then
      domain.lo axis ≤ c axis + composed axis ∧ c axis + composed axis ≤ domain.hi axis
    else composed axis = 0 := by
  have hmem := selectedSlice_mem hdigit axis
  have hcontains := mem_boundaryDestination.mp hc axis
  split_ifs with hperiodic
  · rcases hcomposed axis with ⟨operation, hop, _, rfl, hshift⟩ | ⟨hnone, hzero⟩
    · obtain ⟨_, shift, htranslation, hlead⟩ := (hpart _).periodic _ hmem operation
        (operation_of_axis hpart hdigit hop) hperiodic
      rw [hshift, htranslation, axisTranslation, Function.update_self]
      exact hlead _ hcontains
    · -- without an operation the strip is the domain itself
      cases hoperation : (selectedSlice axes digit axis).operation with
      | none =>
        obtain ⟨hlo, hhi⟩ := (hpart axis).interior _ hmem hoperation
        rw [hzero, add_zero, ← hlo, ← hhi]
        exact hcontains
      | some operation =>
        exact absurd ((hpart axis).outside _ hmem operation hoperation).1
          (hnone operation (mem_boundaryOperations.mpr ⟨axis, hoperation⟩)
            ((hpart axis).periodic _ hmem operation hoperation hperiodic).1)
  · rcases hcomposed axis with ⟨operation, hop, hkind, rfl, _⟩ | ⟨_, hzero⟩
    · have hphysical := ((hpart _).physical _ hmem operation
        (operation_of_axis hpart hdigit hop) hperiodic).1
      rw [hkind] at hphysical
      cases hphysical
    · exact hzero

/-- The physical operations of a product are at the physical faces that its cells lie beyond. -/
lemma physical_iff_beyond
    (hpart : ∀ axis, AxisPartition domain ghosts topology axis (axes axis))
    (hne : ∀ axis, domain.lo axis ≤ domain.hi axis)
    (hdigit : ∀ axis, digit axis < (axes axis).length)
    (hc : c ∈ (boundaryDestination axes digit).cells) (face : Face d) :
    (∃ operation ∈ boundaryOperations axes digit, operation.kind = .physical ∧
        operation.face = face) ↔
      ¬ topology.IsPeriodic ⟨face.axis, .lower⟩ ∧ face.Beyond domain c := by
  constructor
  · rintro ⟨operation, hop, hkind, rfl⟩
    have hmem := selectedSlice_mem hdigit operation.face.axis
    have hoperation := operation_of_axis hpart hdigit hop
    refine ⟨fun hperiodic => ?_, ?_⟩
    · have := ((hpart _).periodic _ hmem operation hoperation hperiodic).1
      rw [hkind] at this
      cases this
    · exact ((hpart _).outside _ hmem operation hoperation).2 _
        (mem_boundaryDestination.mp hc operation.face.axis)
  · rintro ⟨hphysical, hbeyond⟩
    have hmem := selectedSlice_mem hdigit face.axis
    have hcontains := mem_boundaryDestination.mp hc face.axis
    have hle := hne face.axis
    cases hoperation : (selectedSlice axes digit face.axis).operation with
    | none =>
      obtain ⟨hlo, hhi⟩ := (hpart _).interior _ hmem hoperation
      simp only [AxisSlice.Contains, hlo, hhi] at hcontains
      rcases hbeyond with ⟨_, h⟩ | ⟨_, h⟩ <;> omega
    | some operation =>
      obtain ⟨haxis, hside⟩ := (hpart _).outside _ hmem operation hoperation
      refine ⟨operation, mem_boundaryOperations.mpr ⟨_, hoperation⟩,
        ((hpart _).physical _ hmem operation hoperation hphysical).1, ?_⟩
      have hsame : operation.face.side = face.side := by
        rcases hside _ hcontains with ⟨h, hlt⟩ | ⟨h, hlt⟩ <;>
          rcases hbeyond with ⟨h', hlt'⟩ | ⟨h', hlt'⟩
        · rw [h, h']
        · omega
        · omega
        · rw [h, h']
      calc operation.face = ⟨operation.face.axis, operation.face.side⟩ := rfl
        _ = face := by rw [haxis, hsame]

end Product

/-! ## The schedule partitions the frame -/

/-- The number of products is the product of the numbers of strips. -/
lemma cartesianCount_eq {domain : Box d} {ghosts : Extent d} {topology : BoundaryTopology d}
    {cartesianCount : ℕ}
    (h : (List.finRange d).foldlM (fun cartesianCount axis => do
      let axisCount ← checkedAxisSegmentCount (ghosts axis) (domain.length axis)
        (topology.IsPeriodic ⟨axis, .lower⟩)
      throwIf (axisCount > sizeMax / cartesianCount)
        (lengthError "pops::mesh boundary schedule Cartesian size overflows size_t")
      pure (cartesianCount * axisCount)) 1 = .ok cartesianCount) :
    cartesianCount = ∏ axis, ((ghostStrips domain ghosts topology axis).length + 1) := by
  have hprod := foldlM_invariant (P := fun done (r : ℕ) =>
    r = (done.map fun axis => (ghostStrips domain ghosts topology axis).length + 1).prod) h rfl
    (fun done axis rest s s' _ hs hstep => by
      simp only [bind_eq_ok, throwIf_eq_ok, exists_const, pure_eq_ok] at hstep
      obtain ⟨count, hcount, _, rfl⟩ := hstep
      rw [hs, length_ghostStrips hcount]
      simp)
  rw [hprod, ← List.prod_ofFn, List.ofFn_eq_map]

/-- What a schedule was prepared from: the strips of every axis and the composition of every
product other than the domain. -/
lemma prepareBoundarySchedule_eq {domain : Box d} {ghosts : Extent d}
    {topology : BoundaryTopology d} {budget : BoundaryScheduleBudget}
    {schedule : BoundarySchedule d}
    (h : prepareBoundarySchedule domain ghosts topology budget = .ok schedule) :
    ¬ domain.Empty ∧ ∃ axes : Fin d → List (AxisSlice d),
      (∀ axis, AxisPartition domain ghosts topology axis (axes axis)) ∧
      (∀ axis, (axes axis).head? = some ⟨domain.lo axis, domain.hi axis, none⟩) ∧
      (List.range' 1 ((∏ axis, (axes axis).length) - 1)).mapM (fun ordinal =>
        composeBoundaryRegionPlan
          (boundaryDestination axes (MixedRadix.unrank (fun axis => (axes axis).length) ordinal))
          (boundaryOperations axes (MixedRadix.unrank (fun axis => (axes axis).length) ordinal))) =
        .ok schedule.entries := by
  simp only [prepareBoundarySchedule, bind_eq_ok, throwIf_eq_ok, exists_const, pure_eq_ok,
    forEachAxis_eq_ok] at h
  obtain ⟨hne, count, hcount, _, axes, haxes, _, entries, hentries, rfl⟩ := h
  have hspec := fun axis => makeAxisSlices_spec hne (haxes axis)
  refine ⟨hne, axes, fun axis => (hspec axis).1, fun axis => (hspec axis).2.1, ?_⟩
  have hlength : ∏ axis, (axes axis).length = count := by
    rw [cartesianCount_eq hcount]
    exact Finset.prod_congr rfl fun axis _ => (hspec axis).2.2
  rw [hlength]
  exact hentries

/-- **The boundary schedule partitions the ghost frame.** The boxes of its entries are nonempty and
pairwise disjoint, and together they are the cells of the grown domain outside the domain.  The
composed shift of an entry leads each of its cells back into the domain on every periodic axis and
is zero on the other axes; the entry has a physical operation at exactly the physical faces that
the cell lies beyond.

**Proof sketch.** The ordinals are the digit vectors other than zero, which is the domain.
Different digits select disjoint strips on some axis, and every cell of the frame selects a strip
on every axis.  What an entry does on an axis is decided by the strip selected there. -/
theorem prepareBoundarySchedule_partition {domain : Box d} {ghosts : Extent d}
    {topology : BoundaryTopology d} {budget : BoundaryScheduleBudget}
    {schedule : BoundarySchedule d}
    (h : prepareBoundarySchedule domain ghosts topology budget = .ok schedule) :
    (∀ entry ∈ schedule.entries, ¬ entry.destination.Empty) ∧
      (schedule.entries.map fun entry => entry.destination.cells).Pairwise Disjoint ∧
      Cover.union (schedule.entries.map fun entry => entry.destination.cells) =
        (ghostFrame domain ghosts).cells \ domain.cells ∧
      ∀ entry ∈ schedule.entries, ∀ c ∈ entry.destination.cells,
        (∀ axis, if topology.IsPeriodic ⟨axis, .lower⟩ then
            domain.lo axis ≤ c axis + entry.sourceFromDestinationShift axis ∧
              c axis + entry.sourceFromDestinationShift axis ≤ domain.hi axis
          else entry.sourceFromDestinationShift axis = 0) ∧
        ∀ face : Face d, (∃ operation ∈ entry.operations, operation.kind = .physical ∧
            operation.face = face) ↔
          ¬ topology.IsPeriodic ⟨face.axis, .lower⟩ ∧ face.Beyond domain c := by
  obtain ⟨hne, axes, hpart, hhead, hentries⟩ := prepareBoundarySchedule_eq h
  set radix : Fin d → ℕ := fun axis => (axes axis).length with hradix
  have hpos : ∀ axis, 0 < radix axis := by
    intro axis
    obtain ⟨rest, hrest⟩ := List.head?_eq_some_iff.mp (hhead axis)
    simp [hradix, hrest]
  have hbelow : ∀ ordinal axis, MixedRadix.unrank radix ordinal axis < (axes axis).length :=
    fun ordinal axis => MixedRadix.unrank_lt hpos ordinal axis
  have hordinal : ∀ {ordinal}, ordinal ∈ List.range' 1 ((∏ axis, radix axis) - 1) →
      0 < ordinal ∧ ordinal < ∏ axis, radix axis := by
    intro ordinal hmem
    rw [List.mem_range'_1] at hmem
    omega
  have hcells := map_of_mapM (fun entry : BoundaryRegionPlan d => entry.destination.cells)
    (fun ordinal => (boundaryDestination axes (MixedRadix.unrank radix ordinal)).cells) hentries
    fun ordinal entry hentry => by rw [(composeBoundaryRegionPlan_spec hentry).2.1]
  refine ⟨fun entry hentry => ?_, ?_, ?_, fun entry hentry c hc => ?_⟩
  · obtain ⟨ordinal, _, hplan⟩ := (mem_of_mapM hentries).2 entry hentry
    obtain ⟨hnonempty, hdestination, _⟩ := composeBoundaryRegionPlan_spec hplan
    rwa [hdestination]
  · rw [hcells, List.pairwise_map]
    refine (List.pairwise_lt_range').imp_of_mem fun {p q} hp hq hlt => ?_
    refine boundaryDestination_disjoint hpart (hbelow p) (hbelow q) fun heq => ?_
    have hp' := MixedRadix.rank_unrank (hordinal hp).2
    rw [heq, MixedRadix.rank_unrank (hordinal hq).2] at hp'
    omega
  · rw [hcells]
    ext c
    simp only [Cover.mem_union, List.mem_map, Finset.mem_sdiff]
    constructor
    · rintro ⟨_, ⟨ordinal, hmem, rfl⟩, hc⟩
      refine ⟨boundaryDestination_subset hpart (hbelow ordinal) hc, fun hdomain => ?_⟩
      rw [← boundaryDestination_zero hhead] at hdomain
      have hfirst : ∀ axis, (0 : Fin d → ℕ) axis < (axes axis).length := hpos
      refine Finset.disjoint_left.mp
        (boundaryDestination_disjoint hpart (hbelow ordinal) hfirst fun heq => ?_) hc hdomain
      have hzero := MixedRadix.rank_unrank (hordinal hmem).2
      rw [heq, MixedRadix.rank_zero] at hzero
      have := (hordinal hmem).1
      omega
    · rintro ⟨hframe, hdomain⟩
      obtain ⟨digit, hdigit, hc⟩ := exists_digit hpart hframe
      have hunrank : MixedRadix.unrank radix (MixedRadix.rank radix digit) = digit :=
        MixedRadix.unrank_rank hdigit
      refine ⟨_, ⟨MixedRadix.rank radix digit, ?_, rfl⟩, by rwa [hunrank]⟩
      have hlt : MixedRadix.rank radix digit < Finset.univ.prod radix := MixedRadix.rank_lt hdigit
      have hnonzero : MixedRadix.rank radix digit ≠ 0 := by
        intro hrank
        have hdigits : digit = 0 := by
          rw [← hunrank, hrank, ← MixedRadix.rank_zero radix]
          exact MixedRadix.unrank_rank hpos
        rw [hdigits, boundaryDestination_zero hhead] at hc
        exact hdomain hc
      rw [List.mem_range'_1]
      omega
  · obtain ⟨ordinal, _, hplan⟩ := (mem_of_mapM hentries).2 entry hentry
    obtain ⟨_, hdestination, hperm, hcomposed⟩ := composeBoundaryRegionPlan_spec hplan
    rw [hdestination] at hc
    refine ⟨composed_leads_back hpart (hbelow ordinal) hc hcomposed, fun face => ?_⟩
    simp only [hperm.mem_iff]
    exact physical_iff_beyond hpart (Box.lo_le_hi hne) (hbelow ordinal) hc face

/-- A domain of three by two cells, periodic with five ghost cells along axis 0 and physical with
one ghost cell along axis 1. -/
def stripSchedule : Throws (BoundarySchedule 2) :=
  prepareBoundarySchedule ⟨fun _ => -1, ![1, 0]⟩ ![5, 1] (.axisPeriodic ![true, false]) ⟨14⟩

/-- The strip has fourteen entries, which partition its frame. -/
theorem prepareBoundarySchedule_strip :
    ∃ schedule, stripSchedule = .ok schedule ∧ schedule.entries.length = 14 ∧
      Cover.union (schedule.entries.map fun entry => entry.destination.cells) =
        (ghostFrame ⟨fun _ => -1, ![1, 0]⟩ ![5, 1]).cells \
          (⟨fun _ => -1, ![1, 0]⟩ : Box 2).cells := by
  have hreturns : stripSchedule.toOption.map (fun schedule => schedule.entries.length) =
      some 14 := by decide +kernel
  cases hschedule : stripSchedule with
  | error e =>
    rw [hschedule] at hreturns
    cases hreturns
  | ok schedule =>
    rw [hschedule] at hreturns
    exact ⟨schedule, rfl, Option.some.inj hreturns,
      (prepareBoundarySchedule_partition hschedule).2.2.1⟩

end Pops
