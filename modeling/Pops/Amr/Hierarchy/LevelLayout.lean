import Pops.Mesh.Layout.Distribution

/-!
# Refinement levels

`pops::amr::RefinementRatio`, the anisotropic refinement and coarsening of boxes, and
`pops::amr::hierarchy::LevelLayout`, one geometric level with its patch ownership.

The geometry is stated on cells: the parent of a fine cell is its coordinatewise floor division
by the ratio (`parentCell`).  Refinement pulls a box back along that map, and a box survives the
round trip through coarsening exactly when it is a union of complete parent cells.

## Main definitions

* `Pops.RefinementRatio` — a positive ratio per axis.
* `Pops.refineBox`, `coarsenBox` — the checked box transforms.
* `Pops.parentCell`, `Box.Complete` — the parent of a cell; unions of complete parent cells.
* `Pops.LevelLayout` — a level accepted by its constructor.

## Main results

* `Pops.mem_refineBox`, `parentCell_mem_coarsenBox`, `exists_child_of_mem_coarsenBox` — the
  transforms on cell sets.
* `Pops.refine_coarsen_iff_complete` — the alignment round trip decides `Box.Complete`.
* `Pops.LevelLayout.spec` — what an accepted level guarantees.
-/

namespace Pops

/-- A positive refinement ratio per axis whose child count fits `std::int64_t`. -/
structure RefinementRatio (d : ℕ) where
  values : Fin d → ℤ
  pos : ∀ a, 1 ≤ values a
  isInt : ∀ a, IsInt (values a)
  childCount_le : ∏ a, values a ≤ int64Max
  deriving DecidableEq

variable {d : ℕ}

/-- The ratio refines some axis. -/
def RefinementRatio.RefinesAnyAxis (ratio : RefinementRatio d) : Prop := ∃ a, ratio.values a > 1

instance (ratio : RefinementRatio d) : Decidable ratio.RefinesAnyAxis :=
  inferInstanceAs (Decidable (∃ _, _))

/-! ## Box transforms -/

/-- Truncated division corrected to the mathematical floor. -/
def floorDiv (numerator denominator : ℤ) : Throws ℤ := do
  throwIf (denominator ≤ 0) (invalidArgument "ND refinement ratios must be strictly positive")
  let quotient := numerator.tdiv denominator
  let remainder := numerator.tmod denominator
  pure (if remainder < 0 then quotient - 1 else quotient)

/-- Every component of the ratio is positive. -/
def validateRatio (ratio : RefinementRatio d) : Throws Unit := do
  let _ ← forEachAxis fun axis => throwIf (ratio.values axis ≤ 0)
    (invalidArgument "ND refinement ratios must be strictly positive")

/-- Refine an inclusive box independently along every axis. -/
def refineBox (box : Box d) (ratio : RefinementRatio d) : Throws (Box d) := do
  validateRatio ratio
  if box.Empty then pure box
  else
    let bounds ← forEachAxis fun axis => do
      let lower ← checkedIndex (box.lo axis * ratio.values axis)
        "refine_box lower bound exceeds signed index range"
      let upper ← checkedIndex (box.hi axis * ratio.values axis + ratio.values axis - 1)
        "refine_box upper bound exceeds signed index range"
      pure (lower, upper)
    pure ⟨fun a => (bounds a).1, fun a => (bounds a).2⟩

/-- Coarsen an inclusive box with mathematical floor division. -/
def coarsenBox (box : Box d) (ratio : RefinementRatio d) : Throws (Box d) := do
  validateRatio ratio
  if box.Empty then pure box
  else
    let bounds ← forEachAxis fun axis => do
      let lower ← floorDiv (box.lo axis) (ratio.values axis)
      let upper ← floorDiv (box.hi axis) (ratio.values axis)
      pure (lower, upper)
    pure ⟨fun a => (bounds a).1, fun a => (bounds a).2⟩

/-- The parent of a fine cell. -/
def parentCell (ratio : RefinementRatio d) (cell : Index d) : Index d :=
  fun a => cell a / ratio.values a

/-- The box is a union of complete parent cells: with a cell it contains all its siblings. -/
def Box.Complete (ratio : RefinementRatio d) (box : Box d) : Prop :=
  ∀ i ∈ box.cells, ∀ j, parentCell ratio j = parentCell ratio i → j ∈ box.cells

/-- Every ratio passes its own check. -/
@[simp] lemma validateRatio_eq_ok (ratio : RefinementRatio d) : validateRatio ratio = .ok () := by
  simp only [validateRatio, bind_eq_ok, forEachAxis_eq_ok, throwIf_eq_ok, pure_eq_ok]
  exact ⟨fun _ => (), fun a => by have := ratio.pos a; omega, trivial⟩

/-- The corrected truncated division is floor division. -/
@[simp] lemma floorDiv_eq_ok {n m q : ℤ} (hm : 0 < m) : floorDiv n m = .ok q ↔ n / m = q := by
  have hdiv : (if n.tmod m < 0 then n.tdiv m - 1 else n.tdiv m) = n / m := by
    have hnonneg := Int.emod_nonneg n hm.ne'
    have hlt := Int.emod_lt_of_pos n hm
    rw [Int.tmod_eq_emod, Int.tdiv_eq_ediv, Int.sign_eq_one_of_pos hm]
    split_ifs <;> omega
  simp only [floorDiv, bind_eq_ok, throwIf_eq_ok, pure_eq_ok, hdiv]
  exact ⟨fun h => by obtain ⟨_, _, h⟩ := h; exact h, fun h => ⟨(), by omega, h⟩⟩

/-- The refinement of a box before its range checks. -/
def refinedBox (box : Box d) (ratio : RefinementRatio d) : Box d where
  lo a := box.lo a * ratio.values a
  hi a := box.hi a * ratio.values a + ratio.values a - 1

/-- A refined box is the refinement before the range checks, and passes them. -/
lemma refineBox_eq_ok {box r : Box d} {ratio : RefinementRatio d} (hne : ¬ box.Empty) :
    refineBox box ratio = .ok r ↔ r = refinedBox box ratio ∧ r.IsInt := by
  simp only [refineBox, validateRatio_eq_ok, bind_eq_ok, true_and, exists_const,
    if_neg hne, forEachAxis_eq_ok, checkedIndex_eq_ok, pure_eq_ok]
  refine ⟨fun h => ?_, fun h => ?_⟩
  · obtain ⟨bounds, hbounds, rfl⟩ := h
    have hb : ∀ a, (bounds a).1 = box.lo a * ratio.values a ∧
        (bounds a).2 = box.hi a * ratio.values a + ratio.values a - 1 ∧
        IsInt (bounds a).1 ∧ IsInt (bounds a).2 := fun a => by
      obtain ⟨l, ⟨hl, rfl⟩, u, ⟨hu, rfl⟩, he⟩ := hbounds a
      rw [← he]
      exact ⟨rfl, rfl, hl, hu⟩
    exact ⟨Box.ext (funext fun a => (hb a).1) (funext fun a => (hb a).2.1),
      fun a => ⟨(hb a).2.2.1, (hb a).2.2.2⟩⟩
  · obtain ⟨rfl, hr⟩ := h
    exact ⟨fun a => (box.lo a * ratio.values a,
      box.hi a * ratio.values a + ratio.values a - 1),
      fun a => ⟨_, ⟨(hr a).1, rfl⟩, _, ⟨(hr a).2, rfl⟩, rfl⟩, rfl⟩

/-- The bounds of a coarsened box; coarsening never throws. -/
lemma coarsenBox_eq_ok {box r : Box d} {ratio : RefinementRatio d} (hne : ¬ box.Empty) :
    coarsenBox box ratio = .ok r ↔ r = ⟨parentCell ratio box.lo, parentCell ratio box.hi⟩ := by
  have hpos : ∀ a, 0 < ratio.values a := fun a => by have := ratio.pos a; omega
  simp only [coarsenBox, validateRatio_eq_ok, bind_eq_ok, true_and, exists_const,
    if_neg hne, forEachAxis_eq_ok, floorDiv_eq_ok (hpos _), pure_eq_ok]
  refine ⟨fun h => ?_, fun h => ?_⟩
  · obtain ⟨bounds, hbounds, rfl⟩ := h
    have hb : ∀ a, bounds a = (box.lo a / ratio.values a, box.hi a / ratio.values a) := by
      intro a
      obtain ⟨l, rfl, u, rfl, he⟩ := hbounds a
      exact he.symm
    exact Box.ext (funext fun a => congrArg Prod.fst (hb a))
      (funext fun a => congrArg Prod.snd (hb a))
  · subst h
    exact ⟨fun a => (box.lo a / ratio.values a, box.hi a / ratio.values a),
      fun a => ⟨_, rfl, _, rfl, rfl⟩, rfl⟩

/-- A bound scaled by the ratio compares with a cell as the bound does with its parent. -/
lemma mul_le_iff_le_parent {ratio : RefinementRatio d} {i : Index d} {a : Fin d} {l : ℤ} :
    l * ratio.values a ≤ i a ↔ l ≤ parentCell ratio i a := by
  have := ratio.pos a
  exact (Int.le_ediv_iff_mul_le (by omega)).symm

/-- The last child of a bound compares with a cell as the bound does with its parent. -/
lemma le_mul_iff_parent_le {ratio : RefinementRatio d} {i : Index d} {a : Fin d} {u : ℤ} :
    i a ≤ u * ratio.values a + ratio.values a - 1 ↔ parentCell ratio i a ≤ u := by
  have hpos := ratio.pos a
  have h : parentCell ratio i a < u + 1 ↔ i a < (u + 1) * ratio.values a :=
    Int.ediv_lt_iff_lt_mul (by omega)
  rw [Int.add_mul, Int.one_mul] at h
  omega

/-- The refinement of a box holds exactly the cells whose parent is in the box. -/
lemma mem_refinedBox {box : Box d} {ratio : RefinementRatio d} {i : Index d} :
    i ∈ (refinedBox box ratio).cells ↔ parentCell ratio i ∈ box.cells := by
  rw [Box.mem_cells, Box.mem_cells]
  exact forall_congr' fun a => and_congr mul_le_iff_le_parent le_mul_iff_parent_le

/-- A refined box holds exactly the cells whose parent is in the box. -/
theorem mem_refineBox {box r : Box d} {ratio : RefinementRatio d} (hne : ¬ box.Empty)
    (h : refineBox box ratio = .ok r) {i : Index d} :
    i ∈ r.cells ↔ parentCell ratio i ∈ box.cells := by
  rw [((refineBox_eq_ok hne).mp h).1]
  exact mem_refinedBox

/-- The parent of a cell is monotone on every axis. -/
lemma parentCell_mono {ratio : RefinementRatio d} {i j : Index d} {a : Fin d}
    (h : i a ≤ j a) : parentCell ratio i a ≤ parentCell ratio j a :=
  Int.ediv_le_ediv (by have := ratio.pos a; omega) h

/-- A coarsened box contains the parents of the cells of the box. -/
theorem parentCell_mem_coarsenBox {box r : Box d} {ratio : RefinementRatio d}
    (hne : ¬ box.Empty) (h : coarsenBox box ratio = .ok r) {i : Index d} (hi : i ∈ box.cells) :
    parentCell ratio i ∈ r.cells := by
  rw [(coarsenBox_eq_ok hne).mp h]
  exact Box.mem_cells.mpr fun a => ⟨parentCell_mono (Box.mem_cells.mp hi a).1,
    parentCell_mono (Box.mem_cells.mp hi a).2⟩

/-- The footprint of a nonempty box is nonempty. -/
lemma coarsenBox_nonempty {box r : Box d} {ratio : RefinementRatio d} (hne : ¬ box.Empty)
    (h : coarsenBox box ratio = .ok r) : ¬ r.Empty :=
  Box.not_empty_of_mem (parentCell_mem_coarsenBox hne h (Box.lo_mem_cells hne))

/-- Every cell of the footprint of a nonempty box is the parent of one of its cells.

**Proof sketch.** Take the cell of the box nearest to the first child of `p`: on every axis
`max (p · ratio) lo`.  It does not pass `hi`, because `p` is at most the parent of `hi`, and its
parent is `p`, because `p` is at least the parent of `lo`. -/
theorem exists_child_of_mem_coarsenBox {box r : Box d} {ratio : RefinementRatio d}
    (hne : ¬ box.Empty) (h : coarsenBox box ratio = .ok r) {p : Index d} (hp : p ∈ r.cells) :
    ∃ i ∈ box.cells, parentCell ratio i = p := by
  rw [(coarsenBox_eq_ok hne).mp h, Box.mem_cells] at hp
  refine ⟨fun a => max (p a * ratio.values a) (box.lo a), Box.mem_cells.mpr fun a => ?_,
    funext fun a => le_antisymm ?_ ?_⟩
  · have hle : p a * ratio.values a ≤ box.hi a := mul_le_iff_le_parent.mpr (hp a).2
    exact ⟨le_max_right _ _, max_le hle (Box.lo_le_hi hne a)⟩
  · refine le_mul_iff_parent_le.mp (max_le ?_ ?_)
    · have := ratio.pos a
      omega
    · exact le_mul_iff_parent_le.mpr (hp a).1
  · exact mul_le_iff_le_parent.mp (le_max_left _ _)

/-- **The alignment round trip decides completeness**: refining the footprint of a nonempty box
with `int` bounds gives the box back exactly when the box is a union of complete parent cells.

**Proof sketch.** A refined box is a preimage under the parent map, so it is complete.
Conversely the refined footprint has the same cells as a complete box, because every cell of the
footprint is the parent of a cell of the box; its bounds are then those of the box and pass the
range checks. -/
theorem refine_coarsen_iff_complete {box footprint : Box d} {ratio : RefinementRatio d}
    (hne : ¬ box.Empty) (hint : box.IsInt) (h : coarsenBox box ratio = .ok footprint) :
    refineBox footprint ratio = .ok box ↔ box.Complete ratio := by
  have hfne := coarsenBox_nonempty hne h
  refine ⟨fun hr i hi j hj => ?_, fun hcomplete => ?_⟩
  · rw [mem_refineBox hfne hr, hj, ← mem_refineBox hfne hr]
    exact hi
  · have hcells : box.cells = (refinedBox footprint ratio).cells := by
      ext i
      rw [mem_refinedBox]
      refine ⟨fun hi => parentCell_mem_coarsenBox hne h hi, fun hi => ?_⟩
      obtain ⟨j, hj, hji⟩ := exists_child_of_mem_coarsenBox hne h hi
      exact hcomplete j hj i hji.symm
    exact (refineBox_eq_ok hfne).mpr ⟨Box.eq_of_cells_eq hne hcells, hint⟩

/-! ## Levels -/

/-- The exact identity of a level. -/
structure LevelLayoutIdentity (d : ℕ) where
  level : ℤ
  domain : Box d
  ratioFromParent : RefinementRatio d
  patches : List (Box d)
  rankSpace : RankSpace d
  distributionMode : DistributionMode
  owners : List (Index d)
  validationBudget : BoxArrayValidationBudget
  deriving DecidableEq

/-- The checks of the `LevelLayout` constructor. -/
def LevelLayout.validate (level : ℤ) (domain : Box d) (patches : BoxArray d)
    (distribution : Distribution d) (ratio : RefinementRatio d)
    (budget : BoxArrayValidationBudget) : Throws Unit := do
  throwIf (level < 0) (invalidArgument "LevelLayout level must be non-negative")
  throwIf domain.Empty (invalidArgument "LevelLayout domain must be non-empty")
  throwIf (patches.boxes = []) (invalidArgument "LevelLayout must contain at least one patch")
  throwIf (distribution.layout ≠ patches)
    (invalidArgument "LevelLayout distribution does not authenticate its patch layout")
  validateRatio ratio
  if level = 0 then
    throwIf ratio.RefinesAnyAxis
      (invalidArgument "LevelLayout level zero must use the identity ratio")
    let tiles ← patches.tilesExactly domain budget
    throwIf (tiles = false)
      (invalidArgument "LevelLayout level zero patches must exactly tile the domain")
  else
    throwIf (¬ ratio.RefinesAnyAxis)
      (invalidArgument "a fine LevelLayout must refine at least one axis")
    let disjoint ← patches.isDisjointWithin domain budget
    throwIf (disjoint = false) (invalidArgument
      "a fine LevelLayout requires non-empty disjoint patches inside its domain")

/-- A geometric level and its exact patch ownership. -/
structure LevelLayout (d : ℕ) where
  level : ℤ
  domain : Box d
  patches : BoxArray d
  distribution : Distribution d
  ratioFromParent : RefinementRatio d
  validationBudget : BoxArrayValidationBudget
  level_isInt : IsInt level
  domain_isInt : domain.IsInt
  accepted : LevelLayout.validate level domain patches distribution ratioFromParent
    validationBudget = .ok ()

namespace LevelLayout

/-- The exact identity of the level. -/
def exactIdentity (layout : LevelLayout d) : LevelLayoutIdentity d where
  level := layout.level
  domain := layout.domain
  ratioFromParent := layout.ratioFromParent
  patches := layout.patches.boxes
  rankSpace := layout.distribution.rankSpace
  distributionMode := layout.distribution.mode
  owners := layout.distribution.owners
  validationBudget := layout.validationBudget

/-- An accepted level has a nonnegative number, a nonempty domain, at least one patch, and its
patches are nonempty, inside the domain and pairwise disjoint. -/
theorem spec (layout : LevelLayout d) :
    0 ≤ layout.level ∧ ¬ layout.domain.Empty ∧ layout.patches.boxes ≠ [] ∧
      layout.distribution.layout = layout.patches ∧
      layout.patches.DisjointWithin layout.domain := by
  have hacc := layout.accepted
  unfold validate at hacc
  simp only [bind_eq_ok, throwIf_eq_ok, exists_const, not_not, ne_eq, validateRatio_eq_ok,
    true_and, not_lt] at hacc
  obtain ⟨hlevel, hdomain, hpatches, hlayout, hrest⟩ := hacc
  refine ⟨hlevel, hdomain, hpatches, hlayout, ?_⟩
  split_ifs at hrest with h0
  · simp only [bind_eq_ok, throwIf_eq_ok, exists_const, Bool.not_eq_false] at hrest
    obtain ⟨_, tiles, htiles, rfl⟩ := hrest
    exact (BoxArray.tilesExactly_eq_ok_true hdomain htiles).1
  · simp only [bind_eq_ok, throwIf_eq_ok, exists_const, Bool.not_eq_false] at hrest
    obtain ⟨_, disjoint, hdisjoint, rfl⟩ := hrest
    exact BoxArray.isDisjointWithin_eq_ok_true hdisjoint

/-- The patches of an accepted level are pairwise disjoint. -/
lemma pairwise_disjoint (layout : LevelLayout d) :
    layout.patches.cellSets.Pairwise Disjoint :=
  (BoxArray.disjointWithin_iff.mp layout.spec.2.2.2.2).2

/-- The patches of an accepted level are nonempty boxes inside its domain. -/
lemma patch_spec (layout : LevelLayout d) {b : Box d} (hb : b ∈ layout.patches.boxes) :
    ¬ b.Empty ∧ b.cells ⊆ layout.domain.cells :=
  (BoxArray.disjointWithin_iff.mp layout.spec.2.2.2.2).1 b hb

end LevelLayout

/-! ## A two-level line -/

/-- An `int` ratio on a single axis has a child count within range. -/
lemma RefinementRatio.line_valid {ratio : ℤ} (h : 1 ≤ ratio ∧ ratio ≤ intMax) :
    (∀ _ : Fin 1, 1 ≤ ratio) ∧ (∀ _ : Fin 1, IsInt ratio) ∧ ∏ _ : Fin 1, ratio ≤ int64Max := by
  refine ⟨fun _ => h.1, fun _ => ⟨by unfold intMin; omega, h.2⟩, ?_⟩
  unfold intMax at h
  simp only [Finset.prod_const, Finset.card_univ, Fintype.card_fin, pow_one, int64Max]
  omega

/-- The given ratio along the single axis of a line. -/
def RefinementRatio.line (ratio : ℤ) (h : 1 ≤ ratio ∧ ratio ≤ intMax) : RefinementRatio 1 :=
  ⟨fun _ => ratio, (line_valid h).1, (line_valid h).2.1, (line_valid h).2.2⟩

/-- Level zero of the line: `[0, 3]` in two patches. -/
def LevelLayout.coarseLine : LevelLayout 1 where
  level := 0
  domain := Box.line 0 3
  patches := BoxArray.line
  distribution := Distribution.line
  ratioFromParent := RefinementRatio.line 1 (by decide)
  validationBudget := ⟨2, 1⟩
  level_isInt := by decide
  domain_isInt := by decide
  accepted := by decide +kernel

/-- Level one of the line: the patch `[2, 5]` in the refined domain `[0, 7]`. -/
def LevelLayout.fineLine : LevelLayout 1 where
  level := 1
  domain := Box.line 0 7
  patches := ⟨[Box.line 2 5], by decide +kernel⟩
  distribution := ⟨⟨[Box.line 2 5], by decide +kernel⟩, RankSpace.line, .partitioned,
    [fun _ => 1], by decide +kernel⟩
  ratioFromParent := RefinementRatio.line 2 (by decide)
  validationBudget := ⟨1, 0⟩
  level_isInt := by decide
  domain_isInt := by decide
  accepted := by decide +kernel

end Pops
