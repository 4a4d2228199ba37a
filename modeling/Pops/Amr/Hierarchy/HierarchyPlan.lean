import Pops.Amr.Hierarchy.LevelLayout

/-!
# Hierarchy plans

`pops::amr::hierarchy::HierarchyPlan`: a list of levels accepted when every level refines the
one before it.  The code decides nesting by an alignment round trip and by comparing exact
counts of intersections; `ProperlyNested` states what it decides on cells.

## Main definitions

* `Pops.HierarchyPlan`, `HierarchyPlan.create`, `HierarchyPlan.withLevel` — plans and the two ways
  to build one.
* `Pops.ProperlyNested` — proper nesting of a list of levels, on cells.
* `Pops.ancestor` — the iterated parent of a cell.

## Main results

* `Pops.HierarchyPlan.validatePatch_eq_ok` — the check of one fine patch decides its nesting.
* `Pops.hierarchyPlan_accepts_properly_nested` — construction accepts exactly the properly
  nested lists, and in every plan each ancestor of a covered cell lies in exactly one patch.
-/

namespace Pops

variable {d : ℕ}

/-- Explicit finite budget of the hierarchy validation. -/
structure HierarchyValidationBudget where
  levels : ℕ
  parentChildPatchPairs : ℕ
  isSize : parentChildPatchPairs ≤ sizeMax

namespace HierarchyPlan

/-- The checked number of parent/child patch pairs. -/
def checkedPairCount (children parents : ℕ) : Throws ℕ := do
  throwIf (parents ≠ 0 ∧ children > sizeMax / parents)
    (lengthError "HierarchyPlan parent/child patch pair count exceeds size_t")
  pure (children * parents)

/-- The checks of one fine patch against the parent level. -/
def validatePatch (parent child : LevelLayout d) (finePatch : Box d) : Throws Unit := do
  let footprint ← coarsenBox finePatch child.ratioFromParent
  let refined ← refineBox footprint child.ratioFromParent
  throwIf (refined ≠ finePatch) (invalidArgument
    "HierarchyPlan fine patches must contain complete anisotropic parent cells")
  let covered ← ExactCellCount.sumBoxes (parent.patches.boxes.map footprint.intersect)
    (overflowError "HierarchyPlan parent coverage exceeds exact count capacity")
  let whole ← ExactCellCount.fromBox footprint
  throwIf (covered ≠ whole) (invalidArgument
    "HierarchyPlan fine patch footprint is not covered by the parent level")

/-- The loop of `validate_` over the levels after `parent`, the first of which has the given
index. -/
def validateFrom (budget : HierarchyValidationBudget) :
    LevelLayout d → List (LevelLayout d) → (levelIndex pairCount : ℕ) → Throws Unit
  | _, [], _, _ => pure ()
  | parent, child :: rest, levelIndex, pairCount => do
    throwIf (child.level ≠ castInt levelIndex)
      (invalidArgument "HierarchyPlan levels must be consecutive and ordered")
    throwIf (child.distribution.rankSpace ≠ parent.distribution.rankSpace)
      (invalidArgument "HierarchyPlan levels must share one exact process space")
    let refined ← refineBox parent.domain child.ratioFromParent
    throwIf (child.domain ≠ refined) (invalidArgument
      "HierarchyPlan child domain is not the anisotropic refinement of its parent")
    let currentPairs ← checkedPairCount child.patches.boxes.length parent.patches.boxes.length
    throwIf (pairCount > budget.parentChildPatchPairs ∨
        currentPairs > budget.parentChildPatchPairs - pairCount)
      (lengthError "HierarchyPlan exceeds its explicit parent/child pair budget")
    forEach child.patches.boxes (validatePatch parent child)
    validateFrom budget child rest (levelIndex + 1) (pairCount + currentPairs)

/-- The checks of the `HierarchyPlan` constructor. -/
def validate (levels : List (LevelLayout d)) (budget : HierarchyValidationBudget) :
    Throws Unit :=
  match levels with
  | [] => throw (invalidArgument "HierarchyPlan requires level zero")
  | first :: rest => do
    throwIf ((first :: rest).length > budget.levels)
      (lengthError "HierarchyPlan exceeds its explicit level budget")
    throwIf (first.level ≠ 0) (invalidArgument "HierarchyPlan first level must be level zero")
    validateFrom budget first rest 1 0

end HierarchyPlan

/-- A validated list of levels. -/
structure HierarchyPlan (d : ℕ) where
  levels : List (LevelLayout d)
  budget : HierarchyValidationBudget
  accepted : HierarchyPlan.validate levels budget = .ok ()

namespace HierarchyPlan

/-- The constructor. -/
def create (levels : List (LevelLayout d)) (budget : HierarchyValidationBudget) :
    Throws (HierarchyPlan d) :=
  match h : validate levels budget with
  | .ok () => .ok ⟨levels, budget, h⟩
  | .error e => .error e

/-- A validated append or replacement, truncating levels finer than the candidate. -/
def withLevel (plan : HierarchyPlan d) (candidate : LevelLayout d) : Throws (HierarchyPlan d) := do
  throwIf (candidate.level < 0 ∨ candidate.level.toNat > plan.levels.length)
    (outOfRange "HierarchyPlan replacement level is not contiguous")
  create (plan.levels.take candidate.level.toNat ++ [candidate]) plan.budget

end HierarchyPlan

/-! ## Proper nesting -/

/-- The child level with index `k` is properly nested in its parent: it has number `k` and the
same process space, its domain is the refinement of the parent domain, and each of its patches
is a union of complete parent cells that lie in parent patches. -/
structure Linked (parent child : LevelLayout d) (k : ℕ) : Prop where
  level_eq : child.level = k
  rankSpace_eq : child.distribution.rankSpace = parent.distribution.rankSpace
  domain_refines : ∀ i, i ∈ child.domain.cells ↔
    parentCell child.ratioFromParent i ∈ parent.domain.cells
  complete : ∀ P ∈ child.patches.boxes, P.Complete child.ratioFromParent
  nested : ∀ P ∈ child.patches.boxes, ∀ i ∈ P.cells,
    ∃ Q ∈ parent.patches.boxes, parentCell child.ratioFromParent i ∈ Q.cells

/-- The levels are numbered `0, 1, 2, …`, share one process space, and each level after the
first is the refinement of part of the one before it. -/
structure ProperlyNested (levels : List (LevelLayout d)) : Prop where
  nonempty : levels ≠ []
  level_eq : ∀ k (h : k < levels.length), levels[k].level = k
  rankSpace_eq : ∀ l ∈ levels, ∀ l' ∈ levels,
    l.distribution.rankSpace = l'.distribution.rankSpace
  domain_refines : ∀ k (h : k + 1 < levels.length), ∀ i,
    i ∈ levels[k + 1].domain.cells ↔
      parentCell levels[k + 1].ratioFromParent i ∈ levels[k].domain.cells
  patches_nested : ∀ k (h : k + 1 < levels.length), ∀ P ∈ levels[k + 1].patches.boxes,
    P.Complete levels[k + 1].ratioFromParent ∧ ∀ i ∈ P.cells,
      ∃ Q ∈ levels[k].patches.boxes, parentCell levels[k + 1].ratioFromParent i ∈ Q.cells

/-- The number of parent/child patch pairs of the levels after `parent`. -/
def pairTotal : LevelLayout d → List (LevelLayout d) → ℕ
  | _, [] => 0
  | parent, child :: rest =>
    child.patches.boxes.length * parent.patches.boxes.length + pairTotal child rest

/-- The levels and their patch pairs stay within the budget. -/
def WithinBudget (levels : List (LevelLayout d)) (budget : HierarchyValidationBudget) : Prop :=
  levels.length ≤ budget.levels ∧
    ∀ first rest, levels = first :: rest → pairTotal first rest ≤ budget.parentChildPatchPairs

/-- The parent of a cell of level `k`. -/
def parentAt (levels : List (LevelLayout d)) (k : ℕ) (i : Index d) : Index d :=
  match levels[k]? with
  | some level => parentCell level.ratioFromParent i
  | none => i

/-- The ancestor at level `j` of a cell of level `j + n`. -/
def ancestor (levels : List (LevelLayout d)) (j : ℕ) : ℕ → Index d → Index d
  | 0, i => i
  | n + 1, i => ancestor levels j n (parentAt levels (j + n + 1) i)

/-- Every ancestor of a covered cell lies in exactly one patch of its level. -/
def AncestorsUnique (levels : List (LevelLayout d)) : Prop :=
  ∀ j k (hjk : j < k) (hk : k < levels.length), ∀ P ∈ levels[k].patches.boxes, ∀ i ∈ P.cells,
    ∃! q : Fin levels[j].patches.boxes.length,
      ancestor levels j (k - j) i ∈ levels[j].patches.boxes[q].cells

/-! ## The checks decide nesting -/

/-- The footprint of a box with `int` bounds has `int` bounds. -/
lemma isInt_parentCell {ratio : RefinementRatio d} {i : Index d} {a : Fin d}
    (h : IsInt (i a)) : IsInt (parentCell ratio i a) := by
  have hpos := ratio.pos a
  unfold IsInt intMin intMax at *
  refine ⟨mul_le_iff_le_parent.mp ?_, le_mul_iff_parent_le.mp ?_⟩
  · nlinarith
  · nlinarith

/-- The check of one fine patch passes exactly when the patch is a union of complete parent
cells each of which lies in some parent patch.

**Proof sketch.** The round trip decides completeness (`refine_coarsen_iff_complete`).  The
parent patches are disjoint, so equality of the counts decides coverage of the footprint
(`Cover.sum_card_inter_eq_iff`), whose cells are the parents of the cells of the patch.  The
counts never overflow because a footprint has at most `2⁹⁶` cells. -/
theorem HierarchyPlan.validatePatch_eq_ok (hd : d ≤ 3) {parent child : LevelLayout d} {P : Box d}
    (hne : ¬ P.Empty) (hint : P.IsInt) :
    HierarchyPlan.validatePatch parent child P = .ok () ↔
      P.Complete child.ratioFromParent ∧ ∀ i ∈ P.cells,
        ∃ Q ∈ parent.patches.boxes, parentCell child.ratioFromParent i ∈ Q.cells := by
  have hcoarsen : coarsenBox P child.ratioFromParent = .ok _ := (coarsenBox_eq_ok hne).mpr rfl
  set footprint : Box d :=
    ⟨parentCell child.ratioFromParent P.lo, parentCell child.ratioFromParent P.hi⟩ with hfoot
  have hcover := Cover.sum_card_inter_eq_iff footprint.cells parent.pairwise_disjoint
  have hle := Cover.sum_card_inter_le footprint.cells parent.pairwise_disjoint
  rw [BoxArray.cellSets, List.map_map] at hcover hle
  have hmap : ((parent.patches.boxes.map footprint.intersect).map fun b => b.cells.card) =
      parent.patches.boxes.map ((fun t => (footprint.cells ∩ t).card) ∘ Box.cells) := by
    rw [List.map_map]
    exact List.map_congr_left fun b _ => by simp
  have hcard : footprint.cells.card < limbBase ^ 4 := by
    have hfint : footprint.IsInt := fun a =>
      ⟨isInt_parentCell (hint a).1, isInt_parentCell (hint a).2⟩
    calc footprint.cells.card ≤ 2 ^ 96 := hfint.card_le hd
      _ < limbBase ^ 4 := by decide
  -- coverage of the footprint is coverage of the parents of the patch
  have hparents : (∀ p ∈ footprint.cells, ∃ t ∈ parent.patches.boxes.map Box.cells, p ∈ t) ↔
      ∀ i ∈ P.cells, ∃ Q ∈ parent.patches.boxes,
        parentCell child.ratioFromParent i ∈ Q.cells := by
    simp only [List.mem_map, exists_exists_and_eq_and]
    refine ⟨fun h i hi => h _ (parentCell_mem_coarsenBox hne hcoarsen hi), fun h p hp => ?_⟩
    obtain ⟨i, hi, rfl⟩ := exists_child_of_mem_coarsenBox hne hcoarsen hp
    exact h i hi
  simp only [HierarchyPlan.validatePatch, bind_eq_ok, throwIf_eq_ok, exists_const, not_not, ne_eq,
    hcoarsen, Except.ok.injEq, exists_eq_left', ExactCellCount.sumBoxes_eq_ok,
    ExactCellCount.fromBox_eq_ok, hmap]
  rw [← refine_coarsen_iff_complete hne hint hcoarsen, ← hparents, ← hcover]
  refine ⟨fun h => ?_, fun h => ?_⟩
  · obtain ⟨refined, hrefine, rfl, covered, hcovered, whole, hwhole, rfl⟩ := h
    exact ⟨hrefine, hcovered.symm.trans hwhole⟩
  · obtain ⟨hrefine, hcount⟩ := h
    obtain ⟨covered, hcovered⟩ := Limbs.Number.exists_toNat (hcount ▸ hcard)
    exact ⟨P, hrefine, rfl, covered, hcovered, covered, by rw [hcovered, hcount], rfl⟩

/-- The domain of the child is the checked refinement of the parent domain exactly when it holds
the cells whose parent is in the parent domain. -/
lemma domain_refines_iff {parent child : LevelLayout d} :
    refineBox parent.domain child.ratioFromParent = .ok child.domain ↔
      ∀ i, i ∈ child.domain.cells ↔
        parentCell child.ratioFromParent i ∈ parent.domain.cells := by
  have hparent := parent.spec.2.1
  refine ⟨fun h i => mem_refineBox hparent h, fun h => ?_⟩
  rw [refineBox_eq_ok hparent]
  refine ⟨Box.eq_of_cells_eq child.spec.2.1 ?_, child.domain_isInt⟩
  ext i
  rw [h i, mem_refinedBox]

/-- A level index that does not exceed `2³¹` survives the narrowing to `int` exactly when a
level carries it. -/
lemma level_eq_castInt_iff {child : LevelLayout d} {k : ℕ} (hk : k ≤ 2147483648) :
    child.level = castInt k ↔ child.level = k := by
  have hint := child.level_isInt
  have hnonneg := child.spec.1
  unfold IsInt intMin intMax at hint
  by_cases hlt : k < 2147483648
  · have hkint : IsInt (k : ℤ) := ⟨by unfold intMin; omega, by unfold intMax; omega⟩
    rw [castInt_of_isInt hkint]
  · have hkeq : k = 2147483648 := by omega
    have hcast : castInt ((2147483648 : ℕ) : ℤ) = -2147483648 := by decide
    subst hkeq
    rw [hcast]
    omega

/-- The pair count of two levels within the budget passes its checks. -/
lemma HierarchyPlan.checkedPairCount_eq_ok {children parents n : ℕ}
    (h : children * parents ≤ sizeMax) :
    HierarchyPlan.checkedPairCount children parents = .ok n ↔ n = children * parents := by
  simp only [HierarchyPlan.checkedPairCount, bind_eq_ok, throwIf_eq_ok, pure_eq_ok, exists_const]
  have hguard : ¬ (parents ≠ 0 ∧ children > sizeMax / parents) := by
    intro hc
    have hpos : 0 < parents := Nat.pos_of_ne_zero hc.1
    have := (Nat.div_lt_iff_lt_mul hpos).mp hc.2
    omega
  rw [eq_comm]
  exact and_iff_right hguard

/-- The patches of the child pass their checks exactly when they are complete and nested. -/
lemma HierarchyPlan.validatePatches_eq_ok (hd : d ≤ 3) {parent child : LevelLayout d} :
    forEach child.patches.boxes (HierarchyPlan.validatePatch parent child) = .ok () ↔
      ∀ P ∈ child.patches.boxes, P.Complete child.ratioFromParent ∧ ∀ i ∈ P.cells,
        ∃ Q ∈ parent.patches.boxes, parentCell child.ratioFromParent i ∈ Q.cells := by
  rw [forEach_eq_ok]
  exact forall₂_congr fun P hP =>
    HierarchyPlan.validatePatch_eq_ok hd (child.patch_spec hP).1 (child.patches.isInt P hP)

/-- The loop over the levels after `parent` accepts exactly the lists in which every level is
linked to the one before it.

**Proof sketch.** Induction on the list.  Within the pair budget the checks of one level are
`Linked`, and a linked level shows that its index is an `int`, so the narrowing cast of the next
index still decides the next level number. -/
theorem HierarchyPlan.validateFrom_eq_ok (hd : d ≤ 3) {budget : HierarchyValidationBudget} :
    ∀ (rest : List (LevelLayout d)) (parent : LevelLayout d) (k pairs : ℕ), k ≤ 2147483648 →
      pairs + pairTotal parent rest ≤ budget.parentChildPatchPairs →
      (HierarchyPlan.validateFrom budget parent rest k pairs = .ok () ↔
        ∀ n (h : n + 1 < (parent :: rest).length),
          Linked (parent :: rest)[n] (parent :: rest)[n + 1] (k + n)) := by
  intro rest
  induction rest with
  | nil =>
    intro parent k pairs _ _
    simp [HierarchyPlan.validateFrom]
  | cons child rest ih =>
    intro parent k pairs hk hpairs
    rw [pairTotal] at hpairs
    have hsize := budget.isSize
    -- the checks of the first level of the list
    have hfirst : HierarchyPlan.validateFrom budget parent (child :: rest) k pairs = .ok () ↔
        Linked parent child k ∧ HierarchyPlan.validateFrom budget child rest (k + 1)
          (pairs + child.patches.boxes.length * parent.patches.boxes.length) = .ok () := by
      simp only [HierarchyPlan.validateFrom, bind_eq_ok, throwIf_eq_ok, exists_const, not_not,
        ne_eq, level_eq_castInt_iff hk,
        HierarchyPlan.checkedPairCount_eq_ok
          (show child.patches.boxes.length * parent.patches.boxes.length ≤ sizeMax by omega),
        exists_eq_left]
      refine ⟨fun h => ?_, fun h => ?_⟩
      · obtain ⟨hlevel, hspace, refined, hrefined, hdomain, hbudget, _, hpatches, hrest⟩ := h
        rw [← hdomain] at hrefined
        have hnest := (HierarchyPlan.validatePatches_eq_ok hd).mp hpatches
        exact ⟨⟨hlevel, hspace, domain_refines_iff.mp hrefined, fun P hP => (hnest P hP).1,
          fun P hP => (hnest P hP).2⟩, hrest⟩
      · obtain ⟨hlinked, hrest⟩ := h
        refine ⟨hlinked.level_eq, hlinked.rankSpace_eq, child.domain,
          domain_refines_iff.mpr hlinked.domain_refines, rfl, by omega, (), ?_, hrest⟩
        exact (HierarchyPlan.validatePatches_eq_ok hd).mpr
          fun P hP => ⟨hlinked.complete P hP, hlinked.nested P hP⟩
    rw [hfirst]
    refine ⟨fun h => ?_, fun h => ?_⟩
    · obtain ⟨hlinked, hrest⟩ := h
      have hk' : k + 1 ≤ 2147483648 := by
        have hint := child.level_isInt
        rw [hlinked.level_eq] at hint
        unfold IsInt intMax at hint
        omega
      rw [ih child (k + 1) _ hk' (by omega)] at hrest
      intro n hn
      cases n with
      | zero => exact hlinked
      | succ n =>
        rw [show k + (n + 1) = k + 1 + n by omega]
        exact hrest n (by simpa using hn)
    · have hlinked : Linked parent child k := h 0 (by simp)
      have hk' : k + 1 ≤ 2147483648 := by
        have hint := child.level_isInt
        rw [hlinked.level_eq] at hint
        unfold IsInt intMax at hint
        omega
      refine ⟨hlinked, (ih child (k + 1) _ hk' (by omega)).mpr fun n hn => ?_⟩
      rw [show k + 1 + n = k + (n + 1) by omega]
      exact h (n + 1) (by simpa using hn)

/-- A nonempty list whose levels are linked one by one is properly nested, and conversely. -/
lemma properlyNested_iff {levels : List (LevelLayout d)} (hne : 0 < levels.length) :
    ProperlyNested levels ↔ levels[0].level = 0 ∧
      ∀ n (h : n + 1 < levels.length), Linked levels[n] levels[n + 1] (1 + n) := by
  refine ⟨fun h => ⟨h.level_eq 0 hne, fun n hn => ?_⟩, fun h => ?_⟩
  · refine ⟨?_, h.rankSpace_eq _ (List.getElem_mem _) _ (List.getElem_mem _),
      h.domain_refines n hn, fun P hP => (h.patches_nested n hn P hP).1,
      fun P hP => (h.patches_nested n hn P hP).2⟩
    rw [h.level_eq (n + 1) hn, Nat.add_comm]
  · obtain ⟨hzero, hlinked⟩ := h
    have hspace : ∀ n (hn : n < levels.length),
        levels[n].distribution.rankSpace = levels[0].distribution.rankSpace := by
      intro n
      induction n with
      | zero => exact fun _ => rfl
      | succ n ih =>
        intro hn
        rw [← ih (by omega)]
        exact (hlinked n hn).rankSpace_eq
    refine ⟨List.ne_nil_of_length_pos hne, fun k hk => ?_, fun l hl l' hl' => ?_,
      fun k hk => (hlinked k hk).domain_refines,
      fun k hk P hP => ⟨(hlinked k hk).complete P hP, (hlinked k hk).nested P hP⟩⟩
    · cases k with
      | zero => exact hzero
      | succ k => rw [(hlinked k hk).level_eq, Nat.add_comm]
    · obtain ⟨n, hn, rfl⟩ := List.getElem_of_mem hl
      obtain ⟨n', hn', rfl⟩ := List.getElem_of_mem hl'
      rw [hspace n hn, hspace n' hn']

/-- The constructor returns exactly when the checks pass. -/
theorem HierarchyPlan.create_returns_iff {levels : List (LevelLayout d)}
    {budget : HierarchyValidationBudget} :
    Returns (HierarchyPlan.create levels budget) ↔
      HierarchyPlan.validate levels budget = .ok () := by
  unfold HierarchyPlan.create Returns
  split
  · rename_i h
    simp [h]
  · rename_i h
    simp [h]

/-- Within the budget the constructor accepts exactly the properly nested lists. -/
lemma HierarchyPlan.create_returns_iff_properlyNested (hd : d ≤ 3) {levels : List (LevelLayout d)}
    {budget : HierarchyValidationBudget} (hbudget : WithinBudget levels budget) :
    Returns (HierarchyPlan.create levels budget) ↔ ProperlyNested levels := by
  rw [HierarchyPlan.create_returns_iff]
  cases levels with
  | nil =>
    simp only [HierarchyPlan.validate, throw_eq_ok, false_iff]
    exact fun h => h.nonempty rfl
  | cons first rest =>
    obtain ⟨hlevels, hpairs⟩ := hbudget
    have hpairs := hpairs first rest rfl
    simp only [HierarchyPlan.validate, bind_eq_ok, throwIf_eq_ok, exists_const, not_not, ne_eq]
    rw [HierarchyPlan.validateFrom_eq_ok hd rest first 1 0 (by omega) (by omega),
      properlyNested_iff (List.length_pos_of_ne_nil (List.cons_ne_nil first rest))]
    exact and_iff_right (by omega)

/-! ## Ancestors -/

/-- In a properly nested list the parent of a covered cell is covered. -/
lemma parentAt_covered {levels : List (LevelLayout d)} (hnest : ProperlyNested levels) {k : ℕ}
    (hk : k + 1 < levels.length) {i : Index d}
    (hi : ∃ P ∈ levels[k + 1].patches.boxes, i ∈ P.cells) :
    ∃ Q ∈ levels[k].patches.boxes, parentAt levels (k + 1) i ∈ Q.cells := by
  obtain ⟨P, hP, hiP⟩ := hi
  unfold parentAt
  rw [List.getElem?_eq_getElem hk]
  exact (hnest.patches_nested k hk P hP).2 i hiP

/-- In a properly nested list every ancestor of a covered cell is covered: induction on the
number of levels between the two. -/
lemma ancestor_covered {levels : List (LevelLayout d)} (hnest : ProperlyNested levels) {j : ℕ} :
    ∀ (n : ℕ) (hn : j + n < levels.length) (i : Index d),
      (∃ P ∈ levels[j + n].patches.boxes, i ∈ P.cells) →
        ∃ Q ∈ levels[j].patches.boxes, ancestor levels j n i ∈ Q.cells := by
  intro n
  induction n with
  | zero => exact fun _ i hi => hi
  | succ n ih =>
    intro hn i hi
    exact ih (by omega) _ (parentAt_covered hnest hn hi)

/-- A properly nested list has unique ancestors, because the patches of a level are disjoint. -/
lemma ancestorsUnique_of_properlyNested {levels : List (LevelLayout d)}
    (hnest : ProperlyNested levels) : AncestorsUnique levels := by
  intro j k hjk hk P hP i hi
  have hsum : j + (k - j) = k := by omega
  refine Cover.existsUnique_mem levels[j].pairwise_disjoint ?_
  refine ancestor_covered hnest (k - j) (by omega) i ⟨P, ?_, hi⟩
  simpa only [hsum] using hP

/-- A loop over the levels that ran to its end stayed within the pair budget. -/
lemma HierarchyPlan.pairTotal_le_of_validateFrom {budget : HierarchyValidationBudget} :
    ∀ (rest : List (LevelLayout d)) (parent : LevelLayout d) (k pairs : ℕ),
      pairs ≤ budget.parentChildPatchPairs →
      HierarchyPlan.validateFrom budget parent rest k pairs = .ok () →
        pairs + pairTotal parent rest ≤ budget.parentChildPatchPairs := by
  intro rest
  induction rest with
  | nil => exact fun _ _ _ hpairs _ => hpairs
  | cons child rest ih =>
    intro parent k pairs hpairs h
    simp only [HierarchyPlan.validateFrom, HierarchyPlan.checkedPairCount, bind_eq_ok,
      throwIf_eq_ok, pure_eq_ok, exists_const] at h
    obtain ⟨_, _, _, _, _, current, ⟨_, rfl⟩, hbudget, _, _, hrest⟩ := h
    have := ih child (k + 1) _ (by omega) hrest
    rw [pairTotal]
    omega

/-- A plan is properly nested. -/
lemma HierarchyPlan.properlyNested (hd : d ≤ 3) (plan : HierarchyPlan d) :
    ProperlyNested plan.levels := by
  have hacc := plan.accepted
  refine (HierarchyPlan.create_returns_iff_properlyNested hd ?_).mp
    (HierarchyPlan.create_returns_iff.mpr hacc)
  unfold HierarchyPlan.validate at hacc
  split at hacc
  · rw [throw_eq_ok] at hacc
    exact hacc.elim
  · rename_i first rest hlevels
    simp only [bind_eq_ok, throwIf_eq_ok, exists_const, not_lt] at hacc
    obtain ⟨hlen, _, hfrom⟩ := hacc
    refine ⟨hlevels ▸ hlen, fun first' rest' heq => ?_⟩
    obtain ⟨rfl, rfl⟩ := List.cons.inj (hlevels.symm.trans heq)
    have := HierarchyPlan.pairTotal_le_of_validateFrom rest first 1 0 (Nat.zero_le _) hfrom
    omega

/-- A result of the constructor holds the levels and the budget it was given. -/
lemma HierarchyPlan.create_eq_ok {levels : List (LevelLayout d)}
    {budget : HierarchyValidationBudget} {plan : HierarchyPlan d}
    (h : HierarchyPlan.create levels budget = .ok plan) :
    plan.levels = levels ∧ plan.budget = budget := by
  unfold HierarchyPlan.create at h
  split at h
  · obtain rfl := Except.ok.inj h
    exact ⟨rfl, rfl⟩
  · exact absurd h (by simp)

/-- **A hierarchy plan is a properly nested hierarchy.**  Within the budget the constructor
accepts exactly the properly nested lists of levels, and in every plan, in particular in every
result of `withLevel`, each ancestor of a covered cell lies in exactly one patch of its level. -/
theorem hierarchyPlan_accepts_properly_nested (hd : d ≤ 3) :
    (∀ (levels : List (LevelLayout d)) (budget : HierarchyValidationBudget),
      WithinBudget levels budget →
        (Returns (HierarchyPlan.create levels budget) ↔ ProperlyNested levels)) ∧
    (∀ plan : HierarchyPlan d, AncestorsUnique plan.levels) ∧
    (∀ (plan : HierarchyPlan d) (candidate : LevelLayout d) (result : HierarchyPlan d),
      plan.withLevel candidate = .ok result →
        result.levels = plan.levels.take candidate.level.toNat ++ [candidate] ∧
          AncestorsUnique result.levels) := by
  refine ⟨fun _ _ hbudget => HierarchyPlan.create_returns_iff_properlyNested hd hbudget,
    fun plan => ancestorsUnique_of_properlyNested (plan.properlyNested hd),
    fun plan candidate result h => ?_⟩
  simp only [HierarchyPlan.withLevel, bind_eq_ok, throwIf_eq_ok, exists_const] at h
  exact ⟨(HierarchyPlan.create_eq_ok h.2).1,
    ancestorsUnique_of_properlyNested (result.properlyNested hd)⟩

/-- The plan of the two-level line. -/
def HierarchyPlan.line : HierarchyPlan 1 where
  levels := [.coarseLine, .fineLine]
  budget := ⟨2, 2, by decide⟩
  accepted := by decide +kernel

/-- The two-level line is accepted and properly nested, and replacing its fine level gives a
plan with unique ancestors. -/
theorem hierarchyPlan_line :
    (Returns (HierarchyPlan.create [.coarseLine, .fineLine] HierarchyPlan.line.budget) ↔
      ProperlyNested [.coarseLine, .fineLine]) ∧
    AncestorsUnique HierarchyPlan.line.levels ∧
    ∃ result, HierarchyPlan.line.withLevel .fineLine = .ok result ∧
      AncestorsUnique result.levels := by
  have h := hierarchyPlan_accepts_properly_nested (d := 1) (by norm_num)
  have hbudget : WithinBudget [.coarseLine, .fineLine] HierarchyPlan.line.budget := by
    refine ⟨by decide, fun first rest heq => ?_⟩
    obtain ⟨rfl, rfl⟩ := List.cons.inj heq
    decide
  have hwith : HierarchyPlan.line.withLevel .fineLine = .ok HierarchyPlan.line := by
    rfl
  exact ⟨h.1 _ _ hbudget, h.2.1 _, _, hwith, (h.2.2 _ _ _ hwith).2⟩

end Pops
