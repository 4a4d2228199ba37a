import Pops.Parallel.LoadBalance

/-!
# How even the prepared loads are

The plans of the weighted strategy and of the space-filling curve, against every other
assignment of the patches and against the average load.

## Main definitions

* `Pops.Parallel.OwnershipPlan.assignmentMaxLoad` — the largest load of another assignment of the
  patches of a plan.
* `Pops.Parallel.OwnershipPlan.Consistent` — weights, owners and loads of a plan fit together.
* `Pops.Parallel.CurveInvariant` — the invariant of the space-filling-curve loop.

## Main results

* `Pops.Parallel.LoadBalanceProvider.weightedLpt_graham` — Graham's bound for the weighted
  strategy.
* `Pops.Parallel.loadBalanceCumulativeTarget_le_iff` — the cut target is the rounded-up share of
  the total weight.
* `Pops.Parallel.LoadBalanceProvider.spaceFillingCurve_balanced` — the curve leaves no active
  rank without a patch and loads none beyond the average and one patch.
-/

namespace Pops.Parallel

variable {d : ℕ}

/-! ## The weighted strategy -/

namespace OwnershipPlan

/-- The load that an assignment of the patches puts on a rank. -/
def assignmentLoad (plan : OwnershipPlan d) {patchCount rankCount : ℕ}
    (assignment : Fin patchCount → Fin rankCount) (rank : Fin rankCount) : ℤ :=
  ∑ patch, if assignment patch = rank then plan.weightOf patch else 0

/-- The largest load of a rank under an assignment of the patches. -/
def assignmentMaxLoad (plan : OwnershipPlan d) {patchCount rankCount : ℕ}
    (assignment : Fin patchCount → Fin rankCount) : ℤ :=
  maxElement ((List.finRange rankCount).map (plan.assignmentLoad assignment))

/-- An assignment as a placement of patch numbers on rank numbers. -/
def placement {patchCount rankCount : ℕ} (assignment : Fin patchCount → Fin rankCount)
    (patch : ℕ) : ℕ :=
  if h : patch < patchCount then assignment ⟨patch, h⟩ else 0

/-- The load of an assignment is the load of its placement. -/
lemma assignmentLoad_eq (plan : OwnershipPlan d) {patchCount rankCount : ℕ}
    (assignment : Fin patchCount → Fin rankCount) (rank : Fin rankCount) :
    plan.assignmentLoad assignment rank =
      ListScheduling.load plan.weightOf (placement assignment) (List.range patchCount) rank := by
  rw [ListScheduling.load_range, Finset.sum_range]
  apply Finset.sum_congr rfl
  intro patch _
  simp only [placement, dif_pos patch.isLt, Fin.val_inj]

/-- Every rank carries at most the largest load. -/
lemma assignmentLoad_le (plan : OwnershipPlan d) {patchCount rankCount : ℕ}
    (assignment : Fin patchCount → Fin rankCount) (rank : Fin rankCount) :
    plan.assignmentLoad assignment rank ≤ plan.assignmentMaxLoad assignment :=
  le_maxElement (List.mem_map.mpr ⟨rank, List.mem_finRange rank, rfl⟩)

/-- What a plan records fits together: every patch has its supplied weight, or its number of cells
when no weights are supplied, and a rank, and every rank carries the weights of its patches. -/
structure Consistent (plan : OwnershipPlan d) (patches : BoxArray d) (rankCount : ℕ)
    (supplied : List ℤ) : Prop where
  weights_length : plan.weights.length = patches.boxes.length
  weightOf_eq : ∀ (patch : ℕ) (hp : patch < patches.boxes.length), plan.weightOf patch =
    if supplied = [] then ((patches.boxes[patch].cells.card : ℕ) : ℤ) else supplied.getD patch 0
  owners_length : plan.linearOwners.length = patches.boxes.length
  owner_lt : ∀ patch < patches.boxes.length, plan.ownerOf patch < rankCount
  loads_length : plan.rankLoads.length = rankCount
  load_eq : ∀ rank < rankCount, plan.rankLoads.getD rank 0 =
    ∑ patch ∈ Finset.range patches.boxes.length,
      if plan.ownerOf patch = rank then plan.weightOf patch else 0

end OwnershipPlan

namespace LoadBalanceProvider

variable {patches : BoxArray d} {rankSpace : RankSpace d}
  {budget : LoadBalancePreparationBudget} {supplied : List ℤ} {plan : OwnershipPlan d}

/-- Some rank carries the largest load of a plan. -/
lemma exists_maxLoad {rankCount : ℕ} {traversal : List ℕ} (hR : 0 < rankCount)
    (hassigned : Assigned plan.weights rankCount traversal ⟨plan.linearOwners, plan.rankLoads⟩) :
    ∃ r ∈ Finset.range rankCount,
      plan.maxLoad = ListScheduling.load plan.weightOf plan.ownerOf traversal r := by
  have hlen : plan.rankLoads.length = rankCount := hassigned.loads_length
  have hmem : plan.maxLoad ∈ plan.rankLoads :=
    maxElement_mem (List.ne_nil_of_length_pos (by omega))
  obtain ⟨r, hr, hval⟩ := List.getElem_of_mem hmem
  refine ⟨r, Finset.mem_range.mpr (by omega), ?_⟩
  rw [← hval, ← List.getD_eq_getElem _ 0 hr]
  exact hassigned.load_eq r (by omega)

/-- An accepted plan is consistent when its loop gave every patch to a rank. -/
theorem Accepted.consistent {provider : LoadBalanceProvider d}
    (h : provider.Accepted patches rankSpace supplied plan)
    (hperm : plan.traversal.Perm (List.range patches.boxes.length))
    (hassigned : Assigned plan.weights rankSpace.size plan.traversal
      ⟨plan.linearOwners, plan.rankLoads⟩) : plan.Consistent patches rankSpace.size supplied where
  weights_length := h.weights_length
  weightOf_eq _ hp := h.weightOf_eq hp
  owners_length := hassigned.owners_length.trans h.weights_length
  owner_lt p hp := hassigned.owner_lt p (hperm.mem_iff.mpr (List.mem_range.mpr hp))
  loads_length := hassigned.loads_length
  load_eq r hr := by
    rw [hassigned.load_eq r hr, ListScheduling.load_perm hperm, ListScheduling.load_range]
    rfl

/-- **Graham's bound.** A plan of the weighted strategy is consistent, its largest load is within
`4/3 − 1/(3R)` of the largest load of every other assignment of the patches to the `R` ranks, and
is the least possible one when there are no more patches than ranks. -/
theorem weightedLpt_graham
    (h : weightedLpt.prepare patches rankSpace budget supplied = .ok plan)
    (assignment : Fin patches.boxes.length → Fin rankSpace.size) :
    plan.Consistent patches rankSpace.size supplied ∧
      3 * (rankSpace.size : ℤ) * plan.maxLoad ≤
        (4 * (rankSpace.size : ℤ) - 1) * plan.assignmentMaxLoad assignment ∧
      (patches.boxes.length ≤ rankSpace.size →
        plan.maxLoad ≤ plan.assignmentMaxLoad assignment) := by
  have hacc := prepare_spec h
  have hdecided := hacc.decided
  simp only [weightedLpt, decideOwnership, bind_eq_ok, pure_eq_ok, Prod.mk.injEq] at hdecided
  obtain ⟨final, hfold, htraversal, hfinal⟩ := hdecided
  have hperm : plan.traversal.Perm (List.range patches.boxes.length) :=
    htraversal ▸ sortPatches_perm _ _
  have hsorted : plan.traversal.Pairwise fun i k => plan.weightOf k ≤ plan.weightOf i :=
    htraversal ▸ sortPatches_heavier _ _
  obtain ⟨hassigned, hgreedy⟩ := lpt_greedy hacc.ranks_pos (hacc.weights_length ▸ hperm)
    (hacc.weights_length ▸ htraversal ▸ hfold)
  rw [hfinal] at hassigned hgreedy
  have hlt : ∀ p ∈ plan.traversal, p < patches.boxes.length :=
    fun p hp => List.mem_range.mp (hperm.mem_iff.mp hp)
  have hpos : ∀ p ∈ plan.traversal, 0 ≤ plan.weightOf p :=
    fun p hp => (hacc.weightOf_mem (hlt p hp)).2.le
  have hplace : ∀ p ∈ plan.traversal, plan.ownerOf p ∈ Finset.range rankSpace.size :=
    fun p hp => Finset.mem_range.mpr (hassigned.owner_lt p hp)
  -- the other assignment keeps its own largest load
  have hother : ∀ p ∈ plan.traversal,
      OwnershipPlan.placement assignment p ∈ Finset.range rankSpace.size := by
    intro p hp
    simp only [OwnershipPlan.placement, dif_pos (hlt p hp), Finset.mem_range]
    exact (assignment _).isLt
  have hbound : ∀ r ∈ Finset.range rankSpace.size, ListScheduling.load plan.weightOf
      (OwnershipPlan.placement assignment) plan.traversal r ≤
        plan.assignmentMaxLoad assignment := by
    intro r hr
    have hle := plan.assignmentLoad_le assignment ⟨r, Finset.mem_range.mp hr⟩
    rw [plan.assignmentLoad_eq assignment] at hle
    rwa [ListScheduling.load_perm hperm]
  have hM : 0 ≤ plan.assignmentMaxLoad assignment :=
    (ListScheduling.load_nonneg _ hpos 0).trans (hbound 0 (Finset.mem_range.mpr hacc.ranks_pos))
  obtain ⟨r, hr, hmax⟩ := exists_maxLoad hacc.ranks_pos hassigned
  rw [hmax]
  refine ⟨hacc.consistent hperm hassigned, ?_, fun hfew => ?_⟩
  · have := hgreedy.graham hsorted hpos hplace hother hbound r hr
    rwa [Finset.card_range] at this
  · refine hgreedy.load_le_of_length_le hpos hM ?_ hother hbound r hr
    rwa [hperm.length_eq, List.length_range, Finset.card_range]

/-- Five patches of one cell each in a line. -/
def lineOfFive : BoxArray 1 :=
  ⟨[Box.line 0 0, Box.line 1 1, Box.line 2 2, Box.line 3 3, Box.line 4 4], by decide +kernel⟩

/-- A budget for the five patches on two ranks. -/
def budgetOfFive : LoadBalancePreparationBudget := ⟨5, 2, 12⟩

/-- The assignment of the second and the fourth patch to one rank. -/
def secondAndFourth : Fin 5 → Fin 2 := ![0, 1, 0, 1, 0]

/-- The bound is attained: the weights `2, 3, 2, 3, 2` on two ranks give the load `7`, and the
assignment of the two heavy patches to one rank gives `6`. -/
theorem weightedLpt_graham_attained :
    ∃ plan, weightedLpt.prepare lineOfFive RankSpace.line budgetOfFive [2, 3, 2, 3, 2] =
        .ok plan ∧ plan.maxLoad = 7 ∧ plan.assignmentMaxLoad secondAndFourth = 6 ∧
      plan.Consistent lineOfFive RankSpace.line.size [2, 3, 2, 3, 2] ∧
      3 * (RankSpace.line.size : ℤ) * plan.maxLoad ≤
        (4 * (RankSpace.line.size : ℤ) - 1) * plan.assignmentMaxLoad secondAndFourth := by
  have hreturns : (weightedLpt.prepare lineOfFive RankSpace.line budgetOfFive
      [2, 3, 2, 3, 2]).toOption.map (fun plan =>
        (plan.maxLoad, plan.assignmentMaxLoad secondAndFourth)) = some (7, 6) := by
    decide +kernel
  cases hplan : weightedLpt.prepare lineOfFive RankSpace.line budgetOfFive [2, 3, 2, 3, 2] with
  | error e =>
    rw [hplan] at hreturns
    cases hreturns
  | ok plan =>
    rw [hplan] at hreturns
    obtain ⟨hload, hother⟩ := Prod.mk.inj (Option.some.inj hreturns)
    obtain ⟨hconsistent, hbound, -⟩ := weightedLpt_graham hplan secondAndFourth
    exact ⟨plan, rfl, hload, hother, hconsistent, hbound⟩

end LoadBalanceProvider

/-! ## Cut targets of the curve -/

section Target

variable {total z : ℤ} {rankCount : ℕ}

/-- The cut target after `k` of `R` partitions is the total weight times `k / R`, rounded up. -/
theorem loadBalanceCumulativeTarget_le_iff (hT : 0 ≤ total) (hR : 0 < rankCount) (k : ℕ) :
    loadBalanceCumulativeTarget total k rankCount ≤ z ↔ total * k ≤ z * rankCount := by
  have hR' : (0 : ℤ) < rankCount := by exact_mod_cast hR
  have hdiv := Int.mul_ediv_add_emod total rankCount
  have hmod := Int.emod_nonneg total hR'.ne'
  have hnum : 0 ≤ total % rankCount * k + rankCount - 1 := by
    have := mul_nonneg hmod (Int.natCast_nonneg k)
    omega
  simp only [loadBalanceCumulativeTarget, cumulativeTargetValues]
  rw [Int.tdiv_eq_ediv_of_nonneg hT, Int.tmod_eq_emod_of_nonneg hT,
    Int.tdiv_eq_ediv_of_nonneg hnum, ← le_sub_iff_add_le', ← Int.lt_add_one_iff,
    Int.ediv_lt_iff_lt_mul hR']
  have hsplit : total * k = rankCount * (total / rankCount) * k + total % rankCount * k := by
    rw [← add_mul, hdiv]
  rw [hsplit]
  constructor <;> intro h <;> nlinarith

/-- The first partition starts with the first patch. -/
lemma cumulativeTarget_zero (hT : 0 ≤ total) (hR : 0 < rankCount) :
    loadBalanceCumulativeTarget total 0 rankCount ≤ 0 := by
  rw [loadBalanceCumulativeTarget_le_iff hT hR]
  simp

/-- The total weight is the last target. -/
lemma le_cumulativeTarget (hT : 0 ≤ total) (hR : 0 < rankCount) :
    total ≤ loadBalanceCumulativeTarget total rankCount rankCount := by
  have hR' : (0 : ℤ) < rankCount := by exact_mod_cast hR
  have := (loadBalanceCumulativeTarget_le_iff hT hR rankCount).mp le_rfl
  exact le_of_mul_le_mul_right this hR'

/-- The target of one partition is the average, rounded up. -/
lemma cumulativeTarget_one (hT : 0 ≤ total) (hR : 0 < rankCount) :
    loadBalanceCumulativeTarget total 1 rankCount = ⌈(total : ℚ) / rankCount⌉ := by
  have hR' : (0 : ℚ) < rankCount := by exact_mod_cast hR
  apply eq_of_forall_ge_iff
  intro z
  rw [loadBalanceCumulativeTarget_le_iff hT hR, Int.ceil_le, div_le_iff₀ hR']
  simp only [Nat.cast_one, mul_one]
  exact_mod_cast Iff.rfl

/-- Consecutive targets differ by at most the rounded-up average. -/
lemma cumulativeTarget_succ (hT : 0 ≤ total) (hR : 0 < rankCount) (k : ℕ) :
    loadBalanceCumulativeTarget total (k + 1) rankCount ≤
      loadBalanceCumulativeTarget total k rankCount + ⌈(total : ℚ) / rankCount⌉ := by
  rw [← cumulativeTarget_one hT hR, loadBalanceCumulativeTarget_le_iff hT hR]
  have h1 := (loadBalanceCumulativeTarget_le_iff hT hR k).mp le_rfl
  have h2 := (loadBalanceCumulativeTarget_le_iff hT hR 1).mp le_rfl
  push_cast at h2 ⊢
  linarith

/-- A positive total has a positive average. -/
lemma one_le_ceil_average (hT : 0 < total) (hR : 0 < rankCount) :
    1 ≤ ⌈(total : ℚ) / rankCount⌉ := by
  rw [Int.one_le_ceil_iff]
  have hR' : (0 : ℚ) < rankCount := by exact_mod_cast hR
  exact div_pos (by exact_mod_cast hT) hR'

/-- No value of the target computation leaves `std::int64_t`: the remainders stay below the square
of an `int`, and no target exceeds the total. -/
lemma isInt64_cumulativeTargetValues (hT : 0 ≤ total) (hmax : total ≤ int64Max)
    (hR : 0 < rankCount) (hranks : (rankCount : ℤ) ≤ intMax) {partitions : ℕ}
    (hcut : partitions ≤ rankCount) :
    (cumulativeTargetValues total partitions rankCount).IsInt64 := by
  have hR' : (0 : ℤ) < rankCount := by exact_mod_cast hR
  have hcut' : (partitions : ℤ) ≤ rankCount := by exact_mod_cast hcut
  have htarget : loadBalanceCumulativeTarget total partitions rankCount ≤ total :=
    (loadBalanceCumulativeTarget_le_iff hT hR partitions).mpr (mul_le_mul_of_nonneg_left hcut' hT)
  have hq0 : 0 ≤ total / rankCount := Int.ediv_nonneg hT hR'.le
  have hm0 := Int.emod_nonneg total hR'.ne'
  have hm := Int.emod_lt_of_pos total hR'
  have hq : total / rankCount ≤ total := Int.ediv_le_self _ hT
  have hqk0 : 0 ≤ total / rankCount * (partitions : ℤ) := mul_nonneg hq0 (Int.natCast_nonneg _)
  have hmk0 : 0 ≤ total % rankCount * (partitions : ℤ) := mul_nonneg hm0 (Int.natCast_nonneg _)
  have hmk : total % rankCount * (partitions : ℤ) ≤ 2147483647 * 2147483647 := by
    unfold intMax at hranks
    exact mul_le_mul (by omega) (by omega) (Int.natCast_nonneg _) (by norm_num)
  have hnum : 0 ≤ total % rankCount * (partitions : ℤ) + rankCount - 1 := by omega
  have hshare0 : 0 ≤ (total % rankCount * (partitions : ℤ) + rankCount - 1) / rankCount :=
    Int.ediv_nonneg hnum hR'.le
  have hshare : (total % rankCount * (partitions : ℤ) + rankCount - 1) / rankCount ≤
      total % rankCount * (partitions : ℤ) + rankCount - 1 := Int.ediv_le_self _ hnum
  simp only [loadBalanceCumulativeTarget, cumulativeTargetValues,
    Int.tdiv_eq_ediv_of_nonneg hT, Int.tmod_eq_emod_of_nonneg hT,
    Int.tdiv_eq_ediv_of_nonneg hnum] at htarget
  unfold CumulativeTarget.IsInt64
  simp only [cumulativeTargetValues, Int.tdiv_eq_ediv_of_nonneg hT,
    Int.tmod_eq_emod_of_nonneg hT, Int.tdiv_eq_ediv_of_nonneg hnum, List.forall_mem_cons,
    List.not_mem_nil, false_imp_iff, implies_true, and_true]
  unfold IsInt64 int64Min int64Max at *
  unfold intMax at hranks
  refine ⟨?_, ?_, ?_, ?_, ?_, ?_, ?_, ?_, ?_, ?_⟩ <;> omega

end Target

/-! ## The space-filling-curve loop -/

section Curve

variable {weights : List ℤ} {total : ℤ} {patchCount active : ℕ} {s s' : CurveState}
  {done : List ℕ} {patch : ℕ}

/-- One round of the loop while the remaining patches cover the remaining ranks: the owner
advances when the target is reached or every remaining rank needs its patch. -/
lemma curveStep_cases
    (h : curveStep weights total patchCount active s (patch, done.length) = .ok s')
    (hlt : done.length < patchCount) (howner : s.owner < active)
    (henough : active + done.length ≤ patchCount + s.owner) :
    s.ownership.assign weights patch s.owner = .ok s'.ownership ∧
      s'.cumulative = s.cumulative + weights.getD patch 0 ∧
      ((s'.owner = s.owner + 1 ∧ s.owner + 1 < active ∧
          (loadBalanceCumulativeTarget total (s.owner + 1) active ≤ s'.cumulative ∨
            active + done.length = patchCount + s.owner)) ∨
        (s'.owner = s.owner ∧ (s.owner + 1 = active ∨
          (s'.cumulative < loadBalanceCumulativeTarget total (s.owner + 1) active ∧
            active + done.length < patchCount + s.owner)))) := by
  simp only [curveStep, checkedAddLoad, bind_eq_ok, throwIf_eq_ok, exists_const, pure_eq_ok] at h
  obtain ⟨ownership, hassign, cumulative, ⟨_, rfl⟩, rfl⟩ := h
  refine ⟨hassign, rfl, ?_⟩
  simp only
  split_ifs with hcut
  · obtain ⟨hnext, _, hreason⟩ := hcut
    refine .inl ⟨rfl, hnext, ?_⟩
    rcases hreason with hreached | hseed
    · exact .inl hreached
    · exact .inr (by omega)
  · refine .inr ⟨rfl, ?_⟩
    rcases Nat.eq_or_lt_of_le (Nat.succ_le_of_lt howner) with hlast | hnext
    · exact .inl hlast
    · right
      push Not at hcut
      obtain ⟨hreached, hseed⟩ := hcut hnext (by omega)
      exact ⟨hreached, by omega⟩

variable {rankCount : ℕ} {maxWeight : ℤ}

/-- The load of a rank after the patches that were given so far. -/
def CurveState.load (weights : List ℤ) (done : List ℕ) (s : CurveState) (r : ℕ) : ℤ :=
  ListScheduling.load (weights.getD · 0) s.ownership.ownerOf done r

/-- The owners along the curve: they do not decrease, skip no rank, and leave enough patches for
the ranks to come. -/
structure CurveOrder (patchCount active : ℕ) (done : List ℕ) (s : CurveState) : Prop where
  owner_lt : s.owner < active
  enough : done.length < patchCount → active + done.length ≤ patchCount + s.owner
  le_owner : ∀ p ∈ done, s.ownership.ownerOf p ≤ s.owner
  mono : done.Pairwise fun p q => s.ownership.ownerOf p ≤ s.ownership.ownerOf q
  taken : ∀ r < s.owner, ∃ p ∈ done, s.ownership.ownerOf p = r
  finished : done.length = patchCount →
    s.owner + 1 = active ∧ ∃ p ∈ done, s.ownership.ownerOf p = s.owner

/-- The loads along the curve.  The current rank was either started by its weight target or is
about to receive the one patch that is left for it, and it has not reached its own target. -/
structure CurveLoads (weights : List ℤ) (total : ℤ) (patchCount active rankCount : ℕ)
    (maxWeight : ℤ) (done : List ℕ) (s : CurveState) : Prop where
  cumulative_eq : s.cumulative = (done.map (weights.getD · 0)).sum
  bound : ∀ r < rankCount, s.load weights done r ≤ ⌈(total : ℚ) / active⌉ + maxWeight - 1
  started : done.length < patchCount →
    loadBalanceCumulativeTarget total s.owner active ≤
        s.cumulative - s.load weights done s.owner ∨
      (active + done.length = patchCount + s.owner ∧ s.load weights done s.owner = 0)
  running : s.load weights done s.owner = 0 ∨ s.owner + 1 = active ∨
    s.cumulative < loadBalanceCumulativeTarget total (s.owner + 1) active

/-- A round of the loop keeps the order of the owners. -/
theorem CurveOrder.step (hs : CurveOrder patchCount active done s)
    (hlen : s.ownership.linearOwners.length = weights.length) (hp : patch < weights.length)
    (hnew : patch ∉ done) (hlt : done.length < patchCount)
    (h : curveStep weights total patchCount active s (patch, done.length) = .ok s') :
    CurveOrder patchCount active (done ++ [patch]) s' := by
  have henough := hs.enough hlt
  have howner := hs.owner_lt
  obtain ⟨hassign, _, hcases⟩ := curveStep_cases h hlt howner henough
  obtain ⟨hself, hother⟩ := ownerOf_assign (by rw [hlen]; exact hp) hassign
  have hold : ∀ p ∈ done, s'.ownership.ownerOf p = s.ownership.ownerOf p :=
    fun p hp => hother p fun hp' => hnew (hp' ▸ hp)
  have hle : ∀ p ∈ done ++ [patch], s'.ownership.ownerOf p ≤ s.owner := by
    intro p hp
    rcases List.mem_append.mp hp with hp | hp
    · rw [hold p hp]
      exact hs.le_owner p hp
    · rw [List.mem_singleton.mp hp, hself]
  have htaken : ∀ r < s.owner, ∃ p ∈ done ++ [patch], s'.ownership.ownerOf p = r := by
    intro r hr
    obtain ⟨p, hp, hpr⟩ := hs.taken r hr
    exact ⟨p, List.mem_append_left _ hp, by rw [hold p hp, hpr]⟩
  have hmono : (done ++ [patch]).Pairwise fun p q =>
      s'.ownership.ownerOf p ≤ s'.ownership.ownerOf q := by
    refine List.pairwise_append.mpr ⟨?_, List.pairwise_singleton _ _, ?_⟩
    · refine hs.mono.imp_of_mem fun hp hq hpq => ?_
      rw [hold _ hp, hold _ hq]
      exact hpq
    · intro p hp q hq
      rw [List.mem_singleton.mp hq, hself]
      exact hle p (List.mem_append_left _ hp)
  have hpatch : ∃ p ∈ done ++ [patch], s'.ownership.ownerOf p = s.owner := ⟨patch, by simp, hself⟩
  have hcount : (done ++ [patch]).length = done.length + 1 := by simp
  rcases hcases with ⟨hnext, hactive, _⟩ | ⟨hsame, hreason⟩
  · refine ⟨by omega, by omega, fun p hp => (hle p hp).trans (by omega), hmono, ?_, by omega⟩
    intro r hr
    rcases Nat.lt_or_ge r s.owner with hr' | hr'
    · exact htaken r hr'
    · rw [show r = s.owner by omega]
      exact hpatch
  · refine ⟨by omega, by omega, by rwa [hsame], hmono, by rwa [hsame], fun hend => ?_⟩
    exact ⟨by omega, by rwa [hsame]⟩

/-- A round of the loop adds the weight of its patch to the current rank. -/
lemma CurveState.load_step (hlen : s.ownership.linearOwners.length = weights.length)
    (hp : patch < weights.length) (hnew : patch ∉ done)
    (hassign : s.ownership.assign weights patch s.owner = .ok s'.ownership) (r : ℕ) :
    s'.load weights (done ++ [patch]) r =
      s.load weights done r + if s.owner = r then weights.getD patch 0 else 0 := by
  obtain ⟨hself, hother⟩ := ownerOf_assign (by rw [hlen]; exact hp) hassign
  have hold : ∀ p ∈ done, s'.ownership.ownerOf p = s.ownership.ownerOf p :=
    fun p hp => hother p fun hp' => hnew (hp' ▸ hp)
  unfold CurveState.load
  rw [ListScheduling.load_append, ListScheduling.load_congr hold, hself]

/-- The patch of a round fits on the current rank.

**Proof sketch.** A first patch weighs at most `maxWeight`.  A further patch comes before the rank
has reached its target, and the rank was started beyond the previous one; on the last rank the
total weight is the target. -/
theorem CurveLoads.load_add_le
    (hs : CurveLoads weights total patchCount active rankCount maxWeight done s)
    (hlt : done.length < patchCount) (hT : 0 < total) (hA : 0 < active)
    (hw : 0 < weights.getD patch 0) (hwmax : weights.getD patch 0 ≤ maxWeight)
    (htotal : s.cumulative + weights.getD patch 0 ≤ total) :
    s.load weights done s.owner + weights.getD patch 0 ≤
      ⌈(total : ℚ) / active⌉ + maxWeight - 1 := by
  have haverage := one_le_ceil_average hT hA
  have hstep := cumulativeTarget_succ hT.le hA s.owner
  rcases hs.started hlt with hstarted | ⟨_, hfirst⟩
  · rcases hs.running with hfirst | hlast | hbelow
    · omega
    · have hend := le_cumulativeTarget hT.le hA
      rw [hlast] at hstep
      omega
    · omega
  · omega

/-- A round of the loop keeps the bound of the loads. -/
theorem CurveLoads.step
    (hs : CurveLoads weights total patchCount active rankCount maxWeight done s)
    (horder : CurveOrder patchCount active done s)
    (hlen : s.ownership.linearOwners.length = weights.length) (hp : patch < weights.length)
    (hnew : patch ∉ done) (hlt : done.length < patchCount) (hT : 0 < total)
    (hw : 0 < weights.getD patch 0) (hwmax : weights.getD patch 0 ≤ maxWeight)
    (htotal : s.cumulative + weights.getD patch 0 ≤ total)
    (h : curveStep weights total patchCount active s (patch, done.length) = .ok s') :
    CurveLoads weights total patchCount active rankCount maxWeight (done ++ [patch]) s' := by
  have hA : 0 < active := Nat.zero_lt_of_lt horder.owner_lt
  obtain ⟨hassign, hcumulative, hcases⟩ :=
    curveStep_cases h hlt horder.owner_lt (horder.enough hlt)
  have hload := CurveState.load_step hlen hp hnew hassign
  have hfits := hs.load_add_le hlt hT hA hw hwmax htotal
  have hcount : (done ++ [patch]).length = done.length + 1 := by simp
  have hself : s'.load weights (done ++ [patch]) s.owner =
      s.load weights done s.owner + weights.getD patch 0 := by
    rw [hload, if_pos rfl]
  -- no patch was given to the next rank yet
  have hnext0 : s'.load weights (done ++ [patch]) (s.owner + 1) = 0 := by
    rw [hload, if_neg (by omega), add_zero]
    apply ListScheduling.load_eq_zero
    intro p hp
    have := horder.le_owner p hp
    omega
  refine ⟨by simp [hcumulative, hs.cumulative_eq], ?_, ?_, ?_⟩
  · intro r hr
    rw [hload]
    split_ifs with hsame
    · rw [← hsame]
      exact hfits
    · rw [add_zero]
      exact hs.bound r hr
  · intro hmore
    rcases hcases with ⟨hnext, hactive, hreason⟩ | ⟨hsame, hreason⟩
    · rw [hnext, hnext0]
      rcases hreason with hreached | hseed
      · exact .inl (by omega)
      · exact .inr (by omega)
    · -- the rank goes on, so it was not started to be seeded
      rw [hsame, hself]
      rcases hs.started hlt with hstarted | ⟨hseed, hfirst⟩
      · exact .inl (by omega)
      · omega
  · rcases hcases with ⟨hnext, hactive, hreason⟩ | ⟨hsame, hreason⟩
    · rw [hnext]
      exact .inl hnext0
    · rw [hsame]
      rcases hreason with hlast | ⟨hbelow, _⟩
      · exact .inr (.inl hlast)
      · exact .inr (.inr hbelow)

/-- The entries of a numbered list, in their order. -/
lemma zipIdx_eq_append {α : Type*} {l : List α} {before after : List (α × ℕ)} {a : α} {n : ℕ}
    (h : l.zipIdx = before ++ (a, n) :: after) :
    l = before.map Prod.fst ++ a :: after.map Prod.fst ∧ n = before.length := by
  refine ⟨?_, ?_⟩
  · have := congrArg (List.map Prod.fst) h
    simpa using this
  · have hget := congrArg (fun k => k[before.length]?) h
    simp only [List.getElem?_zipIdx, List.getElem?_append_right le_rfl, Nat.sub_self,
      List.getElem?_cons_zero, Option.map_eq_some_iff, Prod.mk.injEq, zero_add] at hget
    obtain ⟨_, _, _, rfl⟩ := hget
    rfl

/-- The invariant of the loop. -/
structure CurveInvariant (weights : List ℤ) (rankCount : ℕ) (done : List ℕ) (s : CurveState) :
    Prop where
  assigned : Assigned weights rankCount done s.ownership
  order : CurveOrder weights.length (min weights.length rankCount) done s
  loads : CurveLoads weights weights.sum weights.length (min weights.length rankCount) rankCount
    (maxElement weights) done s

/-- The weight of a patch is one of the weights. -/
lemma getD_mem {p : ℕ} (hp : p < weights.length) : weights.getD p 0 ∈ weights := by
  rw [List.getD_eq_getElem _ _ hp]
  exact List.getElem_mem hp

/-- The invariant holds before the loop. -/
lemma CurveInvariant.initial (hne : 0 < weights.length) (hrank : 0 < rankCount)
    (hpos : ∀ w ∈ weights, 0 < w) :
    CurveInvariant weights rankCount [] ⟨Ownership.initial weights.length rankCount, 0, 0⟩ := by
  have hT : 0 < weights.sum := List.sum_pos _ hpos (List.ne_nil_of_length_pos hne)
  have hA : 0 < min weights.length rankCount := by omega
  have haverage := one_le_ceil_average hT hA
  have hmax := (hpos _ (getD_mem hne)).trans_le (le_maxElement (getD_mem hne))
  have hzero : CurveState.load weights [] ⟨Ownership.initial weights.length rankCount, 0, 0⟩ =
      fun _ => 0 := by
    funext r
    exact ListScheduling.load_nil _ _ _
  refine ⟨Assigned.initial weights rankCount, ?_, ?_⟩
  · exact ⟨hA, by simp, by simp, by simp, by simp, by simp; omega⟩
  · refine ⟨by simp, ?_, fun _ => .inl ?_, .inl (by simp [hzero])⟩
    · intro r _
      simp only [hzero]
      omega
    · simpa [hzero] using cumulativeTarget_zero hT.le hA

/-- A round of the loop preserves the invariant. -/
theorem CurveInvariant.step {traversal rest : List ℕ}
    (hs : CurveInvariant weights rankCount done s)
    (hperm : traversal.Perm (List.range weights.length))
    (hsplit : traversal = done ++ patch :: rest) (hpos : ∀ w ∈ weights, 0 < w)
    (h : curveStep weights weights.sum weights.length (min weights.length rankCount) s
      (patch, done.length) = .ok s') :
    CurveInvariant weights rankCount (done ++ [patch]) s' := by
  obtain ⟨hp, hnew⟩ := fresh_of_perm hperm hsplit
  have hT : 0 < weights.sum := by
    apply List.sum_pos _ hpos
    exact List.ne_nil_of_mem (getD_mem hp)
  have hlt : done.length < weights.length := by
    have hlen : traversal.length = weights.length := by simpa using hperm.length_eq
    rw [← hlen, hsplit]
    simp
  -- the weights of the curve add up to the total
  have htotal : (traversal.map (weights.getD · 0)).sum = weights.sum := by
    rw [(hperm.map _).sum_eq]
    congr 1
    apply List.ext_getElem (by simp)
    intro n h1 h2
    simp [h2]
  have hcumulative : s.cumulative + weights.getD patch 0 ≤ weights.sum := by
    have hrest : 0 ≤ (rest.map (weights.getD · 0)).sum := by
      apply List.sum_nonneg
      intro x hx
      obtain ⟨p, hp, rfl⟩ := List.mem_map.mp hx
      have hmem : p ∈ List.range weights.length := hperm.mem_iff.mp (by rw [hsplit]; simp [hp])
      exact (hpos _ (getD_mem (List.mem_range.mp hmem))).le
    rw [hsplit, List.map_append, List.sum_append, List.map_cons, List.sum_cons,
      ← hs.loads.cumulative_eq] at htotal
    omega
  have hassign := (curveStep_cases h hlt hs.order.owner_lt (hs.order.enough hlt)).1
  have howner : s.owner < rankCount := lt_of_lt_of_le hs.order.owner_lt (min_le_right _ _)
  exact ⟨hs.assigned.assign hp hnew howner hassign,
    hs.order.step hs.assigned.owners_length hp hnew hlt h,
    hs.loads.step hs.order hs.assigned.owners_length hp hnew hlt hT (hpos _ (getD_mem hp))
      (le_maxElement (getD_mem hp)) hcumulative h⟩

/-- The invariant holds after the loop. -/
lemma curve_foldlM {traversal : List ℕ} {final : CurveState}
    (hperm : traversal.Perm (List.range weights.length)) (hne : 0 < weights.length)
    (hrank : 0 < rankCount) (hpos : ∀ w ∈ weights, 0 < w)
    (h : traversal.zipIdx.foldlM (curveStep weights weights.sum weights.length
      (min weights.length rankCount)) ⟨Ownership.initial weights.length rankCount, 0, 0⟩ =
        .ok final) :
    CurveInvariant weights rankCount traversal final := by
  have hloop := foldlM_invariant (P := fun (done : List (ℕ × ℕ)) (s : CurveState) =>
    CurveInvariant weights rankCount (done.map Prod.fst) s) h
    (CurveInvariant.initial hne hrank hpos) (by
      intro done entry rest s s' heq hs hstep
      obtain ⟨hsplit, hposition⟩ := zipIdx_eq_append (a := entry.1) (n := entry.2) heq
      rw [List.map_append, List.map_singleton]
      refine hs.step hperm hsplit hpos ?_
      rw [List.length_map, ← hposition]
      exact hstep)
  simpa using hloop

end Curve

namespace LoadBalanceProvider

variable {patches : BoxArray d} {rankSpace : RankSpace d}
  {budget : LoadBalancePreparationBudget} {supplied : List ℤ} {plan : OwnershipPlan d}

/-- **Space-filling-curve plans.** With `R` active ranks and the total weight `T`, the traversal is
a permutation of the patches along which the owners do not decrease and take every active rank,
the loads are the weights of the owned patches, no load exceeds `⌈T / R⌉` by a whole patch, the cut
targets are computed within `std::int64_t`, and the weights are the supplied ones or the numbers of
cells. -/
theorem spaceFillingCurve_balanced (hne : patches.boxes ≠ [])
    (h : spaceFillingCurve.prepare patches rankSpace budget supplied = .ok plan) :
    let R := min patches.boxes.length rankSpace.size
    plan.traversal.Perm (List.range patches.boxes.length) ∧
      plan.traversal.Pairwise (fun p q => plan.ownerOf p ≤ plan.ownerOf q) ∧
      (∀ r, (∃ p < patches.boxes.length, plan.ownerOf p = r) ↔ r < R) ∧
      plan.totalWeight = plan.weights.sum ∧
      plan.rankLoads.length = rankSpace.size ∧
      (∀ r < rankSpace.size, plan.rankLoads.getD r 0 =
        ∑ p ∈ Finset.range patches.boxes.length,
          if plan.ownerOf p = r then plan.weightOf p else 0) ∧
      (∀ r < rankSpace.size, plan.rankLoads.getD r 0 ≤
        ⌈(plan.totalWeight : ℚ) / R⌉ + maxElement plan.weights - 1) ∧
      (∀ partitions ≤ R, (cumulativeTargetValues plan.totalWeight partitions R).IsInt64) ∧
      plan.Consistent patches rankSpace.size supplied := by
  intro R
  have hacc := prepare_spec h
  have hdecided := hacc.decided
  simp only [spaceFillingCurve, decideOwnership, bind_eq_ok, pure_eq_ok, Prod.mk.injEq] at hdecided
  obtain ⟨traversal, horder, final, hfold, rfl, hfinal⟩ := hdecided
  have hperm := (mortonOrder_spec horder).1
  have hn : 0 < patches.boxes.length := List.length_pos_of_ne_nil hne
  have hlen := hacc.weights_length
  rw [hacc.total_eq, ← hlen] at hfold
  obtain ⟨hassigned, hcurve, hloads⟩ := curve_foldlM (hlen ▸ hperm) (by omega) hacc.ranks_pos
    hacc.weights_pos hfold
  have howner : plan.ownerOf = final.ownership.ownerOf := by
    rw [hfinal]
    rfl
  have hlist : plan.rankLoads = final.ownership.rankLoads := by rw [hfinal]
  have hend : plan.traversal.length = plan.weights.length := by
    rw [hperm.length_eq, List.length_range, hlen]
  obtain ⟨hlast, hlastTaken⟩ := hcurve.finished hend
  rw [hlen] at hlast
  have hT : 0 < plan.totalWeight := by
    rw [hacc.total_eq]
    exact List.sum_pos _ hacc.weights_pos (List.ne_nil_of_length_pos (by omega))
  have hR : 0 < R := lt_min hn hacc.ranks_pos
  have hconsistent := hacc.consistent hperm (hfinal ▸ hassigned)
  refine ⟨hperm, howner ▸ hcurve.mono, ?_, hacc.total_eq, hconsistent.loads_length,
    hconsistent.load_eq, ?_, ?_, hconsistent⟩
  · intro r
    have hmem : ∀ p, p ∈ plan.traversal ↔ p < patches.boxes.length :=
      fun p => hperm.mem_iff.trans List.mem_range
    constructor
    · rintro ⟨p, hp, hpr⟩
      have hle := hcurve.le_owner p ((hmem p).mpr hp)
      rw [← howner, hpr] at hle
      omega
    · intro hr
      rcases Nat.lt_or_ge r final.owner with hr' | hr'
      · obtain ⟨p, hp, hpr⟩ := hcurve.taken r hr'
        exact ⟨p, (hmem p).mp hp, by rw [howner, hpr]⟩
      · obtain ⟨p, hp, hpr⟩ := hlastTaken
        exact ⟨p, (hmem p).mp hp, by rw [howner, hpr]; omega⟩
  · intro r hr
    have hbound := hloads.bound r hr
    rw [hlist, hassigned.load_eq r hr, hacc.total_eq]
    rwa [hlen] at hbound
  · intro partitions hcut
    refine isInt64_cumulativeTargetValues hT.le hacc.total_le hR ?_ hcut
    have hmax := hacc.ranks_le
    have : (R : ℤ) ≤ rankSpace.size := by exact_mod_cast min_le_right _ _
    omega

/-- Five patches along the curve on two ranks: the loads are `7` and `5`. -/
theorem spaceFillingCurve_balanced_five :
    ∃ plan, spaceFillingCurve.prepare lineOfFive RankSpace.line budgetOfFive [2, 3, 2, 3, 2] =
        .ok plan ∧ plan.rankLoads = [7, 5] ∧
      ∀ r, (∃ p < 5, plan.ownerOf p = r) ↔ r < 2 := by
  have hreturns : (spaceFillingCurve.prepare lineOfFive RankSpace.line budgetOfFive
      [2, 3, 2, 3, 2]).toOption.map OwnershipPlan.rankLoads = some [7, 5] := by
    decide +kernel
  cases hplan : spaceFillingCurve.prepare lineOfFive RankSpace.line budgetOfFive
      [2, 3, 2, 3, 2] with
  | error e =>
    rw [hplan] at hreturns
    cases hreturns
  | ok plan =>
    rw [hplan] at hreturns
    exact ⟨plan, rfl, Option.some.inj hreturns,
      (spaceFillingCurve_balanced (by decide) hplan).2.2.1⟩

end LoadBalanceProvider

end Pops.Parallel
