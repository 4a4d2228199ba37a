import Pops.Foundation.ListScheduling
import Pops.Mesh.Layout.Distribution

/-!
# Load balancing

`pops::parallel::LoadBalanceProvider`: the ownership of the patches of a layout over a process
space, decided by one of three deterministic strategies.

## Main definitions

* `Pops.Parallel.prepareLoadBalanceWeights`, `mortonOrder` — the authenticated weights and the
  space-filling-curve order of the patches.
* `Pops.Parallel.curveStep`, `lptStep`, `roundRobinStep` — one round of the loop of each strategy.
* `Pops.Parallel.LoadBalanceProvider.prepare` — the prepared ownership plan.

## Main results

* `Pops.Parallel.mortonOrder_spec` — the curve visits every patch once, in the order of the
  interleaved coordinate bits.
* `Pops.Parallel.assigned_foldlM` — the loop rule of all strategies: the loads are the weights of
  the owned patches.
* `Pops.Parallel.LoadBalanceProvider.prepare_spec` — inversion of an accepted preparation.
-/

namespace Pops.Parallel

/-! ## Plans and budgets -/

/-- The strategies of the provider. -/
inductive LoadBalanceStrategy
  | spaceFillingCurve
  | weightedLpt
  | roundRobin
  deriving DecidableEq, Repr

/-- Explicit upper bounds authenticated before load-balance work. -/
structure LoadBalancePreparationBudget where
  patches : ℕ
  ranks : ℕ
  totalWeight : ℤ
  deriving DecidableEq

/-- Exact result of one prepared ownership decision. -/
structure OwnershipPlan (d : ℕ) where
  strategy : LoadBalanceStrategy
  distribution : Distribution d
  weights : List ℤ
  linearOwners : List ℕ
  rankLoads : List ℤ
  traversal : List ℕ
  totalWeight : ℤ
  deriving DecidableEq

/-- `std::max_element`, and `0` without elements. -/
def maxElement (values : List ℤ) : ℤ := values.max?.getD 0

namespace OwnershipPlan

variable {d : ℕ}

/-- The largest load of a rank. -/
def maxLoad (plan : OwnershipPlan d) : ℤ := maxElement plan.rankLoads

/-- The linear rank that owns a patch. -/
def ownerOf (plan : OwnershipPlan d) (patch : ℕ) : ℕ := plan.linearOwners.getD patch 0

/-- The weight of a patch. -/
def weightOf (plan : OwnershipPlan d) (patch : ℕ) : ℤ := plan.weights.getD patch 0

end OwnershipPlan

/-! ## Weights -/

variable {d : ℕ}

/-- The budgets are strictly positive. -/
def validateLoadBalanceBudget (budget : LoadBalancePreparationBudget) : Throws Unit :=
  throwIf (budget.patches = 0 ∨ budget.ranks = 0 ∨ budget.totalWeight ≤ 0)
    (invalidArgument "load-balance preparation budgets must be strictly positive")

/-- The supplied weight of a patch, or its number of points. -/
def patchWeight (supplied : List ℤ) (entry : Box d × ℕ) : Throws ℤ :=
  if supplied = [] then entry.1.numPts else pure (supplied.getD entry.2 0)

/-- One round of the weight check: the total weight after a further patch. -/
def addPatchWeight (supplied : List ℤ) (budget : LoadBalancePreparationBudget) (total : ℤ)
    (entry : Box d × ℕ) : Throws ℤ := do
  throwIf entry.1.Empty (invalidArgument "load-balance layouts cannot contain empty patches")
  let weight ← patchWeight supplied entry
  throwIf (weight ≤ 0) (invalidArgument "load-balance weights must be strictly positive")
  throwIf (weight > int64Max - total)
    (overflowError "load-balance total weight exceeds int64_t")
  throwIf (weight > budget.totalWeight - total)
    (lengthError "load-balance total weight exceeds its prepared budget")
  pure (total + weight)

/-- The weights of the patches and their total. -/
def prepareLoadBalanceWeights (patches : BoxArray d) (supplied : List ℤ)
    (budget : LoadBalancePreparationBudget) : Throws (List ℤ × ℤ) := do
  throwIf (patches.boxes.length > budget.patches)
    (lengthError "load-balance patch count exceeds its prepared budget")
  throwIf (supplied ≠ [] ∧ supplied.length ≠ patches.boxes.length)
    (invalidArgument "load-balance weight count must equal its patch count")
  let total ← patches.boxes.zipIdx.foldlM (addPatchWeight supplied budget) 0
  let weights ← patches.boxes.zipIdx.mapM (patchWeight supplied)
  pure (weights, total)

/-- The values that `load_balance_cumulative_target` computes, in its order. -/
structure CumulativeTarget where
  ranks : ℤ
  cut : ℤ
  quotient : ℤ
  remainder : ℤ
  remainderProduct : ℤ
  remainderRaised : ℤ
  remainderNumerator : ℤ
  remainderShare : ℤ
  quotientProduct : ℤ
  target : ℤ

/-- `load_balance_cumulative_target`, with every intermediate value. -/
def cumulativeTargetValues (total : ℤ) (partitions rankCount : ℕ) : CumulativeTarget :=
  let ranks : ℤ := rankCount
  let cut : ℤ := partitions
  let quotient := total.tdiv ranks
  let remainder := total.tmod ranks
  let remainderProduct := remainder * cut
  let remainderShare := (remainderProduct + ranks - 1).tdiv ranks
  { ranks, cut, quotient, remainder, remainderProduct
    remainderRaised := remainderProduct + ranks
    remainderNumerator := remainderProduct + ranks - 1
    remainderShare
    quotientProduct := quotient * cut
    target := quotient * cut + remainderShare }

/-- The cumulative weight at which the curve is cut after the given number of partitions. -/
def loadBalanceCumulativeTarget (total : ℤ) (partitions rankCount : ℕ) : ℤ :=
  (cumulativeTargetValues total partitions rankCount).target

/-- Every value of the computation is a `std::int64_t`. -/
def CumulativeTarget.IsInt64 (values : CumulativeTarget) : Prop :=
  ∀ value ∈ [values.ranks, values.cut, values.quotient, values.remainder, values.remainderProduct,
    values.remainderRaised, values.remainderNumerator, values.remainderShare,
    values.quotientProduct, values.target], Pops.IsInt64 value

/-- The checked sum of a load and a weight. -/
def checkedAddLoad (destination weight : ℤ) : Throws ℤ := do
  throwIf (weight > int64Max - destination)
    (overflowError "load-balance rank load exceeds int64_t")
  pure (destination + weight)

/-! ## The space-filling curve -/

/-- The lower corner of all patches. -/
def mortonLower (patches : BoxArray d) (axis : Fin d) : ℤ :=
  match patches.boxes with
  | [] => 0
  | first :: rest => rest.foldl (fun lower box => min lower (box.lo axis)) (first.lo axis)

/-- The 32-bit offset of every patch from the lower corner. -/
def mortonCoordinates (patches : BoxArray d) : Throws (List (Fin d → ℕ)) :=
  patches.boxes.mapM fun box => forEachAxis fun axis => do
    let offset := box.lo axis - mortonLower patches axis
    throwIf (offset < 0 ∨ offset > 4294967295)
      (overflowError "Morton coordinate is outside its exact 32-bit range")
    pure offset.toNat

/-- The bits of the coordinates, most significant first and axes interleaved. -/
def mortonDigits (d : ℕ) : List (ℕ × Fin d) :=
  (List.range 32).reverse.flatMap fun bit => (List.finRange d).reverse.map fun axis => (bit, axis)

/-- One bit of one coordinate of a patch. -/
def mortonDigit (coordinates : List (Fin d → ℕ)) (patch : ℕ) (digit : ℕ × Fin d) : ℕ :=
  (coordinates.getD patch 0 digit.2 >>> digit.1) &&& 1

/-- The comparator of the curve: the first differing bit decides, and the patch number without
one. -/
def mortonLess (coordinates : List (Fin d → ℕ)) (left right : ℕ) : Bool :=
  match (mortonDigits d).find? fun digit =>
    mortonDigit coordinates left digit ≠ mortonDigit coordinates right digit with
  | some digit => mortonDigit coordinates left digit < mortonDigit coordinates right digit
  | none => left < right

/-- `std::sort` of the patch numbers by a strict comparator. -/
def sortPatches (less : ℕ → ℕ → Bool) (patchCount : ℕ) : List ℕ :=
  (List.range patchCount).insertionSort fun left right => less right left = false

/-- The order of the patches along the curve. -/
def mortonOrder (patches : BoxArray d) : Throws (List ℕ) := do
  if patches.boxes = [] then pure []
  else
    let coordinates ← mortonCoordinates patches
    pure (sortPatches (mortonLess coordinates) patches.boxes.length)

/-! ## The strategies -/

/-- The owners and the loads that the loop of a strategy fills. -/
structure Ownership where
  linearOwners : List ℕ
  rankLoads : List ℤ

/-- Give a patch to a rank. -/
def Ownership.assign (weights : List ℤ) (s : Ownership) (patch owner : ℕ) : Throws Ownership := do
  let load ← checkedAddLoad (s.rankLoads.getD owner 0) (weights.getD patch 0)
  pure ⟨s.linearOwners.set patch owner, s.rankLoads.set owner load⟩

/-- The variables of the space-filling-curve loop. -/
structure CurveState where
  ownership : Ownership
  cumulative : ℤ
  owner : ℕ

/-- One round of the space-filling-curve loop. -/
def curveStep (weights : List ℤ) (totalWeight : ℤ) (patchCount activeRankCount : ℕ)
    (s : CurveState) (entry : ℕ × ℕ) : Throws CurveState := do
  let patch := entry.1
  let position := entry.2
  let ownership ← s.ownership.assign weights patch s.owner
  let cumulative ← checkedAddLoad s.cumulative (weights.getD patch 0)
  let patchesLeft := patchCount - position - 1
  let ranksLeft := activeRankCount - s.owner - 1
  let reachedWeightTarget := cumulative ≥
    loadBalanceCumulativeTarget totalWeight (s.owner + 1) activeRankCount
  let mustSeedRemainingRanks := patchesLeft = ranksLeft
  pure ⟨ownership, cumulative,
    if s.owner + 1 < activeRankCount ∧ patchesLeft ≥ ranksLeft ∧
      (reachedWeightTarget ∨ mustSeedRemainingRanks) then s.owner + 1 else s.owner⟩

/-- The comparator of the weighted strategy: heavier patches first, ties by patch number. -/
def heavier (weights : List ℤ) (left right : ℕ) : Bool :=
  weights.getD left 0 > weights.getD right 0 ∨
    (weights.getD left 0 = weights.getD right 0 ∧ left < right)

/-- The first rank of least load. -/
def leastLoaded (rankLoads : List ℤ) (rankCount : ℕ) : ℕ :=
  (List.range' 1 (rankCount - 1)).foldl
    (fun owner rank => if rankLoads.getD rank 0 < rankLoads.getD owner 0 then rank else owner) 0

/-- One round of the weighted loop. -/
def lptStep (weights : List ℤ) (rankCount : ℕ) (s : Ownership) (patch : ℕ) : Throws Ownership :=
  s.assign weights patch (leastLoaded s.rankLoads rankCount)

/-- One round of the round-robin loop. -/
def roundRobinStep (weights : List ℤ) (rankCount : ℕ) (s : Ownership) (patch : ℕ) :
    Throws Ownership :=
  s.assign weights patch (patch % rankCount)

/-- The owners and the loads before the loop. -/
def Ownership.initial (patchCount rankCount : ℕ) : Ownership :=
  ⟨List.replicate patchCount 0, List.replicate rankCount 0⟩

/-- The traversal of a strategy and the ownership it decides. -/
def decideOwnership (strategy : LoadBalanceStrategy) (patches : BoxArray d) (weights : List ℤ)
    (totalWeight : ℤ) (rankCount : ℕ) : Throws (List ℕ × Ownership) := do
  let patchCount := patches.boxes.length
  let initial := Ownership.initial patchCount rankCount
  match strategy with
  | .spaceFillingCurve =>
    let traversal ← mortonOrder patches
    let final ← traversal.zipIdx.foldlM
      (curveStep weights totalWeight patchCount (min patchCount rankCount)) ⟨initial, 0, 0⟩
    pure (traversal, final.ownership)
  | .weightedLpt =>
    let traversal := sortPatches (heavier weights) patchCount
    let final ← traversal.foldlM (lptStep weights rankCount) initial
    pure (traversal, final)
  | .roundRobin =>
    let traversal := List.range patchCount
    let final ← traversal.foldlM (roundRobinStep weights rankCount) initial
    pure (traversal, final)

/-- The process coordinates of the linear owners. -/
def spatialOwners (ranks : RankSpace d) (linearOwners : List ℕ) : Throws (List (Index d)) :=
  linearOwners.mapM ranks.coordinate

/-- An immutable strategy. -/
structure LoadBalanceProvider (d : ℕ) where
  strategy : LoadBalanceStrategy

namespace LoadBalanceProvider

/-- The provider of the space-filling curve. -/
def spaceFillingCurve : LoadBalanceProvider d := ⟨.spaceFillingCurve⟩

/-- The provider of the weighted strategy. -/
def weightedLpt : LoadBalanceProvider d := ⟨.weightedLpt⟩

/-- The provider of the round-robin strategy. -/
def roundRobin : LoadBalanceProvider d := ⟨.roundRobin⟩

/-- Prepare the ownership of a layout. -/
def prepare (provider : LoadBalanceProvider d) (patches : BoxArray d) (rankSpace : RankSpace d)
    (budget : LoadBalancePreparationBudget) (suppliedWeights : List ℤ) :
    Throws (OwnershipPlan d) := do
  validateLoadBalanceBudget budget
  throwIf (rankSpace.size = 0)
    (invalidArgument "load balance requires a non-empty rank space")
  throwIf (rankSpace.size > budget.ranks)
    (lengthError "load-balance rank count exceeds its prepared budget")
  throwIf ((rankSpace.size : ℤ) > intMax)
    (lengthError "load-balance rank count exceeds its bounded algorithm range")
  let (weights, totalWeight) ← prepareLoadBalanceWeights patches suppliedWeights budget
  let (traversal, ownership) ←
    decideOwnership provider.strategy patches weights totalWeight rankSpace.size
  let owners ← spatialOwners rankSpace ownership.linearOwners
  let distribution ← Distribution.partitioned patches rankSpace owners
  pure ⟨provider.strategy, distribution, weights, ownership.linearOwners, ownership.rankLoads,
    traversal, totalWeight⟩

end LoadBalanceProvider

/-! ## Sorting patches -/

/-- The sorted patches are the patches. -/
lemma sortPatches_perm (less : ℕ → ℕ → Bool) (patchCount : ℕ) :
    (sortPatches less patchCount).Perm (List.range patchCount) :=
  List.perm_insertionSort _ _

/-- A comparator that compares keys sorts the patches by their keys. -/
lemma sortPatches_pairwise {α : Type*} [LinearOrder α] {key : ℕ → α} {less : ℕ → ℕ → Bool}
    (h : ∀ left right, less left right = true ↔ key left < key right) (patchCount : ℕ) :
    (sortPatches less patchCount).Pairwise fun left right => key left ≤ key right := by
  have hle : ∀ left right, less right left = false ↔ key left ≤ key right := by
    intro left right
    rw [Bool.eq_false_iff, ne_eq, h, not_lt]
  have htotal : Std.Total fun left right => less right left = false :=
    ⟨fun a b => by simpa only [hle] using le_total (key a) (key b)⟩
  have htrans : IsTrans ℕ fun left right => less right left = false :=
    ⟨fun a b c => by simpa only [hle] using le_trans⟩
  exact (List.pairwise_insertionSort _ (List.range patchCount)).imp fun hab => (hle _ _).mp hab

/-- The key of the curve: the interleaved bits, then the patch number. -/
def mortonKey (coordinates : List (Fin d → ℕ)) (patch : ℕ) : List ℕ :=
  (mortonDigits d).map (mortonDigit coordinates patch) ++ [patch]

/-- The first differing entry decides the lexicographic order. -/
lemma find_ne_lt_iff {α : Type*} (digits : List α) (f g : α → ℕ) (m n : ℕ) :
    ((digits.find? fun a => f a ≠ g a).elim (decide (m < n)) fun a => decide (f a < g a)) = true ↔
      digits.map f ++ [m] < digits.map g ++ [n] := by
  induction digits with
  | nil => simp [List.cons_lt_cons_iff]
  | cons a digits ih =>
    simp only [List.map_cons, List.cons_append, List.cons_lt_cons_iff]
    by_cases h : f a = g a
    · rw [List.find?_cons_of_neg (by simp [h]), ih]
      simp [h]
    · rw [List.find?_cons_of_pos (by simp [h])]
      simp [h]

/-- The comparator of the curve compares keys. -/
lemma mortonLess_iff (coordinates : List (Fin d → ℕ)) (left right : ℕ) :
    mortonLess coordinates left right = true ↔
      mortonKey coordinates left < mortonKey coordinates right := by
  unfold mortonKey
  rw [← find_ne_lt_iff]
  unfold mortonLess
  split <;> rename_i hfind <;> rw [hfind] <;> rfl

/-- The curve visits every patch once, in the order of the interleaved coordinate bits. -/
theorem mortonOrder_spec {patches : BoxArray d} {traversal : List ℕ}
    (h : mortonOrder patches = .ok traversal) :
    traversal.Perm (List.range patches.boxes.length) ∧
      ∃ coordinates, traversal.Pairwise fun left right =>
        mortonKey coordinates left ≤ mortonKey (d := d) coordinates right := by
  unfold mortonOrder at h
  split_ifs at h with hempty
  · simp only [pure_eq_ok] at h
    subst h
    simp [hempty]
  · simp only [bind_eq_ok, pure_eq_ok] at h
    obtain ⟨coordinates, _, rfl⟩ := h
    exact ⟨sortPatches_perm _ _, coordinates, sortPatches_pairwise (mortonLess_iff coordinates) _⟩

/-- The weighted traversal has non-increasing weights. -/
lemma sortPatches_heavier (weights : List ℤ) (patchCount : ℕ) :
    (sortPatches (heavier weights) patchCount).Pairwise fun left right =>
      weights.getD right 0 ≤ weights.getD left 0 := by
  have hkey : ∀ left right, heavier weights left right = true ↔
      toLex (-weights.getD left 0, left) < toLex (-weights.getD right 0, right) := by
    intro left right
    rw [Prod.Lex.toLex_lt_toLex]
    simp only [heavier, decide_eq_true_eq]
    omega
  refine (sortPatches_pairwise hkey patchCount).imp ?_
  intro left right hle
  rw [Prod.Lex.toLex_le_toLex] at hle
  simp only at hle
  omega

/-! ## Weights -/

/-- Every value is at most the maximum. -/
lemma le_maxElement {values : List ℤ} {x : ℤ} (h : x ∈ values) : x ≤ maxElement values := by
  unfold maxElement
  cases hmax : values.max? with
  | none => simp [List.max?_eq_none_iff.mp hmax] at h
  | some m => exact (List.max?_eq_some_iff.mp hmax).2 x h

/-- The maximum of some values is one of them. -/
lemma maxElement_mem {values : List ℤ} (h : values ≠ []) : maxElement values ∈ values := by
  unfold maxElement
  cases hmax : values.max? with
  | none => exact absurd (List.max?_eq_none_iff.mp hmax) h
  | some m => exact (List.max?_eq_some_iff.mp hmax).1

/-- What the weight check guarantees: one positive weight for every patch, the supplied one if
there is any, with a total in the range of `std::int64_t`. -/
lemma prepareLoadBalanceWeights_spec {patches : BoxArray d} {supplied : List ℤ}
    {budget : LoadBalancePreparationBudget} {weights : List ℤ} {total : ℤ}
    (h : prepareLoadBalanceWeights patches supplied budget = .ok (weights, total)) :
    weights.length = patches.boxes.length ∧ (∀ w ∈ weights, 0 < w) ∧ total = weights.sum ∧
      total ≤ int64Max ∧ (∀ box ∈ patches.boxes, ¬ box.Empty) ∧
      patches.boxes.zipIdx.mapM (patchWeight supplied) = .ok weights := by
  simp only [prepareLoadBalanceWeights, bind_eq_ok, throwIf_eq_ok, exists_const, pure_eq_ok,
    Prod.mk.injEq] at h
  obtain ⟨_, _, total', hfold, weights', hmap, rfl, rfl⟩ := h
  -- the loop collects the weights that are stored afterwards
  have hloop := foldlM_invariant (P := fun done (total : ℤ) => ∃ ws,
      done.mapM (patchWeight supplied) = .ok ws ∧ ws.length = done.length ∧ (∀ w ∈ ws, 0 < w) ∧
        total = ws.sum ∧ total ≤ int64Max ∧ ∀ entry ∈ done, ¬ entry.1.Empty) hfold
    ⟨[], rfl, rfl, by simp, rfl, by decide, by simp⟩ (by
      rintro done entry rest s s' _ ⟨ws, hws, hlen, hpos, hsum, _, hne⟩ hstep
      simp only [addPatchWeight, bind_eq_ok, throwIf_eq_ok, exists_const, pure_eq_ok] at hstep
      obtain ⟨hbox, w, hw, hw0, hfits, _, rfl⟩ := hstep
      refine ⟨ws ++ [w], by simp [hws, hw], by simp [hlen], ?_, by simp [hsum], by omega, ?_⟩
      · intro x hx
        rcases List.mem_append.mp hx with hx | hx
        · exact hpos x hx
        · rw [List.mem_singleton.mp hx]
          omega
      · intro x hx
        rcases List.mem_append.mp hx with hx | hx
        · exact hne x hx
        · rwa [List.mem_singleton.mp hx])
  obtain ⟨ws, hws, hlen, hpos, hsum, hmax, hne⟩ := hloop
  obtain rfl : ws = weights' := by
    rw [hws] at hmap
    simpa using hmap
  refine ⟨by simpa using hlen, hpos, hsum, hmax, ?_, hws⟩
  intro box hbox
  obtain ⟨n, hn, rfl⟩ := List.getElem_of_mem hbox
  exact hne (patches.boxes[n], n) (by simp [List.mem_zipIdx_iff_getElem?])

/-! ## The loops

All strategies give the patches of a traversal to ranks, one after the other.  What the ranks
carry at every moment is the load of the patches given so far. -/

/-- The owner of a patch. -/
def Ownership.ownerOf (s : Ownership) (patch : ℕ) : ℕ := s.linearOwners.getD patch 0

/-- The loads are the weights of the patches that were given to the ranks. -/
structure Assigned (weights : List ℤ) (rankCount : ℕ) (done : List ℕ) (s : Ownership) : Prop where
  owners_length : s.linearOwners.length = weights.length
  loads_length : s.rankLoads.length = rankCount
  owner_lt : ∀ p ∈ done, s.ownerOf p < rankCount
  load_eq : ∀ r < rankCount, s.rankLoads.getD r 0 =
    ListScheduling.load (weights.getD · 0) s.ownerOf done r

/-- Before the loop nothing is given away. -/
lemma Assigned.initial (weights : List ℤ) (rankCount : ℕ) :
    Assigned weights rankCount [] (Ownership.initial weights.length rankCount) where
  owners_length := by simp [Ownership.initial]
  loads_length := by simp [Ownership.initial]
  owner_lt := by simp
  load_eq r hr := by simp [Ownership.initial, hr]

/-- Giving a patch to a rank changes the owner of that patch only. -/
lemma ownerOf_assign {weights : List ℤ} {s s' : Ownership} {patch owner : ℕ}
    (hp : patch < s.linearOwners.length) (h : s.assign weights patch owner = .ok s') :
    s'.ownerOf patch = owner ∧ ∀ p, p ≠ patch → s'.ownerOf p = s.ownerOf p := by
  simp only [Ownership.assign, bind_eq_ok, pure_eq_ok] at h
  obtain ⟨load, _, rfl⟩ := h
  refine ⟨by simp [Ownership.ownerOf, hp], ?_⟩
  intro p hne
  simp only [Ownership.ownerOf, List.getD_eq_getElem?_getD, List.getElem?_set, if_neg hne.symm]

/-- Giving a further patch to a rank keeps the loads right. -/
theorem Assigned.assign {weights : List ℤ} {rankCount : ℕ} {done : List ℕ} {s s' : Ownership}
    {patch owner : ℕ} (hs : Assigned weights rankCount done s) (hp : patch < weights.length)
    (hnew : patch ∉ done) (ho : owner < rankCount)
    (h : s.assign weights patch owner = .ok s') :
    Assigned weights rankCount (done ++ [patch]) s' := by
  obtain ⟨hself, hother⟩ := ownerOf_assign (by rw [hs.owners_length]; exact hp) h
  have hold : ∀ p ∈ done, s'.ownerOf p = s.ownerOf p :=
    fun p hp => hother p fun heq => hnew (heq ▸ hp)
  simp only [Ownership.assign, checkedAddLoad, bind_eq_ok, throwIf_eq_ok, exists_const,
    pure_eq_ok] at h
  obtain ⟨load, ⟨_, rfl⟩, rfl⟩ := h
  refine ⟨by simp [hs.owners_length], by simp [hs.loads_length], ?_, ?_⟩
  · intro p hmem
    rcases List.mem_append.mp hmem with hmem | hmem
    · rw [hold p hmem]
      exact hs.owner_lt p hmem
    · rw [List.mem_singleton.mp hmem, hself]
      exact ho
  · intro r hr
    rw [ListScheduling.load_append, ListScheduling.load_congr hold, hself, ← hs.load_eq r hr]
    simp only [List.getD_eq_getElem?_getD, List.getElem?_set, hs.loads_length, if_pos ho]
    split_ifs with heq
    · subst heq
      simp
    · simp

/-- A traversal reaches every patch of the layout for the first time. -/
lemma fresh_of_perm {patchCount patch : ℕ} {traversal done rest : List ℕ}
    (hperm : traversal.Perm (List.range patchCount)) (heq : traversal = done ++ patch :: rest) :
    patch < patchCount ∧ patch ∉ done := by
  have hmem : patch ∈ List.range patchCount := hperm.mem_iff.mp (by rw [heq]; simp)
  have hnodup := hperm.nodup_iff.mpr List.nodup_range
  rw [heq] at hnodup
  exact ⟨List.mem_range.mp hmem,
    fun hin => (List.nodup_append.mp hnodup).2.2 patch hin patch (by simp) rfl⟩

/-- The loop rule of the strategies: if every round gives the next patch of the traversal to a
rank and preserves `P`, the loads after the loop are the weights of the owned patches. -/
theorem assigned_foldlM {weights : List ℤ} {rankCount : ℕ} {step : Ownership → ℕ → Throws Ownership}
    {P : List ℕ → Ownership → Prop} {traversal : List ℕ} {final : Ownership}
    (hperm : traversal.Perm (List.range weights.length))
    (hinit : P [] (Ownership.initial weights.length rankCount))
    (hstep : ∀ done s patch s', Assigned weights rankCount done s → P done s →
      patch < weights.length → patch ∉ done → step s patch = .ok s' →
      ∃ owner < rankCount, s.assign weights patch owner = .ok s' ∧ P (done ++ [patch]) s')
    (h : traversal.foldlM step (Ownership.initial weights.length rankCount) = .ok final) :
    Assigned weights rankCount traversal final ∧ P traversal final := by
  refine foldlM_invariant (P := fun done s => Assigned weights rankCount done s ∧ P done s) h
    ⟨Assigned.initial weights rankCount, hinit⟩ ?_
  intro done patch rest s s' heq ⟨hs, hP⟩ hs'
  obtain ⟨hlt, hnew⟩ := fresh_of_perm hperm heq
  obtain ⟨owner, ho, hassign, hP'⟩ := hstep done s patch s' hs hP hlt hnew hs'
  exact ⟨hs.assign hlt hnew ho hassign, hP'⟩

/-- The chosen rank carries the least load. -/
lemma leastLoaded_spec (rankLoads : List ℤ) {rankCount : ℕ} (h : 0 < rankCount) :
    leastLoaded rankLoads rankCount < rankCount ∧ ∀ r < rankCount,
      rankLoads.getD (leastLoaded rankLoads rankCount) 0 ≤ rankLoads.getD r 0 := by
  obtain ⟨n, rfl⟩ : ∃ n, rankCount = n + 1 := ⟨rankCount - 1, by omega⟩
  clear h
  induction n with
  | zero => simp [leastLoaded]
  | succ n ih =>
    obtain ⟨hlt, hle⟩ := ih
    have hstep : leastLoaded rankLoads (n + 1 + 1) =
        if rankLoads.getD (n + 1) 0 < rankLoads.getD (leastLoaded rankLoads (n + 1)) 0 then n + 1
        else leastLoaded rankLoads (n + 1) := by
      simp only [leastLoaded, Nat.add_sub_cancel, List.range'_concat, List.foldl_append,
        List.foldl_cons, List.foldl_nil, one_mul, Nat.add_comm 1 n]
    rw [hstep]
    split_ifs with hless
    · refine ⟨by omega, fun r hr => ?_⟩
      rcases Nat.lt_or_ge r (n + 1) with hr' | hr'
      · exact hless.le.trans (hle r hr')
      · rw [show r = n + 1 by omega]
    · refine ⟨by omega, fun r hr => ?_⟩
      rcases Nat.lt_or_ge r (n + 1) with hr' | hr'
      · exact hle r hr'
      · rw [show r = n + 1 by omega]
        exact not_lt.mp hless

/-- The weighted loop places the patches greedily. -/
lemma lpt_greedy {weights : List ℤ} {rankCount : ℕ} {traversal : List ℕ} {final : Ownership}
    (hR : 0 < rankCount) (hperm : traversal.Perm (List.range weights.length))
    (h : traversal.foldlM (lptStep weights rankCount)
      (Ownership.initial weights.length rankCount) = .ok final) :
    Assigned weights rankCount traversal final ∧
      ListScheduling.Greedy (weights.getD · 0) final.ownerOf (Finset.range rankCount)
        traversal := by
  refine assigned_foldlM (P := fun done s => ListScheduling.Greedy (weights.getD · 0) s.ownerOf
    (Finset.range rankCount) done) hperm ?_ ?_ h
  · intro before j after hnil
    simp at hnil
  · intro done s patch s' hs hgreedy hlt hnew hstep
    obtain ⟨howner, hleast⟩ := leastLoaded_spec s.rankLoads hR
    obtain ⟨hself, hother⟩ := ownerOf_assign (by rw [hs.owners_length]; exact hlt) hstep
    have hold : ∀ p ∈ done, s.ownerOf p = s'.ownerOf p :=
      fun p hp => (hother p fun hp' => hnew (hp' ▸ hp)).symm
    refine ⟨_, howner, hstep, (hgreedy.congr hold).snoc ?_⟩
    intro r hr
    have hr' := Finset.mem_range.mp hr
    rw [hself, ← ListScheduling.load_congr hold, ← ListScheduling.load_congr hold,
      ← hs.load_eq _ howner, ← hs.load_eq _ hr']
    exact hleast r hr'

/-! ## Accepted preparations -/

namespace LoadBalanceProvider

/-- What an accepted preparation guarantees. -/
structure Accepted (provider : LoadBalanceProvider d) (patches : BoxArray d)
    (rankSpace : RankSpace d) (supplied : List ℤ) (plan : OwnershipPlan d) : Prop where
  ranks_pos : 0 < rankSpace.size
  ranks_le : (rankSpace.size : ℤ) ≤ intMax
  weights_length : plan.weights.length = patches.boxes.length
  weights_pos : ∀ w ∈ plan.weights, 0 < w
  total_eq : plan.totalWeight = plan.weights.sum
  total_le : plan.totalWeight ≤ int64Max
  patches_nonempty : ∀ box ∈ patches.boxes, ¬ box.Empty
  weighed : patches.boxes.zipIdx.mapM (patchWeight supplied) = .ok plan.weights
  decided : decideOwnership provider.strategy patches plan.weights plan.totalWeight
    rankSpace.size = .ok (plan.traversal, ⟨plan.linearOwners, plan.rankLoads⟩)

/-- Inversion of an accepted preparation. -/
theorem prepare_spec {provider : LoadBalanceProvider d} {patches : BoxArray d}
    {rankSpace : RankSpace d} {budget : LoadBalancePreparationBudget} {supplied : List ℤ}
    {plan : OwnershipPlan d} (h : provider.prepare patches rankSpace budget supplied = .ok plan) :
    provider.Accepted patches rankSpace supplied plan := by
  simp only [prepare, validateLoadBalanceBudget, bind_eq_ok, throwIf_eq_ok, exists_const,
    pure_eq_ok] at h
  obtain ⟨_, hsize, _, hmax, ⟨weights, total⟩, hweights, ⟨traversal, ownership⟩, hdecided, owners,
    _, distribution, _, rfl⟩ := h
  obtain ⟨hlen, hpos, hsum, hle, hne, hweighed⟩ := prepareLoadBalanceWeights_spec hweights
  exact ⟨Nat.pos_of_ne_zero hsize, not_lt.mp hmax, hlen, hpos, hsum, hle, hne, hweighed, hdecided⟩

/-- The weight of a patch of an accepted plan is positive and one of its weights. -/
lemma Accepted.weightOf_mem {provider : LoadBalanceProvider d} {patches : BoxArray d}
    {rankSpace : RankSpace d} {supplied : List ℤ} {plan : OwnershipPlan d}
    (h : provider.Accepted patches rankSpace supplied plan) {patch : ℕ}
    (hp : patch < patches.boxes.length) :
    plan.weightOf patch ∈ plan.weights ∧ 0 < plan.weightOf patch := by
  have hmem : plan.weightOf patch ∈ plan.weights := by
    unfold OwnershipPlan.weightOf
    rw [List.getD_eq_getElem _ _ (by rw [h.weights_length]; exact hp)]
    exact List.getElem_mem _
  exact ⟨hmem, h.weights_pos _ hmem⟩

/-- The weight of a patch of an accepted plan is the supplied one, or its number of cells when no
weights are supplied. -/
lemma Accepted.weightOf_eq {provider : LoadBalanceProvider d} {patches : BoxArray d}
    {rankSpace : RankSpace d} {supplied : List ℤ} {plan : OwnershipPlan d}
    (h : provider.Accepted patches rankSpace supplied plan) {patch : ℕ}
    (hp : patch < patches.boxes.length) :
    plan.weightOf patch =
      if supplied = [] then ((patches.boxes[patch].cells.card : ℕ) : ℤ)
      else supplied.getD patch 0 := by
  have hpatch : patchWeight supplied (patches.boxes[patch], patch) = .ok (plan.weightOf patch) := by
    have hpairs := List.forall₂_iff_get.mp (forall₂_of_mapM h.weighed)
    have hget := hpairs.2 patch (by simpa using hp) (by rw [h.weights_length]; exact hp)
    rw [OwnershipPlan.weightOf, List.getD_eq_getElem _ _ (by rw [h.weights_length]; exact hp)]
    simpa using hget
  unfold patchWeight at hpatch
  split_ifs at hpatch ⊢ with hnone
  · exact Box.numPts_eq_ok hpatch
  · exact (Except.ok.inj hpatch).symm

end LoadBalanceProvider

end Pops.Parallel
