import Pops.Foundation.Routing
import Pops.Mesh.Layout.Distribution

/-!
# Inter-layout copy schedules

`pops::CopySchedule`: the per-rank plan that copies a field from one patch layout to another.
The constructor decides that both layouts cover the same cells only by comparing three exact
counts, and each rank classifies the common list of jobs on its own.

## Main definitions

* `Pops.CopySchedule`, `CopySchedule.create` — the plan and its constructor.
* `Pops.CopySchedule.jobs` — the nonempty pairwise intersections, in loop order.

## Main results

* `Pops.CopySchedule.create_returns_iff` — the constructor accepts exactly two disjoint layouts
  of the same cells.
* `Pops.CopySchedule.create_spec` — what a rank stores.
* `Pops.copySchedule_covers_and_routes` — acceptance, coverage and cross-rank duality.
-/

namespace Pops

/-- Finite preparation budget of a copy schedule. -/
structure CopyScheduleBudget where
  boxPairs : ℕ
  jobs : ℕ
  destinationOverlapPairs : ℕ
  sourceOverlapPairs : ℕ

/-- One overlap of a source patch and a destination patch. -/
@[ext] structure CopyJob (d : ℕ) where
  sourceBox : ℕ
  destinationBox : ℕ
  region : Box d
  deriving DecidableEq

/-- The jobs shared with one peer. -/
structure CopyPeerPlan (d : ℕ) where
  peer : Index d
  jobs : List (CopyJob d)

/-- Immutable per-rank overlap plan. -/
structure CopySchedule (d : ℕ) where
  destinationLayout : BoxArray d
  destinationDistribution : Distribution d
  sourceLayout : BoxArray d
  sourceDistribution : Distribution d
  localRank : Index d
  localJobs : List (CopyJob d)
  send : List (CopyPeerPlan d)
  receive : List (CopyPeerPlan d)

namespace CopySchedule

variable {d : ℕ}

/-- The checked number of patch pairs. -/
def checkedPairCount (left right : ℕ) : Throws ℕ := do
  throwIf (left ≠ 0 ∧ right > sizeMax / left)
    (lengthError "pops::CopySchedule patch pair count exceeds size_t")
  pure (left * right)

/-- The number of unordered pairs of patches of one layout. -/
def overlapPairCount (size : ℕ) : Throws ℕ :=
  if size < 2 then pure 0
  else do
    let pairs ← checkedPairCount size (size - 1)
    pure (pairs / 2)

/-- The disjointness loop: every patch is nonempty and meets none of the earlier ones. -/
def validateDisjointFrom (name : String) : (earlier rest : List (Box d)) → Throws Unit
  | _, [] => pure ()
  | earlier, box :: rest => do
    throwIf box.Empty
      (invalidArgument ("pops::CopySchedule " ++ name ++ " layout contains an empty patch"))
    forEach earlier fun right => throwIf (¬ (box.intersect right).Empty)
      (invalidArgument ("pops::CopySchedule " ++ name ++ " layout contains overlapping patches"))
    validateDisjointFrom name (earlier ++ [box]) rest

/-- The patches are nonempty and pairwise disjoint, within the pair budget. -/
def validateDisjoint (layout : BoxArray d) (pairBudget : ℕ) (name : String) : Throws Unit := do
  let pairCount ← overlapPairCount layout.boxes.length
  throwIf (pairCount > pairBudget)
    (lengthError ("pops::CopySchedule " ++ name ++ " overlap-pair budget exceeded"))
  validateDisjointFrom name [] layout.boxes

/-- The plan of a peer starts without jobs and takes up one job after another. -/
def peerPlan : Grouping.Collector (Index d) (CopyJob d) (CopyPeerPlan d) where
  key := CopyPeerPlan.peer
  fresh peer := ⟨peer, []⟩
  push plan job := { plan with jobs := plan.jobs ++ [job] }
  key_fresh _ := rfl
  key_push _ _ := rfl

/-- The metadata checks of the constructor. -/
def validateMetadata (destinationLayout : BoxArray d) (destinationDistribution : Distribution d)
    (sourceLayout : BoxArray d) (sourceDistribution : Distribution d) (localRank : Index d)
    (budget : CopyScheduleBudget) : Throws Unit := do
  throwIf (destinationDistribution.layout ≠ destinationLayout ∨
      sourceDistribution.layout ≠ sourceLayout)
    (invalidArgument "pops::CopySchedule distribution/layout identity mismatch")
  throwIf (destinationDistribution.rankSpace ≠ sourceDistribution.rankSpace)
    (invalidArgument "pops::CopySchedule fields use different rank spaces")
  throwIf (¬ destinationDistribution.rankSpace.Contains localRank)
    (outOfRange "pops::CopySchedule local rank is outside the rank space")
  throwIf (¬ (destinationDistribution.Replicated ↔ sourceDistribution.Replicated))
    (invalidArgument
      "pops::CopySchedule cannot infer ownership for mixed replicated/partitioned fields")
  validateDisjoint destinationLayout budget.destinationOverlapPairs "destination"
  validateDisjoint sourceLayout budget.sourceOverlapPairs "source"

/-- The patch pairs in loop order, the destination outermost; a patch carries its index. -/
def boxPairs (destinationLayout sourceLayout : BoxArray d) : List ((Box d × ℕ) × (Box d × ℕ)) :=
  destinationLayout.boxes.zipIdx ×ˢ sourceLayout.boxes.zipIdx

/-- The job of a patch pair. -/
def pairJob (pair : (Box d × ℕ) × (Box d × ℕ)) : CopyJob d where
  sourceBox := pair.2.2
  destinationBox := pair.1.2
  region := pair.1.1.intersect pair.2.1

/-- One round of the job loop, on the covered count and the jobs found so far. -/
def collectJob (jobBudget : ℕ) (state : ExactCellCount × List (CopyJob d))
    (pair : (Box d × ℕ) × (Box d × ℕ)) : Throws (ExactCellCount × List (CopyJob d)) :=
  if (pairJob pair).region.Empty then pure state
  else do
    throwIf (state.2.length ≥ jobBudget)
      (lengthError "pops::CopySchedule job budget exceeded")
    let cells ← ExactCellCount.fromBox (pairJob pair).region
    let covered ← state.1.addChecked cells
      (overflowError "pops::CopySchedule covered-cell count overflow")
    pure (covered, state.2 ++ [pairJob pair])

/-- Sort a job into the local jobs, a send plan or a receive plan of this rank. -/
def classify (schedule : CopySchedule d) (job : CopyJob d) : Throws (CopySchedule d) := do
  let sourceLocal ← schedule.sourceDistribution.isLocal job.sourceBox schedule.localRank
  let destinationLocal ←
    schedule.destinationDistribution.isLocal job.destinationBox schedule.localRank
  if sourceLocal && destinationLocal then
    pure { schedule with localJobs := schedule.localJobs ++ [job] }
  else
    throwIf schedule.sourceDistribution.Replicated
      (logicError "pops::CopySchedule replicated ownership classification is invalid")
    if sourceLocal then
      let peer ← schedule.destinationDistribution.owner job.destinationBox
      pure { schedule with send := peerPlan.append schedule.send peer job }
    else if destinationLocal then
      let peer ← schedule.sourceDistribution.owner job.sourceBox
      pure { schedule with receive := peerPlan.append schedule.receive peer job }
    else pure schedule

/-- The constructor. -/
def create (destinationLayout : BoxArray d) (destinationDistribution : Distribution d)
    (sourceLayout : BoxArray d) (sourceDistribution : Distribution d) (localRank : Index d)
    (budget : CopyScheduleBudget) : Throws (CopySchedule d) := do
  validateMetadata destinationLayout destinationDistribution sourceLayout sourceDistribution
    localRank budget
  let pairCount ← checkedPairCount destinationLayout.boxes.length sourceLayout.boxes.length
  throwIf (pairCount > budget.boxPairs)
    (lengthError "pops::CopySchedule patch-pair budget exceeded")
  let collected ← (boxPairs destinationLayout sourceLayout).foldlM (collectJob budget.jobs)
    (ExactCellCount.zero, [])
  -- the source count is only evaluated when the destination count agrees
  let destinationCount ← destinationLayout.exactCellCount
  throwIf (collected.1 ≠ destinationCount) (invalidArgument
    "pops::CopySchedule source and destination layouts must cover the same cells exactly")
  let sourceCount ← sourceLayout.exactCellCount
  throwIf (collected.1 ≠ sourceCount) (invalidArgument
    "pops::CopySchedule source and destination layouts must cover the same cells exactly")
  collected.2.foldlM classify ⟨destinationLayout, destinationDistribution, sourceLayout,
    sourceDistribution, localRank, [], [], []⟩

/-- The jobs of a list of patch pairs: the nonempty intersections. -/
def jobsOf (pairs : List ((Box d × ℕ) × (Box d × ℕ))) : List (CopyJob d) :=
  (pairs.map pairJob).filter fun job => ¬ job.region.Empty

/-- The jobs of two layouts, in loop order. -/
def jobs (destinationLayout sourceLayout : BoxArray d) : List (CopyJob d) :=
  jobsOf (boxPairs destinationLayout sourceLayout)

/-! ## The job list -/

variable {D S : BoxArray d}

/-- The jobs are the nonempty intersections of a destination patch with a source patch. -/
lemma mem_jobs {job : CopyJob d} :
    job ∈ jobs D S ↔ ∃ t s, D.boxes[job.destinationBox]? = some t ∧
      S.boxes[job.sourceBox]? = some s ∧ job.region = t.intersect s ∧ ¬ job.region.Empty := by
  simp only [jobs, jobsOf, List.mem_filter, List.mem_map, boxPairs, List.mem_product,
    decide_eq_true_eq, Prod.exists, List.mem_zipIdx_iff_getElem?]
  refine ⟨fun h => ?_, fun h => ?_⟩
  · obtain ⟨⟨t, n, s, m, ⟨ht, hs⟩, rfl⟩, hne⟩ := h
    exact ⟨t, s, ht, hs, rfl, hne⟩
  · obtain ⟨t, s, ht, hs, hregion, hne⟩ := h
    refine ⟨⟨t, job.destinationBox, s, job.sourceBox, ⟨ht, hs⟩, ?_⟩, hne⟩
    exact CopyJob.ext rfl rfl hregion.symm

/-- A patch pair occurs once in the loop and determines its job, so no job occurs twice. -/
lemma nodup_jobs : (jobs D S).Nodup := by
  have hidx : ∀ array : BoxArray d, array.boxes.zipIdx.Nodup :=
    fun array => List.Nodup.of_map Prod.snd (List.nodup_zipIdx_map_snd _)
  refine List.Nodup.filter _ (List.Nodup.map_on ?_ ((hidx D).product (hidx S)))
  intro p hp q hq heq
  obtain ⟨⟨t, n⟩, s, m⟩ := p
  obtain ⟨⟨t', n'⟩, s', m'⟩ := q
  simp only [boxPairs, List.mem_product, List.mem_zipIdx_iff_getElem?] at hp hq
  obtain rfl : m = m' := congrArg CopyJob.sourceBox heq
  obtain rfl : n = n' := congrArg CopyJob.destinationBox heq
  obtain rfl : t = t' := Option.some.inj (hp.1.symm.trans hq.1)
  obtain rfl : s = s' := Option.some.inj (hp.2.symm.trans hq.2)
  rfl

/-- In two disjoint layouts a cell covered by both lies in the region of exactly one job. -/
lemma existsUnique_job (hD : D.cellSets.Pairwise Disjoint) (hS : S.cellSets.Pairwise Disjoint)
    {x : Index d} (hxD : x ∈ D.cells) (hxS : x ∈ S.cells) :
    ∃! job, job ∈ jobs D S ∧ x ∈ job.region.cells := by
  obtain ⟨n, hn, hnu⟩ := Cover.existsUnique_mem hD (BoxArray.mem_cells.mp hxD)
  obtain ⟨m, hm, hmu⟩ := Cover.existsUnique_mem hS (BoxArray.mem_cells.mp hxS)
  have hcell : x ∈ (D.boxes[n].intersect S.boxes[m]).cells := by
    rw [Box.cells_intersect]
    exact Finset.mem_inter.mpr ⟨hn, hm⟩
  refine ⟨⟨m, n, D.boxes[n].intersect S.boxes[m]⟩, ⟨mem_jobs.mpr ⟨D.boxes[n], S.boxes[m], ?_, ?_,
    rfl, Box.not_empty_of_mem hcell⟩, hcell⟩, fun job hjob => ?_⟩
  · exact List.getElem?_eq_getElem n.2
  · exact List.getElem?_eq_getElem m.2
  · obtain ⟨hjob, hx⟩ := hjob
    obtain ⟨t, s, ht, hs, hregion, _⟩ := mem_jobs.mp hjob
    rw [hregion, Box.cells_intersect, Finset.mem_inter] at hx
    obtain ⟨hn', ht'⟩ := List.getElem?_eq_some_iff.mp ht
    obtain ⟨hm', hs'⟩ := List.getElem?_eq_some_iff.mp hs
    have h1 := hnu ⟨job.destinationBox, hn'⟩ (by rw [← ht'] at hx; exact hx.1)
    have h2 := hmu ⟨job.sourceBox, hm'⟩ (by rw [← hs'] at hx; exact hx.2)
    refine CopyJob.ext (congrArg Fin.val h2) (congrArg Fin.val h1) ?_
    rw [hregion, ← ht', ← hs', ← h1, ← h2]
    rfl

/-- The number of cells of a list of jobs, with multiplicity. -/
def cellCount (js : List (CopyJob d)) : ℕ := (js.map fun job => job.region.cells.card).sum

/-- The jobs count the cells of all pairwise intersections: the omitted ones are empty. -/
lemma cellCount_jobs :
    cellCount (jobs D S) =
      (D.cellSets.map fun t => (S.cellSets.map fun s => (t ∩ s).card).sum).sum := by
  have hfilter : ∀ js : List (CopyJob d),
      cellCount (js.filter fun job => ¬ job.region.Empty) = cellCount js := by
    intro js
    unfold cellCount
    induction js with
    | nil => rfl
    | cons job js ih =>
      by_cases he : job.region.Empty
      · rw [List.filter_cons_of_neg (by simpa using he), ih, List.map_cons, List.sum_cons,
          Box.empty_iff_cells.mp he, Finset.card_empty, Nat.zero_add]
      · rw [List.filter_cons_of_pos (by simpa using he), List.map_cons, List.map_cons,
          List.sum_cons, List.sum_cons, ih]
  have hinner : ∀ t : Box d × ℕ,
      ((S.boxes.zipIdx.map fun s => (pairJob (t, s)).region.cells.card).sum) =
        (S.cellSets.map fun s => (t.1.cells ∩ s).card).sum := by
    intro t
    have hfst := List.zipIdx_map_fst 0 S.boxes
    rw [BoxArray.cellSets, List.map_map]
    conv_rhs => rw [← hfst, List.map_map]
    refine congrArg List.sum (List.map_congr_left fun s _ => ?_)
    simp [pairJob]
  have houter : ∀ ts : List (Box d × ℕ),
      cellCount ((ts ×ˢ S.boxes.zipIdx).map pairJob) =
        ((ts.map Prod.fst).map fun t =>
          (S.cellSets.map fun s => (t.cells ∩ s).card).sum).sum := by
    intro ts
    unfold cellCount
    induction ts with
    | nil => rfl
    | cons t ts ih =>
      rw [List.product_cons, List.map_append, List.map_append, List.sum_append, ih, List.map_cons,
        List.map_cons, List.sum_cons, ← hinner t, List.map_map, List.map_map]
      rfl
  rw [jobs, jobsOf, hfilter, boxPairs, houter, List.zipIdx_map_fst,
    show D.cellSets = D.boxes.map Box.cells from rfl, List.map_map]
  rfl

/-- One round of the job loop. -/
lemma collectJob_eq_ok {budget : ℕ} {state state' : ExactCellCount × List (CopyJob d)}
    {pair : (Box d × ℕ) × (Box d × ℕ)} :
    collectJob budget state pair = .ok state' ↔
      if (pairJob pair).region.Empty then state = state'
      else state.2.length < budget ∧
        state'.1.toNat = state.1.toNat + (pairJob pair).region.cells.card ∧
        state'.2 = state.2 ++ [pairJob pair] := by
  unfold collectJob
  by_cases he : (pairJob pair).region.Empty
  · simp [he]
  · simp only [if_neg he, bind_eq_ok, throwIf_eq_ok, exists_const, not_le,
      ExactCellCount.fromBox_eq_ok, ExactCellCount.addChecked_eq_ok, pure_eq_ok]
    refine and_congr_right fun _ => ⟨fun h => ?_, fun h => ?_⟩
    · obtain ⟨cells, hcells, covered, hcovered, rfl⟩ := h
      exact ⟨by rw [hcovered, hcells], rfl⟩
    · obtain ⟨hcount, hlist⟩ := h
      obtain ⟨cells, hcells⟩ := Limbs.Number.exists_toNat (B := limbBase) (n := 4)
        (v := (pairJob pair).region.cells.card) (by have := state'.1.toNat_lt; omega)
      exact ⟨cells, hcells, state'.1, by rw [hcount, hcells], Prod.ext rfl hlist.symm⟩

/-- The jobs of one more patch pair. -/
lemma jobsOf_append_singleton (pairs : List ((Box d × ℕ) × (Box d × ℕ)))
    (pair : (Box d × ℕ) × (Box d × ℕ)) :
    jobsOf (pairs ++ [pair]) =
      if (pairJob pair).region.Empty then jobsOf pairs else jobsOf pairs ++ [pairJob pair] := by
  unfold jobsOf
  by_cases he : (pairJob pair).region.Empty
  · simp [he, List.filter_append]
  · simp [he, List.filter_append]

/-- The job loop returns exactly when the jobs stay within the budget and their cells within
four limbs; it returns the jobs and the number of their cells. -/
lemma collect_eq_ok {budget : ℕ} {pairs : List ((Box d × ℕ) × (Box d × ℕ))}
    {covered : ExactCellCount} {js : List (CopyJob d)} :
    pairs.foldlM (collectJob budget) (ExactCellCount.zero, []) = .ok (covered, js) ↔
      js = jobsOf pairs ∧ covered.toNat = cellCount js ∧ js.length ≤ budget := by
  have happend : ∀ (js : List (CopyJob d)) job,
      cellCount (js ++ [job]) = cellCount js + job.region.cells.card := fun js job => by
    simp [cellCount]
  induction pairs using List.reverseRecOn generalizing covered js with
  | nil =>
    simp only [List.foldlM_nil, pure_eq_ok, Prod.mk.injEq, jobsOf, List.map_nil, List.filter_nil]
    refine ⟨fun h => ?_, fun h => ?_⟩
    · obtain ⟨rfl, rfl⟩ := h
      exact ⟨rfl, by simp [cellCount], Nat.zero_le _⟩
    · obtain ⟨rfl, hcount, _⟩ := h
      exact ⟨Limbs.Number.toNat_injective (by simp [hcount, cellCount]), rfl⟩
  | append_singleton pairs pair ih =>
    simp only [List.foldlM_append, List.foldlM_cons, List.foldlM_nil, bind_eq_ok, pure_eq_ok,
      exists_eq_right, Prod.exists, ih, collectJob_eq_ok, jobsOf_append_singleton]
    by_cases he : (pairJob pair).region.Empty
    · simp only [if_pos he, Prod.mk.injEq]
      refine ⟨fun h => ?_, fun h => ⟨covered, js, h, rfl, rfl⟩⟩
      obtain ⟨_, _, h, rfl, rfl⟩ := h
      exact h
    · simp only [if_neg he]
      refine ⟨fun h => ?_, fun h => ?_⟩
      · obtain ⟨c, js', ⟨rfl, hc, _⟩, hlt, hcount, rfl⟩ := h
        refine ⟨rfl, by rw [happend, hcount, hc], ?_⟩
        rw [List.length_append, List.length_singleton]
        omega
      · obtain ⟨rfl, hcount, hlen⟩ := h
        rw [happend] at hcount
        rw [List.length_append, List.length_singleton] at hlen
        obtain ⟨c, hc⟩ := Limbs.Number.exists_toNat (B := limbBase) (n := 4)
          (v := cellCount (jobsOf pairs)) (by have := covered.toNat_lt; omega)
        exact ⟨c, jobsOf pairs, ⟨rfl, hc, by omega⟩, by omega, by rw [hcount, hc], rfl⟩

/-! ## Acceptance -/

/-- The disjointness loop passes exactly when the patches are nonempty, meet no earlier patch
and do not meet one another. -/
lemma validateDisjointFrom_eq_ok {name : String} {earlier rest : List (Box d)} {u : Unit} :
    validateDisjointFrom name earlier rest = .ok u ↔
      (∀ b ∈ rest, ¬ b.Empty ∧ ∀ e ∈ earlier, (b.intersect e).Empty) ∧
        rest.Pairwise fun e b => (b.intersect e).Empty := by
  induction rest generalizing earlier with
  | nil => simp [validateDisjointFrom]
  | cons box rest ih =>
    simp only [validateDisjointFrom, bind_eq_ok, throwIf_eq_ok, exists_const, forEach_eq_ok,
      not_not, ih, List.pairwise_cons, List.forall_mem_cons, List.mem_append, List.mem_singleton]
    refine ⟨fun h => ?_, fun h => ?_⟩
    · obtain ⟨hne, hearlier, hrest, hpair⟩ := h
      exact ⟨⟨⟨hne, hearlier⟩, fun b hb =>
        ⟨(hrest b hb).1, fun e he => (hrest b hb).2 e (.inl he)⟩⟩,
        fun b hb => (hrest b hb).2 box (.inr rfl), hpair⟩
    · obtain ⟨⟨⟨hne, hearlier⟩, hrest⟩, hbox, hpair⟩ := h
      refine ⟨hne, hearlier, fun b hb => ⟨(hrest b hb).1, fun e he => ?_⟩, hpair⟩
      rcases he with he | rfl
      · exact (hrest b hb).2 e he
      · exact hbox b hb

/-- A checked product returns exactly when it fits `std::size_t`. -/
lemma checkedPairCount_eq_ok {left right n : ℕ} :
    checkedPairCount left right = .ok n ↔ left * right ≤ sizeMax ∧ n = left * right := by
  simp only [checkedPairCount, bind_eq_ok, throwIf_eq_ok, exists_const, pure_eq_ok, not_and,
    not_lt, eq_comm (a := n)]
  refine and_congr_left fun _ => ⟨fun h => ?_, fun h hleft => ?_⟩
  · rcases Nat.eq_zero_or_pos left with rfl | hpos
    · simp
    · have := (Nat.le_div_iff_mul_le hpos).mp (h hpos.ne')
      rwa [Nat.mul_comm]
  · exact (Nat.le_div_iff_mul_le (Nat.pos_of_ne_zero hleft)).mpr (by rwa [Nat.mul_comm])

/-- The number of pairs of a layout fits `std::size_t` and its budget. -/
def PairsWithin (size pairBudget : ℕ) : Prop :=
  size * (size - 1) ≤ sizeMax ∧ size * (size - 1) / 2 ≤ pairBudget

/-- The patches of a layout are nonempty and pairwise disjoint. -/
def DisjointLayout (layout : BoxArray d) : Prop :=
  (∀ b ∈ layout.boxes, ¬ b.Empty) ∧ layout.cellSets.Pairwise Disjoint

/-- The validation of one layout is its budget and disjointness. -/
lemma validateDisjoint_eq_ok {layout : BoxArray d} {pairBudget : ℕ} {name : String} {u : Unit} :
    validateDisjoint layout pairBudget name = .ok u ↔
      PairsWithin layout.boxes.length pairBudget ∧ DisjointLayout layout := by
  have hcount : ∀ n, overlapPairCount layout.boxes.length = .ok n ↔
      layout.boxes.length * (layout.boxes.length - 1) ≤ sizeMax ∧
        n = layout.boxes.length * (layout.boxes.length - 1) / 2 := by
    intro n
    unfold overlapPairCount
    by_cases hlt : layout.boxes.length < 2
    · have hzero : layout.boxes.length * (layout.boxes.length - 1) = 0 := by
        rw [Nat.mul_eq_zero]
        omega
      rw [if_pos hlt, pure_eq_ok, hzero]
      simp only [Nat.zero_le, true_and, Nat.zero_div]
      exact eq_comm
    · simp only [if_neg hlt, bind_eq_ok, checkedPairCount_eq_ok, pure_eq_ok]
      refine ⟨fun h => ?_, fun h => ⟨_, ⟨h.1, rfl⟩, h.2.symm⟩⟩
      obtain ⟨_, ⟨hle, rfl⟩, rfl⟩ := h
      exact ⟨hle, rfl⟩
  simp only [validateDisjoint, bind_eq_ok, hcount, throwIf_eq_ok, exists_const,
    validateDisjointFrom_eq_ok, List.not_mem_nil, IsEmpty.forall_iff, implies_true, and_true,
    BoxArray.pairwise_disjoint_iff, not_lt]
  refine ⟨fun h => ?_, fun h => ⟨_, ⟨h.1.1, rfl⟩, h.1.2, h.2⟩⟩
  obtain ⟨_, ⟨hle, rfl⟩, hbudget, hdis⟩ := h
  exact ⟨⟨hle, hbudget⟩, hdis⟩

/-- The distribution, process-space and budget checks of the constructor. -/
structure ChecksMet (D : BoxArray d) (DD : Distribution d) (S : BoxArray d) (SD : Distribution d)
    (rank : Index d) (budget : CopyScheduleBudget) : Prop where
  destinationLayout_eq : DD.layout = D
  sourceLayout_eq : SD.layout = S
  rankSpace_eq : DD.rankSpace = SD.rankSpace
  contains_rank : DD.rankSpace.Contains rank
  replicated_iff : DD.Replicated ↔ SD.Replicated
  destinationPairs : PairsWithin D.boxes.length budget.destinationOverlapPairs
  sourcePairs : PairsWithin S.boxes.length budget.sourceOverlapPairs
  boxPairs_le : D.boxes.length * S.boxes.length ≤ sizeMax ∧
    D.boxes.length * S.boxes.length ≤ budget.boxPairs
  jobs_le : (jobs D S).length ≤ budget.jobs

variable {DD SD : Distribution d} {rank : Index d} {budget : CopyScheduleBudget}

/-- The metadata checks, spelled out. -/
lemma validateMetadata_eq_ok :
    validateMetadata D DD S SD rank budget = .ok () ↔
      (DD.layout = D ∧ SD.layout = S) ∧ DD.rankSpace = SD.rankSpace ∧
        DD.rankSpace.Contains rank ∧ (DD.Replicated ↔ SD.Replicated) ∧
        (PairsWithin D.boxes.length budget.destinationOverlapPairs ∧ DisjointLayout D) ∧
        PairsWithin S.boxes.length budget.sourceOverlapPairs ∧ DisjointLayout S := by
  simp only [validateMetadata, bind_eq_ok, throwIf_eq_ok, exists_const, not_or, not_not, ne_eq,
    validateDisjoint_eq_ok]

/-- The schedule of a rank before any job is classified. -/
def start (D : BoxArray d) (DD : Distribution d) (S : BoxArray d) (SD : Distribution d)
    (rank : Index d) : CopySchedule d :=
  ⟨D, DD, S, SD, rank, [], [], []⟩

/-- The constructor before the classification: it passes exactly when the checks are met and the
layouts are disjoint covers of the same cells. -/
lemma create_eq_ok (hd : d ≤ 3) {schedule : CopySchedule d} :
    create D DD S SD rank budget = .ok schedule ↔
      (ChecksMet D DD S SD rank budget ∧ DisjointLayout D ∧ DisjointLayout S ∧
        D.cells = S.cells) ∧ (jobs D S).foldlM classify (start D DD S SD rank) = .ok schedule := by
  have hcells : DisjointLayout D → DisjointLayout S → (D.cells = S.cells ↔
      cellCount (jobs D S) = (D.boxes.map fun b => b.cells.card).sum ∧
        cellCount (jobs D S) = (S.boxes.map fun b => b.cells.card).sum) := by
    intro hD hS
    have := Cover.union_eq_iff_card hD.2 hS.2
    rw [← cellCount_jobs] at this
    simpa only [BoxArray.cells, BoxArray.cellSets, List.map_map, Function.comp_def] using this
  simp only [create, bind_eq_ok, throwIf_eq_ok, exists_const, not_not, ne_eq, not_lt,
    checkedPairCount_eq_ok, Prod.exists, collect_eq_ok, BoxArray.exactCellCount,
    ExactCellCount.sumBoxes_eq_ok]
  refine ⟨fun h => ?_, fun h => ?_⟩
  · obtain ⟨_, hmeta, _, ⟨hsize, rfl⟩, hpairs, covered, js, ⟨rfl, hcovered, hjobs⟩, dcount, hdcount,
      rfl, _, hscount, rfl, hclassify⟩ := h
    obtain ⟨⟨hDD, hSD⟩, hspace, hrank, hrep, ⟨hdp, hD⟩, hsp, hS⟩ := validateMetadata_eq_ok.mp hmeta
    exact ⟨⟨⟨hDD, hSD, hspace, hrank, hrep, hdp, hsp, ⟨hsize, hpairs⟩, hjobs⟩, hD, hS,
      (hcells hD hS).mpr ⟨hcovered.symm.trans hdcount, hcovered.symm.trans hscount⟩⟩, hclassify⟩
  · obtain ⟨⟨hmet, hD, hS, heq⟩, hclassify⟩ := h
    obtain ⟨hdcount, hscount⟩ := (hcells hD hS).mp heq
    have hlt : cellCount (jobs D S) < limbBase ^ 4 := by
      rw [hdcount]
      exact (BoxArray.sum_card_le hd hD.2).trans_lt (by decide)
    obtain ⟨covered, hcovered⟩ := Limbs.Number.exists_toNat hlt
    exact ⟨(), validateMetadata_eq_ok.mpr ⟨⟨hmet.destinationLayout_eq, hmet.sourceLayout_eq⟩,
      hmet.rankSpace_eq, hmet.contains_rank, hmet.replicated_iff, ⟨hmet.destinationPairs, hD⟩,
      hmet.sourcePairs, hS⟩, _, ⟨hmet.boxPairs_le.1, rfl⟩, hmet.boxPairs_le.2, covered, jobs D S,
      ⟨rfl, hcovered, hmet.jobs_le⟩, covered, hcovered.trans hdcount, rfl, covered,
      hcovered.trans hscount, rfl, hclassify⟩

/-! ## Classification -/

/-- The owner of the source patch of a job. -/
def sender (SD : Distribution d) (job : CopyJob d) : Index d := SD.ownerOf job.sourceBox

/-- The owner of the destination patch of a job. -/
def receiver (DD : Distribution d) (job : CopyJob d) : Index d := DD.ownerOf job.destinationBox

/-- What a rank of a partitioned pair of layouts stores after visiting some jobs. -/
structure Classified (DD SD : Distribution d) (rank : Index d) (visited : List (CopyJob d))
    (schedule : CopySchedule d) : Prop where
  destinationDistribution_eq : schedule.destinationDistribution = DD
  sourceDistribution_eq : schedule.sourceDistribution = SD
  localRank_eq : schedule.localRank = rank
  sorted : Routing.Sorted (sender SD) (receiver DD) peerPlan rank visited schedule.localJobs
    schedule.send schedule.receive

/-- The classification of a job of a partitioned pair of layouts: it does not throw, and the
owners of the two patches decide the branch. -/
lemma classify_partitioned {schedule : CopySchedule d} {job : CopyJob d}
    (hDD : ¬ schedule.destinationDistribution.Replicated)
    (hSD : ¬ schedule.sourceDistribution.Replicated)
    (hspace : schedule.destinationDistribution.rankSpace = schedule.sourceDistribution.rankSpace)
    (hrank : schedule.destinationDistribution.rankSpace.Contains schedule.localRank)
    (hd : job.destinationBox < schedule.destinationDistribution.layout.boxes.length)
    (hs : job.sourceBox < schedule.sourceDistribution.layout.boxes.length) :
    schedule.classify job = .ok
      (if sender schedule.sourceDistribution job = schedule.localRank then
        if receiver schedule.destinationDistribution job = schedule.localRank then
          { schedule with localJobs := schedule.localJobs ++ [job] }
        else
          { schedule with
            send := peerPlan.append schedule.send
              (receiver schedule.destinationDistribution job) job }
      else if receiver schedule.destinationDistribution job = schedule.localRank then
        { schedule with
          receive := peerPlan.append schedule.receive
            (sender schedule.sourceDistribution job) job }
      else schedule) := by
  have hsource := Distribution.isLocal_partitioned hSD hs (hspace ▸ hrank)
  have hdestination := Distribution.isLocal_partitioned hDD hd hrank
  unfold classify sender receiver
  rw [hsource, hdestination, Distribution.owner_partitioned hSD hs,
    Distribution.owner_partitioned hDD hd, throwIf_neg hSD]
  simp only [ok_bind]
  by_cases h1 : schedule.sourceDistribution.ownerOf job.sourceBox = schedule.localRank
  · by_cases h2 : schedule.destinationDistribution.ownerOf job.destinationBox = schedule.localRank
    · simp only [h1, h2, decide_true, Bool.and_self, if_true]
      rfl
    · simp only [h1, h2, decide_true, decide_false, Bool.and_false, Bool.false_eq_true, if_false,
        if_true]
      rfl
  · by_cases h2 : schedule.destinationDistribution.ownerOf job.destinationBox = schedule.localRank
    · simp only [h1, h2, decide_true, decide_false, Bool.false_and, Bool.false_eq_true, if_false,
        if_true]
      rfl
    · simp only [h1, h2, decide_false, Bool.and_self, Bool.false_eq_true, if_false]
      rfl

/-- Classifying one more job of a partitioned pair of layouts: the branches are the cases of the
two owners against the rank. -/
theorem Classified.step {visited : List (CopyJob d)} {schedule : CopySchedule d} {job : CopyJob d}
    (hinv : Classified DD SD rank visited schedule) (hDD : ¬ DD.Replicated)
    (hSD : ¬ SD.Replicated) (hspace : DD.rankSpace = SD.rankSpace)
    (hrank : DD.rankSpace.Contains rank) (hd : job.destinationBox < DD.layout.boxes.length)
    (hs : job.sourceBox < SD.layout.boxes.length) :
    ∃ schedule', schedule.classify job = .ok schedule' ∧
      Classified DD SD rank (visited ++ [job]) schedule' := by
  obtain ⟨rfl, rfl, rfl, hsorted⟩ := hinv
  refine ⟨_, classify_partitioned hDD hSD hspace hrank hd hs, ?_⟩
  by_cases h1 : sender schedule.sourceDistribution job = schedule.localRank
  · by_cases h2 : receiver schedule.destinationDistribution job = schedule.localRank
    · rw [if_pos h1, if_pos h2]
      exact ⟨rfl, rfl, rfl, hsorted.keep h1 h2⟩
    · rw [if_pos h1, if_neg h2]
      exact ⟨rfl, rfl, rfl, hsorted.sent h1 h2⟩
  · by_cases h2 : receiver schedule.destinationDistribution job = schedule.localRank
    · rw [if_neg h1, if_pos h2]
      exact ⟨rfl, rfl, rfl, hsorted.received h1 h2⟩
    · rw [if_neg h1, if_neg h2]
      exact ⟨rfl, rfl, rfl, hsorted.ignored h1 h2⟩

/-- The patches of a job exist. -/
lemma index_lt_of_mem_jobs {job : CopyJob d} (h : job ∈ jobs D S) :
    job.destinationBox < D.boxes.length ∧ job.sourceBox < S.boxes.length := by
  obtain ⟨_, _, ht, hs, _⟩ := mem_jobs.mp h
  obtain ⟨hn, _⟩ := List.getElem?_eq_some_iff.mp ht
  obtain ⟨hm, _⟩ := List.getElem?_eq_some_iff.mp hs
  exact ⟨hn, hm⟩

/-- On a partitioned pair of layouts the classification loop runs to its end and sorts every
job by the owners of its patches. -/
lemma classify_all (hmet : ChecksMet D DD S SD rank budget) (hDD : ¬ DD.Replicated) :
    ∃ schedule, (jobs D S).foldlM classify (start D DD S SD rank) = .ok schedule ∧
      Classified DD SD rank (jobs D S) schedule := by
  have hSD : ¬ SD.Replicated := fun h => hDD (hmet.replicated_iff.mpr h)
  refine foldlM_total (P := Classified DD SD rank) ⟨rfl, rfl, rfl, Routing.Sorted.nil⟩ ?_
  intro done job rest schedule heq hinv
  have hjob : job ∈ jobs D S := by rw [heq]; simp
  obtain ⟨hd, hs⟩ := index_lt_of_mem_jobs hjob
  refine hinv.step hDD hSD hmet.rankSpace_eq hmet.contains_rank ?_ ?_
  · rwa [hmet.destinationLayout_eq]
  · rwa [hmet.sourceLayout_eq]

/-- On a replicated pair of layouts every job is local, so the loop runs to its end. -/
lemma classify_all_replicated (hmet : ChecksMet D DD S SD rank budget) (hDD : DD.Replicated) :
    ∃ schedule, (jobs D S).foldlM classify (start D DD S SD rank) = .ok schedule := by
  have hSD : SD.Replicated := hmet.replicated_iff.mp hDD
  have hrank' : SD.rankSpace.Contains rank := hmet.rankSpace_eq ▸ hmet.contains_rank
  obtain ⟨schedule, h, _⟩ := foldlM_total (l := jobs D S) (f := classify)
    (s := start D DD S SD rank)
    (P := fun _ schedule => schedule.destinationDistribution = DD ∧
      schedule.sourceDistribution = SD ∧ schedule.localRank = rank) ⟨rfl, rfl, rfl⟩ (by
    intro done job rest schedule heq hinv
    have hjob : job ∈ jobs D S := by rw [heq]; simp
    obtain ⟨hd, hs⟩ := index_lt_of_mem_jobs hjob
    obtain ⟨rfl, rfl, rfl⟩ := hinv
    have hsource := Distribution.isLocal_replicated hSD (hmet.sourceLayout_eq ▸ hs) hrank'
    have hdestination := Distribution.isLocal_replicated hDD (hmet.destinationLayout_eq ▸ hd)
      hmet.contains_rank
    refine ⟨{ schedule with localJobs := schedule.localJobs ++ [job] }, ?_, rfl, rfl, rfl⟩
    unfold classify
    rw [hsource, hdestination]
    rfl)
  exact ⟨schedule, h⟩

/-- **Acceptance.**  With the distribution, process-space and budget checks met, the constructor
returns exactly when both layouts are disjoint and cover the same cells. -/
theorem create_returns_iff (hd : d ≤ 3) (hmet : ChecksMet D DD S SD rank budget) :
    Returns (create D DD S SD rank budget) ↔
      DisjointLayout D ∧ DisjointLayout S ∧ D.cells = S.cells := by
  simp only [Returns, create_eq_ok hd]
  refine ⟨fun h => ?_, fun h => ?_⟩
  · obtain ⟨_, ⟨_, hrest⟩, _⟩ := h
    exact hrest
  · by_cases hDD : DD.Replicated
    · obtain ⟨schedule, hs⟩ := classify_all_replicated hmet hDD
      exact ⟨schedule, ⟨hmet, h⟩, hs⟩
    · obtain ⟨schedule, hs, _⟩ := classify_all hmet hDD
      exact ⟨schedule, ⟨hmet, h⟩, hs⟩

/-- What a rank of a partitioned pair of layouts stores. -/
theorem create_spec (hd : d ≤ 3) {schedule : CopySchedule d} (hDD : ¬ DD.Replicated)
    (h : create D DD S SD rank budget = .ok schedule) :
    Classified DD SD rank (jobs D S) schedule := by
  obtain ⟨⟨hmet, _⟩, hloop⟩ := (create_eq_ok hd).mp h
  obtain ⟨schedule', hloop', hspec⟩ := classify_all hmet hDD
  rw [hloop] at hloop'
  exact Except.ok.inj hloop' ▸ hspec

/-! ## All ranks -/

/-- The job occurs on some rank of the process space. -/
def Scheduled (space : RankSpace d) (schedules : Index d → CopySchedule d) (job : CopyJob d) :
    Prop :=
  ∃ r, space.Contains r ∧ (job ∈ (schedules r).localJobs ∨
    (∃ p ∈ (schedules r).send, job ∈ p.jobs) ∨ ∃ q ∈ (schedules r).receive, job ∈ q.jobs)

/-- Over all ranks the job is local on exactly one rank, or occurs once in the send plan of the
source owner and once, at the same position, in the receive plan of the destination owner. -/
def RoutedOnce (DD SD : Distribution d) (schedules : Index d → CopySchedule d)
    (job : CopyJob d) : Prop :=
  Routing.LocalOnce DD.rankSpace.Contains (fun r => (schedules r).localJobs)
      (fun r => (schedules r).send) (fun r => (schedules r).receive) CopyPeerPlan.jobs job ∨
    Routing.SentOnce DD.rankSpace.Contains (fun r => (schedules r).localJobs)
      (fun r => (schedules r).send) (fun r => (schedules r).receive) CopyPeerPlan.jobs
      CopyPeerPlan.peer (SD.ownerOf job.sourceBox) (DD.ownerOf job.destinationBox) job

/-- The jobs of a plan are the jobs it took up. -/
@[simp] lemma jobs_build (peer : Index d) (js : List (CopyJob d)) :
    (peerPlan.build peer js).jobs = js := by
  induction js using List.reverseRecOn with
  | nil => rfl
  | append_singleton js job ih =>
    rw [Grouping.Collector.build_append_singleton]
    exact congrArg (· ++ [job]) ih

section AllRanks

variable {budgets : Index d → CopyScheduleBudget} {schedules : Index d → CopySchedule d}
  {job : CopyJob d}

/-- The owners of the patches of a job are ranks of the common process space. -/
lemma contains_owners (hmet : ChecksMet D DD S SD rank budget) (hDD : ¬ DD.Replicated)
    (hjob : job ∈ jobs D S) :
    DD.rankSpace.Contains (sender SD job) ∧ DD.rankSpace.Contains (receiver DD job) := by
  obtain ⟨hdst, hsrc⟩ := index_lt_of_mem_jobs hjob
  have hSD : ¬ SD.Replicated := fun h => hDD (hmet.replicated_iff.mpr h)
  refine ⟨?_, Distribution.contains_ownerOf hDD (hmet.destinationLayout_eq ▸ hdst)⟩
  rw [hmet.rankSpace_eq]
  exact Distribution.contains_ownerOf hSD (hmet.sourceLayout_eq ▸ hsrc)

/-- Only jobs of the common list are scheduled. -/
lemma mem_jobs_of_scheduled (hd : d ≤ 3) (hDD : ¬ DD.Replicated)
    (h : ∀ r, DD.rankSpace.Contains r → create D DD S SD r (budgets r) = .ok (schedules r))
    (hjob : Scheduled DD.rankSpace schedules job) : job ∈ jobs D S := by
  obtain ⟨r, hr, hjob⟩ := hjob
  have hsorted := (create_spec hd hDD (h r hr)).sorted
  rcases hjob with hjob | ⟨p, hp, hjob⟩ | ⟨q, hq, hjob⟩
  · rw [hsorted.kept_eq] at hjob
    exact List.mem_of_mem_filter hjob
  · obtain ⟨_, _, _, rfl⟩ := hsorted.mem_send.mp hp
    rw [jobs_build] at hjob
    exact List.mem_of_mem_filter hjob
  · obtain ⟨_, _, _, rfl⟩ := hsorted.mem_receive.mp hq
    rw [jobs_build] at hjob
    exact List.mem_of_mem_filter hjob

/-- A job that is routed once is scheduled. -/
lemma RoutedOnce.scheduled (h : RoutedOnce DD SD schedules job)
    (hsource : DD.rankSpace.Contains (sender SD job)) : Scheduled DD.rankSpace schedules job := by
  have hmem : ∀ js : List (CopyJob d), js.count job = 1 → job ∈ js :=
    fun js hcount => List.count_pos_iff.mp (by rw [hcount]; exact Nat.one_pos)
  rcases h with h | h
  · obtain ⟨r, hr, hcount, _⟩ := h
    exact ⟨r, hr, .inl (hmem _ hcount)⟩
  · obtain ⟨p, hp, _, _, _, _, hcount, _⟩ := h
    exact ⟨sender SD job, hsource, .inr (.inl ⟨p, hp, hmem _ hcount⟩)⟩

end AllRanks

end CopySchedule

open CopySchedule in
/-- **A copy schedule copies every cell exactly once.**  With the other checks met, the
constructor returns exactly when both layouts are disjoint and cover the same cells.  When it
returns on every rank of a partitioned pair of layouts, every covered cell lies in the region of
exactly one scheduled job, and that job is routed once.

**Proof sketch.** Acceptance compares the counts of the three cell sets
(`Cover.union_eq_iff_card`).  A covered cell lies in one destination patch and one source patch,
so in one job, and all ranks classify the same list of jobs (`Routing.sorted_once`). -/
theorem copySchedule_covers_and_routes {d : ℕ} (hd : d ≤ 3) :
    (∀ (D : BoxArray d) (DD : Distribution d) (S : BoxArray d) (SD : Distribution d)
      (rank : Index d) (budget : CopyScheduleBudget), ChecksMet D DD S SD rank budget →
        (Returns (create D DD S SD rank budget) ↔
          DisjointLayout D ∧ DisjointLayout S ∧ D.cells = S.cells)) ∧
    (∀ (D : BoxArray d) (DD : Distribution d) (S : BoxArray d) (SD : Distribution d)
      (budgets : Index d → CopyScheduleBudget) (schedules : Index d → CopySchedule d),
      ¬ DD.Replicated → (∃ r, DD.rankSpace.Contains r) →
      (∀ r, DD.rankSpace.Contains r → create D DD S SD r (budgets r) = .ok (schedules r)) →
        ∀ x ∈ D.cells, ∃ job, RoutedOnce DD SD schedules job ∧
          ∀ job', Scheduled DD.rankSpace schedules job' ∧ x ∈ job'.region.cells ↔ job' = job) := by
  refine ⟨fun D DD S SD rank budget hmet => create_returns_iff hd hmet, ?_⟩
  intro D DD S SD budgets schedules hDD hranks h x hx
  obtain ⟨r, hr⟩ := hranks
  obtain ⟨⟨hmet, hD, hS, hcells⟩, _⟩ := (create_eq_ok hd).mp (h r hr)
  obtain ⟨job, ⟨hjob, hxjob⟩, hunique⟩ := existsUnique_job hD.2 hS.2 hx (hcells ▸ hx)
  obtain ⟨hsender, hreceiver⟩ := contains_owners hmet hDD hjob
  have hrouted : RoutedOnce DD SD schedules job :=
    Routing.sorted_once nodup_jobs (fun peer jobs _ => jobs_build peer jobs)
      (fun r' hr' => (create_spec hd hDD (h r' hr')).sorted) hjob hsender hreceiver
  refine ⟨job, hrouted, fun job' => ⟨fun hjob' => ?_, fun heq => ?_⟩⟩
  · exact hunique job' ⟨mem_jobs_of_scheduled hd hDD h hjob'.1, hjob'.2⟩
  · subst heq
    exact ⟨hrouted.scheduled hsender, hxjob⟩

open CopySchedule in
/-- The checks of the copy from the single patch `[0, 3]` to the patches `[0, 1]` and `[2, 3]`
are met on both ranks. -/
lemma copySchedule_line_checks (r : Index 1) (hr : RankSpace.line.Contains r) :
    ChecksMet BoxArray.line Distribution.line Distribution.wholeLine.layout
      Distribution.wholeLine r ⟨2, 2, 1, 0⟩ where
  destinationLayout_eq := rfl
  sourceLayout_eq := rfl
  rankSpace_eq := rfl
  contains_rank := hr
  replicated_iff := by decide
  destinationPairs := ⟨by decide, by decide⟩
  sourcePairs := ⟨by decide, by decide⟩
  boxPairs_le := ⟨by decide, by decide⟩
  jobs_le := by decide +kernel

open CopySchedule in
/-- The copy from `[0, 3]` to `[0, 1]` and `[2, 3]` is accepted on both ranks, and the cell `1`
is copied by exactly one job. -/
theorem copySchedule_line :
    ∃ schedules : Index 1 → CopySchedule 1,
      (∀ r, RankSpace.line.Contains r → create BoxArray.line Distribution.line
        Distribution.wholeLine.layout Distribution.wholeLine r ⟨2, 2, 1, 0⟩ = .ok (schedules r)) ∧
      ∃ job, RoutedOnce Distribution.line Distribution.wholeLine schedules job ∧
        ∀ job', Scheduled RankSpace.line schedules job' ∧ (fun _ => 1) ∈ job'.region.cells ↔
          job' = job := by
  have h := copySchedule_covers_and_routes (d := 1) (by norm_num)
  have hlayouts : DisjointLayout BoxArray.line ∧ DisjointLayout Distribution.wholeLine.layout ∧
      BoxArray.line.cells = Distribution.wholeLine.layout.cells := by
    refine ⟨⟨by decide, ?_⟩, ⟨by decide, ?_⟩, by decide +kernel⟩
    · exact BoxArray.pairwise_disjoint_iff.mp (by decide)
    · exact BoxArray.pairwise_disjoint_iff.mp (by decide)
  have hreturns := fun r hr =>
    (h.1 _ _ _ _ r ⟨2, 2, 1, 0⟩ (copySchedule_line_checks r hr)).mpr hlayouts
  have : Nonempty (CopySchedule 1) := ⟨start .line .line .line .line fun _ => 0⟩
  choose! schedules hschedules using hreturns
  refine ⟨schedules, hschedules, h.2 _ Distribution.line _ Distribution.wholeLine
    (fun _ => ⟨2, 2, 1, 0⟩) schedules (by decide) ⟨fun _ => 0, by decide⟩ hschedules _ ?_⟩
  decide +kernel

end Pops
