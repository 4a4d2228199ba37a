import Pops.Amr.Tagging.ClusterCorrectness
import Pops.Foundation.ThrowsOnly

/-!
# The errors of the clustering

What the clustering throws.  Its two internal errors are never thrown, and the budget of nodes is
exceeded only when it is smaller than a bound that depends on the number of tagged cells and on the
dimension, not on the extent of the domain.

## Main definitions

* `Pops.nodeError` — the error of the budget of nodes.
* `Pops.External` — neither an internal error nor the error of the budget of nodes.

## Main results

* `Pops.clusterStep_cost` — every split leaves tagged cells to two children, which bounds the nodes.
* `Pops.cluster_errors` — what the clustering throws.
-/

namespace Pops

open DivideAndConquer (Step run runAll together_of_runAll together_nodes_le nodes_le nodeBound
  sum_nodeBound_le)

variable {d : ℕ}

/-- The error of the budget of nodes. -/
def nodeError : Exception := lengthError "Berger-Rigoutsos exceeds its recursion-node budget"

/-- The exception is neither an internal error nor the error of the budget of nodes. -/
def External (e : Exception) : Prop := e.kind ≠ .logicError ∧ e ≠ nodeError

instance : DecidablePred External := fun _ => inferInstanceAs (Decidable (_ ∧ _))

/-- An exception that is neither an internal nor a length error is external. -/
lemma external_of_kind {kind : ExceptionKind} {text : String} (hlogic : kind ≠ .logicError)
    (hlength : kind ≠ .lengthError) : External ⟨kind, text⟩ :=
  ⟨hlogic, fun h => hlength (congrArg Exception.kind h)⟩

/-- An invalid argument is external. -/
@[simp]
lemma external_invalidArgument (text : String) : External (invalidArgument text) :=
  external_of_kind (by decide) (by decide)

/-- An index out of range is external. -/
@[simp]
lemma external_outOfRange (text : String) : External (outOfRange text) :=
  external_of_kind (by decide) (by decide)

/-- An overflow is external. -/
@[simp]
lemma external_overflowError (text : String) : External (overflowError text) :=
  external_of_kind (by decide) (by decide)

/-- A length error is external when its text is not that of the budget of nodes. -/
@[simp]
lemma external_lengthError {text : String} :
    External (lengthError text) ↔ text ≠ "Berger-Rigoutsos exceeds its recursion-node budget" := by
  simp [External, nodeError, lengthError]

/-! ## Counting -/

/-- Counting the points of a box. -/
lemma numPts_throws (b : Box d) : ThrowsOnly External b.numPts := by
  unfold Box.numPts
  split_ifs
  · exact throwsOnly_pure _
  · exact throwsOnly_foldlM (fun _ _ _ =>
      throwsOnly_bind (throwsOnly_throwIf (by simp)) fun _ _ => throwsOnly_pure _) _

/-- Counting the cells of a region in the parent patches. -/
lemma accountCells_throws (mask : TagUnion d) (region : Box d) (work : ClusterWork) :
    ThrowsOnly External (mask.accountCells region work) :=
  throwsOnly_foldlM (fun _ _ _ => throwsOnly_bind (numPts_throws _) fun _ _ =>
    throwsOnly_bind (throwsOnly_throwIf (by simp)) fun _ _ => throwsOnly_pure _) _

/-- A step of the multiplication of an exact count. -/
lemma addProductIf_throws (count : ExactCellCount) (offset left right : ℕ) :
    ThrowsOnly External (count.addProductIf offset left right) := by
  have haddWord : ∀ (c : ExactCellCount) o w, ThrowsOnly External (c.addWord o w) := by
    intro c o w
    unfold ExactCellCount.addWord
    split
    · exact throwsOnly_pure _
    · exact throwsOnly_throw (by simp)
  unfold ExactCellCount.addProductIf
  split_ifs
  · exact throwsOnly_bind (haddWord _ _ _) fun _ _ => haddWord _ _ _
  · exact throwsOnly_pure _

/-- Counting the cells of a box. -/
lemma fromBox_throws (box : Box d) : ThrowsOnly External (ExactCellCount.fromBox box) := by
  have hloop : ∀ (low high : ℕ) (limbs : List ℕ) (limb : ℕ) (result : ExactCellCount),
      ThrowsOnly External (ExactCellCount.multiplyLoop low high limbs limb result) := by
    intro low high limbs
    induction limbs with
    | nil => exact fun _ _ => throwsOnly_pure _
    | cons l rest ih =>
      exact fun _ _ => throwsOnly_bind (addProductIf_throws _ _ _ _) fun _ _ =>
        throwsOnly_bind (addProductIf_throws _ _ _ _) fun _ _ => ih _ _
  unfold ExactCellCount.fromBox
  split_ifs
  · exact throwsOnly_pure _
  · exact throwsOnly_foldlM (fun _ _ _ => hloop _ _ _ _ _) _

/-- The loop over the pieces of the padding. -/
lemma coversAll_throws (patches : List (Box d)) (required : List (Box d)) :
    ThrowsOnly External (coversAll patches required) := by
  induction required with
  | nil => exact throwsOnly_pure _
  | cons q rest ih =>
    refine throwsOnly_bind (throwsOnly_foldlM (fun total box _ => ?_) _) fun _ _ =>
      throwsOnly_bind (fromBox_throws q) fun _ _ => ?_
    · refine throwsOnly_bind (fromBox_throws box) fun count _ => ?_
      unfold ExactCellCount.addChecked
      exact throwsOnly_bind (throwsOnly_throwIf (by simp)) fun _ _ => throwsOnly_pure _
    · split_ifs
      · exact throwsOnly_pure _
      · exact ih

/-- The nesting test. -/
lemma nestingCovered_throws (region : Box d) (source : LevelLayoutIdentity d)
    (options : ClusterOptions d) (work : ClusterWork) :
    ThrowsOnly External (nestingCovered region source options work) :=
  throwsOnly_bind (throwsOnly_bind (throwsOnly_throwIf (by simp)) fun _ _ =>
    throwsOnly_pure _) fun _ _ =>
    throwsOnly_bind (throwsOnly_bind (throwsOnly_throwIf (by simp)) fun _ _ =>
      throwsOnly_pure _) fun _ _ =>
      throwsOnly_bind (coversAll_throws _ _) fun _ _ => throwsOnly_pure _

/-- A scan of held shards. -/
lemma scan_throws {mask : TagUnion d} {T : Finset (Index d)} (hmask : mask.Holds T)
    {region : Box d} (hregion : region.IsInt) (work : ClusterWork) :
    ThrowsOnly External (scan mask region work) := by
  obtain ⟨visits, hvisits, -, -⟩ := hmask region hregion
  exact throwsOnly_bind (accountCells_throws _ _ _) fun _ _ =>
    throwsOnly_bind (throwsOnly_of_returns ⟨visits, hvisits⟩) fun _ _ => throwsOnly_pure _

/-- The signatures of held shards. -/
lemma signatures_throws {mask : TagUnion d} {T : Finset (Index d)} (hmask : mask.Holds T)
    {region : Box d} (hregion : region.IsInt) (work : ClusterWork) :
    ThrowsOnly External (signatures mask region work) := by
  obtain ⟨visits, hvisits, -, -⟩ := hmask region hregion
  exact throwsOnly_bind (accountCells_throws _ _ _) fun _ _ =>
    throwsOnly_bind (throwsOnly_forEachAxis fun _ =>
      throwsOnly_bind (throwsOnly_throwIf (by simp)) fun _ _ => throwsOnly_pure _) fun _ _ =>
      throwsOnly_bind (throwsOnly_of_returns ⟨visits, hvisits⟩) fun _ _ => throwsOnly_pure _

/-! ## The cost of a candidate -/

section Recursion

variable [NeZero d]

/-- What a candidate costs: one node, and a family of children for every tagged cell but one. -/
def clusterCost (T : Finset (Index d)) (candidate : Box d) : ℕ :=
  nodeBound (2 ^ d) (T ∩ candidate.cells).card

omit [NeZero d] in
/-- A candidate costs at least one node. -/
lemma one_le_clusterCost (T : Finset (Index d)) (candidate : Box d) :
    1 ≤ clusterCost T candidate :=
  Nat.le_add_right _ _

omit [NeZero d] in
/-- The tagged cells of boxes that divide a region are tagged cells of the region. -/
lemma sum_card_inter_le {T : Finset (Index d)} {region : Box d} {children : List (Box d)}
    (h : Divides region children) :
    (children.map fun c => (T ∩ c.cells).card).sum ≤ (T ∩ region.cells).card := by
  have hpairs : (children.map fun c => T ∩ c.cells).Pairwise Disjoint :=
    List.pairwise_map.mpr (h.disjoint.imp fun hbc =>
      hbc.mono Finset.inter_subset_right Finset.inter_subset_right)
  have hunion : Cover.union (children.map fun c => T ∩ c.cells) ⊆ T ∩ region.cells := by
    intro i hi
    obtain ⟨t, ht, hit⟩ := Cover.mem_union.mp hi
    obtain ⟨c, hc, rfl⟩ := List.mem_map.mp ht
    exact Finset.inter_subset_inter_left (h.subset hc).2 hit
  calc (children.map fun c => (T ∩ c.cells).card).sum
      = ((children.map fun c => T ∩ c.cells).map Finset.card).sum := by
        rw [List.map_map]
        rfl
    _ = (Cover.union (children.map fun c => T ∩ c.cells)).card := (Cover.card_union hpairs).symm
    _ ≤ (T ∩ region.cells).card := Finset.card_le_card hunion

omit [NeZero d] in
/-- Boxes that divide a bounding box on both sides of a cut leave tagged cells to two of them. -/
lemma two_le_countP {T : Finset (Index d)} {candidate region : Box d} {children : List (Box d)}
    (h : Split T candidate children region) :
    2 ≤ children.countP fun c => 0 < (T ∩ c.cells).card := by
  obtain ⟨axis, cut, hlo, hhi, hsides⟩ := h.separated
  obtain ⟨⟨i, hi, hilo⟩, ⟨j, hj, hjhi⟩⟩ := h.tight.2 axis
  obtain ⟨b, hb, hib⟩ := h.divides.cover i (h.tight.1 i hi)
  obtain ⟨c, hc, hjc⟩ := h.divides.cover j (h.tight.1 j hj)
  -- the lowest and the highest tagged cell are on different sides of the cut
  have hbc : b ≠ c := by
    rintro rfl
    have := Box.mem_cells.mp hib axis
    have := Box.mem_cells.mp hjc axis
    rcases hsides b hb with hside | hside <;> omega
  have hweight : ∀ {x : Index d} {e : Box d}, x ∈ T ∩ candidate.cells → x ∈ e.cells →
      0 < (T ∩ e.cells).card := fun hx hxe =>
    Finset.card_pos.mpr ⟨_, Finset.mem_inter.mpr ⟨(Finset.mem_inter.mp hx).1, hxe⟩⟩
  have hsub : ({b, c} : Finset (Box d)) ⊆
      (children.filter fun c => 0 < (T ∩ c.cells).card).toFinset := by
    intro e he
    rw [List.mem_toFinset, List.mem_filter, decide_eq_true_eq]
    rcases Finset.mem_insert.mp he with rfl | he
    · exact ⟨hb, hweight hi hib⟩
    · obtain rfl := Finset.mem_singleton.mp he
      exact ⟨hc, hweight hj hjc⟩
  rw [List.countP_eq_length_filter, ← Finset.card_pair hbc]
  exact (Finset.card_le_card hsub).trans (List.toFinset_card_le _)

/-- **Every split costs one more than its children.** -/
theorem clusterStep_cost {rnd : ℚ → ℚ} {options : ClusterOptions d} {domain : Box d}
    {P T : Finset (Index d)} (hdomain : domain.IsInt) (htagged : T ⊆ domain.cells)
    (candidate : Box d) (children : List (Box d))
    (h : clusterStep rnd options domain P T candidate = .split children) :
    1 + (children.map (clusterCost T)).sum ≤ clusterCost T candidate := by
  obtain ⟨region, hsplit⟩ := clusterStep_split hdomain htagged h
  obtain ⟨-, -, -, -, hsame⟩ := tight_inside hdomain htagged hsplit.tagged hsplit.tight
  exact sum_nodeBound_le hsplit.length (hsame ▸ sum_card_inter_le hsplit.divides)
    (two_le_countP hsplit)

/-! ## The errors of the recursion -/

/-- What a node throws: the error of the budget of nodes when the budget is used up, or an external
error.  The selected cuts always split, so the internal errors are not thrown. -/
lemma clusterNode_throws {rnd : ℚ → ℚ} {mask : TagUnion d} {options : ClusterOptions d}
    {T : Finset (Index d)} (setting : Setting mask options T) (hmin : ∀ a, 0 < options.minBoxSize a)
    {candidate : Box d} (hcandidate : candidate.IsInt) (work : ClusterWork) :
    ThrowsOnly (fun e => External e ∨ e = nodeError ∧ work.nodes = work.allowed.recursionNodes)
      (clusterNode rnd mask options candidate work) := by
  have hexternal : ∀ {α : Type} {x : Throws α}, ThrowsOnly External x →
      ThrowsOnly (fun e => External e ∨ e = nodeError ∧
        work.nodes = work.allowed.recursionNodes) x :=
    fun hx => hx.mono fun _ => .inl
  refine throwsOnly_bind (fun e he => ?_) fun visited _ => hexternal ?_
  · -- a node is counted first
    by_cases hfull : work.nodes = work.allowed.recursionNodes
    · simp only [ClusterWork.visitNode, throwIf, if_pos hfull] at he
      cases he
      exact .inr ⟨rfl, hfull⟩
    · simp only [ClusterWork.visitNode, throwIf, if_neg hfull] at he
      cases he
  refine throwsOnly_bind (scan_throws setting.holds hcandidate _) fun found hscan => ?_
  obtain ⟨found, scanned⟩ := found
  obtain ⟨hcount, htight, -, -⟩ := scan_spec setting.holds hcandidate hscan
  simp only
  split_ifs with hzero
  · exact throwsOnly_pure _
  have hne : (T ∩ candidate.cells).Nonempty := Finset.card_pos.mp (by omega)
  obtain ⟨hempty, hint, -, -, -⟩ := tight_inside setting.isInt setting.tagged hne (htight hne)
  refine throwsOnly_bind (nestingCovered_throws _ _ _ _) fun covered _ => ?_
  split_ifs
  · exact throwsOnly_pure _
  refine throwsOnly_bind (numPts_throws _) fun points _ => ?_
  split_ifs with haccepted
  · exact throwsOnly_pure _
  refine throwsOnly_bind (signatures_throws setting.holds hint _) fun counts hcounts => ?_
  obtain ⟨hsignatures, hlength, -, -⟩ := signatures_spec setting.holds hint hcounts
  refine throwsOnly_bind (throwsOnly_of_returns ?_) fun _ _ => throwsOnly_pure _
  have hsplittable : ∃ axis, Splittable options found.bounds axis := by
    unfold Accepted at haccepted
    exact not_not.mp (not_or.mp haccepted).2
  refine splitChildren_returns (selectCuts_ne_nil hmin hsplittable)
    (selectCuts_strict hmin hlength fun a => ?_)
  have := Box.length_pos hempty a
  simp only [hsignatures, planeCounts, List.length_map, List.length_range]
  omega

/-- A node never returns a failing step. -/
lemma clusterNode_ne_fail {rnd : ℚ → ℚ} {mask : TagUnion d} {options : ClusterOptions d}
    {candidate : Box d} {work after : ClusterWork} {step : Step (Box d) (Box d)}
    (h : clusterNode rnd mask options candidate work = .ok (step, after)) : step ≠ .fail := by
  have hhalve : ∀ region : Box d, halve region ≠ .fail := fun region => by
    unfold halve
    simp only
    split_ifs <;> simp
  simp only [clusterNode, bind_eq_ok] at h
  obtain ⟨_, -, found, -, h⟩ := h
  split_ifs at h
  · obtain ⟨rfl, -⟩ := Prod.mk.inj (pure_eq_ok.mp h)
    simp
  · obtain ⟨covered, -, h⟩ := bind_eq_ok.mp h
    split_ifs at h
    · obtain ⟨rfl, -⟩ := Prod.mk.inj (pure_eq_ok.mp h)
      exact hhalve _
    · obtain ⟨points, -, h⟩ := bind_eq_ok.mp h
      split_ifs at h
      · obtain ⟨rfl, -⟩ := Prod.mk.inj (pure_eq_ok.mp h)
        simp
      · simp only [bind_eq_ok, pure_eq_ok, Prod.mk.injEq] at h
        obtain ⟨_, -, _, -, rfl, -⟩ := h
        simp

/-- **What the recursion throws**: an external error, or the error of the budget of nodes when the
budget is less than the cost of the candidate.

**Proof sketch.** Induction on the depth, which the budget bounds.  A loop over children that throws
has visited the children in front, within their costs, and throws in one child; a split costs one
more than its children (`clusterStep_cost`). -/
theorem clusterRec_throws {rnd : ℚ → ℚ} {mask : TagUnion d} {options : ClusterOptions d}
    {T : Finset (Index d)} (setting : Setting mask options T) (hmin : ∀ a, 0 < options.minBoxSize a)
    {depth : ℕ} : ∀ {candidate : Box d} {before : ClusterWork × List (Box d)}, candidate.IsInt →
      before.1.allowed = options.budget → options.budget.recursionNodes ≤ before.1.nodes + depth →
      ThrowsOnly (fun e => External e ∨
        e = nodeError ∧ options.budget.recursionNodes < before.1.nodes + clusterCost T candidate)
        (clusterRec rnd mask options depth before candidate) := by
  induction depth with
  | zero =>
    intro candidate before _ _ hdepth
    have := one_le_clusterCost T candidate
    exact throwsOnly_throw (.inr ⟨rfl, by omega⟩)
  | succ depth ih =>
    intro candidate before hcandidate hallowed hdepth
    obtain ⟨work, output⟩ := before
    simp only at hallowed hdepth ⊢
    have hone := one_le_clusterCost T candidate
    refine throwsOnly_bind ((clusterNode_throws setting hmin hcandidate work).mono fun e he =>
      he.imp_right fun h => ⟨h.1, by rw [← hallowed]; omega⟩) fun visited hnode => ?_
    obtain ⟨step, visited⟩ := visited
    obtain ⟨hstep, hnodes, hvisited⟩ := clusterNode_spec setting hcandidate hnode
    cases step with
    | drop => exact throwsOnly_pure _
    | answer region =>
      exact throwsOnly_bind (throwsOnly_throwIf (.inl (by simp))) fun _ _ =>
        throwsOnly_pure _
    | fail => exact absurd rfl (clusterNode_ne_fail hnode)
    | split children =>
      have hcost := clusterStep_cost setting.isInt setting.tagged candidate children hstep.symm
      obtain ⟨region, hsplit⟩ := clusterStep_split setting.isInt setting.tagged hstep.symm
      obtain ⟨-, hint, -, -, -⟩ :=
        tight_inside setting.isInt setting.tagged hsplit.tagged hsplit.tight
      have hchildren : ∀ c ∈ children, c.IsInt := fun c hc =>
        hint.subset (hsplit.divides.subset hc).1 (hsplit.divides.subset hc).2
      intro e he
      obtain ⟨front, c, back, middle, rfl, hfront, hthrow⟩ := foldlM_eq_error he
      obtain ⟨nodes, answers, hrun, -, hcount, hmiddle⟩ :=
        foldlM_refines (fun b hb before after h => clusterRec_spec setting
          (hchildren b (by simp [hb])) h) hfront
      have hfrontCost : ∀ b nodes answers, run (clusterStep rnd options mask.source.domain
          mask.parentCells T) depth b = some (nodes, answers) → nodes ≤ clusterCost T b :=
        fun b _ _ h =>
          nodes_le (one_le_clusterCost T) (clusterStep_cost setting.isInt setting.tagged) h
      have hspent := together_nodes_le (together_of_runAll hfrontCost hrun)
      simp only at hcount hmiddle hnodes hvisited
      rw [List.map_append, List.map_cons, List.sum_append, List.sum_cons] at hcost
      rcases ih (hchildren c (by simp)) (hmiddle.trans (hvisited.trans hallowed))
        (by omega) e hthrow
        with hexternal | ⟨rfl, hbudget⟩
      · exact .inl hexternal
      · exact .inr ⟨rfl, by omega⟩

end Recursion

/-! ## The errors of the provider -/

/-- Checking the options. -/
lemma validateOptions_throws (options : ClusterOptions d) :
    ThrowsOnly External (validateOptions options) :=
  throwsOnly_bind (throwsOnly_throwIf (by simp)) fun _ _ =>
    throwsOnly_bind (throwsOnly_forEachAxis fun _ =>
      throwsOnly_bind (throwsOnly_throwIf (by simp)) fun _ _ =>
        throwsOnly_bind (throwsOnly_throwIf (by simp)) fun _ _ =>
          throwsOnly_throwIf (by simp)) fun _ _ =>
      throwsOnly_bind (throwsOnly_throwIf (by simp)) fun _ _ =>
        throwsOnly_throwIf (by simp)

/-- Checking the shards. -/
lemma authenticateShards_throws (shards : List (TagMask d)) (options : ClusterOptions d) :
    ThrowsOnly External (authenticateShards shards options) := by
  have hrank : ∀ (space : RankSpace d) c, ThrowsOnly External (space.linearRank c) := fun _ _ =>
    throwsOnly_bind (throwsOnly_throwIf (by simp)) fun _ _ => throwsOnly_pure _
  have hcoordinate : ∀ (space : RankSpace d) n, ThrowsOnly External (space.coordinate n) :=
    fun _ _ =>
    throwsOnly_bind (throwsOnly_throwIf (by simp)) fun _ _ => throwsOnly_pure _
  have hclaim : ∀ source rank seen (patch : PatchTags d),
      ThrowsOnly External (claimPatch source rank seen patch) := fun _ _ _ _ =>
    throwsOnly_bind (throwsOnly_throwIf (by simp)) fun _ _ =>
      throwsOnly_bind (throwsOnly_throwIf (by simp)) fun _ _ => throwsOnly_pure _
  have hreplica : ∀ source reference (shard : TagMask d),
      ThrowsOnly External (checkReplica source reference shard) := fun _ _ _ =>
    throwsOnly_bind (throwsOnly_throwIf (by simp)) fun _ _ =>
      throwsOnly_bind (throwsOnly_throwIf (by simp)) fun _ _ =>
        throwsOnly_forEach fun _ _ => throwsOnly_throwIf (by simp)
  unfold authenticateShards
  cases shards with
  | nil => exact throwsOnly_throw (by simp)
  | cons front rest =>
    refine throwsOnly_bind (throwsOnly_throwIf (by simp)) fun _ _ =>
      throwsOnly_bind (throwsOnly_throwIf (by simp)) fun _ _ =>
      throwsOnly_bind (throwsOnly_forEach fun _ _ => throwsOnly_throwIf (by simp)) fun _ _ =>
      throwsOnly_bind (throwsOnly_mapM fun _ _ => throwsOnly_bind (hrank _ _) fun _ _ =>
        throwsOnly_pure _) fun ranked _ =>
      throwsOnly_bind (throwsOnly_throwIf (by simp)) fun _ _ =>
      throwsOnly_bind (throwsOnly_throwIf (by simp)) fun _ _ =>
      throwsOnly_bind (throwsOnly_forEach fun _ _ => throwsOnly_bind (hcoordinate _ _) fun _ _ =>
        throwsOnly_throwIf (by simp)) fun _ _ => ?_
    split_ifs
    · exact throwsOnly_bind (throwsOnly_forEach fun _ _ => hreplica _ _ _) fun _ _ =>
        throwsOnly_pure _
    · exact throwsOnly_bind (throwsOnly_foldlM (fun _ _ _ =>
        throwsOnly_foldlM (fun _ _ _ => hclaim _ _ _ _) _) _) fun _ _ =>
        throwsOnly_bind (throwsOnly_throwIf (by simp)) fun _ _ => throwsOnly_pure _

/-- Chopping the boxes. -/
lemma chopAll_throws (options : ClusterOptions d) (raw : List (Box d)) (work : ClusterWork) :
    ThrowsOnly External (chopAll options raw work) := by
  have hfromDomain : ∀ box : Box d,
      ThrowsOnly External (BoxArray.fromDomain box options.maxBoxSize) := by
    intro box
    refine throwsOnly_bind (throwsOnly_forEachAxis fun _ => throwsOnly_throwIf (by simp))
      fun _ _ => ?_
    split_ifs
    · exact throwsOnly_pure _
    · exact throwsOnly_bind (throwsOnly_foldlM (fun _ _ _ =>
        throwsOnly_bind (throwsOnly_throwIf (by simp)) fun _ _ => throwsOnly_pure _) _)
        fun _ _ => throwsOnly_bind (throwsOnly_throwIf (by simp)) fun _ _ =>
          throwsOnly_pure _
  exact throwsOnly_foldlM (fun _ _ _ =>
    throwsOnly_bind (throwsOnly_foldlM (fun _ _ _ =>
      throwsOnly_bind (throwsOnly_throwIf (by simp)) fun _ _ => throwsOnly_pure _) _)
      fun _ _ => throwsOnly_bind (throwsOnly_bind (throwsOnly_throwIf (by simp)) fun _ _ =>
        throwsOnly_pure _) fun _ _ => throwsOnly_bind (hfromDomain _) fun _ _ =>
          throwsOnly_pure _) _

/-- Accounting the bytes of the identity. -/
lemma accountIdentity_throws (source : LevelLayoutIdentity d) (canonical : List (TagMask d))
    (boxes : BoxArray d) (work : ClusterWork) :
    ThrowsOnly External (accountIdentity source canonical boxes work) := by
  have hrequire : ∀ (w : ClusterWork) n, ThrowsOnly External (w.requireIdentity n) := fun _ _ =>
    throwsOnly_bind (throwsOnly_throwIf (by simp)) fun _ _ => throwsOnly_pure _
  have hproduct : ∀ m n, ThrowsOnly External (ClusterWork.checkedProduct m n) := fun _ _ =>
    throwsOnly_bind (throwsOnly_throwIf (by simp)) fun _ _ => throwsOnly_pure _
  refine throwsOnly_bind (hrequire _ _) fun _ _ =>
    throwsOnly_bind (hproduct _ _) fun _ _ => throwsOnly_bind (hrequire _ _) fun _ _ =>
    throwsOnly_bind (hproduct _ _) fun _ _ => throwsOnly_bind (hrequire _ _) fun _ _ =>
    throwsOnly_bind (hproduct _ _) fun _ _ => throwsOnly_bind (hrequire _ _) fun _ _ =>
    throwsOnly_bind (hproduct _ _) fun _ _ => throwsOnly_bind (hrequire _ _) fun _ _ =>
    throwsOnly_foldlM (fun w entry _ => ?_) _
  split_ifs
  · exact throwsOnly_bind (hproduct _ _) fun _ _ => throwsOnly_bind (hrequire _ _) fun _ _ =>
      throwsOnly_foldlM (fun _ _ _ => hrequire _ _) _
  · exact throwsOnly_pure _

/-- **What the clustering throws**: never one of its internal errors, and the error of the budget of
nodes only when the budget is less than one node, and `2 ^ d` nodes for every tagged cell but one.
In particular the number of nodes does not depend on the extent of the domain or on the patches.

**Proof sketch.** A split leaves tagged cells to two of its at most `2 ^ d` children, since the
bounding box of the tagged cells has tagged cells on both of its faces along every axis; so the
children cost less than the candidate (`clusterStep_cost`), and a recursion that runs out of nodes
has a smaller budget than the cost of the domain (`clusterRec_throws`). -/
theorem cluster_errors [NeZero d] {rnd : ℚ → ℚ} {level : LevelLayout d} {shards : List (TagMask d)}
    {options : ClusterOptions d} {e : Exception}
    (hlevel : ∀ shard ∈ shards, shard.levelIdentity = level.exactIdentity)
    (h : cluster rnd shards options = .error e) :
    e.kind ≠ .logicError ∧ (e = nodeError →
      options.budget.recursionNodes < 1 + 2 ^ d * ((taggedUnion shards).card - 1)) := by
  have hclose : External e → e.kind ≠ .logicError ∧ (e = nodeError →
      options.budget.recursionNodes < 1 + 2 ^ d * ((taggedUnion shards).card - 1)) := fun he =>
    ⟨he.1, fun heq => absurd heq he.2⟩
  have hcluster : ThrowsOnly (fun e => External e ∨ e = nodeError ∧
      options.budget.recursionNodes < 1 + 2 ^ d * ((taggedUnion shards).card - 1))
      (cluster rnd shards options) := by
    refine throwsOnly_bind ((validateOptions_throws options).mono fun _ => .inl) fun _ hoptions =>
      throwsOnly_bind ((authenticateShards_throws shards options).mono fun _ => .inl)
        fun canonical hshards => ?_
    obtain ⟨front, rest, rfl, hfront, setting⟩ := setting_of_level hlevel hoptions hshards
    have hcells : taggedUnion shards ∩ level.domain.cells = taggedUnion shards :=
      Finset.inter_eq_left.mpr (taggedUnion_subset hlevel)
    simp only [hfront]
    refine throwsOnly_bind (throwsOnly_forEach fun _ _ => throwsOnly_bind (throwsOnly_forEachAxis
      fun _ => throwsOnly_throwIf (.inl (by simp))) fun _ _ => throwsOnly_pure _) fun _ _ =>
      throwsOnly_bind ((clusterRec_throws setting (fun a => (validateOptions_spec hoptions a).1)
        setting.isInt rfl (by simp)).mono fun e he => he.imp_right fun hnode => ?_) fun rec _ =>
      throwsOnly_bind ((chopAll_throws _ _ _).mono fun _ => .inl) fun _ _ =>
      throwsOnly_bind ((accountIdentity_throws _ _ _ _).mono fun _ => .inl) fun _ _ =>
        throwsOnly_pure _
    refine ⟨hnode.1, ?_⟩
    have hbudget := hnode.2
    rw [clusterCost, show (TagUnion.mk (front :: rest) level.exactIdentity).source.domain =
      level.domain from rfl, hcells, Nat.zero_add] at hbudget
    exact hbudget
  rcases hcluster e h with he | he
  · exact hclose he
  · rw [he.1]
    exact ⟨by decide, fun _ => he.2⟩

/-- Three tagged cells with a budget of two nodes. -/
theorem cluster_errors_line : ∃ shards,
    lineShards LevelLayout.fineLine [(1, 2), (1, 3), (1, 4)] = .ok shards ∧
      cluster id shards { lineOptions with budget := ⟨2, 2, 1000, 10, 1000⟩ } = .error nodeError ∧
      2 < 1 + 2 ^ 1 * ((taggedUnion shards).card - 1) := by
  have hshards : (lineShards LevelLayout.fineLine [(1, 2), (1, 3), (1, 4)]).isOk = true := by
    decide +kernel
  obtain ⟨shards, hshards⟩ := returns_of_isOk hshards
  have hrun : ((lineShards LevelLayout.fineLine [(1, 2), (1, 3), (1, 4)]).bind fun shards =>
      ((cluster id shards { lineOptions with budget := ⟨2, 2, 1000, 10, 1000⟩ }).map
        fun _ => false).tryCatch fun e => .ok (decide (e = nodeError))).toOption = some true := by
    decide +kernel
  rw [hshards] at hrun
  have herror : cluster id shards { lineOptions with budget := ⟨2, 2, 1000, 10, 1000⟩ } =
      .error nodeError := by
    cases hcluster : cluster id shards { lineOptions with budget := ⟨2, 2, 1000, 10, 1000⟩ } with
    | error e =>
      simp only [Except.bind, hcluster, Except.map, Except.tryCatch, Except.toOption,
        Option.some.injEq, decide_eq_true_eq] at hrun
      rw [hrun]
    | ok result =>
      simp [Except.bind, hcluster, Except.map, Except.tryCatch, Except.toOption] at hrun
  exact ⟨shards, hshards, herror,
    (cluster_errors (levelIdentity_lineShards hshards) herror).2 rfl⟩

end Pops
