import Pops.Amr.Tagging.ClusterCuts
import Pops.Amr.Tagging.ClusterScans

/-!
# Correctness of the clustering

The recursion of the provider refines a divide-and-conquer recursion over sets of cells
(`clusterStep`), which knows only the set `T` of tagged cells and the set `P` of parent cells.  The
boxes of that recursion are disjoint and properly nested, and hold every tagged cell whose own
padding is in `P`; chopping and sorting keep this.

## Main definitions

* `Pops.Nested` — the padding of a box lies in a set of cells.
* `Pops.clusterStep` — what the recursion does with a candidate, read off the two sets.

## Main results

* `Pops.clusterRec_spec` — the recursion refines the one over sets.
* `Pops.cluster_complete` — the boxes are disjoint, bounded, properly nested and complete.
* `Pops.cluster_storage_independent` — the boxes depend on the two sets only.
-/

namespace Pops

open DivideAndConquer (Step Sound run runAll run_unique answers_spec)

variable {d : ℕ}

/-- The padding of the box lies in a set of cells. -/
def Nested (domain : Box d) (options : ClusterOptions d) (P : Finset (Index d)) (b : Box d) :
    Prop :=
  ∀ i ∈ b.cells, ∀ j ∈ neighbourhood domain options i, j ∈ P

/-- The bounding box of a nonempty set of cells. -/
noncomputable def tightBox {S : Finset (Index d)} (h : S.Nonempty) :
    Box d := (Tight.exists_tight h).choose

/-- It is a bounding box. -/
lemma tight_tightBox {S : Finset (Index d)} (h : S.Nonempty) : Tight S (tightBox h) :=
  (Tight.exists_tight h).choose_spec

section Recursion

variable [NeZero d]

open Classical in
/-- What the recursion does with a candidate, read off the tagged and the parent cells. -/
noncomputable def clusterStep (rnd : ℚ → ℚ) (options : ClusterOptions d) (domain : Box d)
    (P T : Finset (Index d)) (candidate : Box d) : Step (Box d) (Box d) :=
  if h : (T ∩ candidate.cells).Nonempty then
    let region := tightBox h
    if ¬ Nested domain options P region then halve region
    else if Accepted rnd options region (T ∩ candidate.cells).card region.cells.card then
      .answer region
    else
      match splitChildren region
        (selectCuts rnd options region (planeCounts (T ∩ candidate.cells) region)) with
      | .ok children => .split children
      | .error _ => .fail
  else .drop

/-- What a clustering works on: a domain with disjoint parent patches, and shards that hold a set of
tagged cells of the domain. -/
structure Setting (mask : TagUnion d) (options : ClusterOptions d) (T : Finset (Index d)) :
    Prop where
  holds : mask.Holds T
  domain : ¬ mask.source.domain.Empty
  isInt : mask.source.domain.IsInt
  disjoint : (mask.source.patches.map Box.cells).Pairwise Disjoint
  tagged : T ⊆ mask.source.domain.cells
  buffer : ∀ a, 0 ≤ options.nestingBuffer a

/-- The cells of the parent patches. -/
def TagUnion.parentCells (mask : TagUnion d) : Finset (Index d) :=
  Cover.union (mask.source.patches.map Box.cells)

omit [NeZero d] in
/-- The bounding box of tagged cells of a candidate lies in the candidate and in the domain. -/
lemma tight_inside {T : Finset (Index d)} {domain candidate region : Box d}
    (hdomain : domain.IsInt) (htagged : T ⊆ domain.cells) (hne : (T ∩ candidate.cells).Nonempty)
    (htight : Tight (T ∩ candidate.cells) region) :
    ¬ region.Empty ∧ region.IsInt ∧ region.cells ⊆ candidate.cells ∧ region.cells ⊆ domain.cells ∧
      T ∩ region.cells = T ∩ candidate.cells := by
  have hempty := htight.nonempty hne
  have hcandidate := htight.subset Finset.inter_subset_right
  have hsub := htight.subset (Finset.inter_subset_left.trans htagged)
  refine ⟨hempty, hdomain.subset hempty hsub, hcandidate, hsub, ?_⟩
  ext i
  rw [Finset.mem_inter, Finset.mem_inter]
  refine ⟨fun h => ⟨h.1, hcandidate h.2⟩, fun h => ⟨h.1, htight.1 i (Finset.mem_inter.mpr h)⟩⟩

/-- **One node of the recursion refines the step over sets.** -/
theorem clusterNode_spec {rnd : ℚ → ℚ} {mask : TagUnion d} {options : ClusterOptions d}
    {T : Finset (Index d)} (setting : Setting mask options T) {candidate : Box d}
    (hcandidate : candidate.IsInt) {work after : ClusterWork} {step : Step (Box d) (Box d)}
    (h : clusterNode rnd mask options candidate work = .ok (step, after)) :
    step = clusterStep rnd options mask.source.domain mask.parentCells T candidate ∧
      after.nodes = work.nodes + 1 ∧ after.allowed = work.allowed := by
  simp only [clusterNode, bind_eq_ok, ClusterWork.visitNode, throwIf_eq_ok, exists_const,
    pure_eq_ok] at h
  obtain ⟨visited, ⟨-, rfl⟩, ⟨found, scanned⟩, hscan, h⟩ := h
  obtain ⟨hcount, htight, hallowed, hnodes⟩ := scan_spec setting.holds hcandidate hscan
  replace hallowed : scanned.allowed = work.allowed := hallowed
  replace hnodes : scanned.nodes = work.nodes + 1 := hnodes
  unfold clusterStep
  by_cases hne : (T ∩ candidate.cells).Nonempty
  swap
  · rw [Finset.not_nonempty_iff_eq_empty.mp hne, Finset.card_empty] at hcount
    simp only [hcount, if_true, pure_eq_ok, Prod.mk.injEq] at h
    obtain ⟨rfl, rfl⟩ := h
    exact ⟨by rw [dif_neg hne], hnodes, hallowed⟩
  have hpos : found.tagged ≠ 0 := by
    rw [hcount]
    exact (Finset.card_pos.mpr hne).ne'
  obtain htightBox : found.bounds = tightBox hne := (htight hne).unique (tight_tightBox hne)
  obtain ⟨hempty, hint, -, hsub, hsame⟩ :=
    tight_inside setting.isInt setting.tagged hne (tight_tightBox hne)
  simp only [if_neg hpos, bind_eq_ok, htightBox] at h
  obtain ⟨⟨covered, nested⟩, hnested, h⟩ := h
  obtain ⟨hcovered, hnestedAllowed, hnestedNodes⟩ :=
    nestingCovered_spec setting.domain setting.isInt
    setting.buffer setting.disjoint hempty hsub hnested
  replace hallowed : nested.allowed = work.allowed := hnestedAllowed.trans hallowed
  replace hnodes : nested.nodes = work.nodes + 1 := hnestedNodes.trans hnodes
  have hiff : covered = true ↔
      Nested mask.source.domain options mask.parentCells (tightBox hne) := by
    rw [hcovered]
    simp [Nested, TagUnion.parentCells]
  rw [dif_pos hne]
  by_cases hgood : Nested mask.source.domain options mask.parentCells (tightBox hne)
  swap
  · have hfalse : covered = false := by simpa using fun hc => hgood (hiff.mp hc)
    simp only [hfalse, if_true, pure_eq_ok, Prod.mk.injEq] at h
    obtain ⟨rfl, rfl⟩ := h
    exact ⟨by simp only [hgood, not_false_eq_true, if_true], hnodes, hallowed⟩
  · have htrue : covered = true := hiff.mpr hgood
    simp only [htrue, Bool.true_eq_false, if_false, bind_eq_ok] at h
    obtain ⟨points, hpoints, h⟩ := h
    have hcard := Box.numPts_eq_ok hpoints
    simp only [hcard, Int.toNat_natCast, hcount] at h
    simp only [hgood, not_true_eq_false, if_false]
    by_cases haccepted : Accepted rnd options (tightBox hne) (T ∩ candidate.cells).card
        (tightBox hne).cells.card
    · simp only [haccepted, if_true, pure_eq_ok, Prod.mk.injEq] at h ⊢
      obtain ⟨rfl, rfl⟩ := h
      exact ⟨rfl, hnodes, hallowed⟩
    · simp only [haccepted, if_false, bind_eq_ok, pure_eq_ok, Prod.mk.injEq] at h ⊢
      obtain ⟨⟨counts, counted⟩, hcounts, children, hchildren, rfl, rfl⟩ := h
      obtain ⟨hsignatures, -, hcountedAllowed, hcountedNodes⟩ :=
        signatures_spec setting.holds hint hcounts
      rw [hsame] at hsignatures
      rw [← hsignatures, hchildren]
      exact ⟨rfl, hcountedNodes.trans hnodes, hcountedAllowed.trans hallowed⟩

/-- The boxes lie on both sides of a cut through the region. -/
def Separated (region : Box d) (children : List (Box d)) : Prop :=
  ∃ axis cut, region.lo axis < cut ∧ cut ≤ region.hi axis ∧
    ∀ c ∈ children, c.hi axis < cut ∨ cut ≤ c.lo axis

/-- What a split does: the children divide the bounding box of the tagged cells of the candidate. -/
structure Split (T : Finset (Index d)) (candidate : Box d) (children : List (Box d))
    (region : Box d) :
    Prop where
  tagged : (T ∩ candidate.cells).Nonempty
  tight : Tight (T ∩ candidate.cells) region
  divides : Divides region children
  length : children.length ≤ 2 ^ d
  separated : Separated region children

/-- The cases of a step. -/
lemma clusterStep_cases (rnd : ℚ → ℚ) (options : ClusterOptions d) (domain : Box d)
    (P T : Finset (Index d)) (candidate : Box d) :
    (T ∩ candidate.cells = ∅ ∧ clusterStep rnd options domain P T candidate = .drop) ∨
      ∃ region, (T ∩ candidate.cells).Nonempty ∧ Tight (T ∩ candidate.cells) region ∧
        ((¬ Nested domain options P region ∧
            clusterStep rnd options domain P T candidate = halve region) ∨
          (Nested domain options P region ∧
            clusterStep rnd options domain P T candidate = .answer region) ∨
          (¬ Accepted rnd options region (T ∩ candidate.cells).card region.cells.card ∧
            ((∃ children, splitChildren region (selectCuts rnd options region
                (planeCounts (T ∩ candidate.cells) region)) = .ok children ∧
              clusterStep rnd options domain P T candidate = .split children) ∨
            (¬ Returns (splitChildren region (selectCuts rnd options region
                (planeCounts (T ∩ candidate.cells) region))) ∧
              clusterStep rnd options domain P T candidate = .fail)))) := by
  unfold clusterStep
  by_cases hne : (T ∩ candidate.cells).Nonempty
  swap
  · exact .inl ⟨Finset.not_nonempty_iff_eq_empty.mp hne, dif_neg hne⟩
  refine .inr ⟨tightBox hne, hne, tight_tightBox hne, ?_⟩
  simp only [dif_pos hne]
  by_cases hnested : Nested domain options P (tightBox hne)
  swap
  · exact .inl ⟨hnested, by rw [if_pos hnested]⟩
  rw [if_neg (not_not.mpr hnested)]
  by_cases haccepted : Accepted rnd options (tightBox hne) (T ∩ candidate.cells).card
      (tightBox hne).cells.card
  · exact .inr (.inl ⟨hnested, by rw [if_pos haccepted]⟩)
  rw [if_neg haccepted]
  refine .inr (.inr ⟨haccepted, ?_⟩)
  cases hsplit : splitChildren (tightBox hne) (selectCuts rnd options (tightBox hne)
      (planeCounts (T ∩ candidate.cells) (tightBox hne))) with
  | ok children => exact .inl ⟨children, rfl, rfl⟩
  | error e =>
    refine .inr ⟨?_, rfl⟩
    rintro ⟨_, h⟩
    cases h

/-- **Every split divides the bounding box of the tagged cells of its candidate.** -/
theorem clusterStep_split {rnd : ℚ → ℚ} {options : ClusterOptions d} {domain : Box d}
    {P T : Finset (Index d)} (hdomain : domain.IsInt) (htagged : T ⊆ domain.cells)
    {candidate : Box d} {children : List (Box d)}
    (h : clusterStep rnd options domain P T candidate = .split children) :
    ∃ region, Split T candidate children region := by
  have hd : 1 ≤ d := Nat.one_le_iff_ne_zero.mpr (NeZero.ne d)
  rcases clusterStep_cases rnd options domain P T candidate with
    ⟨-, hstep⟩ | ⟨region, hne, htight,
      ⟨-, hstep⟩ | ⟨-, hstep⟩ | ⟨-, ⟨parts, hparts, hstep⟩ | ⟨-, hstep⟩⟩⟩
  · rw [hstep] at h
    cases h
  · -- the region is halved
    obtain ⟨hempty, hint, -, -, -⟩ := tight_inside hdomain htagged hne htight
    rw [hstep] at h
    rcases halve_spec hempty hint with ⟨hdrop, -⟩ | ⟨axis, cut, hsplit, hlo, hhi⟩
    · rw [hdrop] at h
      cases h
    · rw [hsplit] at h
      obtain rfl := Step.split.inj h
      refine ⟨_, hne, htight, divides_cut hempty hlo hhi, ?_, axis, cut, hlo, hhi, fun c hc => ?_⟩
      · exact (Nat.pow_le_pow_right (by norm_num) hd : 2 ^ 1 ≤ 2 ^ d)
      · rcases List.mem_pair.mp hc with rfl | rfl
        · exact .inl (by simp)
        · exact .inr (by simp)
  · rw [hstep] at h
    cases h
  · -- the region is cut
    rw [hstep] at h
    obtain rfl := Step.split.inj h
    obtain ⟨hempty, -, -, -, -⟩ := tight_inside hdomain htagged hne htight
    have haxes := nodup_selectCuts rnd options region (planeCounts (T ∩ candidate.cells) region)
    obtain ⟨hdivides, hlength, hstrict, hcuts, hsides⟩ := splitChildren_spec hempty haxes hparts
    obtain ⟨cut, hcut⟩ := List.exists_mem_of_ne_nil _ hcuts
    have hcount := haxes.length_le_card
    rw [List.length_map, Fintype.card_fin] at hcount
    have hlength' := Box.length_of_nonempty hempty cut.axis
    have hbounds := hstrict cut hcut
    refine ⟨_, hne, htight, hdivides, ?_, cut.axis, region.lo cut.axis + cut.offset, by omega,
      by omega, hsides cut hcut⟩
    rw [hlength]
    exact Nat.pow_le_pow_right (by norm_num) hcount
  · rw [hstep] at h
    cases h

/-! ### The whole recursion -/

/-- A run of the recursion over sets accounts for what a part of the provider did: the boxes it
wrote and the nodes it counted within the same budgets. -/
def Refines (outcome : Option (ℕ × List (Box d))) (before after : ClusterWork × List (Box d)) :
    Prop :=
  ∃ nodes answers, outcome = some (nodes, answers) ∧ after.2 = before.2 ++ answers ∧
    after.1.nodes = before.1.nodes + nodes ∧ after.1.allowed = before.1.allowed

omit [NeZero d] in
/-- The loop over the children refines the runs of the children, one after the other. -/
lemma foldlM_refines {solve : Box d → Option (ℕ × List (Box d))}
    {body : ClusterWork × List (Box d) → Box d → Throws (ClusterWork × List (Box d))}
    {children : List (Box d)}
    (hbody : ∀ c ∈ children, ∀ before after, body before c = .ok after →
      Refines (solve c) before after) :
    ∀ {before after}, children.foldlM body before = .ok after →
      Refines (runAll solve children) before after := by
  induction children with
  | nil =>
    intro before after h
    obtain rfl := pure_eq_ok.mp h
    exact ⟨0, [], rfl, by simp, by simp, rfl⟩
  | cons c rest ih =>
    intro before after h
    simp only [List.foldlM_cons, bind_eq_ok] at h
    obtain ⟨middle, hfirst, hrest⟩ := h
    obtain ⟨own, front, hown, hfront, hcount, hallowed⟩ := hbody c (by simp) _ _ hfirst
    obtain ⟨others, back, hothers, hback, hcount', hallowed'⟩ :=
      ih (fun b hb => hbody b (by simp [hb])) hrest
    refine ⟨own + others, front ++ back, by simp [runAll, hown, hothers], ?_, by omega,
      hallowed'.trans hallowed⟩
    rw [hback, hfront, List.append_assoc]

/-- **The recursion refines the one over sets.**

**Proof sketch.** Induction on the depth.  A node refines the step over sets (`clusterNode_spec`);
the children of a split are nonempty parts of the domain, so their bounds are `int` again, and the
loop over them refines their runs (`foldlM_refines`). -/
theorem clusterRec_spec {rnd : ℚ → ℚ} {mask : TagUnion d} {options : ClusterOptions d}
    {T : Finset (Index d)} (setting : Setting mask options T) {depth : ℕ} :
    ∀ {candidate : Box d} {before after : ClusterWork × List (Box d)}, candidate.IsInt →
      clusterRec rnd mask options depth before candidate = .ok after →
      Refines (run (clusterStep rnd options mask.source.domain mask.parentCells T) depth candidate)
        before after := by
  induction depth with
  | zero => exact fun _ h => nomatch h
  | succ depth ih =>
    intro candidate before after hcandidate h
    obtain ⟨work, output⟩ := before
    simp only [clusterRec, bind_eq_ok] at h
    obtain ⟨⟨step, visited⟩, hnode, h⟩ := h
    obtain ⟨hstep, hnodes, hallowed⟩ := clusterNode_spec setting hcandidate hnode
    unfold run
    rw [← hstep]
    cases step with
    | drop =>
      obtain rfl := pure_eq_ok.mp h
      exact ⟨1, [], rfl, by simp, hnodes, hallowed⟩
    | answer region =>
      simp only [bind_eq_ok, throwIf_eq_ok, exists_const, pure_eq_ok] at h
      obtain ⟨-, rfl⟩ := h
      exact ⟨1, [region], rfl, rfl, hnodes, hallowed⟩
    | split children =>
      obtain ⟨region, hsplit⟩ := clusterStep_split setting.isInt setting.tagged hstep.symm
      obtain ⟨-, hint, -, -, -⟩ :=
        tight_inside setting.isInt setting.tagged hsplit.tagged hsplit.tight
      have hchildren : ∀ c ∈ children, c.IsInt := fun c hc =>
        hint.subset (hsplit.divides.subset hc).1 (hsplit.divides.subset hc).2
      have hloop : children.foldlM (clusterRec rnd mask options depth) (visited, output) =
        .ok after := h
      obtain ⟨nodes, answers, hrun, houtput, hcount, hallowed'⟩ :=
        foldlM_refines (fun c hc before after hc' => ih (hchildren c hc) hc') hloop
      exact ⟨1 + nodes, answers, by simp [hrun], houtput, by simp only at *; omega,
        hallowed'.trans hallowed⟩
    | fail => cases h

/-! ### The boxes of the recursion -/

omit [NeZero d] in
/-- The tagged cells whose padding lies in the parent cells. -/
def admissible (domain : Box d) (options : ClusterOptions d) (P T : Finset (Index d)) :
    Set (Index d) :=
  {i | i ∈ T ∧ ∀ j ∈ neighbourhood domain options i, j ∈ P}

/-- **The step over sets is sound**: answers are nested, and no split and no dropped candidate loses
a tagged cell whose padding lies in the parent cells. -/
theorem clusterStep_sound {rnd : ℚ → ℚ} {options : ClusterOptions d} {domain : Box d}
    {P T : Finset (Index d)} (hdomain : domain.IsInt) (htagged : T ⊆ domain.cells) :
    Sound (clusterStep rnd options domain P T) (fun b => (b.cells : Set (Index d)))
      (fun b => (b.cells : Set (Index d))) (admissible domain options P T)
      (fun b => ¬ b.Empty ∧ Nested domain options P b) where
  drop candidate h x hx hcell := by
    have hmem : x ∈ T ∩ candidate.cells := Finset.mem_inter.mpr ⟨hx.1, hcell⟩
    rcases clusterStep_cases rnd options domain P T candidate with
      ⟨hnone, -⟩ | ⟨region, hne, htight,
        ⟨hnested, hstep⟩ | ⟨-, hstep⟩ | ⟨-, ⟨_, -, hstep⟩ | ⟨-, hstep⟩⟩⟩
    · rw [hnone] at hmem
      exact Finset.notMem_empty _ hmem
    · -- a dropped region is one cell, and its padding is not in the parent cells
      obtain ⟨hempty, hint, -, -, -⟩ := tight_inside hdomain htagged hne htight
      rcases halve_spec hempty hint with ⟨-, hsingle⟩ | ⟨axis, cut, hsplit, -, -⟩
      · refine hnested fun i hi j hj => hx.2 j ?_
        have hix : i = x := funext fun a => by
          have := Box.mem_cells.mp hi a
          have := Box.mem_cells.mp (htight.1 x hmem) a
          have := congrFun hsingle a
          omega
        rwa [← hix]
      · rw [hstep, hsplit] at h
        cases h
    all_goals
      rw [hstep] at h
      cases h
  answer candidate region h := by
    rcases clusterStep_cases rnd options domain P T candidate with
      ⟨-, hstep⟩ | ⟨region', hne, htight, ⟨-, hstep⟩ | ⟨hnested, hstep⟩ |
        ⟨-, ⟨_, -, hstep⟩ | ⟨-, hstep⟩⟩⟩
    · rw [hstep] at h
      cases h
    · obtain ⟨hempty, hint, -, -, -⟩ := tight_inside hdomain htagged hne htight
      rw [hstep] at h
      rcases halve_spec hempty hint with ⟨hdrop, -⟩ | ⟨axis, cut, hsplit, -, -⟩
      · rw [hdrop] at h
        cases h
      · rw [hsplit] at h
        cases h
    · rw [hstep] at h
      obtain rfl := Step.answer.inj h
      obtain ⟨hempty, -, hsub, -, -⟩ := tight_inside hdomain htagged hne htight
      exact ⟨⟨hempty, hnested⟩, Finset.coe_subset.mpr hsub,
        fun x hx hcell => htight.1 x (Finset.mem_inter.mpr ⟨hx.1, hcell⟩)⟩
    all_goals
      rw [hstep] at h
      cases h
  split candidate children h := by
    obtain ⟨region, hsplit⟩ := clusterStep_split hdomain htagged h
    obtain ⟨-, -, hsub, -, -⟩ := tight_inside hdomain htagged hsplit.tagged hsplit.tight
    refine ⟨fun c hc => ?_, ?_, fun x hx hcell => ?_⟩
    · exact Finset.coe_subset.mpr ((hsplit.divides.subset hc).2.trans hsub)
    · exact hsplit.divides.disjoint.imp fun h => Finset.disjoint_coe.mpr h
    · exact hsplit.divides.cover x (hsplit.tight.1 x (Finset.mem_inter.mpr ⟨hx.1, hcell⟩))

end Recursion

/-! ## Chopping -/

/-- The boxes that a box of the recursion is chopped into. -/
def pieces (options : ClusterOptions d) (box : Box d) : List (Box d) :=
  ((BoxArray.fromDomain box options.maxBoxSize).toOption.map BoxArray.boxes).getD []

/-- The chopped boxes are the pieces of the boxes, in order. -/
lemma chopAll_spec {options : ClusterOptions d} {raw : List (Box d)} {work after : ClusterWork}
    {boxes : BoxArray d} (h : chopAll options raw work = .ok (after, boxes)) :
    boxes.boxes = raw.flatMap (pieces options) ∧
      ∀ box ∈ raw, ∃ array, BoxArray.fromDomain box options.maxBoxSize = .ok array ∧
        pieces options box = array.boxes := by
  refine foldlM_invariant (P := fun done (state : ClusterWork × BoxArray d) =>
    state.2.boxes = done.flatMap (pieces options) ∧
      ∀ box ∈ done, ∃ array, BoxArray.fromDomain box options.maxBoxSize = .ok array ∧
        pieces options box = array.boxes) h ⟨rfl, by simp⟩ ?_
  rintro done box rest state next _ ⟨hboxes, hdone⟩ hstep
  simp only [bind_eq_ok, pure_eq_ok] at hstep
  obtain ⟨_, -, _, -, array, harray, rfl⟩ := hstep
  have hpieces : pieces options box = array.boxes := by simp [pieces, harray, Except.toOption]
  refine ⟨by simp [BoxArray.append, hboxes, hpieces], fun b hb => ?_⟩
  rcases List.mem_append.mp hb with hb | hb
  · exact hdone b hb
  · obtain rfl := List.mem_singleton.mp hb
    exact ⟨array, harray, hpieces⟩

/-- **Chopping keeps the cells**: the pieces of disjoint boxes are nonempty parts of at most the
maximal length, disjoint, and hold the same cells. -/
theorem flatMap_pieces {options : ClusterOptions d} {raw : List (Box d)}
    (hraw : ∀ b ∈ raw, ¬ b.Empty ∧ b.IsInt)
    (hdisjoint : raw.Pairwise fun b c => Disjoint b.cells c.cells)
    (hpieces : ∀ box ∈ raw, ∃ array, BoxArray.fromDomain box options.maxBoxSize = .ok array ∧
      pieces options box = array.boxes) :
    (∀ c ∈ raw.flatMap (pieces options), ¬ c.Empty ∧ (∀ a, c.length a ≤ options.maxBoxSize a) ∧
        ∃ b ∈ raw, c.cells ⊆ b.cells) ∧
      ((raw.flatMap (pieces options)).Pairwise fun b c => Disjoint b.cells c.cells) ∧
      ∀ i, (∃ c ∈ raw.flatMap (pieces options), i ∈ c.cells) ↔ ∃ b ∈ raw, i ∈ b.cells := by
  have hspec : ∀ b ∈ raw,
      (∀ c ∈ pieces options b, ¬ c.Empty ∧ c.cells ⊆ b.cells ∧
        ∀ a, c.length a ≤ options.maxBoxSize a) ∧
      ((pieces options b).Pairwise fun c c' => Disjoint c.cells c'.cells) ∧
      ∀ i, (∃ c ∈ pieces options b, i ∈ c.cells) ↔ i ∈ b.cells := by
    intro b hb
    obtain ⟨array, harray, heq⟩ := hpieces b hb
    obtain ⟨hall, hpairs, hcells⟩ :=
      BoxArray.fromDomain_partition (hraw b hb).1 (hraw b hb).2 harray
    rw [heq]
    refine ⟨hall, List.pairwise_map.mp hpairs, fun i => ?_⟩
    rw [← hcells, BoxArray.mem_cells]
  refine ⟨fun c hc => ?_, ?_, fun i => ?_⟩
  · obtain ⟨b, hb, hcb⟩ := List.mem_flatMap.mp hc
    obtain ⟨hempty, hsub, hlength⟩ := (hspec b hb).1 c hcb
    exact ⟨hempty, hlength, b, hb, hsub⟩
  · rw [List.pairwise_flatMap]
    refine ⟨fun b hb => (hspec b hb).2.1, hdisjoint.imp_of_mem fun hb hb' hbb' c hc c' hc' => ?_⟩
    exact hbb'.mono ((hspec _ hb).1 c hc).2.1 ((hspec _ hb').1 c' hc').2.1
  · constructor
    · rintro ⟨c, hc, hi⟩
      obtain ⟨b, hb, hcb⟩ := List.mem_flatMap.mp hc
      exact ⟨b, hb, ((hspec b hb).2.2 i).mp ⟨c, hcb, hi⟩⟩
    · rintro ⟨b, hb, hi⟩
      obtain ⟨c, hc, hic⟩ := ((hspec b hb).2.2 i).mpr hi
      exact ⟨c, List.mem_flatMap.mpr ⟨b, hb, hc⟩, hic⟩

/-! ## The provider -/

/-- What accepted options satisfy. -/
lemma validateOptions_spec {options : ClusterOptions d} (h : validateOptions options = .ok ())
    (a : Fin d) :
    0 < options.minBoxSize a ∧ 0 < options.maxBoxSize a ∧
      options.minBoxSize a ≤ options.maxBoxSize a ∧ 0 ≤ options.nestingBuffer a := by
  unfold validateOptions at h
  rw [bind_eq_ok] at h
  obtain ⟨_, -, h⟩ := h
  rw [bind_eq_ok] at h
  obtain ⟨axes, haxes, -⟩ := h
  simp only [forEachAxis_eq_ok, bind_eq_ok, throwIf_eq_ok, exists_const] at haxes
  have := haxes a
  omega

/-- The tagged cells of shards of a level are cells of its domain. -/
lemma taggedUnion_subset {level : LevelLayout d} {shards : List (TagMask d)}
    (hlevel : ∀ shard ∈ shards, shard.levelIdentity = level.exactIdentity) :
    taggedUnion shards ⊆ level.domain.cells := by
  intro i hi
  obtain ⟨shard, hshard, htag⟩ := mem_taggedUnion.mp hi
  obtain ⟨p, hp, hcell⟩ := TagMask.mem_cells.mp (shard.taggedCells_subset htag)
  have hbox := shard.boxes p hp
  rw [hlevel shard hshard] at hbox
  exact (level.patch_spec (List.mem_of_getElem? hbox)).2 hcell

/-- The canonical shards of a level are a setting of the clustering. -/
lemma setting_of_level {level : LevelLayout d} {shards canonical : List (TagMask d)}
    {options : ClusterOptions d}
    (hlevel : ∀ shard ∈ shards, shard.levelIdentity = level.exactIdentity)
    (hoptions : validateOptions options = .ok ())
    (hshards : authenticateShards shards options = .ok canonical) :
    ∃ front rest, canonical = front :: rest ∧ front.levelIdentity = level.exactIdentity ∧
      Setting ⟨canonical, level.exactIdentity⟩ options (taggedUnion shards) := by
  obtain ⟨front, rest, rfl, hperm, -, hholds⟩ := authenticateShards_spec hshards
  have hfront := hlevel front (hperm.mem_iff.mp (by simp))
  rw [hfront] at hholds
  exact ⟨front, rest, rfl, hfront, hholds, level.spec.2.1, level.domain_isInt,
    level.pairwise_disjoint,
    taggedUnion_subset hlevel, fun a => (validateOptions_spec hoptions a).2.2.2⟩

/-! ### Two levels of the line -/

/-- Level one of the line with the patch `[2, 5]` stored as two patches of two ranks. -/
def LevelLayout.splitLine : LevelLayout 1 where
  level := 1
  domain := Box.line 0 7
  patches := ⟨[Box.line 4 5, Box.line 2 3], by decide +kernel⟩
  distribution := ⟨⟨[Box.line 4 5, Box.line 2 3], by decide +kernel⟩, RankSpace.line, .partitioned,
    [fun _ => 0, fun _ => 1], by decide +kernel⟩
  ratioFromParent := LevelLayout.fineLine.ratioFromParent
  validationBudget := ⟨2, 1⟩
  level_isInt := LevelLayout.fineLine.level_isInt
  domain_isInt := LevelLayout.fineLine.domain_isInt
  accepted := by decide +kernel

/-- The shards of both ranks of a level of the line, with the cells that every rank tags. -/
def lineShards (level : LevelLayout 1) (tags : List (ℤ × ℤ)) : Throws (List (TagMask 1)) := do
  let shards ← [0, 1].mapM fun rank : ℤ => do
    let mask ← TagMask.ofLevel level (fun _ => rank) ⟨2, 2, 4, 4, 4, 200⟩
    mask.writes ((tags.filter fun tag => tag.1 = rank).map fun tag => ⟨none, fun _ => tag.2, true⟩)
  throwIf (∃ shard ∈ shards, shard.levelIdentity ≠ level.exactIdentity)
    (invalidArgument "another level")
  pure shards

/-- Shards of a level of the line are shards of the level. -/
lemma levelIdentity_lineShards {level : LevelLayout 1} {tags : List (ℤ × ℤ)}
    {shards : List (TagMask 1)} (h : lineShards level tags = .ok shards) :
    ∀ shard ∈ shards, shard.levelIdentity = level.exactIdentity := by
  simp only [lineShards, bind_eq_ok, throwIf_eq_ok, exists_const, pure_eq_ok] at h
  obtain ⟨_, _, hnone, rfl⟩ := h
  simpa using hnone

/-- Options that keep one cell of padding. -/
def lineOptions : ClusterOptions 1 :=
  ⟨some (1 / 2), fun _ => 1, fun _ => 2, ⟨2, 100, 1000, 10, 1000⟩, fun _ => 1, fun _ => false⟩

section Provider

variable [NeZero d] {rnd : ℚ → ℚ} {level : LevelLayout d} {shards : List (TagMask d)}
  {options : ClusterOptions d} {result : ClusterResult d}

/-- What a clustering returns: the pieces of the boxes of the recursion over sets, sorted. -/
lemma cluster_spec (hlevel : ∀ shard ∈ shards, shard.levelIdentity = level.exactIdentity)
    (h : cluster rnd shards options = .ok result) :
    ∃ nodes raw, run (clusterStep rnd options level.domain level.patches.cells (taggedUnion shards))
        options.budget.recursionNodes level.domain = some (nodes, raw) ∧
      (∀ box ∈ raw, ∃ array, BoxArray.fromDomain box options.maxBoxSize = .ok array ∧
        pieces options box = array.boxes) ∧
      result.boxes.boxes = (raw.flatMap (pieces options)).insertionSort
        fun left right => lexicographicLess right left = false := by
  simp only [cluster, bind_eq_ok] at h
  obtain ⟨_, hoptions, canonical, hshards, h⟩ := h
  obtain ⟨front, rest, rfl, hfront, setting⟩ := setting_of_level hlevel hoptions hshards
  simp only [bind_eq_ok, pure_eq_ok, hfront, Prod.exists] at h
  obtain ⟨-, -, work, raw, hrec, after, boxes, hchop, -, -, rfl⟩ := h
  obtain ⟨nodes, answers, hrun, hraw, -, -⟩ := clusterRec_spec setting setting.isInt hrec
  obtain ⟨hboxes, hpieces⟩ := chopAll_spec hchop
  rw [List.nil_append] at hraw
  subst hraw
  exact ⟨nodes, raw, hrun, hpieces, congrArg
    (fun l => l.insertionSort fun left right => lexicographicLess right left = false) hboxes⟩

/-- **The clustering is complete and properly nested.**  The boxes are nonempty parts of the domain
of at most the maximal length, pairwise disjoint; the parent patches hold the padding of every cell
of a box; and a tagged cell is in a box exactly when the parent patches hold its own padding.

**Proof sketch.** The recursion refines the one over sets (`clusterRec_spec`), whose steps are sound
(`clusterStep_sound`), so its answers are disjoint, nested and complete; chopping keeps their cells
(`flatMap_pieces`), and sorting keeps the boxes. -/
theorem cluster_complete (hlevel : ∀ shard ∈ shards, shard.levelIdentity = level.exactIdentity)
    (h : cluster rnd shards options = .ok result) :
    (∀ b ∈ result.boxes.boxes, ¬ b.Empty ∧ b.cells ⊆ level.domain.cells ∧
        (∀ a, b.length a ≤ options.maxBoxSize a) ∧
        ∀ i ∈ b.cells, ∀ j ∈ neighbourhood level.domain options i, j ∈ level.patches.cells) ∧
      result.boxes.cellSets.Pairwise Disjoint ∧
      ∀ i ∈ taggedUnion shards, i ∈ result.boxes.cells ↔
        ∀ j ∈ neighbourhood level.domain options i, j ∈ level.patches.cells := by
  obtain ⟨nodes, raw, hrun, hpieces, hboxes⟩ := cluster_spec hlevel h
  obtain ⟨hgood, hpairs, hcomplete⟩ :=
    answers_spec (clusterStep_sound level.domain_isInt (taggedUnion_subset hlevel)) hrun
  have hraw : ∀ b ∈ raw, ¬ b.Empty ∧ b.IsInt := fun b hb =>
    ⟨(hgood b hb).1.1,
      level.domain_isInt.subset (hgood b hb).1.1 (Finset.coe_subset.mp (hgood b hb).2)⟩
  obtain ⟨hparts, hdisjoint, hcells⟩ :=
    flatMap_pieces hraw (hpairs.imp fun h => Finset.disjoint_coe.mp h) hpieces
  have hperm : result.boxes.boxes.Perm (raw.flatMap (pieces options)) :=
    hboxes ▸ List.perm_insertionSort _ _
  refine ⟨fun b hb => ?_, ?_, fun i hi => ?_⟩
  · obtain ⟨hempty, hlength, r, hr, hsub⟩ := hparts b (hperm.mem_iff.mp hb)
    exact ⟨hempty, hsub.trans (Finset.coe_subset.mp (hgood r hr).2), hlength,
      fun i hi => (hgood r hr).1.2 i (hsub hi)⟩
  · rw [BoxArray.cellSets, List.pairwise_map]
    exact (hperm.pairwise_iff fun h => h.symm).mpr hdisjoint
  · have hmem : i ∈ result.boxes.cells ↔ ∃ b ∈ raw, i ∈ b.cells := by
      rw [BoxArray.mem_cells, ← hcells]
      exact exists_congr fun c => and_congr_left fun _ => hperm.mem_iff
    rw [hmem]
    constructor
    · rintro ⟨b, hb, hib⟩
      exact (hgood b hb).1.2 i hib
    · intro hpadding
      exact hcomplete i ⟨hi, hpadding⟩ (taggedUnion_subset hlevel hi)

/-- The clustering of the cells `2`, `3` and `4` of the patch `[2, 5]`. -/
theorem cluster_complete_line : ∃ shards result,
    lineShards LevelLayout.fineLine [(1, 2), (1, 3), (1, 4)] = .ok shards ∧
      cluster id shards lineOptions = .ok result ∧ result.boxes.cellSets.Pairwise Disjoint ∧
      ∀ i ∈ taggedUnion shards, i ∈ result.boxes.cells ↔
        ∀ j ∈ neighbourhood (Box.line 0 7) lineOptions i,
        j ∈ LevelLayout.fineLine.patches.cells := by
  have hrun : ((lineShards LevelLayout.fineLine [(1, 2), (1, 3), (1, 4)]).bind fun shards =>
      cluster id shards lineOptions).isOk = true := by decide +kernel
  obtain ⟨result, hboth⟩ := returns_of_isOk hrun
  obtain ⟨shards, hshards, hresult⟩ := bind_eq_ok.mp hboth
  obtain ⟨-, hdisjoint, hcomplete⟩ := cluster_complete (levelIdentity_lineShards hshards) hresult
  exact ⟨shards, result, hshards, hresult, hdisjoint, hcomplete⟩

/-- **The clustering does not depend on the storage of the level**: levels with the same domain and
the same parent cells, and shards with the same tagged cells, have the same boxes in the same order,
whatever the patches, their owners, the ranks, the distribution mode and the budgets are.

**Proof sketch.** Both recursions refine the one recursion over the sets of cells, and a run of it
does not depend on the bound of its depth (`run_unique`); chopping and sorting are functions of its
answers. -/
theorem cluster_storage_independent {other : LevelLayout d} {others : List (TagMask d)}
    {budget : ClusterWorkBudget} {result' : ClusterResult d}
    (hlevel : ∀ shard ∈ shards, shard.levelIdentity = level.exactIdentity)
    (hother : ∀ shard ∈ others, shard.levelIdentity = other.exactIdentity)
    (hdomain : level.domain = other.domain) (hcells : level.patches.cells = other.patches.cells)
    (htagged : taggedUnion shards = taggedUnion others)
    (h : cluster rnd shards options = .ok result)
    (h' : cluster rnd others { options with budget := budget } = .ok result') :
    result.boxes = result'.boxes := by
  obtain ⟨nodes, raw, hrun, -, hboxes⟩ := cluster_spec hlevel h
  obtain ⟨nodes', raw', hrun', -, hboxes'⟩ := cluster_spec hother h'
  have hstep : clusterStep rnd { options with budget := budget } other.domain other.patches.cells
      (taggedUnion others) =
      clusterStep rnd options level.domain level.patches.cells (taggedUnion shards) := by
    rw [hdomain, hcells, htagged]
    rfl
  rw [hstep, ← hdomain] at hrun'
  obtain ⟨-, rfl⟩ := Prod.mk.inj (run_unique hrun hrun')
  refine BoxArray.ext ?_
  rw [hboxes, hboxes']
  rfl

/-- The same cells clustered from one patch, and from two patches of two ranks. -/
theorem cluster_storage_independent_line : ∃ shards others result result',
    lineShards LevelLayout.fineLine [(1, 2), (1, 3), (1, 4)] = .ok shards ∧
      lineShards LevelLayout.splitLine [(0, 4), (1, 3), (1, 2)] = .ok others ∧
      cluster id shards lineOptions = .ok result ∧
      cluster id others { lineOptions with budget := ⟨2, 50, 500, 5, 500⟩ } = .ok result' ∧
      result.boxes = result'.boxes := by
  have hrun : ((lineShards LevelLayout.fineLine [(1, 2), (1, 3), (1, 4)]).bind fun shards =>
      (lineShards LevelLayout.splitLine [(0, 4), (1, 3), (1, 2)]).bind fun others =>
        (throwIf (taggedUnion shards ≠ taggedUnion others) (invalidArgument "other cells")).bind
          fun _ => (cluster id shards lineOptions).bind fun _ =>
            cluster id others { lineOptions with budget := ⟨2, 50, 500, 5, 500⟩ }).isOk = true := by
    decide +kernel
  obtain ⟨result', hall⟩ := returns_of_isOk hrun
  obtain ⟨shards, hshards, hrest⟩ := bind_eq_ok.mp hall
  obtain ⟨others, hothers, hrest⟩ := bind_eq_ok.mp hrest
  obtain ⟨_, htagged, hrest⟩ := bind_eq_ok.mp hrest
  obtain ⟨result, hresult, hresult'⟩ := bind_eq_ok.mp hrest
  exact ⟨shards, others, result, result', hshards, hothers, hresult, hresult',
    cluster_storage_independent (levelIdentity_lineShards hshards)
      (levelIdentity_lineShards hothers)
      rfl (by decide +kernel) (not_not.mp (throwIf_eq_ok.mp htagged)) hresult hresult'⟩

end Provider

end Pops
