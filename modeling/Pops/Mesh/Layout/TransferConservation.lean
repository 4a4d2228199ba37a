import Pops.Mesh.Layout.Refinement

/-!
# Conservation of the layout transfers

The child enumeration of averaging and the floor division of interpolation are inverse to each other
on aligned layouts, and a copy schedule without remote jobs moves every cell of the rank.  Averaging
therefore replaces the values of the children by their mean and interpolation copies the value of
the parent.

## Main definitions

* `Pops.Refinement.parent`, `children` — the two index maps.
* `Pops.MultiFab.total` — the sum of a component over the valid cells of a rank.

## Main results

* `Pops.Refinement.averageDown_spec`, `interpolate_spec` — the transfers on cells.
* `Pops.Refinement.averageDown_conserves` — interpolation followed by averaging is the identity, and
  averaging keeps the totals.
-/

namespace Pops

namespace Refinement

variable {d : ℕ} {ratio : Extent d}

/-! ## Parents and children -/

/-- The ratio checks, spelled out. -/
lemma validateRatio_eq_ok {operation : String} {u : Unit} :
    validateRatio ratio operation = .ok u ↔ ∀ a, 0 < ratio a ∧ ratio a ≤ intMax := by
  simp only [validateRatio, bind_eq_ok, forEachAxis_eq_ok, throwIf_eq_ok, exists_const, pure_eq_ok,
    and_true, not_or, not_le, not_lt]

/-- The child count is the product of the ratios. -/
lemma childCount_eq {operation : String} {count : ℤ}
    (h : childCount ratio operation = .ok count) :
    (∀ a, 0 < ratio a ∧ ratio a ≤ intMax) ∧ count = ∏ a, ratio a := by
  simp only [childCount, bind_eq_ok, validateRatio_eq_ok, exists_const] at h
  obtain ⟨hratio, h⟩ := h
  refine ⟨hratio, ?_⟩
  have hprod := foldlM_invariant (P := fun done (r : ℤ) => r = (done.map ratio).prod) h rfl
    (fun done axis rest s s' _ hs hstep => by
      simp only [bind_eq_ok, throwIf_eq_ok, exists_const, pure_eq_ok] at hstep
      rw [← hstep.2, hs]
      simp)
  rw [hprod, Box.prod_finRange]

/-- The coarse cell that contains a fine cell. -/
def parent (ratio : Extent d) (j : Index d) : Index d := fun a => j a / ratio a

/-- The box of the fine cells of a coarse cell. -/
def childBox (ratio : Extent d) (i : Index d) : Box d where
  lo a := i a * ratio a
  hi a := i a * ratio a + ratio a - 1

/-- The fine cells of a coarse cell. -/
def children (ratio : Extent d) (i : Index d) : Finset (Index d) := (childBox ratio i).cells

/-- A cell lies in the refinement of a box exactly when its parent lies in the box. -/
lemma mem_refined_iff (hratio : ∀ a, 0 < ratio a) (box : Box d) {j : Index d} :
    j ∈ (⟨fun a => box.lo a * ratio a, fun a => box.hi a * ratio a + ratio a - 1⟩ : Box d).cells ↔
      parent ratio j ∈ box.cells := by
  simp only [Box.mem_cells, parent]
  refine forall_congr' fun a => and_congr (Int.le_ediv_iff_mul_le (hratio a)).symm ?_
  have hlt := Int.ediv_lt_iff_lt_mul (a := j a) (b := box.hi a + 1) (hratio a)
  rw [Int.add_mul, Int.one_mul] at hlt
  omega

/-- The children of a cell are the cells with this parent. -/
lemma mem_children (hratio : ∀ a, 0 < ratio a) {i j : Index d} :
    j ∈ children ratio i ↔ parent ratio j = i := by
  rw [children, childBox, mem_refined_iff hratio ⟨i, i⟩, Box.mem_cells]
  refine ⟨fun h => funext fun a => le_antisymm (h a).2 (h a).1, fun h a => ?_⟩
  rw [h]
  exact ⟨le_rfl, le_rfl⟩

/-- A cell has as many children as the ratios say. -/
lemma card_children (hratio : ∀ a, 0 < ratio a) (i : Index d) :
    ((children ratio i).card : ℤ) = ∏ a, ratio a := by
  have hne : ¬ (childBox ratio i).Empty := by
    rintro ⟨a, ha⟩
    have := hratio a
    simp only [childBox] at ha
    omega
  rw [children, Box.card_cells hne]
  refine Finset.prod_congr rfl fun a _ => ?_
  rw [Box.length_of_nonempty hne, childBox]
  ring

/-- Every cell has a child. -/
lemma children_nonempty (hratio : ∀ a, 0 < ratio a) (i : Index d) :
    (children ratio i).Nonempty := by
  have hcard := card_children hratio i
  have hpos : 0 < ∏ a, ratio a := Finset.prod_pos fun a _ => hratio a
  exact Finset.card_pos.mp (by omega)

/-- On `int` cells the coarse index of the interpolation is the parent. -/
lemma coarseIndex_eq (hratio : ∀ a, 0 < ratio a) {j : Index d} (hint : ∀ a, IsInt (j a)) :
    coarseIndex ratio j = parent ratio j := by
  funext a
  have hpos := hratio a
  have hdiv : (if (j a).tmod (ratio a) < 0 then (j a).tdiv (ratio a) - 1
      else (j a).tdiv (ratio a)) = j a / ratio a := by
    have hnonneg := Int.emod_nonneg (j a) hpos.ne'
    have hlt := Int.emod_lt_of_pos (j a) hpos
    rw [Int.tmod_eq_emod, Int.tdiv_eq_ediv, Int.sign_eq_one_of_pos hpos]
    split_ifs <;> omega
  have hrange : IsInt (j a / ratio a) := by
    have hbounds := hint a
    unfold IsInt intMin intMax at *
    constructor
    · rw [Int.le_ediv_iff_mul_le hpos]
      nlinarith
    · have : j a / ratio a < 2147483648 := by
        rw [Int.ediv_lt_iff_lt_mul hpos]
        nlinarith
      omega
  simp only [coarseIndex, parent, hdiv]
  exact castInt_of_isInt hrange

/-- The loop that adds up values is their sum. -/
lemma foldl_range_add {K : Type} [AddCommMonoid K] (f : ℕ → K) (n : ℕ) :
    (List.range n).foldl (fun sum q => sum + f q) 0 = ∑ q ∈ Finset.range n, f q := by
  induction n with
  | zero => simp
  | succ n ih => rw [List.range_succ, List.foldl_append, ih, Finset.sum_range_succ]; rfl

section Ordinals

variable (hratio : ∀ a, 0 < ratio a) {i : Index d}
  (hint : ∀ j ∈ children ratio i, ∀ a, IsInt (j a))

include hratio

/-- The radices of the child ordinals are positive. -/
lemma toNat_ratio_pos (a : Fin d) : 0 < (ratio a).toNat := by
  have := hratio a
  omega

/-- Offsets below the ratios give children. -/
lemma offset_mem_children {x : Fin d → ℕ} (hx : ∀ a, x a < (ratio a).toNat) :
    (fun a => i a * ratio a + x a) ∈ children ratio i := by
  refine Box.mem_cells.mpr fun a => ?_
  have hpos := hratio a
  have hlt := hx a
  simp only [childBox]
  omega

include hint

/-- The fine index of an ordinal is not changed by its narrowing. -/
lemma fineIndex_eq (q : ℕ) : fineIndex ratio i q =
    fun a => i a * ratio a + MixedRadix.unrank (fun a => (ratio a).toNat) q a := by
  funext a
  exact castInt_of_isInt (hint _ (offset_mem_children hratio fun a =>
    MixedRadix.unrank_lt (toNat_ratio_pos hratio) q a) a)

/-- The sum over the ordinals is the sum over the children. -/
lemma sum_fineIndex {K : Type} [AddCommMonoid K] (f : Index d → K) :
    ∑ q ∈ Finset.range (∏ a, (ratio a).toNat), f (fineIndex ratio i q) =
      ∑ j ∈ children ratio i, f j := by
  refine Finset.sum_nbij (fineIndex ratio i) ?_ ?_ ?_ fun _ _ => rfl
  · intro q _
    rw [fineIndex_eq hratio hint]
    exact offset_mem_children hratio fun a => MixedRadix.unrank_lt (toNat_ratio_pos hratio) q a
  · intro p hp q hq heq
    rw [Finset.mem_coe, Finset.mem_range] at hp hq
    rw [← MixedRadix.rank_unrank hp, ← MixedRadix.rank_unrank hq]
    refine congrArg _ (funext fun a => ?_)
    have ha := congrFun heq a
    rw [fineIndex_eq hratio hint, fineIndex_eq hratio hint] at ha
    simp only at ha
    omega
  · intro j hj
    rw [Finset.mem_coe] at hj
    have hlt : ∀ a, (j a - i a * ratio a).toNat < (ratio a).toNat := by
      intro a
      have hmem := Box.mem_cells.mp hj a
      simp only [childBox] at hmem
      omega
    refine ⟨MixedRadix.rank (fun a => (ratio a).toNat) fun a => (j a - i a * ratio a).toNat,
      ?_, ?_⟩
    · rw [Finset.mem_coe, Finset.mem_range]
      exact MixedRadix.rank_lt hlt
    · rw [fineIndex_eq hratio hint, MixedRadix.unrank_rank hlt]
      funext a
      have hmem := Box.mem_cells.mp hj a
      simp only [childBox] at hmem ⊢
      omega

/-- **The averaging kernel is the mean over the children.** -/
theorem averageDownKernel_eq {K : Type} [Field K] (data : ℕ × ℤ → K) (fine : FieldView d)
    (c : ℕ) : averageDownKernel data fine ratio (∏ a, ratio a) i c =
      FiberAverage.mean (children ratio i) fun j => data (fine.address j c) := by
  have hcount : (∏ a, ratio a).toNat = ∏ a, (ratio a).toNat := by
    have hcast : ∏ a, ratio a = ((∏ a, (ratio a).toNat : ℕ) : ℤ) := by
      rw [Nat.cast_prod]
      refine Finset.prod_congr rfl fun a _ => ?_
      have := hratio a
      omega
    rw [hcast, Int.toNat_natCast]
  have hcard : ((∏ a, ratio a : ℤ) : K) = ((children ratio i).card : K) := by
    rw [← card_children hratio i, Int.cast_natCast]
  rw [averageDownKernel, hcount, hcard, FiberAverage.mean,
    ← sum_fineIndex hratio hint fun j => data (fine.address j c), foldl_range_add]

end Ordinals

/-! ## Aligned layouts -/

/-- Boxes with `int` bounds are stored unchanged. -/
lemma boxes_ofBoxes {boxes : List (Box d)} (h : ∀ b ∈ boxes, b.IsInt) :
    (BoxArray.ofBoxes boxes).boxes = boxes := by
  show boxes.map _ = boxes
  refine (List.map_congr_left fun b hb => ?_).trans (List.map_id boxes)
  exact Box.ext (funext fun a => castInt_of_isInt (h b hb a).1)
    (funext fun a => castInt_of_isInt (h b hb a).2)

/-- A refined box has `int` bounds, and its cells are those with a parent in the box. -/
lemma refine_spec {box r : Box d} (hint : box.IsInt) (h : refine box ratio = .ok r) :
    r.IsInt ∧ ∀ j, j ∈ r.cells ↔ parent ratio j ∈ box.cells := by
  simp only [refine, bind_eq_ok, validateRatio_eq_ok, exists_const] at h
  obtain ⟨hratio, h⟩ := h
  by_cases hempty : box.Empty
  · rw [if_pos hempty, pure_eq_ok] at h
    subst h
    exact ⟨hint, fun j => by simp [Box.empty_iff_cells.mp hempty]⟩
  · simp only [if_neg hempty, bind_eq_ok, forEachAxis_eq_ok, checkedIndex_eq_ok, pure_eq_ok] at h
    obtain ⟨bounds, hbounds, rfl⟩ := h
    have hb : ∀ a, bounds a = (box.lo a * ratio a, box.hi a * ratio a + ratio a - 1) ∧
        IsInt (bounds a).1 ∧ IsInt (bounds a).2 := by
      intro a
      obtain ⟨l, ⟨hl, rfl⟩, u, ⟨hu, rfl⟩, he⟩ := hbounds a
      rw [← he]
      exact ⟨rfl, hl, hu⟩
    refine ⟨fun a => (hb a).2, fun j => ?_⟩
    rw [← mem_refined_iff (fun a => (hratio a).1) box]
    simp only [hb]

/-- The patches of a refined layout have the cells with a parent in the patch. -/
lemma refineLayout_spec {layout refined : BoxArray d}
    (h : refineLayout layout ratio = .ok refined) :
    refined.boxes.length = layout.boxes.length ∧ ∀ n < layout.boxes.length, ∀ j,
      j ∈ (refined.boxes.getD n ⟨0, 0⟩).cells ↔
        parent ratio j ∈ (layout.boxes.getD n ⟨0, 0⟩).cells := by
  simp only [refineLayout, bind_eq_ok, pure_eq_ok] at h
  obtain ⟨boxes, hboxes, rfl⟩ := h
  obtain ⟨hlength, hget⟩ := List.forall₂_iff_get.mp (forall₂_of_mapM hboxes)
  have hisInt : ∀ b ∈ boxes, b.IsInt := by
    intro b hb
    obtain ⟨box, hbox, hrefine⟩ := (mem_of_mapM hboxes).2 b hb
    exact (refine_spec (layout.isInt box hbox) hrefine).1
  rw [boxes_ofBoxes hisInt]
  refine ⟨hlength.symm, fun n hn j => ?_⟩
  rw [List.getD_eq_getElem _ _ (hlength ▸ hn), List.getD_eq_getElem _ _ hn]
  exact (refine_spec (layout.isInt _ (List.getElem_mem hn)) (hget n hn (hlength ▸ hn))).2 j

/-- The patch is stored on the rank. -/
def StoredOn (dist : Distribution d) (n : ℕ) (rank : Index d) : Prop :=
  dist.Replicated ∨ dist.owners.getD n 0 = rank

/-- A rebound distribution stores every patch where the model does. -/
lemma rebindDistribution_spec {layout : BoxArray d} {model dist : Distribution d}
    (h : rebindDistribution layout model = .ok dist) (n : ℕ) (rank : Index d) :
    StoredOn dist n rank ↔ StoredOn model n rank := by
  simp only [rebindDistribution, bind_eq_ok, throwIf_eq_ok, exists_const] at h
  obtain ⟨_, h⟩ := h
  unfold StoredOn
  by_cases hrep : model.Replicated
  · rw [if_pos hrep, Distribution.replicated] at h
    split at h
    · obtain rfl := Except.ok.inj h
      exact ⟨fun _ => .inl hrep, fun _ => .inl rfl⟩
    · cases h
  · rw [if_neg hrep, Distribution.partitioned] at h
    split at h
    · obtain rfl := Except.ok.inj h
      refine or_congr_left ⟨fun hmode => ?_, fun hmode => absurd hmode hrep⟩
      cases hmode
    · cases h

section Scratch

variable {K : Type} [Zero K]

/-- The scratch field has one patch for every fine patch, with the parents of its cells. -/
structure ScratchOf (ratio : Extent d) (fine scratch : MultiFab d K) : Prop where
  length_eq : fine.layout.boxes.length = scratch.layout.boxes.length
  mem_box : ∀ n < scratch.layout.boxes.length, ∀ j,
    j ∈ (fine.box n).cells ↔ parent ratio j ∈ (scratch.box n).cells
  containsLocal_iff : ∀ n, scratch.ContainsLocal n ↔ fine.ContainsLocal n
  localRank_eq : scratch.localRank = fine.localRank
  ncomp_eq : scratch.ncomp = fine.ncomp
  ghosts_nonneg : ∀ axis, 0 ≤ scratch.ghosts axis

/-- The prepared scratch field. -/
lemma prepareScratch_spec {fine scratch : MultiFab d K} {operation : String}
    (h : prepareScratch fine ratio operation = .ok scratch) : ScratchOf ratio fine scratch := by
  simp only [prepareScratch, bind_eq_ok, throwIf_eq_ok, exists_const, ne_eq, not_not,
    MultiFab.create, pure_eq_ok, MultiFab.validateMetadata_eq_ok] at h
  obtain ⟨layout, _, refined, hrefined, hsame, dist, hdist, ⟨_, _, _, hghosts⟩, _, _, _, _, rfl⟩ :=
    h
  obtain ⟨hlength, hmem⟩ := refineLayout_spec hrefined
  rw [hsame] at hlength hmem
  exact ⟨hlength, hmem, fun n => rebindDistribution_spec hdist n _, rfl, rfl, hghosts⟩

end Scratch

/-! ## Schedules without remote jobs -/

section Schedules

open CopySchedule

variable {D S : BoxArray d} {DD SD : Distribution d} {rank : Index d}
  {budget : CopyScheduleBudget} {schedule : CopySchedule d}

/-- What is known of a rank after some jobs were classified: the local jobs are those with both
patches on the rank, and without remote jobs no job has only one patch there. -/
structure LocallyClassified (DD SD : Distribution d) (rank : Index d)
    (visited : List (CopyJob d)) (schedule : CopySchedule d) : Prop where
  destination_eq : schedule.destinationDistribution = DD
  source_eq : schedule.sourceDistribution = SD
  rank_eq : schedule.localRank = rank
  sublist : schedule.localJobs.Sublist visited
  stored : ∀ job ∈ schedule.localJobs, StoredOn DD job.destinationBox rank ∧
    StoredOn SD job.sourceBox rank
  complete : ¬ schedule.HasRemoteJobs → ∀ job ∈ visited,
    StoredOn DD job.destinationBox rank ∨ StoredOn SD job.sourceBox rank →
      job ∈ schedule.localJobs

/-- A patch is found to be local exactly when it is stored on the rank. -/
lemma eq_of_isLocal {dist : Distribution d} {n : ℕ} {r : Index d} {answer : Bool}
    (h : dist.isLocal n r = .ok answer) : answer = true ↔ StoredOn dist n r := by
  simp only [Distribution.isLocal, bind_eq_ok, throwIf_eq_ok, exists_const, pure_eq_ok] at h
  obtain ⟨_, _, rfl⟩ := h
  rw [decide_eq_true_eq]
  rfl

/-- One more classified job. -/
theorem LocallyClassified.step {visited : List (CopyJob d)} {schedule' : CopySchedule d}
    {job : CopyJob d} (hinv : LocallyClassified DD SD rank visited schedule)
    (h : schedule.classify job = .ok schedule') :
    LocallyClassified DD SD rank (visited ++ [job]) schedule' := by
  obtain ⟨rfl, rfl, rfl, hsublist, hstored, hcomplete⟩ := hinv
  simp only [classify, bind_eq_ok] at h
  obtain ⟨sourceLocal, hsource, destinationLocal, hdestination, h⟩ := h
  have hsource := eq_of_isLocal hsource
  have hdestination := eq_of_isLocal hdestination
  have hkeep : schedule.localJobs.Sublist (visited ++ [job]) :=
    hsublist.trans (List.sublist_append_left _ _)
  split_ifs at h with hboth hs hd
  · rw [pure_eq_ok] at h
    subst h
    rw [Bool.and_eq_true] at hboth
    refine ⟨rfl, rfl, rfl, hsublist.append (List.Sublist.refl _), fun other hother => ?_,
      fun hlocal other hother hside => ?_⟩
    · rcases List.mem_append.mp hother with hother | hother
      · exact hstored other hother
      · rw [List.mem_singleton.mp hother]
        exact ⟨hdestination.mp hboth.2, hsource.mp hboth.1⟩
    · rcases List.mem_append.mp hother with hother | hother
      · exact List.mem_append_left _ (hcomplete hlocal other hother hside)
      · exact List.mem_append_right _ hother
  · -- a job for another rank leaves a send plan
    simp only [bind_eq_ok, throwIf_eq_ok, exists_const, pure_eq_ok] at h
    obtain ⟨_, peer, _, rfl⟩ := h
    refine ⟨rfl, rfl, rfl, hkeep, hstored, fun hlocal => ?_⟩
    exact absurd (.inl (peerPlan.append_ne_nil _ _ _)) hlocal
  · simp only [bind_eq_ok, throwIf_eq_ok, exists_const, pure_eq_ok] at h
    obtain ⟨_, peer, _, rfl⟩ := h
    refine ⟨rfl, rfl, rfl, hkeep, hstored, fun hlocal => ?_⟩
    exact absurd (.inr (peerPlan.append_ne_nil _ _ _)) hlocal
  · simp only [bind_eq_ok, throwIf_eq_ok, exists_const, pure_eq_ok] at h
    obtain ⟨_, rfl⟩ := h
    refine ⟨rfl, rfl, rfl, hkeep, hstored, fun hlocal other hother hside => ?_⟩
    rcases List.mem_append.mp hother with hother | hother
    · exact hcomplete hlocal other hother hside
    · rw [List.mem_singleton.mp hother] at hside
      rcases hside with hside | hside
      · exact absurd (hdestination.mpr hside) hd
      · exact absurd (hsource.mpr hside) hs

/-- **The local jobs of a schedule.** They are overlaps of patches of the rank, and without remote
jobs every overlap with a patch on the rank is one of them. -/
theorem local_spec (hd : d ≤ 3) (h : create D DD S SD rank budget = .ok schedule) :
    (DisjointLayout D ∧ DisjointLayout S ∧ D.cells = S.cells) ∧
      LocallyClassified DD SD rank (jobs D S) schedule := by
  obtain ⟨⟨_, hlayouts⟩, hloop⟩ := (create_eq_ok hd).mp h
  refine ⟨hlayouts, foldlM_invariant (P := LocallyClassified DD SD rank) hloop ?_ ?_⟩
  · exact ⟨rfl, rfl, rfl, List.Sublist.refl _, by simp [start], by simp⟩
  · intro done job rest s s' _ hinv hstep
    exact hinv.step hstep

end Schedules

/-! ## The transfers on cells -/

section Transfers

open CopySchedule

variable {K : Type}

/-- The patch of an index is a patch of the layout. -/
lemma box_mem {fields : MultiFab d K} {n : ℕ} (h : n < fields.layout.boxes.length) :
    fields.box n ∈ fields.layout.boxes := by
  rw [MultiFab.box, List.getD_eq_getElem _ _ h]
  exact List.getElem_mem _

/-- In a disjoint layout a cell belongs to one patch. -/
lemma patch_unique {fields : MultiFab d K} (hdisjoint : DisjointLayout fields.layout) {n m : ℕ}
    {i : Index d} (hn : n < fields.layout.boxes.length) (hm : m < fields.layout.boxes.length)
    (hi : i ∈ (fields.box n).cells) (hi' : i ∈ (fields.box m).cells) : n = m := by
  have hpair := hdisjoint.2
  rw [BoxArray.cellSets, List.pairwise_map, List.pairwise_iff_getElem] at hpair
  rw [MultiFab.box, List.getD_eq_getElem _ _ hn] at hi
  rw [MultiFab.box, List.getD_eq_getElem _ _ hm] at hi'
  rcases lt_trichotomy n m with hlt | heq | hlt
  · exact absurd hi' (Finset.disjoint_left.mp (hpair n m hn hm hlt) hi)
  · exact heq
  · exact absurd hi (Finset.disjoint_left.mp (hpair m n hm hn hlt) hi')

/-- What a copy of all components does on the rank. -/
structure Copied (destination source result : MultiFab d K) : Prop where
  destination_disjoint : DisjointLayout destination.layout
  source_disjoint : DisjointLayout source.layout
  metadata : result = destination.setData result.data
  value : ∀ n i c, destination.Stores n i c →
    ∃ m, source.Stores m i c ∧ result.value n i c = source.value m i c
  onto : ∀ m i c, source.Stores m i c → ∃ n, destination.Stores n i c

/-- **A copy without remote jobs moves every cell of the rank.**

**Proof sketch.** A cell of the rank lies in the region of exactly one job.  That job is local
because one of its patches is on the rank, so both are; the jobs write disjoint regions. -/
theorem parallelCopy_spec (hd : d ≤ 3) {launches : CellLaunches d}
    {destination source result : MultiFab d K} {budget : CopyScheduleBudget}
    {schedule : CopySchedule d} (hghosts : ∀ axis, 0 ≤ destination.ghosts axis)
    (hschedule : CopySchedule.prepare destination source budget = .ok schedule)
    (h : parallelCopy launches destination source schedule = .ok result) :
    Copied destination source result := by
  simp only [CopySchedule.prepare, bind_eq_ok, throwIf_eq_ok, exists_const, ne_eq, not_not]
    at hschedule
  obtain ⟨hrank, hcreate⟩ := hschedule
  obtain ⟨⟨hD, hS, hcells⟩, hclassified⟩ := local_spec hd hcreate
  simp only [parallelCopy, parallelCopyComponents, bind_eq_ok, throwIf_eq_ok, exists_const, ne_eq,
    not_not, requireLocalExecution] at h
  obtain ⟨hncomp, _, _, _, hlocal, hloop⟩ := h
  -- the cell of a patch of the rank lies in the region of a local job between two stored patches
  have hjob : ∀ {i : Index d}, i ∈ destination.layout.cells → ∃ job ∈ jobs destination.layout
      source.layout, i ∈ job.region.cells ∧ i ∈ (destination.box job.destinationBox).cells ∧
        i ∈ (source.box job.sourceBox).cells ∧
        job.destinationBox < destination.layout.boxes.length ∧
        job.sourceBox < source.layout.boxes.length := by
    intro i hi
    obtain ⟨job, ⟨hjob, hregion⟩, _⟩ := existsUnique_job hD.2 hS.2 hi (hcells ▸ hi)
    obtain ⟨t, s, ht, hs, heq, _⟩ := mem_jobs.mp hjob
    obtain ⟨hdst, hsrc⟩ := index_lt_of_mem_jobs hjob
    have hboth := hregion
    rw [heq, Box.cells_intersect, Finset.mem_inter] at hboth
    refine ⟨job, hjob, hregion, ?_, ?_, hdst, hsrc⟩
    · rw [MultiFab.box, List.getD_eq_getElem?_getD, ht]
      exact hboth.1
    · rw [MultiFab.box, List.getD_eq_getElem?_getD, hs]
      exact hboth.2
  have hregion : ∀ job ∈ schedule.localJobs, ∀ i ∈ job.region.cells,
      i ∈ (destination.box job.destinationBox).cells := by
    intro job hmem i hi
    obtain ⟨t, s, ht, _, heq, _⟩ := mem_jobs.mp (hclassified.sublist.subset hmem)
    rw [heq, Box.cells_intersect, Finset.mem_inter] at hi
    rw [MultiFab.box, List.getD_eq_getElem?_getD, ht]
    exact hi.1
  have hfold := MultiFab.foldlM_launch CopyJob.destinationBox CopyJob.region
    (fun job => copyKernel source.data (source.view job.sourceBox) 0) hloop ?_ ?_ ?_
  · refine ⟨hD, hS, hfold.1, fun n i c hstores => ?_, fun m i c hstores => ?_⟩
    · obtain ⟨job, hmem, hi, hdestination, hsource, hdst, hsrc⟩ :=
        hjob (BoxArray.mem_cells.mpr ⟨_, box_mem hstores.lt_length, hstores.mem_box⟩)
      obtain rfl := patch_unique hD hdst hstores.lt_length hdestination hstores.mem_box
      have hin := hclassified.complete hlocal job hmem (.inl hstores.containsLocal)
      have hstored := (hclassified.stored job hin).2
      rw [hrank] at hstored
      obtain ⟨k, rfl⟩ := Int.eq_ofNat_of_zero_le hstores.nonneg
      refine ⟨job.sourceBox, ⟨hsrc, hstored, hsource, hstores.nonneg, ?_⟩, ?_⟩
      · rw [← hncomp]
        exact hstores.lt_ncomp
      · rw [hfold.2 job hin i hi k hstores.lt_ncomp, copyKernel, zero_add]
        rfl
    · obtain ⟨job, hmem, hi, hdestination, hsource, hdst, hsrc⟩ := hjob (i := i) (by
        rw [hcells]
        exact BoxArray.mem_cells.mpr ⟨_, box_mem hstores.lt_length, hstores.mem_box⟩)
      obtain rfl := patch_unique hS hsrc hstores.lt_length hsource hstores.mem_box
      have hstored : StoredOn source.distribution job.sourceBox destination.localRank := by
        rw [hrank]
        exact hstores.containsLocal
      have hin := hclassified.complete hlocal job hmem (.inr hstored)
      refine ⟨job.destinationBox, hdst, (hclassified.stored job hin).1, hdestination,
        hstores.nonneg, ?_⟩
      rw [hncomp]
      exact hstores.lt_ncomp
  · intro f f' job hmem hmetadata hstep
    simp only [copyJob, bind_eq_ok, MultiFab.fabGlobal_eq_ok] at hstep
    obtain ⟨_, ⟨hlt, hcontains, rfl⟩, _, ⟨_, _, rfl⟩, hlaunch⟩ := hstep
    have hsame : f.ncomp = destination.ncomp := by rw [hmetadata]; rfl
    have hgrown : f.grownBox job.destinationBox = destination.grownBox job.destinationBox := by
      rw [hmetadata]
      rfl
    rw [← hsame] at hlaunch
    refine MultiFab.launch_spec hlt hcontains (fun i hi => ?_) hlaunch
    rw [hgrown]
    exact MultiFab.mem_grownBox_of_mem_box hghosts (hregion job hmem i hi)
  · intro job hmem i hi c hc
    have hdst := (index_lt_of_mem_jobs (hclassified.sublist.subset hmem)).1
    exact MultiFab.Stores.holds hghosts ⟨hdst, (hclassified.stored job hmem).1,
      hregion job hmem i hi, Int.natCast_nonneg c, hc⟩
  · refine (hclassified.sublist.nodup nodup_jobs).imp_of_mem fun {p q} hp hq hne => ?_
    refine or_iff_not_imp_left.mpr fun _ => Finset.disjoint_left.mpr fun i hi hi' => hne ?_
    have hin : i ∈ destination.layout.cells := BoxArray.mem_cells.mpr
      ⟨_, box_mem (index_lt_of_mem_jobs (hclassified.sublist.subset hp)).1, hregion p hp i hi⟩
    obtain ⟨job, _, hunique⟩ := existsUnique_job hD.2 hS.2 hin (hcells ▸ hin)
    rw [hunique p ⟨hclassified.sublist.subset hp, hi⟩,
      hunique q ⟨hclassified.sublist.subset hq, hi'⟩]

end Transfers

section Cells

variable {K : Type}

/-- The patches of the rank. -/
lemma mem_localGlobalIndices {fields : MultiFab d K} {n : ℕ} :
    n ∈ fields.localGlobalIndices ↔ n < fields.layout.boxes.length ∧ fields.ContainsLocal n := by
  simp [MultiFab.localGlobalIndices]

/-- The patches of the rank are listed once. -/
lemma nodup_localGlobalIndices (fields : MultiFab d K) : fields.localGlobalIndices.Nodup :=
  List.nodup_range.filter _

/-- The cells of a patch have `int` coordinates. -/
lemma isInt_of_mem_box {fields : MultiFab d K} {n : ℕ} (hn : n < fields.layout.boxes.length)
    {j : Index d} (hj : j ∈ (fields.box n).cells) (a : Fin d) : IsInt (j a) :=
  (fields.layout.isInt _ (box_mem hn)).mem hj a

/-- The scratch field stores the parents of the stored fine cells. -/
lemma ScratchOf.stores_iff [Zero K] {fine scratch : MultiFab d K}
    (h : ScratchOf ratio fine scratch) {n : ℕ} {j : Index d} {c : ℤ} :
    fine.Stores n j c ↔ scratch.Stores n (parent ratio j) c := by
  constructor
  · rintro ⟨hlt, hlocal, hmem, hnonneg, hncomp⟩
    have hlt' : n < scratch.layout.boxes.length := h.length_eq ▸ hlt
    exact ⟨hlt', (h.containsLocal_iff n).mpr hlocal, (h.mem_box n hlt' j).mp hmem, hnonneg,
      h.ncomp_eq ▸ hncomp⟩
  · rintro ⟨hlt, hlocal, hmem, hnonneg, hncomp⟩
    exact ⟨h.length_eq ▸ hlt, (h.containsLocal_iff n).mp hlocal, (h.mem_box n hlt j).mpr hmem,
      hnonneg, h.ncomp_eq ▸ hncomp⟩

/-- The scratch field with other elements. -/
lemma ScratchOf.setData [Zero K] {fine scratch : MultiFab d K} (h : ScratchOf ratio fine scratch)
    (data : ℕ × ℤ → K) : ScratchOf ratio fine (scratch.setData data) :=
  ⟨h.length_eq, h.mem_box, h.containsLocal_iff, h.localRank_eq, h.ncomp_eq, h.ghosts_nonneg⟩

/-- The fine cells stored with a child of a stored scratch cell. -/
lemma ScratchOf.children_stored [Zero K] {fine scratch : MultiFab d K}
    (h : ScratchOf ratio fine scratch) (hratio : ∀ a, 0 < ratio a) {n : ℕ} {i : Index d} {c : ℤ}
    (hi : scratch.Stores n i c) : ∀ j ∈ children ratio i, fine.Stores n j c := by
  intro j hj
  rw [h.stores_iff, (mem_children hratio).mp hj]
  exact hi

/-- **Averaging on cells.** A coarse cell of the rank is copied from a scratch patch, where it got
the mean over its children in the fine patch with the same index. -/
theorem averageDown_spec [Field K] (hd : d ≤ 3) {space : TransferSpace d}
    {fine coarse result : MultiFab d K} {budget : CopyScheduleBudget}
    (hghosts : ∀ axis, 0 ≤ coarse.ghosts axis)
    (h : averageDown space fine coarse ratio budget = .ok result) :
    (∀ a, 0 < ratio a) ∧ ∃ scratch, ScratchOf ratio fine scratch ∧ Copied coarse scratch result ∧
      ∀ n i c, scratch.Stores n i c → scratch.value n i c =
        FiberAverage.mean (children ratio i) fun j => fine.value n j c := by
  simp only [averageDown, bind_eq_ok] at h
  obtain ⟨_, _, count, hcount, start, hstart, schedule, hschedule, _, _, scratch, hloop, hcopy⟩ := h
  obtain ⟨hvalid, rfl⟩ := childCount_eq hcount
  have hratio : ∀ a, 0 < ratio a := fun a => (hvalid a).1
  have hscratch := prepareScratch_spec hstart
  have hfold := MultiFab.foldlM_launch id start.box
    (fun n => averageDownKernel fine.data (fine.view n) ratio (∏ a, ratio a)) hloop ?_ ?_ ?_
  · have hset : scratch = start.setData scratch.data := hfold.1
    have hprepare : CopySchedule.prepare coarse scratch budget = .ok schedule := by
      rw [hset]
      exact hschedule
    refine ⟨hratio, scratch, hset ▸ hscratch.setData _, parallelCopy_spec hd hghosts hprepare hcopy,
      fun n i c hstores => ?_⟩
    have hstores' : start.Stores n i c := by
      rw [hset] at hstores
      exact ⟨hstores.1, hstores.2, hstores.3, hstores.4, hstores.5⟩
    have hmem : n ∈ fine.localGlobalIndices := mem_localGlobalIndices.mpr
      ⟨hscratch.length_eq ▸ hstores'.lt_length,
        (hscratch.containsLocal_iff n).mp hstores'.containsLocal⟩
    obtain ⟨k, rfl⟩ := Int.eq_ofNat_of_zero_le hstores'.nonneg
    have hint : ∀ j ∈ children ratio i, ∀ a, IsInt (j a) := by
      intro j hj
      have hfine := hscratch.children_stored hratio hstores' j hj
      exact isInt_of_mem_box hfine.lt_length hfine.mem_box
    have hvalue := hfold.2 n hmem i hstores'.mem_box k hstores'.lt_ncomp
    rw [averageDownKernel_eq hratio hint] at hvalue
    exact hvalue
  · intro f f' n hmem hmetadata hstep
    simp only [averagePatch, bind_eq_ok, MultiFab.fabGlobal_eq_ok] at hstep
    obtain ⟨_, ⟨hlt, hcontains, rfl⟩, hlaunch⟩ := hstep
    have hsame : f.ncomp = fine.ncomp := by
      rw [hmetadata]
      exact hscratch.ncomp_eq
    have hbox : f.box n = start.box n := by rw [hmetadata]; rfl
    rw [← hsame, hbox] at hlaunch
    refine MultiFab.launch_spec hlt hcontains (fun i hi => ?_) hlaunch
    refine MultiFab.mem_grownBox_of_mem_box ?_ (hbox ▸ hi)
    rw [hmetadata]
    exact hscratch.ghosts_nonneg
  · intro n hmem i hi c hc
    obtain ⟨hlt, hlocal⟩ := mem_localGlobalIndices.mp hmem
    exact MultiFab.Stores.holds hscratch.ghosts_nonneg ⟨hscratch.length_eq ▸ hlt,
      (hscratch.containsLocal_iff n).mpr hlocal, hi, Int.natCast_nonneg c, hc⟩
  · exact (nodup_localGlobalIndices fine).imp fun hne => .inl hne

/-- **Interpolation on cells.** A fine cell of the rank gets the value of its parent in the scratch
patch with the same index, which was copied from the coarse field. -/
theorem interpolate_spec [Zero K] (hd : d ≤ 3) {space : TransferSpace d}
    {coarse fine result : MultiFab d K} {budget : CopyScheduleBudget}
    (hghosts : ∀ axis, 0 ≤ fine.ghosts axis)
    (h : interpolate space coarse fine ratio budget = .ok result) :
    result = fine.setData result.data ∧ ∃ start scratch, ScratchOf ratio fine start ∧
      Copied start coarse scratch ∧ ∀ n j c, fine.Stores n j c →
        result.value n j c = scratch.value n (parent ratio j) c := by
  simp only [interpolate, bind_eq_ok, validateTransferFields, validateRatio_eq_ok, throwIf_eq_ok,
    exists_const] at h
  obtain ⟨⟨hvalid, _⟩, start, hstart, schedule, hschedule, _, _, scratch, hcopy, hloop⟩ := h
  have hratio : ∀ a, 0 < ratio a := fun a => (hvalid a).1
  have hscratch := prepareScratch_spec hstart
  have hcopied := parallelCopy_spec hd hscratch.ghosts_nonneg hschedule hcopy
  have hview : ∀ n, scratch.view n = start.view n := by
    intro n
    rw [hcopied.metadata]
    rfl
  have hfold := MultiFab.foldlM_launch id fine.box
    (fun n => interpolateKernel scratch.data (start.view n) ratio) hloop ?_ ?_ ?_
  · refine ⟨hfold.1, start, scratch, hscratch, hcopied, fun n j c hstores => ?_⟩
    have hmem : n ∈ fine.localGlobalIndices :=
      mem_localGlobalIndices.mpr ⟨hstores.lt_length, hstores.containsLocal⟩
    obtain ⟨k, rfl⟩ := Int.eq_ofNat_of_zero_le hstores.nonneg
    have hvalue := hfold.2 n hmem j hstores.mem_box k hstores.lt_ncomp
    rw [interpolateKernel, coarseIndex_eq hratio (isInt_of_mem_box hstores.lt_length
      hstores.mem_box), ← hview n] at hvalue
    exact hvalue
  · intro f f' n hmem hmetadata hstep
    simp only [interpolatePatch, bind_eq_ok, MultiFab.fabGlobal_eq_ok] at hstep
    obtain ⟨_, ⟨_, _, rfl⟩, hlaunch⟩ := hstep
    obtain ⟨hlt, hlocal⟩ := mem_localGlobalIndices.mp hmem
    have hbox : f.box n = fine.box n := by rw [hmetadata]; rfl
    rw [hbox, hview] at hlaunch
    refine MultiFab.launch_spec ?_ ?_ (fun i hi => ?_) hlaunch
    · rw [hmetadata]
      exact hlt
    · rw [hmetadata]
      exact hlocal
    · refine MultiFab.mem_grownBox_of_mem_box ?_ (hbox ▸ hi)
      rw [hmetadata]
      exact hghosts
  · intro n hmem i hi c hc
    obtain ⟨hlt, hlocal⟩ := mem_localGlobalIndices.mp hmem
    exact MultiFab.Stores.holds hghosts ⟨hlt, hlocal, hi, Int.natCast_nonneg c, hc⟩
  · exact (nodup_localGlobalIndices fine).imp fun hne => .inl hne

end Cells

/-! ## Totals -/

/-- The sum of a component over the valid cells of the rank. -/
def total {K : Type} [AddCommMonoid K] (fields : MultiFab d K) (c : ℤ) : K :=
  (fields.localGlobalIndices.map fun n => ∑ i ∈ (fields.box n).cells, fields.value n i c).sum

section Totals

variable {K : Type}

/-- The valid cells of the rank, each with its patch. -/
def localCells (fields : MultiFab d K) : Finset ((_ : ℕ) × Index d) :=
  fields.localGlobalIndices.toFinset.sigma fun n => (fields.box n).cells

/-- The valid cells of the rank are the stored ones. -/
lemma mem_localCells {fields : MultiFab d K} {c : ℤ} (h0 : 0 ≤ c) (hc : c < fields.ncomp)
    {x : (_ : ℕ) × Index d} : x ∈ localCells fields ↔ fields.Stores x.1 x.2 c := by
  rw [localCells, Finset.mem_sigma, List.mem_toFinset, mem_localGlobalIndices]
  exact ⟨fun h => ⟨h.1.1, h.1.2, h.2, h0, hc⟩, fun h => ⟨⟨h.1, h.2⟩, h.3⟩⟩

/-- The total is a sum over the valid cells. -/
lemma total_eq [AddCommMonoid K] (fields : MultiFab d K) (c : ℤ) :
    total fields c = ∑ x ∈ localCells fields, fields.value x.1 x.2 c := by
  rw [total, localCells, Finset.sum_sigma, List.sum_toFinset _ (nodup_localGlobalIndices fields)]

/-- A copy keeps the totals: it is a bijection between the cells of the rank. -/
lemma Copied.total_eq [AddCommMonoid K] {destination source result : MultiFab d K}
    (h : Copied destination source result) {c : ℤ} (h0 : 0 ≤ c) (hc : c < destination.ncomp)
    (hc' : c < source.ncomp) : total result c = total source c := by
  rw [Refinement.total_eq, Refinement.total_eq]
  have hcells : localCells result = localCells destination := by
    rw [h.metadata]
    rfl
  rw [hcells]
  have hstores : ∀ x ∈ localCells destination, destination.Stores x.1 x.2 c :=
    fun x hx => (mem_localCells h0 hc).mp hx
  choose m hm hvalue using fun x hx => h.value x.1 x.2 c (hstores x hx)
  refine Finset.sum_bij (fun x hx => ⟨m x hx, x.2⟩) ?_ ?_ ?_ fun x hx => hvalue x hx
  · intro x hx
    exact (mem_localCells h0 hc').mpr (hm x hx)
  · rintro ⟨n, i⟩ hx ⟨n', i'⟩ hx' heq
    obtain rfl : i = i' := congrArg Sigma.snd heq
    have hn : destination.Stores n i c := hstores _ hx
    have hn' : destination.Stores n' i c := hstores _ hx'
    rw [patch_unique h.destination_disjoint hn.lt_length hn'.lt_length hn.mem_box hn'.mem_box]
  · rintro ⟨k, i⟩ hy
    have hk := (mem_localCells h0 hc').mp hy
    obtain ⟨n, hn⟩ := h.onto k i c hk
    have hx : (⟨n, i⟩ : (_ : ℕ) × Index d) ∈ localCells destination :=
      (mem_localCells h0 hc).mpr hn
    have hmx := hm _ hx
    refine ⟨⟨n, i⟩, hx, ?_⟩
    rw [patch_unique h.source_disjoint hmx.lt_length hk.lt_length hmx.mem_box hk.mem_box]

/-- A scratch field of means has the total of the fine field, up to the child count. -/
lemma ScratchOf.total_mul [Field K] [CharZero K] {fine scratch : MultiFab d K}
    (h : ScratchOf ratio fine scratch) (hratio : ∀ a, 0 < ratio a) {c : ℤ} (h0 : 0 ≤ c)
    (hc : c < scratch.ncomp)
    (hvalue : ∀ n i c, scratch.Stores n i c → scratch.value n i c =
      FiberAverage.mean (children ratio i) fun j => fine.value n j c) :
    total scratch c * ((∏ a, ratio a : ℤ) : K) = total fine c := by
  have hpos : 0 < ∏ a, ratio a := Finset.prod_pos fun a _ => hratio a
  have hcast : ((∏ a, ratio a : ℤ) : K) = ((∏ a, ratio a).toNat : K) := by
    rw [← Int.cast_natCast, Int.toNat_of_nonneg hpos.le]
  have hlocals : scratch.localGlobalIndices = fine.localGlobalIndices := by
    rw [MultiFab.localGlobalIndices, MultiFab.localGlobalIndices, h.length_eq]
    exact List.filter_congr fun n _ => decide_eq_decide.mpr (h.containsLocal_iff n)
  rw [total, total, hlocals, ← List.sum_map_mul_right, hcast]
  refine congrArg List.sum (List.map_congr_left fun n hn => ?_)
  obtain ⟨hlt, hlocal⟩ := mem_localGlobalIndices.mp hn
  have hlt' : n < scratch.layout.boxes.length := h.length_eq ▸ hlt
  have hmean : ∀ i ∈ (scratch.box n).cells, scratch.value n i c =
      FiberAverage.mean (children ratio i) fun j => fine.value n j c := fun i hi =>
    hvalue n i c ⟨hlt', (h.containsLocal_iff n).mpr hlocal, hi, h0, hc⟩
  rw [Finset.sum_congr rfl hmean]
  have hparent : ∀ j ∈ (fine.box n).cells, parent ratio j ∈ (scratch.box n).cells :=
    fun j hj => (h.mem_box n hlt' j).mp hj
  refine FiberAverage.sum_mean_mul (by omega) (fun i hi j => ?_) (fun i _ => ?_) hparent _
  · rw [mem_children hratio, h.mem_box n hlt']
    exact ⟨fun hp => ⟨hp ▸ hi, hp⟩, fun hp => hp.2⟩
  · have := card_children hratio i
    omega

end Totals

/-- **The transfers are conservative, and averaging inverts interpolation.**  Interpolating a coarse
field and averaging the result down gives back, on every valid cell and component, the value of the
one coarse patch that holds the cell.  For every fine field, an averaged value times the product of
the ratios is the sum over as many distinct children, all in one fine patch, so the totals of the
rank agree up to the child count.

**Proof sketch.** Both transfers go through a scratch field with one patch for each fine patch: its
cells are the parents of the cells of the fine patch.  Averaging puts there the means over the
children, interpolation reads there the values of the parents, and the mean of one value is that
value.  The copy is a bijection between the cells that the rank stores of the two layouts. -/
theorem averageDown_conserves {K : Type} [Field K] [CharZero K] (hd : d ≤ 3) (ratio : Extent d) :
    (∀ (space space' : TransferSpace d) (budget budget' : CopyScheduleBudget)
        (coarse fine fine' target target' : MultiFab d K), fine.Constructed → target.Constructed →
        interpolate space coarse fine ratio budget = .ok fine' →
        averageDown space' fine' target ratio budget' = .ok target' →
        ∀ n i c, target.Stores n i c → ∃ m, coarse.Stores m i c ∧
          (∀ m', coarse.Stores m' i c → m' = m) ∧
          target'.value n i c = coarse.value m i c) ∧
      ∀ (space : TransferSpace d) (budget : CopyScheduleBudget) (fine coarse coarse' :
        MultiFab d K),
        coarse.Constructed → averageDown space fine coarse ratio budget = .ok coarse' →
        (∀ n i c, coarse.Stores n i c → ((children ratio i).card : ℤ) = ∏ a, ratio a ∧
          ∃ s, (∀ j ∈ children ratio i, fine.Stores s j c) ∧
            coarse'.value n i c * ((∏ a, ratio a : ℤ) : K) =
              ∑ j ∈ children ratio i, fine.value s j c) ∧
        ∀ c, 0 ≤ c → c < coarse.ncomp →
          total coarse' c * ((∏ a, ratio a : ℤ) : K) = total fine c := by
  refine ⟨?_, ?_⟩
  · intro space space' budget budget' coarse fine fine' target target' hfine htarget hinterpolate
      haverage n i c hstores
    obtain ⟨_, _, _, hghosts⟩ := MultiFab.validateMetadata_eq_ok.mp hfine
    obtain ⟨_, _, _, hghosts'⟩ := MultiFab.validateMetadata_eq_ok.mp htarget
    obtain ⟨hset, start, filled, hstart, hcopied, hparent⟩ :=
      interpolate_spec hd hghosts hinterpolate
    obtain ⟨hratio, scratch, hscratch, hcopied', hmean⟩ := averageDown_spec hd hghosts' haverage
    obtain ⟨s, hs, hvalue⟩ := hcopied'.value n i c hstores
    have hchildren := hscratch.children_stored hratio hs
    -- every child got the value that the scratch patch of its index holds for the parent
    have hchild : ∀ j ∈ children ratio i, fine.Stores s j c := by
      intro j hj
      have hstored := hchildren j hj
      rw [hset] at hstored
      exact ⟨hstored.1, hstored.2, hstored.3, hstored.4, hstored.5⟩
    have hconst : ∀ j ∈ children ratio i, fine'.value s j c = filled.value s i c := by
      intro j hj
      rw [hparent s j c (hchild j hj), (mem_children hratio).mp hj]
    obtain ⟨j, hj⟩ := children_nonempty hratio i
    have hstarted : start.Stores s i c := by
      rw [← (mem_children hratio).mp hj]
      exact hstart.stores_iff.mp (hchild j hj)
    obtain ⟨m, hm, hfilled⟩ := hcopied.value s i c hstarted
    refine ⟨m, hm, fun m' hm' => patch_unique hcopied.source_disjoint hm'.lt_length hm.lt_length
      hm'.mem_box hm.mem_box, ?_⟩
    rw [hvalue, hmean s i c hs, FiberAverage.mean_of_const (children_nonempty hratio i) hconst,
      hfilled]
  · intro space budget fine coarse coarse' hcoarse haverage
    obtain ⟨_, _, _, hghosts⟩ := MultiFab.validateMetadata_eq_ok.mp hcoarse
    obtain ⟨hratio, scratch, hscratch, hcopied, hmean⟩ := averageDown_spec hd hghosts haverage
    have hcard : ∀ i, ((∏ a, ratio a : ℤ) : K) = ((children ratio i).card : K) := by
      intro i
      rw [← card_children hratio i, Int.cast_natCast]
    refine ⟨fun n i c hstores => ⟨card_children hratio i, ?_⟩, fun c h0 hc => ?_⟩
    · obtain ⟨s, hs, hvalue⟩ := hcopied.value n i c hstores
      refine ⟨s, hscratch.children_stored hratio hs, ?_⟩
      rw [hvalue, hmean s i c hs, hcard i, FiberAverage.mean_mul_card (children_nonempty hratio i)]
    · have hncomp : c < scratch.ncomp := by
        simp only [averageDown, bind_eq_ok, validateTransferFields, throwIf_eq_ok, exists_const,
          ne_eq, not_not] at haverage
        obtain ⟨⟨_, _, hsame, _⟩, _⟩ := haverage
        rw [hscratch.ncomp_eq, hsame]
        exact hc
      rw [hcopied.total_eq h0 hc hncomp, hscratch.total_mul hratio h0 hncomp hmean]

/-! ## A line of cells -/

/-- Iterations in the order of their ordinals. -/
def serialLaunches (d : ℕ) :
    CellLaunches d := ⟨fun _ points => List.range points, fun _ _ => .refl _⟩

/-- A field on patches of rank `0`, with the offset of every element as its value. -/
def lineField (layout : BoxArray 1) (owners : List (Index 1))
    (accepted : Distribution.validate layout RankSpace.line .partitioned owners = .ok ()) :
    MultiFab 1 ℚ where
  layout := layout
  distribution := ⟨layout, RankSpace.line, .partitioned, owners, accepted⟩
  localRank := 0
  ncomp := 1
  ghosts _ := 1
  data address := address.2

/-- The coarse patch `[-1, 0]`. -/
def coarseLine : MultiFab 1 ℚ :=
  lineField ⟨[Box.line (-1) 0], by decide +kernel⟩ [0] (by decide +kernel)

/-- The fine patches `[-2, -1]` and `[0, 1]`. -/
def fineLine : MultiFab 1 ℚ :=
  lineField ⟨[Box.line (-2) (-1), Box.line 0 1], by decide +kernel⟩ [0, 0] (by decide +kernel)

/-- The coarse line is accepted. -/
lemma coarseLine_constructed : coarseLine.Constructed :=
  MultiFab.validateMetadata_eq_ok.mpr (by decide +kernel)

/-- The fine line is accepted. -/
lemma fineLine_constructed : fineLine.Constructed :=
  MultiFab.validateMetadata_eq_ok.mpr (by decide +kernel)

/-- Interpolate the coarse line to the fine one and average it down. -/
def lineRoundTrip : Throws (MultiFab 1 ℚ) := do
  let fine ← interpolate ⟨serialLaunches 1, serialLaunches 1⟩ coarseLine fineLine (fun _ => 2)
    ⟨2, 2, 1, 1⟩
  averageDown ⟨serialLaunches 1, serialLaunches 1⟩ fine coarseLine (fun _ => 2) ⟨2, 2, 1, 1⟩

/-- The cell `-1` of the line keeps its value. -/
theorem averageDown_conserves_line :
    ∃ fine coarse, interpolate ⟨serialLaunches 1, serialLaunches 1⟩ coarseLine fineLine (fun _ => 2)
        ⟨2, 2, 1, 1⟩ = .ok fine ∧
      averageDown ⟨serialLaunches 1, serialLaunches 1⟩ fine coarseLine (fun _ => 2) ⟨2, 2, 1, 1⟩ =
        .ok coarse ∧ coarse.value 0 (fun _ => -1) 0 = coarseLine.value 0 (fun _ => -1) 0 := by
  have hreturns : lineRoundTrip.isOk = true := by decide +kernel
  unfold lineRoundTrip at hreturns
  cases hfine : interpolate ⟨serialLaunches 1, serialLaunches 1⟩ coarseLine fineLine (fun _ => 2)
      ⟨2, 2, 1, 1⟩ with
  | error e =>
    rw [hfine] at hreturns
    cases hreturns
  | ok fine =>
    cases hcoarse : averageDown ⟨serialLaunches 1, serialLaunches 1⟩ fine coarseLine (fun _ => 2)
        ⟨2, 2, 1, 1⟩ with
    | error e =>
      rw [hfine, ok_bind, hcoarse] at hreturns
      cases hreturns
    | ok coarse =>
      have hstores : coarseLine.Stores 0 (fun _ => -1) 0 :=
        ⟨by decide, by decide, by decide +kernel, by decide, by decide⟩
      obtain ⟨m, _, hunique, hvalue⟩ := (averageDown_conserves (by decide) fun _ => 2).1 _ _ _ _
        coarseLine fineLine fine coarseLine coarse fineLine_constructed coarseLine_constructed hfine
        hcoarse 0 (fun _ => -1) 0 hstores
      exact ⟨fine, coarse, rfl, hcoarse, by rw [hvalue, hunique 0 hstores]⟩

end Refinement

end Pops
