import Pops.Mesh.Boundary.HaloSchedule

/-!
# What a halo schedule covers

The canonical jobs of a halo schedule as a pure list, and the proof that they fill every
reachable ghost cell exactly once.  A ghost cell is reachable when some translation by whole
domain lengths along the periodic axes moves it into a patch.

## Main definitions

* `Pops.PeriodicShift` — translations by whole domain lengths along the periodic axes.
* `Pops.HaloSchedule.jobsOf` — the canonical jobs without the checks of the loops.

## Main results

* `Pops.HaloSchedule.countP_subtract` — the decomposition covers the difference exactly once.
* `Pops.HaloSchedule.exists_image` — every reachable periodic image is enumerated.
* `Pops.haloSchedule_fills_ghosts_once` — every reachable ghost cell is filled by exactly one
  job.
-/

namespace Pops

variable {d : ℕ}

/-- A translation by whole domain lengths along the periodic axes. -/
def PeriodicShift (domain : Box d) (topology : BoundaryTopology d) (s : Index d) : Prop :=
  ∀ a, (topology.IsPeriodic ⟨a, .lower⟩ → ∃ k : ℤ, s a = k * domain.length a) ∧
    (¬ topology.IsPeriodic ⟨a, .lower⟩ → s a = 0)

namespace HaloSchedule

/-! ## Box subtraction -/

/-- The indicator of a cell in a box. -/
def hits (g : Index d) (box : Box d) : ℕ := if g ∈ box.cells then 1 else 0

/-- The number of boxes of a list that contain a cell. -/
def hitCount (g : Index d) (boxes : List (Box d)) : ℕ :=
  boxes.countP fun box => g ∈ box.cells

/-- One more box adds its indicator. -/
lemma hitCount_append_singleton (g : Index d) (boxes : List (Box d)) (box : Box d) :
    hitCount g (boxes ++ [box]) = hitCount g boxes + hits g box := by
  unfold hitCount hits
  rw [List.countP_append, List.countP_singleton]
  simp only [decide_eq_true_eq]

/-- Splitting a box along one axis below `m` splits its cells. -/
lemma hits_split (g : Index d) {box : Box d} {axis : Fin d} {m : ℤ} (hlo : box.lo axis ≤ m)
    (hhi : m - 1 ≤ box.hi axis) :
    hits g (box.setHi axis (m - 1)) + hits g (box.setLo axis m) = hits g box := by
  unfold hits
  simp only [Box.mem_setHi hhi, Box.mem_setLo hlo]
  by_cases hbox : g ∈ box.cells
  · by_cases hm : g axis ≤ m - 1
    · rw [if_pos ⟨hbox, hm⟩, if_neg (fun h => by omega), if_pos hbox]
    · rw [if_neg (fun h => hm h.2), if_pos ⟨hbox, by omega⟩, if_pos hbox]
  · rw [if_neg (fun h => hbox h.1), if_neg (fun h => hbox h.1), if_neg hbox]

/-- The loop invariant of the subtraction: the pieces and the remainder cover the subject. -/
def Covers (subject : Box d) (g : Index d) (state : List (Box d) × Box d) : Prop :=
  hitCount g state.1 + hits g state.2 = hits g subject

/-- Cutting the lower part off keeps the cover and raises the lower bound to the overlap. -/
lemma cutLower_spec {subject overlap : Box d} {g : Index d} {state : List (Box d) × Box d}
    {axis : Fin d} (h : Covers subject g state) (hlo : state.2.lo axis ≤ overlap.lo axis)
    (hhi : overlap.lo axis ≤ state.2.hi axis) :
    Covers subject g (cutLower overlap axis state) ∧
      (cutLower overlap axis state).2 = state.2.setLo axis (overlap.lo axis) := by
  unfold cutLower
  by_cases hlt : state.2.lo axis < overlap.lo axis
  · rw [if_pos hlt]
    refine ⟨?_, rfl⟩
    have hsplit := hits_split g hlt.le (show overlap.lo axis - 1 ≤ state.2.hi axis by omega)
    unfold Covers at h ⊢
    simp only [hitCount_append_singleton]
    omega
  · have heq : overlap.lo axis = state.2.lo axis := by omega
    rw [if_neg hlt, heq, Box.setLo, Function.update_eq_self]
    exact ⟨h, rfl⟩

/-- Cutting the upper part off keeps the cover and lowers the upper bound to the overlap. -/
lemma cutUpper_spec {subject overlap : Box d} {g : Index d} {state : List (Box d) × Box d}
    {axis : Fin d} (h : Covers subject g state) (hlo : state.2.lo axis ≤ overlap.hi axis)
    (hhi : overlap.hi axis ≤ state.2.hi axis) :
    Covers subject g (cutUpper overlap axis state) ∧
      (cutUpper overlap axis state).2 = state.2.setHi axis (overlap.hi axis) := by
  unfold cutUpper
  by_cases hlt : overlap.hi axis < state.2.hi axis
  · rw [if_pos hlt]
    refine ⟨?_, rfl⟩
    have hsplit := hits_split g (show state.2.lo axis ≤ overlap.hi axis + 1 by omega) (by omega)
    rw [show overlap.hi axis + 1 - 1 = overlap.hi axis by omega] at hsplit
    unfold Covers at h ⊢
    simp only [hitCount_append_singleton]
    omega
  · have heq : overlap.hi axis = state.2.hi axis := by omega
    rw [if_neg hlt, heq, Box.setHi, Function.update_eq_self]
    exact ⟨h, rfl⟩

/-- The loop of the subtraction covers the subject with its pieces and the overlap.

**Proof sketch.** Induction on the visited axes: the remainder has the bounds of the overlap on
the visited axes and those of the subject on the others, so both cuts of the next axis are inside
the remainder. -/
theorem subtract_loop (subject cut : Box d) (g : Index d)
    (hne : ¬ (subject.intersect cut).Empty) (axes : List (Fin d)) (hnodup : axes.Nodup) :
    let state := axes.foldl (fun state axis => cutUpper (subject.intersect cut) axis
      (cutLower (subject.intersect cut) axis state)) ([], subject)
    Covers subject g state ∧ ∀ a,
      state.2.lo a = (if a ∈ axes then (subject.intersect cut).lo a else subject.lo a) ∧
      state.2.hi a = (if a ∈ axes then (subject.intersect cut).hi a else subject.hi a) := by
  induction axes using List.reverseRecOn with
  | nil => exact ⟨by simp [Covers, hitCount], fun a => by simp⟩
  | append_singleton axes axis ih =>
    have hnotin : axis ∉ axes := fun hmem =>
      (List.nodup_append.mp hnodup).2.2 axis hmem axis (List.mem_singleton_self axis) rfl
    obtain ⟨hcovers, hbounds⟩ := ih (List.nodup_append.mp hnodup).1
    rw [List.foldl_append, List.foldl_cons, List.foldl_nil]
    set state := axes.foldl (fun state axis => cutUpper (subject.intersect cut) axis
      (cutLower (subject.intersect cut) axis state)) ([], subject)
    set overlap := subject.intersect cut with hover
    have hle := Box.lo_le_hi hne axis
    have hlo : subject.lo axis ≤ overlap.lo axis := le_max_left _ _
    have hhi : overlap.hi axis ≤ subject.hi axis := min_le_left _ _
    have haxis := hbounds axis
    rw [if_neg hnotin, if_neg hnotin] at haxis
    have hlo' : state.2.lo axis ≤ overlap.lo axis := by omega
    obtain ⟨hc1, hb1⟩ := cutLower_spec hcovers hlo' (by omega)
    have hlo'' : (cutLower overlap axis state).2.lo axis ≤ overlap.hi axis := by
      rw [hb1, Box.setLo_lo, Function.update_self]
      exact hle
    have hhi'' : overlap.hi axis ≤ (cutLower overlap axis state).2.hi axis := by
      rw [hb1, Box.setLo_hi]
      omega
    obtain ⟨hc2, hb2⟩ := cutUpper_spec hc1 hlo'' hhi''
    refine ⟨hc2, fun a => ?_⟩
    rw [hb2, hb1, Box.setHi_lo, Box.setHi_hi, Box.setLo_lo, Box.setLo_hi]
    by_cases ha : a = axis
    · subst ha
      simp
    · have hmem : a ∈ axes ++ [axis] ↔ a ∈ axes := by simp [ha]
      simp only [Function.update_of_ne ha, hmem]
      exact hbounds a

/-- **The decomposition is exact**: a cell of the subject outside the cut lies in exactly one of
the pieces, every other cell in none. -/
theorem countP_subtract (subject cut : Box d) (g : Index d) :
    hitCount g (subtract subject cut) =
      if g ∈ subject.cells ∧ g ∉ cut.cells then 1 else 0 := by
  have hoverlap : g ∈ (subject.intersect cut).cells ↔ g ∈ subject.cells ∧ g ∈ cut.cells := by
    rw [Box.cells_intersect, Finset.mem_inter]
  unfold subtract
  by_cases hempty : (subject.intersect cut).Empty
  · have hnot : ¬ (g ∈ subject.cells ∧ g ∈ cut.cells) := fun h =>
      Box.not_empty_of_mem (hoverlap.mpr h) hempty
    simp only [if_pos hempty, hitCount, List.countP_singleton, decide_eq_true_eq]
    refine if_congr ⟨fun h => ⟨h, fun hc => hnot ⟨h, hc⟩⟩, fun h => h.1⟩ rfl rfl
  · by_cases heq : subject.intersect cut = subject
    · rw [heq] at hoverlap
      simp only [if_neg hempty, if_pos heq, hitCount, List.countP_nil]
      rw [if_neg fun h => h.2 (hoverlap.mp h.1).2]
    · simp only [if_neg hempty, if_neg heq]
      obtain ⟨hcovers, hbounds⟩ := subtract_loop subject cut g hempty (List.finRange d)
        (List.nodup_finRange d)
      set state := (List.finRange d).foldl (fun state axis => cutUpper (subject.intersect cut)
        axis (cutLower (subject.intersect cut) axis state)) ([], subject)
      have hrest : state.2 = subject.intersect cut := by
        refine Box.ext (funext fun a => ?_) (funext fun a => ?_)
        · simpa using (hbounds a).1
        · simpa using (hbounds a).2
      unfold Covers hits at hcovers
      rw [hrest] at hcovers
      by_cases hs : g ∈ subject.cells
      · by_cases hc : g ∈ cut.cells
        · rw [if_pos (hoverlap.mpr ⟨hs, hc⟩), if_pos hs] at hcovers
          rw [if_neg fun h => h.2 hc]
          omega
        · rw [if_neg fun h => hc (hoverlap.mp h).2, if_pos hs] at hcovers
          rw [if_pos ⟨hs, hc⟩]
          omega
      · rw [if_neg fun h => hs (hoverlap.mp h).1, if_neg hs] at hcovers
        rw [if_neg fun h => hs h.1]
        omega

/-! ## Periodic images -/

/-- The number of domain lengths of an image option: `0, 1, -1, 2, -2, …`. -/
def wrapOf (option : ℕ) : ℤ :=
  if option = 0 then 0 else if option % 2 = 1 then 1 + (option - 1) / 2 else -(1 + (option - 1) / 2)

/-- The image option of a number of domain lengths. -/
def optionOf (wraps : ℤ) : ℕ := if 0 < wraps then (2 * wraps - 1).toNat else (-2 * wraps).toNat

/-- Every number of domain lengths is the wrap of its option. -/
lemma wrapOf_optionOf (k : ℤ) : wrapOf (optionOf k) = k := by
  unfold wrapOf optionOf
  split_ifs <;> omega

/-- An option is determined by its wrap. -/
lemma optionOf_wrapOf (o : ℕ) : optionOf (wrapOf o) = o := by
  unfold wrapOf optionOf
  split_ifs <;> omega

/-- The option of at most `w` domain lengths in either direction is at most `2 w`. -/
lemma optionOf_le {k : ℤ} {w : ℕ} (h1 : -w ≤ k) (h2 : k ≤ w) : optionOf k < 1 + 2 * w := by
  unfold optionOf
  split_ifs <;> omega

/-- The number of images along an axis, without the checks. -/
def imageCount (inputs : HaloInputs d) (axis : Fin d) : ℕ :=
  if inputs.topology.IsPeriodic ⟨axis, .lower⟩ ∧ inputs.ghosts axis ≠ 0 then
    1 + 2 * (1 + (inputs.ghosts axis - 1) / inputs.domain.length axis).toNat
  else 1

/-- The shift of an image ordinal, without the checks. -/
def imageVector (inputs : HaloInputs d) (image : ℕ) : Index d :=
  fun a => wrapOf (MixedRadix.unrank (imageCount inputs) image a) * inputs.domain.length a

/-- When the axis count returns, the ghost depth is nonnegative and it is the number of images. -/
lemma axisImageCount_eq_ok {inputs : HaloInputs d} {axis : Fin d} {n : ℕ}
    (h : axisImageCount inputs axis = .ok n) :
    0 ≤ inputs.ghosts axis ∧ n = imageCount inputs axis := by
  unfold axisImageCount at h
  unfold imageCount
  rw [bind_eq_ok] at h
  obtain ⟨_, hghost, h⟩ := h
  rw [throwIf_eq_ok, not_lt] at hghost
  refine ⟨hghost, ?_⟩
  split_ifs at h ⊢ with hper
  · simp only [bind_eq_ok, throwIf_eq_ok, exists_const, pure_eq_ok, not_le] at h
    obtain ⟨hlen, _, rfl⟩ := h
    have hdepth := hper.2
    rw [Int.tdiv_eq_ediv_of_nonneg (by omega)]
  · exact (pure_eq_ok.mp h).symm

/-- When the image counts return, they are the numbers of images and their product. -/
lemma imageCounts_eq_ok {inputs : HaloInputs d} {images : (Fin d → ℕ) × ℕ}
    (h : imageCounts inputs = .ok images) :
    (∀ a, 0 ≤ inputs.ghosts a) ∧ images.1 = imageCount inputs ∧
      images.2 = ∏ a, imageCount inputs a := by
  have hinv := foldlM_invariant
    (P := fun done (state : (Fin d → ℕ) × ℕ) => (∀ a ∈ done, 0 ≤ inputs.ghosts a ∧
      state.1 a = imageCount inputs a) ∧ state.2 = (done.map (imageCount inputs)).prod) h
    (by simp) (fun done a rest s s' _ hs hstep => by
      simp only [bind_eq_ok, checkedProduct, throwIf_eq_ok, exists_const, pure_eq_ok] at hstep
      obtain ⟨count, hcount, total, ⟨_, rfl⟩, rfl⟩ := hstep
      obtain ⟨hghost, rfl⟩ := axisImageCount_eq_ok hcount
      refine ⟨fun b hb => ?_, by simp [hs.2]⟩
      by_cases hba : b = a
      · subst hba
        exact ⟨hghost, Function.update_self _ _ _⟩
      · have hb' : b ∈ done := by simpa [hba] using hb
        exact ⟨(hs.1 b hb').1, (Function.update_of_ne hba _ _).trans (hs.1 b hb').2⟩)
  refine ⟨fun a => (hinv.1 a (List.mem_finRange a)).1,
    funext fun a => (hinv.1 a (List.mem_finRange a)).2, ?_⟩
  rw [hinv.2, ← List.ofFn_eq_map, List.prod_ofFn]

/-- When the shift of an option returns, it is that many domain lengths. -/
lemma axisShift_eq_ok {option : ℕ} {length v : ℤ} (h : axisShift option length = .ok v) :
    v = wrapOf option * length := by
  unfold axisShift at h
  unfold wrapOf
  split_ifs at h ⊢ with h0 hodd
  · rw [← pure_eq_ok.mp h, Int.zero_mul]
  · simp only [bind_eq_ok, checkedMultiply, throwIf_eq_ok, exists_const, pure_eq_ok,
      checkedIndex_eq_ok] at h
    obtain ⟨_, _, ⟨_, _, rfl⟩, _, rfl⟩ := h
    push_cast
    rw [Nat.cast_sub (by omega)]
    rfl
  · simp only [bind_eq_ok, checkedMultiply, throwIf_eq_ok, exists_const, pure_eq_ok,
      checkedIndex_eq_ok] at h
    obtain ⟨_, _, ⟨_, _, rfl⟩, _, rfl⟩ := h
    push_cast
    rw [Nat.cast_sub (by omega), Int.neg_mul]
    rfl

/-- When the shift of an image returns, it is its vector. -/
lemma imageShift_eq_ok {inputs : HaloInputs d} {image : ℕ} {s : Index d}
    (h : imageShift image (imageCount inputs) inputs.domain = .ok s) :
    s = imageVector inputs image := by
  unfold imageShift at h
  rw [forEachAxis_eq_ok] at h
  exact funext fun a => axisShift_eq_ok (h a)

/-- A negation that returns is exact. -/
lemma negate_eq_ok {s t : Index d} (h : negate s = .ok t) : t = -s := by
  unfold negate at h
  rw [forEachAxis_eq_ok] at h
  exact funext fun a => ((checkedIndex_eq_ok.mp (h a)).2).symm

/-- Every image is a translation by whole domain lengths along the periodic axes. -/
lemma periodicShift_imageVector (inputs : HaloInputs d) (image : ℕ) :
    PeriodicShift inputs.domain inputs.topology (imageVector inputs image) := by
  refine fun a => ⟨fun _ => ⟨_, rfl⟩, fun hnot => ?_⟩
  have hcount : imageCount inputs a = 1 := if_neg fun h => hnot h.1
  have hpos : ∀ b, 0 < imageCount inputs b := fun b => by
    unfold imageCount
    split_ifs <;> omega
  have hlt := MixedRadix.unrank_lt hpos image a
  have hzero : MixedRadix.unrank (imageCount inputs) image a = 0 := by omega
  rw [imageVector, hzero]
  exact Int.zero_mul _

/-- A translation that brings a ghost cell back into the domain wraps at most as often as there
are images on that side. -/
lemma wraps_bounds {k L g gh lo hi : ℤ} (hL : 0 < L) (hhi : hi = lo + L - 1) (hgh : 0 ≤ gh)
    (h1 : lo - gh ≤ g) (h2 : g ≤ hi + gh) (h3 : lo ≤ g + k * L) (h4 : g + k * L ≤ hi) :
    (gh = 0 → k = 0) ∧ -(1 + (gh - 1) / L) ≤ k ∧ k ≤ 1 + (gh - 1) / L := by
  have hmul1 : k * L < gh + L := by omega
  have hmul2 : -(gh + L) < k * L := by omega
  have hdiv := Int.mul_ediv_add_emod (gh - 1) L
  have hmod := Int.emod_lt_of_pos (gh - 1) hL
  have hmod' := Int.emod_nonneg (gh - 1) hL.ne'
  set w := (gh - 1) / L
  have hupper : k < w + 2 := by
    by_contra hc
    have : (w + 2) * L ≤ k * L := Int.mul_le_mul_of_nonneg_right (by omega) hL.le
    have : (w + 2) * L = L * w + 2 * L := by ring
    omega
  have hlower : -(w + 2) < k := by
    by_contra hc
    have : k * L ≤ -(w + 2) * L := Int.mul_le_mul_of_nonneg_right (by omega) hL.le
    have : -(w + 2) * L = -(L * w + 2 * L) := by ring
    omega
  refine ⟨fun hzero => ?_, by omega, by omega⟩
  subst hzero
  have hw : w = -1 := by
    have h5 : -1 ≤ w := by
      by_contra hc
      have : L * w ≤ L * (-2) := Int.mul_le_mul_of_nonneg_left (by omega) hL.le
      omega
    have h6 : w < 0 := by
      by_contra hc
      have : 0 ≤ L * w := Int.mul_nonneg hL.le (by omega)
      omega
    omega
  omega

/-- The patch together with its ghost cells, without the checks. -/
def grown (box : Box d) (ghosts : Extent d) : Box d :=
  ⟨fun a => box.lo a - ghosts a, fun a => box.hi a + ghosts a⟩

/-- **Every reachable image is enumerated**: a translation that brings a ghost cell of a patch
inside the domain back into the domain is the vector of some image ordinal. -/
theorem exists_image {inputs : HaloInputs d} (hghosts : ∀ a, 0 ≤ inputs.ghosts a) {D : Box d}
    (hD : ¬ D.Empty) (hsub : D.cells ⊆ inputs.domain.cells) {g s : Index d}
    (hg : g ∈ (grown D inputs.ghosts).cells)
    (hs : PeriodicShift inputs.domain inputs.topology s) (hgs : g + s ∈ inputs.domain.cells) :
    ∃ image < ∏ a, imageCount inputs a, imageVector inputs image = s := by
  have hdom := Box.not_empty_of_mem hgs
  have hoption : ∀ a, ∃ o < imageCount inputs a, wrapOf o * inputs.domain.length a = s a := by
    intro a
    by_cases hper : inputs.topology.IsPeriodic ⟨a, .lower⟩
    · obtain ⟨k, hk⟩ := (hs a).1 hper
      have hlen := Box.length_of_nonempty hdom a
      have hlo := Box.mem_cells.mp (hsub (Box.lo_mem_cells hD)) a
      have hhi := Box.mem_cells.mp (hsub (Box.hi_mem_cells hD)) a
      have hga := Box.mem_cells.mp hg a
      have hgsa := Box.mem_cells.mp hgs a
      rw [Pi.add_apply, hk] at hgsa
      simp only [grown] at hga
      obtain ⟨hzero, hlower, hupper⟩ := wraps_bounds (Box.length_pos hdom a)
        (show inputs.domain.hi a = inputs.domain.lo a + inputs.domain.length a - 1 by omega)
        (hghosts a) (by omega) (by omega) hgsa.1 hgsa.2
      by_cases hdepth : inputs.ghosts a = 0
      · refine ⟨0, ?_, ?_⟩
        · rw [imageCount, if_neg fun h => h.2 hdepth]
          exact Nat.one_pos
        · rw [hk, hzero hdepth]
          rfl
      · refine ⟨optionOf k, ?_, by rw [wrapOf_optionOf, hk]⟩
        rw [imageCount, if_pos ⟨hper, hdepth⟩]
        have hghost := hghosts a
        have hnonneg : 0 ≤ (inputs.ghosts a - 1) / inputs.domain.length a :=
          Int.ediv_nonneg (by omega) (Box.length_nonneg _ a)
        exact optionOf_le (by omega) (by omega)
    · refine ⟨0, ?_, ?_⟩
      · rw [imageCount, if_neg fun h => hper h.1]
        exact Nat.one_pos
      · rw [(hs a).2 hper]
        exact Int.zero_mul _
  choose o ho hwrap using hoption
  refine ⟨MixedRadix.rank (imageCount inputs) o, MixedRadix.rank_lt ho, funext fun a => ?_⟩
  rw [imageVector, MixedRadix.unrank_rank ho]
  exact hwrap a

/-- In a nonempty domain an image ordinal is determined by its vector. -/
lemma imageVector_injective {inputs : HaloInputs d} (hdom : ¬ inputs.domain.Empty) {i j : ℕ}
    (hi : i < ∏ a, imageCount inputs a) (hj : j < ∏ a, imageCount inputs a)
    (h : imageVector inputs i = imageVector inputs j) : i = j := by
  have hdigits : MixedRadix.unrank (imageCount inputs) i =
      MixedRadix.unrank (imageCount inputs) j := by
    funext a
    have ha := Int.eq_of_mul_eq_mul_right (Box.length_pos hdom a).ne' (congrFun h a)
    rw [← optionOf_wrapOf (MixedRadix.unrank (imageCount inputs) i a), ha, optionOf_wrapOf]
  rw [← MixedRadix.rank_unrank hi, hdigits, MixedRadix.rank_unrank hj]

/-- Two translations by whole domain lengths that bring the same cell into the domain agree. -/
lemma periodicShift_unique {domain : Box d} {topology : BoundaryTopology d} {g s t : Index d}
    (hs : PeriodicShift domain topology s) (ht : PeriodicShift domain topology t)
    (hgs : g + s ∈ domain.cells) (hgt : g + t ∈ domain.cells) : s = t := by
  have hdom := Box.not_empty_of_mem hgs
  funext a
  by_cases hper : topology.IsPeriodic ⟨a, .lower⟩
  · obtain ⟨k, hk⟩ := (hs a).1 hper
    obtain ⟨l, hl⟩ := (ht a).1 hper
    have h1 := Box.mem_cells.mp hgs a
    have h2 := Box.mem_cells.mp hgt a
    have hlen := Box.length_of_nonempty hdom a
    have hpos := Box.length_pos hdom a
    rw [Pi.add_apply, hk] at h1
    rw [Pi.add_apply, hl] at h2
    have hkl : k = l := by
      have hup : (k - l) * domain.length a < 1 * domain.length a := by
        rw [Int.sub_mul]
        omega
      have hdown : -1 * domain.length a < (k - l) * domain.length a := by
        rw [Int.sub_mul]
        omega
      have h3 := Int.lt_of_mul_lt_mul_right hup hpos.le
      have h4 := Int.lt_of_mul_lt_mul_right hdown hpos.le
      omega
    rw [hk, hl, hkl]
  · rw [(hs a).2 hper, (ht a).2 hper]

/-! ## The canonical jobs -/

/-- When the growth of a patch returns, it is the patch with its ghost cells, with `int`
bounds. -/
lemma grow_eq_ok {box r : Box d} {ghosts : Extent d} (hne : ¬ box.Empty) (hint : box.IsInt)
    (h : grow box ghosts = .ok r) : r = grown box ghosts ∧ r.IsInt := by
  have hinv := foldlM_invariant
    (P := fun done (r : Box d) => r.IsInt ∧ ∀ a, r.lo a ≤ r.hi a ∧
      r.lo a = (if a ∈ done then box.lo a - ghosts a else box.lo a) ∧
      r.hi a = (if a ∈ done then box.hi a + ghosts a else box.hi a)) h
    ⟨hint, fun a => ⟨Box.lo_le_hi hne a, by simp, by simp⟩⟩
    (fun done axis rest s s' heq hs hstep => by
      have hnodup := List.nodup_finRange d
      rw [heq, List.nodup_append] at hnodup
      have hnotin : axis ∉ done := fun hmem => hnodup.2.2 axis hmem axis (by simp) rfl
      have hsne : ¬ s.Empty := by
        intro hempty
        obtain ⟨a, ha⟩ := hempty
        have := (hs.2 a).1
        omega
      simp only [bind_eq_ok, throwIf_eq_ok, exists_const, not_lt, checkedIndex_eq_ok] at hstep
      obtain ⟨hnonneg, _, ⟨_, rfl⟩, hgrow⟩ := hstep
      obtain ⟨hlo, hhi, rfl⟩ := (Box.grow_eq_ok hsne).mp hgrow
      have haxis := hs.2 axis
      rw [if_neg hnotin, if_neg hnotin] at haxis
      refine ⟨fun a => ?_, fun a => ?_⟩
      · by_cases ha : a = axis
        · subst ha
          simp only [Function.update_self]
          exact ⟨hlo, hhi⟩
        · simp only [Function.update_of_ne ha]
          exact hs.1 a
      · by_cases ha : a = axis
        · subst ha
          simp only [Function.update_self, List.mem_append, List.mem_cons, true_or, or_true,
            if_true]
          omega
        · have hmem : a ∈ done ++ [axis] ↔ a ∈ done := by simp [ha]
          simp only [Function.update_of_ne ha, hmem]
          exact hs.2 a)
  refine ⟨Box.ext (funext fun a => ?_) (funext fun a => ?_), hinv.1⟩
  · rw [(hinv.2 a).2.1, if_pos (List.mem_finRange a)]
    rfl
  · rw [(hinv.2 a).2.2, if_pos (List.mem_finRange a)]
    rfl

/-- A patch translated by a vector. -/
def translate (box : Box d) (s : Index d) : Box d := ⟨box.lo + s, box.hi + s⟩

/-- A cell lies in a box translated backwards when its translation lies in the box. -/
lemma mem_translate_neg {box : Box d} {s g : Index d} :
    g ∈ (translate box (-s)).cells ↔ g + s ∈ box.cells := by
  simp only [Box.mem_cells, translate, Pi.add_apply, Pi.neg_apply]
  exact forall_congr' fun a => by omega

/-- The ghost cells of one destination patch that one source patch fills through one image. -/
def candidate (inputs : HaloInputs d) (destination source : Box d) (s : Index d) : Box d :=
  (grown destination inputs.ghosts).intersect (translate source (-s))

/-- The job of one region. -/
def regionJob (inputs : HaloInputs d) (destination source : Box d × ℕ) (s : Index d)
    (region : Box d) : HaloJob d where
  sourceBox := source.2
  destinationBox := destination.2
  destinationRegion := region
  sourceFromDestination := s
  offset := 0
  elements := region.cells.card * inputs.ncomp.toNat

/-- The jobs of one destination patch, source patch and image. -/
def sourceJobs (inputs : HaloInputs d) (destination source : Box d × ℕ) (s : Index d) :
    List (HaloJob d) :=
  if (candidate inputs destination.1 source.1 s).Empty then []
  else (subtract (candidate inputs destination.1 source.1 s) destination.1).map
    (regionJob inputs destination source s)

/-- The rounds of the job loops: destination patch, image ordinal, source patch. -/
def rounds (inputs : HaloInputs d) : List ((Box d × ℕ) × ℕ × (Box d × ℕ)) :=
  inputs.layout.boxes.zipIdx ×ˢ
    (List.range (∏ a, imageCount inputs a) ×ˢ inputs.layout.boxes.zipIdx)

/-- The jobs of one round. -/
def roundJobs (inputs : HaloInputs d) (round : (Box d × ℕ) × ℕ × (Box d × ℕ)) :
    List (HaloJob d) :=
  sourceJobs inputs round.1 round.2.2 (imageVector inputs round.2.1)

/-- The canonical jobs without the checks. -/
def jobsOf (inputs : HaloInputs d) : List (HaloJob d) :=
  (rounds inputs).flatMap (roundJobs inputs)

/-- A region that became a job is nonempty with `int` bounds on both sides. -/
structure JobSound (inputs : HaloInputs d) (job : HaloJob d) : Prop where
  nonempty : ¬ job.destinationRegion.Empty
  shift_isInt : (translate job.destinationRegion job.sourceFromDestination).IsInt

/-- A loop over a product is a nested loop. -/
lemma flatMap_product {α β γ : Type} (l : List α) (k : List β) (f : α × β → List γ) :
    (l ×ˢ k).flatMap f = l.flatMap fun a => k.flatMap fun b => f (a, b) := by
  induction l with
  | nil => rfl
  | cons a l ih =>
    rw [List.product_cons, List.flatMap_append, ih, List.flatMap_cons, List.flatMap_map]

/-- One region that passes its checks becomes its job. -/
lemma addRegion_eq_ok {inputs : HaloInputs d} {budget : ℕ} {destination source : Box d × ℕ}
    {s : Index d} {jobs r : List (HaloJob d)} {region : Box d}
    (h : addRegion inputs budget destination source s jobs region = .ok r) :
    r = jobs ++ [regionJob inputs destination source s region] ∧
      JobSound inputs (regionJob inputs destination source s region) := by
  simp only [addRegion, checkedElements, bind_eq_ok, throwIf_eq_ok, exists_const, pure_eq_ok,
    not_or, not_le] at h
  obtain ⟨_, sourceRegion, hshift, _, _, ⟨cells, hcells, ⟨hpos, _⟩, rfl⟩, rfl⟩ := h
  have hcard := Box.numPts_eq_ok hcells
  have hne : ¬ region.Empty := fun he => by
    rw [hcard, Box.empty_iff_cells.mp he] at hpos
    simp at hpos
  refine ⟨?_, hne, ?_⟩
  · rw [hcard, Int.toNat_natCast]
    rfl
  · obtain ⟨heq, hint⟩ := (Box.shift_eq_ok hne).mp hshift
    rw [heq] at hint
    exact hint

variable {inputs : HaloInputs d}

/-- The source loop of one image appends the jobs of the round. -/
lemma addSource_eq_ok {budget : ℕ} {destination source : Box d × ℕ} {s inverse : Index d}
    {jobs r : List (HaloJob d)} (hsource : ¬ source.1.Empty) (hinverse : inverse = -s)
    (h : addSource inputs budget destination (grown destination.1 inputs.ghosts) s inverse jobs
      source = .ok r) :
    r = jobs ++ sourceJobs inputs destination source s ∧
      ∀ job ∈ sourceJobs inputs destination source s, JobSound inputs job := by
  simp only [addSource, bind_eq_ok] at h
  obtain ⟨image, himage, h⟩ := h
  obtain ⟨rfl, _⟩ := (Box.shift_eq_ok hsource).mp himage
  subst hinverse
  have hcand : (grown destination.1 inputs.ghosts).intersect
      ⟨source.1.lo + -s, source.1.hi + -s⟩ = candidate inputs destination.1 source.1 s := rfl
  rw [hcand] at h
  unfold sourceJobs
  split_ifs at h ⊢ with hempty
  · exact ⟨by rw [← pure_eq_ok.mp h, List.append_nil], by simp⟩
  · obtain ⟨hjobs, hsound⟩ := foldlM_collect
      (g := fun region => [regionJob inputs destination source s region])
      (Q := fun region => JobSound inputs (regionJob inputs destination source s region)) h
      fun acc region r _ hstep => addRegion_eq_ok hstep
    rw [← List.map_eq_flatMap] at hjobs
    refine ⟨hjobs, fun job hjob => ?_⟩
    obtain ⟨region, hregion, rfl⟩ := List.mem_map.mp hjob
    exact hsound region hregion

/-- When the job loops return, they return the canonical jobs, and every job is sound.

**Proof sketch.** Each of the three outer loops collects what its body appends
(`foldlM_collect`), so the loops append the jobs of all rounds in order. -/
theorem collectJobs_eq_ok {budget : ℕ} {jobs : List (HaloJob d)}
    (hne : ∀ b ∈ inputs.layout.boxes, ¬ b.Empty)
    (h : collectJobs inputs budget (imageCount inputs) (∏ a, imageCount inputs a) = .ok jobs) :
    jobs = jobsOf inputs ∧ (∀ job ∈ jobs, JobSound inputs job) ∧
      ∀ b ∈ inputs.layout.boxes, grow b inputs.ghosts = .ok (grown b inputs.ghosts) := by
  have hbox : ∀ {p : Box d × ℕ}, p ∈ inputs.layout.boxes.zipIdx → p.1 ∈ inputs.layout.boxes :=
    fun {p} hp => List.mem_of_getElem? (List.mem_zipIdx_iff_getElem?.mp hp)
  obtain ⟨hjobs, hall⟩ := foldlM_collect
    (g := fun destination => (List.range (∏ a, imageCount inputs a)).flatMap fun image =>
      inputs.layout.boxes.zipIdx.flatMap fun source =>
        sourceJobs inputs destination source (imageVector inputs image))
    (Q := fun destination =>
      grow destination.1 inputs.ghosts = .ok (grown destination.1 inputs.ghosts) ∧
      ∀ image ∈ List.range (∏ a, imageCount inputs a), ∀ source ∈ inputs.layout.boxes.zipIdx,
        ∀ job ∈ sourceJobs inputs destination source (imageVector inputs image),
          JobSound inputs job) h (fun acc destination r hdest hstep => by
    simp only [addDestination, bind_eq_ok] at hstep
    obtain ⟨g, hgrow, hloop⟩ := hstep
    obtain ⟨rfl, _⟩ := grow_eq_ok (hne _ (hbox hdest)) (inputs.layout.isInt _ (hbox hdest)) hgrow
    obtain ⟨hr, hsound⟩ := foldlM_collect
      (g := fun image => inputs.layout.boxes.zipIdx.flatMap fun source =>
        sourceJobs inputs destination source (imageVector inputs image))
      (Q := fun image => ∀ source ∈ inputs.layout.boxes.zipIdx,
        ∀ job ∈ sourceJobs inputs destination source (imageVector inputs image),
          JobSound inputs job) hloop (fun acc image r _ hstep => by
      simp only [addImage, bind_eq_ok] at hstep
      obtain ⟨s, hs, inverse, hinverse, hloop⟩ := hstep
      obtain rfl := imageShift_eq_ok hs
      exact foldlM_collect hloop fun acc source r hsource hstep =>
        addSource_eq_ok (hne _ (hbox hsource)) (negate_eq_ok hinverse) hstep)
    exact ⟨hr, hgrow, hsound⟩)
  have hflat : jobs = jobsOf inputs := by
    rw [hjobs, List.nil_append, jobsOf, rounds, flatMap_product]
    simp only [flatMap_product, roundJobs]
  refine ⟨hflat, fun job hjob => ?_, fun b hb => ?_⟩
  · rw [hflat, jobsOf, List.mem_flatMap] at hjob
    obtain ⟨⟨destination, image, source⟩, hround, hjob⟩ := hjob
    simp only [rounds, List.mem_product] at hround
    exact (hall destination hround.1).2 image hround.2.1 source hround.2.2 job hjob
  · obtain ⟨n, hn, rfl⟩ := List.getElem_of_mem hb
    exact (hall (inputs.layout.boxes[n], n)
      (List.mem_zipIdx_iff_getElem?.mpr (List.getElem?_eq_getElem hn))).1

/-! ## Exactly one job per reachable ghost cell -/

/-- The job fills the cell `g` of the patch with index `n`. -/
def Fills (n : ℕ) (g : Index d) (job : HaloJob d) : Prop :=
  job.destinationBox = n ∧ g ∈ job.destinationRegion.cells

instance (n : ℕ) (g : Index d) (job : HaloJob d) : Decidable (Fills n g job) :=
  inferInstanceAs (Decidable (_ ∧ _))

/-- A round fills the cell `g` of the patch with index `n`: the cell is a ghost cell of the
destination patch and its image lies in the source patch. -/
def RoundFills (inputs : HaloInputs d) (n : ℕ) (g : Index d)
    (round : (Box d × ℕ) × ℕ × (Box d × ℕ)) : Prop :=
  round.1.2 = n ∧ g ∈ (grown round.1.1 inputs.ghosts).cells ∧ g ∉ round.1.1.cells ∧
    g + imageVector inputs round.2.1 ∈ round.2.2.1.cells

instance (n : ℕ) (g : Index d) (round : (Box d × ℕ) × ℕ × (Box d × ℕ)) :
    Decidable (RoundFills inputs n g round) := inferInstanceAs (Decidable (_ ∧ _))

/-- A round has one job for a cell that it fills and none for any other cell. -/
lemma countP_roundJobs (n : ℕ) (g : Index d) (round : (Box d × ℕ) × ℕ × (Box d × ℕ)) :
    (roundJobs inputs round).countP (fun job => Fills n g job) =
      if RoundFills inputs n g round then 1 else 0 := by
  obtain ⟨destination, image, source⟩ := round
  set s := imageVector inputs image with hs
  have hcand : g ∈ (candidate inputs destination.1 source.1 s).cells ↔
      g ∈ (grown destination.1 inputs.ghosts).cells ∧ g + s ∈ source.1.cells := by
    rw [candidate, Box.cells_intersect, Finset.mem_inter, mem_translate_neg]
  have hrounds : RoundFills inputs n g (destination, image, source) ↔ destination.2 = n ∧
      g ∈ (candidate inputs destination.1 source.1 s).cells ∧ g ∉ destination.1.cells := by
    rw [hcand]
    unfold RoundFills
    tauto
  simp only [hrounds]
  show (sourceJobs inputs destination source s).countP (fun job => Fills n g job) = _
  unfold sourceJobs
  by_cases hempty : (candidate inputs destination.1 source.1 s).Empty
  · rw [if_pos hempty, if_neg fun h => Box.not_empty_of_mem h.2.1 hempty]
    rfl
  · rw [if_neg hempty, List.countP_map]
    by_cases hn : destination.2 = n
    · have hcount := countP_subtract (candidate inputs destination.1 source.1 s) destination.1 g
      have hpred : ((fun job => decide (Fills n g job)) ∘ regionJob inputs destination source s) =
          fun box => decide (g ∈ box.cells) :=
        funext fun region => decide_eq_decide.mpr (and_iff_right hn)
      rw [hpred]
      simp only [hn, true_and]
      exact hcount
    · rw [if_neg fun h => hn h.1, List.countP_eq_zero]
      intro region _ hfills
      exact hn (of_decide_eq_true hfills).1

/-- The rounds are pairwise different. -/
lemma nodup_rounds : (rounds inputs).Nodup := by
  have hidx : inputs.layout.boxes.zipIdx.Nodup :=
    List.Nodup.of_map Prod.snd (List.nodup_zipIdx_map_snd _)
  exact hidx.product (List.nodup_range.product hidx)

/-- The members of the round list. -/
lemma mem_rounds {destination source : Box d × ℕ} {image : ℕ} :
    (destination, image, source) ∈ rounds inputs ↔
      inputs.layout.boxes[destination.2]? = some destination.1 ∧
        image < ∏ a, imageCount inputs a ∧ inputs.layout.boxes[source.2]? = some source.1 := by
  simp only [rounds, List.mem_product, List.mem_zipIdx_iff_getElem?, List.mem_range]

/-- At most one round fills a given ghost cell of a given patch.

**Proof sketch.** Both rounds have the destination patch with index `n`.  The images of the cell
lie in patches, so in the domain, hence the two translations agree (`periodicShift_unique`), so
do the image ordinals, and the two source patches share a cell. -/
theorem roundFills_unique (hwithin : inputs.layout.DisjointWithin inputs.domain) {n : ℕ}
    {g : Index d} {r t : (Box d × ℕ) × ℕ × (Box d × ℕ)} (hr : r ∈ rounds inputs)
    (ht : t ∈ rounds inputs) (hrf : RoundFills inputs n g r) (htf : RoundFills inputs n g t) :
    r = t := by
  obtain ⟨⟨D, m⟩, i, S, k⟩ := r
  obtain ⟨⟨D', m'⟩, i', S', k'⟩ := t
  obtain ⟨hsub, hpair⟩ := BoxArray.disjointWithin_iff.mp hwithin
  obtain ⟨hD, hi, hS⟩ := mem_rounds.mp hr
  obtain ⟨hD', hi', hS'⟩ := mem_rounds.mp ht
  obtain ⟨rfl, _, _, hgs⟩ := hrf
  obtain ⟨rfl, _, _, hgs'⟩ := htf
  obtain rfl : D = D' := Option.some.inj (hD.symm.trans hD')
  have hdom := (hsub S (List.mem_of_getElem? hS)).2 hgs
  have hdom' := (hsub S' (List.mem_of_getElem? hS')).2 hgs'
  have hshift := periodicShift_unique (periodicShift_imageVector inputs i)
    (periodicShift_imageVector inputs i') hdom hdom'
  obtain rfl := imageVector_injective (Box.not_empty_of_mem hdom) hi hi' hshift
  obtain ⟨hk, hSk⟩ := List.getElem?_eq_some_iff.mp hS
  obtain ⟨hk', hSk'⟩ := List.getElem?_eq_some_iff.mp hS'
  obtain ⟨q, _, hq⟩ := Cover.existsUnique_mem hpair ⟨S, List.mem_of_getElem? hS, hgs⟩
  have h1 := hq ⟨k, hk⟩ (show _ ∈ inputs.layout.boxes[k].cells from hSk ▸ hgs)
  have h2 := hq ⟨k', hk'⟩ (show _ ∈ inputs.layout.boxes[k'].cells from hSk' ▸ hgs')
  obtain rfl : k = k' := congrArg Fin.val (h1.trans h2.symm)
  obtain rfl : S = S' := Option.some.inj (hS.symm.trans hS')
  rfl

/-- At most one canonical job fills a given ghost cell of a given patch. -/
lemma countP_fills_le_one (hwithin : inputs.layout.DisjointWithin inputs.domain) (n : ℕ)
    (g : Index d) : (jobsOf inputs).countP (fun job => Fills n g job) ≤ 1 := by
  have hcount : (jobsOf inputs).countP (fun job => Fills n g job) =
      (rounds inputs).countP fun round => RoundFills inputs n g round :=
    Cover.countP_flatMap_indicator fun round _ => by
      rw [countP_roundJobs]
      simp only [decide_eq_true_eq]
  rw [hcount]
  refine Cover.countP_le_one nodup_rounds fun r hr t ht hrf htf => ?_
  exact roundFills_unique hwithin hr ht (of_decide_eq_true hrf) (of_decide_eq_true htf)

/-- The jobs that fill a cell come from the rounds that fill it. -/
lemma exists_round_of_fills {n : ℕ} {g : Index d} {job : HaloJob d} (hjob : job ∈ jobsOf inputs)
    (hfills : Fills n g job) :
    ∃ D i S k, ((D, n), i, (S, k)) ∈ rounds inputs ∧
      RoundFills inputs n g ((D, n), i, (S, k)) ∧ job.sourceBox = k ∧
      job.sourceFromDestination = imageVector inputs i := by
  rw [jobsOf, List.mem_flatMap] at hjob
  obtain ⟨⟨⟨D, m⟩, i, S, k⟩, hround, hjob⟩ := hjob
  have hpos : 0 < (roundJobs inputs ((D, m), i, (S, k))).countP fun job => Fills n g job :=
    List.countP_pos_iff.mpr ⟨job, hjob, decide_eq_true hfills⟩
  rw [countP_roundJobs] at hpos
  have hfilled : RoundFills inputs n g ((D, m), i, (S, k)) := by
    by_contra hnot
    rw [if_neg hnot] at hpos
    omega
  obtain rfl : m = n := hfilled.1
  refine ⟨D, i, S, k, hround, hfilled, ?_⟩
  simp only [roundJobs, sourceJobs] at hjob
  split_ifs at hjob with hempty
  · simp at hjob
  · obtain ⟨region, _, rfl⟩ := List.mem_map.mp hjob
    exact ⟨rfl, rfl⟩

/-! ## The constructor -/

/-- The coverage check accepts nonempty disjoint patches inside the domain. -/
lemma disjointWithin_of_validateCoverage {budget : BoxArrayValidationBudget}
    (h : validateCoverage inputs budget = .ok ()) :
    inputs.layout.DisjointWithin inputs.domain := by
  unfold validateCoverage at h
  split at h
  · simp only [bind_eq_ok, throwIf_eq_ok, Bool.not_eq_false] at h
    obtain ⟨tiles, htiles, rfl⟩ := h
    by_cases hempty : inputs.domain.Empty
    · -- an empty domain is tiled by no patch at all
      simp only [BoxArray.tilesExactly, if_pos hempty, pure_eq_ok, decide_eq_true_eq] at htiles
      unfold BoxArray.DisjointWithin
      rw [htiles]
      exact ⟨by simp, List.Pairwise.nil⟩
    · exact (BoxArray.tilesExactly_eq_ok_true hempty htiles).1
  · simp only [bind_eq_ok, throwIf_eq_ok, Bool.not_eq_false] at h
    obtain ⟨disjoint, hdisjoint, rfl⟩ := h
    exact BoxArray.isDisjointWithin_eq_ok_true hdisjoint

/-- The schedule of a rank before any job is classified. -/
def start (inputs : HaloInputs d) (rank : Index d) : HaloSchedule d :=
  ⟨inputs, rank, jobsOf inputs, [], [], [], 0, 0, 0⟩

/-- What the constructor has established when it returns. -/
structure Created (inputs : HaloInputs d) (rank : Index d) (budget : HaloScheduleBudget)
    (schedule : HaloSchedule d) : Prop where
  layout_eq : inputs.distribution.layout = inputs.layout
  contains_rank : inputs.distribution.rankSpace.Contains rank
  disjointWithin : inputs.layout.DisjointWithin inputs.domain
  ncomp_pos : 1 ≤ inputs.ncomp
  ghosts_nonneg : ∀ a, 0 ≤ inputs.ghosts a
  sound : ∀ job ∈ jobsOf inputs, JobSound inputs job
  grow_eq : ∀ b ∈ inputs.layout.boxes, grow b inputs.ghosts = .ok (grown b inputs.ghosts)
  classified : ∃ pre, (jobsOf inputs).foldlM (classify budget) (start inputs rank) = .ok pre ∧
    schedule = { pre with
      send := sortPeerPlans inputs.distribution.rankSpace pre.send
      receive := sortPeerPlans inputs.distribution.rankSpace pre.receive }

/-- Inversion of the constructor. -/
lemma create_inv {rank : Index d} {budget : HaloScheduleBudget} {schedule : HaloSchedule d}
    (h : create inputs rank budget = .ok schedule) : Created inputs rank budget schedule := by
  simp only [create, bind_eq_ok, throwIf_eq_ok, exists_const, not_not, ne_eq, not_lt,
    pure_eq_ok] at h
  obtain ⟨hlayout, hrank, _, hcoverage, hncomp, images, himages, _, _, _, _, _, _, jobs, hjobs, pre,
    hpre, rfl⟩ := h
  have hwithin := disjointWithin_of_validateCoverage hcoverage
  obtain ⟨hghosts, hcounts, htotal⟩ := imageCounts_eq_ok himages
  rw [hcounts, htotal] at hjobs
  obtain ⟨rfl, hsound, hgrow⟩ := collectJobs_eq_ok
    (fun b hb => ((BoxArray.disjointWithin_iff.mp hwithin).1 b hb).1) hjobs
  exact ⟨hlayout, hrank, hwithin, hncomp, hghosts, hsound, hgrow, pre, hpre, rfl⟩

/-- Classifying a job changes neither the inputs, the rank nor the canonical jobs. -/
lemma classify_frame {budget : HaloScheduleBudget} {s t : HaloSchedule d} {job : HaloJob d}
    (h : classify budget s job = .ok t) :
    t.inputs = s.inputs ∧ t.localRank = s.localRank ∧ t.canonicalJobs = s.canonicalJobs := by
  simp only [classify, bind_eq_ok] at h
  obtain ⟨sourceLocal, _, destinationLocal, _, h⟩ := h
  split_ifs at h
  · simp only [bind_eq_ok, pure_eq_ok] at h
    obtain ⟨_, _, rfl⟩ := h
    exact ⟨rfl, rfl, rfl⟩
  · simp only [bind_eq_ok, pure_eq_ok] at h
    obtain ⟨_, _, _, _, _, _, _, _, _, _, _, _, rfl⟩ := h
    exact ⟨rfl, rfl, rfl⟩
  · simp only [bind_eq_ok, pure_eq_ok] at h
    obtain ⟨_, _, _, _, _, _, _, _, _, _, _, _, rfl⟩ := h
    exact ⟨rfl, rfl, rfl⟩
  · simp only [bind_eq_ok, pure_eq_ok] at h
    obtain ⟨_, _, rfl⟩ := h
    exact ⟨rfl, rfl, rfl⟩

/-- The canonical jobs of a schedule are the jobs of its inputs. -/
lemma Created.canonicalJobs_eq {rank : Index d} {budget : HaloScheduleBudget}
    {schedule : HaloSchedule d} (h : Created inputs rank budget schedule) :
    schedule.canonicalJobs = jobsOf inputs := by
  obtain ⟨pre, hpre, rfl⟩ := h.classified
  refine foldlM_invariant (P := fun _ s => s.canonicalJobs = jobsOf inputs) hpre rfl ?_
  intro done job rest s s' _ hs hstep
  rw [(classify_frame hstep).2.2, hs]

end HaloSchedule

open HaloSchedule in
/-- **Halo schedules fill every reachable ghost cell exactly once.**  In every schedule that the
constructor accepts, for every patch `D` and every cell `g` of the grown patch outside `D`: a
translation `s` by whole domain lengths along the periodic axes moves `g` into some patch exactly
when one canonical job fills `g`, that job translates by `s` and its source patch contains the
image; at most one canonical job ever fills `g`.  No canonical job covers a cell of its own
destination patch.

**Proof sketch.** The jobs that fill `g` are counted by the rounds that fill it
(`countP_roundJobs`, by exactness of the box subtraction).  Rounds that fill `g` are unique
(`roundFills_unique`), and the image that brings `g` back into the domain is enumerated
(`exists_image`). -/
theorem haloSchedule_fills_ghosts_once {inputs : HaloInputs d} {rank : Index d}
    {budget : HaloScheduleBudget} {schedule : HaloSchedule d}
    (h : create inputs rank budget = .ok schedule) :
    (∀ n D grownD, inputs.layout.boxes[n]? = some D → grow D inputs.ghosts = .ok grownD →
      ∀ g ∈ grownD.cells, g ∉ D.cells →
        (schedule.canonicalJobs.filter fun job => Fills n g job).length ≤ 1 ∧
        ∀ s, (PeriodicShift inputs.domain inputs.topology s ∧
            ∃ S ∈ inputs.layout.boxes, g + s ∈ S.cells) ↔
          ∃ job, (schedule.canonicalJobs.filter fun job => Fills n g job) = [job] ∧
            job.sourceFromDestination = s ∧ ∃ S, inputs.layout.boxes[job.sourceBox]? = some S ∧
              g + job.sourceFromDestination ∈ S.cells) ∧
    (∀ job ∈ schedule.canonicalJobs, ∀ D, inputs.layout.boxes[job.destinationBox]? = some D →
      ∀ g ∈ job.destinationRegion.cells, g ∉ D.cells) := by
  have hc := create_inv h
  rw [hc.canonicalJobs_eq]
  obtain ⟨hsub, hpair⟩ := BoxArray.disjointWithin_iff.mp hc.disjointWithin
  refine ⟨fun n D grownD hD hgrown g hg hgD => ?_, fun job hjob D hD g hg hgD => ?_⟩
  · have hDmem := List.mem_of_getElem? hD
    obtain rfl : grownD = grown D inputs.ghosts :=
      Except.ok.inj (hgrown.symm.trans (hc.grow_eq D hDmem))
    have hle := countP_fills_le_one hc.disjointWithin n g
    rw [List.countP_eq_length_filter] at hle
    refine ⟨hle, fun s => ⟨fun hs => ?_, fun hs => ?_⟩⟩
    · obtain ⟨hshift, S, hS, hgs⟩ := hs
      obtain ⟨k, hk, rfl⟩ := List.getElem_of_mem hS
      obtain ⟨i, hi, rfl⟩ := exists_image hc.ghosts_nonneg (hsub D hDmem).1 (hsub D hDmem).2 hg
        hshift ((hsub _ hS).2 hgs)
      -- the round of the image and the source patch fills the cell, so some job does
      have hround : ((D, n), i, (inputs.layout.boxes[k], k)) ∈ rounds inputs :=
        mem_rounds.mpr ⟨hD, hi, List.getElem?_eq_getElem hk⟩
      have hfilled : RoundFills inputs n g ((D, n), i, (inputs.layout.boxes[k], k)) :=
        ⟨rfl, hg, hgD, hgs⟩
      have hcount : (roundJobs inputs ((D, n), i, (inputs.layout.boxes[k], k))).countP
          (fun job => Fills n g job) = 1 := by
        rw [countP_roundJobs, if_pos hfilled]
      obtain ⟨job, hjob, hfills⟩ := List.countP_pos_iff.mp (hcount ▸ Nat.one_pos)
      have hmem : job ∈ (jobsOf inputs).filter fun job => Fills n g job :=
        List.mem_filter.mpr ⟨List.mem_flatMap.mpr ⟨_, hround, hjob⟩, hfills⟩
      obtain ⟨job', hsingle⟩ := List.length_eq_one_iff.mp
        (le_antisymm hle (List.length_pos_of_mem hmem))
      rw [hsingle, List.mem_singleton] at hmem
      subst hmem
      obtain ⟨D', i', S', k', hround', hfilled', hbox, hvector⟩ := exists_round_of_fills
        (List.mem_flatMap.mpr ⟨_, hround, hjob⟩) (of_decide_eq_true hfills)
      have heq := roundFills_unique hc.disjointWithin hround hround' hfilled hfilled'
      simp only [Prod.mk.injEq] at heq
      obtain ⟨_, rfl, rfl, rfl⟩ := heq
      refine ⟨job, hsingle, hvector, inputs.layout.boxes[k], ?_, ?_⟩
      · rw [hbox]
        exact List.getElem?_eq_getElem hk
      · rw [hvector]
        exact hgs
    · obtain ⟨job, hsingle, rfl, S, hS, hgs⟩ := hs
      refine ⟨?_, S, List.mem_of_getElem? hS, hgs⟩
      have hmem : job ∈ (jobsOf inputs).filter fun job => Fills n g job := by simp [hsingle]
      obtain ⟨hjob, hfills⟩ := List.mem_filter.mp hmem
      obtain ⟨_, i, _, _, _, _, _, hvector⟩ := exists_round_of_fills hjob (of_decide_eq_true hfills)
      rw [hvector]
      exact periodicShift_imageVector inputs i
  · obtain ⟨D', _, _, _, hround, hfilled, _⟩ := exists_round_of_fills hjob ⟨rfl, hg⟩
    obtain ⟨hD', _⟩ := mem_rounds.mp hround
    obtain rfl : D = D' := Option.some.inj (hD.symm.trans hD')
    exact hfilled.2.2.1 hgD

/-- The periodic line `[0, 3]` in two patches with five ghost cells on either side, more than one
domain length. -/
def HaloInputs.line : HaloInputs 1 where
  layout := BoxArray.line
  distribution := Distribution.line
  domain := Box.line 0 3
  ghosts _ := 5
  topology := BoundaryTopology.axisPeriodic fun _ => true
  ncomp := 2
  coverage := .fullDomain
  ncomp_isInt := by decide

/-- A budget that is large enough for the periodic line. -/
def HaloScheduleBudget.line : HaloScheduleBudget := ⟨⟨2, 1⟩, 20, 12, 5, 4, 100, 100, 100⟩

/-- The periodic line has a schedule on both ranks. -/
lemma haloSchedule_line_returns (r : Fin 2) :
    Returns (HaloSchedule.create HaloInputs.line (fun _ => (r : ℤ)) HaloScheduleBudget.line) := by
  have hok : ∀ r : Fin 2, (HaloSchedule.create HaloInputs.line (fun _ => (r : ℤ))
      HaloScheduleBudget.line).isOk = true := by decide +kernel
  have := hok r
  cases hc : HaloSchedule.create HaloInputs.line (fun _ => (r : ℤ)) HaloScheduleBudget.line with
  | error e => rw [hc] at this; exact absurd this (by simp [Except.isOk, Except.toBool])
  | ok schedule => exact ⟨schedule, rfl⟩

open HaloSchedule in
/-- On the periodic line the ghost cell `-5` of the patch `[0, 1]` is filled by exactly one job,
two domain lengths away. -/
theorem haloSchedule_line :
    ∃ schedule, create HaloInputs.line (fun _ => 0) HaloScheduleBudget.line = .ok schedule ∧
      ∃ job, (schedule.canonicalJobs.filter fun job => Fills 0 (fun _ => -5) job) = [job] ∧
        job.sourceFromDestination = fun _ => 8 := by
  obtain ⟨schedule, h⟩ := haloSchedule_line_returns 0
  refine ⟨schedule, h, ?_⟩
  have hgrow := (create_inv h).grow_eq (Box.line 0 1) (by decide +kernel)
  have hfills := (haloSchedule_fills_ghosts_once h).1 0 (Box.line 0 1) _ rfl hgrow
    (fun _ => -5) (by decide +kernel) (by decide +kernel)
  obtain ⟨job, hjob, hshift, _⟩ := (hfills.2 fun _ => 8).mp
    ⟨fun a => ⟨fun _ => ⟨2, by revert a; decide +kernel⟩, fun hnot => absurd rfl hnot⟩,
      Box.line 2 3, by decide +kernel, by decide +kernel⟩
  exact ⟨job, hjob, hshift⟩

end Pops
