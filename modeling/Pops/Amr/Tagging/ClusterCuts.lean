import Pops.Amr.Tagging.BergerRigoutsos

/-!
# The cuts of a clustering

Where a region is cut, and what the cuts make of it.  The selected cuts lie strictly inside the
region, on different axes, and there is always one, so the two internal errors of the split are
never thrown.  The children of a split divide the region: they are nonempty, disjoint, and hold all
of its cells.

## Main definitions

* `Pops.Divides` — boxes that divide a region.

## Main results

* `Pops.splitChildren_spec` — the cuts divide the region.
* `Pops.halve_spec` — a region that is not properly nested is a single cell, or divided.
* `Pops.splitChildren_returns` — selected cuts divide every region that may be cut.
-/

namespace Pops

open DivideAndConquer (Step)

variable {d : ℕ}

/-- The boxes divide the region: they are nonempty parts of it, disjoint, and hold all its cells. -/
structure Divides (region : Box d) (children : List (Box d)) : Prop where
  inside : ∀ c ∈ children, ∀ a, region.lo a ≤ c.lo a ∧ c.lo a ≤ c.hi a ∧ c.hi a ≤ region.hi a
  disjoint : children.Pairwise fun b c => Disjoint b.cells c.cells
  cover : ∀ i ∈ region.cells, ∃ c ∈ children, i ∈ c.cells

namespace Divides

variable {region : Box d} {children : List (Box d)}

/-- A part of the region is a nonempty set of its cells. -/
lemma subset (h : Divides region children) {c : Box d} (hc : c ∈ children) :
    ¬ c.Empty ∧ c.cells ⊆ region.cells := by
  constructor
  · rintro ⟨a, ha⟩
    have := h.inside c hc a
    omega
  · intro i hi
    refine Box.mem_cells.mpr fun a => ?_
    have := h.inside c hc a
    have := Box.mem_cells.mp hi a
    omega

/-- A nonempty region divides into itself. -/
lemma self (hne : ¬ region.Empty) : Divides region [region] where
  inside c hc a := by
    rw [List.mem_singleton.mp hc]
    exact ⟨le_rfl, Box.lo_le_hi hne a, le_rfl⟩
  disjoint := List.pairwise_singleton _ _
  cover i hi := ⟨region, by simp, hi⟩

end Divides

/-! ## Dividing a region -/

/-- A cut of a box along one axis divides it. -/
lemma divides_cut {b : Box d} {axis : Fin d} {cut : ℤ} (hne : ¬ b.Empty) (hlo : b.lo axis < cut)
    (hhi : cut ≤ b.hi axis) : Divides b [b.setHi axis (cut - 1), b.setLo axis cut] where
  inside c hc a := by
    have hle := Box.lo_le_hi hne a
    rcases List.mem_pair.mp hc with rfl | rfl
    · by_cases ha : a = axis
      · subst ha
        simp only [Box.setHi_lo, Box.setHi_hi, Function.update_self]
        omega
      · simp [ha, hle]
    · by_cases ha : a = axis
      · subst ha
        simp only [Box.setLo_lo, Box.setLo_hi, Function.update_self]
        omega
      · simp [ha, hle]
  disjoint := by
    rw [List.pairwise_pair, Finset.disjoint_left]
    intro i hi hi'
    have h1 := ((Box.mem_setHi (by omega)).mp hi).2
    have h2 := ((Box.mem_setLo (by omega)).mp hi').2
    omega
  cover i hi := by
    by_cases hcut : i axis ≤ cut - 1
    · exact ⟨_, by simp, (Box.mem_setHi (by omega)).mpr ⟨hi, hcut⟩⟩
    · exact ⟨b.setLo axis cut, by simp, (Box.mem_setLo (by omega)).mpr ⟨hi, by omega⟩⟩

/-- One round of the loop over the cuts: parts that still have the bounds of the region along the
axis are cut along it. -/
lemma divides_round {region : Box d} {children : List (Box d)} {axis : Fin d} {cut : ℤ}
    (h : Divides region children)
    (haxis : ∀ c ∈ children, c.lo axis = region.lo axis ∧ c.hi axis = region.hi axis)
    (hlo : region.lo axis < cut) (hhi : cut ≤ region.hi axis) :
    Divides region (children.map (fun child => child.setHi axis (cut - 1)) ++
      children.map fun child => child.setLo axis cut) := by
  have hcut : ∀ c ∈ children, Divides c [c.setHi axis (cut - 1), c.setLo axis cut] := fun c hc =>
    divides_cut (h.subset hc).1 (by rw [(haxis c hc).1]; exact hlo)
      (by rw [(haxis c hc).2]; exact hhi)
  have hlower : ∀ c ∈ children, (c.setHi axis (cut - 1)).cells ⊆ c.cells := fun c hc =>
    ((hcut c hc).subset (by simp)).2
  have hupper : ∀ c ∈ children, (c.setLo axis cut).cells ⊆ c.cells := fun c hc =>
    ((hcut c hc).subset (by simp)).2
  refine ⟨fun c hc a => ?_, ?_, fun i hi => ?_⟩
  · have hpart : ∃ p ∈ children, c ∈ [p.setHi axis (cut - 1), p.setLo axis cut] := by
      rcases List.mem_append.mp hc with hc | hc
      · obtain ⟨p, hp, rfl⟩ := List.mem_map.mp hc
        exact ⟨p, hp, by simp⟩
      · obtain ⟨p, hp, rfl⟩ := List.mem_map.mp hc
        exact ⟨p, hp, by simp⟩
    obtain ⟨p, hp, hcp⟩ := hpart
    have := (hcut p hp).inside c hcp a
    have := h.inside p hp a
    omega
  · rw [List.pairwise_append, List.pairwise_map, List.pairwise_map]
    refine ⟨?_, ?_, fun b hb c hc => ?_⟩
    · exact h.disjoint.imp_of_mem fun hb hc hbc => hbc.mono (hlower _ hb) (hlower _ hc)
    · exact h.disjoint.imp_of_mem fun hb hc hbc => hbc.mono (hupper _ hb) (hupper _ hc)
    · -- the lower and the upper parts are on different sides of the cut
      obtain ⟨p, hp, rfl⟩ := List.mem_map.mp hb
      obtain ⟨q, hq, rfl⟩ := List.mem_map.mp hc
      have hpb := (haxis p hp).2
      have hqb := (haxis q hq).1
      rw [Finset.disjoint_left]
      intro i hi hi'
      have h1 := ((Box.mem_setHi (by omega)).mp hi).2
      have h2 := ((Box.mem_setLo (by omega)).mp hi').2
      omega
  · obtain ⟨p, hp, hip⟩ := h.cover i hi
    obtain ⟨c, hc, hic⟩ := (hcut p hp).cover i hip
    refine ⟨c, ?_, hic⟩
    rcases List.mem_pair.mp hc with rfl | rfl
    · exact List.mem_append_left _ (List.mem_map_of_mem hp)
    · exact List.mem_append_right _ (List.mem_map_of_mem hp)

/-- **The cuts divide the region** into two to the number of cuts parts, when they are on different
axes.

**Proof sketch.** Induction over the loop.  A part keeps the bounds of the region along every axis
that is not cut yet, so every round cuts all parts at the same place (`divides_round`). -/
theorem splitChildren_spec {region : Box d} {cuts : List (AxisCut d)} {children : List (Box d)}
    (hne : ¬ region.Empty) (haxes : (cuts.map AxisCut.axis).Nodup)
    (h : splitChildren region cuts = .ok children) :
    Divides region children ∧ children.length = 2 ^ cuts.length ∧
      (∀ cut ∈ cuts, 0 < cut.offset ∧ cut.offset < region.length cut.axis) ∧ cuts ≠ [] ∧
      ∀ cut ∈ cuts, ∀ c ∈ children, c.hi cut.axis < region.lo cut.axis + cut.offset ∨
        region.lo cut.axis + cut.offset ≤ c.lo cut.axis := by
  simp only [splitChildren, bind_eq_ok, throwIf_eq_ok, exists_const] at h
  obtain ⟨hcuts, h⟩ := h
  have hloop := foldlM_invariant (P := fun done children => Divides region children ∧
    children.length = 2 ^ done.length ∧
    (∀ c ∈ children, ∀ a, a ∉ done.map AxisCut.axis → c.lo a = region.lo a ∧ c.hi a = region.hi a) ∧
    (∀ cut ∈ done, 0 < cut.offset ∧ cut.offset < region.length cut.axis) ∧
    ∀ cut ∈ done, ∀ c ∈ children, c.hi cut.axis < region.lo cut.axis + cut.offset ∨
      region.lo cut.axis + cut.offset ≤ c.lo cut.axis) h
    ⟨Divides.self hne, by simp, by simp, by simp, by simp⟩ ?_
  · exact ⟨hloop.1, hloop.2.1, hloop.2.2.2.1, hcuts, hloop.2.2.2.2⟩
  rintro done cut rest parts next hsplit ⟨hdivides, hlength, hbounds, hstrict, hsides⟩ hstep
  simp only [cutChildren, bind_eq_ok, throwIf_eq_ok, exists_const, pure_eq_ok, not_or,
    not_le] at hstep
  obtain ⟨⟨hlow, hhigh⟩, rfl⟩ := hstep
  have hnew : cut.axis ∉ done.map AxisCut.axis := by
    rw [hsplit, List.map_append, List.map_cons] at haxes
    exact fun hmem => (List.nodup_append.mp haxes).2.2 _ hmem _ (by simp) rfl
  have hregion := Box.length_of_nonempty hne cut.axis
  have haxis := fun c hc => hbounds c hc cut.axis hnew
  refine ⟨divides_round hdivides haxis (by omega) (by omega), ?_, fun c hc a ha => ?_,
    fun other hother => ?_, fun other hother c hc => ?_⟩
  · simp only [List.length_append, List.length_map, hlength, List.length_cons, List.length_nil]
    rw [pow_succ]
    omega
  · rw [List.map_append, List.mem_append, not_or] at ha
    have hne : a ≠ cut.axis := fun h => ha.2 (by simp [h])
    rcases List.mem_append.mp hc with hc | hc
    · obtain ⟨p, hp, rfl⟩ := List.mem_map.mp hc
      simpa [hne] using hbounds p hp a ha.1
    · obtain ⟨p, hp, rfl⟩ := List.mem_map.mp hc
      simpa [hne] using hbounds p hp a ha.1
  · rw [List.mem_append, List.mem_singleton] at hother
    rcases hother with hother | rfl
    · exact hstrict other hother
    · exact ⟨hlow, hhigh⟩
  · rw [List.mem_append, List.mem_singleton] at hother
    rcases hother with hother | rfl
    · have hother' : other.axis ≠ cut.axis := fun h => hnew (h ▸ List.mem_map_of_mem hother)
      rcases List.mem_append.mp hc with hc | hc
      · obtain ⟨p, hp, rfl⟩ := List.mem_map.mp hc
        simpa [hother'] using hsides other hother p hp
      · obtain ⟨p, hp, rfl⟩ := List.mem_map.mp hc
        simpa [hother'] using hsides other hother p hp
    · rcases List.mem_append.mp hc with hc | hc
      · obtain ⟨p, hp, rfl⟩ := List.mem_map.mp hc
        exact .inl (by simp)
      · obtain ⟨p, hp, rfl⟩ := List.mem_map.mp hc
        exact .inr (by simp)

/-! ## Halving a region -/

section Halve

variable [NeZero d]

/-- The axis of a halving is a longest one. -/
lemma length_le_splitAxis (region : Box d) (a : Fin d) :
    region.length a ≤ region.length (splitAxis region) := by
  have hloop : ∀ (axes : List (Fin d)) (start : Fin d),
      region.length start ≤ region.length (axes.foldl (fun split axis =>
        if region.length axis > region.length split then axis else split) start) ∧
      ∀ b ∈ axes, region.length b ≤ region.length (axes.foldl (fun split axis =>
        if region.length axis > region.length split then axis else split) start) := by
    intro axes
    induction axes with
    | nil => simp
    | cons axis rest ih =>
      intro start
      rw [List.foldl_cons, List.forall_mem_cons]
      obtain ⟨hstart, hrest⟩ :=
        ih (if region.length axis > region.length start then axis else start)
      refine ⟨?_, ?_, hrest⟩
      · split_ifs at hstart ⊢ <;> omega
      · split_ifs at hstart ⊢ <;> omega
  exact (hloop (List.finRange d) 0).2 a (List.mem_finRange a)

/-- **A region that is not properly nested is a single cell, or divided in two.** -/
theorem halve_spec {region : Box d} (hne : ¬ region.Empty) (hint : region.IsInt) :
    (halve region = .drop ∧ region.hi = region.lo) ∨
      ∃ axis cut, halve region = .split [region.setHi axis (cut - 1), region.setLo axis cut] ∧
        region.lo axis < cut ∧ cut ≤ region.hi axis := by
  have hlength := Box.length_of_nonempty hne (splitAxis region)
  have hpos := Box.length_pos hne (splitAxis region)
  have hrange := hint (splitAxis region)
  unfold halve
  by_cases hone : region.length (splitAxis region) = 1
  · refine .inl ⟨by simp [hone], funext fun a => ?_⟩
    have hle := length_le_splitAxis region a
    have ha := Box.length_of_nonempty hne a
    have := Box.lo_le_hi hne a
    omega
  · have hhalf : (region.length (splitAxis region)).tdiv 2 = region.length (splitAxis region) / 2 :=
      Int.tdiv_eq_ediv_of_nonneg hpos.le
    have hcut : castInt (region.lo (splitAxis region) + (region.length (splitAxis region)).tdiv 2) =
        region.lo (splitAxis region) + region.length (splitAxis region) / 2 := by
      rw [hhalf]
      refine castInt_of_isInt ?_
      unfold IsInt at *
      omega
    refine .inr ⟨splitAxis region,
      region.lo (splitAxis region) + region.length (splitAxis region) / 2, ?_, by omega, by omega⟩
    simp only [if_neg hone, hcut]

end Halve

/-! ## The selected cuts -/

/-- Cuts that lie strictly inside the region, on different axes. -/
structure Strict (region : Box d) (cuts : List (AxisCut d)) : Prop where
  nodup : (cuts.map AxisCut.axis).Nodup
  inside : ∀ cut ∈ cuts, 0 < cut.offset ∧ cut.offset < region.length cut.axis

/-- Cuts of a loop over the axes that has at most one cut for every axis. -/
lemma nodup_filterMap_axes {f : Fin d → Option (AxisCut d)}
    (h : ∀ a cut, f a = some cut → cut.axis = a) :
    (((List.finRange d).filterMap f).map AxisCut.axis).Nodup := by
  have hsub : ((((List.finRange d).filterMap f).map AxisCut.axis)).Sublist (List.finRange d) := by
    induction List.finRange d with
    | nil => exact List.Sublist.slnil
    | cons a rest ih =>
      cases hf : f a with
      | none => simpa [List.filterMap_cons, hf] using ih.cons a
      | some cut => simpa [List.filterMap_cons, hf, h a cut hf] using ih.cons_cons a
  exact (List.nodup_finRange d).sublist hsub

/-- Keeping the longest axes keeps some of the cuts. -/
lemma keepLongest_sublist (cuts : List (AxisCut d)) : (keepLongest cuts).Sublist cuts := by
  cases cuts with
  | nil => exact List.Sublist.slnil
  | cons first rest => exact List.filter_sublist

/-- Keeping the strongest scores keeps some of the cuts. -/
lemma keepStrongest_sublist (cuts : List (AxisCut d)) : (keepStrongest cuts).Sublist cuts := by
  cases cuts with
  | nil => exact List.Sublist.slnil
  | cons first rest => exact List.filter_sublist

/-- The selected cuts are some of the holes, some of the inflections, or the midpoints. -/
lemma selectCuts_cases (rnd : ℚ → ℚ) (options : ClusterOptions d) (region : Box d)
    (signatures : Fin d → List ℕ) :
    (selectCuts rnd options region signatures).Sublist (holeCuts options region signatures) ∨
      (selectCuts rnd options region signatures).Sublist
        (inflectionCuts rnd options region signatures) ∨
      selectCuts rnd options region signatures = midpointCuts options region := by
  unfold selectCuts
  by_cases hholes : keepLongest (holeCuts options region signatures) = []
  · by_cases hinflections : keepStrongest (inflectionCuts rnd options region signatures) = []
    · exact .inr (.inr (by simp [hholes, hinflections]))
    · exact .inr (.inl (by simpa [hholes, hinflections] using keepStrongest_sublist _))
  · exact .inl (by simpa [hholes] using keepLongest_sublist _)

/-- The selected cuts are on different axes. -/
lemma nodup_selectCuts (rnd : ℚ → ℚ) (options : ClusterOptions d) (region : Box d)
    (signatures : Fin d → List ℕ) :
    ((selectCuts rnd options region signatures).map AxisCut.axis).Nodup := by
  rcases selectCuts_cases rnd options region signatures with h | h | h
  · refine List.Nodup.sublist (h.map _) (nodup_filterMap_axes fun a cut hcut => ?_)
    simp only at hcut
    split_ifs at hcut
    obtain rfl := Option.some.inj hcut
    rfl
  · refine List.Nodup.sublist (h.map _) (nodup_filterMap_axes fun a cut hcut => ?_)
    simp only at hcut
    split_ifs at hcut
    obtain rfl := Option.some.inj hcut
    rfl
  · rw [h]
    refine nodup_filterMap_axes fun a cut hcut => ?_
    split_ifs at hcut
    obtain rfl := Option.some.inj hcut
    rfl

/-! ### Strict cuts -/

/-- The cuts of a loop. -/
lemma mem_cutRange {lower upper cut : ℤ} :
    cut ∈ cutRange lower upper ↔ lower ≤ cut ∧ cut ≤ upper := by
  simp only [cutRange, List.mem_map, List.mem_range]
  constructor
  · rintro ⟨k, hk, rfl⟩
    omega
  · intro h
    exact ⟨(cut - lower).toNat, by omega, by omega⟩

/-- A loop over cuts that keeps its best cut returns the start or one of the cuts. -/
lemma foldl_best {σ : Type} {f : ℤ × σ → ℤ → ℤ × σ} (hf : ∀ best cut, (f best cut).1 = best.1 ∨
    (f best cut).1 = cut) (cuts : List ℤ) : ∀ start : ℤ × σ,
    (cuts.foldl f start).1 = start.1 ∨ (cuts.foldl f start).1 ∈ cuts := by
  induction cuts with
  | nil => exact fun _ => .inl rfl
  | cons cut rest ih =>
    intro start
    rw [List.foldl_cons]
    rcases ih (f start cut) with h | h
    · rcases hf start cut with h' | h'
      · exact .inl (h.trans h')
      · exact .inr (by rw [h, h']; simp)
    · exact .inr (List.mem_cons_of_mem _ h)

/-- A hole leaves the minimal length on both sides. -/
lemma bestHole_bounds {signature : List ℕ} {minimum : ℤ} (h : 0 ≤ bestHole signature minimum) :
    minimum ≤ bestHole signature minimum ∧ bestHole signature minimum ≤ signature.length -
    minimum := by
  have hloop := foldl_best (f := betterHole signature)
    (fun best cut => by unfold betterHole; dsimp only; split_ifs <;> simp)
    (cutRange minimum (signature.length - minimum)) (-1, intMax)
  rcases hloop with hstart | hmem
  · have : bestHole signature minimum = -1 := hstart
    omega
  · exact mem_cutRange.mp hmem

/-- An inflection leaves the minimal length and two cells on both sides. -/
lemma bestInflection_bounds {rnd : ℚ → ℚ} {signature : List ℕ} {minimum : ℤ}
    (h : 0 ≤ (bestInflection rnd signature minimum).1) :
    2 ≤ (bestInflection rnd signature minimum).1 ∧
      (bestInflection rnd signature minimum).1 ≤ signature.length - 2 := by
  have hloop := foldl_best (f := betterInflection rnd signature)
    (fun best cut => by unfold betterInflection; dsimp only; split_ifs <;> simp)
    (cutRange (max minimum 2) (min (signature.length - minimum) (signature.length - 2))) (-1, 0)
  unfold bestInflection at h ⊢
  by_cases hshort : (signature.length : ℤ) < 3
  · simp [hshort] at h
  · rw [if_neg hshort] at h ⊢
    rcases hloop with hstart | hmem
    · rw [hstart] at h
      omega
    · have := mem_cutRange.mp hmem
      omega

/-- **The selected cuts lie strictly inside the region.** -/
theorem selectCuts_strict {rnd : ℚ → ℚ} {options : ClusterOptions d} {region : Box d}
    {signatures : Fin d → List ℕ} (hmin : ∀ a, 0 < options.minBoxSize a)
    (hlength : ∀ a, region.length a ≤ intMax)
    (hsignatures : ∀ a, ((signatures a).length : ℤ) = region.length a) :
    Strict region (selectCuts rnd options region signatures) := by
  refine ⟨nodup_selectCuts rnd options region signatures, fun cut hcut => ?_⟩
  rcases selectCuts_cases rnd options region signatures with h | h | h
  · obtain ⟨a, -, ha⟩ := List.mem_filterMap.mp (h.subset hcut)
    simp only at ha
    split_ifs at ha with hsplit hneg
    obtain rfl := Option.some.inj ha
    have hbounds := bestHole_bounds (not_lt.mp hneg)
    have := hmin a
    have := hsignatures a
    simp only
    omega
  · obtain ⟨a, -, ha⟩ := List.mem_filterMap.mp (h.subset hcut)
    simp only at ha
    split_ifs at ha with hsplit hneg
    obtain rfl := Option.some.inj ha
    have hbounds := bestInflection_bounds (not_lt.mp hneg)
    have := hsignatures a
    simp only
    omega
  · rw [h] at hcut
    obtain ⟨a, -, ha⟩ := List.mem_filterMap.mp hcut
    split_ifs at ha with hsplit
    obtain rfl := Option.some.inj ha
    have hlong := hlength a
    have := hmin a
    unfold Splittable at hsplit
    have hhalf : castInt ((region.length a).tdiv 2) = region.length a / 2 := by
      rw [Int.tdiv_eq_ediv_of_nonneg (by omega)]
      refine castInt_of_isInt ?_
      unfold IsInt intMin intMax at *
      omega
    simp only [hhalf]
    omega

/-- The midpoint of a longest axis that may be cut is one of the midpoints. -/
lemma midpointCuts_ne_nil {options : ClusterOptions d} {region : Box d}
    (hmin : ∀ a, 0 < options.minBoxSize a) (hsplit : ∃ a, Splittable options region a) :
    midpointCuts options region ≠ [] := by
  have hloop : ∀ (axes : List (Fin d)) (start : ℤ),
      let longest := axes.foldl (fun longest axis =>
        if Splittable options region axis then max longest (region.length axis) else longest) start
      (∀ a ∈ axes, Splittable options region a → region.length a ≤ longest) ∧ start ≤ longest ∧
        (longest = start ∨ ∃ a ∈ axes, Splittable options region a ∧
          region.length a = longest) := by
    intro axes
    induction axes with
    | nil => simp
    | cons axis rest ih =>
      intro start
      simp only [List.foldl_cons, List.forall_mem_cons, List.exists_mem_cons_iff]
      by_cases haxis : Splittable options region axis
      · obtain ⟨hall, hstart, hcases⟩ := ih (max start (region.length axis))
        rw [if_pos haxis]
        refine ⟨⟨fun _ => by omega, hall⟩, by omega, ?_⟩
        rcases hcases with h | h
        · rcases le_total (region.length axis) start with hle | hle
          · exact .inl (by omega)
          · exact .inr (.inl ⟨haxis, by omega⟩)
        · exact .inr (.inr h)
      · obtain ⟨hall, hstart, hcases⟩ := ih start
        rw [if_neg haxis]
        exact ⟨⟨fun h => absurd h haxis, hall⟩, hstart, hcases.imp_right .inr⟩
  obtain ⟨hall, -, hcases⟩ := hloop (List.finRange d) 0
  obtain ⟨a, ha⟩ := hsplit
  have hlong := hall a (List.mem_finRange a) ha
  have hpos : 0 < region.length a := by
    have := hmin a
    unfold Splittable at ha
    omega
  rcases hcases with hzero | ⟨b, hb, hbSplit, hbLongest⟩
  · omega
  · refine List.ne_nil_of_mem (a := ⟨b, castInt ((region.length b).tdiv 2), region.length b, 0⟩) ?_
    exact List.mem_filterMap.mpr ⟨b, hb, by simp only [hbSplit, hbLongest, and_self, if_true]⟩

/-- There is a selected cut when some axis may be cut. -/
lemma selectCuts_ne_nil {rnd : ℚ → ℚ} {options : ClusterOptions d} {region : Box d}
    {signatures : Fin d → List ℕ} (hmin : ∀ a, 0 < options.minBoxSize a)
    (hsplit : ∃ a, Splittable options region a) :
    selectCuts rnd options region signatures ≠ [] := by
  have hmid := midpointCuts_ne_nil hmin hsplit
  unfold selectCuts
  by_cases hholes : keepLongest (holeCuts options region signatures) = []
  · by_cases hinflections : keepStrongest (inflectionCuts rnd options region signatures) = []
    · simpa [hholes, hinflections] using hmid
    · simp [hholes, hinflections]
  · simp [hholes]

/-- **Selected cuts divide every region that may be cut.** -/
theorem splitChildren_returns {region : Box d} {cuts : List (AxisCut d)} (hne : cuts ≠ [])
    (hstrict : Strict region cuts) : Returns (splitChildren region cuts) := by
  have hround : ∀ done cut rest (children : List (Box d)), cuts = done ++ cut :: rest → True →
      ∃ next, cutChildren region children cut = .ok next ∧ True := by
    intro done cut rest children heq _
    have hcut := hstrict.inside cut (by rw [heq]; simp)
    have hguard : ¬ (cut.offset ≤ 0 ∨ cut.offset ≥ region.length cut.axis) := by omega
    exact ⟨_, by rw [cutChildren, throwIf_neg hguard]; rfl, trivial⟩
  obtain ⟨children, hchildren, -⟩ := foldlM_total (s := [region]) (P := fun _ _ =>
    True) trivial hround
  refine ⟨children, ?_⟩
  rw [splitChildren, throwIf_neg hne]
  exact hchildren

end Pops
