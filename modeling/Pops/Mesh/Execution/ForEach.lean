import Pops.Foundation.Store
import Pops.Mesh.Storage.MultiFab

/-!
# Kernels over the cells of a box

`pops::for_each_cell`: a kernel runs once for every cell of a box, in any order.  A kernel here is
the list of elements that it writes; every transfer kernel writes the components of its own cell and
reads other storage.

## Main definitions

* `Pops.CellLaunches` — the order in which the iterations of a launch run.
* `Pops.forEachCell` — the writes of a launch.
* `Pops.MultiFab.launch` — a launch on a patch.
* `Pops.MultiFab.PatchWritten` — the effect of a launch.

## Main results

* `Pops.mem_forEachCell` — a launch visits exactly the cells of the box.
* `Pops.MultiFab.launch_spec` — a launch writes its region and nothing else.
* `Pops.MultiFab.foldlM_launch` — launches on disjoint regions all take effect.
-/

namespace Pops

variable {d : ℕ}

/-! ## Launches -/

/-- The order in which the iterations of every launch run. -/
structure CellLaunches (d : ℕ) where
  order : Box d → ℕ → List ℕ
  perm : ∀ box points, (order box points).Perm (List.range points)

/-- The box can be iterated over with `int` indices. -/
def requireIterableBox (box : Box d) : Throws Unit :=
  if box.Empty then pure ()
  else do
    let _ ← forEachAxis fun axis => throwIf (box.length axis > intMax ∨ box.hi axis = intMax)
      (overflowError ("PoPS Kokkos iteration requires int-addressable extents and an inclusive " ++
        "high index below INT_MAX"))

/-- The cell of an ordinal, axis 0 fastest. -/
def cellIndexFromOrdinal (box : Box d) (ordinal : ℕ) : Index d := fun axis =>
  box.lo axis + castInt (MixedRadix.unrank (fun a => (box.length a).toNat) ordinal axis)

/-- The writes of a kernel over the cells of a box. -/
def forEachCell {W : Type} (launches : CellLaunches d) (box : Box d) (kernel : Index d → List W) :
    Throws (List W) :=
  if box.Empty then pure []
  else do
    requireIterableBox box
    let points ← box.numPts
    pure ((launches.order box points.toNat).flatMap fun ordinal =>
      kernel (cellIndexFromOrdinal box ordinal))

/-- The ordinals of a box with `int` lengths are its cells. -/
lemma exists_ordinal_iff {box : Box d} (hne : ¬ box.Empty) (hlength : ∀ a, box.length a ≤ intMax)
    {i : Index d} : (∃ ordinal < box.cells.card, cellIndexFromOrdinal box ordinal = i) ↔
      i ∈ box.cells := by
  have hpos : ∀ a, 0 < (box.length a).toNat := by
    intro a
    have := Box.length_pos hne a
    omega
  have hindex : ∀ ordinal a, cellIndexFromOrdinal box ordinal a =
      box.lo a + MixedRadix.unrank (fun a => (box.length a).toNat) ordinal a := by
    intro ordinal a
    have hlt := MixedRadix.unrank_lt hpos ordinal a
    have hle := hlength a
    have hint : IsInt (MixedRadix.unrank (fun a => (box.length a).toNat) ordinal a) := by
      unfold IsInt intMin
      unfold intMax at *
      omega
    rw [cellIndexFromOrdinal, castInt_of_isInt hint]
  constructor
  · rintro ⟨ordinal, _, rfl⟩
    refine Box.mem_cells.mpr fun a => ?_
    have hlt := MixedRadix.unrank_lt hpos ordinal a
    have hlen := Box.length_of_nonempty hne a
    rw [hindex]
    omega
  · intro hi
    have hdigits := Fab.digits_lt hi
    have hrank := MixedRadix.rank_lt hdigits
    have hprod : ∏ a, Fab.extents box a = box.cells.card := (Box.card_cells_toNat hne).symm
    refine ⟨MixedRadix.rank (Fab.extents box) (Fab.digits box i), by omega, funext fun a => ?_⟩
    have hunrank := congrFun (MixedRadix.unrank_rank hdigits) a
    have hmem := Box.mem_cells.mp hi a
    rw [hindex]
    show box.lo a + (MixedRadix.unrank (Fab.extents box) _ a : ℕ) = i a
    rw [hunrank, Fab.digits]
    omega

/-- **A launch visits exactly the cells of its box.** -/
theorem mem_forEachCell {W : Type} {launches : CellLaunches d} {box : Box d}
    {kernel : Index d → List W} {ws : List W} (h : forEachCell launches box kernel = .ok ws)
    {w : W} : w ∈ ws ↔ ∃ i ∈ box.cells, w ∈ kernel i := by
  unfold forEachCell at h
  by_cases hempty : box.Empty
  · rw [if_pos hempty, pure_eq_ok] at h
    rw [Box.empty_iff_cells.mp hempty, ← h]
    simp
  · simp only [if_neg hempty, requireIterableBox, bind_eq_ok, forEachAxis_eq_ok, throwIf_eq_ok,
      exists_const, pure_eq_ok, and_true] at h
    obtain ⟨hiter, points, hpoints, rfl⟩ := h
    have hcard := Box.numPts_eq_ok hpoints
    have hlength : ∀ a, box.length a ≤ intMax := by
      intro a
      have := hiter a
      omega
    simp only [List.mem_flatMap, (launches.perm box _).mem_iff, List.mem_range, hcard,
      Int.toNat_natCast]
    constructor
    · rintro ⟨ordinal, hlt, hw⟩
      exact ⟨_, (exists_ordinal_iff hempty hlength).mp ⟨ordinal, hlt, rfl⟩, hw⟩
    · rintro ⟨i, hi, hw⟩
      obtain ⟨ordinal, hlt, rfl⟩ := (exists_ordinal_iff hempty hlength).mpr hi
      exact ⟨ordinal, hlt, hw⟩

/-! ## Launches on a patch -/

namespace MultiFab

variable {V : Type}

/-- The writes of a kernel at one cell: `count` components from `first` on. -/
def componentWrites (destination : FieldView d) (first count : ℤ) (value : Index d → ℕ → V)
    (i : Index d) : List ((ℕ × ℤ) × V) :=
  (List.range count.toNat).map fun component : ℕ =>
    (destination.address i (first + component), value i component)

/-- Launch a kernel on a patch: every cell of the region gets its components. -/
def launch (launches : CellLaunches d) (fields : MultiFab d V) (destination : FieldView d)
    (region : Box d) (first count : ℤ) (value : Index d → ℕ → V) : Throws (MultiFab d V) := do
  let ws ← forEachCell launches region (componentWrites destination first count value)
  pure (fields.setData (Store.writes fields.data ws))

/-- The effect of a launch of all components on a patch. -/
structure PatchWritten (fields result : MultiFab d V) (n : ℕ) (region : Box d)
    (value : Index d → ℕ → V) : Prop where
  metadata : result = fields.setData result.data
  written : ∀ i ∈ region.cells, ∀ c : ℕ, (c : ℤ) < fields.ncomp → result.value n i c = value i c
  kept : ∀ m i c, fields.Holds m i c → m ≠ n ∨ i ∉ region.cells →
    result.value m i c = fields.value m i c

/-- **A launch of all components writes its region and nothing else.** -/
theorem launch_spec {launches : CellLaunches d} {fields result : MultiFab d V} {n : ℕ}
    {region : Box d} {value : Index d → ℕ → V} (hlt : n < fields.layout.boxes.length)
    (hlocal : fields.ContainsLocal n) (hregion : ∀ i ∈ region.cells, i ∈ (fields.grownBox n).cells)
    (h : fields.launch launches (fields.view n) region 0 fields.ncomp value = .ok result) :
    PatchWritten fields result n region value := by
  simp only [launch, bind_eq_ok, pure_eq_ok] at h
  obtain ⟨ws, hws, rfl⟩ := h
  have hmem : ∀ w, w ∈ ws ↔ ∃ i ∈ region.cells, ∃ c : ℕ, (c : ℤ) < fields.ncomp ∧
      w = ((fields.view n).address i c, value i c) := by
    intro w
    rw [mem_forEachCell hws]
    simp only [componentWrites, List.mem_map, List.mem_range, zero_add]
    refine exists_congr fun i => and_congr_right fun _ => exists_congr fun c => ?_
    rw [Int.lt_toNat, eq_comm (b := w)]
  have hholds : ∀ i ∈ region.cells, ∀ c : ℕ, (c : ℤ) < fields.ncomp → fields.Holds n i c :=
    fun i hi c hc => ⟨hlt, hlocal, hregion i hi, Int.natCast_nonneg c, hc⟩
  refine ⟨rfl, fun i hi c hc => ?_, fun m i c hstored haway => ?_⟩
  · refine Store.writes_of_mem _ ⟨_, (hmem _).mpr ⟨i, hi, c, hc, rfl⟩, rfl⟩ fun w hw haddress => ?_
    obtain ⟨i', hi', c', hc', rfl⟩ := (hmem w).mp hw
    -- two stored elements with one address are one cell and one component
    obtain ⟨_, rfl, hcc⟩ := address_injective (hholds i' hi' c' hc') (hholds i hi c hc) haddress
    rw [Int.natCast_inj.mp hcc]
  · refine Store.writes_of_notMem _ fun w hw haddress => ?_
    obtain ⟨i', hi', c', hc', rfl⟩ := (hmem w).mp hw
    obtain ⟨rfl, rfl, _⟩ := address_injective (hholds i' hi' c' hc') hstored haddress
    exact haway.elim (fun hne => hne rfl) fun hnot => hnot hi'

/-- The stored elements of a field with the same metadata. -/
lemma holds_setData {fields : MultiFab d V} {data : ℕ × ℤ → V} {n : ℕ} {i : Index d} {c : ℤ} :
    (fields.setData data).Holds n i c ↔ fields.Holds n i c :=
  ⟨fun h => ⟨h.1, h.2, h.3, h.4, h.5⟩, fun h => ⟨h.1, h.2, h.3, h.4, h.5⟩⟩

/-- **Launches on disjoint regions all take effect.** A loop whose rounds each write a region of a
patch leaves every region with its values, if no two rounds meet.

**Proof sketch.** By induction on the rounds: the new region has its values, and the earlier ones
are kept because the new round does not meet them. -/
theorem foldlM_launch {ι : Type} {step : MultiFab d V → ι → Throws (MultiFab d V)}
    {items : List ι} {fields result : MultiFab d V} (patch : ι → ℕ) (region : ι → Box d)
    (value : ι → Index d → ℕ → V) (h : items.foldlM step fields = .ok result)
    (hstep : ∀ f f' item, item ∈ items → f = fields.setData f.data → step f item = .ok f' →
      PatchWritten f f' (patch item) (region item) (value item))
    (hholds : ∀ item ∈ items, ∀ i ∈ (region item).cells, ∀ c : ℕ, (c : ℤ) < fields.ncomp →
      fields.Holds (patch item) i c)
    (hapart : items.Pairwise fun p q => patch p ≠ patch q ∨
      Disjoint (region p).cells (region q).cells) :
    result = fields.setData result.data ∧ ∀ item ∈ items, ∀ i ∈ (region item).cells, ∀ c : ℕ,
      (c : ℤ) < fields.ncomp → result.value (patch item) i c = value item i c := by
  refine foldlM_invariant (P := fun done (f : MultiFab d V) => f = fields.setData f.data ∧
    ∀ item ∈ done, ∀ i ∈ (region item).cells, ∀ c : ℕ, (c : ℤ) < fields.ncomp →
      f.value (patch item) i c = value item i c) h ⟨rfl, by simp⟩ ?_
  intro done item rest f f' heq ⟨hmetadata, hdone⟩ hround
  have hwritten := hstep f f' item (by rw [heq]; simp) hmetadata hround
  have hncomp : f.ncomp = fields.ncomp := by rw [hmetadata]; rfl
  refine ⟨?_, fun p hp i hi c hc => ?_⟩
  · rw [hwritten.metadata, hmetadata]
    rfl
  · rcases List.mem_append.mp hp with hp | hp
    · rw [hwritten.kept _ _ _ ?_ ?_, hdone p hp i hi c hc]
      · rw [hmetadata, holds_setData]
        exact hholds p (by rw [heq]; simp [hp]) i hi c hc
      · rw [heq] at hapart
        rcases (List.pairwise_append.mp hapart).2.2 p hp item (by simp) with hne | hdisjoint
        · exact .inl hne
        · exact .inr (Finset.disjoint_left.mp hdisjoint hi)
    · obtain rfl := List.mem_singleton.mp hp
      exact hwritten.written i hi c (by rwa [hncomp])

end MultiFab

end Pops
