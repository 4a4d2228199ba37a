import Pops.Foundation.Odometer
import Pops.Mesh.Layout.BoxArray

/-!
# Spatial hashing of boxes

`BoxHash` puts the index of every nonempty box into all bins that the box meets; a query collects
the indices of the bins that the query box meets, sorted and without repetition.

## Main definitions

* `Pops.BoxHash` with `BoxHash.build` (the constructor) and `BoxHash.query`.
* `Pops.BoxHash.forEachBin` — the bins of a box.

## Main results

* `Pops.BoxHash.mem_forEachBin` — the bins of a box are the floor quotients between its corners.
* `Pops.BoxHash.query_refines_bruteForce` — a query agrees with the test of all boxes.
-/

namespace Pops

/-- `BinCoordinate`: the position of a bin along every axis. -/
abbrev BinCoordinate (d : ℕ) := Fin d → ℤ

/-- Explicit work limits. -/
structure BoxHashBudget where
  buildBinVisits : ℕ
  queryBinVisits : ℕ
  candidateReferences : ℕ
  deriving DecidableEq

/-- Remaining cumulative query work for a sequence of hash queries. -/
structure BoxHashQueryBudget where
  binVisits : ℕ
  candidateReferences : ℕ
  deriving DecidableEq

/-- The members of `BoxHash`; a key that `bins_` does not hold has the empty list. -/
structure BoxHash (d : ℕ) where
  binExtent : Extent d
  budget : BoxHashBudget
  bins : BinCoordinate d → List ℕ

namespace BoxHash

variable {d : ℕ}

/-- `floor_div_`. -/
def floorDiv (numerator denominator : ℤ) : ℤ :=
  let quotient := numerator.tdiv denominator
  let remainder := numerator.tmod denominator
  if remainder < 0 then quotient - 1 else quotient

/-- The bin of a cell. -/
def binOf (binExtent : Extent d) (cell : Index d) : BinCoordinate d :=
  fun axis => floorDiv (cell axis) (binExtent axis)

/-- `checked_bin_visits_`: the number of bins that a box meets, refused if it leaves `size_t`. -/
def checkedBinVisits (binExtent : Extent d) (box : Box d) : Throws ℕ :=
  (List.finRange d).foldlM (fun visits axis => do
    let axisVisits := (binOf binExtent box.hi axis - binOf binExtent box.lo axis).toNat + 1
    throwIf (axisVisits > sizeMax / visits)
      (lengthError "BoxHash bin enumeration exceeds its explicit capacity")
    pure (visits * axisVisits)) 1

/-- `for_each_bin_`: the bins in the order of the visits.  The bins of the corners of a box that is
not empty are in order; an empty box is never enumerated. -/
def forEachBin (binExtent : Extent d) (box : Box d) : List (BinCoordinate d) :=
  if h : ∀ axis, binOf binExtent box.lo axis ≤ binOf binExtent box.hi axis then
    Odometer.visits (binOf binExtent box.lo) (binOf binExtent box.hi) h
  else []

/-- `bins_[key].push_back(index)`. -/
def pushBack (bins : BinCoordinate d → List ℕ) (key : BinCoordinate d) (index : ℕ) :
    BinCoordinate d → List ℕ :=
  Function.update bins key (bins key ++ [index])

/-- The bins with a box entered. -/
def enter (binExtent : Extent d) (bins : BinCoordinate d → List ℕ) (entry : ℕ × Box d) :
    BinCoordinate d → List ℕ :=
  if entry.2.Empty then bins
  else (forEachBin binExtent entry.2).foldl (fun bins key => pushBack bins key entry.1) bins

/-- The boxes with their indices. -/
def indexed (boxes : BoxArray d) : List (ℕ × Box d) :=
  (List.range boxes.boxes.length).zip boxes.boxes

/-- The constructor; `maxBins` is `bins_.max_size()`. -/
def build (boxes : BoxArray d) (binExtent : Extent d) (budget : BoxHashBudget) (maxBins : ℕ) :
    Throws (BoxHash d) := do
  let _ ← forEachAxis fun axis => throwIf (binExtent axis ≤ 0)
    (invalidArgument "BoxHash bin extents must be strictly positive")
  let _ ← boxes.boxes.foldlM (fun totalVisits box => do
    if box.Empty then pure totalVisits
    else
      let visits ← checkedBinVisits binExtent box
      throwIf (totalVisits > budget.buildBinVisits ∨ visits > budget.buildBinVisits - totalVisits ∨
        totalVisits > maxBins ∨ visits > maxBins - totalVisits)
        (lengthError "BoxHash bin enumeration exceeds its explicit capacity")
      pure (totalVisits + visits)) 0
  pure ⟨binExtent, budget, (indexed boxes).foldl (enter binExtent) fun _ => []⟩

/-- The state of the loop of `query`. -/
structure QueryState where
  candidates : List ℕ
  references : ℕ
  cumulative : Option BoxHashQueryBudget
  deriving DecidableEq

/-- The callback of `query` on one bin. -/
def collect (hash : BoxHash d) (state : QueryState) (key : BinCoordinate d) : Throws QueryState :=
  let found := hash.bins key
  if found = [] then pure state
  else do
    throwIf (state.references > hash.budget.candidateReferences ∨
      found.length > hash.budget.candidateReferences - state.references ∨
      state.candidates.length > vectorMaxSize 8 - found.length)
      (lengthError "BoxHash candidate references exceed their explicit budget")
    throwIf (state.cumulative.any fun budget => decide (found.length > budget.candidateReferences))
      (lengthError "BoxHash cumulative candidate references exceed their explicit budget")
    pure ⟨state.candidates ++ found, state.references + found.length,
      state.cumulative.map fun budget =>
        ⟨budget.binVisits, budget.candidateReferences - found.length⟩⟩

/-- `std::unique`: of equal neighbours one is kept. -/
def unique : List ℕ → List ℕ
  | [] => []
  | [a] => [a]
  | a :: b :: rest => if a = b then unique (b :: rest) else a :: unique (b :: rest)

/-- `query`, with the cumulative budget that it leaves. -/
def query (hash : BoxHash d) (queryBox : Box d) (cumulative : Option BoxHashQueryBudget) :
    Throws (List ℕ × Option BoxHashQueryBudget) :=
  if queryBox.Empty then pure ([], cumulative)
  else do
    let queryVisits ← checkedBinVisits hash.binExtent queryBox
    throwIf (queryVisits > hash.budget.queryBinVisits)
      (lengthError "BoxHash query enumeration exceeds its explicit budget")
    throwIf (cumulative.any fun budget => decide (queryVisits > budget.binVisits))
      (lengthError "BoxHash cumulative query bins exceed their explicit budget")
    let state ← (forEachBin hash.binExtent queryBox).foldlM (collect hash)
      ⟨[], 0, cumulative.map fun budget =>
        ⟨budget.binVisits - queryVisits, budget.candidateReferences⟩⟩
    pure (unique (state.candidates.mergeSort fun a b => decide (a ≤ b)), state.cumulative)

/-! ## Bins -/

/-- The corrected truncated division is floor division. -/
lemma floorDiv_eq {m : ℤ} (n : ℤ) (hm : 0 < m) : floorDiv n m = n / m := by
  have hnonneg := Int.emod_nonneg n hm.ne'
  have hlt := Int.emod_lt_of_pos n hm
  simp only [floorDiv, Int.tmod_eq_emod, Int.tdiv_eq_ediv, Int.sign_eq_one_of_pos hm]
  split_ifs <;> omega

/-- Bins of cells in order are in order. -/
lemma binOf_mono {binExtent : Extent d} (hpos : ∀ axis, 0 < binExtent axis) {i j : Index d}
    {axis : Fin d} (h : i axis ≤ j axis) : binOf binExtent i axis ≤ binOf binExtent j axis := by
  simp only [binOf, floorDiv_eq _ (hpos axis)]
  exact Int.ediv_le_ediv (hpos axis) h

/-- The bins of a box that is not empty are those between the bins of its corners. -/
theorem mem_forEachBin {binExtent : Extent d} (hpos : ∀ axis, 0 < binExtent axis) {box : Box d}
    (hbox : ¬box.Empty) {key : BinCoordinate d} :
    key ∈ forEachBin binExtent box ↔
      ∀ axis, binOf binExtent box.lo axis ≤ key axis ∧ key axis ≤ binOf binExtent box.hi axis := by
  have horder : ∀ axis, binOf binExtent box.lo axis ≤ binOf binExtent box.hi axis :=
    fun axis => binOf_mono hpos (Box.lo_le_hi hbox axis)
  rw [forEachBin, dif_pos horder, Odometer.mem_visits]
  rfl

/-- The bin of a cell of a box is a bin of the box. -/
lemma binOf_mem {binExtent : Extent d} (hpos : ∀ axis, 0 < binExtent axis) {box : Box d}
    {cell : Index d} (hcell : cell ∈ box.cells) :
    binOf binExtent cell ∈ forEachBin binExtent box := by
  rw [mem_forEachBin hpos (Box.not_empty_of_mem hcell)]
  intro axis
  have h := Box.mem_cells.mp hcell axis
  exact ⟨binOf_mono hpos h.1, binOf_mono hpos h.2⟩

/-! ## The table -/

/-- Entering an index into a list of keys. -/
lemma mem_foldl_pushBack {keys : List (BinCoordinate d)} {bins : BinCoordinate d → List ℕ}
    {index i : ℕ} {key : BinCoordinate d} :
    i ∈ keys.foldl (fun bins key => pushBack bins key index) bins key ↔
      i ∈ bins key ∨ i = index ∧ key ∈ keys := by
  induction keys generalizing bins with
  | nil => simp
  | cons first rest ih =>
    rw [List.foldl_cons, ih, pushBack]
    by_cases hkey : key = first
    · subst hkey
      simp
      tauto
    · simp [hkey]

/-- A bin holds the indices of the boxes that meet it. -/
lemma mem_bins {binExtent : Extent d} {entries : List (ℕ × Box d)}
    {bins : BinCoordinate d → List ℕ} {i : ℕ} {key : BinCoordinate d} :
    i ∈ entries.foldl (enter binExtent) bins key ↔ i ∈ bins key ∨
      ∃ box, (i, box) ∈ entries ∧ ¬box.Empty ∧ key ∈ forEachBin binExtent box := by
  induction entries generalizing bins with
  | nil => simp
  | cons entry rest ih =>
    obtain ⟨index, box⟩ := entry
    have henter : i ∈ enter binExtent bins (index, box) key ↔
        i ∈ bins key ∨ i = index ∧ ¬box.Empty ∧ key ∈ forEachBin binExtent box := by
      unfold enter
      by_cases hempty : box.Empty
      · simp [hempty]
      · rw [if_neg hempty, mem_foldl_pushBack]
        simp [hempty]
    rw [List.foldl_cons, ih, henter]
    constructor
    · rintro ((h | ⟨rfl, hbox, hkey⟩) | ⟨other, hmem, hother⟩)
      · exact .inl h
      · exact .inr ⟨box, List.mem_cons_self, hbox, hkey⟩
      · exact .inr ⟨other, List.mem_cons_of_mem _ hmem, hother⟩
    · rintro (h | ⟨other, hmem, hother⟩)
      · exact .inl (.inl h)
      · rcases List.mem_cons.mp hmem with heq | hmem
        · obtain ⟨rfl, rfl⟩ := Prod.mk.inj heq
          exact .inl (.inr ⟨rfl, hother⟩)
        · exact .inr ⟨other, hmem, hother⟩

/-- The boxes with their indices are the members of the layout. -/
lemma mem_indexed {boxes : BoxArray d} {i : ℕ} {box : Box d} :
    (i, box) ∈ indexed boxes ↔ boxes.boxes[i]? = some box := by
  rw [indexed, List.mem_iff_getElem?]
  constructor
  · rintro ⟨k, hk⟩
    rw [List.getElem?_zip_eq_some] at hk
    obtain ⟨hi, hbox⟩ := hk
    rw [List.getElem?_eq_some_iff] at hi
    obtain ⟨hlt, hi⟩ := hi
    rw [List.getElem_range] at hi
    subst hi
    exact hbox
  · intro hbox
    refine ⟨i, List.getElem?_zip_eq_some.mpr ⟨?_, hbox⟩⟩
    obtain ⟨hlt, -⟩ := List.getElem?_eq_some_iff.mp hbox
    exact List.getElem?_range hlt

/-- **The table of a built hash.** -/
theorem build_spec {boxes : BoxArray d} {binExtent : Extent d} {budget : BoxHashBudget}
    {maxBins : ℕ} {hash : BoxHash d} (h : build boxes binExtent budget maxBins = .ok hash) :
    (∀ axis, 0 < binExtent axis) ∧ hash.binExtent = binExtent ∧
      ∀ i key, i ∈ hash.bins key ↔ ∃ box, boxes.boxes[i]? = some box ∧ ¬box.Empty ∧
        key ∈ forEachBin binExtent box := by
  simp only [build, bind_eq_ok, forEachAxis_eq_ok, throwIf_eq_ok, pure_eq_ok] at h
  obtain ⟨_, hpos, _, _, rfl⟩ := h
  refine ⟨fun axis => not_le.mp (hpos axis), rfl, fun i key => ?_⟩
  rw [mem_bins]
  simp [mem_indexed]

/-! ## Queries -/

/-- The candidates of a loop over bins. -/
lemma mem_foldlM_collect {hash : BoxHash d} {keys : List (BinCoordinate d)}
    {state final : QueryState} (h : keys.foldlM (collect hash) state = .ok final) (i : ℕ) :
    i ∈ final.candidates ↔ i ∈ state.candidates ∨ ∃ key ∈ keys, i ∈ hash.bins key := by
  induction keys generalizing state with
  | nil =>
    simp only [List.foldlM_nil, pure_eq_ok] at h
    simp [h]
  | cons key rest ih =>
    simp only [List.foldlM_cons, bind_eq_ok] at h
    obtain ⟨next, hnext, hrest⟩ := h
    have hcollect : i ∈ next.candidates ↔ i ∈ state.candidates ∨ i ∈ hash.bins key := by
      unfold collect at hnext
      by_cases hempty : hash.bins key = []
      · simp only [hempty, if_true, pure_eq_ok] at hnext
        simp [← hnext, hempty]
      · simp only [if_neg hempty, bind_eq_ok, throwIf_eq_ok, pure_eq_ok] at hnext
        obtain ⟨_, _, _, _, rfl⟩ := hnext
        simp
    rw [ih hrest, hcollect]
    simp [or_assoc]

/-- `unique` keeps the members. -/
@[simp] lemma mem_unique {l : List ℕ} {i : ℕ} : i ∈ unique l ↔ i ∈ l := by
  fun_induction unique l with
  | case1 => rfl
  | case2 a => rfl
  | case3 a rest ih =>
    rw [ih]
    simp
  | case4 a b rest hne ih =>
    rw [List.mem_cons, ih, List.mem_cons (a := i) (b := a)]

/-- Of a sorted list `unique` leaves an increasing one. -/
lemma unique_pairwise {l : List ℕ} (h : l.Pairwise (· ≤ ·)) : (unique l).Pairwise (· < ·) := by
  fun_induction unique l with
  | case1 => exact List.Pairwise.nil
  | case2 a => exact List.pairwise_singleton _ _
  | case3 a rest ih => exact ih (List.pairwise_cons.mp h).2
  | case4 a b rest hne ih =>
    obtain ⟨hle, hrest⟩ := List.pairwise_cons.mp h
    refine List.pairwise_cons.mpr ⟨fun c hc => ?_, ih hrest⟩
    rw [mem_unique] at hc
    have hab := hle b List.mem_cons_self
    have hbc : b ≤ c := by
      rcases List.mem_cons.mp hc with rfl | hc
      · exact le_rfl
      · exact (List.pairwise_cons.mp hrest).1 c hc
    omega

/-- A sorted list is sorted. -/
lemma sorted_mergeSort (l : List ℕ) :
    (l.mergeSort fun a b => decide (a ≤ b)).Pairwise (· ≤ ·) := by
  have h : (l.mergeSort fun a b => decide (a ≤ b)).Pairwise fun a b => decide (a ≤ b) = true :=
    List.pairwise_mergeSort (fun a b c hab hbc => by simp only [decide_eq_true_eq] at *; omega)
      (fun a b => by simp only [Bool.or_eq_true, decide_eq_true_eq]; omega) l
  exact h.imp fun hab => by simpa using hab

/-- The box of an index meets the query box. -/
def Meets (boxes : BoxArray d) (queryBox : Box d) (i : ℕ) : Prop :=
  ∃ box, boxes.boxes[i]? = some box ∧ ¬(box.intersect queryBox).Empty

instance (boxes : BoxArray d) (queryBox : Box d) (i : ℕ) : Decidable (Meets boxes queryBox i) :=
  match h : boxes.boxes[i]? with
  | none => isFalse fun ⟨_, hbox, _⟩ => by simp [h] at hbox
  | some box =>
    decidable_of_iff (¬(box.intersect queryBox).Empty)
      ⟨fun hmeets => ⟨box, h, hmeets⟩, fun ⟨_, hbox, hmeets⟩ => by
        rw [h] at hbox
        exact Option.some.inj hbox ▸ hmeets⟩

/-- **A query agrees with brute force**: when construction and query return, the result is strictly
increasing, holds every box that meets the query box, and only nonempty boxes that share a bin with
it; filtered by intersection it is the list of all indices filtered by intersection.

**Proof sketch.** A common cell of two boxes lies in a bin of both, since floor division is monotone
on every axis, and the odometer visits every bin of both boxes. -/
theorem query_refines_bruteForce {boxes : BoxArray d} {binExtent : Extent d}
    {budget : BoxHashBudget} {maxBins : ℕ} {hash : BoxHash d}
    (hbuild : build boxes binExtent budget maxBins = .ok hash) {queryBox : Box d}
    {cumulative left : Option BoxHashQueryBudget} {candidates : List ℕ}
    (hquery : hash.query queryBox cumulative = .ok (candidates, left)) :
    candidates.Pairwise (· < ·) ∧ (∀ i, Meets boxes queryBox i → i ∈ candidates) ∧
      (∀ i ∈ candidates, ∃ box, boxes.boxes[i]? = some box ∧ ¬box.Empty ∧
        ∃ key ∈ forEachBin binExtent box, key ∈ forEachBin binExtent queryBox) ∧
      candidates.filter (fun i => decide (Meets boxes queryBox i)) =
        (List.range boxes.boxes.length).filter fun i => decide (Meets boxes queryBox i) := by
  obtain ⟨hpos, hextent, hbins⟩ := build_spec hbuild
  -- what is found, and in which order
  have hspec : candidates.Pairwise (· < ·) ∧ ∀ i, i ∈ candidates ↔ ¬queryBox.Empty ∧
      ∃ key ∈ forEachBin binExtent queryBox, i ∈ hash.bins key := by
    unfold query at hquery
    by_cases hempty : queryBox.Empty
    · simp only [hempty, if_true, pure_eq_ok, Prod.mk.injEq] at hquery
      simp [← hquery.1, hempty]
    · simp only [if_neg hempty, bind_eq_ok, throwIf_eq_ok, pure_eq_ok, Prod.mk.injEq] at hquery
      obtain ⟨_, _, _, _, _, _, final, hloop, rfl, _⟩ := hquery
      refine ⟨unique_pairwise (sorted_mergeSort _), fun i => ?_⟩
      rw [mem_unique, List.mem_mergeSort, mem_foldlM_collect hloop, hextent]
      simp [hempty]
  obtain ⟨hincreasing, hmem⟩ := hspec
  have hmeets : ∀ i, Meets boxes queryBox i → i ∈ candidates := by
    rintro i ⟨box, hbox, hne⟩
    rw [Box.intersect_empty_iff, Finset.not_disjoint_iff] at hne
    obtain ⟨cell, hcell, hcell'⟩ := hne
    rw [hmem]
    refine ⟨Box.not_empty_of_mem hcell', binOf binExtent cell, binOf_mem hpos hcell', ?_⟩
    rw [hbins]
    exact ⟨box, hbox, Box.not_empty_of_mem hcell, binOf_mem hpos hcell⟩
  refine ⟨hincreasing, hmeets, fun i hi => ?_, ?_⟩
  · obtain ⟨-, key, hkey, hi⟩ := (hmem i).mp hi
    obtain ⟨box, hbox, hne, hkey'⟩ := (hbins i key).mp hi
    exact ⟨box, hbox, hne, key, hkey', hkey⟩
  · -- both lists are increasing and have the same members
    have hperm : (candidates.filter fun i => decide (Meets boxes queryBox i)).Perm
        ((List.range boxes.boxes.length).filter fun i => decide (Meets boxes queryBox i)) := by
      refine (List.perm_ext_iff_of_nodup ((List.Pairwise.nodup hincreasing).filter _)
        (List.nodup_range.filter _)).mpr fun i => ?_
      simp only [List.mem_filter, List.mem_range, decide_eq_true_eq]
      constructor
      · rintro ⟨-, hi⟩
        obtain ⟨box, hbox, hne⟩ := hi
        exact ⟨(List.getElem?_eq_some_iff.mp hbox).1, box, hbox, hne⟩
      · rintro ⟨-, hi⟩
        exact ⟨hmeets i hi, hi⟩
    refine hperm.eq_of_pairwise ?_ (hincreasing.filter _) (List.pairwise_lt_range.filter _)
    intro a b _ _ hab hba
    omega

/-- Four boxes of two axes: the first one covers two bins of two cells, the second one is empty, and
the last ones have a bin each. -/
def sampleBoxes : BoxArray 2 :=
  ⟨[⟨![-2, 0], ![1, 1]⟩, ⟨![0, 0], ![-1, 3]⟩, ⟨![0, 3], ![0, 3]⟩, ⟨![4, 0], ![5, 1]⟩], by decide⟩

/-- The box of the example query. -/
def sampleQuery : Box 2 := ⟨![-1, 1], ![0, 2]⟩

/-- The bins of the example boxes. -/
private lemma bins_sampleBoxes :
    (indexed sampleBoxes).foldl (enter fun _ => 2) (fun _ => []) =
      pushBack (pushBack (pushBack (pushBack (fun _ => []) ![-1, 0] 0) ![0, 0] 0) ![0, 1] 2)
        ![2, 0] 3 := by
  have hfirst : forEachBin (fun _ => 2) (⟨![-2, 0], ![1, 1]⟩ : Box 2) = [![-1, 0], ![0, 0]] := by
    decide +kernel
  have hthird : forEachBin (fun _ => 2) (⟨![0, 3], ![0, 3]⟩ : Box 2) = [![0, 1]] := by
    decide +kernel
  have hlast : forEachBin (fun _ => 2) (⟨![4, 0], ![5, 1]⟩ : Box 2) = [![2, 0]] := by
    decide +kernel
  have hboxes : indexed sampleBoxes = [(0, ⟨![-2, 0], ![1, 1]⟩), (1, ⟨![0, 0], ![-1, 3]⟩),
      (2, ⟨![0, 3], ![0, 3]⟩), (3, ⟨![4, 0], ![5, 1]⟩)] := rfl
  have hempty : (⟨![0, 0], ![-1, 3]⟩ : Box 2).Empty := by decide
  have hne : ¬(⟨![-2, 0], ![1, 1]⟩ : Box 2).Empty := by decide
  have hne' : ¬(⟨![0, 3], ![0, 3]⟩ : Box 2).Empty := by decide
  have hne'' : ¬(⟨![4, 0], ![5, 1]⟩ : Box 2).Empty := by decide
  simp only [hboxes, List.foldl_cons, List.foldl_nil, enter, if_neg hne, if_pos hempty,
    if_neg hne', if_neg hne'', hfirst, hthird, hlast]

/-- A query over four bins finds the first box twice and keeps it once, and it finds the third one,
with which it only shares a bin. -/
theorem query_refines_bruteForce_sample : ∃ hash candidates left,
    build sampleBoxes (fun _ => 2) ⟨8, 8, 8⟩ 100 = .ok hash ∧
      hash.query sampleQuery none = .ok (candidates, left) ∧
      candidates = [0, 2] ∧ candidates.Pairwise (· < ·) ∧
      candidates.filter (fun i => decide (Meets sampleBoxes sampleQuery i)) =
        (List.range 4).filter fun i => decide (Meets sampleBoxes sampleQuery i) := by
  have hbuild : build sampleBoxes (fun _ => 2) ⟨8, 8, 8⟩ 100 = .ok ⟨fun _ => 2, ⟨8, 8, 8⟩,
      (indexed sampleBoxes).foldl (enter fun _ => 2) fun _ => []⟩ := by rfl
  rw [bins_sampleBoxes] at hbuild
  generalize hbins : pushBack (pushBack (pushBack (pushBack (fun _ => []) ![-1, 0] 0) ![0, 0] 0)
    ![0, 1] 2) (![2, 0] : BinCoordinate 2) 3 = bins at hbuild
  have hquery : query ⟨fun _ => 2, ⟨8, 8, 8⟩, bins⟩ sampleQuery none = .ok ([0, 2], none) := by
    have hne : ¬sampleQuery.Empty := by decide
    have hvisits : checkedBinVisits (fun _ => 2) sampleQuery = .ok 4 := by rfl
    have hvisited : forEachBin (fun _ => 2) sampleQuery =
        [![-1, 0], ![0, 0], ![-1, 1], ![0, 1]] := by decide +kernel
    -- what the four visited bins hold
    have hheld : bins ![-1, 0] = [0] ∧ bins ![0, 0] = [0] ∧ bins ![-1, 1] = [] ∧
        bins ![0, 1] = [2] := by
      simp [← hbins, pushBack]
    have hsorted : ([0, 0, 2].mergeSort fun a b : ℕ => decide (a ≤ b)) = [0, 0, 2] :=
      List.mergeSort_of_pairwise (by decide)
    simp [query, hne, hvisits, hvisited, collect, hheld, hsorted, throwIf, vectorMaxSize, int64Max,
      unique]
  obtain ⟨hincreasing, -, -, hfilter⟩ := query_refines_bruteForce hbuild hquery
  exact ⟨_, _, none, hbuild, hquery, rfl, hincreasing, hfilter⟩

end BoxHash

end Pops
