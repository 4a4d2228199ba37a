import Pops.Foundation.BalancedSplit
import Pops.Foundation.MixedRadix
import Pops.Mesh.Layout.ExactCellCount

/-!
# Ordered patch layouts

`pops::mesh::BoxArray`: an ordered list of candidate patches, its bounded validation, and the
deterministic tiling of a domain.

## Main definitions

* `Pops.BoxArray` — a list of boxes with `int` bounds.
* `Pops.BoxArray.fromDomain` — the tiling of a domain into boxes of bounded length.
* `Pops.BoxArray.isDisjointWithin`, `tilesExactly` — bounded validation.

## Main results

* `Pops.BoxArray.fromDomain_partition` — the tiles partition the domain and respect the maximum
  lengths.
* `Pops.BoxArray.disjointWithin_iff` — the validated condition on cell sets.
* `Pops.BoxArray.tilesExactly_eq_ok_true` — what an accepted exact tiling guarantees.
* `Pops.BoxArray.tilesExactly_decides` — the exact tiling test decides partitions.
-/

namespace Pops

/-- Explicit finite budget for the quadratic disjointness proof. -/
structure BoxArrayValidationBudget where
  boxes : ℕ
  overlapPairs : ℕ
  deriving DecidableEq

/-- Ordered collection of candidate patches. -/
@[ext] structure BoxArray (d : ℕ) where
  boxes : List (Box d)
  isInt : ∀ b ∈ boxes, b.IsInt
  deriving DecidableEq

/-- `std::vector<T>{}.max_size()` for elements of the given size. -/
def vectorMaxSize (bytes : ℕ) : ℕ := int64Max.toNat / bytes

namespace BoxArray

variable {d : ℕ}

/-- The empty layout. -/
def nil : BoxArray d := ⟨[], by simp⟩

/-- The number of segments of one axis of `fromDomain`. -/
def segmentCount (domain : Box d) (maxGridSize : Extent d) (axis : Fin d) : ℕ :=
  1 + ((domain.length axis).toNat - 1) / (maxGridSize axis).toNat

/-- The offset of a segment of one axis from the lower bound of the domain. -/
def tileOffset (domain : Box d) (segments segment : Fin d → ℕ) (axis : Fin d) : ℕ :=
  BalancedSplit.offset (domain.length axis).toNat (segments axis) (segment axis)

/-- The width of a segment of one axis. -/
def tileWidth (domain : Box d) (segments segment : Fin d → ℕ) (axis : Fin d) : ℕ :=
  BalancedSplit.width (domain.length axis).toNat (segments axis) (segment axis)

/-- The tile with the given segment on every axis. -/
def tile (domain : Box d) (segments segment : Fin d → ℕ) : Box d where
  lo axis := castInt (domain.lo axis + tileOffset domain segments segment axis)
  hi axis := castInt (domain.lo axis + tileOffset domain segments segment axis +
    tileWidth domain segments segment axis - 1)

/-- Every tile has `int` bounds. -/
lemma isInt_tile (domain : Box d) (segments segment : Fin d → ℕ) :
    (tile domain segments segment).IsInt :=
  fun _ => ⟨isInt_castInt _, isInt_castInt _⟩

/-- The layout of the first `count` tiles, axis 0 contiguous. -/
def ofTiles (domain : Box d) (segments : Fin d → ℕ) (count : ℕ) : BoxArray d where
  boxes := (List.range count).map fun ordinal =>
    tile domain segments (MixedRadix.unrank segments ordinal)
  isInt b hb := by
    obtain ⟨q, _, rfl⟩ := List.mem_map.mp hb
    exact isInt_tile _ _ _

/-- Tile a domain deterministically with axis 0 contiguous in the resulting order. -/
def fromDomain (domain : Box d) (maxGridSize : Extent d) : Throws (BoxArray d) := do
  let _ ← forEachAxis fun axis => throwIf (maxGridSize axis ≤ 0)
    (invalidArgument "BoxArray max grid sizes must be strictly positive")
  if domain.Empty then pure nil
  else
    let tileCount ← (List.finRange d).foldlM (fun tileCount axis => do
      throwIf (segmentCount domain maxGridSize axis > sizeMax / tileCount)
        (lengthError "BoxArray tile count exceeds size_t")
      pure (tileCount * segmentCount domain maxGridSize axis)) 1
    throwIf (tileCount > vectorMaxSize (8 * d))
      (lengthError "BoxArray tile count exceeds vector capacity")
    pure (ofTiles domain (segmentCount domain maxGridSize) tileCount)

/-- The exact total number of cells, patches counted with multiplicity. -/
def exactCellCount (array : BoxArray d) : Throws ExactCellCount :=
  ExactCellCount.sumBoxes array.boxes
    (overflowError "BoxArray exact cell count exceeds four limbs")

/-- The validation budget of the quadratic overlap test. -/
def requireBudget (array : BoxArray d) (budget : BoxArrayValidationBudget) : Throws Unit := do
  throwIf (array.boxes.length > budget.boxes)
    (lengthError "BoxArray validation exceeds the explicit patch budget")
  throwIf (array.boxes.length > 1 ∧ array.boxes.length - 1 > sizeMax / array.boxes.length)
    (lengthError "BoxArray overlap count exceeds size_t")
  throwIf (array.boxes.length * (array.boxes.length - 1) / 2 > budget.overlapPairs)
    (lengthError "BoxArray validation exceeds the explicit overlap budget")

/-- Every patch is nonempty, inside the domain and disjoint from every earlier patch. -/
def DisjointWithin (array : BoxArray d) (domain : Box d) : Prop :=
  (∀ box ∈ array.boxes, ¬ box.Empty ∧ domain.ContainsBox box) ∧
    array.boxes.Pairwise fun earlier box => (box.intersect earlier).Empty

instance (array : BoxArray d) (domain : Box d) : Decidable (array.DisjointWithin domain) :=
  inferInstanceAs (Decidable (_ ∧ _))

/-- Validate that every patch is nonempty, inside the domain and pairwise disjoint. -/
def isDisjointWithin (array : BoxArray d) (domain : Box d) (budget : BoxArrayValidationBudget) :
    Throws Bool := do
  array.requireBudget budget
  pure (decide (array.DisjointWithin domain))

/-- Validate that the patches tile the domain exactly. -/
def tilesExactly (array : BoxArray d) (domain : Box d) (budget : BoxArrayValidationBudget) :
    Throws Bool :=
  if domain.Empty then pure (decide (array.boxes = []))
  else do
    let disjoint ← array.isDisjointWithin domain budget
    if disjoint = false then pure false
    else
      let total ← array.exactCellCount
      let whole ← ExactCellCount.fromBox domain
      pure (decide (total = whole))

/-- The cell sets of the patches. -/
def cellSets (array : BoxArray d) : List (Finset (Index d)) := array.boxes.map Box.cells

/-- The set of cells covered by the patches. -/
def cells (array : BoxArray d) : Finset (Index d) := Cover.union array.cellSets

/-! ## Validation -/

/-- A covered cell is a cell of some patch. -/
@[simp] lemma mem_cells {array : BoxArray d} {i : Index d} :
    i ∈ array.cells ↔ ∃ b ∈ array.boxes, i ∈ b.cells := by
  simp [cells, cellSets]

/-- The overlap test on a list of boxes is pairwise disjointness of the cell sets. -/
lemma pairwise_disjoint_iff {boxes : List (Box d)} :
    boxes.Pairwise (fun earlier box => (box.intersect earlier).Empty) ↔
      (boxes.map Box.cells).Pairwise Disjoint := by
  rw [List.pairwise_map]
  refine List.Pairwise.iff fun b c => ?_
  rw [Box.intersect_empty_iff, disjoint_comm]

/-- The validated condition, on cell sets. -/
theorem disjointWithin_iff {array : BoxArray d} {domain : Box d} :
    array.DisjointWithin domain ↔
      (∀ b ∈ array.boxes, ¬ b.Empty ∧ b.cells ⊆ domain.cells) ∧
        array.cellSets.Pairwise Disjoint := by
  unfold DisjointWithin cellSets
  rw [pairwise_disjoint_iff]
  refine and_congr_left fun _ => forall₂_congr fun b _ => ?_
  rw [Box.containsBox_iff]
  tauto

/-- An accepted validation is the validated condition. -/
lemma isDisjointWithin_eq_ok_true {array : BoxArray d} {domain : Box d}
    {budget : BoxArrayValidationBudget} (h : array.isDisjointWithin domain budget = .ok true) :
    array.DisjointWithin domain := by
  simp only [isDisjointWithin, bind_eq_ok, pure_eq_ok, decide_eq_true_eq] at h
  obtain ⟨_, _, h⟩ := h
  exact h

/-- An accepted exact tiling of a nonempty domain is disjoint inside it and covers it. -/
theorem tilesExactly_eq_ok_true {array : BoxArray d} {domain : Box d}
    {budget : BoxArrayValidationBudget} (hne : ¬ domain.Empty)
    (h : array.tilesExactly domain budget = .ok true) :
    array.DisjointWithin domain ∧ array.cells = domain.cells := by
  simp only [tilesExactly, if_neg hne, bind_eq_ok] at h
  obtain ⟨disjoint, hdis, h⟩ := h
  cases disjoint with
  | false => simp at h
  | true =>
    have hwithin := isDisjointWithin_eq_ok_true hdis
    obtain ⟨hsub, hpair⟩ := disjointWithin_iff.mp hwithin
    simp only [Bool.true_eq_false, if_false, bind_eq_ok, pure_eq_ok, decide_eq_true_eq] at h
    obtain ⟨total, htotal, whole, hwhole, rfl⟩ := h
    have hcount : array.cells.card = domain.cells.card := by
      rw [cells, Cover.card_union hpair, cellSets, List.map_map, ← ExactCellCount.fromBox_eq_ok.mp
        hwhole]
      exact (ExactCellCount.sumBoxes_eq_ok.mp htotal).symm
    refine ⟨hwithin, Finset.eq_of_subset_of_card_le ?_ hcount.ge⟩
    intro i hi
    obtain ⟨b, hb, hib⟩ := mem_cells.mp hi
    exact (hsub b hb).2 hib

/-- Disjoint patches inside a domain with `int` bounds have at most `2⁹⁶` cells in total. -/
lemma sum_card_le (hd : d ≤ 3) {array : BoxArray d}
    (hpair : array.cellSets.Pairwise Disjoint) :
    (array.boxes.map fun b => b.cells.card).sum ≤ 2 ^ 96 := by
  have hsub : ∀ t ∈ array.cellSets, t ⊆ (Box.full d).cells := by
    intro t ht
    obtain ⟨b, hb, rfl⟩ := List.mem_map.mp ht
    exact (array.isInt b hb).subset_full
  have hle := Cover.sum_card_le hpair hsub
  rw [cellSets, List.map_map] at hle
  exact hle.trans (Box.card_full_le hd)

/-- The patches partition the domain: every patch is nonempty and stays inside the domain, and every
cell of the domain belongs to exactly one patch. -/
def Partitions (array : BoxArray d) (domain : Box d) : Prop :=
  (∀ b ∈ array.boxes, ¬ b.Empty ∧ ∀ i ∈ b.cells, i ∈ domain.cells) ∧
    ∀ i ∈ domain.cells, ∃! k : Fin array.boxes.length, i ∈ array.boxes[k].cells

/-- A partition is a disjoint family inside the domain that covers it. -/
lemma partitions_iff {array : BoxArray d} {domain : Box d} :
    array.Partitions domain ↔ array.DisjointWithin domain ∧ array.cells = domain.cells := by
  rw [disjointWithin_iff]
  constructor
  · rintro ⟨hwithin, hunique⟩
    refine ⟨⟨hwithin, Cover.pairwise_disjoint_of_unique fun b hb i hi =>
      hunique i ((hwithin b hb).2 i hi)⟩, Finset.Subset.antisymm ?_ ?_⟩
    · intro i hi
      obtain ⟨b, hb, hib⟩ := mem_cells.mp hi
      exact (hwithin b hb).2 i hib
    · intro i hi
      obtain ⟨k, hk, -⟩ := hunique i hi
      exact mem_cells.mpr ⟨_, List.getElem_mem k.2, hk⟩
  · rintro ⟨⟨hwithin, hpair⟩, hcells⟩
    refine ⟨hwithin, fun i hi => Cover.existsUnique_mem hpair ?_⟩
    rw [← hcells] at hi
    exact mem_cells.mp hi

/-- **`tiles_exactly` decides partitions**, for all patches and domains with `int` bounds in at most
three dimensions: within the budget it returns, and it returns `true` exactly for the partitions of
the domain; an empty domain has the empty layout only.

**Proof sketch.** The patches are validated to be disjoint and inside the domain, so their summed
count is at most that of all cells with `int` indices, which four limbs hold; the counts then agree
exactly if the patches cover the domain. -/
theorem tilesExactly_decides (hd : d ≤ 3) (array : BoxArray d) {domain : Box d}
    (hdomain : domain.IsInt) {budget : BoxArrayValidationBudget}
    (hbudget : domain.Empty ∨ array.requireBudget budget = .ok ()) :
    ∃ answer, array.tilesExactly domain budget = .ok answer ∧
      (answer = true ↔ if domain.Empty then array.boxes = [] else array.Partitions domain) := by
  by_cases hempty : domain.Empty
  · exact ⟨_, if_pos hempty, by simp [hempty]⟩
  have hrequire := hbudget.resolve_left hempty
  simp only [if_neg hempty]
  rw [partitions_iff, tilesExactly, if_neg hempty, isDisjointWithin, hrequire]
  by_cases hdisjoint : array.DisjointWithin domain
  · obtain ⟨-, hpair⟩ := disjointWithin_iff.mp hdisjoint
    have hlimbs : 2 ^ 96 < limbBase ^ 4 := by decide
    obtain ⟨total, htotal⟩ := ExactCellCount.sumBoxes_returns
      (e := overflowError "BoxArray exact cell count exceeds four limbs")
      ((sum_card_le hd hpair).trans_lt hlimbs)
    obtain ⟨whole, hwhole⟩ := ExactCellCount.fromBox_returns ((hdomain.card_le hd).trans_lt hlimbs)
    refine ⟨decide (total = whole), by simp [hdisjoint, exactCellCount, htotal, hwhole], ?_⟩
    have hcard : total.toNat = array.cells.card := by
      rw [ExactCellCount.sumBoxes_eq_ok.mp htotal, cells, Cover.card_union hpair, cellSets,
        List.map_map]
      rfl
    have hsub : array.cells ⊆ domain.cells := by
      intro i hi
      obtain ⟨b, hb, hib⟩ := mem_cells.mp hi
      exact ((disjointWithin_iff.mp hdisjoint).1 b hb).2 hib
    rw [ExactCellCount.fromBox_eq_ok] at hwhole
    rw [decide_eq_true_eq]
    constructor
    · intro h
      rw [← h, hcard] at hwhole
      exact ⟨hdisjoint, Finset.eq_of_subset_of_card_le hsub hwhole.ge⟩
    · intro h
      refine Limbs.Number.toNat_injective ?_
      rw [hcard, hwhole, h.2]
  · exact ⟨false, by simp [hdisjoint], by simp [hdisjoint]⟩

/-- Two unit boxes tile the cells `-1` and `0` of one axis. -/
theorem tilesExactly_two_boxes :
    ∃ answer, (⟨[⟨fun _ => -1, fun _ => -1⟩, ⟨fun _ => 0, fun _ => 0⟩], by decide⟩ :
        BoxArray 1).tilesExactly ⟨fun _ => -1, fun _ => 0⟩ ⟨2, 1⟩ = .ok answer ∧
      (answer = true ↔ if (⟨fun _ => -1, fun _ => 0⟩ : Box 1).Empty then
        [(⟨fun _ => -1, fun _ => -1⟩ : Box 1), ⟨fun _ => 0, fun _ => 0⟩] = [] else
        (⟨[⟨fun _ => -1, fun _ => -1⟩, ⟨fun _ => 0, fun _ => 0⟩], by decide⟩ :
          BoxArray 1).Partitions ⟨fun _ => -1, fun _ => 0⟩) :=
  tilesExactly_decides (by decide)
    ⟨[⟨fun _ => -1, fun _ => -1⟩, ⟨fun _ => 0, fun _ => 0⟩], by decide⟩ (by decide)
    (.inr (by decide))

/-! ## Tiling a domain -/

section FromDomain

variable {domain : Box d} {maxGridSize : Extent d}

/-- When `fromDomain` returns on a nonempty domain, all maximum lengths are positive and the
result lists the tiles of all digit vectors in ordinal order. -/
lemma fromDomain_eq_ok {array : BoxArray d} (hne : ¬ domain.Empty)
    (h : fromDomain domain maxGridSize = .ok array) :
    (∀ a, 0 < maxGridSize a) ∧
      array.boxes = (MixedRadix.digits (segmentCount domain maxGridSize)).map
        (tile domain (segmentCount domain maxGridSize)) := by
  simp only [fromDomain, bind_eq_ok, forEachAxis_eq_ok, throwIf_eq_ok, if_neg hne,
    pure_eq_ok] at h
  obtain ⟨_, hpos, count, hcount, _, _, rfl⟩ := h
  refine ⟨fun a => by have := hpos a; omega, ?_⟩
  have hprod := foldlM_invariant
    (P := fun done count => count = (done.map (segmentCount domain maxGridSize)).prod) hcount
    (by simp) (fun done a rest s s' _ hs hstep => by
      simp only [bind_eq_ok, throwIf_eq_ok, pure_eq_ok] at hstep
      obtain ⟨_, _, rfl⟩ := hstep
      simp [hs])
  rw [← List.ofFn_eq_map, List.prod_ofFn] at hprod
  simp only [ofTiles, MixedRadix.digits, List.map_map, hprod]
  rfl

/-- There is at least one segment on every axis. -/
lemma segmentCount_pos (domain : Box d) (maxGridSize : Extent d) (a : Fin d) :
    0 < segmentCount domain maxGridSize a :=
  Nat.add_pos_left Nat.one_pos _

/-- A nonempty axis has at most as many segments as cells. -/
lemma segmentCount_le (hne : ¬ domain.Empty) (a : Fin d) :
    segmentCount domain maxGridSize a ≤ (domain.length a).toNat := by
  have hlen := Box.length_pos hne a
  have hdiv := Nat.div_le_self ((domain.length a).toNat - 1) (maxGridSize a).toNat
  unfold segmentCount
  omega

/-- Segments of the maximum length reach the end of the axis. -/
lemma length_le_segmentCount_mul (hmax : ∀ a, 0 < maxGridSize a) (a : Fin d) :
    (domain.length a).toNat ≤ segmentCount domain maxGridSize a * (maxGridSize a).toNat := by
  have hm : 0 < (maxGridSize a).toNat := by
    have := hmax a
    omega
  have h1 := Nat.div_add_mod ((domain.length a).toNat - 1) (maxGridSize a).toNat
  have h2 := Nat.mod_lt ((domain.length a).toNat - 1) hm
  have h3 : segmentCount domain maxGridSize a * (maxGridSize a).toNat = (maxGridSize a).toNat +
      (maxGridSize a).toNat * (((domain.length a).toNat - 1) / (maxGridSize a).toNat) := by
    unfold segmentCount
    ring
  omega

/-- A segment is nonempty, ends inside the axis and respects the maximum length. -/
lemma tileWidth_spec (hne : ¬ domain.Empty) (hmax : ∀ a, 0 < maxGridSize a) {x : Fin d → ℕ}
    {a : Fin d} (hx : x a < segmentCount domain maxGridSize a) :
    0 < tileWidth domain (segmentCount domain maxGridSize) x a ∧
      (tileOffset domain (segmentCount domain maxGridSize) x a +
        tileWidth domain (segmentCount domain maxGridSize) x a : ℤ) ≤ domain.length a ∧
      (tileWidth domain (segmentCount domain maxGridSize) x a : ℤ) ≤ maxGridSize a := by
  have hk := segmentCount_pos domain maxGridSize a
  have hlen := Box.length_pos hne a
  have hpos := BalancedSplit.width_pos hk (segmentCount_le hne a) (x a)
  have hend := BalancedSplit.offset_add_width_le (n := (domain.length a).toNat) hk hx
  have hcover : (domain.length a).toNat ≤
      segmentCount domain maxGridSize a * (maxGridSize a).toNat := length_le_segmentCount_mul hmax a
  have hle := BalancedSplit.width_le hcover (x a)
  have := hmax a
  unfold tileOffset tileWidth
  refine ⟨hpos, by omega, by omega⟩

/-- The tile lies inside the domain, so no narrowing cast changes one of its bounds. -/
lemma tile_bounds (hne : ¬ domain.Empty) (hint : domain.IsInt) (hmax : ∀ a, 0 < maxGridSize a)
    {x : Fin d → ℕ} {a : Fin d} (hx : x a < segmentCount domain maxGridSize a) :
    (tile domain (segmentCount domain maxGridSize) x).lo a =
        domain.lo a + tileOffset domain (segmentCount domain maxGridSize) x a ∧
      (tile domain (segmentCount domain maxGridSize) x).hi a =
        domain.lo a + tileOffset domain (segmentCount domain maxGridSize) x a +
          tileWidth domain (segmentCount domain maxGridSize) x a - 1 := by
  obtain ⟨hpos, hend, _⟩ := tileWidth_spec hne hmax hx
  have hi := hint a
  rw [Box.length_of_nonempty hne] at hend
  exact ⟨castInt_of_isInt (hi.1.between hi.2 (by omega) (by omega)),
    castInt_of_isInt (hi.1.between hi.2 (by omega) (by omega))⟩

/-- The cells of a tile, axis by axis. -/
lemma mem_tile (hne : ¬ domain.Empty) (hint : domain.IsInt) (hmax : ∀ a, 0 < maxGridSize a)
    {x : Fin d → ℕ} (hx : ∀ a, x a < segmentCount domain maxGridSize a) {i : Index d} :
    i ∈ (tile domain (segmentCount domain maxGridSize) x).cells ↔ ∀ a,
      domain.lo a + tileOffset domain (segmentCount domain maxGridSize) x a ≤ i a ∧
      i a < domain.lo a + tileOffset domain (segmentCount domain maxGridSize) x a +
        tileWidth domain (segmentCount domain maxGridSize) x a := by
  rw [Box.mem_cells]
  refine forall_congr' fun a => ?_
  obtain ⟨hlo, hhi⟩ := tile_bounds hne hint hmax (hx a)
  rw [hlo, hhi]
  omega

/-- A tile is a nonempty part of the domain that respects the maximum lengths. -/
lemma tile_subset (hne : ¬ domain.Empty) (hint : domain.IsInt) (hmax : ∀ a, 0 < maxGridSize a)
    {x : Fin d → ℕ} (hx : ∀ a, x a < segmentCount domain maxGridSize a) :
    ¬ (tile domain (segmentCount domain maxGridSize) x).Empty ∧
      (tile domain (segmentCount domain maxGridSize) x).cells ⊆ domain.cells ∧
      ∀ a, (tile domain (segmentCount domain maxGridSize) x).length a ≤ maxGridSize a := by
  have hnonempty : ¬ (tile domain (segmentCount domain maxGridSize) x).Empty := by
    intro hempty
    obtain ⟨a, ha⟩ := hempty
    obtain ⟨hlo, hhi⟩ := tile_bounds hne hint hmax (hx a)
    obtain ⟨hpos, _, _⟩ := tileWidth_spec hne hmax (hx a)
    rw [hlo, hhi] at ha
    omega
  refine ⟨hnonempty, fun i hi => Box.mem_cells.mpr fun a => ?_, fun a => ?_⟩
  · have hia := (mem_tile hne hint hmax hx).mp hi a
    obtain ⟨_, hend, _⟩ := tileWidth_spec hne hmax (hx a)
    rw [Box.length_of_nonempty hne] at hend
    omega
  · obtain ⟨hlo, hhi⟩ := tile_bounds hne hint hmax (hx a)
    obtain ⟨_, _, hle⟩ := tileWidth_spec hne hmax (hx a)
    rw [Box.length_of_nonempty hnonempty, hlo, hhi]
    omega

/-- Every cell of the domain lies in the tile of some digit vector. -/
lemma exists_tile (hne : ¬ domain.Empty) (hint : domain.IsInt) (hmax : ∀ a, 0 < maxGridSize a)
    {i : Index d} (hi : i ∈ domain.cells) :
    ∃ x : Fin d → ℕ, (∀ a, x a < segmentCount domain maxGridSize a) ∧
      i ∈ (tile domain (segmentCount domain maxGridSize) x).cells := by
  have hseg : ∀ a, ∃ s < segmentCount domain maxGridSize a,
      BalancedSplit.offset (domain.length a).toNat (segmentCount domain maxGridSize a) s ≤
        (i a - domain.lo a).toNat ∧ (i a - domain.lo a).toNat <
        BalancedSplit.offset (domain.length a).toNat (segmentCount domain maxGridSize a) s +
          BalancedSplit.width (domain.length a).toNat (segmentCount domain maxGridSize a) s := by
    intro a
    have hia := Box.mem_cells.mp hi a
    have hlen := Box.length_of_nonempty hne a
    exact BalancedSplit.exists_segment (segmentCount_pos domain maxGridSize a) (by omega)
  choose x hx using hseg
  have hxs : ∀ a, x a < segmentCount domain maxGridSize a := fun a => (hx a).1
  refine ⟨x, hxs, (mem_tile hne hint hmax hxs).mpr fun a => ?_⟩
  have h1 := hx a
  have h2 := Box.mem_cells.mp hi a
  unfold tileOffset tileWidth
  omega

/-- On every axis a cell determines its segment, so different tiles are disjoint. -/
lemma tile_disjoint (hne : ¬ domain.Empty) (hint : domain.IsInt)
    (hmax : ∀ a, 0 < maxGridSize a) {x y : Fin d → ℕ}
    (hx : ∀ a, x a < segmentCount domain maxGridSize a)
    (hy : ∀ a, y a < segmentCount domain maxGridSize a) (hxy : x ≠ y) :
    Disjoint (tile domain (segmentCount domain maxGridSize) x).cells
      (tile domain (segmentCount domain maxGridSize) y).cells := by
  rw [Finset.disjoint_left]
  intro i hix hiy
  apply hxy
  funext a
  have h1 := (mem_tile hne hint hmax hx).mp hix a
  have h2 := (mem_tile hne hint hmax hy).mp hiy a
  unfold tileOffset tileWidth at h1 h2
  exact BalancedSplit.segment_unique (n := (domain.length a).toNat)
    (k := segmentCount domain maxGridSize a) (x := (i a - domain.lo a).toNat)
    (by omega) (by omega) (by omega) (by omega)

/-- **The tiles of a domain partition it**: when `fromDomain` returns on a nonempty domain with
`int` bounds, the boxes are nonempty, pairwise disjoint, cover exactly the domain and are at
most `maxGridSize` long on every axis.

**Proof sketch.** Axis by axis a tile is one segment of the balanced split of the domain's
length.  A cell of the domain picks its segment on every axis (`exists_tile`), and that digit
vector is enumerated once (`MixedRadix.mem_digits`, `MixedRadix.nodup_digits`). -/
theorem fromDomain_partition {array : BoxArray d} (hne : ¬ domain.Empty) (hint : domain.IsInt)
    (h : fromDomain domain maxGridSize = .ok array) :
    (∀ b ∈ array.boxes, ¬ b.Empty ∧ b.cells ⊆ domain.cells ∧ ∀ a, b.length a ≤ maxGridSize a) ∧
      array.cellSets.Pairwise Disjoint ∧ array.cells = domain.cells := by
  obtain ⟨hmax, hboxes⟩ := fromDomain_eq_ok hne h
  have hall : ∀ b ∈ array.boxes,
      ¬ b.Empty ∧ b.cells ⊆ domain.cells ∧ ∀ a, b.length a ≤ maxGridSize a := by
    intro b hb
    rw [hboxes] at hb
    obtain ⟨x, hx, rfl⟩ := List.mem_map.mp hb
    exact tile_subset hne hint hmax (MixedRadix.mem_digits.mp hx)
  refine ⟨hall, ?_, Finset.Subset.antisymm (fun i hi => ?_) (fun i hi => ?_)⟩
  · rw [cellSets, hboxes, List.map_map, List.pairwise_map]
    exact (MixedRadix.nodup_digits _).imp_of_mem fun hx hy hxy =>
      tile_disjoint hne hint hmax (MixedRadix.mem_digits.mp hx) (MixedRadix.mem_digits.mp hy) hxy
  · obtain ⟨b, hb, hib⟩ := mem_cells.mp hi
    exact (hall b hb).2.1 hib
  · obtain ⟨x, hx, hix⟩ := exists_tile hne hint hmax hi
    refine mem_cells.mpr ⟨_, ?_, hix⟩
    rw [hboxes]
    exact List.mem_map_of_mem (MixedRadix.mem_digits.mpr hx)

end FromDomain

end BoxArray

end Pops
