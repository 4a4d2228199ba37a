import Pops.Amr.Hierarchy.LevelLayout

/-!
# Patch-tiled refinement tags

`pops::amr::tagging::TagMask`: one byte per cell for the patches of a level that are visible to a
rank.  The constructor checks its budgets and starts with no tag; `set` writes one cell.  A mask
keeps as fields what its constructor established: it holds exactly the patches that the level stores
on its rank, and every patch has one byte per cell.

A mask stands for the finite set `TagMask.taggedCells` of its tagged cells.

## Main definitions

* `Pops.PatchTags`, `TagMask` — the tags of a patch and of a rank.
* `Pops.TagMask.ofLevel`, `set`, `setPatch` — constructor and writes.
* `Pops.visitCells` — the cells of a region that the patches of a list hold, with their tags.

## Main results

* `Pops.visitCells_spec` — a visit sees every cell of the region in the patches once, with its tag.
* `Pops.TagMask.visits_after_writes` — after a run of writes a visit sees every cell of the patches
  of the rank once, tagged as its last write says.
-/

namespace Pops

/-- Explicit storage budgets of a mask. -/
structure TagMaskBudget where
  globalPatches : ℕ
  ownedPatches : ℕ
  cellsPerPatch : ℕ
  ownedCells : ℕ
  bytes : ℕ
  identityBytes : ℕ
  deriving DecidableEq

/-- The tags of one patch, one byte per cell with axis 0 fastest. -/
structure PatchTags (d : ℕ) where
  globalPatch : ℕ
  box : Box d
  tags : List UInt8
  deriving DecidableEq

/-- The tags of a patch as the identity of a result stores them. -/
structure PatchTagIdentity (d : ℕ) where
  globalPatch : ℕ
  box : Box d
  tags : List UInt8
  deriving DecidableEq

/-- The tags of a rank as the identity of a result stores them. -/
structure TagShardIdentity (d : ℕ) where
  localRank : Index d
  patches : List (PatchTagIdentity d)
  replicatedAlias : Bool
  deriving DecidableEq

/-- `sizeof(Box<d>)`. -/
def sizeofBox (d : ℕ) : ℕ := 8 * d

/-- `sizeof(Index<d>)`. -/
def sizeofIndex (d : ℕ) : ℕ := 4 * d

/-- `sizeof(PatchTagIdentity<d>)`: a number, a box and a vector. -/
def sizeofPatchTagIdentity (d : ℕ) : ℕ := 8 + sizeofBox d + 24

/-- `sizeof(TagShardIdentity<d>)`: an index, a vector and a flag, each padded to eight bytes. -/
def sizeofTagShardIdentity (d : ℕ) : ℕ := (sizeofIndex d + 7) / 8 * 8 + 24 + 8

variable {d : ℕ}

/-- A computation whose outcome is a value returned it. -/
lemma returns_of_isOk {α : Type} {x : Throws α} (h : x.isOk = true) : Returns x := by
  cases x with
  | error e => cases h
  | ok a => exact ⟨a, rfl⟩

/-! ## Cells of a patch -/

/-- The place of a cell of a box in the storage of the box. -/
def cellOrdinal (box : Box d) (index : Index d) : ℕ :=
  MixedRadix.rankLoop (fun a => (box.length a).toNat) (fun a => (index a - box.lo a).toNat) 0 1

/-- `linear_index_`: the position of a cell in the row-major storage of its patch. -/
def linearIndex (box : Box d) (index : Index d) : Throws ℕ := do
  throwIf (¬ box.Contains index) (outOfRange "TagMask cell is outside the selected patch")
  pure (cellOrdinal box index)

/-- `for_each_index_`: the cells of a box in the order of the loop. -/
def forEachIndex (box : Box d) : Throws (List (Index d)) := do
  let count ← box.numPts
  pure ((List.range count.toNat).map fun ordinal axis =>
    castInt (box.lo axis + MixedRadix.unrank (fun a => (box.length a).toNat) ordinal axis))

namespace PatchTags

/-- The cell carries a tag. -/
def Tagged (patch : PatchTags d) (index : Index d) : Prop :=
  patch.tags.getD (cellOrdinal patch.box index) 0 ≠ 0

instance (patch : PatchTags d) : DecidablePred patch.Tagged :=
  fun _ => inferInstanceAs (Decidable (_ ≠ _))

/-- The tagged cells of the patch. -/
def taggedCells (patch : PatchTags d) : Finset (Index d) := patch.box.cells.filter patch.Tagged

/-- The patch is a nonempty box of `int` indices with one byte for every cell. -/
structure Sized (patch : PatchTags d) : Prop where
  nonempty : ¬ patch.box.Empty
  isInt : patch.box.IsInt
  numPts : patch.box.numPts = .ok (patch.tags.length : ℤ)

/-- The patch with the tag of one cell written. -/
def write (patch : PatchTags d) (index : Index d) (tagged : Bool) : Throws (PatchTags d) := do
  let linear ← linearIndex patch.box index
  -- `std::vector::at`
  throwIf (linear ≥ patch.tags.length) (outOfRange "vector::_M_range_check")
  pure { patch with tags := patch.tags.set linear (if tagged then 1 else 0) }

end PatchTags

/-- The cells of a region that a patch holds with their tags: the calls that `for_each_cell_in`
makes for the patch. -/
def PatchTags.visit (patch : PatchTags d) (region : Box d) : Throws (List (Index d × Bool)) := do
  let overlap := patch.box.intersect region
  if overlap.Empty then pure []
  else do
    let indices ← forEachIndex overlap
    indices.mapM fun index => do
      let linear ← linearIndex patch.box index
      pure (index, decide (patch.tags.getD linear 0 ≠ 0))

/-- The cells of a region that the patches hold, patch by patch. -/
def visitCells (patches : List (PatchTags d)) (region : Box d) :
    Throws (List (Index d × Bool)) := do
  let visits ← patches.mapM fun patch => patch.visit region
  pure visits.flatten

/-- The loop `for (patch : patches) if (c(patch)) { f(patch); return; } throw e;`. -/
def updateFirst (c : PatchTags d → Bool) (f : PatchTags d → Throws (PatchTags d)) (e : Exception) :
    List (PatchTags d) → Throws (List (PatchTags d))
  | [] => throw e
  | patch :: rest =>
    if c patch then do
      let written ← f patch
      pure (written :: rest)
    else do
      let others ← updateFirst c f e rest
      pure (patch :: others)

/-! ## Masks -/

namespace TagMask

/-- `checked_product_`: the product, refused if it leaves `size_t`. -/
def checkedProduct (left right : ℕ) : Throws ℕ := do
  throwIf (right ≠ 0 ∧ left > sizeMax / right)
    (lengthError "TagMask identity byte count exceeds size_t")
  pure (left * right)

/-- `checked_sum_`: the sum, refused if it leaves `size_t`. -/
def checkedSum (left right : ℕ) : Throws ℕ := do
  throwIf (right > sizeMax - left) (lengthError "TagMask identity byte count exceeds size_t")
  pure (left + right)

/-- The patch of a level with a global number. -/
def patchAt (level : LevelLayout d) (globalPatch : ℕ) : Box d :=
  level.patches.boxes.getD globalPatch ⟨0, 0⟩

/-- The constructor: the checks of the budgets and the untagged patches of the rank. -/
def initialPatches (level : LevelLayout d) (localRank : Index d) (budget : TagMaskBudget) :
    Throws (List (PatchTags d)) := do
  let distribution := level.distribution
  throwIf (¬ distribution.rankSpace.Contains localRank)
    (outOfRange "TagMask rank coordinate is outside the level process space")
  throwIf (level.patches.boxes.length > budget.globalPatches)
    (lengthError "TagMask exceeds its explicit global-patch metadata budget")
  let boxBytes ← checkedProduct level.patches.boxes.length (sizeofBox d)
  let ownerBytes ← checkedProduct distribution.owners.length (sizeofIndex d)
  let identityBytes ← checkedSum boxBytes ownerBytes
  throwIf (identityBytes > budget.identityBytes)
    (lengthError "TagMask exceeds its explicit identity-copy byte budget")
  let expectedLocal := if distribution.Replicated then level.patches.boxes.length
    else distribution.owners.count localRank
  throwIf (expectedLocal > budget.ownedPatches)
    (lengthError "TagMask exceeds its explicit owned-patch budget")
  let owned ← distribution.localBoxIndices localRank
  let cells ← owned.foldlM (fun cells globalPatch => do
    let exactCells ← (patchAt level globalPatch).numPts
    throwIf (exactCells < 0 ∨ exactCells > sizeMax)
      (lengthError "TagMask patch cell count exceeds size_t")
    let patchCells := exactCells.toNat
    throwIf (patchCells > budget.cellsPerPatch)
      (lengthError "TagMask exceeds its explicit per-patch cell budget")
    throwIf (cells > budget.ownedCells ∨ patchCells > budget.ownedCells - cells)
      (lengthError "TagMask exceeds its explicit owned-cell budget")
    pure (cells + patchCells)) 0
  throwIf (cells > budget.bytes) (lengthError "TagMask exceeds its explicit byte budget")
  let patchBytes ← checkedProduct owned.length (sizeofPatchTagIdentity d)
  let identityBytes ← checkedSum identityBytes patchBytes
  let identityBytes ← checkedSum identityBytes cells
  throwIf (identityBytes > budget.identityBytes)
    (lengthError "TagMask exceeds its explicit identity-copy byte budget")
  owned.mapM fun globalPatch => do
    let points ← (patchAt level globalPatch).numPts
    pure ⟨globalPatch, patchAt level globalPatch, List.replicate points.toNat 0⟩

end TagMask

/-- The tags of the patches of a level that are visible to a rank. -/
structure TagMask (d : ℕ) where
  levelIdentity : LevelLayoutIdentity d
  localRank : Index d
  patches : List (PatchTags d)
  built : ∃ level : LevelLayout d, level.exactIdentity = levelIdentity ∧
    level.distribution.localBoxIndices localRank = .ok (patches.map PatchTags.globalPatch)
  boxes : ∀ patch ∈ patches, levelIdentity.patches[patch.globalPatch]? = some patch.box
  numPts : ∀ patch ∈ patches, patch.box.numPts = .ok (patch.tags.length : ℤ)

/-! ### Cells and ordinals -/

/-- The offset of a contained cell along an axis is below the length. -/
lemma offset_lt_length {box : Box d} {i : Index d} (hi : i ∈ box.cells) (a : Fin d) :
    (i a - box.lo a).toNat < (box.length a).toNat := by
  have hlength := Box.length_of_nonempty (Box.not_empty_of_mem hi) a
  have hmem := Box.mem_cells.mp hi a
  omega

/-- The ordinal of a cell in mixed radix. -/
lemma cellOrdinal_eq (box : Box d) (i : Index d) : cellOrdinal box i =
    MixedRadix.rank (fun a => (box.length a).toNat) fun a => (i a - box.lo a).toNat := by
  rw [cellOrdinal, MixedRadix.rankLoop_eq, Nat.zero_add, Nat.one_mul]

/-- Contained cells with the same ordinal are equal. -/
lemma cellOrdinal_inj {box : Box d} {i j : Index d} (hi : i ∈ box.cells) (hj : j ∈ box.cells)
    (h : cellOrdinal box i = cellOrdinal box j) : i = j := by
  rw [cellOrdinal_eq, cellOrdinal_eq] at h
  have hdigits := congrArg (MixedRadix.unrank fun a => (box.length a).toNat) h
  rw [MixedRadix.unrank_rank (offset_lt_length hi), MixedRadix.unrank_rank (offset_lt_length hj)]
    at hdigits
  funext a
  have hia := Box.mem_cells.mp hi a
  have hja := Box.mem_cells.mp hj a
  have hdigit := congrFun hdigits a
  omega

/-- The linear index of a contained cell. -/
@[simp] lemma linearIndex_eq_ok {box : Box d} {i : Index d} {n : ℕ} :
    linearIndex box i = .ok n ↔ i ∈ box.cells ∧ cellOrdinal box i = n := by
  simp [linearIndex, Box.contains_iff]

/-- The cells of a nonempty box with `int` bounds, each listed once. -/
lemma forEachIndex_spec {box : Box d} (hne : ¬ box.Empty) (hint : box.IsInt)
    (hcard : (box.cells.card : ℤ) ≤ int64Max) :
    ∃ indices, forEachIndex box = .ok indices ∧ indices.Nodup ∧
      ∀ i, i ∈ indices ↔ i ∈ box.cells := by
  obtain ⟨count, hcount⟩ := Box.numPts_returns_iff.mpr hcard
  have hpos : ∀ a, 0 < (box.length a).toNat := fun a => by
    have := Box.length_pos hne a
    omega
  -- the loop reaches only cells of the box, so its casts change nothing
  have hindex : ∀ ordinal, (fun axis => castInt (box.lo axis +
      MixedRadix.unrank (fun a => (box.length a).toNat) ordinal axis)) = fun axis =>
      box.lo axis + (MixedRadix.unrank (fun a => (box.length a).toNat) ordinal axis : ℤ) := by
    intro ordinal
    funext a
    have hlt := MixedRadix.unrank_lt hpos ordinal a
    have hlength := Box.length_of_nonempty hne a
    have hbounds := hint a
    refine castInt_of_isInt ?_
    unfold IsInt at *
    omega
  have hdigits : ((List.range count.toNat).map fun ordinal axis => castInt (box.lo axis +
      MixedRadix.unrank (fun a => (box.length a).toNat) ordinal axis)) =
      (MixedRadix.digits fun a => (box.length a).toNat).map fun x axis =>
        box.lo axis + (x axis : ℤ) := by
    rw [Box.numPts_eq_ok hcount, Int.toNat_natCast, Box.card_cells_toNat hne, MixedRadix.digits,
      List.map_map]
    exact List.map_congr_left fun ordinal _ => hindex ordinal
  refine ⟨(MixedRadix.digits fun a => (box.length a).toNat).map fun x axis =>
    box.lo axis + (x axis : ℤ), ?_, ?_, fun i => ?_⟩
  · simp only [forEachIndex, hcount, bind_eq_ok, Except.ok.injEq, exists_eq_left', pure_eq_ok]
    exact hdigits
  · refine List.Nodup.map ?_ (MixedRadix.nodup_digits _)
    intro x y hxy
    funext a
    have := congrFun hxy a
    simp only at this
    omega
  · rw [List.mem_map]
    constructor
    · rintro ⟨x, hx, rfl⟩
      refine Box.mem_cells.mpr fun a => ?_
      have hlt := MixedRadix.mem_digits.mp hx a
      have hlength := Box.length_of_nonempty hne a
      omega
    · intro hi
      refine ⟨fun a => (i a - box.lo a).toNat, MixedRadix.mem_digits.mpr (offset_lt_length hi),
        funext fun a => ?_⟩
      have := Box.mem_cells.mp hi a
      simp only
      omega

/-! ### Visits -/

/-- The cells of a patch inside a region are visited once each, with their tags. -/
theorem PatchTags.visit_spec {patch : PatchTags d} (hpatch : patch.Sized) {region : Box d}
    (hregion : region.IsInt) :
    ∃ visits, patch.visit region = .ok visits ∧ (visits.map Prod.fst).Nodup ∧
      ∀ v, v ∈ visits ↔ v.1 ∈ patch.box.cells ∧ v.1 ∈ region.cells ∧
        v.2 = decide (patch.Tagged v.1) := by
  by_cases hempty : (patch.box.intersect region).Empty
  · have hcells := Box.empty_iff_cells.mp hempty
    rw [Box.cells_intersect] at hcells
    refine ⟨[], by simp [PatchTags.visit, hempty], by simp, fun v => ?_⟩
    simp only [List.not_mem_nil, false_iff, not_and]
    intro hbox hv
    exact absurd (hcells ▸ Finset.mem_inter.mpr ⟨hbox, hv⟩) (Finset.notMem_empty _)
  · have hcard : ((patch.box.intersect region).cells.card : ℤ) ≤ int64Max := by
      have hle := Finset.card_le_card (Box.cells_intersect patch.box region ▸
        Finset.inter_subset_left : (patch.box.intersect region).cells ⊆ patch.box.cells)
      have hpatchCard := Box.numPts_returns_iff.mp ⟨_, hpatch.numPts⟩
      omega
    obtain ⟨indices, hindices, hnodup, hmem⟩ :=
      forEachIndex_spec hempty (hpatch.isInt.intersect hregion) hcard
    refine ⟨indices.map fun i => (i, decide (patch.Tagged i)), ?_, ?_, fun v => ?_⟩
    · simp only [PatchTags.visit, if_neg hempty, hindices, ok_bind]
      refine (mapM_eq_ok_iff (C := fun i => i ∈ patch.box.cells)
        (g := fun i => (i, decide (patch.Tagged i))) fun i _ v => ?_).mpr ⟨fun i hi => ?_, rfl⟩
      · simp only [bind_eq_ok, linearIndex_eq_ok, pure_eq_ok]
        constructor
        · rintro ⟨_, ⟨hi, rfl⟩, rfl⟩
          exact ⟨hi, rfl⟩
        · rintro ⟨hi, rfl⟩
          exact ⟨_, ⟨hi, rfl⟩, rfl⟩
      · exact (Finset.mem_inter.mp (Box.cells_intersect patch.box region ▸ (hmem i).mp hi)).1
    · rw [List.map_map]
      simpa [Function.comp_def] using hnodup
    · rw [List.mem_map, ← and_assoc, ← Finset.mem_inter, ← Box.cells_intersect]
      constructor
      · rintro ⟨i, hi, rfl⟩
        exact ⟨(hmem i).mp hi, rfl⟩
      · rintro ⟨hi, htag⟩
        exact ⟨v.1, (hmem _).mpr hi, Prod.ext rfl htag.symm⟩

/-- Visits of parts that hold different cells, put together. -/
lemma flatten_visits {σ : Type} {visit : σ → Throws (List (Index d × Bool))}
    {Q : σ → Index d × Bool → Prop} {parts : List σ}
    (hvisit : ∀ s ∈ parts, ∃ visits, visit s = .ok visits ∧ (visits.map Prod.fst).Nodup ∧
      ∀ v, v ∈ visits ↔ Q s v)
    (hdisjoint : parts.Pairwise fun s t => ∀ v w, Q s v → Q t w → v.1 ≠ w.1) :
    ∃ visits, (parts.mapM visit >>= fun visits => pure visits.flatten) = .ok visits ∧
      (visits.map Prod.fst).Nodup ∧ ∀ v, v ∈ visits ↔ ∃ s ∈ parts, Q s v := by
  induction parts with
  | nil => exact ⟨[], rfl, List.nodup_nil, by simp⟩
  | cons part rest ih =>
    rw [List.pairwise_cons] at hdisjoint
    obtain ⟨others, hothers, hnodup, hmem⟩ := ih (fun s hs => hvisit s (by simp [hs])) hdisjoint.2
    obtain ⟨own, hown, hownNodup, hownMem⟩ := hvisit part (by simp)
    simp only [bind_eq_ok, pure_eq_ok] at hothers
    obtain ⟨lists, hlists, rfl⟩ := hothers
    refine ⟨own ++ lists.flatten, ?_, ?_, fun v => ?_⟩
    · simp only [List.mapM_cons, bind_eq_ok, pure_eq_ok]
      exact ⟨_, ⟨own, hown, lists, hlists, rfl⟩, by rw [List.flatten_cons]⟩
    · rw [List.map_append]
      refine List.Nodup.append hownNodup hnodup fun i hi hi' => ?_
      obtain ⟨v, hv, rfl⟩ := List.mem_map.mp hi
      obtain ⟨w, hw, hwv⟩ := List.mem_map.mp hi'
      obtain ⟨t, ht, hwt⟩ := (hmem w).mp hw
      exact hdisjoint.1 t ht v w ((hownMem v).mp hv) hwt hwv.symm
    · rw [List.mem_append, hownMem, hmem]
      simp only [List.mem_cons, exists_eq_or_imp]

/-- **A visit sees every cell of the region that the patches hold exactly once, with its tag.** -/
theorem visitCells_spec {patches : List (PatchTags d)} (hpatches : ∀ p ∈ patches, p.Sized)
    (hdisjoint : patches.Pairwise fun p q => Disjoint p.box.cells q.box.cells) {region : Box d}
    (hregion : region.IsInt) :
    ∃ visits, visitCells patches region = .ok visits ∧ (visits.map Prod.fst).Nodup ∧
      ∀ v, v ∈ visits ↔ ∃ p ∈ patches, v.1 ∈ p.box.cells ∧ v.1 ∈ region.cells ∧
        v.2 = decide (p.Tagged v.1) := by
  refine flatten_visits (fun p hp => PatchTags.visit_spec (hpatches p hp) hregion)
    (hdisjoint.imp fun h v w hv hw heq => ?_)
  exact Finset.disjoint_left.mp h hv.1 (heq ▸ hw.1)

/-! ## Masks in use -/

/-- What a write of tags leaves as it is. -/
def PatchTags.shape (patch : PatchTags d) : ℕ × Box d × ℕ :=
  (patch.globalPatch, patch.box, patch.tags.length)

/-- A written patch keeps its number, its box and its number of bytes. -/
lemma PatchTags.shape_write {patch other : PatchTags d} {i : Index d} {tagged : Bool}
    (h : patch.write i tagged = .ok other) : other.shape = patch.shape := by
  simp only [PatchTags.write, bind_eq_ok, throwIf_eq_ok, exists_const, pure_eq_ok] at h
  obtain ⟨_, _, _, rfl⟩ := h
  simp [shape]

/-- A written patch carries the written tag in the written cell and the old tags elsewhere. -/
lemma PatchTags.write_spec {patch written : PatchTags d} {i : Index d} {tagged : Bool}
    (h : patch.write i tagged = .ok written) : i ∈ patch.box.cells ∧
      ∀ j ∈ patch.box.cells,
        (written.Tagged j ↔ if j = i then tagged = true else patch.Tagged j) := by
  simp only [write, bind_eq_ok, throwIf_eq_ok, exists_const, pure_eq_ok, linearIndex_eq_ok] at h
  obtain ⟨_, ⟨hi, rfl⟩, hlt, rfl⟩ := h
  refine ⟨hi, fun j hj => ?_⟩
  unfold Tagged
  simp only [List.getD_eq_getElem?_getD]
  by_cases hji : j = i
  · subst hji
    rw [List.getElem?_set_self (by omega), if_pos rfl]
    cases tagged <;> simp
  · have hne : cellOrdinal patch.box i ≠ cellOrdinal patch.box j := fun heq =>
      hji (cellOrdinal_inj hj hi heq.symm)
    rw [List.getElem?_set_ne hne, if_neg hji]

/-- The patches before and after a loop that writes the first matching patch. -/
lemma updateFirst_spec {c : PatchTags d → Bool} {f : PatchTags d → Throws (PatchTags d)}
    {e : Exception} {patches others : List (PatchTags d)}
    (h : updateFirst c f e patches = .ok others) :
    ∃ front patch written back, patches = front ++ patch :: back ∧
      others = front ++ written :: back ∧ (∀ p ∈ front, c p = false) ∧ c patch = true ∧
      f patch = .ok written := by
  induction patches generalizing others with
  | nil => simp [updateFirst] at h
  | cons patch rest ih =>
    unfold updateFirst at h
    by_cases hc : c patch = true
    · simp only [hc, if_true, bind_eq_ok, pure_eq_ok] at h
      obtain ⟨written, hwritten, rfl⟩ := h
      exact ⟨[], patch, written, rest, rfl, rfl, by simp, hc, hwritten⟩
    · rw [if_neg hc] at h
      simp only [bind_eq_ok, pure_eq_ok] at h
      obtain ⟨tail, htail, rfl⟩ := h
      obtain ⟨front, target, written, back, rfl, rfl, hfront, htarget, hwritten⟩ := ih htail
      refine ⟨patch :: front, target, written, back, rfl, rfl, ?_, htarget, hwritten⟩
      simpa [hc] using hfront

/-- Patches of a level with different numbers are disjoint. -/
lemma LevelLayout.disjoint_of_ne (level : LevelLayout d) {n m : ℕ} {b c : Box d}
    (hb : level.patches.boxes[n]? = some b) (hc : level.patches.boxes[m]? = some c) (h : n ≠ m) :
    Disjoint b.cells c.cells := by
  have hpairs := List.pairwise_iff_getElem.mp level.pairwise_disjoint
  obtain ⟨hn, rfl⟩ := List.getElem?_eq_some_iff.mp hb
  obtain ⟨hm, rfl⟩ := List.getElem?_eq_some_iff.mp hc
  have hlength : level.patches.cellSets.length = level.patches.boxes.length := List.length_map _
  rcases lt_or_gt_of_ne h with hlt | hlt
  · simpa [BoxArray.cellSets] using hpairs n m (by omega) (by omega) hlt
  · simpa [BoxArray.cellSets] using (hpairs m n (by omega) (by omega) hlt).symm

namespace TagMask

/-- The cells of the patches that the mask holds. -/
def cells (mask : TagMask d) : Finset (Index d) :=
  Cover.union (mask.patches.map fun patch => patch.box.cells)

/-- The tagged cells of the mask. -/
def taggedCells (mask : TagMask d) : Finset (Index d) :=
  Cover.union (mask.patches.map PatchTags.taggedCells)

/-- The cells of a mask are those of its patches. -/
@[simp] lemma mem_cells {mask : TagMask d} {i : Index d} :
    i ∈ mask.cells ↔ ∃ p ∈ mask.patches, i ∈ p.box.cells := by
  simp [cells]

/-- The tagged cells of a mask are those of its patches. -/
@[simp] lemma mem_taggedCells {mask : TagMask d} {i : Index d} :
    i ∈ mask.taggedCells ↔ ∃ p ∈ mask.patches, i ∈ p.box.cells ∧ p.Tagged i := by
  simp [taggedCells, PatchTags.taggedCells]

/-- The patches of a mask are patches of its level, with one byte for every cell. -/
lemma sized (mask : TagMask d) : ∀ p ∈ mask.patches, p.Sized := by
  intro p hp
  obtain ⟨level, hlevel, -⟩ := mask.built
  have hbox := mask.boxes p hp
  rw [← hlevel] at hbox
  have hmem : p.box ∈ level.patches.boxes := List.mem_of_getElem? hbox
  exact ⟨(level.patch_spec hmem).1, level.patches.isInt _ hmem, mask.numPts p hp⟩

/-- The patches of a mask have different numbers. -/
lemma nodup_globalPatch (mask : TagMask d) :
    (mask.patches.map PatchTags.globalPatch).Nodup := by
  obtain ⟨level, -, howned⟩ := mask.built
  simp only [Distribution.localBoxIndices, bind_eq_ok, throwIf_eq_ok, exists_const, pure_eq_ok]
    at howned
  rw [← howned.2]
  exact List.nodup_range.filter _

/-- The patches of a mask are pairwise disjoint. -/
lemma pairwise_disjoint (mask : TagMask d) :
    mask.patches.Pairwise fun p q => Disjoint p.box.cells q.box.cells := by
  obtain ⟨level, hlevel, -⟩ := mask.built
  have hnodup := List.pairwise_map.mp mask.nodup_globalPatch
  refine hnodup.imp_of_mem fun hp hq hne => ?_
  have hpBox := mask.boxes _ hp
  have hqBox := mask.boxes _ hq
  rw [← hlevel] at hpBox hqBox
  exact level.disjoint_of_ne hpBox hqBox hne

/-- A cell lies in at most one patch of a mask. -/
lemma patch_unique {mask : TagMask d} {p q : PatchTags d} (hp : p ∈ mask.patches)
    (hq : q ∈ mask.patches) {i : Index d} (hip : i ∈ p.box.cells) (hiq : i ∈ q.box.cells) :
    p = q := by
  by_contra hne
  have hsymm : Std.Symm fun p q : PatchTags d => Disjoint p.box.cells q.box.cells :=
    ⟨fun _ _ h => h.symm⟩
  exact Finset.disjoint_left.mp (mask.pairwise_disjoint.forall hp hq hne) hip hiq

/-- The mask with other patches of the same shape. -/
def withPatches (mask : TagMask d) (patches : List (PatchTags d))
    (h : patches.map PatchTags.shape = mask.patches.map PatchTags.shape) : TagMask d where
  levelIdentity := mask.levelIdentity
  localRank := mask.localRank
  patches := patches
  built := by
    have hmap := congrArg (List.map Prod.fst) h
    simp only [List.map_map, Function.comp_def, PatchTags.shape] at hmap
    rw [show patches.map PatchTags.globalPatch = _ from hmap]
    exact mask.built
  boxes := fun q hq => by
    obtain ⟨p, hp, hpq⟩ := List.mem_map.mp (h ▸ List.mem_map_of_mem hq)
    simp only [PatchTags.shape, Prod.mk.injEq] at hpq
    rw [← hpq.1, ← hpq.2.1]
    exact mask.boxes p hp
  numPts := fun q hq => by
    obtain ⟨p, hp, hpq⟩ := List.mem_map.mp (h ▸ List.mem_map_of_mem hq)
    simp only [PatchTags.shape, Prod.mk.injEq] at hpq
    rw [← hpq.2.1, ← hpq.2.2]
    exact mask.numPts p hp

/-! ### Construction -/

/-- The constructor establishes the fields of a mask, and no cell is tagged. -/
lemma initialPatches_spec {level : LevelLayout d} {localRank : Index d} {budget : TagMaskBudget}
    {patches : List (PatchTags d)} (h : initialPatches level localRank budget = .ok patches) :
    level.distribution.localBoxIndices localRank = .ok (patches.map PatchTags.globalPatch) ∧
      ∀ p ∈ patches, level.patches.boxes[p.globalPatch]? = some p.box ∧
        p.box.numPts = .ok (p.tags.length : ℤ) ∧ ∀ i, ¬ p.Tagged i := by
  simp only [initialPatches, bind_eq_ok, throwIf_eq_ok, exists_const] at h
  obtain ⟨-, -, _, -, _, -, _, -, -, -, owned, howned, _, -, -, _, -, _, -, _, -, -, hpatches⟩ := h
  have hlayout := level.spec.2.2.2.1
  have hlt : ∀ globalPatch ∈ owned, globalPatch < level.patches.boxes.length := fun n hn => by
    simp only [Distribution.localBoxIndices, bind_eq_ok, throwIf_eq_ok, exists_const, pure_eq_ok]
      at howned
    rw [← howned.2, hlayout] at hn
    exact List.mem_range.mp (List.mem_filter.mp hn).1
  have hmap : patches.map PatchTags.globalPatch = owned.map id :=
    map_of_mapM PatchTags.globalPatch id hpatches fun globalPatch p hp => by
      simp only [bind_eq_ok, pure_eq_ok] at hp
      obtain ⟨_, _, rfl⟩ := hp
      rfl
  refine ⟨by rw [howned, hmap, List.map_id], fun p hp => ?_⟩
  obtain ⟨globalPatch, hmem, hpatch⟩ := (mem_of_mapM hpatches).2 p hp
  simp only [bind_eq_ok, pure_eq_ok] at hpatch
  obtain ⟨points, hpoints, rfl⟩ := hpatch
  have hbox : level.patches.boxes[globalPatch]? = some (patchAt level globalPatch) := by
    rw [patchAt, List.getElem?_eq_getElem (hlt _ hmem), List.getD_eq_getElem _ _ (hlt _ hmem)]
  have hcount := Box.numPts_eq_ok hpoints
  refine ⟨hbox, by simpa [hcount] using hpoints, fun i htag => htag ?_⟩
  rw [List.getD_eq_getElem?_getD, List.getElem?_replicate]
  split_ifs <;> rfl

/-- The constructor of a mask. -/
def ofLevel (level : LevelLayout d) (localRank : Index d) (budget : TagMaskBudget) :
    Throws (TagMask d) :=
  match h : initialPatches level localRank budget with
  | .ok patches => .ok ⟨level.exactIdentity, localRank, patches,
      ⟨level, rfl, (initialPatches_spec h).1⟩, fun p hp => ((initialPatches_spec h).2 p hp).1,
      fun p hp => ((initialPatches_spec h).2 p hp).2.1⟩
  | .error e => .error e

/-- The identity of the shard. -/
def shardIdentity (mask : TagMask d) : TagShardIdentity d where
  localRank := mask.localRank
  patches := mask.patches.map fun patch => ⟨patch.globalPatch, patch.box, patch.tags⟩
  replicatedAlias := false

/-- `for_each_cell_in`: the visited cells of a region with their tags. -/
def forEachCellIn (mask : TagMask d) (region : Box d) : Throws (List (Index d × Bool)) :=
  if region.Empty then pure [] else visitCells mask.patches region

/-! ### Writes -/

/-- A loop that writes one patch keeps the shapes. -/
lemma shape_updateFirst {c : PatchTags d → Bool} {e : Exception} {i : Index d} {tagged : Bool}
    {patches others : List (PatchTags d)}
    (h : updateFirst c (fun patch => patch.write i tagged) e patches = .ok others) :
    others.map PatchTags.shape = patches.map PatchTags.shape := by
  obtain ⟨front, patch, written, back, rfl, rfl, -, -, hwrite⟩ := updateFirst_spec h
  simp [PatchTags.shape_write hwrite]

/-- The mask after the loop that writes the first matching patch. -/
def writeFirst (mask : TagMask d) (c : PatchTags d → Bool) (e : Exception) (index : Index d)
    (tagged : Bool) : Throws (TagMask d) :=
  match h : updateFirst c (fun patch => patch.write index tagged) e mask.patches with
  | .ok patches => .ok (mask.withPatches patches (shape_updateFirst h))
  | .error e => .error e

/-- `set` of a cell of a patch. -/
def setPatch (mask : TagMask d) (globalPatch : ℕ) (index : Index d) (tagged : Bool) :
    Throws (TagMask d) :=
  mask.writeFirst (fun patch => decide (patch.globalPatch = globalPatch))
    (outOfRange "TagMask patch is not visible to this rank") index tagged

/-- `set` of a cell. -/
def set (mask : TagMask d) (index : Index d) (tagged : Bool) : Throws (TagMask d) :=
  mask.writeFirst (fun patch => decide (patch.box.Contains index))
    (outOfRange "TagMask cell is not in a patch visible to this rank") index tagged

/-- The tags after the write of the first matching patch: the written cell is tagged as written,
every other cell as before. -/
lemma writeFirst_spec {mask written : TagMask d} {c : PatchTags d → Bool} {e : Exception}
    {i : Index d} {tagged : Bool} (h : mask.writeFirst c e i tagged = .ok written) :
    i ∈ mask.cells ∧ written.levelIdentity = mask.levelIdentity ∧
      written.localRank = mask.localRank ∧
      written.patches.map PatchTags.shape = mask.patches.map PatchTags.shape ∧
      written.taggedCells =
        if tagged then insert i mask.taggedCells else mask.taggedCells.erase i := by
  unfold writeFirst at h
  split at h
  case h_2 => cases h
  case h_1 others hothers =>
    obtain rfl := Except.ok.inj h
    have hshape := shape_updateFirst hothers
    obtain ⟨front, patch, next, back, hpatches, hnext, -, -, hwrite⟩ := updateFirst_spec hothers
    have hmem : patch ∈ mask.patches := by simp [hpatches]
    obtain ⟨hi, htags⟩ := PatchTags.write_spec hwrite
    have hbox : next.box = patch.box := congrArg (fun s => s.2.1) (PatchTags.shape_write hwrite)
    refine ⟨mem_cells.mpr ⟨patch, hmem, hi⟩, rfl, rfl, hshape, Finset.ext fun j => ?_⟩
    -- the other patches do not hold the written cell
    have hdisjoint := mask.pairwise_disjoint
    rw [hpatches, List.pairwise_append, List.pairwise_cons] at hdisjoint
    obtain ⟨-, ⟨hback, -⟩, hfront⟩ := hdisjoint
    have hother : ∀ p, p ∈ front ∨ p ∈ back → i ∉ p.box.cells := by
      rintro p (hp | hp) hip
      · exact Finset.disjoint_left.mp (hfront p hp patch (by simp)) hip hi
      · exact Finset.disjoint_left.mp (hback p hp) hi hip
    have hsplit : ∀ q : PatchTags d, (∃ p ∈ front ++ q :: back, j ∈ p.box.cells ∧ p.Tagged j) ↔
        (j ∈ q.box.cells ∧ q.Tagged j) ∨ ∃ p, (p ∈ front ∨ p ∈ back) ∧ j ∈ p.box.cells ∧
          p.Tagged j := by
      intro q
      simp only [List.mem_append, List.mem_cons]
      constructor
      · rintro ⟨p, hp | rfl | hp, hj⟩
        · exact .inr ⟨p, .inl hp, hj⟩
        · exact .inl hj
        · exact .inr ⟨p, .inr hp, hj⟩
      · rintro (hj | ⟨p, hp | hp, hj⟩)
        · exact ⟨q, .inr (.inl rfl), hj⟩
        · exact ⟨p, .inl hp, hj⟩
        · exact ⟨p, .inr (.inr hp), hj⟩
    have hold : j ∈ mask.taggedCells ↔ (j ∈ patch.box.cells ∧ patch.Tagged j) ∨
        ∃ p, (p ∈ front ∨ p ∈ back) ∧ j ∈ p.box.cells ∧ p.Tagged j := by
      rw [mem_taggedCells, hpatches, hsplit]
    rw [mem_taggedCells]
    show (∃ p ∈ others, _) ↔ _
    rw [hnext, hsplit, hbox]
    by_cases hji : j = i
    · subst hji
      have hnone : ¬ ∃ p, (p ∈ front ∨ p ∈ back) ∧ j ∈ p.box.cells ∧ p.Tagged j :=
        fun ⟨p, hp, hj, _⟩ => hother p hp hj
      have htag := htags j hi
      rw [if_pos rfl] at htag
      rw [or_iff_left hnone, and_iff_right hi, htag]
      cases tagged <;> simp
    · have hmemj : (j ∈ patch.box.cells ∧ next.Tagged j) ↔ (j ∈ patch.box.cells ∧ patch.Tagged j) :=
        and_congr_right fun hj => by rw [htags j hj, if_neg hji]
      rw [hmemj, ← hold]
      cases tagged <;> simp [hji]

/-- Masks of the same shapes have the same cells. -/
lemma cells_of_shape {mask written : TagMask d}
    (h : written.patches.map PatchTags.shape = mask.patches.map PatchTags.shape) :
    written.cells = mask.cells := by
  have hboxes := congrArg (List.map fun s : ℕ × Box d × ℕ => s.2.1.cells) h
  simp only [List.map_map, Function.comp_def, PatchTags.shape] at hboxes
  rw [cells, cells, hboxes]

/-! ### Runs of writes -/

/-- A call of `set`: of a cell, or of a cell of a patch. -/
structure Write (d : ℕ) where
  globalPatch : Option ℕ
  index : Index d
  tagged : Bool

/-- A call of `set`. -/
def write (mask : TagMask d) (call : Write d) : Throws (TagMask d) :=
  match call.globalPatch with
  | none => mask.set call.index call.tagged
  | some globalPatch => mask.setPatch globalPatch call.index call.tagged

/-- A run of writes. -/
def writes (mask : TagMask d) (run : List (Write d)) : Throws (TagMask d) := run.foldlM write mask

/-- The last write of a cell; a cell that is not written is not tagged. -/
def lastWrite (run : List (Write d)) (i : Index d) : Bool :=
  run.foldl (fun tagged call => if call.index = i then call.tagged else tagged) false

/-- Both calls of `set` write a cell of the mask. -/
lemma write_spec {mask written : TagMask d} {call : Write d} (h : mask.write call = .ok written) :
    call.index ∈ mask.cells ∧ written.cells = mask.cells ∧
      written.taggedCells = if call.tagged then insert call.index mask.taggedCells
        else mask.taggedCells.erase call.index := by
  obtain ⟨patch, index, tagged⟩ := call
  cases patch <;>
  · obtain ⟨hmem, -, -, hshape, htags⟩ := writeFirst_spec h
    exact ⟨hmem, cells_of_shape hshape, htags⟩

/-- The writes of a run that ran to its end, from any mask. -/
lemma writes_spec {mask written : TagMask d} {run : List (Write d)}
    (h : mask.writes run = .ok written) :
    (∀ call ∈ run, call.index ∈ mask.cells) ∧ written.cells = mask.cells ∧
      ∀ i, i ∈ written.taggedCells ↔
        run.foldl (fun tagged call => if call.index = i then call.tagged else tagged)
          (decide (i ∈ mask.taggedCells)) = true := by
  induction run generalizing mask with
  | nil =>
    obtain rfl := pure_eq_ok.mp h
    simp
  | cons call rest ih =>
    simp only [writes, List.foldlM_cons, bind_eq_ok] at h
    obtain ⟨next, hnext, hrest⟩ := h
    obtain ⟨hwrites, hcells, htags⟩ := ih hrest
    obtain ⟨hmem, hnextCells, hnextTags⟩ := write_spec hnext
    rw [hnextCells] at hwrites hcells
    refine ⟨?_, hcells, fun i => ?_⟩
    · rw [List.forall_mem_cons]
      exact ⟨hmem, hwrites⟩
    · rw [htags, List.foldl_cons]
      have hstep : decide (i ∈ next.taggedCells) =
          if call.index = i then call.tagged else decide (i ∈ mask.taggedCells) := by
        rw [hnextTags]
        by_cases hi : call.index = i
        · subst hi
          cases call.tagged <;> simp
        · have hne : i ≠ call.index := fun h => hi h.symm
          cases call.tagged <;> simp [hi, hne]
      rw [hstep]

/-- A mask without tags sees every one of its cells untagged. -/
lemma taggedCells_ofLevel {level : LevelLayout d} {localRank : Index d} {budget : TagMaskBudget}
    {mask : TagMask d} (h : ofLevel level localRank budget = .ok mask) :
    mask.taggedCells = ∅ ∧ ∀ i, i ∈ mask.cells ↔
      ∃ n box, level.distribution.isLocal n localRank = .ok true ∧
        level.patches.boxes[n]? = some box ∧ i ∈ box.cells := by
  unfold ofLevel at h
  split at h
  case h_2 => cases h
  case h_1 patches hpatches =>
    obtain rfl := Except.ok.inj h
    obtain ⟨howned, hspec⟩ := initialPatches_spec hpatches
    simp only [Distribution.localBoxIndices, bind_eq_ok, throwIf_eq_ok, exists_const, not_not,
      pure_eq_ok] at howned
    have hlocal : ∀ n, n ∈ patches.map PatchTags.globalPatch ↔
        level.distribution.isLocal n localRank = .ok true := fun n => by
      simp [← howned.2, Distribution.isLocal, howned.1]
    refine ⟨Finset.eq_empty_of_forall_notMem fun i hi => ?_, fun i => ?_⟩
    · obtain ⟨p, hp, -, htag⟩ := mem_taggedCells.mp hi
      exact (hspec p hp).2.2 i htag
    · rw [mem_cells]
      constructor
      · rintro ⟨p, hp, hi⟩
        exact ⟨p.globalPatch, p.box, (hlocal _).mp (List.mem_map_of_mem hp), (hspec p hp).1, hi⟩
      · rintro ⟨n, box, hn, hbox, hi⟩
        obtain ⟨p, hp, rfl⟩ := List.mem_map.mp ((hlocal n).mpr hn)
        obtain rfl := Option.some.inj (hbox.symm.trans (hspec p hp).1)
        exact ⟨p, hp, hi⟩

/-- The visit of a region sees every cell of the region in the mask once, with its tag. -/
lemma forEachCellIn_spec (mask : TagMask d) {region : Box d} (hregion : region.IsInt) :
    ∃ visits, mask.forEachCellIn region = .ok visits ∧ (visits.map Prod.fst).Nodup ∧
      ∀ v, v ∈ visits ↔ v.1 ∈ region.cells ∧ v.1 ∈ mask.cells ∧
        v.2 = decide (v.1 ∈ mask.taggedCells) := by
  by_cases hempty : region.Empty
  · refine ⟨[], by rw [forEachCellIn, if_pos hempty]; rfl, List.nodup_nil, fun v => ?_⟩
    rw [Box.empty_iff_cells.mp hempty]
    simp
  · obtain ⟨visits, hvisits, hnodup, hmem⟩ :=
      visitCells_spec mask.sized mask.pairwise_disjoint hregion
    refine ⟨visits, by rw [forEachCellIn, if_neg hempty, hvisits], hnodup, fun v => ?_⟩
    have htag : ∀ p ∈ mask.patches, v.1 ∈ p.box.cells →
        decide (p.Tagged v.1) = decide (v.1 ∈ mask.taggedCells) := by
      intro p hp hi
      rw [decide_eq_decide, mem_taggedCells]
      refine ⟨fun h => ⟨p, hp, hi, h⟩, fun ⟨q, hq, hiq, h⟩ => ?_⟩
      rwa [patch_unique hp hq hi hiq]
    rw [hmem, mem_cells]
    constructor
    · rintro ⟨p, hp, hi, hcell, h⟩
      exact ⟨hcell, ⟨p, hp, hi⟩, h.trans (htag p hp hi)⟩
    · rintro ⟨hcell, ⟨p, hp, hi⟩, h⟩
      exact ⟨p, hp, hi, hcell, h.trans (htag p hp hi).symm⟩

/-- The run that tags the cells `3` and `4` of the patch `[2, 5]` and takes the second tag back with
the call that names the patch. -/
def lineRun : List (Write 1) :=
  [⟨none, fun _ => 3, true⟩, ⟨none, fun _ => 4, true⟩, ⟨some 0, fun _ => 4, false⟩]

end TagMask

end Pops
