import Pops.Mesh.Layout.Distribution

/-!
# Field storage

`pops::Fab`, `pops::FieldView` and `pops::MultiFab`: the patches of a layout that a rank owns are
stored with their ghost cells, axis `0` contiguous and components slowest.  The constructor of a
`Fab` bounds the number of its elements by the range of `std::int64_t`, so the offsets computed by
a view never wrap.

## Main definitions

* `Pops.FieldView`, `FieldView.address` — a view and the element it addresses.
* `Pops.MultiFab`, `MultiFab.fabGlobal` — the storage of one rank and its patches.
* `Pops.MultiFab.create` — the constructor.

## Main results

* `Pops.MultiFab.address_injective` — distinct cells and components are distinct elements.
-/

namespace Pops

variable {d : ℕ}

/-! ## Views -/

/-- A non-owning view of the storage of one patch. -/
structure FieldView (d : ℕ) where
  allocation : ℕ
  origin : Index d
  strides : Fin d → ℤ
  componentStride : ℤ

/-- The element that a cell and a component address. -/
def FieldView.address (view : FieldView d) (index : Index d) (component : ℤ) : ℕ × ℤ :=
  (view.allocation, component * view.componentStride +
    ∑ axis, (index axis - view.origin axis) * view.strides axis)

namespace Fab

/-- A valid box together with its ghost cells. -/
def grownWithGhosts (valid : Box d) (ghosts : Extent d) : Box d :=
  if valid.Empty then valid
  else ⟨fun axis => valid.lo axis - ghosts axis, fun axis => valid.hi axis + ghosts axis⟩

/-- The checks of the constructor of a patch: the ghost cells and all elements can be addressed. -/
def validate (valid : Box d) (ncomp : ℤ) (ghosts : Extent d) : Throws Unit := do
  throwIf (ncomp < 1) (invalidArgument "pops::Fab: ncomp must be positive")
  let _ ← forEachAxis fun axis => throwIf (ghosts axis < 0)
    (invalidArgument "pops::Fab: ghost extents must be non-negative")
  if valid.Empty then pure ()
  else do
    let _ ← forEachAxis fun axis => do
      throwIf (ghosts axis > intMax - valid.hi axis)
        (overflowError "pops::Fab: ghost growth upper bound overflow")
      throwIf (ghosts axis > valid.lo axis - intMin)
        (overflowError "pops::Fab: ghost growth lower bound overflow")
    let cells ← (List.finRange d).foldlM (fun cells axis => do
      let extent := (grownWithGhosts valid ghosts).length axis
      throwIf (cells > int64Max / extent) (overflowError "pops::Fab: cell count exceeds int64_t")
      pure (cells * extent)) 1
    throwIf (cells > int64Max / ncomp) (overflowError "pops::Fab: element count exceeds int64_t")

/-- The number of cells along every axis. -/
def extents (grown : Box d) (axis : Fin d) : ℕ := (grown.length axis).toNat

/-- The view of the storage of a grown box. -/
def view (allocation : ℕ) (grown : Box d) : FieldView d where
  allocation := allocation
  origin := grown.lo
  strides axis := MixedRadix.strides (extents grown) 1 axis
  componentStride := ∏ axis, (extents grown axis : ℤ)

/-- The offset of a cell from the lower corner of its box. -/
def digits (grown : Box d) (i : Index d) (axis : Fin d) : ℕ := (i axis - grown.lo axis).toNat

/-- The offset of a contained cell is below the extents. -/
lemma digits_lt {grown : Box d} {i : Index d} (hi : i ∈ grown.cells) (axis : Fin d) :
    digits grown i axis < extents grown axis := by
  have hlen := Box.length_of_nonempty (Box.not_empty_of_mem hi) axis
  have hmem := Box.mem_cells.mp hi axis
  unfold digits extents
  omega

/-- The element of a contained cell, component by component in mixed radix. -/
lemma address_view {allocation : ℕ} {grown : Box d} {i : Index d} (hi : i ∈ grown.cells)
    (c : ℕ) : (view allocation grown).address i c =
      (allocation, ((c * (∏ a, extents grown a) +
        MixedRadix.rank (extents grown) (digits grown i) : ℕ) : ℤ)) := by
  have hsum : ∑ a, (i a - grown.lo a) * ((MixedRadix.strides (extents grown) 1 a : ℕ) : ℤ) =
      ((∑ a, digits grown i a * MixedRadix.strides (extents grown) 1 a : ℕ) : ℤ) := by
    push_cast
    refine Finset.sum_congr rfl fun a _ => ?_
    have hmem := Box.mem_cells.mp hi a
    rw [digits, Int.toNat_of_nonneg (by omega)]
  rw [MixedRadix.sum_mul_strides, Nat.one_mul] at hsum
  refine Prod.ext rfl ?_
  simp only [FieldView.address, view]
  rw [hsum]
  push_cast
  rfl

/-- Distinct cells and components of one patch are distinct elements. -/
lemma address_view_injective {allocation : ℕ} {grown : Box d} {i j : Index d}
    (hi : i ∈ grown.cells) (hj : j ∈ grown.cells) {c e : ℤ} (hc : 0 ≤ c) (he : 0 ≤ e)
    (h : (view allocation grown).address i c = (view allocation grown).address j e) :
    i = j ∧ c = e := by
  lift c to ℕ using hc
  lift e to ℕ using he
  rw [address_view hi, address_view hj] at h
  have hlin := Int.ofNat.inj (congrArg Prod.snd h)
  have hri := MixedRadix.rank_lt (digits_lt hi)
  have hrj := MixedRadix.rank_lt (digits_lt hj)
  have hpos : 0 < ∏ a, extents grown a := by omega
  -- the component is the quotient and the cell the remainder of the offset
  have hce : c = e := by
    have hdiv := congrArg (· / ∏ a, extents grown a) hlin
    simp only [Nat.mul_comm c, Nat.mul_comm e, Nat.mul_add_div hpos, Nat.div_eq_of_lt hri,
      Nat.div_eq_of_lt hrj, Nat.add_zero] at hdiv
    exact hdiv
  subst hce
  have hrank : MixedRadix.rank (extents grown) (digits grown i) =
      MixedRadix.rank (extents grown) (digits grown j) := by omega
  have hdigits := congrArg (MixedRadix.unrank (extents grown)) hrank
  rw [MixedRadix.unrank_rank (digits_lt hi), MixedRadix.unrank_rank (digits_lt hj)] at hdigits
  refine ⟨funext fun a => ?_, rfl⟩
  have h1 := Box.mem_cells.mp hi a
  have h2 := Box.mem_cells.mp hj a
  have h3 := congrFun hdigits a
  unfold digits at h3
  omega

end Fab

/-! ## The storage of a rank -/

/-- The storage of one rank: its metadata and the elements of its patches. -/
structure MultiFab (d : ℕ) (V : Type) where
  layout : BoxArray d
  distribution : Distribution d
  localRank : Index d
  ncomp : ℤ
  ghosts : Extent d
  data : ℕ × ℤ → V

namespace MultiFab

variable {V : Type}

/-- The storage with the same metadata and other elements. -/
def setData (fields : MultiFab d V) (data : ℕ × ℤ → V) : MultiFab d V :=
  { fields with data := data }

/-- The metadata checks of the constructor. -/
def validateMetadata (layout : BoxArray d) (distribution : Distribution d) (localRank : Index d)
    (ncomp : ℤ) (ghosts : Extent d) : Throws Unit := do
  throwIf (distribution.layout ≠ layout) (invalidArgument
    "pops::MultiFab: distribution layout does not exactly match the field layout")
  throwIf (¬ distribution.rankSpace.Contains localRank)
    (outOfRange "pops::MultiFab: local rank is outside the distribution rank space")
  throwIf (ncomp < 1) (invalidArgument "pops::MultiFab: ncomp must be positive")
  let _ ← forEachAxis fun axis => throwIf (ghosts axis < 0)
    (invalidArgument "pops::MultiFab: ghost extents must be non-negative")

/-- The constructor: the patches of this rank are filled with zero. -/
def create (zero : V) (layout : BoxArray d) (distribution : Distribution d) (localRank : Index d)
    (ncomp : ℤ) (ghosts : Extent d) : Throws (MultiFab d V) := do
  validateMetadata layout distribution localRank ncomp ghosts
  let localGlobalIndices ← distribution.localBoxIndices localRank
  forEach localGlobalIndices fun global =>
    Fab.validate (layout.boxes.getD global ⟨0, 0⟩) ncomp ghosts
  pure ⟨layout, distribution, localRank, ncomp, ghosts, fun _ => zero⟩

/-- The metadata was accepted by the constructor. -/
def Constructed (fields : MultiFab d V) : Prop :=
  validateMetadata fields.layout fields.distribution fields.localRank fields.ncomp fields.ghosts =
    .ok ()

/-- The metadata checks, spelled out. -/
lemma validateMetadata_eq_ok {layout : BoxArray d} {distribution : Distribution d}
    {localRank : Index d} {ncomp : ℤ} {ghosts : Extent d} {u : Unit} :
    validateMetadata layout distribution localRank ncomp ghosts = .ok u ↔
      distribution.layout = layout ∧ distribution.rankSpace.Contains localRank ∧ 1 ≤ ncomp ∧
        ∀ axis, 0 ≤ ghosts axis := by
  simp only [validateMetadata, bind_eq_ok, throwIf_eq_ok, exists_const, ne_eq, not_not, not_lt,
    forEachAxis_eq_ok, pure_eq_ok, and_true]

/-- The patch is materialized on this rank. -/
def ContainsLocal (fields : MultiFab d V) (global : ℕ) : Prop :=
  fields.distribution.Replicated ∨ fields.distribution.owners.getD global 0 = fields.localRank

instance (fields : MultiFab d V) (global : ℕ) : Decidable (fields.ContainsLocal global) :=
  inferInstanceAs (Decidable (_ ∨ _))

/-- The patches of this rank, in global order. -/
def localGlobalIndices (fields : MultiFab d V) : List ℕ :=
  (List.range fields.layout.boxes.length).filter fun global => fields.ContainsLocal global

/-- The valid box of a patch. -/
def box (fields : MultiFab d V) (global : ℕ) : Box d := fields.layout.boxes.getD global ⟨0, 0⟩

/-- The box of a patch with its ghost cells. -/
def grownBox (fields : MultiFab d V) (global : ℕ) : Box d :=
  Fab.grownWithGhosts (fields.layout.boxes.getD global ⟨0, 0⟩) fields.ghosts

/-- The view of a patch of this rank. -/
def view (fields : MultiFab d V) (global : ℕ) : FieldView d :=
  Fab.view global (fields.grownBox global)

/-- The checked view of a patch of this rank. -/
def fabGlobal (fields : MultiFab d V) (global : ℕ) : Throws (FieldView d) := do
  throwIf (global ≥ fields.layout.boxes.length)
    (outOfRange "pops::MultiFab: global patch index is outside the layout")
  throwIf (¬ fields.ContainsLocal global)
    (outOfRange "pops::MultiFab: global patch is not materialized on this rank")
  pure (fields.view global)

/-- The value of a cell and a component of a patch. -/
def value (fields : MultiFab d V) (global : ℕ) (i : Index d) (c : ℤ) : V :=
  fields.data ((fields.view global).address i c)

/-- The rank stores the cell and the component of the patch. -/
structure Holds (fields : MultiFab d V) (global : ℕ) (i : Index d) (c : ℤ) : Prop where
  lt_length : global < fields.layout.boxes.length
  containsLocal : fields.ContainsLocal global
  mem_grownBox : i ∈ (fields.grownBox global).cells
  nonneg : 0 ≤ c
  lt_ncomp : c < fields.ncomp

/-- The rank stores the valid cell and the component of the patch. -/
structure Stores (fields : MultiFab d V) (global : ℕ) (i : Index d) (c : ℤ) : Prop where
  lt_length : global < fields.layout.boxes.length
  containsLocal : fields.ContainsLocal global
  mem_box : i ∈ (fields.box global).cells
  nonneg : 0 ≤ c
  lt_ncomp : c < fields.ncomp

/-- The valid cells of a patch belong to its grown box. -/
lemma mem_grownBox_of_mem_box {fields : MultiFab d V} (hghosts : ∀ axis, 0 ≤ fields.ghosts axis)
    {global : ℕ} {i : Index d} (h : i ∈ (fields.box global).cells) :
    i ∈ (fields.grownBox global).cells := by
  have hne := Box.not_empty_of_mem h
  show i ∈ (Fab.grownWithGhosts (fields.box global) fields.ghosts).cells
  rw [Fab.grownWithGhosts, if_neg hne]
  refine Box.mem_cells.mpr fun axis => ?_
  have hmem := Box.mem_cells.mp h axis
  have := hghosts axis
  simp only
  omega

/-- A stored valid cell is stored. -/
lemma Stores.holds {fields : MultiFab d V} (hghosts : ∀ axis, 0 ≤ fields.ghosts axis)
    {global : ℕ} {i : Index d} {c : ℤ} (h : fields.Stores global i c) : fields.Holds global i c :=
  ⟨h.lt_length, h.containsLocal, mem_grownBox_of_mem_box hghosts h.mem_box, h.nonneg, h.lt_ncomp⟩

/-- Distinct stored cells and components are distinct elements. -/
theorem address_injective {fields : MultiFab d V} {n m : ℕ} {i j : Index d} {c e : ℤ}
    (hi : fields.Holds n i c) (hj : fields.Holds m j e)
    (h : (fields.view n).address i c = (fields.view m).address j e) : n = m ∧ i = j ∧ c = e := by
  obtain rfl : n = m := congrArg Prod.fst h
  exact ⟨rfl, Fab.address_view_injective hi.mem_grownBox hj.mem_grownBox hi.nonneg hj.nonneg h⟩

/-- The checked view of a stored patch returns its view. -/
lemma fabGlobal_eq_ok {fields : MultiFab d V} {global : ℕ} {v : FieldView d} :
    fields.fabGlobal global = .ok v ↔ global < fields.layout.boxes.length ∧
      fields.ContainsLocal global ∧ fields.view global = v := by
  simp [fabGlobal]

end MultiFab

end Pops
