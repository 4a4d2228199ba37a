import Pops.Foundation.MachineInt
import Pops.Foundation.Cover

/-!
# Inclusive integer index boxes

`pops::Index`, `pops::Extent` and `pops::Box` over a spatial rank `d`.  Coordinates are
mathematical integers; that they are values of `int` is `Box.IsInt`.  A box stands for the
finite set `Box.cells` of the indices it contains, and the geometric operations are described
on that set.

## Main definitions

* `Pops.Box` — an inclusive box, empty when an upper bound is below its lower bound.
* `Pops.Box.cells` — the cells of a box.

## Main results

* `Pops.Box.cells_intersect` — intersecting boxes intersects their cell sets.
* `Pops.Box.card_cells` — the number of cells is the product of the axis lengths.
* `Pops.Box.numPts_eq_ok`, `numPts_returns_iff` — `numPts` counts cells, exactly when the count fits
  `std::int64_t`.
* `Pops.Box.eq_of_cells_eq` — a nonempty box is determined by its cells.
-/

namespace Pops

/-- Signed cell coordinate of spatial rank `d`. -/
abbrev Index (d : ℕ) := Fin d → ℤ

/-- Extent per spatial axis. -/
abbrev Extent (d : ℕ) := Fin d → ℤ

/-- Inclusive integer box. -/
@[ext] structure Box (d : ℕ) where
  lo : Index d
  hi : Index d

namespace Box

variable {d : ℕ}

instance : DecidableEq (Box d) := fun b other =>
  decidable_of_iff (b.lo = other.lo ∧ b.hi = other.hi) Box.ext_iff.symm

/-- A box is empty when any upper bound is below its lower bound. -/
def Empty (b : Box d) : Prop := ∃ a, b.hi a < b.lo a

instance (b : Box d) : Decidable b.Empty := inferInstanceAs (Decidable (∃ _, _))

/-- Exact extent along an axis; empty boxes report zero along every axis. -/
def length (b : Box d) (axis : Fin d) : ℤ := if b.Empty then 0 else b.hi axis - b.lo axis + 1

/-- Number of points with overflow detection. -/
def numPts (b : Box d) : Throws ℤ :=
  if b.Empty then pure 0
  else (List.finRange d).foldlM (fun count axis => do
    throwIf (count > int64Max / b.length axis)
      (overflowError "pops::Box::numPts: point count exceeds int64_t")
    pure (count * b.length axis)) 1

/-- The box contains an index. -/
def Contains (b : Box d) (index : Index d) : Prop :=
  ¬ b.Empty ∧ ∀ a, b.lo a ≤ index a ∧ index a ≤ b.hi a

instance (b : Box d) (index : Index d) : Decidable (b.Contains index) :=
  inferInstanceAs (Decidable (_ ∧ _))

/-- The box contains a nonempty box. -/
def ContainsBox (b other : Box d) : Prop :=
  ¬ other.Empty ∧ ∀ a, b.lo a ≤ other.lo a ∧ other.hi a ≤ b.hi a

instance (b other : Box d) : Decidable (b.ContainsBox other) :=
  inferInstanceAs (Decidable (_ ∧ _))

/-- Intersection of two boxes. -/
def intersect (b other : Box d) : Box d where
  lo a := max (b.lo a) (other.lo a)
  hi a := min (b.hi a) (other.hi a)

/-- The box with its lower bound along one axis replaced. -/
def setLo (b : Box d) (axis : Fin d) (bound : ℤ) : Box d :=
  ⟨Function.update b.lo axis bound, b.hi⟩

/-- The box with its upper bound along one axis replaced. -/
def setHi (b : Box d) (axis : Fin d) (bound : ℤ) : Box d :=
  ⟨b.lo, Function.update b.hi axis bound⟩

/-- The lower corner after setting a lower bound. -/
@[simp] lemma setLo_lo (b : Box d) (axis : Fin d) (bound : ℤ) :
    (b.setLo axis bound).lo = Function.update b.lo axis bound := rfl

/-- Setting a lower bound keeps the upper corner. -/
@[simp] lemma setLo_hi (b : Box d) (axis : Fin d) (bound : ℤ) :
    (b.setLo axis bound).hi = b.hi := rfl

/-- Setting an upper bound keeps the lower corner. -/
@[simp] lemma setHi_lo (b : Box d) (axis : Fin d) (bound : ℤ) :
    (b.setHi axis bound).lo = b.lo := rfl

/-- The upper corner after setting an upper bound. -/
@[simp] lemma setHi_hi (b : Box d) (axis : Fin d) (bound : ℤ) :
    (b.setHi axis bound).hi = Function.update b.hi axis bound := rfl

/-- Grow a nonempty box by `amount` on both sides of one axis. -/
def grow (b : Box d) (axis : Fin d) (amount : ℤ) : Throws (Box d) :=
  if b.Empty then pure b
  else do
    let lower ← checkedIndex (b.lo axis - amount) "pops::Box::grow: lower bound overflow"
    let upper ← checkedIndex (b.hi axis + amount) "pops::Box::grow: upper bound overflow"
    pure ⟨Function.update b.lo axis lower, Function.update b.hi axis upper⟩

/-- Checked translation of a nonempty box. -/
def shift (b : Box d) (offset : Index d) : Throws (Box d) :=
  if b.Empty then pure b
  else do
    let bounds ← forEachAxis fun axis => do
      let lower ← checkedIndex (b.lo axis + offset axis) "pops::Box::shift: lower bound overflow"
      let upper ← checkedIndex (b.hi axis + offset axis) "pops::Box::shift: upper bound overflow"
      pure (lower, upper)
    pure ⟨fun a => (bounds a).1, fun a => (bounds a).2⟩

/-- The cells of a box. -/
def cells (b : Box d) : Finset (Index d) :=
  Fintype.piFinset fun a =>
    -- the order on `ℤ` is named so that the enumeration stays executable
    @Finset.Icc ℤ Int.instLinearOrder.toPreorder Int.instLocallyFiniteOrder (b.lo a) (b.hi a)

/-- All bounds of the box are values of `int`. -/
def IsInt (b : Box d) : Prop := ∀ a, Pops.IsInt (b.lo a) ∧ Pops.IsInt (b.hi a)

instance (b : Box d) : Decidable b.IsInt := inferInstanceAs (Decidable (∀ _, _))

/-! ## Cells -/

/-- The cells of a box lie between its corners. -/
@[simp] lemma mem_cells {b : Box d} {i : Index d} :
    i ∈ b.cells ↔ ∀ a, b.lo a ≤ i a ∧ i a ≤ b.hi a := by
  simp only [cells, Fintype.mem_piFinset, Finset.mem_Icc]

/-- The bounds of a nonempty box are ordered. -/
lemma lo_le_hi {b : Box d} (h : ¬ b.Empty) (a : Fin d) : b.lo a ≤ b.hi a := by
  by_contra hlt
  exact h ⟨a, by omega⟩

/-- A box with a cell is not empty. -/
lemma not_empty_of_mem {b : Box d} {i : Index d} (h : i ∈ b.cells) : ¬ b.Empty := by
  rintro ⟨a, ha⟩
  have := mem_cells.mp h a
  omega

/-- The lower corner of a nonempty box is one of its cells. -/
lemma lo_mem_cells {b : Box d} (h : ¬ b.Empty) : b.lo ∈ b.cells :=
  mem_cells.mpr fun a => ⟨le_rfl, lo_le_hi h a⟩

/-- The upper corner of a nonempty box is one of its cells. -/
lemma hi_mem_cells {b : Box d} (h : ¬ b.Empty) : b.hi ∈ b.cells :=
  mem_cells.mpr fun a => ⟨lo_le_hi h a, le_rfl⟩

/-- A box is empty exactly when it has no cell. -/
lemma empty_iff_cells {b : Box d} : b.Empty ↔ b.cells = ∅ := by
  constructor
  · intro h
    exact Finset.eq_empty_of_forall_notMem fun i hi => not_empty_of_mem hi h
  · intro h
    by_contra hne
    simpa [h] using lo_mem_cells hne

/-- `contains` is membership in the cell set. -/
lemma contains_iff {b : Box d} {i : Index d} : b.Contains i ↔ i ∈ b.cells := by
  constructor
  · exact fun h => mem_cells.mpr h.2
  · exact fun h => ⟨not_empty_of_mem h, mem_cells.mp h⟩

/-- `contains` on boxes is inclusion of nonempty cell sets. -/
lemma containsBox_iff {b other : Box d} :
    b.ContainsBox other ↔ ¬ other.Empty ∧ other.cells ⊆ b.cells := by
  constructor
  · rintro ⟨hne, h⟩
    refine ⟨hne, fun i hi => mem_cells.mpr fun a => ?_⟩
    have hi := mem_cells.mp hi a
    have := h a
    omega
  · rintro ⟨hne, h⟩
    exact ⟨hne, fun a => ⟨(mem_cells.mp (h (lo_mem_cells hne)) a).1,
      (mem_cells.mp (h (hi_mem_cells hne)) a).2⟩⟩

/-- Intersecting boxes intersects their cell sets. -/
@[simp] theorem cells_intersect (b other : Box d) :
    (b.intersect other).cells = b.cells ∩ other.cells := by
  ext i
  simp only [mem_cells, Finset.mem_inter, intersect, ← forall_and]
  exact forall_congr' fun a => by omega

/-- Two boxes have an empty intersection exactly when their cell sets are disjoint. -/
lemma intersect_empty_iff {b other : Box d} :
    (b.intersect other).Empty ↔ Disjoint b.cells other.cells := by
  rw [empty_iff_cells, cells_intersect, Finset.disjoint_iff_inter_eq_empty]

/-- A nonempty box is determined by its cells. -/
theorem eq_of_cells_eq {b other : Box d} (hb : ¬ b.Empty) (h : b.cells = other.cells) :
    b = other := by
  have ho : ¬ other.Empty := by rwa [empty_iff_cells, ← h, ← empty_iff_cells]
  have h1 : ∀ a, other.lo a ≤ b.lo a ∧ b.lo a ≤ other.hi a := mem_cells.mp (h ▸ lo_mem_cells hb)
  have h2 : ∀ a, other.lo a ≤ b.hi a ∧ b.hi a ≤ other.hi a := mem_cells.mp (h ▸ hi_mem_cells hb)
  have h3 : ∀ a, b.lo a ≤ other.lo a ∧ other.lo a ≤ b.hi a := mem_cells.mp (h ▸ lo_mem_cells ho)
  have h4 : ∀ a, b.lo a ≤ other.hi a ∧ other.hi a ≤ b.hi a := mem_cells.mp (h ▸ hi_mem_cells ho)
  refine Box.ext (funext fun a => ?_) (funext fun a => ?_)
  · have := h1 a
    have := h3 a
    omega
  · have := h2 a
    have := h4 a
    omega

/-! ## Lengths and counts -/

/-- The length of a nonempty box along an axis. -/
lemma length_of_nonempty {b : Box d} (h : ¬ b.Empty) (a : Fin d) :
    b.length a = b.hi a - b.lo a + 1 := by
  simp [length, h]

/-- A nonempty box has positive length along every axis. -/
lemma length_pos {b : Box d} (h : ¬ b.Empty) (a : Fin d) : 0 < b.length a := by
  have := lo_le_hi h a
  rw [length_of_nonempty h]
  omega

/-- Lengths are never negative. -/
lemma length_nonneg (b : Box d) (a : Fin d) : 0 ≤ b.length a := by
  by_cases h : b.Empty
  · simp [length, h]
  · exact (length_pos h a).le

/-- The number of cells of a nonempty box is the product of its lengths. -/
theorem card_cells {b : Box d} (h : ¬ b.Empty) : (b.cells.card : ℤ) = ∏ a, b.length a := by
  rw [cells, Fintype.card_piFinset, Nat.cast_prod]
  refine Finset.prod_congr rfl fun a _ => ?_
  have := lo_le_hi h a
  rw [Int.card_Icc, length_of_nonempty h]
  omega

/-- The same count with the lengths read as natural numbers. -/
lemma card_cells_toNat {b : Box d} (h : ¬ b.Empty) :
    b.cells.card = ∏ a, (b.length a).toNat := by
  have hcast : (b.cells.card : ℤ) = ((∏ a, (b.length a).toNat : ℕ) : ℤ) := by
    rw [card_cells h, Nat.cast_prod]
    exact Finset.prod_congr rfl fun a _ => by rw [Int.toNat_of_nonneg (length_nonneg b a)]
  exact_mod_cast hcast

/-- A product over the axes is the product accumulated by a loop over the axes. -/
lemma prod_finRange (f : Fin d → ℤ) : ((List.finRange d).map f).prod = ∏ a, f a := by
  rw [← List.ofFn_eq_map, List.prod_ofFn]

/-- When `numPts` returns, it returns the number of cells. -/
theorem numPts_eq_ok {b : Box d} {n : ℤ} (h : b.numPts = .ok n) : n = b.cells.card := by
  unfold numPts at h
  split_ifs at h with he
  · rw [empty_iff_cells.mp he, ← pure_eq_ok.mp h]
    simp
  · have := foldlM_invariant (P := fun done count => count = (done.map b.length).prod) h (by simp)
      (fun done a rest s s' _ hs hstep => by
        simp only [bind_eq_ok, throwIf_eq_ok, pure_eq_ok] at hstep
        obtain ⟨_, _, rfl⟩ := hstep
        simp [hs])
    rw [card_cells he, this, prod_finRange]

/-- `numPts` returns exactly when the number of cells fits `std::int64_t`. -/
theorem numPts_returns_iff {b : Box d} : Returns b.numPts ↔ (b.cells.card : ℤ) ≤ int64Max := by
  by_cases he : b.Empty
  · simp [Returns, numPts, he, empty_iff_cells.mp he, int64Max, pure, Except.pure]
  have hstep : ∀ count axis, 0 < count → (count > int64Max / b.length axis ↔
      int64Max < count * b.length axis) := fun count axis _ => by
    rw [gt_iff_lt, Int.ediv_lt_iff_lt_mul (length_pos he axis)]
  constructor
  · rintro ⟨n, hn⟩
    rw [← numPts_eq_ok hn]
    unfold numPts at hn
    rw [if_neg he] at hn
    have := foldlM_invariant (P := fun _ count => 0 < count ∧ count ≤ int64Max) hn
      (by simp [int64Max])
      (fun done a rest s s' _ hs hbody => by
        simp only [bind_eq_ok, throwIf_eq_ok, pure_eq_ok] at hbody
        obtain ⟨_, hle, rfl⟩ := hbody
        rw [hstep s a hs.1] at hle
        exact ⟨mul_pos hs.1 (length_pos he a), by omega⟩)
    exact this.2
  · intro hcard
    rw [card_cells he, ← prod_finRange] at hcard
    unfold numPts
    rw [if_neg he]
    obtain ⟨n, hn, _⟩ := foldlM_total (l := List.finRange d) (s := (1 : ℤ))
      (f := fun count axis => do
        throwIf (count > int64Max / b.length axis)
          (overflowError "pops::Box::numPts: point count exceeds int64_t")
        pure (count * b.length axis))
      (P := fun done count => 0 < count ∧ count = (done.map b.length).prod) (by simp)
      (fun done a rest s e hs => by
        have hrest : 0 < (rest.map b.length).prod :=
          List.prod_pos fun x hx => by
            obtain ⟨c, _, rfl⟩ := List.mem_map.mp hx
            exact length_pos he c
        have hle : s * b.length a ≤ int64Max := by
          rw [e, List.map_append, List.prod_append, List.map_cons, List.prod_cons, ← hs.2,
            ← mul_assoc] at hcard
          nlinarith [mul_pos hs.1 (length_pos he a)]
        refine ⟨s * b.length a, ?_, mul_pos hs.1 (length_pos he a), by simp [hs.2]⟩
        simp only [bind_eq_ok, throwIf_eq_ok, pure_eq_ok]
        exact ⟨(), by rw [hstep s a hs.1]; omega, trivial⟩)
    exact ⟨n, hn⟩

/-! ## Bounds -/

/-- A cell of a box with `int` bounds has `int` coordinates. -/
lemma IsInt.mem {b : Box d} (hb : b.IsInt) {i : Index d} (hi : i ∈ b.cells) (a : Fin d) :
    Pops.IsInt (i a) :=
  (hb a).1.between (hb a).2 (mem_cells.mp hi a).1 (mem_cells.mp hi a).2

/-- A nonempty box inside a box with `int` bounds has `int` bounds. -/
lemma IsInt.subset {b other : Box d} (hb : b.IsInt) (hne : ¬ other.Empty)
    (h : other.cells ⊆ b.cells) : other.IsInt :=
  fun a => ⟨hb.mem (h (lo_mem_cells hne)) a, hb.mem (h (hi_mem_cells hne)) a⟩

/-- The intersection of boxes with `int` bounds has `int` bounds. -/
lemma IsInt.intersect {b other : Box d} (hb : b.IsInt) (ho : other.IsInt) :
    (b.intersect other).IsInt := by
  intro a
  have h1 := hb a
  have h2 := ho a
  simp only [Pops.IsInt, Box.intersect] at *
  omega

/-- Along an axis a box with `int` bounds has at most `2³²` cells. -/
lemma IsInt.length_le {b : Box d} (hb : b.IsInt) (a : Fin d) : b.length a ≤ 4294967296 := by
  have h := hb a
  simp only [Pops.IsInt, intMin, intMax] at h
  unfold length
  split_ifs
  · omega
  · omega

/-- The box of all indices with `int` coordinates. -/
def full (d : ℕ) : Box d := ⟨fun _ => intMin, fun _ => intMax⟩

/-- The box of all `int` indices contains every box with `int` bounds. -/
lemma IsInt.subset_full {b : Box d} (hb : b.IsInt) : b.cells ⊆ (full d).cells :=
  fun _ hi => mem_cells.mpr fun a => hb.mem hi a

/-- There are at most `2⁹⁶` indices with `int` coordinates in up to three dimensions. -/
lemma card_full_le (hd : d ≤ 3) : (full d).cells.card ≤ 2 ^ 96 := by
  have hne : ¬ (full d).Empty := by
    rintro ⟨a, ha⟩
    simp [full, intMin, intMax] at ha
  have hlen : ∀ a, ((full d).length a).toNat = 2 ^ 32 := fun a => by
    rw [length_of_nonempty hne]
    simp [full, intMin, intMax]
  rw [card_cells_toNat hne, Finset.prod_congr rfl fun a _ => hlen a, Finset.prod_const,
    Finset.card_univ, Fintype.card_fin, ← pow_mul]
  exact Nat.pow_le_pow_right (by norm_num) (by omega)

/-- A box with `int` bounds has at most `2⁹⁶` cells in up to three dimensions. -/
lemma IsInt.card_le (hd : d ≤ 3) {b : Box d} (hb : b.IsInt) : b.cells.card ≤ 2 ^ 96 :=
  (Finset.card_le_card hb.subset_full).trans (card_full_le hd)

/-! ## Translation and growth -/

/-- Lowering the upper bound of one axis keeps the cells up to the new bound. -/
lemma mem_setHi {b : Box d} {axis : Fin d} {m : ℤ} (hm : m ≤ b.hi axis) {i : Index d} :
    i ∈ (b.setHi axis m).cells ↔ i ∈ b.cells ∧ i axis ≤ m := by
  rw [mem_cells, mem_cells, setHi,
    Function.forall_update_iff b.hi fun a v => b.lo a ≤ i a ∧ i a ≤ v]
  refine ⟨fun h => ⟨fun a => ?_, h.1.2⟩, fun h => ⟨⟨(h.1 axis).1, h.2⟩, fun a _ => h.1 a⟩⟩
  by_cases ha : a = axis
  · subst ha
    exact ⟨h.1.1, h.1.2.trans hm⟩
  · exact h.2 a ha

/-- Raising the lower bound of one axis keeps the cells from the new bound on. -/
lemma mem_setLo {b : Box d} {axis : Fin d} {m : ℤ} (hm : b.lo axis ≤ m) {i : Index d} :
    i ∈ (b.setLo axis m).cells ↔ i ∈ b.cells ∧ m ≤ i axis := by
  rw [mem_cells, mem_cells, setLo,
    Function.forall_update_iff b.lo fun a v => v ≤ i a ∧ i a ≤ b.hi a]
  refine ⟨fun h => ⟨fun a => ?_, h.1.1⟩, fun h => ⟨⟨h.2, (h.1 axis).2⟩, fun a _ => h.1 a⟩⟩
  by_cases ha : a = axis
  · subst ha
    exact ⟨hm.trans h.1.1, h.1.2⟩
  · exact h.2 a ha

/-- A checked translation of a nonempty box moves every bound and keeps it an `int`. -/
lemma shift_eq_ok {b r : Box d} {offset : Index d} (hne : ¬ b.Empty) :
    b.shift offset = .ok r ↔
      r = ⟨b.lo + offset, b.hi + offset⟩ ∧ r.IsInt := by
  simp only [shift, if_neg hne, bind_eq_ok, pure_eq_ok, forEachAxis_eq_ok, checkedIndex_eq_ok]
  constructor
  · rintro ⟨bounds, h, rfl⟩
    have hb : ∀ a, (bounds a).1 = b.lo a + offset a ∧ (bounds a).2 = b.hi a + offset a ∧
        Pops.IsInt (bounds a).1 ∧ Pops.IsInt (bounds a).2 := fun a => by
      obtain ⟨l, ⟨hl, rfl⟩, u, ⟨hu, rfl⟩, he⟩ := h a
      rw [← he]
      exact ⟨rfl, rfl, hl, hu⟩
    exact ⟨Box.ext (funext fun a => (hb a).1) (funext fun a => (hb a).2.1),
      fun a => ⟨(hb a).2.2.1, (hb a).2.2.2⟩⟩
  · rintro ⟨rfl, hr⟩
    exact ⟨fun a => (b.lo a + offset a, b.hi a + offset a),
      fun a => ⟨_, ⟨(hr a).1, rfl⟩, _, ⟨(hr a).2, rfl⟩, rfl⟩, rfl⟩

/-- A checked growth of a nonempty box along one axis moves both bounds of that axis. -/
lemma grow_eq_ok {b r : Box d} {axis : Fin d} {amount : ℤ} (hne : ¬ b.Empty) :
    b.grow axis amount = .ok r ↔
      Pops.IsInt (b.lo axis - amount) ∧ Pops.IsInt (b.hi axis + amount) ∧
        r = ⟨Function.update b.lo axis (b.lo axis - amount),
          Function.update b.hi axis (b.hi axis + amount)⟩ := by
  simp only [grow, if_neg hne, bind_eq_ok, pure_eq_ok, checkedIndex_eq_ok]
  constructor
  · rintro ⟨l, ⟨hl, rfl⟩, u, ⟨hu, rfl⟩, rfl⟩
    exact ⟨hl, hu, rfl⟩
  · rintro ⟨hl, hu, rfl⟩
    exact ⟨_, ⟨hl, rfl⟩, _, ⟨hu, rfl⟩, rfl⟩

end Box

end Pops
