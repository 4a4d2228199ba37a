import Pops.Foundation.CheckedArithmetic
import Pops.Mesh.Layout.BoxArray

/-!
# The arithmetic of the domain tiling

`BoxArray::from_domain` decodes every ordinal into one segment for each axis, in unsigned
arithmetic, and adds the segment to the signed lower bound of the domain.  Here the same statements
are run with every value held against the range of its type, and the result is compared with the
tiling.

## Main definitions

* `Pops.BoxArray.checkedTile` — the body of the loop over the ordinals.
* `Pops.BoxArray.checkedFromDomain` — `from_domain` with every value checked.

## Main results

* `Pops.BoxArray.checkedBounds_eq_ok` — the bounds of a tile stay in their types.
* `Pops.BoxArray.length_fromDomain` — the number of the tiles.
* `Pops.BoxArray.fromDomain_tiles` — the tiles partition the domain, and nothing overflows.
-/

namespace Pops.BoxArray

open Checked

variable {d : ℕ}

/-! ## The checked statements -/

/-- `domain.length(axis)`: the number of cells along an axis, refused if it leaves `int`. -/
def checkedLength (domain : Box d) (axis : Fin d) : Throws ℤ :=
  if domain.Empty then pure 0
  else do
    let difference ← int64 (domain.hi axis - domain.lo axis)
    int64 (difference + 1)

/-- The number of segments of one axis. -/
def checkedSegments (domain : Box d) (maxGridSize : Extent d) (axis : Fin d) : Throws ℕ := do
  let length ← uint64 (← checkedLength domain axis)
  let limit ← uint64 (maxGridSize axis)
  let last ← uint64 ((length : ℤ) - 1)
  let others ← quotient last limit
  uint64 (1 + others)

/-- The lower and the upper bound of a segment of one axis. -/
def checkedBounds (domain : Box d) (axis : Fin d) (segments segment : ℕ) : Throws (ℤ × ℤ) := do
  let length ← uint64 (← checkedLength domain axis)
  let base ← quotient length segments
  let rest ← remainder length segments
  let product ← uint64 (segment * base)
  let offset ← uint64 (product + if segment < rest then segment else rest)
  let width ← uint64 (base + if segment < rest then 1 else 0)
  let shift ← int64 offset
  let lower ← int64 (domain.lo axis + shift)
  let lo ← int32 lower
  let increase ← int64 width
  let behind ← int64 (lower + increase)
  let upper ← int64 (behind - 1)
  let hi ← int32 upper
  pure (lo, hi)

/-- The segments of an ordinal. -/
def checkedUnrank : {d : ℕ} → (segments : Fin d → ℕ) → (ordinal : ℕ) → Throws (Fin d → ℕ)
  | 0, _, _ => pure Fin.elim0
  | _ + 1, segments, ordinal => do
    let segment ← remainder ordinal (segments 0)
    let ordinal ← quotient ordinal (segments 0)
    let others ← checkedUnrank (Fin.tail segments) ordinal
    pure (Fin.cons segment others)

/-- The tile of an ordinal. -/
def checkedTile (domain : Box d) (segments : Fin d → ℕ) (ordinal : ℕ) : Throws (Box d) := do
  let segment ← checkedUnrank segments ordinal
  let bounds ← forEachAxis fun axis => checkedBounds domain axis (segments axis) (segment axis)
  pure ⟨fun axis => (bounds axis).1, fun axis => (bounds axis).2⟩

/-- `from_domain` with every value held against its type. -/
def checkedFromDomain (domain : Box d) (maxGridSize : Extent d) : Throws (List (Box d)) := do
  let _ ← forEachAxis fun axis => throwIf (maxGridSize axis ≤ 0)
    (invalidArgument "BoxArray max grid sizes must be strictly positive")
  if domain.Empty then pure []
  else
    let segments ← forEachAxis (checkedSegments domain maxGridSize)
    let tileCount ← (List.finRange d).foldlM (fun tileCount axis => do
      let most ← quotient sizeMax tileCount
      throwIf (segments axis > most) (lengthError "BoxArray tile count exceeds size_t")
      uint64 (tileCount * segments axis)) 1
    throwIf (tileCount > vectorMaxSize (8 * d))
      (lengthError "BoxArray tile count exceeds vector capacity")
    (List.range tileCount).mapM (checkedTile domain segments)

/-! ## The values stay in their types -/

section Bounds

variable {domain : Box d} {maxGridSize : Extent d}

/-- The length of an axis of a nonempty domain. -/
lemma checkedLength_eq_ok (hne : ¬ domain.Empty) (hint : domain.IsInt) (axis : Fin d) :
    checkedLength domain axis = .ok (domain.length axis) := by
  have hi := hint axis
  have hlength := Box.length_of_nonempty hne axis
  have hpos := Box.length_pos hne axis
  unfold IsInt intMin intMax at hi
  simp only [checkedLength, if_neg hne, bind_eq_ok, int64_eq_ok]
  unfold IsInt64 int64Min int64Max
  exact ⟨_, ⟨by omega, rfl⟩, by omega, hlength.symm⟩

/-- The length as an unsigned value. -/
lemma exists_length (hne : ¬ domain.Empty) (hint : domain.IsInt) (axis : Fin d) :
    ∃ length : ℕ, domain.length axis = length ∧ 0 < length ∧ length ≤ 4294967296 := by
  have hpos := Box.length_pos hne axis
  have hle := hint.length_le axis
  exact ⟨(domain.length axis).toNat, by omega, by omega, by omega⟩

/-- The segments of an axis are counted without overflow. -/
lemma checkedSegments_eq_ok (hne : ¬ domain.Empty) (hint : domain.IsInt) {axis : Fin d}
    (hpos : 0 < maxGridSize axis) (hmax : IsInt64 (maxGridSize axis)) :
    checkedSegments domain maxGridSize axis = .ok (segmentCount domain maxGridSize axis) := by
  obtain ⟨length, hlength, hlength0, hle⟩ := exists_length hne hint axis
  obtain ⟨limit, hlimit⟩ := Int.eq_ofNat_of_zero_le hpos.le
  have hquotient : (length - 1) / limit ≤ length - 1 := Nat.div_le_self _ _
  unfold IsInt64 int64Max at hmax
  simp only [checkedSegments, checkedLength_eq_ok hne hint, segmentCount, hlength,
    hlimit, bind_eq_ok, uint64_eq_ok, quotient_eq_ok, Int.toNat_natCast, sizeMax]
  refine ⟨_, rfl, length, ⟨by omega, rfl⟩, limit, ⟨by omega, rfl⟩, length - 1,
    ⟨by omega, by omega⟩, _, ⟨by omega, rfl⟩, by omega, by push_cast; rfl⟩

/-- The bounds of a tile stay in their types. -/
theorem checkedBounds_eq_ok (hne : ¬ domain.Empty) (hint : domain.IsInt)
    (hmax : ∀ a, 0 < maxGridSize a) {x : Fin d → ℕ} {a : Fin d}
    (hx : x a < segmentCount domain maxGridSize a) :
    checkedBounds domain a (segmentCount domain maxGridSize a) (x a) =
      .ok ((tile domain (segmentCount domain maxGridSize) x).lo a,
        (tile domain (segmentCount domain maxGridSize) x).hi a) := by
  obtain ⟨hlo, hhi⟩ := tile_bounds hne hint hmax hx
  obtain ⟨hwidth, hend, -⟩ := tileWidth_spec hne hmax hx
  have hk := segmentCount_pos domain maxGridSize a
  have hcell := Box.length_of_nonempty hne a
  have hi := hint a
  obtain ⟨length, hlength, hlength0, hle⟩ := exists_length hne hint a
  rw [hlo, hhi]
  unfold tileOffset tileWidth at *
  simp only [hlength, Int.toNat_natCast] at hwidth hend hcell ⊢
  generalize hoffset : BalancedSplit.offset length (segmentCount domain maxGridSize a) (x a) =
    offset
    at *
  generalize hsize : BalancedSplit.width length (segmentCount domain maxGridSize a) (x a) =
    width at *
  generalize segmentCount domain maxGridSize a = segments at *
  generalize x a = segment at *
  unfold BalancedSplit.offset at hoffset
  unfold BalancedSplit.width at hsize
  unfold IsInt intMin intMax at hi
  simp only [checkedBounds, checkedLength_eq_ok hne hint, hlength, bind_eq_ok, uint64_eq_ok,
    int64_eq_ok, int32_eq_ok, quotient_eq_ok, remainder_eq_ok, pure_eq_ok, sizeMax, Prod.mk.injEq]
  unfold IsInt64 int64Min int64Max IsInt intMin intMax
  refine ⟨_, rfl, length, ⟨by omega, rfl⟩, _, ⟨hk, rfl⟩, _, ⟨hk, rfl⟩,
    segment * (length / segments), ⟨by omega, by push_cast; rfl⟩, offset,
    ⟨by omega, by rw [← hoffset]; push_cast; rfl⟩, width,
    ⟨by omega, by rw [← hsize]; push_cast; rfl⟩, ?_⟩
  exact ⟨_, ⟨by omega, rfl⟩, _, ⟨by omega, rfl⟩, _, ⟨by omega, rfl⟩, _, ⟨by omega, rfl⟩, _,
    ⟨by omega, rfl⟩, _, ⟨by omega, rfl⟩, _, ⟨by omega, rfl⟩, rfl, rfl⟩

/-- The decoding of an ordinal divides by the numbers of segments only. -/
lemma checkedUnrank_eq_ok {d : ℕ} {segments : Fin d → ℕ} (hpos : ∀ a, 0 < segments a)
    (ordinal : ℕ) :
    checkedUnrank segments ordinal = .ok (MixedRadix.unrank segments ordinal) := by
  induction d generalizing ordinal with
  | zero => rfl
  | succ d ih =>
    have hstep : checkedUnrank segments ordinal = (do
        let segment ← remainder ordinal (segments 0)
        let ordinal ← quotient ordinal (segments 0)
        let others ← checkedUnrank (Fin.tail segments) ordinal
        pure (Fin.cons segment others)) := rfl
    simp only [hstep, bind_eq_ok, remainder_eq_ok, quotient_eq_ok, pure_eq_ok]
    exact ⟨_, ⟨hpos 0, rfl⟩, _, ⟨hpos 0, rfl⟩, _, ih (fun a => hpos a.succ) _, rfl⟩

/-- The body of the loop over the ordinals gives the tile. -/
lemma checkedTile_eq_ok (hne : ¬ domain.Empty) (hint : domain.IsInt)
    (hmax : ∀ a, 0 < maxGridSize a) (ordinal : ℕ) :
    checkedTile domain (segmentCount domain maxGridSize) ordinal =
      .ok (tile domain (segmentCount domain maxGridSize)
        (MixedRadix.unrank (segmentCount domain maxGridSize) ordinal)) := by
  have hpos := segmentCount_pos domain maxGridSize
  simp only [checkedTile, checkedUnrank_eq_ok hpos, bind_eq_ok, forEachAxis_eq_ok, pure_eq_ok]
  exact ⟨_, rfl, fun a => (_, _), fun a => checkedBounds_eq_ok hne hint hmax
    (MixedRadix.unrank_lt hpos ordinal a), rfl⟩

/-- A product that passes the guard of the loop over the axes is a `size_t`, and the divisor of the
guard is not zero. -/
lemma checkedCount_eq_ok {count : ℕ} {axes : List (Fin d)} : ∀ {start : ℕ}, 0 < start →
    axes.foldlM (fun tileCount axis => do
      throwIf (segmentCount domain maxGridSize axis > sizeMax / tileCount)
        (lengthError "BoxArray tile count exceeds size_t")
      pure (tileCount * segmentCount domain maxGridSize axis)) start = .ok count →
    axes.foldlM (fun tileCount axis => do
      let most ← quotient sizeMax tileCount
      throwIf (segmentCount domain maxGridSize axis > most)
        (lengthError "BoxArray tile count exceeds size_t")
      uint64 (tileCount * segmentCount domain maxGridSize axis)) start = .ok count := by
  induction axes with
  | nil => exact fun _ h => h
  | cons axis rest ih =>
    intro start hstart h
    have hpos := segmentCount_pos domain maxGridSize axis
    simp only [List.foldlM_cons, bind_eq_ok, throwIf_eq_ok, exists_const, pure_eq_ok] at h
    obtain ⟨next, ⟨hguard, rfl⟩, hrest⟩ := h
    have hfits : start * segmentCount domain maxGridSize axis ≤ sizeMax := by
      rw [Nat.mul_comm]
      exact (Nat.le_div_iff_mul_le hstart).mp (not_lt.mp hguard)
    simp only [List.foldlM_cons, bind_eq_ok, quotient_eq_ok, throwIf_eq_ok, exists_const,
      uint64_eq_ok]
    exact ⟨_, ⟨_, ⟨hstart, rfl⟩, hguard, hfits, by push_cast; rfl⟩,
      ih (Nat.mul_pos hstart hpos) hrest⟩

/-- **No value overflows**: with every value held against its type, `from_domain` returns the same
boxes. -/
theorem checkedFromDomain_eq_ok {array : BoxArray d} (hne : ¬ domain.Empty) (hint : domain.IsInt)
    (hmax : ∀ a, IsInt64 (maxGridSize a)) (h : fromDomain domain maxGridSize = .ok array) :
    checkedFromDomain domain maxGridSize = .ok array.boxes := by
  obtain ⟨hpos, -⟩ := fromDomain_eq_ok hne h
  simp only [fromDomain, bind_eq_ok, if_neg hne, pure_eq_ok] at h
  obtain ⟨checks, hchecks, count, hcount, _, hcapacity, rfl⟩ := h
  simp only [checkedFromDomain, bind_eq_ok, if_neg hne]
  refine ⟨checks, hchecks, segmentCount domain maxGridSize, ?_, count,
    checkedCount_eq_ok Nat.one_pos hcount, (), hcapacity, ?_⟩
  · rw [forEachAxis_eq_ok]
    exact fun a => checkedSegments_eq_ok hne hint (hpos a) (hmax a)
  · rw [mapM_eq_ok_iff (C := fun _ => True) (g := fun ordinal => tile domain
      (segmentCount domain maxGridSize)
      (MixedRadix.unrank (segmentCount domain maxGridSize) ordinal)) fun ordinal _ box => by
        rw [checkedTile_eq_ok hne hint hpos, Except.ok.injEq, true_and, eq_comm]]
    exact ⟨fun _ _ => trivial, rfl⟩

/-! ## The tiling -/

/-- The number of segments of an axis is its length over the maximum, rounded up. -/
lemma segmentCount_eq_ceil (hne : ¬ domain.Empty) {axis : Fin d} (hpos : 0 < maxGridSize axis) :
    (segmentCount domain maxGridSize axis : ℤ) =
      ⌈(domain.length axis : ℚ) / maxGridSize axis⌉ := by
  have hlength := Box.length_pos hne axis
  obtain ⟨length, hl⟩ := Int.eq_ofNat_of_zero_le hlength.le
  obtain ⟨limit, hm⟩ := Int.eq_ofNat_of_zero_le hpos.le
  rw [segmentCount, hl, hm, Int.toNat_natCast, Int.toNat_natCast]
  rw [hl] at hlength
  rw [hm] at hpos
  have hlimit : (0 : ℚ) < limit := by exact_mod_cast hpos
  have hdiv := Nat.div_add_mod (length - 1) limit
  have hmod := Nat.mod_lt (length - 1) (show limit > 0 by omega)
  generalize (length - 1) / limit = q at hdiv ⊢
  have hlow : q * limit < length := by
    rw [Nat.mul_comm]
    omega
  have hhigh : length ≤ (1 + q) * limit := by
    rw [Nat.add_mul, Nat.mul_comm q, Nat.one_mul]
    omega
  symm
  rw [Int.ceil_eq_iff]
  push_cast
  rw [lt_div_iff₀ hlimit, div_le_iff₀ hlimit]
  constructor
  · have : (q * limit : ℚ) < length := by exact_mod_cast hlow
    linarith
  · exact_mod_cast hhigh

/-- The number of tiles. -/
theorem length_fromDomain {array : BoxArray d} (hne : ¬ domain.Empty)
    (h : fromDomain domain maxGridSize = .ok array) :
    (array.boxes.length : ℤ) = ∏ a, ⌈(domain.length a : ℚ) / maxGridSize a⌉ := by
  obtain ⟨hpos, hboxes⟩ := fromDomain_eq_ok hne h
  rw [hboxes, List.length_map, MixedRadix.digits, List.length_map, List.length_range]
  push_cast
  exact Finset.prod_congr rfl fun a _ => segmentCount_eq_ceil hne (hpos a)

/-- The width of a tile on an axis. -/
lemma length_tile (hne : ¬ domain.Empty) (hint : domain.IsInt) (hmax : ∀ a, 0 < maxGridSize a)
    {x : Fin d → ℕ} (hx : ∀ a, x a < segmentCount domain maxGridSize a) (a : Fin d) :
    (tile domain (segmentCount domain maxGridSize) x).length a =
      tileWidth domain (segmentCount domain maxGridSize) x a := by
  obtain ⟨hlo, hhi⟩ := tile_bounds hne hint hmax (hx a)
  rw [Box.length_of_nonempty (tile_subset hne hint hmax hx).1, hlo, hhi]
  omega

/-- **The tiles of a domain.**  When `from_domain` returns on a nonempty domain, its boxes partition
the domain; their number is the product of the rounded-up quotients; on every axis the widths stay
below the maximum and differ by at most one; and no value of the computation leaves its type.

**Proof sketch.** Every tile is a product of segments of the balanced splits of the axes
(`fromDomain_partition`), whose widths are the quotient or one more; every value of the computation
is at most the length of its axis away from the lower bound (`checkedBounds_eq_ok`). -/
theorem fromDomain_tiles {array : BoxArray d} (hne : ¬ domain.Empty) (hint : domain.IsInt)
    (hmax : ∀ a, IsInt64 (maxGridSize a)) (h : fromDomain domain maxGridSize = .ok array) :
    array.Partitions domain ∧
      (array.boxes.length : ℤ) = ∏ a, ⌈(domain.length a : ℚ) / maxGridSize a⌉ ∧
      (∀ b ∈ array.boxes, ∀ a, b.length a ≤ maxGridSize a) ∧
      (∀ b ∈ array.boxes, ∀ c ∈ array.boxes, ∀ a, b.length a ≤ c.length a + 1) ∧
      checkedFromDomain domain maxGridSize = .ok array.boxes := by
  obtain ⟨hpos, hboxes⟩ := fromDomain_eq_ok hne h
  obtain ⟨hall, hdisjoint, hcells⟩ := fromDomain_partition hne hint h
  refine ⟨partitions_iff.mpr ⟨disjointWithin_iff.mpr ⟨fun b hb => ⟨(hall b hb).1, (hall b hb).2.1⟩,
    hdisjoint⟩, hcells⟩, length_fromDomain hne h, fun b hb => (hall b hb).2.2, ?_,
    checkedFromDomain_eq_ok hne hint hmax h⟩
  intro b hb c hc a
  rw [hboxes] at hb hc
  obtain ⟨x, hx, rfl⟩ := List.mem_map.mp hb
  obtain ⟨y, hy, rfl⟩ := List.mem_map.mp hc
  rw [length_tile hne hint hpos (MixedRadix.mem_digits.mp hx),
    length_tile hne hint hpos (MixedRadix.mem_digits.mp hy)]
  unfold tileWidth BalancedSplit.width
  split_ifs <;> omega

/-- Five cells from `-2` on, in tiles of at most two cells. -/
theorem fromDomain_tiles_five :
    ∃ array : BoxArray 1, fromDomain ⟨fun _ => -2, fun _ => 2⟩ (fun _ => 2) = .ok array ∧
      array.Partitions ⟨fun _ => -2, fun _ => 2⟩ ∧
      checkedFromDomain ⟨fun _ => -2, fun _ => 2⟩ (fun _ => 2) = .ok array.boxes := by
  cases h : (fromDomain ⟨fun _ => -2, fun _ => 2⟩ (fun _ => 2) : Throws (BoxArray 1)) with
  | error e =>
    exact absurd h (by
      intro h
      have : (fromDomain ⟨fun _ => -2, fun _ => 2⟩ (fun _ => 2) : Throws (BoxArray 1)).isOk =
          true := by
        decide +kernel
      rw [h] at this
      cases this)
  | ok array =>
    have htiles := fromDomain_tiles (by decide) (by decide) (by decide) h
    exact ⟨array, rfl, htiles.1, htiles.2.2.2.2⟩

end Bounds

end Pops.BoxArray
