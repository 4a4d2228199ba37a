import Pops.Mesh.Layout.BoxArray

/-!
# Process spaces and patch ownership

`pops::mesh::RankSpace`, the Cartesian process-coordinate space, and `pops::mesh::Distribution`,
the ownership of a `BoxArray` over it.  Both types keep the acceptance of their constructor as a
field, so a value that the constructor would have rejected cannot be built.

## Main definitions

* `Pops.RankSpace`, `RankSpace.linearRank`, `RankSpace.coordinate` — process coordinates and their
  linear order.
* `Pops.Distribution`, `Distribution.owner`, `Distribution.isLocal` — ownership.

## Main results

* `Pops.RankSpace.linearRank_injective` — a linear rank determines its coordinate.
* `Pops.Distribution.isLocal_partitioned` — in a partitioned distribution a patch is local
  exactly on its owner.
-/

namespace Pops

/-! ## Process spaces -/

/-- The checked number of process coordinates. -/
def RankSpace.checkedSize {d : ℕ} (origin : Index d) (extent : Extent d) : Throws ℕ := do
  let _ ← forEachAxis fun axis => do
    throwIf (extent axis < 0) (invalidArgument "RankSpace extents must be non-negative")
    throwIf (extent axis ≠ 0 ∧ extent axis - 1 > intMax - origin axis)
      (overflowError "RankSpace coordinate extent exceeds signed indices")
  if ∃ axis, extent axis = 0 then pure 0
  else (List.finRange d).foldlM (fun result axis => do
    throwIf (result > sizeMax / (extent axis).toNat)
      (overflowError "RankSpace size exceeds size_t")
    pure (result * (extent axis).toNat)) 1

/-- Half-open Cartesian process-coordinate space with axis 0 contiguous in linear rank order. -/
@[ext] structure RankSpace (d : ℕ) where
  origin : Index d
  extent : Extent d
  size : ℕ
  origin_isInt : ∀ a, IsInt (origin a)
  accepted : RankSpace.checkedSize origin extent = .ok size

namespace RankSpace

variable {d : ℕ}

instance : DecidableEq (RankSpace d) := fun space other =>
  decidable_of_iff (space.origin = other.origin ∧ space.extent = other.extent ∧
    space.size = other.size) RankSpace.ext_iff.symm

/-- The coordinate lies in the process space. -/
def Contains (space : RankSpace d) (coordinate : Index d) : Prop :=
  space.size ≠ 0 ∧ ∀ a, 0 ≤ coordinate a - space.origin a ∧
    coordinate a - space.origin a < space.extent a

instance (space : RankSpace d) (coordinate : Index d) : Decidable (space.Contains coordinate) :=
  inferInstanceAs (Decidable (_ ∧ _))

/-- The process coordinates of the space. -/
def ranks (space : RankSpace d) : Finset (Index d) :=
  (Box.mk space.origin fun a => space.origin a + space.extent a - 1).cells.filter space.Contains

/-- The process coordinates are the contained ones. -/
@[simp] lemma mem_ranks {space : RankSpace d} {c : Index d} :
    c ∈ space.ranks ↔ space.Contains c := by
  refine ⟨fun h => (Finset.mem_filter.mp h).2, fun h => Finset.mem_filter.mpr ⟨?_, h⟩⟩
  rw [Box.mem_cells]
  intro a
  have := h.2 a
  simp only
  omega

/-- The linear rank of a contained process coordinate. -/
def rankOf (space : RankSpace d) (coordinate : Index d) : ℕ :=
  MixedRadix.rankLoop (fun a => (space.extent a).toNat)
    (fun a => (coordinate a - space.origin a).toNat) 0 1

/-- The checked linear rank of a process coordinate. -/
def linearRank (space : RankSpace d) (coordinate : Index d) : Throws ℕ := do
  throwIf (¬ space.Contains coordinate)
    (outOfRange "RankSpace coordinate is outside the process space")
  pure (space.rankOf coordinate)

/-- The process coordinate of a linear rank. -/
def coordinate (space : RankSpace d) (rank : ℕ) : Throws (Index d) := do
  throwIf (rank ≥ space.size) (outOfRange "RankSpace linear rank is outside the process space")
  pure fun axis => castInt (space.origin axis +
    MixedRadix.unrank (fun a => (space.extent a).toNat) rank axis)

/-- The linear rank of a contained coordinate. -/
lemma linearRank_eq_ok {space : RankSpace d} {c : Index d} {n : ℕ} :
    space.linearRank c = .ok n ↔ space.Contains c ∧ space.rankOf c = n := by
  simp [linearRank]

/-- The linear rank in mixed radix. -/
lemma rankOf_eq (space : RankSpace d) (c : Index d) :
    space.rankOf c = MixedRadix.rank (fun a => (space.extent a).toNat)
      fun a => (c a - space.origin a).toNat := by
  rw [rankOf, MixedRadix.rankLoop_eq, Nat.zero_add, Nat.one_mul]

/-- A linear rank determines its coordinate. -/
theorem linearRank_injective {space : RankSpace d} {c c' : Index d} {n : ℕ}
    (h : space.linearRank c = .ok n) (h' : space.linearRank c' = .ok n) : c = c' := by
  obtain ⟨⟨_, hc⟩, hn⟩ := linearRank_eq_ok.mp h
  obtain ⟨⟨_, hc'⟩, hn'⟩ := linearRank_eq_ok.mp h'
  rw [rankOf_eq] at hn hn'
  have hdigits := congrArg (MixedRadix.unrank fun a => (space.extent a).toNat) (hn.trans hn'.symm)
  rw [MixedRadix.unrank_rank (fun a => by have := hc a; omega),
    MixedRadix.unrank_rank (fun a => by have := hc' a; omega)] at hdigits
  funext a
  have h1 := hc a
  have h2 := hc' a
  have h3 := congrFun hdigits a
  omega

/-- The size of a nonempty process space is the product of its extents, and its coordinates stay
in the range of `int`. -/
lemma size_spec {space : RankSpace d} (h : space.size ≠ 0) :
    space.size = ∏ a, (space.extent a).toNat ∧
      ∀ a, space.origin a + space.extent a - 1 ≤ intMax := by
  have hacc := space.accepted
  simp only [checkedSize, bind_eq_ok, forEachAxis_eq_ok, throwIf_eq_ok, exists_const] at hacc
  obtain ⟨haxis, hsize⟩ := hacc
  split_ifs at hsize with hzero
  · simp only [pure_eq_ok] at hsize
    exact absurd hsize.symm h
  · have hprod := foldlM_invariant
      (P := fun done (r : ℕ) => r = (done.map fun a => (space.extent a).toNat).prod) hsize rfl
      (fun done a rest s s' _ hs hstep => by
        simp only [bind_eq_ok, throwIf_eq_ok, exists_const, pure_eq_ok] at hstep
        rw [← hstep.2, hs]
        simp)
    refine ⟨?_, fun a => ?_⟩
    · rw [hprod, ← List.prod_ofFn, List.ofFn_eq_map]
    · obtain ⟨_, hupper⟩ := haxis a
      have hne : space.extent a ≠ 0 := fun h0 => hzero ⟨a, h0⟩
      omega

/-- The process with the linear rank of a contained coordinate has that coordinate. -/
lemma coordinate_rankOf {space : RankSpace d} {c : Index d} (h : space.Contains c) :
    space.coordinate (space.rankOf c) = .ok c := by
  obtain ⟨hsize, hupper⟩ := size_spec h.1
  have hlt : ∀ a, (c a - space.origin a).toNat < (space.extent a).toNat := by
    intro a
    have := h.2 a
    omega
  have hrank := space.rankOf_eq c
  have hbound : space.rankOf c < space.size := by
    rw [hrank, hsize]
    exact MixedRadix.rank_lt hlt
  simp only [coordinate, bind_eq_ok, throwIf_eq_ok, exists_const, pure_eq_ok]
  refine ⟨by omega, funext fun a => ?_⟩
  have hca := h.2 a
  have hmax := hupper a
  have horigin := (space.origin_isInt a).1
  rw [hrank, MixedRadix.unrank_rank hlt, Int.toNat_of_nonneg hca.1, add_sub_cancel]
  exact castInt_of_isInt ⟨by omega, by omega⟩

end RankSpace

/-! ## Ownership -/

/-- How the patches of a layout are stored over the process space. -/
inductive DistributionMode
  | partitioned
  | replicated
  deriving DecidableEq, Repr

/-- The checks of the `Distribution` constructor. -/
def Distribution.validate {d : ℕ} (layout : BoxArray d) (rankSpace : RankSpace d)
    (mode : DistributionMode) (owners : List (Index d)) : Throws Unit := do
  throwIf (layout.boxes ≠ [] ∧ rankSpace.size = 0)
    (invalidArgument "a non-empty Distribution requires a non-empty rank space")
  match mode with
  | .replicated =>
    throwIf (owners ≠ [])
      (invalidArgument "a replicated Distribution must not store unique owners")
  | .partitioned =>
    throwIf (owners.length ≠ layout.boxes.length)
      (invalidArgument "Distribution owner count must equal its patch count")
    throwIf (∃ owner ∈ owners, ¬ rankSpace.Contains owner)
      (outOfRange "Distribution owner is outside the process space")

/-- Ordered ownership of a `BoxArray`; replicated layouts have no unique owners. -/
structure Distribution (d : ℕ) where
  layout : BoxArray d
  rankSpace : RankSpace d
  mode : DistributionMode
  owners : List (Index d)
  accepted : Distribution.validate layout rankSpace mode owners = .ok ()
  deriving DecidableEq

namespace Distribution

variable {d : ℕ}

/-- The distribution is replicated. -/
def Replicated (dist : Distribution d) : Prop := dist.mode = .replicated

instance (dist : Distribution d) : Decidable dist.Replicated :=
  inferInstanceAs (Decidable (_ = _))

/-- The distribution that stores every patch on its own owner. -/
def partitioned (layout : BoxArray d) (rankSpace : RankSpace d) (owners : List (Index d)) :
    Throws (Distribution d) :=
  match h : validate layout rankSpace .partitioned owners with
  | .ok () => .ok ⟨layout, rankSpace, .partitioned, owners, h⟩
  | .error e => .error e

/-- The distribution that stores every patch on every rank. -/
def replicated (layout : BoxArray d) (rankSpace : RankSpace d) : Throws (Distribution d) :=
  match h : validate layout rankSpace .replicated [] with
  | .ok () => .ok ⟨layout, rankSpace, .replicated, [], h⟩
  | .error e => .error e

/-- The unique owner of a patch. -/
def owner (dist : Distribution d) (globalBox : ℕ) : Throws (Index d) := do
  throwIf (globalBox ≥ dist.layout.boxes.length)
    (outOfRange "Distribution global patch index is outside the layout")
  throwIf dist.Replicated (logicError "replicated Distribution layouts have no unique owner")
  pure (dist.owners.getD globalBox 0)

/-- The patch is stored on the rank. -/
def isLocal (dist : Distribution d) (globalBox : ℕ) (rank : Index d) : Throws Bool := do
  throwIf (globalBox ≥ dist.layout.boxes.length)
    (outOfRange "Distribution global patch index is outside the layout")
  throwIf (¬ dist.rankSpace.Contains rank)
    (outOfRange "Distribution rank coordinate is outside the process space")
  pure (decide (dist.Replicated ∨ dist.owners.getD globalBox 0 = rank))

/-- The patches stored on a rank, in global order. -/
def localBoxIndices (dist : Distribution d) (rank : Index d) : Throws (List ℕ) := do
  throwIf (¬ dist.rankSpace.Contains rank)
    (outOfRange "Distribution rank coordinate is outside the process space")
  pure ((List.range dist.layout.boxes.length).filter fun globalBox =>
    dist.Replicated ∨ dist.owners.getD globalBox 0 = rank)

/-- The owner of a patch of a partitioned distribution, read off the owner list. -/
def ownerOf (dist : Distribution d) (globalBox : ℕ) : Index d := dist.owners.getD globalBox 0

/-- A partitioned distribution stores one contained owner for every patch. -/
lemma partitioned_spec {dist : Distribution d} (hp : ¬ dist.Replicated) :
    dist.owners.length = dist.layout.boxes.length ∧
      ∀ owner ∈ dist.owners, dist.rankSpace.Contains owner := by
  have hacc := dist.accepted
  unfold validate at hacc
  have hmode : dist.mode = .partitioned := by
    unfold Replicated at hp
    cases hm : dist.mode with
    | partitioned => rfl
    | replicated => exact absurd hm hp
  rw [hmode] at hacc
  simp only [bind_eq_ok, throwIf_eq_ok, not_exists, not_and, not_not, ne_eq] at hacc
  obtain ⟨_, _, _, hlen, hin⟩ := hacc
  exact ⟨hlen, hin⟩

/-- The owner of a patch of a partitioned distribution is a process coordinate. -/
lemma contains_ownerOf {dist : Distribution d} (hp : ¬ dist.Replicated) {globalBox : ℕ}
    (h : globalBox < dist.layout.boxes.length) :
    dist.rankSpace.Contains (dist.ownerOf globalBox) := by
  obtain ⟨hlen, hin⟩ := partitioned_spec hp
  unfold ownerOf
  rw [List.getD_eq_getElem _ _ (by omega)]
  exact hin _ (List.getElem_mem _)

/-- In a partitioned distribution the owner of a patch is its stored owner. -/
lemma owner_partitioned {dist : Distribution d} (hp : ¬ dist.Replicated) {globalBox : ℕ}
    (h : globalBox < dist.layout.boxes.length) :
    dist.owner globalBox = .ok (dist.ownerOf globalBox) := by
  simp only [owner, bind_eq_ok, throwIf_eq_ok, pure_eq_ok]
  exact ⟨(), by omega, (), hp, rfl⟩

/-- In a partitioned distribution a patch is local exactly on its owner. -/
theorem isLocal_partitioned {dist : Distribution d} (hp : ¬ dist.Replicated) {globalBox : ℕ}
    (h : globalBox < dist.layout.boxes.length) {rank : Index d}
    (hr : dist.rankSpace.Contains rank) :
    dist.isLocal globalBox rank = .ok (decide (dist.ownerOf globalBox = rank)) := by
  simp only [isLocal, bind_eq_ok, throwIf_eq_ok, pure_eq_ok]
  exact ⟨(), by omega, (), not_not.mpr hr, by simp [hp, ownerOf]⟩

/-- In a replicated distribution every patch is local on every rank. -/
lemma isLocal_replicated {dist : Distribution d} (hrep : dist.Replicated) {globalBox : ℕ}
    (h : globalBox < dist.layout.boxes.length) {rank : Index d}
    (hr : dist.rankSpace.Contains rank) : dist.isLocal globalBox rank = .ok true := by
  simp only [isLocal, bind_eq_ok, throwIf_eq_ok, pure_eq_ok]
  exact ⟨(), by omega, (), not_not.mpr hr, by simp [hrep]⟩

end Distribution

/-! ## A line of cells

A small one-dimensional instance, used to instantiate the general results. -/

/-- The one-dimensional box `[lo, hi]`. -/
def Box.line (lo hi : ℤ) : Box 1 := ⟨fun _ => lo, fun _ => hi⟩

/-- The process space with ranks `0` and `1`. -/
def RankSpace.line : RankSpace 1 where
  origin _ := 0
  extent _ := 2
  size := 2
  origin_isInt := by decide
  accepted := by decide +kernel

/-- The patches `[0, 1]` and `[2, 3]`. -/
def BoxArray.line : BoxArray 1 := ⟨[Box.line 0 1, Box.line 2 3], by decide +kernel⟩

/-- The patches `[0, 1]` and `[2, 3]`, owned by the ranks `0` and `1`. -/
def Distribution.line : Distribution 1 where
  layout := BoxArray.line
  rankSpace := RankSpace.line
  mode := .partitioned
  owners := [fun _ => 0, fun _ => 1]
  accepted := by decide +kernel

/-- The single patch `[0, 3]`, owned by rank `0`. -/
def Distribution.wholeLine : Distribution 1 where
  layout := ⟨[Box.line 0 3], by decide +kernel⟩
  rankSpace := RankSpace.line
  mode := .partitioned
  owners := [fun _ => 0]
  accepted := by decide +kernel

end Pops
