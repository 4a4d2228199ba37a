import Pops.Amr.Tagging.BergerRigoutsos

/-!
# What a clustering reads of the tags

The authenticated shards of a level stand for one finite set of tagged cells, whatever their order,
the order of their patches and their distribution are.  Everything that the recursion reads is a
function of that set: a scan is its tight box and its number of cells in a region, a signature is
the number of its cells in every plane.

## Main definitions

* `Pops.TagUnion.Holds` — the shards hold a set of tagged cells.
* `Pops.Tight` — the bounding box of a set of cells.
* `Pops.planeCounts` — the number of cells in every plane of a region.

## Main results

* `Pops.authenticateShards_spec` — authenticated shards hold the union of their tags.
* `Pops.scan_spec`, `signatures_spec` — what is read of the set.
-/

namespace Pops

variable {d : ℕ}

/-- The shards hold a set of tagged cells: a visit sees every tagged cell of its region once. -/
def TagUnion.Holds (mask : TagUnion d) (T : Finset (Index d)) : Prop :=
  ∀ region : Box d, region.IsInt → ∃ visits, mask.forEachCellIn region = .ok visits ∧
    (visits.map Prod.fst).Nodup ∧ ∀ i, (i, true) ∈ visits ↔ i ∈ region.cells ∧ i ∈ T

/-- The box is the bounding box of the cells. -/
def Tight (S : Finset (Index d)) (b : Box d) : Prop :=
  (∀ i ∈ S, i ∈ b.cells) ∧ ∀ a, (∃ i ∈ S, i a = b.lo a) ∧ ∃ i ∈ S, i a = b.hi a

/-- The number of cells in every plane of the region across an axis. -/
def planeCounts (S : Finset (Index d)) (region : Box d) (axis : Fin d) : List ℕ :=
  (List.range (region.length axis).toNat).map fun k =>
    (S.filter fun i => (i axis - region.lo axis).toNat = k).card

/-- The tagged cells that a visit sees. -/
def taggedOf (visits : List (Index d × Bool)) : List (Index d) :=
  (visits.filter fun visit => visit.2).map Prod.fst

/-- The cells that a scan reports tagged. -/
@[simp] lemma mem_taggedOf {visits : List (Index d × Bool)} {i : Index d} :
    i ∈ taggedOf visits ↔ (i, true) ∈ visits := by
  simp [taggedOf]

/-- A visit of different cells sees different tagged cells. -/
lemma nodup_taggedOf {visits : List (Index d × Bool)} (h : (visits.map Prod.fst).Nodup) :
    (taggedOf visits).Nodup :=
  h.sublist (List.filter_sublist.map Prod.fst)

/-- The tagged cells of a visit that goes on. -/
lemma taggedOf_append (visits : List (Index d × Bool)) (v : Index d × Bool) :
    taggedOf (visits ++ [v]) = if v.2 = false then taggedOf visits
    else taggedOf visits ++ [v.1] := by
  cases hv : v.2 <;> simp [taggedOf, List.filter_append, hv]

/-- What a visit of a held set sees: its cells in the region. -/
lemma taggedOf_toFinset {visits : List (Index d × Bool)} {T : Finset (Index d)} {region : Box d}
    (h : ∀ i, (i, true) ∈ visits ↔ i ∈ region.cells ∧ i ∈ T) :
    (taggedOf visits).toFinset = T ∩ region.cells := by
  ext i
  rw [List.mem_toFinset, mem_taggedOf, h, Finset.mem_inter, and_comm]

/-! ## The bounding box -/

namespace Tight

/-- A set has one bounding box. -/
theorem unique {S : Finset (Index d)} {b c : Box d} (hb : Tight S b) (hc : Tight S c) : b = c := by
  refine Box.ext (funext fun a => ?_) (funext fun a => ?_)
  · obtain ⟨i, hi, hib⟩ := (hb.2 a).1
    obtain ⟨j, hj, hjc⟩ := (hc.2 a).1
    have h1 := Box.mem_cells.mp (hc.1 i hi) a
    have h2 := Box.mem_cells.mp (hb.1 j hj) a
    omega
  · obtain ⟨i, hi, hib⟩ := (hb.2 a).2
    obtain ⟨j, hj, hjc⟩ := (hc.2 a).2
    have h1 := Box.mem_cells.mp (hc.1 i hi) a
    have h2 := Box.mem_cells.mp (hb.1 j hj) a
    omega

/-- The bounding box of cells of a box lies in the box. -/
lemma subset {S : Finset (Index d)} {b c : Box d} (hb : Tight S b) (hS : S ⊆ c.cells) :
    b.cells ⊆ c.cells := by
  intro i hi
  refine Box.mem_cells.mpr fun a => ?_
  have hia := Box.mem_cells.mp hi a
  obtain ⟨⟨l, hl, hlo⟩, ⟨u, hu, hhi⟩⟩ := hb.2 a
  have h1 := Box.mem_cells.mp (hS hl) a
  have h2 := Box.mem_cells.mp (hS hu) a
  omega

/-- The bounding box of some cells is not empty. -/
lemma nonempty {S : Finset (Index d)} {b : Box d} (hb : Tight S b) (hS : S.Nonempty) :
    ¬ b.Empty := by
  obtain ⟨i, hi⟩ := hS
  exact Box.not_empty_of_mem (hb.1 i hi)

/-- Every set of cells has a bounding box. -/
lemma exists_tight {S : Finset (Index d)} (hS : S.Nonempty) : ∃ b, Tight S b := by
  refine ⟨⟨fun a => S.inf' hS fun i => i a, fun a => S.sup' hS fun i => i a⟩, fun i hi => ?_,
    fun a => ⟨?_, ?_⟩⟩
  · exact Box.mem_cells.mpr fun a =>
      ⟨Finset.inf'_le (fun i => i a) hi, Finset.le_sup' (fun i => i a) hi⟩
  · obtain ⟨i, hi, h⟩ := Finset.exists_mem_eq_inf' hS fun i => i a
    exact ⟨i, hi, h.symm⟩
  · obtain ⟨i, hi, h⟩ := Finset.exists_mem_eq_sup' hS fun i => i a
    exact ⟨i, hi, h.symm⟩

end Tight

/-- The fold of a scan: the number of tagged cells, and their bounding box once there is one. -/
lemma foldl_observe (visits : List (Index d × Bool)) :
    let state := visits.foldl observe (⟨⟨0, fun _ => -1⟩, 0⟩, false)
    state.1.tagged = (taggedOf visits).length ∧ (state.2 = true ↔ taggedOf visits ≠ []) ∧
      (taggedOf visits ≠ [] → Tight (taggedOf visits).toFinset state.1.bounds) := by
  induction visits using List.reverseRecOn with
  | nil => simp [taggedOf]
  | append_singleton visits v ih =>
    simp only [List.foldl_append, List.foldl_cons, List.foldl_nil, taggedOf_append]
    generalize visits.foldl observe (⟨⟨0, fun _ => -1⟩, 0⟩, false) = state at ih
    obtain ⟨hcount, hfound, htight⟩ := ih
    unfold observe
    split_ifs with hv hfirst
    · exact ⟨hcount, hfound, htight⟩
    · have hnil : taggedOf visits = [] := by
        by_contra hne
        rw [hfound.mpr hne] at hfirst
        cases hfirst
      rw [hnil] at hcount ⊢
      refine ⟨by simp [hcount], by simp, fun _ => ⟨fun i hi => ?_, fun a => ?_⟩⟩
      · simp only [List.nil_append, List.toFinset_cons, List.toFinset_nil, insert_empty_eq,
          Finset.mem_singleton] at hi
        subst hi
        simp
      · simp
    · have hne : taggedOf visits ≠ [] := hfound.mp (by simpa using hfirst)
      obtain ⟨hin, hreach⟩ := htight hne
      have hkeep : ∀ i ∈ (taggedOf visits).toFinset, i ∈ (taggedOf visits ++ [v.1]).toFinset :=
        fun i hi => List.mem_toFinset.mpr (List.mem_append_left _ (List.mem_toFinset.mp hi))
      refine ⟨by simp [hcount], by simp, fun _ => ⟨fun i hi => ?_, fun a => ⟨?_, ?_⟩⟩⟩
      · rw [List.mem_toFinset, List.mem_append, List.mem_singleton] at hi
        refine Box.mem_cells.mpr fun a => ?_
        rcases hi with hi | rfl
        · have := Box.mem_cells.mp (hin i (List.mem_toFinset.mpr hi)) a
          simp only
          omega
        · simp only
          omega
      · obtain ⟨i, hi, hia⟩ := (hreach a).1
        rcases le_total (state.1.bounds.lo a) (v.1 a) with hle | hle
        · exact ⟨i, hkeep i hi, by simp only; omega⟩
        · exact ⟨v.1, by simp, by simp only; omega⟩
      · obtain ⟨i, hi, hia⟩ := (hreach a).2
        rcases le_total (v.1 a) (state.1.bounds.hi a) with hle | hle
        · exact ⟨i, hkeep i hi, by simp only; omega⟩
        · exact ⟨v.1, by simp, by simp only; omega⟩

/-! ## The signatures -/

/-- The fold of the signatures along one axis: every entry counts the tagged cells of its plane. -/
lemma getD_foldl_countCell (region : Box d) (visits : List (Index d × Bool)) (axis : Fin d) :
    ∀ start : Fin d → List ℕ, (visits.foldl (countCell region) start axis).length =
        (start axis).length ∧
      ∀ k < (start axis).length, (visits.foldl (countCell region) start axis).getD k 0 =
        (start axis).getD k 0 +
          (taggedOf visits).countP fun i => decide ((i axis - region.lo axis).toNat = k) := by
  induction visits with
  | nil => simp [taggedOf]
  | cons v visits ih =>
    intro start
    rw [List.foldl_cons]
    obtain ⟨hlength, hcount⟩ := ih (countCell region start v)
    have htagged : taggedOf (v :: visits) =
        if v.2 = false then taggedOf visits else v.1 :: taggedOf visits := by
      cases hv : v.2 <;> simp [taggedOf, hv]
    rw [htagged]
    unfold countCell at *
    split_ifs at * with hv
    · exact ⟨hlength, hcount⟩
    · rw [List.length_modify] at hlength hcount
      refine ⟨hlength, fun k hk => ?_⟩
      rw [hcount k hk, List.countP_cons]
      simp only [List.getD_eq_getElem?_getD, List.getElem?_modify,
        List.getElem?_eq_getElem hk]
      by_cases hplane : (v.1 axis - region.lo axis).toNat = k
      · simp only [hplane, decide_true, if_true, Option.map_eq_map, Option.map_some,
          Option.getD_some]
        omega
      · simp [hplane]

/-- The number of tagged cells that satisfy a condition. -/
lemma countP_taggedOf {visits : List (Index d × Bool)} (h : (visits.map Prod.fst).Nodup)
    (p : Index d → Bool) :
    (taggedOf visits).countP p = ((taggedOf visits).toFinset.filter fun i => p i = true).card := by
  rw [List.countP_eq_length_filter, ← List.toFinset_filter,
    List.toFinset_card_of_nodup ((nodup_taggedOf h).filter _)]

/-- The signatures of a visit of a region. -/
lemma foldl_countCell {region : Box d} {visits : List (Index d × Bool)}
    (h : (visits.map Prod.fst).Nodup) :
    visits.foldl (countCell region) (fun axis => List.replicate (region.length axis).toNat 0) =
      planeCounts (taggedOf visits).toFinset region := by
  funext axis
  obtain ⟨hlength, hcount⟩ := getD_foldl_countCell region visits axis
    fun axis => List.replicate (region.length axis).toNat 0
  rw [List.length_replicate] at hlength hcount
  refine List.ext_getElem (by simp [planeCounts, hlength]) fun k hk hk' => ?_
  have hlt : k < (region.length axis).toNat := by omega
  have hentry := hcount k hlt
  rw [List.getD_eq_getElem _ _ hk, countP_taggedOf h] at hentry
  rw [hentry]
  simp [planeCounts, List.getD_eq_getElem?_getD, hlt]

/-! ## Reading a held set -/

/-- Accounting cells keeps the budgets and the number of nodes. -/
lemma accountCells_spec {mask : TagUnion d} {region : Box d} {work after : ClusterWork}
    (h : mask.accountCells region work = .ok after) :
    after.allowed = work.allowed ∧ after.nodes = work.nodes := by
  refine foldlM_invariant
    (P := fun _ (w : ClusterWork) => w.allowed = work.allowed ∧
      w.nodes = work.nodes) h ⟨rfl, rfl⟩ ?_
  intro _ _ _ w w' _ hw hstep
  simp only [ClusterWork.visitCells, bind_eq_ok, throwIf_eq_ok, exists_const, pure_eq_ok] at hstep
  obtain ⟨_, _, _, rfl⟩ := hstep
  exact hw

section Held

variable {mask : TagUnion d} {T : Finset (Index d)} {region : Box d} {work after : ClusterWork}

/-- A scan returns the bounding box and the number of the tagged cells of the region. -/
theorem scan_spec (hmask : mask.Holds T) (hregion : region.IsInt) {found : Scan d}
    (h : scan mask region work = .ok (found, after)) :
    found.tagged = (T ∩ region.cells).card ∧
      ((T ∩ region.cells).Nonempty → Tight (T ∩ region.cells) found.bounds) ∧
      after.allowed = work.allowed ∧ after.nodes = work.nodes := by
  simp only [scan, bind_eq_ok, pure_eq_ok, Prod.mk.injEq] at h
  obtain ⟨accounted, haccounted, visits, hvisits, rfl, rfl⟩ := h
  obtain ⟨visits', hvisits', hnodup, hmem⟩ := hmask region hregion
  obtain rfl := Except.ok.inj (hvisits.symm.trans hvisits')
  obtain ⟨hcount, -, htight⟩ := foldl_observe visits
  have hset := taggedOf_toFinset hmem
  refine ⟨?_, fun hne => ?_, accountCells_spec haccounted⟩
  · rw [hcount, ← hset, List.toFinset_card_of_nodup (nodup_taggedOf hnodup)]
  · rw [← hset] at hne ⊢
    refine htight fun hnil => ?_
    simp [hnil] at hne

/-- The signatures count the tagged cells of the planes of the region; no axis is too long. -/
theorem signatures_spec (hmask : mask.Holds T) (hregion : region.IsInt) {counts : Fin d → List ℕ}
    (h : signatures mask region work = .ok (counts, after)) :
    counts = planeCounts (T ∩ region.cells) region ∧ (∀ a, region.length a ≤ intMax) ∧
      after.allowed = work.allowed ∧ after.nodes = work.nodes := by
  simp only [signatures, bind_eq_ok, forEachAxis_eq_ok, throwIf_eq_ok, exists_const, pure_eq_ok,
    Prod.mk.injEq] at h
  obtain ⟨accounted, haccounted, zeros, hzeros, visits, hvisits, rfl, rfl⟩ := h
  obtain ⟨visits', hvisits', hnodup, hmem⟩ := hmask region hregion
  obtain rfl := Except.ok.inj (hvisits.symm.trans hvisits')
  have hstart : zeros = fun axis => List.replicate (region.length axis).toNat 0 :=
    funext fun a => (hzeros a).2.symm
  refine ⟨?_, fun a => not_lt.mp (hzeros a).1, accountCells_spec haccounted⟩
  rw [hstart, foldl_countCell hnodup, taggedOf_toFinset hmem]

end Held

/-! ## Authenticated shards -/

/-- The cells that some shard tags. -/
def taggedUnion (shards : List (TagMask d)) : Finset (Index d) :=
  Cover.union (shards.map TagMask.taggedCells)

/-- A cell is tagged when it is in some shard. -/
@[simp] lemma mem_taggedUnion {shards : List (TagMask d)} {i : Index d} :
    i ∈ taggedUnion shards ↔ ∃ shard ∈ shards, i ∈ shard.taggedCells := by
  simp [taggedUnion]

/-- The claims of the patches of a shard: none was seen before, and they are the ones seen now. -/
lemma foldlM_claims {source : LevelLayoutIdentity d} {rank : Index d}
    {patches : List (PatchTags d)} :
    ∀ {seen after : List Bool}, seen.length = source.patches.length →
      patches.foldlM (claimPatch source rank) seen = .ok after →
      after.length = source.patches.length ∧
        (∀ p ∈ patches, seen.getD p.globalPatch false = false) ∧
        ∀ g, after.getD g false = true ↔
          seen.getD g false = true ∨ ∃ p ∈ patches, p.globalPatch = g := by
  induction patches with
  | nil =>
    intro seen after hlength h
    obtain rfl := pure_eq_ok.mp h
    simp [hlength]
  | cons patch rest ih =>
    intro seen after hlength h
    simp only [claimPatch, List.foldlM_cons, bind_eq_ok, throwIf_eq_ok, exists_const, pure_eq_ok,
      not_or, Bool.not_eq_true] at h
    obtain ⟨_, ⟨⟨hlt, -⟩, ⟨-, hseen⟩, rfl⟩, hrest⟩ := h
    obtain ⟨hafter, hnew, hiff⟩ := ih (by rw [List.length_set, hlength]) hrest
    have hset : ∀ g, (seen.set patch.globalPatch true).getD g false = true ↔
        seen.getD g false = true ∨ patch.globalPatch = g := fun g => by
      simp only [List.getD_eq_getElem?_getD, List.getElem?_set]
      by_cases hg : patch.globalPatch = g
      · subst hg
        rw [if_pos rfl, if_pos (by omega)]
        simp
      · simp [hg]
    refine ⟨hafter, ?_, fun g => ?_⟩
    · rw [List.forall_mem_cons]
      refine ⟨hseen, fun p hp => ?_⟩
      have hp' := hnew p hp
      by_contra htrue
      rw [Bool.not_eq_false] at htrue
      rw [(hset _).mpr (.inl htrue)] at hp'
      cases hp'
    · rw [hiff, hset]
      simp [or_assoc]

/-- The shards of a partitioned level hold different patches. -/
lemma pairwise_of_claims {source : LevelLayoutIdentity d} {canonical : List (TagMask d)} :
    ∀ {seen after : List Bool}, seen.length = source.patches.length →
      canonical.foldlM (claimPatches source) seen = .ok after →
      (∀ shard ∈ canonical, ∀ p ∈ shard.patches, seen.getD p.globalPatch false = false) ∧
        canonical.Pairwise fun s t => ∀ p ∈ s.patches, ∀ q ∈ t.patches,
          p.globalPatch ≠ q.globalPatch := by
  induction canonical with
  | nil => intro _ _ _ _; simp
  | cons shard rest ih =>
    intro seen after hlength h
    simp only [List.foldlM_cons, bind_eq_ok] at h
    obtain ⟨next, hnext, hrest⟩ := h
    obtain ⟨hnextLength, hfresh, hiff⟩ := foldlM_claims hlength hnext
    obtain ⟨hlater, hpairs⟩ := ih hnextLength hrest
    have hnot : ∀ t ∈ rest, ∀ q ∈ t.patches, ¬ next.getD q.globalPatch false = true :=
      fun t ht q hq => by rw [hlater t ht q hq]; simp
    refine ⟨?_, List.pairwise_cons.mpr ⟨fun t ht p hp q hq heq => ?_, hpairs⟩⟩
    · rw [List.forall_mem_cons]
      refine ⟨hfresh, fun t ht q hq => ?_⟩
      by_contra htrue
      rw [Bool.not_eq_false] at htrue
      exact hnot t ht q hq ((hiff _).mpr (.inl htrue))
    · exact hnot t ht q hq ((hiff _).mpr (.inr ⟨p, hp, heq⟩))

/-- Shards of one level with different patches hold different cells. -/
lemma disjoint_of_patches {s t : TagMask d} (hlevel : s.levelIdentity = t.levelIdentity)
    (h : ∀ p ∈ s.patches, ∀ q ∈ t.patches, p.globalPatch ≠ q.globalPatch) :
    Disjoint s.cells t.cells := by
  rw [Finset.disjoint_left]
  intro i hs ht
  obtain ⟨p, hp, hip⟩ := TagMask.mem_cells.mp hs
  obtain ⟨q, hq, hiq⟩ := TagMask.mem_cells.mp ht
  obtain ⟨level, hid, -⟩ := s.built
  have hpBox := s.boxes p hp
  have hqBox := t.boxes q hq
  rw [← hlevel] at hqBox
  rw [← hid] at hpBox hqBox
  exact Finset.disjoint_left.mp (level.disjoint_of_ne hpBox hqBox (h p hp q hq)) hip hiq

/-- A tagged cell of a mask is one of its cells. -/
lemma TagMask.taggedCells_subset (mask : TagMask d) : mask.taggedCells ⊆ mask.cells := by
  intro i hi
  obtain ⟨p, hp, hcell, -⟩ := TagMask.mem_taggedCells.mp hi
  exact TagMask.mem_cells.mpr ⟨p, hp, hcell⟩

/-- Masks with different cells hold the union of their tags when they are visited one after the
other. -/
lemma visits_of_disjoint {masks : List (TagMask d)}
    (hdisjoint : masks.Pairwise fun s t => Disjoint s.cells t.cells) {region : Box d}
    (hregion : region.IsInt) :
    ∃ visits, (masks.mapM (fun mask => mask.forEachCellIn region) >>=
        fun visits => pure visits.flatten) = .ok visits ∧ (visits.map Prod.fst).Nodup ∧
      ∀ i, (i, true) ∈ visits ↔ i ∈ region.cells ∧ i ∈ taggedUnion masks := by
  obtain ⟨visits, hvisits, hnodup, hmem⟩ := flatten_visits
    (fun mask _ => TagMask.forEachCellIn_spec mask hregion)
    (hdisjoint.imp fun h v w hv hw heq => Finset.disjoint_left.mp h hv.2.1 (heq ▸ hw.2.1))
  refine ⟨visits, hvisits, hnodup, fun i => ?_⟩
  rw [hmem, mem_taggedUnion]
  constructor
  · rintro ⟨mask, hmask, hcell, -, htag⟩
    exact ⟨hcell, mask, hmask, by simpa using htag⟩
  · rintro ⟨hcell, mask, hmask, htag⟩
    exact ⟨mask, hmask, hcell, mask.taggedCells_subset htag, by simpa using htag⟩

/-- The union of the tags does not depend on the order of the shards. -/
lemma taggedUnion_perm {shards others : List (TagMask d)} (h : shards.Perm others) :
    taggedUnion shards = taggedUnion others := by
  ext i
  simp [h.mem_iff]

/-- **Authenticated shards hold the union of their tags**, whatever order they were passed in.

**Proof sketch.** The canonical shards are the shards in another order.  On a replicated level the
first one has the tags of all of them.  On a partitioned level they hold different patches, hence
different cells, and a visit sees their union (`visits_of_disjoint`). -/
theorem authenticateShards_spec {shards canonical : List (TagMask d)} {options : ClusterOptions d}
    (h : authenticateShards shards options = .ok canonical) :
    ∃ front rest, canonical = front :: rest ∧ canonical.Perm shards ∧
      (∀ shard ∈ shards, shard.levelIdentity = front.levelIdentity) ∧
      (TagUnion.mk canonical front.levelIdentity).Holds (taggedUnion shards) := by
  unfold authenticateShards at h
  cases shards with
  | nil => exact absurd h (by simp)
  | cons first others =>
    simp only [bind_eq_ok, throwIf_eq_ok, exists_const, forEach_eq_ok, ne_eq, not_not] at h
    obtain ⟨-, -, hlevels, ranked, hranked, -, -, -, hmode⟩ := h
    have hsnd : ranked.map Prod.snd = (first :: others).map id :=
      map_of_mapM Prod.snd id hranked fun shard entry hentry => by
        simp only [bind_eq_ok, pure_eq_ok] at hentry
        obtain ⟨_, _, rfl⟩ := hentry
        rfl
    rw [List.map_id] at hsnd
    have hperm : ((ranked.insertionSort fun left right => left.1 ≤ right.1).map Prod.snd).Perm
        (first :: others) := hsnd ▸ (List.perm_insertionSort _ ranked).map Prod.snd
    generalize ((ranked.insertionSort fun left right => left.1 ≤ right.1).map Prod.snd) = sorted
      at hperm hmode
    obtain ⟨front, rest, rfl⟩ : ∃ front rest, sorted = front :: rest := by
      cases sorted with
      | nil => exact absurd hperm.length_eq (by simp)
      | cons front rest => exact ⟨front, rest, rfl⟩
    have hfront : front.levelIdentity = first.levelIdentity :=
      hlevels front (hperm.mem_iff.mp (by simp))
    have hsame : ∀ shard ∈ first :: others, shard.levelIdentity = front.levelIdentity :=
      fun shard hshard => (hlevels shard hshard).trans hfront.symm
    have hcanonical : canonical = front :: rest := by
      split_ifs at hmode with hreplicated
      · simp only [bind_eq_ok, forEach_eq_ok, pure_eq_ok, exists_const] at hmode
        exact hmode.2.symm
      · simp only [bind_eq_ok, throwIf_eq_ok, pure_eq_ok, exists_const] at hmode
        obtain ⟨_, _, _, h⟩ := hmode
        exact h.symm
    subst hcanonical
    refine ⟨front, rest, rfl, hperm, hsame, fun region hregion => ?_⟩
    rw [← taggedUnion_perm hperm, TagUnion.forEachCellIn]
    split_ifs at hmode with hreplicated
    · -- replicated shards have equal patches, so the first one holds the union
      simp only [bind_eq_ok, forEach_eq_ok, pure_eq_ok, exists_const, checkReplica, throwIf_eq_ok,
        ne_eq, not_not] at hmode
      have hunion : taggedUnion (front :: rest) = taggedUnion [front] := by
        ext i
        rw [mem_taggedUnion, mem_taggedUnion]
        constructor
        · rintro ⟨shard, hshard, hi⟩
          refine ⟨front, by simp, ?_⟩
          have hpatches : shard.patches = front.patches := by
            simpa using (hmode.1 shard hshard).1
          rwa [TagMask.taggedCells, hpatches] at hi
        · rintro ⟨shard, hshard, hi⟩
          exact ⟨front, by simp, by rwa [List.mem_singleton.mp hshard] at hi⟩
      rw [if_pos (by rw [hfront]; exact hreplicated), hunion]
      exact visits_of_disjoint (List.pairwise_singleton _ _) hregion
    · simp only [bind_eq_ok, throwIf_eq_ok, pure_eq_ok, exists_const] at hmode
      obtain ⟨seen, hseen, -, -⟩ := hmode
      obtain ⟨-, hpairs⟩ := pairwise_of_claims (by simp) hseen
      rw [if_neg (by rw [hfront]; exact hreplicated), List.take_length]
      refine visits_of_disjoint (hpairs.imp_of_mem fun hs ht hst => ?_) hregion
      refine disjoint_of_patches ?_ hst
      rw [hsame _ (hperm.mem_iff.mp hs), hsame _ (hperm.mem_iff.mp ht)]

end Pops
