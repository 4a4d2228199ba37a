import Pops.Runtime.Program.CellTemporalOperations

/-!
# Runs of a cell-local temporal executor

A run is a construction that returned on all ranks, followed by operations; every operation has
its own environments, in which any call may throw or be refused on any rank.

## Main definitions

* `Pops.CellTemporal.CollisionFree` — no two ranks are constructed from different images with one
  digest.
* `Pops.CellTemporal.Reachable` — the states of all runs.
* `Pops.CellTemporal.MultirateSchedule` — the events of an attempt that has reached its target.

## Main results

* `Pops.CellTemporal.restoreAcceptedBoundary_spec` — a restored image is the accepted one, moved to
  the tick that all ranks restore.
* `Pops.CellTemporal.construct_spec` — a construction that returns leaves the ranks consistent.
* `Pops.CellTemporal.Reachable.consistent` — the run lemma.
* `Pops.CellTemporal.ranks_agree` — the ranks agree after every operation.
* `Pops.CellTemporal.advance_executes_schedule` — the multirate schedule of an attempt.
-/

namespace Pops.CellTemporal

open Spmd

section Runs

variable {ι : Type} [Fintype ι] [Inhabited ι] {setup : Setup} {env : ι → Environment} {c : Common}

/-! ## Restoration -/

/-- A restored image of the same authority has the prepared records. -/
lemma checkSameAuthority_eq_ok {next current : AcceptedState}
    (h : checkSameAuthority next current = .ok ()) :
    (next.kind = current.kind ∧ next.providerIdentity = current.providerIdentity ∧
      next.topologyEpoch = current.topologyEpoch ∧
      next.tickDenominator = current.tickDenominator) ∧
      List.Forall₂ SameRecord next.cells current.cells := by
  simp only [checkSameAuthority, bind_eq_ok, throwIf_eq_ok, exists_const, forEach_eq_ok, not_or,
    not_not, ne_eq] at h
  obtain ⟨⟨hkind, hprovider, hepoch, hdenominator, hlength⟩, hrecords⟩ := h
  refine ⟨⟨hkind, hprovider, hepoch, hdenominator⟩, List.forall₂_iff_zip.mpr ⟨hlength, ?_⟩⟩
  intro restored prepared hmem
  exact hrecords (restored, prepared) hmem

section Restore

variable {e : Environment} {s s' : Executor} {accepted : AcceptedState}

/-- The candidate of a restoration: the accepted image at the tick that is restored, and its
envelope. -/
lemma prepareRestore_eq_ok (hlayout : Layout c) (hs : s.common = c)
    {candidate : Partition × Envelope}
    (h : prepareRestore setup e accepted s = (.ok candidate, s')) :
    c.attemptActive = false ∧ Valid accepted ∧
      accepted = c.partition.accepted.moveTo accepted.synchronizationTick ∧
      candidate.1 = ⟨accepted, [], 0, false⟩ ∧
      candidate.2.scalars = envelopeScalars 4 accepted ∧ candidate.2.digest.length = 64 := by
  obtain ⟨r, t, hread, h⟩ := Block.bind_eq_ok.mp h
  obtain ⟨hr, -⟩ := Prod.mk.inj hread
  obtain rfl := Except.ok.inj hr
  have hpartition : s.partition = c.partition := congrArg Common.partition hs
  obtain ⟨_, _, hactive, h⟩ := Block.bind_eq_ok.mp h
  obtain ⟨_, _, -, h⟩ := Block.bind_eq_ok.mp h
  obtain ⟨_, _, -, h⟩ := Block.bind_eq_ok.mp h
  obtain ⟨created, _, hcreate, h⟩ := Block.bind_eq_ok.mp h
  obtain ⟨hvalidate, rfl⟩ := create_eq_ok.mp (Prod.mk.inj hcreate).1
  obtain ⟨_, _, -, h⟩ := Block.bind_eq_ok.mp h
  obtain ⟨_, _, hauthority, h⟩ := Block.bind_eq_ok.mp h
  obtain ⟨digest, _, hdigest, h⟩ := Block.bind_eq_ok.mp h
  obtain ⟨log, rfl⟩ := contractDigest_eq_ok hdigest
  obtain ⟨envelope, _, henvelope, h⟩ := Block.bind_eq_ok.mp h
  obtain ⟨-, rfl⟩ := fixedCollectiveEnvelope_eq_ok.mp (Prod.mk.inj henvelope).1
  obtain rfl := Except.ok.inj (Prod.mk.inj h).1
  obtain ⟨⟨hkind, hprovider, hepoch, hdenominator⟩, hrecords⟩ :=
    checkSameAuthority_eq_ok (Prod.mk.inj hauthority).1
  rw [hpartition] at hkind hprovider hepoch hdenominator hrecords
  have hvalid : Valid accepted :=
    (validate_eq_ok (hkind.trans hlayout.valid.kind)).mp hvalidate
  have hinactive : s.attemptActive = false := by
    have hthrow := (Prod.mk.inj hactive).1
    rw [throwIf_eq_ok] at hthrow
    simpa using hthrow
  refine ⟨?_, hvalid, ?_, rfl, rfl, setup.length_sha256 _⟩
  · rw [← hs]
    exact hinactive
  · exact hvalid.eq_moveTo hkind hprovider hepoch hdenominator hrecords

/-- The candidate of a restoration keeps the common part. -/
lemma preserves_prepareRestore : (prepareRestore setup e accepted).Preserves Executor.common := by
  apply Block.preserves_bind (Block.preserves_read _)
  intro r
  apply Block.preserves_bind (Block.preserves_lift _ _)
  intro _
  apply Block.preserves_bind (Block.preserves_lift _ _)
  intro _
  apply Block.preserves_bind (preserves_callThrows id)
  intro _
  apply Block.preserves_bind (Block.preserves_lift _ _)
  intro candidate
  apply Block.preserves_bind (Block.preserves_lift _ _)
  intro _
  apply Block.preserves_bind (Block.preserves_lift _ _)
  intro _
  apply Block.preserves_bind (preserves_contractDigest _ _ _)
  intro digest
  apply Block.preserves_bind (Block.preserves_lift _ _)
  intro envelope
  exact Block.preserves_pure _ _

end Restore

/-- The common part with a restored image. -/
def Common.restored (c : Common) (tick : ℤ) : Common :=
  ⟨⟨c.partition.accepted.moveTo tick, [], 0, false⟩,
    c.clocks.map fun clock => clock.moveTo tick, 0, false, c.attempts, c.committed, c.events⟩

/-- **`restore_accepted_boundary`.**  All ranks restore one image, or all of them throw. -/
theorem restoreAcceptedBoundary_spec (hok : Ok c) (accepted : ι → AcceptedState) :
    Triple (Agreed c) (fun rank => restoreAcceptedBoundary setup (env rank) (accepted rank))
      (fun _ s => ∃ c', Ok c' ∧ Agreed c' s) (Aborted True) := by
  refine Triple.bind (phase (d := c)
    (R := fun rank candidate => c.attemptActive = false ∧ Valid (accepted rank) ∧
      accepted rank = c.partition.accepted.moveTo (accepted rank).synchronizationTick ∧
      candidate.1 = ⟨accepted rank, [], 0, false⟩ ∧
      candidate.2.scalars = envelopeScalars 4 (accepted rank) ∧ candidate.2.digest.length = 64)
    (fun rank s hs => (preserves_prepareRestore s).trans hs) hok.rollback
    (fun _ _ _ _ _ => trivial)
    fun rank s candidate s' hs hblock => prepareRestore_eq_ok hok.1 hs hblock) fun candidate => ?_
  apply Triple.pre_and
  intro hcandidate
  refine Triple.bind (envelopeAgrees_spec (fun rank => ?_) fun rank => (hcandidate rank).2.2.2.2.2)
    fun agree => ?_
  · rw [(hcandidate rank).2.2.2.2.1]
    exact length_envelopeScalars _ _
  apply Triple.pre_and
  rintro rfl
  refine Triple.bind (Triple.throwWhen (fun _ => Iff.rfl) fun s hs _ =>
    aborted_of_ok trivial hok hs) fun _ => ?_
  apply Triple.pre_and
  intro hagree
  simp only [decide_eq_false_iff_not, not_not] at hagree
  -- the scalars of the envelopes agree, so all ranks restore one tick
  have htick : ∀ rank, (accepted rank).synchronizationTick =
      (accepted default).synchronizationTick := by
    intro rank
    have hscalars := congrArg Envelope.scalars (hagree rank)
    rw [(hcandidate rank).2.2.2.2.1, (hcandidate default).2.2.2.2.1] at hscalars
    exact tick_eq_of_envelopeScalars (hcandidate rank).2.1.tick (hcandidate default).2.1.tick
      hscalars
  apply Triple.update
  intro s hs
  refine ⟨c.restored (accepted default).synchronizationTick, ⟨?_, .inl ⟨rfl, rfl⟩⟩, fun rank => ?_⟩
  · refine hok.1.transfer ?_ (map_rung_moveTo _ _) (map_frame_moveTo _ _)
    show Valid (c.partition.accepted.moveTo (accepted default).synchronizationTick)
    rw [← (hcandidate default).2.2.1]
    exact (hcandidate default).2.1
  · have hpublished : (publishRestored (candidate rank).1 (s rank)).common =
        { (s rank).common with
          partition := (candidate rank).1
          clocks := (s rank).common.clocks.map fun clock =>
            clock.moveTo (candidate rank).1.accepted.synchronizationTick
          targetTick := 0 } := by
      simp [publishRestored, Executor.common, Executor.log, RungBatch.clock, Clock.moveTo,
        Function.comp_def, attempts, committed]
    have haccepted : accepted rank =
        c.partition.accepted.moveTo (accepted default).synchronizationTick := by
      rw [(hcandidate rank).2.2.1, htick rank]
    rw [hpublished, hs rank, (hcandidate rank).2.2.2.1, haccepted]
    simp only [Common.restored, (hcandidate rank).1]
    rfl

/-! ## Construction -/

/-- The indices of the cells of a rung among numbered cells. -/
def indicesOf (entries : List (Record × ℕ)) (rung : ℤ) : List ℕ :=
  (entries.filter fun entry => entry.1.rung = rung).map Prod.snd

/-- The grouping keeps the rungs in order, and gives every rung the indices of its cells. -/
lemma groupCell_foldl (entries : List (Record × ℕ)) :
    OrderedMap.Sorted (entries.foldl groupCell []) ∧
      ∀ rung, OrderedMap.lookup (entries.foldl groupCell []) rung =
        if indicesOf entries rung = [] then none else some (indicesOf entries rung) := by
  induction entries using List.reverseRecOn with
  | nil => exact ⟨.nil, fun rung => rfl⟩
  | append_singleton entries entry ih =>
    rw [List.foldl_append]
    obtain ⟨hsorted, hlookup⟩ := ih
    refine ⟨hsorted.assign _ _, fun rung => ?_⟩
    have hindices : indicesOf (entries ++ [entry]) rung =
        indicesOf entries rung ++ if entry.1.rung = rung then [entry.2] else [] := by
      simp only [indicesOf, List.filter_append, List.map_append]
      split_ifs with hrung <;> simp [hrung]
    rw [hindices]
    simp only [List.foldl_cons, List.foldl_nil, groupCell, OrderedMap.lookup_assign, hlookup]
    by_cases hrung : entry.1.rung = rung
    · subst hrung
      by_cases hnil : indicesOf entries entry.1.rung = [] <;> simp [hnil]
    · simp [hrung]

/-- The batches of a rung have the indices of its cells. -/
lemma groupByRung_spec {cells : List Record} {group : ℤ × List ℕ}
    (h : group ∈ groupByRung cells) :
    group.2 ≠ [] ∧ group.2.Pairwise (· < ·) ∧
      ∀ i, i ∈ group.2 ↔ ∃ cell : Record, cells[i]? = some cell ∧ cell.rung = group.1 := by
  obtain ⟨hsorted, hlookup⟩ := groupCell_foldl cells.zipIdx
  have hgroup := OrderedMap.lookup_of_mem hsorted (k := group.1) (v := group.2) h
  rw [hlookup] at hgroup
  split_ifs at hgroup with hnil
  have hindices : indicesOf cells.zipIdx group.1 = group.2 := Option.some.inj hgroup
  rw [← hindices]
  refine ⟨hnil, ?_, fun i => ?_⟩
  · have hincreasing : cells.zipIdx.Pairwise fun entry entry' => entry.2 < entry'.2 := by
      rw [← List.pairwise_map (f := Prod.snd) (R := (· < ·)), List.zipIdx_map_snd]
      exact List.pairwise_lt_range'
    exact List.pairwise_map.mpr (hincreasing.filter _)
  · simp only [indicesOf, List.mem_map, List.mem_filter, decide_eq_true_eq, Prod.exists,
      exists_eq_right, List.mk_mem_zipIdx_iff_getElem?]

/-- The clocks that `prepare_batches_` prepares. -/
def preparedClocks (accepted : AcceptedState) : List Clock :=
  (groupByRung accepted.cells).map fun group =>
    ⟨group.1, stride group.1, accepted.synchronizationTick, group.2⟩

/-- The common part after a construction. -/
def Common.constructed (accepted : AcceptedState) : Common :=
  ⟨⟨accepted, [], 0, false⟩, preparedClocks accepted, 0, false, 0, [], []⟩

/-- The prepared clocks are the cells of a valid image, grouped by rung. -/
lemma layout_constructed {accepted : AcceptedState} (hvalid : Valid accepted) :
    Layout (Common.constructed accepted) := by
  obtain ⟨hsorted, hlookup⟩ := groupCell_foldl accepted.cells.zipIdx
  refine ⟨hvalid, fun clock hclock => ?_, ?_, fun clock hclock => ?_, fun cell hcell => ?_⟩
  · obtain ⟨group, -, rfl⟩ := List.mem_map.mp hclock
    rfl
  · exact List.pairwise_map.mpr hsorted
  · obtain ⟨group, hgroup, rfl⟩ := List.mem_map.mp hclock
    exact groupByRung_spec hgroup
  · obtain ⟨i, hi⟩ := List.mem_iff_getElem?.mp hcell
    have hmem : i ∈ indicesOf accepted.cells.zipIdx cell.rung := by
      simp only [indicesOf, List.mem_map, List.mem_filter, decide_eq_true_eq]
      exact ⟨(cell, i), ⟨List.mk_mem_zipIdx_iff_getElem?.mpr hi, rfl⟩, rfl⟩
    have hgroup := hlookup cell.rung
    rw [if_neg (List.ne_nil_of_mem hmem)] at hgroup
    exact ⟨_, List.mem_map_of_mem (OrderedMap.mem_of_lookup hgroup), rfl⟩

/-- The batches of `prepare_batches_` have the prepared clocks, whatever the rank owns. -/
lemma addBatch_clocks (tick : ℤ) (records : List DeviceRecord) (groups : List (ℤ × List ℕ))
    (progress : List DeviceRecord × List RungBatch) :
    (groups.foldl (addBatch tick records) progress).2.map RungBatch.clock =
      progress.2.map RungBatch.clock ++
        groups.map fun group => ⟨group.1, stride group.1, tick, group.2⟩ := by
  induction groups generalizing progress with
  | nil => simp
  | cons group groups ih =>
    rw [List.foldl_cons, ih]
    simp [addBatch, RungBatch.clock]

/-- The digests of the images that the ranks are constructed from do not collide. -/
def CollisionFree (setup : Setup) (env : ι → Environment) (accepted : ι → AcceptedState) : Prop :=
  ∀ rank log rank' log',
    setup.sha256 (exactExecutionContract setup (accepted rank) ((env rank).parameters log)) =
      setup.sha256 (exactExecutionContract setup (accepted rank') ((env rank').parameters log')) →
    exactExecutionContract setup (accepted rank) ((env rank).parameters log) =
      exactExecutionContract setup (accepted rank') ((env rank').parameters log')

section Construct

variable {e : Environment} {s s' : Executor} {accepted : AcceptedState}

/-- The identity of a provider is not empty. -/
lemma canonicalProviderIdentity_ne {name identity : String} {version : ℕ}
    (h : canonicalProviderIdentity name version = .ok identity) : identity ≠ "" := by
  simp only [canonicalProviderIdentity, bind_eq_ok, throwIf_eq_ok, exists_const, pure_eq_ok] at h
  obtain ⟨-, rfl⟩ := h
  intro hempty
  have hlength := congrArg String.length hempty
  simp only [String.length_append] at hlength
  have hat : "@".length = 1 := rfl
  have hnil : "".length = 0 := rfl
  omega

/-- The preparation of a construction: a valid image of cell clocks, and its envelope. -/
lemma prepareConstruction_eq_ok {prepared : Partition × String × Envelope}
    (h : prepareConstruction setup e accepted s = (.ok prepared, s')) :
    Valid accepted ∧ prepared.1 = ⟨accepted, [], 0, false⟩ ∧
      ∃ log, prepared.2.2 = ⟨envelopeScalars 3 accepted,
        setup.sha256 (exactExecutionContract setup accepted (e.parameters log))⟩ := by
  obtain ⟨_, _, -, h⟩ := Block.bind_eq_ok.mp h
  obtain ⟨created, _, hcreate, h⟩ := Block.bind_eq_ok.mp h
  obtain ⟨hvalidate, rfl⟩ := create_eq_ok.mp (Prod.mk.inj hcreate).1
  obtain ⟨identity, _, hidentity, h⟩ := Block.bind_eq_ok.mp h
  have hne := canonicalProviderIdentity_ne (Prod.mk.inj hidentity).1
  obtain ⟨_, _, hroute, h⟩ := Block.bind_eq_ok.mp h
  obtain ⟨digest, _, hdigest, h⟩ := Block.bind_eq_ok.mp h
  obtain ⟨log, rfl⟩ := contractDigest_eq_ok hdigest
  obtain ⟨envelope, _, henvelope, h⟩ := Block.bind_eq_ok.mp h
  obtain ⟨-, rfl⟩ := fixedCollectiveEnvelope_eq_ok.mp (Prod.mk.inj henvelope).1
  obtain rfl := Except.ok.inj (Prod.mk.inj h).1
  -- a prepared provider refuses a global image, and the validation every unsupported one
  have hkind : accepted.kind = .cellLocal := by
    cases hcase : accepted.kind with
    | cellLocal => rfl
    | global =>
      have hthrow := (Prod.mk.inj hroute).1
      rw [Partition.requirePreparedExecutionRoute, if_pos hcase, throwIf_eq_ok] at hthrow
      exact absurd hne hthrow
    | unsupported code =>
      simp only [validate, validateKind, hcase, bind_eq_ok] at hvalidate
      obtain ⟨_, -, _, -, hkind⟩ := hvalidate
      cases hkind
  exact ⟨(validate_eq_ok hkind).mp hvalidate, rfl, log, rfl⟩

/-- The preparation of a construction keeps the common part. -/
lemma preserves_prepareConstruction :
    (prepareConstruction setup e accepted).Preserves Executor.common := by
  apply Block.preserves_bind (preserves_callThrows id)
  intro _
  apply Block.preserves_bind (Block.preserves_lift _ _)
  intro candidate
  apply Block.preserves_bind (Block.preserves_lift _ _)
  intro identity
  apply Block.preserves_bind (Block.preserves_lift _ _)
  intro _
  apply Block.preserves_bind (preserves_contractDigest _ _ _)
  intro digest
  apply Block.preserves_bind (Block.preserves_lift _ _)
  intro envelope
  exact Block.preserves_pure _ _

/-- The batches that a rank prepares have the prepared clocks. -/
lemma prepareBatches_eq_ok
    (hs : s.common = { Common.constructed accepted with clocks := c.clocks })
    (h : prepareBatches e s = (.ok (), s')) : s'.common = Common.constructed accepted := by
  obtain ⟨_, t, hcall, h⟩ := Block.bind_eq_ok.mp h
  have ht : t.common = s.common := by
    have hcommon : (callThrows e .allocate s).2.common = s.common := preserves_callThrows id s
    rw [hcall] at hcommon
    exact hcommon
  obtain ⟨r, t', hread, h⟩ := Block.bind_eq_ok.mp h
  obtain ⟨hr, rfl⟩ := Prod.mk.inj hread
  obtain ⟨records, t'', hrecords, h⟩ := Block.bind_eq_ok.mp h
  obtain ⟨-, rfl⟩ := Prod.mk.inj hrecords
  obtain ⟨-, rfl⟩ := Prod.mk.inj h
  have hpartition : t.partition = ⟨accepted, [], 0, false⟩ :=
    congrArg Common.partition (ht.trans hs)
  have hcommon : ∀ batches own, Executor.common { t with records := own, batches := batches } =
      { t.common with clocks := batches.map RungBatch.clock } := fun _ _ => rfl
  rw [hcommon, addBatch_clocks, ht, hs, hpartition]
  rfl

end Construct

/-- **The construction.**  If it returns, all ranks have the same valid image. -/
theorem construct_spec (accepted : ι → AcceptedState) (hdigest : CollisionFree setup env accepted) :
    Triple (fun s => s = fun _ => blank)
      (fun rank => construct setup (env rank) (accepted rank))
      (fun _ s => Consistent s) fun _ => True := by
  refine Triple.bind (Triple.allReduceOne _) fun v => ?_
  apply Triple.pre_and
  rintro rfl
  refine Triple.bind (Triple.throwWhen (fun _ => Iff.rfl) fun _ _ _ => trivial) fun _ => ?_
  apply Triple.pre_and
  intro _
  refine Triple.bind (Q := fun prepared s => (∀ rank, Valid (accepted rank) ∧
    (prepared rank).1 = ⟨accepted rank, [], 0, false⟩ ∧
    ∃ log, (prepared rank).2.2 = ⟨envelopeScalars 3 (accepted rank), setup.sha256
      (exactExecutionContract setup (accepted rank) ((env rank).parameters log))⟩) ∧
    Agreed blank.common s) ?_ fun prepared => ?_
  · apply Triple.consensus
    · rintro s rfl a s' hblock
      refine ⟨fun rank => prepareConstruction_eq_ok (hblock rank), fun rank => ?_⟩
      have hcommon : (prepareConstruction setup (env rank) (accepted rank) blank).2.common =
          blank.common := preserves_prepareConstruction blank
      rw [hblock rank] at hcommon
      exact hcommon
    · exact fun _ _ _ => trivial
  apply Triple.pre_and
  intro hprepared
  refine Triple.bind (envelopeAgrees_spec (fun rank => ?_) fun rank => ?_) fun agree => ?_
  · obtain ⟨-, -, log, henvelope⟩ := hprepared rank
    rw [henvelope]
    exact length_envelopeScalars _ _
  · obtain ⟨-, -, log, henvelope⟩ := hprepared rank
    rw [henvelope]
    exact setup.length_sha256 _
  apply Triple.pre_and
  rintro rfl
  refine Triple.bind (Triple.throwWhen (fun _ => Iff.rfl) fun _ _ _ => trivial) fun _ => ?_
  apply Triple.pre_and
  intro hagree
  simp only [decide_eq_false_iff_not, not_not] at hagree
  -- one digest, so one contract, so one image
  have hsame : ∀ rank, accepted rank = accepted default := by
    intro rank
    obtain ⟨hvalid, -, log, henvelope⟩ := hprepared rank
    obtain ⟨hvalid', -, log', henvelope'⟩ := hprepared default
    have hdigests := congrArg Envelope.digest (hagree rank)
    rw [henvelope, henvelope'] at hdigests
    have hcontract := hdigest rank log default log' hdigests
    simp only [exactExecutionContract, ExactContract.mk.injEq] at hcontract
    obtain ⟨-, hprovider, hepoch, htick, hdenominator, hcells, -⟩ := hcontract
    have hkind := hvalid.kind.trans hvalid'.kind.symm
    cases hrank : accepted rank with
    | mk kind provider epoch tick denominator cells =>
      cases hdefault : accepted default with
      | mk kind' provider' epoch' tick' denominator' cells' =>
        simp only [hrank, hdefault] at hprovider hepoch htick hdenominator hcells hkind
        subst hprovider hepoch htick hdenominator hcells hkind
        rfl
  have hvalid := (hprepared default).1
  refine Triple.bind (Triple.update (R := Agreed { Common.constructed (accepted default) with
    clocks := blank.common.clocks }) fun s hs rank => ?_) fun _ => ?_
  · show { (s rank).common with partition := (prepared rank).1 } = _
    rw [hs rank, (hprepared rank).2.1, hsame rank]
    rfl
  refine Triple.bind (Q := fun _ s => Agreed (Common.constructed (accepted default)) s) ?_
    fun _ => ?_
  · apply Triple.consensus
    · intro s hs a s' hblock rank
      exact prepareBatches_eq_ok (hs rank) (hblock rank)
    · exact fun _ _ _ => trivial
  have hok : Ok (Common.constructed (accepted default)) :=
    ⟨layout_constructed hvalid, .inl ⟨rfl, rfl⟩⟩
  have hE : ∀ s : ι → Executor, Aborted True s → True := fun _ _ => trivial
  refine Triple.bind ((allocation_phase hok).consequence (fun _ h => h) (fun _ _ h => h) hE)
    fun _ => ?_
  refine Triple.bind read_agreed fun a => ?_
  apply Triple.pre_and
  intro ha
  have hlength : ∀ rank, (ownership (a rank)).length = (accepted default).cells.length := by
    intro rank
    have hpartition := congrArg Common.partition (ha rank)
    simp only [ownership, List.length_map, List.length_range]
    exact congrArg (fun p => p.accepted.cells.length) hpartition
  refine Triple.bind (Triple.allReduce hlength) fun v => ?_
  apply Triple.pre_and
  rintro rfl
  refine (Triple.throwWhen (fun _ => Iff.rfl) fun _ _ _ => trivial).consequence (fun _ h => h)
    (fun _ s h => ⟨_, hok, h.2⟩) fun _ h => h

/-! ## Runs -/

/-- The states of all runs: after a construction that returned on all ranks, and after an
operation, whether it returned or threw. -/
inductive Reachable (setup : Setup) : (ι → Executor) → Prop
  | constructed {env : ι → Environment} {accepted : ι → AcceptedState} {s : ι → Executor}
      (hdigest : CollisionFree setup env accepted)
      (hrun : spmd (fun rank => construct setup (env rank) (accepted rank) blank) =
        some fun rank => (.ok (), s rank)) : Reachable setup s
  | operation {s : ι → Executor} (hs : Reachable setup s) (env : ι → Environment)
      (operation : Operation ι) {result : ι → Except Exception Unit × Executor}
      (hrun : spmd (fun rank => operation.code setup env rank (s rank)) = some result) :
      Reachable setup fun rank => (result rank).2

/-- An operation of consistent ranks leaves them consistent, whether it returns or throws. -/
lemma operation_spec (hok : Ok c) (operation : Operation ι) :
    Triple (Agreed c) (operation.code setup env) (fun _ s => Consistent s) Consistent := by
  have hE : ∀ {F : Prop} (s : ι → Executor), Aborted F s → Consistent s := fun _ h => h.2
  cases operation with
  | beginAttempt target =>
    refine (beginAttempt_spec hok target).consequence (fun _ h => h) ?_ hE
    rintro _ s ⟨c', -, hbegun, hs⟩
    exact ⟨c', ⟨hbegun.layout, .inr hbegun.active⟩, hs⟩
  | advanceToBarrier =>
    refine (advanceToBarrier_spec hok).consequence (fun _ h => h) ?_ hE
    rintro _ s ⟨c', hfinished, hs⟩
    exact ⟨c', ⟨hfinished.layout, .inr hfinished.active⟩, hs⟩
  | commit =>
    refine (commit_spec hok).consequence (fun _ h => h) ?_ hE
    rintro _ s ⟨hpublished, hs⟩
    exact ⟨_, hpublished, hs⟩
  | restoreAcceptedBoundary accepted =>
    refine (restoreAcceptedBoundary_spec hok accepted).consequence (fun _ h => h) ?_ hE
    rintro _ s ⟨c', hok', hs⟩
    exact ⟨c', hok', hs⟩

/-- The ranks of every run are consistent. -/
theorem Reachable.consistent {s : ι → Executor} (h : Reachable setup s) : Consistent s := by
  induction h with
  | @constructed env accepted s hdigest hrun =>
    exact (construct_spec accepted hdigest).of_returned (s := fun _ => blank) rfl hrun
  | @operation s _ env operation result hrun ih =>
    obtain ⟨c, hok, hs⟩ := ih
    have hspec : Triple (Agreed c) (operation.code setup env) (fun _ s => Consistent s)
        Consistent := operation_spec hok operation
    rcases hspec s hs with ⟨a, t, hjoint, hconsistent⟩ | ⟨e, t, hjoint, hconsistent⟩
    · obtain rfl := Option.some.inj (hjoint.symm.trans hrun)
      exact hconsistent
    · obtain rfl := Option.some.inj (hjoint.symm.trans hrun)
      exact hconsistent

/-! ## A run on two ranks -/

/-- Every rank has returned. -/
def allReturned (run : Option (ι → Except Exception Unit × Executor)) : Bool :=
  match run with
  | none => false
  | some result => decide (∀ rank, (result rank).1.isOk = true)

/-- The states that a joint run leaves. -/
def statesAfter (run : Option (ι → Except Exception Unit × Executor)) (rank : ι) : Executor :=
  match run with
  | none => blank
  | some result => (result rank).2

omit [Inhabited ι] in
/-- A joint run in which every rank has returned. -/
lemma eq_some_of_allReturned {run : Option (ι → Except Exception Unit × Executor)}
    (h : allReturned run = true) : run = some fun rank => (.ok (), statesAfter run rank) := by
  cases run with
  | none => cases h
  | some result =>
    refine congrArg some (funext fun rank => Prod.ext ?_ rfl)
    have hrank := of_decide_eq_true h rank
    cases hcase : (result rank).1 with
    | ok u => rfl
    | error e =>
      rw [hcase] at hrank
      cases hrank

/-- A cell of rung zero and a cell of rung one. -/
def twoCells : AcceptedState := ⟨.cellLocal, "p@1", 0, 0, 1, [⟨0, 0, 0, 0⟩, ⟨0, 1, 1, 0⟩]⟩

/-- A provider with all the parts of its lifecycle. -/
def twoCellSetup : Setup :=
  ⟨"p", 1, true, true, true, "lane", fun _ => List.replicate 64 48, fun _ => List.length_replicate⟩

/-- There are two ranks. -/
local instance neZero_two : NeZero 2 := ⟨by decide⟩

/-- The environment of a rank that owns one of the cells, in which every call succeeds. -/
def quietEnvironment (rank : Fin 2) : Environment :=
  ⟨fun _ => none, fun _ => ⟨0, ""⟩, fun _ => ⟨0, 0⟩, fun _ => [], [rank.val], true⟩

/-- The same environments, with the first rank refusing every attempt. -/
def refusingEnvironment (rank : Fin 2) : Environment :=
  { quietEnvironment rank with support := fun _ => if rank = 0 then ⟨7, "no"⟩ else ⟨0, ""⟩ }

/-- The two ranks after their construction. -/
def twoRanks : Fin 2 → Executor :=
  statesAfter (spmd fun rank => construct twoCellSetup (quietEnvironment rank) twoCells blank)

/-- The construction returns on both ranks. -/
lemma reachable_twoRanks : Reachable twoCellSetup twoRanks :=
  .constructed (fun _ _ _ _ _ => rfl) (eq_some_of_allReturned (by decide +kernel))

/-- **The ranks stay in agreement.**  In every state of every run, an operation has a joint run in
whatever environments; it returns on all ranks or throws on all of them, and afterwards the ranks
have one accepted image, one attempt flag, and have been told to commit the same attempts.

**Proof sketch.**  The ranks are consistent before the operation (`Reachable.consistent`) and after
it (`operation_spec`), and all of this is part of what consistent ranks have in common. -/
theorem ranks_agree {s : ι → Executor} (hs : Reachable setup s) (env : ι → Environment)
    (operation : Operation ι) :
    ∃ result, spmd (fun rank => operation.code setup env rank (s rank)) = some result ∧
      ((∀ rank, (result rank).1 = .ok ()) ∨ ∀ rank, ∃ e, (result rank).1 = .error e) ∧
      ∀ rank rank', (result rank).2.partition.accepted = (result rank').2.partition.accepted ∧
        (result rank).2.attemptActive = (result rank').2.attemptActive ∧
        attempts (result rank).2.calls = attempts (result rank').2.calls ∧
        committed (result rank).2.calls = committed (result rank').2.calls := by
  have hagree : ∀ t : ι → Executor, Consistent t → ∀ rank rank',
      (t rank).partition.accepted = (t rank').partition.accepted ∧
        (t rank).attemptActive = (t rank').attemptActive ∧
        attempts (t rank).calls = attempts (t rank').calls ∧
        committed (t rank).calls = committed (t rank').calls := by
    rintro t ⟨c, -, ht⟩ rank rank'
    have hcommon := (ht rank).trans (ht rank').symm
    exact ⟨congrArg (fun c => c.partition.accepted) hcommon, congrArg Common.attemptActive hcommon,
      congrArg Common.attempts hcommon, congrArg Common.committed hcommon⟩
  obtain ⟨c, hok, hc⟩ := hs.consistent
  have hspec : Triple (Agreed c) (operation.code setup env) (fun _ s => Consistent s) Consistent :=
    operation_spec hok operation
  rcases hspec s hc with ⟨a, t, hjoint, hconsistent⟩ | ⟨e, t, hjoint, hconsistent⟩
  · exact ⟨_, hjoint, .inl fun _ => rfl, hagree t hconsistent⟩
  · exact ⟨_, hjoint, .inr fun rank => ⟨e rank, rfl⟩, hagree t hconsistent⟩

/-- One rank refuses an attempt. -/
theorem two_ranks_agree :
    ∃ result : Fin 2 → Except Exception Unit × Executor,
      spmd (fun rank => beginAttempt (refusingEnvironment rank) 4 (twoRanks rank)) = some result ∧
      ((∀ rank, (result rank).1 = .ok ()) ∨ ∀ rank, ∃ e, (result rank).1 = .error e) ∧
      ∀ rank rank', (result rank).2.partition.accepted = (result rank').2.partition.accepted ∧
        (result rank).2.attemptActive = (result rank').2.attemptActive ∧
        attempts (result rank).2.calls = attempts (result rank').2.calls ∧
        committed (result rank).2.calls = committed (result rank').2.calls :=
  ranks_agree reachable_twoRanks refusingEnvironment
    (.beginAttempt fun _ => ⟨4, by decide⟩)

/-! ## The schedule of an attempt -/

/-- The events of an attempt from an accepted image to a target. -/
structure MultirateSchedule (accepted : AcceptedState) (target : ℤ) (events : List Event) :
    Prop where
  /-- The events are ordered by end, and by rung where they end together. -/
  ordered : events.Pairwise fun event event' =>
    event.endTick < event'.endTick ∨ (event.endTick = event'.endTick ∧ event.rung < event'.rung)
  /-- Every event is one of a rung of the image. -/
  known : ∀ event ∈ events, ∃ cell ∈ accepted.cells, cell.rung = event.rung
  /-- The events of a rung are consecutive intervals from the accepted tick to the target. -/
  tiled : ∀ cell ∈ accepted.cells, ∃ count : ℕ,
    accepted.synchronizationTick + count * 2 ^ cell.rung.toNat = target ∧
      intervals events cell.rung =
        tiles accepted.synchronizationTick (2 ^ cell.rung.toNat) count
  /-- Just before an event the clock of every rung is at most one interval before its end. -/
  lag : ∀ event ∈ events, ∀ cell ∈ accepted.cells, ∃ tick, (cell.rung, tick) ∈ event.clocks ∧
    tick ≤ event.endTick ∧ event.endTick ≤ tick + 2 ^ cell.rung.toNat

/-- The events of clocks that have reached the target. -/
lemma Finished.multirateSchedule {c c' : Common} (h : Finished c c') :
    MultirateSchedule c.partition.accepted c.targetTick c'.events := by
  have hschedule := h.active.schedule
  rw [← h.accepted]
  refine ⟨hschedule.sorted, fun event hevent => ?_, fun cell hcell => ?_,
    fun event hevent cell hcell => ?_⟩
  · obtain ⟨clock, hclock, hrung⟩ := List.mem_map.mp (hschedule.known event hevent)
    obtain ⟨cell, hcell, hcell'⟩ := h.layout.exists_cell hclock
    exact ⟨cell, hcell, hcell'.trans hrung⟩
  · obtain ⟨clock, hclock, hrung⟩ := h.layout.covered cell hcell
    obtain ⟨count, htick, htiles⟩ := hschedule.tiled clock hclock
    have hstride : clock.stride = 2 ^ cell.rung.toNat := by
      rw [h.layout.strides clock hclock, hrung]
      rfl
    rw [hstride] at htick htiles
    rw [hrung] at htiles
    exact ⟨count, htick.symm.trans (h.ticks clock hclock), htiles⟩
  · obtain ⟨clock, hclock, hrung⟩ := h.layout.covered cell hcell
    have hseen : cell.rung ∈ event.clocks.map Prod.fst := by
      rw [hschedule.seen event hevent, ← hrung]
      exact List.mem_map_of_mem hclock
    obtain ⟨⟨rung, tick⟩, hentry, hrung'⟩ := List.mem_map.mp hseen
    have hlag := hschedule.lag event hevent _ hentry
    simp only at hrung' hlag
    subst hrung'
    exact ⟨tick, hentry, hlag⟩

/-- At the barrier the partition commits the image moved to the target. -/
lemma partition_commit (hlayout : Layout c) (hactive : Active c)
    (hticks : ∀ clock ∈ c.clocks, clock.tick = c.targetTick) :
    c.partition.commit = .ok ⟨c.partition.accepted.moveTo c.targetTick, [], 0, false⟩ := by
  have hpending : c.partition.pendingTicks =
      List.replicate c.partition.accepted.cells.length c.targetTick := by
    refine List.eq_replicate_iff.mpr ⟨hactive.length, fun tick htick => ?_⟩
    have hbarrier := requireBarrier_of_ticks hlayout hactive hticks ""
    rw [Partition.requireBarrier, throwIf_eq_ok] at hbarrier
    by_contra hne
    exact hbarrier ⟨hactive.attempt, tick, htick, by rw [hactive.target]; exact hne⟩
  have hzip : ∀ cells : List Record, List.zipWith
      (fun cell tick => (⟨cell.level, cell.cell, cell.rung, tick⟩ : Record)) cells
      (List.replicate cells.length c.targetTick) =
      cells.map fun cell => ⟨cell.level, cell.cell, cell.rung, c.targetTick⟩ := by
    intro cells
    induction cells with
    | nil => rfl
    | cons cell cells ih => simp [List.replicate_succ, ih]
  rw [Partition.commit, throwIf_neg (by simp [hactive.attempt]), ok_bind,
    requireBarrier_of_ticks hlayout hactive hticks, ok_bind, hpending, hzip, hactive.target]
  rfl

/-- **Cell-local time stepping executes a correct multirate schedule.**  Once `begin_attempt` has
returned for a target, and if no provider call fails, `advance_to_barrier` returns on all ranks
(so that it terminates, and no tick overflows), every rank has executed the events of the multirate
schedule, and `commit` then leaves a valid image with every record at the target; the partition
itself commits the same image.

**Proof sketch.**  A new attempt is consistent with all clocks at the accepted tick
(`beginAttempt_spec`); the loop keeps the schedule of the events so far (`executeBatches_spec`,
through `Schedule.step`), and at the target this is the whole schedule. -/
theorem advance_executes_schedule {s begun : ι → Executor} (hs : Reachable setup s)
    {before during after : ι → Environment} {target : ι → Tick}
    (hbegin : spmd (fun rank => beginAttempt (before rank) (target rank) (s rank)) =
      some fun rank => (.ok (), begun rank))
    (hduring : Succeeds during) (hafter : Succeeds after) :
    ∃ advanced : ι → Executor,
      spmd (fun rank => advanceToBarrier setup (during rank) (begun rank)) =
        some (fun rank => (.ok (), advanced rank)) ∧
      (∀ rank, MultirateSchedule (s rank).partition.accepted (target rank)
        (advanced rank).events) ∧
      (∀ rank, (advanced rank).partition.commit =
        .ok ⟨(s rank).partition.accepted.moveTo (target rank), [], 0, false⟩) ∧
      ∃ final : ι → Executor,
        spmd (fun rank => commit setup (after rank) (advanced rank)) =
          some (fun rank => (.ok (), final rank)) ∧
        ∀ rank, validate (final rank).partition.accepted = .ok () ∧
          (final rank).partition.accepted = (s rank).partition.accepted.moveTo (target rank) ∧
          (final rank).partition.accepted.synchronizationTick = (target rank).1 ∧
          ∀ cell ∈ (final rank).partition.accepted.cells,
            cell.acceptedTick = (target rank).1 := by
  obtain ⟨c, hok, hc⟩ := hs.consistent
  obtain ⟨c₁, huniform, hbegun, hc₁⟩ := (beginAttempt_spec hok target).of_returned hc hbegin
  have hok₁ : Ok c₁ := ⟨hbegun.layout, .inr hbegun.active⟩
  -- the loop to the barrier
  have hactive : ¬ (c₁.attemptActive = false ∨ ¬ Succeeds during) := by
    rintro (hinactive | hfails)
    · rw [hbegun.active.active] at hinactive
      cases hinactive
    · exact hfails hduring
  have hloop : Triple (Agreed c₁) (fun rank => advanceToBarrier setup (during rank)) _ _ :=
    advanceToBarrier_spec hok₁
  obtain ⟨_, advanced, hadvance, c₂, hfinished, hc₂⟩ :=
    hloop.returns hc₁ fun _ h => hactive h.1
  have hok₂ : Ok c₂ := ⟨hfinished.layout, .inr hfinished.active⟩
  have hticks : ∀ clock ∈ c₂.clocks, clock.tick = c₂.targetTick := by
    rw [hfinished.target]
    exact hfinished.ticks
  -- the publication
  have hbarrier : ¬ (¬ AtBarrier c₂ ∨ ¬ Succeeds after) := by
    rintro (haway | hfails)
    · exact haway ⟨hfinished.active.active, hticks⟩
    · exact hfails hafter
  have hpublication : Triple (Agreed c₂) (fun rank => commit setup (after rank)) _ _ :=
    commit_spec hok₂
  obtain ⟨_, final, hcommit, hpublished, hfinal⟩ :=
    hpublication.returns hc₂ fun _ h => hbarrier h.1
  have htarget : ∀ rank, c₂.targetTick = (target rank).1 := by
    intro rank
    rw [hfinished.target, hbegun.target, huniform rank]
  have haccepted : ∀ rank, c₂.partition.accepted = (s rank).partition.accepted := by
    intro rank
    rw [hfinished.accepted, hbegun.accepted]
    exact (congrArg (fun c => c.partition.accepted) (hc rank)).symm
  refine ⟨advanced, hadvance, fun rank => ?_, fun rank => ?_, final, hcommit, fun rank => ?_⟩
  · have hevents : (advanced rank).events = c₂.events := congrArg Common.events (hc₂ rank)
    have hschedule := hfinished.multirateSchedule
    rw [← hfinished.accepted, ← hfinished.target, haccepted rank, htarget rank] at hschedule
    rw [hevents]
    exact hschedule
  · have hpartition : (advanced rank).partition = c₂.partition :=
      congrArg Common.partition (hc₂ rank)
    rw [hpartition, partition_commit hfinished.layout hfinished.active hticks, haccepted rank,
      htarget rank]
  · have hpartition : (final rank).partition.accepted =
        (s rank).partition.accepted.moveTo (target rank) := by
      rw [← haccepted rank, ← htarget rank]
      exact congrArg (fun c => c.partition.accepted) (hfinal rank)
    have hvalid : Valid (final rank).partition.accepted := by
      have haccepted' : (final rank).partition.accepted = c₂.published.partition.accepted :=
        congrArg (fun c => c.partition.accepted) (hfinal rank)
      rw [haccepted']
      exact hpublished.1.valid
    refine ⟨(validate_eq_ok hvalid.kind).mpr hvalid, hpartition, ?_, fun cell hcell => ?_⟩
    · rw [hpartition]
      rfl
    · rw [(hvalid.records cell hcell).tick, hpartition]
      rfl

/-- The two ranks with an attempt towards tick four. -/
def twoRanksBegun : Fin 2 → Executor :=
  statesAfter (spmd fun rank => beginAttempt (quietEnvironment rank) 4 (twoRanks rank))

/-- The environments of the two ranks succeed. -/
lemma succeeds_quietEnvironment : Succeeds quietEnvironment := by
  refine ⟨fun _ _ => rfl, fun _ _ => ?_, fun _ _ => ?_, fun _ _ _ _ => rfl⟩
  · show refusedFlag ⟨0, ""⟩ = 0
    decide
  · show encodeOutcome ⟨0, 0⟩ = 0
    decide

/-- The two ranks advance to tick four. -/
theorem two_ranks_execute_schedule :
    ∃ advanced : Fin 2 → Executor,
      spmd (fun rank => advanceToBarrier twoCellSetup (quietEnvironment rank)
        (twoRanksBegun rank)) = some (fun rank => (.ok (), advanced rank)) ∧
      ∀ rank, MultirateSchedule (twoRanks rank).partition.accepted 4 (advanced rank).events := by
  have hbegin : spmd (fun rank => beginAttempt (quietEnvironment rank)
      ((fun _ => ⟨4, by decide⟩ : Fin 2 → Tick) rank) (twoRanks rank)) =
      some fun rank => (.ok (), twoRanksBegun rank) :=
    eq_some_of_allReturned (by decide +kernel)
  obtain ⟨advanced, hadvance, hschedule, -⟩ := advance_executes_schedule reachable_twoRanks hbegin
    succeeds_quietEnvironment succeeds_quietEnvironment
  exact ⟨advanced, hadvance, hschedule⟩

end Runs

end Pops.CellTemporal
