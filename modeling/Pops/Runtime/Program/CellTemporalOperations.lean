import Pops.Runtime.Program.CellTemporalAgreement

/-!
# The operations of a cell-local temporal executor

The operations around the rung events: the beginning of an attempt and its publication.  Both of
them keep the ranks consistent when they return and when they throw.

## Main results

* `Pops.CellTemporal.beginAttempt_spec` — a new attempt has all its clocks at the accepted tick.
* `Pops.CellTemporal.commit_spec` — a published image is the accepted one, moved to the target.
-/

namespace Pops.CellTemporal

open Spmd

section Operations

variable {ι : Type} [Fintype ι] [Inhabited ι] {setup : Setup} {env : ι → Environment} {c : Common}

/-! ## Phases that leave nothing to undo -/

omit [Fintype ι] [Inhabited ι] in
/-- Ranks that throw in a consistent state have aborted. -/
lemma aborted_of_ok {F : Prop} (hF : F) (hok : Ok c) {s : ι → Executor} (hs : Agreed c s) :
    Aborted F s :=
  ⟨hF, c, hok, hs⟩

/-- A phase that keeps the common part and has nothing to undo. -/
lemma quiet_phase {α : Type} (hok : Ok c) {block : ι → Block Executor α} {message : String}
    {R : ι → α → Prop} (hpreserves : ∀ rank, (block rank).Preserves Executor.common)
    (hresult : ∀ rank s a s', s.common = c → block rank s = (.ok a, s') → R rank a) :
    Triple (Agreed c) (fun rank => consensus (block rank) id message)
      (fun a s => (∀ rank, R rank (a rank)) ∧ Agreed c s) (Aborted True) := by
  apply Triple.consensus
  · intro s hs a s' hblock
    refine ⟨fun rank => hresult rank _ _ _ (hs rank) (hblock rank), fun rank => ?_⟩
    have hcommon := hpreserves rank (s rank)
    rw [hblock rank] at hcommon
    exact hcommon.trans (hs rank)
  · rintro s hs -
    exact aborted_of_ok trivial hok fun rank => (hpreserves rank (s rank)).trans (hs rank)

/-- An allocation with consensus keeps the common part. -/
lemma allocation_phase (hok : Ok c) {message : String} :
    Triple (Agreed c) (fun rank => consensus (callThrows (env rank) .allocate) id message)
      (fun _ s => Agreed c s) (Aborted True) :=
  (quiet_phase (R := fun _ _ => True) hok (fun _ => preserves_callThrows id)
    fun _ _ _ _ _ _ => trivial).consequence (fun _ h => h) (fun _ _ h => h.2) fun _ h => h

/-! ## Exact consensus on bytes -/

omit [Fintype ι] [Inhabited ι] in
/-- The lengths of the pairs are two for every pair. -/
lemma length_pairLengths (values : List (List ℤ × List ℤ)) :
    (pairLengths values).length = 2 * values.length := by
  induction values with
  | nil => rfl
  | cons value values ih =>
    simp only [pairLengths, List.flatMap_cons, List.length_append, List.length_cons] at ih ⊢
    rw [ih]
    simp only [List.length_nil]
    omega

/-- The length of the payload is the sum of the lengths of the pairs. -/
lemma length_pairPayload (values : List (List ℤ × List ℤ)) :
    ((pairPayload values).length : ℤ) = (pairLengths values).sum := by
  induction values with
  | nil => rfl
  | cons value values ih =>
    simp only [pairPayload, pairLengths, List.flatMap_cons, List.length_append, List.sum_append,
      Nat.cast_add] at ih ⊢
    rw [ih]
    simp

/-- **Exact consensus**: if `all_ranks_agree_exact_ordered_byte_pairs` returns true on one rank, it
does so on all ranks, and they have the same bytes. -/
theorem allRanksAgree_spec (hok : Ok c) (values : ι → List (List ℤ × List ℤ)) :
    Triple (Agreed c) (fun rank => allRanksAgree (env rank) (values rank))
      (fun a s => ((∀ rank, a rank = a default) ∧ (a default = true →
        ∀ rank, pairPayload (values rank) = pairPayload (values default))) ∧ Agreed c s)
      (Aborted True) := by
  have hdisagree : Triple (Agreed c) (fun _ : ι => (pure false : Computation Executor Bool))
      (fun a s => ((∀ rank, a rank = a default) ∧ (a default = true →
        ∀ rank, pairPayload (values rank) = pairPayload (values default))) ∧ Agreed c s)
      (Aborted True) := by
    apply Triple.pure (a := fun _ => false)
    exact fun s hs => ⟨⟨fun _ => rfl, by simp⟩, hs⟩
  refine Triple.bind (Triple.allReduceOne _) fun v => ?_
  apply Triple.pre_and
  rintro rfl
  refine Triple.bind (Triple.throwWhen (fun _ => Iff.rfl) fun s hs _ =>
    aborted_of_ok trivial hok hs) fun _ => ?_
  apply Triple.pre_and
  intro _
  have hcount : ∀ rank, [((values rank).length : ℤ)].length = 1 := fun _ => rfl
  refine Triple.bind (Triple.allAgree hcount) fun v => ?_
  apply Triple.pre_and
  rintro rfl
  refine Triple.ite (fun _ => Iff.rfl) (fun hagree => ?_) fun _ => hdisagree
  have hcounts := of_decide_eq_true hagree
  -- the ranks have as many pairs, so their lengths can be compared
  have hlengths : ∀ rank, (pairLengths (values rank)).length =
      2 * (values default).length := by
    intro rank
    have hrank := List.head_eq_of_cons_eq (hcounts rank)
    rw [length_pairLengths]
    omega
  refine Triple.bind (Triple.allReduceOne _) fun v => ?_
  apply Triple.pre_and
  rintro rfl
  refine Triple.bind (Triple.throwWhen (fun _ => Iff.rfl) fun s hs _ =>
    aborted_of_ok trivial hok hs) fun _ => ?_
  apply Triple.pre_and
  intro _
  refine Triple.bind (allocation_phase hok) fun _ => ?_
  refine Triple.bind (Triple.allAgree hlengths) fun v => ?_
  apply Triple.pre_and
  rintro rfl
  refine Triple.ite (fun _ => Iff.rfl) (fun hagree => ?_) fun _ => hdisagree
  have hpairs := of_decide_eq_true hagree
  have hpayloads : ∀ rank, (pairPayload (values rank)).length =
      (pairPayload (values default)).length := by
    intro rank
    have hrank := length_pairPayload (values rank)
    rw [hpairs rank, ← length_pairPayload] at hrank
    exact_mod_cast hrank
  refine Triple.bind (allocation_phase hok) fun _ => ?_
  refine (Triple.allAgree hpayloads).consequence (fun _ h => h) ?_ fun _ h => h
  rintro a s ⟨rfl, hs⟩
  exact ⟨⟨fun _ => rfl, fun htrue => of_decide_eq_true htrue⟩, hs⟩

/-! ## The target of an attempt -/

/-- The bytes of a value determine it. -/
lemma unsignedBytes_injective {width value value' : ℕ} (hvalue : value < 256 ^ width)
    (hvalue' : value' < 256 ^ width) (h : unsignedBytes width value = unsignedBytes width value') :
    value = value' := by
  induction width generalizing value value' with
  | zero =>
    rw [pow_zero] at hvalue hvalue'
    omega
  | succ width ih =>
    have hsplit : ∀ v, unsignedBytes (width + 1) v =
        unsignedBytes width (v / 256) ++ [((v % 256 : ℕ) : ℤ)] := by
      intro v
      simp only [unsignedBytes, List.range_succ, List.map_append, List.map_cons, List.map_nil]
      congr 1
      · apply List.map_congr_left
        intro i hi
        rw [List.mem_range] at hi
        have hexp : width + 1 - 1 - i = (width - 1 - i) + 1 := by omega
        rw [hexp, pow_succ, mul_comm (256 ^ _) 256, Nat.div_div_eq_div_mul]
      · simp
    rw [hsplit, hsplit] at h
    obtain ⟨hinit, hlast⟩ := List.append_inj' h rfl
    have hquotient : value / 256 = value' / 256 :=
      ih (by rw [pow_succ] at hvalue; omega) (by rw [pow_succ] at hvalue'; omega) hinit
    have hremainder : ((value % 256 : ℕ) : ℤ) = ((value' % 256 : ℕ) : ℤ) :=
      List.head_eq_of_cons_eq hlast
    omega

/-- The contract of a target determines it. -/
lemma targetBytes_injective {target target' : ℤ} (htarget : IsInt64 target)
    (htarget' : IsInt64 target') (h : targetBytes target = targetBytes target') :
    target = target' := by
  unfold targetBytes at h
  have hframe := List.append_cancel_left h
  simp only [contractFrame, List.length_cons] at hframe
  have hlength : ∀ v, (unsignedBytes 8 v).length = 8 := fun v => by simp [unsignedBytes]
  simp only [hlength, List.cons_append, List.cons.injEq, true_and] at hframe
  have hbytes := List.append_cancel_left hframe
  simp only [List.cons.injEq, true_and] at hbytes
  unfold IsInt64 int64Min int64Max at htarget htarget'
  have heq := unsignedBytes_injective (by omega) (by omega) hbytes
  omega

/-- `require_collective_target_`: all ranks go on with one target, or all of them throw. -/
lemma requireCollectiveTarget_spec (hok : Ok c) (target : ι → Tick) :
    Triple (Agreed c) (fun rank => requireCollectiveTarget (env rank) (target rank))
      (fun _ s => (∀ rank, target rank = target default) ∧ Agreed c s) (Aborted True) := by
  refine Triple.bind (allocation_phase hok) fun _ => ?_
  refine Triple.bind (allRanksAgree_spec hok _) fun agree => ?_
  apply Triple.pre_and
  rintro ⟨huniform, hagree⟩
  refine (Triple.throwWhen (fun rank => by rw [huniform rank]) fun s hs _ =>
    aborted_of_ok trivial hok hs).consequence (fun _ h => h) ?_ fun _ h => h
  rintro _ s ⟨htrue, hs⟩
  refine ⟨fun rank => Subtype.ext ?_, hs⟩
  have hpayload := hagree (by simpa using htrue) rank
  simp only [pairPayload, List.flatMap_cons, List.flatMap_nil, List.append_nil] at hpayload
  exact targetBytes_injective (target rank).2 (target default).2
    (List.append_cancel_left hpayload)

/-! ## The beginning of an attempt -/

/-- What a batch is prepared with. -/
def Clock.frame (clock : Clock) : ℤ × ℤ × List ℕ := (clock.rung, clock.stride, clock.indices)

/-- The frames of clocks that move stay. -/
lemma map_frame_moveTo (clocks : List Clock) (tick : ℤ) :
    (clocks.map fun clock => clock.moveTo tick).map Clock.frame = clocks.map Clock.frame := by
  simp [Clock.frame, Clock.moveTo, Function.comp_def]

/-- The layout depends on the rungs of the cells and on the frames of the clocks. -/
lemma Layout.transfer (h : Layout c) {c' : Common} (hvalid : Valid c'.partition.accepted)
    (hcells : c'.partition.accepted.cells.map Record.rung =
      c.partition.accepted.cells.map Record.rung)
    (hclocks : c'.clocks.map Clock.frame = c.clocks.map Clock.frame) : Layout c' := by
  have hrung : ∀ (i : ℕ) (r : ℤ), (∃ cell : Record, c'.partition.accepted.cells[i]? = some cell ∧
      cell.rung = r) ↔
      ∃ cell : Record, c.partition.accepted.cells[i]? = some cell ∧ cell.rung = r := by
    intro i r
    have hget := congrArg (fun l => l[i]?) hcells
    simp only [List.getElem?_map] at hget
    have hmap : ∀ o : Option Record, (∃ cell : Record, o = some cell ∧ cell.rung = r) ↔
        o.map Record.rung = some r := by
      intro o
      simp [Option.map_eq_some_iff]
    rw [hmap, hmap, hget]
  have hold : ∀ clock ∈ c'.clocks, ∃ old ∈ c.clocks, old.frame = clock.frame := by
    intro clock hclock
    have hmem := List.mem_map_of_mem (f := Clock.frame) hclock
    rw [hclocks] at hmem
    exact List.mem_map.mp hmem
  refine ⟨hvalid, fun clock hclock => ?_, ?_, fun clock hclock => ?_, fun cell hcell => ?_⟩
  · obtain ⟨old, hmem, hframe⟩ := hold clock hclock
    obtain ⟨hrung', hstride, -⟩ := by simpa [Clock.frame] using hframe
    rw [← hstride, ← hrung']
    exact h.strides old hmem
  · have hsorted : (c.clocks.map Clock.frame).Pairwise fun frame frame' => frame.1 < frame'.1 :=
      List.pairwise_map.mpr h.sorted
    rw [← hclocks, List.pairwise_map] at hsorted
    exact hsorted
  · obtain ⟨old, hmem, hframe⟩ := hold clock hclock
    obtain ⟨hrung', -, hindices'⟩ := by simpa [Clock.frame] using hframe
    obtain ⟨hnonempty, hsorted, hindices⟩ := h.indices old hmem
    rw [← hindices', ← hrung']
    exact ⟨hnonempty, hsorted, fun i => (hindices i).trans (hrung i old.rung).symm⟩
  · have hmem : cell.rung ∈ c.partition.accepted.cells.map Record.rung := by
      rw [← hcells]
      exact List.mem_map_of_mem hcell
    obtain ⟨cell', hcell', hcell''⟩ := List.mem_map.mp hmem
    obtain ⟨old, hmem', hold'⟩ := h.covered cell' hcell'
    have hframe := List.mem_map_of_mem (f := Clock.frame) hmem'
    rw [← hclocks] at hframe
    obtain ⟨clock, hclock, heq⟩ := List.mem_map.mp hframe
    exact ⟨clock, hclock, (congrArg Prod.fst heq).trans (hold'.trans hcell'')⟩

/-- The common part of a new attempt. -/
def Common.begun (c : Common) (target : ℤ) : Common :=
  ⟨⟨c.partition.accepted, c.partition.accepted.cells.map Record.acceptedTick, target, true⟩,
    c.clocks.map fun clock => clock.moveTo c.partition.accepted.synchronizationTick, target, true,
    c.attempts + 1, c.committed, []⟩

/-- A rung has a cell. -/
lemma Layout.exists_cell (h : Layout c) {clock : Clock} (hclock : clock ∈ c.clocks) :
    ∃ cell ∈ c.partition.accepted.cells, cell.rung = clock.rung := by
  obtain ⟨hnonempty, -, hindices⟩ := h.indices clock hclock
  obtain ⟨i, hi⟩ := List.exists_mem_of_ne_nil _ hnonempty
  obtain ⟨cell, hcell, hrung⟩ := (hindices i).mp hi
  exact ⟨cell, List.mem_of_getElem? hcell, hrung⟩

/-- A new attempt has all its clocks at the accepted tick. -/
lemma Layout.begun (h : Layout c) (target : ℤ) : Layout (c.begun target) :=
  h.transfer h.valid rfl (map_frame_moveTo _ _)

/-- A new attempt towards a target that its rungs reach is active. -/
lemma Layout.active_begun (h : Layout c) {target : ℤ} (hrange : target ≤ int64Max)
    (hahead : c.partition.accepted.synchronizationTick < target)
    (hreach : ∀ cell ∈ c.partition.accepted.cells,
      Partition.checkTarget target cell = .ok ()) : Active (c.begun target) := by
  have hlayout := h.begun target
  have htick : ∀ clock ∈ (c.begun target).clocks,
      clock.tick = c.partition.accepted.synchronizationTick := by
    intro clock hclock
    obtain ⟨old, -, rfl⟩ := List.mem_map.mp hclock
    rfl
  refine ⟨rfl, rfl, rfl, hahead, hrange, ⟨hlayout.strides, hlayout.sorted, ?_, ?_⟩, ?_, ?_,
    Schedule.initial htick⟩
  · intro clock hclock
    rw [htick clock hclock]
    exact ⟨le_rfl, hahead.le⟩
  · intro clock hclock
    obtain ⟨cell, hcell, hrung⟩ := hlayout.exists_cell hclock
    have hrecord := h.valid.records cell hcell
    rw [hlayout.strides clock hclock, ← hrung, htick clock hclock]
    exact dvd_sub (Partition.stride_dvd_target hrecord (hreach cell hcell)) hrecord.aligned
  · simp [Common.begun]
  · intro clock hclock i hi
    obtain ⟨cell, hcell, -⟩ := ((hlayout.indices clock hclock).2.2 i).mp hi
    have hcell' : c.partition.accepted.cells[i]? = some cell := hcell
    rw [htick clock hclock]
    simp only [Common.begun, List.getElem?_map, hcell', Option.map_some]
    rw [(h.valid.records cell (List.mem_of_getElem? hcell')).tick]

/-- The clock preparation of an attempt, in the common part. -/
lemma beginPartition_spec {env : Environment} {target : ℤ} {s s' : Executor}
    (hs : s.common = c) (h : beginPartition env target s = (.ok (), s')) :
    c.partition.beginAttempt target = (.ok (), (c.partition.beginAttempt target).2) ∧
      s'.common = { c with partition := (c.partition.beginAttempt target).2 } := by
  obtain ⟨_, t, hcall, hbegin⟩ := Block.bind_eq_ok.mp h
  have ht : t.common = c := by
    have hcommon : (callThrows env .allocate s).2.common = s.common := preserves_callThrows id s
    rw [hcall] at hcommon
    exact hcommon.trans hs
  have hpartition : t.partition = c.partition := congrArg Common.partition ht
  obtain ⟨hok, hstate⟩ := Prod.mk.inj hbegin
  rw [hpartition] at hok hstate
  refine ⟨Prod.ext hok rfl, ?_⟩
  rw [← hstate, ← ht]
  rfl

/-- The clock preparation of an attempt leaves nothing behind after a rollback. -/
lemma common_rollback_beginPartition {env : Environment} {target : ℤ} {s : Executor} :
    (rollbackPartition (beginPartition env target s).2).common =
      { s.common with partition := s.common.partition.rollback } := by
  have hundo : ∀ t : Executor, t.common = s.common →
      (rollbackPartition t).common =
        { s.common with partition := s.common.partition.rollback } := by
    intro t ht
    rw [← ht]
    rfl
  have hcommon : (callThrows env .allocate s).2.common = s.common := preserves_callThrows id s
  match hcall : callThrows env .allocate s with
  | (.error e, t) =>
    rw [hcall] at hcommon
    have hblock : (beginPartition env target s).2 = t := by
      show (Block.continue _ (callThrows env .allocate s)).2 = t
      rw [hcall]
      rfl
    rw [hblock]
    exact hundo t hcommon
  | (.ok (), t) =>
    rw [hcall] at hcommon
    have hblock : (beginPartition env target s).2 =
        { t with partition := (t.partition.beginAttempt target).2 } := by
      show (Block.continue _ (callThrows env .allocate s)).2 = _
      rw [hcall]
      rfl
    rw [hblock, ← hundo t hcommon]
    simp only [rollbackPartition, Partition.rollback_beginAttempt]

/-- The common part with all clocks at the accepted tick. -/
def Common.reset (c : Common) : Common :=
  { c with
    clocks := c.clocks.map fun clock => clock.moveTo c.partition.accepted.synchronizationTick
    events := [] }

/-- A reset of the clocks of a rank is a reset of its common part. -/
lemma common_resetClocks (s : Executor) : (resetClocks s).common = s.common.reset := by
  simp [resetClocks, Executor.common, Common.reset, RungBatch.clock, Clock.moveTo,
    Function.comp_def]

/-- A support decision, with the calls that it logs. -/
lemma support_phase {call : ι → Executor → Call} {d : Common}
    (hcall : ∀ rank (s : Executor), s.common = c → (s.log (call rank s)).common = d)
    {E : (ι → Executor) → Prop} :
    Triple (Agreed c) (fun rank => localCode (callSupport (env rank) (call rank)))
      (fun support s => (Succeeds env → ∀ rank, refusedFlag (support rank) = 0) ∧
        Agreed d s) E := by
  apply Triple.localCode_ok
  intro s hs
  exact ⟨_, _, fun _ => rfl, fun hsucceeds rank => hsucceeds.support rank _,
    fun rank => hcall rank _ (hs rank)⟩

/-- What an attempt has in common when it begins. -/
structure Begun (c : Common) (target : ℤ) (c' : Common) : Prop where
  layout : Layout c'
  active : Active c'
  accepted : c'.partition.accepted = c.partition.accepted
  target : c'.targetTick = target

/-- **`begin_attempt`.**  All ranks begin an attempt towards one target, or all of them throw and
none has an attempt that it did not have before. -/
theorem beginAttempt_spec (hok : Ok c) (target : ι → Tick) :
    Triple (Agreed c) (fun rank => beginAttempt (env rank) (target rank))
      (fun _ s => ∃ c', (∀ rank, target rank = target default) ∧ Begun c (target default) c' ∧
        Agreed c' s) (Aborted True) := by
  refine Triple.bind read_agreed fun a => ?_
  apply Triple.pre_and
  intro ha
  refine Triple.bind (allReduce_flag (by decide) ha) fun v => ?_
  apply Triple.pre_and
  rintro rfl
  refine Triple.bind (allReduce_flag (by decide) ha) fun v => ?_
  apply Triple.pre_and
  rintro rfl
  refine Triple.bind (Triple.throwWhen (fun _ => Iff.rfl) fun s hs _ => ?_) fun _ => ?_
  · simp only [ne_eq, not_true_eq_false, if_false, id]
    exact aborted_of_ok trivial hok hs
  apply Triple.pre_and
  intro hflag
  have hinactive : Inactive c := by
    rcases hok.2 with hinactive | hactive
    · exact hinactive
    · simp [flag, hactive.active] at hflag
  refine Triple.bind (requireCollectiveTarget_spec hok target) fun _ => ?_
  apply Triple.pre_and
  intro huniform
  -- a common part without an attempt is consistent once its partition has none either
  have hrolled : ∀ d : Common, d.attemptActive = false → Layout d →
      Ok { d with partition := d.partition.rollback } :=
    fun d hd hlayout => ⟨⟨hlayout.valid, hlayout.strides, hlayout.sorted, hlayout.indices,
      hlayout.covered⟩, .inl ⟨hd, rfl⟩⟩
  refine Triple.bind (Q := fun _ s => (c.partition.beginAttempt (target default)).1 = .ok () ∧
    Agreed { c with partition := (c.partition.beginAttempt (target default)).2 } s) ?_ fun _ => ?_
  · apply Triple.consensus
    · intro s hs _ s' hblock
      have hspec := fun rank => beginPartition_spec (hs rank) (hblock rank)
      simp only [huniform] at hspec
      exact ⟨congrArg Prod.fst (hspec default).1, fun rank => (hspec rank).2⟩
    · rintro s hs -
      refine aborted_of_ok trivial (hrolled c hinactive.1 hok.1) fun rank => ?_
      rw [common_rollback_beginPartition, hs rank]
  apply Triple.pre_and
  intro hbegin
  obtain ⟨-, hahead, hreach, hpartition⟩ := Partition.beginAttempt_eq_ok
    (Prod.ext hbegin rfl : c.partition.beginAttempt (target default) =
      (.ok (), (c.partition.beginAttempt (target default)).2))
  rw [hpartition]
  have hlayout := hok.1.begun (target default)
  refine Triple.bind (Triple.update (R := Agreed { c.begun (target default) with
    targetTick := c.targetTick, attemptActive := c.attemptActive, attempts := c.attempts })
    fun s hs rank => ?_) fun _ => ?_
  · rw [common_resetClocks, hs rank]
    rfl
  refine Triple.bind (support_phase (d := { c.begun (target default) with
    targetTick := c.targetTick, attemptActive := c.attemptActive }) fun rank s hs => ?_)
    fun support => ?_
  · show { s.common with attempts := s.common.attempts + 1 } = _
    rw [hs]
    rfl
  apply Triple.pre_and
  intro _
  refine Triple.bind (Triple.allReduceOne _) fun v => ?_
  apply Triple.pre_and
  rintro rfl
  refine Triple.bind (Triple.throwWhen (fun _ => Iff.rfl) fun s hs _ => ?_) fun _ => ?_
  · refine aborted_of_ok trivial (hrolled { c.begun (target default) with
      targetTick := c.targetTick, attemptActive := c.attemptActive } hinactive.1
      ⟨hlayout.valid, hlayout.strides, hlayout.sorted, hlayout.indices, hlayout.covered⟩)
      fun rank => ?_
    show { (s rank).common with partition := (s rank).common.partition.rollback } = _
    rw [hs rank]
  apply Triple.pre_and
  intro _
  apply Triple.update
  intro s hs
  refine ⟨c.begun (target default), huniform, ⟨hlayout, ?_, rfl, rfl⟩, fun rank => ?_⟩
  · exact hok.1.active_begun (target default).2.2 hahead hreach
  · show { (s rank).common with targetTick := (target rank).1, attemptActive := true } = _
    rw [hs rank, huniform rank]
    rfl

/-! ## Envelopes -/

/-- The ranks compare whole envelopes. -/
lemma envelopeAgrees_spec {P E : (ι → Executor) → Prop} {envelope : ι → Envelope}
    (hscalars : ∀ rank, (envelope rank).scalars.length = 11)
    (hdigest : ∀ rank, (envelope rank).digest.length = 64) :
    Triple P (fun rank => envelopeAgrees (envelope rank))
      (fun a s => (a = fun _ => decide (∀ rank, envelope rank = envelope default)) ∧ P s) E := by
  refine Triple.bind (Triple.allAgree hscalars) fun scalars => ?_
  refine Triple.bind (Triple.allAgree hdigest) fun digest => ?_
  apply Triple.pure
  rintro s ⟨rfl, rfl, hs⟩
  refine ⟨?_, hs⟩
  funext _
  rw [← Bool.decide_and, decide_eq_decide]
  constructor
  · rintro ⟨hscalars, hdigest⟩ rank
    cases hrank : envelope rank with
    | mk scalars digest =>
      cases hdefault : envelope default with
      | mk scalars' digest' =>
        have hs := hscalars rank
        have hd := hdigest rank
        rw [hrank, hdefault] at hs hd
        exact congrArg₂ Envelope.mk hs hd
  · intro h
    exact ⟨fun rank => by rw [h rank], fun rank => by rw [h rank]⟩

/-- An envelope has eleven scalars. -/
lemma length_envelopeScalars (schema : ℕ) (state : AcceptedState) :
    (envelopeScalars schema state).length = 11 := rfl

/-- The scalars of an envelope determine the tick of a valid image. -/
lemma tick_eq_of_envelopeScalars {schema : ℕ} {state state' : AcceptedState}
    (hstate : 0 ≤ state.synchronizationTick) (hstate' : 0 ≤ state'.synchronizationTick)
    (h : envelopeScalars schema state = envelopeScalars schema state') :
    state.synchronizationTick = state'.synchronizationTick := by
  simp only [envelopeScalars, encodeU64, List.cons_append, List.nil_append, List.cons.injEq,
    Nat.cast_inj] at h
  omega

/-- An envelope that is built holds the scalars of its image and its digest. -/
lemma fixedCollectiveEnvelope_eq_ok {schema : ℕ} {state : AcceptedState} {digest : List ℤ}
    {envelope : Envelope} :
    fixedCollectiveEnvelope schema state digest = .ok envelope ↔
      (digest.length = 64 ∧ 0 ≤ state.synchronizationTick ∧ 0 < state.tickDenominator) ∧
        envelope = ⟨envelopeScalars schema state, digest⟩ := by
  simp only [fixedCollectiveEnvelope, bind_eq_ok, throwIf_eq_ok, exists_const, pure_eq_ok, not_or,
    not_not, not_lt, not_le, ne_eq, eq_comm (b := envelope)]

/-- A partition is created for a validated image. -/
lemma create_eq_ok {accepted : AcceptedState} {p : Partition} :
    Partition.create accepted = .ok p ↔
      validate accepted = .ok () ∧ p = ⟨accepted, [], 0, false⟩ := by
  simp only [Partition.create, bind_eq_ok, pure_eq_ok, eq_comm (b := p)]
  constructor
  · rintro ⟨_, hvalid, hp⟩
    exact ⟨hvalid, hp⟩
  · rintro ⟨hvalid, hp⟩
    exact ⟨(), hvalid, hp⟩

section Digest

variable {e : Environment} {state : AcceptedState} {s s' : Executor}

/-- The digest of a contract is the one of the image with some serialized parameters. -/
lemma contractDigest_eq_ok {digest : List ℤ}
    (h : contractDigest setup e state s = (.ok digest, s')) :
    ∃ log, digest = setup.sha256 (exactExecutionContract setup state (e.parameters log)) := by
  obtain ⟨_, t, -, h⟩ := Block.bind_eq_ok.mp h
  obtain ⟨r, t', -, h⟩ := Block.bind_eq_ok.mp h
  obtain ⟨_, t'', -, h⟩ := Block.bind_eq_ok.mp h
  exact ⟨r.calls, (Except.ok.inj (Prod.mk.inj h).1).symm⟩

/-- The digest of a contract is built unless a call fails. -/
lemma contractDigest_error {x : Exception} (h : (contractDigest setup e state s).1 = .error x) :
    ∃ log, e.failure log ≠ none := by
  rcases Block.error_of_bind h with h | ⟨_, t, -, h⟩
  · exact callThrows_error h
  rcases Block.error_of_bind h with h | ⟨r, t', -, h⟩
  · cases h
  rcases Block.error_of_bind h with h | ⟨_, t'', -, h⟩
  · exact callThrows_error h
  · cases h

end Digest

/-! ## Publication -/

/-- The target of an attempt is a tick that all rungs reach. -/
lemma Active.valid_moveTo (hlayout : Layout c) (h : Active c) :
    Valid (c.partition.accepted.moveTo c.targetTick) := by
  have hahead := h.ahead
  have hsync := hlayout.valid.tick
  apply hlayout.valid.moveTo (by omega)
  intro cell hcell
  obtain ⟨clock, hclock, hrung⟩ := hlayout.covered cell hcell
  have hstride := hlayout.strides clock hclock
  have hreach := h.clocks.reach clock hclock
  obtain ⟨count, htick, -⟩ := h.schedule.tiled clock hclock
  have haligned := (hlayout.valid.records cell hcell).aligned
  rw [hrung] at hstride
  rw [hstride] at htick hreach
  have hcount : stride cell.rung ∣ count * stride cell.rung := Dvd.intro_left _ rfl
  have hsum := dvd_add (dvd_add hreach haligned) hcount
  have htarget : c.targetTick - clock.tick + c.partition.accepted.synchronizationTick +
      count * stride cell.rung = c.targetTick := by
    rw [htick]
    ring
  rwa [htarget] at hsum

/-- The cells of an image that moves keep their rungs. -/
lemma map_rung_moveTo (state : AcceptedState) (tick : ℤ) :
    (state.moveTo tick).cells.map Record.rung = state.cells.map Record.rung := by
  simp [AcceptedState.moveTo, Function.comp_def]

/-- The attempt of a common part is at its barrier. -/
def AtBarrier (c : Common) : Prop :=
  c.attemptActive = true ∧ ∀ clock ∈ c.clocks, clock.tick = c.targetTick

/-- The common part after a publication. -/
def Common.published (c : Common) : Common :=
  ⟨⟨c.partition.accepted.moveTo c.targetTick, [], 0, false⟩, c.clocks, 0, false, c.attempts,
    c.attempts :: c.committed, c.events⟩

/-- A publication keeps the invariant. -/
lemma ok_published (hlayout : Layout c) (hactive : Active c) : Ok c.published := by
  refine ⟨hlayout.transfer (hactive.valid_moveTo hlayout) (map_rung_moveTo _ _) rfl, .inl ?_⟩
  exact ⟨rfl, rfl⟩

section Commit

variable {e : Environment} {s s' : Executor}

/-- The local finalization fails only away from the barrier, or if a call fails. -/
lemma finalizeLocal_error (hok : Ok c) (hs : s.common = c) {x : Exception}
    (h : (finalizeLocal setup e s).1 = .error x) :
    ¬ AtBarrier c ∨ ∃ log, e.failure log ≠ none := by
  by_cases hbarrier : AtBarrier c
  · right
    have hactive : Active c := by
      rcases hok.2 with hinactive | hactive
      · have hactive := hbarrier.1
        rw [hinactive.1] at hactive
        cases hactive
      · exact hactive
    have hflag : s.attemptActive = true := (congrArg Common.attemptActive hs).trans hbarrier.1
    have hpartition : s.partition = c.partition := congrArg Common.partition hs
    rcases Block.error_of_bind h with h | ⟨r, t, hread, h⟩
    · cases h
    obtain ⟨hr, -⟩ := Prod.mk.inj hread
    obtain rfl := Except.ok.inj hr
    rcases Block.error_of_bind h with h | ⟨_, t', -, h⟩
    · simp [Block.lift, throwIf, hflag] at h
    rcases Block.error_of_bind h with h | ⟨_, t'', -, h⟩
    · simp only [Block.lift, hpartition,
        requireBarrier_of_ticks hok.1 hactive hbarrier.2] at h
      cases h
    · exact hook_error h
  · exact .inl hbarrier

/-- The local finalization needs an active attempt. -/
lemma finalizeLocal_eq_ok (hs : s.common = c) (h : finalizeLocal setup e s = (.ok (), s')) :
    c.attemptActive = true := by
  obtain ⟨r, t, hread, h⟩ := Block.bind_eq_ok.mp h
  obtain ⟨hr, -⟩ := Prod.mk.inj hread
  obtain rfl := Except.ok.inj hr
  obtain ⟨_, t', hactive, -⟩ := Block.bind_eq_ok.mp h
  have hthrow := (Prod.mk.inj hactive).1
  rw [throwIf_eq_ok] at hthrow
  rw [← hs]
  simpa [Executor.common] using hthrow

/-- The local finalization keeps the common part. -/
lemma preserves_finalizeLocal :
    (finalizeLocal setup e).Preserves Executor.common := by
  apply Block.preserves_bind (Block.preserves_read _)
  intro r
  apply Block.preserves_bind (Block.preserves_lift _ _)
  intro _
  apply Block.preserves_bind (Block.preserves_lift _ _)
  intro _
  exact preserves_hook id

/-- The candidate of a commit: the accepted image moved to the target, and its envelope. -/
lemma prepareCommit_eq_ok (hs : s.common = c) {candidate : Partition × Envelope}
    (h : prepareCommit setup e s = (.ok candidate, s')) :
    candidate.1 = ⟨c.partition.accepted.moveTo c.targetTick, [], 0, false⟩ ∧
      ∃ log, candidate.2 = ⟨envelopeScalars 5 (c.partition.accepted.moveTo c.targetTick),
        setup.sha256 (exactExecutionContract setup (c.partition.accepted.moveTo c.targetTick)
          (e.parameters log))⟩ := by
  have hpartition : s.partition = c.partition := congrArg Common.partition hs
  have htarget : s.targetTick = c.targetTick := congrArg Common.targetTick hs
  obtain ⟨r, t, hread, h⟩ := Block.bind_eq_ok.mp h
  obtain ⟨hr, -⟩ := Prod.mk.inj hread
  obtain rfl := Except.ok.inj hr
  obtain ⟨digest, t', hdigest, h⟩ := Block.bind_eq_ok.mp h
  obtain ⟨log, rfl⟩ := contractDigest_eq_ok hdigest
  obtain ⟨next, t'', hcreate, h⟩ := Block.bind_eq_ok.mp h
  obtain ⟨-, rfl⟩ := create_eq_ok.mp (Prod.mk.inj hcreate).1
  obtain ⟨envelope, u, henvelope, h⟩ := Block.bind_eq_ok.mp h
  obtain ⟨-, rfl⟩ := fixedCollectiveEnvelope_eq_ok.mp (Prod.mk.inj henvelope).1
  obtain rfl := Except.ok.inj (Prod.mk.inj h).1
  rw [hpartition, htarget]
  exact ⟨rfl, log, rfl⟩

/-- The candidate of a commit of an active attempt is built unless a call fails. -/
lemma prepareCommit_error (hlayout : Layout c) (hactive : Active c) (hs : s.common = c)
    {x : Exception} (h : (prepareCommit setup e s).1 = .error x) :
    ∃ log, e.failure log ≠ none := by
  have hpartition : s.partition = c.partition := congrArg Common.partition hs
  have htarget : s.targetTick = c.targetTick := congrArg Common.targetTick hs
  have hvalid := hactive.valid_moveTo hlayout
  rcases Block.error_of_bind h with h | ⟨r, t, hread, h⟩
  · cases h
  obtain ⟨hr, -⟩ := Prod.mk.inj hread
  obtain rfl := Except.ok.inj hr
  rcases Block.error_of_bind h with h | ⟨digest, t', hdigest, h⟩
  · exact contractDigest_error h
  obtain ⟨log, rfl⟩ := contractDigest_eq_ok hdigest
  have hcreate := create_eq_ok.mpr ⟨(validate_eq_ok hvalid.kind).mpr hvalid, rfl⟩
  rw [hpartition, htarget] at h
  rcases Block.error_of_bind h with h | ⟨next, t'', hnext, h⟩
  · simp only [Block.lift, hcreate] at h
    cases h
  obtain ⟨-, rfl⟩ := create_eq_ok.mp (Prod.mk.inj hnext).1
  have henvelope : ∀ contract, fixedCollectiveEnvelope 5
      (c.partition.accepted.moveTo c.targetTick) (setup.sha256 contract) =
      .ok ⟨envelopeScalars 5 (c.partition.accepted.moveTo c.targetTick), setup.sha256 contract⟩ :=
    fun contract => fixedCollectiveEnvelope_eq_ok.mpr
      ⟨⟨setup.length_sha256 contract, hvalid.tick, hvalid.denominator⟩, rfl⟩
  rcases Block.error_of_bind h with h | ⟨envelope, u, -, h⟩
  · simp only [Block.lift, henvelope] at h
    cases h
  · cases h

/-- The candidate of a commit keeps the common part. -/
lemma preserves_prepareCommit : (prepareCommit setup e).Preserves Executor.common := by
  apply Block.preserves_bind (Block.preserves_read _)
  intro r
  apply Block.preserves_bind (preserves_contractDigest _ _ _)
  intro digest
  apply Block.preserves_bind (Block.preserves_lift _ _)
  intro next
  apply Block.preserves_bind (Block.preserves_lift _ _)
  intro envelope
  exact Block.preserves_pure _ _

end Commit

/-- **`commit`.**  All ranks publish the accepted image moved to the target, or none does: because
the attempt is not at its barrier, or because the environment of some rank failed. -/
theorem commit_spec (hok : Ok c) :
    Triple (Agreed c) (fun rank => commit setup (env rank))
      (fun _ s => Ok c.published ∧ Agreed c.published s)
      (Aborted (¬ AtBarrier c ∨ ¬ Succeeds env)) := by
  refine Triple.bind (phase (d := c) (R := fun _ _ => c.attemptActive = true)
    (fun rank s hs => (preserves_finalizeLocal s).trans hs) hok.rollback ?_ ?_) fun _ => ?_
  · intro rank s x hs hx
    exact (finalizeLocal_error hok hs hx).imp_right not_succeeds_of_failure
  · intro rank s _ s' hs hblock
    exact finalizeLocal_eq_ok hs hblock
  apply Triple.pre_and
  intro hflag
  have hactive : Active c := by
    rcases hok.2 with hinactive | hactive
    · have := hflag default
      rw [hinactive.1] at this
      cases this
    · exact hactive
  refine Triple.bind (hook_phase hok.rollback .inr fun _ => id) fun _ => ?_
  refine Triple.bind (phase (d := c)
    (R := fun rank candidate =>
      candidate.1 = ⟨c.partition.accepted.moveTo c.targetTick, [], 0, false⟩ ∧
      ∃ log, candidate.2 = ⟨envelopeScalars 5 (c.partition.accepted.moveTo c.targetTick),
        setup.sha256 (exactExecutionContract setup (c.partition.accepted.moveTo c.targetTick)
          ((env rank).parameters log))⟩)
    (fun rank s hs => (preserves_prepareCommit s).trans hs) hok.rollback ?_ ?_)
    fun candidate => ?_
  · intro rank s x hs hx
    exact .inr (not_succeeds_of_failure (prepareCommit_error hok.1 hactive hs hx))
  · intro rank s candidate s' hs hblock
    exact prepareCommit_eq_ok hs hblock
  apply Triple.pre_and
  intro hcandidate
  refine Triple.bind (envelopeAgrees_spec (fun rank => ?_) fun rank => ?_) fun agree => ?_
  · obtain ⟨-, log, henvelope⟩ := hcandidate rank
    rw [henvelope]
    exact length_envelopeScalars _ _
  · obtain ⟨-, log, henvelope⟩ := hcandidate rank
    rw [henvelope]
    exact setup.length_sha256 _
  apply Triple.pre_and
  rintro rfl
  refine Triple.bind (Triple.throwWhen (fun _ => Iff.rfl) fun s hs hdiffer => ?_) fun _ => ?_
  · refine aborted_rollback (.inr fun hsucceeds => ?_) hok.rollback hs
    simp only [decide_eq_false_iff_not, not_forall] at hdiffer
    obtain ⟨rank, hdiffer⟩ := hdiffer
    apply hdiffer
    obtain ⟨-, log, henvelope⟩ := hcandidate rank
    obtain ⟨-, log', henvelope'⟩ := hcandidate default
    rw [henvelope, henvelope', hsucceeds.parameters rank log default log']
  apply Triple.pre_and
  intro _
  refine Triple.bind (support_phase (d := c) fun rank s hs => ?_) fun support => ?_
  · rw [common_log id]
    exact hs
  apply Triple.pre_and
  intro hsupport
  refine Triple.bind (Triple.allReduceOne fun rank => refusedFlag (support rank)) fun v => ?_
  apply Triple.pre_and
  rintro rfl
  refine Triple.bind (Triple.throwWhen (fun _ => Iff.rfl) fun s hs hrefused => ?_) fun _ => ?_
  · refine aborted_rollback (.inr fun hsucceeds => hrefused ?_) hok.rollback hs
    exact combine_const (by decide) (hsupport hsucceeds)
  apply Triple.pre_and
  intro _
  apply Triple.update
  intro s hs
  refine ⟨ok_published hok.1 hactive, fun rank => ?_⟩
  show { (s rank).common with
    partition := (candidate rank).1, targetTick := 0, attemptActive := false
    committed := (s rank).common.attempts :: (s rank).common.committed } = _
  rw [hs rank, (hcandidate rank).1]
  rfl

end Operations

end Pops.CellTemporal
