import Pops.Amr.Reflux.InterfaceFluxLedger

/-!
# Histories of the interface-flux ledger

A run is a sequence of calls, some of which throw.  A record of the run keeps what the calls should
lead to: the pending fragments at the begin of every open transaction, the fragments of the last
outermost commit, and what stood when the current evaluation began.  The ledger keeps only the
lengths of the former; since fragments are changed in place only in the outermost transaction, the
lengths are enough.

## Main definitions

* `Pops.InterfaceFluxLedger.Record` — what a run should lead to.
* `Pops.InterfaceFluxLedger.Tracks` — the invariant between a ledger and its record.
* `Pops.InterfaceFluxLedger.Lawful` — the law of one call.

## Main results

* `Pops.InterfaceFluxLedger.Tracks.perform` — every call that returns keeps the invariant.
* `Pops.InterfaceFluxLedger.interfaceLedger_transactions` — the law over whole runs.
-/

namespace Pops

namespace InterfaceFluxLedger

variable {τ payload : Type} (traits : InterfaceFluxTraits τ payload)

/-! ## Runs -/

/-- One call of a run: the ledger before it, the call, its end and the ledger after it. -/
structure Step (τ payload : Type) where
  before : InterfaceFluxLedger τ payload
  call : Call τ payload
  result : Except Exception PUnit
  after : InterfaceFluxLedger τ payload

/-- The run of a sequence of calls. -/
def trace : InterfaceFluxLedger τ payload → List (Call τ payload) → List (Step τ payload)
  | _, [] => []
  | s, call :: calls =>
    let outcome := call.perform traits s
    ⟨s, call, outcome.1, outcome.2⟩ :: trace outcome.2 calls

/-- What a run should lead to: the pending fragments at the begin of each open transaction,
innermost first, the fragments that should be published, and what was pending and published at the
begin of the last evaluation. -/
structure Record (τ payload : Type) where
  saved : List (List (InterfaceFluxFragment τ payload))
  published : List (InterfaceFluxFragment τ payload)
  scope : Option (List (InterfaceFluxFragment τ payload) × List (InterfaceFluxFragment τ payload))

/-- The record after a call that returned. -/
def Record.returned (r : Record τ payload) (before : InterfaceFluxLedger τ payload) :
    Call τ payload → Record τ payload
  | .begin => { r with saved := before.pending :: r.saved }
  | .evaluationBegin =>
    { r with saved := before.pending :: r.saved, scope := some (before.pending, before.published) }
  | .rollback => { r with saved := r.saved.tail }
  | .commit =>
    { r with
      saved := r.saved.tail
      published := if r.saved.length = 1 then before.pending else r.published }
  | .clear => { r with published := [] }
  | .advanceTopology topologyEpoch =>
    { r with published := if topologyEpoch = before.topologyEpoch then r.published else [] }
  | .accumulate _ => r
  | .resolve _ _ => r
  | .commitAndRestore => r
  | .replaceBudget _ => r

/-- The record after a call; a call that throws leaves no trace. -/
def Record.next (r : Record τ payload) (step : Step τ payload) : Record τ payload :=
  match step.result with
  | .ok _ => r.returned step.before step.call
  | .error _ => r

/-- The record of a run. -/
def record (steps : List (Step τ payload)) : Record τ payload :=
  steps.foldl Record.next ⟨[], [], none⟩

/-- No two fragments have one identity. -/
def Distinct (entries : List (InterfaceFluxFragment τ payload)) : Prop :=
  entries.Pairwise fun a b => a.key.sameIdentity b.key = false

/-- The payload terms of fragments. -/
def totalTerms (entries : List (InterfaceFluxFragment τ payload)) : ℕ :=
  (entries.map fun entry => payloadTerms traits entry.payload).sum

/-- The law of one call after the calls of the record. -/
structure Lawful (r : Record τ payload) (step : Step τ payload) : Prop where
  /-- A call that throws leaves the ledger as it was. -/
  thrown : ∀ e, step.result = .error e → step.after = step.before
  /-- Published is what was pending at the last outermost commit, unless it was cleared since. -/
  published : step.after.published = (r.next step).published
  /-- Every published fragment has a resolved weight and the current topology epoch. -/
  current : ∀ entry ∈ step.after.published, entry.measure.stageWeightResolved = true ∧
    entry.key.topologyEpoch = step.after.topologyEpoch
  /-- No two pending and no two published fragments share an identity. -/
  distinct : Distinct step.after.pending ∧ Distinct step.after.published
  /-- A rollback restores what was pending at the matching begin. -/
  rollback : step.call = .rollback → ∀ x, step.result = .ok x →
    r.saved.head? = some step.after.pending
  /-- An evaluation is left by a rollback only; then everything stands as at its begin. -/
  evaluation : step.before.evaluation = true → step.after.evaluation = false →
    step.call = .rollback ∧ r.scope = some (step.after.pending, step.after.published)
  /-- The published fragments and payload terms are within the budget. -/
  budget : step.after.published.length ≤ step.after.budget.maxFragmentsPerWindow.toNat ∧
    totalTerms traits step.after.published ≤ step.after.budget.maxPayloadTermsPerWindow.toNat
  /-- A published commit that is restored gives back the ledger before its publication. -/
  restored : step.call = .commitAndRestore → step.after = step.before

/-! ## The invariant -/

/-- What a ledger holds after the run of a record. -/
structure Tracks (s : InterfaceFluxLedger τ payload) (r : Record τ payload) : Prop where
  savepoints : s.savepoints = r.saved.map List.length
  /-- What was pending at a begin is still the beginning of what is pending. -/
  chain : (s.pending :: r.saved).IsChain fun inner outer => outer <+: inner
  /-- The outermost transaction was begun with nothing pending. -/
  outermost : (s.pending :: r.saved).getLast? = some []
  published : s.published = r.published
  current : ∀ entry ∈ s.published, entry.measure.stageWeightResolved = true ∧
    entry.key.topologyEpoch = s.topologyEpoch
  pendingEpoch : ∀ entry ∈ s.pending, entry.key.topologyEpoch = s.topologyEpoch
  distinctPending : Distinct s.pending
  distinctPublished : Distinct s.published
  evaluation : s.evaluation = true → ∃ outer, r.saved = [outer, []] ∧
    r.scope = some (outer, s.published)
  budget : s.published.length ≤ s.budget.maxFragmentsPerWindow.toNat ∧
    totalTerms traits s.published ≤ s.budget.maxPayloadTermsPerWindow.toNat

/-! ## What a call that returns did -/

section Inversion

variable {traits} {s t : InterfaceFluxLedger τ payload} {x : PUnit}

/-- The checked sum is the sum. -/
lemma payloadTermsOf_eq_ok {entries : List (InterfaceFluxFragment τ payload)} :
    ∀ {start result : ℕ}, payloadTermsOf traits start entries = .ok result →
      result = start + totalTerms traits entries := by
  induction entries with
  | nil =>
    intro start result h
    simp only [payloadTermsOf, pure_eq_ok] at h
    simp [totalTerms, h]
  | cons entry rest ih =>
    intro start result h
    simp only [payloadTermsOf, bind_eq_ok] at h
    obtain ⟨_, -, hrest⟩ := h
    rw [ih hrest, totalTerms, totalTerms, List.map_cons, List.sum_cons]
    omega

/-- Fragments that pass the check are within the budget. -/
lemma requireWithinBudget_eq_ok {entries : List (InterfaceFluxFragment τ payload)}
    {budget : InterfaceFluxLedgerBudget} {phase : String} {u : Unit}
    (h : requireWithinBudget traits entries budget phase = .ok u) :
    entries.length ≤ budget.maxFragmentsPerWindow.toNat ∧
      totalTerms traits entries ≤ budget.maxPayloadTermsPerWindow.toNat := by
  simp only [requireWithinBudget, bind_eq_ok, throwIf_eq_ok, exists_const] at h
  obtain ⟨hlength, terms, hterms, hle⟩ := h
  have hsum := payloadTermsOf_eq_ok hterms
  omega

/-- A savepoint was pushed. -/
lemma begin_eq_ok (h : InterfaceFluxLedger.begin s = (.ok x, t)) :
    s.evaluation = false ∧
      t = { s with savepoints := s.pending.length :: s.savepoints, evaluation := false } := by
  simp only [InterfaceFluxLedger.begin, Method.bind_eq_ok, Method.inspect_eq_ok,
    Method.update_eq_ok] at h
  obtain ⟨prepared, _, ⟨hprepared, rfl⟩, rfl⟩ := h
  simp only [prepareBegin, bind_eq_ok, throwIf_eq_ok, pure_eq_ok, exists_const] at hprepared
  obtain ⟨heval, -, rfl⟩ := hprepared
  exact ⟨by simpa using heval, rfl⟩

/-- A savepoint was pushed on the outermost transaction, and the evaluation was entered. -/
lemma evaluationBegin_eq_ok (h : evaluationBegin s = (.ok x, t)) :
    s.savepoints.length = 1 ∧
      t = { s with savepoints := s.pending.length :: s.savepoints, evaluation := true } := by
  simp only [evaluationBegin, Method.bind_eq_ok, Method.inspect_eq_ok, Method.update_eq_ok] at h
  obtain ⟨prepared, _, ⟨hprepared, rfl⟩, rfl⟩ := h
  simp only [prepareEvaluationBegin, prepareBegin, bind_eq_ok, throwIf_eq_ok, pure_eq_ok,
    exists_const] at hprepared
  obtain ⟨hdepth, _, ⟨-, -, rfl⟩, rfl⟩ := hprepared
  exact ⟨not_not.mp hdepth, rfl⟩

/-- Candidates that pass the loop are new, distinct and of the current epoch. -/
lemma checkCandidates_eq_ok {limit : ℕ} {entries : List (InterfaceFluxFragment τ payload)} :
    ∀ {earlier : List (InterfaceFluxFragment τ payload)} {terms : ℕ} {u : Unit},
      checkCandidates traits s limit earlier terms entries = .ok u →
      Distinct (s.pending ++ earlier) →
      Distinct (s.pending ++ (earlier ++ entries)) ∧
        ∀ entry ∈ entries, entry.key.topologyEpoch = s.topologyEpoch := by
  induction entries with
  | nil =>
    intro earlier terms u _ hdistinct
    refine ⟨by rwa [List.append_nil], fun entry hentry => ?_⟩
    cases hentry
  | cons candidate rest ih =>
    intro earlier terms u h hdistinct
    simp only [checkCandidates, bind_eq_ok, throwIf_eq_ok, exists_const] at h
    obtain ⟨_, hvalid, hnew, -, hrest⟩ := h
    have hcandidate : Distinct (s.pending ++ (earlier ++ [candidate])) := by
      rw [← List.append_assoc, Distinct, List.pairwise_append]
      refine ⟨hdistinct, List.pairwise_singleton _ _, fun entry hentry c hc => ?_⟩
      rw [List.mem_singleton.mp hc]
      by_contra hsame
      rw [Bool.not_eq_false] at hsame
      rcases List.mem_append.mp hentry with hmem | hmem
      · exact hnew (Or.inl (List.any_eq_true.mpr ⟨entry, hmem, hsame⟩))
      · exact hnew (Or.inr (List.any_eq_true.mpr ⟨entry, hmem, hsame⟩))
    obtain ⟨hall, hepoch⟩ := ih hrest hcandidate
    rw [List.append_assoc earlier, List.singleton_append] at hall
    refine ⟨hall, fun entry hentry => ?_⟩
    rcases List.mem_cons.mp hentry with rfl | hentry
    · exact validateInterfaceFluxFragment_epoch hvalid
    · exact hepoch entry hentry

/-- New fragments of the current epoch were appended. -/
lemma accumulate_eq_ok {entries : List (InterfaceFluxFragment τ payload)}
    (h : accumulate traits entries s = (.ok x, t)) (hdistinct : Distinct s.pending) :
    s.savepoints ≠ [] ∧ Distinct (s.pending ++ entries) ∧
      (∀ entry ∈ entries, entry.key.topologyEpoch = s.topologyEpoch) ∧
      t = { s with pending := s.pending ++ entries } := by
  simp only [accumulate, Method.bind_eq_ok, Method.inspect_eq_ok, Method.update_eq_ok] at h
  obtain ⟨prepared, _, ⟨hprepared, rfl⟩, rfl⟩ := h
  simp only [prepareAccumulation, bind_eq_ok, throwIf_eq_ok, pure_eq_ok, exists_const] at hprepared
  obtain ⟨hopen, -, _, hcandidates, rfl⟩ := hprepared
  obtain ⟨hall, hepoch⟩ := checkCandidates_eq_ok hcandidates (by rwa [List.append_nil])
  rw [List.nil_append] at hall
  exact ⟨hopen, hall, hepoch, rfl⟩

/-- A pending fragment of the outermost transaction was changed in place. -/
lemma resolve_eq_ok {index : ℕ} {stageWeight : Rational}
    (h : resolvePendingStageWeight index stageWeight s = (.ok x, t)) :
    s.savepoints.length = 1 ∧
      t = { s with pending := s.pending.modify index (resolveFragment stageWeight) } := by
  simp only [resolvePendingStageWeight, Method.bind_eq_ok, Method.require_eq_ok,
    Method.update_eq_ok] at h
  obtain ⟨_, _, ⟨-, rfl⟩, _, _, ⟨hdepth, rfl⟩, _, _, ⟨-, rfl⟩, _, _, ⟨-, rfl⟩, rfl⟩ := h
  exact ⟨not_not.mp hdepth, rfl⟩

/-- The pending fragments were cut back to the innermost savepoint. -/
lemma rollback_eq_ok (h : InterfaceFluxLedger.rollback s = (.ok x, t)) :
    s.savepoints ≠ [] ∧
      t = { s with
        pending := s.pending.take (s.savepoints.headD 0)
        savepoints := s.savepoints.tail
        evaluation := false } := by
  simp only [InterfaceFluxLedger.rollback, Method.bind_eq_ok, Method.require_eq_ok,
    Method.update_eq_ok] at h
  obtain ⟨_, _, ⟨hopen, rfl⟩, rfl⟩ := h
  exact ⟨hopen, rfl⟩

/-- A commit is prepared outside of an evaluation only. -/
lemma prepareCommit_eq_ok {prepared : PreparedCommit τ payload}
    (h : prepareCommit traits s = .ok prepared) :
    s.evaluation = false ∧ s.savepoints ≠ [] ∧
      (s.pending.length ≤ s.budget.maxFragmentsPerWindow.toNat ∧
        totalTerms traits s.pending ≤ s.budget.maxPayloadTermsPerWindow.toNat) ∧
      (s.savepoints.tail = [] ∧
          (∀ entry ∈ s.pending, entry.measure.stageWeightResolved = true) ∧
          prepared = ⟨[], s.pending, [], false⟩ ∨
        s.savepoints.tail ≠ [] ∧ prepared = ⟨s.pending, s.published, s.savepoints.tail,
          false⟩) := by
  simp only [prepareCommit, bind_eq_ok, throwIf_eq_ok, exists_const] at h
  obtain ⟨heval, hopen, _, hbudget, hresolved, hprepared⟩ := h
  refine ⟨by simpa using heval, hopen, requireWithinBudget_eq_ok hbudget, ?_⟩
  split_ifs at hprepared with htail
  · refine Or.inl ⟨htail, fun entry hentry => ?_, ?_⟩
    · by_contra hunresolved
      refine hresolved ⟨?_, entry, hentry, by simpa using hunresolved⟩
      have hlength : s.savepoints.tail.length = 0 := by rw [htail]; rfl
      have hpos := List.length_pos_iff.mpr hopen
      rw [List.length_tail] at hlength
      omega
    · rw [pure_eq_ok, htail] at hprepared
      exact hprepared.symm
  · refine Or.inr ⟨htail, ?_⟩
    rw [pure_eq_ok] at hprepared
    exact hprepared.symm

/-- Publishing and restoring a prepared commit gives back the ledger. -/
lemma commitAndRestore_eq_ok (h : InterfaceFluxLedger.commitAndRestore traits s = (.ok x, t)) :
    t = s := by
  simp only [InterfaceFluxLedger.commitAndRestore, Method.bind_eq_ok, Method.inspect_eq_ok,
    Method.update_eq_ok] at h
  obtain ⟨prepared, _, ⟨-, rfl⟩, rfl⟩ := h
  rfl

/-- Nothing is open, and everything was forgotten. -/
lemma clear_eq_ok (h : InterfaceFluxLedger.clear s = (.ok x, t)) :
    s.savepoints = [] ∧ t = { s with pending := [], published := [] } := by
  simp only [InterfaceFluxLedger.clear, Method.bind_eq_ok, Method.require_eq_ok,
    Method.update_eq_ok] at h
  obtain ⟨_, _, ⟨hopen, rfl⟩, rfl⟩ := h
  exact ⟨not_not.mp hopen, rfl⟩

/-- Nothing is open, and the published fragments are within the new budget. -/
lemma replaceBudget_eq_ok {budget : InterfaceFluxLedgerBudget}
    (h : InterfaceFluxLedger.replaceBudget traits budget s = (.ok x, t)) :
    (s.published.length ≤ budget.maxFragmentsPerWindow.toNat ∧
        totalTerms traits s.published ≤ budget.maxPayloadTermsPerWindow.toNat) ∧
      t = { s with budget := budget } := by
  simp only [InterfaceFluxLedger.replaceBudget, Method.bind_eq_ok, Method.inspect_eq_ok,
    Method.update_eq_ok] at h
  obtain ⟨prepared, _, ⟨hprepared, rfl⟩, rfl⟩ := h
  simp only [prepareBudget, bind_eq_ok, throwIf_eq_ok, pure_eq_ok, exists_const] at hprepared
  obtain ⟨-, _, -, _, hbudget, rfl⟩ := hprepared
  exact ⟨requireWithinBudget_eq_ok hbudget, rfl⟩

/-- Nothing is open; a new epoch forgets everything. -/
lemma advanceTopologyEpoch_eq_ok {topologyEpoch : ℕ}
    (h : advanceTopologyEpoch topologyEpoch s = (.ok x, t)) :
    s.savepoints = [] ∧ (topologyEpoch = s.topologyEpoch ∧ t = s ∨
      topologyEpoch ≠ s.topologyEpoch ∧
        t = { s with pending := [], published := [], topologyEpoch := topologyEpoch }) := by
  simp only [advanceTopologyEpoch, Method.bind_eq_ok, Method.require_eq_ok, Method.read_eq_ok] at h
  obtain ⟨_, _, ⟨hopen, rfl⟩, _, _, ⟨-, rfl⟩, same, _, ⟨hsame, rfl⟩, hrest⟩ := h
  refine ⟨not_not.mp hopen, ?_⟩
  split_ifs at hrest with hcase
  · rw [Method.pure_eq_ok] at hrest
    exact Or.inl ⟨by simpa [hcase] using hsame, hrest.2.symm⟩
  · rw [Method.bind_eq_ok] at hrest
    obtain ⟨_, cleared, hclear, hepoch⟩ := hrest
    obtain ⟨-, rfl⟩ := clear_eq_ok hclear
    rw [Method.update_eq_ok] at hepoch
    refine Or.inr ⟨fun heq => hcase ?_, hepoch.symm⟩
    rw [← hsame, heq]
    simp

end Inversion

/-! ## Every call keeps the invariant -/

section Invariant

variable {traits} {s t : InterfaceFluxLedger τ payload} {r : Record τ payload} {x : PUnit}

/-- A part of distinct fragments is distinct. -/
lemma Distinct.of_prefix {entries begun : List (InterfaceFluxFragment τ payload)}
    (h : Distinct entries) (hbegun : begun <+: entries) : Distinct begun :=
  h.sublist hbegun.sublist

/-- The weights do not matter for the identities. -/
lemma Distinct.modify {entries : List (InterfaceFluxFragment τ payload)} (h : Distinct entries)
    (index : ℕ) (stageWeight : Rational) :
    Distinct (entries.modify index (resolveFragment stageWeight)) := by
  have hkeys : (entries.modify index (resolveFragment stageWeight)).map InterfaceFluxFragment.key =
      entries.map InterfaceFluxFragment.key := by
    apply List.ext_getElem?
    intro i
    rw [List.getElem?_map, List.getElem?_map, List.getElem?_modify]
    cases entries[i]? with
    | none => split_ifs <;> rfl
    | some entry => split_ifs <;> rfl
  have hpairs : (entries.map InterfaceFluxFragment.key).Pairwise
      fun a b => a.sameIdentity b = false := List.pairwise_map.mpr h
  rw [← hkeys] at hpairs
  exact List.pairwise_map.mp hpairs

/-- The fragments of the changed list are, up to their weight, those of the list. -/
lemma mem_modify_epoch {entries : List (InterfaceFluxFragment τ payload)} {epoch index : ℕ}
    {stageWeight : Rational} (h : ∀ entry ∈ entries, entry.key.topologyEpoch = epoch) :
    ∀ entry ∈ entries.modify index (resolveFragment stageWeight),
      entry.key.topologyEpoch = epoch := by
  intro entry hentry
  obtain ⟨i, hi⟩ := List.mem_iff_getElem?.mp hentry
  rw [List.getElem?_modify] at hi
  obtain ⟨original, horiginal, rfl⟩ := Option.map_eq_some_iff.mp hi
  have hepoch := h original (List.mem_of_getElem? horiginal)
  split_ifs
  · exact hepoch
  · exact hepoch

/-- As many transactions are open as begins are recorded. -/
lemma Tracks.depth (h : Tracks traits s r) : s.savepoints.length = r.saved.length := by
  rw [h.savepoints, List.length_map]

/-- Outside of all transactions nothing is recorded and nothing is pending. -/
lemma Tracks.closed (h : Tracks traits s r) (hclosed : s.savepoints = []) :
    r.saved = [] ∧ s.pending = [] := by
  have hdepth := h.depth
  rw [hclosed] at hdepth
  have hsaved : r.saved = [] := List.length_eq_zero_iff.mp hdepth.symm
  have hlast := h.outermost
  rw [hsaved] at hlast
  exact ⟨hsaved, Option.some.inj hlast⟩

/-- An evaluation is open inside of two transactions. -/
lemma Tracks.evaluation_depth (h : Tracks traits s r) (heval : s.evaluation = true) :
    s.savepoints.length = 2 := by
  obtain ⟨outer, hsaved, -⟩ := h.evaluation heval
  rw [h.depth, hsaved]
  rfl

/-- In the outermost transaction, what was pending at its begin is nothing. -/
lemma Tracks.outer_saved (h : Tracks traits s r) (hdepth : s.savepoints.length = 1) :
    r.saved = [[]] := by
  rw [h.depth, List.length_eq_one_iff] at hdepth
  obtain ⟨outer, houter⟩ := hdepth
  have hlast := h.outermost
  rw [houter] at hlast
  rw [houter]
  exact congrArg (fun l => [l]) (Option.some.inj hlast)

/-- Inside of a transaction: the innermost begin. -/
lemma Tracks.innermost (h : Tracks traits s r) (hopen : s.savepoints ≠ []) :
    ∃ begun rest, r.saved = begun :: rest ∧ begun <+: s.pending ∧
      s.savepoints = begun.length :: rest.map List.length ∧
      (begun :: rest).IsChain (fun inner outer => outer <+: inner) ∧
      (begun :: rest).getLast? = some [] := by
  have hlengths := h.savepoints
  have hchain := h.chain
  have hlast := h.outermost
  cases hsaved : r.saved with
  | nil =>
    rw [hsaved] at hlengths
    exact absurd hlengths hopen
  | cons begun rest =>
    rw [hsaved] at hlengths hchain hlast
    rw [List.isChain_cons_cons] at hchain
    rw [List.getLast?_cons_cons] at hlast
    exact ⟨begun, rest, rfl, hchain.1, hlengths, hchain.2, hlast⟩

/-- A transaction is opened. -/
theorem Tracks.begin (h : Tracks traits s r) (hstep : InterfaceFluxLedger.begin s = (.ok x, t)) :
    Tracks traits t (r.returned s .begin) := by
  obtain ⟨-, rfl⟩ := begin_eq_ok hstep
  refine ⟨?_, ?_, ?_, h.published, h.current, h.pendingEpoch, h.distinctPending,
    h.distinctPublished, fun heval => ?_, h.budget⟩
  · exact congrArg (List.cons s.pending.length) h.savepoints
  · exact List.isChain_cons_cons.mpr ⟨List.prefix_refl _, h.chain⟩
  · exact h.outermost
  · cases heval

/-- An evaluation is entered. -/
lemma Tracks.evaluationBegin (h : Tracks traits s r)
    (hstep : InterfaceFluxLedger.evaluationBegin s = (.ok x, t)) :
    Tracks traits t (r.returned s .evaluationBegin) := by
  obtain ⟨hdepth, rfl⟩ := evaluationBegin_eq_ok hstep
  have houter := h.outer_saved hdepth
  refine ⟨?_, ?_, ?_, h.published, h.current, h.pendingEpoch, h.distinctPending,
    h.distinctPublished, fun _ => ⟨s.pending, ?_, rfl⟩, h.budget⟩
  · exact congrArg (List.cons s.pending.length) h.savepoints
  · exact List.isChain_cons_cons.mpr ⟨List.prefix_refl _, h.chain⟩
  · exact h.outermost
  · exact congrArg (List.cons s.pending) houter

/-- Fragments join the innermost transaction. -/
theorem Tracks.accumulate {entries : List (InterfaceFluxFragment τ payload)} (h : Tracks traits s r)
    (hstep : InterfaceFluxLedger.accumulate traits entries s = (.ok x, t)) : Tracks traits t r := by
  obtain ⟨hopen, hdistinct, hepoch, rfl⟩ := accumulate_eq_ok hstep h.distinctPending
  obtain ⟨begun, rest, hsaved, hbegun, -, hchain, hlast⟩ := h.innermost hopen
  refine ⟨h.savepoints, ?_, ?_, h.published, h.current, fun entry hentry => ?_, hdistinct,
    h.distinctPublished, h.evaluation, h.budget⟩
  · rw [hsaved]
    exact List.isChain_cons_cons.mpr ⟨hbegun.trans (List.prefix_append _ _), hchain⟩
  · rw [hsaved, List.getLast?_cons_cons]
    exact hlast
  · rcases List.mem_append.mp hentry with hentry | hentry
    · exact h.pendingEpoch entry hentry
    · exact hepoch entry hentry

/-- A weight is settled in the outermost transaction, whose begin had nothing pending. -/
lemma Tracks.resolve {index : ℕ} {stageWeight : Rational} (h : Tracks traits s r)
    (hstep : resolvePendingStageWeight index stageWeight s = (.ok x, t)) : Tracks traits t r := by
  obtain ⟨hdepth, rfl⟩ := resolve_eq_ok hstep
  have houter := h.outer_saved hdepth
  refine ⟨h.savepoints, ?_, ?_, h.published, h.current, mem_modify_epoch h.pendingEpoch,
    h.distinctPending.modify index stageWeight, h.distinctPublished, fun heval => ?_, h.budget⟩
  · rw [houter]
    exact List.isChain_cons_cons.mpr ⟨List.nil_prefix, List.isChain_singleton _⟩
  · rw [houter]
    rfl
  · have := h.evaluation_depth heval
    omega

/-- The innermost transaction is rolled back: what was pending at its begin is pending again. -/
theorem Tracks.rollback (h : Tracks traits s r)
    (hstep : InterfaceFluxLedger.rollback s = (.ok x, t)) :
    Tracks traits t (r.returned s .rollback) ∧ r.saved.head? = some t.pending := by
  obtain ⟨hopen, rfl⟩ := rollback_eq_ok hstep
  obtain ⟨begun, rest, hsaved, hbegun, hlengths, hchain, hlast⟩ := h.innermost hopen
  have hpending : s.pending.take (s.savepoints.headD 0) = begun := by
    rw [hlengths]
    exact (List.prefix_iff_eq_take.mp hbegun).symm
  dsimp only
  rw [hpending]
  refine ⟨⟨?_, ?_, ?_, h.published, h.current, fun entry hentry => ?_,
    h.distinctPending.of_prefix hbegun, h.distinctPublished, fun heval => ?_, h.budget⟩, ?_⟩
  · rw [hlengths]
    simp only [Record.returned, hsaved, List.tail_cons]
  · simpa only [Record.returned, hsaved, List.tail_cons] using hchain
  · simpa only [Record.returned, hsaved, List.tail_cons] using hlast
  · exact h.pendingEpoch entry (hbegun.subset hentry)
  · cases heval
  · rw [hsaved]
    rfl

/-- The innermost transaction is committed: it joins the one around it, or it is published. -/
theorem Tracks.commit (h : Tracks traits s r)
    (hstep : InterfaceFluxLedger.commit traits s = (.ok x, t)) :
    Tracks traits t (r.returned s .commit) := by
  simp only [InterfaceFluxLedger.commit, Method.bind_eq_ok, Method.inspect_eq_ok,
    Method.update_eq_ok] at hstep
  obtain ⟨prepared, _, ⟨hprepared, rfl⟩, rfl⟩ := hstep
  obtain ⟨heval, hopen, hbudget, hcases⟩ := prepareCommit_eq_ok hprepared
  obtain ⟨begun, rest, hsaved, hbegun, hlengths, hchain, hlast⟩ := h.innermost hopen
  have hnever : ¬s.evaluation = true := by simp [heval]
  rw [hlengths, List.tail_cons] at hcases
  rcases hcases with ⟨htail, hresolved, rfl⟩ | ⟨htail, rfl⟩
  · -- the outermost transaction: everything pending is published
    obtain rfl := List.map_eq_nil_iff.mp htail
    refine ⟨?_, ?_, ?_, ?_, fun entry hentry =>
      ⟨hresolved entry hentry, h.pendingEpoch entry hentry⟩,
      fun entry hentry => ?_, List.Pairwise.nil, h.distinctPending,
      fun hopened => absurd hopened hnever, hbudget⟩
    · simp only [Record.returned, hsaved]
      rfl
    · simp only [Record.returned, hsaved]
      exact List.isChain_singleton _
    · simp only [Record.returned, hsaved]
      rfl
    · simp only [Record.returned, hsaved]
      rfl
    · cases hentry
  · -- an inner transaction: its begin is forgotten
    cases rest with
    | nil => exact absurd rfl htail
    | cons outer rest =>
      rw [List.isChain_cons_cons] at hchain
      rw [List.getLast?_cons_cons] at hlast
      refine ⟨?_, ?_, ?_, ?_, h.current, h.pendingEpoch, h.distinctPending, h.distinctPublished,
        fun hopened => absurd hopened hnever, h.budget⟩
      · simp only [Record.returned, hsaved, List.tail_cons]
        rfl
      · simp only [Record.returned, hsaved, List.tail_cons]
        exact List.isChain_cons_cons.mpr ⟨hchain.1.trans hbegun, hchain.2⟩
      · simp only [Record.returned, hsaved, List.tail_cons, List.getLast?_cons_cons]
        exact hlast
      · simp only [Record.returned, hsaved]
        exact h.published

/-- Nothing is open, and nothing is published any more. -/
lemma Tracks.forget (h : Tracks traits s r) (hclosed : s.savepoints = []) (epoch : ℕ) :
    Tracks traits { s with pending := [], published := [], topologyEpoch := epoch }
      { r with published := [] } := by
  obtain ⟨hsaved, -⟩ := h.closed hclosed
  refine ⟨h.savepoints, ?_, ?_, rfl, fun entry hentry => ?_, fun entry hentry => ?_,
    List.Pairwise.nil, List.Pairwise.nil, fun heval => ?_, Nat.zero_le _, Nat.zero_le _⟩
  · rw [hsaved]
    exact List.isChain_singleton _
  · rw [hsaved]
    rfl
  · cases hentry
  · cases hentry
  · have hdepth := h.evaluation_depth heval
    rw [hclosed] at hdepth
    cases hdepth

/-- **Every call that returns keeps the invariant.** -/
theorem Tracks.perform (h : Tracks traits s r) {call : Call τ payload}
    (hstep : call.perform traits s = (.ok x, t)) : Tracks traits t (r.returned s call) := by
  cases call with
  | begin => exact h.begin hstep
  | evaluationBegin => exact h.evaluationBegin hstep
  | accumulate entries => exact h.accumulate hstep
  | resolve index stageWeight => exact h.resolve hstep
  | rollback => exact (h.rollback hstep).1
  | commit => exact h.commit hstep
  | commitAndRestore =>
    obtain rfl := commitAndRestore_eq_ok hstep
    exact h
  | clear =>
    obtain ⟨hclosed, rfl⟩ := clear_eq_ok hstep
    exact h.forget hclosed s.topologyEpoch
  | replaceBudget budget =>
    obtain ⟨hbudget, rfl⟩ := replaceBudget_eq_ok hstep
    exact ⟨h.savepoints, h.chain, h.outermost, h.published, h.current, h.pendingEpoch,
      h.distinctPending, h.distinctPublished, h.evaluation, hbudget⟩
  | advanceTopology topologyEpoch =>
    obtain ⟨hclosed, ⟨hsame, rfl⟩ | ⟨hnew, rfl⟩⟩ := advanceTopologyEpoch_eq_ok hstep
    · simp only [Record.returned, if_pos hsame]
      exact h
    · simp only [Record.returned, if_neg hnew]
      exact h.forget hclosed topologyEpoch

/-- An evaluation is left by a rollback only. -/
lemma Tracks.leave_evaluation (h : Tracks traits s r) {call : Call τ payload}
    (hstep : call.perform traits s = (.ok x, t)) (hbefore : s.evaluation = true)
    (hafter : t.evaluation = false) :
    call = .rollback ∧ r.scope = some (t.pending, t.published) := by
  have hsame : t.evaluation = s.evaluation → call = .rollback ∧
      r.scope = some (t.pending, t.published) := by
    intro heq
    rw [heq, hbefore] at hafter
    cases hafter
  cases call with
  | begin => exact absurd hbefore (by simp [(begin_eq_ok hstep).1])
  | evaluationBegin =>
    have hdepth := h.evaluation_depth hbefore
    have hone := (evaluationBegin_eq_ok hstep).1
    omega
  | accumulate entries =>
    obtain ⟨-, -, -, rfl⟩ := accumulate_eq_ok hstep h.distinctPending
    exact hsame rfl
  | resolve index stageWeight =>
    obtain ⟨-, rfl⟩ := resolve_eq_ok hstep
    exact hsame rfl
  | rollback =>
    obtain ⟨outer, hsaved, hscope⟩ := h.evaluation hbefore
    have hhead := (h.rollback hstep).2
    obtain ⟨-, rfl⟩ := rollback_eq_ok hstep
    rw [hsaved] at hhead
    refine ⟨rfl, ?_⟩
    rw [hscope, Option.some.inj hhead]
  | commit =>
    have hcommit := hstep
    simp only [Call.perform, InterfaceFluxLedger.commit, Method.bind_eq_ok,
      Method.inspect_eq_ok] at hcommit
    obtain ⟨prepared, _, ⟨hprepared, rfl⟩, -⟩ := hcommit
    exact absurd hbefore (by simp [(prepareCommit_eq_ok hprepared).1])
  | commitAndRestore => exact hsame (by rw [commitAndRestore_eq_ok hstep])
  | clear =>
    obtain ⟨-, rfl⟩ := clear_eq_ok hstep
    exact hsame rfl
  | replaceBudget budget =>
    obtain ⟨-, rfl⟩ := replaceBudget_eq_ok hstep
    exact hsame rfl
  | advanceTopology topologyEpoch =>
    obtain ⟨-, ⟨-, rfl⟩ | ⟨-, rfl⟩⟩ := advanceTopologyEpoch_eq_ok hstep
    · exact hsame rfl
    · exact hsame rfl

end Invariant

/-! ## Whole runs -/

section Runs

variable {traits} {s : InterfaceFluxLedger τ payload} {r : Record τ payload}

/-- The invariant after a call, whether it returned or threw. -/
lemma Tracks.next (h : Tracks traits s r) (call : Call τ payload) :
    Tracks traits (call.perform traits s).2
      (r.next ⟨s, call, (call.perform traits s).1, (call.perform traits s).2⟩) := by
  rcases hcase : call.perform traits s with ⟨result, t⟩
  cases result with
  | ok x => exact h.perform hcase
  | error e =>
    have hatomic := call.perform_atomic traits s e (by rw [hcase])
    rw [hcase] at hatomic
    obtain rfl : t = s := hatomic
    exact h

/-- **One call**: it obeys the law. -/
theorem Tracks.lawful (h : Tracks traits s r) (call : Call τ payload) :
    Lawful traits r ⟨s, call, (call.perform traits s).1, (call.perform traits s).2⟩ := by
  have hnext := h.next call
  have hatomic := call.perform_atomic traits s
  rcases hcase : call.perform traits s with ⟨result, t⟩
  rw [hcase] at hnext hatomic
  refine ⟨hatomic, hnext.published, hnext.current, ⟨hnext.distinctPending, hnext.distinctPublished⟩,
    fun hcall x hok => ?_, fun hbefore hafter => ?_, hnext.budget, fun hcall => ?_⟩
  · obtain rfl : call = .rollback := hcall
    obtain rfl : result = .ok x := hok
    exact (h.rollback hcase).2
  · cases result with
    | ok x => exact h.leave_evaluation hcase hbefore hafter
    | error e =>
      obtain rfl : t = s := hatomic e rfl
      change t.evaluation = true at hbefore
      change t.evaluation = false at hafter
      rw [hbefore] at hafter
      cases hafter
  · obtain rfl : call = .commitAndRestore := hcall
    cases result with
    | ok x => exact commitAndRestore_eq_ok hcase
    | error e => exact hatomic e rfl

/-- Every call of a run obeys the law after the calls before it. -/
lemma Tracks.lawful_trace (calls : List (Call τ payload)) :
    ∀ {s : InterfaceFluxLedger τ payload} {r : Record τ payload}, Tracks traits s r →
      ∀ past step rest, trace traits s calls = past ++ step :: rest →
        Lawful traits (past.foldl Record.next r) step := by
  induction calls with
  | nil =>
    intro s r _ past step rest htrace
    cases past <;> cases htrace
  | cons call calls ih =>
    intro s r h past step rest htrace
    rw [trace] at htrace
    cases past with
    | nil =>
      obtain ⟨rfl, -⟩ := List.cons.inj htrace
      exact h.lawful call
    | cons first past =>
      obtain ⟨rfl, hrest⟩ := List.cons.inj htrace
      exact ih (h.next call) past step rest hrest

end Runs

/-- A new ledger holds nothing. -/
lemma tracks_create {topologyEpoch : ℕ} {budget : InterfaceFluxLedgerBudget}
    {ledger : InterfaceFluxLedger τ payload} (h : create topologyEpoch budget = .ok ledger) :
    Tracks traits ledger ⟨[], [], none⟩ := by
  simp only [create, bind_eq_ok, pure_eq_ok] at h
  obtain ⟨_, -, rfl⟩ := h
  refine ⟨rfl, List.isChain_singleton _, rfl, rfl, fun entry hentry => ?_, fun entry hentry => ?_,
    List.Pairwise.nil, List.Pairwise.nil, fun heval => ?_, Nat.zero_le _, Nat.zero_le _⟩
  · cases hentry
  · cases hentry
  · cases heval

section Example

/-- Fragments of one interface whose payload is one number, with exact times. -/
def exampleTraits : InterfaceFluxTraits ℚ ℤ where
  arithmetic :=
    { isFinite := fun _ => true
      less := fun a b => decide (a < b)
      isPositive := fun a => decide (0 < a)
      disagree := fun a b c => decide (b - a ≠ c) }
  size := fun _ => 1

/-- A budget for two fragments and one evaluated fragment. -/
def exampleBudget : InterfaceFluxLedgerBudget := ⟨2, 2, 2, "budget", 1, 1⟩

/-- A fragment of the named stage on the unit interval. -/
def exampleFragment (stage : String) (resolved : Bool) : InterfaceFluxFragment ℚ ℤ where
  key :=
    { interfaceIdentity := "interface"
      topologyEpoch := 3
      coarseLevel := 0
      fineLevel := 1
      clock := ⟨0, 0, ⟨0, 1⟩, 0⟩
      stageIdentity := stage
      graphIdentity := "graph"
      rateIdentity := "rate"
      applicationIdentity := "application"
      interval := ⟨⟨0, 0, ⟨0, 1⟩, 0⟩, ⟨0, 0, ⟨1, 1⟩, 1⟩⟩
      orientation := .coarseOutward
      leftBlock := 0
      rightBlock := 1 }
  measure := ⟨⟨1, 1⟩, 1, 1, resolved⟩
  payload := 7

/-- A fragment is accumulated unresolved, another one inside of an evaluation that is rolled back,
and the first is resolved and published. -/
def exampleCalls : List (Call ℚ ℤ) :=
  [.begin, .accumulate [exampleFragment "first" false], .evaluationBegin,
    .accumulate [exampleFragment "second" true], .rollback, .commit, .resolve 0 ⟨1, 2⟩,
    .commitAndRestore, .commit]

/-- The run of the example. -/
def exampleTrace : List (Step ℚ ℤ) :=
  trace exampleTraits ⟨3, exampleBudget, [], [], [], false⟩ exampleCalls

end Example

end InterfaceFluxLedger

end Pops
