import Pops.Amr.Reflux.FaceFluxLedger

/-!
# Histories of the face-flux ledger

What a face-flux ledger holds after any sequence of calls, told from the calls that returned.  Each
accumulated fragment has a fate: how many of the transactions around it are still open, or that it
was undone or removed.  The published fragments are those whose transactions were all committed.

## Main definitions

* `Pops.FluxLedger.execute` — the ledger after a sequence of calls and the calls that returned.
* `Pops.FluxLedger.fates` — the accumulated fragments of a history, each with its fate.
* `Pops.FluxLedger.outerAttempts`, `closedAttempts` — the attempts of the outer transactions since
  the last clear.

## Main results

* `Pops.fluxLedger_publishes_surviving_fragments` — the ledger over whole histories.
-/

namespace Pops

namespace FluxLedger

variable {d : ℕ} {τ payload : Type}

/-! ## Histories -/

/-- One more call: its effect on the ledger, and its record when it returned. -/
def executeCall (arithmetic : FluxArithmetic τ)
    (run : FluxLedger d τ payload × List (Call d τ payload)) (call : Call d τ payload) :
    FluxLedger d τ payload × List (Call d τ payload) :=
  match call.perform arithmetic run.1 with
  | (.ok _, ledger) => (ledger, run.2 ++ [call])
  | (.error _, ledger) => (ledger, run.2)

/-- The ledger after a sequence of calls, and the calls that returned. -/
def execute (arithmetic : FluxArithmetic τ) (ledger : FluxLedger d τ payload)
    (calls : List (Call d τ payload)) : FluxLedger d τ payload × List (Call d τ payload) :=
  calls.foldl (executeCall arithmetic) (ledger, [])

/-- The call is a commit. -/
def Call.isCommit : Call d τ payload → Bool
  | .commit => true
  | _ => false

/-- The number of open transactions after one more call. -/
def depthStep (depth : ℕ) : Call d τ payload → ℕ
  | .begin _ => depth + 1
  | .commit => depth - 1
  | .rollback => depth - 1
  | _ => depth

/-- The number of open transactions at the end of a history. -/
def depth (history : List (Call d τ payload)) : ℕ := history.foldl depthStep 0

/-- Where a fragment stands: the number of transactions around it that are open, and the number of
transactions opened inside them since. -/
structure Standing where
  enclosing : ℕ
  inner : ℕ
  deriving DecidableEq, Repr

/-- The fate of a fragment after one more call.  A commit closes the innermost open transaction,
and a rollback of a transaction around the fragment undoes it. -/
def fateStep (attempt : ℕ) : Option Standing → Call d τ payload → Option Standing
  | none, _ => none
  | some s, .begin _ => some ⟨s.enclosing, s.inner + 1⟩
  | some s, .commit =>
    if 0 < s.inner then some ⟨s.enclosing, s.inner - 1⟩ else some ⟨s.enclosing - 1, 0⟩
  | some s, .rollback => if 0 < s.inner then some ⟨s.enclosing, s.inner - 1⟩ else none
  | some _, .clear => none
  | some s, .accumulate _ => some s
  | some s, .discardPublishedAttempt discarded => if discarded = attempt then none else some s

/-- The accumulated fragments of a history that starts at the given depth, in order, each with its
fate at the end of the history. -/
def fatesFrom (depth : ℕ) : List (Call d τ payload) →
    List (FaceFluxFragment d τ payload × Option Standing)
  | [] => []
  | .accumulate entry :: rest =>
    (entry, rest.foldl (fateStep entry.key.attempt) (some ⟨depth, 0⟩)) :: fatesFrom depth rest
  | call :: rest => fatesFrom (depthStep depth call) rest

/-- The accumulated fragments of a history, in order, each with its fate. -/
def fates (history : List (Call d τ payload)) :
    List (FaceFluxFragment d τ payload × Option Standing) :=
  fatesFrom 0 history

/-- All transactions around the fragment were committed. -/
def survives : Option Standing → Bool
  | some s => s.enclosing = 0
  | none => false

/-- Some transaction around the fragment is open. -/
def waits : Option Standing → Bool
  | some s => 0 < s.enclosing
  | none => false

/-- The fragments on an axis whose fate is as asked, in order. -/
def select (p : Option Standing → Bool) (axis : Fin d)
    (fragments : List (FaceFluxFragment d τ payload × Option Standing)) :
    List (FaceFluxFragment d τ payload) :=
  (fragments.filter fun f => p f.2 && decide (f.1.key.axis = ((axis : ℕ) : ℤ))).map Prod.fst

/-- The attempts of the outer transactions opened since the last clear, after one more call; the
depth is kept beside them. -/
def attemptStep (state : ℕ × List ℕ) : Call d τ payload → ℕ × List ℕ
  | .begin attempt => (state.1 + 1, if state.1 = 0 then state.2 ++ [attempt] else state.2)
  | .clear => (state.1, [])
  | call => (depthStep state.1 call, state.2)

/-- The attempts of the outer transactions opened since the last clear, in order. -/
def outerAttempts (history : List (Call d τ payload)) : List ℕ :=
  (history.foldl attemptStep (0, [])).2

/-- The attempts of the outer transactions opened since the last clear and closed. -/
def closedAttempts (history : List (Call d τ payload)) : List ℕ :=
  if depth history = 0 then outerAttempts history else (outerAttempts history).dropLast

/-- The fragments of a ledger, pending and published, on all axes. -/
def entries (ledger : FluxLedger d τ payload) : List (FaceFluxFragment d τ payload) :=
  (List.finRange d).flatMap fun axis => ledger.pending axis ++ ledger.published axis

/-! ## One more call -/

section Append

variable (history : List (Call d τ payload)) (call : Call d τ payload)

/-- The depth of the savepoints after one more call. -/
@[simp] lemma depth_append : depth (history ++ [call]) = depthStep (depth history) call := by
  simp [depth]

/-- The fates move on by one step; an accumulated fragment joins with all open transactions
around it. -/
lemma fatesFrom_append (start : ℕ) :
    fatesFrom start (history ++ [call]) =
      (fatesFrom start history).map (fun f => (f.1, fateStep f.1.key.attempt f.2 call)) ++
        fatesFrom (history.foldl depthStep start) [call] := by
  induction history generalizing start with
  | nil => rfl
  | cons first rest ih =>
    cases first with
    | accumulate entry =>
      simp only [List.cons_append, fatesFrom, List.foldl_append, List.foldl_cons, List.foldl_nil,
        List.map_cons, ih start]
      rfl
    | _ => exact ih _

/-- One more call moves the fates of the earlier fragments and adds those that it stages. -/
lemma fates_append :
    fates (history ++ [call]) =
      (fates history).map (fun f => (f.1, fateStep f.1.key.attempt f.2 call)) ++
        fatesFrom (depth history) [call] :=
  fatesFrom_append history call 0

/-- The attempts keep the depth. -/
lemma attempts_depth : (history.foldl attemptStep (0, [])).1 = depth history := by
  induction history using List.reverseRecOn with
  | nil => rfl
  | append_singleton history call ih =>
    rw [List.foldl_append, depth_append, ← ih]
    cases call <;> rfl

/-- The outer attempts after one more call. -/
lemma outerAttempts_append : outerAttempts (history ++ [call]) =
    (attemptStep (depth history, outerAttempts history) call).2 := by
  rw [outerAttempts, List.foldl_append, List.foldl_cons, List.foldl_nil, ← attempts_depth]
  rfl

end Append

/-- The selected fragments of a concatenation. -/
lemma select_append (p : Option Standing → Bool) (axis : Fin d)
    (l l' : List (FaceFluxFragment d τ payload × Option Standing)) :
    select p axis (l ++ l') = select p axis l ++ select p axis l' := by
  simp [select]

/-! ## What a call that returns did -/

section Inversion

variable {arithmetic : FluxArithmetic τ} {s t : FluxLedger d τ payload}

/-- A savepoint was pushed; an outer transaction fixes the attempt. -/
lemma begin_eq_ok {attempt : ℕ} {x : PUnit} (h : begin attempt s = (.ok x, t)) :
    (s.activeAttempt = none ∧ (∀ last ∈ s.lastClosedAttempt, last < attempt) ∧
      t = { s with savepoints := (fun axis => (s.pending axis).length) :: s.savepoints,
                   activeAttempt := some attempt }) ∨
    (s.activeAttempt = some attempt ∧
      t = { s with savepoints := (fun axis => (s.pending axis).length) :: s.savepoints }) := by
  simp only [begin, Method.bind_eq_ok, Method.read_eq_ok, Method.update_eq_ok] at h
  obtain ⟨outer, _, ⟨houter, rfl⟩, _, _, hcheck, _, _, hdepth, _, _, rfl, hlast⟩ := h
  rw [Method.require_eq_ok] at hdepth
  obtain ⟨-, rfl⟩ := hdepth
  cases hactive : s.activeAttempt with
  | none =>
    obtain rfl : outer = true := by simpa [hactive] using houter.symm
    simp only [checkAttempt, not_true_eq_false, if_false, Method.require_eq_ok] at hcheck
    obtain ⟨hlt, rfl⟩ := hcheck
    simp only [if_true, Method.update_eq_ok] at hlast
    refine .inl ⟨rfl, fun last hmem => ?_, hlast.symm⟩
    by_contra hle
    exact hlt ⟨last, hmem, by omega⟩
  | some active =>
    obtain rfl : outer = false := by simpa [hactive] using houter.symm
    simp only [checkAttempt, Bool.false_eq_true, not_false_eq_true, if_true,
      Method.require_eq_ok] at hcheck
    obtain ⟨heq, rfl⟩ := hcheck
    simp only [Bool.false_eq_true, if_false, Method.pure_eq_ok] at hlast
    rw [← hactive]
    exact .inr ⟨not_not.mp heq, hlast.2.symm⟩

/-- A nested transaction was joined to the one around it, or everything pending was published. -/
lemma commit_eq_ok {x : PUnit} (h : commit s = (.ok x, t)) :
    (1 < s.savepoints.length ∧ t = { s with savepoints := s.savepoints.tail }) ∨
    (s.savepoints.length = 1 ∧
      t = { s with published := fun axis => s.published axis ++ s.pending axis,
                   pending := fun _ => [], savepoints := s.savepoints.tail,
                   lastClosedAttempt := s.activeAttempt, activeAttempt := none }) := by
  simp only [commit, requireTransaction, Method.bind_eq_ok, Method.require_eq_ok,
    Method.read_eq_ok] at h
  obtain ⟨_, _, ⟨hne, rfl⟩, nested, _, ⟨hnested, rfl⟩, h⟩ := h
  have hpos : 0 < s.savepoints.length := List.length_pos_iff.mpr hne
  by_cases hlong : 1 < s.savepoints.length
  · obtain rfl : nested = true := by simpa [hlong] using hnested.symm
    simp only [if_true, Method.update_eq_ok] at h
    exact .inl ⟨hlong, h.symm⟩
  · obtain rfl : nested = false := by simpa [hlong] using hnested.symm
    simp only [Bool.false_eq_true, if_false, closeOuterTransaction, Method.bind_eq_ok,
      Method.require_eq_ok, Method.update_eq_ok] at h
    obtain ⟨_, _, ⟨-, rfl⟩, _, _, rfl, _, _, rfl, h⟩ := h
    exact .inr ⟨by omega, h.symm⟩

/-- The pending fragments were cut back to the savepoint. -/
lemma rollback_eq_ok {x : PUnit} (h : rollback s = (.ok x, t)) :
    ∃ sizes rest, s.savepoints = sizes :: rest ∧
      t = { s with pending := fun axis => (s.pending axis).take (sizes axis), savepoints := rest,
                   lastClosedAttempt := if rest = [] then s.activeAttempt else s.lastClosedAttempt,
                   activeAttempt := if rest = [] then none else s.activeAttempt } := by
  simp only [rollback, requireTransaction, Method.bind_eq_ok, Method.require_eq_ok,
    Method.read_eq_ok, Method.update_eq_ok] at h
  obtain ⟨_, _, ⟨hne, rfl⟩, _, _, rfl, _, _, rfl, closed, _, ⟨hclosed, rfl⟩, h⟩ := h
  obtain ⟨sizes, rest, hsavepoints⟩ := List.exists_cons_of_ne_nil hne
  refine ⟨sizes, rest, hsavepoints, ?_⟩
  rw [hsavepoints] at hclosed h
  cases rest with
  | nil =>
    obtain rfl : closed = true := by simpa using hclosed.symm
    simp only [if_true, Method.update_eq_ok] at h
    exact h.symm
  | cons next rest =>
    obtain rfl : closed = false := by simpa using hclosed.symm
    simp only [Bool.false_eq_true, if_false, Method.pure_eq_ok] at h
    exact h.2.symm

/-- Everything was forgotten. -/
lemma clear_eq_ok {x : PUnit} (h : clear s = (.ok x, t)) :
    s.savepoints = [] ∧
      t = { s with
        pending := fun _ => [], published := fun _ => [], lastClosedAttempt := none } := by
  simp only [clear, Method.bind_eq_ok, Method.require_eq_ok, Method.update_eq_ok, not_not] at h
  obtain ⟨_, _, ⟨hempty, rfl⟩, _, _, rfl, _, _, rfl, h⟩ := h
  exact ⟨hempty, h.symm⟩

/-- A fragment with a new identity was appended. -/
lemma accumulate_eq_ok {entry : FaceFluxFragment d τ payload} {x : PUnit}
    (h : accumulate arithmetic entry s = (.ok x, t)) :
    s.savepoints ≠ [] ∧ s.activeAttempt = some entry.key.attempt ∧ ∃ axis : Fin d,
      entry.key.axis = (axis : ℕ) ∧ containsIdentity (s.pending axis) entry.key = false ∧
      containsIdentity (s.published axis) entry.key = false ∧
      t = { s with pending := Function.update s.pending axis (s.pending axis ++ [entry]) } := by
  simp only [accumulate, requireTransaction, Method.bind_eq_ok, Method.require_eq_ok,
    Method.call_eq_ok, Method.update_eq_ok, not_not, not_or] at h
  obtain ⟨_, _, ⟨hne, rfl⟩, _, _, ⟨hactive, rfl⟩, axis, _, ⟨hvalid, rfl⟩, _, _, ⟨-, rfl⟩, _, _,
    ⟨⟨hpending, hpublished⟩, rfl⟩, h⟩ := h
  exact ⟨hne, hactive, axis, validateFaceFluxFragment_axis hvalid, by simpa using hpending,
    by simpa using hpublished, h.symm⟩

/-- The published fragments of the attempt were removed. -/
lemma discardPublishedAttempt_eq_ok {attempt : ℕ} {x : ℕ}
    (h : discardPublishedAttempt attempt s = (.ok x, t)) :
    s.savepoints = [] ∧
      t = { s with published := fun axis => (s.published axis).filter fun entry =>
              entry.key.attempt ≠ attempt } := by
  simp only [discardPublishedAttempt, Method.bind_eq_ok, Method.require_eq_ok, Method.read_eq_ok,
    Method.update_eq_ok, Method.pure_eq_ok, not_not] at h
  obtain ⟨_, _, ⟨hempty, rfl⟩, _, _, ⟨-, rfl⟩, _, _, rfl, -, h⟩ := h
  exact ⟨hempty, h.symm⟩

end Inversion

/-! ## The invariant -/

/-- The transactions around a fragment that waits, at most one less than `level` of them. -/
def waitsBelow (level : ℕ) : Option Standing → Bool
  | some s => 0 < s.enclosing ∧ s.enclosing < level
  | none => false

/-- What a ledger holds after a history of calls that returned. -/
structure Tracks (ledger : FluxLedger d τ payload) (history : List (Call d τ payload)) : Prop where
  depth_eq : ledger.savepoints.length = depth history
  standing : ∀ f ∈ fates history, ∀ s, f.2 = some s → s.enclosing + s.inner = depth history
  published : ∀ axis, ledger.published axis = select survives axis (fates history)
  pending : ∀ axis, ledger.pending axis = select waits axis (fates history)
  /-- Later fragments stand at least as deep. -/
  ordered : (fates history).Pairwise fun f g => ∀ s t, f.2 = some s → g.2 = some t →
    s.enclosing ≤ t.enclosing
  /-- A savepoint counts the fragments that stand outside of its transaction. -/
  savepoints : ∀ k sizes, ledger.savepoints[k]? = some sizes → ∀ axis, sizes axis =
    (select (waitsBelow (ledger.savepoints.length - k)) axis (fates history)).length
  distinct : (fates history).Pairwise fun f g => f.2.isSome → g.2.isSome →
    f.1.key.sameIdentity g.1.key = false
  onAxis : ∀ f ∈ fates history, ∃ axis : Fin d, f.1.key.axis = (axis : ℕ)

section Selection

variable {l : List (FaceFluxFragment d τ payload × Option Standing)} {axis : Fin d}

/-- Selecting after a change of the fates is selecting by the changed fate. -/
lemma select_map (p q : Option Standing → Bool)
    (g : FaceFluxFragment d τ payload × Option Standing → Option Standing)
    (h : ∀ f ∈ l, p (g f) = q f.2) :
    select p axis (l.map fun f => (f.1, g f)) = select q axis l := by
  induction l with
  | nil => rfl
  | cons f l ih =>
    have ih' := ih fun f hf => h f (by simp [hf])
    simp only [select, List.map_cons, List.filter_cons] at ih' ⊢
    rw [h f (by simp)]
    split_ifs
    · simp only [List.map_cons, ih']
    · exact ih'

/-- The selected fragments come from the list. -/
lemma mem_select {p : Option Standing → Bool} {entry : FaceFluxFragment d τ payload} :
    entry ∈ select p axis l ↔
      ∃ x, (entry, x) ∈ l ∧ p x = true ∧ entry.key.axis = (axis : ℕ) := by
  simp only [select, List.mem_map, List.mem_filter, Bool.and_eq_true, decide_eq_true_eq]
  constructor
  · rintro ⟨⟨entry', x⟩, ⟨hmem, hp, haxis⟩, rfl⟩
    exact ⟨x, hmem, hp, haxis⟩
  · rintro ⟨x, hmem, hp, haxis⟩
    exact ⟨(entry, x), ⟨hmem, hp, haxis⟩, rfl⟩

/-- Where later fragments stand at least as deep, the fragments outside of a transaction are the
first ones that wait. -/
lemma take_select_waits {level : ℕ}
    (hordered : l.Pairwise fun f g => ∀ s t, f.2 = some s → g.2 = some t →
      s.enclosing ≤ t.enclosing) :
    (select waits axis l).take (select (waitsBelow level) axis l).length =
      select (waitsBelow level) axis l := by
  induction l with
  | nil => rfl
  | cons f l ih =>
    obtain ⟨hf, hl⟩ := List.pairwise_cons.mp hordered
    have ih' := ih hl
    obtain ⟨entry, x⟩ := f
    by_cases haxis : entry.key.axis = (axis : ℕ)
    swap
    · simpa only [select, List.filter_cons, haxis, decide_false, Bool.and_false,
        Bool.false_eq_true, if_false] using ih'
    cases x with
    | none => simpa only [select, List.filter_cons, waits, waitsBelow, Bool.false_and,
        Bool.false_eq_true, if_false] using ih'
    | some s =>
      by_cases hpos : 0 < s.enclosing
      swap
      · simpa only [select, List.filter_cons, waits, waitsBelow, hpos, decide_false, false_and,
          Bool.false_and, Bool.false_eq_true, if_false] using ih'
      by_cases hlevel : s.enclosing < level
      · simp only [select, List.filter_cons, waits, waitsBelow, hpos, hlevel, haxis, decide_true,
          and_self, Bool.and_self, if_true, List.map_cons, List.length_cons,
          List.take_succ_cons] at ih' ⊢
        exact congrArg _ ih'
      · -- nothing after this fragment stands outside of the transaction
        have hnone : select (waitsBelow level) axis l = [] := by
          rw [List.eq_nil_iff_forall_not_mem]
          intro entry' hmem
          obtain ⟨x, hmem, hbelow, -⟩ := mem_select.mp hmem
          cases x with
          | none => simp [waitsBelow] at hbelow
          | some t =>
            have hle := hf (entry', some t) hmem s t rfl rfl
            simp only [waitsBelow, decide_eq_true_eq] at hbelow
            omega
        have hself : select (waitsBelow level) axis ((entry, some s) :: l) = [] := by
          rw [← hnone]
          simp only [select, List.filter_cons, waitsBelow, hlevel, and_false, decide_false,
            Bool.false_and, Bool.false_eq_true, if_false]
        rw [hself]
        rfl

end Selection

/-! ## The invariant is preserved -/

section Preservation

variable {ledger : FluxLedger d τ payload} {history : List (Call d τ payload)}

/-- A call other than an accumulation only moves the fates on. -/
lemma fates_append_of_no_entry {call : Call d τ payload}
    (h : fatesFrom (depth history) [call] = []) :
    fates (history ++ [call]) =
      (fates history).map fun f => (f.1, fateStep f.1.key.attempt f.2 call) := by
  rw [fates_append, h, List.append_nil]

/-- A fragment that is gone does not come back. -/
lemma isSome_of_fateStep {attempt : ℕ} {x : Option Standing} {call : Call d τ payload}
    (h : (fateStep attempt x call).isSome) : x.isSome := by
  cases x with
  | none => simp [fateStep] at h
  | some s => rfl

/-- The identities stay distinct and on their axes when the fates move on. -/
lemma Tracks.identities_map (h : Tracks ledger history) (call : Call d τ payload) :
    (((fates history).map fun f => (f.1, fateStep f.1.key.attempt f.2 call)).Pairwise
      fun f g => f.2.isSome → g.2.isSome → f.1.key.sameIdentity g.1.key = false) ∧
    ∀ f ∈ (fates history).map fun f => (f.1, fateStep f.1.key.attempt f.2 call),
      ∃ axis : Fin d, f.1.key.axis = ((axis : ℕ) : ℤ) := by
  refine ⟨?_, fun f hf => ?_⟩
  · rw [List.pairwise_map]
    exact h.distinct.imp fun hfg hf hg => hfg (isSome_of_fateStep hf) (isSome_of_fateStep hg)
  · obtain ⟨g, hg, rfl⟩ := List.mem_map.mp hf
    exact h.onAxis g hg

/-- A transaction is opened: every fragment stands one level further out. -/
theorem Tracks.begin {attempt : ℕ} {active : Option ℕ} (h : Tracks ledger history) :
    Tracks { ledger with
        savepoints := (fun axis => (ledger.pending axis).length) :: ledger.savepoints,
        activeAttempt := active }
      (history ++ [.begin attempt]) := by
  have hfates : fates (history ++ [.begin attempt]) =
      (fates history).map fun f => (f.1, fateStep f.1.key.attempt f.2 (.begin attempt)) :=
    fates_append_of_no_entry rfl
  have hdepth : depth (history ++ [.begin attempt]) = depth history + 1 := depth_append ..
  obtain ⟨hdistinct, haxis⟩ := h.identities_map (.begin attempt)
  refine ⟨?_, ?_, fun axis => ?_, fun axis => ?_, ?_, ?_, hfates ▸ hdistinct, hfates ▸ haxis⟩
  · rw [hdepth, List.length_cons, h.depth_eq]
  · rw [hfates, hdepth]
    intro f hf s hs
    obtain ⟨⟨entry, x⟩, hmem, rfl⟩ := List.mem_map.mp hf
    cases x with
    | none => simp [fateStep] at hs
    | some s' =>
      have hold := h.standing _ hmem s' rfl
      simp only [fateStep, Option.some.injEq] at hs
      subst hs
      show s'.enclosing + (s'.inner + 1) = _
      omega
  · rw [hfates]
    refine (h.published axis).trans (select_map _ _ _ fun f _ => ?_).symm
    rcases f with ⟨entry, _ | s⟩ <;> rfl
  · rw [hfates]
    refine (h.pending axis).trans (select_map _ _ _ fun f _ => ?_).symm
    rcases f with ⟨entry, _ | s⟩ <;> rfl
  · rw [hfates, List.pairwise_map]
    refine h.ordered.imp fun {f g} hfg s t hs ht => ?_
    rcases f with ⟨_, _ | s'⟩ <;> rcases g with ⟨_, _ | t'⟩ <;>
      simp only [fateStep, reduceCtorEq, Option.some.injEq] at hs ht
    subst hs ht
    exact hfg s' t' rfl rfl
  · intro k sizes hk axis
    rw [hfates]
    cases k with
    | zero =>
      obtain rfl : (fun axis => (ledger.pending axis).length) = sizes := by simpa using hk
      show (ledger.pending axis).length = _
      rw [h.pending axis]
      refine congrArg List.length (select_map _ _ _ fun f hf => ?_).symm
      rcases f with ⟨entry, _ | s⟩
      · rfl
      · have hold := h.standing _ hf s rfl
        have hle : s.enclosing < (ledger.savepoints.length + 1) := by
          rw [h.depth_eq]
          omega
        simp [fateStep, waitsBelow, waits, hle]
    | succ k =>
      have hold := h.savepoints k sizes (by simpa using hk) axis
      rw [hold, List.length_cons, Nat.add_sub_add_right]
      refine congrArg List.length (select_map _ _ _ fun f _ => ?_).symm
      rcases f with ⟨entry, _ | s⟩ <;> rfl

/-- The innermost transaction is closed, by a commit or a rollback: what a fragment becomes. -/
lemma Tracks.fate_close {call : Call d τ payload} (h : Tracks ledger history)
    (hcall : call = .commit ∨ call = .rollback) {entry : FaceFluxFragment d τ payload}
    {s : Standing} (hmem : (entry, some s) ∈ fates history) :
    (s.enclosing < depth history ∧
      fateStep entry.key.attempt (some s) call = some ⟨s.enclosing, s.inner - 1⟩) ∨
    (s.enclosing = depth history ∧ fateStep entry.key.attempt (some s) call =
      if call.isCommit then some ⟨s.enclosing - 1, 0⟩ else none) := by
  have hold := h.standing _ hmem s rfl
  by_cases hinner : 0 < s.inner
  · refine .inl ⟨by omega, ?_⟩
    rcases hcall with rfl | rfl <;> simp [fateStep, hinner]
  · refine .inr ⟨by omega, ?_⟩
    rcases hcall with rfl | rfl <;> simp [fateStep, hinner, Call.isCommit]

/-- Closing the innermost transaction leaves what stands outside of it, and the savepoints of the
others. -/
lemma Tracks.close_savepoints {call : Call d τ payload} (h : Tracks ledger history)
    (hcall : call = .commit ∨ call = .rollback) {sizes : Fin d → ℕ} {rest : List (Fin d → ℕ)}
    (hsavepoints : ledger.savepoints = sizes :: rest) {k : ℕ} {sizes' : Fin d → ℕ}
    (hk : rest[k]? = some sizes') (axis : Fin d) :
    sizes' axis = (select (waitsBelow (rest.length - k)) axis
      ((fates history).map fun f => (f.1, fateStep f.1.key.attempt f.2 call))).length := by
  have hold := h.savepoints (k + 1) sizes' (by rw [hsavepoints]; simpa using hk) axis
  have hdepth : depth history = rest.length + 1 := by
    rw [← h.depth_eq, hsavepoints, List.length_cons]
  have hlevel : ledger.savepoints.length - (k + 1) = rest.length - k := by
    rw [hsavepoints, List.length_cons]
    omega
  rw [hold, hlevel]
  refine congrArg List.length (select_map _ _ _ fun f hf => ?_).symm
  rcases f with ⟨entry, _ | s⟩
  · rfl
  · rcases h.fate_close hcall hf with ⟨hlt, hstep⟩ | ⟨heq, hstep⟩
    · rw [hstep]
      rfl
    · -- the fragment stands inside of all these transactions
      have hlt : ¬ s.enclosing < rest.length - k := by omega
      have hlt' : ¬ s.enclosing - 1 < rest.length - k := by omega
      rw [hstep]
      split_ifs
      · simp [waitsBelow, hlt, hlt']
      · simp [waitsBelow, hlt]

/-- Closing the innermost transaction keeps the standings. -/
lemma Tracks.close_standing {call : Call d τ payload} (h : Tracks ledger history)
    (hcall : call = .commit ∨ call = .rollback) (hpos : 0 < depth history) :
    (∀ f ∈ (fates history).map fun f => (f.1, fateStep f.1.key.attempt f.2 call), ∀ s,
      f.2 = some s → s.enclosing + s.inner = depth history - 1) ∧
    ((fates history).map fun f => (f.1, fateStep f.1.key.attempt f.2 call)).Pairwise
      fun f g => ∀ s t, f.2 = some s → g.2 = some t → s.enclosing ≤ t.enclosing := by
  constructor
  · intro f hf s hs
    obtain ⟨⟨entry, x⟩, hmem, rfl⟩ := List.mem_map.mp hf
    cases x with
    | none => simp [fateStep] at hs
    | some s' =>
      have hold := h.standing _ hmem s' rfl
      rcases h.fate_close hcall hmem with ⟨hlt, hstep⟩ | ⟨heq, hstep⟩
      · obtain rfl : (⟨s'.enclosing, s'.inner - 1⟩ : Standing) = s := by
          simpa [hstep] using hs
        show s'.enclosing + (s'.inner - 1) = _
        omega
      · cases hcommit : call.isCommit with
        | false => simp [hstep, hcommit] at hs
        | true =>
          obtain rfl : (⟨s'.enclosing - 1, 0⟩ : Standing) = s := by
            simpa [hstep, hcommit] using hs
          show s'.enclosing - 1 + 0 = _
          omega
  · rw [List.pairwise_map]
    refine h.ordered.imp_of_mem fun {f g} hf hg hfg s t hs ht => ?_
    rcases f with ⟨entry, _ | s'⟩
    · simp [fateStep] at hs
    rcases g with ⟨entry', _ | t'⟩
    · simp [fateStep] at ht
    have hle := hfg s' t' rfl rfl
    -- both enclosing counts are cut off at the new depth
    have hcut : ∀ {entry : FaceFluxFragment d τ payload} {s s' : Standing},
        (entry, some s') ∈ fates history → fateStep entry.key.attempt (some s') call = some s →
        s.enclosing = min s'.enclosing (depth history - 1) := by
      intro entry s s' hmem hstep'
      have hold := h.standing _ hmem s' rfl
      rcases h.fate_close hcall hmem with ⟨hlt, hstep⟩ | ⟨heq, hstep⟩
      · obtain rfl : (⟨s'.enclosing, s'.inner - 1⟩ : Standing) = s := by
          simpa [hstep] using hstep'
        show s'.enclosing = _
        omega
      · cases hcommit : call.isCommit with
        | false => simp [hstep, hcommit] at hstep'
        | true =>
          obtain rfl : (⟨s'.enclosing - 1, 0⟩ : Standing) = s := by
            simpa [hstep, hcommit] using hstep'
          show s'.enclosing - 1 = _
          omega
    rw [hcut hf hs, hcut hg ht]
    omega

/-- A nested transaction is joined to the one around it. -/
lemma Tracks.commit_nested {sizes : Fin d → ℕ} {rest : List (Fin d → ℕ)}
    (h : Tracks ledger history) (hsavepoints : ledger.savepoints = sizes :: rest)
    (hrest : rest ≠ []) :
    Tracks { ledger with savepoints := rest } (history ++ [.commit]) := by
  have hfates : fates (history ++ [.commit]) =
      (fates history).map fun f => (f.1, fateStep f.1.key.attempt f.2 .commit) :=
    fates_append_of_no_entry rfl
  have hdepth : depth (history ++ [.commit]) = depth history - 1 := depth_append ..
  have hlength : depth history = rest.length + 1 := by
    rw [← h.depth_eq, hsavepoints, List.length_cons]
  have hpos : 0 < rest.length := List.length_pos_iff.mpr hrest
  obtain ⟨hdistinct, haxis⟩ := h.identities_map .commit
  obtain ⟨hstanding, hordered⟩ := h.close_standing (.inl rfl) (by omega)
  -- a fragment of the closed transaction still waits in the one around it
  have hkeep : ∀ f ∈ fates history,
      waits (fateStep f.1.key.attempt f.2 (.commit : Call d τ payload)) = waits f.2 ∧
      survives (fateStep f.1.key.attempt f.2 (.commit : Call d τ payload)) = survives f.2 := by
    rintro ⟨entry, _ | s⟩ hf
    · exact ⟨rfl, rfl⟩
    · rcases h.fate_close (.inl rfl) hf with ⟨hlt, hstep⟩ | ⟨heq, hstep⟩
      · rw [hstep]
        exact ⟨rfl, rfl⟩
      · simp only [Call.isCommit, if_true] at hstep
        rw [hstep]
        have h1 : 0 < s.enclosing := by omega
        have h2 : 0 < s.enclosing - 1 := by omega
        have h3 : s.enclosing ≠ 0 := by omega
        have h4 : s.enclosing - 1 ≠ 0 := by omega
        exact ⟨by simp only [waits, h1, h2], by simp only [survives, h3, h4]⟩
  refine ⟨by rw [hdepth]; show rest.length = _; omega, ?_, fun axis => ?_, fun axis => ?_, ?_, ?_,
    hfates ▸ hdistinct, hfates ▸ haxis⟩
  · rw [hfates, hdepth]
    exact hstanding
  · rw [hfates]
    exact (h.published axis).trans (select_map _ _ _ fun f hf => (hkeep f hf).2).symm
  · rw [hfates]
    exact (h.pending axis).trans (select_map _ _ _ fun f hf => (hkeep f hf).1).symm
  · rw [hfates]
    exact hordered
  · intro k sizes' hk axis
    rw [hfates]
    exact h.close_savepoints (.inl rfl) hsavepoints hk axis

/-- Where later fragments stand at least as deep, the published ones come before the pending
ones. -/
lemma select_survives_append_waits {l : List (FaceFluxFragment d τ payload × Option Standing)}
    {axis : Fin d} (hordered : l.Pairwise fun f g => ∀ s t, f.2 = some s → g.2 = some t →
      s.enclosing ≤ t.enclosing) :
    select survives axis l ++ select waits axis l = select Option.isSome axis l := by
  induction l with
  | nil => rfl
  | cons f l ih =>
    obtain ⟨hf, hl⟩ := List.pairwise_cons.mp hordered
    have ih' := ih hl
    obtain ⟨entry, x⟩ := f
    by_cases haxis : entry.key.axis = (axis : ℕ)
    swap
    · simpa only [select, List.filter_cons, haxis, decide_false, Bool.and_false,
        Bool.false_eq_true, if_false] using ih'
    cases x with
    | none => simpa only [select, List.filter_cons, survives, waits, Option.isSome_none,
        Bool.false_and, Bool.false_eq_true, if_false] using ih'
    | some s =>
      by_cases hzero : s.enclosing = 0
      · have hsurvives : survives (some s) = true := decide_eq_true hzero
        have hwaits : waits (some s) = false := decide_eq_false (by omega)
        simp only [select, List.filter_cons, hsurvives, hwaits, Option.isSome_some, haxis,
          decide_true, Bool.and_self, Bool.false_and, Bool.false_eq_true, if_true, if_false,
          List.map_cons, List.cons_append] at ih' ⊢
        rw [ih']
      · -- nothing after a pending fragment is published
        have hnone : select survives axis l = [] := by
          rw [List.eq_nil_iff_forall_not_mem]
          intro entry' hmem
          obtain ⟨x, hmem, hsurvives, -⟩ := mem_select.mp hmem
          cases x with
          | none => simp [survives] at hsurvives
          | some t =>
            have hle := hf (entry', some t) hmem s t rfl rfl
            simp only [survives, decide_eq_true_eq] at hsurvives
            omega
        have hsurvives : survives (some s) = false := decide_eq_false hzero
        have hwaits : waits (some s) = true := decide_eq_true (by omega)
        rw [hnone, List.nil_append] at ih'
        have hself : select survives axis ((entry, some s) :: l) = [] := by
          rw [← hnone]
          simp only [select, List.filter_cons, hsurvives, Bool.false_and, Bool.false_eq_true,
            if_false]
        rw [hself, List.nil_append]
        simp only [select, List.filter_cons, hwaits, Option.isSome_some, haxis, decide_true,
          Bool.and_self, if_true, List.map_cons] at ih' ⊢
        rw [ih']

/-- The outermost transaction is committed: everything that waits is published. -/
lemma Tracks.commit_outer {sizes : Fin d → ℕ} {active closed : Option ℕ}
    (h : Tracks ledger history) (hsavepoints : ledger.savepoints = [sizes]) :
    Tracks { ledger with published := fun axis => ledger.published axis ++ ledger.pending axis,
                         pending := fun _ => [], savepoints := [], lastClosedAttempt := closed,
                         activeAttempt := active }
      (history ++ [.commit]) := by
  have hfates : fates (history ++ [.commit]) =
      (fates history).map fun f => (f.1, fateStep f.1.key.attempt f.2 .commit) :=
    fates_append_of_no_entry rfl
  have hdepth : depth (history ++ [.commit]) = depth history - 1 := depth_append ..
  have hlength : depth history = 1 := by
    rw [← h.depth_eq, hsavepoints]
    rfl
  obtain ⟨hdistinct, haxis⟩ := h.identities_map .commit
  obtain ⟨hstanding, hordered⟩ := h.close_standing (.inl rfl) (by omega)
  have hall : ∀ f ∈ fates history,
      survives (fateStep f.1.key.attempt f.2 (.commit : Call d τ payload)) = f.2.isSome ∧
      waits (fateStep f.1.key.attempt f.2 (.commit : Call d τ payload)) = false := by
    rintro ⟨entry, _ | s⟩ hf
    · exact ⟨rfl, rfl⟩
    · rcases h.fate_close (.inl rfl) hf with ⟨hlt, hstep⟩ | ⟨heq, hstep⟩
      · have hzero : s.enclosing = 0 := by omega
        rw [hstep]
        simp [survives, waits, hzero]
      · have hone : s.enclosing = 1 := by omega
        simp only [Call.isCommit, if_true] at hstep
        rw [hstep]
        simp [survives, waits, hone]
  refine ⟨by rw [hdepth, hlength]; rfl, ?_, fun axis => ?_, fun axis => ?_, ?_, ?_,
    hfates ▸ hdistinct, hfates ▸ haxis⟩
  · rw [hfates, hdepth]
    exact hstanding
  · show ledger.published axis ++ ledger.pending axis = _
    rw [hfates, h.published axis, h.pending axis, select_survives_append_waits h.ordered]
    exact (select_map _ _ _ fun f hf => (hall f hf).1).symm
  · rw [hfates, select_map waits (fun _ => false) _ fun f hf => (hall f hf).2]
    show [] = _
    simp [select]
  · rw [hfates]
    exact hordered
  · intro k sizes' hk
    simp at hk

/-- The innermost transaction is rolled back: its fragments are undone. -/
theorem Tracks.rollback {sizes : Fin d → ℕ} {rest : List (Fin d → ℕ)} {active closed : Option ℕ}
    (h : Tracks ledger history) (hsavepoints : ledger.savepoints = sizes :: rest) :
    Tracks { ledger with pending := fun axis => (ledger.pending axis).take (sizes axis),
                         savepoints := rest, lastClosedAttempt := closed, activeAttempt := active }
      (history ++ [.rollback]) := by
  have hfates : fates (history ++ [.rollback]) =
      (fates history).map fun f => (f.1, fateStep f.1.key.attempt f.2 .rollback) :=
    fates_append_of_no_entry rfl
  have hdepth : depth (history ++ [.rollback]) = depth history - 1 := depth_append ..
  have hlength : depth history = rest.length + 1 := by
    rw [← h.depth_eq, hsavepoints, List.length_cons]
  obtain ⟨hdistinct, haxis⟩ := h.identities_map .rollback
  obtain ⟨hstanding, hordered⟩ := h.close_standing (.inr rfl) (by omega)
  have hkeep : ∀ f ∈ fates history,
      waits (fateStep f.1.key.attempt f.2 (.rollback : Call d τ payload)) =
        waitsBelow (rest.length + 1) f.2 ∧
      survives (fateStep f.1.key.attempt f.2 (.rollback : Call d τ payload)) = survives f.2 := by
    rintro ⟨entry, _ | s⟩ hf
    · exact ⟨rfl, rfl⟩
    · rcases h.fate_close (.inr rfl) hf with ⟨hlt, hstep⟩ | ⟨heq, hstep⟩
      · have hlt' : s.enclosing < rest.length + 1 := by omega
        rw [hstep]
        simp [survives, waits, waitsBelow, hlt']
      · have hnot : ¬ s.enclosing < rest.length + 1 := by omega
        have hne : s.enclosing ≠ 0 := by omega
        rw [hstep]
        simp [Call.isCommit, survives, waits, waitsBelow, hnot, hne]
  refine ⟨by rw [hdepth]; show rest.length = _; omega, ?_, fun axis => ?_, fun axis => ?_, ?_, ?_,
    hfates ▸ hdistinct, hfates ▸ haxis⟩
  · rw [hfates, hdepth]
    exact hstanding
  · rw [hfates]
    exact (h.published axis).trans (select_map _ _ _ fun f hf => (hkeep f hf).2).symm
  · have hsizes := h.savepoints 0 sizes (by rw [hsavepoints]; rfl) axis
    rw [Nat.sub_zero, hsavepoints, List.length_cons] at hsizes
    show (ledger.pending axis).take (sizes axis) = _
    rw [hfates, h.pending axis, hsizes, take_select_waits h.ordered]
    exact (select_map _ _ _ fun f hf => (hkeep f hf).1).symm
  · rw [hfates]
    exact hordered
  · intro k sizes' hk axis
    rw [hfates]
    exact h.close_savepoints (.inr rfl) hsavepoints hk axis

/-- Everything is forgotten. -/
theorem Tracks.clear {closed : Option ℕ} (h : Tracks ledger history)
    (hsavepoints : ledger.savepoints = []) :
    Tracks { ledger with pending := fun _ => [], published := fun _ => [],
                         lastClosedAttempt := closed }
      (history ++ [.clear]) := by
  have hfates : fates (history ++ [.clear]) =
      (fates history).map fun f => (f.1, fateStep f.1.key.attempt f.2 .clear) :=
    fates_append_of_no_entry rfl
  have hdepth : depth (history ++ [.clear]) = depth history := depth_append ..
  have hgone : ∀ f ∈ fates (history ++ [.clear]), f.2 = none := by
    rw [hfates]
    intro f hf
    obtain ⟨⟨entry, _ | s⟩, -, rfl⟩ := List.mem_map.mp hf <;> rfl
  have hselect : ∀ p : Option Standing → Bool, p none = false → ∀ axis,
      select p axis (fates (history ++ [.clear])) = [] := by
    intro p hp axis
    rw [List.eq_nil_iff_forall_not_mem]
    intro entry hmem
    obtain ⟨x, hmem, hx, -⟩ := mem_select.mp hmem
    rw [show x = none from hgone _ hmem, hp] at hx
    exact Bool.noConfusion hx
  obtain ⟨hdistinct, haxis⟩ := h.identities_map .clear
  refine ⟨by rw [hdepth]; exact h.depth_eq, ?_, fun axis => (hselect survives rfl axis).symm,
    fun axis => (hselect waits rfl axis).symm, ?_, ?_, hfates ▸ hdistinct, hfates ▸ haxis⟩
  · intro f hf s hs
    simp [hgone f hf] at hs
  · refine List.Pairwise.imp_of_mem (R := fun _ _ => True) (fun {f g} hf _ _ s t hs _ => ?_)
      (List.pairwise_of_forall fun _ _ => trivial)
    simp [hgone f hf] at hs
  · intro k sizes hk
    simp [hsavepoints] at hk

/-- A fragment with a new identity joins the innermost transaction. -/
theorem Tracks.accumulate {entry : FaceFluxFragment d τ payload} {axis : Fin d}
    (h : Tracks ledger history) (hopen : ledger.savepoints ≠ [])
    (haxis : entry.key.axis = (axis : ℕ))
    (hpending : containsIdentity (ledger.pending axis) entry.key = false)
    (hpublished : containsIdentity (ledger.published axis) entry.key = false) :
    Tracks { ledger with
        pending := Function.update ledger.pending axis (ledger.pending axis ++ [entry]) }
      (history ++ [.accumulate entry]) := by
  have hsame : ∀ f : FaceFluxFragment d τ payload × Option Standing,
      fateStep f.1.key.attempt f.2 (.accumulate entry : Call d τ payload) = f.2 := by
    rintro ⟨_, _ | s⟩ <;> rfl
  have hfates : fates (history ++ [.accumulate entry]) =
      fates history ++ [(entry, some ⟨depth history, 0⟩)] := by
    rw [fates_append]
    simp only [hsame, Prod.mk.eta, List.map_id']
    rfl
  have hdepth : depth (history ++ [.accumulate entry]) = depth history := depth_append ..
  have hpos : 0 < depth history := by
    rw [← h.depth_eq]
    exact List.length_pos_iff.mpr hopen
  refine ⟨by rw [hdepth]; exact h.depth_eq, ?_, fun a => ?_, fun a => ?_, ?_, ?_, ?_, ?_⟩
  · rw [hfates, hdepth]
    intro f hf s hs
    rcases List.mem_append.mp hf with hf | hf
    · exact h.standing f hf s hs
    · obtain rfl := List.mem_singleton.mp hf
      obtain rfl : (⟨depth history, 0⟩ : Standing) = s := by simpa using hs
      rfl
  · have hnot : ¬ depth history = 0 := by omega
    rw [hfates, select_append]
    show ledger.published a = _
    rw [h.published a]
    simp [select, survives, hnot]
  · rw [hfates, select_append]
    show Function.update ledger.pending axis (ledger.pending axis ++ [entry]) a = _
    by_cases ha : a = axis
    · subst ha
      rw [Function.update_self, h.pending a]
      simp [select, waits, hpos, haxis]
    · have hne : ¬ (axis : ℕ) = (a : ℕ) := fun heq => ha (Fin.ext heq.symm)
      rw [Function.update_of_ne ha, h.pending a]
      simp [select, haxis, hne]
  · rw [hfates]
    refine List.pairwise_append.mpr ⟨h.ordered, by simp, fun f hf g hg s t hs ht => ?_⟩
    obtain rfl := List.mem_singleton.mp hg
    obtain rfl : (⟨depth history, 0⟩ : Standing) = t := by simpa using ht
    have hold := h.standing f hf s hs
    show s.enclosing ≤ depth history
    omega
  · intro k sizes hk a
    have hold := h.savepoints k sizes hk a
    have hlevel : ¬ depth history < ledger.savepoints.length - k := by
      rw [h.depth_eq]
      omega
    rw [hfates, select_append, hold]
    simp [select, waitsBelow, hlevel]
  · rw [hfates]
    refine List.pairwise_append.mpr ⟨h.distinct, by simp, fun f hf g hg hfsome _ => ?_⟩
    obtain rfl := List.mem_singleton.mp hg
    obtain ⟨s, hs⟩ := Option.isSome_iff_exists.mp hfsome
    -- an equal identity would be found on the axis of the fragment
    by_contra hsameIdentity
    have hidentity : f.1.key.sameIdentity entry.key = true := by simpa using hsameIdentity
    have hfaxis : f.1.key.axis = (axis : ℕ) :=
      (FaceFluxFragmentKey.axis_eq_of_sameIdentity hidentity).trans haxis
    have hmem : (f.1, f.2) ∈ fates history := hf
    by_cases hzero : s.enclosing = 0
    · have hin : f.1 ∈ ledger.published axis := by
        rw [h.published axis]
        exact mem_select.mpr ⟨f.2, hmem, by simp [hs, survives, hzero], hfaxis⟩
      rw [containsIdentity, List.any_eq_false] at hpublished
      exact hpublished f.1 hin hidentity
    · have hin : f.1 ∈ ledger.pending axis := by
        rw [h.pending axis]
        exact mem_select.mpr ⟨f.2, hmem, by simp [hs, waits]; omega, hfaxis⟩
      rw [containsIdentity, List.any_eq_false] at hpending
      exact hpending f.1 hin hidentity
  · rw [hfates]
    intro f hf
    rcases List.mem_append.mp hf with hf | hf
    · exact h.onAxis f hf
    · obtain rfl := List.mem_singleton.mp hf
      exact ⟨axis, haxis⟩

/-- The published fragments of an attempt are removed. -/
lemma Tracks.discard {attempt : ℕ} (h : Tracks ledger history)
    (hsavepoints : ledger.savepoints = []) :
    Tracks { ledger with
        published := fun axis => (ledger.published axis).filter fun entry =>
          entry.key.attempt ≠ attempt }
      (history ++ [.discardPublishedAttempt attempt]) := by
  have hfates : fates (history ++ [.discardPublishedAttempt attempt]) = (fates history).map
      fun f => (f.1, fateStep f.1.key.attempt f.2 (.discardPublishedAttempt attempt)) :=
    fates_append_of_no_entry rfl
  have hdepth : depth (history ++ [.discardPublishedAttempt attempt]) = depth history :=
    depth_append ..
  have hzero : depth history = 0 := by
    rw [← h.depth_eq, hsavepoints]
    rfl
  -- what is left stands as before
  have hkeep : ∀ {f : FaceFluxFragment d τ payload × Option Standing} {s : Standing},
      fateStep f.1.key.attempt f.2 (.discardPublishedAttempt attempt : Call d τ payload) =
        some s → f.2 = some s := by
    rintro ⟨entry, _ | s'⟩ s hs
    · simp [fateStep] at hs
    · simp only [fateStep] at hs
      split_ifs at hs
      exact hs
  obtain ⟨hdistinct, haxis⟩ := h.identities_map (.discardPublishedAttempt attempt)
  refine ⟨by rw [hdepth]; exact h.depth_eq, ?_, fun axis => ?_, fun axis => ?_, ?_, ?_,
    hfates ▸ hdistinct, hfates ▸ haxis⟩
  · rw [hfates, hdepth]
    intro f hf s hs
    obtain ⟨g, hg, rfl⟩ := List.mem_map.mp hf
    exact h.standing g hg s (hkeep hs)
  · rw [hfates]
    show (ledger.published axis).filter _ = _
    rw [h.published axis, select, select, List.filter_map, List.filter_filter, List.filter_map,
      List.map_map]
    refine congrArg _ (List.filter_congr fun f hf => ?_)
    rcases f with ⟨entry, _ | s⟩
    · simp [fateStep, survives]
    · by_cases hattempt : entry.key.attempt = attempt
      · simp [fateStep, survives, hattempt]
      · simp [fateStep, survives, hattempt, Ne.symm hattempt]
  · rw [hfates]
    show ledger.pending axis = _
    rw [h.pending axis]
    refine (select_map _ _ _ fun f hf => ?_).symm
    rcases f with ⟨entry, _ | s⟩
    · rfl
    · have hold := h.standing _ hf s rfl
      have hnot : ¬ 0 < s.enclosing := by omega
      simp only [fateStep]
      split_ifs
      · simp [waits, hnot]
      · rfl
  · rw [hfates, List.pairwise_map]
    exact h.ordered.imp fun hfg s t hs ht => hfg s t (hkeep hs) (hkeep ht)
  · intro k sizes hk
    simp [hsavepoints] at hk

end Preservation

/-! ## Attempts -/

/-- What the attempts of a ledger are after a history of calls that returned. -/
structure TracksAttempts (ledger : FluxLedger d τ payload) (history : List (Call d τ payload)) :
    Prop where
  open_attempt : depth history ≠ 0 → outerAttempts history ≠ []
  active_eq : ledger.activeAttempt =
    if depth history = 0 then none else (outerAttempts history).getLast?
  closed_eq : ledger.lastClosedAttempt = (closedAttempts history).getLast?
  increasing : (outerAttempts history).Pairwise (· < ·)
  waiting : ∀ f ∈ fates history, waits f.2 = true →
    ledger.activeAttempt = some f.1.key.attempt
  surviving : ∀ f ∈ fates history, survives f.2 = true →
    f.1.key.attempt ∈ closedAttempts history

section Attempts

variable {ledger : FluxLedger d τ payload} {history : List (Call d τ payload)}

/-- Closed attempts are attempts. -/
lemma mem_outerAttempts {a : ℕ} (h : a ∈ closedAttempts history) : a ∈ outerAttempts history := by
  unfold closedAttempts at h
  split_ifs at h
  · exact h
  · exact List.mem_of_mem_dropLast h

/-- A list in increasing order is extended by a number above its last one. -/
lemma pairwise_append_of_getLast {l : List ℕ} {a : ℕ} (hl : l.Pairwise (· < ·))
    (ha : ∀ last ∈ l.getLast?, last < a) : (l ++ [a]).Pairwise (· < ·) := by
  refine List.pairwise_append.mpr ⟨hl, by simp, fun b hb c hc => ?_⟩
  obtain rfl := List.mem_singleton.mp hc
  obtain ⟨front, last, rfl⟩ := (List.eq_nil_or_concat' l).resolve_left (List.ne_nil_of_mem hb)
  have hlast : last < c := ha last (by simp)
  rcases List.mem_append.mp hb with hb | hb
  · exact ((List.pairwise_append.mp hl).2.2 b hb last (by simp)).trans hlast
  · rwa [List.mem_singleton.mp hb]

/-- The fate of a fragment in a longer history comes from its fate in the shorter one. -/
lemma exists_fate_of_append {call : Call d τ payload}
    (hentry : fatesFrom (depth history) [call] = [])
    {f : FaceFluxFragment d τ payload × Option Standing} (hf : f ∈ fates (history ++ [call])) :
    ∃ x, (f.1, x) ∈ fates history ∧ f.2 = fateStep f.1.key.attempt x call := by
  rw [fates_append_of_no_entry hentry] at hf
  obtain ⟨g, hg, rfl⟩ := List.mem_map.mp hf
  exact ⟨g.2, hg, rfl⟩

/-- A nested transaction keeps the attempts. -/
lemma TracksAttempts.begin_nested {attempt : ℕ} {sizes : Fin d → ℕ}
    (h : TracksAttempts ledger history) (hopen : depth history ≠ 0) :
    TracksAttempts { ledger with savepoints := sizes :: ledger.savepoints }
      (history ++ [.begin attempt]) := by
  have hdepth : depth (history ++ [.begin attempt]) = depth history + 1 := depth_append ..
  have houter : outerAttempts (history ++ [.begin attempt]) = outerAttempts history := by
    rw [outerAttempts_append]
    exact if_neg hopen
  have hclosed : closedAttempts (history ++ [.begin attempt]) = closedAttempts history := by
    rw [closedAttempts, closedAttempts, houter, hdepth, if_neg hopen, if_neg (by omega)]
  refine ⟨fun _ => houter ▸ h.open_attempt hopen, ?_, ?_, houter ▸ h.increasing, ?_, ?_⟩
  · show ledger.activeAttempt = _
    rw [h.active_eq, houter, hdepth, if_neg hopen, if_neg (by omega)]
  · rw [hclosed]
    exact h.closed_eq
  · intro f hf hwaits
    obtain ⟨x, hx, hfate⟩ := exists_fate_of_append rfl hf
    refine h.waiting (f.1, x) hx ?_
    rw [← hwaits, hfate]
    cases x <;> rfl
  · intro f hf hsurvives
    obtain ⟨x, hx, hfate⟩ := exists_fate_of_append rfl hf
    rw [hclosed]
    refine h.surviving (f.1, x) hx ?_
    rw [← hsurvives, hfate]
    cases x <;> rfl

/-- An outer transaction opens a later attempt. -/
lemma TracksAttempts.begin_outer {attempt : ℕ} {sizes : Fin d → ℕ}
    (h : TracksAttempts ledger history) (ht : Tracks ledger history)
    (hclosed0 : depth history = 0) (hlater : ∀ last ∈ ledger.lastClosedAttempt, last < attempt) :
    TracksAttempts { ledger with savepoints := sizes :: ledger.savepoints,
                                 activeAttempt := some attempt }
      (history ++ [.begin attempt]) := by
  have hdepth : depth (history ++ [.begin attempt]) = depth history + 1 := depth_append ..
  have houter : outerAttempts (history ++ [.begin attempt]) =
      outerAttempts history ++ [attempt] := by
    rw [outerAttempts_append]
    exact if_pos hclosed0
  have hall : closedAttempts history = outerAttempts history := if_pos hclosed0
  have hclosed : closedAttempts (history ++ [.begin attempt]) = closedAttempts history := by
    rw [closedAttempts, houter, hdepth, if_neg (by omega), List.dropLast_concat, hall]
  refine ⟨fun _ => by rw [houter]; simp, ?_, ?_, ?_, ?_, ?_⟩
  · rw [houter, hdepth, if_neg (by omega), List.getLast?_concat]
  · rw [hclosed]
    exact h.closed_eq
  · rw [houter]
    refine pairwise_append_of_getLast h.increasing fun last hlast => hlater last ?_
    rw [h.closed_eq, hall]
    exact hlast
  · intro f hf hwaits
    obtain ⟨x, hx, hfate⟩ := exists_fate_of_append rfl hf
    -- no fragment waits outside of a transaction
    cases x with
    | none => simp [hfate, fateStep, waits] at hwaits
    | some s =>
      have hold := ht.standing _ hx s rfl
      simp only [hfate, fateStep, waits, decide_eq_true_eq] at hwaits
      omega
  · intro f hf hsurvives
    obtain ⟨x, hx, hfate⟩ := exists_fate_of_append rfl hf
    rw [hclosed]
    refine h.surviving (f.1, x) hx ?_
    rw [← hsurvives, hfate]
    cases x <;> rfl

/-- Closing a transaction closes the attempt when it was the outermost. -/
lemma TracksAttempts.close {call : Call d τ payload} {ledger' : FluxLedger d τ payload}
    (h : TracksAttempts ledger history) (ht : Tracks ledger history)
    (hcall : call = .commit ∨ call = .rollback) (hopen : depth history ≠ 0)
    (hactive : ledger'.activeAttempt = if depth history = 1 then none else ledger.activeAttempt)
    (hclosed : ledger'.lastClosedAttempt =
      if depth history = 1 then ledger.activeAttempt else ledger.lastClosedAttempt) :
    TracksAttempts ledger' (history ++ [call]) := by
  have hdepth : depth (history ++ [call]) = depth history - 1 := by
    rcases hcall with rfl | rfl <;> exact depth_append ..
  have houter : outerAttempts (history ++ [call]) = outerAttempts history := by
    rcases hcall with rfl | rfl <;> exact outerAttempts_append ..
  have hentry : fatesFrom (depth history) [call] = [] := by
    rcases hcall with rfl | rfl <;> rfl
  have hbefore : closedAttempts history = (outerAttempts history).dropLast := if_neg hopen
  have hsub : ∀ a ∈ closedAttempts history, a ∈ closedAttempts (history ++ [call]) := by
    intro a ha
    rw [closedAttempts, houter]
    split_ifs
    · exact mem_outerAttempts ha
    · rwa [← hbefore]
  refine ⟨fun _ => houter ▸ h.open_attempt hopen, ?_, ?_, houter ▸ h.increasing, ?_, ?_⟩
  · rw [hactive, hdepth, houter, h.active_eq, if_neg hopen]
    by_cases hone : depth history = 1
    · rw [if_pos hone, if_pos (by omega)]
    · rw [if_neg hone, if_neg (by omega)]
  · rw [hclosed, closedAttempts, hdepth, houter]
    by_cases hone : depth history = 1
    · rw [if_pos hone, if_pos (by omega), h.active_eq, if_neg hopen]
    · rw [if_neg hone, if_neg (by omega), h.closed_eq, hbefore]
  · intro f hf hwaits
    obtain ⟨x, hx, hfate⟩ := exists_fate_of_append hentry hf
    cases x with
    | none => simp [hfate, fateStep, waits] at hwaits
    | some s =>
      rcases ht.fate_close hcall hx with ⟨hlt, hstep⟩ | ⟨heq, hstep⟩
      · have hpos : 0 < s.enclosing := by simpa [hfate, hstep, waits] using hwaits
        have hone : depth history ≠ 1 := by omega
        rw [hactive, if_neg hone]
        exact h.waiting (f.1, some s) hx (decide_eq_true hpos)
      · cases hcommit : call.isCommit with
        | false => simp [hfate, hstep, hcommit, waits] at hwaits
        | true =>
          have hpos : 0 < s.enclosing - 1 := by simpa [hfate, hstep, hcommit, waits] using hwaits
          have hone : depth history ≠ 1 := by omega
          rw [hactive, if_neg hone]
          exact h.waiting (f.1, some s) hx (decide_eq_true (by omega))
  · intro f hf hsurvives
    obtain ⟨x, hx, hfate⟩ := exists_fate_of_append hentry hf
    cases x with
    | none => simp [hfate, fateStep, survives] at hsurvives
    | some s =>
      by_cases hzero : s.enclosing = 0
      · exact hsub _ (h.surviving (f.1, some s) hx (decide_eq_true hzero))
      · -- the fragment was published by this commit
        rcases ht.fate_close hcall hx with ⟨hlt, hstep⟩ | ⟨heq, hstep⟩
        · have : s.enclosing = 0 := by simpa [hfate, hstep, survives] using hsurvives
          exact absurd this hzero
        · cases hcommit : call.isCommit with
          | false => simp [hfate, hstep, hcommit, survives] at hsurvives
          | true =>
            have hone : s.enclosing - 1 = 0 := by
              simpa [hfate, hstep, hcommit, survives] using hsurvives
            have hlast := h.waiting (f.1, some s) hx (decide_eq_true (by omega))
            rw [h.active_eq, if_neg hopen] at hlast
            rw [closedAttempts, hdepth, houter, if_pos (by omega)]
            exact List.mem_of_getLast? hlast

/-- After a clear the attempts start over. -/
theorem TracksAttempts.clear (h : TracksAttempts ledger history) (hzero : depth history = 0) :
    TracksAttempts { ledger with pending := fun _ => [], published := fun _ => [],
                                 lastClosedAttempt := none }
      (history ++ [.clear]) := by
  have hdepth : depth (history ++ [.clear]) = depth history := depth_append ..
  have houter : outerAttempts (history ++ [.clear]) = [] := outerAttempts_append ..
  have hclosed : closedAttempts (history ++ [.clear]) = [] := by
    rw [closedAttempts, houter]
    split_ifs <;> rfl
  refine ⟨fun hne => absurd (hdepth.trans hzero) hne, ?_, by rw [hclosed]; rfl, by simp [houter],
    ?_, ?_⟩
  · show ledger.activeAttempt = _
    rw [h.active_eq, hdepth, if_pos hzero, if_pos hzero]
  · intro f hf hwaits
    obtain ⟨x, -, hfate⟩ := exists_fate_of_append rfl hf
    cases x <;> simp [hfate, fateStep, waits] at hwaits
  · intro f hf hsurvives
    obtain ⟨x, -, hfate⟩ := exists_fate_of_append rfl hf
    cases x <;> simp [hfate, fateStep, survives] at hsurvives

/-- An accumulated fragment carries the attempt of its outer transaction. -/
theorem TracksAttempts.accumulate {entry : FaceFluxFragment d τ payload}
    {pending : Fin d → List (FaceFluxFragment d τ payload)} (h : TracksAttempts ledger history)
    (hopen : depth history ≠ 0) (hattempt : ledger.activeAttempt = some entry.key.attempt) :
    TracksAttempts { ledger with pending := pending } (history ++ [.accumulate entry]) := by
  have hdepth : depth (history ++ [.accumulate entry]) = depth history := depth_append ..
  have houter : outerAttempts (history ++ [.accumulate entry]) = outerAttempts history :=
    outerAttempts_append ..
  have hclosed : closedAttempts (history ++ [.accumulate entry]) = closedAttempts history := by
    rw [closedAttempts, closedAttempts, houter, hdepth]
  have hfates : ∀ f ∈ fates (history ++ [.accumulate entry]),
      f ∈ fates history ∨ f = (entry, some ⟨depth history, 0⟩) := by
    rw [fates_append]
    intro f hf
    rcases List.mem_append.mp hf with hf | hf
    · obtain ⟨⟨entry', _ | s⟩, hg, rfl⟩ := List.mem_map.mp hf <;> exact .inl hg
    · exact .inr (List.mem_singleton.mp hf)
  refine ⟨fun hne => houter ▸ h.open_attempt hopen, ?_, ?_, houter ▸ h.increasing, ?_, ?_⟩
  · show ledger.activeAttempt = _
    rw [h.active_eq, houter, hdepth]
  · rw [hclosed]
    exact h.closed_eq
  · intro f hf hwaits
    rcases hfates f hf with hf | rfl
    · exact h.waiting f hf hwaits
    · exact hattempt
  · intro f hf hsurvives
    rw [hclosed]
    rcases hfates f hf with hf | rfl
    · exact h.surviving f hf hsurvives
    · simp [survives, hopen] at hsurvives

/-- Removing an attempt keeps the others. -/
lemma TracksAttempts.discard {attempt : ℕ}
    {published : Fin d → List (FaceFluxFragment d τ payload)} (h : TracksAttempts ledger history) :
    TracksAttempts { ledger with published := published }
      (history ++ [.discardPublishedAttempt attempt]) := by
  have hdepth : depth (history ++ [.discardPublishedAttempt attempt]) = depth history :=
    depth_append ..
  have houter : outerAttempts (history ++ [.discardPublishedAttempt attempt]) =
      outerAttempts history := outerAttempts_append ..
  have hclosed : closedAttempts (history ++ [.discardPublishedAttempt attempt]) =
      closedAttempts history := by
    rw [closedAttempts, closedAttempts, houter, hdepth]
  have hkeep : ∀ {a : ℕ} {x : Option Standing} {p : Option Standing → Bool}, p none = false →
      p (fateStep a x (.discardPublishedAttempt attempt : Call d τ payload)) = true →
      p x = true := by
    intro a x p hnone hx
    cases x with
    | none => exact hx
    | some s =>
      simp only [fateStep] at hx
      split_ifs at hx
      · exact absurd hx (by simp [hnone])
      · exact hx
  refine ⟨fun hne => houter ▸ h.open_attempt (hdepth ▸ hne), ?_, ?_, houter ▸ h.increasing, ?_, ?_⟩
  · show ledger.activeAttempt = _
    rw [h.active_eq, houter, hdepth]
  · rw [hclosed]
    exact h.closed_eq
  · intro f hf hwaits
    obtain ⟨x, hx, hfate⟩ := exists_fate_of_append rfl hf
    exact h.waiting (f.1, x) hx (hkeep rfl (hfate ▸ hwaits))
  · intro f hf hsurvives
    obtain ⟨x, hx, hfate⟩ := exists_fate_of_append rfl hf
    rw [hclosed]
    exact h.surviving (f.1, x) hx (hkeep rfl (hfate ▸ hsurvives))

end Attempts

/-! ## Whole histories -/

section Run

variable {arithmetic : FluxArithmetic τ}

/-- **A call that returns keeps both invariants.** -/
theorem tracks_perform {ledger ledger' : FluxLedger d τ payload}
    {history : List (Call d τ payload)} {call : Call d τ payload} {x : call.Result}
    (ht : Tracks ledger history) (ha : TracksAttempts ledger history)
    (hcall : call.perform arithmetic ledger = (.ok x, ledger')) :
    Tracks ledger' (history ++ [call]) ∧ TracksAttempts ledger' (history ++ [call]) := by
  have hlength := ht.depth_eq
  cases call with
  | begin attempt =>
    rcases begin_eq_ok hcall with ⟨hactive, hlater, rfl⟩ | ⟨hactive, rfl⟩
    · have hzero : depth history = 0 := by
        by_contra hne
        obtain ⟨a, hlast⟩ := Option.isSome_iff_exists.mp
          (List.getLast?_isSome.mpr (ha.open_attempt hne))
        rw [ha.active_eq, if_neg hne, hlast] at hactive
        exact absurd hactive (by simp)
      exact ⟨ht.begin, ha.begin_outer ht hzero hlater⟩
    · have hne : depth history ≠ 0 := by
        intro hzero
        rw [ha.active_eq, if_pos hzero] at hactive
        exact absurd hactive (by simp)
      exact ⟨ht.begin, ha.begin_nested hne⟩
  | commit =>
    rcases commit_eq_ok hcall with ⟨hlong, rfl⟩ | ⟨hone, rfl⟩
    · obtain ⟨sizes, rest, hsavepoints⟩ := List.exists_cons_of_ne_nil
        (List.ne_nil_of_length_pos (by omega : 0 < ledger.savepoints.length))
      rw [hsavepoints, List.length_cons] at hlong hlength
      have hrest : rest ≠ [] := List.ne_nil_of_length_pos (by omega)
      refine ⟨?_, ha.close ht (.inl rfl) (by omega) ?_ ?_⟩
      · rw [hsavepoints]
        exact ht.commit_nested hsavepoints hrest
      · exact (if_neg (by omega)).symm
      · exact (if_neg (by omega)).symm
    · obtain ⟨sizes, hsavepoints⟩ := List.length_eq_one_iff.mp hone
      refine ⟨?_, ha.close ht (.inl rfl) (by omega) ?_ ?_⟩
      · rw [hsavepoints]
        exact ht.commit_outer hsavepoints
      · exact (if_pos (by omega)).symm
      · exact (if_pos (by omega)).symm
  | rollback =>
    obtain ⟨sizes, rest, hsavepoints, rfl⟩ := rollback_eq_ok hcall
    rw [hsavepoints, List.length_cons] at hlength
    have hiff : rest = [] ↔ depth history = 1 := by
      rw [← List.length_eq_zero_iff]
      omega
    refine ⟨ht.rollback hsavepoints, ha.close ht (.inr rfl) (by omega) ?_ ?_⟩
    · simp only [hiff]
    · simp only [hiff]
  | clear =>
    obtain ⟨hsavepoints, rfl⟩ := clear_eq_ok hcall
    rw [hsavepoints, List.length_nil] at hlength
    exact ⟨ht.clear hsavepoints, ha.clear hlength.symm⟩
  | accumulate entry =>
    obtain ⟨hopen, hactive, axis, haxis, hpending, hpublished, rfl⟩ := accumulate_eq_ok hcall
    have hne : depth history ≠ 0 := by
      rw [← hlength]
      exact (List.length_pos_iff.mpr hopen).ne'
    exact ⟨ht.accumulate hopen haxis hpending hpublished, ha.accumulate hne hactive⟩
  | discardPublishedAttempt attempt =>
    obtain ⟨hsavepoints, rfl⟩ := discardPublishedAttempt_eq_ok hcall
    exact ⟨ht.discard hsavepoints, ha.discard⟩

/-- Both invariants hold after every sequence of calls. -/
lemma tracks_execute (arithmetic : FluxArithmetic τ) {ledger : FluxLedger d τ payload}
    {budget : FaceFluxLedgerBudget} (hcreate : create budget = .ok ledger)
    (calls : List (Call d τ payload)) :
    Tracks (execute arithmetic ledger calls).1 (execute arithmetic ledger calls).2 ∧
      TracksAttempts (execute arithmetic ledger calls).1 (execute arithmetic ledger calls).2 := by
  induction calls using List.reverseRecOn with
  | nil =>
    simp only [create, Pops.bind_eq_ok, Pops.throwIf_eq_ok, Pops.pure_eq_ok] at hcreate
    obtain ⟨_, -, rfl⟩ := hcreate
    refine ⟨⟨rfl, by simp [execute, fates, fatesFrom], fun _ => rfl, fun _ => rfl, ?_,
      by simp [execute], ?_, by simp [execute, fates, fatesFrom]⟩,
      ⟨fun h => absurd rfl h, rfl, rfl, .nil, by simp [execute, fates, fatesFrom],
        by simp [execute, fates, fatesFrom]⟩⟩
    · exact .nil
    · exact .nil
  | append_singleton calls call ih =>
    have hstep : execute arithmetic ledger (calls ++ [call]) =
        executeCall arithmetic (execute arithmetic ledger calls) call := by
      simp [execute]
    rw [hstep, executeCall]
    rcases hcall : call.perform arithmetic (execute arithmetic ledger calls).1 with ⟨_ | x, ledger'⟩
    · -- a call that throws leaves the ledger
      have hsame := call.perform_atomic arithmetic (execute arithmetic ledger calls).1 _
        (by rw [hcall])
      rw [hcall] at hsame
      simp only at hsame
      subst hsame
      exact ih
    · exact tracks_perform ih.1 ih.2 hcall

/-- The fragments of a ledger that tracks a history have distinct identities. -/
lemma Tracks.entries_distinct {ledger : FluxLedger d τ payload}
    {history : List (Call d τ payload)} (h : Tracks ledger history) :
    ledger.entries.Pairwise fun a b => a.key.sameIdentity b.key = false := by
  have hselect : ∀ (p : Option Standing → Bool) (axis : Fin d), p none = false →
      (select p axis (fates history)).Pairwise fun a b => a.key.sameIdentity b.key = false := by
    intro p axis hp
    rw [select, List.pairwise_map]
    refine (h.distinct.filter _).imp_of_mem fun {f g} hf hg hfg => hfg ?_ ?_
    · rcases f with ⟨_, _ | s⟩
      · simp [hp] at hf
      · rfl
    · rcases g with ⟨_, _ | s⟩
      · simp [hp] at hg
      · rfl
  have hsymm : Std.Symm fun f g : FaceFluxFragment d τ payload × Option Standing =>
      f.2.isSome → g.2.isSome → f.1.key.sameIdentity g.1.key = false := by
    refine ⟨fun f g hfg hg hf => ?_⟩
    rw [FaceFluxFragmentKey.sameIdentity_comm]
    exact hfg hf hg
  refine List.pairwise_flatMap.mpr ⟨fun axis _ => ?_, ?_⟩
  · rw [h.pending axis, h.published axis]
    refine List.pairwise_append.mpr ⟨hselect _ _ rfl, hselect _ _ rfl, fun a ha b hb => ?_⟩
    obtain ⟨x, hx, hwaits, -⟩ := mem_select.mp ha
    obtain ⟨y, hy, hsurvives, -⟩ := mem_select.mp hb
    -- one waits and the other is published, so they are two fragments
    have hne : (a, x) ≠ (b, y) := by
      intro heq
      obtain ⟨-, rfl⟩ := Prod.mk.injEq .. ▸ heq
      cases x with
      | none => simp [waits] at hwaits
      | some s =>
        simp only [waits, survives, decide_eq_true_eq] at hwaits hsurvives
        omega
    refine h.distinct.forall hx hy hne ?_ ?_
    · cases x with
      | none => simp [waits] at hwaits
      | some s => rfl
    · cases y with
      | none => simp [survives] at hsurvives
      | some s => rfl
  · refine List.Pairwise.imp_of_mem (fun {axis axis'} _ _ hne a ha b hb => ?_)
      (List.nodup_finRange d)
    -- fragments of two axes differ in the axis of their keys
    have honAxis : ∀ (axis : Fin d) (a : FaceFluxFragment d τ payload),
        a ∈ ledger.pending axis ++ ledger.published axis → a.key.axis = (axis : ℕ) := by
      intro axis a ha
      rw [h.pending axis, h.published axis] at ha
      rcases List.mem_append.mp ha with ha | ha
      · exact (mem_select.mp ha).choose_spec.2.2
      · exact (mem_select.mp ha).choose_spec.2.2
    by_contra hsame
    have heq := FaceFluxFragmentKey.axis_eq_of_sameIdentity (Bool.eq_true_of_not_eq_false hsame)
    rw [honAxis axis a ha, honAxis axis' b hb] at heq
    exact hne (Fin.ext (by exact_mod_cast heq))

end Run

end FluxLedger

open FluxLedger in
/-- **The ledger over whole histories.**  After every sequence of calls on a new ledger, among them
calls that throw: every call that throws leaves the ledger as it was; the published fragments on an
axis are, in order, the accumulated fragments all of whose transactions were committed and that no
later clear or discard removed; no two fragments have one identity; and the attempts of the outer
transactions since the last clear increase, the attempt of every published fragment being one of
those that are closed.

**Proof sketch.** Induction over the calls.  A call that throws is atomic; a call that returns moves
the fates of the fragments on by one step, and each method was shown to follow them. -/
theorem fluxLedger_publishes_surviving_fragments {d : ℕ} {τ payload : Type}
    (arithmetic : FluxArithmetic τ) {budget : FaceFluxLedgerBudget}
    {ledger : FluxLedger d τ payload} (hcreate : create budget = .ok ledger)
    (calls : List (Call d τ payload)) :
    (∀ (call : Call d τ payload) (s : FluxLedger d τ payload) (e : Exception),
      (call.perform arithmetic s).1 = .error e → (call.perform arithmetic s).2 = s) ∧
    (∀ axis, (execute arithmetic ledger calls).1.published axis =
      select survives axis (fates (execute arithmetic ledger calls).2)) ∧
    ((execute arithmetic ledger calls).1.entries.Pairwise
      fun a b => a.key.sameIdentity b.key = false) ∧
    (outerAttempts (execute arithmetic ledger calls).2).Pairwise (· < ·) ∧
    ∀ axis, ∀ entry ∈ (execute arithmetic ledger calls).1.published axis,
      entry.key.attempt ∈ closedAttempts (execute arithmetic ledger calls).2 := by
  obtain ⟨ht, ha⟩ := tracks_execute arithmetic hcreate calls
  refine ⟨fun call => call.perform_atomic arithmetic, ht.published, ht.entries_distinct,
    ha.increasing, fun axis entry hentry => ?_⟩
  rw [ht.published axis] at hentry
  obtain ⟨x, hx, hsurvives, -⟩ := mem_select.mp hentry
  exact ha.surviving (entry, x) hx hsurvives

/-- Arithmetic on integers, all of them finite. -/
def integerArithmetic : FluxArithmetic ℤ where
  value r := r.numerator / r.denominator
  mul a b := a * b
  isFinite _ := true
  isPositive a := 0 < a

/-- The flux through a coarse face in the first attempt, at a stage. -/
def coarseFragment (stage : String) : FaceFluxFragment 1 ℤ ℤ :=
  ⟨⟨"block", "density", ⟨0, 1⟩, .face, 0, fun _ => 3, fun _ => 3, ⟨0, 0, ⟨0, 1⟩, 0⟩, stage, 1,
    .coarse, .numericalFlux, ""⟩, ⟨⟨1, 1⟩, ⟨0, 1⟩, ⟨1, 1⟩, 1, 1⟩, 7⟩

/-- Two fragments, the second one in a savepoint that is rolled back; then a clear of the open
ledger, which throws; then the commit. -/
def savepointCalls : List (FluxLedger.Call 1 ℤ ℤ) :=
  [.begin 1, .accumulate (coarseFragment "predictor"), .begin 1,
    .accumulate (coarseFragment "corrector"), .rollback, .clear, .commit]

/-- A ledger of three fragments. -/
def smallLedger : FluxLedger 1 ℤ ℤ := ⟨fun _ => [], fun _ => [], [], none, none, ⟨3, 3, 2⟩⟩

open FluxLedger in
/-- Of two fragments, one of them rolled back, the other is published. -/
theorem fluxLedger_publishes_predictor :
    ((execute integerArithmetic smallLedger savepointCalls).1.published 0).map
        (fun entry => entry.key.stage) = ["predictor"] ∧
    (execute integerArithmetic smallLedger savepointCalls).1.published 0 =
      select survives 0 (fates (execute integerArithmetic smallLedger savepointCalls).2) := by
  refine ⟨by decide +kernel, ?_⟩
  exact (fluxLedger_publishes_surviving_fragments integerArithmetic
    (show create ⟨3, 3, 2⟩ = .ok smallLedger from rfl) savepointCalls).2.1 0

end Pops
