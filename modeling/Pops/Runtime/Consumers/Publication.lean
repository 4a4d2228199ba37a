import Pops.Runtime.Consumers.Ownership

/-!
# The calls of a consumer transaction on its publisher

One specification for every loop over the publisher: cleaning up, preparing an effect, and
publishing an effect with its retries.  Each says which objects are owned afterwards, provided that
the answers are tame.

## Main definitions

* `Pops.Consumers.Layout`, `Counts` — where the effects of a plan stand, and how often they were
  prepared and published.
* `Pops.Consumers.Undone` — what holds once everything was undone.

## Main results

* `Pops.Consumers.cleanupAll_spec`, `Pops.Consumers.prepareOne_spec`,
  `Pops.Consumers.publishEffect_spec`.
-/

namespace Pops.Consumers

/-! ## Cleaning up -/

section Specs

variable (publisher : Publisher)

/-- Retaining the recoveries changes no standing. -/
lemma retainRecoveries_spec (prepared : PreparedPublication) (log : List Event) :
    ∃ outcome, (retainRecoveries publisher prepared log).2 =
        log ++ [.recoveries prepared.handle outcome] ∧
      (Tame (retainRecoveries publisher prepared log).2 →
        ∃ failure, (retainRecoveries publisher prepared log).1 = .ok failure) := by
  unfold retainRecoveries
  cases hcase : publisher.recoveries log prepared.handle with
  | returns => exact ⟨.returns, rfl, fun _ => ⟨_, rfl⟩⟩
  | other => exact ⟨.other, rfl, fun _ => ⟨_, rfl⟩⟩
  | raises error =>
    dsimp only
    split_ifs with hexception
    · exact ⟨.raises error, rfl, fun _ => ⟨_, rfl⟩⟩
    · exact ⟨.raises error, rfl, fun htame => absurd htame.append.2 hexception⟩

/-- The end of a cleanup only retains the recoveries. -/
lemma finishCleanup_spec (prepared : PreparedPublication) (failure : Option String)
    (log : List Event) :
    ∃ outcome, (finishCleanup publisher prepared failure log).2 =
        log ++ [.recoveries prepared.handle outcome] ∧
      (Tame (finishCleanup publisher prepared failure log).2 →
        ∃ failure', (finishCleanup publisher prepared failure log).1 = .ok failure') := by
  obtain ⟨outcome, hlog, hok⟩ := retainRecoveries_spec publisher prepared log
  unfold finishCleanup
  rcases hcase : retainRecoveries publisher prepared log with ⟨result, log'⟩
  rw [hcase] at hlog hok
  cases result with
  | error error =>
    refine ⟨outcome, hlog, fun htame => ?_⟩
    obtain ⟨_, hfalse⟩ := hok htame
    cases hfalse
  | ok recovery =>
    cases recovery with
    | none => exact ⟨outcome, hlog, fun _ => ⟨_, rfl⟩⟩
    | some recovery => exact ⟨outcome, hlog, fun _ => ⟨_, rfl⟩⟩

/-- Cleaning up an object makes a cleanup call and retains the recoveries. -/
lemma cleanup_spec (kind : Cleanup) (prepared : PreparedPublication) (log : List Event) :
    Extends Event.Resolves log (cleanup publisher kind prepared log).2 ∧
      (Tame (cleanup publisher kind prepared log).2 →
        (∃ failure, (cleanup publisher kind prepared log).1 = .ok failure) ∧
        ∃ outcome outcome', (cleanup publisher kind prepared log).2 =
          log ++ [.cleanup kind prepared.handle outcome] ++
            [.recoveries prepared.handle outcome']) := by
  have hfinish : ∀ (outcome : CallOutcome) (failure : Option String),
      let finished := finishCleanup publisher prepared failure
        (log ++ [.cleanup kind prepared.handle outcome])
      Extends Event.Resolves log finished.2 ∧ (Tame finished.2 →
        (∃ failure, finished.1 = .ok failure) ∧ ∃ outcome outcome', finished.2 =
          log ++ [.cleanup kind prepared.handle outcome] ++
            [.recoveries prepared.handle outcome']) := by
    intro outcome failure finished
    obtain ⟨outcome', hlog, hok⟩ := finishCleanup_spec publisher prepared failure
      (log ++ [.cleanup kind prepared.handle outcome])
    refine ⟨?_, fun htame => ⟨hok htame, outcome, outcome', hlog⟩⟩
    rw [hlog]
    exact (Extends.one trivial).trans (Extends.one trivial)
  unfold cleanup
  cases hcase : publisher.cleanup log kind prepared.handle with
  | returns => exact hfinish _ _
  | other => exact hfinish _ _
  | raises error =>
    dsimp only
    split_ifs with hexception
    · exact hfinish _ _
    · exact ⟨Extends.one trivial, fun htame => absurd htame.append.2 hexception⟩

/-- A temporary that is cleaned up is gone. -/
lemma cleanup_temporary {kind : Cleanup} {prepared : PreparedPublication} {log : List Event}
    {temporaries visibles : List ℕ} (htame : Tame (cleanup publisher kind prepared log).2)
    (h : Owns log (prepared.handle :: temporaries) visibles) :
    Owns (cleanup publisher kind prepared log).2 temporaries visibles := by
  obtain ⟨-, outcome, outcome', hlog⟩ := (cleanup_spec publisher kind prepared log).2 htame
  rw [hlog]
  exact (h.cleanup_temporary kind outcome).quiet fun _ _ => rfl

/-- A visible object that is rolled back is gone. -/
lemma cleanup_visible {prepared : PreparedPublication} {log : List Event}
    {temporaries visibles : List ℕ} (htame : Tame (cleanup publisher .rollback prepared log).2)
    (h : Owns log temporaries (prepared.handle :: visibles)) :
    Owns (cleanup publisher .rollback prepared log).2 temporaries visibles := by
  obtain ⟨-, outcome, outcome', hlog⟩ := (cleanup_spec publisher .rollback prepared log).2 htame
  rw [hlog]
  exact (h.rollback_visible outcome).quiet fun _ _ => rfl

/-- Cleaning up in a loop. -/
theorem cleanupAll_spec (kind : Cleanup) :
    ∀ (items : List (AcceptedSideEffect × PreparedPublication)) (log : List Event),
      Extends Event.Resolves log (cleanupAll publisher kind items log).2 ∧
      (Tame (cleanupAll publisher kind items log).2 →
        (∃ result, (cleanupAll publisher kind items log).1 = .ok result) ∧
        (∀ temporaries visibles,
          Owns log (items.map (fun item => item.2.handle) ++ temporaries) visibles →
          Owns (cleanupAll publisher kind items log).2 temporaries visibles) ∧
        (kind = .rollback → ∀ temporaries visibles,
          Owns log temporaries (items.map (fun item => item.2.handle) ++ visibles) →
          Owns (cleanupAll publisher kind items log).2 temporaries visibles)) := by
  intro items
  induction items with
  | nil =>
    intro log
    exact ⟨Extends.refl _ _, fun _ => ⟨⟨_, rfl⟩, fun _ _ h => h, fun _ _ _ h => h⟩⟩
  | cons item rest ih =>
    intro log
    obtain ⟨effect, prepared⟩ := item
    obtain ⟨hextends, hok⟩ := cleanup_spec publisher kind prepared log
    have htemporary := @cleanup_temporary publisher kind prepared log
    have hvisible := @cleanup_visible publisher prepared log
    unfold cleanupAll
    rcases hfirst : cleanup publisher kind prepared log with ⟨failure, log'⟩
    rw [hfirst] at hextends hok htemporary
    cases failure with
    | error error =>
      refine ⟨hextends, fun htame => ?_⟩
      obtain ⟨⟨_, hfalse⟩, -⟩ := hok htame
      cases hfalse
    | ok failure =>
      obtain ⟨hrest, hspec⟩ := ih log'
      dsimp only at hextends htemporary ⊢
      rcases hcase : cleanupAll publisher kind rest log' with ⟨result, log''⟩
      rw [hcase] at hrest hspec
      dsimp only at hrest hspec
      have hall : Extends Event.Resolves log log'' := hextends.trans hrest
      have howns : Tame log'' →
          (∀ temporaries visibles,
            Owns log (prepared.handle :: rest.map (fun item => item.2.handle) ++ temporaries)
              visibles → Owns log'' temporaries visibles) ∧
          (kind = .rollback → ∀ temporaries visibles,
            Owns log temporaries
              (prepared.handle :: rest.map (fun item => item.2.handle) ++ visibles) →
            Owns log'' temporaries visibles) := by
        intro htame
        have htame' := hrest.tame htame
        obtain ⟨-, hT, hV⟩ := hspec htame
        refine ⟨fun T V h => hT T V (htemporary htame' h), fun hkind T V h => hV hkind T V ?_⟩
        subst hkind
        rw [hfirst] at hvisible
        exact hvisible htame' h
      cases result with
      | error error =>
        refine ⟨hall, fun htame => ?_⟩
        obtain ⟨⟨_, hfalse⟩, -⟩ := hspec htame
        cases hfalse
      | ok result =>
        cases failure with
        | none => exact ⟨hall, fun htame => ⟨⟨_, rfl⟩, howns htame⟩⟩
        | some failure => exact ⟨hall, fun htame => ⟨⟨_, rfl⟩, howns htame⟩⟩

end Specs

/-! ## Undoing a transaction -/

/-- The objects of staged effects. -/
def stagedHandles (staged : List Staged) : List ℕ := staged.map fun s => s.prepared.handle

/-- The objects of published effects. -/
def acceptedHandles (accepted : List Accepted) : List ℕ := accepted.map fun a => a.prepared.handle

/-- The report of a failure, if it has one, has the given cursors. -/
def Failure.Reports (cursors : ConsumerCursorSet) : Failure → Prop
  | .passed _ => True
  | .publication _ report => report.cursors = cursors

section Undo

variable (publisher : Publisher)

/-- The staged temporaries are gone. -/
lemma discardStaged_spec (t : Transaction) :
    ∃ log prepared, (discardStaged publisher t).2 = { t with log := log, prepared := prepared } ∧
      Extends Event.Resolves t.log log ∧
      (Tame log → (∃ result, (discardStaged publisher t).1 = .ok result) ∧ prepared = [] ∧
        ∀ visibles, Owns t.log (stagedHandles t.prepared) visibles → Owns log [] visibles) := by
  obtain ⟨hextends, hspec⟩ := cleanupAll_spec publisher .discard
    (t.prepared.reverse.map fun staged => (staged.effect, staged.prepared)) t.log
  unfold discardStaged
  rcases hcase : cleanupAll publisher .discard
    (t.prepared.reverse.map fun staged => (staged.effect, staged.prepared)) t.log with ⟨result, log⟩
  rw [hcase] at hextends hspec ⊢
  cases result with
  | error error =>
    refine ⟨log, t.prepared, rfl, hextends, fun htame => ?_⟩
    obtain ⟨⟨_, hfalse⟩, -⟩ := hspec htame
    cases hfalse
  | ok result =>
    refine ⟨log, [], rfl, hextends, fun htame => ⟨⟨result, rfl⟩, rfl, fun visibles howns => ?_⟩⟩
    obtain ⟨-, htemporaries, -⟩ := hspec htame
    refine htemporaries [] visibles (howns.perm ?_ (List.Perm.refl _))
    rw [List.append_nil, List.map_map, stagedHandles]
    exact (List.reverse_perm t.prepared).symm.map _

/-- The published objects are gone. -/
lemma rollbackAcceptedObjects_spec (t : Transaction) :
    ∃ log accepted updates, (rollbackAcceptedObjects publisher t).2 =
        { t with log := log, accepted := accepted, cursorUpdates := updates } ∧
      Extends Event.Resolves t.log log ∧
      (Tame log → (∃ result, (rollbackAcceptedObjects publisher t).1 = .ok result) ∧
        accepted = [] ∧ updates = [] ∧
        ∀ temporaries, Owns t.log temporaries (acceptedHandles t.accepted) →
          Owns log temporaries []) := by
  obtain ⟨hextends, hspec⟩ := cleanupAll_spec publisher .rollback
    (t.accepted.reverse.map fun accepted => (accepted.effect, accepted.prepared)) t.log
  unfold rollbackAcceptedObjects
  rcases hcase : cleanupAll publisher .rollback
    (t.accepted.reverse.map fun accepted => (accepted.effect, accepted.prepared)) t.log with
    ⟨result, log⟩
  rw [hcase] at hextends hspec ⊢
  cases result with
  | error error =>
    refine ⟨log, t.accepted, t.cursorUpdates, rfl, hextends, fun htame => ?_⟩
    obtain ⟨⟨_, hfalse⟩, -⟩ := hspec htame
    cases hfalse
  | ok result =>
    refine ⟨log, [], [], rfl, hextends, fun htame =>
      ⟨⟨result, rfl⟩, rfl, rfl, fun temporaries howns => ?_⟩⟩
    obtain ⟨-, -, hvisibles⟩ := hspec htame
    refine hvisibles rfl temporaries [] (howns.perm (List.Perm.refl _) ?_)
    rw [List.append_nil, List.map_map, acceptedHandles]
    exact (List.reverse_perm t.accepted).symm.map _

/-- A reported failure discards what is staged. -/
lemma raiseFailed_spec (effect : AcceptedSideEffect) (error : Option Raised)
    (diagnostics rolledBack : List String) (t : Transaction) :
    ∃ log prepared state, (raiseFailed publisher effect error diagnostics rolledBack t).2 =
        { t with log := log, prepared := prepared, state := state } ∧
      Extends Event.Resolves t.log log ∧
      (raiseFailed publisher effect error diagnostics rolledBack t).1.Reports t.initialCursors ∧
      (Tame log → prepared = [] ∧ state = .failed ∧
        ∀ visibles, Owns t.log (stagedHandles t.prepared) visibles → Owns log [] visibles) := by
  obtain ⟨log, prepared, ht, hextends, hspec⟩ := discardStaged_spec publisher t
  unfold raiseFailed
  rcases hcase : discardStaged publisher t with ⟨result, t'⟩
  rw [hcase] at ht hspec
  obtain rfl : t' = _ := ht
  cases result with
  | error error' =>
    refine ⟨log, prepared, t.state, rfl, hextends, trivial, fun htame => ?_⟩
    obtain ⟨⟨_, hfalse⟩, -⟩ := hspec htame
    cases hfalse
  | ok result =>
    refine ⟨log, prepared, .failed, rfl, hextends, rfl, fun htame => ?_⟩
    obtain ⟨-, hprepared, howns⟩ := hspec htame
    exact ⟨hprepared, rfl, howns⟩

/-- An abandoned acceptance undoes everything. -/
lemma abandon_spec (rest : List Staged) (effect : AcceptedSideEffect) (error : Option Raised)
    (diagnostics rolledBack : List String) (t : Transaction) :
    ∃ log prepared accepted updates state,
      (abandon publisher rest effect error diagnostics rolledBack t).2 =
        { t with
          log := log
          prepared := prepared
          accepted := accepted
          cursorUpdates := updates
          state := state } ∧
      Extends Event.Resolves t.log log ∧
      (abandon publisher rest effect error diagnostics rolledBack t).1.Reports t.initialCursors ∧
      (Tame log → prepared = [] ∧ accepted = [] ∧ state = .failed ∧
        (Owns t.log (stagedHandles (t.prepared ++ rest)) (acceptedHandles t.accepted) →
          Owns log [] [])) := by
  obtain ⟨log, accepted, updates, ht, hextends, hspec⟩ :=
    rollbackAcceptedObjects_spec publisher { t with prepared := t.prepared ++ rest }
  unfold abandon
  rcases hcase : rollbackAcceptedObjects publisher { t with prepared := t.prepared ++ rest } with
    ⟨result, t'⟩
  rw [hcase] at ht hspec
  obtain rfl : t' = _ := ht
  cases result with
  | error error' =>
    refine ⟨log, t.prepared ++ rest, accepted, updates, t.state, rfl, hextends, trivial,
      fun htame => ?_⟩
    obtain ⟨⟨_, hfalse⟩, -⟩ := hspec htame
    cases hfalse
  | ok result =>
    obtain ⟨acceptedRollback, acceptedCleanup⟩ := result
    obtain ⟨log', prepared, state, ht', hextends', hreports, hspec'⟩ :=
      raiseFailed_spec publisher effect error (diagnostics ++ acceptedCleanup)
        (rolledBack ++ acceptedRollback)
        { t with
          prepared := t.prepared ++ rest
          log := log
          accepted := accepted
          cursorUpdates := updates }
    refine ⟨log', prepared, accepted, updates, state, ht', hextends.trans hextends', hreports,
      fun htame => ?_⟩
    obtain ⟨-, haccepted, -, hvisibles⟩ := hspec (hextends'.tame htame)
    obtain ⟨hprepared, hstate, htemporaries⟩ := hspec' htame
    exact ⟨hprepared, haccepted, hstate, fun howns => htemporaries [] (hvisibles _ howns)⟩

end Undo

/-! ## Preparing -/

section Prepare

variable (publisher : Publisher)

/-- A call that prepares an effect concerns no other. -/
lemma concerns_prepare (handle : ℕ) (effect : AcceptedSideEffect) (outcome : PrepareOutcome) :
    (Event.prepare handle effect outcome).Concerns effect :=
  fun _ he => ⟨decide_eq_false (Ne.symm he), rfl⟩

/-- A call that prepares an effect counts. -/
lemma counts_prepare (log : List Event) (handle : ℕ) (effect : AcceptedSideEffect)
    (outcome : PrepareOutcome) :
    preparations (log ++ [.prepare handle effect outcome]) effect = preparations log effect + 1 ∧
      publications (log ++ [.prepare handle effect outcome]) effect = publications log effect := by
  constructor
  · simp [preparations, List.countP_append, Event.prepares]
  · simp [publications, List.countP_append, Event.publishes]

/-- What preparing an effect leads to: the calls concern the effect only and are counted, and there
is a new temporary or an error that can be reported. -/
structure Prepares (effect : AcceptedSideEffect) (remaining attempts : ℕ)
    (lastError : Option Raised) (log : List Event)
    (result : Except Raised (Option PreparedPublication × ℕ × Option Raised) × List Event) :
    Prop where
  extends_ : Extends (Event.Concerns effect) log result.2
  publications : publications result.2 effect = publications log effect
  increases : ∀ p attempts' error, result.1 = .ok (some p, attempts', error) → attempts < attempts'
  returns : Tame result.2 → ∃ prepared attempts' error,
    result.1 = .ok (prepared, attempts', error) ∧ attempts' ≤ attempts + remaining ∧
    preparations result.2 effect + attempts = preparations log effect + attempts' ∧
    (∀ p, prepared = some p → ∀ temporaries visibles,
      Owns log temporaries visibles → Owns result.2 (temporaries ++ [p.handle]) visibles) ∧
    (prepared = none → attempts' = attempts + remaining ∧
      (effect.failureAction = .skipSampleReported →
        (remaining = 0 → canonicalText (reason lastError) = true) →
        canonicalText (reason error) = true) ∧
      ∀ temporaries visibles, Owns log temporaries visibles → Owns result.2 temporaries visibles)

/-- One more attempt after an attempt that failed. -/
lemma Prepares.again {effect : AcceptedSideEffect} {remaining attempts : ℕ}
    {lastError : Option Raised} {log : List Event} {outcome : PrepareOutcome} {error : Raised}
    {result : Except Raised (Option PreparedPublication × ℕ × Option Raised) × List Event}
    (h : Prepares effect remaining (attempts + 1) (some error)
      (log ++ [.prepare log.length effect outcome]) result)
    (htame : (Event.prepare log.length effect outcome).Tame →
      (∀ handle s, standingStep handle s (.prepare log.length effect outcome) = s) ∧
        (effect.failureAction = .skipSampleReported →
          canonicalText (reason (some error)) = true)) :
    Prepares effect (remaining + 1) attempts lastError log result := by
  obtain ⟨hprepares, hpublishes⟩ := counts_prepare log log.length effect outcome
  refine ⟨(Extends.one (concerns_prepare _ _ _)).trans h.extends_,
    h.publications.trans hpublishes, fun p a e hresult => ?_, fun htame' => ?_⟩
  · have := h.increases p a e hresult
    omega
  obtain ⟨hquiet, hcanonical⟩ := htame (h.extends_.tame htame').append.2
  obtain ⟨prepared, attempts', error', hresult, hle, hcount, hsome, hnone⟩ := h.returns htame'
  rw [hprepares] at hcount
  refine ⟨prepared, attempts', error', hresult, by omega, by omega, fun p hp => ?_, fun hp => ?_⟩
  · exact fun T V hTV => hsome p hp T V (hTV.quiet hquiet)
  · obtain ⟨heq, hreason, howns⟩ := hnone hp
    exact ⟨by omega, fun hskip _ => hreason hskip fun _ => hcanonical hskip,
      fun T V hTV => howns T V (hTV.quiet hquiet)⟩

/-- Preparing an effect with a number of attempts left.

**Proof sketch.** By induction on the attempts: the first of them ends the loop with an object, or
with an exception that passes through, or `Prepares.again` adds it to the others. -/
theorem prepareOne_spec (effect : AcceptedSideEffect) :
    ∀ (remaining attempts : ℕ) (lastError : Option Raised) (log : List Event),
      Prepares effect remaining attempts lastError log
        (prepareOne publisher effect remaining attempts lastError log) := by
  intro remaining
  induction remaining with
  | zero =>
    intro attempts lastError log
    refine ⟨Extends.refl _ _, rfl, ?_, fun _ =>
      ⟨none, attempts, lastError, rfl, by omega, rfl, ?_, ?_⟩⟩
    · intro p a e hresult
      cases hresult
    · intro p hp
      cases hp
    · exact fun _ => ⟨rfl, fun _ hcanonical => hcanonical rfl, fun _ _ howns => howns⟩
  | succ remaining ih =>
    intro attempts lastError log
    unfold prepareOne
    cases houtcome : publisher.prepare log effect with
    | returns effectIdentity payloadIdentity =>
      dsimp only
      split_ifs with hmismatch
      · -- an object for another effect is not an answer the transaction can cope with
        refine (ih _ _ _).again fun htame => absurd hmismatch ?_
        rw [htame.1, htame.2]
        simp
      · obtain ⟨hprepares, hpublishes⟩ := counts_prepare log log.length effect
          (.returns effectIdentity payloadIdentity)
        refine ⟨Extends.one (concerns_prepare _ _ _), hpublishes, ?_, fun _ =>
          ⟨_, _, _, rfl, by omega, by rw [hprepares]; omega, fun p hp => ?_, fun hp => ?_⟩⟩
        · rintro p a e hresult
          cases hresult
          omega
        · obtain rfl := Option.some.inj hp
          exact fun T V hTV => hTV.prepare effect effectIdentity payloadIdentity
        · cases hp
    | other =>
      exact (ih _ _ _).again fun _ => ⟨fun _ _ => rfl, fun _ => by decide⟩
    | raises error =>
      dsimp only
      split_ifs with hexception
      · exact (ih _ _ _).again fun htame => ⟨fun _ _ => rfl, htame.2⟩
      · obtain ⟨hprepares, hpublishes⟩ := counts_prepare log log.length effect (.raises error)
        refine ⟨Extends.one (concerns_prepare _ _ _), hpublishes, ?_,
          fun htame => absurd htame.append.2.1 hexception⟩
        intro p a e hresult
        cases hresult

end Prepare

/-! ## The effects of a plan -/

/-- Where the effects of a plan that have been taken up stand: published, pending or skipped, in the
order of the plan. -/
structure Layout (accepted : List Accepted) (pending : List AcceptedSideEffect)
    (skipped : List SkippedSampleReport) (omitted taken : List AcceptedSideEffect) : Prop where
  partition : (accepted.map Accepted.effect ++ pending ++ omitted).Perm taken
  order : (accepted.map Accepted.effect ++ pending).Sublist taken
  reports : skipped.map SkippedSampleReport.effectIdentity =
    omitted.map AcceptedSideEffect.identity
  receipts : ∀ a ∈ accepted, a.receipt.effectIdentity = a.effect.identity ∧
    a.receipt.payloadIdentity = a.effect.payloadIdentity ∧
    a.receipt.parallelMode = a.effect.parallelMode
  nodup : taken.Nodup

/-- How often the effects of a plan have been prepared and published. -/
structure Counts (log : List Event) (accepted : List Accepted) (pending : List Staged)
    (omitted taken : List AcceptedSideEffect) : Prop where
  attempts : ∀ s ∈ pending, preparations log s.effect = s.attempts ∧ 1 ≤ s.attempts
  pending : ∀ s ∈ pending, publications log s.effect = 0
  accepted : ∀ a ∈ accepted, publications log a.effect = 1
  omitted : ∀ e ∈ omitted, publications log e = 0
  limits : ∀ e, preparations log e ≤ attemptLimit e
  untouched : ∀ e, e ∉ taken → preparations log e = 0 ∧ publications log e = 0

/-- Calls that prepare and publish nothing leave the counts. -/
lemma Counts.quiet {p : Event → Prop} {log log' : List Event} {accepted : List Accepted}
    {pending : List Staged} {omitted taken : List AcceptedSideEffect}
    (h : Counts log accepted pending omitted taken) (hextends : Extends p log log')
    (hp : ∀ event effect, p event → event.prepares effect = false ∧
      event.publishes effect = false) : Counts log' accepted pending omitted taken := by
  have hcounts (effect : AcceptedSideEffect) : preparations log' effect = preparations log effect ∧
      publications log' effect = publications log effect :=
    hextends.counts fun e he => hp e effect he
  refine ⟨fun s hs => ?_, fun s hs => ?_, fun a ha => ?_, fun e he => ?_, fun e => ?_,
    fun e he => ?_⟩
  · rw [(hcounts _).1]
    exact h.attempts s hs
  · rw [(hcounts _).2]
    exact h.pending s hs
  · rw [(hcounts _).2]
    exact h.accepted a ha
  · rw [(hcounts _).2]
    exact h.omitted e he
  · rw [(hcounts _).1]
    exact h.limits e
  · rw [(hcounts _).1, (hcounts _).2]
    exact h.untouched e he

section Publish

variable (publisher : Publisher)

/-- The transaction is undone: nothing is left behind, and the reported cursors are the first ones.
-/
structure Undone (before after : Transaction) (failure : Failure) : Prop where
  clean : Owns after.log [] []
  prepared : after.prepared = []
  accepted : after.accepted = []
  state : after.state = .failed
  plan : after.plan = before.plan
  initialCursors : after.initialCursors = before.initialCursors
  reports : failure.Reports before.initialCursors
  limits : ∀ e, preparations after.log e ≤ attemptLimit e

/-- What becomes of one effect in the loop of `accept`. -/
structure Publishes (rest : List Staged) (effect : AcceptedSideEffect)
    (omitted taken : List AcceptedSideEffect) (t : Transaction)
    (result : Except Failure (Option Accepted) × Transaction) : Prop where
  extends_ : Extends (fun _ => True) t.log result.2.log
  published : ∀ a, result.1 = .ok (some a) → Tame result.2.log → a.effect = effect ∧
    result.2 = { t with log := result.2.log } ∧
    Owns result.2.log (stagedHandles rest) (acceptedHandles (t.accepted ++ [a])) ∧
    Counts result.2.log (t.accepted ++ [a]) rest omitted taken ∧
    Layout (t.accepted ++ [a]) (rest.map Staged.effect) t.skipped omitted taken
  skipped : result.1 = .ok none → Tame result.2.log → ∃ report,
    result.2 = { t with log := result.2.log, skipped := t.skipped ++ [report] } ∧
    Owns result.2.log (stagedHandles rest) (acceptedHandles t.accepted) ∧
    Counts result.2.log t.accepted rest (omitted ++ [effect]) taken ∧
    Layout t.accepted (rest.map Staged.effect) (t.skipped ++ [report]) (omitted ++ [effect]) taken
  failed : ∀ failure, result.1 = .error failure → Tame result.2.log →
    Undone t result.2 failure

/-- The effect has no object any more, and the others stand as before. -/
structure Settles (rest : List Staged) (effect : AcceptedSideEffect) (attempts : ℕ)
    (omitted taken : List AcceptedSideEffect) (t : Transaction) : Prop where
  unstaged : t.prepared = []
  owns : Owns t.log (stagedHandles rest) (acceptedHandles t.accepted)
  counts : ∃ prepared, Counts t.log t.accepted (⟨effect, prepared, attempts⟩ :: rest) omitted taken
  layout : Layout t.accepted (effect :: rest.map Staged.effect) t.skipped omitted taken

/-- An abandoned acceptance is undone. -/
lemma publishes_abandon {rest : List Staged} {effect : AcceptedSideEffect} {error : Option Raised}
    {diagnostics rolledBack : List String} {attempts : ℕ}
    {omitted taken : List AcceptedSideEffect} {t : Transaction}
    (skipped : List SkippedSampleReport)
    (h : Tame t.log → Settles rest effect attempts omitted taken t) :
    Publishes rest effect omitted taken t
      (.error (abandon publisher rest effect error diagnostics rolledBack
          { t with skipped := skipped }).1,
        (abandon publisher rest effect error diagnostics rolledBack
          { t with skipped := skipped }).2) := by
  obtain ⟨log, prepared, accepted, updates, state, ht, hextends, hreports, hspec⟩ :=
    abandon_spec publisher rest effect error diagnostics rolledBack { t with skipped := skipped }
  rw [ht]
  refine ⟨hextends.mono fun _ _ => trivial, ?_, ?_, ?_⟩
  · intro a ha
    cases ha
  · intro ha
    cases ha
  · intro failure hfailure htame
    obtain rfl := Except.error.inj hfailure
    have hsettles := h (hextends.tame htame)
    obtain ⟨_, hcounts⟩ := hsettles.counts
    obtain ⟨hpreparedNil, haccepted, hstate, hclean⟩ := hspec htame
    dsimp only at hclean
    rw [hsettles.unstaged, List.nil_append] at hclean
    refine ⟨hclean hsettles.owns, hpreparedNil, haccepted, hstate, rfl, rfl, hreports, fun e => ?_⟩
    rw [(hextends.counts fun event hevent => hevent.quiet e).1]
    exact hcounts.limits e

/-- A pending effect is omitted. -/
lemma Counts.omit_ {log : List Event} {accepted : List Accepted} {staged : Staged}
    {rest : List Staged} {omitted taken : List AcceptedSideEffect}
    (h : Counts log accepted (staged :: rest) omitted taken) :
    Counts log accepted rest (omitted ++ [staged.effect]) taken := by
  refine ⟨fun s hs => h.attempts s (List.mem_cons_of_mem _ hs),
    fun s hs => h.pending s (List.mem_cons_of_mem _ hs), h.accepted, fun e he => ?_, h.limits,
    h.untouched⟩
  rcases List.mem_append.mp he with he | he
  · exact h.omitted e he
  · rw [List.mem_singleton.mp he]
    exact h.pending staged List.mem_cons_self

/-- A pending effect is omitted and reported. -/
lemma Layout.omit_ {accepted : List Accepted} {effect : AcceptedSideEffect}
    {rest : List AcceptedSideEffect} {skipped : List SkippedSampleReport}
    {omitted taken : List AcceptedSideEffect} {report : SkippedSampleReport}
    (h : Layout accepted (effect :: rest) skipped omitted taken)
    (hreport : report.effectIdentity = effect.identity) :
    Layout accepted rest (skipped ++ [report]) (omitted ++ [effect]) taken := by
  refine ⟨?_, ?_, ?_, h.receipts, h.nodup⟩
  · refine List.Perm.trans ?_ h.partition
    rw [List.append_assoc, List.append_assoc, List.cons_append, ← List.append_assoc rest]
    exact List.Perm.append_left _ (List.perm_append_singleton effect (rest ++ omitted))
  · exact (List.Sublist.append_left (List.sublist_cons_self effect rest) _).trans h.order
  · rw [List.map_append, List.map_append, h.reports]
    simp [hreport]

/-- An exception of the transaction itself that is excluded. -/
lemma publishes_passed {rest : List Staged} {effect : AcceptedSideEffect}
    {omitted taken : List AcceptedSideEffect} {t : Transaction} {log : List Event} {error : Raised}
    (hextends : Extends (fun _ => True) t.log log) (hwild : ¬Tame log) :
    Publishes rest effect omitted taken t (.error (.passed error), { t with log := log }) := by
  refine ⟨hextends, ?_, ?_, fun _ _ htame => absurd htame hwild⟩
  · intro a ha
    cases ha
  · intro ha
    cases ha

/-- An effect whose publication failed for good is skipped and reported, or the acceptance is
abandoned. -/
lemma settleFailure_spec {rest : List Staged} {effect : AcceptedSideEffect} {attempts : ℕ}
    {error : Option Raised} {failure : Option String} {omitted taken : List AcceptedSideEffect}
    {t : Transaction} (h : Tame t.log → Settles rest effect attempts omitted taken t)
    (hreason : Tame t.log → effect.failureAction = .skipSampleReported →
      canonicalText (reason error) = true) :
    Publishes rest effect omitted taken t
      (settleFailure publisher rest effect attempts error failure t) := by
  unfold settleFailure
  by_cases hskip : effect.failureAction = .skipSampleReported
  · rw [if_pos hskip, skippedSampleReport]
    by_cases hattempts : attempts < 1
    · -- every effect that was prepared has made an attempt
      rw [if_pos hattempts]
      refine publishes_passed (Extends.refl _ _) fun htame => ?_
      obtain ⟨_, hcounts⟩ := (h htame).counts
      have hpos := (hcounts.attempts _ List.mem_cons_self).2
      exact absurd hattempts (not_lt.mpr hpos)
    rw [if_neg hattempts]
    by_cases hcanonical : canonicalText (reason error) = false
    · -- a text that no report accepts is excluded
      rw [if_pos hcanonical]
      refine publishes_passed (Extends.refl _ _) fun htame => ?_
      have := hreason htame hskip
      rw [hcanonical] at this
      cases this
    · rw [if_neg hcanonical]
      cases failure with
      | some failure => exact publishes_abandon publisher _ h
      | none =>
        refine ⟨Extends.refl _ _, ?_, ?_, ?_⟩
        · intro a ha
          cases ha
        · intro _ htame
          obtain ⟨_, hcounts⟩ := (h htame).counts
          exact ⟨_, rfl, (h htame).owns, hcounts.omit_, (h htame).layout.omit_ rfl⟩
        · intro failure' hfailure
          cases hfailure
  · rw [if_neg hskip]
    exact publishes_abandon publisher t.skipped h

end Publish

section PublishEffect

variable (publisher : Publisher)

/-- An effect stands in one place only. -/
lemma Layout.apart {accepted : List Accepted} {effect : AcceptedSideEffect}
    {rest : List AcceptedSideEffect} {skipped : List SkippedSampleReport}
    {omitted taken : List AcceptedSideEffect}
    (h : Layout accepted (effect :: rest) skipped omitted taken) :
    (∀ a ∈ accepted, a.effect ≠ effect) ∧ (∀ e ∈ rest, e ≠ effect) ∧ (∀ e ∈ omitted, e ≠ effect) ∧
      effect ∈ taken := by
  have hnodup := h.partition.nodup_iff.mpr h.nodup
  rw [List.append_assoc, List.nodup_append] at hnodup
  obtain ⟨-, hrest, hacross⟩ := hnodup
  rw [List.cons_append, List.nodup_cons, List.mem_append, not_or] at hrest
  refine ⟨fun a ha heq => ?_, fun e he heq => hrest.1.1 (heq ▸ he),
    fun e he heq => hrest.1.2 (heq ▸ he), ?_⟩
  · exact hacross a.effect (List.mem_map_of_mem ha) effect
      (List.mem_append_left _ List.mem_cons_self) heq
  · refine h.partition.mem_iff.mp ?_
    simp

/-- Calls that concern a pending effect only: the counts of the others stay. -/
lemma Counts.concern {log log' : List Event} {accepted : List Accepted}
    {effect : AcceptedSideEffect} {prepared prepared' : PreparedPublication}
    {attempts attempts' : ℕ} {rest : List Staged} {skipped : List SkippedSampleReport}
    {omitted taken : List AcceptedSideEffect}
    (h : Counts log accepted (⟨effect, prepared, attempts⟩ :: rest) omitted taken)
    (hlayout : Layout accepted (effect :: rest.map Staged.effect) skipped omitted taken)
    (hextends : Extends (Event.Concerns effect) log log')
    (hpublications : publications log' effect = publications log effect)
    (hpreparations : preparations log' effect = attempts') (hpos : 1 ≤ attempts')
    (hle : attempts' ≤ attemptLimit effect) :
    Counts log' accepted (⟨effect, prepared', attempts'⟩ :: rest) omitted taken := by
  obtain ⟨haccepted, hrest, homitted, htaken⟩ := hlayout.apart
  have hcounts : ∀ e, e ≠ effect → preparations log' e = preparations log e ∧
      publications log' e = publications log e := fun e he => hextends.counts fun _ hc => hc e he
  have hothers : ∀ s ∈ rest, s.effect ≠ effect := fun s hs => hrest _ (List.mem_map_of_mem hs)
  refine ⟨fun s hs => ?_, fun s hs => ?_, fun a ha => ?_, fun e he => ?_, fun e => ?_,
    fun e he => ?_⟩
  · rcases List.mem_cons.mp hs with rfl | hs
    · exact ⟨hpreparations, hpos⟩
    · rw [(hcounts _ (hothers s hs)).1]
      exact h.attempts s (List.mem_cons_of_mem _ hs)
  · rcases List.mem_cons.mp hs with rfl | hs
    · exact hpublications.trans (h.pending _ List.mem_cons_self)
    · rw [(hcounts _ (hothers s hs)).2]
      exact h.pending s (List.mem_cons_of_mem _ hs)
  · rw [(hcounts _ (haccepted a ha)).2]
    exact h.accepted a ha
  · rw [(hcounts _ (homitted e he)).2]
    exact h.omitted e he
  · by_cases heq : e = effect
    · rw [heq, hpreparations]
      exact hle
    · rw [(hcounts e heq).1]
      exact h.limits e
  · have hne : e ≠ effect := fun heq => he (heq ▸ htaken)
    rw [(hcounts e hne).1, (hcounts e hne).2]
    exact h.untouched e he

/-- A pending effect is published. -/
lemma Counts.publish {log : List Event} {accepted : List Accepted}
    {effect : AcceptedSideEffect} {prepared : PreparedPublication} {attempts handle : ℕ}
    {rest : List Staged} {skipped : List SkippedSampleReport}
    {omitted taken : List AcceptedSideEffect} {outcome : PublishOutcome}
    {receipt : PublicationReceipt}
    (h : Counts log accepted (⟨effect, prepared, attempts⟩ :: rest) omitted taken)
    (hlayout : Layout accepted (effect :: rest.map Staged.effect) skipped omitted taken)
    (hreceipt : checkReceipt effect outcome = .ok receipt) :
    Counts (log ++ [.publish handle effect outcome]) (accepted ++
      [⟨effect, prepared, receipt⟩]) rest
      omitted taken := by
  obtain ⟨haccepted, hrest, homitted, htaken⟩ := hlayout.apart
  have hpreparations : ∀ e, preparations (log ++ [.publish handle effect outcome]) e =
      preparations log e := by
    intro e
    simp [preparations, List.countP_append, Event.prepares]
  have hpublications : ∀ e, publications (log ++ [.publish handle effect outcome]) e =
      publications log e + if effect = e then 1 else 0 := by
    intro e
    by_cases heq : effect = e
    · subst heq
      simp [publications, List.countP_append, Event.publishes, hreceipt, Except.isOk, Except.toBool]
    · simp [publications, List.countP_append, Event.publishes, heq]
  have hothers : ∀ e, e ≠ effect → publications (log ++ [.publish handle effect outcome]) e =
      publications log e := by
    intro e he
    rw [hpublications, if_neg (Ne.symm he)]
    rfl
  refine ⟨fun s hs => ?_, fun s hs => ?_, fun a ha => ?_, fun e he => ?_, fun e => ?_,
    fun e he => ?_⟩
  · rw [hpreparations]
    exact h.attempts s (List.mem_cons_of_mem _ hs)
  · rw [hothers _ (hrest _ (List.mem_map_of_mem hs))]
    exact h.pending s (List.mem_cons_of_mem _ hs)
  · rcases List.mem_append.mp ha with ha | ha
    · rw [hothers _ (haccepted a ha)]
      exact h.accepted a ha
    · rw [List.mem_singleton.mp ha, hpublications, if_pos rfl,
        h.pending ⟨effect, prepared, attempts⟩ List.mem_cons_self]
  · rw [hothers _ (homitted e he)]
    exact h.omitted e he
  · rw [hpreparations]
    exact h.limits e
  · rw [hpreparations, hothers e fun heq => he (heq ▸ htaken)]
    exact h.untouched e he

/-- A published effect has its receipt. -/
lemma checkReceipt_eq_ok {effect : AcceptedSideEffect} {outcome : PublishOutcome}
    {receipt : PublicationReceipt} (h : checkReceipt effect outcome = .ok receipt) :
    receipt.effectIdentity = effect.identity ∧ receipt.payloadIdentity = effect.payloadIdentity ∧
      receipt.parallelMode = effect.parallelMode := by
  unfold checkReceipt at h
  split at h
  · cases h
  · cases h
  · split_ifs at h with hidentity hmode
    cases h
    simp only [not_or, not_not] at hidentity hmode
    exact ⟨hidentity.1, hidentity.2, hmode⟩

/-- A pending effect is published with its receipt. -/
lemma Layout.publish {accepted : List Accepted} {effect : AcceptedSideEffect}
    {rest : List AcceptedSideEffect} {skipped : List SkippedSampleReport}
    {omitted taken : List AcceptedSideEffect} {outcome : PublishOutcome}
    {receipt : PublicationReceipt} (prepared : PreparedPublication)
    (h : Layout accepted (effect :: rest) skipped omitted taken)
    (hreceipt : checkReceipt effect outcome = .ok receipt) :
    Layout (accepted ++ [⟨effect, prepared, receipt⟩]) rest skipped omitted taken := by
  refine ⟨?_, ?_, h.reports, fun a ha => ?_, h.nodup⟩
  · simpa using h.partition
  · simpa using h.order
  · rcases List.mem_append.mp ha with ha | ha
    · exact h.receipts a ha
    · rw [List.mem_singleton.mp ha]
      exact checkReceipt_eq_ok hreceipt

/-- The log before the transaction does not matter for what became of the effect. -/
lemma Publishes.of_log {rest : List Staged} {effect : AcceptedSideEffect}
    {omitted taken : List AcceptedSideEffect} {t : Transaction} {log : List Event}
    {result : Except Failure (Option Accepted) × Transaction}
    (h : Publishes rest effect omitted taken { t with log := log } result)
    (hextends : Extends (fun _ => True) t.log log) :
    Publishes rest effect omitted taken t result := by
  refine ⟨hextends.trans h.extends_, h.published, h.skipped, fun failure hfailure htame => ?_⟩
  have hundone := h.failed failure hfailure htame
  exact ⟨hundone.clean, hundone.prepared, hundone.accepted, hundone.state, hundone.plan,
    hundone.initialCursors, hundone.reports, hundone.limits⟩

/-- The error of an answer that can be coped with is caught, and can be reported. -/
lemma checkReceipt_error {handle : ℕ} {effect : AcceptedSideEffect} {outcome : PublishOutcome}
    {error : Raised} (h : checkReceipt effect outcome = .error error)
    (htame : (Event.publish handle effect outcome).Tame) : tameError effect error := by
  unfold checkReceipt at h
  split at h
  · cases h
    exact htame
  · cases h
    exact ⟨rfl, fun _ => by decide⟩
  · split_ifs at h with hidentity hmode
    · cases h
      exact ⟨rfl, fun _ => by decide⟩
    · cases h
      exact ⟨rfl, fun _ => by decide⟩

/-- The effect has an object, and the others stand as well. -/
structure Waits (rest : List Staged) (effect : AcceptedSideEffect) (prepared : PreparedPublication)
    (attempts : ℕ) (omitted taken : List AcceptedSideEffect) (t : Transaction) : Prop where
  unstaged : t.prepared = []
  owns : Owns t.log (prepared.handle :: stagedHandles rest) (acceptedHandles t.accepted)
  counts : Counts t.log t.accepted (⟨effect, prepared, attempts⟩ :: rest) omitted taken
  layout : Layout t.accepted (effect :: rest.map Staged.effect) t.skipped omitted taken

/-- A publication that failed, and the rollback of its object. -/
theorem Waits.rollback {rest : List Staged} {effect : AcceptedSideEffect}
    {prepared : PreparedPublication} {attempts : ℕ} {omitted taken : List AcceptedSideEffect}
    {t : Transaction} {outcome : PublishOutcome} {error : Raised}
    (h : Waits rest effect prepared attempts omitted taken t)
    (hreceipt : checkReceipt effect outcome = .error error)
    (htame : Tame (cleanup publisher .rollback prepared
      (t.log ++ [.publish prepared.handle effect outcome])).2) :
    Settles rest effect attempts omitted taken { t with
      log := (cleanup publisher .rollback prepared
        (t.log ++ [.publish prepared.handle effect outcome])).2 } := by
  have hquiet : Extends (fun event => event = .publish prepared.handle effect outcome) t.log
      (t.log ++ [.publish prepared.handle effect outcome]) := Extends.one rfl
  have hcounts : Counts (t.log ++ [.publish prepared.handle effect outcome]) t.accepted
      (⟨effect, prepared, attempts⟩ :: rest) omitted taken := by
    refine h.counts.quiet hquiet ?_
    rintro event e rfl
    refine ⟨rfl, ?_⟩
    simp [Event.publishes, hreceipt, Except.isOk, Except.toBool]
  have howns : Owns (t.log ++ [.publish prepared.handle effect outcome])
      (prepared.handle :: stagedHandles rest) (acceptedHandles t.accepted) := by
    refine h.owns.quiet fun handle s => ?_
    simp [standingStep, hreceipt, Except.isOk, Except.toBool]
  refine ⟨h.unstaged, cleanup_temporary publisher htame howns, ⟨prepared, ?_⟩, h.layout⟩
  exact hcounts.quiet (cleanup_spec publisher .rollback prepared _).1 fun event e he => he.quiet e

/-- A new object for the effect. -/
theorem Settles.retry {rest : List Staged} {effect : AcceptedSideEffect}
    {prepared : PreparedPublication} {attempts attempts' : ℕ}
    {omitted taken : List AcceptedSideEffect} {t : Transaction} {log : List Event}
    (h : Settles rest effect attempts omitted taken t)
    (hextends : Extends (Event.Concerns effect) t.log log)
    (hpublications : publications log effect = publications t.log effect)
    (hpreparations : preparations log effect + attempts = preparations t.log effect + attempts')
    (hle : attempts' ≤ attemptLimit effect)
    (howns : Owns log (stagedHandles rest ++ [prepared.handle]) (acceptedHandles t.accepted))
    (hlt : attempts < attempts') :
    Waits rest effect prepared attempts' omitted taken { t with log := log } := by
  obtain ⟨_, hcounts⟩ := h.counts
  have hbefore := (hcounts.attempts _ List.mem_cons_self).1
  dsimp only at hbefore
  have hafter : preparations log effect = attempts' := by omega
  refine ⟨h.unstaged, howns.perm (List.perm_append_singleton _ _) (List.Perm.refl _), ?_, h.layout⟩
  exact hcounts.concern h.layout hextends hpublications hafter (by omega) hle

/-- Failed attempts leave the effect without an object. -/
lemma Settles.exhausted {rest : List Staged} {effect : AcceptedSideEffect}
    {attempts attempts' : ℕ} {omitted taken : List AcceptedSideEffect} {t : Transaction}
    {log : List Event} (h : Settles rest effect attempts omitted taken t)
    (hextends : Extends (Event.Concerns effect) t.log log)
    (hpublications : publications log effect = publications t.log effect)
    (hpreparations : preparations log effect + attempts = preparations t.log effect + attempts')
    (hle : attempts' ≤ attemptLimit effect)
    (howns : Owns log (stagedHandles rest) (acceptedHandles t.accepted))
    (hlt : attempts ≤ attempts') :
    Settles rest effect attempts' omitted taken { t with log := log } := by
  obtain ⟨prepared, hcounts⟩ := h.counts
  obtain ⟨hbefore, hpos⟩ := hcounts.attempts _ List.mem_cons_self
  dsimp only at hbefore hpos
  have hafter : preparations log effect = attempts' := by omega
  exact ⟨h.unstaged, howns, ⟨prepared,
    hcounts.concern h.layout hextends hpublications hafter (by omega) hle⟩, h.layout⟩

/-- **One effect in the loop of `accept`.**

**Proof sketch.** By strong induction on the attempts that are left.  A publication that fails is
rolled back; then the effect is tried once more with a new object, or its failure is settled. -/
theorem publishEffect_spec {rest : List Staged} {effect : AcceptedSideEffect}
    {omitted taken : List AcceptedSideEffect} (remaining : ℕ) :
    ∀ (prepared : PreparedPublication) (attempts : ℕ) (t : Transaction),
      (Tame t.log → Waits rest effect prepared attempts omitted taken t) →
      attemptLimit effect ≤ attempts + remaining →
      Publishes rest effect omitted taken t
        (publishEffect publisher rest effect remaining prepared attempts t) := by
  induction remaining using Nat.strong_induction_on with
  | _ remaining ih =>
    intro prepared attempts t hwaits hlimit
    unfold publishEffect
    dsimp only
    generalize publisher.publish t.log prepared.handle = outcome
    have hone : Extends (fun _ => True) t.log
        (t.log ++ [.publish prepared.handle effect outcome]) := Extends.one trivial
    cases hreceipt : checkReceipt effect outcome with
    | ok receipt =>
      dsimp only
      refine ⟨hone, fun a ha htame => ?_, ?_, ?_⟩
      · obtain rfl := Option.some.inj (Except.ok.inj ha)
        have hw := hwaits (hone.tame htame)
        refine ⟨rfl, rfl, ?_, hw.counts.publish hw.layout hreceipt,
          hw.layout.publish prepared hreceipt⟩
        have hpublished := hw.owns.publish hreceipt
        simpa [acceptedHandles] using hpublished
      · intro ha
        cases ha
      · intro failure hfailure
        cases hfailure
    | error error =>
      dsimp only
      split_ifs with hexception
      · -- an exception that `accept` does not catch
        refine publishes_passed hone fun htame => ?_
        have := (checkReceipt_error hreceipt htame.append.2).1
        rw [hexception] at this
        cases this
      obtain ⟨hcleanup, hok⟩ := cleanup_spec publisher .rollback prepared
        (t.log ++ [.publish prepared.handle effect outcome])
      have hrollback := fun htame htame' =>
        (hwaits htame).rollback publisher hreceipt htame'
      rcases hcase : cleanup publisher .rollback prepared
        (t.log ++ [.publish prepared.handle effect outcome]) with ⟨result, log⟩
      rw [hcase] at hcleanup hok hrollback ⊢
      dsimp only at hcleanup hok hrollback
      have hlog : Extends (fun _ => True) t.log log := hone.trans (hcleanup.mono fun _ _ => trivial)
      have hsettles : Tame log → Settles rest effect attempts omitted taken { t with log := log } :=
        fun htame => hrollback (hlog.tame htame) htame
      have hreason : Tame log → effect.failureAction = .skipSampleReported →
          canonicalText (reason (some error)) = true :=
        fun htame => (checkReceipt_error hreceipt (hcleanup.tame htame).append.2).2
      cases result with
      | error error' =>
        refine publishes_passed hlog fun htame => ?_
        obtain ⟨⟨_, hfalse⟩, -⟩ := hok htame
        cases hfalse
      | ok failure =>
        dsimp only
        split_ifs with hretry
        · obtain ⟨-, hretries, hattempts⟩ := hretry
          have hprepares := prepareOne_spec publisher effect (attemptLimit effect - attempts)
            attempts none log
          rcases hcase' : prepareOne publisher effect (attemptLimit effect - attempts) attempts none
            log with ⟨result', log'⟩
          rw [hcase'] at hprepares
          have hlog' : Extends (fun _ => True) t.log log' :=
            hlog.trans (hprepares.extends_.mono fun _ _ => trivial)
          cases result' with
          | error error' =>
            refine publishes_passed hlog' fun htame => ?_
            obtain ⟨_, _, _, hfalse, -⟩ := hprepares.returns htame
            cases hfalse
          | ok triple =>
            obtain ⟨replacement, attempts', error'⟩ := triple
            have hreturns := hprepares.returns
            cases replacement with
            | some replacement =>
              have hlt := hprepares.increases _ _ _ rfl
              dsimp only at hreturns ⊢
              have hwaits' : Tame log' →
                  Waits rest effect replacement attempts' omitted taken { t with log := log' } := by
                intro htame
                obtain ⟨_, _, _, heq, hle, hcount, hsome, -⟩ := hreturns htame
                cases heq
                have howns := hsome replacement rfl
                have hs := hsettles (hprepares.extends_.tame htame)
                exact hs.retry hprepares.extends_ hprepares.publications hcount (by omega)
                  (howns _ _ hs.owns) hlt
              cases remaining with
              | zero => omega
              | succ remaining =>
                exact (ih remaining (by omega) replacement attempts' { t with log := log' } hwaits'
                  (by omega)).of_log hlog'
            | none =>
              dsimp only at hreturns ⊢
              refine (settleFailure_spec publisher (fun htame => ?_) fun htame hskip => ?_).of_log
                hlog'
              · obtain ⟨_, _, _, heq, hle, hcount, -, hnone⟩ := hreturns htame
                cases heq
                obtain ⟨hattempts', -, howns⟩ := hnone rfl
                have hs := hsettles (hprepares.extends_.tame htame)
                exact hs.exhausted hprepares.extends_ hprepares.publications hcount (by omega)
                  (howns _ _ hs.owns) (by omega)
              · rw [retries, hskip] at hretries
                cases hretries
        · exact (settleFailure_spec publisher hsettles hreason).of_log hlog

end PublishEffect

end Pops.Consumers
