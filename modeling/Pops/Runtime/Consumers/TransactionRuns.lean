import Pops.Runtime.Consumers.Publication

/-!
# Runs of the consumer transaction

As long as the publisher raises only subclasses of `Exception`, with texts that a report of a
skipped sample accepts, and returns only objects of the effect it was asked for, every failure
leaves nothing behind.

## Main definitions

* `Pops.Consumers.Preparing`, `Accepting` — the two phases of a transaction.
* `Pops.Consumers.Lawful` — the law of one call.

## Main results

* `Pops.Consumers.prepareAll_spec`, `acceptLoop_spec` — the two phases.
* `Pops.Consumers.Lawful.nothing_left` — nothing is left where the clean-up calls return.
* `Pops.Consumers.publication_all_or_nothing` — the law over whole runs.
-/

namespace Pops.Consumers

/-! ## The two phases -/

/-- The omitted effects: those of the construction and then those of the acceptance, each in the
order of the plan. -/
def OmittedInOrder (pending omitted taken : List AcceptedSideEffect) : Prop :=
  ∃ early late, omitted = early ++ late ∧ early.Sublist taken ∧ (late ++ pending).Sublist taken

/-- The loop of `accept` is under way: the cursors and the receipts are those of the published
effects. -/
structure Accepting (pending : List Staged) (omitted taken : List AcceptedSideEffect)
    (cursors : ConsumerCursorSet) (published : List PublicationReceipt) (t : Transaction) :
    Prop where
  unstaged : t.prepared = []
  owns : Owns t.log (stagedHandles pending) (acceptedHandles t.accepted)
  counts : Counts t.log t.accepted pending omitted taken
  layout : Layout t.accepted (pending.map Staged.effect) t.skipped omitted taken
  cursors : cursors = t.accepted.foldl (fun c a => c.replace a.effect.cursorAfter) t.initialCursors
  published : published = t.accepted.map Accepted.receipt
  omissions : OmittedInOrder (pending.map Staged.effect) omitted taken

/-- The effects are being prepared. -/
structure Preparing (omitted taken : List AcceptedSideEffect) (t : Transaction) : Prop where
  accepted : t.accepted = []
  owns : Owns t.log (stagedHandles t.prepared) []
  counts : Counts t.log [] t.prepared omitted taken
  layout : Layout [] (t.prepared.map Staged.effect) t.skipped omitted taken
  omissions : omitted.Sublist taken

section Phases

variable (publisher : Publisher)

/-- What is undone depends on the plan and the initial cursors only. -/
lemma Undone.of_eq {t t' after : Transaction} {failure : Failure} (h : Undone t' after failure)
    (hplan : t'.plan = t.plan) (hinitial : t'.initialCursors = t.initialCursors) :
    Undone t after failure :=
  ⟨h.clean, h.prepared, h.accepted, h.state, h.plan.trans hplan, h.initialCursors.trans hinitial,
    hinitial ▸ h.reports, h.limits⟩

/-- Skipping the next effect keeps the order. -/
lemma OmittedInOrder.omit_ {effect : AcceptedSideEffect}
    {rest omitted taken : List AcceptedSideEffect}
    (h : OmittedInOrder (effect :: rest) omitted taken) :
    OmittedInOrder rest (omitted ++ [effect]) taken := by
  obtain ⟨early, late, rfl, hearly, hlate⟩ := h
  refine ⟨early, late ++ [effect], List.append_assoc _ _ _, hearly, ?_⟩
  rw [List.append_assoc]
  exact hlate

/-- Publishing the next effect keeps the order. -/
lemma OmittedInOrder.publish {effect : AcceptedSideEffect}
    {rest omitted taken : List AcceptedSideEffect}
    (h : OmittedInOrder (effect :: rest) omitted taken) : OmittedInOrder rest omitted taken := by
  obtain ⟨early, late, rfl, hearly, hlate⟩ := h
  exact ⟨early, late, rfl, hearly,
    (List.Sublist.append_left (List.sublist_cons_self effect rest) late).trans hlate⟩

/-- The loop of `accept`: every pending effect is published or skipped, or everything is undone. -/
theorem acceptLoop_spec {taken : List AcceptedSideEffect} (pending : List Staged) :
    ∀ (cursors : ConsumerCursorSet) (published : List PublicationReceipt)
      (omitted : List AcceptedSideEffect) (t : Transaction),
      (Tame t.log → Accepting pending omitted taken cursors published t) →
      Extends (fun _ => True) t.log (acceptLoop publisher pending cursors published t).2.log ∧
      (∀ cs ps, (acceptLoop publisher pending cursors published t).1 = .ok (cs, ps) →
        Tame (acceptLoop publisher pending cursors published t).2.log →
        (∃ omitted', Accepting [] omitted' taken cs ps
          (acceptLoop publisher pending cursors published t).2) ∧
        (acceptLoop publisher pending cursors published t).2.plan = t.plan ∧
        (acceptLoop publisher pending cursors published t).2.initialCursors = t.initialCursors) ∧
      (∀ failure, (acceptLoop publisher pending cursors published t).1 = .error failure →
        Tame (acceptLoop publisher pending cursors published t).2.log →
        Undone t (acceptLoop publisher pending cursors published t).2 failure) := by
  induction pending with
  | nil =>
    intro cursors published omitted t h
    refine ⟨Extends.refl _ _, fun cs ps hresult htame => ?_, fun failure hfailure => ?_⟩
    · cases hresult
      exact ⟨⟨omitted, h htame⟩, rfl, rfl⟩
    · cases hfailure
  | cons staged rest ih =>
    intro cursors published omitted t h
    have hpublishes : Publishes rest staged.effect omitted taken t
        (publishEffect publisher rest staged.effect (attemptLimit staged.effect - staged.attempts)
          staged.prepared staged.attempts t) :=
      publishEffect_spec publisher _ _ _ t
        (fun htame => ⟨(h htame).unstaged, (h htame).owns, (h htame).counts, (h htame).layout⟩)
        (by omega)
    unfold acceptLoop
    rcases hcase : publishEffect publisher rest staged.effect
      (attemptLimit staged.effect - staged.attempts) staged.prepared staged.attempts t with
      ⟨result, t'⟩
    rw [hcase] at hpublishes
    have hfirst : Extends (fun _ => True) t.log t'.log := hpublishes.extends_
    cases result with
    | error failure =>
      refine ⟨hfirst, fun cs ps hresult => ?_, fun failure' hfailure htame => ?_⟩
      · cases hresult
      · cases hfailure
        exact hpublishes.failed failure rfl htame
    | ok outcome =>
      cases outcome with
      | none =>
        have hskipped : Tame t'.log → t'.plan = t.plan ∧ t'.initialCursors = t.initialCursors ∧
            Accepting rest (omitted ++ [staged.effect]) taken cursors published t' := by
          intro htame
          have hbefore := h (hfirst.tame htame)
          obtain ⟨report, ht', howns, hcounts, hlayout⟩ := hpublishes.skipped rfl htame
          dsimp only at ht' howns hcounts
          rw [ht']
          exact ⟨rfl, rfl, hbefore.unstaged, howns, hcounts, hlayout, hbefore.cursors,
            hbefore.published, hbefore.omissions.omit_⟩
        obtain ⟨hrest, hok, hfailed⟩ := ih cursors published (omitted ++ [staged.effect]) t'
          fun htame => (hskipped htame).2.2
        refine ⟨hfirst.trans hrest, fun cs ps hresult htame => ?_, fun failure hfailure htame => ?_⟩
        · obtain ⟨haccepting, hplan, hinitial⟩ := hok cs ps hresult htame
          obtain ⟨hplan', hinitial', -⟩ := hskipped (hrest.tame htame)
          exact ⟨haccepting, hplan.trans hplan', hinitial.trans hinitial'⟩
        · obtain ⟨hplan', hinitial', -⟩ := hskipped (hrest.tame htame)
          exact (hfailed failure hfailure htame).of_eq hplan' hinitial'
      | some accepted =>
        have haccepted : Tame t'.log → t'.plan = t.plan ∧ t'.initialCursors = t.initialCursors ∧
            Accepting rest omitted taken (cursors.replace staged.effect.cursorAfter)
              (published ++ [accepted.receipt])
              { t' with accepted := t'.accepted ++ [accepted] } := by
          intro htame
          have hbefore := h (hfirst.tame htame)
          obtain ⟨heffect, ht', howns, hcounts, hlayout⟩ := hpublishes.published accepted rfl htame
          dsimp only at ht' howns hcounts
          rw [ht']
          refine ⟨rfl, rfl, hbefore.unstaged, howns, hcounts, hlayout, ?_, ?_,
            hbefore.omissions.publish⟩
          · dsimp only
            rw [List.foldl_append, ← hbefore.cursors, List.foldl_cons, List.foldl_nil, heffect]
          · dsimp only
            rw [List.map_append, ← hbefore.published]
            rfl
        obtain ⟨hrest, hok, hfailed⟩ := ih (cursors.replace staged.effect.cursorAfter)
          (published ++ [accepted.receipt]) omitted
          { t' with accepted := t'.accepted ++ [accepted] } fun htame => (haccepted htame).2.2
        refine ⟨hfirst.trans hrest, fun cs ps hresult htame => ?_, fun failure hfailure htame => ?_⟩
        · obtain ⟨haccepting, hplan, hinitial⟩ := hok cs ps hresult htame
          obtain ⟨hplan', hinitial', -⟩ := haccepted (hrest.tame htame)
          exact ⟨haccepting, hplan.trans hplan', hinitial.trans hinitial'⟩
        · obtain ⟨hplan', hinitial', -⟩ := haccepted (hrest.tame htame)
          exact (hfailed failure hfailure htame).of_eq hplan' hinitial'

/-- Effects that have been taken up are not the next one. -/
lemma Layout.mem_taken {accepted : List Accepted} {pending : List AcceptedSideEffect}
    {skipped : List SkippedSampleReport} {omitted taken : List AcceptedSideEffect}
    (h : Layout accepted pending skipped omitted taken) :
    (∀ e ∈ pending, e ∈ taken) ∧ ∀ e ∈ omitted, e ∈ taken := by
  refine ⟨fun e he => ?_, fun e he => ?_⟩
  · exact h.partition.mem_iff.mp (List.mem_append_left _ (List.mem_append_right _ he))
  · exact h.partition.mem_iff.mp (List.mem_append_right _ he)

/-- The next effect is taken up; the counts of the others stay. -/
lemma Counts.take {log log' : List Event} {pending : List Staged}
    {skipped : List SkippedSampleReport} {omitted taken : List AcceptedSideEffect}
    {effect : AcceptedSideEffect} (h : Counts log [] pending omitted taken)
    (hlayout : Layout [] (pending.map Staged.effect) skipped omitted taken)
    (hnew : effect ∉ taken) (hextends : Extends (Event.Concerns effect) log log')
    (hle : preparations log' effect ≤ attemptLimit effect) :
    Counts log' [] pending omitted (taken ++ [effect]) := by
  obtain ⟨hpending, homitted⟩ := hlayout.mem_taken
  have hcounts : ∀ e, e ≠ effect → preparations log' e = preparations log e ∧
      publications log' e = publications log e := fun e he => hextends.counts fun _ hc => hc e he
  have hne : ∀ e ∈ taken, e ≠ effect := fun e he heq => hnew (heq ▸ he)
  have hstaged : ∀ s ∈ pending, s.effect ≠ effect :=
    fun s hs => hne _ (hpending _ (List.mem_map_of_mem hs))
  refine ⟨fun s hs => ?_, fun s hs => ?_, fun a ha => ?_, fun e he => ?_, fun e => ?_,
    fun e he => ?_⟩
  · rw [(hcounts _ (hstaged s hs)).1]
    exact h.attempts s hs
  · rw [(hcounts _ (hstaged s hs)).2]
    exact h.pending s hs
  · cases ha
  · rw [(hcounts _ (hne e (homitted e he))).2]
    exact h.omitted e he
  · by_cases heq : e = effect
    · rw [heq]
      exact hle
    · rw [(hcounts e heq).1]
      exact h.limits e
  · rw [List.mem_append, List.mem_singleton, not_or] at he
    rw [(hcounts e he.2).1, (hcounts e he.2).2]
    exact h.untouched e he.1

/-- The next effect is staged. -/
theorem Preparing.stage {omitted taken : List AcceptedSideEffect} {t : Transaction}
    {effect : AcceptedSideEffect} {prepared : PreparedPublication} {attempts : ℕ} {log : List Event}
    (h : Preparing omitted taken t) (hnodup : (taken ++ [effect]).Nodup)
    (hextends : Extends (Event.Concerns effect) t.log log)
    (hpublications : publications log effect = publications t.log effect)
    (hpreparations : preparations log effect = attempts) (hpos : 1 ≤ attempts)
    (hle : attempts ≤ attemptLimit effect)
    (howns : Owns log (stagedHandles t.prepared ++ [prepared.handle]) []) :
    Preparing omitted (taken ++ [effect])
      { t with log := log, prepared := t.prepared ++ [⟨effect, prepared, attempts⟩] } := by
  have hnew : effect ∉ taken := by
    rw [List.nodup_append] at hnodup
    exact fun hmem => hnodup.2.2 effect hmem effect List.mem_cons_self rfl
  have hcounts := h.counts.take h.layout hnew hextends (hpreparations ▸ hle)
  have hzero := (h.counts.untouched effect hnew).2
  refine ⟨h.accepted, ?_, ⟨fun s hs => ?_, fun s hs => ?_, hcounts.accepted, hcounts.omitted,
    hcounts.limits, hcounts.untouched⟩, ⟨?_, ?_, h.layout.reports, h.layout.receipts, hnodup⟩,
    h.omissions.trans (List.sublist_append_left _ _)⟩
  · simpa [stagedHandles] using howns
  · rcases List.mem_append.mp hs with hs | hs
    · exact hcounts.attempts s hs
    · rw [List.mem_singleton.mp hs]
      exact ⟨hpreparations, hpos⟩
  · rcases List.mem_append.mp hs with hs | hs
    · exact hcounts.pending s hs
    · rw [List.mem_singleton.mp hs]
      exact hpublications.trans hzero
  · have hpartition := h.layout.partition.append_right [effect]
    refine List.Perm.trans ?_ hpartition
    simp only [List.map_nil, List.nil_append, List.map_append, List.map_cons, List.append_assoc]
    exact List.Perm.append_left _ (List.perm_append_comm)
  · have horder := h.layout.order.append (List.Sublist.refl [effect])
    simpa using horder

/-- The next effect is omitted and reported. -/
lemma Preparing.omit_ {omitted taken : List AcceptedSideEffect} {t : Transaction}
    {effect : AcceptedSideEffect} {report : SkippedSampleReport} {log : List Event}
    (h : Preparing omitted taken t) (hnodup : (taken ++ [effect]).Nodup)
    (hextends : Extends (Event.Concerns effect) t.log log)
    (hpublications : publications log effect = publications t.log effect)
    (hle : preparations log effect ≤ attemptLimit effect)
    (howns : Owns log (stagedHandles t.prepared) [])
    (hreport : report.effectIdentity = effect.identity) :
    Preparing (omitted ++ [effect]) (taken ++ [effect])
      { t with log := log, skipped := t.skipped ++ [report] } := by
  have hnew : effect ∉ taken := by
    rw [List.nodup_append] at hnodup
    exact fun hmem => hnodup.2.2 effect hmem effect List.mem_cons_self rfl
  have hcounts := h.counts.take h.layout hnew hextends hle
  have hzero := (h.counts.untouched effect hnew).2
  refine ⟨h.accepted, howns, ⟨hcounts.attempts, hcounts.pending, hcounts.accepted, fun e he => ?_,
    hcounts.limits, hcounts.untouched⟩, ⟨?_, ?_, ?_, h.layout.receipts, hnodup⟩,
    h.omissions.append (List.Sublist.refl _)⟩
  · rcases List.mem_append.mp he with he | he
    · exact hcounts.omitted e he
    · rw [List.mem_singleton.mp he]
      exact hpublications.trans hzero
  · have hpartition := h.layout.partition.append_right [effect]
    rwa [List.append_assoc] at hpartition
  · exact h.layout.order.trans (List.sublist_append_left _ _)
  · rw [List.map_append, List.map_append, h.layout.reports]
    simp [hreport]

end Phases

section Create

variable (publisher : Publisher)

/-- What the attempts to prepare a new effect lead to, when the log is tame: there is a new
temporary, or all attempts have failed. -/
structure Attempted (effect : AcceptedSideEffect) (t : Transaction)
    (prepared : Option PreparedPublication) (attempts : ℕ) (error : Option Raised)
    (log : List Event) : Prop where
  attempts_le : attempts ≤ attemptLimit effect
  counted : preparations log effect = attempts
  staged : ∀ p, prepared = some p → Owns log (stagedHandles t.prepared ++ [p.handle]) []
  refused : prepared = none → attempts = attemptLimit effect ∧
    (effect.failureAction = .skipSampleReported → canonicalText (reason error) = true) ∧
    Owns log (stagedHandles t.prepared) []

/-- An effect that was not taken before is attempted. -/
lemma Preparing.attempted {omitted taken : List AcceptedSideEffect} {t : Transaction}
    {effect : AcceptedSideEffect} {prepared : Option PreparedPublication} {attempts : ℕ}
    {error : Option Raised} {log : List Event} (h : Preparing omitted taken t)
    (hnew : effect ∉ taken)
    (hprepares : Prepares effect (attemptLimit effect) 0 none t.log
      (.ok (prepared, attempts, error), log)) (htame : Tame log) :
    Attempted effect t prepared attempts error log := by
  obtain ⟨_, _, _, heq, hle, hcount, hsome, hnone⟩ := hprepares.returns htame
  cases heq
  have hzero := (h.counts.untouched effect hnew).1
  dsimp only at hcount
  refine ⟨by omega, by omega, fun p hp => hsome p hp _ _ h.owns, fun hp => ?_⟩
  obtain ⟨hall, hreason, hkept⟩ := hnone hp
  refine ⟨by omega, fun hskip => hreason hskip fun hlimit => ?_, hkept _ _ h.owns⟩
  rw [attemptLimit, hskip] at hlimit
  cases hlimit

/-- An effect that may not be skipped undoes the construction. -/
lemma Preparing.fail {omitted taken : List AcceptedSideEffect} {t : Transaction}
    {effect : AcceptedSideEffect} {attempts : ℕ} {error : Option Raised} {log : List Event}
    (h : Preparing omitted taken t) (hnew : effect ∉ taken)
    (hextends : Extends (Event.Concerns effect) t.log log)
    (hattempted : Attempted effect t none attempts error log)
    (htame : Tame (raiseFailed publisher effect error [] [] { t with log := log }).2.log) :
    Undone t (raiseFailed publisher effect error [] [] { t with log := log }).2
      (raiseFailed publisher effect error [] [] { t with log := log }).1 := by
  obtain ⟨log', prepared', state, ht', hresolves, hreports, hspec⟩ :=
    raiseFailed_spec publisher effect error [] [] { t with log := log }
  rw [ht'] at htame ⊢
  obtain ⟨hprepared, hstate, howns⟩ := hspec htame
  refine ⟨howns [] (hattempted.refused rfl).2.2, hprepared, h.accepted, hstate, rfl, rfl, hreports,
    fun e => ?_⟩
  rw [(hresolves.counts fun event hevent => hevent.quiet e).1]
  exact (h.counts.take h.layout hnew hextends
    (hattempted.counted ▸ hattempted.attempts_le)).limits e

/-- The loop of the constructor: every effect is staged or omitted, or everything is undone. -/
theorem prepareAll_spec (effects : List AcceptedSideEffect) :
    ∀ (t : Transaction) (omitted taken : List AcceptedSideEffect), (taken ++ effects).Nodup →
      (Tame t.log → Preparing omitted taken t) →
      Extends (fun _ => True) t.log (prepareAll publisher effects t).2.log ∧
      (∀ u, (prepareAll publisher effects t).1 = .ok u →
        Tame (prepareAll publisher effects t).2.log →
        (∃ omitted', Preparing omitted' (taken ++ effects) (prepareAll publisher effects t).2) ∧
        (prepareAll publisher effects t).2.plan = t.plan ∧
        (prepareAll publisher effects t).2.initialCursors = t.initialCursors) ∧
      (∀ failure, (prepareAll publisher effects t).1 = .error failure →
        Tame (prepareAll publisher effects t).2.log →
        Undone t (prepareAll publisher effects t).2 failure) := by
  induction effects with
  | nil =>
    intro t omitted taken hnodup h
    refine ⟨Extends.refl _ _, fun u _ htame => ⟨⟨omitted, ?_⟩, rfl, rfl⟩,
      fun failure hfailure => ?_⟩
    · rw [List.append_nil]
      exact h htame
    · cases hfailure
  | cons effect rest ih =>
    intro t omitted taken hnodup h
    have hassoc : taken ++ effect :: rest = taken ++ [effect] ++ rest := by simp
    rw [hassoc] at hnodup ⊢
    have htaken : (taken ++ [effect]).Nodup := (List.nodup_append.mp hnodup).1
    have hnew : effect ∉ taken := by
      rw [List.nodup_append] at htaken
      exact fun hmem => htaken.2.2 effect hmem effect List.mem_cons_self rfl
    have hprepares := prepareOne_spec publisher effect (attemptLimit effect) 0 none t.log
    unfold prepareAll
    rcases hcase : prepareOne publisher effect (attemptLimit effect) 0 none t.log with ⟨result, log⟩
    rw [hcase] at hprepares
    have hfirst : Extends (fun _ => True) t.log log :=
      hprepares.extends_.mono fun _ _ => trivial
    cases result with
    | error error =>
      refine ⟨hfirst, fun u hu => ?_, fun failure hfailure htame => ?_⟩
      · cases hu
      · obtain ⟨_, _, _, hfalse, -⟩ := hprepares.returns htame
        cases hfalse
    | ok triple =>
      obtain ⟨prepared, attempts, error⟩ := triple
      have hattempted : Tame log → Attempted effect t prepared attempts error log :=
        fun htame => (h (hfirst.tame htame)).attempted hnew hprepares htame
      cases prepared with
      | some prepared =>
        have hlt := hprepares.increases _ _ _ rfl
        obtain ⟨hrest, hok, hfailed⟩ := ih
          { t with log := log, prepared := t.prepared ++ [⟨effect, prepared, attempts⟩] } omitted
          (taken ++ [effect]) hnodup fun htame => by
            obtain ⟨hle, hcount, hsome, -⟩ := hattempted htame
            exact (h (hfirst.tame htame)).stage htaken hprepares.extends_ hprepares.publications
              hcount hlt hle (hsome prepared rfl)
        exact ⟨hfirst.trans hrest, hok, fun failure hfailure htame =>
          (hfailed failure hfailure htame).of_eq rfl rfl⟩
      | none =>
        dsimp only
        by_cases hskip : effect.failureAction = .skipSampleReported
        · rw [if_pos hskip, skippedSampleReport]
          by_cases hattempts : attempts < 1
          · rw [if_pos hattempts]
            refine ⟨hfirst, fun u hu => ?_, fun failure hfailure htame => ?_⟩
            · cases hu
            · have hall := ((hattempted htame).refused rfl).1
              rw [attemptLimit, hskip] at hall
              exact absurd hattempts (by simp [hall])
          rw [if_neg hattempts]
          by_cases hcanonical : canonicalText (reason error) = false
          · rw [if_pos hcanonical]
            refine ⟨hfirst, fun u hu => ?_, fun failure hfailure htame => ?_⟩
            · cases hu
            · have htext := ((hattempted htame).refused rfl).2.1 hskip
              rw [hcanonical] at htext
              cases htext
          · rw [if_neg hcanonical]
            obtain ⟨hrest, hok, hfailed⟩ := ih
              { t with
                log := log
                skipped := t.skipped ++
                  [⟨effect.identity, effect.consumerId, "prepare", attempts, reason error⟩] }
              (omitted ++ [effect]) (taken ++ [effect]) hnodup fun htame => by
                obtain ⟨hle, hcount, -, hnone⟩ := hattempted htame
                exact (h (hfirst.tame htame)).omit_ htaken hprepares.extends_
                  hprepares.publications (hcount ▸ hle) (hnone rfl).2.2 rfl
            exact ⟨hfirst.trans hrest, hok, fun failure hfailure htame =>
              (hfailed failure hfailure htame).of_eq rfl rfl⟩
        · rw [if_neg hskip]
          dsimp only
          obtain ⟨log', prepared', state, ht', hextends, -⟩ :=
            raiseFailed_spec publisher effect error [] [] { t with log := log }
          have hresolved : Extends (fun _ => True) log
              (raiseFailed publisher effect error [] [] { t with log := log }).2.log := by
            rw [ht']
            exact hextends.mono fun _ _ => trivial
          refine ⟨hfirst.trans hresolved, fun u hu => ?_, fun failure hfailure htame => ?_⟩
          · cases hu
          · cases hfailure
            have htame' : Tame log := hresolved.tame htame
            exact (h (hfirst.tame htame')).fail publisher hnew hprepares.extends_
              (hattempted htame') htame

/-- The constructor: the transaction is staged, or it is undone. -/
theorem create_spec (plan : EffectPlan) (cursors : ConsumerCursorSet)
    (htame : Tame (create publisher plan cursors).2.log) :
    (∀ u, (create publisher plan cursors).1 = .ok u →
      (create publisher plan cursors).2.plan = plan ∧
      (create publisher plan cursors).2.initialCursors = cursors ∧
      (create publisher plan cursors).2.state = .staged ∧
      ∃ omitted, Preparing omitted plan.effects (create publisher plan cursors).2) ∧
    (∀ failure, (create publisher plan cursors).1 = .error failure →
      Owns (create publisher plan cursors).2.log [] [] ∧ failure.Reports cursors ∧
      ∀ e, preparations (create publisher plan cursors).2.log e ≤ attemptLimit e) := by
  have hnodup : ([] ++ plan.effects).Nodup := plan.distinct.of_map _
  have hstart : Preparing [] [] ⟨plan, cursors, [], [], [], [], [], .preparing, []⟩ := by
    refine ⟨rfl, Owns.nil, ⟨?_, ?_, ?_, ?_, fun e => Nat.zero_le _, fun e _ => ⟨rfl, rfl⟩⟩,
      ⟨List.Perm.refl _, List.Sublist.refl _, rfl, ?_, List.nodup_nil⟩, List.Sublist.refl _⟩
    all_goals
      intro x hx
      cases hx
  obtain ⟨-, hok, hfailed⟩ := prepareAll_spec publisher plan.effects
    ⟨plan, cursors, [], [], [], [], [], .preparing, []⟩ [] [] hnodup fun _ => hstart
  unfold create at htame ⊢
  dsimp only at htame ⊢
  generalize plan.effects.find? _ = stale at htame ⊢
  cases stale with
  | some effect =>
    refine ⟨fun u hu => ?_, fun failure hfailure => ?_⟩
    · cases hu
    · cases hfailure
      exact ⟨Owns.nil, trivial, fun e => Nat.zero_le _⟩
  | none =>
    dsimp only at htame ⊢
    rcases hcase : prepareAll publisher plan.effects
      ⟨plan, cursors, [], [], [], [], [], .preparing, []⟩ with ⟨result, t⟩
    rw [hcase] at htame hok hfailed
    cases result with
    | error failure =>
      refine ⟨fun u hu => ?_, fun failure' hfailure => ?_⟩
      · cases hu
      · cases hfailure
        have hundone := hfailed failure rfl htame
        exact ⟨hundone.clean, hundone.reports, hundone.limits⟩
    | ok u =>
      refine ⟨fun u' _ => ?_, fun failure' hfailure => ?_⟩
      · obtain ⟨⟨omitted, hpreparing⟩, hplan, hinitial⟩ := hok u rfl htame
        exact ⟨hplan, hinitial, rfl, omitted, hpreparing.accepted, hpreparing.owns,
          hpreparing.counts, hpreparing.layout, hpreparing.omissions⟩
      · cases hfailure

end Create

/-! ## Whole runs -/

/-- The law of one call on a transaction of a plan. -/
structure Lawful (plan : EffectPlan) (cursors : ConsumerCursorSet) (e : Entry) : Prop where
  /-- If `accept` returns, every effect of the plan is published once or reported as skipped; the
  published ones are in the order of the plan, and the skipped ones within each phase: those of the
  construction come first, then those of the acceptance.  Only the cursors of the published ones
  advance, only their objects are left, and these are visible. -/
  accepted : e.op = .accept → ∀ report, e.result = .ok (some report) →
    ∃ published omitted : List AcceptedSideEffect, (published ++ omitted).Perm plan.effects ∧
      published.Sublist plan.effects ∧ OmittedInOrder [] omitted plan.effects ∧
      report.published.map PublicationReceipt.effectIdentity =
        published.map AcceptedSideEffect.identity ∧
      report.skipped.map SkippedSampleReport.effectIdentity =
        omitted.map AcceptedSideEffect.identity ∧
      (∀ effect ∈ published, publications e.after.log effect = 1) ∧
      (∀ effect ∈ omitted, publications e.after.log effect = 0) ∧
      report.cursors = published.foldl (fun c effect => c.replace effect.cursorAfter) cursors ∧
      e.after.accepted.map Accepted.effect = published ∧
      Owns e.after.log [] (acceptedHandles e.after.accepted)
  /-- If `accept` raises on a staged transaction, or a transaction that is not sealed is aborted,
  nothing is left behind: every publication has been rolled back and every other object discarded,
  where a call that raises counts (`Lawful.nothing_left` is about calls that return). -/
  undone : (e.op = .abort ∧ e.before.state ≠ .isSealed ∨
    e.op = .accept ∧ e.before.state = .staged ∧ ∃ failure, e.result = .error failure) →
    Clean e.after.log
  /-- Every report but that of an acceptance has the first cursors. -/
  cursors : (∀ failure, e.result = .error failure → failure.Reports cursors) ∧
    (e.op ≠ .accept → ∀ report, e.result = .ok (some report) → report.cursors = cursors)
  /-- No effect is prepared more often than its failure action allows. -/
  limits : ∀ effect, preparations e.after.log effect ≤ attemptLimit effect
  /-- A sealed transaction stays sealed and cleans up nothing. -/
  isSealed : e.before.state = .isSealed ∨ e.op = .sealReceipt ∧ e.before.state = .accepted →
    e.after.state = .isSealed ∧ Extends Event.Releases e.before.log e.after.log

/-- Where every clean-up call returned, no object is a temporary or visible after a failed
acceptance or an abort. -/
theorem Lawful.nothing_left {plan : EffectPlan} {cursors : ConsumerCursorSet} {e : Entry}
    (h : Lawful plan cursors e)
    (hundone : e.op = .abort ∧ e.before.state ≠ .isSealed ∨
      e.op = .accept ∧ e.before.state = .staged ∧ ∃ failure, e.result = .error failure)
    (hreturn : CleanupsReturn e.after.log) (handle : ℕ) :
    left e.after.log handle = .absent ∨ left e.after.log handle = .gone :=
  (h.undone hundone).nothing_left hreturn handle

/-- What a transaction of a plan holds between two calls. -/
structure Sound (plan : EffectPlan) (cursors : ConsumerCursorSet) (t : Transaction) : Prop where
  samePlan : t.plan = plan
  initialCursors : t.initialCursors = cursors
  limits : ∀ e, preparations t.log e ≤ attemptLimit e
  started : t.state ≠ .preparing
  staged : t.state = .staged → ∃ omitted, Preparing omitted plan.effects t
  accepted : t.state = .accepted → Owns t.log [] (acceptedHandles t.accepted)
  resolved : t.state = .failed ∨ t.state = .rejected → Owns t.log [] []

/-- One call: the log goes on, and as long as it is tame the call is lawful and keeps the
transaction sound. -/
def Steps (plan : EffectPlan) (cursors : ConsumerCursorSet) (op : Operation) (t : Transaction)
    (result : Except Failure (Option ConsumerTransactionReport) × Transaction) : Prop :=
  Extends (fun _ => True) t.log result.2.log ∧
    (Tame result.2.log → Lawful plan cursors ⟨t, op, result.1, result.2⟩ ∧
      Sound plan cursors result.2)

section Operations

variable (publisher : Publisher) {plan : EffectPlan} {cursors : ConsumerCursorSet} {t : Transaction}

/-- A call that is refused changes nothing. -/
lemma steps_refused {op : Operation} {text : String} (h : Tame t.log → Sound plan cursors t)
    (habort : op ≠ .abort) (haccept : op = .accept → t.state ≠ .staged)
    (hseal : op = .sealReceipt → t.state ≠ .accepted) :
    Steps plan cursors op t (.error (alreadyResolved text), t) := by
  refine ⟨Extends.refl _ _, fun htame => ⟨⟨?_, ?_, ⟨?_, ?_⟩, (h htame).limits, ?_⟩, h htame⟩⟩
  · intro _ report hreport
    cases hreport
  · rintro (⟨hop, -⟩ | ⟨hop, hstate, -⟩)
    · exact absurd hop habort
    · exact absurd hstate (haccept hop)
  · intro failure hfailure
    cases hfailure
    exact trivial
  · intro _ report hreport
    cases hreport
  · rintro (hstate | ⟨hop, hstate⟩)
    · exact ⟨hstate, Extends.refl _ _⟩
    · exact absurd hstate (hseal hop)

/-- A call that resolves a transaction leaves nothing behind. -/
lemma steps_resolved {op : Operation}
    {result : Except Failure (Option ConsumerTransactionReport) × Transaction}
    (h : Tame t.log → Sound plan cursors t) (haccept : op ≠ .accept) (hseal : op ≠ .sealReceipt)
    (hbefore : t.state ≠ .isSealed) (hextends : Extends Event.Resolves t.log result.2.log)
    (hafter : Tame result.2.log → result.2.plan = t.plan ∧
      result.2.initialCursors = t.initialCursors ∧
      (result.2.state = .failed ∨ result.2.state = .rejected) ∧ Owns result.2.log [] [] ∧
      (∀ failure, result.1 = .error failure → failure.Reports t.initialCursors) ∧
      ∀ report, result.1 = .ok (some report) → report.cursors = t.initialCursors) :
    Steps plan cursors op t result := by
  refine ⟨hextends.mono fun _ _ => trivial, fun htame => ?_⟩
  have hsound := h (hextends.tame htame)
  obtain ⟨hplan, hinitial, hstate, howns, hfailures, hreports⟩ := hafter htame
  rw [hsound.initialCursors] at hfailures hreports
  have hlimits : ∀ e, preparations result.2.log e ≤ attemptLimit e := by
    intro e
    rw [(hextends.counts fun event hevent => hevent.quiet e).1]
    exact hsound.limits e
  refine ⟨⟨fun hop => absurd hop haccept, fun _ => howns.clean, ⟨hfailures, fun _ => hreports⟩,
    hlimits, ?_⟩, ⟨hplan.trans hsound.samePlan, hinitial.trans hsound.initialCursors,
      hlimits, ?_, ?_,
    ?_, fun _ => howns⟩⟩
  · rintro (hsealed | ⟨hop, -⟩)
    · exact absurd hsealed hbefore
    · exact absurd hop hseal
  · rcases hstate with hstate | hstate <;> simp [hstate]
  · intro hstaged
    rcases hstate with hstate | hstate <;> simp [hstate] at hstaged
  · intro haccepted
    rcases hstate with hstate | hstate <;> simp [hstate] at haccepted

/-- The end of a roll-back: the attempt is rejected when no clean-up has failed, else it has failed;
the cursors are the initial ones. -/
lemma steps_ended {op : Operation} {t' : Transaction} {diagnostics : List String}
    {message : String} {rejected failed : ConsumerTransactionReport}
    (h : Tame t.log → Sound plan cursors t) (haccept : op ≠ .accept) (hseal : op ≠ .sealReceipt)
    (hbefore : t.state ≠ .isSealed) (hextends : Extends Event.Resolves t.log t'.log)
    (howns : Tame t'.log → Owns t'.log [] []) (hplan : t'.plan = t.plan)
    (hinitial : t'.initialCursors = t.initialCursors)
    (hrejected : rejected.cursors = t.initialCursors)
    (hfailed : failed.cursors = t.initialCursors) :
    let result : Except Failure ConsumerTransactionReport × Transaction :=
      if diagnostics = [] then (.ok rejected, { t' with state := .rejected })
      else (.error (.publication message failed), { t' with state := .failed })
    Steps plan cursors op t (result.1.map some, result.2) := by
  dsimp only
  by_cases hnil : diagnostics = []
  · rw [if_pos hnil]
    refine steps_resolved h haccept hseal hbefore hextends fun htame =>
      ⟨hplan, hinitial, Or.inr rfl, howns htame, fun failure hfailure => ?_,
        fun report hreport => ?_⟩
    · cases hfailure
    · cases hreport
      exact hrejected
  · rw [if_neg hnil]
    refine steps_resolved h haccept hseal hbefore hextends fun htame =>
      ⟨hplan, hinitial, Or.inl rfl, howns htame, fun failure hfailure => ?_,
        fun report hreport => ?_⟩
    · cases hfailure
      exact hfailed
    · cases hreport

/-- `reject`, alone or inside of `abort`. -/
lemma steps_reject {op : Operation} (h : Tame t.log → Sound plan cursors t)
    (hstate : t.state = .staged) (haccept : op ≠ .accept) (hseal : op ≠ .sealReceipt) :
    Steps plan cursors op t ((reject publisher t).1.map some, (reject publisher t).2) := by
  obtain ⟨log, prepared, ht, hextends, hspec⟩ := discardStaged_spec publisher t
  rw [reject, if_neg (by simp [hstate])]
  rcases hcase : discardStaged publisher t with ⟨result, t'⟩
  rw [hcase] at ht hspec
  obtain rfl : t' = _ := ht
  have howns : Tame log → Owns log [] [] := by
    intro htame
    obtain ⟨omitted, hpreparing⟩ := (h (hextends.tame htame)).staged hstate
    exact (hspec htame).2.2 [] hpreparing.owns
  cases result with
  | error error =>
    refine steps_resolved h haccept hseal (by simp [hstate]) hextends fun htame => ?_
    obtain ⟨⟨_, hfalse⟩, -⟩ := hspec htame
    cases hfalse
  | ok result =>
    obtain ⟨rolledBack, diagnostics⟩ := result
    exact steps_ended h haccept hseal (by simp [hstate]) hextends howns rfl rfl rfl rfl

/-- `rollback_accepted`, alone or inside of `abort`. -/
lemma steps_rollbackAccepted {op : Operation} (h : Tame t.log → Sound plan cursors t)
    (hstate : t.state = .accepted) (haccept : op ≠ .accept) (hseal : op ≠ .sealReceipt) :
    Steps plan cursors op t
      ((rollbackAccepted publisher t).1.map some, (rollbackAccepted publisher t).2) := by
  obtain ⟨log, accepted, updates, ht, hextends, hspec⟩ := rollbackAcceptedObjects_spec publisher t
  rw [rollbackAccepted, if_neg (by simp [hstate])]
  rcases hcase : rollbackAcceptedObjects publisher t with ⟨result, t'⟩
  rw [hcase] at ht hspec
  obtain rfl : t' = _ := ht
  have howns : Tame log → Owns log [] [] := by
    intro htame
    have hsound := h (hextends.tame htame)
    exact (hspec htame).2.2.2 [] (hsound.accepted hstate)
  cases result with
  | error error =>
    refine steps_resolved h haccept hseal (by simp [hstate]) hextends fun htame => ?_
    obtain ⟨⟨_, hfalse⟩, -⟩ := hspec htame
    cases hfalse
  | ok result =>
    obtain ⟨rolledBack, diagnostics⟩ := result
    exact steps_ended h haccept hseal (by simp [hstate]) hextends howns rfl rfl rfl rfl

/-- The loop of `seal` only releases. -/
lemma finalizeAll_spec (items : List Accepted) :
    ∀ (failures : List String) (pending : List Accepted) (log : List Event),
      Extends Event.Releases log (finalizeAll publisher items failures pending log).2 := by
  induction items with
  | nil => exact fun _ _ log => Extends.refl _ log
  | cons accepted rest ih =>
    intro failures pending log
    unfold finalizeAll
    generalize publisher.finalize log accepted.prepared.handle = outcome
    obtain ⟨outcome', hlog, -⟩ := retainRecoveries_spec publisher accepted.prepared
      (log ++ [.finalize accepted.prepared.handle outcome])
    have htwo : Extends Event.Releases log
        (log ++ [.finalize accepted.prepared.handle outcome] ++
          [.recoveries accepted.prepared.handle outcome']) :=
      (Extends.one trivial).trans (Extends.one trivial)
    dsimp only
    rcases hcase : retainRecoveries publisher accepted.prepared
      (log ++ [.finalize accepted.prepared.handle outcome]) with ⟨result, log'⟩
    rw [hcase] at hlog ⊢
    obtain rfl : log' = _ := hlog
    cases result with
    | error error => exact htwo
    | ok recovery =>
      cases recovery with
      | none => exact htwo.trans (ih _ _ _)
      | some recovery => exact htwo.trans (ih _ _ _)

/-- Releasing prepares and publishes nothing. -/
lemma Event.Releases.quiet {event : Event} (h : event.Releases) (effect : AcceptedSideEffect) :
    event.prepares effect = false ∧ event.publishes effect = false := by
  cases event <;> first | exact ⟨rfl, rfl⟩ | exact absurd h id

/-- A call of `seal` that is not refused. -/
lemma steps_sealed {sealed : Transaction} {log : List Event} {pending : List Accepted}
    {result : Except Failure (Option ConsumerTransactionReport)}
    (h : Tame t.log → Sound plan cursors t) (hstate : sealed.state = .isSealed)
    (hplan : sealed.plan = t.plan) (hinitial : sealed.initialCursors = t.initialCursors)
    (hextends : Extends Event.Releases t.log log)
    (hresult : result = .ok none ∨ ∃ error, result = .error (.passed error)) :
    Steps plan cursors .sealReceipt t
      (result, { sealed with log := log, finalizePending := pending }) := by
  refine ⟨hextends.mono fun _ _ => trivial, fun htame => ?_⟩
  have hsound := h (hextends.tame htame)
  have hlimits : ∀ e, preparations log e ≤ attemptLimit e := by
    intro e
    rw [(hextends.counts fun event hevent => hevent.quiet e).1]
    exact hsound.limits e
  refine ⟨⟨?_, ?_, ⟨fun failure hfailure => ?_, fun _ report hreport => ?_⟩, hlimits,
    fun _ => ⟨hstate, hextends⟩⟩, ⟨hplan.trans hsound.samePlan,
    hinitial.trans hsound.initialCursors, hlimits, ?_, ?_, ?_, ?_⟩⟩
  · intro hop
    cases hop
  · rintro (⟨hop, -⟩ | ⟨hop, -⟩) <;> cases hop
  · obtain rfl : result = .error failure := hfailure
    rcases hresult with hok | ⟨error, herror⟩
    · cases hok
    · cases herror
      exact trivial
  · obtain rfl : result = .ok (some report) := hreport
    rcases hresult with hok | ⟨error, herror⟩
    · cases hok
    · cases herror
  all_goals
    dsimp only
    simp [hstate]

/-- `seal`: a sound transaction stays sound, and the call keeps to the law. -/
lemma steps_seal (h : Tame t.log → Sound plan cursors t) :
    Steps plan cursors .sealReceipt t
      ((sealTransaction publisher t).1.map fun _ => none, (sealTransaction publisher t).2) := by
  unfold sealTransaction
  by_cases hrefused : t.state ≠ .accepted ∧ t.state ≠ .isSealed
  · rw [if_pos hrefused]
    refine steps_refused h ?_ ?_ fun _ => hrefused.1
    · exact fun hop => by cases hop
    · exact fun hop => by cases hop
  rw [if_neg hrefused]
  dsimp only
  have hsealed : ∃ sealed, (if t.state = .accepted then
      { t with finalizePending := t.accepted, accepted := [], state := .isSealed }
        else t) = sealed ∧
      sealed.log = t.log ∧ sealed.state = .isSealed ∧ sealed.plan = t.plan ∧
      sealed.initialCursors = t.initialCursors := by
    by_cases hstate : t.state = .accepted
    · exact ⟨_, if_pos hstate, rfl, rfl, rfl, rfl⟩
    · refine ⟨t, if_neg hstate, rfl, ?_, rfl, rfl⟩
      by_contra hother
      exact hrefused ⟨hstate, hother⟩
  obtain ⟨sealed, heq, hlog, hstate, hplan, hinitial⟩ := hsealed
  rw [heq]
  have hextends := finalizeAll_spec publisher sealed.finalizePending [] [] sealed.log
  rw [hlog] at hextends ⊢
  rcases hcase : finalizeAll publisher sealed.finalizePending [] [] t.log with ⟨result, log⟩
  rw [hcase] at hextends
  cases result with
  | error error =>
    exact steps_sealed h hstate hplan hinitial hextends (Or.inr ⟨error, rfl⟩)
  | ok result =>
    obtain ⟨failures, pending⟩ := result
    exact steps_sealed h hstate hplan hinitial hextends (Or.inl rfl)

/-- The receipts carry the identities of the published effects. -/
lemma Layout.receipts_identity {accepted : List Accepted} {pending : List AcceptedSideEffect}
    {skipped : List SkippedSampleReport} {omitted taken : List AcceptedSideEffect}
    (h : Layout accepted pending skipped omitted taken) :
    (accepted.map Accepted.receipt).map PublicationReceipt.effectIdentity =
      (accepted.map Accepted.effect).map AcceptedSideEffect.identity := by
  rw [List.map_map, List.map_map]
  exact List.map_congr_left fun a ha => (h.receipts a ha).1

/-- `accept`: a sound transaction stays sound, and the call keeps to the law. -/
lemma steps_accept (h : Tame t.log → Sound plan cursors t) :
    Steps plan cursors .accept t ((accept publisher t).1.map some, (accept publisher t).2) := by
  unfold accept
  by_cases hstate : t.state ≠ .staged
  · rw [if_pos hstate]
    refine steps_refused h ?_ (fun _ => hstate) ?_
    · exact fun hop => by cases hop
    · exact fun hop => by cases hop
  rw [if_neg hstate]
  rw [not_not] at hstate
  -- which effects are omitted so far is known for a tame log only
  have hstart : ∃ omitted, Tame t.log →
      Accepting t.prepared omitted plan.effects t.initialCursors [] { t with prepared := [] } := by
    by_cases htame : Tame t.log
    · obtain ⟨omitted, hp⟩ := (h htame).staged hstate
      have haccepted := hp.accepted
      refine ⟨omitted, fun _ => ⟨rfl, ?_, ?_, ?_, ?_, ?_,
        omitted, [], (List.append_nil _).symm, hp.omissions, hp.layout.order⟩⟩
      all_goals
        dsimp only
        rw [haccepted]
      · exact hp.owns
      · exact hp.counts
      · exact hp.layout
      · rfl
      · rfl
    · exact ⟨[], fun htame' => absurd htame' htame⟩
  obtain ⟨omitted, haccepting⟩ := hstart
  obtain ⟨hextends, hok, hfailed⟩ :=
    acceptLoop_spec publisher t.prepared t.initialCursors [] omitted
    { t with prepared := [] } haccepting
  rcases hcase : acceptLoop publisher t.prepared t.initialCursors [] { t with prepared := [] } with
    ⟨result, t'⟩
  rw [hcase] at hextends hok hfailed
  cases result with
  | error failure =>
    refine ⟨hextends, fun htame => ?_⟩
    have hsound := h (hextends.tame htame)
    have hundone := hfailed failure rfl htame
    have hreports := hundone.reports
    have hfailedState : t'.state = .failed := hundone.state
    dsimp only at hreports
    rw [hsound.initialCursors] at hreports
    refine ⟨⟨?_, fun _ => hundone.clean.clean, ⟨?_, ?_⟩, hundone.limits, ?_⟩,
      ⟨hundone.plan.trans hsound.samePlan, hundone.initialCursors.trans hsound.initialCursors,
        hundone.limits, ?_, ?_, ?_, fun _ => hundone.clean⟩⟩
    · intro _ report hreport
      cases hreport
    · intro failure' hfailure
      cases hfailure
      exact hreports
    · intro hop
      exact absurd rfl hop
    · rintro (hsealed | ⟨hop, -⟩)
      · rw [hstate] at hsealed
        cases hsealed
      · cases hop
    all_goals
      dsimp only
      simp [hfailedState]
  | ok result =>
    obtain ⟨cs, ps⟩ := result
    refine ⟨hextends, fun htame => ?_⟩
    have hsound := h (hextends.tame htame)
    obtain ⟨⟨omitted', hdone⟩, hplan, hinitial⟩ := hok cs ps rfl htame
    dsimp only at hplan hinitial
    have hpartition := hdone.layout.partition
    have horder := hdone.layout.order
    have hcursors := hdone.cursors
    have homissions := hdone.omissions
    rw [List.map_nil, List.append_nil] at hpartition horder
    rw [hinitial, hsound.initialCursors] at hcursors
    refine ⟨⟨?_, ?_, ⟨?_, ?_⟩, hdone.counts.limits, ?_⟩, ⟨hplan.trans hsound.samePlan,
      hinitial.trans hsound.initialCursors, hdone.counts.limits, ?_, ?_, fun _ => hdone.owns, ?_⟩⟩
    · intro _ report hreport
      cases hreport
      refine ⟨t'.accepted.map Accepted.effect, omitted', hpartition, horder,
        homissions, ?_, hdone.layout.reports, ?_, hdone.counts.omitted, ?_, rfl, hdone.owns⟩
      · rw [hdone.published]
        exact hdone.layout.receipts_identity
      · intro effect heffect
        obtain ⟨a, ha, rfl⟩ := List.mem_map.mp heffect
        exact hdone.counts.accepted a ha
      · rw [List.foldl_map]
        exact hcursors
    · rintro (⟨hop, -⟩ | ⟨-, -, failure, hfailure⟩)
      · cases hop
      · cases hfailure
    · intro failure hfailure
      cases hfailure
    · intro hop
      exact absurd rfl hop
    · rintro (hsealed | ⟨hop, -⟩)
      · rw [hstate] at hsealed
        cases hsealed
      · cases hop
    all_goals
      dsimp only
      simp

/-- **One call on a sound transaction.** -/
theorem steps_run (h : Tame t.log → Sound plan cursors t) (op : Operation) :
    Steps plan cursors op t (op.run publisher t) := by
  cases op with
  | accept => exact steps_accept publisher h
  | reject =>
    by_cases hstate : t.state = .staged
    · exact steps_reject publisher h hstate (by decide) (by decide)
    · simp only [Operation.run, reject, if_pos hstate]
      exact steps_refused h (by decide) (fun hop => by cases hop) fun hop => by cases hop
  | rollbackAccepted =>
    by_cases hstate : t.state = .accepted
    · exact steps_rollbackAccepted publisher h hstate (by decide) (by decide)
    · simp only [Operation.run, rollbackAccepted, if_pos hstate]
      exact steps_refused h (by decide) (fun hop => by cases hop) fun hop => by cases hop
  | sealReceipt => exact steps_seal publisher h
  | abort =>
    simp only [Operation.run]
    by_cases hstaged : t.state = .staged
    · rw [if_pos hstaged]
      exact steps_reject publisher h hstaged (by decide) (by decide)
    rw [if_neg hstaged]
    by_cases haccepted : t.state = .accepted
    · rw [if_pos haccepted]
      exact steps_rollbackAccepted publisher h haccepted (by decide) (by decide)
    rw [if_neg haccepted]
    refine ⟨Extends.refl _ _, fun htame => ?_⟩
    have hsound := h htame
    have hstarted := hsound.started
    refine ⟨⟨?_, ?_, ⟨?_, ?_⟩, hsound.limits, ?_⟩, hsound⟩
    · intro hop
      cases hop
    · rintro (⟨-, hopen⟩ | ⟨hop, -⟩)
      · refine (hsound.resolved ?_).clean
        dsimp only at hopen
        cases hstate : t.state <;> simp_all
      · cases hop
    · intro failure hfailure
      cases hfailure
    · intro _ report hreport
      cases hreport
    · rintro (hsealed | ⟨hop, -⟩)
      · exact ⟨hsealed, Extends.refl _ _⟩
      · cases hop

/-- Every call of a run is lawful as long as the log is tame. -/
lemma lawful_trace (ops : List Operation) :
    ∀ t : Transaction, (Tame t.log → Sound plan cursors t) →
      ∀ e ∈ trace publisher t ops, Tame e.after.log → Lawful plan cursors e := by
  induction ops with
  | nil =>
    intro t _ e he
    cases he
  | cons op ops ih =>
    intro t h e he htame
    obtain ⟨hextends, hstep⟩ := steps_run publisher h op
    rcases List.mem_cons.mp he with rfl | he
    · exact (hstep htame).1
    · exact ih _ (fun htame' => (hstep htame').2) e he htame

end Operations

/-- **Consumer publication is all or nothing**, for every plan and every publisher, in every run in
which the publisher raises only subclasses of `Exception` (with texts that can be reported where the
effect may be skipped) and returns only objects of the effect it was asked for: a construction that
raises leaves nothing behind, and every call on a constructed transaction is lawful. -/
theorem publication_all_or_nothing (publisher : Publisher) (plan : EffectPlan)
    (cursors : ConsumerCursorSet) :
    (∀ failure, (create publisher plan cursors).1 = .error failure →
      Tame (create publisher plan cursors).2.log →
      Clean (create publisher plan cursors).2.log ∧ failure.Reports cursors ∧
      ∀ effect, preparations (create publisher plan cursors).2.log effect ≤ attemptLimit effect) ∧
    ∀ u, (create publisher plan cursors).1 = .ok u → ∀ (ops : List Operation),
      ∀ e ∈ trace publisher (create publisher plan cursors).2 ops, Tame e.after.log →
        Lawful plan cursors e := by
  refine ⟨fun failure hfailure htame => ?_, fun u hu ops => ?_⟩
  · obtain ⟨howns, hreports, hlimits⟩ :=
      (create_spec publisher plan cursors htame).2 failure hfailure
    exact ⟨howns.clean, hreports, hlimits⟩
  · refine lawful_trace publisher ops _ fun htame => ?_
    obtain ⟨hplan, hinitial, hstate, omitted, hpreparing⟩ :=
      (create_spec publisher plan cursors htame).1 u hu
    refine ⟨hplan, hinitial, hpreparing.counts.limits, by simp [hstate],
      fun _ => ⟨omitted, hpreparing⟩, fun hother => ?_, fun hother => ?_⟩
    · rw [hstate] at hother
      cases hother
    · rw [hstate] at hother
      rcases hother with hother | hother <;> cases hother

/-- Two effects of two consumers. -/
def samplePlan : EffectPlan where
  effects :=
    [⟨"effect-0", "density", "payload-0", .root, .failRun, ⟨"density", none, 0⟩,
        ⟨"density", some "step-1", 1⟩⟩,
      ⟨"effect-1", "energy", "payload-1", .root, .failRun, ⟨"energy", none, 0⟩,
        ⟨"energy", some "step-1", 1⟩⟩]
  distinct := by decide

/-- A publisher whose second publication raises. -/
def raisingPublisher (error : Raised) : Publisher where
  prepare _ effect := .returns effect.identity effect.payloadIdentity
  publish _ handle :=
    if handle = 0 then .returns ⟨"effect-0", "payload-0", .root⟩ else .raises error
  cleanup _ _ _ := .returns
  recoveries _ _ := .returns
  finalize _ _ := .returns

/-- Where the second publication raises an `OSError`, acceptance fails and every call is lawful. -/
theorem publication_all_or_nothing_oserror :
    ∀ e ∈ trace (raisingPublisher (raised "OSError" "disk full"))
      (create (raisingPublisher (raised "OSError" "disk full")) samplePlan []).2 [.accept, .abort],
      Lawful samplePlan [] e := by
  have hcreated : (create (raisingPublisher (raised "OSError" "disk full")) samplePlan []).1 =
      .ok () := by decide
  have htame : ∀ e ∈ trace (raisingPublisher (raised "OSError" "disk full"))
      (create (raisingPublisher (raised "OSError" "disk full")) samplePlan []).2 [.accept, .abort],
      Tame e.after.log := by decide +kernel
  intro e he
  exact (publication_all_or_nothing (raisingPublisher (raised "OSError" "disk full"))
    samplePlan []).2 () hcreated [.accept, .abort] e he (htame e he)

/-- Where the second publication is interrupted, `accept` leaves the transaction staged with nothing
in it: the following `abort` succeeds and the first publication stays visible. -/
theorem interrupted_publication_stays_visible :
    ¬∀ e ∈ trace (raisingPublisher ⟨"KeyboardInterrupt", "", false⟩)
      (create (raisingPublisher ⟨"KeyboardInterrupt", "", false⟩) samplePlan []).2 [.accept,
        .abort],
      Lawful samplePlan [] e := by
  intro h
  obtain ⟨e, he, hop, hstate, hvisible⟩ :
      ∃ e ∈ trace (raisingPublisher ⟨"KeyboardInterrupt", "", false⟩)
        (create (raisingPublisher ⟨"KeyboardInterrupt", "", false⟩) samplePlan []).2
        [.accept, .abort],
        e.op = .abort ∧ e.before.state ≠ .isSealed ∧ standing e.after.log 0 = .visible := by
    decide +kernel
  rcases (h e he).undone (.inl ⟨hop, hstate⟩) 0 with habsent | hgone
  · rw [hvisible] at habsent
    cases habsent
  · rw [hvisible] at hgone
    cases hgone

end Pops.Consumers
