import Pops.Runtime.Consumers.Transaction

/-!
# What a consumer transaction owns

What the publisher has done is read off the log of its calls: every prepared object is a temporary
until it is discarded or rolled back, or it is visible once it was published and until it is rolled
back.  A transaction owns the objects that are not gone.

## Main definitions

* `Pops.Consumers.standing` — where a prepared object stands after the calls of a log.
* `Pops.Consumers.left` — where it is when a clean-up call counts only if it returns.
* `Pops.Consumers.Owns` — the temporaries and the visible objects of a log.
* `Pops.Consumers.Tame` — the answers that the transaction can cope with.
* `Pops.Consumers.preparations`, `publications` — how often an effect was prepared and published.

## Main results

* `Pops.Consumers.Clean.nothing_left` — where nothing is left behind and every clean-up call
  returns, no object is left.
-/

namespace Pops.Consumers

/-! ## The standing of an object -/

/-- Where a prepared object stands. -/
inductive Standing
  | absent
  | temporary
  | visible
  | gone
  deriving DecidableEq, Repr

/-- What a transaction has done for an object after one more call.  A call that cleans up counts as
the clean-up, also when it raises: the transaction then reports what is left, and what is left is
the publisher's. -/
def standingStep (handle : ℕ) (s : Standing) : Event → Standing
  | .prepare h _ (.returns _ _) => if h = handle then .temporary else s
  | .publish h effect outcome =>
    if h = handle ∧ (checkReceipt effect outcome).isOk = true then .visible else s
  | .cleanup .discard h _ => if h = handle ∧ s = .temporary then .gone else s
  | .cleanup .rollback h _ => if h = handle then .gone else s
  | _ => s

/-- The standing of an object after the calls of a log. -/
def standing (log : List Event) (handle : ℕ) : Standing :=
  log.foldl (standingStep handle) .absent

/-- Where an object stands after one more event. -/
@[simp] lemma standing_append (log : List Event) (event : Event) (handle : ℕ) :
    standing (log ++ [event]) handle = standingStep handle (standing log handle) event := by
  simp [standing, List.foldl_append]

/-- Nothing is left behind: no object is a temporary, and none is visible. -/
def Clean (log : List Event) : Prop :=
  ∀ handle, standing log handle = .absent ∨ standing log handle = .gone

/-- Where an object is after one more call, when a clean-up call counts only if it returns. -/
def leftStep (handle : ℕ) (s : Standing) : Event → Standing
  | .cleanup _ _ .other => s
  | .cleanup _ _ (.raises _) => s
  | event => standingStep handle s event

/-- Where an object is after the calls of a log. -/
def left (log : List Event) (handle : ℕ) : Standing := log.foldl (leftStep handle) .absent

/-- Every clean-up call of a log returns. -/
def CleanupsReturn (log : List Event) : Prop :=
  ∀ kind handle outcome, .cleanup kind handle outcome ∈ log → outcome = .returns

/-- Where every clean-up call returns, an object is where the transaction has put it. -/
lemma left_eq_standing {log : List Event} (h : CleanupsReturn log) (handle : ℕ) :
    left log handle = standing log handle := by
  have hstep : ∀ event ∈ log, ∀ s, leftStep handle s event = standingStep handle s event := by
    intro event hevent s
    cases event with
    | cleanup kind n outcome =>
      obtain rfl := h kind n outcome hevent
      rfl
    | _ => rfl
  unfold left standing
  generalize Standing.absent = start
  induction log generalizing start with
  | nil => rfl
  | cons event log ih =>
    rw [List.foldl_cons, List.foldl_cons, hstep event List.mem_cons_self]
    exact ih (fun kind n outcome hmem => h kind n outcome (List.mem_cons_of_mem _ hmem))
      (fun e he => hstep e (List.mem_cons_of_mem _ he)) _

/-- Where nothing is left behind and every clean-up call returns, no object is left. -/
theorem Clean.nothing_left {log : List Event} (h : Clean log) (hreturn : CleanupsReturn log)
    (handle : ℕ) : left log handle = .absent ∨ left log handle = .gone := by
  rw [left_eq_standing hreturn]
  exact h handle

/-- The temporaries and the visible objects of a log. -/
structure Owns (log : List Event) (temporaries visibles : List ℕ) : Prop where
  fresh : ∀ h, log.length ≤ h → standing log h = .absent
  temporary : ∀ h, standing log h = .temporary ↔ h ∈ temporaries
  visible : ∀ h, standing log h = .visible ↔ h ∈ visibles
  nodup_temporaries : temporaries.Nodup
  nodup_visibles : visibles.Nodup

namespace Owns

variable {log : List Event} {temporaries visibles : List ℕ}

/-- Nothing is owned in the beginning. -/
lemma nil : Owns [] [] [] := by
  refine ⟨fun h _ => rfl, fun h => ?_, fun h => ?_, List.nodup_nil, List.nodup_nil⟩
  · simp [standing]
  · simp [standing]

/-- Owning nothing is leaving nothing behind. -/
lemma clean (h : Owns log [] []) : Clean log := by
  intro handle
  have htemporary := h.temporary handle
  have hvisible := h.visible handle
  cases hcase : standing log handle with
  | absent => exact Or.inl rfl
  | gone => exact Or.inr rfl
  | temporary => exact absurd (htemporary.mp hcase) List.not_mem_nil
  | visible => exact absurd (hvisible.mp hcase) List.not_mem_nil

/-- The order of the objects does not matter. -/
theorem perm {temporaries' visibles' : List ℕ} (h : Owns log temporaries visibles)
    (ht : temporaries.Perm temporaries') (hv : visibles.Perm visibles') :
    Owns log temporaries' visibles' :=
  ⟨h.fresh, fun n => (h.temporary n).trans ht.mem_iff, fun n => (h.visible n).trans hv.mem_iff,
    ht.nodup_iff.mp h.nodup_temporaries, hv.nodup_iff.mp h.nodup_visibles⟩

/-- Only objects of earlier calls are owned. -/
lemma lt_of_mem {handle : ℕ} (h : Owns log temporaries visibles)
    (hmem : handle ∈ temporaries ∨ handle ∈ visibles) : handle < log.length := by
  by_contra hle
  have habsent := h.fresh handle (not_lt.mp hle)
  rcases hmem with hmem | hmem
  · have := (h.temporary handle).mpr hmem
    rw [habsent] at this
    cases this
  · have := (h.visible handle).mpr hmem
    rw [habsent] at this
    cases this

/-- A call that changes no standing. -/
lemma quiet {event : Event} (h : Owns log temporaries visibles)
    (hquiet : ∀ handle s, standingStep handle s event = s) :
    Owns (log ++ [event]) temporaries visibles := by
  refine ⟨fun n hn => ?_, fun n => ?_, fun n => ?_, h.nodup_temporaries, h.nodup_visibles⟩
  · rw [standing_append, hquiet]
    rw [List.length_append, List.length_singleton] at hn
    exact h.fresh n (by omega)
  · rw [standing_append, hquiet]
    exact h.temporary n
  · rw [standing_append, hquiet]
    exact h.visible n

/-- A prepared object is a new temporary. -/
theorem prepare (h : Owns log temporaries visibles) (effect : AcceptedSideEffect)
    (effectIdentity payloadIdentity : String) :
    Owns (log ++ [.prepare log.length effect (.returns effectIdentity payloadIdentity)])
      (temporaries ++ [log.length]) visibles := by
  have habsent := h.fresh log.length le_rfl
  have hnew : log.length ∉ temporaries := fun hmem => lt_irrefl _ (h.lt_of_mem (Or.inl hmem))
  refine ⟨fun n hn => ?_, fun n => ?_, fun n => ?_, ?_, h.nodup_visibles⟩
  · rw [List.length_append, List.length_singleton] at hn
    simp only [standing_append, standingStep]
    rw [if_neg (by omega)]
    exact h.fresh n (by omega)
  · simp only [standing_append, standingStep, List.mem_append, List.mem_singleton]
    split_ifs with heq
    · simp [heq]
    · rw [h.temporary n]
      constructor
      · exact Or.inl
      · rintro (hmem | hmem)
        · exact hmem
        · exact absurd hmem.symm heq
  · simp only [standing_append, standingStep]
    split_ifs with heq
    · subst heq
      rw [← h.visible, habsent]
      simp
    · exact h.visible n
  · rw [List.nodup_append]
    refine ⟨h.nodup_temporaries, List.nodup_singleton _, fun a ha b hb => ?_⟩
    rw [List.mem_singleton.mp hb]
    rintro rfl
    exact hnew ha

/-- A published temporary is visible. -/
lemma publish {handle : ℕ} {effect : AcceptedSideEffect} {outcome : PublishOutcome}
    {receipt : PublicationReceipt} (h : Owns log (handle :: temporaries) visibles)
    (hreceipt : checkReceipt effect outcome = .ok receipt) :
    Owns (log ++ [.publish handle effect outcome]) temporaries (visibles ++ [handle]) := by
  have hlt := h.lt_of_mem (Or.inl List.mem_cons_self)
  have hnodup := List.nodup_cons.mp h.nodup_temporaries
  have htemporary : standing log handle = .temporary := (h.temporary handle).mpr List.mem_cons_self
  have hstep : ∀ n, standingStep n (standing log n) (.publish handle effect outcome) =
      if handle = n then .visible else standing log n := by
    intro n
    simp [standingStep, hreceipt, Except.isOk, Except.toBool]
  refine ⟨fun n hn => ?_, fun n => ?_, fun n => ?_, hnodup.2, ?_⟩
  · rw [List.length_append, List.length_singleton] at hn
    rw [standing_append, hstep, if_neg (by omega)]
    exact h.fresh n (by omega)
  · rw [standing_append, hstep]
    split_ifs with heq
    · subst heq
      simp [hnodup.1]
    · rw [h.temporary n, List.mem_cons, or_iff_right (Ne.symm heq)]
  · rw [standing_append, hstep, List.mem_append, List.mem_singleton]
    split_ifs with heq
    · simp [heq]
    · rw [h.visible n, or_iff_left (Ne.symm heq)]
  · rw [List.nodup_append]
    refine ⟨h.nodup_visibles, List.nodup_singleton _, fun a ha b hb => ?_⟩
    rw [List.mem_singleton.mp hb]
    rintro rfl
    have := (h.visible a).mpr ha
    rw [htemporary] at this
    cases this

/-- A temporary that is discarded or rolled back is gone. -/
lemma cleanup_temporary {handle : ℕ} (h : Owns log (handle :: temporaries) visibles)
    (kind : Cleanup) (outcome : CallOutcome) :
    Owns (log ++ [.cleanup kind handle outcome]) temporaries visibles := by
  have hlt := h.lt_of_mem (Or.inl List.mem_cons_self)
  have hnodup := List.nodup_cons.mp h.nodup_temporaries
  have htemporary : standing log handle = .temporary := (h.temporary handle).mpr List.mem_cons_self
  have hstep : ∀ n, standingStep n (standing log n) (.cleanup kind handle outcome) =
      if handle = n then .gone else standing log n := by
    intro n
    by_cases heq : handle = n
    · subst heq
      cases kind <;> simp [standingStep, htemporary]
    · cases kind <;> simp [standingStep, heq]
  refine ⟨fun n hn => ?_, fun n => ?_, fun n => ?_, hnodup.2, h.nodup_visibles⟩
  · rw [List.length_append, List.length_singleton] at hn
    rw [standing_append, hstep, if_neg (by omega)]
    exact h.fresh n (by omega)
  · rw [standing_append, hstep]
    split_ifs with heq
    · subst heq
      simp [hnodup.1]
    · rw [h.temporary n, List.mem_cons, or_iff_right (Ne.symm heq)]
  · rw [standing_append, hstep]
    split_ifs with heq
    · subst heq
      rw [← h.visible, htemporary]
      simp
    · exact h.visible n

/-- A visible object that is rolled back is gone. -/
lemma rollback_visible {handle : ℕ} (h : Owns log temporaries (handle :: visibles))
    (outcome : CallOutcome) :
    Owns (log ++ [.cleanup .rollback handle outcome]) temporaries visibles := by
  have hlt := h.lt_of_mem (Or.inr List.mem_cons_self)
  have hnodup := List.nodup_cons.mp h.nodup_visibles
  have hvisible : standing log handle = .visible := (h.visible handle).mpr List.mem_cons_self
  refine ⟨fun n hn => ?_, fun n => ?_, fun n => ?_, h.nodup_temporaries, hnodup.2⟩
  · rw [List.length_append, List.length_singleton] at hn
    simp only [standing_append, standingStep]
    rw [if_neg (by omega)]
    exact h.fresh n (by omega)
  · simp only [standing_append, standingStep]
    split_ifs with heq
    · subst heq
      rw [← h.temporary, hvisible]
      simp
    · exact h.temporary n
  · simp only [standing_append, standingStep]
    split_ifs with heq
    · subst heq
      simp [hnodup.1]
    · rw [h.visible n, List.mem_cons, or_iff_right (Ne.symm heq)]

end Owns

/-! ## Answers the transaction can cope with -/

/-- An exception that the transaction can cope with: it is caught, and its text can stand in a
report where the effect may be skipped. -/
def tameError (effect : AcceptedSideEffect) (error : Raised) : Prop :=
  error.isException = true ∧
    (effect.failureAction = .skipSampleReported → canonicalText (reason (some error)) = true)

/-- An answer that the transaction can cope with. -/
def Event.Tame : Event → Prop
  | .prepare _ effect (.returns effectIdentity payloadIdentity) =>
    effectIdentity = effect.identity ∧ payloadIdentity = effect.payloadIdentity
  | .prepare _ effect (.raises error) => tameError effect error
  | .publish _ effect (.raises error) => tameError effect error
  | .cleanup _ _ (.raises error) => error.isException = true
  | .recoveries _ (.raises error) => error.isException = true
  | _ => True

instance (effect : AcceptedSideEffect) (error : Raised) : Decidable (tameError effect error) :=
  inferInstanceAs (Decidable (_ ∧ _))

instance : DecidablePred Event.Tame
  | .prepare _ _ (.returns _ _) => inferInstanceAs (Decidable (_ ∧ _))
  | .prepare _ effect (.raises error) => inferInstanceAs (Decidable (tameError effect error))
  | .prepare _ _ .other => isTrue trivial
  | .publish _ effect (.raises error) => inferInstanceAs (Decidable (tameError effect error))
  | .publish _ _ (.returns _) => isTrue trivial
  | .publish _ _ .other => isTrue trivial
  | .cleanup _ _ (.raises error) => inferInstanceAs (Decidable (error.isException = true))
  | .cleanup _ _ .returns => isTrue trivial
  | .cleanup _ _ .other => isTrue trivial
  | .recoveries _ (.raises error) => inferInstanceAs (Decidable (error.isException = true))
  | .recoveries _ .returns => isTrue trivial
  | .recoveries _ .other => isTrue trivial
  | .finalize _ _ => isTrue trivial

/-- All answers of a log can be coped with. -/
def Tame (log : List Event) : Prop := ∀ event ∈ log, event.Tame

instance (log : List Event) : Decidable (Tame log) :=
  inferInstanceAs (Decidable (∀ event ∈ log, event.Tame))

/-- The events of a tame log are tame. -/
theorem Tame.append {log : List Event} {event : Event} (h : Tame (log ++ [event])) :
    Tame log ∧ event.Tame :=
  ⟨fun e he => h e (List.mem_append_left _ he),
    h event (List.mem_append_right _ List.mem_cons_self)⟩

/-- The later log goes on with events of a kind. -/
def Extends (p : Event → Prop) (log log' : List Event) : Prop :=
  ∃ events, log' = log ++ events ∧ ∀ event ∈ events, p event

namespace Extends

variable {p q : Event → Prop} {log log' log'' : List Event}

/-- A log extends itself. -/
lemma refl (p : Event → Prop) (log : List Event) : Extends p log log :=
  ⟨[], (List.append_nil log).symm, fun _ h => absurd h List.not_mem_nil⟩

/-- One more event of the kind extends the log. -/
lemma one {event : Event} (h : p event) : Extends p log (log ++ [event]) :=
  ⟨[event], rfl, fun e he => by rw [List.mem_singleton.mp he]; exact h⟩

/-- Extensions of extensions are extensions. -/
theorem trans (h : Extends p log log') (h' : Extends p log' log'') : Extends p log log'' := by
  obtain ⟨events, rfl, hevents⟩ := h
  obtain ⟨events', rfl, hevents'⟩ := h'
  refine ⟨events ++ events', List.append_assoc .., fun e he => ?_⟩
  rcases List.mem_append.mp he with he | he
  · exact hevents e he
  · exact hevents' e he

/-- An extension by events of a kind is one by events of a larger kind. -/
lemma mono (h : Extends p log log') (hpq : ∀ e, p e → q e) : Extends q log log' := by
  obtain ⟨events, rfl, hevents⟩ := h
  exact ⟨events, rfl, fun e he => hpq e (hevents e he)⟩

/-- What a tame log extends is tame. -/
lemma tame (h : Extends p log log') (ht : Tame log') : Tame log := by
  obtain ⟨events, rfl, -⟩ := h
  exact fun e he => ht e (List.mem_append_left _ he)

end Extends

/-! ## Counting -/

/-- The call prepares the effect. -/
def Event.prepares (effect : AcceptedSideEffect) : Event → Bool
  | .prepare _ e _ => e = effect
  | _ => false

/-- The call publishes the effect. -/
def Event.publishes (effect : AcceptedSideEffect) : Event → Bool
  | .publish _ e outcome => e = effect && (checkReceipt e outcome).isOk
  | _ => false

/-- The number of times an effect was prepared. -/
def preparations (log : List Event) (effect : AcceptedSideEffect) : ℕ :=
  log.countP (Event.prepares effect)

/-- The number of times an effect was published. -/
def publications (log : List Event) (effect : AcceptedSideEffect) : ℕ :=
  log.countP (Event.publishes effect)

/-- The call cleans up. -/
def Event.Resolves : Event → Prop
  | .cleanup _ _ _ => True
  | .recoveries _ _ => True
  | _ => False

/-- The call releases a published object. -/
def Event.Releases : Event → Prop
  | .finalize _ _ => True
  | .recoveries _ _ => True
  | _ => False

/-- The call prepares or publishes no other effect. -/
def Event.Concerns (effect : AcceptedSideEffect) (event : Event) : Prop :=
  ∀ e, e ≠ effect → event.prepares e = false ∧ event.publishes e = false

/-- A clean-up call neither prepares nor publishes. -/
lemma Event.Resolves.quiet {event : Event} (h : event.Resolves) (effect : AcceptedSideEffect) :
    event.prepares effect = false ∧ event.publishes effect = false := by
  cases event <;> first | exact ⟨rfl, rfl⟩ | exact absurd h id

/-- Calls that do not concern an effect leave its counts. -/
lemma Extends.counts {p : Event → Prop} {log log' : List Event} {effect : AcceptedSideEffect}
    (h : Extends p log log')
    (hp : ∀ e, p e → e.prepares effect = false ∧ e.publishes effect = false) :
    preparations log' effect = preparations log effect ∧
      publications log' effect = publications log effect := by
  obtain ⟨events, rfl, hevents⟩ := h
  have hprepares : events.countP (Event.prepares effect) = 0 :=
    List.countP_eq_zero.mpr fun e he => by simp [(hp e (hevents e he)).1]
  have hpublishes : events.countP (Event.publishes effect) = 0 :=
    List.countP_eq_zero.mpr fun e he => by simp [(hp e (hevents e he)).2]
  constructor
  · rw [preparations, List.countP_append, hprepares]
    rfl
  · rw [publications, List.countP_append, hpublishes]
    rfl

end Pops.Consumers
