import Pops.Runtime.Program.ClockSchedule

/-!
# Failed clock operations

What a call on a `ClockScheduleState` leaves behind when it throws.  `iteration`, `finish` and
`restore_accepted_ticks` check before they change anything.  `declare_relation` installs the
relation before it looks for a path to the primary clock, and `subcycle` declares its relation
before it compares the active clock, so a rejected call on a clock that was not declared leaves it
declared.

## Main definitions

* `Pops.Clocks.Members` — the members of a `ClockScheduleState`, with the restored ticks.
* `Pops.Clocks.Call` — the calls.
* `Pops.Clocks.Call.Harmless` — the calls that cannot leave anything behind.

## Main results

* `Pops.Clocks.failedCall_unchanged_iff` — which failed calls change nothing.
-/

namespace Pops.Clocks

/-- The members of `ClockScheduleState`: primary clock, relations and frames, and `accepted_ticks_`.
-/
structure Members where
  state : ClockScheduleState
  acceptedTicks : List (String × ℤ)
  deriving DecidableEq

/-- The calls that may throw.  A scope whose owner was moved away or that has finished is not live.
-/
inductive Call
  | declareRelation (parent child : String) (count : ℤ)
  | subcycle (parent child : String) (count : ℤ)
  | iteration (live : Bool) (depth : ℕ) (index : ℤ)
  | finish (live : Bool) (depth : ℕ)
  | restoreAcceptedTicks (ticks : List (String × ℤ)) (macroStep : ℤ)
  deriving DecidableEq

/-- A call on a scope, after `require_live_`. -/
def onScope (m : Members) (live : Bool) (call : ClockScheduleState × Throws Unit) :
    Members × Throws Unit :=
  if live = false then
    (m, .error (runtimeError "logical-clock subcycle scope is no longer active"))
  else ({ m with state := call.1 }, call.2)

/-- `restore_accepted_ticks`: restore every clock from the ticks of an image, in order. -/
def restoreAcceptedTicks (m : Members) (ticks : List (String × ℤ)) (macroStep : ℤ) :
    Members × Throws Unit :=
  match acceptedTicks m.state macroStep with
  | .error e => (m, .error e)
  | .ok expected =>
    if ticks ≠ expected then
      (m, .error (runtimeError
        "restored logical-clock ticks differ from the installed clock relations"))
    else ({ m with acceptedTicks := ticks }, .ok ())

/-- One call: the members that it leaves, and whether it returned. -/
def Call.run (m : Members) : Call → Members × Throws Unit
  | .declareRelation parent child count =>
    let result := Clocks.declareRelation m.state parent child count
    ({ m with state := result.1 }, result.2)
  | .subcycle parent child count =>
    let result := beginScope m.state parent child count
    ({ m with state := result.1 }, result.2)
  | .iteration live depth index => onScope m live (Clocks.iteration m.state depth index)
  | .finish live depth => onScope m live (finishScope m.state depth)
  | .restoreAcceptedTicks ticks macroStep => Clocks.restoreAcceptedTicks m ticks macroStep

/-- A declaration is rejected before the relation is installed, or the child has been declared. -/
def Refused (s : ClockScheduleState) (parent child : String) (count : ℤ) : Prop :=
  InvalidDescriptor parent child count ∨ (s.relation child).isSome = true

/-- The calls that leave nothing behind when they throw. -/
def Call.Harmless (m : Members) : Call → Prop
  | .declareRelation parent child count => Refused m.state parent child count
  | .subcycle parent child count => Refused m.state parent child count
  | _ => True

section Declare

variable {s : ClockScheduleState} {parent child : String} {count : ℤ}

/-- Installing the relation that a clock has changes nothing. -/
lemma install_of_relation (hsorted : OrderedMap.Sorted s.relations) {relation : Relation}
    (h : s.relation child = some relation) : install s child relation = s := by
  simp only [install, OrderedMap.assign_of_lookup hsorted h]

/-- The relation of a declared clock that does not conflict is the declared one. -/
lemma relation_of_not_conflicts {relation : Relation} (h : ¬Conflicts s child relation)
    (hsome : (s.relation child).isSome = true) : s.relation child = some relation := by
  obtain ⟨found, hfound⟩ := Option.isSome_iff_exists.mp hsome
  rw [hfound]
  by_contra hne
  exact h ⟨found, hfound, fun heq => hne (by rw [heq])⟩

/-- What `declare_relation` leaves: the state as it was, or the relation of a clock that was not
declared. -/
lemma declareRelation_cases (hsorted : OrderedMap.Sorted s.relations) (parent child : String)
    (count : ℤ) :
    Refused s parent child count ∧ (declareRelation s parent child count).1 = s ∨
      ¬Refused s parent child count ∧
        (declareRelation s parent child count).1 = install s child ⟨parent, count⟩ := by
  unfold declareRelation
  by_cases hinvalid : InvalidDescriptor parent child count
  · rw [if_pos hinvalid]
    exact .inl ⟨.inl hinvalid, rfl⟩
  rw [if_neg hinvalid]
  by_cases hconflict : Conflicts s child ⟨parent, count⟩
  · rw [if_pos hconflict]
    obtain ⟨found, hfound, -⟩ := hconflict
    exact .inl ⟨.inr (by simp [hfound]), rfl⟩
  rw [if_neg hconflict]
  by_cases hsome : (s.relation child).isSome = true
  · exact .inl ⟨.inr hsome, install_of_relation hsorted (relation_of_not_conflicts hconflict hsome)⟩
  · refine .inr ⟨?_, rfl⟩
    rintro (h | h)
    · exact hinvalid h
    · exact hsome h

/-- A state in which a clock was not declared is not the one in which it is. -/
lemma install_ne (h : ¬Refused s parent child count) : install s child ⟨parent, count⟩ ≠ s := by
  intro heq
  refine h (.inr ?_)
  rw [← heq]
  simp

/-- `declare_relation` changes nothing exactly when the declaration is refused at once or repeats an
earlier one. -/
lemma declareRelation_unchanged_iff (hsorted : OrderedMap.Sorted s.relations) :
    (declareRelation s parent child count).1 = s ↔ Refused s parent child count := by
  rcases declareRelation_cases hsorted parent child count with
    ⟨hrefused, hstate⟩ | ⟨hrefused, hstate⟩
  · exact iff_of_true hstate hrefused
  · rw [hstate]
    exact iff_of_false (install_ne hrefused) hrefused

/-- A `subcycle` that throws leaves what its declaration leaves. -/
lemma beginScope_error {e : Exception} (h : (beginScope s parent child count).2 = .error e) :
    (beginScope s parent child count).1 = (declareRelation s parent child count).1 := by
  unfold beginScope at h ⊢
  rcases hdeclare : declareRelation s parent child count with ⟨s', _ | _⟩
  · rfl
  · rw [hdeclare] at h
    dsimp only at h ⊢
    split_ifs at h ⊢ with hactive
    rfl

end Declare

/-- An iteration that throws changes nothing. -/
lemma iteration_error {s : ClockScheduleState} {depth : ℕ} {index : ℤ} {e : Exception}
    (h : (iteration s depth index).2 = .error e) : (iteration s depth index).1 = s := by
  unfold iteration at h ⊢
  cases hframe : frameAt s depth with
  | error _ => rfl
  | ok frame =>
    rw [hframe] at h
    dsimp only at h ⊢
    split_ifs at h ⊢ with hcursor
    rfl

/-- The end of a scope that throws changes nothing. -/
lemma finishScope_error {s : ClockScheduleState} {depth : ℕ} {e : Exception}
    (h : (finishScope s depth).2 = .error e) : (finishScope s depth).1 = s := by
  unfold finishScope at h ⊢
  cases hframe : frameAt s depth with
  | error _ => rfl
  | ok frame =>
    rw [hframe] at h
    dsimp only at h ⊢
    split_ifs at h ⊢ with hcursor
    rfl

/-- A call on a scope that throws changes nothing, if the call itself does not. -/
lemma onScope_error {m : Members} {live : Bool} {call : ClockScheduleState × Throws Unit}
    {e : Exception} (hcall : call.2 = .error e → call.1 = m.state)
    (h : (onScope m live call).2 = .error e) : (onScope m live call).1 = m := by
  unfold onScope at h ⊢
  split_ifs at h ⊢ with hlive
  · rfl
  · dsimp only
    rw [hcall h]

/-- Ticks that are not restored change nothing. -/
lemma restoreAcceptedTicks_error {m : Members} {ticks : List (String × ℤ)} {macroStep : ℤ}
    {e : Exception} (h : (restoreAcceptedTicks m ticks macroStep).2 = .error e) :
    (restoreAcceptedTicks m ticks macroStep).1 = m := by
  unfold restoreAcceptedTicks at h ⊢
  cases hticks : acceptedTicks m.state macroStep with
  | error _ => rfl
  | ok expected =>
    rw [hticks] at h
    dsimp only at h ⊢
    split_ifs at h ⊢ with hdiffer
    rfl

/-- **Which failed calls change nothing**: all calls of `iteration`, `finish` and
`restore_accepted_ticks`, and those of `declare_relation` and `subcycle` with an invalid descriptor
or a child clock that was declared before; no other failed call leaves the members as they were. -/
theorem failedCall_unchanged_iff (m : Members) (hsorted : OrderedMap.Sorted m.state.relations)
    (call : Call) {e : Exception} (h : (call.run m).2 = .error e) :
    (call.run m).1 = m ↔ call.Harmless m := by
  cases call with
  | declareRelation parent child count =>
    have hmembers : (Call.run m (.declareRelation parent child count)).1 = m ↔
        (declareRelation m.state parent child count).1 = m.state := by
      constructor
      · intro heq
        exact congrArg Members.state heq
      · intro heq
        simp only [Call.run, heq]
    rw [hmembers, declareRelation_unchanged_iff hsorted]
    rfl
  | subcycle parent child count =>
    have hmembers : (Call.run m (.subcycle parent child count)).1 = m ↔
        (beginScope m.state parent child count).1 = m.state := by
      constructor
      · intro heq
        exact congrArg Members.state heq
      · intro heq
        simp only [Call.run, heq]
    rw [hmembers, beginScope_error h, declareRelation_unchanged_iff hsorted]
    rfl
  | iteration live depth index => exact iff_of_true (onScope_error iteration_error h) trivial
  | finish live depth => exact iff_of_true (onScope_error finishScope_error h) trivial
  | restoreAcceptedTicks ticks macroStep =>
    exact iff_of_true (restoreAcceptedTicks_error h) trivial

/-- A clock with two ticks in a macro step, within its second tick, and ticks accepted after three
macro steps. -/
def withinFine : Members :=
  ⟨⟨"macro", [("fine", ⟨"macro", 2⟩)], [⟨"macro", "fine", 2, 1⟩]⟩, [("fine", 6), ("macro", 3)]⟩

/-- A declaration of a declared clock with another number of ticks throws and changes nothing. -/
theorem conflictingDeclaration_unchanged :
    ((Call.declareRelation "macro" "fine" 3).run withinFine).1 = withinFine ↔
      (Call.declareRelation "macro" "fine" 3).Harmless withinFine :=
  failedCall_unchanged_iff withinFine (List.pairwise_singleton _ _)
    (.declareRelation "macro" "fine" 3)
    (e := runtimeError "logical child clock has conflicting parent/count declarations") (by decide)

/-- A primary clock, and no relation. -/
def macroOnly : Members := ⟨⟨"macro", [], []⟩, []⟩

/-- A declaration under an unknown parent throws, and afterwards the valid declaration of the same
child clock and the accepted ticks throw, which both returned before. -/
theorem failedDeclaration_stays :
    ((Call.declareRelation "ghost" "fine" 2).run macroOnly).2.isOk = false ∧
      ((Call.declareRelation "ghost" "fine" 2).run macroOnly).1 ≠ macroOnly ∧
      ((Call.declareRelation "macro" "fine" 2).run macroOnly).2.isOk = true ∧
      ((Call.declareRelation "macro" "fine" 2).run
        ((Call.declareRelation "ghost" "fine" 2).run macroOnly).1).2.isOk = false ∧
      (acceptedTicks macroOnly.state 3).isOk = true ∧
      (acceptedTicks ((Call.declareRelation "ghost" "fine" 2).run macroOnly).1.state 3).isOk =
        false := by
  have hghost : ((Call.declareRelation "ghost" "fine" 2).run macroOnly).1 =
      ⟨⟨"macro", [("fine", ⟨"ghost", 2⟩)], []⟩, []⟩ := by decide
  rw [hghost]
  refine ⟨?_, by decide, ?_, by decide, ?_, ?_⟩
  all_goals
    simp [Call.run, declareRelation, InvalidDescriptor, Conflicts, macroOnly, acceptedTicks,
      acceptRelation, ticksPerMacro, ticksPerMacroFrom, install, ClockScheduleState.relation,
      OrderedMap.lookup, OrderedMap.assign, OrderedMap.emplace, checkedMultiply, throwIf, int64Max]
    try rfl

end Pops.Clocks
