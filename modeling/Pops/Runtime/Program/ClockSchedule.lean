import Pops.Foundation.MachineInt
import Pops.Foundation.MixedRadix
import Pops.Foundation.OrderedMap

/-!
# Nested logical clocks

`ClockScheduleState` (`runtime/program/clock_schedule.hpp`) keeps a primary clock, the declared
relations between a parent clock and a child clock that ticks `count` times in every parent tick,
and a stack of active subcycle frames.  The tick of the active clock is recomputed from the frames
(`activeTick`), the number of ticks per macro step from the relations (`ticksPerMacro`).

An operation that throws may have changed the state before: `declare_relation` installs the
relation and validates it afterwards.  Every operation therefore returns the state that it leaves
together with its outcome.

## Main definitions

* `Pops.Clocks.ClockScheduleState` — the state.
* `Pops.Clocks.ticksPerMacro`, `activeTick` — the two views of a clock.
* `Pops.Clocks.Operation`, `step`, `run` — runs of operations.
* `Pops.Clocks.coordinate`, `acceptedTicks` — the queries.
-/

namespace Pops.Clocks

/-- `Relation`: the parent of a clock, and its ticks in one tick of the parent. -/
structure Relation where
  parent : String
  count : ℤ
  deriving DecidableEq, Repr

/-- `Frame`: an active subcycle. -/
structure Frame where
  parent : String
  child : String
  count : ℤ
  next : ℤ
  deriving DecidableEq, Repr

/-- `ClockScheduleState`.  The last frame is the innermost one. -/
structure ClockScheduleState where
  primary : String
  relations : List (String × Relation)
  frames : List Frame
  deriving DecidableEq, Repr

/-- A new `ClockScheduleState`. -/
def initial : ClockScheduleState := ⟨"", [], []⟩

/-- The relation of a clock to its parent. -/
def ClockScheduleState.relation (s : ClockScheduleState) (clock : String) : Option Relation :=
  OrderedMap.lookup s.relations clock

/-- `checked_multiply_`: the product of two counts, refused beyond 64 bits. -/
def checkedMultiply (a b : ℤ) : Throws ℤ := do
  throwIf (a < 0 ∨ b ≤ 0 ∨ (a ≠ 0 ∧ b > int64Max / a)) (runtimeError "logical-clock tick overflow")
  pure (a * b)

/-- `checked_add_`: the sum of two counts, refused beyond 64 bits. -/
def checkedAdd (a b : ℤ) : Throws ℤ := do
  throwIf (a < 0 ∨ b < 0 ∨ b > int64Max - a) (runtimeError "logical-clock tick overflow")
  pure (a + b)

/-- The installed clocks that have not been visited. -/
def unvisited (s : ClockScheduleState) (visiting : List String) : List (String × Relation) :=
  s.relations.filter fun entry => entry.1 ∉ visiting

/-- Visiting one more installed clock leaves fewer. -/
lemma length_unvisited_lt {s : ClockScheduleState} {visiting : List String} {clock : String}
    {r : Relation} (hclock : clock ∉ visiting) (hr : s.relation clock = some r) :
    (unvisited s (clock :: visiting)).length < (unvisited s visiting).length := by
  have hmem : (clock, r) ∈ unvisited s visiting :=
    List.mem_filter.mpr ⟨OrderedMap.mem_of_lookup hr, by simpa using hclock⟩
  have hfilter : unvisited s (clock :: visiting) =
      (unvisited s visiting).filter fun entry => entry.1 ≠ clock := by
    simp only [unvisited, List.filter_filter]
    refine List.filter_congr fun entry _ => ?_
    by_cases h : entry.1 = clock <;> simp [h]
  rw [hfilter]
  refine List.length_filter_lt_length_iff_exists.mpr ⟨(clock, r), hmem, by simp⟩

/-- `ticks_per_macro_`: the ticks of a clock in one macro step, along its chain of parents. -/
def ticksPerMacroFrom (s : ClockScheduleState) (clock : String) (visiting : List String) :
    Throws ℤ :=
  if clock = "" ∨ s.primary = "" then
    .error (runtimeError "logical-clock schedule is not configured")
  else if clock = s.primary then .ok 1
  else if _hclock : clock ∈ visiting then .error (runtimeError "logical-clock relation cycle")
  else
    match _hr : s.relation clock with
    | none =>
      .error (runtimeError "logical clock is absent from the installed relation graph")
    | some r => do
      let ticks ← ticksPerMacroFrom s r.parent (clock :: visiting)
      checkedMultiply ticks r.count
termination_by (unvisited s visiting).length
decreasing_by exact length_unvisited_lt _hclock _hr

/-- `ticks_per_macro`: the same from an empty path. -/
def ticksPerMacro (s : ClockScheduleState) (clock : String) : Throws ℤ :=
  ticksPerMacroFrom s clock []

/-! ## Operations -/

/-- `configure_primary_clock`: name the clock that ticks once per macro step; the name cannot
change. -/
def configurePrimaryClock (s : ClockScheduleState) (clock : String) :
    ClockScheduleState × Throws Unit :=
  if clock = "" then
    (s, .error (runtimeError "logical-clock primary identity must be non-empty"))
  else if s.primary ≠ "" ∧ s.primary ≠ clock then
    (s, .error (runtimeError "logical-clock primary identity changed after installation"))
  else (⟨clock, s.relations, s.frames⟩, .ok ())

/-- The test of a parent, a child and a count that precedes every declaration. -/
def InvalidDescriptor (parent child : String) (count : ℤ) : Prop :=
  parent = "" ∨ child = "" ∨ parent = child ∨ count ≤ 0

instance (parent child : String) (count : ℤ) : Decidable (InvalidDescriptor parent child count) :=
  inferInstanceAs (Decidable (_ ∨ _))

/-- The child has been declared with another parent or count. -/
def Conflicts (s : ClockScheduleState) (child : String) (relation : Relation) : Prop :=
  ∃ found, s.relation child = some found ∧ found ≠ relation

instance (s : ClockScheduleState) (child : String) (relation : Relation) :
    Decidable (Conflicts s child relation) :=
  match h : s.relation child with
  | none => isFalse fun ⟨_, hfound, _⟩ => by simp [h] at hfound
  | some found =>
    if heq : found = relation then
      isFalse fun ⟨_, hfound, hne⟩ => hne (Option.some.inj (h.symm.trans hfound) ▸ heq)
    else isTrue ⟨found, h, heq⟩

/-- The state with a relation installed. -/
def install (s : ClockScheduleState) (child : String) (relation : Relation) :
    ClockScheduleState :=
  ⟨s.primary, OrderedMap.assign s.relations child relation, s.frames⟩

/-- Installing the relation of a clock changes the relation of that clock only. -/
@[simp] lemma relation_install {s : ClockScheduleState} (child : String) (r : Relation)
    (clock : String) :
    (install s child r).relation clock = if child = clock then some r else s.relation clock := by
  simp [install, ClockScheduleState.relation]

/-- `declare_relation`.  The relation is installed before it is validated, and it stays when the
validation throws. -/
def declareRelation (s : ClockScheduleState) (parent child : String) (count : ℤ) :
    ClockScheduleState × Throws Unit :=
  if InvalidDescriptor parent child count then
    (s, .error (runtimeError "invalid logical-clock subcycle descriptor"))
  else if Conflicts s child ⟨parent, count⟩ then
    (s, .error (runtimeError "logical child clock has conflicting parent/count declarations"))
  else
    (install s child ⟨parent, count⟩, do
      let _ ← ticksPerMacro (install s child ⟨parent, count⟩) child
      pure ())

/-- The active clock: the child of the innermost frame, or the primary clock. -/
def activeClock (s : ClockScheduleState) : String :=
  match s.frames.getLast? with
  | none => s.primary
  | some frame => frame.child

/-- The state with one more frame. -/
def pushFrame (s : ClockScheduleState) (frame : Frame) : ClockScheduleState :=
  ⟨s.primary, s.relations, s.frames ++ [frame]⟩

/-- `begin_`, the constructor of a `SubcycleScope`. -/
def beginScope (s : ClockScheduleState) (parent child : String) (count : ℤ) :
    ClockScheduleState × Throws Unit :=
  match declareRelation s parent child count with
  | (s', .error e) => (s', .error e)
  | (s', .ok ()) =>
    if activeClock s' ≠ parent then
      (s', .error (runtimeError
        "nested logical-clock subcycle parent does not match the active child clock"))
    else (pushFrame s' ⟨parent, child, count, 0⟩, .ok ())

/-- `frame_`: the innermost frame, for the scope at its depth only. -/
def frameAt (s : ClockScheduleState) (depth : ℕ) : Throws Frame :=
  match s.frames.getLast? with
  | none => .error (runtimeError "logical-clock subcycle scopes must close in stack order")
  | some frame =>
    if depth ≠ s.frames.length - 1 then
      .error (runtimeError "logical-clock subcycle scopes must close in stack order")
    else .ok frame

/-- The state without the innermost frame. -/
def popFrame (s : ClockScheduleState) : ClockScheduleState :=
  ⟨s.primary, s.relations, s.frames.dropLast⟩

/-- `iteration_`: enter an iteration of an open scope and publish its tick. -/
def iteration (s : ClockScheduleState) (depth : ℕ) (index : ℤ) :
    ClockScheduleState × Throws Unit :=
  match frameAt s depth with
  | .error e => (s, .error e)
  | .ok frame =>
    if index ≠ frame.next ∨ index < 0 ∨ index ≥ frame.count then
      (s, .error (runtimeError "logical-clock subcycle iteration cursor is not sequential"))
    else
      (pushFrame (popFrame s) ⟨frame.parent, frame.child, frame.count, frame.next + 1⟩, .ok ())

/-- `finish_`: close a scope after its last iteration. -/
def finishScope (s : ClockScheduleState) (depth : ℕ) : ClockScheduleState × Throws Unit :=
  match frameAt s depth with
  | .error e => (s, .error e)
  | .ok frame =>
    if frame.next ≠ frame.count then
      (s, .error (runtimeError
        "logical-clock subcycle ended before all child ticks completed"))
    else (popFrame s, .ok ())

/-- `abort_`: close the innermost scope without checks. -/
def abortScope (s : ClockScheduleState) (depth : ℕ) : ClockScheduleState :=
  if s.frames ≠ [] ∧ depth = s.frames.length - 1 then popFrame s else s

/-- The calls that change a `ClockScheduleState`. -/
inductive Operation
  | configure (clock : String)
  | declare (parent child : String) (count : ℤ)
  | beginScope (parent child : String) (count : ℤ)
  | iteration (depth : ℕ) (index : ℤ)
  | finishScope (depth : ℕ)
  | abortScope (depth : ℕ)
  deriving DecidableEq, Repr

/-- One call: the state that it leaves, and whether it returned. -/
def step (s : ClockScheduleState) : Operation → ClockScheduleState × Throws Unit
  | .configure clock => configurePrimaryClock s clock
  | .declare parent child count => declareRelation s parent child count
  | .beginScope parent child count => beginScope s parent child count
  | .iteration depth index => iteration s depth index
  | .finishScope depth => finishScope s depth
  | .abortScope depth => (abortScope s depth, .ok ())

/-- A run: the state after a list of calls, whether or not some of them threw. -/
def run (s : ClockScheduleState) (operations : List Operation) : ClockScheduleState :=
  operations.foldl (fun s operation => (step s operation).1) s

/-! ## Queries -/

/-- One frame in the loop of `active_tick_`: the active clock and the tick after the frame. -/
def tickStep (active : String × ℤ) (frame : Frame) : Throws (String × ℤ) := do
  throwIf (frame.parent ≠ active.1 ∨ frame.next ≤ 0 ∨ frame.next > frame.count)
    (runtimeError "logical-clock active subcycle cursor is invalid")
  let scaled ← checkedMultiply active.2 frame.count
  let tick ← checkedAdd scaled (frame.next - 1)
  pure (frame.child, tick)

/-- `active_tick_`: the tick of a clock, if the innermost scope runs on it. -/
def activeTick (s : ClockScheduleState) (clock : String) (macroStep : ℤ) : Throws (Option ℤ) := do
  throwIf (macroStep < 0 ∨ s.primary = "")
    (runtimeError "logical-clock coordinate requires a configured accepted step")
  let last ← s.frames.foldlM tickStep (s.primary, macroStep)
  pure (if last.1 ≠ clock then none else some last.2)

/-- `ScheduleDomainKind`: what a schedule counts. -/
inductive ScheduleDomainKind
  | acceptedStep
  | stage
  | clockTick
  | amrLevel
  deriving DecidableEq, Repr

/-- The coordinate of a kind, once the tick of the active clock is known. -/
def coordinateOf (kind : ScheduleDomainKind) (stageIdentity : String)
    (requiredLevel currentLevel macroStep tick : ℤ) : Throws (Option ℤ) :=
  match kind with
  | .acceptedStep => do
    throwIf (stageIdentity ≠ "" ∨ requiredLevel ≠ -1)
      (runtimeError "accepted-step schedule carries foreign domain payload")
    pure (some macroStep)
  | .stage => do
    throwIf (stageIdentity = "" ∨ requiredLevel ≠ -1)
      (runtimeError "stage schedule lacks its exact stage identity")
    pure (some macroStep)
  | .clockTick => do
    throwIf (stageIdentity ≠ "" ∨ requiredLevel ≠ -1)
      (runtimeError "clock-tick schedule carries foreign domain payload")
    pure (some tick)
  | .amrLevel => do
    throwIf (stageIdentity ≠ "" ∨ requiredLevel < 0)
      (runtimeError "AMR-level schedule lacks its exact level")
    pure (if currentLevel ≠ requiredLevel then none else some tick)

/-- `coordinate`: the coordinate of a schedule, if its clock is the running one. -/
def coordinate (s : ClockScheduleState) (kind : ScheduleDomainKind) (clock stageIdentity : String)
    (requiredLevel currentLevel macroStep : ℤ) : Throws (Option ℤ) := do
  let tick ← activeTick s clock macroStep
  match tick with
  | none => pure none
  | some tick => coordinateOf kind stageIdentity requiredLevel currentLevel macroStep tick

/-- One relation in the loop of `accepted_ticks`. -/
def acceptRelation (s : ClockScheduleState) (macroStep : ℤ) (result : List (String × ℤ))
    (entry : String × Relation) : Throws (List (String × ℤ)) := do
  let ticks ← ticksPerMacro s entry.1
  let value ← checkedMultiply macroStep ticks
  pure (OrderedMap.emplace result entry.1 value)

/-- `accepted_ticks`: the tick of every clock after the given macro steps. -/
def acceptedTicks (s : ClockScheduleState) (macroStep : ℤ) : Throws (List (String × ℤ)) := do
  throwIf (s.primary = "") (runtimeError "logical-clock schedule has no primary clock")
  let ticks ← ticksPerMacro s s.primary
  let value ← checkedMultiply macroStep ticks
  s.relations.foldlM (acceptRelation s macroStep) (OrderedMap.emplace [] s.primary value)

end Pops.Clocks
