import Pops.Amr.Levels.ClockRelation

/-!
# Recursive subcycling

`advance` of the multi-block AMR subcycling engine: a level is advanced over its window, its child
level over the windows of the partition one after the other, and then the fluxes of every block are
refluxed into the level and the child level is averaged down onto it.

What the engine does to the fields is a sequence of operations, each of which may throw; the trace
of an advance is the list of the operations it performed.  Whether an operation throws is decided by
an arbitrary function of the operations before it.

## Main definitions

* `Pops.Operation` — the operations on the levels.
* `Pops.Engine.advanceLevelRecursive`, `advance` — the engine.
* `Pops.Engine.BracketsWindow` — the operations of the finer levels in a window stand between the
  callback of the window and its synchronization.

## Main results

* `Pops.Engine.advanceLevelRecursive_segment` — what an advance performs, as a derivation.
* `Pops.subcycling_partitions_macro_step` — every level is visited on an exact partition of the
  macro step, and synchronized finest first.
-/

namespace Pops

/-- An operation of the engine on a level, or on a block of a level, over a window of that level. -/
inductive Operation (τ : Type)
  /-- The level callback. -/
  | advanceLevel (level : ℕ) (substep : ℕ) (window : ClockWindow τ)
  /-- Interpolation of the level at the start of a child window. -/
  | stageParent (level : ℕ) (window : ClockWindow τ) (target : ClockStamp τ)
  /-- Commit of the flux ledger of a block. -/
  | commitFlux (level block : ℕ) (window : ClockWindow τ)
  /-- The reflux callback of a block. -/
  | reflux (level block : ℕ) (window : ClockWindow τ)
  /-- Average-down of a block from the child level onto the level. -/
  | averageDown (level block : ℕ) (window : ClockWindow τ)
  /-- Preparation of the accepted record of a block. -/
  | prepareRecord (level block : ℕ) (window : ClockWindow τ)

namespace Operation

variable {τ : Type}

/-- The level of an operation. -/
def level : Operation τ → ℕ
  | advanceLevel level _ _ => level
  | stageParent level _ _ => level
  | commitFlux level _ _ => level
  | reflux level _ _ => level
  | averageDown level _ _ => level
  | prepareRecord level _ _ => level

/-- The window of an operation. -/
def window : Operation τ → ClockWindow τ
  | advanceLevel _ _ window => window
  | stageParent _ window _ => window
  | commitFlux _ _ window => window
  | reflux _ _ window => window
  | averageDown _ _ window => window
  | prepareRecord _ _ window => window

/-- The window of a callback of the level. -/
def callbackWindow (level : ℕ) : Operation τ → Option (ClockWindow τ)
  | advanceLevel level' _ window => if level' = level then some window else none
  | _ => none

/-- The operation refluxes or averages down. -/
def synchronizes : Operation τ → Bool
  | reflux _ _ _ => true
  | averageDown _ _ _ => true
  | _ => false

end Operation

/-- The windows that the callback of a level was given, in order. -/
def callbackWindows {τ : Type} (level : ℕ) (trace : List (Operation τ)) : List (ClockWindow τ) :=
  trace.filterMap (Operation.callbackWindow level)

/-- An engine prepared on a hierarchy: the number of its blocks, the relations of its levels and
the outcome of its operations after those already performed. -/
structure Engine (τ : Type) where
  time : PhysicalTime τ
  blockCount : ℕ
  relations : List ParentChildClockRelation
  outcome : List (Operation τ) → Operation τ → Throws Unit

namespace Engine

variable {τ : Type} (engine : Engine τ)

/-- Perform one operation. -/
def perform (operation : Operation τ) (trace : List (Operation τ)) :
    Throws (List (Operation τ)) := do
  engine.outcome trace operation
  pure (trace ++ [operation])

/-- Reflux a block, average it down and prepare its record. -/
def synchronizeBlock (level : ℕ) (window : ClockWindow τ) (trace : List (Operation τ))
    (block : ℕ) : Throws (List (Operation τ)) := do
  let trace ← engine.perform (.reflux level block window) trace
  let trace ← engine.perform (.averageDown level block window) trace
  engine.perform (.prepareRecord level block window) trace

/-- Advance a level over a window, and with it all finer levels.  The relations are those from the
level on. -/
def advanceLevelRecursive : List ParentChildClockRelation → ℕ → ClockWindow τ → ℕ →
    List (Operation τ) → Throws (List (Operation τ))
  | [], level, window, substep, trace =>
    engine.perform (.advanceLevel level substep window) trace
  | relation :: finer, level, window, substep, trace => do
    let trace ← engine.perform (.advanceLevel level substep window) trace
    let children ← relation.partition engine.time window
    let trace ← children.zipIdx.foldlM (fun trace child => do
      let trace ← engine.perform (.stageParent level window child.1.window.begin) trace
      advanceLevelRecursive finer (level + 1) child.1.window child.2 trace) trace
    let trace ← (List.range engine.blockCount).foldlM
      (fun trace block => engine.perform (.commitFlux level block window) trace) trace
    (List.range engine.blockCount).foldlM (engine.synchronizeBlock level window) trace

/-- Advance the hierarchy over a root window. -/
def advance (root : ClockWindow τ) : Throws (List (Operation τ)) := do
  throwIf (root.begin.level ≠ 0 ∨ root.end.level ≠ 0 ∨
      root.begin.macroStep ≠ root.end.macroStep ∨ root.begin.phase.rational.denominator ≤ 0 ∨
      root.end.phase.rational.denominator ≤ 0 ∨ ¬ root.begin.phase.less root.end.phase ∨
      ¬ engine.time.isFinite root.begin.physicalTime ∨
      ¬ engine.time.isFinite root.end.physicalTime ∨
      ¬ engine.time.less root.begin.physicalTime root.end.physicalTime)
    (invalidArgument "multi-block AMR root clock window is invalid")
  engine.advanceLevelRecursive engine.relations 0 root 0 []

/-! ## The operations of an advance -/

/-- The child windows of a window; none when the partition throws. -/
def children (relation : ParentChildClockRelation) (window : ClockWindow τ) :
    List (ChildSubstep τ) :=
  (relation.partition engine.time window).toOption.getD []

/-- The operations after the child level: all commits, then block by block. -/
def synchronization (level : ℕ) (window : ClockWindow τ) : List (Operation τ) :=
  (List.range engine.blockCount).map (fun block => .commitFlux level block window) ++
    (List.range engine.blockCount).flatMap fun block =>
      [.reflux level block window, .averageDown level block window,
        .prepareRecord level block window]

/-- The operations of an advance of a level over a window in which nothing throws. -/
def segment : List ParentChildClockRelation → ℕ → ClockWindow τ → ℕ → List (Operation τ)
  | [], level, window, substep => [.advanceLevel level substep window]
  | relation :: finer, level, window, substep =>
    .advanceLevel level substep window ::
      ((engine.children relation window).zipIdx.flatMap (fun child =>
        .stageParent level window child.1.window.begin ::
          segment finer (level + 1) child.1.window child.2) ++
      engine.synchronization level window)

/-- The operations of one child window. -/
def childOperations (finer : List ParentChildClockRelation) (level : ℕ) (window : ClockWindow τ)
    (child : ChildSubstep τ × ℕ) : List (Operation τ) :=
  .stageParent level window child.1.window.begin ::
    engine.segment finer (level + 1) child.1.window child.2

/-- The operations of a level with a finer one: the callback, the child windows one after the
other, and the synchronization. -/
lemma segment_cons (relation : ParentChildClockRelation) (finer : List ParentChildClockRelation)
    (level : ℕ) (window : ClockWindow τ) (substep : ℕ) :
    engine.segment (relation :: finer) level window substep =
      .advanceLevel level substep window ::
        ((engine.children relation window).zipIdx.flatMap
          (engine.childOperations finer level window) ++ engine.synchronization level window) :=
  rfl

/-- Every window of the advance is split as its relation says. -/
def Subdivided : List ParentChildClockRelation → ClockWindow τ → Prop
  | [], _ => True
  | relation :: finer, window =>
    relation.Splits window (engine.children relation window) ∧
      ∀ child ∈ engine.children relation window, Subdivided finer child.window

/-- A performed operation is appended to the trace. -/
lemma perform_eq_ok {operation : Operation τ} {trace trace' : List (Operation τ)}
    (h : engine.perform operation trace = .ok trace') : trace' = trace ++ [operation] := by
  simp only [perform, bind_eq_ok, pure_eq_ok] at h
  obtain ⟨_, -, rfl⟩ := h
  rfl

/-- The operations on one block. -/
lemma synchronizeBlock_eq_ok {level block : ℕ} {window : ClockWindow τ}
    {trace trace' : List (Operation τ)}
    (h : engine.synchronizeBlock level window trace block = .ok trace') :
    trace' = trace ++ [.reflux level block window, .averageDown level block window,
      .prepareRecord level block window] := by
  simp only [synchronizeBlock, bind_eq_ok] at h
  obtain ⟨t₁, h₁, t₂, h₂, h₃⟩ := h
  rw [engine.perform_eq_ok h₃, engine.perform_eq_ok h₂, engine.perform_eq_ok h₁]
  simp

/-- **The operations of an advance that returns** are those of its segment, and every window it
visits is split. -/
theorem advanceLevelRecursive_segment : ∀ {relations : List ParentChildClockRelation} {level : ℕ}
    {window : ClockWindow τ} {substep : ℕ} {trace trace' : List (Operation τ)},
    engine.advanceLevelRecursive relations level window substep trace = .ok trace' →
      trace' = trace ++ engine.segment relations level window substep ∧
        engine.Subdivided relations window := by
  intro relations
  induction relations with
  | nil =>
    intro level window substep trace trace' h
    exact ⟨engine.perform_eq_ok h, trivial⟩
  | cons relation finer ih =>
    intro level window substep trace trace' h
    simp only [advanceLevelRecursive, bind_eq_ok] at h
    obtain ⟨t₁, hcallback, children, hpartition, t₂, hchildren, t₃, hcommit, hsync⟩ := h
    have hchildren_eq : engine.children relation window = children := by
      rw [Engine.children, hpartition]
      rfl
    -- each loop appends the operations of its rounds
    obtain ⟨ht₂, hsub⟩ := foldlM_collect (g := engine.childOperations finer level window)
      (Q := fun child => engine.Subdivided finer child.1.window) hchildren (by
        intro acc child r _ hround
        simp only [bind_eq_ok] at hround
        obtain ⟨t, hstage, hrec⟩ := hround
        obtain ⟨hr, hsub⟩ := ih hrec
        rw [engine.perform_eq_ok hstage] at hr
        exact ⟨by rw [hr, childOperations]; simp, hsub⟩)
    obtain ⟨ht₃, -⟩ := foldlM_collect (g := fun block : ℕ =>
        [Operation.commitFlux level block window]) (Q := fun _ => True) hcommit
      fun acc block r _ hround => ⟨engine.perform_eq_ok hround, trivial⟩
    obtain ⟨ht', -⟩ := foldlM_collect (g := fun block : ℕ =>
        [Operation.reflux level block window, .averageDown level block window,
          .prepareRecord level block window]) (Q := fun _ => True) hsync
      fun acc block r _ hround => ⟨engine.synchronizeBlock_eq_ok hround, trivial⟩
    refine ⟨?_, ?_, ?_⟩
    · rw [ht', ht₃, ht₂, engine.perform_eq_ok hcallback, segment_cons, hchildren_eq,
        synchronization, List.map_eq_flatMap]
      simp only [List.append_assoc, List.nil_append, List.cons_append]
    · rw [hchildren_eq]
      exact ParentChildClockRelation.partition_splits hpartition
    · intro child hchild
      rw [hchildren_eq] at hchild
      obtain ⟨i, hi⟩ := List.mem_iff_getElem?.mp hchild
      exact hsub (child, i) (List.mk_mem_zipIdx_iff_getElem?.mpr hi)

/-! ## Windows of the levels -/

section Windows

variable {engine} {relations : List ParentChildClockRelation} {level : ℕ} {window : ClockWindow τ}
  {substep : ℕ}

/-- The windows of a level in two traces one after the other. -/
@[simp] lemma callbackWindows_append (trace trace' : List (Operation τ)) :
    callbackWindows level (trace ++ trace') =
      callbackWindows level trace ++ callbackWindows level trace' :=
  List.filterMap_append

/-- No operation, no window. -/
@[simp] lemma callbackWindows_nil : callbackWindows level ([] : List (Operation τ)) = [] := rfl

/-- The first operation counts when it is a callback of the level. -/
lemma callbackWindows_cons (operation : Operation τ) (trace : List (Operation τ)) :
    callbackWindows level (operation :: trace) =
      (operation.callbackWindow level).toList ++ callbackWindows level trace := by
  rw [callbackWindows, List.filterMap_cons]
  cases operation.callbackWindow level <;> rfl

/-- The callbacks of a concatenation. -/
lemma callbackWindows_flatMap {α : Type} (l : List α) (f : α → List (Operation τ)) :
    callbackWindows level (l.flatMap f) = l.flatMap fun a => callbackWindows level (f a) :=
  List.filterMap_flatMap

/-- Synchronization calls no level callback. -/
lemma mem_synchronization {operation : Operation τ}
    (h : operation ∈ engine.synchronization level window) :
    operation.level = level ∧ operation.window = window ∧
      ∀ m, operation.callbackWindow m = none := by
  rcases List.mem_append.mp h with h | h
  · obtain ⟨block, -, rfl⟩ := List.mem_map.mp h
    exact ⟨rfl, rfl, fun _ => rfl⟩
  · obtain ⟨block, -, h⟩ := List.mem_flatMap.mp h
    simp only [List.mem_cons, List.not_mem_nil, or_false] at h
    rcases h with rfl | rfl | rfl <;> exact ⟨rfl, rfl, fun _ => rfl⟩

/-- A synchronization advances no level. -/
@[simp] lemma callbackWindows_synchronization (m : ℕ) :
    callbackWindows m (engine.synchronization level window) = [] := by
  rw [callbackWindows, List.filterMap_eq_nil_iff]
  exact fun operation h => (mem_synchronization h).2.2 m

/-- The numbered child windows tile the window. -/
lemma tiles_zipIdx {relation : ParentChildClockRelation}
    (h : relation.Splits window (engine.children relation window)) :
    Tiles (fun c : ChildSubstep τ × ℕ => c.1.window.lo) (fun c => c.1.window.hi) window.lo
      window.hi (engine.children relation window).zipIdx := by
  have htiles := h.tiles
  rw [← List.zipIdx_map_fst 0 (engine.children relation window)] at htiles
  exact Tiles.map_iff.mp htiles

/-- Every operation of an advance is on its level or a finer one and stays inside its window. -/
lemma segment_within : ∀ {level : ℕ} {window : ClockWindow τ} {substep : ℕ}
    {operation : Operation τ}, engine.Subdivided relations window →
    operation ∈ engine.segment relations level window substep →
      level ≤ operation.level ∧ window.lo ≤ operation.window.lo ∧
        operation.window.hi ≤ window.hi := by
  induction relations with
  | nil =>
    intro level window substep operation _ h
    obtain rfl := List.mem_singleton.mp h
    exact ⟨le_refl _, le_refl _, le_refl _⟩
  | cons relation finer ih =>
    intro level window substep operation hsub h
    rcases List.mem_cons.mp h with rfl | h
    · exact ⟨le_refl _, le_refl _, le_refl _⟩
    rcases List.mem_append.mp h with h | h
    · obtain ⟨child, hchild, h⟩ := List.mem_flatMap.mp h
      rcases List.mem_cons.mp h with rfl | h
      · exact ⟨le_refl _, le_refl _, le_refl _⟩
      · obtain ⟨hlo, -, hhi⟩ := (tiles_zipIdx hsub.1).mem hchild
        obtain ⟨h1, h2, h3⟩ := ih (hsub.2 _ (List.fst_mem_of_mem_zipIdx hchild)) h
        exact ⟨by omega, hlo.trans h2, h3.trans hhi⟩
    · obtain ⟨h1, h2, -⟩ := mem_synchronization h
      rw [h1, h2]
      exact ⟨le_refl _, le_refl _, le_refl _⟩

/-- The callbacks of the level of an advance: one, over its window. -/
lemma callbackWindows_segment_self (hsub : engine.Subdivided relations window) :
    callbackWindows level (engine.segment relations level window substep) = [window] := by
  cases relations with
  | nil => simp [segment, callbackWindows_cons, Operation.callbackWindow]
  | cons relation finer =>
    have hinner : ∀ child ∈ (engine.children relation window).zipIdx,
        callbackWindows level (engine.childOperations finer level window child) = [] := by
      intro child hchild
      rw [childOperations, callbackWindows_cons]
      refine List.filterMap_eq_nil_iff.mpr fun operation h => ?_
      have hlevel := (segment_within (hsub.2 _ (List.fst_mem_of_mem_zipIdx hchild)) h).1
      cases operation with
      | advanceLevel m =>
        have hne : m ≠ level := by
          simp only [Operation.level] at hlevel
          omega
        exact if_neg hne
      | _ => rfl
    rw [segment_cons, callbackWindows_cons, callbackWindows_append, callbackWindows_flatMap,
      List.flatMap_eq_nil_iff.mpr hinner, callbackWindows_synchronization]
    simp [Operation.callbackWindow]

/-- The callbacks of a finer level: those of the child windows, one after the other. -/
lemma callbackWindows_segment_finer {relation : ParentChildClockRelation}
    {finer : List ParentChildClockRelation} {m : ℕ} (hm : level < m) :
    callbackWindows m (engine.segment (relation :: finer) level window substep) =
      (engine.children relation window).zipIdx.flatMap fun child =>
        callbackWindows m (engine.segment finer (level + 1) child.1.window child.2) := by
  rw [segment_cons, callbackWindows_cons, callbackWindows_append, callbackWindows_flatMap,
    callbackWindows_synchronization]
  simp only [Operation.callbackWindow, if_neg hm.ne, Option.toList_none, List.nil_append,
    List.append_nil, childOperations, callbackWindows_cons]

/-- **The windows of every level tile the window of the advance.** -/
theorem tiles_segment : ∀ {level : ℕ} {window : ClockWindow τ} {substep m : ℕ},
    engine.Subdivided relations window → window.lo < window.hi → level ≤ m →
    m ≤ level + relations.length →
      Tiles ClockWindow.lo ClockWindow.hi window.lo window.hi
        (callbackWindows m (engine.segment relations level window substep)) := by
  induction relations with
  | nil =>
    intro level window substep m hsub hlt hle hm
    obtain rfl : m = level := by simpa using le_antisymm hm hle
    rw [callbackWindows_segment_self hsub]
    exact Tiles.singleton hlt
  | cons relation finer ih =>
    intro level window substep m hsub hlt hle hm
    rcases Nat.eq_or_lt_of_le hle with rfl | hlevel
    · rw [callbackWindows_segment_self hsub]
      exact Tiles.singleton hlt
    · rw [callbackWindows_segment_finer hlevel]
      refine (tiles_zipIdx hsub.1).flatMap fun child hchild => ?_
      rw [List.length_cons] at hm
      exact ih (hsub.2 _ (List.fst_mem_of_mem_zipIdx hchild))
        ((tiles_zipIdx hsub.1).mem hchild).2.1 hlevel (by omega)

end Windows

/-! ## Order of the operations -/

/-- What follows the callback of a window of a level with a finer one.  The operations between the
callback and the synchronization of the window visit the finer levels, over the windows into which
the relation splits the window, and stay inside it; then every block is refluxed and averaged down
once; and whatever else happens on the level or a finer one ends before the window, or begins after
it. -/
def BracketsWindow (relation : ParentChildClockRelation) (level : ℕ) (window : ClockWindow τ)
    (before after : List (Operation τ)) : Prop :=
  ∃ (children : List (ChildSubstep τ)) (inside sync rest : List (Operation τ)),
    after = inside ++ sync ++ rest ∧ window.lo < window.hi ∧
    relation.Splits window children ∧
    callbackWindows (level + 1) inside = children.map ChildSubstep.window ∧
    (∀ operation ∈ inside, window.lo ≤ operation.window.lo ∧ operation.window.hi ≤ window.hi ∧
      (level < operation.level ∨ ∃ target, operation = .stageParent level window target)) ∧
    sync.filter Operation.synchronizes = (List.range engine.blockCount).flatMap (fun block =>
      [.reflux level block window, .averageDown level block window]) ∧
    (∀ operation ∈ sync, operation.level = level ∧ ∀ m, operation.callbackWindow m = none) ∧
    (∀ operation ∈ before, level ≤ operation.level → operation.window.hi ≤ window.lo) ∧
    (∀ operation ∈ rest, level ≤ operation.level → window.hi ≤ operation.window.lo)

section Order

variable {engine} {relations : List ParentChildClockRelation}

/-- The blocks are refluxed and averaged down once each. -/
lemma filter_synchronization {level : ℕ} {window : ClockWindow τ} :
    (engine.synchronization level window).filter Operation.synchronizes =
      (List.range engine.blockCount).flatMap fun block =>
        [.reflux level block window, .averageDown level block window] := by
  have hcommit : ((List.range engine.blockCount).map
      (fun block => Operation.commitFlux level block window)).filter Operation.synchronizes =
        [] := by
    rw [List.filter_eq_nil_iff]
    intro operation h
    obtain ⟨block, -, rfl⟩ := List.mem_map.mp h
    simp [Operation.synchronizes]
  rw [synchronization, List.filter_append, hcommit, List.nil_append, List.filter_flatMap]
  rfl

/-- The operations of the child windows, between the callback and the synchronization. -/
lemma bracketsWindow_self {relation : ParentChildClockRelation}
    {finer : List ParentChildClockRelation} {level : ℕ} {window : ClockWindow τ}
    (hsub : engine.Subdivided (relation :: finer) window) (hlt : window.lo < window.hi) :
    engine.BracketsWindow relation level window []
      ((engine.children relation window).zipIdx.flatMap
        (engine.childOperations finer level window) ++ engine.synchronization level window) := by
  have hchild : ∀ child ∈ (engine.children relation window).zipIdx,
      engine.Subdivided finer child.1.window :=
    fun child h => hsub.2 _ (List.fst_mem_of_mem_zipIdx h)
  refine ⟨engine.children relation window, _, engine.synchronization level window, [],
    (List.append_nil _).symm, hlt, hsub.1, ?_, ?_, filter_synchronization,
    fun operation h => ⟨(mem_synchronization h).1, (mem_synchronization h).2.2⟩, by simp, by simp⟩
  · have hone : ∀ child ∈ (engine.children relation window).zipIdx,
        callbackWindows (level + 1) (engine.childOperations finer level window child) =
          [child.1.window] := by
      intro child h
      rw [childOperations, callbackWindows_cons, callbackWindows_segment_self (hchild child h)]
      rfl
    rw [callbackWindows_flatMap, List.flatMap_congr hone, ← List.map_eq_flatMap]
    conv_rhs => rw [← List.zipIdx_map_fst 0 (engine.children relation window), List.map_map]
    rfl
  · intro operation h
    obtain ⟨child, hmem, h⟩ := List.mem_flatMap.mp h
    rcases List.mem_cons.mp h with rfl | h
    · exact ⟨le_refl _, le_refl _, .inr ⟨_, rfl⟩⟩
    · obtain ⟨hlo, -, hhi⟩ := (tiles_zipIdx hsub.1).mem hmem
      obtain ⟨h1, h2, h3⟩ := segment_within (hchild child hmem) h
      exact ⟨hlo.trans h2, h3.trans hhi, .inl h1⟩

/-- More operations around a bracketed window, when those on its level or a finer one stay away from
it. -/
theorem BracketsWindow.extend {relation : ParentChildClockRelation} {level : ℕ}
    {window : ClockWindow τ} {before after left right : List (Operation τ)}
    (h : engine.BracketsWindow relation level window before after)
    (hleft : ∀ operation ∈ left, level ≤ operation.level → operation.window.hi ≤ window.lo)
    (hright : ∀ operation ∈ right, level ≤ operation.level → window.hi ≤ operation.window.lo) :
    engine.BracketsWindow relation level window (left ++ before) (after ++ right) := by
  obtain ⟨children, inside, sync, rest, rfl, hlt, hsplits, hwindows, hinside, hsync, hlevels,
    hbefore, hrest⟩ := h
  refine ⟨children, inside, sync, rest ++ right, by simp, hlt, hsplits, hwindows, hinside, hsync,
    hlevels, fun operation h => ?_, fun operation h => ?_⟩
  · rcases List.mem_append.mp h with h | h
    · exact hleft operation h
    · exact hbefore operation h
  · rcases List.mem_append.mp h with h | h
    · exact hrest operation h
    · exact hright operation h

/-- The operations of some child windows of a level, with the interpolations before each. -/
lemma mem_childOperations {relation : ParentChildClockRelation}
    {finer : List ParentChildClockRelation} {level : ℕ} {window : ClockWindow τ}
    {l : List (ChildSubstep τ × ℕ)} {operation : Operation τ}
    (hsub : engine.Subdivided (relation :: finer) window)
    (hl : ∀ child ∈ l, child ∈ (engine.children relation window).zipIdx)
    (h : operation ∈ l.flatMap (engine.childOperations finer level window))
    (hlevel : level < operation.level) :
    ∃ child ∈ l, child.1.window.lo ≤ operation.window.lo ∧
      operation.window.hi ≤ child.1.window.hi := by
  obtain ⟨child, hchild, h⟩ := List.mem_flatMap.mp h
  rcases List.mem_cons.mp h with rfl | h
  · exact absurd hlevel (lt_irrefl _)
  · obtain ⟨-, h1, h2⟩ :=
      segment_within (hsub.2 _ (List.fst_mem_of_mem_zipIdx (hl child hchild))) h
    exact ⟨child, hchild, h1, h2⟩

/-- **Every window of an advance is bracketed**: its finer levels come after its callback and
before its synchronization.

**Proof sketch.** Induction over the relations.  The callback is the first operation, or it stands
in the advance of one child window.  There the hypothesis of the induction brackets it, and the
operations of the other child windows stay away from it because the child windows are tiles. -/
theorem segment_brackets : ∀ {level : ℕ} {window : ClockWindow τ} {substep : ℕ}
    {before after : List (Operation τ)} {m k : ℕ} {w : ClockWindow τ}
    {relation : ParentChildClockRelation},
    engine.Subdivided relations window → window.lo < window.hi →
    engine.segment relations level window substep = before ++ .advanceLevel m k w :: after →
    relations[m - level]? = some relation →
      engine.BracketsWindow relation m w before after := by
  induction relations with
  | nil =>
    intro level window substep before after m k w relation _ _ _ hrelation
    simp at hrelation
  | cons first finer ih =>
    intro level window substep before after m k w relation hsub hlt hsegment hrelation
    rw [segment_cons] at hsegment
    cases before with
    | nil =>
      simp only [List.nil_append, List.cons.injEq, Operation.advanceLevel.injEq] at hsegment
      obtain ⟨⟨rfl, rfl, rfl⟩, rfl⟩ := hsegment
      obtain rfl : first = relation := by simpa using hrelation
      exact bracketsWindow_self hsub hlt
    | cons operation before =>
      simp only [List.cons_append, List.cons.injEq] at hsegment
      obtain ⟨rfl, hsegment⟩ := hsegment
      -- the callback stands among the operations of the child windows
      obtain ⟨after', hchildren, rfl⟩ : ∃ after',
          (engine.children first window).zipIdx.flatMap
            (engine.childOperations finer level window) =
            before ++ .advanceLevel m k w :: after' ∧
          after = after' ++ engine.synchronization level window := by
        rcases List.append_eq_append_iff.mp hsegment with ⟨middle, -, hmiddle⟩ | ⟨middle, hl, hr⟩
        · have hmem : Operation.advanceLevel m k w ∈ engine.synchronization level window := by
            rw [hmiddle]
            simp
          exact absurd ((mem_synchronization hmem).2.2 m) (by simp [Operation.callbackWindow])
        · cases middle with
          | nil =>
            have hmem : Operation.advanceLevel m k w ∈ engine.synchronization level window := by
              rw [← List.nil_append (engine.synchronization level window), ← hr]
              simp
            exact absurd ((mem_synchronization hmem).2.2 m) (by simp [Operation.callbackWindow])
          | cons y middle =>
            simp only [List.cons_append, List.cons.injEq] at hr
            obtain ⟨rfl, rfl⟩ := hr
            exact ⟨middle, hl, rfl⟩
      obtain ⟨l₁, child, l₂, left, right, hl, hchild, rfl, rfl⟩ := flatMap_eq_append_cons hchildren
      have hmem : child ∈ (engine.children first window).zipIdx := by rw [hl]; simp
      have htiles := tiles_zipIdx hsub.1
      have hsubchild := hsub.2 _ (List.fst_mem_of_mem_zipIdx hmem)
      obtain ⟨hlo, hhi⟩ := (hl ▸ htiles).split
      rw [childOperations] at hchild
      cases left with
      | nil => simp at hchild
      | cons operation left =>
        simp only [List.cons_append, List.cons.injEq] at hchild
        obtain ⟨rfl, hchild⟩ := hchild
        have hcallback : Operation.advanceLevel m k w ∈
            engine.segment finer (level + 1) child.1.window child.2 := by
          rw [hchild]
          simp
        obtain ⟨hm, hwlo, hwhi⟩ := segment_within hsubchild hcallback
        simp only [Operation.level, Operation.window] at hm hwlo hwhi
        have hinner : finer[m - (level + 1)]? = some relation := by
          have hsucc : m - level = m - (level + 1) + 1 := by omega
          rwa [hsucc, List.getElem?_cons_succ] at hrelation
        have hbracket := ih hsubchild (htiles.mem hmem).2.1 hchild hinner
        -- the other child windows end before this one or begin after it
        have hleft : ∀ operation ∈ Operation.advanceLevel level substep window ::
            (l₁.flatMap (engine.childOperations finer level window) ++
              [.stageParent level window child.1.window.begin]),
            m ≤ operation.level → operation.window.hi ≤ w.lo := by
          intro operation h hlevel
          simp only [List.mem_cons, List.mem_append, List.not_mem_nil, or_false] at h
          rcases h with rfl | h | rfl
          · simp only [Operation.level] at hlevel
            omega
          · obtain ⟨c, hc, -, hchi⟩ := mem_childOperations hsub (by
              intro c hc
              rw [hl]
              simp [hc]) h (by omega)
            exact hchi.trans ((hlo c hc).trans hwlo)
          · simp only [Operation.level] at hlevel
            omega
        have hright : ∀ operation ∈ l₂.flatMap (engine.childOperations finer level window) ++
            engine.synchronization level window,
            m ≤ operation.level → w.hi ≤ operation.window.lo := by
          intro operation h hlevel
          rcases List.mem_append.mp h with h | h
          · obtain ⟨c, hc, hclo, -⟩ := mem_childOperations hsub (by
              intro c hc
              rw [hl]
              simp [hc]) h (by omega)
            exact hwhi.trans ((hhi c hc).trans hclo)
          · have := (mem_synchronization h).1
            omega
        simpa [List.append_assoc] using hbracket.extend hleft hright

end Order

end Engine

open Engine in
/-- **Subcycling visits every level on an exact partition of the macro step, finest first.**  When
the advance over a root window returns, the windows of every level tile the root window.  Every
window of a level with a finer one is split as its relation says, and its blocks are refluxed and
averaged down once, after all operations of the finer levels in it and before anything else on its
level.

**Proof sketch.** The operations of the advance are those of its segment, whose windows are tiles
level by level and whose callbacks are bracketed. -/
theorem subcycling_partitions_macro_step {τ : Type} {engine : Engine τ} {root : ClockWindow τ}
    {trace : List (Operation τ)} (h : engine.advance root = .ok trace) :
    (∀ level, level ≤ engine.relations.length →
      Tiles ClockWindow.lo ClockWindow.hi root.lo root.hi (callbackWindows level trace)) ∧
    ∀ (before after : List (Operation τ)) (level substep : ℕ) (window : ClockWindow τ)
      (relation : ParentChildClockRelation),
      trace = before ++ .advanceLevel level substep window :: after →
      engine.relations[level]? = some relation →
        engine.BracketsWindow relation level window before after := by
  simp only [advance, bind_eq_ok, throwIf_eq_ok, not_or, not_not] at h
  obtain ⟨_, ⟨-, -, -, -, -, hless, -⟩, h⟩ := h
  have hlt : root.lo < root.hi := ExactRational.less_eq_true.mp hless
  obtain ⟨rfl, hsub⟩ := engine.advanceLevelRecursive_segment h
  rw [List.nil_append]
  refine ⟨fun level hlevel => ?_, fun before after level substep window relation htrace hrel => ?_⟩
  · exact tiles_segment hsub hlt (Nat.zero_le level) (by omega)
  · exact segment_brackets hsub hlt htrace hrel

/-- A physical clock that counts whole units. -/
def unitTime : PhysicalTime ℤ where
  less a b := a < b
  isFinite _ := true
  add a b := a + b
  sub a b := a - b
  mul a b := a * b
  value r := r.rational.numerator / r.rational.denominator

/-- Two levels with the ratio five halves, so that a window has two full child windows and a
remainder. -/
def fiveHalves : ParentChildClockRelation :=
  ⟨0, 1, ⟨⟨5, 2⟩, by decide, by decide, by decide, ⟨1, -2, by norm_num⟩⟩, .explicitFinalSubstep,
    by decide, by decide, by norm_num [ExactRational.toRat, Rational.toRat]⟩

/-- One macro step of ten units. -/
def macroStep : ClockWindow ℤ :=
  ⟨⟨0, 0, ⟨⟨0, 1⟩, by decide, by decide, by decide, isCoprime_one_right⟩, 0⟩,
    ⟨0, 0, ExactRational.one, 10⟩⟩

/-- An engine of two blocks whose operations all succeed. -/
def twoBlocks : Engine ℤ := ⟨unitTime, 2, [fiveHalves], fun _ _ => .ok ()⟩

/-- The advance of two blocks over three child windows tiles the macro step on both levels. -/
theorem two_blocks_partition_macro_step :
    ∃ trace, twoBlocks.advance macroStep = .ok trace ∧
      (callbackWindows 1 trace).length = 3 ∧
      Tiles ClockWindow.lo ClockWindow.hi macroStep.lo macroStep.hi (callbackWindows 1 trace) := by
  have hreturns : ((twoBlocks.advance macroStep).toOption.map
      fun trace => (callbackWindows 1 trace).length) = some 3 := by decide +kernel
  cases h : twoBlocks.advance macroStep with
  | error e => simp [h, Except.toOption] at hreturns
  | ok trace =>
    refine ⟨trace, rfl, ?_, (subcycling_partitions_macro_step h).1 1 (by decide)⟩
    simpa [h, Except.toOption] using hreturns

end Pops
