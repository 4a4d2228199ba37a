import Pops.Runtime.Program.ClockSchedule

/-!
# Ticks of nested logical clocks

The two views of a clock agree as long as every first declaration of a clock names a child other
than the primary clock and a parent that is the primary clock or has been declared: the installed
relations are then a tree rooted at the primary clock, and the frames are a path of it.  A
declaration of the primary clock as a child is accepted (the validation stops at the primary
clock), and a refused declaration stays installed; both break the tree.

## Main definitions

* `Pops.Clocks.Chain` — the counts on the way from the primary clock to a clock.
* `Pops.Clocks.Linked` — the frames are a path from the primary clock.
* `Pops.Clocks.Inv` — the invariant of the runs.
* `Pops.Clocks.Admissible` — the condition on one operation.
* `Pops.Clocks.TicksEnumerated`, `NoAlias` — what the clocks promise.

## Main results

* `Pops.Clocks.ticksPerMacro_of_chain` — the ticks per macro step, read off the chain.
* `Pops.Clocks.Inv.step` — the step lemma.
* `Pops.Clocks.clocks_enumerate_ticks` — the run theorem.
-/

namespace Pops.Clocks

/-- A clock and its parent. -/
def ParentOf (s : ClockScheduleState) (clock parent : String) : Prop :=
  ∃ count, s.relation clock = some ⟨parent, count⟩

/-- The counts on the way from the primary clock to a clock. -/
inductive Chain (s : ClockScheduleState) : String → List ℤ → Prop
  | root : Chain s s.primary []
  | child {clock parent : String} {count : ℤ} {counts : List ℤ}
      (hrelation : s.relation clock = some ⟨parent, count⟩) (hparent : Chain s parent counts) :
      Chain s clock (counts ++ [count])

/-- The frames are a path from the primary clock: with the active clock at its end and the ticks
of that clock in a macro step. -/
inductive Linked (s : ClockScheduleState) : List Frame → String → ℤ → Prop
  | nil : Linked s [] s.primary 1
  | snoc {frames : List Frame} (frame : Frame) {ticks : ℤ}
      (hinit : Linked s frames frame.parent ticks)
      (hrelation : s.relation frame.child = some ⟨frame.parent, frame.count⟩)
      (hnext : 0 ≤ frame.next ∧ frame.next ≤ frame.count)
      (hticks : ticks * frame.count ≤ int64Max) :
      Linked s (frames ++ [frame]) frame.child (ticks * frame.count)

/-- The invariant of the runs: the relations are a tree rooted at the primary clock, and the
frames are a path of it. -/
structure Inv (s : ClockScheduleState) : Prop where
  unconfigured : s.primary = "" → (∀ clock, s.relation clock = none) ∧ s.frames = []
  primary : s.relation s.primary = none
  installed : ∀ clock parent count, s.relation clock = some ⟨parent, count⟩ →
    clock ≠ "" ∧ 0 < count ∧ ∃ counts, Chain s parent counts
  frames : ∃ active ticks, Linked s s.frames active ticks

/-- The first declaration of a clock names a child other than the primary clock, and a parent that
is the primary clock or has been declared. -/
def FirstDeclaration (s : ClockScheduleState) (parent child : String) (count : ℤ) : Prop :=
  ¬ InvalidDescriptor parent child count → s.relation child = none →
    child ≠ s.primary ∧ (parent = s.primary ∨ (s.relation parent).isSome = true)

/-- The condition on one operation, in the state before it. -/
def Admissible (s : ClockScheduleState) : Operation → Prop
  | .declare parent child count => FirstDeclaration s parent child count
  | .beginScope parent child count => FirstDeclaration s parent child count
  | _ => True

/-- Every operation of the run meets the condition. -/
def AdmissibleRun (s : ClockScheduleState) : List Operation → Prop
  | [] => True
  | operation :: operations => Admissible s operation ∧
  AdmissibleRun (step s operation).1 operations

/-! ## Arithmetic -/

/-- A product is returned when the factor is positive and the product does not overflow. -/
lemma checkedMultiply_eq_ok {a b c : ℤ} (ha : 1 ≤ a) :
    checkedMultiply a b = .ok c ↔ 1 ≤ b ∧ a * b ≤ int64Max ∧ c = a * b := by
  simp only [checkedMultiply, bind_eq_ok, throwIf_eq_ok, pure_eq_ok, exists_const]
  have hdiv : b ≤ int64Max / a ↔ a * b ≤ int64Max := by
    rw [Int.le_ediv_iff_mul_le (by omega), mul_comm]
  constructor
  · rintro ⟨h, rfl⟩
    simp only [not_or, not_and, not_lt, not_le] at h
    exact ⟨by omega, hdiv.mp (h.2.2 (by omega)), rfl⟩
  · rintro ⟨hb, hle, rfl⟩
    refine ⟨?_, rfl⟩
    simp only [not_or, not_and, not_lt, not_le]
    exact ⟨by omega, by omega, fun _ => hdiv.mpr hle⟩

/-! ## Chains -/

section Chains

variable {s s' : ClockScheduleState}

/-- The counts of a chain are positive. -/
lemma Chain.pos (hinv : Inv s) {clock : String} {counts : List ℤ} (h : Chain s clock counts) :
    1 ≤ counts.prod := by
  induction h with
  | root => simp
  | child hrelation _ ih =>
    have hcount := (hinv.installed _ _ _ hrelation).2.1
    rw [List.prod_append, List.prod_singleton]
    exact one_le_mul_of_one_le_of_one_le ih (by omega)

/-- A clock has one chain. -/
theorem Chain.unique (hprimary : s.relation s.primary = none) {clock : String}
    {counts counts' : List ℤ} (h : Chain s clock counts) (h' : Chain s clock counts') :
    counts = counts' := by
  induction h generalizing counts' with
  | root =>
    cases h' with
    | root => rfl
    | child hrelation _ => rw [hprimary] at hrelation; cases hrelation
  | child hrelation _ ih =>
    cases h' with
    | root => rw [hprimary] at hrelation; cases hrelation
    | child hrelation' hparent' =>
      have heq := Option.some.inj (hrelation.symm.trans hrelation')
      simp only [Relation.mk.injEq] at heq
      obtain ⟨rfl, rfl⟩ := heq
      rw [ih hparent']

/-- A chain is a chain of every state with more relations. -/
lemma Chain.mono (hprimary : s'.primary = s.primary)
    (hrelation : ∀ clock r, s.relation clock = some r → s'.relation clock = some r)
    {clock : String} {counts : List ℤ} (h : Chain s clock counts) : Chain s' clock counts := by
  induction h with
  | root => rw [← hprimary]; exact .root
  | child hr _ ih => exact .child (hrelation _ _ hr) ih

/-- The path of the frames is a path of every state with more relations. -/
lemma Linked.mono (hprimary : s'.primary = s.primary)
    (hrelation : ∀ clock r, s.relation clock = some r → s'.relation clock = some r)
    {frames : List Frame} {active : String} {ticks : ℤ} (h : Linked s frames active ticks) :
    Linked s' frames active ticks := by
  induction h with
  | nil => rw [← hprimary]; exact .nil
  | snoc frame _ hr hnext hticks ih => exact .snoc frame ih (hrelation _ _ hr) hnext hticks

/-- The path of the frames is the chain of the active clock. -/
lemma Linked.chain {frames : List Frame} {active : String} {ticks : ℤ}
    (h : Linked s frames active ticks) :
    Chain s active (frames.map Frame.count) ∧ ticks = (frames.map Frame.count).prod := by
  induction h with
  | nil => exact ⟨.root, rfl⟩
  | snoc frame _ hr _ _ ih =>
    refine ⟨?_, by simp [← ih.2]⟩
    rw [List.map_append]
    exact .child hr ih.1

/-- The active clock is read off the last frame. -/
lemma activeClock_eq (s : ClockScheduleState) :
    activeClock s = s.frames.getLast?.elim s.primary Frame.child := by
  unfold activeClock
  cases s.frames.getLast? with
  | none => rfl
  | some frame => rfl

/-- The path of the frames ends at the active clock. -/
lemma Linked.active {active : String} {ticks : ℤ} (h : Linked s s.frames active ticks) :
    active = activeClock s := by
  have hlast : ∀ frames, Linked s frames active ticks →
      active = frames.getLast?.elim s.primary Frame.child := by
    intro frames h
    cases h with
    | nil => rfl
    | snoc frame _ _ _ _ => simp
  rw [activeClock_eq]
  exact hlast s.frames h

/-- The last frame of a path. -/
lemma linked_snoc {frames : List Frame} {frame : Frame} {active : String} {ticks : ℤ}
    (h : Linked s (frames ++ [frame]) active ticks) :
    ∃ before, Linked s frames frame.parent before ∧
      s.relation frame.child = some ⟨frame.parent, frame.count⟩ ∧
      (0 ≤ frame.next ∧ frame.next ≤ frame.count) ∧ before * frame.count ≤ int64Max := by
  generalize hall : frames ++ [frame] = all at h
  cases h with
  | nil => simp at hall
  | snoc frame' hinit hr hnext hticks =>
    obtain ⟨rfl, hframe⟩ := List.append_inj' hall rfl
    obtain ⟨rfl, -⟩ := List.cons.inj hframe
    exact ⟨_, hinit, hr, hnext, hticks⟩

/-- **The ticks of a clock per macro step are the product of the counts on its chain**, if that is
a `std::int64_t`.

**Proof sketch.**  Induction on the chain.  The clocks that are being visited lie below, so their
chains are longer, and no clock is met twice. -/
theorem ticksPerMacro_of_chain (hinv : Inv s) (hconfigured : s.primary ≠ "") {clock : String}
    {counts : List ℤ} (h : Chain s clock counts) (hprod : counts.prod ≤ int64Max) :
    ∀ visiting, (∀ v ∈ visiting, ∃ longer, Chain s v longer ∧ counts.length < longer.length) →
      ticksPerMacroFrom s clock visiting = .ok counts.prod := by
  induction h with
  | root =>
    intro visiting _
    rw [ticksPerMacroFrom]
    simp [hconfigured]
  | @child clock parent count counts hrelation hparent ih =>
    intro visiting hvisiting
    obtain ⟨hempty, hcount, -⟩ := hinv.installed _ _ _ hrelation
    have hclock : clock ≠ s.primary := by
      rintro rfl
      rw [hinv.primary] at hrelation
      cases hrelation
    have hfresh : clock ∉ visiting := by
      intro hmem
      obtain ⟨longer, hlonger, hlt⟩ := hvisiting clock hmem
      rw [hlonger.unique hinv.primary (.child hrelation hparent)] at hlt
      omega
    have hpos := hparent.pos hinv
    rw [List.prod_append, List.prod_singleton] at hprod ⊢
    have hle : counts.prod ≤ int64Max :=
      le_trans (le_mul_of_one_le_right (by omega) (by omega)) hprod
    have hticks : ticksPerMacroFrom s parent (clock :: visiting) = .ok counts.prod := by
      refine ih hle _ fun v hv => ?_
      rcases List.mem_cons.mp hv with rfl | hv
      · exact ⟨_, .child hrelation hparent, by simp⟩
      · obtain ⟨longer, hlonger, hlt⟩ := hvisiting v hv
        exact ⟨longer, hlonger, by simp at hlt; omega⟩
    rw [ticksPerMacroFrom]
    simp only [hempty, hconfigured, or_self, if_false, hclock, hfresh, dif_neg, not_false_eq_true]
    split
    · next hnone => rw [hrelation] at hnone; cases hnone
    · next r hr =>
      obtain rfl := Option.some.inj (hrelation.symm.trans hr)
      rw [hticks, ok_bind]
      exact (checkedMultiply_eq_ok hpos).mpr ⟨show 1 ≤ count by omega, hprod, rfl⟩

/-- The ticks that are returned are the product of the counts, and a `std::int64_t`. -/
lemma chain_of_ticksPerMacro (hinv : Inv s) {clock : String} {counts : List ℤ}
    (h : Chain s clock counts) : ∀ {visiting : List String} {ticks : ℤ},
      ticksPerMacroFrom s clock visiting = .ok ticks →
        s.primary ≠ "" ∧ ticks = counts.prod ∧ ticks ≤ int64Max := by
  induction h with
  | root =>
    intro visiting ticks hticks
    rw [ticksPerMacroFrom] at hticks
    by_cases hempty : s.primary = "" ∨ s.primary = ""
    · rw [if_pos hempty] at hticks
      cases hticks
    · rw [if_neg hempty, if_pos rfl] at hticks
      cases hticks
      exact ⟨fun h => hempty (.inr h), rfl, by decide⟩
  | @child clock parent count counts hrelation hparent ih =>
    intro visiting ticks hticks
    have hclock : clock ≠ s.primary := by
      rintro rfl
      rw [hinv.primary] at hrelation
      cases hrelation
    rw [ticksPerMacroFrom] at hticks
    split_ifs at hticks with hempty
    · split at hticks
      · cases hticks
      · next r hr =>
        obtain rfl := Option.some.inj (hrelation.symm.trans hr)
        obtain ⟨before, hbefore, hmul⟩ := bind_eq_ok.mp hticks
        obtain ⟨hconfigured, rfl, -⟩ := ih hbefore
        obtain ⟨-, hle, rfl⟩ := (checkedMultiply_eq_ok (hparent.pos hinv)).mp hmul
        exact ⟨hconfigured, by simp, hle⟩

end Chains

/-! ## The step lemma -/

section Steps

variable {s : ClockScheduleState}

/-- The invariant depends on the relations as a function only. -/
lemma Inv.congr {s' : ClockScheduleState} (h : Inv s) (hprimary : s'.primary = s.primary)
    (hrelation : ∀ clock, s'.relation clock = s.relation clock) (hframes : s'.frames = s.frames) :
    Inv s' := by
  have hmono : ∀ clock r, s.relation clock = some r → s'.relation clock = some r := by
    intro clock r hr
    rw [hrelation, hr]
  refine ⟨?_, ?_, ?_, ?_⟩
  · intro hempty
    obtain ⟨hnone, hnil⟩ := h.unconfigured (hprimary ▸ hempty)
    exact ⟨fun clock => by rw [hrelation, hnone], by rw [hframes, hnil]⟩
  · rw [hprimary, hrelation]
    exact h.primary
  · intro clock parent count hr
    rw [hrelation] at hr
    obtain ⟨hne, hpos, counts, hchain⟩ := h.installed clock parent count hr
    exact ⟨hne, hpos, counts, hchain.mono hprimary hmono⟩
  · obtain ⟨active, ticks, hlinked⟩ := h.frames
    exact ⟨active, ticks, by rw [hframes]; exact hlinked.mono hprimary hmono⟩

/-- Installing a relation that an admissible declaration names keeps the invariant. -/
lemma inv_install (h : Inv s) {parent child : String} {count : ℤ}
    (hvalid : ¬ InvalidDescriptor parent child count) (hnew : ¬ Conflicts s child ⟨parent, count⟩)
    (hfirst : FirstDeclaration s parent child count) :
    Inv (install s child ⟨parent, count⟩) := by
  cases hchild : s.relation child with
  | some found =>
    -- the child has been declared before, with the same parent and count
    have hfound : found = ⟨parent, count⟩ := by
      by_contra hne
      exact hnew ⟨found, hchild, hne⟩
    refine h.congr rfl (fun clock => ?_) rfl
    rw [relation_install]
    split_ifs with heq
    · rw [← heq, hchild, hfound]
    · rfl
  | none =>
    obtain ⟨hne, hparent⟩ := hfirst hvalid hchild
    simp only [InvalidDescriptor, not_or, not_le] at hvalid
    have hsame : (install s child ⟨parent, count⟩).primary = s.primary := rfl
    have hmono : ∀ clock r, s.relation clock = some r →
        (install s child ⟨parent, count⟩).relation clock = some r := by
      intro clock r hr
      rw [relation_install, if_neg, hr]
      rintro rfl
      rw [hchild] at hr
      cases hr
    have hchain : ∃ counts, Chain s parent counts := by
      rcases hparent with rfl | hsome
      · exact ⟨[], .root⟩
      · obtain ⟨⟨grandparent, count'⟩, hr⟩ := Option.isSome_iff_exists.mp hsome
        obtain ⟨-, -, counts, hcounts⟩ := h.installed _ _ _ hr
        exact ⟨_, .child hr hcounts⟩
    refine ⟨?_, ?_, ?_, ?_⟩
    · intro hempty
      obtain ⟨hnone, -⟩ := h.unconfigured hempty
      rcases hparent with rfl | hsome
      · exact absurd hempty hvalid.1
      · rw [hnone parent] at hsome
        cases hsome
    · rw [hsame, relation_install, if_neg hne]
      exact h.primary
    · intro clock parent' count' hr
      rw [relation_install] at hr
      split_ifs at hr with heq
      · cases hr
        obtain ⟨counts, hcounts⟩ := hchain
        exact ⟨heq ▸ hvalid.2.1, hvalid.2.2.2, counts, hcounts.mono hsame hmono⟩
      · obtain ⟨hclock, hpos, counts, hcounts⟩ := h.installed clock parent' count' hr
        exact ⟨hclock, hpos, counts, hcounts.mono hsame hmono⟩
    · obtain ⟨active, ticks, hlinked⟩ := h.frames
      exact ⟨active, ticks, hlinked.mono hsame hmono⟩

/-- `declare_relation` keeps the invariant, whether or not it throws. -/
lemma inv_declareRelation (h : Inv s) {parent child : String} {count : ℤ}
    (hfirst : FirstDeclaration s parent child count) :
    Inv (declareRelation s parent child count).1 := by
  unfold declareRelation
  by_cases hvalid : InvalidDescriptor parent child count
  · rw [if_pos hvalid]
    exact h
  · by_cases hnew : Conflicts s child ⟨parent, count⟩
    · rw [if_neg hvalid, if_pos hnew]
      exact h
    · rw [if_neg hvalid, if_neg hnew]
      exact inv_install h hvalid hnew hfirst

/-- What a declaration that returns has done. -/
lemma declareRelation_ok {parent child : String} {count : ℤ} {s' : ClockScheduleState}
    (hreturns : declareRelation s parent child count = (s', .ok ())) :
    s' = install s child ⟨parent, count⟩ ∧ ∃ ticks, ticksPerMacro s' child = .ok ticks := by
  unfold declareRelation at hreturns
  split_ifs at hreturns
  · cases hreturns
  · cases hreturns
  · simp only [Prod.mk.injEq, bind_eq_ok] at hreturns
    obtain ⟨rfl, ticks, hticks, -⟩ := hreturns
    exact ⟨rfl, ticks, hticks⟩

/-- The invariant with other frames. -/
lemma Inv.withFrames (h : Inv s) (hconfigured : s.primary ≠ "") {frames : List Frame}
    {active : String} {ticks : ℤ} (hlinked : Linked s frames active ticks) :
    Inv ⟨s.primary, s.relations, frames⟩ := by
  have hsame : (⟨s.primary, s.relations, frames⟩ : ClockScheduleState).primary = s.primary := rfl
  have hmono : ∀ clock r, s.relation clock = some r →
      (⟨s.primary, s.relations, frames⟩ : ClockScheduleState).relation clock = some r :=
    fun _ _ hr => hr
  refine ⟨fun hempty => absurd hempty hconfigured, h.primary, ?_, active, ticks,
    hlinked.mono hsame hmono⟩
  intro clock parent count hr
  obtain ⟨hne, hpos, counts, hchain⟩ := h.installed clock parent count hr
  exact ⟨hne, hpos, counts, hchain.mono hsame hmono⟩

/-- A state with frames has a primary clock. -/
lemma Inv.configured (h : Inv s) (hframes : s.frames ≠ []) : s.primary ≠ "" :=
  fun hempty => hframes (h.unconfigured hempty).2

/-- `begin_` keeps the invariant. -/
lemma inv_beginScope (h : Inv s) {parent child : String} {count : ℤ}
    (hfirst : FirstDeclaration s parent child count) :
    Inv (beginScope s parent child count).1 := by
  have hdeclared := inv_declareRelation h hfirst
  unfold beginScope
  match hdeclare : declareRelation s parent child count with
  | (s', .error e) =>
    rw [hdeclare] at hdeclared
    exact hdeclared
  | (s', .ok ()) =>
    rw [hdeclare] at hdeclared
    obtain ⟨rfl, ticks, hticks⟩ := declareRelation_ok hdeclare
    simp only
    split_ifs with hactive
    · exact hdeclared
    · -- the child lies below the active clock, and its ticks have just been computed
      simp only [ne_eq, not_not] at hactive
      obtain ⟨active, before, hlinked⟩ := hdeclared.frames
      have hrelation : (install s child ⟨parent, count⟩).relation child = some ⟨parent, count⟩ := by
        simp
      obtain rfl : active = parent := hlinked.active.trans hactive
      obtain ⟨hchain, hbefore⟩ := hlinked.chain
      obtain ⟨hconfigured, hprod, hle⟩ :=
        chain_of_ticksPerMacro hdeclared (.child hrelation hchain) hticks
      have hcount := (hdeclared.installed _ _ _ hrelation).2.1
      have hframe : Linked (install s child ⟨active, count⟩)
          ((install s child ⟨active, count⟩).frames ++ [⟨active, child, count, 0⟩]) child
          (before * count) := by
        refine Linked.snoc ⟨active, child, count, 0⟩ hlinked hrelation ⟨?_, ?_⟩ ?_
        · exact le_rfl
        · exact hcount.le
        · rw [List.prod_append, List.prod_singleton, ← hbefore] at hprod
          show before * count ≤ int64Max
          omega
      exact hdeclared.withFrames hconfigured hframe

/-- `frame_` returns the innermost frame. -/
lemma frameAt_eq_ok {depth : ℕ} {frame : Frame} (h : frameAt s depth = .ok frame) :
    s.frames = s.frames.dropLast ++ [frame] := by
  unfold frameAt at h
  cases hlast : s.frames.getLast? with
  | none => simp [hlast] at h
  | some last =>
    simp only [hlast] at h
    split_ifs at h
    · cases h
      exact (List.dropLast_append_getLast? frame hlast).symm

/-- Dropping the innermost frame keeps the invariant. -/
lemma inv_popFrame (h : Inv s) {frame : Frame}
    (hframes : s.frames = s.frames.dropLast ++ [frame]) :
    Inv (popFrame s) := by
  obtain ⟨active, ticks, hlinked⟩ := h.frames
  rw [hframes] at hlinked
  obtain ⟨before, hinit, -⟩ := linked_snoc hlinked
  exact h.withFrames (h.configured (by rw [hframes]; simp)) hinit

/-- `iteration_` keeps the invariant. -/
lemma inv_iteration (h : Inv s) (depth : ℕ) (index : ℤ) : Inv (iteration s depth index).1 := by
  unfold iteration
  cases hframe : frameAt s depth with
  | error e => exact h
  | ok frame =>
    simp only
    split_ifs with hcursor
    · exact h
    · have hframes := frameAt_eq_ok hframe
      obtain ⟨active, ticks, hlinked⟩ := h.frames
      rw [hframes] at hlinked
      obtain ⟨before, hinit, hrelation, hnext, hticks⟩ := linked_snoc hlinked
      have hadvanced : Linked s (s.frames.dropLast ++
          [⟨frame.parent, frame.child, frame.count, frame.next + 1⟩]) frame.child
          (before * frame.count) := by
        refine Linked.snoc ⟨frame.parent, frame.child, frame.count,
          frame.next + 1⟩ hinit hrelation ⟨?_, ?_⟩ hticks
        · show 0 ≤ frame.next + 1
          omega
        · show frame.next + 1 ≤ frame.count
          omega
      exact h.withFrames (h.configured (by rw [hframes]; simp)) hadvanced

/-- **The step lemma**: an admissible operation keeps the invariant, whether or not it throws. -/
theorem Inv.step (h : Inv s) {operation : Operation} (hadmissible : Admissible s operation) :
    Inv (Clocks.step s operation).1 := by
  cases operation with
  | configure clock =>
    simp only [Clocks.step, configurePrimaryClock]
    split_ifs with hempty hchanged
    · exact h
    · exact h
    · by_cases hprimary : s.primary = ""
      · -- nothing has been declared yet
        obtain ⟨hnone, hnil⟩ := h.unconfigured hprimary
        refine ⟨fun hclock => absurd hclock hempty, hnone clock, ?_, clock, 1, ?_⟩
        · intro clock' parent count hr
          rw [show ClockScheduleState.relation ⟨clock, s.relations, s.frames⟩ clock' =
            s.relation clock' from rfl, hnone] at hr
          cases hr
        · rw [show (⟨clock, s.relations, s.frames⟩ : ClockScheduleState).frames = [] from hnil]
          exact .nil
      · have hsame : s.primary = clock := by
          by_contra hne
          exact hchanged ⟨hprimary, hne⟩
        rw [← hsame]
        exact h
  | declare parent child count => exact inv_declareRelation h hadmissible
  | beginScope parent child count => exact inv_beginScope h hadmissible
  | iteration depth index => exact inv_iteration h depth index
  | finishScope depth =>
    simp only [Clocks.step, Clocks.finishScope]
    cases hframe : frameAt s depth with
    | error e => exact h
    | ok frame =>
      simp only
      split_ifs
      · exact h
      · exact inv_popFrame h (frameAt_eq_ok hframe)
  | abortScope depth =>
    simp only [Clocks.step, Clocks.abortScope]
    split_ifs with hframes
    · obtain ⟨frame, hlast⟩ : ∃ frame, s.frames.getLast? = some frame :=
        ⟨_, List.getLast?_eq_some_getLast hframes.1⟩
      exact inv_popFrame h (List.dropLast_append_getLast? frame hlast).symm
    · exact h

end Steps

/-! ## Runs -/

/-- The initial state satisfies the invariant. -/
lemma Inv.initial : Inv Clocks.initial :=
  ⟨fun _ => ⟨fun _ => rfl, rfl⟩, rfl, (fun _ _ _ h => by cases h), "", 1, Linked.nil⟩

/-- **The run lemma**: an admissible run keeps the invariant. -/
theorem Inv.run {s : ClockScheduleState} (h : Inv s) {operations : List Operation}
    (hadmissible : AdmissibleRun s operations) : Inv (Clocks.run s operations) := by
  induction operations generalizing s with
  | nil => exact h
  | cons operation operations ih => exact ih (h.step hadmissible.1) hadmissible.2

/-- The later state has the same primary clock and at least the same relations. -/
def Extends (s s' : ClockScheduleState) : Prop :=
  s'.primary = s.primary ∧ ∀ clock r, s.relation clock = some r → s'.relation clock = some r

/-- `declare_relation` never changes a relation that is there. -/
lemma extends_declareRelation (s : ClockScheduleState) (parent child : String) (count : ℤ) :
    Extends s (declareRelation s parent child count).1 := by
  unfold declareRelation
  by_cases hvalid : InvalidDescriptor parent child count
  · rw [if_pos hvalid]
    exact ⟨rfl, fun _ _ hr => hr⟩
  · by_cases hnew : Conflicts s child ⟨parent, count⟩
    · rw [if_neg hvalid, if_pos hnew]
      exact ⟨rfl, fun _ _ hr => hr⟩
    · rw [if_neg hvalid, if_neg hnew]
      refine ⟨rfl, fun clock r hr => ?_⟩
      rw [relation_install]
      split_ifs with hclock
      · subst hclock
        by_contra hne
        exact hnew ⟨r, hr, fun heq => hne (by rw [heq])⟩
      · exact hr

/-- No operation changes a relation that is there, or the primary clock once it is configured. -/
lemma extends_step {s : ClockScheduleState} (hconfigured : s.primary ≠ "")
    (operation : Operation) : Extends s (step s operation).1 := by
  cases operation with
  | configure clock =>
    simp only [step, configurePrimaryClock]
    split_ifs with hempty hchanged
    · exact ⟨rfl, fun _ _ hr => hr⟩
    · exact ⟨rfl, fun _ _ hr => hr⟩
    · refine ⟨?_, fun _ _ hr => hr⟩
      by_contra hne
      exact hchanged ⟨hconfigured, fun h => hne h.symm⟩
  | declare parent child count => exact extends_declareRelation s parent child count
  | beginScope parent child count =>
    have hdeclare := extends_declareRelation s parent child count
    simp only [step, beginScope]
    match hresult : declareRelation s parent child count with
    | (s', .error e) => rw [hresult] at hdeclare; exact hdeclare
    | (s', .ok ()) =>
      rw [hresult] at hdeclare
      simp only
      split_ifs
      · exact hdeclare
      · exact hdeclare
  | iteration depth index =>
    simp only [step, iteration]
    cases frameAt s depth with
    | error e => exact ⟨rfl, fun _ _ hr => hr⟩
    | ok frame =>
      simp only
      split_ifs
      · exact ⟨rfl, fun _ _ hr => hr⟩
      · exact ⟨rfl, fun _ _ hr => hr⟩
  | finishScope depth =>
    simp only [step, finishScope]
    cases frameAt s depth with
    | error e => exact ⟨rfl, fun _ _ hr => hr⟩
    | ok frame =>
      simp only
      split_ifs
      · exact ⟨rfl, fun _ _ hr => hr⟩
      · exact ⟨rfl, fun _ _ hr => hr⟩
  | abortScope depth =>
    simp only [step, abortScope]
    split_ifs
    · exact ⟨rfl, fun _ _ hr => hr⟩
    · exact ⟨rfl, fun _ _ hr => hr⟩

/-- A run changes no relation that is there. -/
lemma extends_run {s : ClockScheduleState} (hconfigured : s.primary ≠ "")
    (operations : List Operation) : Extends s (run s operations) := by
  induction operations generalizing s with
  | nil => exact ⟨rfl, fun _ _ hr => hr⟩
  | cons operation operations ih =>
    obtain ⟨hprimary, hmono⟩ := extends_step hconfigured operation
    obtain ⟨hprimary', hmono'⟩ := ih (by rw [hprimary]; exact hconfigured)
    exact ⟨hprimary'.trans hprimary, fun clock r hr => hmono' clock r (hmono clock r hr)⟩

/-! ## The promises -/

/-- The nested iteration indices, outermost first, each with its count. -/
def digits (s : ClockScheduleState) : List (ℤ × ℤ) :=
  s.frames.map fun frame => (frame.count, frame.next - 1)

/-- `coordinate` returns the tick of a clock at a macro step. -/
def ReturnsTick (s : ClockScheduleState) (clock : String) (macroStep tick : ℤ) : Prop :=
  ∃ kind stageIdentity requiredLevel currentLevel,
    (kind = ScheduleDomainKind.clockTick ∨ kind = ScheduleDomainKind.amrLevel) ∧
      coordinate s kind clock stageIdentity requiredLevel currentLevel macroStep =
        .ok (some tick)

/-- What the clocks promise in one state. -/
structure TicksEnumerated (s : ClockScheduleState) : Prop where
  /-- No clock is its own ancestor. -/
  acyclic : ∀ clock, ¬ Relation.TransGen (ParentOf s) clock clock
  /-- Every installed clock descends from the primary clock. -/
  rooted : ∀ clock r, s.relation clock = some r → Relation.ReflTransGen (ParentOf s) clock s.primary
  /-- A tick is the mixed-radix value of the macro step and the indices. -/
  tick : ∀ clock macroStep tick, ReturnsTick s clock macroStep tick →
    ticksPerMacro s clock = .ok (MixedRadix.radixProduct (digits s)) ∧
      tick = macroStep * MixedRadix.radixProduct (digits s) + MixedRadix.listValue (digits s) ∧
      macroStep * MixedRadix.radixProduct (digits s) ≤ tick ∧
      tick < (macroStep + 1) * MixedRadix.radixProduct (digits s)
  /-- The accepted ticks of a clock are the first ones of the macro step. -/
  accepted : ∀ macroStep ticks, acceptedTicks s macroStep = .ok ticks →
    ∀ clock, clock = s.primary ∨ (s.relation clock).isSome = true →
      ∃ perMacro, ticksPerMacro s clock = .ok perMacro ∧
        OrderedMap.lookup ticks clock = some (macroStep * perMacro)

/-- Two states of one run give a clock the same tick only at the same macro step and indices. -/
def NoAlias (s s' : ClockScheduleState) : Prop :=
  ∀ clock macroStep macroStep' tick, ReturnsTick s clock macroStep tick →
    ReturnsTick s' clock macroStep' tick → macroStep = macroStep' ∧ digits s = digits s'

section Promises

variable {s : ClockScheduleState}

/-- A returned coordinate is the tick of the active clock. -/
lemma activeTick_of_returnsTick {clock : String} {macroStep tick : ℤ}
    (h : ReturnsTick s clock macroStep tick) :
    activeTick s clock macroStep = .ok (some tick) := by
  obtain ⟨kind, stageIdentity, requiredLevel, currentLevel, hkind, hcoordinate⟩ := h
  simp only [coordinate, bind_eq_ok] at hcoordinate
  obtain ⟨active, hactive, hreturn⟩ := hcoordinate
  cases active with
  | none => cases hreturn
  | some t =>
    rw [hactive]
    rcases hkind with rfl | rfl
    · simp only [coordinateOf, bind_eq_ok, pure_eq_ok] at hreturn
      obtain ⟨_, -, hreturn⟩ := hreturn
      rw [hreturn]
    · simp only [coordinateOf, bind_eq_ok, pure_eq_ok] at hreturn
      obtain ⟨_, -, hreturn⟩ := hreturn
      split_ifs at hreturn
      · rw [hreturn]

/-- One frame of the loop of `active_tick_`. -/
lemma tickStep_eq_ok {active next : String × ℤ} {frame : Frame}
    (h : tickStep active frame = .ok next) :
    next = (frame.child, active.2 * frame.count + (frame.next - 1)) ∧
      0 < frame.next ∧ frame.next ≤ frame.count := by
  simp only [tickStep, checkedMultiply, checkedAdd, bind_eq_ok, throwIf_eq_ok, pure_eq_ok,
    exists_const] at h
  obtain ⟨hcursor, _, ⟨-, rfl⟩, _, ⟨-, rfl⟩, rfl⟩ := h
  exact ⟨rfl, by omega, by omega⟩

/-- The loop of `active_tick_` is the Horner loop over the indices. -/
lemma activeTick_spec {clock : String} {macroStep tick : ℤ}
    (h : activeTick s clock macroStep = .ok (some tick)) :
    s.primary ≠ "" ∧ clock = activeClock s ∧ MixedRadix.DigitsBelow (digits s) ∧
      tick = macroStep * MixedRadix.radixProduct (digits s) + MixedRadix.listValue (digits s) := by
  simp only [activeTick, bind_eq_ok, throwIf_eq_ok, pure_eq_ok, exists_const] at h
  obtain ⟨hconfigured, last, hloop, hlast⟩ := h
  have hinv := foldlM_invariant (P := fun (done : List Frame) (active : String × ℤ) =>
      active.1 = done.getLast?.elim s.primary Frame.child ∧
      MixedRadix.DigitsBelow (done.map fun frame => (frame.count, frame.next - 1)) ∧
      active.2 = (done.map fun frame => (frame.count, frame.next - 1)).foldl
        (fun t p => t * p.1 + p.2) macroStep) hloop ⟨rfl, by simp [MixedRadix.DigitsBelow], rfl⟩ ?_
  · obtain ⟨hclock, hbelow, htick⟩ := hinv
    split_ifs at hlast with hactive
    · simp only [ne_eq, not_not] at hactive
      rw [← activeClock_eq] at hclock
      refine ⟨by tauto, hactive.symm.trans hclock, hbelow, ?_⟩
      rw [← Option.some.inj hlast, htick, MixedRadix.foldl_horner]
      rfl
  · rintro done frame rest active next - ⟨-, hbelow, htick⟩ hstep
    obtain ⟨rfl, hpos, hle⟩ := tickStep_eq_ok hstep
    refine ⟨by simp, ?_, by simp [htick]⟩
    intro p hp
    rw [List.map_append, List.mem_append] at hp
    rcases hp with hp | hp
    · exact hbelow p hp
    · simp only [List.map_cons, List.map_nil, List.mem_singleton] at hp
      subst hp
      simp only
      omega

/-- The frames below the active clock are its chain. -/
lemma Inv.chain_active (h : Inv s) :
    Chain s (activeClock s) ((digits s).map Prod.fst) ∧
      MixedRadix.radixProduct (digits s) ≤ int64Max := by
  obtain ⟨active, ticks, hlinked⟩ := h.frames
  have hactive := hlinked.active
  obtain ⟨hchain, hticks⟩ := hlinked.chain
  have hcounts : (digits s).map Prod.fst = s.frames.map Frame.count := by
    simp [digits]
  refine ⟨by rw [hcounts, ← hactive]; exact hchain, ?_⟩
  rw [MixedRadix.radixProduct, hcounts, ← hticks]
  cases hframes : s.frames using List.reverseRecOn with
  | nil =>
    rw [hframes] at hticks
    simp only [List.map_nil, List.prod_nil] at hticks
    rw [hticks]
    decide
  | append_singleton frames frame =>
    rw [hframes] at hlinked hticks
    obtain ⟨before, hinit, -, -, hle⟩ := linked_snoc hlinked
    rw [hticks, List.map_append, List.prod_append, List.map_singleton, List.prod_singleton,
      ← hinit.chain.2]
    exact hle

/-- An ancestor has a shorter chain. -/
lemma chain_of_ancestor {clock ancestor : String} (hinv : Inv s)
    (h : Relation.TransGen (ParentOf s) clock ancestor) :
    ∃ counts counts', Chain s clock counts ∧ Chain s ancestor counts' ∧
      counts'.length < counts.length := by
  induction h with
  | single hparent =>
    obtain ⟨count, hr⟩ := hparent
    obtain ⟨-, -, counts, hchain⟩ := hinv.installed _ _ _ hr
    exact ⟨_, counts, .child hr hchain, hchain, by simp⟩
  | tail _ hparent ih =>
    obtain ⟨count, hr⟩ := hparent
    obtain ⟨counts, counts', hchain, hchain', hlt⟩ := ih
    obtain ⟨-, -, counts'', hchain''⟩ := hinv.installed _ _ _ hr
    have heq := hchain'.unique hinv.primary (.child hr hchain'')
    rw [heq] at hlt
    exact ⟨counts, counts'', hchain, hchain'', by simp at hlt; omega⟩

/-- A chain leads to the primary clock. -/
lemma Chain.rooted {clock : String} {counts : List ℤ} (h : Chain s clock counts) :
    Relation.ReflTransGen (ParentOf s) clock s.primary := by
  induction h with
  | root => exact .refl
  | child hr _ ih => exact .head ⟨_, hr⟩ ih

/-- `accepted_ticks` returns the first tick of the macro step for every clock. -/
lemma acceptedTicks_spec {macroStep : ℤ} {ticks : List (String × ℤ)}
    (h : acceptedTicks s macroStep = .ok ticks) (clock : String)
    (hclock : clock = s.primary ∨ (s.relation clock).isSome = true) :
    ∃ perMacro, ticksPerMacro s clock = .ok perMacro ∧
      OrderedMap.lookup ticks clock = some (macroStep * perMacro) := by
  simp only [acceptedTicks, bind_eq_ok, throwIf_eq_ok, exists_const] at h
  obtain ⟨-, perMacro, hperMacro, value, hvalue, hloop⟩ := h
  have hproduct : ∀ {a b c : ℤ}, checkedMultiply a b = .ok c → c = a * b := by
    intro a b c hc
    simp only [checkedMultiply, bind_eq_ok, pure_eq_ok] at hc
    obtain ⟨-, -, rfl⟩ := hc
    rfl
  have hinv := foldlM_invariant (P := fun (done : List (String × Relation)) result =>
      (∀ k v, OrderedMap.lookup result k = some v →
        ∃ perMacro, ticksPerMacro s k = .ok perMacro ∧ v = macroStep * perMacro) ∧
      (OrderedMap.lookup result s.primary).isSome = true ∧
      ∀ entry ∈ done, (OrderedMap.lookup result entry.1).isSome = true) hloop ?_ ?_
  · obtain ⟨hvalues, hprimary, hinstalled⟩ := hinv
    have hsome : (OrderedMap.lookup ticks clock).isSome = true := by
      rcases hclock with rfl | hclock
      · exact hprimary
      · obtain ⟨r, hr⟩ := Option.isSome_iff_exists.mp hclock
        exact hinstalled _ (OrderedMap.mem_of_lookup hr)
    obtain ⟨v, hv⟩ := Option.isSome_iff_exists.mp hsome
    obtain ⟨perMacro, hperMacro, rfl⟩ := hvalues clock v hv
    exact ⟨perMacro, hperMacro, hv⟩
  · refine ⟨fun k v hv => ?_, by simp, by simp⟩
    rw [OrderedMap.lookup_emplace] at hv
    split_ifs at hv with hk
    · simp only [OrderedMap.lookup, Option.getD_none, Option.some.injEq] at hv
      subst hk hv
      exact ⟨perMacro, hperMacro, hproduct hvalue⟩
    · cases hv
  · rintro done entry rest result result' - ⟨hvalues, hprimary, hinstalled⟩ hstep
    simp only [acceptRelation, bind_eq_ok, pure_eq_ok] at hstep
    obtain ⟨perMacro', hperMacro', value', hvalue', rfl⟩ := hstep
    have hkeep : ∀ k, (OrderedMap.lookup result k).isSome = true →
        (OrderedMap.lookup (OrderedMap.emplace result entry.1 value') k).isSome = true := by
      intro k hk
      rw [OrderedMap.lookup_emplace]
      split_ifs
      · rfl
      · exact hk
    refine ⟨fun k v hv => ?_, hkeep _ hprimary, fun entry' hentry' => ?_⟩
    · rw [OrderedMap.lookup_emplace] at hv
      split_ifs at hv with hk
      · subst hk
        cases hold : OrderedMap.lookup result entry.1 with
        | none =>
          rw [hold, Option.getD_none, Option.some.injEq] at hv
          subst hv
          exact ⟨perMacro', hperMacro', hproduct hvalue'⟩
        | some w =>
          rw [hold, Option.getD_some, Option.some.injEq] at hv
          subst hv
          exact hvalues _ _ hold
      · exact hvalues k v hv
    · rcases List.mem_append.mp hentry' with hentry' | hentry'
      · exact hkeep _ (hinstalled entry' hentry')
      · rw [List.mem_singleton.mp hentry', OrderedMap.lookup_emplace]
        simp

/-- The invariant gives the promises. -/
lemma Inv.ticksEnumerated (h : Inv s) : TicksEnumerated s := by
  obtain ⟨hchain, hle⟩ := h.chain_active
  refine ⟨?_, ?_, ?_, fun macroStep ticks haccepted => acceptedTicks_spec haccepted⟩
  · intro clock hcycle
    obtain ⟨counts, counts', hcounts, hcounts', hlt⟩ := chain_of_ancestor h hcycle
    rw [hcounts.unique h.primary hcounts'] at hlt
    omega
  · rintro clock ⟨parent, count⟩ hr
    obtain ⟨-, -, counts, hcounts⟩ := h.installed clock parent count hr
    exact (Chain.child hr hcounts).rooted
  · intro clock macroStep tick htick
    obtain ⟨hconfigured, rfl, hbelow, rfl⟩ := activeTick_spec (activeTick_of_returnsTick htick)
    obtain ⟨hlow, hhigh⟩ := MixedRadix.listValue_bounds hbelow
    refine ⟨ticksPerMacro_of_chain h hconfigured hchain hle [] (by simp), rfl, by omega, ?_⟩
    rw [add_mul, one_mul]
    omega

/-- The invariant at two moments of one run excludes aliases. -/
lemma Inv.noAlias (h : Inv s) {operations : List Operation}
    (h' : Inv (Clocks.run s operations)) : NoAlias s (Clocks.run s operations) := by
  intro clock macroStep macroStep' tick htick htick'
  obtain ⟨hconfigured, rfl, hbelow, heq⟩ := activeTick_spec (activeTick_of_returnsTick htick)
  obtain ⟨-, hclock, hbelow', heq'⟩ := activeTick_spec (activeTick_of_returnsTick htick')
  obtain ⟨hprimary, hmono⟩ := extends_run hconfigured operations
  -- the clock has the same chain at both moments, so the same counts
  have hchain := h.chain_active.1.mono hprimary hmono
  have hchain' := h'.chain_active.1
  rw [← hclock] at hchain'
  have hcounts := hchain.unique h'.primary hchain'
  exact MixedRadix.horner_injective hbelow hbelow' hcounts (heq.symm.trans heq')

end Promises

/-- **Nested clocks enumerate ticks without gaps or aliases**, in every run in which every first
declaration names a child other than the primary clock and a parent that is the primary clock or
has been declared: in every state that is reached the relations are a tree rooted at the primary
clock, a returned tick is the mixed-radix value of the macro step and the nested indices, and no
other macro step or indices give it, then or later in the run.

**Proof sketch.**  The invariant holds in every state of the run (`Inv.run`), whatever operations
throw; the promises follow from it (`Inv.ticksEnumerated`, `Inv.noAlias`). -/
theorem clocks_enumerate_ticks (before after : List Operation)
    (hbefore : AdmissibleRun initial before) (hafter : AdmissibleRun (run initial before) after) :
    TicksEnumerated (run initial before) ∧
      NoAlias (run initial before) (run (run initial before) after) := by
  have h := Inv.initial.run hbefore
  exact ⟨h.ticksEnumerated, h.noAlias (h.run hafter)⟩

/-- The primary clock is configured, a child clock opens a scope of two ticks in it and starts
both of them. -/
theorem clocks_enumerate_two_ticks :
    AdmissibleRun initial [.configure "p", .beginScope "p" "c" 2, .iteration 0 0] ∧
      AdmissibleRun (run initial [.configure "p", .beginScope "p" "c" 2, .iteration 0 0])
        [.iteration 0 1] ∧
      TicksEnumerated (run initial [.configure "p", .beginScope "p" "c" 2, .iteration 0 0]) ∧
      NoAlias (run initial [.configure "p", .beginScope "p" "c" 2, .iteration 0 0])
        (run (run initial [.configure "p", .beginScope "p" "c" 2, .iteration 0 0])
          [.iteration 0 1]) := by
  have hbefore : AdmissibleRun initial
      [.configure "p", .beginScope "p" "c" 2, .iteration 0 0] := by
    refine ⟨trivial, ?_, trivial, trivial⟩
    intro _ _
    exact ⟨by decide, .inl (by decide)⟩
  have hafter : AdmissibleRun (run initial [.configure "p", .beginScope "p" "c" 2, .iteration 0 0])
      [.iteration 0 1] := ⟨trivial, trivial⟩
  exact ⟨hbefore, hafter, clocks_enumerate_ticks _ _ hbefore hafter⟩

/-! ## A cycle through the primary clock -/

/-- A child of the primary clock, and then the primary clock as a child of it. -/
def cyclicOperations : List Operation :=
  [.configure "p", .declare "p" "c" 2, .declare "c" "p" 3]

/-- The state with the cycle. -/
def cyclicState : ClockScheduleState :=
  ⟨"p", [("c", ⟨"p", 2⟩), ("p", ⟨"c", 3⟩)], []⟩

/-- The primary clock has one tick in a macro step, whatever its relation is. -/
lemma ticksPerMacroFrom_primary {s : ClockScheduleState} (hconfigured : s.primary ≠ "")
    (visiting : List String) : ticksPerMacroFrom s s.primary visiting = .ok 1 := by
  rw [ticksPerMacroFrom, if_neg (by tauto), if_pos rfl]

/-- The first declaration of the cycle is accepted. -/
lemma declare_child_accepted : (declareRelation ⟨"p", [], []⟩ "p" "c" 2).2 = .ok () := by
  have hroot : ticksPerMacroFrom ⟨"p", [("c", ⟨"p", 2⟩)], []⟩ "p" ["c"] = .ok 1 :=
    ticksPerMacroFrom_primary (s := ⟨"p", [("c", ⟨"p", 2⟩)], []⟩) (by decide) _
  have hchild : ticksPerMacro ⟨"p", [("c", ⟨"p", 2⟩)], []⟩ "c" = .ok 2 := by
    rw [ticksPerMacro, ticksPerMacroFrom, if_neg (by decide), if_neg (by decide),
      dif_neg (by decide)]
    show (ticksPerMacroFrom _ "p" ["c"] >>= fun ticks => checkedMultiply ticks 2) = _
    rw [hroot]
    rfl
  show (ticksPerMacro ⟨"p", [("c", ⟨"p", 2⟩)], []⟩ "c" >>= fun _ => pure ()) = _
  rw [hchild]
  rfl

/-- The second declaration of the cycle is accepted: its validation stops at the primary clock. -/
lemma declare_primary_accepted :
    (declareRelation ⟨"p", [("c", ⟨"p", 2⟩)], []⟩ "c" "p" 3).2 = .ok () := by
  show (ticksPerMacroFrom cyclicState "p" [] >>= fun _ => pure ()) = _
  rw [show ticksPerMacroFrom cyclicState "p" [] = .ok 1 from
    ticksPerMacroFrom_primary (s := cyclicState) (by decide) []]
  rfl

/-- **The relations of a run may be a cycle**: every operation of the run is accepted, and the
primary clock is its own ancestor. -/
theorem clocks_accept_cycle :
    (step initial (.configure "p")).2 = .ok () ∧
      (step (run initial [.configure "p"]) (.declare "p" "c" 2)).2 = .ok () ∧
      (step (run initial [.configure "p", .declare "p" "c" 2]) (.declare "c" "p" 3)).2 = .ok () ∧
      run initial cyclicOperations = cyclicState ∧
      Relation.TransGen (ParentOf cyclicState) "p" "p" ∧
      ¬ TicksEnumerated (run initial cyclicOperations) := by
  have hstate : run initial cyclicOperations = cyclicState := by rfl
  have hcycle : Relation.TransGen (ParentOf cyclicState) "p" "p" := by
    have hprimary : ParentOf cyclicState "p" "c" := ⟨3, by decide⟩
    have hchild : ParentOf cyclicState "c" "p" := ⟨2, by decide⟩
    exact .tail (.single hprimary) hchild
  refine ⟨rfl, declare_child_accepted, declare_primary_accepted, hstate, hcycle, fun h => ?_⟩
  rw [hstate] at h
  exact h.acyclic "p" hcycle

end Pops.Clocks
