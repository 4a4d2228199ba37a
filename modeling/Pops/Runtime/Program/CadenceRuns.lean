import Pops.Foundation.Tiling
import Pops.Runtime.Program.Cadence

/-!
# Runs of the cadence dispatcher

Between two steps the dispatcher is settled: its clock, its held window and its flags are functions
of the durations accepted so far.  During a step it works inside a frame that remembers the settled
state.  A completed step leads to the settled state of one more duration, however often the Program
was suspended; a failed one leads back.

## Main definitions

* `Pops.Cadence.held`, `opened` — the durations held by the open window, and the time at which it
  was opened.
* `Pops.Cadence.Settled` — the dispatcher stands between two steps.
* `Pops.Cadence.InFrame` — the dispatcher works on a step.
* `Pops.Cadence.LastDt` — what a call leaves of the length of the last substep.

## Main results

* `Pops.Cadence.runSubsteps_spec` — what the loop over the substeps preserves.
* `Pops.Cadence.cadence_over_runs` — the cadence over whole runs.
-/

namespace Pops.Cadence

/-! ## The open window -/

/-- The durations held by the open window: those accepted since the last multiple of the stride. -/
def held (stride : ℤ) (accepted : List ℚ) : List ℚ :=
  accepted.drop (accepted.length - accepted.length % stride.toNat)

/-- The time at which the open window was opened. -/
def opened (stride : ℤ) (accepted : List ℚ) : ℚ :=
  (accepted.take (accepted.length - accepted.length % stride.toNat)).sum

/-- The time at which the window opened and the held steps add up to all accepted steps. -/
lemma opened_add_held (stride : ℤ) (accepted : List ℚ) :
    opened stride accepted + (held stride accepted).sum = accepted.sum := by
  rw [opened, held, ← List.sum_append, List.take_append_drop]

/-- The number of held steps is the rest modulo the stride. -/
lemma length_held (stride : ℤ) (accepted : List ℚ) :
    (held stride accepted).length = accepted.length % stride.toNat := by
  rw [held, List.length_drop]
  have := Nat.mod_le accepted.length stride.toNat
  omega

/-- A step that does not fill the window is added to it. -/
lemma held_append_of_ne {stride : ℤ} {accepted : List ℚ} (dt : ℚ) (hstride : 1 ≤ stride)
    (h : accepted.length % stride.toNat + 1 ≠ stride.toNat) :
    held stride (accepted ++ [dt]) = held stride accepted ++ [dt] := by
  have hpos : 0 < stride.toNat := by omega
  have hlt := Nat.mod_lt accepted.length hpos
  have hmod : (accepted.length + 1) % stride.toNat = accepted.length % stride.toNat + 1 := by
    rw [← Nat.mod_add_mod, Nat.mod_eq_of_lt (by omega)]
  have hle := Nat.mod_le accepted.length stride.toNat
  rw [held, held, List.length_append, List.length_singleton, hmod]
  have hindex : accepted.length + 1 - (accepted.length % stride.toNat + 1) =
      accepted.length - accepted.length % stride.toNat := by omega
  rw [hindex, List.drop_append_of_le_length (by omega)]

/-- A step that fills the window closes it. -/
lemma held_append_of_eq {stride : ℤ} {accepted : List ℚ} (dt : ℚ)
    (h : accepted.length % stride.toNat + 1 = stride.toNat) :
    held stride (accepted ++ [dt]) = [] := by
  have hmod : (accepted.length + 1) % stride.toNat = 0 := by
    rw [← Nat.mod_add_mod, h, Nat.mod_self]
  rw [held, List.length_append, List.length_singleton, hmod, Nat.sub_zero]
  simp

/-! ## Settled states -/

/-- The dispatcher stands between two steps. -/
structure Settled (w : World) : Prop where
  substeps_pos : 1 ≤ w.state.substeps
  stride_pos : 1 ≤ w.state.stride
  durations : ∀ dt ∈ w.accepted, 0 < dt
  time : w.time = w.accepted.sum
  macroStep : w.macroStep = w.accepted.length
  windowSteps : w.state.windowSteps = (held w.state.stride w.accepted).length
  windowDt : w.state.windowDt = (held w.state.stride w.accepted).sum
  windowStart : w.state.windowStart =
    if w.state.windowSteps = 0 then 0 else opened w.state.stride w.accepted
  dispatchActive : w.state.dispatchActive = false
  clockRestorePending : w.state.clockRestorePending = false
  balanceActive : w.state.balanceActive = false
  balanceTarget : w.state.balanceTarget = 0
  balanceReplay : w.state.balanceReplay = false
  continuation : w.state.continuation = none

/-- A freshly configured state is settled. -/
lemma settled_fresh {substeps stride : ℤ} (hsubsteps : 1 ≤ substeps) (hstride : 1 ≤ stride) :
    Settled (fresh substeps stride) where
  substeps_pos := hsubsteps
  stride_pos := hstride
  durations := by simp [fresh]
  time := by simp [fresh]
  macroStep := by simp [fresh]
  windowSteps := by simp [fresh, held]
  windowDt := by simp [fresh, held]
  windowStart := by simp [fresh]
  dispatchActive := rfl
  clockRestorePending := rfl
  balanceActive := rfl
  balanceTarget := rfl
  balanceReplay := rfl
  continuation := rfl

/-- The step that is prepared from a settled state. -/
def preparedStep (base : World) (dt : ℚ) : PreparedCadenceStep where
  due := decide (base.state.windowSteps + 1 = base.state.stride)
  effectiveDt := base.state.windowDt + dt
  windowStart := opened base.state.stride base.accepted
  windowEnd := base.time + dt
  numericalDt := base.state.windowDt + dt
  windowSteps := base.state.windowSteps + 1

namespace Settled

variable {w : World} (h : Settled w)

include h

/-- The held count is the phase of the macro-step. -/
lemma windowSteps_eq_mod : w.state.windowSteps = w.macroStep % w.state.stride := by
  have hstride := h.stride_pos
  rw [h.windowSteps, length_held, h.macroStep]
  push_cast
  rw [Int.toNat_of_nonneg (by omega)]

/-- A window holds fewer steps than the stride. -/
lemma windowSteps_lt : 0 ≤ w.state.windowSteps ∧ w.state.windowSteps < w.state.stride := by
  have hstride := h.stride_pos
  rw [h.windowSteps_eq_mod]
  exact ⟨Int.emod_nonneg _ (by omega), Int.emod_lt_of_pos _ (by omega)⟩

/-- The held duration is positive exactly if a step is held. -/
lemma windowDt_nonneg : 0 ≤ w.state.windowDt := by
  rw [h.windowDt]
  exact List.sum_nonneg fun dt hdt => (h.durations dt (List.mem_of_mem_drop hdt)).le

/-- No step is held just when no duration is. -/
lemma windowDt_eq_zero_iff : w.state.windowSteps = 0 ↔ w.state.windowDt = 0 := by
  rw [h.windowDt, h.windowSteps, Nat.cast_eq_zero, List.length_eq_zero_iff]
  constructor
  · intro hnil
    rw [hnil, List.sum_nil]
  · intro hsum
    by_contra hne
    have hpos := List.sum_pos (held w.state.stride w.accepted)
      (fun dt hdt => h.durations dt (List.mem_of_mem_drop hdt)) hne
    rw [hsum] at hpos
    exact lt_irrefl 0 hpos

/-- The clock is the opening of the window and the held duration. -/
lemma time_eq : w.time = opened w.state.stride w.accepted + w.state.windowDt := by
  rw [h.time, h.windowDt, opened_add_held]

/-- The start of the window of the next step. -/
lemma windowStart_eq :
    (if w.state.windowSteps = 0 then w.time else w.state.windowStart) =
      opened w.state.stride w.accepted := by
  split_ifs with hzero
  · rw [h.time_eq, h.windowDt_eq_zero_iff.mp hzero, add_zero]
  · rw [h.windowStart, if_neg hzero]

/-- The held window passes its check. -/
lemma validateCadenceWindowImage_eq (runtime : String) :
    validateCadenceWindowImage w.state w.state.windowDt w.state.windowSteps w.state.windowStart
      w.macroStep runtime = .ok () := by
  have hstep0 := h.macroStep
  have hstride := h.stride_pos
  have hsubsteps := h.substeps_pos
  have hsteps := h.windowSteps_lt
  have hphase := h.windowSteps_eq_mod
  have htmod : w.macroStep.tmod w.state.stride = w.macroStep % w.state.stride :=
    Int.tmod_eq_emod_of_nonneg (by omega)
  have hzero : (w.state.windowSteps = 0) = (w.state.windowDt = 0) :=
    propext h.windowDt_eq_zero_iff
  simp only [validateCadenceWindowImage, bind_eq_ok, throwIf_eq_ok, exists_const, htmod]
  refine ⟨by omega, by omega, by omega, by omega, not_lt.mpr h.windowDt_nonneg, not_not.mpr hzero,
    ?_⟩
  rintro ⟨hcase, hne⟩
  exact hne (by rw [h.windowStart, if_pos hcase])

/-- A held window was opened before the present time. -/
lemma windowStart_lt_time (hne : w.state.windowSteps ≠ 0) : w.state.windowStart < w.time := by
  have hpos : 0 < w.state.windowDt :=
    lt_of_le_of_ne h.windowDt_nonneg fun heq => hne (h.windowDt_eq_zero_iff.mpr heq.symm)
  rw [h.windowStart, if_neg hne, h.time_eq]
  linarith

/-- The preparation of a step from a settled state succeeds for a positive duration. -/
lemma prepareCadenceStep_eq {dt : ℚ} (runtime : String) (hdt : 0 < dt) :
    prepareCadenceStep w.state w.time w.macroStep dt runtime = .ok (preparedStep w dt) := by
  have hsteps := h.windowSteps_lt
  have hnonneg := h.windowDt_nonneg
  have hnumerical : (if w.state.windowSteps = 0 then dt else
      w.time + dt - opened w.state.stride w.accepted) = w.state.windowDt + dt := by
    split_ifs with hcase
    · rw [h.windowDt_eq_zero_iff.mp hcase, zero_add]
    · rw [h.time_eq]
      ring
  simp only [prepareCadenceStep, bind_eq_ok, throwIf_eq_ok, pure_eq_ok, exists_const,
    h.validateCadenceWindowImage_eq, validateCadenceWindowTimeImage, h.windowStart_eq, hnumerical]
  refine ⟨by simp [h.clockRestorePending], trivial, ?_, not_not.mpr hdt, not_not.mpr (by linarith),
    not_not.mpr (by linarith), ?_, by omega, rfl⟩
  · rintro ⟨hne, hlt⟩
    exact hlt (h.windowStart_lt_time hne)
  · rintro (hneg | hne)
    · linarith
    · exact hne (by rw [h.time_eq]; ring)

omit h in
/-- No step is prepared for another duration. -/
lemma prepareCadenceStep_error {dt : ℚ} (runtime : String) (hdt : ¬0 < dt) :
    ∃ e, prepareCadenceStep w.state w.time w.macroStep dt runtime = .error e := by
  cases hcase : prepareCadenceStep w.state w.time w.macroStep dt runtime with
  | error e => exact ⟨e, rfl⟩
  | ok step =>
    simp only [prepareCadenceStep, bind_eq_ok, throwIf_eq_ok, exists_const] at hcase
    obtain ⟨-, _, -, -, -, hpositive, -⟩ := hcase
    exact absurd (not_not.mp hpositive) hdt

end Settled

/-! ## The partition of a window -/

/-- The `k`-th part of the window. -/
def interval (step : PreparedCadenceStep) (substeps k : ℤ) : PreparedCadenceSubstep where
  start := endpoint step substeps k
  stop := endpoint step substeps (k + 1)
  dt := endpoint step substeps (k + 1) - endpoint step substeps k

/-- The first parts of the window. -/
def intervals (step : PreparedCadenceStep) (substeps : ℤ) (n : ℕ) : List PreparedCadenceSubstep :=
  (List.range n).map fun k : ℕ => interval step substeps (k : ℤ)

section Partition

variable {step : PreparedCadenceStep} {substeps : ℤ} (hpos : 0 < step.numericalDt)
  (hend : step.windowStart + step.numericalDt = step.windowEnd) (hsubsteps : 1 ≤ substeps)

include hend hsubsteps

/-- The ends of the parts lie at equal distances. -/
lemma endpoint_eq (k : ℤ) :
    endpoint step substeps k =
      step.windowStart + step.numericalDt * ((k : ℚ) / (substeps : ℚ)) := by
  have hne : (substeps : ℚ) ≠ 0 := by
    have : (0 : ℚ) < (substeps : ℚ) := by exact_mod_cast hsubsteps
    exact this.ne'
  unfold endpoint
  split_ifs with h0 h1
  · simp [h0]
  · rw [h1, div_self hne, mul_one, hend]
  · rfl

include hpos

/-- Every part has a positive length. -/
lemma endpoint_lt_succ (k : ℤ) : endpoint step substeps k < endpoint step substeps (k + 1) := by
  have hs : (0 : ℚ) < (substeps : ℚ) := by exact_mod_cast hsubsteps
  rw [endpoint_eq hend hsubsteps, endpoint_eq hend hsubsteps]
  have hlt : (k : ℚ) / (substeps : ℚ) < ((k + 1 : ℤ) : ℚ) / (substeps : ℚ) := by
    rw [div_lt_div_iff_of_pos_right hs]
    push_cast
    linarith
  have := mul_lt_mul_of_pos_left hlt hpos
  linarith

/-- A part of a due window is prepared. -/
lemma prepareCadenceSubstep_eq {k : ℤ} (runtime : String) (hdue : step.due = true)
    (h0 : 0 ≤ k) (hk : k < substeps) :
    prepareCadenceSubstep step k substeps runtime = .ok (interval step substeps k) := by
  have hlt := endpoint_lt_succ hpos hend hsubsteps k
  have hdt : (if substeps = 1 then step.numericalDt else
      endpoint step substeps (k + 1) - endpoint step substeps k) =
      endpoint step substeps (k + 1) - endpoint step substeps k := by
    split_ifs with hone
    · obtain rfl : k = 0 := by omega
      rw [endpoint_eq hend hsubsteps, endpoint_eq hend hsubsteps, hone]
      push_cast
      ring
    · rfl
  simp only [prepareCadenceSubstep, bind_eq_ok, throwIf_eq_ok, pure_eq_ok, exists_const, hdt]
  refine ⟨by simp [hdue], by omega, ?_, rfl⟩
  rintro (hneg | hneg | hne)
  · exact hneg hlt
  · exact hneg (sub_pos.mpr hlt)
  · exact hne (add_sub_cancel _ _)

/-- The whole partition of a due window passes its check. -/
lemma validateCadencePartition_eq (runtime : String) (hdue : step.due = true) :
    validateCadencePartition step substeps runtime = .ok () := by
  simp only [validateCadencePartition, bind_eq_ok, throwIf_eq_ok, exists_const, forEach_eq_ok,
    pure_eq_ok]
  refine ⟨?_, fun k hk => ?_⟩
  · rintro (h | h | h | h | h)
    · omega
    · rw [hdue] at h
      cases h
    · exact h (by rw [← hend]; linarith)
    · exact h hpos
    · exact h hend
  · rw [List.mem_range] at hk
    exact ⟨_, prepareCadenceSubstep_eq hpos hend hsubsteps runtime hdue (by omega) (by omega),
      trivial⟩

/-- The parts tile the window. -/
lemma tiles_intervals (n : ℕ) :
    Tiles PreparedCadenceSubstep.start PreparedCadenceSubstep.stop (endpoint step substeps 0)
      (endpoint step substeps n) (intervals step substeps n) := by
  induction n with
  | zero => exact Tiles.nil _
  | succ n ih =>
    have hlt := endpoint_lt_succ hpos hend hsubsteps n
    rw [intervals, List.range_succ, List.map_append]
    refine ih.append ?_
    push_cast
    exact Tiles.singleton (i := interval step substeps n) hlt

end Partition

/-! ## Inside a frame -/

/-- Cancelling the frame leads back to the settled state, but for the last duration handed to the
Program. -/
def Restores (base w : World) : Prop :=
  cancelCadenceContinuation w.state = { base.state with lastDt := w.state.lastDt } ∧
    w.accepted = base.accepted

/-- The last duration handed to the Program once the given substeps have been entered. -/
def lastEntered (before : ℚ) (entered : List PreparedCadenceSubstep) : ℚ :=
  (entered.getLast?.map PreparedCadenceSubstep.dt).getD before

/-- The last duration handed to the Program once the given intervals have been run. -/
def lastRun (base : World) (ran : List PreparedCadenceSubstep) :
    ℚ := lastEntered base.state.lastDt ran

/-- The dispatcher works on the step of duration `dt` that began in the settled state `base`: the
parts of the window before the current one have been run, and the current one has been entered if
the Program is to be resumed. -/
structure InFrame (base : World) (dt : ℚ) (w : World) (frame : CadenceContinuation) : Prop where
  restores : Restores base w
  cadence : frame.cadence = preparedStep base dt
  acceptedTime : frame.acceptedTime = base.time
  requestedDt : frame.requestedDt = dt
  acceptedMacroStep : frame.acceptedMacroStep = base.macroStep
  executing : frame.executing = false
  next : frame.next = frame.numericalStarted
  substep_nonneg : 0 ≤ frame.substep
  substep_le : frame.substep ≤ base.state.substeps
  held : frame.cadence.due = false → frame.substep = 0 ∧ frame.numericalStarted = false
  started : frame.numericalStarted = true → frame.substep < base.state.substeps
  partition : frame.numericalStarted = true →
    frame.partition = interval frame.cadence base.state.substeps frame.substep
  ran : w.ran = intervals frame.cadence base.state.substeps
    (frame.substep.toNat + if frame.numericalStarted = true then 1 else 0)
  lastDt : w.state.lastDt = lastRun base w.ran

/-- A state that restores the settled one has its number of substeps. -/
lemma Restores.substeps {base w : World} (h : Restores base w) :
    w.state.substeps = base.state.substeps := by
  have := congrArg ProgramRuntimeState.substeps h.1
  exact this

/-- A change of the cursors, of the last duration or of the record does not matter. -/
lemma Restores.of_state {base w w' : World} (h : Restores base w)
    (hstate : ∃ lastDt, w'.state = { w.state with lastDt := lastDt })
    (haccepted : w'.accepted = w.accepted) : Restores base w' := by
  obtain ⟨lastDt, hstate⟩ := hstate
  refine ⟨?_, haccepted.trans h.2⟩
  have hcancel := congrArg (fun s : ProgramRuntimeState => { s with lastDt := lastDt }) h.1
  rw [hstate]
  exact hcancel

section Loop

variable {base : World} {dt : ℚ} (hbase : Settled base) (hdt : 0 < dt)

/-- The window of a prepared step. -/
lemma preparedStep_window (hbase : Settled base) (hdt : 0 < dt) :
    0 < (preparedStep base dt).numericalDt ∧
      (preparedStep base dt).windowStart + (preparedStep base dt).numericalDt =
        (preparedStep base dt).windowEnd := by
  have hnonneg := hbase.windowDt_nonneg
  refine ⟨?_, ?_⟩
  · change 0 < base.state.windowDt + dt
    linarith
  · change opened base.state.stride base.accepted + (base.state.windowDt + dt) = base.time + dt
    rw [hbase.time_eq]
    ring

include hbase hdt

/-- Entering a substep of a due window succeeds; afterwards one more part has been run. -/
lemma enterSubstep_spec {w : World} {frame : CadenceContinuation} (runtime : String)
    (h : InFrame base dt w frame) (hdue : frame.cadence.due = true)
    (hlt : frame.substep < base.state.substeps) :
    ∃ w', enterSubstep w frame runtime = .ok (w', { frame with
        partition := interval frame.cadence base.state.substeps frame.substep
        numericalStarted := true
        next := false
        executing := true }) ∧
      Restores base w' ∧
      w'.ran = intervals frame.cadence base.state.substeps (frame.substep.toNat + 1) ∧
      w'.state.lastDt = lastRun base w'.ran := by
  obtain ⟨hpos, hend⟩ := preparedStep_window hbase hdt
  rw [← h.cadence] at hpos hend
  have hnonneg := h.substep_nonneg
  cases hstarted : frame.numericalStarted with
  | false =>
    have hnext := h.next
    have hran := h.ran
    rw [hstarted] at hnext hran
    have hprepare := prepareCadenceSubstep_eq hpos hend hbase.substeps_pos runtime hdue
      h.substep_nonneg hlt
    have hsubsteps := h.restores.substeps
    refine ⟨{ w with
      state := { w.state with
        lastDt := (interval frame.cadence base.state.substeps frame.substep).dt }
      time := (interval frame.cadence base.state.substeps frame.substep).start
      macroStep := frame.acceptedMacroStep - (frame.cadence.windowSteps - 1)
      ran := w.ran ++ [interval frame.cadence base.state.substeps frame.substep] }, ?_,
      h.restores.of_state ⟨_, rfl⟩ rfl, ?_, by simp [lastRun, lastEntered]⟩
    · rw [enterSubstep, if_pos hstarted, hsubsteps, hprepare, ok_bind]
      congr 2
      rw [← hnext]
    · rw [intervals, List.range_succ, List.map_append]
      change w.ran ++ [interval frame.cadence base.state.substeps frame.substep] = _
      rw [hran, intervals]
      simp [Int.toNat_of_nonneg hnonneg]
  | true =>
    have hnext := h.next
    have hran := h.ran
    rw [hstarted] at hnext hran
    refine ⟨w, ?_, h.restores, hran, h.lastDt⟩
    rw [enterSubstep, if_neg (by simp [hstarted]), throwIf_neg (by simp [hnext])]
    change Except.ok _ = _
    congr 2
    rw [← h.partition hstarted, ← hstarted]

/-- **The loop over the substeps**: it ends after all parts of the window, or it is suspended inside
one of them, or it fails; no part is run outside a due window, and the settled state can be
restored in every case.  It ends after all parts if every callback returns.

**Proof sketch.** By induction on the number of passes that are left.  A pass enters the current
part, or resumes it, and then takes the end of the callback. -/
theorem runSubsteps_spec (runtime : String) : ∀ (remaining : ℕ) (w : World)
    (frame : CadenceContinuation) (callbacks : List Callback), InFrame base dt w frame →
    frame.portIdentity = "" → remaining = passes w frame →
    match runSubsteps runtime remaining w frame callbacks with
    | .finished w' frame' => InFrame base dt w' frame' ∧ frame'.numericalStarted = false ∧
        frame'.substep = if frame'.cadence.due = true then base.state.substeps else 0
    | .suspended w' frame' => InFrame base dt w' frame' ∧ frame'.numericalStarted = true ∧
        frame'.portIdentity ≠ "" ∧ ∃ c ∈ callbacks, c ≠ .returns
    | .failed w' _ => Restores base w' ∧ ((preparedStep base dt).due = true ∨ w'.ran = []) ∧
        ∃ c ∈ callbacks, c ≠ .returns := by
  intro remaining
  induction remaining with
  | zero =>
    intro w frame callbacks h _ hremaining
    rw [runSubsteps]
    unfold passes at hremaining
    split_ifs at hremaining with hdue
    · have hsubsteps := h.restores.substeps
      have hle := h.substep_le
      have heq : frame.substep = base.state.substeps := by omega
      refine ⟨h, ?_, by rw [if_pos hdue, heq]⟩
      by_contra hstarted
      have := h.started (by simpa using hstarted)
      omega
    · have hheld := h.held (by simpa using hdue)
      exact ⟨h, hheld.2, by rw [if_neg hdue, hheld.1]⟩
  | succ remaining ih =>
    intro w frame callbacks h hport hremaining
    unfold passes at hremaining
    split_ifs at hremaining with hdue
    have hsubsteps := h.restores.substeps
    have hnonneg := h.substep_nonneg
    have hlt : frame.substep < base.state.substeps := by omega
    have hpreparedDue : (preparedStep base dt).due = true := by rw [← h.cadence]; exact hdue
    obtain ⟨w', henter, hrestores, hran, hlast⟩ := enterSubstep_spec hbase hdt runtime h hdue hlt
    rw [runSubsteps, henter]
    dsimp only
    have hmem : callbacks.headD .returns ≠ .returns → ∃ c ∈ callbacks, c ≠ .returns := by
      intro hne
      cases callbacks with
      | nil => exact absurd rfl hne
      | cons c rest => exact ⟨c, List.mem_cons_self, hne⟩
    cases hhead : callbacks.headD .returns with
    | throws e =>
      rw [hhead] at hmem
      simp only [finishCallback]
      exact ⟨hrestores, Or.inl hpreparedDue, hmem (by simp)⟩
    | suspends identity =>
      rw [hhead] at hmem
      by_cases hidentity : identity = ""
      · simp only [finishCallback, throwIf, hidentity, if_true]
        exact ⟨hrestores, Or.inl hpreparedDue, hmem (by simp)⟩
      · simp only [finishCallback, throwIf_neg hidentity, ok_bind]
        change match (if identity ≠ "" then _ else _ : LoopEnd) with
          | .finished w' frame' => _
          | .suspended w' frame' => _
          | .failed w' _ => _
        rw [if_pos hidentity]
        refine ⟨⟨hrestores, h.cadence, h.acceptedTime, h.requestedDt, h.acceptedMacroStep, rfl, rfl,
          hnonneg, hlt.le, fun hfalse => ?_, fun _ => hlt, fun _ => rfl, hran, hlast⟩,
            rfl, hidentity,
          hmem (by simp)⟩
        rw [hdue] at hfalse
        cases hfalse
    | returns =>
      simp only [finishCallback, hport, ne_eq, not_true_eq_false, if_false, Bool.false_eq_true]
      have hframe : InFrame base dt { w' with
            time := (interval frame.cadence base.state.substeps frame.substep).stop }
          { frame with
            partition := interval frame.cadence base.state.substeps frame.substep
            numericalStarted := false
            next := false
            executing := false
            substep := frame.substep + 1 } := by
        refine ⟨hrestores.of_state ⟨w'.state.lastDt, rfl⟩ rfl, h.cadence, h.acceptedTime,
          h.requestedDt, h.acceptedMacroStep, rfl, rfl, ?_, ?_, fun hfalse => ?_, fun hfalse => ?_,
          fun hfalse => ?_, ?_, hlast⟩
        · change 0 ≤ frame.substep + 1
          omega
        · change frame.substep + 1 ≤ base.state.substeps
          omega
        · change frame.cadence.due = false at hfalse
          rw [hdue] at hfalse
          cases hfalse
        · cases hfalse
        · cases hfalse
        · change w'.ran =
            intervals frame.cadence base.state.substeps ((frame.substep + 1).toNat + 0)
          rw [hran]
          congr 1
          omega
      have hrest := ih _ _ callbacks.tail hframe hport (by
        unfold passes
        dsimp only
        rw [if_pos hdue, hrestores.substeps]
        omega)
      have htail : (∃ c ∈ callbacks.tail, c ≠ .returns) → ∃ c ∈ callbacks, c ≠ .returns :=
        fun ⟨c, hc, hne⟩ => ⟨c, List.mem_of_mem_tail hc, hne⟩
      rw [hport] at hrest
      revert hrest
      generalize runSubsteps runtime remaining _ _ callbacks.tail = result
      intro hrest
      cases result with
      | finished w' frame' => exact hrest
      | suspended w' frame' => exact ⟨hrest.1, hrest.2.1, hrest.2.2.1, htail hrest.2.2.2⟩
      | failed w' e => exact ⟨hrest.1, hrest.2.1, htail hrest.2.2⟩

end Loop

/-! ## A whole step -/

/-- The intervals on which a step runs the Program. -/
def stepRuns (base : World) (dt : ℚ) : List PreparedCadenceSubstep :=
  if (preparedStep base dt).due = true then
    intervals (preparedStep base dt) base.state.substeps base.state.substeps.toNat
  else []

/-- The world after a completed step. -/
def completed (base : World) (dt : ℚ) : World where
  state := { base.state with
    windowDt := if (preparedStep base dt).due = true then 0 else base.state.windowDt + dt
    windowSteps := if (preparedStep base dt).due = true then 0 else base.state.windowSteps + 1
    windowStart := if (preparedStep base dt).due = true then 0
      else opened base.state.stride base.accepted
    lastDt := lastRun base (stepRuns base dt)
    balanceCompleted := true
    balanceWasDue := (preparedStep base dt).due }
  time := base.time + dt
  macroStep := base.macroStep + 1
  accepted := base.accepted ++ [dt]
  ran := stepRuns base dt

/-- The world after a failed step: only the last duration handed to the Program, and the record of
the intervals, may differ from the world before it. -/
def restored (base : World) (lastDt : ℚ) (ran : List PreparedCadenceSubstep) : World :=
  { base with state := { base.state with lastDt := lastDt }, ran := ran }

/-- A settled state is still settled after a failed step. -/
lemma Settled.restored {base : World} (h : Settled base) (lastDt : ℚ)
    (ran : List PreparedCadenceSubstep) : Settled (restored base lastDt ran) :=
  ⟨h.substeps_pos, h.stride_pos, h.durations, h.time, h.macroStep, h.windowSteps, h.windowDt,
    h.windowStart, h.dispatchActive, h.clockRestorePending, h.balanceActive, h.balanceTarget,
    h.balanceReplay, h.continuation⟩

/-- A step is due exactly if it fills its window. -/
lemma Settled.due_iff {base : World} (h : Settled base) (dt : ℚ) :
    (preparedStep base dt).due = true ↔
      base.accepted.length % base.state.stride.toNat + 1 = base.state.stride.toNat := by
  have hstride := h.stride_pos
  have hsteps := h.windowSteps
  rw [length_held] at hsteps
  change decide (base.state.windowSteps + 1 = base.state.stride) = true ↔ _
  rw [decide_eq_true_iff, hsteps]
  omega

/-- **A completed step leads to the settled state of one more duration.** -/
theorem settled_completed {base : World} {dt : ℚ} (h : Settled base) (hdt : 0 < dt) :
    Settled (completed base dt) where
  substeps_pos := h.substeps_pos
  stride_pos := h.stride_pos
  durations := by
    intro d hd
    rcases List.mem_append.mp hd with hd | hd
    · exact h.durations d hd
    · rw [List.mem_singleton.mp hd]
      exact hdt
  time := by
    change base.time + dt = (base.accepted ++ [dt]).sum
    rw [List.sum_append, List.sum_singleton, h.time]
  macroStep := by
    change base.macroStep + 1 = ((base.accepted ++ [dt]).length : ℤ)
    rw [List.length_append, List.length_singleton, h.macroStep]
    push_cast
    rfl
  windowSteps := by
    change (if (preparedStep base dt).due = true then 0 else base.state.windowSteps + 1) =
      ((held base.state.stride (base.accepted ++ [dt])).length : ℤ)
    split_ifs with hdue
    · rw [held_append_of_eq dt ((h.due_iff dt).mp hdue)]
      rfl
    · rw [held_append_of_ne dt h.stride_pos fun heq => hdue ((h.due_iff dt).mpr heq),
        List.length_append, List.length_singleton, h.windowSteps]
      push_cast
      rfl
  windowDt := by
    change (if (preparedStep base dt).due = true then 0 else base.state.windowDt + dt) =
      (held base.state.stride (base.accepted ++ [dt])).sum
    split_ifs with hdue
    · rw [held_append_of_eq dt ((h.due_iff dt).mp hdue)]
      rfl
    · rw [held_append_of_ne dt h.stride_pos fun heq => hdue ((h.due_iff dt).mpr heq),
        List.sum_append, List.sum_singleton, h.windowDt]
  windowStart := by
    have hsteps := h.windowSteps_lt
    change (if (preparedStep base dt).due = true then 0
      else opened base.state.stride base.accepted) =
      if (if (preparedStep base dt).due = true then 0 else base.state.windowSteps + 1) = 0 then 0
        else opened base.state.stride (base.accepted ++ [dt])
    split_ifs with hdue hzero hzero
    · rfl
    · exact absurd rfl hzero
    · omega
    · -- the opening time is the total less what is held, on both sides
      have hold := opened_add_held base.state.stride base.accepted
      have hnew := opened_add_held base.state.stride (base.accepted ++ [dt])
      rw [held_append_of_ne dt h.stride_pos fun heq => hdue ((h.due_iff dt).mpr heq),
        List.sum_append, List.sum_append, List.sum_singleton] at hnew
      linarith
  dispatchActive := h.dispatchActive
  clockRestorePending := h.clockRestorePending
  balanceActive := h.balanceActive
  balanceTarget := h.balanceTarget
  balanceReplay := h.balanceReplay
  continuation := h.continuation

/-- The state inside a frame differs from the settled one only in what the frame sets. -/
lemma Restores.state_eq {base w : World} (h : Restores base w) :
    w.state = { base.state with
      dispatchActive := w.state.dispatchActive
      lastDt := w.state.lastDt
      balanceActive := w.state.balanceActive
      balanceTarget := w.state.balanceTarget
      continuation := w.state.continuation } := by
  have hcancel := h.1
  cases hw : w.state
  rw [hw] at hcancel
  simp only [cancelCadenceContinuation, endBalanceDueWindow] at hcancel
  simp only [ProgramRuntimeState.mk.injEq] at hcancel ⊢
  grind

/-- A settled state has no frame to cancel. -/
lemma Settled.cancelCadenceContinuation_eq {w : World} (h : Settled w) :
    cancelCadenceContinuation w.state = w.state := by
  have hdispatch := h.dispatchActive
  have hactive := h.balanceActive
  have htarget := h.balanceTarget
  have hcontinuation := h.continuation
  cases hw : w.state
  rw [hw] at hdispatch hactive htarget hcontinuation
  dsimp only at hdispatch hactive htarget hcontinuation
  subst hdispatch hactive htarget hcontinuation
  rfl

/-- Cancelling the frame and restoring the cursors leads back to the settled state. -/
lemma restoreCursors_eq {base w : World} {frame : CadenceContinuation} (h : Restores base w)
    (htime : frame.acceptedTime = base.time) (hstep0 : frame.acceptedMacroStep = base.macroStep) :
    restoreCursors w frame = restored base w.state.lastDt w.ran := by
  rw [restoreCursors, h.1, htime, hstep0, restored, ← h.2]

section Frame

variable {base : World} {dt : ℚ} (hbase : Settled base)

include hbase

/-- The frame of a step with a positive duration is opened unless the macro-step counter is
exhausted. -/
lemma openFrame_spec (runtime : String) (hdt : 0 < dt) (hmax : base.macroStep ≠ intMax) :
    ∃ w frame, openFrame base dt runtime = .ok w ∧ w.state.continuation = some frame ∧
      InFrame base dt w frame ∧ frame.portIdentity = "" ∧ frame.numericalStarted = false := by
  have hstep0 := hbase.macroStep
  have hheld := hbase.windowSteps
  rw [length_held] at hheld
  have hle := Nat.mod_le base.accepted.length base.state.stride.toNat
  have hsubsteps := hbase.substeps_pos
  obtain ⟨hpos, hend⟩ := preparedStep_window hbase hdt
  -- whatever the balance window, cancelling the frame undoes all of it
  have hframe : ∀ (active : Bool) (target : ℤ),
      InFrame base dt { base with
          state := { base.state with
            balanceTarget := target
            balanceActive := active
            continuation := some ⟨preparedStep base dt, ⟨0, 0, 0⟩, base.time, dt, base.macroStep, 0,
              false, false, false, ""⟩
            dispatchActive := true }
          ran := [] }
        ⟨preparedStep base dt, ⟨0, 0, 0⟩, base.time, dt, base.macroStep, 0, false, false, false,
          ""⟩ := by
    intro active target
    refine ⟨⟨hbase.cancelCadenceContinuation_eq, rfl⟩, rfl, rfl, rfl, rfl, rfl, rfl, le_rfl,
      by change (0 : ℤ) ≤ _; omega, fun _ => ⟨rfl, rfl⟩, fun h => ?_, fun h => ?_, rfl, rfl⟩
    · cases h
    · cases h
  by_cases hdue : (preparedStep base dt).due = true
  · refine ⟨_, _, ?_, rfl, hframe true (base.macroStep + 1), rfl, rfl⟩
    have hbegin : beginBalanceDueWindow base.state base.macroStep runtime = .ok { base.state with
        balanceTarget := base.macroStep + 1
        balanceActive := true } := by
      rw [beginBalanceDueWindow, throwIf_neg (by simp [hbase.balanceActive]), ok_bind,
        throwIf_neg (by simp [hbase.balanceReplay]), ok_bind, throwIf_neg (by omega), ok_bind]
      rfl
    rw [openFrame, throwIf_neg (by simp [hbase.dispatchActive]), ok_bind,
      hbase.prepareCadenceStep_eq runtime hdt, ok_bind, throwIf_neg hmax, ok_bind, if_pos hdue,
      validateCadencePartition_eq hpos hend hsubsteps runtime hdue, ok_bind,
        throwIf_neg ?_, ok_bind,
      hbegin, ok_bind]
    · rfl
    · change ¬base.macroStep < base.state.windowSteps + 1 - 1
      omega
  · refine ⟨_, _, ?_, rfl, hframe base.state.balanceActive base.state.balanceTarget, rfl, rfl⟩
    rw [openFrame, throwIf_neg (by simp [hbase.dispatchActive]), ok_bind,
      hbase.prepareCadenceStep_eq runtime hdt, ok_bind, throwIf_neg hmax, ok_bind, if_neg hdue]
    rfl

omit hbase in
/-- No other frame is opened. -/
lemma openFrame_error (runtime : String) (h : ¬(0 < dt ∧ base.macroStep ≠ intMax)) :
    ∃ e, openFrame base dt runtime = .error e := by
  cases hcase : openFrame base dt runtime with
  | error e => exact ⟨e, rfl⟩
  | ok w =>
    simp only [openFrame, bind_eq_ok, throwIf_eq_ok, exists_const] at hcase
    obtain ⟨-, step, hstep, hmax, -⟩ := hcase
    by_cases hdt : 0 < dt
    · exact absurd ⟨hdt, hmax⟩ h
    · obtain ⟨e, he⟩ := Settled.prepareCadenceStep_error (w := base) runtime hdt
      rw [he] at hstep
      cases hstep

/-- The end of a step: after all its parts, the completed world is published. -/
lemma publishStep_eq {w : World} {frame : CadenceContinuation} (runtime : String) (hdt : 0 < dt)
    (h : InFrame base dt w frame) (hstarted : frame.numericalStarted = false)
    (hsubstep : frame.substep =
      if frame.cadence.due = true then base.state.substeps else 0) :
    publishStep w frame runtime = .ok (completed base dt) := by
  have hsteps := hbase.windowSteps_lt
  have hnonneg := hbase.windowDt_nonneg
  obtain ⟨hpos, hend⟩ := preparedStep_window hbase hdt
  have hran : w.ran = stepRuns base dt := by
    rw [h.ran, hsubstep, hstarted, h.cadence, stepRuns]
    split_ifs <;> simp_all [intervals]
  have hlast := h.lastDt
  rw [hran] at hlast
  have hcommit : commitCadenceStep (endBalanceDueWindow w.state) frame.cadence runtime = .ok
      (if (preparedStep base dt).due = true then
        { endBalanceDueWindow w.state with windowDt := 0, windowSteps := 0, windowStart := 0 }
      else { endBalanceDueWindow w.state with
        windowDt := base.state.windowDt + dt
        windowSteps := base.state.windowSteps + 1
        windowStart := opened base.state.stride base.accepted }) := by
    rw [h.restores.state_eq, h.cadence]
    rw [commitCadenceStep, throwIf_neg ?_, ok_bind]
    · rfl
    rintro (hne | hneg | hneg | hne | hneg | hneg | hneg | hne)
    · exact hne rfl
    · change base.state.windowSteps + 1 < 1 at hneg
      omega
    · change base.state.windowSteps + 1 > base.state.stride at hneg
      omega
    · exact hne rfl
    · exact hneg (by change 0 < base.state.windowDt + dt; linarith)
    · exact hneg (by rw [← hend]; linarith)
    · exact hneg hpos
    · exact hne hend
  rw [publishStep, hcommit, ok_bind, h.restores.state_eq, hlast, hran, h.acceptedMacroStep,
    h.requestedDt, h.restores.2, h.cadence]
  simp only [completed, cancelCadenceContinuation, completeBalanceStep, endBalanceDueWindow,
    hbase.dispatchActive, hbase.balanceActive, hbase.balanceTarget, hbase.continuation]
  split_ifs <;> rfl

end Frame

/-! ## Calls -/

/-- How a call that works on the step of duration `dt` from `base` ends: the step is completed, or
it is suspended inside a due window, or it fails and the settled state is restored.  The last two
need a callback that does not return. -/
inductive StepEnd (base : World) (dt : ℚ) (callbacks : List Callback) :
    Except Exception String × World → Prop
  | completed : StepEnd base dt callbacks (.ok "", completed base dt)
  | suspended {w : World} {frame : CadenceContinuation} (port : String) (hport : port ≠ "")
      (hframe : w.state.continuation = some frame) (h : InFrame base dt w frame)
      (hstarted : frame.numericalStarted = true) (hcallback : ∃ c ∈ callbacks, c ≠ .returns) :
      StepEnd base dt callbacks (.ok port, w)
  | failed (e : Exception) (lastDt : ℚ) (ran : List PreparedCadenceSubstep)
      (h : (preparedStep base dt).due = true ∨ ran = [])
      (hcallback : ∃ c ∈ callbacks, c ≠ .returns) :
      StepEnd base dt callbacks (.error e, restored base lastDt ran)

/-- A suspended step: the frame of `base` is open and its Program waits to be resumed. -/
structure Suspended (base : World) (dt : ℚ) (w : World) : Prop where
  settled : Settled base
  positive : 0 < dt
  notMax : base.macroStep ≠ intMax
  frame : ∃ frame, w.state.continuation = some frame ∧ InFrame base dt w frame ∧
    frame.numericalStarted = true

section Calls

variable {base : World} {dt : ℚ}

/-- The port stored in the frame does not matter for the frame. -/
lemma InFrame.withContinuation {w : World} {frame : CadenceContinuation}
    (h : InFrame base dt w frame) (stored : Option CadenceContinuation) (identity : String) :
    InFrame base dt { w with state := { w.state with continuation := stored } }
      { frame with portIdentity := identity } :=
  ⟨⟨h.restores.1, h.restores.2⟩, h.cadence, h.acceptedTime, h.requestedDt, h.acceptedMacroStep,
    h.executing, h.next, h.substep_nonneg, h.substep_le, h.held, h.started, h.partition, h.ran,
    h.lastDt⟩

/-- An open frame whose port has been consumed is run to one of the three ends. -/
lemma resumeFrame_stepEnd {w : World} {frame : CadenceContinuation} (hbase : Settled base)
    (hdt : 0 < dt) (callbacks : List Callback) (runtime : String) (h : InFrame base dt w frame)
    (hport : frame.portIdentity = "") :
    StepEnd base dt callbacks (resumeFrame w frame dt callbacks runtime) := by
  have hguard : ¬(frame.executing = true ∨ frame.requestedDt ≠ dt ∨ frame.portIdentity ≠ "") := by
    simp [h.executing, h.requestedDt, hport]
  have hloop := runSubsteps_spec hbase hdt runtime _ w frame callbacks h hport rfl
  rw [resumeFrame, if_neg hguard]
  cases hend : runSubsteps runtime (passes w frame) w frame callbacks with
  | failed w' e =>
    rw [hend] at hloop
    dsimp only
    rw [restoreCursors_eq hloop.1 h.acceptedTime h.acceptedMacroStep]
    exact .failed e _ _ hloop.2.1 hloop.2.2
  | suspended w' frame' =>
    rw [hend] at hloop
    obtain ⟨hframe, hstarted, hidentity, hcallback⟩ := hloop
    exact .suspended _ hidentity rfl (hframe.withContinuation _ _) hstarted hcallback
  | finished w' frame' =>
    rw [hend] at hloop
    obtain ⟨hframe, hstarted, hsubstep⟩ := hloop
    dsimp only
    rw [publishStep_eq hbase runtime hdt hframe hstarted hsubstep]
    exact .completed

/-- A step is begun by `advance_cadence_region` exactly for a positive duration; otherwise nothing
changes. -/
lemma advanceCadenceRegion_settled (hbase : Settled base) (callbacks : List Callback)
    (runtime : String) :
    (0 < dt ∧ base.macroStep ≠ intMax ∧
        StepEnd base dt callbacks (advanceCadenceRegion base dt callbacks runtime)) ∨
      ¬(0 < dt ∧ base.macroStep ≠ intMax) ∧
        ∃ e, advanceCadenceRegion base dt callbacks runtime = (.error e, base) := by
  rw [advanceCadenceRegion, hbase.continuation]
  dsimp only
  by_cases h : 0 < dt ∧ base.macroStep ≠ intMax
  · obtain ⟨w, frame, hopen, hframe, hin, hport, -⟩ := openFrame_spec hbase runtime h.1 h.2
    rw [hopen]
    dsimp only
    rw [hframe]
    exact Or.inl ⟨h.1, h.2, resumeFrame_stepEnd hbase h.1 callbacks runtime hin hport⟩
  · obtain ⟨e, he⟩ := openFrame_error runtime h
    rw [he]
    exact Or.inr ⟨h, e, rfl⟩

/-- A suspended step is resumed with its own duration and a consumed port only; otherwise nothing
changes. -/
lemma advanceCadenceRegion_suspended {w : World} (h : Suspended base dt w) (requested : ℚ)
    (callbacks : List Callback) (runtime : String) :
    (requested = dt ∧
      StepEnd base dt callbacks (advanceCadenceRegion w requested callbacks runtime)) ∨
      ∃ e, advanceCadenceRegion w requested callbacks runtime = (.error e, w) := by
  obtain ⟨frame, hframe, hin, -⟩ := h.frame
  rw [advanceCadenceRegion, hframe]
  dsimp only
  by_cases hguard : requested = dt ∧ frame.portIdentity = ""
  · obtain ⟨rfl, hport⟩ := hguard
    exact Or.inl ⟨rfl, resumeFrame_stepEnd h.settled h.positive callbacks runtime hin hport⟩
  · refine Or.inr ⟨_, if_pos ?_⟩
    rw [hin.requestedDt]
    by_cases hdt : requested = dt
    · exact Or.inr (Or.inr fun hport => hguard ⟨hdt, hport⟩)
    · exact Or.inr (Or.inl fun heq => hdt heq.symm)

/-- The `catch` of `dispatch_cadence_step` restores the settled state too. -/
lemma dispatch_restore_eq {w : World} (h : Restores base w) :
    ({ w with
      state := cancelCadenceContinuation w.state
      time := base.time
      macroStep := base.macroStep } : World) = restored base w.state.lastDt w.ran := by
  rw [h.1, restored, ← h.2]

/-- A failed step can be restored once more. -/
lemma restores_restored (hbase : Settled base) (lastDt : ℚ)
    (ran : List PreparedCadenceSubstep) : Restores base (restored base lastDt ran) :=
  ⟨(hbase.restored lastDt ran).cancelCadenceContinuation_eq, rfl⟩

end Calls

/-- The duration of a call that works on a step. -/
def Operation.duration : Operation → Option ℚ
  | .dispatch dt _ => some dt
  | .advance dt _ => some dt
  | .release _ => none

/-- The ends of the calls of the Program. -/
def Operation.callbacks : Operation → List Callback
  | .dispatch _ callbacks => callbacks
  | .advance _ callbacks => callbacks
  | .release _ => []

section Operations

variable {base : World} {dt : ℚ}

/-- A settled dispatcher either begins a step or refuses the call. -/
lemma run_settled {w : World} (h : Settled w) (op : Operation) (runtime : String) :
    (∃ dt, op.duration = some dt ∧ 0 < dt ∧ w.macroStep ≠ intMax ∧
        StepEnd w dt op.callbacks (op.run w runtime)) ∨
      (∀ dt, op.duration = some dt → ¬(0 < dt ∧ w.macroStep ≠ intMax)) ∧
        ∃ e, op.run w runtime = (.error e, w) := by
  cases op with
  | release identity =>
    simp only [Operation.run, releaseProgramMap, h.continuation]
    refine Or.inr ⟨fun dt hdt => ?_, _, rfl⟩
    cases hdt
  | advance dt callbacks =>
    rcases advanceCadenceRegion_settled h callbacks runtime with
      ⟨hdt, hmax, hend⟩ | ⟨hrefused, he⟩
    · exact Or.inl ⟨dt, rfl, hdt, hmax, hend⟩
    · exact Or.inr ⟨fun d hd => Option.some.inj hd ▸ hrefused, he⟩
  | dispatch dt callbacks =>
    have hfree : ¬(w.state.continuation.isSome = true ∨ w.state.dispatchActive = true) := by
      simp [h.continuation, h.dispatchActive]
    rw [Operation.run, dispatchCadenceStep, if_neg hfree]
    dsimp only
    have hsettled : (0 < dt ∧ w.macroStep ≠ intMax ∧
        StepEnd w dt callbacks (advanceCadenceRegion w dt callbacks runtime)) ∨
        ¬(0 < dt ∧ w.macroStep ≠ intMax) ∧
          ∃ e, advanceCadenceRegion w dt callbacks runtime = (.error e, w) :=
      advanceCadenceRegion_settled h callbacks runtime
    rcases hsettled with ⟨hdt, hmax, hend⟩ | ⟨hrefused, e, he⟩
    · refine Or.inl ⟨dt, rfl, hdt, hmax, ?_⟩
      generalize advanceCadenceRegion w dt callbacks runtime = result at hend
      cases hend with
      | completed => exact .completed
      | suspended port hport hframe hin hstarted hcallback =>
        -- a suspended Program is refused here, and the open frame is cancelled
        dsimp only
        rw [if_pos hport, dispatch_restore_eq hin.restores]
        refine .failed _ _ _ (Or.inl ?_) hcallback
        by_contra hdue
        have := (hin.held (by rw [hin.cadence]; simpa using hdue)).2
        rw [hstarted] at this
        cases this
      | failed e lastDt ran hran hcallback =>
        dsimp only
        rw [dispatch_restore_eq (restores_restored h lastDt ran)]
        exact .failed e _ _ hran hcallback
    · refine Or.inr ⟨fun d hd => Option.some.inj hd ▸ hrefused, e, ?_⟩
      rw [he]
      dsimp only
      rw [h.cancelCadenceContinuation_eq]
      rfl

/-- A call during a suspended step works on that step, or is refused, or consumes its port. -/
lemma run_suspended {w : World} (h : Suspended base dt w) (op : Operation) (runtime : String) :
    (op.duration = some dt ∧ StepEnd base dt op.callbacks (op.run w runtime)) ∨
      (∃ e, op.run w runtime = (.error e, w)) ∨
      op.duration = none ∧ ∃ w', op.run w runtime = (.ok "", w') ∧ Suspended base dt w' := by
  obtain ⟨frame, hframe, hin, hstarted⟩ := h.frame
  cases op with
  | release identity =>
    simp only [Operation.run, releaseProgramMap, hframe]
    split_ifs with hguard
    · exact Or.inr (Or.inl ⟨_, rfl⟩)
    · exact Or.inr (Or.inr ⟨rfl, _, rfl, h.settled, h.positive, h.notMax, _, rfl,
        hin.withContinuation _ _, hstarted⟩)
  | advance requested callbacks =>
    rcases advanceCadenceRegion_suspended h requested callbacks runtime with ⟨rfl, hend⟩ | hrefused
    · exact Or.inl ⟨rfl, hend⟩
    · exact Or.inr (Or.inl hrefused)
  | dispatch requested callbacks =>
    rw [Operation.run, dispatchCadenceStep, if_pos (Or.inl (by simp [hframe]))]
    exact Or.inr (Or.inl ⟨_, rfl⟩)

end Operations

/-! ## The last duration -/

/-- Between two worlds the given substeps were entered, and nothing else changed the last duration.
-/
structure Enters (w w' : World) (entered : List PreparedCadenceSubstep) : Prop where
  ran : w'.ran = w.ran ++ entered
  lastDt : w'.state.lastDt = lastEntered w.state.lastDt entered

/-- Nothing was entered. -/
lemma enters_nil {w w' : World} (hran : w'.ran = w.ran)
    (hlast : w'.state.lastDt = w.state.lastDt) :
    Enters w w' [] := ⟨by rw [hran, List.append_nil], hlast⟩

/-- Substeps are entered one part after the other. -/
theorem Enters.trans {w w' w'' : World} {entered later : List PreparedCadenceSubstep}
    (h : Enters w w' entered) (h' : Enters w' w'' later) : Enters w w'' (entered ++ later) where
  ran := by rw [h'.ran, h.ran, List.append_assoc]
  lastDt := by
    rw [h'.lastDt, h.lastDt]
    cases hlast : later.getLast? <;> simp [lastEntered, hlast]

/-- The start of a substep enters it, unless the Program is resumed. -/
lemma enterSubstep_enters {w w' : World} {frame frame' : CadenceContinuation} {runtime : String}
    (h : enterSubstep w frame runtime = .ok (w', frame')) : ∃ entered, Enters w w' entered := by
  unfold enterSubstep at h
  split_ifs at h with hstarted
  · obtain ⟨partition, -, h⟩ := bind_eq_ok.mp h
    obtain ⟨rfl, -⟩ := Prod.mk.inj (pure_eq_ok.mp h)
    exact ⟨[partition], rfl, rfl⟩
  · obtain ⟨-, -, h⟩ := bind_eq_ok.mp h
    obtain ⟨rfl, -⟩ := Prod.mk.inj (pure_eq_ok.mp h)
    exact ⟨[], enters_nil rfl rfl⟩

/-- The world at the end of the loop. -/
def LoopEnd.world : LoopEnd → World
  | .finished w _ => w
  | .suspended w _ => w
  | .failed w _ => w

/-- The loop changes the last duration by the substeps that it enters only. -/
lemma runSubsteps_enters (runtime : String) : ∀ (remaining : ℕ) (w : World)
    (frame : CadenceContinuation) (callbacks : List Callback),
    ∃ entered, Enters w (runSubsteps runtime remaining w frame callbacks).world entered := by
  intro remaining
  induction remaining with
  | zero => exact fun _ _ _ => ⟨[], enters_nil rfl rfl⟩
  | succ remaining ih =>
    intro w frame callbacks
    rw [runSubsteps]
    cases henter : enterSubstep w frame runtime with
    | error e => exact ⟨[], enters_nil rfl rfl⟩
    | ok entry =>
      obtain ⟨w', frame'⟩ := entry
      obtain ⟨entered, hentered⟩ := enterSubstep_enters henter
      dsimp only
      cases finishCallback frame' (callbacks.headD .returns) with
      | error e => exact ⟨entered, hentered⟩
      | ok after =>
        dsimp only
        split_ifs
        · exact ⟨entered, hentered⟩
        · exact ⟨entered, hentered⟩
        · obtain ⟨later, hlater⟩ := ih { w' with time := after.partition.stop }
            { after with substep := after.substep + 1, numericalStarted := false } callbacks.tail
          have hmoved : Enters w { w' with time := after.partition.stop } entered :=
            ⟨hentered.ran, hentered.lastDt⟩
          exact ⟨entered ++ later, hmoved.trans hlater⟩

/-- A frame is run to an end without another change of the last duration. -/
lemma resumeFrame_enters (w : World) (frame : CadenceContinuation) (dt : ℚ)
    (callbacks : List Callback) (runtime : String) :
    ∃ entered, Enters w (resumeFrame w frame dt callbacks runtime).2 entered := by
  obtain ⟨entered, hentered⟩ := runSubsteps_enters runtime (passes w frame) w frame callbacks
  unfold resumeFrame
  split_ifs
  · exact ⟨[], enters_nil rfl rfl⟩
  · cases hloop : runSubsteps runtime (passes w frame) w frame callbacks with
    | failed w' e =>
      rw [hloop] at hentered
      exact ⟨entered, hentered.ran, hentered.lastDt⟩
    | suspended w' frame' =>
      rw [hloop] at hentered
      exact ⟨entered, hentered.ran, hentered.lastDt⟩
    | finished w' frame' =>
      rw [hloop] at hentered
      dsimp only
      cases hpublish : publishStep w' frame' runtime with
      | error e => exact ⟨entered, hentered.ran, hentered.lastDt⟩
      | ok published =>
        simp only [publishStep, commitCadenceStep, bind_eq_ok, pure_eq_ok] at hpublish
        obtain ⟨state, ⟨-, -, rfl⟩, rfl⟩ := hpublish
        refine ⟨entered, hentered.ran, Eq.trans ?_ hentered.lastDt⟩
        dsimp only
        split_ifs <;> rfl

/-- How a call changes the last duration: nothing is entered, or the substeps of a new step, or
further substeps of the open one. -/
inductive LastDt (before after : World) : Prop
  | unchanged (hran : after.ran = before.ran) (hlast : after.state.lastDt = before.state.lastDt)
  | opened (hidle : before.state.continuation = none)
      (hlast : after.state.lastDt = lastEntered before.state.lastDt after.ran)
  | resumed (entered : List PreparedCadenceSubstep) (hopen : before.state.continuation ≠ none)
      (h : Enters before after entered)

/-- **The last duration after a call** of the region. -/
theorem advanceCadenceRegion_lastDt (w : World) (dt : ℚ) (callbacks : List Callback)
    (runtime : String) : LastDt w (advanceCadenceRegion w dt callbacks runtime).2 := by
  unfold advanceCadenceRegion
  cases hframe : w.state.continuation with
  | some frame =>
    obtain ⟨entered, hentered⟩ := resumeFrame_enters w frame dt callbacks runtime
    exact .resumed entered (by rw [hframe]; simp) hentered
  | none =>
    dsimp only
    cases hopen : openFrame w dt runtime with
    | error e => exact .unchanged rfl rfl
    | ok opened =>
      have hstart : opened.ran = [] ∧ opened.state.lastDt = w.state.lastDt := by
        simp only [openFrame, bind_eq_ok, throwIf_eq_ok, exists_const] at hopen
        obtain ⟨-, cadence, -, -, hopen⟩ := hopen
        split_ifs at hopen
        · simp only [beginBalanceDueWindow, bind_eq_ok, throwIf_eq_ok, exists_const,
            pure_eq_ok] at hopen
          obtain ⟨-, -, -, -, ⟨-, -, -, rfl⟩, rfl⟩ := hopen
          exact ⟨rfl, rfl⟩
        · simp only [bind_eq_ok, pure_eq_ok] at hopen
          obtain ⟨-, rfl, rfl⟩ := hopen
          exact ⟨rfl, rfl⟩
      dsimp only
      cases hcontinuation : opened.state.continuation with
      | none =>
        refine .opened hframe ?_
        rw [hstart.1, hstart.2]
        rfl
      | some frame =>
        obtain ⟨entered, hentered⟩ := resumeFrame_enters opened frame dt callbacks runtime
        refine .opened hframe ?_
        rw [hentered.lastDt, hentered.ran, hstart.1, hstart.2, List.nil_append]

/-- **The last duration after a call** of the dispatcher. -/
theorem run_lastDt (w : World) (op : Operation) (runtime : String) :
    LastDt w (op.run w runtime).2 := by
  cases op with
  | release identity =>
    simp only [Operation.run, releaseProgramMap]
    cases hframe : w.state.continuation with
    | none => exact .unchanged rfl rfl
    | some frame =>
      dsimp only
      split_ifs
      · exact .unchanged rfl rfl
      · exact .unchanged rfl rfl
  | advance dt callbacks => exact advanceCadenceRegion_lastDt w dt callbacks runtime
  | dispatch dt callbacks =>
    have hadvance := advanceCadenceRegion_lastDt w dt callbacks runtime
    -- the restored world keeps the record and the last duration
    have hkeep : ∀ {w' kept : World}, LastDt w w' → kept.ran = w'.ran →
        kept.state.lastDt = w'.state.lastDt → LastDt w kept := by
      rintro w' kept h hran hlast
      cases h with
      | unchanged h h' => exact .unchanged (hran.trans h) (hlast.trans h')
      | opened hidle h => exact .opened hidle (by rw [hlast, hran, h])
      | resumed entered hopen h =>
          exact .resumed entered hopen ⟨hran.trans h.ran, hlast.trans h.lastDt⟩
    simp only [Operation.run, dispatchCadenceStep]
    split_ifs with hbusy
    · exact .unchanged rfl rfl
    · cases hend : advanceCadenceRegion w dt callbacks runtime with
      | mk result w' =>
        rw [hend] at hadvance
        cases result with
        | error e => exact hkeep hadvance rfl rfl
        | ok port =>
          dsimp only
          split_ifs
          · exact hkeep hadvance rfl rfl
          · exact hadvance

/-! ## Whole runs -/

/-- The step that follows the accepted ones fills its window. -/
def FillsWindow (w : World) : Prop :=
  ((w.accepted.length : ℤ) + 1) % w.state.stride = 0

/-- The law of the cadence for one call. -/
structure Lawful (runtime : String) (e : Entry) : Prop where
  /-- The cadence stays as it was configured. -/
  configuration : e.after.state.substeps = e.before.state.substeps ∧
    e.after.state.stride = e.before.state.stride
  /-- A completed step adds its duration; the clock and the held window are those of the accepted
  durations. -/
  clock : ∀ dt, e.op.duration = some dt → e.result = .ok "" →
    e.after.accepted = e.before.accepted ++ [dt] ∧ Settled e.after ∧
    e.after.time = e.after.accepted.sum ∧
    e.after.state.windowSteps = e.after.macroStep % e.after.state.stride ∧
    e.after.state.windowDt = (held e.after.state.stride e.after.accepted).sum
  /-- A completed step that fills its window has run the Program on a partition of the window. -/
  due : ∀ dt, e.op.duration = some dt → e.result = .ok "" → FillsWindow e.before →
    (e.after.ran.length : ℤ) = e.before.state.substeps ∧
    Tiles PreparedCadenceSubstep.start PreparedCadenceSubstep.stop
      (opened e.before.state.stride e.before.accepted) (e.before.accepted.sum + dt) e.after.ran ∧
    ∀ i ∈ e.after.ran, i.dt = i.stop - i.start
  /-- Outside such a step the Program is never run. -/
  idle : ¬FillsWindow e.before → e.after.ran = [] ∨ e.after = e.before
  /-- A step that was suspended and resumed ends in the world to which one uninterrupted dispatch
  leads. -/
  uninterrupted : ∀ dt, e.op.duration = some dt → e.result = .ok "" →
    ∃ base, Settled base ∧ base.accepted = e.before.accepted ∧
      (Settled e.before → base = e.before) ∧
      dispatchCadenceStep base dt [] runtime = (.ok (), e.after)
  /-- A positive duration is accepted at once if every callback returns. -/
  returns : ∀ dt, e.op.duration = some dt → Settled e.before → 0 < dt →
    e.before.macroStep ≠ intMax → (∀ c ∈ e.op.callbacks, c = .returns) → e.result = .ok ""
  /-- A call that suspends the Program, or consumes its port, accepts no duration. -/
  suspended : ∀ port, e.result = .ok port → (port ≠ "" ∨ e.op.duration = none) →
    FillsWindow e.before ∧ e.after.accepted = e.before.accepted
  /-- A call that throws accepts no duration.  Between two steps it changes nothing but the record
  of the intervals and, if it entered a substep, the last duration, which is then that of the last
  substep entered; during a suspended step it is refused, or it leads back to the settled state
  before the step. -/
  thrown : ∀ x, e.result = .error x → e.after.accepted = e.before.accepted ∧
    (Settled e.before → e.after = e.before ∨
      e.after = restored e.before (lastEntered e.before.state.lastDt e.after.ran) e.after.ran) ∧
    (e.after = e.before ∨ Settled e.after)
  /-- In every call, only entering a substep changes the last duration. -/
  lastDt : LastDt e.before e.after

/-- A world that a run can reach. -/
def Reached (w : World) : Prop :=
  Settled w ∨ ∃ base dt, Suspended base dt w

section Runs

variable {base : World} {dt : ℚ}

/-- A due step fills its window. -/
lemma fillsWindow_iff (hbase : Settled base) (dt : ℚ) :
    FillsWindow base ↔ (preparedStep base dt).due = true := by
  have hstride := hbase.stride_pos
  have hphase := hbase.windowSteps_eq_mod
  have hlt := hbase.windowSteps_lt
  have hstep0 := hbase.macroStep
  rw [hstep0] at hphase
  change _ ↔ decide (base.state.windowSteps + 1 = base.state.stride) = true
  rw [decide_eq_true_iff, FillsWindow, ← Int.emod_add_emod, ← hphase]
  constructor
  · intro h
    obtain ⟨k, hk⟩ := Int.dvd_of_emod_eq_zero h
    have hk1 : k = 1 := by
      have hpos : 0 < k := by
        by_contra hneg
        have := mul_nonpos_of_nonneg_of_nonpos (show 0 ≤ base.state.stride by omega)
          (show k ≤ 0 by omega)
        omega
      have hle : base.state.stride * k ≤ base.state.stride * 1 := by omega
      have := le_of_mul_le_mul_left hle (by omega)
      omega
    rw [hk, hk1, mul_one]
  · intro h
    rw [h, Int.emod_self]

/-- A suspended step fills its window, and its world agrees with the settled one on the accepted
durations and on the cadence. -/
lemma Suspended.agrees {w : World} (h : Suspended base dt w) :
    (preparedStep base dt).due = true ∧ w.accepted = base.accepted ∧
      w.state.substeps = base.state.substeps ∧ w.state.stride = base.state.stride := by
  obtain ⟨frame, -, hin, hstarted⟩ := h.frame
  refine ⟨?_, hin.restores.2, hin.restores.substeps, ?_⟩
  · by_contra hdue
    have := (hin.held (by rw [hin.cadence]; simpa using hdue)).2
    rw [hstarted] at this
    cases this
  · have hstride := congrArg ProgramRuntimeState.stride hin.restores.state_eq
    exact hstride

/-- A suspended world is not settled. -/
lemma Suspended.not_settled {w : World} (h : Suspended base dt w) : ¬Settled w := by
  obtain ⟨frame, hframe, -⟩ := h.frame
  intro hsettled
  rw [hsettled.continuation] at hframe
  cases hframe

/-- The intervals of a due step. -/
lemma stepRuns_of_due (hbase : Settled base) (hdt : 0 < dt)
    (hdue : (preparedStep base dt).due = true) :
    ((stepRuns base dt).length : ℤ) = base.state.substeps ∧
    Tiles PreparedCadenceSubstep.start PreparedCadenceSubstep.stop
      (opened base.state.stride base.accepted) (base.accepted.sum + dt) (stepRuns base dt) ∧
    ∀ i ∈ stepRuns base dt, i.dt = i.stop - i.start := by
  have hsubsteps := hbase.substeps_pos
  obtain ⟨hpos, hend⟩ := preparedStep_window hbase hdt
  rw [stepRuns, if_pos hdue]
  refine ⟨?_, ?_, fun i hi => ?_⟩
  · rw [intervals, List.length_map, List.length_range]
    omega
  · have htiles := tiles_intervals hpos hend hsubsteps base.state.substeps.toNat
    have hfirst : endpoint (preparedStep base dt) base.state.substeps 0 =
        opened base.state.stride base.accepted := if_pos rfl
    have hlast : endpoint (preparedStep base dt) base.state.substeps
        (base.state.substeps.toNat : ℤ) = base.accepted.sum + dt := by
      rw [Int.toNat_of_nonneg (by omega), endpoint, if_neg (by omega), if_pos rfl, ← hbase.time]
      rfl
    rwa [hfirst, hlast] at htiles
  · obtain ⟨k, -, rfl⟩ := List.mem_map.mp hi
    rfl

/-- A dispatch whose callbacks return completes its step. -/
lemma dispatchCadenceStep_nil (hbase : Settled base) (hdt : 0 < dt)
    (hmax : base.macroStep ≠ intMax) (runtime : String) :
    dispatchCadenceStep base dt [] runtime = (.ok (), completed base dt) := by
  have hrun : (Operation.dispatch dt []).run base runtime = (.ok "", completed base dt) := by
    rcases run_settled hbase (.dispatch dt []) runtime with ⟨d, hd, -, -, hend⟩ | ⟨hrefused, -⟩
    · obtain rfl := Option.some.inj hd
      generalize (Operation.dispatch dt []).run base runtime = result at hend
      cases hend with
      | completed => rfl
      | suspended port hport hframe hin hstarted hcallback =>
        obtain ⟨c, hc, -⟩ := hcallback
        cases hc
      | failed e lastDt ran hran hcallback =>
        obtain ⟨c, hc, -⟩ := hcallback
        cases hc
    · exact absurd ⟨hdt, hmax⟩ (hrefused dt rfl)
  rw [Operation.run] at hrun
  cases hcase : dispatchCadenceStep base dt [] runtime with
  | mk result w =>
    rw [hcase] at hrun
    obtain ⟨hresult, rfl⟩ := Prod.mk.inj hrun
    cases result with
    | error e => cases hresult
    | ok _ => rfl

/-- The agreement of a world with the settled one in which its step began. -/
structure Agrees (base before : World) : Prop where
  settled : Settled base
  accepted : before.accepted = base.accepted
  substeps : before.state.substeps = base.state.substeps
  stride : before.state.stride = base.state.stride
  same : Settled before → base = before

/-- A settled world that a failed step restores: it did not change, or the last duration is that of
the last substep entered. -/
lemma restored_of_lastDt {lastDt : ℚ} {ran : List PreparedCadenceSubstep} (hbase : Settled base)
    (h : LastDt base (restored base lastDt ran)) : restored base lastDt ran = base ∨
      restored base lastDt ran = restored base (lastEntered base.state.lastDt ran) ran := by
  cases h with
  | unchanged hran hlast =>
    obtain rfl : ran = base.ran := hran
    obtain rfl : lastDt = base.state.lastDt := hlast
    exact .inl rfl
  | opened _ hlast =>
    obtain rfl : lastDt = lastEntered base.state.lastDt ran := hlast
    exact .inr rfl
  | resumed _ hopen _ => exact absurd hbase.continuation hopen

/-- Every end of a step is lawful. -/
lemma StepEnd.lawful {before : World} {op : Operation} {result : Except Exception String × World}
    {runtime : String} (h : Agrees base before) (hop : op.duration = some dt) (hdt : 0 < dt)
    (hmax : base.macroStep ≠ intMax) (hlast : LastDt before result.2)
    (hend : StepEnd base dt op.callbacks result) :
    Lawful runtime ⟨before, op, result.1, result.2⟩ := by
  have hfills : FillsWindow before ↔ (preparedStep base dt).due = true := by
    rw [← fillsWindow_iff h.settled dt, FillsWindow, FillsWindow, h.accepted, h.stride]
  have hduration : ∀ d, op.duration = some d → d = dt := by
    intro d hd
    rw [hop] at hd
    exact (Option.some.inj hd).symm
  cases hend with
  | completed =>
    have hsettled := settled_completed h.settled hdt
    constructor
    · exact ⟨h.substeps.symm, h.stride.symm⟩
    · intro d hd _
      obtain rfl := hduration d hd
      exact ⟨by rw [h.accepted]; rfl, hsettled, hsettled.time, hsettled.windowSteps_eq_mod,
        hsettled.windowDt⟩
    · intro d hd _ hfill
      obtain rfl := hduration d hd
      dsimp only
      rw [h.substeps, h.stride, h.accepted]
      exact stepRuns_of_due h.settled hdt (hfills.mp hfill)
    · intro hfill
      exact Or.inl (if_neg fun hdue => hfill (hfills.mpr hdue))
    · intro d hd _
      obtain rfl := hduration d hd
      exact ⟨base, h.settled, h.accepted.symm, h.same,
        dispatchCadenceStep_nil h.settled hdt hmax runtime⟩
    · intro _ _ _ _ _ _
      rfl
    · intro port hport hcase
      rcases hcase with hne | hnone
      · exact absurd (Except.ok.inj hport).symm hne
      · rw [hop] at hnone
        cases hnone
    · intro x hx
      cases hx
    · exact hlast
  | suspended port hport hframe hin hstarted hcallback =>
    rename_i w frame
    have hagrees := (Suspended.mk h.settled hdt hmax ⟨frame, hframe, hin, hstarted⟩).agrees
    obtain ⟨hdue, haccepted, hsubsteps, hstride⟩ := hagrees
    have hne : ¬(Except.ok port : Except Exception String) = .ok "" :=
      fun heq => hport (Except.ok.inj heq)
    constructor
    · exact ⟨hsubsteps.trans h.substeps.symm, hstride.trans h.stride.symm⟩
    · exact fun _ _ heq => absurd heq hne
    · exact fun _ _ heq => absurd heq hne
    · exact fun hfill => absurd (hfills.mpr hdue) hfill
    · exact fun _ _ heq => absurd heq hne
    · intro _ _ _ _ _ hreturns
      obtain ⟨c, hc, hcne⟩ := hcallback
      exact absurd (hreturns c hc) hcne
    · exact fun _ _ _ => ⟨hfills.mpr hdue, haccepted.trans h.accepted.symm⟩
    · intro x hx
      cases hx
    · exact hlast
  | failed e lastDt ran hran hcallback =>
    constructor
    · exact ⟨h.substeps.symm, h.stride.symm⟩
    · intro _ _ heq
      cases heq
    · intro _ _ heq
      cases heq
    · intro hfill
      exact Or.inl (hran.resolve_left fun hdue => hfill (hfills.mpr hdue))
    · intro _ _ heq
      cases heq
    · intro _ _ _ _ _ hreturns
      obtain ⟨c, hc, hcne⟩ := hcallback
      exact absurd (hreturns c hc) hcne
    · intro _ heq
      cases heq
    · intro x _
      refine ⟨h.accepted.symm, fun hbefore => ?_, Or.inr (h.settled.restored lastDt ran)⟩
      obtain rfl := h.same hbefore
      exact restored_of_lastDt hbefore hlast
    · exact hlast

/-- Every end of a step can be reached. -/
lemma StepEnd.reached {callbacks : List Callback} {result : Except Exception String × World}
    (hbase : Settled base) (hdt : 0 < dt) (hmax : base.macroStep ≠ intMax)
    (hend : StepEnd base dt callbacks result) : Reached result.2 := by
  cases hend with
  | completed => exact Or.inl (settled_completed hbase hdt)
  | suspended port hport hframe hin hstarted _ =>
    exact Or.inr ⟨base, dt, hbase, hdt, hmax, _, hframe, hin, hstarted⟩
  | failed e lastDt ran _ _ => exact Or.inl (hbase.restored lastDt ran)

/-- A refused call is lawful. -/
lemma lawful_refused {w : World} {op : Operation} (runtime : String) (e : Exception)
    (hrefused : Settled w → ∀ dt, op.duration = some dt → ¬(0 < dt ∧ w.macroStep ≠ intMax)) :
    Lawful runtime ⟨w, op, .error e, w⟩ := by
  constructor
  · exact ⟨rfl, rfl⟩
  · intro _ _ heq
    cases heq
  · intro _ _ heq
    cases heq
  · exact fun _ => Or.inr rfl
  · intro _ _ heq
    cases heq
  · exact fun d hd hsettled hdt hmax _ => absurd ⟨hdt, hmax⟩ (hrefused hsettled d hd)
  · intro _ heq
    cases heq
  · exact fun _ _ => ⟨rfl, fun _ => Or.inl rfl, Or.inl rfl⟩
  · exact .unchanged rfl rfl

/-- **One call**: from a world that a run can reach it is lawful and leads to such a world. -/
theorem lawful_run {w : World} (h : Reached w) (op : Operation) (runtime : String) :
    Lawful runtime ⟨w, op, (op.run w runtime).1, (op.run w runtime).2⟩ ∧
      Reached (op.run w runtime).2 := by
  rcases h with hsettled | ⟨base, dt, hsuspended⟩
  · rcases run_settled hsettled op runtime with ⟨dt, hop, hdt, hmax, hend⟩ | ⟨hrefused, e, he⟩
    · exact ⟨hend.lawful ⟨hsettled, rfl, rfl, rfl, fun _ =>
        rfl⟩ hop hdt hmax (run_lastDt w op runtime), hend.reached hsettled hdt hmax⟩
    · rw [he]
      exact ⟨lawful_refused runtime e fun _ => hrefused, Or.inl hsettled⟩
  · obtain ⟨hdue, haccepted, hsubsteps, hstride⟩ := hsuspended.agrees
    have hnot := hsuspended.not_settled
    have hreached : Reached w := Or.inr ⟨base, dt, hsuspended⟩
    rcases run_suspended hsuspended op runtime with ⟨hop, hend⟩ | ⟨e, he⟩ | ⟨hop, w', hw', hafter⟩
    · exact ⟨hend.lawful ⟨hsuspended.settled, haccepted, hsubsteps, hstride,
        fun hs => absurd hs hnot⟩ hop hsuspended.positive hsuspended.notMax
          (run_lastDt w op runtime),
        hend.reached hsuspended.settled hsuspended.positive hsuspended.notMax⟩
    · rw [he]
      exact ⟨lawful_refused runtime e fun hs => absurd hs hnot, hreached⟩
    · have hlast := run_lastDt w op runtime
      rw [hw'] at hlast ⊢
      obtain ⟨-, haccepted', hsubsteps', hstride'⟩ := hafter.agrees
      have hfills : FillsWindow w := by
        rw [FillsWindow, haccepted, hstride]
        exact (fillsWindow_iff hsuspended.settled dt).mpr hdue
      have hnone : ∀ d, ¬op.duration = some d := fun d hd => by rw [hop] at hd; cases hd
      refine ⟨?_, Or.inr ⟨base, dt, hafter⟩⟩
      constructor
      · exact ⟨hsubsteps'.trans hsubsteps.symm, hstride'.trans hstride.symm⟩
      · exact fun d hd => absurd hd (hnone d)
      · exact fun d hd => absurd hd (hnone d)
      · exact fun hidle => absurd hfills hidle
      · exact fun d hd => absurd hd (hnone d)
      · exact fun d hd => absurd hd (hnone d)
      · exact fun _ _ _ => ⟨hfills, haccepted'.trans haccepted.symm⟩
      · intro x hx
        cases hx
      · exact hlast

/-- From a world that a run can reach, every call of a sequence is lawful. -/
lemma lawful_trace (runtime : String) (ops : List Operation) :
    ∀ w : World, Reached w → ∀ e ∈ trace runtime w ops, Lawful runtime e := by
  induction ops with
  | nil =>
    intro w _ e he
    cases he
  | cons op ops ih =>
    intro w hw e he
    obtain ⟨hlawful, hreached⟩ := lawful_run hw op runtime
    rcases List.mem_cons.mp he with rfl | he
    · exact hlawful
    · exact ih _ hreached e he

end Runs

/-- **The cadence over whole runs**: from a freshly configured state, every call of every sequence
of dispatches, region calls and releases, with a Program that returns, suspends or throws as it
likes, is lawful. -/
theorem cadence_over_runs {substeps stride : ℤ} (hsubsteps : 1 ≤ substeps) (hstride : 1 ≤ stride)
    (runtime : String) (ops : List Operation) :
    ∀ e ∈ trace runtime (fresh substeps stride) ops, Lawful runtime e :=
  lawful_trace runtime ops _ (Or.inl (settled_fresh hsubsteps hstride))

/-- Two substeps and a stride of two: a held step, then a due one that is suspended in its second
substep, released and resumed. -/
theorem cadence_over_runs_suspended :
    (∀ e ∈ trace "System" (fresh 2 2)
        [.dispatch (1 / 2) [], .advance (1 / 4) [.returns, .suspends "port"], .release "port",
          .advance (1 / 4) []], Lawful "System" e) ∧
      (trace "System" (fresh 2 2)
        [.dispatch (1 / 2) [], .advance (1 / 4) [.returns, .suspends "port"], .release "port",
          .advance (1 / 4) []]).map (fun e => (e.result.toOption, e.after.accepted)) =
        [(some "", [1 / 2]), (some "port", [1 / 2]), (some "", [1 / 2]),
          (some "", [1 / 2, 1 / 4])] :=
  ⟨cadence_over_runs (by decide) (by decide) "System" _, by decide +kernel⟩

/-- A dispatch whose Program throws does not restore the last duration handed to it. -/
theorem thrown_dispatch_changes_lastDt :
    ¬∀ e ∈ trace "System" (fresh 1 1) [.dispatch (1 / 2) [.throws (runtimeError "rejected")]],
      e.result = .error (runtimeError "rejected") →
        e.after.state.lastDt = e.before.state.lastDt := by
  intro h
  have hthrown := h _ List.mem_cons_self (by decide +kernel)
  revert hthrown
  decide +kernel

end Pops.Cadence
