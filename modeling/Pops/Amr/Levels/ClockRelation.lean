import Pops.Amr.Levels.Rational
import Pops.Foundation.Tiling

/-!
# Parent and child clocks

A level of the hierarchy advances over clock windows, whose ends are exact phases of the macro step.
`ParentChildClockRelation::partition` splits a window of the parent level into the windows of its
child level.  A rational is the value its constructor leaves, so it carries its canonical form.

Physical times are `double`; they are rounded, and only the order of the ends of a window is ever
decided on them.  Their type and its operations are a parameter here.

## Main definitions

* `Pops.ExactRational` — the values of `pops::amr::Rational` with its operators.
* `Pops.ClockStamp`, `ClockWindow`, `ChildSubstep` — positions and windows of a clock.
* `Pops.ParentChildClockRelation`, `Pops.ParentChildClockRelation.partition`.
* `Pops.ParentChildClockRelation.Splits` — what a split of a window is.

## Main results

* `Pops.ParentChildClockRelation.partition_splits` — a partition that returns splits its window.
-/

namespace Pops

/-! ## Rationals in canonical form -/

/-- A value of `Rational`: what the constructor or an operator returned. -/
structure ExactRational where
  rational : Rational
  canonical : rational.Canonical

namespace Rational

/-- The constructor leaves a canonical form. -/
lemma create_canonical {n d : ℤ} {r : Rational} (h : create n d = .ok r) : r.Canonical := by
  have hd : d ≠ 0 := by
    intro hzero
    simp [create, hzero, throwIf, bind, Except.bind] at h
  obtain ⟨hfit, hover⟩ := create_exact n hd
  by_cases hrep : Representable ((n : ℚ) / d)
  · obtain rfl : ofRat ((n : ℚ) / d) = r := by simpa [hfit hrep] using h
    refine ⟨hrep.1, ?_, hrep.2, ?_⟩
    · exact Int.natCast_pos.mpr (Rat.den_pos _)
    · exact Int.isCoprime_iff_gcd_eq_one.mpr ((n : ℚ) / d).reduced
  · obtain ⟨what, herror⟩ := hover hrep
    simp [herror] at h

/-- A sum or a difference is in canonical form. -/
lemma addOrSubtract_canonical {a b r : Rational} {subtract : Bool}
    (h : addOrSubtract a b subtract = .ok r) : r.Canonical := by
  simp only [addOrSubtract, bind_eq_ok] at h
  obtain ⟨_, -, n, -, d, -, h⟩ := h
  exact create_canonical h

/-- A product is in canonical form. -/
lemma mul_canonical {a b r : Rational} (h : mul a b = .ok r) : r.Canonical := by
  simp only [mul, bind_eq_ok] at h
  obtain ⟨left, -, right, -, n, -, d, -, h⟩ := h
  exact create_canonical h

/-- A quotient is in canonical form. -/
lemma div_canonical {a b r : Rational} (h : div a b = .ok r) : r.Canonical := by
  simp only [div, bind_eq_ok] at h
  obtain ⟨_, -, an, -, bd, -, n, -, ad, -, bn, -, d, -, h⟩ := h
  exact create_canonical h

/-- A result that an exact operation returned is the canonical form of its value. -/
lemma Exact.eq_ok {x : Throws Rational} {q : ℚ} {r : Rational} (hx : Exact x q)
    (h : x = .ok r) : r.toRat = q := by
  by_cases hrep : Representable q
  · obtain rfl : ofRat q = r := by simpa [hx.1 hrep] using h
    simp only [toRat, ofRat, Int.cast_natCast]
    exact q.num_div_den
  · obtain ⟨what, herror⟩ := hx.2 hrep
    simp [herror] at h

/-- The value of a returned product. -/
lemma toRat_mul {a b r : Rational} (ha : a.Canonical) (hb : b.Canonical)
    (h : mul a b = .ok r) : r.toRat = a.toRat * b.toRat :=
  (mul_exact ha hb).eq_ok h

/-- The value of a returned sum. -/
lemma toRat_add {a b r : Rational} (ha : a.Canonical) (hb : b.Canonical)
    (h : add a b = .ok r) : r.toRat = a.toRat + b.toRat := by
  simpa using (addOrSubtract_exact ha hb false).eq_ok h

end Rational

namespace ExactRational

/-- Keep the canonical form of a returned value. -/
def keep (x : Throws Rational) (h : ∀ r, x = .ok r → r.Canonical) : Throws ExactRational :=
  match hx : x with
  | .ok r => .ok ⟨r, h r (hx ▸ rfl)⟩
  | .error e => .error e

/-- `Rational(n, d)`. -/
def create (n d : ℤ) : Throws ExactRational :=
  keep (Rational.create n d) fun _ => Rational.create_canonical

/-- `a + b`. -/
def add (a b : ExactRational) : Throws ExactRational :=
  keep (Rational.add a.rational b.rational) fun _ => Rational.addOrSubtract_canonical

/-- `a - b`. -/
def sub (a b : ExactRational) : Throws ExactRational :=
  keep (Rational.sub a.rational b.rational) fun _ => Rational.addOrSubtract_canonical

/-- `a / b`. -/
def div (a b : ExactRational) : Throws ExactRational :=
  keep (Rational.div a.rational b.rational) fun _ => Rational.div_canonical

/-- `a < b`. -/
def less (a b : ExactRational) : Bool :=
  (Rational.less a.rational b.rational).get (by rw [Rational.less_eq a.canonical b.canonical]; rfl)

/-- `integral()`. -/
def integral (a : ExactRational) : Bool := a.rational.denominator = 1

/-- `Rational(1, 1)`: the unit of the clock arithmetic. -/
def one : ExactRational :=
  ⟨⟨1, 1⟩, by decide, by decide, by decide, isCoprime_one_left⟩

/-- The rational number. -/
def toRat (a : ExactRational) : ℚ := a.rational.toRat

/-- A kept value is the value of the computation. -/
lemma keep_eq_ok {x : Throws Rational} {h : ∀ r, x = .ok r → r.Canonical} {a : ExactRational}
    (ha : keep x h = .ok a) : x = .ok a.rational := by
  unfold keep at ha
  split at ha
  next r =>
    cases ha
    rfl
  next e => simp at ha

/-- Sums are exact. -/
lemma add_toRat {a b c : ExactRational} (h : add a b = .ok c) :
    c.toRat = a.toRat + b.toRat := by
  have hexact := Rational.addOrSubtract_exact a.canonical b.canonical false
  simpa [toRat] using hexact.eq_ok (keep_eq_ok h)

/-- Differences are exact. -/
lemma sub_toRat {a b c : ExactRational} (h : sub a b = .ok c) :
    c.toRat = a.toRat - b.toRat := by
  have hexact := Rational.addOrSubtract_exact a.canonical b.canonical true
  have hvalue := hexact.eq_ok (keep_eq_ok h)
  simp only [if_true] at hvalue
  rw [toRat, hvalue]
  show _ = a.rational.toRat - b.rational.toRat
  ring

/-- Quotients by a positive number are exact. -/
lemma div_toRat {a b c : ExactRational} (hb : 0 < b.toRat) (h : div a b = .ok c) :
    c.toRat = a.toRat / b.toRat := by
  have hne : b.rational.numerator ≠ 0 := by
    intro hzero
    simp [toRat, Rational.toRat, hzero] at hb
  refine ((Rational.div_exact_iff a.canonical b.canonical hne).mpr ?_).eq_ok (keep_eq_ok h)
  rintro ⟨hpos, hnum, -⟩
  -- a positive number over a positive number does not have the smallest numerator
  have ha : 0 < a.rational.toRat := by
    have h1 : (0 : ℚ) < a.rational.numerator := by exact_mod_cast hpos
    have h2 : (0 : ℚ) < a.rational.denominator := by exact_mod_cast a.canonical.denominator_pos
    exact div_pos h1 h2
  have hquotient : 0 < (a.rational.toRat / b.rational.toRat).num := Rat.num_pos.mpr (div_pos ha hb)
  rw [hnum] at hquotient
  exact absurd hquotient (by decide)

/-- The order is the order of the numbers. -/
@[simp] lemma less_eq_true {a b : ExactRational} : less a b = true ↔ a.toRat < b.toRat := by
  simp [less, Rational.less_eq a.canonical b.canonical, toRat]

/-- A value is integral exactly when its number is. -/
lemma integral_iff {a : ExactRational} : a.integral = true ↔ (⌊a.toRat⌋ : ℚ) = a.toRat := by
  obtain ⟨hnum, hden⟩ := Rational.num_den_of_coprime a.canonical.denominator_pos a.canonical.coprime
  have hvalue : a.toRat.den = 1 ↔ a.rational.denominator = 1 := by
    show ((a.rational.numerator : ℚ) / a.rational.denominator).den = 1 ↔ _
    omega
  rw [integral, decide_eq_true_eq, ← hvalue]
  refine ⟨fun h => ?_, fun h => ?_⟩
  · rw [← Rat.den_eq_one_iff _ |>.mp h, Int.floor_intCast]
  · rw [← h]
    exact Rat.den_intCast _

/-- The quotient of the two fields is the floor. -/
lemma floor_eq (a : ExactRational) :
    a.rational.numerator / a.rational.denominator = ⌊a.toRat⌋ := by
  have hpos := a.canonical.denominator_pos
  obtain ⟨d, hd⟩ : ∃ d : ℕ, a.rational.denominator = d := ⟨_, (Int.toNat_of_nonneg hpos.le).symm⟩
  show _ = ⌊(a.rational.numerator : ℚ) / a.rational.denominator⌋
  rw [hd, Int.cast_natCast, Rat.floor_intCast_div_natCast]

end ExactRational

/-! ## Clocks -/

/-- The operations on physical times. -/
structure PhysicalTime (τ : Type) where
  less : τ → τ → Bool
  isFinite : τ → Bool
  add : τ → τ → τ
  sub : τ → τ → τ
  mul : τ → τ → τ
  /-- `Rational::value()`. -/
  value : ExactRational → τ

/-- A position of a level clock in a macro step. -/
structure ClockStamp (τ : Type) where
  level : ℤ
  macroStep : ℤ
  phase : ExactRational
  physicalTime : τ

/-- A window of a level clock. -/
structure ClockWindow (τ : Type) where
  begin : ClockStamp τ
  «end» : ClockStamp τ

namespace ClockWindow

variable {τ : Type}

/-- The phase at which the window begins. -/
def lo (w : ClockWindow τ) : ℚ := w.begin.phase.toRat

/-- The phase at which the window ends. -/
def hi (w : ClockWindow τ) : ℚ := w.end.phase.toRat

/-- The exact length of the window. -/
def span (w : ClockWindow τ) : ℚ := w.hi - w.lo

end ClockWindow

/-- What to do with a window that is no whole number of child windows long. -/
inductive RemainderPolicy
  | integralOnly
  | explicitFinalSubstep
  deriving DecidableEq, Repr

/-- A window of the child level. -/
structure ChildSubstep (τ : Type) where
  window : ClockWindow τ
  isDeclaredRemainder : Bool

/-- The temporal relation of a level and the next finer one.  The ratio is the length of a parent
window over the nominal length of a child window. -/
structure ParentChildClockRelation where
  parentLevel : ℤ
  childLevel : ℤ
  ratio : ExactRational
  remainderPolicy : RemainderPolicy
  parentLevel_nonneg : 0 ≤ parentLevel
  childLevel_eq : childLevel = parentLevel + 1
  one_le_ratio : 1 ≤ ratio.toRat

namespace ParentChildClockRelation

variable {τ : Type}

/-- The constructor. -/
def create (parentLevel childLevel : ℤ) (temporalRatio : ExactRational)
    (remainderPolicy : RemainderPolicy) : Throws ParentChildClockRelation :=
  if h : parentLevel < 0 ∨ childLevel ≠ parentLevel + 1 ∨
      temporalRatio.less ExactRational.one = true then
    .error (invalidArgument "invalid AMR parent/child clock relation")
  else
    .ok ⟨parentLevel, childLevel, temporalRatio, remainderPolicy, by omega, by omega, by
      simpa [ExactRational.one, ExactRational.toRat, Rational.toRat] using
        fun hless => h (.inr (.inr (ExactRational.less_eq_true.mpr hless)))⟩

/-- The window of the child level between two phases of a parent window. -/
def makeChildWindow (time : PhysicalTime τ) (childLevel : ℤ) (parent : ClockWindow τ)
    (begin stop : ExactRational) : Throws (ClockWindow τ) := do
  let spanTime := time.sub parent.end.physicalTime parent.begin.physicalTime
  let parentSpan ← ExactRational.sub parent.end.phase parent.begin.phase
  let physical := fun phase : ExactRational => do
    let offset ← ExactRational.sub phase parent.begin.phase
    let alpha ← ExactRational.div offset parentSpan
    pure (time.add parent.begin.physicalTime (time.mul spanTime (time.value alpha)))
  let physicalBegin ← physical begin
  let physicalEnd ← physical stop
  pure ⟨⟨childLevel, parent.begin.macroStep, begin, physicalBegin⟩,
    ⟨childLevel, parent.begin.macroStep, stop, physicalEnd⟩⟩

/-- One round of the loop over the full child windows. -/
def nextChild (time : PhysicalTime τ) (relation : ParentChildClockRelation)
    (parent : ClockWindow τ) (nominal : ExactRational)
    (state : ExactRational × List (ChildSubstep τ)) :
    Throws (ExactRational × List (ChildSubstep τ)) := do
  let next ← ExactRational.add state.1 nominal
  let window ← makeChildWindow time relation.childLevel parent state.1 next
  pure (next, state.2 ++ [⟨window, false⟩])

/-- Split a window of the parent level into windows of the child level. -/
def partition (time : PhysicalTime τ) (relation : ParentChildClockRelation)
    (parent : ClockWindow τ) : Throws (List (ChildSubstep τ)) := do
  throwIf (parent.begin.level ≠ relation.parentLevel ∨ parent.end.level ≠ relation.parentLevel ∨
      ¬ parent.begin.phase.less parent.end.phase ∨
      ¬ time.less parent.begin.physicalTime parent.end.physicalTime)
    (runtimeError "AMR parent clock window does not match its relation")
  throwIf (¬ relation.ratio.integral ∧ relation.remainderPolicy = .integralOnly)
    (runtimeError "non-integral AMR temporal relation requires an explicit remainder policy")
  let span ← ExactRational.sub parent.end.phase parent.begin.phase
  let nominal ← ExactRational.div span relation.ratio
  let full := relation.ratio.rational.numerator / relation.ratio.rational.denominator
  let (cursor, result) ← (List.range full.toNat).foldlM
    (fun state _ => nextChild time relation parent nominal state) (parent.begin.phase, [])
  if cursor.less parent.end.phase then do
    let window ← makeChildWindow time relation.childLevel parent cursor parent.end.phase
    pure (result ++ [⟨window, true⟩])
  else pure result

/-! ## Splitting a window -/

/-- The child windows are the full windows of the nominal length, one after the other over the
parent window, and after them, for a ratio that is not integral and only under the policy that
declares it, a shorter one marked as the remainder. -/
structure Splits (relation : ParentChildClockRelation) (parent : ClockWindow τ)
    (children : List (ChildSubstep τ)) : Prop where
  tiles : Tiles (fun c => c.window.lo) (fun c => c.window.hi) parent.lo parent.hi children
  levels : ∀ c ∈ children, c.window.begin.level = relation.childLevel ∧
    c.window.end.level = relation.childLevel
  count : (children.length : ℤ) = ⌈relation.ratio.toRat⌉
  lengths : ∃ full rest, children = full ++ rest ∧
    (∀ c ∈ full, c.isDeclaredRemainder = false ∧
      c.window.span = parent.span / relation.ratio.toRat) ∧
    ((relation.ratio.integral = true ∧ rest = []) ∨
      (relation.ratio.integral = false ∧ relation.remainderPolicy = .explicitFinalSubstep ∧
        ∃ c, rest = [c] ∧ c.isDeclaredRemainder = true ∧
          c.window.span < parent.span / relation.ratio.toRat))

/-- A child window has the ends it was made for. -/
lemma makeChildWindow_eq_ok {time : PhysicalTime τ} {childLevel : ℤ} {parent w : ClockWindow τ}
    {begin stop : ExactRational} (h : makeChildWindow time childLevel parent begin stop = .ok w) :
    w.begin.phase = begin ∧ w.end.phase = stop ∧ w.begin.level = childLevel ∧
      w.end.level = childLevel := by
  simp only [makeChildWindow, bind_eq_ok, pure_eq_ok] at h
  obtain ⟨_, -, _, -, _, -, rfl⟩ := h
  exact ⟨rfl, rfl, rfl, rfl⟩

/-- The state of the loop after some rounds: the cursor has moved by whole nominal lengths and the
windows tile the way behind it. -/
structure Filled (relation : ParentChildClockRelation) (start nominal : ℚ) (rounds : ℕ)
    (state : ExactRational × List (ChildSubstep τ)) : Prop where
  cursor_eq : state.1.toRat = start + rounds * nominal
  length_eq : state.2.length = rounds
  tiles : Tiles (fun c => c.window.lo) (fun c => c.window.hi) start state.1.toRat state.2
  member : ∀ c ∈ state.2, c.isDeclaredRemainder = false ∧ c.window.span = nominal ∧
    c.window.begin.level = relation.childLevel ∧ c.window.end.level = relation.childLevel

/-- A round appends one window of the nominal length. -/
lemma nextChild_filled {time : PhysicalTime τ} {relation : ParentChildClockRelation}
    {parent : ClockWindow τ} {nominal : ExactRational} {start : ℚ} {rounds : ℕ}
    {state state' : ExactRational × List (ChildSubstep τ)} (hpos : 0 < nominal.toRat)
    (hstate : Filled relation start nominal.toRat rounds state)
    (h : nextChild time relation parent nominal state = .ok state') :
    Filled relation start nominal.toRat (rounds + 1) state' := by
  simp only [nextChild, bind_eq_ok, pure_eq_ok] at h
  obtain ⟨next, hnext, window, hwindow, rfl⟩ := h
  obtain ⟨hbegin, hend, hlevels⟩ := makeChildWindow_eq_ok hwindow
  have hvalue := ExactRational.add_toRat hnext
  have hlo : window.lo = state.1.toRat := by rw [ClockWindow.lo, hbegin]
  have hhi : window.hi = next.toRat := by rw [ClockWindow.hi, hend]
  refine ⟨?_, by simp [hstate.length_eq], ?_, ?_⟩
  · show next.toRat = _
    rw [hvalue, hstate.cursor_eq]
    push_cast
    ring
  · refine hstate.tiles.append ?_
    have hone : Tiles (fun c : ChildSubstep τ => c.window.lo) (fun c => c.window.hi) window.lo
        window.hi [⟨window, false⟩] := by
      refine .cons (⟨window, false⟩ : ChildSubstep τ) ?_ (.nil _)
      show window.lo < window.hi
      rw [hlo, hhi, hvalue]
      linarith
    simpa only [hlo, hhi] using hone
  · intro c hc
    rcases List.mem_append.mp hc with hc | hc
    · exact hstate.member c hc
    · obtain rfl := List.mem_singleton.mp hc
      refine ⟨rfl, ?_, hlevels⟩
      rw [ClockWindow.span, hlo, hhi, hvalue]
      ring

/-- **A partition splits its window.**

**Proof sketch.** After `n` rounds the cursor stands `n` nominal lengths behind the start.  The
nominal length is the span over the ratio, so after `⌊ratio⌋` rounds the cursor stands at the end
exactly when the ratio is integral, and before the end by less than a nominal length otherwise. -/
theorem partition_splits {time : PhysicalTime τ} {relation : ParentChildClockRelation}
    {parent : ClockWindow τ} {children : List (ChildSubstep τ)}
    (h : partition time relation parent = .ok children) : relation.Splits parent children := by
  simp only [partition, bind_eq_ok, throwIf_eq_ok, not_or, not_not] at h
  obtain ⟨_, ⟨-, -, hless, -⟩, _, hpolicy, span, hspan, nominal, hnominal, ⟨cursor, result⟩, hloop,
    hlast⟩ := h
  rw [ExactRational.less_eq_true] at hless
  set q := relation.ratio.toRat with hq
  have hqpos : 0 < q := lt_of_lt_of_le one_pos relation.one_le_ratio
  have hspanpos : 0 < parent.span := sub_pos.mpr hless
  have hnominal_eq : nominal.toRat = parent.span / q := by
    rw [ExactRational.div_toRat hqpos hnominal, ExactRational.sub_toRat hspan]
    rfl
  have hnominalpos : 0 < nominal.toRat := by
    rw [hnominal_eq]
    exact div_pos hspanpos hqpos
  -- the loop makes `⌊ratio⌋` rounds
  have hfilled := foldlM_invariant
    (P := fun done state => Filled relation parent.lo nominal.toRat done.length state) hloop
    ⟨by simp [ClockWindow.lo], rfl, .nil _, by simp⟩ (by
      intro done a rest s s' _ hs hstep
      rw [List.length_append]
      exact nextChild_filled hnominalpos hs hstep)
  have hfloor : (0 : ℤ) ≤ ⌊q⌋ := Int.floor_nonneg.mpr hqpos.le
  have hrounds : (((List.range (relation.ratio.rational.numerator /
      relation.ratio.rational.denominator).toNat).length : ℕ) : ℤ) = ⌊q⌋ := by
    rw [List.length_range, ExactRational.floor_eq]
    exact Int.toNat_of_nonneg hfloor
  have hroundsRat : (((List.range (relation.ratio.rational.numerator /
      relation.ratio.rational.denominator).toNat).length : ℕ) : ℚ) = (⌊q⌋ : ℚ) := by
    exact_mod_cast hrounds
  have hcursor : cursor.toRat = parent.lo + ⌊q⌋ * (parent.span / q) := by
    rw [hfilled.cursor_eq, hroundsRat, hnominal_eq]
  have hlength : (result.length : ℤ) = ⌊q⌋ := by
    rw [hfilled.length_eq, hrounds]
  have hend : parent.hi = parent.lo + q * (parent.span / q) := by
    rw [mul_div_cancel₀ _ hqpos.ne', ClockWindow.span]
    ring
  have hmember := hfilled.member
  simp only [hnominal_eq] at hmember
  cases hintegral : relation.ratio.integral with
  | true =>
    have hq_eq := ExactRational.integral_iff.mp hintegral
    have hcursor_end : cursor.toRat = parent.hi := by
      rw [hcursor, hend, hq_eq]
    have hnot : ¬ cursor.less parent.end.phase = true := by
      rw [ExactRational.less_eq_true, hcursor_end]
      exact lt_irrefl _
    rw [if_neg hnot, pure_eq_ok] at hlast
    subst hlast
    refine ⟨?_, fun c hc => (hmember c hc).2.2, ?_, result, [], by simp, fun c hc => ?_,
      .inl ⟨hintegral, rfl⟩⟩
    · rw [← hcursor_end]
      exact hfilled.tiles
    · rw [hlength, ← hq_eq, Int.ceil_intCast]
    · exact ⟨(hmember c hc).1, (hmember c hc).2.1⟩
  | false =>
    have hq_ne : (⌊q⌋ : ℚ) ≠ q := by
      intro hq_eq
      rw [ExactRational.integral_iff.mpr hq_eq] at hintegral
      exact Bool.noConfusion hintegral
    have hq_lt : (⌊q⌋ : ℚ) < q := lt_of_le_of_ne (Int.floor_le q) hq_ne
    have hstep : 0 < parent.span / q := div_pos hspanpos hqpos
    have hcursor_lt : cursor.toRat < parent.hi := by
      rw [hcursor, hend]
      have := mul_lt_mul_of_pos_right hq_lt hstep
      linarith
    rw [if_pos (ExactRational.less_eq_true.mpr hcursor_lt), bind_eq_ok] at hlast
    obtain ⟨window, hwindow, hlast⟩ := hlast
    rw [pure_eq_ok] at hlast
    subst hlast
    obtain ⟨hwbegin, hwend, hwlevels⟩ := makeChildWindow_eq_ok hwindow
    have hlo : window.lo = cursor.toRat := by rw [ClockWindow.lo, hwbegin]
    have hhi : window.hi = parent.hi := by rw [ClockWindow.hi, hwend]; rfl
    have hpolicy' : relation.remainderPolicy = .explicitFinalSubstep := by
      cases hcase : relation.remainderPolicy with
      | integralOnly => simp [hintegral, hcase] at hpolicy
      | explicitFinalSubstep => rfl
    refine ⟨?_, ?_, ?_, result, [⟨window, true⟩], rfl,
      fun c hc => ⟨(hmember c hc).1, (hmember c hc).2.1⟩,
      .inr ⟨hintegral, hpolicy', ⟨window, true⟩, rfl, rfl, ?_⟩⟩
    · refine hfilled.tiles.append ?_
      have hone : Tiles (fun c : ChildSubstep τ => c.window.lo) (fun c => c.window.hi) window.lo
          window.hi [⟨window, true⟩] := by
        refine .cons (⟨window, true⟩ : ChildSubstep τ) ?_ (.nil _)
        show window.lo < window.hi
        rw [hlo, hhi]
        exact hcursor_lt
      simpa only [hlo, hhi] using hone
    · intro c hc
      rcases List.mem_append.mp hc with hc | hc
      · exact (hmember c hc).2.2
      · obtain rfl := List.mem_singleton.mp hc
        exact hwlevels
    · have hceil : ⌈q⌉ = ⌊q⌋ + 1 := by
        rw [Int.ceil_eq_iff]
        push_cast
        exact ⟨by linarith, (Int.lt_floor_add_one q).le⟩
      rw [List.length_append, hceil]
      simp [hlength]
    · -- less than one nominal length is left
      have hlt := mul_lt_mul_of_pos_right (Int.lt_floor_add_one q) hstep
      rw [ClockWindow.span, hlo, hhi, hcursor, hend]
      linarith

end ParentChildClockRelation

end Pops
