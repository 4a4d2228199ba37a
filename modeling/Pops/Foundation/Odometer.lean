import Pops.Foundation.MixedRadix

/-!
# Odometers

The loop over all integer vectors between two bounds that counts up the first coordinate and carries
into the next one.  What is left of the loop is the ordinal of the distances to the upper bounds in
mixed radix, which goes down by one in every step.

## Main definitions

* `Odometer.advance` — one step of the loop.
* `Odometer.visits` — the vectors that the loop visits.

## Main results

* `Odometer.mem_visits`, `nodup_visits` — every vector between the bounds is visited, once.
-/

namespace Odometer

variable {d : ℕ}

/-- The vector lies between the bounds. -/
def Within (lower upper current : Fin d → ℤ) : Prop :=
  ∀ a, lower a ≤ current a ∧ current a ≤ upper a

/-- Count up the first coordinate that is not at its upper bound, and set those before it back. -/
def advance : {d : ℕ} → (lower upper current : Fin d → ℤ) → Option (Fin d → ℤ)
  | 0, _, _, _ => none
  | _ + 1, lower, upper, current =>
    if current 0 ≠ upper 0 then some (Fin.cons (current 0 + 1) (Fin.tail current))
    else (advance (Fin.tail lower) (Fin.tail upper) (Fin.tail current)).map (Fin.cons (lower 0))

/-- One step of the loop over one coordinate and others. -/
lemma advance_succ (lower upper current : Fin (d + 1) → ℤ) :
    advance lower upper current =
      if current 0 ≠ upper 0 then some (Fin.cons (current 0 + 1) (Fin.tail current))
      else (advance (Fin.tail lower) (Fin.tail upper) (Fin.tail current)).map
      (Fin.cons (lower 0)) :=
  rfl

/-- The number of values of a coordinate. -/
def radices (lower upper : Fin d → ℤ) (a : Fin d) : ℕ := (upper a - lower a + 1).toNat

/-- The number of steps that are left. -/
def remaining (lower upper current : Fin d → ℤ) : ℕ :=
  MixedRadix.rank (radices lower upper) fun a => (upper a - current a).toNat

/-- Within bounds, the distances to the upper bounds are digits. -/
theorem Within.digits {lower upper current : Fin d → ℤ} (h : Within lower upper current)
    (a : Fin d) :
    (upper a - current a).toNat < radices lower upper a := by
  have := h a
  unfold radices
  omega

/-- The steps that are left, one coordinate at a time. -/
lemma remaining_succ (lower upper current : Fin (d + 1) → ℤ) :
    remaining lower upper current = (upper 0 - current 0).toNat +
      radices lower upper 0 * remaining (Fin.tail lower) (Fin.tail upper) (Fin.tail current) := rfl

/-- A position within its bounds is within them in the later digits. -/
lemma Within.tail {lower upper current : Fin (d + 1) → ℤ} (h : Within lower upper current) :
    Within (Fin.tail lower) (Fin.tail upper) (Fin.tail current) := fun a => h a.succ

/-- A vector between the bounds is determined by the steps that are left. -/
lemma remaining_injective {lower upper current other : Fin d → ℤ}
    (h : Within lower upper current) (h' : Within lower upper other)
    (heq : remaining lower upper current = remaining lower upper other) : current = other := by
  have hdigits := congrArg (MixedRadix.unrank (radices lower upper)) heq
  unfold remaining at hdigits
  rw [MixedRadix.unrank_rank h.digits, MixedRadix.unrank_rank h'.digits] at hdigits
  funext a
  have ha := congrFun hdigits a
  have h1 := h a
  have h2 := h' a
  omega

/-- A step stays between the bounds and leaves one step less. -/
lemma advance_some {d : ℕ} {lower upper current next : Fin d → ℤ}
    (h : Within lower upper current) (hnext : advance lower upper current = some next) :
    Within lower upper next ∧
      remaining lower upper current = remaining lower upper next + 1 := by
  induction d with
  | zero => cases hnext
  | succ d ih =>
    rw [advance_succ] at hnext
    have h0 := h 0
    split_ifs at hnext with hlast
    · -- the first coordinate counts up
      obtain rfl := Option.some.inj hnext
      refine ⟨Fin.cases ⟨by simp; omega, by simp; omega⟩
        fun a => by simpa [Fin.tail] using h a.succ, ?_⟩
      rw [remaining_succ, remaining_succ, Fin.cons_zero, Fin.tail_cons]
      omega
    · -- the carry into the other coordinates
      obtain ⟨rest, hrest, rfl⟩ := Option.map_eq_some_iff.mp hnext
      obtain ⟨hwithin, hremaining⟩ := ih h.tail hrest
      refine ⟨Fin.cases ⟨by simp, by simp; omega⟩ fun a => by simpa [Fin.tail] using hwithin a, ?_⟩
      rw [remaining_succ, remaining_succ, Fin.cons_zero, Fin.tail_cons, hremaining, Nat.mul_add,
        Nat.mul_one]
      unfold radices
      omega

/-- The loop stops at the upper bounds. -/
lemma advance_none {d : ℕ} {lower upper current : Fin d → ℤ}
    (hnext : advance lower upper current = none) : remaining lower upper current = 0 := by
  induction d with
  | zero => rfl
  | succ d ih =>
    rw [advance_succ] at hnext
    split_ifs at hnext with hlast
    rw [remaining_succ, ih (Option.map_eq_none_iff.mp hnext)]
    omega

/-- The vectors that the loop visits, from the current one on. -/
def visitsFrom (lower upper current : Fin d → ℤ) (h : Within lower upper current) :
    List (Fin d → ℤ) :=
  match hnext : advance lower upper current with
  | none => [current]
  | some next => current :: visitsFrom lower upper next (advance_some h hnext).1
termination_by remaining lower upper current
decreasing_by
  have := (advance_some h hnext).2
  omega

/-- The loop visits the vectors with at most as many steps left, and none twice. -/
lemma visitsFrom_spec (lower upper current : Fin d → ℤ) (h : Within lower upper current) :
    (visitsFrom lower upper current h).Nodup ∧ ∀ v, v ∈ visitsFrom lower upper current h ↔
      Within lower upper v ∧ remaining lower upper v ≤ remaining lower upper current := by
  fun_induction visitsFrom lower upper current h with
  | case1 current h hnext =>
    refine ⟨List.nodup_singleton _, fun v => ?_⟩
    rw [List.mem_singleton, advance_none hnext]
    constructor
    · rintro rfl
      exact ⟨h, (advance_none hnext).le⟩
    · rintro ⟨hv, hle⟩
      refine remaining_injective hv h ?_
      rw [advance_none hnext]
      omega
  | case2 current h next hnext ih =>
    obtain ⟨hnodup, hmem⟩ := ih
    obtain ⟨hwithin, hremaining⟩ := advance_some h hnext
    constructor
    · refine List.nodup_cons.mpr ⟨fun hcurrent => ?_, hnodup⟩
      have := ((hmem current).mp hcurrent).2
      omega
    · intro v
      rw [List.mem_cons, hmem]
      constructor
      · rintro (rfl | ⟨hv, hle⟩)
        · exact ⟨h, le_rfl⟩
        · exact ⟨hv, by omega⟩
      · rintro ⟨hv, hle⟩
        by_cases heq : remaining lower upper v = remaining lower upper current
        · exact .inl (remaining_injective hv h heq)
        · exact .inr ⟨hv, by omega⟩

/-- The lower bounds lie between the bounds. -/
lemma within_lower {lower upper : Fin d → ℤ} (h : ∀ a, lower a ≤ upper a) :
    Within lower upper lower := fun a => ⟨le_rfl, h a⟩

/-- The vectors that the loop visits from the lower bounds on. -/
def visits (lower upper : Fin d → ℤ) (h : ∀ a, lower a ≤ upper a) : List (Fin d → ℤ) :=
  visitsFrom lower upper lower (within_lower h)

/-- No vector has more steps left than the lower bounds. -/
lemma remaining_le {d : ℕ} {lower upper v : Fin d → ℤ} (h : Within lower upper v) :
    remaining lower upper v ≤ remaining lower upper lower := by
  induction d with
  | zero => rfl
  | succ d ih =>
    rw [remaining_succ, remaining_succ]
    have h0 := h 0
    have hrest := Nat.mul_le_mul_left (radices lower upper 0) (ih h.tail)
    omega

/-- **Every vector between the bounds is visited.** -/
@[simp] theorem mem_visits {lower upper v : Fin d → ℤ} {h : ∀ a, lower a ≤ upper a} :
    v ∈ visits lower upper h ↔ Within lower upper v := by
  rw [visits, (visitsFrom_spec lower upper lower _).2]
  exact ⟨fun hv => hv.1, fun hv => ⟨hv, remaining_le hv⟩⟩

/-- **No vector is visited twice.** -/
theorem nodup_visits (lower upper : Fin d → ℤ) (h : ∀ a, lower a ≤ upper a) :
    (visits lower upper h).Nodup :=
  (visitsFrom_spec lower upper lower _).1

end Odometer
