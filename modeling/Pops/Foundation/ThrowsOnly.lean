import Pops.Foundation.Exception

/-!
# Conditions on exceptions

What a computation may throw, one rule for every way to put computations together.

## Main definitions

* `Pops.ThrowsOnly` — every exception that the computation throws satisfies a condition.

## Main results

* `Pops.throwsOnly_bind`, `throwsOnly_foldlM` — sequences and loops.
* `Pops.foldlM_eq_error` — where a loop threw.
-/

universe u

namespace Pops

variable {ε : Type*} {α β σ : Type u} {E : ε → Prop}

/-- Every exception that the computation throws satisfies the condition. -/
def ThrowsOnly (E : ε → Prop) (x : Except ε α) : Prop := ∀ e, x = .error e → E e

/-- A returned value throws nothing. -/
lemma throwsOnly_pure (a : α) : ThrowsOnly E (pure a : Except ε α) := fun _ h => nomatch h

/-- A computation that returns throws nothing. -/
lemma throwsOnly_of_returns {x : Except ε α} (h : Returns x) : ThrowsOnly E x := by
  obtain ⟨a, rfl⟩ := h
  exact fun _ h => nomatch h

/-- A thrown exception. -/
lemma throwsOnly_throw {e : ε} (h : E e) : ThrowsOnly E (throw e : Except ε α) := by
  intro e' he
  cases he
  exact h

/-- A guard throws its exception. -/
lemma throwsOnly_throwIf {E : Exception → Prop} {c : Prop} [Decidable c] {e : Exception}
    (h : E e) :
    ThrowsOnly E (throwIf c e) := by
  intro e' he
  unfold throwIf at he
  split_ifs at he
  cases he
  exact h

/-- A weaker condition. -/
lemma ThrowsOnly.mono {F : ε → Prop} {x : Except ε α} (h : ThrowsOnly E x)
    (hEF : ∀ e, E e → F e) :
    ThrowsOnly F x :=
  fun e he => hEF e (h e he)

/-- A sequence throws what its parts throw. -/
theorem throwsOnly_bind {x : Except ε α} {f : α → Except ε β} (hx : ThrowsOnly E x)
    (hf : ∀ a, x = .ok a → ThrowsOnly E (f a)) : ThrowsOnly E (x >>= f) := by
  intro e he
  cases hval : x with
  | error e' =>
    rw [hval] at he
    cases he
    exact hx e hval
  | ok a =>
    rw [hval] at he
    exact hf a hval e he

/-- A loop throws what its rounds throw. -/
theorem throwsOnly_foldlM {f : σ → α → Except ε σ} {l : List α}
    (h : ∀ s, ∀ a ∈ l, ThrowsOnly E (f s a)) (s : σ) : ThrowsOnly E (l.foldlM f s) := by
  induction l generalizing s with
  | nil => exact throwsOnly_pure s
  | cons a rest ih =>
    rw [List.foldlM_cons]
    exact throwsOnly_bind (h s a (by simp)) fun s' _ => ih (fun t b hb => h t b (by simp [hb])) s'

/-- A loop that collects values throws what its rounds throw. -/
lemma throwsOnly_mapM {f : α → Except ε β} {l : List α} (h : ∀ a ∈ l, ThrowsOnly E (f a)) :
    ThrowsOnly E (l.mapM f) := by
  induction l with
  | nil => exact throwsOnly_pure []
  | cons a rest ih =>
    rw [List.mapM_cons]
    exact throwsOnly_bind (h a (by simp)) fun b _ =>
      throwsOnly_bind (ih fun b hb => h b (by simp [hb])) fun bs _ => throwsOnly_pure _

/-- A loop of statements throws what its rounds throw. -/
lemma throwsOnly_forEach {E : Exception → Prop} {f : α → Throws Unit} {l : List α}
    (h : ∀ a ∈ l, ThrowsOnly E (f a)) : ThrowsOnly E (forEach l f) := by
  induction l with
  | nil => exact throwsOnly_pure ()
  | cons a rest ih =>
    exact throwsOnly_bind (h a (by simp)) fun _ _ => ih fun b hb => h b (by simp [hb])

/-- A loop over the axes throws what its rounds throw. -/
lemma throwsOnly_forEachAxis {E : Exception → Prop} {d : ℕ} {f : Fin d → Throws α}
    (h : ∀ a, ThrowsOnly E (f a)) : ThrowsOnly E (forEachAxis f) := by
  induction d with
  | zero => exact throwsOnly_pure _
  | succ d ih =>
    exact throwsOnly_bind (h 0) fun first _ =>
      throwsOnly_bind (ih fun a => h a.succ) fun rest _ => throwsOnly_pure _

/-- A loop that threw did so in one of its rounds, after the rounds before it. -/
theorem foldlM_eq_error {f : σ → α → Except ε σ} {l : List α} :
    ∀ {s : σ} {e : ε}, l.foldlM f s = .error e → ∃ front a back s', l = front ++ a :: back ∧
      front.foldlM f s = .ok s' ∧ f s' a = .error e := by
  induction l with
  | nil => exact fun h => nomatch h
  | cons a rest ih =>
    intro s e h
    rw [List.foldlM_cons] at h
    cases hround : f s a with
    | error e' =>
      rw [hround] at h
      cases h
      exact ⟨[], a, rest, s, rfl, rfl, hround⟩
    | ok s' =>
      rw [hround] at h
      obtain ⟨front, b, back, t, rfl, hfront, hthrow⟩ := ih h
      exact ⟨a :: front, b, back, t, rfl, by simp [hround, hfront], hthrow⟩

end Pops
