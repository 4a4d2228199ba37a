import Mathlib

/-!
# Computations that throw

C++ code that throws a standard exception is modelled in `Except Exception`: an exception is
its class together with the text passed to its constructor.  A guard `if (c) throw e;` is
`throwIf c e`, a sequence of statements is a `do` block, and a counted or range-based `for`
loop is a left fold over the values it visits.

## Main definitions

* `Pops.Exception`, `Throws` — thrown exceptions and computations that may throw.
* `Pops.throwIf` — a guard statement.
* `Pops.forEachAxis` — a loop over the axes that fills one array entry per axis.
* `Pops.forEach` — a range-based loop of statements.

## Main results

* `Pops.bind_eq_ok`, `throwIf_eq_ok` — inversion of a successful sequence of statements.
* `Pops.foldlM_invariant` — a loop that ran to its end preserves an invariant of its prefix.
* `Pops.foldlM_eq_ok_iff`, `mapM_eq_ok_iff` — loops whose success and result are known exactly.
* `Pops.foldlM_total`, `mapM_total` — a loop whose body never throws runs to its end.
-/

universe u

namespace Pops

/-- The classes of `<stdexcept>` that occur in the modelled code, and `std::terminate`. -/
inductive ExceptionKind
  | invalidArgument
  | outOfRange
  | lengthError
  | overflowError
  | logicError
  | runtimeError
  | terminate
  deriving DecidableEq, Repr

/-- A thrown exception: its class and its `what()` text. -/
structure Exception where
  kind : ExceptionKind
  what : String
  deriving DecidableEq, Repr

/-- A computation that returns a value or throws. -/
abbrev Throws (α : Type*) := Except Exception α

/-- `throw std::invalid_argument(text)`. -/
def invalidArgument (text : String) : Exception := ⟨.invalidArgument, text⟩

/-- `throw std::out_of_range(text)`. -/
def outOfRange (text : String) : Exception := ⟨.outOfRange, text⟩

/-- `throw std::length_error(text)`. -/
def lengthError (text : String) : Exception := ⟨.lengthError, text⟩

/-- `throw std::overflow_error(text)`. -/
def overflowError (text : String) : Exception := ⟨.overflowError, text⟩

/-- `throw std::logic_error(text)`. -/
def logicError (text : String) : Exception := ⟨.logicError, text⟩

/-- `throw std::runtime_error(text)`. -/
def runtimeError (text : String) : Exception := ⟨.runtimeError, text⟩

/-- `std::terminate()`. -/
def terminate : Exception := ⟨.terminate, ""⟩

/-- The guard statement `if (c) throw e;`. -/
def throwIf (c : Prop) [Decidable c] (e : Exception) : Throws Unit :=
  if c then .error e else .ok ()

/-- The loop `for (axis = 0; axis < d; ++axis) result[axis] = f(axis);`. -/
def forEachAxis {α : Type u} : {d : ℕ} → (Fin d → Throws α) → Throws (Fin d → α)
  | 0, _ => pure Fin.elim0
  | _ + 1, f => do
    let first ← Matrix.vecHead f
    let rest ← forEachAxis (Fin.tail f)
    pure (Fin.cons first rest)

/-- The loop `for (a : l) f(a);` of statements that return nothing. -/
def forEach {α : Type u} : List α → (α → Throws Unit) → Throws Unit
  | [], _ => pure ()
  | a :: l, f => do
    f a
    forEach l f

/-- The computation returned a value. -/
def Returns {ε α : Type*} (x : Except ε α) : Prop := ∃ a, x = .ok a

section Inversion

variable {ε : Type*} {α β σ : Type u}

/-- A sequence succeeds exactly when both of its parts do. -/
@[simp] theorem bind_eq_ok {x : Except ε α} {f : α → Except ε β} {b : β} :
    (x >>= f) = .ok b ↔ ∃ a, x = .ok a ∧ f a = .ok b := by
  cases x with
  | error e => simp [bind, Except.bind]
  | ok a => simp [bind, Except.bind]

/-- A sequence goes on from a returned value. -/
@[simp] lemma ok_bind (a : α) (f : α → Except ε β) : ((.ok a : Except ε α) >>= f) = f a := rfl

/-- A guard with a false condition does nothing. -/
lemma throwIf_neg {c : Prop} [Decidable c] {e : Exception} (h : ¬ c) : throwIf c e = .ok () :=
  if_neg h

/-- A guard lets the computation pass exactly when its condition is false. -/
@[simp] theorem throwIf_eq_ok {c : Prop} [Decidable c] {e : Exception} {u : Unit} :
    throwIf c e = .ok u ↔ ¬ c := by
  unfold throwIf
  split_ifs with h <;> simp [h]

/-- Returning a value succeeds with that value. -/
@[simp] lemma pure_eq_ok {a b : α} : (pure a : Except ε α) = .ok b ↔ a = b := by
  simp [pure, Except.pure]

/-- Throwing never succeeds. -/
@[simp] lemma throw_eq_ok {e : ε} {a : α} : (throw e : Except ε α) = .ok a ↔ False := by
  simp [throw, throwThe, MonadExceptOf.throw]

/-- Mapping over a computation succeeds exactly when the computation does. -/
@[simp] lemma map_eq_ok {x : Except ε α} {f : α → β} {b : β} :
    (f <$> x) = .ok b ↔ ∃ a, x = .ok a ∧ f a = b := by
  cases x with
  | error e => simp [Functor.map, Except.map]
  | ok a => simp [Functor.map, Except.map]

/-- A loop over the axes succeeds exactly when its body does on every axis. -/
@[simp] lemma forEachAxis_eq_ok {d : ℕ} {f : Fin d → Throws α} {x : Fin d → α} :
    forEachAxis f = .ok x ↔ ∀ a, f a = .ok (x a) := by
  induction d with
  | zero =>
    simp only [forEachAxis, pure_eq_ok, IsEmpty.forall_iff, iff_true]
    exact funext fun a => a.elim0
  | succ d ih =>
    simp only [forEachAxis, Matrix.vecHead, bind_eq_ok, pure_eq_ok, ih]
    refine ⟨fun h a => ?_, fun h => ⟨x 0, h 0, Fin.tail x, fun a => h a.succ,
      Fin.cons_self_tail x⟩⟩
    obtain ⟨first, h0, rest, hrest, rfl⟩ := h
    exact Fin.cases (by simpa using h0) (fun b => by simpa [Fin.tail] using hrest b) a

/-- A loop of checks passes exactly when every check does. -/
@[simp] lemma forEach_eq_ok {l : List α} {f : α → Throws Unit} {v : Unit} :
    forEach l f = .ok v ↔ ∀ a ∈ l, f a = .ok () := by
  induction l with
  | nil => simp [forEach]
  | cons a l ih => simp [forEach, ih, Unique.exists_iff]

/-- A loop that maps every element: if the body succeeds under `C` with the value of `g`, the loop
succeeds under `C` everywhere with the list of all values. -/
theorem mapM_eq_ok_iff {f : α → Except ε β} {g : α → β} {C : α → Prop} {l : List α} {k : List β}
    (hf : ∀ a ∈ l, ∀ b, f a = .ok b ↔ C a ∧ b = g a) :
    l.mapM f = .ok k ↔ (∀ a ∈ l, C a) ∧ k = l.map g := by
  induction l generalizing k with
  | nil =>
    simp only [List.mapM_nil, pure_eq_ok, List.not_mem_nil, false_imp_iff, implies_true, true_and,
      List.map_nil]
    exact eq_comm
  | cons a l ih =>
    have ih' := fun k => ih (k := k) fun c hc => hf c (by simp [hc])
    simp only [List.mapM_cons, bind_eq_ok, pure_eq_ok, hf a (by simp), ih', List.forall_mem_cons,
      List.map_cons]
    refine ⟨fun h => ?_, fun h => ?_⟩
    · obtain ⟨_, ⟨hC, rfl⟩, _, ⟨hall, rfl⟩, rfl⟩ := h
      exact ⟨⟨hC, hall⟩, rfl⟩
    · obtain ⟨⟨hC, hall⟩, rfl⟩ := h
      exact ⟨_, ⟨hC, rfl⟩, _, ⟨hall, rfl⟩, rfl⟩

/-- A loop that maps every element runs to its end when its body never throws. -/
theorem mapM_total {f : α → Except ε β} {Q : α → β → Prop} {l : List α}
    (h : ∀ a ∈ l, ∃ b, f a = .ok b ∧ Q a b) :
    ∃ k, l.mapM f = .ok k ∧ List.Forall₂ Q l k ∧ ∀ b ∈ k, ∃ a ∈ l, Q a b := by
  induction l with
  | nil => exact ⟨[], rfl, .nil, by simp⟩
  | cons a l ih =>
    obtain ⟨b, hb, hQ⟩ := h a (by simp)
    obtain ⟨k, hk, hall, hmem⟩ := ih fun c hc => h c (by simp [hc])
    refine ⟨b :: k, by simp [hb, hk], .cons hQ hall, fun e he => ?_⟩
    rcases List.mem_cons.mp he with rfl | he
    · exact ⟨a, by simp, hQ⟩
    · obtain ⟨c, hc, hQc⟩ := hmem e he
      exact ⟨c, by simp [hc], hQc⟩

/-- A loop that maps every element relates the elements to the values one by one. -/
lemma forall₂_of_mapM {f : α → Except ε β} {l : List α} {k : List β} (h : l.mapM f = .ok k) :
    List.Forall₂ (fun a b => f a = .ok b) l k := by
  induction l generalizing k with
  | nil =>
    simp only [List.mapM_nil, pure_eq_ok] at h
    rw [← h]
    exact .nil
  | cons a l ih =>
    simp only [List.mapM_cons, bind_eq_ok, pure_eq_ok] at h
    obtain ⟨b, hb, rest, hrest, rfl⟩ := h
    exact .cons hb (ih hrest)

/-- A loop that maps every element has a value for every element, and no other values. -/
lemma mem_of_mapM {f : α → Except ε β} {l : List α} {k : List β} (h : l.mapM f = .ok k) :
    (∀ a ∈ l, ∃ b ∈ k, f a = .ok b) ∧ ∀ b ∈ k, ∃ a ∈ l, f a = .ok b := by
  induction l generalizing k with
  | nil =>
    simp only [List.mapM_nil, pure_eq_ok] at h
    simp [← h]
  | cons a l ih =>
    simp only [List.mapM_cons, bind_eq_ok, pure_eq_ok] at h
    obtain ⟨b, hb, rest, hrest, rfl⟩ := h
    obtain ⟨hl, hk⟩ := ih hrest
    refine ⟨fun x hx => ?_, fun y hy => ?_⟩
    · rcases List.mem_cons.mp hx with rfl | hx
      · exact ⟨b, by simp, hb⟩
      · obtain ⟨y, hy, hxy⟩ := hl x hx
        exact ⟨y, by simp [hy], hxy⟩
    · rcases List.mem_cons.mp hy with rfl | hy
      · exact ⟨a, by simp, hb⟩
      · obtain ⟨x, hx, hxy⟩ := hk y hy
        exact ⟨x, by simp [hx], hxy⟩

/-- A loop that maps every element keeps what its body keeps. -/
lemma map_of_mapM {γ : Type*} {f : α → Except ε β} {l : List α} {k : List β} (g : β → γ)
    (g' : α → γ) (h : l.mapM f = .ok k) (hkeep : ∀ a b, f a = .ok b → g b = g' a) :
    k.map g = l.map g' := by
  induction l generalizing k with
  | nil =>
    simp only [List.mapM_nil, pure_eq_ok] at h
    simp [← h]
  | cons a l ih =>
    simp only [List.mapM_cons, bind_eq_ok, pure_eq_ok] at h
    obtain ⟨b, hb, rest, hrest, rfl⟩ := h
    rw [List.map_cons, List.map_cons, hkeep a b hb, ih hrest]

/-- The loop rule: if the body preserves `P`, indexed by the visited prefix, then `P` holds of
the whole list after a loop that ran to its end. -/
theorem foldlM_invariant {f : σ → α → Except ε σ} {P : List α → σ → Prop} :
    ∀ {l : List α} {s t : σ}, l.foldlM f s = .ok t → P [] s →
      (∀ done a rest s s', l = done ++ a :: rest → P done s → f s a = .ok s' →
        P (done ++ [a]) s') → P l t := by
  intro l
  induction l using List.reverseRecOn with
  | nil =>
    intro s t h h0 _
    simp only [List.foldlM_nil, pure_eq_ok] at h
    exact h ▸ h0
  | append_singleton l a ih =>
    intro s t h h0 hstep
    simp only [List.foldlM_append, List.foldlM_cons, List.foldlM_nil, bind_eq_ok,
      pure_eq_ok] at h
    obtain ⟨u, hu, v, hv, rfl⟩ := h
    refine hstep l a [] u v rfl (ih hu h0 ?_) hv
    intro done b rest s s' e
    exact hstep done b (rest ++ [a]) s s' (by rw [e]; simp)

/-- The collecting loop rule: if the body appends `g a` and establishes `Q a` in round `a`, the
loop appends the concatenation of all rounds and establishes `Q` everywhere. -/
lemma foldlM_collect {f : List β → α → Except ε (List β)} {g : α → List β} {Q : α → Prop}
    {l : List α} {acc r : List β} (h : l.foldlM f acc = .ok r)
    (hf : ∀ acc a r, a ∈ l → f acc a = .ok r → r = acc ++ g a ∧ Q a) :
    r = acc ++ l.flatMap g ∧ ∀ a ∈ l, Q a := by
  refine foldlM_invariant (P := fun done r => r = acc ++ done.flatMap g ∧ ∀ a ∈ done, Q a) h
    (by simp) ?_
  intro done a rest s s' heq hs hstep
  obtain ⟨hs', hQ⟩ := hf s a s' (by rw [heq]; simp) hstep
  refine ⟨by rw [hs', hs.1]; simp, fun b hb => ?_⟩
  rcases List.mem_append.mp hb with hb | hb
  · exact hs.2 b hb
  · rwa [List.mem_singleton.mp hb]

/-- The exact loop rule: if under the invariant `I` the body succeeds under `C` with the state of
`g`, the loop succeeds under `C` everywhere with the state of the pure loop. -/
theorem foldlM_eq_ok_iff {f : σ → α → Except ε σ} {g : σ → α → σ} {C : α → Prop} {I : σ → Prop}
    {l : List α} (hI : ∀ s a, I s → I (g s a))
    (hf : ∀ a ∈ l, ∀ s, I s → ∀ s', f s a = .ok s' ↔ C a ∧ s' = g s a) {s t : σ} (hs : I s) :
    l.foldlM f s = .ok t ↔ (∀ a ∈ l, C a) ∧ t = l.foldl g s := by
  induction l generalizing s with
  | nil =>
    simp only [List.foldlM_nil, pure_eq_ok, List.not_mem_nil, false_imp_iff, implies_true,
      true_and, List.foldl_nil]
    exact eq_comm
  | cons a l ih =>
    have ih' := ih (fun b hb => hf b (by simp [hb])) (hI s a hs)
    simp only [List.foldlM_cons, bind_eq_ok, hf a (by simp) s hs, List.forall_mem_cons,
      List.foldl_cons]
    refine ⟨fun h => ?_, fun h => ?_⟩
    · obtain ⟨_, ⟨hC, rfl⟩, hrest⟩ := h
      obtain ⟨hall, rfl⟩ := ih'.mp hrest
      exact ⟨⟨hC, hall⟩, rfl⟩
    · obtain ⟨⟨hC, hall⟩, rfl⟩ := h
      exact ⟨_, ⟨hC, rfl⟩, ih'.mpr ⟨hall, rfl⟩⟩

/-- The total loop rule: if under the invariant the body never throws and preserves the
invariant, then the loop runs to its end and the invariant holds there. -/
theorem foldlM_total {f : σ → α → Except ε σ} {P : List α → σ → Prop} :
    ∀ {l : List α} {s : σ}, P [] s →
      (∀ done a rest s, l = done ++ a :: rest → P done s →
        ∃ s', f s a = .ok s' ∧ P (done ++ [a]) s') → ∃ t, l.foldlM f s = .ok t ∧ P l t := by
  intro l
  induction l using List.reverseRecOn with
  | nil =>
    intro s h0 _
    exact ⟨s, rfl, h0⟩
  | append_singleton l a ih =>
    intro s h0 hstep
    obtain ⟨u, hu, hPu⟩ := ih h0 (fun done b rest s e =>
      hstep done b (rest ++ [a]) s (by rw [e]; simp))
    obtain ⟨v, hv, hPv⟩ := hstep l a [] u rfl hPu
    refine ⟨v, ?_, hPv⟩
    simp only [List.foldlM_append, List.foldlM_cons, List.foldlM_nil, bind_eq_ok, pure_eq_ok]
    exact ⟨u, hu, v, hv, rfl⟩

end Inversion

end Pops
