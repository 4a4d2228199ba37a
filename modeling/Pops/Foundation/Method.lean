import Pops.Foundation.Exception

/-!
# Methods of an object

A method of a C++ object reads and writes the members of the object and may throw.  When it throws,
the object keeps whatever the method had written by then: a method is a function from the members to
an outcome *and* the members it leaves.

## Main definitions

* `Pops.Method` — a method that may throw, with its monad.
* `Pops.Method.Atomic` — a method that throws leaves the object as it was.
* `Pops.Method.ReadOnly`, `Total` — a method that never writes, or never throws.

## Main results

* `Pops.Method.Atomic.bind` — a method that only reads until its last throw is atomic.
* `Pops.Method.bind_eq_ok`, `require_eq_ok` — inversion of a call that returned.
-/

universe u

namespace Pops

/-- A method of an object with members `σ`. -/
def Method (σ α : Type u) : Type u := σ → Except Exception α × σ

namespace Method

variable {σ α β : Type u}

/-- The statement that returns a value. -/
protected def pure (a : α) : Method σ α := fun s => (.ok a, s)

/-- Two statements in sequence. -/
protected def bind (m : Method σ α) (f : α → Method σ β) : Method σ β := fun s =>
  match m s with
  | (.ok a, t) => f a t
  | (.error e, t) => (.error e, t)

instance : Monad (Method σ) where
  pure := Method.pure
  bind := Method.bind

/-- Compute a value from the members. -/
def read (g : σ → α) : Method σ α := fun s => (.ok (g s), s)

/-- Write the members. -/
def update (f : σ → σ) : Method σ PUnit := fun s => (.ok ⟨⟩, f s)

/-- The guard statement `if (c) throw e;` on the members. -/
def require (c : σ → Prop) [DecidablePred c] (e : Exception) : Method σ PUnit := fun s =>
  if c s then (.error e, s) else (.ok ⟨⟩, s)

/-- A call of code that does not see the members. -/
def call (x : Throws α) : Method σ α := fun s => (x, s)

/-- A call of a `const` method, which may throw. -/
def inspect (g : σ → Throws α) : Method σ α := fun s => (g s, s)

/-- `try { m } catch (...) { undo; throw; }`: restore the state if the method throws, and throw on.
-/
def undoing (m : Method σ α) (undo : σ → σ) : Method σ α := fun s =>
  match m s with
  | (.ok a, t) => (.ok a, t)
  | (.error e, t) => (.error e, undo t)

/-- The object that a call leaves, for an object that is dropped when the call throws. -/
def run (m : Method σ α) (s : σ) : Throws σ := (m s).1.map fun _ => (m s).2

/-! ## Inversion -/

/-- A sequence returns exactly when both statements do. -/
@[simp] theorem bind_eq_ok {m : Method σ α} {f : α → Method σ β} {s t : σ} {b : β} :
    (m >>= f) s = (.ok b, t) ↔ ∃ a u, m s = (.ok a, u) ∧ f a u = (.ok b, t) := by
  show Method.bind m f s = _ ↔ _
  unfold Method.bind
  rcases h : m s with ⟨_ | a, u⟩ <;> simp

/-- Returning leaves the members. -/
@[simp] lemma pure_eq_ok {s t : σ} {a b : α} :
    (pure a : Method σ α) s = (.ok b, t) ↔ a = b ∧ s = t := by
  show ((.ok a, s) : Except Exception α × σ) = _ ↔ _
  simp

/-- Reading the members. -/
@[simp] lemma read_eq_ok {g : σ → α} {s t : σ} {a : α} :
    read g s = (.ok a, t) ↔ g s = a ∧ s = t := by
  simp [read]

/-- Writing the members. -/
@[simp] lemma update_eq_ok {f : σ → σ} {s t : σ} {x : PUnit} :
    update f s = (.ok x, t) ↔ f s = t := by
  simp [update]

/-- A guard passes exactly when its condition is false. -/
@[simp] theorem require_eq_ok {c : σ → Prop} [DecidablePred c] {e : Exception} {s t : σ}
    {x : PUnit} : require c e s = (.ok x, t) ↔ ¬ c s ∧ s = t := by
  unfold require
  split_ifs with h <;> simp [h]

/-- A call returns exactly when the called code does. -/
@[simp] lemma call_eq_ok {x : Throws α} {s t : σ} {a : α} :
    (call x : Method σ α) s = (.ok a, t) ↔ x = .ok a ∧ s = t := by
  simp [call]

/-- A `const` method returns its value and leaves the members. -/
@[simp] lemma inspect_eq_ok {g : σ → Throws α} {s t : σ} {a : α} :
    inspect g s = (.ok a, t) ↔ g s = .ok a ∧ s = t := by
  simp [inspect]

/-- A statement under a handler that rethrows returns exactly when the statement does. -/
@[simp] lemma undoing_eq_ok {m : Method σ α} {undo : σ → σ} {s t : σ} {a : α} :
    undoing m undo s = (.ok a, t) ↔ m s = (.ok a, t) := by
  unfold undoing
  rcases h : m s with ⟨_ | b, u⟩ <;> simp

/-- The object that a call leaves. -/
lemma run_eq_ok {m : Method σ α} {s t : σ} :
    run m s = .ok t ↔ ∃ a, m s = (.ok a, t) := by
  unfold run
  rcases h : m s with ⟨_ | b, u⟩ <;> simp [Except.map]

/-! ## Atomic methods -/

/-- The method never writes. -/
def ReadOnly (m : Method σ α) : Prop := ∀ s, (m s).2 = s

/-- The method never throws. -/
def Total (m : Method σ α) : Prop := ∀ s, Returns (m s).1

/-- A call that throws leaves the members as they were. -/
def Atomic (m : Method σ α) : Prop := ∀ s e, (m s).1 = .error e → (m s).2 = s

/-- Reading changes nothing. -/
lemma readOnly_read (g : σ → α) : ReadOnly (read g) := fun _ => rfl

/-- A check changes nothing. -/
lemma readOnly_require (c : σ → Prop) [DecidablePred c] (e : Exception) :
    ReadOnly (require c e) := by
  intro s
  unfold require
  split_ifs <;> rfl

/-- A call outside of the object changes nothing in it. -/
lemma readOnly_call (x : Throws α) : ReadOnly (call x : Method σ α) := fun _ => rfl

/-- A call that reads the object changes nothing in it. -/
lemma readOnly_inspect (g : σ → Throws α) : ReadOnly (inspect g) := fun _ => rfl

/-- An update does not throw. -/
lemma total_update (f : σ → σ) : Total (update f) := fun _ => ⟨⟨⟩, rfl⟩

/-- Reading does not throw. -/
lemma total_read (g : σ → α) : Total (read g) := fun s => ⟨g s, rfl⟩

/-- Returning does not throw. -/
lemma total_pure (a : α) : Total (pure a : Method σ α) := fun _ => ⟨a, rfl⟩

/-- A sequence of statements that never throw. -/
theorem Total.bind {m : Method σ α} {f : α → Method σ β} (hm : Total m) (hf : ∀ a, Total (f a)) :
    Total (m >>= f) := by
  intro s
  obtain ⟨a, ha⟩ := hm s
  obtain ⟨b, hb⟩ := hf a (m s).2
  refine ⟨b, ?_⟩
  show (Method.bind m f s).1 = _
  rw [← hb]
  unfold Method.bind
  rcases h : m s with ⟨x, t⟩
  rw [h] at ha
  simp only at ha
  subst ha
  rfl

/-- A method that never throws is atomic. -/
lemma Total.atomic {m : Method σ α} (hm : Total m) : Atomic m := by
  intro s e h
  obtain ⟨a, ha⟩ := hm s
  simp [ha] at h

/-- **A method that only reads before its last throw is atomic.** -/
theorem Atomic.bind {m : Method σ α} {f : α → Method σ β} (hm : ReadOnly m)
    (hf : ∀ a, Atomic (f a)) : Atomic (m >>= f) := by
  intro s e h
  have hs := hm s
  change (Method.bind m f s).1 = _ at h
  show (Method.bind m f s).2 = s
  unfold Method.bind at h ⊢
  rcases hcase : m s with ⟨x, t⟩
  rw [hcase] at h hs
  simp only at hs
  subst hs
  cases x with
  | error e' => rfl
  | ok a => exact hf a t e h

/-- An atomic method followed by statements that never throw is atomic. -/
lemma Atomic.bind_total {m : Method σ α} {f : α → Method σ β} (hm : Atomic m)
    (hf : ∀ a, Total (f a)) : Atomic (m >>= f) := by
  intro s e h
  change (Method.bind m f s).1 = _ at h
  show (Method.bind m f s).2 = s
  unfold Method.bind at h ⊢
  rcases hcase : m s with ⟨x, t⟩
  rw [hcase] at h
  cases x with
  | error e' =>
    have hs := hm s e' (by rw [hcase])
    rwa [hcase] at hs
  | ok a =>
    obtain ⟨b, hb⟩ := hf a t
    rw [hb] at h
    cases h

/-- **A handler that undoes the write in front of it** makes the sequence atomic. -/
theorem Atomic.bind_undoing {m : Method σ α} {n : α → Method σ β} {undo : σ → σ} (hm : Atomic m)
    (hn : ∀ a, Atomic (n a)) (hundo : ∀ s a t, m s = (.ok a, t) → undo t = s) :
    Atomic (m >>= fun a => (n a).undoing undo) := by
  intro s e h
  change (Method.bind m (fun a => (n a).undoing undo) s).1 = _ at h
  show (Method.bind m (fun a => (n a).undoing undo) s).2 = s
  unfold Method.bind undoing at h ⊢
  rcases hcase : m s with ⟨x, t⟩
  rw [hcase] at h
  cases x with
  | error e' => simpa [hcase] using hm s e' (by rw [hcase])
  | ok a =>
    rcases hthen : n a t with ⟨y, u⟩
    simp only [hthen] at h ⊢
    cases y with
    | ok b => cases h
    | error e' =>
      have hu : u = t := by simpa [hthen] using hn a t e' (by rw [hthen])
      rw [hu]
      exact hundo s a t hcase

end Method

end Pops
