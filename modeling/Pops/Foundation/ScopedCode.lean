import Mathlib

/-!
# Code with local declarations and short circuits

A small imperative language for generated code.  An expression reads names, applies operators, has
the two short-circuit operators, and may be a block: local declarations followed by results.  A
declaration defines a name for the rest of its block, or assigns to a name that an outer block
declared.  A name that is not there and an operator that is not defined make the run fail.

What a piece of code computes is stated about all stores that satisfy a condition, which the code
keeps (`Realizes`); there is one rule for every construct.

## Main definitions

* `ScopedCode.Code`, `Body` — expressions and blocks.
* `ScopedCode.Code.run`, `Body.run` — their runs.
* `ScopedCode.Realizes` — an expression computes a value, or fails, and keeps a condition.

## Main results

* `ScopedCode.realizes_op`, `realizes_guard`, `realizes_block`, `realizesBody_define`,
  `realizesBody_assign` — the rules.
-/

namespace ScopedCode

mutual

/-- An expression over names, leaves and operators. -/
inductive Code (N L O : Type)
  | leaf (l : L)
  | read (name : N)
  | op (o : O) (args : List (Code N L O))
  -- `left && right` when conjunctive, otherwise `left || right`
  | guard (conjunctive : Bool) (left right : Code N L O)
  | block (body : Body N L O)

/-- A block: declarations and assignments to outer names, and results. -/
inductive Body (N L O : Type)
  | results (codes : List (Code N L O))
  | define (outer : Bool) (name : N) (code : Code N L O) (rest : Body N L O)

end

/-- What leaves, operators and truth values mean. -/
structure Meaning (L O V : Type) where
  leaf : L → V
  op : O → List V → Option V
  truth : V → Bool
  ofBool : Bool → V

variable {N L O V : Type}

/-- The value of a short-circuit operator, where the value of the right operand is used only when
the left one does not decide. -/
def Meaning.guard (M : Meaning L O V) (conjunctive : Bool) (left : V) (right : Option V) :
    Option V :=
  if M.truth left = conjunctive then right.map fun y => M.ofBool (M.truth y)
  else some (M.ofBool !conjunctive)

section Run

variable [DecidableEq N] (M : Meaning L O V)

mutual

/-- The value of an expression and the store after its run. -/
def Code.run : Code N L O → (N → Option V) → Option (V × (N → Option V))
  | .leaf l, σ => some (M.leaf l, σ)
  | .read name, σ => (σ name).map fun v => (v, σ)
  | .op o args, σ => do
    let (values, σ) ← runs args σ
    let v ← M.op o values
    some (v, σ)
  | .guard conjunctive left right, σ => do
    let (x, σ) ← left.run σ
    if M.truth x = conjunctive then do
      let (y, σ) ← right.run σ
      some (M.ofBool (M.truth y), σ)
    else some (M.ofBool !conjunctive, σ)
  | .block body, σ => do
    let (values, σ) ← body.run σ
    match values with
    | [v] => some (v, σ)
    | _ => none

/-- The values of expressions, one after the other. -/
def runs : List (Code N L O) → (N → Option V) → Option (List V × (N → Option V))
  | [], σ => some ([], σ)
  | c :: rest, σ => do
    let (v, σ) ← c.run σ
    let (values, σ) ← runs rest σ
    some (v :: values, σ)

/-- The results of a block.  A name that the block defines has its old value again behind it. -/
def Body.run : Body N L O → (N → Option V) → Option (List V × (N → Option V))
  | .results codes, σ => runs codes σ
  | .define outer name code rest, σ => do
    let (x, σ) ← code.run σ
    if outer then
      if (σ name).isSome then rest.run (Function.update σ name (some x)) else none
    else do
      let (values, after) ← rest.run (Function.update σ name (some x))
      some (values, Function.update after name (σ name))

end

end Run

/-! ## Rules -/

section Rules

variable [DecidableEq N] (M : Meaning L O V) (Good : (N → Option V) → Prop)

/-- From every good store the expression computes the value, or fails when there is none, and leaves
a good store. -/
def Realizes (c : Code N L O) (value : Option V) : Prop :=
  ∀ σ, Good σ → (c.run M σ).map Prod.fst = value ∧ ∀ v τ, c.run M σ = some (v, τ) → Good τ

/-- From every good store the expressions compute the values. -/
def RealizesAll (cs : List (Code N L O)) (values : Option (List V)) : Prop :=
  ∀ σ, Good σ → (runs M cs σ).map Prod.fst = values ∧ ∀ vs τ, runs M cs σ = some (vs, τ) → Good τ

/-- From every good store the block computes the values. -/
def RealizesBody (b : Body N L O) (values : Option (List V)) : Prop :=
  ∀ σ, Good σ → (b.run M σ).map Prod.fst = values ∧ ∀ vs τ, b.run M σ = some (vs, τ) → Good τ

variable {M Good}

/-- A leaf has its value. -/
lemma realizes_leaf (l : L) : Realizes M Good (.leaf l : Code N L O) (some (M.leaf l)) := by
  intro σ hσ
  refine ⟨rfl, fun v τ h => ?_⟩
  simp only [Code.run, Option.some.injEq, Prod.mk.injEq] at h
  exact h.2 ▸ hσ

/-- A name that good stores agree on has its value. -/
lemma realizes_read {name : N} {value : Option V} (h : ∀ σ, Good σ → σ name = value) :
    Realizes M Good (.read name : Code N L O) value := by
  intro σ hσ
  refine ⟨?_, fun v τ hrun => ?_⟩
  · rw [Code.run, h σ hσ, Option.map_map]
    exact congrFun Option.map_id value
  · simp only [Code.run, Option.map_eq_some_iff, Prod.mk.injEq] at hrun
    obtain ⟨_, -, -, rfl⟩ := hrun
    exact hσ

/-- No expressions compute no values. -/
lemma realizesAll_nil : RealizesAll M Good ([] : List (Code N L O)) (some []) := by
  intro σ hσ
  refine ⟨rfl, fun vs τ h => ?_⟩
  simp only [runs, Option.some.injEq, Prod.mk.injEq] at h
  exact h.2 ▸ hσ

/-- Expressions compute their values one after the other. -/
lemma realizesAll_cons {c : Code N L O} {cs : List (Code N L O)} {value : Option V}
    {values : Option (List V)} (hc : Realizes M Good c value) (hcs : RealizesAll M Good cs values) :
    RealizesAll M Good (c :: cs) (value.bind fun v => values.map fun vs => v :: vs) := by
  intro σ hσ
  obtain ⟨hvalue, hgood⟩ := hc σ hσ
  cases hrun : c.run M σ with
  | none =>
    rw [hrun] at hvalue
    simp [runs, hrun, ← hvalue]
  | some r =>
    obtain ⟨v, τ⟩ := r
    obtain ⟨hvalues, hkeep⟩ := hcs τ (hgood v τ hrun)
    rw [hrun] at hvalue
    refine ⟨?_, fun vs υ h => ?_⟩
    · rw [← hvalue, ← hvalues]
      cases hrest : runs M cs τ <;> simp [runs, hrun, hrest]
    · simp only [runs, hrun, Option.bind_eq_bind, Option.bind_some, Option.bind_eq_some_iff,
        Option.some.injEq, Prod.mk.injEq, Prod.exists] at h
      obtain ⟨ws, ω, hrest, -, rfl⟩ := h
      exact hkeep ws ω hrest

/-- An operator on the values of its operands. -/
theorem realizes_op {o : O} {args : List (Code N L O)} {values : Option (List V)}
    (h : RealizesAll M Good args values) : Realizes M Good (.op o args) (values.bind (M.op o)) := by
  intro σ hσ
  obtain ⟨hvalues, hgood⟩ := h σ hσ
  cases hrun : runs M args σ with
  | none =>
    rw [hrun] at hvalues
    simp [Code.run, hrun, ← hvalues]
  | some r =>
    obtain ⟨vs, τ⟩ := r
    rw [hrun] at hvalues
    refine ⟨?_, fun v υ hv => ?_⟩
    · rw [← hvalues]
      cases hop : M.op o vs <;> simp [Code.run, hrun, hop]
    · simp only [Code.run, hrun, Option.bind_eq_bind, Option.bind_some, Option.bind_eq_some_iff,
        Option.some.injEq, Prod.mk.injEq] at hv
      obtain ⟨_, -, -, rfl⟩ := hv
      exact hgood vs τ hrun

/-- A short circuit: the right operand runs only when the left one does not decide. -/
theorem realizes_guard {conjunctive : Bool} {left right : Code N L O} {x y : Option V}
    (hleft : Realizes M Good left x) (hright : Realizes M Good right y) :
    Realizes M Good (.guard conjunctive left right) (x.bind fun v => M.guard conjunctive v y) := by
  intro σ hσ
  obtain ⟨hx, hgood⟩ := hleft σ hσ
  cases hrun : left.run M σ with
  | none =>
    rw [hrun] at hx
    simp [Code.run, hrun, ← hx]
  | some r =>
    obtain ⟨v, τ⟩ := r
    rw [hrun] at hx
    obtain ⟨hy, hkeep⟩ := hright τ (hgood v τ hrun)
    by_cases hdecided : M.truth v = conjunctive
    · refine ⟨?_, fun w υ hw => ?_⟩
      · rw [← hx, ← hy]
        cases hrest : right.run M τ <;> simp [Code.run, hrun, hrest, hdecided, Meaning.guard]
      · simp only [Code.run, hrun, Option.bind_eq_bind, Option.bind_some, hdecided, if_true,
          Option.bind_eq_some_iff, Option.some.injEq, Prod.mk.injEq, Prod.exists] at hw
        obtain ⟨z, ω, hrest, -, rfl⟩ := hw
        exact hkeep z ω hrest
    · refine ⟨?_, fun w υ hw => ?_⟩
      · rw [← hx]
        simp [Code.run, hrun, hdecided, Meaning.guard]
      · simp only [Code.run, hrun, Option.bind_eq_bind, Option.bind_some, hdecided, if_false,
          Option.some.injEq, Prod.mk.injEq] at hw
        exact hw.2 ▸ hgood v τ hrun

/-- A block with one result. -/
theorem realizes_block {body : Body N L O} {value : Option V}
    (h : RealizesBody M Good body (value.map fun v => [v])) :
    Realizes M Good (.block body) value := by
  intro σ hσ
  obtain ⟨hvalues, hgood⟩ := h σ hσ
  cases hrun : body.run M σ with
  | none =>
    rw [hrun] at hvalues
    cases value with
    | none => simp [Code.run, hrun]
    | some v => cases hvalues
  | some r =>
    obtain ⟨vs, τ⟩ := r
    rw [hrun] at hvalues
    cases value with
    | none => cases hvalues
    | some v =>
      obtain rfl : vs = [v] := Option.some.inj hvalues
      refine ⟨by simp [Code.run, hrun], fun w υ hw => ?_⟩
      simp only [Code.run, hrun, Option.bind_eq_bind, Option.bind_some, Option.some.injEq,
        Prod.mk.injEq] at hw
      exact hw.2 ▸ hgood [v] τ hrun

/-- A declaration that fails. -/
lemma realizesBody_fail {outer : Bool} {name : N} {code : Code N L O} {rest : Body N L O}
    (h : Realizes M Good code none) : RealizesBody M Good (.define outer name code rest) none := by
  intro σ hσ
  have hrun : code.run M σ = none := Option.map_eq_none_iff.mp (h σ hσ).1
  exact ⟨by simp [Body.run, hrun], fun vs τ hvs => by simp [Body.run, hrun] at hvs⟩

/-- A declaration of a name for the rest of the block: the rest runs in stores with the name, and
behind it the name has its old value. -/
theorem realizesBody_define {Inner : (N → Option V) → Prop} {name : N} {code : Code N L O}
    {rest : Body N L O} {x : V} {values : Option (List V)} (hcode : Realizes M Good code (some x))
    (henter : ∀ σ, Good σ → Inner (Function.update σ name (some x)))
    (hrest : RealizesBody M Inner rest values)
    (hleave : ∀ σ τ, Good σ → Inner τ → Good (Function.update τ name (σ name))) :
    RealizesBody M Good (.define false name code rest) values := by
  intro σ hσ
  obtain ⟨hx, hgood⟩ := hcode σ hσ
  obtain ⟨⟨v, τ⟩, hrun, rfl⟩ := Option.map_eq_some_iff.mp hx
  have hτ := hgood v τ hrun
  obtain ⟨hvalues, hinner⟩ := hrest _ (henter τ hτ)
  refine ⟨?_, fun vs υ h => ?_⟩
  · rw [← hvalues]
    cases hbody : rest.run M (Function.update τ name (some v)) <;> simp [Body.run, hrun, hbody]
  · simp only [Body.run, hrun, Option.bind_eq_bind, Option.bind_some, Bool.false_eq_true, if_false,
      Option.bind_eq_some_iff, Option.some.injEq, Prod.mk.injEq, Prod.exists] at h
    obtain ⟨ws, ω, hbody, -, rfl⟩ := h
    exact hleave τ ω hτ (hinner ws ω hbody)

/-- An assignment to an outer name, which good stores have. -/
theorem realizesBody_assign {Inner : (N → Option V) → Prop} {name : N} {code : Code N L O}
    {rest : Body N L O} {x : V} {values : Option (List V)} (hcode : Realizes M Good code (some x))
    (hname : ∀ σ, Good σ → (σ name).isSome)
    (henter : ∀ σ, Good σ → Inner (Function.update σ name (some x)))
    (hrest : RealizesBody M Inner rest values) (hleave : ∀ τ, Inner τ → Good τ) :
    RealizesBody M Good (.define true name code rest) values := by
  intro σ hσ
  obtain ⟨hx, hgood⟩ := hcode σ hσ
  obtain ⟨⟨v, τ⟩, hrun, rfl⟩ := Option.map_eq_some_iff.mp hx
  have hτ := hgood v τ hrun
  obtain ⟨hvalues, hinner⟩ := hrest _ (henter τ hτ)
  refine ⟨?_, fun vs υ h => ?_⟩
  · rw [← hvalues]
    simp [Body.run, hrun, hname τ hτ]
  · simp only [Body.run, hrun, Option.bind_eq_bind, Option.bind_some, if_true, hname τ hτ] at h
    exact hleave υ (hinner vs υ h)

end Rules

end ScopedCode
