import Pops.Ir.Lowering

/-!
# Which constants a derivative folds

The simplifying constructors look at an expression only as far as a literal, a negation or neither.
A walk over an expression that keeps no more than this of the derivatives of its parts, its outline,
meets the same constants in the same order as the symbolic derivative: it raises where that raises
and folds what that folds.

## Main definitions

* `Pops.Ir.Outline`, `Expr.outline` — what the constructors see of an expression.
* `Pops.Ir.Outline.add` and its siblings — the constructors on outlines.
* `Pops.Ir.Definitions.walk` — the walk.
* `Pops.Ir.Definitions.Folds` — the quotients of constants that are folded before the first raise.

## Main results

* `Pops.Ir.Definitions.outline_go` — the outline of the derivative is that of the walk.
-/

namespace Pops

namespace Ir

open Scalar

/-! ## Outlines -/

/-- What the simplifying constructors see of an expression: a literal, a negation of what they see
of its operand, or neither. -/
inductive Outline
  | literal (l : Literal)
  | neg (a : Outline)
  | other
  deriving DecidableEq, Repr

/-- The outline of an expression. -/
def Expr.outline : Expr → Outline
  | .const l => .literal l
  | .neg a => .neg a.outline
  | _ => .other

namespace Outline

/-- A numeric constant of the given value. -/
def isConst : Outline → ℚ → Bool
  | .literal l, value => decide (l.number.value = value)
  | _, _ => false

/-- A numeric constant of the given value without annotations. -/
def isUnannotated : Outline → ℚ → Bool
  | .literal l, value => decide (l.number.value = value) && l.unit.isNone && l.target.isNone
  | _, _ => false

/-- The outline of an integer constant. -/
def ofInt (v : ℤ) : Outline := .literal (.ofInt v)

/-- Two constants are folded as in an expression. -/
def fold (a b : Literal) (operation : Number → Number → Raises (Option Number))
    (kind : Operation) : Raises Outline := do
  return (← foldConstants a b operation kind).outline

/-- The sum. -/
def add [Interpreter] : Outline → Outline → Raises Outline
  | .literal l, .literal l' => fold l l' exactAddNumbers .add
  | a, b =>
    if a.isUnannotated 0 then .ok b else if b.isUnannotated 0 then .ok a else .ok .other

/-- The negation. -/
def negate (a : Outline) : Outline :=
  if a.isUnannotated 0 then ofInt 0
  else match a with
    | .literal l => .literal { l with number := negateNumber l.number }
    | .neg inner => inner
    | .other => .neg .other

/-- The difference. -/
def sub [Interpreter] : Outline → Outline → Raises Outline
  | .literal l, .literal l' => fold l l' exactSubtractNumbers .sub
  | a, b =>
    if b.isUnannotated 0 then .ok a else if a.isUnannotated 0 then .ok b.negate else .ok .other

/-- The product. -/
def mul [Interpreter] : Outline → Outline → Raises Outline
  | .literal l, .literal l' => fold l l' exactMultiplyNumbers .mul
  | a, b =>
    if a.isUnannotated 0 || b.isUnannotated 0 then .ok (ofInt 0)
    else if a.isUnannotated 1 then .ok b
    else if b.isUnannotated 1 then .ok a
    else .ok .other

/-- The quotient. -/
def div [Interpreter] : Outline → Outline → Raises Outline
  | .literal l, .literal l' => fold l l' exactDivide .div
  | a, b =>
    if a.isUnannotated 0 then .ok (ofInt 0)
    else if b.isUnannotated 1 then .ok a
    else .ok .other

/-- The power with an exponent that does not fold. -/
def powNode (a b : Outline) : Outline :=
  if b.isUnannotated 0 then ofInt 1 else if b.isUnannotated 1 then a else .other

/-- The power; two constants are treated as in an expression. -/
def pow [Interpreter] : Outline → Outline → Raises Outline
  | .literal l, .literal l' => do return (← sPow (.const l) (.const l')).outline
  | a, b => .ok (powNode a b)

/-! ## The constructors on outlines -/

/-- An expression whose outline is a literal is that constant. -/
lemma eq_const_of_outline {a : Expr} {l : Literal} (h : a.outline = .literal l) :
    a = .const l := by
  cases a with
  | const l' => rw [Outline.literal.inj h]
  | _ => cases h

/-- The outlines of expressions that are not both constants are not both literals. -/
lemma not_literals {a b : Expr} (h : ∀ l l', a = .const l → b = .const l' → False) :
    ∀ l l', a.outline = .literal l → b.outline = .literal l' → False :=
  fun l l' ha hb => h l l' (eq_const_of_outline ha) (eq_const_of_outline hb)

end Outline

/-- The outline of a value that is returned. -/
def outlined (r : Raises Expr) : Raises Outline := do return (← r).outline

/-- A returned expression is outlined. -/
@[simp] lemma outlined_ok (r : Expr) : outlined (.ok r) = .ok r.outline := rfl

/-- A raised exception stays. -/
@[simp] lemma outlined_error (e : PyError) : outlined (.error e) = .error e := rfl

/-- An expression is an unannotated constant just when its outline is one. -/
@[simp] lemma isUnannotated_outline (a : Expr) (value : ℚ) :
    a.outline.isUnannotated value = isUnannotatedConst a value := by
  cases a <;> rfl

/-- An expression is a constant of a value just when its outline is one. -/
@[simp] lemma isConst_outline (a : Expr) (value : ℚ) :
    a.outline.isConst value = isConst a value := by
  cases a <;> rfl

/-- The outline of a node of operands that are not both constants. -/
lemma outlined_binNode {op : Operation} {a b : Expr}
    (h : ∀ l l', a = .const l → b = .const l' → False) :
    outlined (binNode op a b) = .ok .other := by
  unfold binNode
  split
  · exact (h _ _ rfl rfl).elim
  · rfl

/-- The outline of a sum. -/
lemma outline_sAdd [Interpreter] (a b : Expr) :
    outlined (sAdd a b) = Outline.add a.outline b.outline := by
  unfold sAdd
  split
  · rfl
  · next hne =>
    rw [Outline.add.eq_2 _ _ (Outline.not_literals hne)]
    simp only [isUnannotated_outline]
    split_ifs
    · rfl
    · rfl
    · exact outlined_binNode hne

/-- The outline of a negation. -/
lemma outline_sNeg (a : Expr) : (sNeg a).outline = a.outline.negate := by
  unfold sNeg Outline.negate
  rw [isUnannotated_outline]
  split_ifs
  · rfl
  · cases a <;> rfl

/-- The outline of a difference. -/
lemma outline_sSub [Interpreter] (a b : Expr) :
    outlined (sSub a b) = Outline.sub a.outline b.outline := by
  unfold sSub
  split
  · rfl
  · next hne =>
    rw [Outline.sub.eq_2 _ _ (Outline.not_literals hne)]
    simp only [isUnannotated_outline]
    split_ifs
    · rfl
    · rw [outlined_ok, outline_sNeg]
    · exact outlined_binNode hne

/-- The outline of a product. -/
lemma outline_sMul [Interpreter] (a b : Expr) :
    outlined (sMul a b) = Outline.mul a.outline b.outline := by
  unfold sMul
  split
  · rfl
  · next hne =>
    rw [Outline.mul.eq_2 _ _ (Outline.not_literals hne)]
    simp only [isUnannotated_outline]
    split_ifs
    · rfl
    · rfl
    · rfl
    · exact outlined_binNode hne

/-- The outline of a quotient. -/
lemma outline_sDiv [Interpreter] (a b : Expr) :
    outlined (sDiv a b) = Outline.div a.outline b.outline := by
  unfold sDiv
  split
  · rfl
  · next hne =>
    rw [Outline.div.eq_2 _ _ (Outline.not_literals hne)]
    simp only [isUnannotated_outline]
    split_ifs
    · rfl
    · rfl
    · exact outlined_binNode hne

/-- The outline of a power that does not fold. -/
lemma outline_powNode {a b : Expr} (h : ∀ l l', a = .const l → b = .const l' → False) :
    outlined (powNode a b) = .ok (Outline.powNode a.outline b.outline) := by
  unfold powNode Outline.powNode
  simp only [isUnannotated_outline]
  split_ifs
  · rfl
  · rfl
  · exact outlined_binNode h

/-- The outline of a power. -/
lemma outline_sPow [Interpreter] (a b : Expr) :
    outlined (sPow a b) = Outline.pow a.outline b.outline := by
  by_cases hconst : ∃ l l', a = .const l ∧ b = .const l'
  · obtain ⟨l, l', rfl, rfl⟩ := hconst
    rfl
  · have hne : ∀ l l', a = .const l → b = .const l' → False :=
      fun l l' ha hb => hconst ⟨l, l', ha, hb⟩
    rw [sPow.eq_2 _ _ hne, Outline.pow.eq_2 _ _ (Outline.not_literals hne)]
    exact outline_powNode hne

/-! ## The walk -/

/-- What the quotient rule divides: the outlines of its numerator and of its denominator. -/
def quotientParts [Interpreter] (left right : Raises Outline) (a b : Outline) :
    Raises (Outline × Outline) := do
  let first ← Outline.mul (← left) b
  let second ← Outline.mul a (← right)
  let numerator ← Outline.sub first second
  let denominator ← Outline.mul b b
  return (numerator, denominator)

/-- What the power rule multiplies with the derivative of the base, once the derivative of the
exponent is a zero. -/
def powerFactor [Interpreter] (target : String) (right : Raises Outline) (a b : Outline) :
    Raises Outline := do
  raiseIf ((← right).isConst 0 = false) (notImplementedError
    ("dsl.diff: derivative of a**b with exponent depending on '" ++ target ++ "' (needs a " ++
      "logarithm, a node absent from the DSL)"))
  let power ← Outline.pow a (← Outline.sub b (.ofInt 1))
  Outline.mul b power

namespace Definitions

variable (T : Definitions) (x : String)

/-- The walk over an expression in the order of the symbolic derivative, which keeps the outlines
of the derivatives only. -/
def walk [Interpreter] : Expr → Raises Outline
  | .const _ => .ok (.ofInt 0)
  | .param _ => .ok (.ofInt 0)
  | .var name _ =>
    if name = x then .ok (.ofInt 1)
    else match _h : T.lookup name with
      | some e => walk e
      | none => .ok (.ofInt 0)
  | .bin .add a b => do Outline.add (← walk a) (← walk b)
  | .bin .sub a b => do Outline.sub (← walk a) (← walk b)
  | .bin .mul a b => do
    let left ← Outline.mul (← walk a) b.outline
    let right ← Outline.mul a.outline (← walk b)
    Outline.add left right
  | .bin .div a b => do
    let parts ← quotientParts (walk a) (walk b) a.outline b.outline
    Outline.div parts.1 parts.2
  | .neg a => do return (← walk a).negate
  | .sqrt a => do Outline.div (← walk a) (← Outline.mul (.ofInt 2) .other)
  | .abs a => do
    let ratio ← Outline.div a.outline .other
    Outline.mul ratio (← walk a)
  | .sign _ => .ok (.ofInt 0)
  | .bin .pow a b => do
    let factor ← powerFactor x (walk b) a.outline b.outline
    Outline.mul factor (← walk a)
termination_by e => (T.level e, sizeOf e)
decreasing_by
  · exact below_of_lookup _h
  · exact below_left .add a b
  · exact below_right .add a b
  · exact below_left .sub a b
  · exact below_right .sub a b
  · exact below_left .mul a b
  · exact below_right .mul a b
  · exact below_left .div a b
  · exact below_right .div a b
  · exact below_of_names (List.Subset.refl _) (by simp)
  · exact below_of_names (List.Subset.refl _) (by simp)
  · exact below_of_names (List.Subset.refl _) (by simp)
  · exact below_right .pow a b
  · exact below_left .pow a b

/-- The symbolic derivative of an expression folds the quotient of two constants before it raises.
The parts of an expression come in the order in which they are differentiated, and a part is reached
when what comes before it does not raise. -/
inductive Folds [Interpreter] : Expr → Literal → Literal → Prop
  | definition {name kind : String} {e : Expr} {n m : Literal} (hname : name ≠ x)
    (h : T.lookup name = some e) (hfolds : Folds e n m) : Folds (.var name kind) n m
  | neg {a : Expr} {n m : Literal} (hfolds : Folds a n m) : Folds (.neg a) n m
  | sqrt {a : Expr} {n m : Literal} (hfolds : Folds a n m) : Folds (.sqrt a) n m
  | abs {a : Expr} {n m : Literal} (hfolds : Folds a n m) : Folds (.abs a) n m
  | left {op : Operation} {a b : Expr} {n m : Literal} (hop : op ≠ .pow)
    (hfolds : Folds a n m) : Folds (.bin op a b) n m
  | sumRight {op : Operation} {a b : Expr} {n m : Literal} {left : Outline}
    (hop : op = .add ∨ op = .sub) (hleft : T.walk x a = .ok left) (hfolds : Folds b n m) :
    Folds (.bin op a b) n m
  | productRight {op : Operation} {a b : Expr} {n m : Literal} {left first : Outline}
    (hop : op = .mul ∨ op = .div) (hleft : T.walk x a = .ok left)
    (hfirst : Outline.mul left b.outline = .ok first) (hfolds : Folds b n m) :
    Folds (.bin op a b) n m
  | quotient {a b : Expr} {n m : Literal}
    (h : quotientParts (T.walk x a) (T.walk x b) a.outline b.outline =
      .ok (.literal n, .literal m)) : Folds (.bin .div a b) n m
  | exponent {a b : Expr} {n m : Literal} (hfolds : Folds b n m) : Folds (.bin .pow a b) n m
  | base {a b : Expr} {n m : Literal} {factor : Outline}
    (h : powerFactor x (T.walk x b) a.outline b.outline = .ok factor) (hfolds : Folds a n m) :
    Folds (.bin .pow a b) n m

/-! ## The outline of the derivative -/

variable {T x}

/-- A sequence of statements, outlined. -/
lemma outlined_bind {r : Raises Expr} {f : Expr → Raises Expr} {g : Outline → Raises Outline}
    (h : ∀ a, outlined (f a) = g a.outline) : outlined (r >>= f) = outlined r >>= g := by
  cases r with
  | error e => rfl
  | ok a => exact h a

/-- A defined variable is walked through its definition. -/
lemma walk_definition [Interpreter] {name kind : String} {e : Expr} (hname : name ≠ x)
    (h : T.lookup name = some e) : T.walk x (.var name kind) = T.walk x e := by
  rw [walk, if_neg hname]
  split
  · rename_i e' he'
    rw [Option.some.inj (h.symm.trans he')]
  · rename_i hnone
    simp [h] at hnone

/-- A variable without a definition is independent of the others. -/
lemma walk_free [Interpreter] {name kind : String} (hname : name ≠ x)
    (h : T.lookup name = none) : T.walk x (.var name kind) = .ok (.ofInt 0) := by
  rw [walk, if_neg hname]
  split
  · rename_i e' he'
    simp [h] at he'
  · rfl

/-- A defined variable is differentiated through its definition. -/
lemma go_definition [Interpreter] {name kind : String} {e : Expr} (hname : name ≠ x)
    (h : T.lookup name = some e) : T.go x (.var name kind) = T.go x e := by
  rw [go, if_neg hname]
  split
  · rename_i e' he'
    rw [Option.some.inj (h.symm.trans he')]
  · rename_i hnone
    simp [h] at hnone

/-- A variable without a definition is independent of the others. -/
lemma go_free [Interpreter] {name kind : String} (hname : name ≠ x)
    (h : T.lookup name = none) : T.go x (.var name kind) = .ok (.ofInt 0) := by
  rw [go, if_neg hname]
  split
  · rename_i e' he'
    simp [h] at he'
  · rfl

/-- **The outline of the derivative.**  The walk raises where the derivative raises, with the same
exception, and else returns the outline of the derivative. -/
theorem outline_go [Interpreter] (e : Expr) : outlined (T.go x e) = T.walk x e := by
  induction e using T.induction with
  | const l =>
    rw [go, walk]
    rfl
  | var name kind ih =>
    by_cases hname : name = x
    · rw [go, walk, if_pos hname, if_pos hname]
      rfl
    · cases hdef : T.lookup name with
      | some e => rw [go_definition hname hdef, walk_definition hname hdef, ih e hdef]
      | none =>
        rw [go_free hname hdef, walk_free hname hdef]
        rfl
  | param name =>
    rw [go, walk]
    rfl
  | neg a iha =>
    rw [go, walk, ← iha]
    exact outlined_bind fun ga => by rw [← outline_sNeg]; rfl
  | sqrt a iha =>
    rw [go, walk, ← iha]
    refine outlined_bind fun ga => ?_
    rw [show Outline.mul (.ofInt 2) .other = Outline.mul (Expr.ofInt 2).outline
      (Expr.sqrt a).outline from rfl, ← outline_sMul]
    exact outlined_bind fun den => outline_sDiv ga den
  | abs a iha =>
    rw [go, walk, ← iha]
    rw [show Outline.div a.outline .other = Outline.div a.outline (Expr.abs a).outline from rfl,
      ← outline_sDiv]
    refine outlined_bind fun ratio => ?_
    exact outlined_bind fun ga => outline_sMul ratio ga
  | sign a _ =>
    rw [go, walk]
    rfl
  | bin op a b iha ihb =>
    cases op with
    | add =>
      rw [go, walk, ← iha, ← ihb]
      refine outlined_bind fun ga => ?_
      exact outlined_bind fun gb => outline_sAdd ga gb
    | sub =>
      rw [go, walk, ← iha, ← ihb]
      refine outlined_bind fun ga => ?_
      exact outlined_bind fun gb => outline_sSub ga gb
    | mul =>
      rw [go, walk, ← iha, ← ihb]
      refine outlined_bind fun ga => ?_
      rw [← outline_sMul]
      refine outlined_bind fun left => outlined_bind fun gb => ?_
      rw [← outline_sMul]
      exact outlined_bind fun right => outline_sAdd left right
    | div =>
      rw [go, walk, ← iha, ← ihb]
      simp only [quotientParts, bind_assoc, pure_bind]
      refine outlined_bind fun ga => ?_
      rw [← outline_sMul]
      refine outlined_bind fun left => outlined_bind fun gb => ?_
      rw [← outline_sMul]
      refine outlined_bind fun right => ?_
      rw [← outline_sSub]
      refine outlined_bind fun num => ?_
      rw [← outline_sMul]
      exact outlined_bind fun den => outline_sDiv num den
    | pow =>
      rw [go, walk, ← iha, ← ihb]
      simp only [powerFactor, bind_assoc]
      refine outlined_bind fun gb => ?_
      rw [isConst_outline]
      by_cases hzero : isConst gb 0 = false
      · simp only [raiseIf, if_pos hzero]
        rfl
      · simp only [raiseIf, if_neg hzero, ok_bind]
        rw [show Outline.ofInt 1 = (Expr.ofInt 1).outline from rfl, ← outline_sSub]
        refine outlined_bind fun exponent => ?_
        rw [← outline_sPow]
        refine outlined_bind fun power => ?_
        rw [← outline_sMul]
        refine outlined_bind fun scaled => ?_
        exact outlined_bind fun ga => outline_sMul scaled ga

end Definitions

end Ir

end Pops
