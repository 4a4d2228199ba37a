import Pops.Ir.Lowering

/-!
# The value of a symbolic expression

An expression is read as a real function of its variables and parameters, which has no value where
a divisor is zero, where zero is taken to a negative power, and outside the domains of roots and of
powers.  Real division, roots and powers are total functions, so that the reading extends to all
points; the extension is what the rewrites are compared in, and it agrees with the value where there
is one.

Every simplifying constructor keeps the extended value, except for the quotient of two constants
one of which is a decimal: there the powers of two and five of the quotient's denominator are
interchanged.

## Main definitions

* `Pops.Ir.Expr.eval` — the value of an expression at a point, if there is one.
* `Pops.Ir.Expr.extend` — the value, extended to all points.
* `Pops.Ir.Interprets`, `Evaluates` — total and partial readings that follow constants, binary nodes
  and negations.
* `Pops.Ir.quotientDefect`, `exprDefect` — what a folded quotient differs by.
* `Pops.Ir.WrongQuotient` — a quotient of constants that folds to a wrong decimal.

## Main results

* `Pops.Ir.Expr.extend_of_eval` — the extension agrees with the value.
* `Pops.Ir.Interprets.sAdd` and its siblings — the constructors keep the value.
* `Pops.Ir.Interprets.sDiv` — a quotient differs by the defect of the folded one.
* `Pops.Ir.Evaluates.isSome_sAdd` and its siblings — where the constructors have a value.
-/

namespace Pops

namespace Ir

open Scalar

/-! ## Real semantics -/

open Classical in
/-- The real operation of a binary node, where it has a value: a divisor is not zero, zero is taken
to no negative power, and a negative number to integer powers only. -/
noncomputable def Operation.apply : Operation → ℝ → ℝ → Option ℝ
  | .add, a, b => some (a + b)
  | .sub, a, b => some (a - b)
  | .mul, a, b => some (a * b)
  | .div, a, b => if b = 0 then none else some (a / b)
  | .pow, a, b =>
    if (a = 0 ∧ b < 0) ∨ (a < 0 ∧ ¬ ∃ n : ℤ, b = n) then none else some (a ^ b)

open Classical in
/-- The value of an expression for given runtime parameters at a point, if there is one. -/
noncomputable def Expr.eval (params point : String → ℝ) : Expr → Option ℝ
  | .const l => some (l.number.value : ℝ)
  | .var name _ => some (point name)
  | .param name => some (params name)
  | .bin op a b =>
    (a.eval params point).bind fun v => (b.eval params point).bind fun w => op.apply v w
  | .neg a => (a.eval params point).map fun v => -v
  | .sqrt a => (a.eval params point).bind fun v => if v < 0 then none else some (Real.sqrt v)
  | .abs a => (a.eval params point).map fun v => |v|
  | .sign a => (a.eval params point).map Real.sign

/-- The real operation of a binary node, extended to all operands. -/
noncomputable def Operation.extend : Operation → ℝ → ℝ → ℝ
  | .add, a, b => a + b
  | .sub, a, b => a - b
  | .mul, a, b => a * b
  | .div, a, b => a / b
  | .pow, a, b => a ^ b

/-- The value of an expression, extended to all points. -/
noncomputable def Expr.extend (params point : String → ℝ) : Expr → ℝ
  | .const l => (l.number.value : ℝ)
  | .var name _ => point name
  | .param name => params name
  | .bin op a b => op.extend (a.extend params point) (b.extend params point)
  | .neg a => -a.extend params point
  | .sqrt a => Real.sqrt (a.extend params point)
  | .abs a => |a.extend params point|
  | .sign a => Real.sign (a.extend params point)

/-- The value of an operation is the extended one. -/
lemma Operation.extend_of_apply {op : Operation} {a b v : ℝ} (h : op.apply a b = some v) :
    op.extend a b = v := by
  cases op with
  | add => exact Option.some.inj h
  | sub => exact Option.some.inj h
  | mul => exact Option.some.inj h
  | div =>
    rw [Operation.apply] at h
    split_ifs at h
    exact Option.some.inj h
  | pow =>
    rw [Operation.apply] at h
    split_ifs at h
    exact Option.some.inj h

/-- Where an expression has a value, it is the extended one. -/
theorem Expr.extend_of_eval {params point : String → ℝ} {e : Expr} {v : ℝ}
    (h : e.eval params point = some v) : e.extend params point = v := by
  induction e generalizing v with
  | const l => exact Option.some.inj h
  | var name kind => exact Option.some.inj h
  | param name => exact Option.some.inj h
  | bin op a b iha ihb =>
    obtain ⟨va, hva, hb⟩ := Option.bind_eq_some_iff.mp h
    obtain ⟨vb, hvb, hop⟩ := Option.bind_eq_some_iff.mp hb
    rw [Expr.extend, iha hva, ihb hvb]
    exact Operation.extend_of_apply hop
  | neg a iha =>
    obtain ⟨va, hva, rfl⟩ := Option.map_eq_some_iff.mp h
    rw [Expr.extend, iha hva]
  | sqrt a iha =>
    obtain ⟨va, hva, hsqrt⟩ := Option.bind_eq_some_iff.mp h
    split_ifs at hsqrt
    rw [Expr.extend, iha hva]
    exact Option.some.inj hsqrt
  | abs a iha =>
    obtain ⟨va, hva, rfl⟩ := Option.map_eq_some_iff.mp h
    rw [Expr.extend, iha hva]
  | sign a iha =>
    obtain ⟨va, hva, rfl⟩ := Option.map_eq_some_iff.mp h
    rw [Expr.extend, iha hva]

/-! ## Numbers -/

/-- The sum of numbers is exact. -/
lemma value_exactAddNumbers [Interpreter] {left right n : Number}
    (h : exactAddNumbers left right = .ok (some n)) : n.value = left.value + right.value := by
  unfold exactAddNumbers at h
  split at h <;> simp only [Except.ok.injEq, Option.some.injEq, bind_eq_ok, pure_eq_ok] at h
  case h_5 =>
    obtain ⟨d, hd, rfl⟩ := h
    exact value_exactDecimalAdd hd
  all_goals
    subst h
    simp [Number.value]

/-- A converted number keeps its value. -/
lemma value_toDecimal {x : Number} {d : Decimal} (h : toDecimal x = .ok d) :
    d.value = x.value := by
  cases x with
  | int v =>
    obtain ⟨-, hsign, hcoefficient, hexponent⟩ := decimalOfTuple_eq_ok_iff.mp h
    rw [Decimal.value, hsign, hcoefficient, hexponent, zpow_zero, mul_one, Nat.cast_natAbs]
    show _ = (v : ℚ)
    rcases lt_or_ge v 0 with hneg | hneg
    · simp [hneg, abs_of_neg hneg]
    · simp [not_lt.mpr hneg, abs_of_nonneg hneg]
  | fraction v => simp [toDecimal] at h
  | decimal v =>
    simp only [toDecimal, Except.ok.injEq] at h
    simp [← h, Number.value]

/-- The difference of numbers is exact. -/
lemma value_exactSubtractNumbers [Interpreter] {left right n : Number}
    (h : exactSubtractNumbers left right = .ok (some n)) : n.value = left.value - right.value := by
  unfold exactSubtractNumbers at h
  split at h <;> simp only [Except.ok.injEq, Option.some.injEq, bind_eq_ok, pure_eq_ok] at h
  case h_5 =>
    obtain ⟨d, hd, d', hd', rfl⟩ := h
    show d'.value = _
    rw [value_exactDecimalAdd hd', sub_eq_add_neg, ← value_toDecimal hd]
    simp [Number.value]
  all_goals
    subst h
    simp [Number.value]

/-- The product of numbers is exact. -/
lemma value_exactMultiplyNumbers [Interpreter] {left right n : Number}
    (h : exactMultiplyNumbers left right = .ok (some n)) : n.value = left.value * right.value := by
  unfold exactMultiplyNumbers at h
  split at h <;> simp only [Except.ok.injEq, Option.some.injEq, bind_eq_ok, pure_eq_ok] at h
  case h_5 =>
    obtain ⟨d, hd, rfl⟩ := h
    exact value_exactDecimalMultiply hd
  all_goals
    subst h
    simp [Number.value]

/-- A fraction with the denominator zero is not made. -/
lemma zeroDenominator_ne_ok [Interpreter] {α : Type} {numerator : ℤ} {value : α} :
    zeroDenominator numerator ≠ .ok value := by
  intro h
  simp [zeroDenominator] at h

/-- A folded power is exact. -/
lemma value_exactPower [Interpreter] {left n : Number} {exponent : ℤ}
    (h : exactPower left exponent = .ok (some n)) : n.value = left.value ^ exponent := by
  cases left with
  | int v =>
    simp only [exactPower] at h
    split_ifs at h with hneg hzero
    · exact absurd h zeroDenominator_ne_ok
    · simp only [Except.ok.injEq, Option.some.injEq] at h
      subst h
      rfl
    · simp only [Except.ok.injEq, Option.some.injEq] at h
      subst h
      have hexp : (exponent.toNat : ℤ) = exponent := by omega
      conv_rhs => rw [← hexp, zpow_natCast]
      simp [Number.value]
  | fraction v =>
    simp only [exactPower] at h
    split_ifs at h with hzero
    · exact absurd h zeroDenominator_ne_ok
    · simp only [Except.ok.injEq, Option.some.injEq] at h
      subst h
      rfl
  | decimal v => simp [exactPower] at h

/-- The quotient of two constants folds to a wrong decimal: one of them is a decimal, the quotient
terminates, and its reduced denominator has unequal powers of two and five. -/
def WrongQuotient (left right : Number) : Prop :=
  (left.isDecimal || right.isDecimal) = true ∧
    remainingPart (left.value / right.value).den = 1 ∧ ¬ Balanced (left.value / right.value)

instance (left right : Number) : Decidable (WrongQuotient left right) := by
  unfold WrongQuotient
  infer_instance

/-- A quotient of numbers that are not decimals is a fraction. -/
lemma exactDivide_fraction [Interpreter] {left right : Number} {result : Option Number}
    (hdec : (left.isDecimal || right.isDecimal) = false)
    (h : exactDivide left right = .ok result) :
    result = some (.fraction (left.value / right.value)) := by
  unfold exactDivide at h
  rw [if_neg (by simp [hdec])] at h
  split_ifs at h with hzero
  · split at h
    · exact absurd h zeroDenominator_ne_ok
    · exact absurd h zeroDenominator_ne_ok
  · exact (Except.ok.inj h).symm

/-- A folded quotient is exact just when it is not a wrong one. -/
lemma value_exactDivide_iff [Interpreter] {left right n : Number}
    (h : exactDivide left right = .ok (some n)) :
    n.value = left.value / right.value ↔ ¬ WrongQuotient left right := by
  unfold WrongQuotient
  by_cases hdec : (left.isDecimal || right.isDecimal) = true
  · unfold exactDivide at h
    rw [if_pos hdec] at h
    simp only [bind_eq_ok, pure_eq_ok, Option.map_eq_some_iff] at h
    obtain ⟨q, hq, d, rfl, rfl⟩ := h
    show d.value = _ ↔ _
    rw [exactDecimalDivide_eq_iff hq]
    have hrest := (value_exactDecimalDivide hq).2.1
    simp [hdec, hrest]
  · have hn := Option.some.inj (exactDivide_fraction (Bool.not_eq_true _ ▸ hdec) h)
    simp [hdec, hn, Number.value]

/-- The difference of a folded quotient and the exact one; no quotient that is left as it stands
differs. -/
def quotientDefect [Interpreter] (left right : Number) : ℚ :=
  match exactDivide left right with
  | .ok (some n) => n.value - left.value / right.value
  | _ => 0

/-- A folded quotient differs by its defect. -/
lemma value_exactDivide [Interpreter] {left right n : Number}
    (h : exactDivide left right = .ok (some n)) :
    n.value = left.value / right.value + quotientDefect left right := by
  rw [quotientDefect, h]
  ring

/-- A quotient that is not a wrong one has no defect. -/
lemma quotientDefect_eq_zero [Interpreter] {left right : Number}
    (h : ¬ WrongQuotient left right) :
    quotientDefect left right = 0 := by
  unfold quotientDefect
  split
  · rename_i n hn
    rw [(value_exactDivide_iff hn).mpr h, sub_self]
  · rfl

/-- A binary node is the node of its operands. -/
lemma binNode_eq {op : Operation} {a b r : Expr} (h : binNode op a b = .ok r) :
    r = .bin op a b := by
  unfold binNode at h
  split at h
  · simp only [bind_eq_ok, pure_eq_ok] at h
    obtain ⟨-, -, rfl⟩ := h
    rfl
  · exact (Except.ok.inj h).symm

/-- Folding gives the constant of the operation's result, or the node. -/
lemma foldConstants_cases {a b : Literal} {operation : Number → Number → Raises (Option Number)}
    {kind : Operation} {r : Expr} (h : foldConstants a b operation kind = .ok r) :
    (operation a.number b.number = .ok none ∧ r = .bin kind (.const a) (.const b)) ∨
      ∃ n, operation a.number b.number = .ok (some n) ∧
        ∃ unit target, r = .const ⟨n, unit, target⟩ := by
  simp only [foldConstants, bind_eq_ok, Prod.exists] at h
  obtain ⟨-, -, unit, target, -, result, hresult, h⟩ := h
  cases result with
  | none => exact .inl ⟨hresult, binNode_eq h⟩
  | some n =>
    rw [pure_eq_ok] at h
    exact .inr ⟨n, hresult, unit, target, h.symm⟩

/-! ## The simplifying constructors keep the value -/

/-- A reading of expressions as numbers that follows constants, binary nodes and negations. -/
structure Interprets (E : Expr → ℝ) : Prop where
  const : ∀ l, E (.const l) = (l.number.value : ℝ)
  bin : ∀ op a b, E (.bin op a b) = op.extend (E a) (E b)
  neg : ∀ a, E (.neg a) = -E a

/-- An unannotated constant of a value has that value. -/
lemma Interprets.eq_of_isUnannotatedConst {E : Expr → ℝ} (hE : Interprets E) {a : Expr} {v : ℚ}
    (h : isUnannotatedConst a v = true) : E a = v := by
  cases a with
  | const l =>
    simp only [isUnannotatedConst, Bool.and_eq_true, decide_eq_true_eq] at h
    rw [hE.const, h.1.1]
  | _ => simp [isUnannotatedConst] at h

/-- The value of an integer constant. -/
lemma Interprets.ofInt {E : Expr → ℝ} (hE : Interprets E) (v : ℤ) : E (.ofInt v) = v := by
  rw [Expr.ofInt, hE.const]
  simp [Literal.ofInt, Number.value]

/-- Folding keeps the value when the operation does. -/
lemma Interprets.foldConstants {E : Expr → ℝ} (hE : Interprets E) {a b : Literal}
    {operation : Number → Number → Raises (Option Number)} {kind : Operation} {r : Expr}
    (hop : ∀ n, operation a.number b.number = .ok (some n) →
      (n.value : ℝ) = kind.extend a.number.value b.number.value)
    (h : Ir.foldConstants a b operation kind = .ok r) :
    E r = kind.extend (E (.const a)) (E (.const b)) := by
  obtain ⟨-, rfl⟩ | ⟨n, hn, unit, target, rfl⟩ := foldConstants_cases h
  · exact hE.bin _ _ _
  · rw [hE.const, hE.const, hE.const]
    exact hop n hn

/-- The sum keeps the value. -/
theorem Interprets.sAdd [Interpreter] {E : Expr → ℝ} (hE : Interprets E) {a b r : Expr}
    (h : Ir.sAdd a b = .ok r) : E r = E a + E b := by
  unfold Ir.sAdd at h
  split at h
  · apply hE.foldConstants _ h
    intro n hn
    rw [value_exactAddNumbers hn]
    exact Rat.cast_add _ _
  · split_ifs at h with ha hb
    · rw [hE.eq_of_isUnannotatedConst ha, ← Except.ok.inj h]
      simp
    · rw [hE.eq_of_isUnannotatedConst hb, ← Except.ok.inj h]
      simp
    · rw [binNode_eq h]
      exact hE.bin _ _ _

/-- The negated number has the negated value. -/
lemma value_negateNumber (n : Number) : (negateNumber n).value = -n.value := by
  cases n <;> simp [negateNumber, Number.value]

/-- The negation keeps the value. -/
theorem Interprets.sNeg {E : Expr → ℝ} (hE : Interprets E) (a : Expr) :
    E (Ir.sNeg a) = -E a := by
  unfold Ir.sNeg
  split_ifs with ha
  · rw [hE.eq_of_isUnannotatedConst ha, hE.ofInt]
    simp
  · cases a with
    | const l =>
      show E (.const _) = _
      rw [hE.const, hE.const, value_negateNumber]
      exact Rat.cast_neg _
    | neg inner =>
      show E inner = _
      rw [hE.neg, neg_neg]
    | _ => exact hE.neg _

/-- The difference keeps the value. -/
theorem Interprets.sSub [Interpreter] {E : Expr → ℝ} (hE : Interprets E) {a b r : Expr}
    (h : Ir.sSub a b = .ok r) : E r = E a - E b := by
  unfold Ir.sSub at h
  split at h
  · apply hE.foldConstants _ h
    intro n hn
    rw [value_exactSubtractNumbers hn]
    exact Rat.cast_sub _ _
  · split_ifs at h with hb ha
    · rw [hE.eq_of_isUnannotatedConst hb, ← Except.ok.inj h]
      simp
    · rw [hE.eq_of_isUnannotatedConst ha, ← Except.ok.inj h, hE.sNeg]
      simp
    · rw [binNode_eq h]
      exact hE.bin _ _ _

/-- The product keeps the value. -/
theorem Interprets.sMul [Interpreter] {E : Expr → ℝ} (hE : Interprets E) {a b r : Expr}
    (h : Ir.sMul a b = .ok r) : E r = E a * E b := by
  unfold Ir.sMul at h
  split at h
  · apply hE.foldConstants _ h
    intro n hn
    rw [value_exactMultiplyNumbers hn]
    exact Rat.cast_mul _ _
  · split_ifs at h with hzero ha hb
    · rw [← Except.ok.inj h, hE.ofInt]
      rcases Bool.or_eq_true _ _ ▸ hzero with ha | hb
      · simp [hE.eq_of_isUnannotatedConst ha]
      · simp [hE.eq_of_isUnannotatedConst hb]
    · rw [hE.eq_of_isUnannotatedConst ha, ← Except.ok.inj h]
      simp
    · rw [hE.eq_of_isUnannotatedConst hb, ← Except.ok.inj h]
      simp
    · rw [binNode_eq h]
      exact hE.bin _ _ _

/-- The defect of a quotient of expressions: that of two constants, else there is none. -/
def exprDefect [Interpreter] : Expr → Expr → ℚ
  | .const l, .const l' => quotientDefect l.number l'.number
  | _, _ => 0

/-- The quotient keeps the value, up to the defect of a folded one. -/
theorem Interprets.sDiv [Interpreter] {E : Expr → ℝ} (hE : Interprets E) {a b r : Expr}
    (h : Ir.sDiv a b = .ok r) : E r = E a / E b + (exprDefect a b : ℝ) := by
  unfold Ir.sDiv at h
  split at h
  next l l' =>
    show _ = _ + ((quotientDefect l.number l'.number : ℚ) : ℝ)
    obtain ⟨hnone, rfl⟩ | ⟨n, hn, unit, target, rfl⟩ := foldConstants_cases h
    · rw [hE.bin, quotientDefect, hnone, Rat.cast_zero, add_zero]
      rfl
    · rw [hE.const, hE.const, hE.const, value_exactDivide hn]
      push_cast
      rfl
  next hne =>
    have hdefect : exprDefect a b = 0 := by
      unfold exprDefect
      split
      · exact absurd rfl (hne _ _ rfl)
      · rfl
    rw [hdefect, Rat.cast_zero, add_zero]
    split_ifs at h with ha hb
    · rw [hE.eq_of_isUnannotatedConst ha, ← Except.ok.inj h, hE.ofInt]
      simp
    · rw [hE.eq_of_isUnannotatedConst hb, ← Except.ok.inj h]
      simp
    · rw [binNode_eq h]
      exact hE.bin _ _ _

/-- A power that does not fold keeps the value. -/
lemma Interprets.powNode {E : Expr → ℝ} (hE : Interprets E) {a b r : Expr}
    (h : Ir.powNode a b = .ok r) : E r = E a ^ E b := by
  unfold Ir.powNode at h
  split_ifs at h with hzero hone
  · rw [hE.eq_of_isUnannotatedConst hzero, ← Except.ok.inj h, hE.ofInt]
    simp
  · rw [hE.eq_of_isUnannotatedConst hone, ← Except.ok.inj h]
    simp
  · rw [binNode_eq h]
    exact hE.bin _ _ _

/-- The power keeps the value. -/
theorem Interprets.sPow [Interpreter] {E : Expr → ℝ} (hE : Interprets E) {a b r : Expr}
    (h : Ir.sPow a b = .ok r) : E r = E a ^ E b := by
  unfold Ir.sPow at h
  split at h
  next l l' =>
    split at h
    next exponent hexp =>
      apply hE.foldConstants _ h
      intro n hn
      rw [value_exactPower hn, hexp]
      show ((l.number.value ^ exponent : ℚ) : ℝ) =
        ((l.number.value : ℚ) : ℝ) ^ (((Number.int exponent).value : ℚ) : ℝ)
      simp only [Number.value, Rat.cast_intCast, Real.rpow_intCast]
      exact Rat.cast_zpow _ _
    next =>
      simp only [bind_eq_ok] at h
      obtain ⟨-, -, h⟩ := h
      exact hE.powNode h
  next => exact hE.powNode h

/-! ## Where the constructors have a value -/

/-- A partial reading of expressions that follows constants, binary nodes and negations. -/
structure Evaluates (E : Expr → Option ℝ) : Prop where
  const : ∀ l, E (.const l) = some (l.number.value : ℝ)
  bin : ∀ op a b, E (.bin op a b) = (E a).bind fun v => (E b).bind fun w => op.apply v w
  neg : ∀ a, E (.neg a) = (E a).map fun v => -v

namespace Evaluates

variable {E : Expr → Option ℝ}

/-- A constant has a value. -/
lemma isSome_const (hE : Evaluates E) (l : Literal) : (E (.const l)).isSome := by
  rw [hE.const]
  rfl

/-- A sum, a difference or a product has a value when its operands have. -/
lemma isSome_bin (hE : Evaluates E) {op : Operation} (hop : op = .add ∨ op = .sub ∨ op = .mul)
    {a b : Expr} (ha : (E a).isSome) (hb : (E b).isSome) : (E (.bin op a b)).isSome := by
  obtain ⟨v, hv⟩ := Option.isSome_iff_exists.mp ha
  obtain ⟨w, hw⟩ := Option.isSome_iff_exists.mp hb
  rw [hE.bin, hv, hw]
  rcases hop with rfl | rfl | rfl <;> rfl

/-- Folding leaves the node, or gives a constant. -/
lemma isSome_foldConstants [Interpreter] (hE : Evaluates E) {a b : Literal}
    {operation : Number → Number → Raises (Option Number)} {kind : Operation} {r : Expr}
    (h : foldConstants a b operation kind = .ok r)
    (hnode : (E (.bin kind (.const a) (.const b))).isSome) : (E r).isSome := by
  obtain ⟨-, rfl⟩ | ⟨n, -, unit, target, rfl⟩ := foldConstants_cases h
  · exact hnode
  · exact hE.isSome_const _

/-- The negation has a value. -/
lemma isSome_sNeg (hE : Evaluates E) {a : Expr} (ha : (E a).isSome) : (E (sNeg a)).isSome := by
  have hneg : (E (.neg a)).isSome := by
    rw [hE.neg, Option.isSome_map]
    exact ha
  unfold sNeg
  split_ifs with hzero
  · exact hE.isSome_const _
  · cases a with
    | const l => exact hE.isSome_const _
    | neg inner =>
      rw [hE.neg, Option.isSome_map] at ha
      exact ha
    | _ => exact hneg

/-- The sum has a value. -/
theorem isSome_sAdd [Interpreter] (hE : Evaluates E) {a b r : Expr} (h : sAdd a b = .ok r)
    (ha : (E a).isSome) (hb : (E b).isSome) : (E r).isSome := by
  have hnode : (E (.bin .add a b)).isSome := hE.isSome_bin (by simp) ha hb
  unfold sAdd at h
  split at h
  · exact hE.isSome_foldConstants h hnode
  · split_ifs at h
    · rwa [← Except.ok.inj h]
    · rwa [← Except.ok.inj h]
    · rwa [binNode_eq h]

/-- The difference has a value. -/
lemma isSome_sSub [Interpreter] (hE : Evaluates E) {a b r : Expr} (h : sSub a b = .ok r)
    (ha : (E a).isSome) (hb : (E b).isSome) : (E r).isSome := by
  have hnode : (E (.bin .sub a b)).isSome := hE.isSome_bin (by simp) ha hb
  unfold sSub at h
  split at h
  · exact hE.isSome_foldConstants h hnode
  · split_ifs at h
    · rwa [← Except.ok.inj h]
    · rw [← Except.ok.inj h]
      exact hE.isSome_sNeg hb
    · rwa [binNode_eq h]

/-- The product has a value. -/
lemma isSome_sMul [Interpreter] (hE : Evaluates E) {a b r : Expr} (h : sMul a b = .ok r)
    (ha : (E a).isSome) (hb : (E b).isSome) : (E r).isSome := by
  have hnode : (E (.bin .mul a b)).isSome := hE.isSome_bin (by simp) ha hb
  unfold sMul at h
  split at h
  · exact hE.isSome_foldConstants h hnode
  · split_ifs at h
    · rw [← Except.ok.inj h]
      exact hE.isSome_const _
    · rwa [← Except.ok.inj h]
    · rwa [← Except.ok.inj h]
    · rwa [binNode_eq h]

/-- The quotient has a value where its node has one. -/
lemma isSome_sDiv [Interpreter] (hE : Evaluates E) {a b r : Expr} (h : sDiv a b = .ok r)
    (ha : (E a).isSome) (hnode : (E (.bin .div a b)).isSome) : (E r).isSome := by
  unfold sDiv at h
  split at h
  · exact hE.isSome_foldConstants h hnode
  · split_ifs at h
    · rw [← Except.ok.inj h]
      exact hE.isSome_const _
    · rwa [← Except.ok.inj h]
    · rwa [binNode_eq h]

/-- A power that does not fold has a value where its node has one. -/
lemma isSome_powNode (hE : Evaluates E) {a b r : Expr} (h : powNode a b = .ok r)
    (ha : (E a).isSome) (hnode : (E (.bin .pow a b)).isSome) : (E r).isSome := by
  unfold powNode at h
  split_ifs at h
  · rw [← Except.ok.inj h]
    exact hE.isSome_const _
  · rwa [← Except.ok.inj h]
  · rwa [binNode_eq h]

/-- The power has a value where its node has one. -/
lemma isSome_sPow [Interpreter] (hE : Evaluates E) {a b r : Expr} (h : sPow a b = .ok r)
    (ha : (E a).isSome) (hnode : (E (.bin .pow a b)).isSome) : (E r).isSome := by
  unfold sPow at h
  split at h
  · split at h
    · exact hE.isSome_foldConstants h hnode
    · simp only [bind_eq_ok] at h
      obtain ⟨-, -, h⟩ := h
      exact hE.isSome_powNode h ha hnode
  · exact hE.isSome_powNode h ha hnode

end Evaluates

end Ir

end Pops
