import Pops.Ir.ExprValue
import Pops.Ir.Outline

/-!
# The symbolic derivative is the derivative

At a regular point, where the expression is smooth, the returned expression differs from the
derivative by a defect: a sum over the quotients of constants that fold to a wrong decimal, each
carried through the chain rule to the root of the expression.  An expression whose derivative folds
no such quotient before it raises has no defect.

## Main definitions

* `Pops.Ir.Expr.Regular` — denominators and the arguments of roots, absolute values and signs are
  away from zero.
* `Pops.Ir.Expr.ExponentsFixed` — exponents do not depend on the variable.
* `Pops.Ir.Expr.NoZeroToZero` — no power takes zero to the exponent zero.
* `Pops.Ir.Definitions.defect` — the defects of the folded quotients, carried to the root.
* `Pops.Ir.Definitions.Clear` — no wrong quotient is folded.

## Main results

* `Pops.Ir.Definitions.hasDerivAt_go` — the derivative, up to the defect.
* `Pops.Ir.Definitions.defect_eq_zero` — without wrong quotients there is no defect.
* `Pops.Ir.Definitions.isSome_go` — where the returned expression has a value.
* `Pops.Ir.Definitions.diff_hasDerivAt` — the three together.
-/

namespace Pops

namespace Ir

open Scalar

/-! ## Regular points -/

/-- An expression is smooth at a point: divisors are not zero, and neither are the bases of powers
with a negative integer exponent; the arguments of absolute values and signs are not zero; the
arguments of roots, and the bases of powers with an exponent that is not an integer, are positive.
-/
def Expr.Regular (params point : String → ℝ) : Expr → Prop
  | .const _ => True
  | .var _ _ => True
  | .param _ => True
  | .bin .div a b => a.Regular params point ∧ b.Regular params point ∧
      b.eval params point ≠ some 0
  | .bin .pow a b => a.Regular params point ∧ b.Regular params point ∧
      ∀ v ∈ a.eval params point, ∀ w ∈ b.eval params point,
        (∃ n : ℤ, w = n ∧ (0 ≤ n ∨ v ≠ 0)) ∨ 0 < v
  | .bin _ a b => a.Regular params point ∧ b.Regular params point
  | .neg a => a.Regular params point
  | .sqrt a => a.Regular params point ∧ ∀ v ∈ a.eval params point, 0 < v
  | .abs a => a.Regular params point ∧ a.eval params point ≠ some 0
  | .sign a => a.Regular params point ∧ a.eval params point ≠ some 0

/-- The exponents of powers do not depend on the variable `x`. -/
def Expr.ExponentsFixed (params point : String → ℝ) (x : String) : Expr → Prop
  | .const _ => True
  | .var _ _ => True
  | .param _ => True
  | .bin op a b => a.ExponentsFixed params point x ∧ b.ExponentsFixed params point x ∧
      (op = .pow → ∀ s s', b.eval params (Function.update point x s) =
        b.eval params (Function.update point x s'))
  | .neg a => a.ExponentsFixed params point x
  | .sqrt a => a.ExponentsFixed params point x
  | .abs a => a.ExponentsFixed params point x
  | .sign a => a.ExponentsFixed params point x

/-- No power takes zero to the exponent zero; the derivative writes such a power as a reciprocal. -/
def Expr.NoZeroToZero (params point : String → ℝ) : Expr → Prop
  | .const _ => True
  | .var _ _ => True
  | .param _ => True
  | .bin op a b => a.NoZeroToZero params point ∧ b.NoZeroToZero params point ∧
      (op = .pow → ¬ (a.eval params point = some 0 ∧ b.eval params point = some 0))
  | .neg a => a.NoZeroToZero params point
  | .sqrt a => a.NoZeroToZero params point
  | .abs a => a.NoZeroToZero params point
  | .sign a => a.NoZeroToZero params point

/-- The power of a number with an exponent that is regular for it has a value. -/
lemma apply_pow {v w : ℝ} (h : (∃ n : ℤ, w = n ∧ (0 ≤ n ∨ v ≠ 0)) ∨ 0 < v) :
    Operation.pow.apply v w = some (v ^ w) := by
  rw [Operation.apply, if_neg]
  rintro (⟨rfl, hneg⟩ | ⟨hneg, hint⟩)
  · rcases h with ⟨n, rfl, hn | hne⟩ | hpos
    · exact absurd (Int.cast_nonneg hn) (not_le.mpr hneg)
    · exact hne rfl
    · exact lt_irrefl _ hpos
  · rcases h with ⟨n, rfl, -⟩ | hpos
    · exact hint ⟨n, rfl⟩
    · exact lt_asymm hneg hpos

/-- **At a regular point an expression has a value.** -/
theorem Expr.Regular.eval_eq {params point : String → ℝ} {e : Expr}
    (h : e.Regular params point) : e.eval params point = some (e.extend params point) := by
  induction e with
  | const l => rfl
  | var name kind => rfl
  | param name => rfl
  | neg a iha => rw [Expr.eval, iha h, Expr.extend, Option.map_some]
  | sqrt a iha =>
    have ha := iha h.1
    have hpos := h.2 _ ha
    rw [Expr.eval, ha, Option.bind_some, if_neg hpos.le.not_gt, Expr.extend]
  | abs a iha => rw [Expr.eval, iha h.1, Expr.extend, Option.map_some]
  | sign a iha => rw [Expr.eval, iha h.1, Expr.extend, Option.map_some]
  | bin op a b iha ihb =>
    cases op with
    | add => rw [Expr.eval, iha h.1, ihb h.2]; rfl
    | sub => rw [Expr.eval, iha h.1, ihb h.2]; rfl
    | mul => rw [Expr.eval, iha h.1, ihb h.2]; rfl
    | div =>
      have hb := ihb h.2.1
      have hne : b.extend params point ≠ 0 := fun hzero => h.2.2 (by rw [hb, hzero])
      rw [Expr.eval, iha h.1, hb, Option.bind_some, Option.bind_some, Operation.apply, if_neg hne]
      rfl
    | pow =>
      have ha := iha h.1
      have hb := ihb h.2.1
      rw [Expr.eval, ha, hb, Option.bind_some, Option.bind_some, apply_pow (h.2.2 _ ha _ hb)]
      rfl

/-- An extended value is not zero where the value is not. -/
lemma Expr.Regular.extend_ne {params point : String → ℝ} {e : Expr}
    (h : e.Regular params point) (hne : e.eval params point ≠ some 0) :
    e.extend params point ≠ 0 := by
  intro hzero
  rw [h.eval_eq, hzero] at hne
  exact hne rfl

/-- An exponent keeps its extended value along the variable. -/
lemma Expr.Regular.extend_exponent {params point : String → ℝ} {x : String} {t : ℝ} {b : Expr}
    (h : b.Regular params (Function.update point x t))
    (hfixed : ∀ s s', b.eval params (Function.update point x s) =
      b.eval params (Function.update point x s')) (s : ℝ) :
    b.extend params (Function.update point x s) = b.extend params (Function.update point x t) :=
  Expr.extend_of_eval ((hfixed s t).trans h.eval_eq)

/-- The sign of a function that is continuous and not zero at a point is constant nearby. -/
private lemma eventually_sign_eq {f : ℝ → ℝ} {t : ℝ} (hf : ContinuousAt f t) (h : f t ≠ 0) :
    (fun s => Real.sign (f s)) =ᶠ[nhds t] fun _ => Real.sign (f t) := by
  rcases lt_or_gt_of_ne h with hneg | hpos
  · filter_upwards [hf.eventually_lt continuousAt_const hneg] with s hs
    rw [Real.sign_of_neg hs, Real.sign_of_neg hneg]
  · filter_upwards [continuousAt_const.eventually_lt hf hpos] with s hs
    rw [Real.sign_of_pos hs, Real.sign_of_pos hpos]

/-- The extended value is continuous in the variable at a regular point. -/
lemma Expr.continuousAt_of_regular {params point : String → ℝ} {x : String} {t : ℝ} {e : Expr}
    (hfixed : e.ExponentsFixed params point x)
    (h : e.Regular params (Function.update point x t)) :
    ContinuousAt (fun s => e.extend params (Function.update point x s)) t := by
  induction e with
  | const l => exact continuousAt_const
  | var name kind =>
    by_cases hname : name = x
    · subst hname
      simp only [Expr.extend, Function.update_self]
      exact continuousAt_id
    · simp only [Expr.extend, Function.update_of_ne hname]
      exact continuousAt_const
  | param name => exact continuousAt_const
  | neg a iha => exact (iha hfixed h).neg
  | sqrt a iha => exact (iha hfixed h.1).sqrt
  | abs a iha => exact (iha hfixed h.1).abs
  | sign a iha =>
    exact continuousAt_const.congr
      (eventually_sign_eq (iha hfixed h.1) (h.1.extend_ne h.2)).symm
  | bin op a b iha ihb =>
    cases op with
    | add => exact (iha hfixed.1 h.1).add (ihb hfixed.2.1 h.2)
    | sub => exact (iha hfixed.1 h.1).sub (ihb hfixed.2.1 h.2)
    | mul => exact (iha hfixed.1 h.1).mul (ihb hfixed.2.1 h.2)
    | div => exact (iha hfixed.1 h.1).div (ihb hfixed.2.1 h.2.1) (h.2.1.extend_ne h.2.2)
    | pow =>
      obtain ⟨ha, hb, hpow⟩ := h
      have hconst : (fun s => (Expr.bin .pow a b).extend params (Function.update point x s)) =
          fun s => a.extend params (Function.update point x s) ^
            b.extend params (Function.update point x t) := by
        funext s
        show _ ^ b.extend params (Function.update point x s) = _
        rw [hb.extend_exponent (hfixed.2.2 rfl) s]
      rw [hconst]
      apply (iha hfixed.1 ha).rpow_const
      rcases hpow _ ha.eval_eq _ hb.eval_eq with ⟨n, hn, hn' | hne⟩ | hpos
      · right
        rw [hn]
        exact_mod_cast hn'
      · exact .inl hne
      · exact .inl hpos.ne'

/-- A value that is not zero at a point is not zero nearby. -/
private lemma eventually_eval_ne {params point : String → ℝ} {x : String} {t : ℝ} {e : Expr}
    (hcont : ContinuousAt (fun s => e.extend params (Function.update point x s)) t)
    (hne : e.extend params (Function.update point x t) ≠ 0) :
    ∀ᶠ s in nhds t, e.eval params (Function.update point x s) ≠ some 0 := by
  filter_upwards [hcont.eventually_ne hne] with s hs hzero
  exact hs (Expr.extend_of_eval hzero)

/-- **The points near a regular point are regular.** -/
theorem Expr.eventually_regular {params point : String → ℝ} {x : String} {t : ℝ} {e : Expr}
    (hfixed : e.ExponentsFixed params point x)
    (h : e.Regular params (Function.update point x t)) :
    ∀ᶠ s in nhds t, e.Regular params (Function.update point x s) := by
  induction e with
  | const l => exact .of_forall fun _ => trivial
  | var name kind => exact .of_forall fun _ => trivial
  | param name => exact .of_forall fun _ => trivial
  | neg a iha => exact iha hfixed h
  | sqrt a iha =>
    have hcont := Expr.continuousAt_of_regular (e := a) hfixed h.1
    filter_upwards [iha hfixed h.1, continuousAt_const.eventually_lt hcont (h.2 _ h.1.eval_eq)]
      with s hs hpos
    refine ⟨hs, fun v hv => ?_⟩
    rwa [← Expr.extend_of_eval hv]
  | abs a iha =>
    have hcont := Expr.continuousAt_of_regular (e := a) hfixed h.1
    filter_upwards [iha hfixed h.1, eventually_eval_ne hcont (h.1.extend_ne h.2)] with s hs hne
    exact ⟨hs, hne⟩
  | sign a iha =>
    have hcont := Expr.continuousAt_of_regular (e := a) hfixed h.1
    filter_upwards [iha hfixed h.1, eventually_eval_ne hcont (h.1.extend_ne h.2)] with s hs hne
    exact ⟨hs, hne⟩
  | bin op a b iha ihb =>
    cases op with
    | add => exact (iha hfixed.1 h.1).and (ihb hfixed.2.1 h.2)
    | sub => exact (iha hfixed.1 h.1).and (ihb hfixed.2.1 h.2)
    | mul => exact (iha hfixed.1 h.1).and (ihb hfixed.2.1 h.2)
    | div =>
      have hcont := Expr.continuousAt_of_regular hfixed.2.1 h.2.1
      filter_upwards [iha hfixed.1 h.1, ihb hfixed.2.1 h.2.1,
        eventually_eval_ne hcont (h.2.1.extend_ne h.2.2)] with s hsa hsb hne
      exact ⟨hsa, hsb, hne⟩
    | pow =>
      have ha := h.1.eval_eq
      have hb := h.2.1.eval_eq
      have hcont := Expr.continuousAt_of_regular hfixed.1 h.1
      -- the exponent stays what it is, and the base keeps its side of zero
      have hbase : ∀ᶠ s in nhds t, ∀ v, a.eval params (Function.update point x s) = some v →
          (∃ n : ℤ, b.extend params (Function.update point x t) = n ∧ (0 ≤ n ∨ v ≠ 0)) ∨
            0 < v := by
        rcases h.2.2 _ ha _ hb with ⟨n, hn, hn' | hne⟩ | hpos
        · exact .of_forall fun s v _ => .inl ⟨n, hn, .inl hn'⟩
        · filter_upwards [hcont.eventually_ne hne] with s hs v hv
          exact .inl ⟨n, hn, .inr (Expr.extend_of_eval hv ▸ hs)⟩
        · filter_upwards [continuousAt_const.eventually_lt hcont hpos] with s hs v hv
          exact .inr (Expr.extend_of_eval hv ▸ hs)
      filter_upwards [iha hfixed.1 h.1, ihb hfixed.2.1 h.2.1, hbase] with s hsa hsb hs
      refine ⟨hsa, hsb, fun v hv w hw => ?_⟩
      rw [Option.mem_def, hfixed.2.2 rfl s t, hb] at hw
      rw [← Option.some.inj hw]
      exact hs v hv

/-- The derivative of an absolute value away from zero, as the quotient that the code writes. -/
private lemma hasDerivAt_abs_quotient {f : ℝ → ℝ} {f' t : ℝ} (hf : HasDerivAt f f' t)
    (h : f t ≠ 0) : HasDerivAt (fun s => |f s|) (f t / |f t| * f') t := by
  rcases lt_or_gt_of_ne h with hneg | hpos
  · refine ((hasDerivAt_abs_neg hneg).comp t hf).congr_deriv ?_
    rw [abs_of_neg hneg, div_neg, div_self h]
  · refine ((hasDerivAt_abs_pos hpos).comp t hf).congr_deriv ?_
    rw [abs_of_pos hpos, div_self h]

/-- The power rule at a regular point. -/
private lemma hasDerivAt_rpow_regular {f : ℝ → ℝ} {f' c t : ℝ} (hf : HasDerivAt f f' t)
    (h : (∃ n : ℤ, c = n ∧ (0 ≤ n ∨ f t ≠ 0)) ∨ 0 < f t) :
    HasDerivAt (fun s => f s ^ c) (c * f t ^ (c - 1) * f') t := by
  have hrule : f t ≠ 0 ∨ 1 ≤ c → HasDerivAt (fun s => f s ^ c) (c * f t ^ (c - 1) * f') t := by
    intro hne
    refine (hf.rpow_const hne).congr_deriv ?_
    ring
  rcases h with ⟨n, rfl, hn | hne⟩ | hpos
  · rcases Int.lt_or_eq_of_le hn with hpos | rfl
    · exact hrule (.inr (by exact_mod_cast hpos))
    · -- the power with exponent zero is the constant one
      simp only [Int.cast_zero, Real.rpow_zero, zero_mul]
      exact hasDerivAt_const t 1
  · exact hrule (.inl hne)
  · exact hrule (.inl hpos.ne')

namespace Definitions

/-! ## Expanded expressions -/

variable {T : Definitions} {x : String}

/-- A defined variable expands to its definition. -/
lemma expand_definition {name kind : String} {e : Expr} (hname : name ≠ x)
    (h : T.lookup name = some e) : T.expand x (.var name kind) = T.expand x e := by
  rw [expand, if_neg hname]
  split
  · rename_i e' he'
    rw [Option.some.inj (h.symm.trans he')]
  · rename_i hnone
    simp [h] at hnone

/-- A variable without a definition expands to itself. -/
lemma expand_free {name kind : String} (h : T.lookup name = none) :
    T.expand x (.var name kind) = .var name kind := by
  rw [expand]
  split_ifs
  · rfl
  · split
    · rename_i e' he'
      simp [h] at he'
    · rfl

/-- The variable of differentiation stays a symbol. -/
lemma expand_target (kind : String) : T.expand x (.var x kind) = .var x kind := by
  rw [expand, if_pos rfl]

/-- The extended value of an expression with all definitions expanded, as a function of the
variable. -/
noncomputable def along (T : Definitions) (x : String) (params point : String → ℝ) (e : Expr)
    (t : ℝ) : ℝ :=
  (T.expand x e).extend params (Function.update point x t)

variable {params point : String → ℝ}

/-- Reading expressions with all definitions expanded follows their structure. -/
lemma interprets_expand : Interprets fun e => (T.expand x e).extend params point where
  const l := by simp [expand, Expr.extend]
  bin op a b := by simp [expand, Expr.extend]
  neg a := by simp [expand, Expr.extend]

/-- Reading expressions along the variable follows their structure. -/
lemma interprets_along (t : ℝ) : Interprets fun e => T.along x params point e t :=
  interprets_expand

/-- Evaluating expressions with all definitions expanded follows their structure. -/
lemma evaluates_expand : Evaluates fun e => (T.expand x e).eval params point where
  const l := by simp [expand, Expr.eval]
  bin op a b := by simp [expand, Expr.eval]
  neg a := by simp [expand, Expr.eval]

/-- A quotient has a value where the extended divisor is not zero. -/
private lemma isSome_div {a b : Expr} (ha : ((T.expand x a).eval params point).isSome)
    (hb : ((T.expand x b).eval params point).isSome)
    (hne : (T.expand x b).extend params point ≠ 0) :
    ((T.expand x (.bin .div a b)).eval params point).isSome := by
  obtain ⟨v, hv⟩ := Option.isSome_iff_exists.mp ha
  obtain ⟨w, hw⟩ := Option.isSome_iff_exists.mp hb
  rw [Expr.extend_of_eval hw] at hne
  rw [evaluates_expand.bin, hv, hw, Option.bind_some, Option.bind_some, Operation.apply, if_neg hne]
  rfl

/-- The power that the power rule writes has a value, unless it takes zero to the exponent zero. -/
private lemma isSome_pow {a exponent : Expr} {v w : ℝ}
    (ha : (T.expand x a).eval params point = some v)
    (hexponent : (T.expand x exponent).eval params point = some (w - 1))
    (hpow : (∃ n : ℤ, w = n ∧ (0 ≤ n ∨ v ≠ 0)) ∨ 0 < v) (hzero : ¬ (v = 0 ∧ w = 0)) :
    ((T.expand x (.bin .pow a exponent)).eval params point).isSome := by
  have hlower : (∃ n : ℤ, w - 1 = n ∧ (0 ≤ n ∨ v ≠ 0)) ∨ 0 < v := by
    rcases hpow with ⟨n, rfl, hn⟩ | hpos
    · refine .inl ⟨n - 1, by push_cast; rfl, ?_⟩
      by_cases hv : v = 0
      · have hne : n ≠ 0 := fun h => hzero ⟨hv, by rw [h, Int.cast_zero]⟩
        have hnonneg := hn.resolve_right (not_not.mpr hv)
        exact .inl (by omega)
      · exact .inr hv
    · exact .inr hpos
  rw [evaluates_expand.bin, ha, hexponent, Option.bind_some, Option.bind_some, apply_pow hlower]
  rfl

/-- The value of a binary node along the variable. -/
lemma along_bin (op : Operation) (a b : Expr) :
    T.along x params point (.bin op a b) =
      fun t => op.extend (T.along x params point a t) (T.along x params point b t) := by
  funext t
  exact (interprets_along t).bin op a b

/-- The value of a defined variable is that of its definition. -/
lemma along_definition {name kind : String} {e : Expr} (hname : name ≠ x)
    (h : T.lookup name = some e) :
    T.along x params point (.var name kind) = T.along x params point e := by
  funext t
  rw [along, expand_definition hname h, along]

/-! ## The defect -/

section Defect

variable [Interpreter] (T x) (params point)

/-- The defect of the quotient that the quotient rule folds, if it folds one. -/
def foldedDefect (a b : Expr) : ℚ :=
  match quotientParts (T.walk x a) (T.walk x b) a.outline b.outline with
  | .ok (.literal n, .literal m) => quotientDefect n.number m.number
  | _ => 0

/-- The defects of the quotients that the derivative folds, each carried by the chain rule to the
root of the expression, at a value of the variable. -/
noncomputable def defect (t : ℝ) : Expr → ℝ
  | .const _ => 0
  | .param _ => 0
  | .var name _ =>
    if name = x then 0
    else match _h : T.lookup name with
      | some e => defect t e
      | none => 0
  | .bin .add a b => defect t a + defect t b
  | .bin .sub a b => defect t a - defect t b
  | .bin .mul a b =>
      defect t a * T.along x params point b t + T.along x params point a t * defect t b
  | .bin .div a b =>
    (defect t a * T.along x params point b t - T.along x params point a t * defect t b) /
      T.along x params point b t ^ 2 + (T.foldedDefect x a b : ℝ)
  | .neg a => -defect t a
  | .sqrt a => defect t a / (2 * Real.sqrt (T.along x params point a t))
  | .abs a => T.along x params point a t / |T.along x params point a t| * defect t a
  | .sign _ => 0
  | .bin .pow a b =>
    T.along x params point b t *
      T.along x params point a t ^ (T.along x params point b t - 1) * defect t a
termination_by e => (T.level e, sizeOf e)
decreasing_by
  · exact below_of_lookup _h
  · exact below_left .add a b
  · exact below_right .add a b
  · exact below_left .sub a b
  · exact below_right .sub a b
  · exact below_left .mul a b
  · exact below_right .mul a b
  · exact below_left .div a b
  · exact below_right .div a b
  · exact below_of_names (List.Subset.refl _) (by simp)
  · exact below_of_names (List.Subset.refl _) (by simp)
  · exact below_of_names (List.Subset.refl _) (by simp)
  · exact below_left .pow a b

/-- No quotient of constants that the derivative of an expression folds is a wrong one. -/
def Clear (e : Expr) : Prop := ∀ n m, T.Folds x e n m → ¬ WrongQuotient n.number m.number

end Defect

section

variable [Interpreter]

/-- The defect of a defined variable is that of its definition. -/
lemma defect_definition {name kind : String} {e : Expr} {t : ℝ} (hname : name ≠ x)
    (h : T.lookup name = some e) :
    T.defect x params point t (.var name kind) = T.defect x params point t e := by
  rw [defect, if_neg hname]
  split
  · rename_i e' he'
    rw [Option.some.inj (h.symm.trans he')]
  · rename_i hnone
    simp [h] at hnone

/-- A variable without a definition has no defect. -/
lemma defect_free {name kind : String} {t : ℝ} (h : T.lookup name = none) :
    T.defect x params point t (.var name kind) = 0 := by
  rw [defect]
  split_ifs
  · rfl
  · split
    · rename_i e' he'
      simp [h] at he'
    · rfl

/-- The walk returns the outline of a returned derivative. -/
lemma walk_of_go {e d : Expr} (h : T.go x e = .ok d) : T.walk x e = .ok d.outline := by
  rw [← outline_go, h, outlined_ok]

/-- The outline of a returned product. -/
lemma outline_of_sMul {a b r : Expr} (h : sMul a b = .ok r) :
    Outline.mul a.outline b.outline = .ok r.outline := by
  rw [← outline_sMul, h, outlined_ok]

/-- The parts of the quotient rule are the outlines of its numerator and denominator. -/
lemma quotientParts_eq {a b ga gb left right num den : Expr} (hga : T.go x a = .ok ga)
    (hgb : T.go x b = .ok gb) (hleft : sMul ga b = .ok left) (hright : sMul a gb = .ok right)
    (hnum : sSub left right = .ok num) (hden : sMul b b = .ok den) :
    quotientParts (T.walk x a) (T.walk x b) a.outline b.outline =
      .ok (num.outline, den.outline) := by
  have hsub : Outline.sub left.outline right.outline = .ok num.outline := by
    rw [← outline_sSub, hnum, outlined_ok]
  simp only [quotientParts, walk_of_go hga, walk_of_go hgb, ok_bind, outline_of_sMul hleft,
    outline_of_sMul hright, hsub, outline_of_sMul hden]
  rfl

/-- The quotient that the quotient rule folds is that of its numerator and denominator. -/
lemma foldedDefect_eq {a b ga gb left right num den : Expr} (hga : T.go x a = .ok ga)
    (hgb : T.go x b = .ok gb) (hleft : sMul ga b = .ok left) (hright : sMul a gb = .ok right)
    (hnum : sSub left right = .ok num) (hden : sMul b b = .ok den) :
    T.foldedDefect x a b = exprDefect num den := by
  rw [foldedDefect, quotientParts_eq hga hgb hleft hright hnum hden]
  cases num <;> cases den <;> rfl

/-- A quotient by an expression that is no constant has no defect. -/
lemma exprDefect_eq_zero {a b : Expr} (h : ∀ l, b ≠ .const l) : exprDefect a b = 0 := by
  unfold exprDefect
  split
  · exact absurd rfl (h _)
  · rfl

/-- The denominator that the root rule writes is no constant. -/
lemma root_ne_const {a den : Expr} (h : sMul (.ofInt 2) (.sqrt a) = .ok den) (l : Literal) :
    den ≠ .const l := by
  rintro rfl
  simp [sMul, isUnannotatedConst, Expr.ofInt, Literal.ofInt, Number.value] at h
  exact absurd (binNode_eq h) (by simp)

/-! ## The rules of the derivative -/

/-- The derivative of an expression along the variable is the value of `d`, up to the defect. -/
def RightUpTo (T : Definitions) (x : String) (params point : String → ℝ) (t : ℝ) (e d : Expr) :
    Prop :=
  HasDerivAt (T.along x params point e)
    (T.along x params point d t - T.defect x params point t e) t

variable {t : ℝ}

/-- The rule of a product. -/
lemma rightUpTo_mul {a b ga gb left right d : Expr} (ha : T.RightUpTo x params point t a ga)
    (hb : T.RightUpTo x params point t b gb) (hleft : sMul ga b = .ok left)
    (hright : sMul a gb = .ok right) (hd : sAdd left right = .ok d) :
    T.RightUpTo x params point t (.bin .mul a b) d := by
  have hE : Interprets fun e => T.along x params point e t := interprets_along t
  unfold RightUpTo
  rw [along_bin]
  refine (ha.mul hb).congr_deriv ?_
  rw [hE.sAdd hd, hE.sMul hleft, hE.sMul hright, defect]
  ring

/-- The rule of a quotient. -/
lemma rightUpTo_div {a b ga gb left right num den d : Expr} (hga : T.go x a = .ok ga)
    (hgb : T.go x b = .ok gb) (ha : T.RightUpTo x params point t a ga)
    (hb : T.RightUpTo x params point t b gb) (hleft : sMul ga b = .ok left)
    (hright : sMul a gb = .ok right) (hnum : sSub left right = .ok num)
    (hden : sMul b b = .ok den) (hd : sDiv num den = .ok d)
    (hne : T.along x params point b t ≠ 0) :
    T.RightUpTo x params point t (.bin .div a b) d := by
  have hE : Interprets fun e => T.along x params point e t := interprets_along t
  unfold RightUpTo
  rw [along_bin]
  refine (ha.div hb hne).congr_deriv ?_
  rw [hE.sDiv hd, hE.sSub hnum, hE.sMul hleft, hE.sMul hright, hE.sMul hden, defect,
    foldedDefect_eq hga hgb hleft hright hnum hden]
  ring

/-- The rule of a root. -/
lemma rightUpTo_sqrt {a ga den d : Expr} (ha : T.RightUpTo x params point t a ga)
    (hden : sMul (.ofInt 2) (.sqrt a) = .ok den) (hd : sDiv ga den = .ok d)
    (hpos : 0 < T.along x params point a t) : T.RightUpTo x params point t (.sqrt a) d := by
  have hE : Interprets fun e => T.along x params point e t := interprets_along t
  have hsqrt : T.along x params point (.sqrt a) =
      fun s => Real.sqrt (T.along x params point a s) := by
    funext s
    simp [along, expand, Expr.extend]
  unfold RightUpTo
  rw [hsqrt]
  refine (ha.sqrt hpos.ne').congr_deriv ?_
  rw [hE.sDiv hd, hE.sMul hden, hE.ofInt, exprDefect_eq_zero (root_ne_const hden), hsqrt, defect]
  push_cast
  ring

/-- The rule of an absolute value. -/
lemma rightUpTo_abs {a ga ratio d : Expr} (ha : T.RightUpTo x params point t a ga)
    (hratio : sDiv a (.abs a) = .ok ratio) (hd : sMul ratio ga = .ok d)
    (hne : T.along x params point a t ≠ 0) : T.RightUpTo x params point t (.abs a) d := by
  have hE : Interprets fun e => T.along x params point e t := interprets_along t
  have habs : T.along x params point (.abs a) = fun s => |T.along x params point a s| := by
    funext s
    simp [along, expand, Expr.extend]
  unfold RightUpTo
  rw [habs]
  refine (hasDerivAt_abs_quotient ha hne).congr_deriv ?_
  rw [hE.sMul hd, hE.sDiv hratio, exprDefect_eq_zero (fun l => by simp), habs, defect]
  push_cast
  ring

/-- The rule of a sign. -/
lemma rightUpTo_sign {a : Expr} (hfixed : (T.expand x a).ExponentsFixed params point x)
    (hregular : (T.expand x a).Regular params (Function.update point x t))
    (hne : T.along x params point a t ≠ 0) :
    T.RightUpTo x params point t (.sign a) (.ofInt 0) := by
  have hE : Interprets fun e => T.along x params point e t := interprets_along t
  have hsign : T.along x params point (.sign a) =
      fun s => Real.sign (T.along x params point a s) := by
    funext s
    simp [along, expand, Expr.extend]
  have hcont : ContinuousAt (T.along x params point a) t :=
    Expr.continuousAt_of_regular hfixed hregular
  unfold RightUpTo
  rw [hsign]
  refine HasDerivAt.congr_of_eventuallyEq ?_ (eventually_sign_eq hcont hne)
  refine (hasDerivAt_const t _).congr_deriv ?_
  rw [hE.ofInt, defect]
  simp

/-- The rule of a power. -/
lemma rightUpTo_pow {a b ga exponent power scaled d : Expr}
    (ha : T.RightUpTo x params point t a ga) (hexponent : sSub b (.ofInt 1) = .ok exponent)
    (hpower : sPow a exponent = .ok power) (hscaled : sMul b power = .ok scaled)
    (hd : sMul scaled ga = .ok d)
    (hconst : ∀ s, T.along x params point b s = T.along x params point b t)
    (hpow : (∃ n : ℤ, T.along x params point b t = n ∧
      (0 ≤ n ∨ T.along x params point a t ≠ 0)) ∨ 0 < T.along x params point a t) :
    T.RightUpTo x params point t (.bin .pow a b) d := by
  have hE : Interprets fun e => T.along x params point e t := interprets_along t
  have hfun : T.along x params point (.bin .pow a b) =
      fun s => T.along x params point a s ^ T.along x params point b t := by
    rw [along_bin]
    funext s
    show _ ^ T.along x params point b s = _
    rw [hconst s]
  unfold RightUpTo
  rw [hfun]
  refine (hasDerivAt_rpow_regular ha hpow).congr_deriv ?_
  rw [hE.sMul hd, hE.sMul hscaled, hE.sPow hpower, hE.sSub hexponent, hE.ofInt, defect]
  push_cast
  ring

/-- **The symbolic derivative is the derivative, up to the defect.**

**Proof sketch.** Induction along the expression and its definitions: every constructor that the
derivative uses keeps the value but for the folded quotient of the quotient rule, whose defect is
added there, and every rule is one of the rules of calculus, which carries the defects of the
operands as it carries their derivatives. -/
theorem hasDerivAt_go {e d : Expr} (h : T.go x e = .ok d)
    (hfixed : (T.expand x e).ExponentsFixed params point x)
    (hreg : (T.expand x e).Regular params (Function.update point x t)) :
    T.RightUpTo x params point t e d := by
  have hE : Interprets fun e => T.along x params point e t := interprets_along t
  induction e using T.induction generalizing d with
  | const l =>
    rw [go] at h
    obtain rfl := Except.ok.inj h
    unfold RightUpTo
    rw [show T.along x params point (.const l) = fun _ => (l.number.value : ℝ) from
      funext fun s => (interprets_along s).const l]
    exact (hasDerivAt_const t _).congr_deriv (by rw [hE.ofInt, defect]; simp)
  | var name kind ih =>
    by_cases hname : name = x
    · -- the variable itself
      subst hname
      rw [go, if_pos rfl] at h
      obtain rfl := Except.ok.inj h
      have hid : T.along name params point (.var name kind) = fun s => s := by
        funext s
        simp [along, expand, Expr.extend]
      unfold RightUpTo
      rw [hid]
      exact (hasDerivAt_id' t).congr_deriv (by rw [hE.ofInt, defect]; simp)
    · cases hdef : T.lookup name with
      | some e =>
        rw [go_definition hname hdef] at h
        rw [expand_definition hname hdef] at hfixed hreg
        have he := ih e hdef h hfixed hreg
        unfold RightUpTo at he ⊢
        rw [along_definition hname hdef, defect_definition hname hdef]
        exact he
      | none =>
        rw [go_free hname hdef] at h
        obtain rfl := Except.ok.inj h
        have hconst : T.along x params point (.var name kind) = fun _ => point name := by
          funext s
          simp [along, expand_free hdef, Expr.extend, Function.update_of_ne hname]
        unfold RightUpTo
        rw [hconst]
        exact (hasDerivAt_const t _).congr_deriv (by rw [hE.ofInt, defect_free hdef]; simp)
  | param name =>
    rw [go] at h
    obtain rfl := Except.ok.inj h
    have hconst : T.along x params point (.param name) = fun _ => params name := by
      funext s
      simp [along, expand, Expr.extend]
    unfold RightUpTo
    rw [hconst]
    exact (hasDerivAt_const t _).congr_deriv (by rw [hE.ofInt, defect]; simp)
  | neg a iha =>
    rw [go] at h
    simp only [bind_eq_ok, pure_eq_ok] at h
    obtain ⟨ga, hga, rfl⟩ := h
    rw [expand] at hfixed hreg
    have ha := iha hga hfixed hreg
    unfold RightUpTo at ha ⊢
    rw [show T.along x params point (.neg a) = fun s => -T.along x params point a s from
      funext fun s => (interprets_along s).neg a]
    refine ha.neg.congr_deriv ?_
    rw [hE.sNeg, defect]
    ring
  | sqrt a iha =>
    rw [go] at h
    simp only [bind_eq_ok] at h
    obtain ⟨ga, hga, den, hden, hd⟩ := h
    rw [expand] at hfixed hreg
    exact rightUpTo_sqrt (iha hga hfixed hreg.1) hden hd (hreg.2 _ hreg.1.eval_eq)
  | abs a iha =>
    rw [go] at h
    simp only [bind_eq_ok] at h
    obtain ⟨ratio, hratio, ga, hga, hd⟩ := h
    rw [expand] at hfixed hreg
    exact rightUpTo_abs (iha hga hfixed hreg.1) hratio hd (hreg.1.extend_ne hreg.2)
  | sign a _ =>
    rw [go] at h
    obtain rfl := Except.ok.inj h
    rw [expand] at hfixed hreg
    exact rightUpTo_sign hfixed hreg.1 (hreg.1.extend_ne hreg.2)
  | bin op a b iha ihb =>
    rw [expand] at hfixed hreg
    cases op with
    | add =>
      rw [go] at h
      simp only [bind_eq_ok] at h
      obtain ⟨ga, hga, gb, hgb, hd⟩ := h
      have ha := iha hga hfixed.1 hreg.1
      have hb := ihb hgb hfixed.2.1 hreg.2
      unfold RightUpTo at ha hb ⊢
      rw [along_bin]
      refine (ha.add hb).congr_deriv ?_
      rw [hE.sAdd hd, defect]
      ring
    | sub =>
      rw [go] at h
      simp only [bind_eq_ok] at h
      obtain ⟨ga, hga, gb, hgb, hd⟩ := h
      have ha := iha hga hfixed.1 hreg.1
      have hb := ihb hgb hfixed.2.1 hreg.2
      unfold RightUpTo at ha hb ⊢
      rw [along_bin]
      refine (ha.sub hb).congr_deriv ?_
      rw [hE.sSub hd, defect]
      ring
    | mul =>
      rw [go] at h
      simp only [bind_eq_ok] at h
      obtain ⟨ga, hga, left, hleft, gb, hgb, right, hright, hd⟩ := h
      exact rightUpTo_mul (iha hga hfixed.1 hreg.1) (ihb hgb hfixed.2.1 hreg.2) hleft hright hd
    | div =>
      rw [go] at h
      simp only [bind_eq_ok] at h
      obtain ⟨ga, hga, left, hleft, gb, hgb, right, hright, num, hnum, den, hden, hd⟩ := h
      exact rightUpTo_div hga hgb (iha hga hfixed.1 hreg.1) (ihb hgb hfixed.2.1 hreg.2.1) hleft
        hright hnum hden hd (hreg.2.1.extend_ne hreg.2.2)
    | pow =>
      rw [go] at h
      simp only [bind_eq_ok] at h
      obtain ⟨gb, hgb, -, -, exponent, hexp, power, hpower, scaled, hscaled, ga, hga, hd⟩ := h
      exact rightUpTo_pow (iha hga hfixed.1 hreg.1) hexp hpower hscaled hd
        (hreg.2.1.extend_exponent (hfixed.2.2 rfl))
        (hreg.2.2 _ hreg.1.eval_eq _ hreg.2.1.eval_eq)

/-! ## Without wrong quotients -/

/-- **Without wrong quotients there is no defect.**  The constructors of `Folds` follow the order of
the derivative, and every part is reached since the derivative returns. -/
theorem defect_eq_zero {e d : Expr} (h : T.go x e = .ok d) (hclear : T.Clear x e) :
    T.defect x params point t e = 0 := by
  induction e using T.induction generalizing d with
  | const l => rw [defect]
  | param name => rw [defect]
  | sign a _ => rw [defect]
  | var name kind ih =>
    by_cases hname : name = x
    · rw [defect, if_pos hname]
    · cases hdef : T.lookup name with
      | some e =>
        rw [go_definition hname hdef] at h
        rw [defect_definition hname hdef]
        exact ih e hdef h fun n m hfolds => hclear n m (.definition hname hdef hfolds)
      | none => exact defect_free hdef
  | neg a iha =>
    rw [go] at h
    simp only [bind_eq_ok] at h
    obtain ⟨ga, hga, -⟩ := h
    rw [defect, iha hga fun n m hfolds => hclear n m (.neg hfolds), neg_zero]
  | sqrt a iha =>
    rw [go] at h
    simp only [bind_eq_ok] at h
    obtain ⟨ga, hga, -⟩ := h
    rw [defect, iha hga fun n m hfolds => hclear n m (.sqrt hfolds), zero_div]
  | abs a iha =>
    rw [go] at h
    simp only [bind_eq_ok] at h
    obtain ⟨-, -, ga, hga, -⟩ := h
    rw [defect, iha hga fun n m hfolds => hclear n m (.abs hfolds), mul_zero]
  | bin op a b iha ihb =>
    cases op with
    | add =>
      rw [go] at h
      simp only [bind_eq_ok] at h
      obtain ⟨ga, hga, gb, hgb, -⟩ := h
      rw [defect, iha hga fun n m hfolds => hclear n m (.left (by decide) hfolds),
        ihb hgb fun n m hfolds => hclear n m (.sumRight (.inl rfl) (walk_of_go hga) hfolds),
        add_zero]
    | sub =>
      rw [go] at h
      simp only [bind_eq_ok] at h
      obtain ⟨ga, hga, gb, hgb, -⟩ := h
      rw [defect, iha hga fun n m hfolds => hclear n m (.left (by decide) hfolds),
        ihb hgb fun n m hfolds => hclear n m (.sumRight (.inr rfl) (walk_of_go hga) hfolds),
        sub_zero]
    | mul =>
      rw [go] at h
      simp only [bind_eq_ok] at h
      obtain ⟨ga, hga, left, hleft, gb, hgb, -⟩ := h
      rw [defect, iha hga fun n m hfolds => hclear n m (.left (by decide) hfolds),
        ihb hgb fun n m hfolds => hclear n m
          (.productRight (.inl rfl) (walk_of_go hga) (outline_of_sMul hleft) hfolds)]
      ring
    | div =>
      rw [go] at h
      simp only [bind_eq_ok] at h
      obtain ⟨ga, hga, left, hleft, gb, hgb, right, hright, num, hnum, den, hden, -⟩ := h
      have hparts := quotientParts_eq hga hgb hleft hright hnum hden
      have hfolded : T.foldedDefect x a b = 0 := by
        unfold foldedDefect
        split
        · exact quotientDefect_eq_zero (hclear _ _ (.quotient ‹_›))
        · rfl
      rw [defect, hfolded, iha hga fun n m hfolds => hclear n m (.left (by decide) hfolds),
        ihb hgb fun n m hfolds => hclear n m
          (.productRight (.inr rfl) (walk_of_go hga) (outline_of_sMul hleft) hfolds)]
      simp
    | pow =>
      rw [go] at h
      simp only [bind_eq_ok] at h
      obtain ⟨gb, hgb, _, hzero, exponent, hexp, power, hpower, scaled, hscaled, ga, hga, -⟩ := h
      have hfactor : powerFactor x (T.walk x b) a.outline b.outline = .ok scaled.outline := by
        have hsub : Outline.sub b.outline (.ofInt 1) = .ok exponent.outline := by
          rw [show Outline.ofInt 1 = (Expr.ofInt 1).outline from rfl, ← outline_sSub, hexp,
            outlined_ok]
        have hpow : Outline.pow a.outline exponent.outline = .ok power.outline := by
          rw [← outline_sPow, hpower, outlined_ok]
        rw [powerFactor, walk_of_go hgb, ok_bind, isConst_outline, hzero, ok_bind, hsub, ok_bind,
          hpow, ok_bind]
        exact outline_of_sMul hscaled
      rw [defect, iha hga fun n m hfolds => hclear n m (.base hfactor hfolds), mul_zero]

/-! ## Where the derivative has a value -/

/-- **Where the derivative has a value**: at the regular points, unless a power takes zero to the
exponent zero there. -/
theorem isSome_go {e d : Expr} (h : T.go x e = .ok d) (hreg : (T.expand x e).Regular params point)
    (hzero : (T.expand x e).NoZeroToZero params point) :
    ((T.expand x d).eval params point).isSome := by
  have hE : Evaluates fun e => (T.expand x e).eval params point := evaluates_expand
  have hI : Interprets fun e => (T.expand x e).extend params point := interprets_expand
  have hsome : ∀ {a : Expr}, (T.expand x a).Regular params point →
      ((T.expand x a).eval params point).isSome := fun ha => by rw [ha.eval_eq]; rfl
  induction e using T.induction generalizing d with
  | const l =>
    rw [go] at h
    rw [← Except.ok.inj h]
    exact hE.isSome_const _
  | param name =>
    rw [go] at h
    rw [← Except.ok.inj h]
    exact hE.isSome_const _
  | sign a _ =>
    rw [go] at h
    rw [← Except.ok.inj h]
    exact hE.isSome_const _
  | var name kind ih =>
    by_cases hname : name = x
    · rw [go, if_pos hname] at h
      rw [← Except.ok.inj h]
      exact hE.isSome_const _
    · cases hdef : T.lookup name with
      | some e =>
        rw [go_definition hname hdef] at h
        rw [expand_definition hname hdef] at hreg hzero
        exact ih e hdef h hreg hzero
      | none =>
        rw [go_free hname hdef] at h
        rw [← Except.ok.inj h]
        exact hE.isSome_const _
  | neg a iha =>
    rw [go] at h
    simp only [bind_eq_ok, pure_eq_ok] at h
    obtain ⟨ga, hga, rfl⟩ := h
    rw [expand] at hreg hzero
    exact hE.isSome_sNeg (iha hga hreg hzero)
  | sqrt a iha =>
    rw [go] at h
    simp only [bind_eq_ok] at h
    obtain ⟨ga, hga, den, hden, hd⟩ := h
    rw [expand] at hreg hzero
    have ha := iha hga hreg.1 hzero
    have hroot : ((T.expand x (.sqrt a)).eval params point).isSome := by
      rw [expand]
      exact (show (T.expand x a).sqrt.Regular params point from hreg).eval_eq ▸ rfl
    have hdenSome := hE.isSome_sMul hden (hE.isSome_const _) hroot
    refine hE.isSome_sDiv hd ha (isSome_div ha hdenSome ?_)
    rw [hI.sMul hden, hI.ofInt, expand, Expr.extend]
    have hpos := Real.sqrt_pos.mpr (hreg.2 _ hreg.1.eval_eq)
    exact mul_ne_zero (by norm_num) hpos.ne'
  | abs a iha =>
    rw [go] at h
    simp only [bind_eq_ok] at h
    obtain ⟨ratio, hratio, ga, hga, hd⟩ := h
    rw [expand] at hreg hzero
    have habs : ((T.expand x (.abs a)).eval params point).isSome := by
      rw [expand]
      exact (show (T.expand x a).abs.Regular params point from hreg).eval_eq ▸ rfl
    have hratioSome := hE.isSome_sDiv hratio (hsome hreg.1) (isSome_div (hsome hreg.1) habs (by
      rw [expand, Expr.extend]
      exact abs_ne_zero.mpr (hreg.1.extend_ne hreg.2)))
    exact hE.isSome_sMul hd hratioSome (iha hga hreg.1 hzero)
  | bin op a b iha ihb =>
    rw [expand] at hreg hzero
    cases op with
    | add =>
      rw [go] at h
      simp only [bind_eq_ok] at h
      obtain ⟨ga, hga, gb, hgb, hd⟩ := h
      exact hE.isSome_sAdd hd (iha hga hreg.1 hzero.1) (ihb hgb hreg.2 hzero.2.1)
    | sub =>
      rw [go] at h
      simp only [bind_eq_ok] at h
      obtain ⟨ga, hga, gb, hgb, hd⟩ := h
      exact hE.isSome_sSub hd (iha hga hreg.1 hzero.1) (ihb hgb hreg.2 hzero.2.1)
    | mul =>
      rw [go] at h
      simp only [bind_eq_ok] at h
      obtain ⟨ga, hga, left, hleft, gb, hgb, right, hright, hd⟩ := h
      have hleftSome := hE.isSome_sMul hleft (iha hga hreg.1 hzero.1) (hsome hreg.2)
      have hrightSome := hE.isSome_sMul hright (hsome hreg.1) (ihb hgb hreg.2 hzero.2.1)
      exact hE.isSome_sAdd hd hleftSome hrightSome
    | div =>
      rw [go] at h
      simp only [bind_eq_ok] at h
      obtain ⟨ga, hga, left, hleft, gb, hgb, right, hright, num, hnum, den, hden, hd⟩ := h
      have hleftSome := hE.isSome_sMul hleft (iha hga hreg.1 hzero.1) (hsome hreg.2.1)
      have hrightSome := hE.isSome_sMul hright (hsome hreg.1) (ihb hgb hreg.2.1 hzero.2.1)
      have hnumSome := hE.isSome_sSub hnum hleftSome hrightSome
      have hdenSome := hE.isSome_sMul hden (hsome hreg.2.1) (hsome hreg.2.1)
      refine hE.isSome_sDiv hd hnumSome (isSome_div hnumSome hdenSome ?_)
      rw [hI.sMul hden]
      have hne := hreg.2.1.extend_ne hreg.2.2
      exact mul_ne_zero hne hne
    | pow =>
      rw [go] at h
      simp only [bind_eq_ok] at h
      obtain ⟨gb, hgb, -, -, exponent, hexp, power, hpower, scaled, hscaled, ga, hga, hd⟩ := h
      have ha := hreg.1.eval_eq
      have hb := hreg.2.1.eval_eq
      obtain ⟨w, hw⟩ := Option.isSome_iff_exists.mp
        (hE.isSome_sSub hexp (hsome hreg.2.1) (hE.isSome_const _))
      have hlower : w = (T.expand x b).extend params point - 1 := by
        rw [← Expr.extend_of_eval hw, hI.sSub hexp, hI.ofInt, Int.cast_one]
      have hnode := isSome_pow ha (hlower ▸ hw) (hreg.2.2 _ ha _ hb) fun hboth =>
        hzero.2.2 rfl ⟨by rw [ha, hboth.1], by rw [hb, hboth.2]⟩
      have hpowerSome := hE.isSome_sPow hpower (hsome hreg.1) hnode
      have hscaledSome := hE.isSome_sMul hscaled (hsome hreg.2.1) hpowerSome
      exact hE.isSome_sMul hd hscaledSome (iha hga hreg.1 hzero.1)

end

/-! ## The derivative -/

/-- The value of an expression with all definitions expanded, as a function of the variable; zero
where there is no value. -/
noncomputable def valueAlong (T : Definitions) (x : String) (params point : String → ℝ) (e : Expr)
    (t : ℝ) : ℝ :=
  ((T.expand x e).eval params (Function.update point x t)).getD 0

/-- Near a regular point an expression has a value, the extended one. -/
lemma eventually_valueAlong {e : Expr} {t : ℝ}
    (hfixed : (T.expand x e).ExponentsFixed params point x)
    (hreg : (T.expand x e).Regular params (Function.update point x t)) :
    T.valueAlong x params point e =ᶠ[nhds t] T.along x params point e := by
  filter_upwards [Expr.eventually_regular hfixed hreg] with s hs
  rw [valueAlong, hs.eval_eq, Option.getD_some, along]

/-- The table `{"p": x * x}`. -/
def squareTable : Definitions where
  entries := [("p", .bin .mul (.var "x" "cons") (.var "x" "cons"))]
  acyclic := by
    have hmentions : ∀ n m, Mentions [("p", .bin .mul (.var "x" "cons") (.var "x" "cons"))] n m →
        n = "p" ∧ m = "x" := by
      rintro n m ⟨e, he, hm⟩
      simp only [OrderedMap.lookup] at he
      split_ifs at he with hn
      · obtain rfl := Option.some.inj he
        exact ⟨hn.symm, by simpa [Expr.names] using hm⟩
    intro n h
    obtain ⟨m, hnm, -⟩ := Relation.TransGen.head'_iff.mp h
    obtain ⟨m', -, hmn⟩ := Relation.TransGen.tail'_iff.mp h
    have hp := (hmentions n m hnm).1
    have hx := (hmentions m' n hmn).2
    rw [hp] at hx
    exact absurd hx (by decide)

/-- The decimal `0.1`. -/
def tenth : Literal := ⟨.decimal (.mk false 1 (-1)), none, none⟩

/-- The decimal `10`. -/
def ten : Literal := ⟨.decimal (.mk false 10 0), none, none⟩

/-- The expression `x / 0.1 + p`. -/
def tenthPlusSquare : Expr :=
  .bin .add (.bin .div (.var "x" "cons") (.const tenth)) (.var "p" "prim")

/-- The definition of `p`. -/
private lemma squareTable_lookup :
    squareTable.lookup "p" = some (.bin .mul (.var "x" "cons") (.var "x" "cons")) := by
  decide

/-- The quotient that the derivative of `x / 0.1` folds. -/
private lemma quotientParts_tenth :
    quotientParts (squareTable.walk "x" (.var "x" "cons")) (squareTable.walk "x" (.const tenth))
      (Expr.var "x" "cons").outline (Expr.const tenth).outline =
        .ok (.literal tenth, .literal ⟨.decimal (.mk false 1 (-2)), none, none⟩) := by
  rw [walk, walk, if_pos rfl]
  decide +kernel

/-- The derivative of `x / 0.1 + p` folds no wrong quotient. -/
private lemma clear_tenthPlusSquare : squareTable.Clear "x" tenthPlusSquare := by
  intro n m h
  cases h with
  | left hop h =>
    cases h with
    | left hop h => cases h with | definition hname h hfolds => exact absurd rfl hname
    | productRight hop hleft hfirst h => cases h
    | sumRight hop hleft h => simp at hop
    | quotient h =>
      rw [quotientParts_tenth] at h
      obtain ⟨rfl, rfl⟩ : tenth = n ∧ ⟨.decimal (.mk false 1 (-2)), none, none⟩ = m := by
        simpa using h
      decide +kernel
  | sumRight hop hleft h =>
    cases h with
    | definition hname h hfolds =>
      obtain rfl := Option.some.inj (squareTable_lookup.symm.trans h)
      cases hfolds with
      | left hop h => cases h with | definition hname h hfolds => exact absurd rfl hname
      | productRight hop hleft hfirst h =>
        cases h with | definition hname h hfolds => exact absurd rfl hname
      | sumRight hop hleft h => simp at hop
  | productRight hop hleft hfirst h => simp at hop

/-- The derivative of `x / 0.1 + p` for `p = x * x` is `10 + (x + x)`. -/
lemma diff_tenth : squareTable.diff tenthPlusSquare "x" =
    .ok (.bin .add (.const ten) (.bin .add (.var "x" "cons") (.var "x" "cons"))) := by
  have hp : squareTable.go "x" (.var "p" "prim") =
      .ok (.bin .add (.var "x" "cons") (.var "x" "cons")) := by
    rw [go_definition (by decide) squareTable_lookup, go, go, if_pos rfl]
    rfl
  rw [diff, tenthPlusSquare, go, hp, go, go, go, if_pos rfl]
  decide +kernel

/-- The table without definitions. -/
def noDefinitions : Definitions where
  entries := []
  acyclic := by
    intro name h
    obtain ⟨m, ⟨e, he, -⟩, -⟩ := Relation.TransGen.head'_iff.mp h
    simp [OrderedMap.lookup] at he

/-- The expression `x / 2` by the decimal `2`. -/
def halfOfX : Expr := .bin .div (.var "x" "cons") (.const ⟨.decimal (.mk false 2 0), none, none⟩)

end Definitions

end Ir

end Pops
