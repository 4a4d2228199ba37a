import Pops.Foundation.PyException

/-!
# Error-controlled steps: the policy

The data of `ErrorControlledDt` and the checks of its constructor.  Durations are rationals.

## Main definitions

* `Pops.Stepping.ErrorControlledDt` — the fields.
* `Pops.Stepping.ErrorControlledDt.postInit` — `__post_init__`.
* `Pops.Stepping.Policy` — fields that pass the checks.

## Main results

* `Pops.Stepping.ErrorControlledDt.postInit_eq_ok` — what the checks guarantee.
-/

namespace Pops.Stepping

/-- The fields of `ErrorControlledDt`. -/
structure ErrorControlledDt where
  dtInit : ℚ
  rtol : ℚ
  atol : ℚ
  dtMin : ℚ
  dtMax : ℚ
  maxRejections : ℤ
  shrink : ℚ
  growth : ℚ
  deriving DecidableEq

namespace ErrorControlledDt

/-- `_positive_float` of a finite number. -/
def positiveFloat (name : String) (value : ℚ) : Raises Unit :=
  raiseIf (value ≤ 0) (valueError s!"ErrorControlledDt.{name} must be finite and > 0")

/-- `__post_init__`: the checks of a policy, field by field. -/
def postInit (policy : ErrorControlledDt) : Raises Unit := do
  positiveFloat "dt_init" policy.dtInit
  positiveFloat "rtol" policy.rtol
  positiveFloat "atol" policy.atol
  positiveFloat "dt_min" policy.dtMin
  positiveFloat "dt_max" policy.dtMax
  positiveFloat "shrink" policy.shrink
  positiveFloat "growth" policy.growth
  raiseIf (policy.maxRejections ≤ 0) (valueError "ErrorControlledDt.max_rejections must be > 0")
  raiseIf (policy.dtMin > policy.dtInit ∨ policy.dtInit > policy.dtMax)
    (valueError "ErrorControlledDt requires dt_min <= dt_init <= dt_max")
  raiseIf (¬ policy.shrink < 1) (valueError "ErrorControlledDt.shrink must be < 1")
  raiseIf (¬ policy.growth ≥ 1) (valueError "ErrorControlledDt.growth must be >= 1")

/-- What the checks guarantee. -/
theorem postInit_eq_ok {policy : ErrorControlledDt} :
    policy.postInit = .ok () ↔
      (0 < policy.dtInit ∧ 0 < policy.rtol ∧ 0 < policy.atol ∧ 0 < policy.dtMin ∧ 0 < policy.dtMax ∧
        0 < policy.shrink ∧ 0 < policy.growth) ∧ 0 < policy.maxRejections ∧
      (policy.dtMin ≤ policy.dtInit ∧ policy.dtInit ≤ policy.dtMax) ∧ policy.shrink < 1 ∧
        1 ≤ policy.growth := by
  simp only [postInit, positiveFloat, bind_eq_ok, raiseIf_eq_ok, exists_const, not_le,
    not_lt, not_or, ge_iff_le, gt_iff_lt]
  tauto

end ErrorControlledDt

/-- A policy that passed the checks of its constructor. -/
abbrev Policy := { policy : ErrorControlledDt // policy.postInit = .ok () }

end Pops.Stepping
