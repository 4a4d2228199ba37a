import Pops.Runtime.Program.FluxCombination
import Pops.Foundation.LinearUpdates

/-!
# Flux provenance follows the arithmetic

Every operation of an attempt updates the cell values with machine numbers, and the expressions with
polynomials in `dt` that stand for these numbers.  After any run the expression of a field is the
combination of the initial expressions by the recorded polynomials, along the updates that the
kernels applied to the values.

A polynomial stands for a factor when its value at `dt`, computed by the machine, is the factor.
Polynomials of numeric factors are exact; a polynomial given as metadata is rounded when it is
evaluated, so that its exact value at `dt` is near the factor only.

## Main definitions

* `Pops.TakesFactor`, `FluxOperation.Records` — how recorded coefficients stand for factors.
* `Pops.FluxStep`, `returned` — the operations of a run that returned.
* `Pops.FluxStep.Exact` — the recorded coefficients take exactly the factors' values at `dt`.

## Main results

* `Pops.exactBinaryRational_spec` — from a machine number to its fraction and back.
* `Pops.FluxOperation.execute_spec`, `afterOperations_spec` — one operation, and a run.
* `Pops.fluxProvenance_run` — runs of an attempt.
-/

namespace Pops

open Polynomial ExactPolynomial

/-! ## Machine numbers and fractions -/

/-- A returned fraction is the canonical form of the quotient, and its denominator divides the
given one. -/
theorem Rational.create_spec {n d : ℤ} {r : Rational} (hd : d ≠ 0)
    (h : Rational.create n d = .ok r) :
    r.Canonical ∧ r.toRat = n / d ∧ r.denominator ∣ d := by
  have hcanonical := Rational.create_canonical h
  have hvalue := (Rational.create_exact n hd).eq_ok h
  refine ⟨hcanonical, hvalue, ?_⟩
  obtain ⟨-, hden⟩ := num_den_of_coprime hcanonical.denominator_pos hcanonical.coprime
  rw [toRat] at hvalue
  rw [← hden, hvalue, ← Rat.divInt_eq_div]
  exact Rat.den_dvd n d

/-- A magnitude that is a quotient, with the sign of the number. -/
lemma Rational.create_signed {x : ℚ} {n d : ℤ} {r : Rational} (hd : d ≠ 0) (hx : |x| = n / d)
    (h : Rational.create (if x < 0 then -n else n) d = .ok r) :
    r.Canonical ∧ r.toRat = x ∧ r.denominator ∣ d := by
  obtain ⟨hcanonical, htoRat, hdvd⟩ := create_spec hd h
  refine ⟨hcanonical, htoRat.trans ?_, hdvd⟩
  split_ifs with hneg
  · rw [Int.cast_neg, neg_div, ← hx, abs_of_neg hneg, neg_neg]
  · rw [← hx, abs_of_nonneg (not_lt.mp hneg)]

/-- The fraction of a machine number is its value, over a power of two. -/
lemma exactBinaryRational_eq_ok {value : Double} {r : Rational}
    (h : exactBinaryRational value = .ok r) :
    r.Canonical ∧ value.value = some r.toRat ∧ r.denominator ∣ 2 ^ 62 := by
  unfold exactBinaryRational at h
  cases hvalue : value.value with
  | none =>
    rw [hvalue] at h
    cases h
  | some x =>
    rw [hvalue] at h
    suffices hspec : r.Canonical ∧ r.toRat = x ∧ r.denominator ∣ 2 ^ 62 by
      obtain ⟨hcanonical, htoRat, hdvd⟩ := hspec
      exact ⟨hcanonical, congrArg some htoRat.symm, hdvd⟩
    by_cases hzero : x = 0
    · simp only [if_pos hzero] at h
      obtain ⟨hcanonical, htoRat, hdvd⟩ := Rational.create_spec one_ne_zero h
      refine ⟨hcanonical, ?_, hdvd.trans (one_dvd _)⟩
      rw [htoRat, hzero]
      simp
    · have hmantissa : |x| = (⌊(Double.frexp x).1 * 2 ^ digits⌋₊ : ℕ) *
          2 ^ ((Double.frexp x).2 - digits) :=
        Double.exists_mantissa (Double.representable_of_value hvalue) hzero
      simp only [if_neg hzero] at h
      generalize ⌊(Double.frexp x).1 * 2 ^ digits⌋₊ = mantissa at h hmantissa
      generalize (Double.frexp x).2 - digits = binaryPower at h hmantissa
      by_cases hpower : 0 ≤ binaryPower
      · -- an integer
        simp only [if_pos hpower, bind_eq_ok, throwIf_eq_ok] at h
        obtain ⟨-, -, hcreate⟩ := h
        obtain ⟨k, rfl⟩ := Int.eq_ofNat_of_zero_le hpower
        obtain ⟨hcanonical, htoRat, hdvd⟩ := Rational.create_signed one_ne_zero
          (by rw [hmantissa]; simp) hcreate
        exact ⟨hcanonical, htoRat, hdvd.trans (one_dvd _)⟩
      · -- a fraction
        simp only [if_neg hpower, bind_eq_ok, throwIf_eq_ok] at h
        obtain ⟨-, hsmall, hcreate⟩ := h
        obtain ⟨k, hk⟩ := Int.eq_ofNat_of_zero_le (a := -binaryPower) (by omega)
        obtain rfl : binaryPower = -(k : ℤ) := by omega
        obtain ⟨hcanonical, htoRat, hdvd⟩ := Rational.create_signed (by positivity)
          (by rw [hmantissa]; simp [div_eq_mul_inv]) hcreate
        refine ⟨hcanonical, htoRat, hdvd.trans (pow_dvd_pow 2 ?_)⟩
        omega

/-- The quotient of the fraction of a machine number gives the number back.

**Proof sketch.** The denominator is a power of two, so that the numerator has the significant bits
of the number: both are represented exactly, and so is their quotient. -/
theorem exactBinaryRational_spec {value : Double} {r : Rational}
    (h : exactBinaryRational value = .ok r) :
    r.Canonical ∧ value.value = some r.toRat ∧ r.value = value := by
  obtain ⟨hcanonical, hvalue, hdvd⟩ := exactBinaryRational_eq_ok h
  refine ⟨hcanonical, hvalue, ?_⟩
  have hrepresentable := Double.representable_of_value hvalue
  obtain ⟨j, hj, hden⟩ : ∃ j ≤ 62, r.denominator = 2 ^ j := by
    obtain ⟨d, hd⟩ := Int.eq_ofNat_of_zero_le hcanonical.denominator_pos.le
    rw [hd] at hdvd ⊢
    obtain ⟨j, hj, rfl⟩ := (Nat.dvd_prime_pow Nat.prime_two).mp (by exact_mod_cast hdvd)
    exact ⟨j, hj, by push_cast; rfl⟩
  have hnumerator : (r.numerator : ℚ) = r.toRat * 2 ^ j := by
    rw [Rational.toRat, hden]
    push_cast
    field_simp
  have hnum : SignificantBits.Representable (r.numerator : ℚ) := by
    obtain ⟨m, e, hm, he, hx, -⟩ := hrepresentable
    refine ⟨m, e + j, hm, by omega, ?_, ?_⟩
    · rw [hnumerator, hx, mul_assoc, ← zpow_natCast, ← zpow_add₀ two_ne_zero]
    · have hint64 := hcanonical.numerator_isInt64
      have hbound : |r.numerator| ≤ 2 ^ 63 := by
        simp only [IsInt64, int64Min, int64Max] at hint64
        rw [abs_le]
        omega
      calc |(r.numerator : ℚ)| ≤ 2 ^ 63 := by exact_mod_cast hbound
        _ < 2 ^ 1024 := pow_lt_pow_right₀ one_lt_two (by norm_num)
  have hdenominator : SignificantBits.Representable (r.denominator : ℚ) := by
    refine ⟨1, j, by norm_num, by omega, by rw [hden]; simp, ?_⟩
    rw [hden]
    push_cast
    rw [abs_of_pos (by positivity)]
    exact pow_lt_pow_right₀ one_lt_two (by omega)
  have hne : (r.denominator : ℚ) ≠ 0 := Int.cast_ne_zero.mpr hcanonical.denominator_pos.ne'
  refine Double.eq_of_value ?_ hvalue
  exact Double.value_div (Double.value_ofRat hnum) (Double.value_ofRat hdenominator) hne
    hrepresentable

/-! ## Coefficients of operations -/

/-- A polynomial stands for a factor: its value at `dt`, computed by the machine, is the factor. -/
def TakesFactor (dt : Double) (p : ExactPolynomial) (factor : Double) : Prop :=
  (evaluateExactPolynomial p dt).equal factor = true

/-- A constant takes the number of its fraction. -/
lemma takesFactor_constant {dt factor : Double} {r : Rational} {x : ℚ}
    (hvalue : factor.value = some x) (hr : r.value = factor) :
    TakesFactor dt [(0, r)] factor := by
  have hone : r.value * Double.ofRat 1 = factor := by
    rw [hr]
    exact Double.mul_one_of_value hvalue
  have hevaluate : evaluateExactPolynomial [(0, r)] dt = factor := by
    show Double.ofInt 0 + r.value * Double.ofInt 1 = factor
    rw [Double.ofInt, Double.ofInt, Int.cast_zero, Int.cast_one, hone]
    exact Double.zero_add_of_value hvalue
  rw [TakesFactor, hevaluate]
  exact Double.equal_self hvalue

/-- A multiple of `dt` takes the product of the number of its fraction and `dt`. -/
lemma takesFactor_linear {dt factor quotient : Double} {r : Rational} {x t : ℚ}
    (hvalue : factor.value = some x) (hdt : dt.value = some t) (hr : r.value = quotient)
    (hproduct : (quotient * dt).equal factor = true) :
    TakesFactor dt [(1, r)] factor := by
  have hfactor : quotient * dt = factor := Double.eq_of_equal hproduct
  have hevaluate : evaluateExactPolynomial [(1, r)] dt = factor := by
    show Double.ofInt 0 + r.value * (Double.ofInt 1 * dt) = factor
    rw [Double.ofInt, Double.ofInt, Int.cast_zero, Int.cast_one, Double.one_mul_of_value hdt, hr,
      hfactor]
    exact Double.zero_add_of_value hvalue
  rw [TakesFactor, hevaluate]
  exact Double.equal_self hvalue

/-- A preparation that the ranks agree on returned its own result. -/
lemma eq_ok_of_collectively {ι φ β α : Type} {env : FluxEnvironment φ β}
    {s : FluxContext ι φ β} {peerFails : Bool} {build : Throws α}
    {failure : String} {result : α}
    (h : prepareFluxMetadataCollectively env s peerFails build failure = .ok result) :
    build = .ok result := by
  unfold prepareFluxMetadataCollectively at h
  cases build with
  | ok r =>
    simp only at h
    split_ifs at h <;> exact h
  | error e =>
    simp only at h
    split_ifs at h

/-- The polynomial that exact metadata states. -/
noncomputable def metadataPolynomial (terms : List ExactCoefficientTerm) : ℚ[X] :=
  (terms.map fun term => monomial term.dtPower.toNat ((term.numerator : ℚ) / term.denominator)).sum

section Operations

variable {ι φ β : Type} {env : FluxEnvironment φ β} {s : FluxContext ι φ β}

/-- A coefficient with exact metadata is well formed, is the polynomial of the metadata, and stands
for the numeric factor. -/
lemma exactCoefficient_spec {peerFails : Bool} {factor referenceDt : Double}
    {terms : List ExactCoefficientTerm} {p : ExactPolynomial}
    (h : exactCoefficient env s peerFails factor referenceDt terms = .ok p) :
    p.WellFormed ∧ TakesFactor s.dt p factor ∧ p.toPolynomial = metadataPolynomial terms := by
  have h' := eq_ok_of_collectively h
  simp only [exactCoefficientUnchecked, bind_eq_ok, throwIf_eq_ok, pure_eq_ok, not_or, not_not]
    at h'
  obtain ⟨-, ⟨-, -, hdt⟩, q, hq, -, hvalue, rfl⟩ := h'
  have hinv : q.WellFormed ∧ q.toPolynomial = metadataPolynomial terms := by
    refine foldlM_invariant (P := fun done (acc : ExactPolynomial) => acc.WellFormed ∧
      acc.toPolynomial = metadataPolynomial done) hq
      ⟨wellFormed_nil, by simp [toPolynomial, metadataPolynomial]⟩ ?_
    intro done term rest acc acc' _ hacc hstep
    simp only [bind_eq_ok, throwIf_eq_ok, not_or, not_not, not_lt, not_le] at hstep
    obtain ⟨-, ⟨hpower, hdenominator⟩, coefficient, hcoefficient, -, -, hadd⟩ := hstep
    obtain ⟨hcanonical, htoRat, -⟩ := Rational.create_spec hdenominator.ne' hcoefficient
    obtain ⟨hwf, hpoly⟩ := addTerm_spec hacc.1 hpower hcanonical hadd
    refine ⟨hwf, ?_⟩
    rw [hpoly, hacc.2, htoRat]
    simp [metadataPolynomial]
  obtain ⟨hnormal, hpoly⟩ := eraseZeroTerms_spec hinv.1
  exact ⟨hnormal.toWellFormed, Double.eq_of_equal hdt ▸ hvalue, hpoly.trans hinv.2⟩

/-- The polynomial of a numeric factor is the constant of its exact value. -/
lemma exactRuntimeCoefficient_spec (hactive : s.active = true) {peerFails : Bool}
    {factor : Double} {p : ExactPolynomial}
    (h : exactRuntimeCoefficient env s peerFails factor = .ok p) :
    p.WellFormed ∧ TakesFactor s.dt p factor ∧
      ∃ x, factor.value = some x ∧ p.toPolynomial = C x := by
  have h' := eq_ok_of_collectively h
  simp only [hactive, Bool.true_eq_false, if_false, bind_eq_ok, pure_eq_ok] at h'
  obtain ⟨r, hr, rfl⟩ := h'
  obtain ⟨hcanonical, hvalue, hnumber⟩ := exactBinaryRational_spec hr
  refine ⟨wellFormed_singleton le_rfl hcanonical, takesFactor_constant hvalue hnumber, r.toRat,
    hvalue, ?_⟩
  rw [toPolynomial_singleton]
  rfl

/-- The polynomial of a numeric factor as a multiple of `dt`: the exact value of the quotient by
`dt`.  It is left out when there is nothing to scale. -/
lemma exactRuntimeAxpyCoefficient_spec (hactive : s.active = true) {peerFails : Bool}
    {factor : Double} {source : φ} {p : ExactPolynomial}
    (h : exactRuntimeAxpyCoefficient env s peerFails factor source = .ok p) :
    p.WellFormed ∧ (s.expressions source = [] ∧ p = [] ∨ TakesFactor s.dt p factor ∧
      ∃ x, (factor / s.dt).value = some x ∧ p.toPolynomial = monomial 1 x) := by
  have h' := eq_ok_of_collectively h
  simp only [hactive, Bool.true_eq_false, false_or, activeFluxExpression, if_false] at h'
  split_ifs at h' with hempty
  · obtain rfl := Except.ok.inj h'
    exact ⟨wellFormed_nil, .inl ⟨List.isEmpty_iff.mp hempty, rfl⟩⟩
  · simp only [bind_eq_ok, throwIf_eq_ok, pure_eq_ok, not_or, not_not] at h'
    obtain ⟨-, ⟨hfinite, -⟩, -, hquotient, r, hr, rfl⟩ := h'
    obtain ⟨hcanonical, hvalue, hnumber⟩ := exactBinaryRational_spec hr
    obtain ⟨t, ht⟩ := Option.isSome_iff_exists.mp hfinite
    obtain ⟨x, hx⟩ := Double.exists_value_of_div hvalue ht
    refine ⟨wellFormed_singleton (by decide) hcanonical,
      .inr ⟨takesFactor_linear hx ht hnumber hquotient, r.toRat, hvalue, ?_⟩⟩
    rw [toPolynomial_singleton]
    rfl

/-! ## One operation -/

variable [DecidableEq φ] [DecidableEq β]

namespace FluxOperation

/-- The update of the cell values that an operation performs. -/
def numericUpdate : FluxOperation φ → LinearUpdate Double φ
  | axpy destination factor source => .axpy destination factor source
  | axpyExact destination factor source _ _ => .axpy destination factor source
  | lincomb destination leftFactor left rightFactor right =>
    .lincomb destination leftFactor left rightFactor right
  | lincombExact destination leftFactor left rightFactor right _ _ _ =>
    .lincomb destination leftFactor left rightFactor right
  | copy source destination => .copy source destination

/-- The update of the formal combinations by an operation with the given exact coefficients. -/
noncomputable def formalUpdate (coefficients : ExactPolynomial × ExactPolynomial) :
    FluxOperation φ → LinearUpdate ℚ[X] φ
  | axpy destination _ source => .axpy destination coefficients.1.toPolynomial source
  | axpyExact destination _ source _ _ => .axpy destination coefficients.1.toPolynomial source
  | lincomb destination _ left _ right =>
    .lincomb destination coefficients.1.toPolynomial left coefficients.2.toPolynomial right
  | lincombExact destination _ left _ right _ _ _ =>
    .lincomb destination coefficients.1.toPolynomial left coefficients.2.toPolynomial right
  | copy source destination => .copy source destination

/-- How the exact coefficients of an operation stand for its factors.  An `axpy` with a numeric
factor records nothing when its source has the empty expression, and a multiple of `dt` otherwise;
a `lincomb` with numeric factors records their exact values; metadata is recorded as it is. -/
def Records (s : FluxContext ι φ β) (coefficients : ExactPolynomial × ExactPolynomial) :
    FluxOperation φ → Prop
  | axpy _ factor source =>
    s.expressions source = [] ∧ coefficients.1 = [] ∨ TakesFactor s.dt coefficients.1 factor ∧
      ∃ x, (factor / s.dt).value = some x ∧ coefficients.1.toPolynomial = monomial 1 x
  | axpyExact _ factor _ _ terms =>
    TakesFactor s.dt coefficients.1 factor ∧
      coefficients.1.toPolynomial = metadataPolynomial terms
  | lincomb _ leftFactor _ rightFactor _ =>
    (TakesFactor s.dt coefficients.1 leftFactor ∧
      ∃ x, leftFactor.value = some x ∧ coefficients.1.toPolynomial = C x) ∧
    TakesFactor s.dt coefficients.2 rightFactor ∧
      ∃ x, rightFactor.value = some x ∧ coefficients.2.toPolynomial = C x
  | lincombExact _ leftFactor _ rightFactor _ _ leftTerms rightTerms =>
    (TakesFactor s.dt coefficients.1 leftFactor ∧
      coefficients.1.toPolynomial = metadataPolynomial leftTerms) ∧
    TakesFactor s.dt coefficients.2 rightFactor ∧
      coefficients.2.toPolynomial = metadataPolynomial rightTerms
  | copy _ _ => True

/-- At the exact value of the step the exact coefficients of an operation are exactly its factors.
-/
def Exact (s : FluxContext ι φ β) (coefficients : ExactPolynomial × ExactPolynomial) (dt : ℚ) :
    FluxOperation φ → Prop
  | axpy _ factor source =>
    s.expressions source = [] ∨ factor.value = some (coefficients.1.toPolynomial.eval dt)
  | axpyExact _ factor _ _ _ => factor.value = some (coefficients.1.toPolynomial.eval dt)
  | lincomb _ leftFactor _ rightFactor _ =>
    leftFactor.value = some (coefficients.1.toPolynomial.eval dt) ∧
      rightFactor.value = some (coefficients.2.toPolynomial.eval dt)
  | lincombExact _ leftFactor _ rightFactor _ _ _ _ =>
    leftFactor.value = some (coefficients.1.toPolynomial.eval dt) ∧
      rightFactor.value = some (coefficients.2.toPolynomial.eval dt)
  | copy _ _ => True

end FluxOperation

/-- What an update does to the cell values, in machine numbers. -/
def applyKernel (values : φ → ι → Double) : LinearUpdate Double φ → φ → ι → Double
  | .axpy destination factor source =>
    Function.update values destination (saxpyKernel factor (values destination) (values source))
  | .lincomb destination leftFactor left rightFactor right =>
    Function.update values destination
      (lincombKernel leftFactor rightFactor (values left) (values right))
  | .copy source destination => Function.update values destination (values source)

namespace FluxOperation

omit [DecidableEq β] in
/-- The kernel performs the update of the values. -/
lemma kernel_eq (op : FluxOperation φ) (s : FluxContext ι φ β) :
    op.kernel s = (.ok ⟨⟩, { s with values := applyKernel s.values op.numericUpdate }) := by
  cases op <;> rfl

/-- An operation that returned. -/
lemma execute_eq_ok {op : FluxOperation φ} {peers : Peers} {s t : FluxContext ι φ β}
    {u : PUnit} (h : op.execute env peers s = (.ok u, t)) :
    ∃ c update, op.coefficients env s peers = .ok c ∧
      op.prepareExpressions env s (peers 2) c = .ok update ∧
      t = { s with
        expressions := update.getD s.expressions
        values := applyKernel s.values op.numericUpdate } := by
  simp only [execute, Method.bind_eq_ok, Method.inspect_eq_ok, kernel_eq, Prod.mk.injEq]
    at h
  obtain ⟨-, s₁, ⟨-, rfl⟩, c, s₂, ⟨hc, rfl⟩, update, s₃, ⟨hupdate, rfl⟩, -, s₄, ⟨-, rfl⟩, h⟩ := h
  refine ⟨c, update, hc, hupdate, ?_⟩
  simp only [publishActiveFluxExpressionUpdate, Method.update_eq_ok] at h
  rw [← h]
  cases update <;> rfl

/-- An operation that throws leaves the attempt as it was. -/
lemma execute_atomic (op : FluxOperation φ) (peers : Peers) :
    (op.execute (ι := ι) env peers).Atomic := by
  unfold execute
  refine Method.Atomic.bind (Method.readOnly_inspect _) fun _ => ?_
  refine Method.Atomic.bind (Method.readOnly_inspect _) fun c => ?_
  refine Method.Atomic.bind (Method.readOnly_inspect _) fun update => ?_
  have hkernel : Method.Total (op.kernel (ι := ι) (β := β)) := by
    intro s
    rw [kernel_eq]
    exact ⟨⟨⟩, rfl⟩
  refine Method.Atomic.bind_total ?_ fun _ => Method.total_update _
  intro s e he
  rw [kernel_eq] at he
  cases he

/-- Every expression of the attempt is in normal form. -/
def NormalContext (env : FluxEnvironment φ β) (s : FluxContext ι φ β) : Prop :=
  ∀ field, (s.expressions field).Normal env.identity

omit [DecidableEq φ] [DecidableEq β] in
/-- The coefficients of an operation are well formed and stand for its factors. -/
lemma coefficients_spec (hactive : s.active = true) {op : FluxOperation φ} {peers : Peers}
    {c : ExactPolynomial × ExactPolynomial} (h : op.coefficients env s peers = .ok c) :
    (c.1.WellFormed ∧ c.2.WellFormed) ∧ op.Records s c := by
  cases op with
  | axpy destination factor source =>
    simp only [coefficients, bind_eq_ok, pure_eq_ok] at h
    obtain ⟨p, hp, rfl⟩ := h
    obtain ⟨hwf, hrecords⟩ := exactRuntimeAxpyCoefficient_spec hactive hp
    exact ⟨⟨hwf, wellFormed_nil⟩, hrecords⟩
  | axpyExact destination factor source referenceDt terms =>
    simp only [coefficients, bind_eq_ok, pure_eq_ok] at h
    obtain ⟨p, hp, rfl⟩ := h
    obtain ⟨hwf, hrecords⟩ := exactCoefficient_spec hp
    exact ⟨⟨hwf, wellFormed_nil⟩, hrecords⟩
  | lincomb destination leftFactor left rightFactor right =>
    simp only [coefficients, bind_eq_ok, pure_eq_ok] at h
    obtain ⟨p, hp, q, hq, rfl⟩ := h
    obtain ⟨hwf, hrecords⟩ := exactRuntimeCoefficient_spec hactive hp
    obtain ⟨hwf', hrecords'⟩ := exactRuntimeCoefficient_spec hactive hq
    exact ⟨⟨hwf, hwf'⟩, hrecords, hrecords'⟩
  | lincombExact destination leftFactor left rightFactor right referenceDt leftTerms rightTerms =>
    simp only [coefficients, bind_eq_ok, pure_eq_ok] at h
    obtain ⟨p, hp, q, hq, rfl⟩ := h
    obtain ⟨hwf, hrecords⟩ := exactCoefficient_spec hp
    obtain ⟨hwf', hrecords'⟩ := exactCoefficient_spec hq
    exact ⟨⟨hwf, hwf'⟩, hrecords, hrecords'⟩
  | copy source destination =>
    obtain rfl := Except.ok.inj h
    exact ⟨⟨wellFormed_nil, wellFormed_nil⟩, trivial⟩

omit [DecidableEq β] in
/-- The registry after an update of one field. -/
private lemma update_spec (hnormal : NormalContext env s) {destination : φ}
    {result : FluxExpression β} {combination : β →₀ ℚ[X]}
    (h : result.Normal env.identity ∧ result.formal = combination) :
    (∀ field, (Function.update s.expressions destination result field).Normal env.identity) ∧
      (fun field => (Function.update s.expressions destination result field).formal) =
        Function.update (fun field => (s.expressions field).formal) destination combination := by
  constructor
  · intro field
    by_cases hfield : field = destination
    · subst hfield
      rw [Function.update_self]
      exact h.1
    · rw [Function.update_of_ne hfield]
      exact hnormal field
  · funext field
    by_cases hfield : field = destination
    · subst hfield
      rw [Function.update_self, Function.update_self, h.2]
    · rw [Function.update_of_ne hfield, Function.update_of_ne hfield]

/-- The prepared registry of an operation is in normal form and records the update of the formal
combinations. -/
lemma prepareExpressions_spec (hactive : s.active = true) (hnormal : NormalContext env s)
    {op : FluxOperation φ} {peerFails : Bool} {c : ExactPolynomial × ExactPolynomial}
    (hc : c.1.WellFormed ∧ c.2.WellFormed) {update : FluxExpressionUpdate φ β}
    (h : op.prepareExpressions env s peerFails c = .ok update) :
    (∀ field, (update.getD s.expressions field).Normal env.identity) ∧
      (fun field => (update.getD s.expressions field).formal) =
        LinearUpdate.apply (fun field => (s.expressions field).formal) (op.formalUpdate c) := by
  have hread : ∀ field, activeFluxExpression s field = s.expressions field := by
    intro field
    simp [activeFluxExpression, hactive]
  have haxpy : ∀ {destination source : φ},
      prepareActiveAxpyFluxExpression env s peerFails destination source c.1 = .ok update →
      (∀ field, (update.getD s.expressions field).Normal env.identity) ∧
        (fun field => (update.getD s.expressions field).formal) =
          LinearUpdate.apply (fun field => (s.expressions field).formal)
            (.axpy destination c.1.toPolynomial source) := by
    intro destination source h
    simp only [prepareActiveAxpyFluxExpression, hactive, Bool.true_eq_false, if_false] at h
    have h' := eq_ok_of_collectively h
    simp only [hread, bind_eq_ok, pure_eq_ok] at h'
    obtain ⟨scaled, hscaled, result, hresult, -, -, rfl⟩ := h'
    have hscale := FluxExpression.scaled_spec (hnormal source) hc.1 hscaled
    obtain ⟨hres, hformal⟩ := FluxExpression.add_spec (hnormal destination) hscale.1 hresult
    exact update_spec hnormal ⟨hres, by rw [hformal, hscale.2]⟩
  have hlincomb : ∀ {destination left right : φ},
      prepareActiveLincombFluxExpression env s peerFails destination left c.1 right c.2 =
        .ok update →
      (∀ field, (update.getD s.expressions field).Normal env.identity) ∧
        (fun field => (update.getD s.expressions field).formal) =
          LinearUpdate.apply (fun field => (s.expressions field).formal)
            (.lincomb destination c.1.toPolynomial left c.2.toPolynomial right) := by
    intro destination left right h
    simp only [prepareActiveLincombFluxExpression, hactive, Bool.true_eq_false, if_false] at h
    have h' := eq_ok_of_collectively h
    simp only [hread, bind_eq_ok, pure_eq_ok] at h'
    obtain ⟨scaledLeft, hleft, scaledRight, hright, result, hresult, -, -, rfl⟩ := h'
    have hscaleLeft := FluxExpression.scaled_spec (hnormal left) hc.1 hleft
    have hscaleRight := FluxExpression.scaled_spec (hnormal right) hc.2 hright
    obtain ⟨hres, hformal⟩ := FluxExpression.add_spec hscaleLeft.1 hscaleRight.1 hresult
    exact update_spec hnormal ⟨hres, by rw [hformal, hscaleLeft.2, hscaleRight.2]⟩
  cases op with
  | axpy destination factor source => exact haxpy h
  | axpyExact destination factor source referenceDt terms => exact haxpy h
  | lincomb destination leftFactor left rightFactor right => exact hlincomb h
  | lincombExact destination leftFactor left rightFactor right referenceDt leftTerms rightTerms =>
    exact hlincomb h
  | copy source destination =>
    simp only [prepareExpressions, copyActiveFluxExpression, hactive, Bool.true_eq_false, if_false]
      at h
    have h' := eq_ok_of_collectively h
    obtain rfl := Except.ok.inj h'
    rw [hread]
    exact update_spec hnormal ⟨hnormal source, rfl⟩

/-- What the cell values would be updated by with exact arithmetic. -/
def exactUpdate (op : FluxOperation φ) : LinearUpdate ℚ φ :=
  op.numericUpdate.map fun factor => factor.value.getD 0

omit [DecidableEq β] in
/-- Where the coefficients are exactly the factors, the formal update, read at the step, is the
update of the values. -/
lemma evaluate_formalUpdate {c : ExactPolynomial × ExactPolynomial} {dt : ℚ}
    {op : FluxOperation φ} (h : op.Exact s c dt) :
    (fun field => FluxExpression.evaluate dt
      (LinearUpdate.apply (fun field => (s.expressions field).formal) (op.formalUpdate c) field)) =
      LinearUpdate.apply (fun field => (s.expressions field).readAt dt) op.exactUpdate := by
  have haxpy : ∀ {destination source : φ} {p : ExactPolynomial} {factor : Double},
      (s.expressions source = [] ∨ factor.value = some (p.toPolynomial.eval dt)) →
      (fun field => FluxExpression.evaluate dt
        (LinearUpdate.apply (fun field => (s.expressions field).formal)
          (.axpy destination p.toPolynomial source) field)) =
        LinearUpdate.apply (fun field => (s.expressions field).readAt dt)
          (.axpy destination (factor.value.getD 0) source) := by
    intro destination source p factor hvalue
    funext field
    simp only [LinearUpdate.apply, FluxExpression.readAt_eq_evaluate]
    by_cases hfield : field = destination
    · subst hfield
      rw [Function.update_self, Function.update_self, map_add, FluxExpression.evaluate_smul]
      rcases hvalue with hempty | hvalue
      · -- nothing is added on either side
        have hzero : (s.expressions source).formal = 0 := by
          rw [hempty]
          simp [FluxExpression.formal]
        simp [hzero]
      · rw [hvalue, Option.getD_some]
    · rw [Function.update_of_ne hfield, Function.update_of_ne hfield]
  have hlincomb : ∀ {destination left right : φ} {p q : ExactPolynomial}
      {factor factor' : Double}, factor.value = some (p.toPolynomial.eval dt) →
      factor'.value = some (q.toPolynomial.eval dt) →
      (fun field => FluxExpression.evaluate dt
        (LinearUpdate.apply (fun field => (s.expressions field).formal)
          (.lincomb destination p.toPolynomial left q.toPolynomial right) field)) =
        LinearUpdate.apply (fun field => (s.expressions field).readAt dt)
          (.lincomb destination (factor.value.getD 0) left (factor'.value.getD 0) right) := by
    intro destination left right p q factor factor' hp hq
    funext field
    simp only [LinearUpdate.apply, FluxExpression.readAt_eq_evaluate]
    by_cases hfield : field = destination
    · subst hfield
      rw [Function.update_self, Function.update_self, map_add, FluxExpression.evaluate_smul,
        FluxExpression.evaluate_smul, hp, hq, Option.getD_some, Option.getD_some]
    · rw [Function.update_of_ne hfield, Function.update_of_ne hfield]
  cases op with
  | axpy destination factor source => exact haxpy h
  | axpyExact destination factor source referenceDt terms => exact haxpy (.inr h)
  | lincomb destination leftFactor left rightFactor right => exact hlincomb h.1 h.2
  | lincombExact destination leftFactor left rightFactor right referenceDt leftTerms rightTerms =>
    exact hlincomb h.1 h.2
  | copy source destination =>
    funext field
    simp only [formalUpdate, exactUpdate, numericUpdate, LinearUpdate.map, LinearUpdate.apply,
      FluxExpression.readAt_eq_evaluate]
    by_cases hfield : field = destination
    · subst hfield
      rw [Function.update_self, Function.update_self]
    · rw [Function.update_of_ne hfield, Function.update_of_ne hfield]

/-- **One operation.**  An operation that returned updates the values by its factors, and the formal
combinations by coefficients that stand for these factors. -/
theorem execute_spec (hactive : s.active = true) (hnormal : NormalContext env s)
    {op : FluxOperation φ} {peers : Peers} {t : FluxContext ι φ β} {u : PUnit}
    (h : op.execute env peers s = (.ok u, t)) :
    (t.active = true ∧ t.dt = s.dt ∧ NormalContext env t) ∧
      t.values = applyKernel s.values op.numericUpdate ∧
      ∃ c, op.coefficients env s peers = .ok c ∧ op.Records s c ∧
        (fun field => (t.expressions field).formal) =
          LinearUpdate.apply (fun field => (s.expressions field).formal) (op.formalUpdate c) := by
  obtain ⟨c, update, hc, hupdate, rfl⟩ := execute_eq_ok h
  obtain ⟨hwf, hrecords⟩ := coefficients_spec hactive hc
  obtain ⟨hnormal', hformal⟩ := prepareExpressions_spec hactive hnormal hwf hupdate
  exact ⟨⟨hactive, rfl, hnormal'⟩, rfl, c, hc, hrecords, hformal⟩

end FluxOperation

/-! ## Runs -/

/-- The state after a sequence of operations, some of which may throw. -/
def afterOperations (env : FluxEnvironment φ β) :
    List (FluxOperation φ × Peers) → FluxContext ι φ β → FluxContext ι φ β
  | [], s => s
  | (op, peers) :: rest, s => afterOperations env rest (op.execute env peers s).2

/-- An operation that returned, with the state before it and the exact coefficients that it
recorded. -/
structure FluxStep (ι φ β : Type) where
  before : FluxContext ι φ β
  operation : FluxOperation φ
  coefficients : ExactPolynomial × ExactPolynomial

namespace FluxStep

/-- The update of the cell values. -/
def numericUpdate (step : FluxStep ι φ β) : LinearUpdate Double φ := step.operation.numericUpdate

/-- The update of the cell values with exact arithmetic. -/
def exactUpdate (step : FluxStep ι φ β) : LinearUpdate ℚ φ := step.operation.exactUpdate

/-- The update of the formal combinations. -/
noncomputable def formalUpdate (step : FluxStep ι φ β) : LinearUpdate ℚ[X] φ :=
  step.operation.formalUpdate step.coefficients

/-- The recorded coefficients stand for the factors. -/
def Records (step : FluxStep ι φ β) : Prop := step.operation.Records step.before step.coefficients

/-- The recorded coefficients are exactly the factors at `dt`. -/
def Exact (step : FluxStep ι φ β) (dt : ℚ) : Prop :=
  step.operation.Exact step.before step.coefficients dt

end FluxStep

/-- The operations of a sequence that return. -/
def returned (env : FluxEnvironment φ β) :
    List (FluxOperation φ × Peers) → FluxContext ι φ β → List (FluxStep ι φ β)
  | [], _ => []
  | (op, peers) :: rest, s =>
    match op.coefficients env s peers with
    | .ok c =>
      if (op.execute env peers s).1.isOk then
        ⟨s, op, c⟩ :: returned env rest (op.execute env peers s).2
      else returned env rest (op.execute env peers s).2
    | .error _ => returned env rest (op.execute env peers s).2

/-- A sequence whose first operation returns. -/
lemma returned_cons {op : FluxOperation φ} {peers : Peers}
    {rest : List (FluxOperation φ × Peers)} {t : FluxContext ι φ β} {u : PUnit}
    {c : ExactPolynomial × ExactPolynomial} (h : op.execute env peers s = (.ok u, t))
    (hc : op.coefficients env s peers = .ok c) :
    returned env ((op, peers) :: rest) s = ⟨s, op, c⟩ :: returned env rest t := by
  simp [returned, h, hc, Except.isOk, Except.toBool]

/-- A sequence whose first operation throws. -/
lemma returned_cons_error {op : FluxOperation φ} {peers : Peers}
    {rest : List (FluxOperation φ × Peers)} {t : FluxContext ι φ β} {e : Exception}
    (h : op.execute env peers s = (.error e, t)) :
    returned env ((op, peers) :: rest) s = returned env rest t := by
  simp only [returned, h]
  cases op.coefficients env s peers <;> simp [Except.isOk, Except.toBool]

/-- **Runs of operations.**  After a sequence of operations the values are those of the kernels, and
the formal combinations those of the recorded coefficients, which stand for the factors. -/
theorem afterOperations_spec (operations : List (FluxOperation φ × Peers))
    (hactive : s.active = true) (hnormal : FluxOperation.NormalContext env s) :
    FluxOperation.NormalContext env (afterOperations env operations s) ∧
      (afterOperations env operations s).values =
        ((returned env operations s).map FluxStep.numericUpdate).foldl applyKernel s.values ∧
      (∀ step ∈ returned env operations s, step.before.dt = s.dt ∧ step.Records) ∧
      (fun field => ((afterOperations env operations s).expressions field).formal) =
        LinearUpdate.run ((returned env operations s).map FluxStep.formalUpdate)
          (fun field => (s.expressions field).formal) := by
  induction operations generalizing s with
  | nil => exact ⟨hnormal, rfl, by simp [returned], rfl⟩
  | cons head rest ih =>
    obtain ⟨op, peers⟩ := head
    rcases hstep : op.execute env peers s with ⟨_ | u, t⟩
    · -- the operation threw and left everything
      rename_i e
      have hsame : t = s := by
        have := op.execute_atomic peers s e (by rw [hstep])
        rwa [hstep] at this
      subst hsame
      rw [returned_cons_error hstep]
      simpa only [afterOperations, hstep] using ih hactive hnormal
    · obtain ⟨⟨hactive', hdt, hnormal'⟩, hvalues, c, hc, hrecords, hformal⟩ :=
        op.execute_spec hactive hnormal hstep
      obtain ⟨h₁, h₂, h₃, h₄⟩ := ih hactive' hnormal'
      rw [returned_cons hstep hc]
      simp only [afterOperations, hstep]
      refine ⟨h₁, ?_, ?_, ?_⟩
      · rw [h₂, hvalues]
        rfl
      · intro step hmem
        rcases List.mem_cons.mp hmem with rfl | hmem
        · exact ⟨rfl, hrecords⟩
        · obtain ⟨hdt', hrecords'⟩ := h₃ step hmem
          exact ⟨hdt'.trans hdt, hrecords'⟩
      · rw [h₄, hformal]
        rfl

/-- Where all coefficients are exactly the factors, the combinations at the step are those of the
factors. -/
lemma afterOperations_exact {dt : ℚ} (operations : List (FluxOperation φ × Peers))
    (hactive : s.active = true) (hnormal : FluxOperation.NormalContext env s)
    (h : ∀ step ∈ returned env operations s, step.Exact dt) :
    (fun field => ((afterOperations env operations s).expressions field).readAt dt) =
      LinearUpdate.run ((returned env operations s).map FluxStep.exactUpdate)
        (fun field => (s.expressions field).readAt dt) := by
  induction operations generalizing s with
  | nil => rfl
  | cons head rest ih =>
    obtain ⟨op, peers⟩ := head
    rcases hstep : op.execute env peers s with ⟨_ | u, t⟩
    · rename_i e
      have hsame : t = s := by
        have := op.execute_atomic peers s e (by rw [hstep])
        rwa [hstep] at this
      subst hsame
      rw [returned_cons_error hstep] at h ⊢
      simpa only [afterOperations, hstep] using ih hactive hnormal h
    · obtain ⟨⟨hactive', -, hnormal'⟩, -, c, hc, -, hformal⟩ :=
        op.execute_spec hactive hnormal hstep
      rw [returned_cons hstep hc] at h ⊢
      have hexact : op.Exact s c dt := h _ List.mem_cons_self
      have hread : (fun field => (t.expressions field).readAt dt) =
          LinearUpdate.apply (fun field => (s.expressions field).readAt dt) op.exactUpdate := by
        rw [← FluxOperation.evaluate_formalUpdate hexact, ← hformal]
        funext field
        exact FluxExpression.readAt_eq_evaluate dt _
      simp only [afterOperations, hstep]
      rw [ih hactive' hnormal' fun step hmem => h step (List.mem_cons_of_mem _ hmem), hread]
      rfl

omit [DecidableEq φ] [DecidableEq β] in
/-- The expression of a single basis is in normal form. -/
lemma normal_basisExpression (env : FluxEnvironment φ β) (b : β) :
    (basisExpression env b).Normal env.identity := by
  have hone : (⟨1, 1⟩ : Rational).Canonical := ExactRational.one.canonical
  refine ⟨List.pairwise_singleton _ _, ?_, ?_, ?_⟩
  · simp [basisExpression]
  · simp only [basisExpression, List.mem_singleton, forall_eq]
    exact ⟨wellFormed_singleton le_rfl hone, by simp⟩
  · simp [basisExpression]

/-- **Flux provenance follows the arithmetic.**  Take an attempt whose fields start with the empty
expression or a single basis, and any sequence of operations.  Every operation that returns updates
the cell values by its factors, and records polynomials in `dt` that stand for these factors.  The
expression of a field is the combination of the initial expressions by the recorded polynomials, as
polynomials and read at any step; where the recorded polynomials are exactly the factors at `dt`, it
is, read at `dt`, the combination that the kernels apply to the values.  No recorded coefficient is
empty or has a zero term; two sequences whose combinations agree as polynomials in `dt` record equal
expressions; and an operation that throws leaves all expressions.

**Proof sketch.** One operation updates the formal combinations by its coefficients, so a run does;
cells under linear updates are combinations of the initial ones.  Recorded expressions stay in
normal form, and a normal form is determined by its formal combination. -/
theorem fluxProvenance_run (env : FluxEnvironment φ β) (s : FluxContext ι φ β)
    (hactive : s.active = true)
    (hstart : ∀ field, s.expressions field = [] ∨ ∃ b, s.expressions field = basisExpression env b)
    (operations : List (FluxOperation φ × Peers)) :
    (afterOperations env operations s).values =
      ((returned env operations s).map FluxStep.numericUpdate).foldl applyKernel s.values ∧
    (∀ step ∈ returned env operations s, step.before.dt = s.dt ∧ step.Records) ∧
    (∀ field, ((afterOperations env operations s).expressions field).formal =
      (LinearUpdate.combination ((returned env operations s).map FluxStep.formalUpdate) field).sum
        fun initial coefficient => coefficient • (s.expressions initial).formal) ∧
    (∀ dt field, ((afterOperations env operations s).expressions field).readAt dt =
      (LinearUpdate.combination ((returned env operations s).map FluxStep.formalUpdate) field).sum
        fun initial coefficient => coefficient.eval dt • (s.expressions initial).readAt dt) ∧
    (∀ dt, (∀ step ∈ returned env operations s, step.Exact dt) →
      ∀ field, ((afterOperations env operations s).expressions field).readAt dt =
        (LinearUpdate.combination ((returned env operations s).map FluxStep.exactUpdate) field).sum
          fun initial factor => factor • (s.expressions initial).readAt dt) ∧
    (∀ field, ∀ entry ∈ (afterOperations env operations s).expressions field,
      entry.2.coefficient ≠ [] ∧ ∀ term ∈ entry.2.coefficient, term.2.numerator ≠ 0) ∧
    (∀ operations' field field',
      LinearUpdate.combination ((returned env operations s).map FluxStep.formalUpdate) field =
        LinearUpdate.combination ((returned env operations' s).map FluxStep.formalUpdate) field' →
      (afterOperations env operations s).expressions field =
        (afterOperations env operations' s).expressions field') ∧
    (∀ (op : FluxOperation φ) peers e,
      (op.execute env peers (afterOperations env operations s)).1 = .error e →
      (op.execute env peers (afterOperations env operations s)).2.expressions =
        (afterOperations env operations s).expressions) := by
  have hnormal : FluxOperation.NormalContext env s := by
    intro field
    rcases hstart field with h | ⟨b, h⟩
    · rw [h]
      exact FluxExpression.normal_nil env.identity
    · rw [h]
      exact normal_basisExpression env b
  obtain ⟨hnormal', hvalues, hrecords, hformal⟩ := afterOperations_spec operations hactive hnormal
  have hcombination : ∀ field, ((afterOperations env operations s).expressions field).formal =
      (LinearUpdate.combination ((returned env operations s).map FluxStep.formalUpdate) field).sum
        fun initial coefficient => coefficient • (s.expressions initial).formal := by
    intro field
    rw [congrFun hformal field, LinearUpdate.run_eq_combination]
  refine ⟨hvalues, hrecords, hcombination, fun dt field => ?_, fun dt hexact field => ?_,
    fun field entry hentry => ?_, ?_, ?_⟩
  · simp only [FluxExpression.readAt_eq_evaluate, hcombination field, Finsupp.sum, map_sum,
      FluxExpression.evaluate_smul]
  · rw [congrFun (afterOperations_exact operations hactive hnormal hexact) field,
      LinearUpdate.run_eq_combination]
  · exact ⟨(hnormal' field).coefficient_ne_nil entry hentry,
      ((hnormal' field).coefficient_normal entry hentry).numerator_ne_zero⟩
  · intro operations' field field' heq
    obtain ⟨hother, -, -, hformal'⟩ := afterOperations_spec operations' hactive hnormal
    apply (hnormal' field).ext (hother field')
    rw [congrFun hformal field, congrFun hformal' field', LinearUpdate.run_eq_combination,
      LinearUpdate.run_eq_combination, heq]
  · intro op peers e he
    rw [op.execute_atomic peers _ e he]

end Operations

/-! ## An example -/

/-- An environment with one basis of one block. -/
def exampleEnvironment : FluxEnvironment Bool Unit where
  identity _ := 1
  runtimeBlock _ := 0
  rhsBasisBounds := [4]
  coefficientTermBounds := [4]
  requireSameFieldContract _ _ _ := .ok ()
  laneSize := 1

/-- An attempt with the given step, and one cell, in which one of two fields is evaluated. -/
def exampleContext (dt : Double) : FluxContext Unit Bool Unit where
  active := true
  dt := dt
  expressions field := if field then basisExpression exampleEnvironment () else []
  values field _ := if field then Double.ofInt 3 else Double.ofInt 0

/-- The step one half. -/
def halfStep : Double := Double.ofRat (1 / 2)

/-- The step nearest to one tenth. -/
def tenthStep : Double := Double.ofRat (1 / 10)

/-- Half of the evaluated field, with the numeric factor one half. -/
def halfRuntime : FluxOperation Bool × Peers :=
  (.lincomb false halfStep true (Double.ofInt 0) true, fun _ => false)

/-- Half of the evaluated field, with the exact factor `dt`. -/
def halfExact : FluxOperation Bool × Peers :=
  (.lincombExact false halfStep true (Double.ofInt 0) true halfStep [⟨1, 1, 1⟩] [], fun _ => false)

/-- A sixth of the step times the evaluated field, as the machine computes it. -/
def sixthOfStep : FluxOperation Bool × Peers :=
  (.axpyExact false (Double.ofRat (1 / 6) * tenthStep) true tenthStep [⟨1, 1, 6⟩], fun _ => false)

/-- The fields of the example start with the empty expression or the basis. -/
private lemma exampleContext_start (dt : Double) (field : Bool) :
    (exampleContext dt).expressions field = [] ∨
      ∃ b, (exampleContext dt).expressions field = basisExpression exampleEnvironment b := by
  cases field with
  | false => exact .inl rfl
  | true => exact .inr ⟨(), rfl⟩

/-- The values and the expressions after half of the evaluated field, and its exact factor. -/
theorem fluxProvenance_run_half :
    (afterOperations exampleEnvironment [halfExact] (exampleContext halfStep)).values =
      ((returned exampleEnvironment [halfExact] (exampleContext halfStep)).map
        FluxStep.numericUpdate).foldl applyKernel (exampleContext halfStep).values ∧
    ∀ dt field, ((afterOperations exampleEnvironment [halfExact]
        (exampleContext halfStep)).expressions field).readAt dt =
      (LinearUpdate.combination ((returned exampleEnvironment [halfExact]
        (exampleContext halfStep)).map FluxStep.formalUpdate) field).sum
        fun initial coefficient =>
          coefficient.eval dt • ((exampleContext halfStep).expressions initial).readAt dt := by
  have hrun := fluxProvenance_run exampleEnvironment (exampleContext halfStep) rfl
    (exampleContext_start halfStep) [halfExact]
  exact ⟨hrun.1, hrun.2.2.2.1⟩

/-- Two histories that apply the same linear combination to the values record different expressions
when the factors are different polynomials in `dt` of equal value; and where the value of a
polynomial at `dt` is rounded, the expression read at `dt` is not the combination that is applied to
the values. -/
theorem fluxProvenance_same_combination :
    ((returned exampleEnvironment [halfRuntime] (exampleContext halfStep)).map
        FluxStep.exactUpdate =
      (returned exampleEnvironment [halfExact] (exampleContext halfStep)).map
        FluxStep.exactUpdate ∧
      (afterOperations exampleEnvironment [halfRuntime]
        (exampleContext halfStep)).expressions false ≠
      (afterOperations exampleEnvironment [halfExact]
        (exampleContext halfStep)).expressions false) ∧
    ∃ dt, tenthStep.value = some dt ∧
      ((afterOperations exampleEnvironment [sixthOfStep]
        (exampleContext tenthStep)).expressions false).readAt dt ≠
      (LinearUpdate.combination ((returned exampleEnvironment [sixthOfStep]
        (exampleContext tenthStep)).map FluxStep.exactUpdate) false).sum
        fun initial factor =>
        factor • ((exampleContext tenthStep).expressions initial).readAt dt := by
  refine ⟨⟨by decide +kernel, by decide +kernel⟩, 3602879701896397 / 36028797018963968,
    by decide +kernel, fun h => ?_⟩
  have hexpression : (afterOperations exampleEnvironment [sixthOfStep]
      (exampleContext tenthStep)).expressions false = [(1, ⟨(), [(1, ⟨1, 6⟩)]⟩)] := by
    decide +kernel
  have hupdates : (returned exampleEnvironment [sixthOfStep]
      (exampleContext tenthStep)).map FluxStep.exactUpdate =
      [.axpy false (4803839602528529 / 288230376151711744) true] := by
    decide +kernel
  have hcombination : LinearUpdate.combination
      [LinearUpdate.axpy false (4803839602528529 / 288230376151711744 : ℚ) true] false =
      Finsupp.single false 1 + Finsupp.single true (4803839602528529 / 288230376151711744) := by
    simp [LinearUpdate.combination, LinearUpdate.run, LinearUpdate.apply]
  rw [hexpression, hupdates, hcombination, Finsupp.sum_add_index' (by simp) (by simp [add_smul]),
    Finsupp.sum_single_index (by simp), Finsupp.sum_single_index (by simp)] at h
  have hbasis := DFunLike.congr_fun h ()
  simp [FluxExpression.readAt, exampleContext, basisExpression, toPolynomial, Rational.toRat]
    at hbasis
  norm_num at hbasis

end Pops
