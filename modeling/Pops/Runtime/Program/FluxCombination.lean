import Pops.Runtime.Program.FluxExpression
import Pops.Amr.Levels.ClockRelation

/-!
# What flux expressions stand for

An exact polynomial stands for a polynomial over the rationals, an expression for a combination of
bases with polynomial coefficients.  The operations on expressions are the operations of these
modules.  Recorded coefficients are in normal form, hence expressions with equal combinations are
equal.

## Main definitions

* `Pops.ExactPolynomial.toPolynomial`, `FluxExpression.formal` — what the data stands for.
* `Pops.FluxExpression.readAt` — the combination of bases at a step.
* `Pops.FluxExpression.Normal` — no coefficient is empty or has a zero term.

## Main results

* `Pops.multiplyExactPolynomials_spec`, `addExactPolynomial_spec` — the arithmetic of coefficients.
* `Pops.FluxExpression.scaled_spec`, `add_spec` — the arithmetic of expressions.
* `Pops.FluxExpression.Normal.ext` — a normal expression is determined by its combination.
-/

namespace Pops

open Polynomial

/-! ## Rational factors -/

namespace Rational

/-- A factor in canonical form is zero just when its numerator is. -/
lemma toRat_eq_zero {r : Rational} (hr : r.Canonical) : r.toRat = 0 ↔ r.numerator = 0 := by
  have hd : (r.denominator : ℚ) ≠ 0 := Int.cast_ne_zero.mpr hr.denominator_pos.ne'
  rw [toRat, div_eq_zero_iff]
  simp [hd]

/-- Canonical forms of equal value are equal. -/
theorem Canonical.ext {r r' : Rational} (hr : r.Canonical) (hr' : r'.Canonical)
    (h : r.toRat = r'.toRat) : r = r' := by
  obtain ⟨hn, hd⟩ := num_den_of_coprime hr.denominator_pos hr.coprime
  obtain ⟨hn', hd'⟩ := num_den_of_coprime hr'.denominator_pos hr'.coprime
  unfold toRat at h
  apply Rational.ext
  · rw [← hn, ← hn', h]
  · rw [← hd, ← hd', h]

end Rational

/-! ## Polynomials -/

namespace ExactPolynomial

/-- The polynomial in `dt` of a coefficient. -/
noncomputable def toPolynomial (p : ExactPolynomial) : ℚ[X] :=
  OrderedMap.total (fun power factor => monomial power.toNat factor.toRat) p

/-- One more term adds its monomial. -/
lemma toPolynomial_snoc (done : ExactPolynomial) (term : ℤ × Rational) :
    toPolynomial (done ++ [term]) =
      toPolynomial done + monomial term.1.toNat term.2.toRat := by
  simp [toPolynomial, OrderedMap.total]

/-- The powers are increasing and not negative, the factors are in canonical form. -/
structure WellFormed (p : ExactPolynomial) : Prop where
  sorted : OrderedMap.Sorted p
  power_nonneg : ∀ term ∈ p, 0 ≤ term.1
  canonical : ∀ term ∈ p, term.2.Canonical

/-- A coefficient in normal form: no factor is zero. -/
structure Normal (p : ExactPolynomial) : Prop extends WellFormed p where
  numerator_ne_zero : ∀ term ∈ p, term.2.numerator ≠ 0

/-- The empty coefficient is well formed. -/
lemma wellFormed_nil : WellFormed [] :=
  ⟨List.Pairwise.nil, by simp, by simp⟩

/-- A coefficient of the polynomial is the factor of the power. -/
lemma coeff_toPolynomial {p : ExactPolynomial} (hp : p.WellFormed) (n : ℕ) :
    p.toPolynomial.coeff n = ((OrderedMap.lookup p n).map Rational.toRat).getD 0 := by
  obtain ⟨hsorted, hnonneg, -⟩ := hp
  induction p with
  | nil => simp [toPolynomial, OrderedMap.lookup]
  | cons head rest ih =>
    obtain ⟨power, factor⟩ := head
    have hsorted' := List.pairwise_cons.mp hsorted
    have hpos : 0 ≤ power := hnonneg _ List.mem_cons_self
    have hrest := ih hsorted'.2 fun term hterm => hnonneg term (List.mem_cons_of_mem _ hterm)
    have hcons : toPolynomial ((power, factor) :: rest) =
        monomial power.toNat factor.toRat + toPolynomial rest := by
      simp [toPolynomial]
    rw [hcons, coeff_add, hrest, coeff_monomial]
    by_cases hkey : power = n
    · -- the remaining powers are larger
      have hnone : OrderedMap.lookup rest (n : ℤ) = none :=
        OrderedMap.lookup_eq_none_of_lt fun term hterm => hkey ▸ hsorted'.1 term hterm
      simp [OrderedMap.lookup, hkey, hnone]
    · have hne : power.toNat ≠ n := by omega
      simp [OrderedMap.lookup, hkey, hne]

/-- A coefficient in normal form is determined by its polynomial. -/
theorem Normal.ext {p p' : ExactPolynomial} (hp : p.Normal) (hp' : p'.Normal)
    (h : p.toPolynomial = p'.toPolynomial) : p = p' := by
  have hvalue : ∀ {q : ExactPolynomial}, q.Normal → ∀ {k : ℤ} {r : Rational},
      OrderedMap.lookup q k = some r → 0 ≤ k ∧ r.Canonical ∧ r.toRat ≠ 0 := by
    intro q hq k r hr
    have hmem := OrderedMap.mem_of_lookup hr
    have hcanonical := hq.canonical _ hmem
    refine ⟨hq.power_nonneg _ hmem, hcanonical, ?_⟩
    rw [Ne, Rational.toRat_eq_zero hcanonical]
    exact hq.numerator_ne_zero _ hmem
  refine hp.sorted.ext hp'.sorted fun k => ?_
  rcases lt_or_ge k 0 with hneg | hk
  · -- neither has a negative power
    have hnone : ∀ {q : ExactPolynomial}, q.Normal → OrderedMap.lookup q k = none := by
      intro q hq
      cases hl : OrderedMap.lookup q k with
      | none => rfl
      | some r => exact absurd (hvalue hq hl).1 (by omega)
    rw [hnone hp, hnone hp']
  · obtain ⟨n, rfl⟩ := Int.eq_ofNat_of_zero_le hk
    have hcoeff := congrArg (fun q : ℚ[X] => q.coeff n) h
    simp only [coeff_toPolynomial hp.toWellFormed, coeff_toPolynomial hp'.toWellFormed] at hcoeff
    cases hl : OrderedMap.lookup p (n : ℤ) with
    | none =>
      cases hl' : OrderedMap.lookup p' (n : ℤ) with
      | none => rfl
      | some r' =>
        rw [hl, hl'] at hcoeff
        exact absurd hcoeff.symm (hvalue hp' hl').2.2
    | some r =>
      cases hl' : OrderedMap.lookup p' (n : ℤ) with
      | none =>
        rw [hl, hl'] at hcoeff
        exact absurd hcoeff (hvalue hp hl).2.2
      | some r' =>
        rw [hl, hl'] at hcoeff
        rw [(hvalue hp hl).2.1.ext (hvalue hp' hl').2.1 hcoeff]

/-- A single term is a monomial. -/
lemma toPolynomial_singleton (power : ℤ) (factor : Rational) :
    toPolynomial [(power, factor)] = monomial power.toNat factor.toRat := by
  simp [toPolynomial]

/-- The polynomial of a single term with a canonical factor is well formed. -/
lemma wellFormed_singleton {power : ℤ} {factor : Rational} (hpower : 0 ≤ power)
    (hfactor : factor.Canonical) : WellFormed [(power, factor)] :=
  ⟨List.pairwise_singleton _ _, by simpa using hpower, by simpa using hfactor⟩

end ExactPolynomial

open ExactPolynomial

/-- Dropping zero terms keeps the polynomial and leaves a normal form. -/
lemma eraseZeroTerms_spec {p : ExactPolynomial} (hp : p.WellFormed) :
    (eraseZeroTerms p).Normal ∧ (eraseZeroTerms p).toPolynomial = p.toPolynomial := by
  refine ⟨⟨⟨hp.sorted.filter _, ?_, ?_⟩, ?_⟩, ?_⟩
  · exact fun term hterm => hp.power_nonneg term (List.mem_filter.mp hterm).1
  · exact fun term hterm => hp.canonical term (List.mem_filter.mp hterm).1
  · exact fun term hterm => of_decide_eq_true (List.mem_filter.mp hterm).2
  · refine OrderedMap.total_filter _ fun term hterm hzero => ?_
    have hnum : term.2.numerator = 0 := by simpa using hzero
    rw [(Rational.toRat_eq_zero (hp.canonical term hterm)).mpr hnum, monomial_zero_right]

/-- Adding a term adds its monomial. -/
lemma addTerm_spec {p p' : ExactPolynomial} {power : ℤ} {factor : Rational}
    (hp : p.WellFormed) (hpower : 0 ≤ power) (hfactor : factor.Canonical)
    (h : addTerm p power factor = .ok p') :
    p'.WellFormed ∧ p'.toPolynomial = p.toPolynomial + monomial power.toNat factor.toRat := by
  have hassign : ∀ r : Rational, r.Canonical →
      ExactPolynomial.WellFormed (OrderedMap.assign p power r) := by
    intro r hr
    refine ⟨hp.sorted.assign power r, fun term hterm => ?_, fun term hterm => ?_⟩
    · rcases OrderedMap.mem_of_mem_assign hterm with rfl | hmem
      · exact hpower
      · exact hp.power_nonneg term hmem
    · rcases OrderedMap.mem_of_mem_assign hterm with rfl | hmem
      · exact hr
      · exact hp.canonical term hmem
  unfold addTerm at h
  cases hl : OrderedMap.lookup p power with
  | none =>
    rw [hl] at h
    obtain rfl := Except.ok.inj h
    rw [OrderedMap.emplace_eq_assign hl]
    refine ⟨hassign factor hfactor, ?_⟩
    have htotal := OrderedMap.total_assign
      (fun (power : ℤ) (factor : Rational) => monomial power.toNat factor.toRat)
      hp.sorted power factor
    rw [hl, Option.map_none, Option.getD_none, add_zero] at htotal
    exact htotal
  | some found =>
    rw [hl] at h
    simp only [bind_eq_ok, pure_eq_ok] at h
    obtain ⟨sum, hsum, rfl⟩ := h
    have hfound := hp.canonical _ (OrderedMap.mem_of_lookup hl)
    refine ⟨hassign sum (Rational.addOrSubtract_canonical hsum), ?_⟩
    have htotal := OrderedMap.total_assign
      (fun (power : ℤ) (factor : Rational) => monomial power.toNat factor.toRat)
      hp.sorted power sum
    rw [hl, Option.map_some, Option.getD_some, Rational.toRat_add hfound hfactor hsum, map_add,
      add_comm (monomial power.toNat found.toRat), ← add_assoc] at htotal
    exact add_right_cancel htotal

/-- The sum of coefficients is the sum of their polynomials. -/
theorem addExactPolynomial_spec {p q r : ExactPolynomial} (hp : p.WellFormed) (hq : q.WellFormed)
    (h : addExactPolynomial p q = .ok r) :
    r.Normal ∧ r.toPolynomial = p.toPolynomial + q.toPolynomial := by
  simp only [addExactPolynomial, bind_eq_ok, pure_eq_ok] at h
  obtain ⟨sum, hsum, rfl⟩ := h
  have hinv : sum.WellFormed ∧ sum.toPolynomial = p.toPolynomial + toPolynomial q := by
    refine foldlM_invariant (P := fun done (acc : ExactPolynomial) => acc.WellFormed ∧
      acc.toPolynomial = p.toPolynomial + toPolynomial done) hsum ⟨hp, by simp [toPolynomial]⟩ ?_
    intro done term rest acc acc' hl hacc hstep
    have hmem : term ∈ q := by rw [hl]; simp
    obtain ⟨hwf, hpoly⟩ := addTerm_spec hacc.1 (hq.power_nonneg term hmem)
      (hq.canonical term hmem) hstep
    refine ⟨hwf, ?_⟩
    rw [hpoly, hacc.2, add_assoc, toPolynomial_snoc]
  obtain ⟨hnormal, hpoly⟩ := eraseZeroTerms_spec hinv.1
  exact ⟨hnormal, hpoly.trans hinv.2⟩

/-- The product of coefficients is the product of their polynomials. -/
theorem multiplyExactPolynomials_spec {p q r : ExactPolynomial} (hp : p.WellFormed)
    (hq : q.WellFormed) (h : multiplyExactPolynomials p q = .ok r) :
    r.Normal ∧ r.toPolynomial = p.toPolynomial * q.toPolynomial := by
  simp only [multiplyExactPolynomials, bind_eq_ok, pure_eq_ok] at h
  obtain ⟨product, hproduct, rfl⟩ := h
  have hinv : product.WellFormed ∧
      product.toPolynomial = toPolynomial p * q.toPolynomial := by
    refine foldlM_invariant (P := fun done (acc : ExactPolynomial) => acc.WellFormed ∧
      acc.toPolynomial = toPolynomial done * q.toPolynomial) hproduct
      ⟨wellFormed_nil, by simp [toPolynomial]⟩ ?_
    intro done leftTerm rest acc acc' hl hacc hinner
    have hleft : leftTerm ∈ p := by rw [hl]; simp
    -- the inner loop adds the product of one term with the right factor
    have hrow : acc'.WellFormed ∧ acc'.toPolynomial = acc.toPolynomial +
        monomial leftTerm.1.toNat leftTerm.2.toRat * toPolynomial q := by
      refine foldlM_invariant (P := fun done' (row : ExactPolynomial) => row.WellFormed ∧
        row.toPolynomial = acc.toPolynomial +
          monomial leftTerm.1.toNat leftTerm.2.toRat * toPolynomial done') hinner
        ⟨hacc.1, by simp [toPolynomial]⟩ ?_
      intro done' rightTerm rest' row row' hl' hrow hstep
      have hright : rightTerm ∈ q := by rw [hl']; simp
      simp only [bind_eq_ok, throwIf_eq_ok] at hstep
      obtain ⟨-, -, factor, hfactor, hadd⟩ := hstep
      have hlnonneg := hp.power_nonneg leftTerm hleft
      have hrnonneg := hq.power_nonneg rightTerm hright
      obtain ⟨hwf, hpoly⟩ := addTerm_spec hrow.1 (by omega) (Rational.mul_canonical hfactor) hadd
      refine ⟨hwf, ?_⟩
      have htoNat : (leftTerm.1 + rightTerm.1).toNat = leftTerm.1.toNat + rightTerm.1.toNat := by
        omega
      rw [hpoly, hrow.2, Rational.toRat_mul (hp.canonical leftTerm hleft)
        (hq.canonical rightTerm hright) hfactor, htoNat, toPolynomial_snoc, mul_add,
        monomial_mul_monomial, add_assoc]
    refine ⟨hrow.1, ?_⟩
    rw [hrow.2, hacc.2, toPolynomial_snoc, add_mul]
  obtain ⟨hnormal, hpoly⟩ := eraseZeroTerms_spec hinv.1
  exact ⟨hnormal, hpoly.trans hinv.2⟩

/-! ## Expressions -/

namespace FluxExpression

variable {β : Type}

/-- The combination of bases with polynomial coefficients that an expression records. -/
noncomputable def formal (e : FluxExpression β) : β →₀ ℚ[X] :=
  OrderedMap.total (fun _ term => Finsupp.single term.basis term.coefficient.toPolynomial) e

/-- The combination of bases at a step: the sum over the bases of the coefficient at `dt` times the
basis. -/
noncomputable def readAt (dt : ℚ) (e : FluxExpression β) : β →₀ ℚ :=
  OrderedMap.total
    (fun _ term => Finsupp.single term.basis (term.coefficient.toPolynomial.eval dt)) e

/-- Evaluating the coefficients of a combination of bases at a step. -/
noncomputable def evaluate (dt : ℚ) : (β →₀ ℚ[X]) →+ (β →₀ ℚ) :=
  Finsupp.mapRange.addMonoidHom (evalRingHom dt).toAddMonoidHom

/-- Evaluation takes polynomial multiples to multiples by their value. -/
lemma evaluate_smul (dt : ℚ) (p : ℚ[X]) (v : β →₀ ℚ[X]) :
    evaluate dt (p • v) = p.eval dt • evaluate dt v := by
  ext b
  simp [evaluate]

/-- An expression in normal form: every entry has the identity of its basis and a coefficient that
is not empty and has no zero term. -/
structure Normal (identity : β → ℕ) (e : FluxExpression β) : Prop where
  sorted : OrderedMap.Sorted e
  identity_eq : ∀ entry ∈ e, entry.1 = identity entry.2.basis
  coefficient_normal : ∀ entry ∈ e, entry.2.coefficient.Normal
  coefficient_ne_nil : ∀ entry ∈ e, entry.2.coefficient ≠ []

/-- The empty expression is in normal form. -/
lemma normal_nil (identity : β → ℕ) : Normal identity ([] : FluxExpression β) :=
  ⟨List.Pairwise.nil, by simp, by simp, by simp⟩

/-- A normal coefficient that is not empty is not the zero polynomial. -/
lemma toPolynomial_ne_zero {p : ExactPolynomial} (hp : p.Normal) (hne : p ≠ []) :
    p.toPolynomial ≠ 0 := by
  intro hzero
  refine hne (hp.ext ⟨wellFormed_nil, by simp⟩ ?_)
  rw [hzero]
  simp [toPolynomial]

/-- The coefficient of a basis in a normal expression. -/
lemma Normal.formal_apply [DecidableEq β] {identity : β → ℕ} {e : FluxExpression β}
    (he : e.Normal identity) (b : β) :
    e.formal b = ((OrderedMap.lookup e (identity b)).map fun term =>
      if term.basis = b then term.coefficient.toPolynomial else 0).getD 0 := by
  obtain ⟨hsorted, hidentity, -, -⟩ := he
  induction e with
  | nil => simp [formal, OrderedMap.lookup]
  | cons head rest ih =>
    obtain ⟨key, term⟩ := head
    have hsorted' := List.pairwise_cons.mp hsorted
    have hkey : key = identity term.basis := hidentity _ List.mem_cons_self
    have hrest := ih hsorted'.2 fun entry hentry => hidentity entry (List.mem_cons_of_mem _ hentry)
    have hcons : formal ((key, term) :: rest) =
        Finsupp.single term.basis term.coefficient.toPolynomial + formal rest := by
      simp [formal]
    rw [hcons, Finsupp.add_apply, hrest, Finsupp.single_apply]
    by_cases hid : key = identity b
    · -- later entries have larger identities
      have hnone : OrderedMap.lookup rest (identity b) = none :=
        OrderedMap.lookup_eq_none_of_lt fun entry hentry => hid ▸ hsorted'.1 entry hentry
      simp [OrderedMap.lookup, hid, hnone]
    · have hb : term.basis ≠ b := fun hb => hid (by rw [hkey, hb])
      simp [OrderedMap.lookup, hid, hb]

/-- **A normal expression is determined by its combination of bases.** -/
theorem Normal.ext [DecidableEq β] {identity : β → ℕ} {e e' : FluxExpression β}
    (he : e.Normal identity) (he' : e'.Normal identity) (h : e.formal = e'.formal) : e = e' := by
  have hsub : ∀ {f f' : FluxExpression β}, f.Normal identity → f'.Normal identity →
      f.formal = f'.formal → ∀ {key : ℕ} {term : FluxExpressionTerm β},
      OrderedMap.lookup f key = some term → OrderedMap.lookup f' key = some term := by
    intro f f' hf hf' hff key term hl
    have hmem := OrderedMap.mem_of_lookup hl
    have hkey : key = identity term.basis := hf.identity_eq _ hmem
    have hnormal := hf.coefficient_normal _ hmem
    have hcoeff : f'.formal term.basis = term.coefficient.toPolynomial := by
      rw [← hff, hf.formal_apply, ← hkey, hl]
      simp
    have hne : f'.formal term.basis ≠ 0 := by
      rw [hcoeff]
      exact toPolynomial_ne_zero hnormal (hf.coefficient_ne_nil _ hmem)
    rw [hf'.formal_apply, ← hkey] at hcoeff hne
    cases hl' : OrderedMap.lookup f' key with
    | none => simp [hl'] at hne
    | some term' =>
      rw [hl'] at hcoeff hne
      simp only [Option.map_some, Option.getD_some] at hcoeff hne
      split_ifs at hcoeff hne with hbasis
      · have hpoly := (hf'.coefficient_normal _ (OrderedMap.mem_of_lookup hl')).ext hnormal hcoeff
        obtain ⟨basis', coefficient'⟩ := term'
        obtain ⟨basis, coefficient⟩ := term
        simp only at hbasis hpoly
        rw [hbasis, hpoly]
      · exact absurd rfl hne
  refine he.sorted.ext he'.sorted fun key => ?_
  cases hl : OrderedMap.lookup e key with
  | some term => exact (hsub he he' h hl).symm
  | none =>
    cases hl' : OrderedMap.lookup e' key with
    | none => rfl
    | some term =>
      rw [hsub he' he h.symm hl'] at hl
      cases hl

/-- The combination at a step is the formal combination, evaluated. -/
lemma readAt_eq_evaluate (dt : ℚ) (e : FluxExpression β) :
    e.readAt dt = evaluate dt e.formal := by
  induction e with
  | nil => simp [readAt, formal]
  | cons head rest ih =>
    have hread : readAt dt (head :: rest) =
        Finsupp.single head.2.basis (head.2.coefficient.toPolynomial.eval dt) +
          readAt dt rest := by
      simp [readAt]
    have hformal : formal (head :: rest) =
        Finsupp.single head.2.basis head.2.coefficient.toPolynomial + formal rest := by
      simp [formal]
    rw [hread, hformal, ih, map_add]
    simp [evaluate]

/-- Inserting a new entry keeps the normal form and adds its basis. -/
lemma Normal.insert {identity : β → ℕ} {e : FluxExpression β} (he : e.Normal identity)
    {key : ℕ} {term : FluxExpressionTerm β} (hkey : key = identity term.basis)
    (hcoefficient : term.coefficient.Normal) (hne : term.coefficient ≠ []) :
    Normal identity (OrderedMap.assign e key term) := by
  refine ⟨he.sorted.assign key term, ?_, ?_, ?_⟩ <;> intro entry hentry <;>
    rcases OrderedMap.mem_of_mem_assign hentry with rfl | hmem
  · exact hkey
  · exact he.identity_eq entry hmem
  · exact hcoefficient
  · exact he.coefficient_normal entry hmem
  · exact hne
  · exact he.coefficient_ne_nil entry hmem

/-- Assigning an entry trades the old coefficient for the new one. -/
lemma formal_assign {e : FluxExpression β} (he : OrderedMap.Sorted e) (key : ℕ)
    (term : FluxExpressionTerm β) :
    formal (OrderedMap.assign e key term) + ((OrderedMap.lookup e key).map fun found =>
      Finsupp.single found.basis found.coefficient.toPolynomial).getD 0 =
      e.formal + Finsupp.single term.basis term.coefficient.toPolynomial := by
  have htotal := OrderedMap.total_assign (fun (_ : ℕ) (term : FluxExpressionTerm β) =>
    Finsupp.single term.basis term.coefficient.toPolynomial) he key term
  unfold formal
  exact htotal

/-- The last entry of a list of entries. -/
lemma formal_snoc (done : FluxExpression β) (entry : ℕ × FluxExpressionTerm β) :
    formal (done ++ [entry]) =
      done.formal + Finsupp.single entry.2.basis entry.2.coefficient.toPolynomial := by
  simp [formal, OrderedMap.total]

/-- A multiple of an expression records the multiple of its combination. -/
theorem scaled_spec {identity : β → ℕ} {e r : FluxExpression β} {c : ExactPolynomial}
    (he : e.Normal identity) (hc : c.WellFormed) (h : scaledFluxExpression e c = .ok r) :
    r.Normal identity ∧ r.formal = c.toPolynomial • e.formal := by
  unfold scaledFluxExpression at h
  split_ifs at h with hempty
  · obtain rfl := Except.ok.inj h
    subst hempty
    exact ⟨normal_nil identity, by simp [formal, toPolynomial]⟩
  · -- the keys recorded so far are among the visited ones
    have hinv : (r.Normal identity ∧ r.formal = c.toPolynomial • formal e) ∧
        ∀ entry ∈ r, ∃ visited ∈ e, entry.1 = visited.1 := by
      refine foldlM_invariant (P := fun done (acc : FluxExpression β) =>
        (acc.Normal identity ∧ acc.formal = c.toPolynomial • formal done) ∧
          ∀ entry ∈ acc, ∃ visited ∈ done, entry.1 = visited.1) h
        ⟨⟨normal_nil identity, by simp [formal]⟩, by simp⟩ ?_
      intro done entry rest acc acc' hl hacc hstep
      have hmem : entry ∈ e := by rw [hl]; simp
      simp only [bind_eq_ok] at hstep
      obtain ⟨scaled, hscaled, hstep⟩ := hstep
      obtain ⟨hnormal, hpoly⟩ := multiplyExactPolynomials_spec
        (he.coefficient_normal entry hmem).toWellFormed hc hscaled
      have hsmul : c.toPolynomial • formal (done ++ [entry]) =
          acc.formal + Finsupp.single entry.2.basis scaled.toPolynomial := by
        rw [formal_snoc, smul_add, Finsupp.smul_single, smul_eq_mul, hacc.1.2, hpoly,
          mul_comm c.toPolynomial]
      have hvisited : ∀ {entry' : ℕ × FluxExpressionTerm β}, entry' ∈ acc →
          ∃ visited ∈ done ++ [entry], entry'.1 = visited.1 := by
        intro entry' hentry'
        obtain ⟨visited, hvisited, heq⟩ := hacc.2 entry' hentry'
        exact ⟨visited, List.mem_append_left _ hvisited, heq⟩
      split_ifs at hstep with hne
      · obtain rfl := pure_eq_ok.mp hstep
        have hnone : OrderedMap.lookup acc entry.1 = none := by
          cases hlookup : OrderedMap.lookup acc entry.1 with
          | none => rfl
          | some term =>
            obtain ⟨visited, hvisited, heq⟩ := hacc.2 _ (OrderedMap.mem_of_lookup hlookup)
            have hlt := (List.pairwise_append.mp (hl ▸ he.sorted)).2.2 visited hvisited entry
              List.mem_cons_self
            simp only at heq
            omega
        rw [OrderedMap.emplace_eq_assign hnone]
        refine ⟨⟨hacc.1.1.insert (he.identity_eq entry hmem) hnormal hne, ?_⟩, ?_⟩
        · have hassign := formal_assign hacc.1.1.sorted entry.1 ⟨entry.2.basis, scaled⟩
          rw [hnone, Option.map_none, Option.getD_none, add_zero] at hassign
          rw [hassign, hsmul]
        · intro entry' hentry'
          rcases OrderedMap.mem_of_mem_assign hentry' with rfl | hold
          · exact ⟨entry, by simp, rfl⟩
          · exact hvisited hold
      · obtain rfl := pure_eq_ok.mp hstep
        refine ⟨⟨hacc.1.1, ?_⟩, fun entry' hentry' => hvisited hentry'⟩
        rw [hsmul, not_not.mp hne]
        simp [toPolynomial]
    exact hinv.1

/-- The sum of expressions records the sum of their combinations. -/
theorem add_spec [DecidableEq β] {identity : β → ℕ} {d e r : FluxExpression β}
    (hd : d.Normal identity) (he : e.Normal identity) (h : addFluxExpression d e = .ok r) :
    r.Normal identity ∧ r.formal = d.formal + e.formal := by
  refine foldlM_invariant (P := fun done (acc : FluxExpression β) => acc.Normal identity ∧
    acc.formal = d.formal + formal done) h ⟨hd, by simp [formal]⟩ ?_
  intro done entry rest acc acc' hl hacc hstep
  have hmem : entry ∈ e := by rw [hl]; simp
  rw [formal_snoc, ← add_assoc, ← hacc.2]
  cases hlookup : OrderedMap.lookup acc entry.1 with
  | none =>
    rw [hlookup] at hstep
    obtain rfl := Except.ok.inj hstep
    rw [OrderedMap.emplace_eq_assign hlookup]
    refine ⟨hacc.1.insert (he.identity_eq entry hmem) (he.coefficient_normal entry hmem)
      (he.coefficient_ne_nil entry hmem), ?_⟩
    have hassign := formal_assign hacc.1.sorted entry.1 entry.2
    rwa [hlookup, Option.map_none, Option.getD_none, add_zero] at hassign
  | some found =>
    rw [hlookup] at hstep
    simp only [bind_eq_ok, throwIf_eq_ok, not_not] at hstep
    obtain ⟨-, hbasis, coefficient, hcoefficient, hstep⟩ := hstep
    have hfound := OrderedMap.mem_of_lookup hlookup
    obtain ⟨hnormal, hpoly⟩ := addExactPolynomial_spec
      (hacc.1.coefficient_normal _ hfound).toWellFormed
      (he.coefficient_normal entry hmem).toWellFormed hcoefficient
    split_ifs at hstep with hempty
    · -- the coefficients cancel and the basis leaves the expression
      obtain rfl := pure_eq_ok.mp hstep
      refine ⟨⟨hacc.1.sorted.filter _, ?_, ?_, ?_⟩, ?_⟩
      · exact fun entry' hentry' => hacc.1.identity_eq entry' (List.mem_filter.mp hentry').1
      · exact fun entry' hentry' => hacc.1.coefficient_normal entry' (List.mem_filter.mp hentry').1
      · exact fun entry' hentry' => hacc.1.coefficient_ne_nil entry' (List.mem_filter.mp hentry').1
      · have herase := OrderedMap.total_erase
          (fun (_ : ℕ) (term : FluxExpressionTerm β) =>
            Finsupp.single term.basis term.coefficient.toPolynomial) hacc.1.sorted hlookup
        have hzero : found.coefficient.toPolynomial + entry.2.coefficient.toPolynomial = 0 := by
          rw [← hpoly, hempty]
          simp [toPolynomial]
        have hcancel : Finsupp.single found.basis found.coefficient.toPolynomial +
            Finsupp.single entry.2.basis entry.2.coefficient.toPolynomial = 0 := by
          rw [hbasis, ← Finsupp.single_add, hzero, Finsupp.single_zero]
        show OrderedMap.total _ _ = _
        rw [formal, ← herase, add_assoc, hcancel, add_zero]
    · obtain rfl := pure_eq_ok.mp hstep
      refine ⟨hacc.1.insert (hacc.1.identity_eq _ hfound) hnormal hempty, ?_⟩
      have hassign := formal_assign hacc.1.sorted entry.1 ⟨found.basis, coefficient⟩
      rw [hlookup, Option.map_some, Option.getD_some, hpoly, Finsupp.single_add,
        add_comm (Finsupp.single found.basis found.coefficient.toPolynomial), ← add_assoc]
        at hassign
      rw [add_right_cancel hassign, hbasis]

end FluxExpression

end Pops
