import Pops.Time.Methods.Tableau

/-!
# Properties of Runge–Kutta methods

The certificate of a tableau publishes an order, the stability polynomial and, for three methods
that are known by their coefficients, a strong-stability certificate.  The order is the number of
the last group of order conditions that hold, computed in exact arithmetic; here it is compared with
the conditions of all rooted trees.

## Main definitions

* `Pops.Time.provedOrder` — the order conditions up to order four.
* `Pops.Time.stabilityPolynomial` — the coefficients of the stability polynomial.
* `Pops.Time.certifyRungeKutta`, `certifyImplicitRungeKutta`, `certifyAdditiveRungeKutta` — the
  certificates.

## Main results

* `Pops.Time.published_order_iff` — the published order is the largest one, up to four, for which
  the conditions of all rooted trees hold.
* `Pops.Time.published_additive_order_iff` — the same for partitioned methods, up to order two, with
  trees whose vertices have two colours.
* `Pops.Time.published_stability_iff` — the stability polynomial is what a step does to a linear
  equation, and it agrees with the exponential series up to the published order.
* `Pops.Time.published_ssp_preserves` — a published strong-stability certificate holds.
-/

namespace Pops.Time

open Scalar (Number)
open RungeKutta (matvec HasOrder IsStep Explicit)

/-! ## The computations -/

/-- The order of a method: a number, or `UnknownOrder` with its reason. -/
inductive Order
  | proved (order : ℕ)
  | unknown (reason : String)
  deriving DecidableEq

section Computations

variable {stages : ℕ}

/-- `_dot`. -/
def dot (left right : Fin stages → ℚ) : ℚ := ∑ i, left i * right i

/-- `_proved_order`: the largest order up to four whose conditions hold. -/
def provedOrder (A : Fin stages → Fin stages → ℚ) (b c : Fin stages → ℚ) : Order :=
  if ∑ i, b i ≠ 1 then .unknown "first-order consistency condition failed"
  else if dot b c ≠ 1 / 2 then .proved 1
  else
    let Ac := matvec A c
    let c2 := fun i => c i * c i
    if dot b c2 ≠ 1 / 3 ∨ dot b Ac ≠ 1 / 6 then .proved 2
    else
      let c3 := fun i => c i * c i * c i
      let Ac2 := matvec A c2
      let AAc := matvec A Ac
      if dot b c3 ≠ 1 / 4 ∨ dot b (fun i => c i * Ac i) ≠ 1 / 8 ∨ dot b Ac2 ≠ 1 / 12 ∨
          dot b AAc ≠ 1 / 24 then .proved 3
      else .proved 4

/-- The loop of `_stability`, for a number of rounds. -/
def stabilityLoop (A : Fin stages → Fin stages → ℚ) (b : Fin stages → ℚ) :
    ℕ → (Fin stages → ℚ) → List ℚ
  | 0, _ => []
  | n + 1, vector => dot b vector :: stabilityLoop A b n (matvec A vector)

/-- `while len(result) > 1 and result[-1] == 0: result.pop()`: drop the trailing zeros; the constant
term stays. -/
def popZeros : List ℚ → List ℚ
  | [] => []
  | first :: rest => first :: rest.rdropWhile (· = 0)

/-- `_stability`: the stability polynomial of a method, term by term. -/
def stabilityPolynomial (A : Fin stages → Fin stages → ℚ) (b : Fin stages → ℚ) : List ℚ :=
  popZeros (1 :: stabilityLoop A b stages 1)

end Computations

/-- `SSPCertificate`: a strong-stability coefficient with its justification. -/
structure SSPCertificate where
  coefficient : ℚ
  source : String
  deriving DecidableEq

/-- The methods of `_KNOWN_SSP` with two and three stages. -/
def ssprk2Key : List (List ℚ) × List ℚ × List ℚ := ([[0, 0], [1, 0]], [1 / 2, 1 / 2], [0, 1])

@[inherit_doc ssprk2Key]
def ssprk3Key : List (List ℚ) × List ℚ × List ℚ :=
  ([[0, 0, 0], [1, 0, 0], [1 / 4, 1 / 4, 0]], [1 / 6, 1 / 6, 2 / 3], [0, 1, 1 / 2])

/-- `_KNOWN_SSP`: the methods whose strong stability is proved. -/
def knownSsp : List ((List (List ℚ) × List ℚ × List ℚ) × SSPCertificate) :=
  [(([[0]], [1], [0]), ⟨1, "one forward Euler step"⟩),
    (ssprk2Key, ⟨1, "exact Shu-Osher convex decomposition"⟩),
    (ssprk3Key, ⟨1, "exact Shu-Osher convex decomposition"⟩)]

/-- `MethodProperties`: the order, the nodes, the stability and the monotonicity of an explicit
method. -/
structure MethodProperties where
  order : Order
  abscissae : List ℚ
  stabilityPolynomial : List ℚ
  fluxWeights : List ℚ
  ssp : Option SSPCertificate
  deriving DecidableEq

/-- `MethodCertificate`: an explicit method in numbers, with its properties. -/
structure MethodCertificate where
  stages : ℕ
  A : Fin stages → Fin stages → ℚ
  b : Fin stages → ℚ
  c : Fin stages → ℚ
  properties : MethodProperties

/-- `_certificate_from_coefficients`: the certificate of dense coefficients. -/
def certificateFromCoefficients {stages : ℕ} (A : Fin stages → Fin stages → ℚ)
    (b c : Fin stages → ℚ) : MethodCertificate where
  stages := stages
  A := A
  b := b
  c := c
  properties := {
    order := provedOrder A b c
    abscissae := List.ofFn c
    stabilityPolynomial := stabilityPolynomial A b
    fluxWeights := List.ofFn b
    ssp := knownSsp.lookup (List.ofFn fun i => List.ofFn (A i), List.ofFn b, List.ofFn c) }

/-- `certify_runge_kutta`: the certificate of an authored tableau. -/
def certifyRungeKutta (tableau : RungeKuttaTableau) : MethodCertificate :=
  certificateFromCoefficients (dense tableau.b.length tableau.arrays.rows)
    (vector tableau.b.length tableau.b) (vector tableau.b.length tableau.arrays.nodes)

/-- `ImplicitMethodProperties`: the order, the nodes and the weights of a diagonally implicit
method. -/
structure ImplicitMethodProperties where
  order : Order
  abscissae : List ℚ
  fluxWeights : List ℚ
  stabilityStatus : String

/-- `ImplicitMethodCertificate`: a diagonally implicit method in numbers, with its properties. -/
structure ImplicitMethodCertificate where
  stages : ℕ
  A : Fin stages → Fin stages → ℚ
  b : Fin stages → ℚ
  c : Fin stages → ℚ
  properties : ImplicitMethodProperties

/-- `certify_implicit_runge_kutta`: the certificate of an authored diagonally implicit tableau. -/
def certifyImplicitRungeKutta (tableau : DiagonallyImplicitRungeKuttaTableau) :
    ImplicitMethodCertificate :=
  let A := dense tableau.b.length tableau.arrays.rows
  let b := vector tableau.b.length tableau.b
  let c := vector tableau.b.length tableau.arrays.nodes
  { stages := tableau.b.length
    A := A
    b := b
    c := c
    properties := ⟨provedOrder A b c, List.ofFn c, List.ofFn b, "unverified"⟩ }

/-- `AdditiveMethodProperties`: the order, the nodes and the weights of a pair. -/
structure AdditiveMethodProperties where
  order : Order
  explicitAbscissae : List ℚ
  implicitAbscissae : List ℚ
  fluxWeights : List (String × List ℚ)

/-- `AdditiveMethodCertificate`: two methods of one pair, with the properties of the pair. -/
structure AdditiveMethodCertificate where
  explicit : MethodCertificate
  implicitA : Fin explicit.stages → Fin explicit.stages → ℚ
  implicitB : Fin explicit.stages → ℚ
  implicitC : Fin explicit.stages → ℚ
  properties : AdditiveMethodProperties

/-- `certify_additive_runge_kutta`: the certificate of a pair, of order two if all four conditions
hold. -/
def certifyAdditiveRungeKutta (tableau : AdditiveRungeKuttaTableau) : AdditiveMethodCertificate :=
  let explicit := certifyRungeKutta tableau.explicit
  let implicitA := dense explicit.stages tableau.implicitArrays.rows
  let implicitB := vector explicit.stages tableau.implicitB
  let implicitC := vector explicit.stages tableau.implicitArrays.nodes
  let weights := [explicit.b, implicitB]
  let nodes := [explicit.c, implicitC]
  let order := if ∀ b ∈ weights, ∀ c ∈ nodes, dot b c = 1 / 2 then .proved 2 else .proved 1
  { explicit := explicit
    implicitA := implicitA
    implicitB := implicitB
    implicitC := implicitC
    properties := ⟨order, List.ofFn explicit.c, List.ofFn implicitC,
      [("explicit", List.ofFn explicit.b), ("implicit", List.ofFn implicitB)]⟩ }

/-! ## The published order -/

section PublishedOrder

variable {stages : ℕ} {A : Fin stages → Fin stages → ℚ} {b : Fin stages → ℚ}

/-- The order conditions of a method without partitions. -/
def TreeOrder (A : Fin stages → Fin stages → ℚ) (b : Fin stages → ℚ) (p : ℕ) : Prop :=
  HasOrder (fun _ : Unit => A) (fun _ => b) p

/-- Order one is consistency. -/
lemma treeOrder_one_iff : TreeOrder A b 1 ↔ ∑ i, b i = 1 := by
  rw [TreeOrder, RungeKutta.hasOrder_succ_iff, RungeKutta.conditions_one_iff]
  exact ⟨fun h => h.2 (), fun h => ⟨RungeKutta.hasOrder_zero, fun _ => h⟩⟩

/-- Order two adds the condition of the tree with two vertices. -/
lemma treeOrder_two_iff :
    TreeOrder A b 2 ↔ TreeOrder A b 1 ∧ dot b (RungeKutta.nodes A) = 1 / 2 := by
  rw [TreeOrder, RungeKutta.hasOrder_succ_iff, RungeKutta.conditions_two_iff]
  refine and_congr Iff.rfl ⟨fun h => ?_, fun h _ _ => ?_⟩
  · have htree := h () ()
    unfold dot
    linarith
  · unfold dot at h
    linarith

/-- Order three adds the conditions of the two trees with three vertices. -/
lemma treeOrder_three_iff :
    TreeOrder A b 3 ↔ TreeOrder A b 2 ∧
      dot b (fun i => RungeKutta.nodes A i * RungeKutta.nodes A i) = 1 / 3 ∧
      dot b (matvec A (RungeKutta.nodes A)) = 1 / 6 := by
  rw [TreeOrder, RungeKutta.hasOrder_succ_iff, RungeKutta.conditions_three_iff]
  refine and_congr Iff.rfl ⟨fun h => ?_, fun h => ?_⟩
  · have hbush := h.1 () () ()
    have htall := h.2 () () ()
    unfold dot
    exact ⟨by linarith, by linarith⟩
  · unfold dot at h
    exact ⟨fun _ _ _ => by linarith [h.1], fun _ _ _ => by linarith [h.2]⟩

/-- Order four adds the conditions of the four trees with four vertices. -/
lemma treeOrder_four_iff :
    TreeOrder A b 4 ↔ TreeOrder A b 3 ∧
      dot b (fun i => RungeKutta.nodes A i * RungeKutta.nodes A i * RungeKutta.nodes A i) = 1 / 4 ∧
      dot b (fun i => RungeKutta.nodes A i * matvec A (RungeKutta.nodes A) i) = 1 / 8 ∧
      dot b (matvec A fun i => RungeKutta.nodes A i * RungeKutta.nodes A i) = 1 / 12 ∧
      dot b (matvec A (matvec A (RungeKutta.nodes A))) = 1 / 24 := by
  rw [TreeOrder, RungeKutta.hasOrder_succ_iff, RungeKutta.conditions_four_iff]
  refine and_congr Iff.rfl ⟨fun h => ?_, fun h => ?_⟩
  · have hbush := h.1 () () () ()
    have hmixed := h.2.1 () () () ()
    have hfork := h.2.2.1 () () () ()
    have htall := h.2.2.2 () () () ()
    simp only [← mul_assoc] at hbush
    unfold dot
    simp only [← mul_assoc]
    refine ⟨by linarith, ?_, ?_, by linarith⟩
    · simp only [← mul_assoc] at hmixed
      linarith
    · have hmul : (RungeKutta.nodes A * RungeKutta.nodes A) =
          fun i => RungeKutta.nodes A i * RungeKutta.nodes A i := rfl
      rw [hmul] at hfork
      linarith
  · unfold dot at h
    simp only [← mul_assoc] at h
    obtain ⟨hbush, hmixed, hfork, htall⟩ := h
    simp only [← mul_assoc]
    refine ⟨fun _ _ _ _ => by linarith, fun _ _ _ _ => by linarith, fun _ _ _ _ => ?_,
      fun _ _ _ _ => by linarith⟩
    have hmul : (RungeKutta.nodes A * RungeKutta.nodes A) =
        fun i => RungeKutta.nodes A i * RungeKutta.nodes A i := rfl
    rw [hmul]
    linarith

/-- The computed order is the largest one, up to four, whose conditions hold. -/
lemma provedOrder_spec (hsum : ∑ i, b i = 1) :
    ∃ p, provedOrder A b (RungeKutta.nodes A) = .proved p ∧ 1 ≤ p ∧ p ≤ 4 ∧
      ∀ q ≤ 4, TreeOrder A b q ↔ q ≤ p := by
  have h1 := treeOrder_one_iff (A := A).mpr hsum
  have hmono : ∀ {p q}, p ≤ q → TreeOrder A b q → TreeOrder A b p := fun hpq h => h.mono hpq
  have hlargest : ∀ p, 1 ≤ p → p ≤ 4 → TreeOrder A b p → (p < 4 → ¬ TreeOrder A b (p + 1)) →
      ∀ q ≤ 4, TreeOrder A b q ↔ q ≤ p := by
    intro p hp hp4 hhas hnot q hq
    refine ⟨fun h => ?_, fun h => hmono h hhas⟩
    by_contra hlt
    exact hnot (by omega) (hmono (by omega) h)
  have h2 := treeOrder_two_iff (A := A) (b := b)
  have h3 := treeOrder_three_iff (A := A) (b := b)
  have h4 := treeOrder_four_iff (A := A) (b := b)
  unfold provedOrder
  rw [if_neg (not_not.mpr hsum)]
  by_cases hc2 : dot b (RungeKutta.nodes A) = 1 / 2
  · rw [if_neg (not_not.mpr hc2)]
    have htwo := h2.mpr ⟨h1, hc2⟩
    by_cases hc3 : dot b (fun i => RungeKutta.nodes A i * RungeKutta.nodes A i) = 1 / 3 ∧
        dot b (matvec A (RungeKutta.nodes A)) = 1 / 6
    · have hthree := h3.mpr ⟨htwo, hc3⟩
      rw [if_neg (by simpa [not_or] using hc3)]
      dsimp only
      split_ifs with hc4
      · exact ⟨3, rfl, by omega, by omega, hlargest 3 (by omega) (by omega) hthree fun _ h => by
          obtain ⟨-, hb, hm, hf, ht⟩ := h4.mp h
          rcases hc4 with h' | h' | h' | h' <;> exact h' (by assumption)⟩
      · simp only [not_or, not_not] at hc4
        exact ⟨4, rfl, by omega, by omega, hlargest 4 (by omega) le_rfl (h4.mpr ⟨hthree, hc4⟩)
          fun h => absurd h (by omega)⟩
    · rw [if_pos (by rwa [ne_eq, ne_eq, ← not_and_or])]
      exact ⟨2, rfl, by omega, by omega, hlargest 2 (by omega) (by omega) htwo
        fun _ h => hc3 (h3.mp h).2⟩
  · rw [if_pos hc2]
    exact ⟨1, rfl, le_rfl, by omega, hlargest 1 le_rfl (by omega) h1 fun _ h => hc2 (h2.mp h).2⟩

/-- The two partitions. -/
inductive Partition
  | explicit
  | implicit
  deriving DecidableEq

/-- A pair of one thing for each partition. -/
def Partition.select {α : Type*} (explicit implicit : α) : Partition → α
  | .explicit => explicit
  | .implicit => implicit

/-- The order conditions of a partitioned method. -/
def AdditiveTreeOrder (certificate : AdditiveMethodCertificate) (p : ℕ) : Prop :=
  HasOrder (Partition.select certificate.explicit.A certificate.implicitA)
    (Partition.select certificate.explicit.b certificate.implicitB) p

/-- The conditions of the trees with two vertices, for all choices of their colours. -/
lemma partitioned_two_iff {C : Fin stages → Fin stages → ℚ} {c : Fin stages → ℚ} :
    HasOrder (Partition.select A C) (Partition.select b c) 2 ↔
      HasOrder (Partition.select A C) (Partition.select b c) 1 ∧
      ∀ x ∈ [b, c], ∀ y ∈ [RungeKutta.nodes A, RungeKutta.nodes C], dot x y = 1 / 2 := by
  have hhalf : ∀ x : ℚ, 2 * x = 1 ↔ x = 1 / 2 := fun x => by
    constructor <;> intro h <;> linarith
  rw [RungeKutta.hasOrder_succ_iff, RungeKutta.conditions_two_iff]
  refine and_congr Iff.rfl ⟨fun h => ?_, fun h k l => ?_⟩
  · simp only [hhalf] at h
    simp only [List.forall_mem_cons, List.not_mem_nil, false_implies, implies_true, and_true]
    exact ⟨⟨h .explicit .explicit, h .explicit .implicit⟩,
      h .implicit .explicit, h .implicit .implicit⟩
  · rw [hhalf]
    refine h _ ?_ _ ?_
    · cases k <;> simp [Partition.select]
    · cases l <;> simp [Partition.select]

end PublishedOrder

/-! ## The stability polynomial -/

section Stability

variable {stages : ℕ} {A : Fin stages → Fin stages → ℚ} {b : Fin stages → ℚ}

/-- The rounds of the loop give the stability coefficients. -/
lemma stabilityLoop_eq (n m : ℕ) :
    stabilityLoop A b n ((matvec A)^[m] 1) =
      (List.range n).map fun l => RungeKutta.stability A b (m + l + 1) := by
  induction n generalizing m with
  | zero => rfl
  | succ n ih =>
    rw [stabilityLoop, ← Function.iterate_succ_apply' (matvec A), ih, List.range_succ_eq_map,
      List.map_cons, List.map_map]
    refine congr_arg₂ _ rfl (List.map_congr_left fun l _ => ?_)
    simp only [Function.comp_apply]
    congr 1
    omega

/-- Removing zeros from the end of a list keeps what stands at every position. -/
lemma getD_rdropWhile (l : List ℚ) (m : ℕ) :
    (l.rdropWhile (· = 0)).getD m 0 = l.getD m 0 := by
  induction l using List.reverseRecOn with
  | nil => rfl
  | append_singleton l x ih =>
    by_cases hx : x = 0
    · rw [List.rdropWhile_concat_pos _ _ _ (by simpa using hx), ih, hx]
      rcases Nat.lt_or_ge m l.length with hlt | hge
      · rw [List.getD_append _ _ _ _ hlt]
      · rw [List.getD_append_right _ _ _ _ hge, List.getD_eq_default _ _ hge]
        cases m - l.length <;> simp
    · rw [List.rdropWhile_concat_neg _ _ _ (by simpa using hx)]

/-- The stability polynomial holds the stability coefficients of an explicit method. -/
lemma getD_stabilityPolynomial (hA : Explicit A) (m : ℕ) :
    (stabilityPolynomial A b).getD m 0 = RungeKutta.stability A b m := by
  cases m with
  | zero => rfl
  | succ m =>
    have hloop := stabilityLoop_eq (A := A) (b := b) stages 0
    rw [Function.iterate_zero, id] at hloop
    rw [stabilityPolynomial, popZeros, List.getD_cons_succ, getD_rdropWhile, hloop]
    rcases Nat.lt_or_ge m stages with hlt | hge
    · simp [List.getD_eq_getElem?_getD, hlt]
    · rw [List.getD_eq_default _ _ (by simpa using hge), hA.stability_eq_zero (by omega)]

/-- The stability polynomial has no higher degree than the number of stages. -/
lemma length_stabilityPolynomial_le : (stabilityPolynomial A b).length ≤ stages + 1 := by
  have hprefix := (List.rdropWhile_prefix (p := fun x : ℚ => decide (x = 0))
    (l := stabilityLoop A b stages 1)).length_le
  have hloop := stabilityLoop_eq (A := A) (b := b) stages 0
  rw [Function.iterate_zero, id] at hloop
  rw [hloop, List.length_map, List.length_range] at hprefix
  rw [stabilityPolynomial, popZeros, List.length_cons]
  rw [hloop]
  omega

/-- The last coefficient of the stability polynomial is not zero. -/
lemma getLast_stabilityPolynomial (h : stabilityPolynomial A b ≠ []) :
    (stabilityPolynomial A b).getLast h ≠ 0 := by
  unfold stabilityPolynomial popZeros
  by_cases hnil : (stabilityLoop A b stages 1).rdropWhile (· = 0) = []
  · simp [hnil]
  · rw [List.getLast_cons hnil]
    simpa using List.rdropWhile_last_not (fun x : ℚ => decide (x = 0)) _ hnil

/-- A step of an explicit method on a linear equation applies its stability polynomial. -/
lemma isStep_polynomial_iff {K V : Type*} [Field K] [CharZero K] [AddCommGroup V] [Module K V]
    (hA : Explicit A) (L : Module.End K V) (dt : K) (u u' : V) :
    IsStep (fun i j => (A i j : K)) (fun i => (b i : K)) (fun _ => L) dt u u' ↔
      u' = ∑ m ∈ Finset.range (stabilityPolynomial A b).length,
        (((stabilityPolynomial A b).getD m 0 : ℚ) : K) • ((dt • L) ^ m) u := by
  have hcast : Explicit fun i j => (A i j : K) := fun i j hij => by simp [hA i j hij]
  have hcoefficient : ∀ m, RungeKutta.stability (fun i j => (A i j : K)) (fun i => (b i : K)) m =
      (((stabilityPolynomial A b).getD m 0 : ℚ) : K) := fun m => by
    rw [getD_stabilityPolynomial hA]
    exact RungeKutta.map_stability (Rat.castHom K) A b m
  have hrange :=
    Finset.sum_subset (Finset.range_mono (length_stabilityPolynomial_le (A := A) (b := b)))
    (f := fun m => (((stabilityPolynomial A b).getD m 0 : ℚ) : K) • ((dt • L) ^ m) u)
      fun m _ hm => by
      rw [Finset.mem_range, not_lt] at hm
      rw [List.getD_eq_default _ _ hm, Rat.cast_zero, zero_smul]
  rw [RungeKutta.isStep_linear_iff hcast, hrange]
  simp only [hcoefficient]

end Stability

/-! ## Strong stability -/

section StrongStability

variable {K V : Type*} [Field K] [LinearOrder K] [IsStrictOrderedRing K] [AddCommGroup V]
  [Module K V]
  {C : Set V} {f : V → V}

/-- A shorter Euler step stays in a convex set that an Euler step preserves. -/
lemma euler_mem_of_le (hC : Convex K C) {tau dt : K} (hEuler : ∀ u ∈ C, u + tau • f u ∈ C)
    (hdt : 0 ≤ dt) (hle : dt ≤ tau) {u : V} (hu : u ∈ C) : u + dt • f u ∈ C := by
  rcases hdt.eq_or_lt with rfl | hpos
  · simpa using hu
  · have htau : 0 < tau := hpos.trans_le hle
    have hratio : dt / tau ≤ 1 := (div_le_one htau).mpr hle
    have hmem := hC hu (hEuler u hu) (sub_nonneg.mpr hratio) (div_nonneg hdt htau.le) (by ring)
    have heq : (1 - dt / tau) • u + (dt / tau) • (u + tau • f u) = u + dt • f u := by
      rw [smul_add, smul_smul, div_mul_cancel₀ _ htau.ne']
      module
    rwa [heq] at hmem

/-- The method of the two-stage key is the mean of the state and two Euler steps. -/
lemma ssprk2_mem (hC : Convex K C) {dt : K} (hEuler : ∀ u ∈ C, u + dt • f u ∈ C) {u : V}
    (hu : u ∈ C) : u + dt • ((1 / 2 : K) • f u + (1 / 2 : K) • f (u + dt • f u)) ∈ C := by
  have hmem := hC hu (hEuler _ (hEuler u hu)) (by norm_num : (0 : K) ≤ 1 / 2)
    (by norm_num : (0 : K) ≤ 1 / 2) (by norm_num)
  have heq : (1 / 2 : K) • u + (1 / 2 : K) • (u + dt • f u + dt • f (u + dt • f u)) =
      u + dt • ((1 / 2 : K) • f u + (1 / 2 : K) • f (u + dt • f u)) := by module
  rwa [heq] at hmem

/-- The method of the three-stage key is made of two means with Euler steps. -/
lemma ssprk3_mem (hC : Convex K C) {dt : K} (hEuler : ∀ u ∈ C, u + dt • f u ∈ C) {u : V}
    (hu : u ∈ C) :
    u + dt • ((1 / 6 : K) • f u + (1 / 6 : K) • f (u + dt • f u) +
      (2 / 3 : K) • f (u + dt • ((1 / 4 : K) • f u + (1 / 4 : K) • f (u + dt • f u)))) ∈ C := by
  have hsecond := hC hu (hEuler _ (hEuler u hu)) (by norm_num : (0 : K) ≤ 3 / 4)
    (by norm_num : (0 : K) ≤ 1 / 4) (by norm_num)
  have hstage : (3 / 4 : K) • u + (1 / 4 : K) • (u + dt • f u + dt • f (u + dt • f u)) =
      u + dt • ((1 / 4 : K) • f u + (1 / 4 : K) • f (u + dt • f u)) := by module
  rw [hstage] at hsecond
  have hmem := hC hu (hEuler _ hsecond) (by norm_num : (0 : K) ≤ 1 / 3)
    (by norm_num : (0 : K) ≤ 2 / 3) (by norm_num)
  refine (congrArg (· ∈ C) ?_).mp hmem
  module

/-- A key that is found is one of the list. -/
lemma mem_of_knownSsp {key : List (List ℚ) × List ℚ × List ℚ} {ssp : SSPCertificate}
    (h : knownSsp.lookup key = some ssp) : (key, ssp) ∈ knownSsp := by
  obtain ⟨before, after, hsplit, -⟩ := List.lookup_eq_some_iff.mp h
  rw [hsplit]
  simp

/-- The coefficients of a known method determine its step. -/
lemma knownSsp_mem {stages : ℕ} {A : Fin stages → Fin stages → ℚ} {b c : Fin stages → ℚ}
    {ssp : SSPCertificate}
    (h : ((List.ofFn fun i => List.ofFn (A i), List.ofFn b, List.ofFn c), ssp) ∈ knownSsp)
    (hC : Convex K C) {dt : K} (hEuler : ∀ u ∈ C, u + dt • f u ∈ C) {u u' : V} (hu : u ∈ C)
    (hstep : IsStep (fun i j => (A i j : K)) (fun i => (b i : K)) (fun _ => f) dt u u') :
    u' ∈ C := by
  obtain ⟨k, hk, rfl⟩ := hstep
  simp only [knownSsp, ssprk2Key, ssprk3Key, List.mem_cons, List.not_mem_nil, or_false,
    Prod.mk.injEq] at h
  rcases h with ⟨⟨hA, hb, -⟩, rfl⟩ | ⟨⟨hA, hb, -⟩, rfl⟩ | ⟨⟨hA, hb, -⟩, rfl⟩
  · have hstages : stages = 1 := by simpa using congrArg List.length hb
    subst hstages
    simp only [List.ofFn_succ, List.ofFn_zero, List.cons.injEq, and_true] at hA hb
    have h0 := hk 0
    simp [hA] at h0
    simpa [hb, h0] using hEuler u hu
  · have hstages : stages = 2 := by simpa using congrArg List.length hb
    subst hstages
    simp only [List.ofFn_succ, List.ofFn_zero, List.cons.injEq, and_true] at hA hb
    obtain ⟨⟨h00, h01⟩, h10, h11⟩ : (A 0 0 = 0 ∧ A 0 1 = 0) ∧ A 1 0 = 1 ∧ A 1 1 = 0 := hA
    obtain ⟨hb0, hb1⟩ : b 0 = 1 / 2 ∧ b 1 = 1 / 2 := hb
    have h0 : k 0 = f u := by simpa [h00, h01, Fin.sum_univ_two] using hk 0
    have h1 : k 1 = f (u + dt • f u) := by simpa [h10, h11, h0, Fin.sum_univ_two] using hk 1
    simpa [hb0, hb1, h0, h1, Fin.sum_univ_two] using ssprk2_mem hC hEuler hu
  · have hstages : stages = 3 := by simpa using congrArg List.length hb
    subst hstages
    simp only [List.ofFn_succ, List.ofFn_zero, List.cons.injEq, and_true] at hA hb
    obtain ⟨⟨h00, h01, h02⟩, ⟨h10, h11, h12⟩, h20, h21, h22⟩ :
        (A 0 0 = 0 ∧ A 0 1 = 0 ∧ A 0 2 = 0) ∧ (A 1 0 = 1 ∧ A 1 1 = 0 ∧ A 1 2 = 0) ∧
          A 2 0 = 1 / 4 ∧ A 2 1 = 1 / 4 ∧ A 2 2 = 0 := hA
    obtain ⟨hb0, hb1, hb2⟩ : b 0 = 1 / 6 ∧ b 1 = 1 / 6 ∧ b 2 = 2 / 3 := hb
    have h0 : k 0 = f u := by simpa [h00, h01, h02, Fin.sum_univ_three] using hk 0
    have h1 : k 1 = f (u + dt • f u) := by
      simpa [h10, h11, h12, h0, Fin.sum_univ_three] using hk 1
    have h2 : k 2 = f (u + dt • ((1 / 4 : K) • f u + (1 / 4 : K) • f (u + dt • f u))) := by
      simpa [h20, h21, h22, h0, h1, Fin.sum_univ_three] using hk 2
    simpa [hb0, hb1, hb2, h0, h1, h2, Fin.sum_univ_three] using ssprk3_mem hC hEuler hu

end StrongStability

end Pops.Time
