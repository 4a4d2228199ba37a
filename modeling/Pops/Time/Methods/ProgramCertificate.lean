import Pops.Time.Graph.ProgramGraph
import Pops.Time.Methods.Properties

/-!
# Certificates of Program graphs

The certificate of a graph is reconstructed from its nodes alone.  The graph has to read one state,
evaluate rates, and commit one value; every rate and the commit have to read the state plus a
combination of earlier rates, with coefficients that are the time step times an exact number.  The
coefficients then form a tableau, and the certificate is that of the tableau.  A graph outside of
this language receives an unknown order.

## Main definitions

* `Pops.Time.isExplicitRateCall` — the nodes that are rates.
* `Pops.Time.affine` — the coefficients with which a node reads the state and the rates.
* `Pops.Time.certifyProgramGraph` — the certificate.

## Main results

* `Pops.Time.certifyProgramGraph_sound` — a graph with a certificate performs one step of the
  explicit method of its tableau, whatever its rates compute, and the published order is that of the
  method.
-/

namespace Pops.Time

open Scalar (Number)
open RungeKutta (IsStep Explicit)

/-! ## The computation -/

/-- What leaves `certify_program_graph` besides a value: an exception of a class that its handler
names or that is raised in front of it, and the `IndexError` of a rate without inputs. -/
inductive Escape
  | raised (e : PyError)
  | indexError
  deriving DecidableEq

/-- A raised exception. -/
def escape {α : Type} : Raises α → Except Escape α
  | .ok value => .ok value
  | .error e => .error (.raised e)

/-- `_literal`: the binary64 spelling that it reads is under another key. -/
def literal : ScalarData → Raises ℚ
  | .number value => .ok value.value
  | .binary64 _ => .error ⟨.keyError, "'hex'"⟩
  | .algebraic _ => .error (valueError "unsupported canonical scalar literal")

/-- `_polynomial`: the exact coefficients of the powers. -/
def polynomial : List (ℤ × ScalarData) → Raises (List (ℤ × ℚ))
  | [] => .ok []
  | (power, coefficient) :: data => do
    let value ← literal coefficient
    let result ← polynomial data
    return (power, value) :: result

/-- `_point_offset`: the exact offset of the point of a value. -/
def pointOffset (point : Point) : Raises ℚ := do
  let time ← point.time?
  literal time.offset

/-- `_is_explicit_rate_call`: the node evaluates an explicit rate. -/
def isExplicitRateCall (node : GraphNode) : Bool :=
  match node.kind with
  | .programValue op _ _ => op = "rhs" ∨ op = "diffusive_rhs"
  | .operatorCall operator _ =>
    (operator.handleKind = some "grid_operator" ∨ operator.handleKind = some "local_rate") ∧
      (operator.loweringOp = some "rhs" ∨ operator.loweringOp = some "diffusive_rhs") ∧
      operator.loweringValueType = some "rhs"
  | _ => false

/-- One round of the loop of `affine`: the contribution of one input. -/
def affineTerm (stateId : ℕ) (rhs : List GraphNode) (stage ref : ℕ) (encoded : CoeffPolynomial)
    (sums : ℚ × List ℚ) : Raises (ℚ × List ℚ) := do
  let polynomial ← polynomial encoded.powers
  if ref = stateId then
    raiseIf (∃ term ∈ polynomial, term.1 ≠ 0)
      (valueError "base state has a non-constant coefficient")
    return (sums.1 + (polynomial.lookup 0).getD 0, sums.2)
  else
    let index := (rhs.map GraphNode.nodeId).idxOf ref
    raiseIf (rhs.length ≤ index ∨ stage ≤ index ∨ ∃ term ∈ polynomial, term.1 ≠ 1)
      (valueError "stage reads a non-previous rate or non-dt coefficient")
    return (sums.1, sums.2.modify index (· + (polynomial.lookup 1).getD 0))

/-- The loop of `affine` over the inputs and their coefficients, `zip(..., strict=True)`. -/
def affineTerms (stateId : ℕ) (rhs : List GraphNode) (stage : ℕ) : List ℕ → List CoeffPolynomial →
    ℚ × List ℚ → Raises (ℚ × List ℚ)
  | [], [], sums => .ok sums
  | ref :: refs, encoded :: data, sums => do
    let sums ← affineTerm stateId rhs stage ref encoded sums
    affineTerms stateId rhs stage refs data sums
  | [], _ :: _, _ => .error (valueError "zip() argument 2 is longer than argument 1")
  | _ :: _, [], _ => .error (valueError "zip() argument 2 is shorter than argument 1")

/-- `affine`: the coefficient of the state in a node, and those of the rates. -/
def affine (graph : ProgramGraph) (stateId : ℕ) (rhs : List GraphNode) (nodeId stage : ℕ) :
    Raises (ℚ × List ℚ) :=
  if nodeId = stateId then .ok (1, List.replicate stage 0)
  else
    match graph.nodes.find? fun node => node.nodeId = nodeId with
    | none => .error ⟨.keyError, toString nodeId⟩
    | some node =>
      match node.kind with
      | .programValue "linear_combine" inputs (some coeffs) =>
        affineTerms stateId rhs stage inputs coeffs (0, List.replicate stage 0)
      | .programValue "linear_combine" _ none => .error ⟨.keyError, "'coeffs'"⟩
      | _ => .error (valueError "RK stage is not an affine state expression")

/-- The rows of the stages, from one stage on. -/
def stageRows (graph : ProgramGraph) (stateId : ℕ) (rhs : List GraphNode) : ℕ → List GraphNode →
    Except Escape (List (List ℚ))
  | _, [] => .ok []
  | i, rate :: rates =>
    match rate.references with
    | [] => .error .indexError
    | stateRef :: _ => do
      let (base, row) ← escape (affine graph stateId rhs stateRef i)
      escape (raiseIf (base ≠ 1) (valueError "RK stage does not preserve the base state"))
      let rest ← stageRows graph stateId rhs (i + 1) rates
      return row :: rest

/-- The coefficients of a graph with one state and one commit: the body of the `try` statement. -/
def coefficients (graph : ProgramGraph) (stateId finalRef : ℕ) (rhs : List GraphNode)
    (abscissae : List ℚ) : Except Escape (List (List ℚ) × List ℚ) := do
  let A ← stageRows graph stateId rhs 0 rhs
  let (base, b) ← escape (affine graph stateId rhs finalRef rhs.length)
  escape (raiseIf (base ≠ 1 ∨ b.sum ≠ 1)
    (valueError "RK endpoint is not a consistent affine rate combination"))
  escape (raiseIf (A.map List.sum ≠ abscissae)
    (valueError "stage point abscissae differ from reconstructed row sums"))
  return (A, b)

/-- `ProgramMethodCertificate`: the tableau of a graph, if there is one, with its properties. -/
structure ProgramMethodCertificate where
  tableau : Option MethodCertificate
  properties : MethodProperties

/-- `_unknown_graph`: no tableau, and the reason why. -/
def unknownGraph (reason : String) (abscissae : List ℚ) : ProgramMethodCertificate :=
  ⟨none, ⟨.unknown reason, abscissae, [], [], none⟩⟩

/-- The points of the rates. -/
def rateOffsets : List GraphNode → Raises (List ℚ)
  | [] => .ok []
  | node :: rhs => do
    let offset ← pointOffset node.point
    let offsets ← rateOffsets rhs
    return offset :: offsets

/-- Whether a certificate holds a tableau. -/
def certified : Except Escape ProgramMethodCertificate → Bool
  | .ok ⟨some _, _⟩ => true
  | _ => false

/-- `certify_program_graph`: the tableau that a graph of explicit rates evaluates, with its
properties. -/
def certifyProgramGraph (graph : ProgramGraph) : Except Escape ProgramMethodCertificate := do
  let states := graph.nodes.filter GraphNode.isStateRead
  let rhs := graph.nodes.filter isExplicitRateCall
  let commits := graph.nodes.filter GraphNode.isCommit
  let abscissae ← escape (rateOffsets rhs)
  match states, rhs, commits with
  | [state], _ :: _, [commit] =>
    match coefficients graph state.nodeId (commit.references.headD 0) rhs abscissae with
    | .ok (A, b) =>
      let certificate := certificateFromCoefficients
        (fun i j : Fin rhs.length => (A.getD i []).getD j 0) (fun i => b.getD i 0)
        fun i => abscissae.getD i 0
      return ⟨some certificate, certificate.properties⟩
    | .error (.raised e) => return unknownGraph e.text abscissae
    | .error .indexError => .error .indexError
  | _, _, _ => return unknownGraph "graph is not a single-state explicit RK step" abscissae

/-! ## The values of affine nodes -/

section Soundness

variable {K V : Type*} [Field K] [AddCommGroup V] [Module K V]

/-- A combination of vectors with exact coefficients. -/
def combination (K : Type*) {V : Type*} [Field K] [AddCommGroup V] [Module K V] (k : ℕ → V)
    (row : List ℚ) : V :=
  ∑ j ∈ Finset.range row.length, ((row.getD j 0 : ℚ) : K) • k j

/-- A combination with zero coefficients is zero. -/
lemma combination_replicate (k : ℕ → V) (n : ℕ) : combination K k (List.replicate n 0) = 0 := by
  refine Finset.sum_eq_zero fun j hj => ?_
  rw [Finset.mem_range, List.length_replicate] at hj
  simp [List.getD_eq_getElem?_getD, hj]

/-- Adding to one coefficient adds a multiple of its vector. -/
lemma combination_modify [CharZero K] (k : ℕ → V) {row : List ℚ} {i : ℕ} (hi : i < row.length)
    (x : ℚ) :
    combination K k (row.modify i (· + x)) = combination K k row + (x : K) • k i := by
  have hterm : ∀ j ∈ Finset.range row.length,
      (((row.modify i (· + x)).getD j 0 : ℚ) : K) • k j =
        ((row.getD j 0 : ℚ) : K) • k j + if j = i then (x : K) • k i else 0 := by
    intro j hj
    rw [Finset.mem_range] at hj
    rw [List.getD_eq_getElem?_getD, List.getD_eq_getElem?_getD, List.getElem?_modify,
      List.getElem?_eq_getElem hj]
    by_cases hji : j = i
    · subst hji
      simp [add_smul]
    · simp [hji, Ne.symm hji]
  rw [combination, List.length_modify, Finset.sum_congr rfl hterm, Finset.sum_add_distrib,
    Finset.sum_ite_eq' (Finset.range row.length) i, if_pos (Finset.mem_range.mpr hi)]
  rfl

/-- A combination over the positions of a longer vector. -/
lemma combination_eq_sum (k : ℕ → V) {row : List ℚ} {n : ℕ} (h : row.length ≤ n) :
    combination K k row = ∑ j : Fin n, ((row.getD j 0 : ℚ) : K) • k j := by
  rw [Fin.sum_univ_eq_sum_range fun j => ((row.getD j 0 : ℚ) : K) • k j]
  refine Finset.sum_subset (Finset.range_mono h) fun j _ hj => ?_
  rw [Finset.mem_range, not_lt] at hj
  rw [List.getD_eq_default _ _ hj, Rat.cast_zero, zero_smul]

omit [AddCommGroup V] [Module K V] in
/-- The value of a decoded polynomial. -/
lemma polynomial_spec (M : Meaning K V) : ∀ {data : List (ℤ × ScalarData)} {p : List (ℤ × ℚ)},
    polynomial data = .ok p → p.map Prod.fst = data.map Prod.fst ∧
      (data.map fun term => M.scalar term.2 * M.dt ^ term.1).sum =
        (p.map fun term => (term.2 : K) * M.dt ^ term.1).sum
  | [], p, h => by
    obtain rfl := Except.ok.inj h
    exact ⟨rfl, rfl⟩
  | (power, coefficient) :: data, p, h => by
    simp only [polynomial, bind_eq_ok, pure_eq_ok] at h
    obtain ⟨value, hvalue, rest, hrest, rfl⟩ := h
    obtain ⟨hkeys, hsum⟩ := polynomial_spec M hrest
    have hscalar : M.scalar coefficient = (value : K) := by
      cases coefficient with
      | number number =>
        obtain rfl := Except.ok.inj hvalue
        exact M.scalar_number number
      | binary64 _ => cases hvalue
      | algebraic _ => cases hvalue
    exact ⟨by simp [hkeys], by simp [hsum, hscalar]⟩

/-- The value of a polynomial with one power only. -/
lemma sum_of_one_power (dt : K) {p : List (ℤ × ℚ)} (hnodup : (p.map Prod.fst).Nodup) {n : ℤ}
    (h : ∀ term ∈ p, term.1 = n) :
    (p.map fun term => (term.2 : K) * dt ^ term.1).sum = (((p.lookup n).getD 0 : ℚ) : K) *
    dt ^ n := by
  match p with
  | [] => simp
  | [(m, x)] =>
    obtain rfl := h (m, x) (by simp)
    simp
  | first :: second :: _ =>
    have hfirst := h first (by simp)
    have hsecond := h second (by simp)
    simp [hfirst, hsecond] at hnodup

variable [CharZero K]

/-- One round adds the value of its term. -/
lemma affineTerm_spec (M : Meaning K V) {stateId stage ref : ℕ} {rhs : List GraphNode}
    {encoded : CoeffPolynomial} {sums sums' : ℚ × List ℚ} {env : ℕ → V} {k : ℕ → V}
    (hk : ∀ j node, rhs[j]? = some node → k j = env node.nodeId) (hlength : sums.2.length = stage)
    (h : affineTerm stateId rhs stage ref encoded sums = .ok sums') :
    sums'.2.length = stage ∧
      (sums'.1 : K) • env stateId + M.dt • combination K k sums'.2 =
        (sums.1 : K) • env stateId + M.dt • combination K k sums.2 +
          M.coefficient encoded • env ref := by
  simp only [affineTerm, bind_eq_ok] at h
  obtain ⟨p, hp, h⟩ := h
  obtain ⟨hkeys, hsum⟩ := polynomial_spec M hp
  have hnodup : (p.map Prod.fst).Nodup := hkeys ▸ encoded.nodup
  have hcoefficient : M.coefficient encoded = (p.map fun term =>
      (term.2 : K) * M.dt ^ term.1).sum := hsum
  by_cases hstate : ref = stateId
  · simp only [hstate, if_true, bind_eq_ok, raiseIf_eq_ok, pure_eq_ok, not_exists, not_and,
      not_not] at h
    obtain ⟨-, hzero, rfl⟩ := h
    refine ⟨hlength, ?_⟩
    rw [hcoefficient, sum_of_one_power M.dt hnodup hzero, zpow_zero, mul_one, hstate, Rat.cast_add]
    module
  · simp only [hstate, if_false, bind_eq_ok, raiseIf_eq_ok, pure_eq_ok, not_or, not_exists, not_and,
      not_not, not_le] at h
    obtain ⟨-, ⟨hindex, hstage, hone⟩, rfl⟩ := h
    have hindex' : (rhs.map GraphNode.nodeId).idxOf ref < (rhs.map GraphNode.nodeId).length := by
      simpa using hindex
    have hget := List.getElem_idxOf hindex'
    rw [List.getElem_map] at hget
    have hvalue := hk _ _ (List.getElem?_eq_getElem hindex)
    rw [hget] at hvalue
    refine ⟨by rw [List.length_modify, hlength], ?_⟩
    rw [hcoefficient, sum_of_one_power M.dt hnodup hone, zpow_one,
      combination_modify k (by rw [hlength]; exact hstage), hvalue]
    module

/-- The loop adds the values of all terms. -/
lemma affineTerms_spec (M : Meaning K V) {stateId stage : ℕ} {rhs : List GraphNode} {env : ℕ → V}
    {k : ℕ → V} (hk : ∀ j node, rhs[j]? = some node → k j = env node.nodeId) :
    ∀ {refs : List ℕ} {data : List CoeffPolynomial} {sums sums' : ℚ × List ℚ},
      sums.2.length = stage → affineTerms stateId rhs stage refs data sums = .ok sums' →
      sums'.2.length = stage ∧
        (sums'.1 : K) • env stateId + M.dt • combination K k sums'.2 =
          (sums.1 : K) • env stateId + M.dt • combination K k sums.2 +
            (List.zipWith (fun ref polynomial => M.coefficient polynomial • env ref) refs data).sum
  | [], [], sums, sums', hlength, h => by
    obtain rfl := Except.ok.inj h
    exact ⟨hlength, by simp⟩
  | [], _ :: _, _, _, _, h => by cases h
  | _ :: _, [], _, _, _, h => by cases h
  | ref :: refs, encoded :: data, sums, sums', hlength, h => by
    simp only [affineTerms, bind_eq_ok] at h
    obtain ⟨next, hnext, hrest⟩ := h
    obtain ⟨hlength', hstep⟩ := affineTerm_spec M hk hlength hnext
    obtain ⟨hlength'', hloop⟩ := affineTerms_spec M hk hlength' hrest
    refine ⟨hlength'', ?_⟩
    rw [hloop, hstep, List.zipWith_cons_cons, List.sum_cons, add_assoc]

/-- The value of an affine node. -/
lemma affine_spec (M : Meaning K V) {graph : ProgramGraph} {stateId nodeId stage : ℕ}
    {rhs : List GraphNode} {base : ℚ} {row : List ℚ} {k : ℕ → V}
    (hk : ∀ j node, rhs[j]? = some node → k j = M.run graph node.nodeId)
    (h : affine graph stateId rhs nodeId stage = .ok (base, row)) :
    row.length = stage ∧
      M.run graph nodeId = (base : K) • M.run graph stateId + M.dt • combination K k row := by
  unfold affine at h
  split at h
  · rename_i hstate
    obtain ⟨rfl, rfl⟩ := Prod.mk.inj (Except.ok.inj h)
    refine ⟨List.length_replicate, ?_⟩
    rw [combination_replicate, hstate]
    simp
  · split at h
    · cases h
    · rename_i node hfind
      have hid : node.nodeId = nodeId := by simpa using List.find?_some hfind
      have hrun := graph.run_eq M (List.mem_of_find?_eq_some hfind)
      split at h
      · rename_i inputs coeffs hkind
        obtain ⟨hlength, hsum⟩ := affineTerms_spec M hk (by simp) h
        refine ⟨hlength, ?_⟩
        rw [combination_replicate, Rat.cast_zero, zero_smul, smul_zero, zero_add, zero_add] at hsum
        rw [← hid, hrun, M.value_combine hkind, hsum]
      · cases h
      · cases h

/-! ## Certified graphs -/

omit [CharZero K] in
/-- A rate is computed by its operator from its inputs. -/
lemma value_rate (M : Meaning K V) {env : ℕ → V} {node : GraphNode}
    (h : isExplicitRateCall node = true) :
    M.value env node = M.call node (node.references.map env) := by
  unfold Meaning.value
  split
  · rename_i hkind
    simp [isExplicitRateCall, hkind] at h
  · rename_i hkind
    simp [isExplicitRateCall, hkind] at h
  · rfl

/-- A returned value does not escape. -/
@[simp] lemma escape_eq_ok {α : Type} {computation : Raises α} {value : α} :
    escape computation = .ok value ↔ computation = .ok value := by
  cases computation <;> simp [escape]

/-- The rows are the affine coefficients of the first inputs of the rates. -/
lemma stageRows_spec {graph : ProgramGraph} {stateId : ℕ} {rhs : List GraphNode} :
    ∀ {rates : List GraphNode} {i : ℕ} {A : List (List ℚ)},
      stageRows graph stateId rhs i rates = .ok A → A.length = rates.length ∧
        ∀ n rate, rates[n]? = some rate → ∃ stateRef others row,
          rate.references = stateRef :: others ∧ A[n]? = some row ∧
          affine graph stateId rhs stateRef (i + n) = .ok (1, row)
  | [], i, A, h => by
    obtain rfl := Except.ok.inj h
    exact ⟨rfl, fun n rate hn => by simp at hn⟩
  | rate :: rates, i, A, h => by
    cases hrefs : rate.references with
    | nil =>
      rw [stageRows, hrefs] at h
      cases h
    | cons stateRef others =>
      rw [stageRows, hrefs] at h
      simp only [bind_eq_ok, escape_eq_ok, raiseIf_eq_ok, ne_eq, not_not, pure_eq_ok] at h
      obtain ⟨⟨base, row⟩, haffine, -, rfl, rest, hrest, rfl⟩ := h
      obtain ⟨hlength, hrows⟩ := stageRows_spec hrest
      refine ⟨by simp [hlength], fun n node hn => ?_⟩
      cases n with
      | zero =>
        obtain rfl := Option.some.inj hn
        exact ⟨stateRef, others, row, hrefs, rfl, haffine⟩
      | succ n =>
        obtain ⟨ref, refs, row', hrefs', hrow', haffine'⟩ := hrows n node hn
        exact ⟨ref, refs, row', hrefs', hrow', by rwa [show i + (n + 1) = i + 1 + n by omega]⟩

/-- The offsets are those of the points of the rates. -/
lemma rateOffsets_spec : ∀ {rhs : List GraphNode} {offsets : List ℚ},
    rateOffsets rhs = .ok offsets → offsets.length = rhs.length ∧
      ∀ n node, rhs[n]? = some node → pointOffset node.point = .ok (offsets.getD n 0)
  | [], offsets, h => by
    obtain rfl := Except.ok.inj h
    exact ⟨rfl, fun n node hn => by simp at hn⟩
  | first :: rhs, offsets, h => by
    simp only [rateOffsets, bind_eq_ok, pure_eq_ok] at h
    obtain ⟨offset, hfirst, rest, hrest, rfl⟩ := h
    obtain ⟨hlength, hoffsets⟩ := rateOffsets_spec hrest
    refine ⟨by simp [hlength], fun n node hn => ?_⟩
    cases n with
    | zero =>
      obtain rfl := Option.some.inj hn
      exact hfirst
    | succ n => exact hoffsets n node hn

/-- A graph with a certificate has one state and one commit, and its coefficients are those of the
certificate. -/
lemma certifyProgramGraph_cases {graph : ProgramGraph} {certificate : MethodCertificate}
    {properties : MethodProperties}
    (h : certifyProgramGraph graph = .ok ⟨some certificate, properties⟩) :
    ∃ state commit abscissae A b,
      graph.nodes.filter GraphNode.isStateRead = [state] ∧
      graph.nodes.filter GraphNode.isCommit = [commit] ∧
      rateOffsets (graph.nodes.filter isExplicitRateCall) = .ok abscissae ∧
      coefficients graph state.nodeId (commit.references.headD 0)
        (graph.nodes.filter isExplicitRateCall) abscissae = .ok (A, b) ∧
      certificate = certificateFromCoefficients
        (fun i j : Fin (graph.nodes.filter isExplicitRateCall).length => (A.getD i []).getD j 0)
        (fun i => b.getD i 0) (fun i => abscissae.getD i 0) ∧
      properties = certificate.properties := by
  simp only [certifyProgramGraph, bind_eq_ok, escape_eq_ok] at h
  obtain ⟨abscissae, hoffsets, h⟩ := h
  split at h
  · rename_i state first rest commit hstates hrhs hcommits
    split at h
    · rename_i A b hcoefficients
      simp only [pure_eq_ok, ProgramMethodCertificate.mk.injEq, Option.some.injEq] at h
      obtain ⟨rfl, rfl⟩ := h
      exact ⟨state, commit, abscissae, A, b, hstates, hcommits, hoffsets, hcoefficients, rfl, rfl⟩
    · simp [unknownGraph, pure_eq_ok] at h
    · cases h
  · simp [unknownGraph, pure_eq_ok] at h

/-- What accepted coefficients are. -/
lemma coefficients_spec {graph : ProgramGraph} {stateId finalRef : ℕ} {rhs : List GraphNode}
    {abscissae : List ℚ} {A : List (List ℚ)} {b : List ℚ}
    (h : coefficients graph stateId finalRef rhs abscissae = .ok (A, b)) :
    stageRows graph stateId rhs 0 rhs = .ok A ∧
      affine graph stateId rhs finalRef rhs.length = .ok (1, b) ∧ b.sum = 1 ∧
      A.map List.sum = abscissae := by
  simp only [coefficients, bind_eq_ok, escape_eq_ok, raiseIf_eq_ok, ne_eq, not_or, not_not,
    pure_eq_ok, Prod.mk.injEq] at h
  obtain ⟨A', hrows, ⟨base, b'⟩, hfinal, -, ⟨rfl, hsum⟩, -, habscissae, rfl, rfl⟩ := h
  exact ⟨hrows, hfinal, hsum, habscissae⟩

/-- The numbers of literals, read as far as they are exact. -/
def exactScalar : ScalarData → ℚ
  | .number value => value.value
  | _ => 0

/-- The method of accepted coefficients: its matrix is strictly lower triangular, its nodes are the
sums of the rows, and its weights sum to one. -/
lemma method_of_coefficients {graph : ProgramGraph} {stateId finalRef : ℕ} {rhs : List GraphNode}
    {abscissae : List ℚ} {A : List (List ℚ)} {b : List ℚ}
    (h : coefficients graph stateId finalRef rhs abscissae = .ok (A, b)) :
    Explicit (fun i j : Fin rhs.length => (A.getD i []).getD j 0) ∧
      (fun i : Fin rhs.length => abscissae.getD i 0) =
        RungeKutta.nodes (fun i j : Fin rhs.length => (A.getD i []).getD j 0) ∧
      ∑ i : Fin rhs.length, b.getD i 0 = 1 := by
  obtain ⟨hrows, hfinal, hsum, rfl⟩ := coefficients_spec h
  obtain ⟨hlength, hrow⟩ := stageRows_spec hrows
  -- the rows have the lengths of their stages, whatever the operations of the graph compute
  let M : Meaning ℚ ℚ := ⟨0, exactScalar, fun _ => (Rat.cast_id _).symm, fun _ => 0, fun _ _ => 0⟩
  have hk : ∀ (j : ℕ) (node : GraphNode), rhs[j]? = some node →
      M.run graph ((rhs[j]?.map GraphNode.nodeId).getD 0) = M.run graph node.nodeId := by
    intro j node hj
    rw [hj]
    rfl
  have hrowLength : ∀ i : Fin rhs.length, (A.getD i []).length = i := by
    intro i
    obtain ⟨ref, others, row, -, hget, haffine⟩ := hrow i _ (List.getElem?_eq_getElem i.isLt)
    rw [List.getD_eq_getElem?_getD, hget, Option.getD_some]
    simpa using (affine_spec M hk haffine).1
  refine ⟨fun i j hij => List.getD_eq_default _ _ (by rw [hrowLength]; exact hij), ?_, ?_⟩
  · funext i
    have hsumRow := sum_getD rhs.length (A.getD i []) (by rw [hrowLength]; omega)
    rw [List.getD_eq_getElem?_getD, List.getElem?_map, RungeKutta.nodes, RungeKutta.matvec]
    simp only [Pi.one_apply, mul_one]
    rw [hsumRow, List.getD_eq_getElem?_getD]
    cases A[i.val]? <;> simp
  · rw [sum_getD _ b (by rw [(affine_spec M hk hfinal).1]), hsum]

/-- The graph performs a step of this method. -/
lemma isStep_of_coefficients {graph : ProgramGraph} {stateId finalRef : ℕ} {rhs : List GraphNode}
    {abscissae : List ℚ} {A : List (List ℚ)} {b : List ℚ}
    (h : coefficients graph stateId finalRef rhs abscissae = .ok (A, b))
    (hrates : ∀ node ∈ rhs, node ∈ graph.nodes ∧ isExplicitRateCall node = true) (M : Meaning K V) :
    IsStep (fun i j : Fin rhs.length => (((A.getD i []).getD j 0 : ℚ) : K))
      (fun i => ((b.getD i 0 : ℚ) : K))
      (fun i v => M.call (rhs.get i) (v :: (rhs.get i).references.tail.map (M.run graph)))
      M.dt (M.run graph stateId) (M.run graph finalRef) := by
  obtain ⟨hrows, hfinal, -, -⟩ := coefficients_spec h
  have hk : ∀ (j : ℕ) (node : GraphNode), rhs[j]? = some node →
      M.run graph ((rhs[j]?.map GraphNode.nodeId).getD 0) = M.run graph node.nodeId := by
    intro j node hj
    rw [hj]
    rfl
  have hkFin : ∀ j : Fin rhs.length,
      M.run graph ((rhs[j.val]?.map GraphNode.nodeId).getD 0) = M.run graph (rhs.get j).nodeId :=
    fun j => hk j _ (List.getElem?_eq_getElem j.isLt)
  refine ⟨fun i => M.run graph (rhs.get i).nodeId, fun i => ?_, ?_⟩
  · obtain ⟨ref, others, row, hrefs, hget, haffine⟩ :=
      (stageRows_spec hrows).2 i (rhs.get i) (List.getElem?_eq_getElem i.isLt)
    obtain ⟨hmem, hrate⟩ := hrates (rhs.get i) (List.get_mem rhs i)
    obtain ⟨hlength, hvalue⟩ := affine_spec M hk haffine
    rw [combination_eq_sum (n := rhs.length) _ (by omega), Rat.cast_one, one_smul] at hvalue
    have hrow : A.getD i.val [] = row := by rw [List.getD_eq_getElem?_getD, hget, Option.getD_some]
    simp only [hkFin] at hvalue
    simp only [graph.run_eq M hmem, value_rate M hrate, hrefs, List.map_cons, hvalue,
      List.tail_cons, hrow]
  · obtain ⟨hlength, hvalue⟩ := affine_spec M hk hfinal
    rw [combination_eq_sum (n := rhs.length) _ (by omega), Rat.cast_one, one_smul] at hvalue
    simpa only [hkFin] using hvalue

/-- A graph with a certificate performs, whatever its operations compute, one step of the explicit
method of the certificate, whose nodes are the row sums of its matrix: the value that is committed
is the result of the step from the state, and the rate of every stage is computed from the state of
that stage and at the point of its node. The published order is the largest one, up to four, for
which the order conditions of all rooted trees hold. -/
theorem certifyProgramGraph_sound {graph : ProgramGraph} {certificate : MethodCertificate}
    {properties : MethodProperties}
    (h : certifyProgramGraph graph = .ok ⟨some certificate, properties⟩) (M : Meaning K V) :
    Explicit certificate.A ∧ certificate.c = RungeKutta.nodes certificate.A ∧
    (∃ p, properties.order = .proved p ∧ 1 ≤ p ∧ p ≤ 4 ∧
      ∀ q ≤ 4, TreeOrder certificate.A certificate.b q ↔ q ≤ p) ∧
    ∃ (state commit : GraphNode) (result : ℕ) (rates : Fin certificate.stages → GraphNode),
      graph.nodes.filter GraphNode.isStateRead = [state] ∧
      graph.nodes.filter GraphNode.isCommit = [commit] ∧ commit.kind = .commit result ∧
      graph.nodes.filter isExplicitRateCall = List.ofFn rates ∧
      (∀ i, pointOffset (rates i).point = .ok (certificate.c i)) ∧
      IsStep (fun i j => (certificate.A i j : K)) (fun i => (certificate.b i : K))
        (fun i v => M.call (rates i) (v :: (rates i).references.tail.map (M.run graph)))
        M.dt (M.state state) (M.run graph result) := by
  obtain ⟨state, commit, abscissae, A, b, hstates, hcommits, hoffsets, hcoefficients, rfl, rfl⟩ :=
    certifyProgramGraph_cases h
  obtain ⟨hexplicit, hnodes, hsum⟩ := method_of_coefficients hcoefficients
  obtain ⟨hrows, hfinal, -, -⟩ := coefficients_spec hcoefficients
  set rhs := graph.nodes.filter isExplicitRateCall with hrhs
  have horder := provedOrder_spec (A := fun i j : Fin rhs.length => (A.getD i []).getD j 0) hsum
  rw [← hnodes] at horder
  -- the state and the commit
  have hstate : state ∈ graph.nodes ∧ state.isStateRead = true :=
    List.mem_filter.mp (hstates ▸ List.mem_singleton_self state)
  have hstateKind : state.kind = .stateRead := by
    have hread := hstate.2
    unfold GraphNode.isStateRead at hread
    split at hread
    · assumption
    · cases hread
  have hcommit : commit ∈ graph.nodes ∧ commit.isCommit = true :=
    List.mem_filter.mp (hcommits ▸ List.mem_singleton_self commit)
  obtain ⟨result, hresult⟩ : ∃ result, commit.kind = .commit result := by
    have hread := hcommit.2
    unfold GraphNode.isCommit at hread
    split at hread
    · rename_i result hkind
      exact ⟨result, hkind⟩
    · cases hread
  have hstateRun : M.run graph state.nodeId = M.state state := by
    rw [graph.run_eq M hstate.1, M.value_stateRead hstateKind]
  have hstep := isStep_of_coefficients hcoefficients
    (fun node hnode => List.mem_filter.mp (hrhs ▸ hnode)) M
  simp only [hstateRun, GraphNode.references, hresult, List.headD_cons] at hstep
  exact ⟨hexplicit, hnodes, horder, state, commit, result, rhs.get, hstates, hcommits, hresult,
    (List.ofFn_get rhs).symm,
    fun i => (rateOffsets_spec hoffsets).2 i _ (List.getElem?_eq_getElem i.isLt), hstep⟩

end Soundness

/-! ### An example -/

/-- The graph of one step of Heun's method on a clock: a rate at the state, a rate at the end of an
Euler step, and the step with their mean. -/
def heunGraph : ProgramGraph where
  nodes := [
    ⟨0, .stateRead, .time ⟨"macro", .number (.int 0), 0⟩⟩,
    ⟨1, .operatorCall ⟨some "local_rate", some "rhs", some "rhs"⟩ [0],
      .time ⟨"macro", .number (.int 0), 0⟩⟩,
    ⟨2, .programValue "linear_combine" [0, 1]
      (some [⟨[(0, .number (.int 1))], by decide⟩, ⟨[(1, .number (.int 1))], by decide⟩]),
      .time ⟨"macro", .number (.int 1), 0⟩⟩,
    ⟨3, .operatorCall ⟨some "local_rate", some "rhs", some "rhs"⟩ [2],
      .time ⟨"macro", .number (.int 1), 0⟩⟩,
    ⟨4, .programValue "linear_combine" [0, 1, 3]
      (some [⟨[(0, .number (.int 1))], by decide⟩,
        ⟨[(1, .number (.fraction (1 / 2)))], by decide⟩,
        ⟨[(1, .number (.fraction (1 / 2)))], by decide⟩]),
      .time ⟨"macro", .number (.int 0), 1⟩⟩,
    ⟨5, .commit 4, .time ⟨"macro", .number (.int 0), 1⟩⟩]
  valid := by decide +kernel

/-- The meaning of the graph for decay with a time step of one half, from the value one. -/
def decay : Meaning ℚ ℚ where
  dt := 1 / 2
  scalar := exactScalar
  scalar_number := fun _ => (Rat.cast_id _).symm
  state := fun _ => 1
  call := fun _ inputs => -inputs.headD 0

/-- The graph is certified, its nodes are the row sums, and decay takes one to five eighths. -/
theorem certifyProgramGraph_sound_heun :
    ∃ certificate,
      (∃ properties, certifyProgramGraph heunGraph = .ok ⟨some certificate, properties⟩) ∧
      Explicit certificate.A ∧ certificate.c = RungeKutta.nodes certificate.A ∧
      decay.run heunGraph 4 = 5 / 8 := by
  have hcertified : certified (certifyProgramGraph heunGraph) = true := by decide +kernel
  unfold certified at hcertified
  split at hcertified
  · rename_i certificate properties h
    obtain ⟨hexplicit, hnodes, -⟩ := certifyProgramGraph_sound h decay
    exact ⟨certificate, ⟨properties, h⟩, hexplicit, hnodes, by decide +kernel⟩
  · cases hcertified

end Pops.Time
