import Pops.Core.Identity.ScalarLiteral
import Pops.Foundation.SignificantBits
import Pops.Foundation.RungeKutta

/-!
# Tableaux of Runge–Kutta methods

A tableau keeps the coefficients of a method in the exact domain in which they were written: the
rows of its matrix without the entries that have to be zero, the weights, and the nodes.  Its
constructor checks the shape of the rows, that the weights sum to one, and that the nodes are the
sums of the rows.

## Main definitions

* `Pops.Time.Coefficient` — the coefficients, with their exact values.
* `Pops.Time.RungeKuttaTableau`, `DiagonallyImplicitRungeKuttaTableau`, `AdditiveRungeKuttaTableau`
  — the tableaux, with what their constructors check.
* `Pops.Time.RungeKuttaTableau.init` — the constructor.
* `Pops.Time.dense` — the square matrix of a list of rows.

## Main results

* `Pops.Time.Arrays.nodes_dense` — the nodes of a tableau are the nodes of its square matrix.
* `Pops.Time.Arrays.explicit_dense` — the square matrix of an explicit tableau is strictly lower
  triangular.
-/

namespace Pops.Time

open Scalar (Number)

/-! ## Coefficients -/

/-- A coefficient as `exact_coefficient` returns it: a number in its exact domain, or a finite
binary64 number. -/
inductive Coefficient
  | number (value : Number)
  | binary64 (value : ℚ) (rounded : SignificantBits.binary64 value = some value)

/-- `exact_fraction` of a coefficient: the rational number that it stands for. -/
def Coefficient.value : Coefficient → ℚ
  | .number value => value.value
  | .binary64 value _ => value

/-! ## The parts of a tableau -/

/-- The sum of the exact values of coefficients. -/
def exactSum (values : List Coefficient) : ℚ := (values.map Coefficient.value).sum

/-- The number of the active coefficients of row `i`. -/
def activeWidth (diagonal : Bool) (i : ℕ) : ℕ := if diagonal then i + 1 else i

/-- `_rows` after the check of the stage count: each row without the entries that have to be zero.
-/
def rowsFrom (stages : ℕ) (diagonal : Bool) (place : String) : ℕ → List (List Coefficient) →
    Raises (List (List Coefficient))
  | _, [] => .ok []
  | i, raw :: source => do
    let width := activeWidth diagonal i
    raiseIf (raw.length < width ∨ stages < raw.length)
      (valueError s!"{place}[{i}] must provide {width} active coefficient(s)")
    let shape := if diagonal then "lower-triangular" else "strictly lower-triangular"
    raiseIf (∃ item ∈ raw.drop width, item.value ≠ 0) (valueError s!"{place} must be {shape}")
    let rest ← rowsFrom stages diagonal place (i + 1) source
    return raw.take width :: rest

/-- `_rows`: a triangular array, row by row. -/
def rows (A : List (List Coefficient)) (stages : ℕ) (diagonal : Bool) (place : String) :
    Raises (List (List Coefficient)) := do
  raiseIf (A.length ≠ stages) (valueError s!"{place} and weights must share the stage count")
  rowsFrom stages diagonal place 0 A

/-- `_weights`: at least one weight. -/
def weights (values : List Coefficient) (place : String) : Raises (List Coefficient) := do
  raiseIf (values = []) (valueError s!"{place} requires at least one stage")
  return values

/-- `repr` of a fraction. -/
def reprFraction (q : ℚ) : String := s!"Fraction({q.num}, {q.den})"

/-- The comparison of given nodes with the sums of the rows. -/
def checkNodes (place : String) : ℕ → List Coefficient → List ℚ → Raises Unit
  | i, actual :: result, expected :: sums => do
    raiseIf (actual.value ≠ expected)
      (valueError s!"{place}.c[{i}] must equal exact row sum {reprFraction expected}")
    checkNodes place (i + 1) result sums
  | _, _, _ => .ok ()

/-- `_nodes`: the row sums, which given nodes have to equal. -/
def nodes (rows : List (List Coefficient)) (c : Option (List Coefficient)) (place : String) :
    Raises (List Coefficient) :=
  let sums := rows.map exactSum
  match c with
  | none => .ok (sums.map fun q => .number (.fraction q))
  | some c => do
    let result ← weights c s!"{place}.c"
    raiseIf (result.length ≠ rows.length)
      (valueError s!"{place} A, b, and c must share the stage count")
    checkNodes place 0 result sums
    return result

/-- The square matrix of rows: the entries that are not stored are zero. -/
def dense (stages : ℕ) (rows : List (List Coefficient)) (i j : Fin stages) : ℚ :=
  ((rows.getD i []).map Coefficient.value).getD j 0

/-- A row of coefficients as a vector. -/
def vector (stages : ℕ) (values : List Coefficient) (i : Fin stages) : ℚ :=
  (values.map Coefficient.value).getD i 0

/-- Arrays of one partition: a lower-triangular matrix, and its nodes. -/
structure Arrays (stages : ℕ) (diagonal : Bool) where
  rows : List (List Coefficient)
  nodes : List Coefficient
  length_rows : rows.length = stages
  length_row : ∀ i row, rows[i]? = some row → row.length = activeWidth diagonal i
  values_nodes : nodes.map Coefficient.value = rows.map exactSum

/-! ## What the checks give -/

section Checks

variable {stages : ℕ} {diagonal : Bool} {place : String}

/-- Accepted rows have the lengths of their active parts. -/
lemma rowsFrom_spec : ∀ {A result : List (List Coefficient)} {i : ℕ},
    rowsFrom stages diagonal place i A = .ok result →
      result.length = A.length ∧
      ∀ n row, result[n]? = some row → row.length = activeWidth diagonal (i + n)
  | [], result, i, h => by
    obtain rfl := Except.ok.inj h
    exact ⟨rfl, fun n row h => by simp at h⟩
  | raw :: source, result, i, h => by
    simp only [rowsFrom, bind_eq_ok, raiseIf_eq_ok, pure_eq_ok] at h
    obtain ⟨-, hwidth, -, -, rest, hrest, rfl⟩ := h
    obtain ⟨hlength, hrows⟩ := rowsFrom_spec hrest
    refine ⟨by simp [hlength], fun n row hn => ?_⟩
    cases n with
    | zero =>
      obtain rfl := Option.some.inj hn
      simp only [List.length_take, Nat.add_zero]
      omega
    | succ n =>
      rw [hrows n row hn]
      congr 1
      omega

/-- Accepted nodes are the sums of the rows. -/
lemma checkNodes_spec : ∀ {result : List Coefficient} {sums : List ℚ} {i : ℕ},
    result.length = sums.length → checkNodes place i result sums = .ok () →
      result.map Coefficient.value = sums
  | [], [], _, _, _ => rfl
  | [], _ :: _, _, h, _ => by simp at h
  | _ :: _, [], _, h, _ => by simp at h
  | actual :: result, expected :: sums, i, hlength, h => by
    simp only [checkNodes, bind_eq_ok, raiseIf_eq_ok, not_not] at h
    obtain ⟨-, hvalue, hrest⟩ := h
    rw [List.map_cons, hvalue, checkNodes_spec (by simpa using hlength) hrest]

/-- Accepted nodes are the sums of the rows. -/
lemma nodes_spec {rows : List (List Coefficient)} {c : Option (List Coefficient)}
    {result : List Coefficient} (h : nodes rows c place = .ok result) :
    result.map Coefficient.value = rows.map exactSum := by
  cases c with
  | none =>
    obtain rfl := Except.ok.inj h
    simp [Function.comp_def, Coefficient.value, Number.value]
  | some c =>
    simp only [nodes, bind_eq_ok, raiseIf_eq_ok, not_not, pure_eq_ok] at h
    obtain ⟨values, -, -, hlength, _, hcheck, rfl⟩ := h
    exact checkNodes_spec (by simpa using hlength) hcheck

/-- The arrays of a partition from its checked parts. -/
def Arrays.ofChecked {A rows : List (List Coefficient)} {c : Option (List Coefficient)}
    {nodes : List Coefficient} {place' : String}
    (hrows : Time.rows A stages diagonal place = .ok rows)
    (hnodes : Time.nodes rows c place' = .ok nodes) : Arrays stages diagonal where
  rows := rows
  nodes := nodes
  length_rows := by
    simp only [Time.rows, bind_eq_ok, raiseIf_eq_ok, not_not] at hrows
    obtain ⟨-, hlength, hfrom⟩ := hrows
    rw [(rowsFrom_spec hfrom).1, hlength]
  length_row := by
    simp only [Time.rows, bind_eq_ok, raiseIf_eq_ok, not_not] at hrows
    obtain ⟨-, -, hfrom⟩ := hrows
    simpa using (rowsFrom_spec hfrom).2
  values_nodes := nodes_spec hnodes

end Checks

/-! ## Tableaux -/

/-- `RungeKuttaTableau`: an explicit tableau as authored. -/
structure RungeKuttaTableau where
  b : List Coefficient
  arrays : Arrays b.length false
  name : Option String
  sum_eq_one : exactSum b = 1
  name_ne : name ≠ some ""

/-- `DiagonallyImplicitRungeKuttaTableau`: a diagonally implicit tableau as authored. -/
structure DiagonallyImplicitRungeKuttaTableau where
  b : List Coefficient
  arrays : Arrays b.length true
  name : Option String
  sum_eq_one : exactSum b = 1
  name_ne : name ≠ some ""

/-- `AdditiveRungeKuttaTableau`: two tableaux of one pair. -/
structure AdditiveRungeKuttaTableau where
  explicit : RungeKuttaTableau
  implicitB : List Coefficient
  length_eq : implicitB.length = explicit.b.length
  implicitArrays : Arrays explicit.b.length true
  name : Option String
  sum_eq_one : exactSum implicitB = 1
  name_ne : name ≠ some ""

/-- `RungeKuttaTableau.__init__`: the checks of an explicit tableau. -/
def RungeKuttaTableau.init (A : List (List Coefficient)) (b : List Coefficient)
    (c : Option (List Coefficient)) (name : Option String) : Raises RungeKuttaTableau := do
  let b ← weights b "RungeKuttaTableau.b"
  match hrows : rows A b.length false "RungeKuttaTableau.A" with
  | .error e => .error e
  | .ok rows =>
    if hsum : exactSum b = 1 then
      if hname : name ≠ some "" then
        match hnodes : nodes rows c "RungeKuttaTableau" with
        | .error e => .error e
        | .ok _ => .ok ⟨b, .ofChecked hrows hnodes, name, hsum, hname⟩
      else .error (valueError "RungeKuttaTableau name must be a non-empty string or None")
    else .error (valueError "RungeKuttaTableau weights b must sum exactly to 1")

/-- `DiagonallyImplicitRungeKuttaTableau.__init__`: the checks of a diagonally implicit tableau. -/
def DiagonallyImplicitRungeKuttaTableau.init (A : List (List Coefficient)) (b : List Coefficient)
    (c : Option (List Coefficient)) (name : Option String) :
    Raises DiagonallyImplicitRungeKuttaTableau := do
  let b ← weights b "DIRK.b"
  match hrows : rows A b.length true "DIRK.A" with
  | .error e => .error e
  | .ok rows =>
    if hsum : exactSum b = 1 then
      if hname : name ≠ some "" then
        match hnodes : nodes rows c "DIRK" with
        | .error e => .error e
        | .ok _ => .ok ⟨b, .ofChecked hrows hnodes, name, hsum, hname⟩
      else .error (valueError "DIRK name must be a non-empty string or None")
    else .error (valueError "DIRK weights b must sum exactly to 1")

/-- `AdditiveRungeKuttaTableau.__init__`: the checks of a pair, whose parts share their stages. -/
def AdditiveRungeKuttaTableau.init (explicit : RungeKuttaTableau)
    (implicitA : List (List Coefficient)) (implicitB : List Coefficient)
    (implicitC : Option (List Coefficient)) (name : Option String) :
    Raises AdditiveRungeKuttaTableau := do
  let b ← weights implicitB "AdditiveRungeKuttaTableau.implicit_b"
  if hlength : b.length = explicit.b.length then
    if hsum : exactSum b = 1 then
      match hrows : rows implicitA explicit.b.length true
        "AdditiveRungeKuttaTableau.implicit_A" with
      | .error e => .error e
      | .ok rows =>
        if hname : name ≠ some "" then
          match hnodes : nodes rows implicitC "ARK implicit" with
          | .error e => .error e
          | .ok _ => .ok ⟨explicit, b, hlength, .ofChecked hrows hnodes, name, hsum, hname⟩
        else .error (valueError "ARK name must be a non-empty string or None")
    else .error (valueError "ARK implicit weights must sum exactly to 1")
  else .error (valueError "ARK partitions must share the stage count")

/-! ## The tableaux of the library -/

/-- `SSPRK2_TABLEAU`: Heun's method as the monotone method of order two. -/
def ssprk2Tableau : RungeKuttaTableau where
  b := [.number (.fraction (1 / 2)), .number (.fraction (1 / 2))]
  arrays := {
    rows := [[], [.number (.int 1)]]
    nodes := [.number (.int 0), .number (.int 1)]
    length_rows := rfl
    length_row := fun i row h => by
      match i with
      | 0 => obtain rfl := Option.some.inj h; rfl
      | 1 => obtain rfl := Option.some.inj h; rfl
      | _ + 2 => simp at h
    values_nodes := by decide +kernel }
  name := some "ssprk2"
  sum_eq_one := by decide +kernel
  name_ne := by decide

/-! ## The arrays as matrices and vectors -/

variable {stages : ℕ} {diagonal : Bool}

/-- The sum of a list over the positions of a vector that holds it. -/
lemma sum_getD (stages : ℕ) (values : List ℚ) (h : values.length ≤ stages) :
    ∑ i : Fin stages, values.getD i 0 = values.sum := by
  rw [Fin.sum_univ_eq_sum_range fun i => values.getD i 0]
  have hsplit : ∑ i ∈ Finset.range stages, values.getD i 0 =
      ∑ i ∈ Finset.range values.length, values.getD i 0 := by
    refine (Finset.sum_subset (Finset.range_mono h) fun i _ hi => ?_).symm
    rw [Finset.mem_range, not_lt] at hi
    exact List.getD_eq_default _ _ hi
  rw [hsplit]
  clear h hsplit
  induction values with
  | nil => simp
  | cons x values ih =>
    rw [List.length_cons, Finset.sum_range_succ', List.sum_cons, add_comm]
    simp only [List.getD_cons_zero, List.getD_cons_succ, ih]

/-- The weights of a tableau sum to one. -/
lemma sum_vector (stages : ℕ) {values : List Coefficient} (h : values.length = stages) :
    ∑ i, vector stages values i = exactSum values := by
  rw [exactSum, ← sum_getD stages _ (by simp [h])]
  rfl

/-- The nodes of a tableau are the nodes of its square matrix. -/
theorem Arrays.nodes_dense (arrays : Arrays stages diagonal) :
    vector stages arrays.nodes = RungeKutta.nodes (dense stages arrays.rows) := by
  funext i
  have hrow := List.getElem?_eq_getElem (l := arrays.rows) (i := i.val)
    (by rw [arrays.length_rows]; exact i.isLt)
  have hlength := arrays.length_row i _ hrow
  have hwidth : activeWidth diagonal i ≤ stages := by
    unfold activeWidth
    split <;> omega
  rw [vector, arrays.values_nodes, List.getD_eq_getElem?_getD, List.getElem?_map, hrow,
    Option.map_some,
    Option.getD_some, exactSum, ← sum_getD stages _ (by simpa [hlength] using hwidth)]
  simp only [RungeKutta.nodes, RungeKutta.matvec, dense, List.getD_eq_getElem?_getD, hrow,
    Option.getD_some, Pi.one_apply, mul_one]

/-- The square matrix of an explicit tableau is zero on and above the diagonal. -/
theorem Arrays.explicit_dense (arrays : Arrays stages false) :
    RungeKutta.Explicit (dense stages arrays.rows) := by
  intro i j hij
  have hrow := List.getElem?_eq_getElem (l := arrays.rows) (i := i.val)
    (by rw [arrays.length_rows]; exact i.isLt)
  have hlength := arrays.length_row i _ hrow
  refine List.getD_eq_default _ _ ?_
  rw [List.length_map, List.getD_eq_getElem?_getD, hrow, Option.getD_some, hlength]
  exact hij

end Pops.Time
