import Pops.Amr.Levels.Rational
import Pops.Foundation.Double
import Pops.Foundation.Method
import Pops.Foundation.MapSum

/-!
# Flux expressions of an AMR attempt

Inside an attempt every field carries its flux expression: a sum of evaluated face-flux bases, each
with a coefficient that is a polynomial in the step `dt` with exact rational factors.  The vector
operations of a program update the expressions beside the values.  All metadata is prepared before
the numeric kernel runs, and is published after it.

`Real` is binary64, and every sum, product and quotient is rounded.  The agreement of the ranks on
a preparation is a parameter of an operation.

## Main definitions

* `Pops.ExactPolynomial`, `FluxExpression` — coefficients and expressions.
* `Pops.multiplyExactPolynomials`, `addExactPolynomial`, `scaledFluxExpression`, `addFluxExpression`
  — their arithmetic.
* `Pops.evaluateExactPolynomial`, `exactBinaryRational` — from coefficients to machine numbers and
  back.
* `Pops.FluxContext`, `FluxOperation.execute` — the state of an attempt and its operations.
-/

namespace Pops

/-! ## Coefficients -/

/-- `ExactPolynomial`: the factors of the powers of `dt`. -/
abbrev ExactPolynomial := List (ℤ × Rational)

/-- One term of the exact metadata of a coefficient. -/
structure ExactCoefficientTerm where
  dtPower : ℤ
  numerator : ℤ
  denominator : ℤ

/-- Drops the terms with factor zero. -/
def eraseZeroTerms (polynomial : ExactPolynomial) : ExactPolynomial :=
  polynomial.filter fun term => decide (term.2.numerator ≠ 0)

/-- Adds a factor to the term of a power, or inserts the term. -/
def addTerm (polynomial : ExactPolynomial) (power : ℤ) (factor : Rational) :
    Throws ExactPolynomial :=
  match OrderedMap.lookup polynomial power with
  | none => .ok (OrderedMap.emplace polynomial power factor)
  | some found => do return OrderedMap.assign polynomial power (← Rational.add found factor)

/-- The product of two polynomials. -/
def multiplyExactPolynomials (left right : ExactPolynomial) : Throws ExactPolynomial := do
  let result ← left.foldlM (fun result (leftTerm : ℤ × Rational) =>
    right.foldlM (fun result (rightTerm : ℤ × Rational) => do
      throwIf (leftTerm.1 > intMax - rightTerm.1)
        (overflowError "AMR Program flux coefficient dt power exceeds int")
      let product ← Rational.mul leftTerm.2 rightTerm.2
      addTerm result (leftTerm.1 + rightTerm.1) product) result) []
  return eraseZeroTerms result

/-- The sum of two polynomials. -/
def addExactPolynomial (destination source : ExactPolynomial) : Throws ExactPolynomial := do
  let result ← source.foldlM (fun result (term : ℤ × Rational) => addTerm result term.1 term.2)
    destination
  return eraseZeroTerms result

/-- `Rational::value`: the quotient of the rounded numerator and denominator. -/
def Rational.value (r : Rational) : Double :=
  Double.ofInt r.numerator / Double.ofInt r.denominator

/-- The value of a polynomial at `dt`, with the powers of `dt` by repeated multiplication. -/
def evaluateExactPolynomial (polynomial : ExactPolynomial) (dt : Double) : Double :=
  polynomial.foldl (fun result term =>
    let dtPower := (List.range term.1.toNat).foldl (fun dtPower _ => dtPower * dt) (Double.ofInt 1)
    result + term.2.value * dtPower) (Double.ofInt 0)

/-- The polynomial of a coefficient with exact metadata, which must name the active step and have
the value of the numeric factor. -/
def exactCoefficientUnchecked (currentDt factor referenceDt : Double)
    (terms : List ExactCoefficientTerm) : Throws ExactPolynomial := do
  throwIf (¬ factor.isFinite ∨ ¬ referenceDt.isFinite ∨ ¬ referenceDt.equal currentDt)
    (invalidArgument "AMR Program flux coefficient does not name the active exact dt")
  let polynomial ← terms.foldlM (fun polynomial (term : ExactCoefficientTerm) => do
    throwIf (term.dtPower < 0 ∨ term.denominator ≤ 0)
      (invalidArgument "AMR Program flux coefficient metadata is invalid")
    let coefficient ← Rational.create term.numerator term.denominator
    throwIf (coefficient.numerator ≠ term.numerator ∨ coefficient.denominator ≠ term.denominator)
      (invalidArgument "AMR Program flux coefficient metadata is not canonical")
    addTerm polynomial term.dtPower coefficient) []
  let polynomial := eraseZeroTerms polynomial
  throwIf (¬ (evaluateExactPolynomial polynomial referenceDt).equal factor)
    (invalidArgument "AMR Program numerical coefficient differs from its exact metadata")
  return polynomial

/-- `std::numeric_limits<double>::digits`. -/
def digits : ℕ := 53

/-- `exact_binary_rational_`: the rational number that a machine number stands for. -/
def exactBinaryRational (value : Double) : Throws Rational :=
  match value.value with
  | none => .error (invalidArgument "AMR Program coefficient is not finite")
  | some x =>
    if x = 0 then Rational.create 0 1
    else
      let mantissa : ℕ := ⌊(Double.frexp x).1 * 2 ^ digits⌋₊
      let binaryPower := (Double.frexp x).2 - digits
      if 0 ≤ binaryPower then do
        throwIf (63 ≤ binaryPower ∨ mantissa > int64Max.toNat / 2 ^ binaryPower.toNat)
          (overflowError "AMR Program coefficient exceeds exact int64 metadata")
        let numerator : ℤ := mantissa * 2 ^ binaryPower.toNat
        Rational.create (if x < 0 then -numerator else numerator) 1
      else do
        throwIf (63 ≤ -binaryPower)
          (overflowError "AMR Program coefficient denominator exceeds exact int64 metadata")
        let numerator : ℤ := mantissa
        Rational.create (if x < 0 then -numerator else numerator) (2 ^ (-binaryPower).toNat)

-- minus one half stands for a fraction of small integers
example : exactBinaryRational (Double.ofRat (-1 / 2)) = .ok ⟨-1, 2⟩ := by decide +kernel

/-! ## Expressions -/

/-- One basis of an expression with its coefficient.  Bases are shared and compared by address. -/
structure FluxExpressionTerm (β : Type) where
  basis : β
  coefficient : ExactPolynomial
  deriving DecidableEq

/-- `FluxExpression`: the terms of an expression by basis identity. -/
abbrev FluxExpression (β : Type) := List (ℕ × FluxExpressionTerm β)

/-- What the operations of an attempt use from the context that owns them. -/
structure FluxEnvironment (φ β : Type) where
  /-- The identity of a basis. -/
  identity : β → ℕ
  /-- The runtime block of a basis. -/
  runtimeBlock : β → ℕ
  /-- `prepared_rhs_basis_bounds_`, by runtime block. -/
  rhsBasisBounds : List ℕ
  /-- `prepared_coefficient_term_bounds_`, by runtime block. -/
  coefficientTermBounds : List ℕ
  /-- `require_same_field_contract_`: two fields live on the same layout. -/
  requireSameFieldContract : φ → φ → String → Throws Unit
  /-- The number of ranks of the execution lane. -/
  laneSize : ℕ

variable {ι φ β : Type} [DecidableEq β]

/-- The expression of a single evaluated basis. -/
def basisExpression (env : FluxEnvironment φ β) (basis : β) : FluxExpression β :=
  [(env.identity basis, ⟨basis, [(0, ⟨1, 1⟩)]⟩)]

/-- The multiple of an expression by a polynomial. -/
def scaledFluxExpression (expression : FluxExpression β) (coefficient : ExactPolynomial) :
    Throws (FluxExpression β) :=
  if coefficient = [] then .ok []
  else expression.foldlM (fun result (entry : ℕ × FluxExpressionTerm β) => do
    let scaled ← multiplyExactPolynomials entry.2.coefficient coefficient
    if scaled ≠ [] then
      return OrderedMap.emplace result entry.1 ⟨entry.2.basis, scaled⟩
    else return result) []

/-- The sum of two expressions. -/
def addFluxExpression (destination source : FluxExpression β) : Throws (FluxExpression β) :=
  source.foldlM (fun destination (entry : ℕ × FluxExpressionTerm β) =>
    match OrderedMap.lookup destination entry.1 with
    | none => .ok (OrderedMap.emplace destination entry.1 entry.2)
    | some found => do
      throwIf (found.basis ≠ entry.2.basis)
        (logicError "AMR Program flux basis identity aliases another evaluation")
      let coefficient ← addExactPolynomial found.coefficient entry.2.coefficient
      if coefficient = [] then
        return destination.filter fun entry' => decide (entry'.1 ≠ entry.1)
      else return OrderedMap.assign destination entry.1 ⟨found.basis, coefficient⟩) destination

/-- The budget of the artifact for the bases and the coefficient terms of an expression. -/
def requireFluxExpressionBudget (env : FluxEnvironment φ β) (expression : FluxExpression β) :
    Throws Unit := do
  let _ ← expression.foldlM (fun (basesByBlock : ℕ → ℕ) (entry : ℕ × FluxExpressionTerm β) => do
    let block := env.runtimeBlock entry.2.basis
    throwIf (block ≥ env.rhsBasisBounds.length ∨ block ≥ env.coefficientTermBounds.length)
      (logicError "AMR Program flux expression has a foreign basis identity")
    let count := basesByBlock block + 1
    throwIf (count > env.rhsBasisBounds.getD block 0 ∨
        entry.2.coefficient.length > env.coefficientTermBounds.getD block 0)
      (lengthError "AMR Program flux expression exceeds its authenticated artifact budget")
    return Function.update basesByBlock block count) fun _ => 0
  return ()

/-! ## The attempt -/

/-- The state of an attempt: whether it is active, its step, and the expression and the cell values
of every field.  A field without a registered expression has the empty one. -/
structure FluxContext (ι φ β : Type) where
  active : Bool
  dt : Double
  expressions : φ → FluxExpression β
  values : φ → ι → Double

/-- For every agreement of an operation, whether the preparation of another rank fails. -/
abbrev Peers := ℕ → Bool

/-- Runs a preparation and agrees with the other ranks that all of them succeeded. -/
def prepareFluxMetadataCollectively {α : Type} (env : FluxEnvironment φ β)
    (s : FluxContext ι φ β) (peerFails : Bool) (build : Throws α) (failure : String) :
    Throws α :=
  if s.active = false then build
  else match build with
    | .ok result => if peerFails then .error (runtimeError failure) else .ok result
    | .error e => if env.laneSize = 1 then .error e else .error (runtimeError failure)

/-- The expression of a field inside an attempt. -/
def activeFluxExpression (s : FluxContext ι φ β) (field : φ) : FluxExpression β :=
  if s.active = false then [] else s.expressions field

section Operations

variable [DecidableEq φ] (env : FluxEnvironment φ β)

/-- The polynomial of a coefficient with exact metadata. -/
def exactCoefficient (s : FluxContext ι φ β) (peerFails : Bool) (factor referenceDt : Double)
    (terms : List ExactCoefficientTerm) : Throws ExactPolynomial :=
  prepareFluxMetadataCollectively env s peerFails
    (exactCoefficientUnchecked s.dt factor referenceDt terms)
    "AMR Program exact flux coefficient failed collectively"

/-- The constant polynomial of a numeric factor. -/
def exactRuntimeCoefficient (s : FluxContext ι φ β) (peerFails : Bool) (factor : Double) :
    Throws ExactPolynomial :=
  prepareFluxMetadataCollectively env s peerFails
    (if s.active = false then .ok []
    else do return [(0, ← exactBinaryRational factor)])
    "AMR Program runtime flux coefficient failed collectively"

/-- The polynomial of a numeric factor as a multiple of `dt`. -/
def exactRuntimeAxpyCoefficient (s : FluxContext ι φ β) (peerFails : Bool) (factor : Double)
    (source : φ) : Throws ExactPolynomial :=
  prepareFluxMetadataCollectively env s peerFails
    (if s.active = false ∨ (activeFluxExpression s source).isEmpty then .ok []
    else do
      throwIf (¬ s.dt.isFinite ∨ ¬ s.dt.isPositive)
        (logicError "AMR Program flux axpy lacks its active dt")
      let quotient := factor / s.dt
      throwIf (¬ (quotient * s.dt).equal factor)
        (invalidArgument "AMR Program flux axpy factor has no exact symbolic dt coefficient")
      return [(1, ← exactBinaryRational quotient)])
    "AMR Program runtime flux axpy coefficient failed collectively"

/-- A prepared registry, or nothing outside an attempt. -/
abbrev FluxExpressionUpdate (φ β : Type) := Option (φ → FluxExpression β)

/-- The registry after adding a multiple of one expression to another. -/
def prepareActiveAxpyFluxExpression (s : FluxContext ι φ β) (peerFails : Bool)
    (destination source : φ) (coefficient : ExactPolynomial) :
    Throws (FluxExpressionUpdate φ β) :=
  if s.active = false then .ok none
  else prepareFluxMetadataCollectively env s peerFails (do
    let scaled ← scaledFluxExpression (activeFluxExpression s source) coefficient
    let result ← addFluxExpression (activeFluxExpression s destination) scaled
    requireFluxExpressionBudget env result
    return some (Function.update s.expressions destination result))
    "AMR Program flux-expression axpy failed collectively"

/-- The registry after replacing an expression by a combination of two. -/
def prepareActiveLincombFluxExpression (s : FluxContext ι φ β) (peerFails : Bool)
    (destination left : φ) (leftCoefficient : ExactPolynomial) (right : φ)
    (rightCoefficient : ExactPolynomial) : Throws (FluxExpressionUpdate φ β) :=
  if s.active = false then .ok none
  else prepareFluxMetadataCollectively env s peerFails (do
    let scaledLeft ← scaledFluxExpression (activeFluxExpression s left) leftCoefficient
    let scaledRight ← scaledFluxExpression (activeFluxExpression s right) rightCoefficient
    let result ← addFluxExpression scaledLeft scaledRight
    requireFluxExpressionBudget env result
    return some (Function.update s.expressions destination result))
    "AMR Program flux-expression linear combination failed collectively"

/-- The registry after copying an expression. -/
def copyActiveFluxExpression (s : FluxContext ι φ β) (peerFails : Bool)
    (source destination : φ) : Throws (FluxExpressionUpdate φ β) :=
  if s.active = false then .ok none
  else prepareFluxMetadataCollectively env s peerFails
    (.ok (some (Function.update s.expressions destination (activeFluxExpression s source))))
    "AMR Program flux-expression copy failed collectively"

/-- Publishes a prepared registry. -/
def publishActiveFluxExpressionUpdate (update : FluxExpressionUpdate φ β) :
    Method (FluxContext ι φ β) PUnit :=
  Method.update fun s => match update with
    | none => s
    | some expressions => { s with expressions := expressions }

/-- Writes the cell values of a field. -/
def writeValue (destination : φ) (value : FluxContext ι φ β → ι → Double) :
    Method (FluxContext ι φ β) PUnit :=
  Method.update fun s => { s with values := Function.update s.values destination (value s) }

/-- `SaxpyKernel`: one entry of `y += a x`. -/
def saxpyKernel (factor : Double) (destination source : ι → Double) (cell : ι) : Double :=
  destination cell + factor * source cell

/-- `LincombKernel`: one entry of `a x + b y`. -/
def lincombKernel (leftFactor rightFactor : Double) (left right : ι → Double) (cell : ι) : Double :=
  leftFactor * left cell + rightFactor * right cell

/-- The vector operations of a program: with numeric factors, or with the exact metadata of the
factors. -/
inductive FluxOperation (φ : Type)
  | axpy (destination : φ) (factor : Double) (source : φ)
  | axpyExact (destination : φ) (factor : Double) (source : φ) (referenceDt : Double)
    (terms : List ExactCoefficientTerm)
  | lincomb (destination : φ) (leftFactor : Double) (left : φ) (rightFactor : Double) (right : φ)
  | lincombExact (destination : φ) (leftFactor : Double) (left : φ) (rightFactor : Double)
    (right : φ) (referenceDt : Double) (leftTerms rightTerms : List ExactCoefficientTerm)
  | copy (source destination : φ)

namespace FluxOperation

/-- The exact coefficients of an operation: those of the first and of the second source. -/
def coefficients (s : FluxContext ι φ β) (peers : Peers) :
    FluxOperation φ → Throws (ExactPolynomial × ExactPolynomial)
  | axpy _ factor source => do
    return (← exactRuntimeAxpyCoefficient env s (peers 0) factor source, [])
  | axpyExact _ factor _ referenceDt terms => do
    return (← exactCoefficient env s (peers 0) factor referenceDt terms, [])
  | lincomb _ leftFactor _ rightFactor _ => do
    let left ← exactRuntimeCoefficient env s (peers 0) leftFactor
    let right ← exactRuntimeCoefficient env s (peers 1) rightFactor
    return (left, right)
  | lincombExact _ leftFactor _ rightFactor _ referenceDt leftTerms rightTerms => do
    let left ← exactCoefficient env s (peers 0) leftFactor referenceDt leftTerms
    let right ← exactCoefficient env s (peers 1) rightFactor referenceDt rightTerms
    return (left, right)
  | copy _ _ => .ok ([], [])

/-- The contract check of the fields of an operation. -/
def requireContract : FluxOperation φ → Throws Unit
  | axpy destination _ source =>
    env.requireSameFieldContract destination source "AMR Program axpy"
  | axpyExact destination _ source _ _ =>
    env.requireSameFieldContract destination source "AMR Program exact axpy"
  | lincomb destination _ left _ right => do
    env.requireSameFieldContract destination left "AMR Program linear combination"
    env.requireSameFieldContract destination right "AMR Program linear combination"
  | lincombExact destination _ left _ right _ _ _ => do
    env.requireSameFieldContract destination left "AMR Program exact linear combination"
    env.requireSameFieldContract destination right "AMR Program exact linear combination"
  | copy source destination =>
    env.requireSameFieldContract destination source "AMR Program commit"

/-- The registry that an operation with given coefficients prepares. -/
def prepareExpressions (s : FluxContext ι φ β) (peerFails : Bool)
    (coefficients : ExactPolynomial × ExactPolynomial) :
    FluxOperation φ → Throws (FluxExpressionUpdate φ β)
  | axpy destination _ source =>
    prepareActiveAxpyFluxExpression env s peerFails destination source coefficients.1
  | axpyExact destination _ source _ _ =>
    prepareActiveAxpyFluxExpression env s peerFails destination source coefficients.1
  | lincomb destination _ left _ right =>
    prepareActiveLincombFluxExpression env s peerFails destination left coefficients.1 right
      coefficients.2
  | lincombExact destination _ left _ right _ _ _ =>
    prepareActiveLincombFluxExpression env s peerFails destination left coefficients.1 right
      coefficients.2
  | copy source destination => copyActiveFluxExpression env s peerFails source destination

/-- The numeric kernel of an operation, cell by cell. -/
def kernel : FluxOperation φ → Method (FluxContext ι φ β) PUnit
  | axpy destination factor source =>
    writeValue destination fun s => saxpyKernel factor (s.values destination) (s.values source)
  | axpyExact destination factor source _ _ =>
    writeValue destination fun s => saxpyKernel factor (s.values destination) (s.values source)
  | lincomb destination leftFactor left rightFactor right =>
    writeValue destination fun s =>
      lincombKernel leftFactor rightFactor (s.values left) (s.values right)
  | lincombExact destination leftFactor left rightFactor right _ _ _ =>
    writeValue destination fun s =>
      lincombKernel leftFactor rightFactor (s.values left) (s.values right)
  | copy source destination => writeValue destination fun s => s.values source

/-- An operation: the contract of the fields, the exact coefficients, the prepared registry, the
numeric kernel, the publication. -/
def execute (op : FluxOperation φ) (peers : Peers) : Method (FluxContext ι φ β) PUnit := do
  let _ ← Method.inspect fun _ => do
    op.requireContract env
    return PUnit.unit
  let coefficients ← Method.inspect fun s => op.coefficients env s peers
  let update ← Method.inspect fun s => op.prepareExpressions env s (peers 2) coefficients
  op.kernel
  publishActiveFluxExpressionUpdate update

end FluxOperation

end Operations

end Pops
