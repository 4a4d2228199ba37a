import Pops.Foundation.PyException
import Pops.Runtime.Analytic.Expression

/-!
# Lowering of canonical analytic data

The Python side of analytic expressions.  `_lower_expression` decodes canonical data
(`ScalarExpr.from_data`), measures it (`_measure`), and lowers it to one row of opcode names and
one row of literals, which the bindings hand to `compile_analytic_postfix`.

## Main definitions

* `Pops.Analytic.NodeData` — canonical node data.
* `Pops.Analytic.nodeFromData`, `measureNode`, `fromData` — decoding and measuring.
* `Pops.Analytic.lowerNode`, `lowerExpression` — lowering.
* `Pops.Analytic.compileRows` — the rows on the native side.

## Implementation notes

The shape of the mappings (which keys a node has, and the types of their values) is carried by
`NodeData`, so the tests for malformed mappings have no counterpart here.  A decoded expression
is the data itself: `from_data` refuses data that differs from its canonical projection, and the
only freedom left by the shape is the sign of zero.  The work lists of `_measure` are a recursion
that visits the nodes in the same order.  Parameter references are authenticated by the artifact's
bindings, which are a parameter (`LoweringContext.effectiveValue`).
-/

namespace Pops.Analytic

/-- The kind of a node, `"scalar"` or `"predicate"`. -/
inductive ExprKind
  | scalar
  | predicate
  deriving DecidableEq, Repr

/-- The text of a kind. -/
def ExprKind.name : ExprKind → String
  | scalar => "scalar"
  | predicate => "predicate"

/-- `CartesianDirection`. -/
inductive CartesianDirection
  | x
  | y
  | z
  deriving DecidableEq, Repr

/-- `CartesianAxis.name`. -/
def CartesianDirection.name : CartesianDirection → String
  | x => "x"
  | y => "y"
  | z => "z"

/-- What the expressions use of a `Clock`: its qualified id, and whether it has an owner. -/
structure Clock where
  qualifiedId : String
  owned : Bool
  deriving DecidableEq, Repr

/-- Canonical node data, with parameter references in `P`. -/
inductive NodeData (R P : Type)
  | constant (value : R)
  | coordinate (frameId : String) (axis : CartesianDirection)
  | parameter (reference : P)
  | input (valueId : ℤ) (component : String)
  | time (clock : Clock) (clockId : String)
  | operator (kind : ExprKind) (op : String) (arguments : List (NodeData R P))

variable {R P : Type} [RealArithmetic R]

/-! ## The vocabulary -/

/-- `_SCALAR_UNARY`. -/
def scalarUnary : List String := ["neg", "sqrt", "abs", "sin", "cos", "exp", "log", "erf", "erfc"]

/-- `_SCALAR_BINARY`. -/
def scalarBinary : List String :=
  ["add", "sub", "mul", "div", "pow", "atan2", "hypot", "minimum", "maximum"]

/-- `_COMPARISONS`. -/
def comparisons : List String := ["eq", "ne", "lt", "le", "gt", "ge"]

/-- `_LOGICAL_BINARY`. -/
def logicalBinary : List String := ["and", "or"]

/-- The kinds of the arguments of an operation, by the kind and the name of the operation. -/
def childKinds (kind : ExprKind) (op : String) : Option (List ExprKind) :=
  match kind with
  | .scalar =>
    if op ∈ scalarUnary then some [.scalar]
    else if op ∈ scalarBinary then some [.scalar, .scalar]
    else if op = "where" then some [.predicate, .scalar, .scalar]
    else none
  | .predicate =>
    if op ∈ comparisons then some [.scalar, .scalar]
    else if op ∈ logicalBinary then some [.predicate, .predicate]
    else if op = "not" then some [.predicate]
    else if op = "between" then some [.scalar, .scalar, .scalar]
    else none

/-- The number of arguments of a scalar operator in `_validate_scalar_local`. -/
def scalarArity (op : String) : ℕ :=
  if op = "where" then 3 else if op ∈ scalarUnary then 1 else 2

/-- `DEFAULT_MAX_DEPTH`, `_MAX_DEPTH`. -/
def maxDepth : ℕ := 64

/-- `DEFAULT_MAX_NODES`, `_MAX_NODES`. -/
def maxNodes : ℕ := 4096

/-- `DEFAULT_MAX_STACK`: the deepest stack that a lowered expression may need. -/
def maxStack : ℕ := 64

/-! ## Decoding -/

/-- The white space that `str.strip` removes. -/
def isSpace (c : Char) : Bool :=
  (9 ≤ c.toNat && c.toNat ≤ 13) || (28 ≤ c.toNat && c.toNat ≤ 32) ||
    c.toNat ∈ [133, 160, 5760, 8232, 8233, 8239, 8287, 12288] ||
    (8192 ≤ c.toNat && c.toNat ≤ 8202)

/-- `text.strip() == text`. -/
def stripped (text : String) : Bool :=
  (text.toList.head?.all fun c => !isSpace c) && (text.toList.getLast?.all fun c => !isSpace c)

/-- `0.0 if value == 0.0 else value`. -/
def normalizeZero (v : R) : R :=
  if RealArithmetic.eq v RealArithmetic.zero then RealArithmetic.zero else v

/-- `_merged_frame_id`: the one frame of the operands, refused if two differ. -/
def mergedFrameId : List (Option String) → Raises (Option String)
  | [] => .ok none
  | none :: frames => mergedFrameId frames
  | some frame :: frames =>
    if frames.all fun other => other = none ∨ other = some frame then .ok (some frame)
    else .error (valueError "analytic expression cannot mix coordinates from different frames")

/-- What the decoder returns for a node: the nodes counted so far and the frame of the node. -/
structure Decoded where
  nodeCount : ℕ
  frame : Option String

/-- What the decoder returns for the arguments of a node. -/
structure DecodedArguments where
  nodeCount : ℕ
  frames : List (Option String)

/-- The exponent of `pow` is a literal constant. -/
def constantExponent : List (NodeData R P) → Bool
  | [_, .constant _] => true
  | _ => false

/-- The bounds of `between` are literal constants in the wrong order. -/
def invertedConstants : List (NodeData R P) → Bool
  | [_, .constant lower, .constant upper] => RealArithmetic.lt upper lower
  | _ => false

/-- The kinds with which `_node_from_data` decodes the arguments of an operator. -/
def decodedKinds (kind : ExprKind) (op : String) (count : ℕ) : Raises (List ExprKind) :=
  match kind with
  | .scalar => do
    raiseIf (op ∉ scalarUnary ∧ op ∉ scalarBinary ∧ op ≠ "where")
      (valueError ("unsupported analytic scalar operation '" ++ op ++ "'"))
    raiseIf (op = "where" ∧ count ≠ 3) (valueError "analytic where requires three arguments")
    pure (if op = "where" then [.predicate, .scalar, .scalar] else List.replicate count .scalar)
  | .predicate =>
    match childKinds .predicate op with
    | none => .error (valueError ("unsupported analytic predicate operation '" ++ op ++ "'"))
    | some kinds => do
      raiseIf (kinds.length ≠ count)
        (valueError ("analytic predicate " ++ op ++ " has invalid arity"))
      pure kinds

/-- The tests of `_validate_scalar_local` and `_validate_predicate_local` that decoding leaves
open: the number of arguments of a scalar operator, the exponent of a power, and the bounds of an
interval. -/
def validateLocal (kind : ExprKind) (op : String) (arguments : List (NodeData R P)) :
    Raises Unit := do
  raiseIf (kind = .scalar ∧ arguments.length ≠ scalarArity op)
    (valueError ("analytic " ++ op ++ " requires " ++ toString (scalarArity op) ++ " arguments"))
  raiseIf (kind = .scalar ∧ op = "pow" ∧ constantExponent arguments = false)
    (typeError "analytic power exponent must be a finite scalar literal")
  raiseIf (kind = .predicate ∧ op = "between" ∧ invertedConstants arguments = true)
    (valueError "between lower bound must be <= upper bound")

/-- The tests of `_node_from_data` that every node passes first. -/
def enterNode (depth count : ℕ) (kind expected : ExprKind) : Raises Unit := do
  raiseIf (depth > maxDepth) (valueError ("analytic expression exceeds max_depth=" ++
    toString maxDepth))
  raiseIf (count + 1 > maxNodes) (valueError ("analytic expression exceeds max_nodes=" ++
    toString maxNodes))
  raiseIf (kind ≠ expected) (valueError "analytic node kind or operation is inconsistent")

mutual
/-- `_node_from_data`: decode a node of the expected kind: the count of nodes, and the frame of its
coordinates. -/
def nodeFromData : NodeData R P → ExprKind → ℕ → ℕ → Raises Decoded
  | .constant v, expected, depth, count => do
    enterNode depth count .scalar expected
    raiseIf (RealArithmetic.isFinite v = false) (valueError "analytic constant must be finite")
    pure ⟨count + 1, none⟩
  | .coordinate frameId _, expected, depth, count => do
    enterNode depth count .scalar expected
    raiseIf (frameId = "") (typeError "analytic coordinate frame_id must be non-empty text")
    pure ⟨count + 1, some frameId⟩
  | .parameter _, expected, depth, count => do
    enterNode depth count .scalar expected
    pure ⟨count + 1, none⟩
  | .input valueId component, expected, depth, count => do
    enterNode depth count .scalar expected
    raiseIf (valueId < 0)
      (typeError "analytic input value_id must be a non-negative exact integer")
    raiseIf (component = "" ∨ stripped component = false)
      (typeError "analytic input component must be canonical non-empty text")
    pure ⟨count + 1, none⟩
  | .time clock clockId, expected, depth, count => do
    enterNode depth count .scalar expected
    raiseIf (clockId ≠ clock.qualifiedId)
      (valueError "analytic time data changed its exact Clock identity")
    raiseIf (clock.owned = false)
      (typeError "analytic time requires one owner-qualified exact Clock")
    pure ⟨count + 1, none⟩
  | .operator kind op arguments, expected, depth, count => do
    enterNode depth count kind expected
    let kinds ← decodedKinds kind op arguments.length
    let decoded ← argumentsFromData arguments kinds (depth + 1) (count + 1)
    let frame ← mergedFrameId decoded.frames
    validateLocal kind op arguments
    pure ⟨decoded.nodeCount, frame⟩

/-- The arguments of an operator in `_node_from_data`. -/
def argumentsFromData : List (NodeData R P) → List ExprKind → ℕ → ℕ → Raises DecodedArguments
  | [], _, _, count => pure ⟨count, []⟩
  | _ :: _, [], _, count => pure ⟨count, []⟩
  | argument :: rest, kind :: kinds, depth, count => do
    let first ← nodeFromData argument kind depth count
    let others ← argumentsFromData rest kinds depth first.nodeCount
    pure ⟨others.nodeCount, first.frame :: others.frames⟩
end

/-! ## Measuring -/

/-- What `_measure` has computed when it leaves a node. -/
structure Measured where
  nodeCount : ℕ
  requiredStack : ℕ

mutual
/-- `_measure` below a node: the number of nodes and the stack that the node requires. -/
def measureNode : NodeData R P → ℕ → ℕ → Raises Measured
  | .operator _ _ arguments, depth, count => do
    raiseIf (depth > maxDepth) (valueError ("analytic expression exceeds max_depth=" ++
      toString maxDepth))
    raiseIf (count + 1 > maxNodes) (valueError ("analytic expression exceeds max_nodes=" ++
      toString maxNodes))
    let inner ← measureArguments arguments 0 (depth + 1) (count + 1)
    raiseIf (inner.requiredStack > maxStack)
      (valueError ("analytic expression exceeds max_stack=" ++ toString maxStack))
    pure inner
  | _, depth, count => do
    raiseIf (depth > maxDepth) (valueError ("analytic expression exceeds max_depth=" ++
      toString maxDepth))
    raiseIf (count + 1 > maxNodes) (valueError ("analytic expression exceeds max_nodes=" ++
      toString maxNodes))
    pure ⟨count + 1, 1⟩

/-- `_measure` below the arguments of a node: the greatest `index + required` of them, and one if
there are none. -/
def measureArguments : List (NodeData R P) → ℕ → ℕ → ℕ → Raises Measured
  | [], _, _, count => pure ⟨count, 1⟩
  | argument :: rest, index, depth, count => do
    let first ← measureNode argument depth count
    let others ← measureArguments rest (index + 1) depth first.nodeCount
    pure ⟨others.nodeCount, max (index + first.requiredStack) others.requiredStack⟩
end

mutual
/-- The data equals its canonical projection: every literal zero is the positive one. -/
def canonical [DecidableEq R] : NodeData R P → Bool
  | .constant v => decide (normalizeZero v = v)
  | .operator _ _ arguments => canonicalAll arguments
  | _ => true

/-- All the data of a list are canonical. -/
def canonicalAll [DecidableEq R] : List (NodeData R P) → Bool
  | [] => true
  | argument :: rest => canonical argument && canonicalAll rest
end

/-- `ScalarExpr.from_data`, which returns the expression that the data describes. -/
def fromData [DecidableEq R] (root : NodeData R P) : Raises (NodeData R P) := do
  let _ ← nodeFromData root .scalar 1 0
  let _ ← measureNode root 1 0
  raiseIf (canonical root = false) (valueError "analytic expression data is not canonical")
  pure root

/-! ## Lowering -/

/-- The arguments of `_lower_expression` besides the data.  `effectiveValue` is the value that
the bindings hold for a parameter, as a float. -/
structure LoweringContext (R P : Type) where
  frameId : String
  effectiveValue : P → Raises R
  timeClockId : Option String

/-- `_bound_parameter`: the value of a parameter, refused unless it is finite, with a plain zero. -/
def boundParameter (ctx : LoweringContext R P) (reference : P) (where_ : String) : Raises R := do
  let result ← ctx.effectiveValue reference
  raiseIf (RealArithmetic.isFinite result = false)
    (valueError (where_ ++ " effective value must be finite"))
  pure (normalizeZero result)

/-- What `_lower_node` updates: the budget and the two rows. -/
structure Lowered (R : Type) where
  budget : ℕ
  opcodes : List String
  literals : List R

/-- `opcodes.append(op); literals.append(literal)`. -/
def Lowered.append (out : Lowered R) (op : String) (literal : R) : Lowered R :=
  ⟨out.budget, out.opcodes ++ [op], out.literals ++ [literal]⟩

/-- The tests of `_lower_node` that every node passes first. -/
def enterLowering (where_ : String) (depth : ℕ) (kind expected : ExprKind) (out : Lowered R) :
    Raises (Lowered R) := do
  raiseIf (depth > maxDepth) (valueError (where_ ++ " exceeds analytic max_depth=" ++
    toString maxDepth))
  raiseIf (out.budget + 1 > maxNodes) (valueError (where_ ++ " exceeds analytic max_nodes=" ++
    toString maxNodes))
  raiseIf (kind ≠ expected) (valueError (where_ ++ " has an inconsistent analytic node kind"))
  pure ⟨out.budget + 1, out.opcodes, out.literals⟩

/-- The integers from which `float` overflows: they round beyond the largest binary64 number. -/
def floatOverflow : ℤ := 2 ^ 1024 - 2 ^ 970

mutual
/-- `_lower_node`: the rows of a node, operands first. -/
def lowerNode (ctx : LoweringContext R P) :
    NodeData R P → ExprKind → String → ℕ → Lowered R → Raises (Lowered R)
  | .constant v, expected, where_, depth, out => do
    let out ← enterLowering where_ depth .scalar expected out
    raiseIf (RealArithmetic.isFinite v = false) (valueError (where_ ++ ".value must be finite"))
    pure (out.append "constant" v)
  | .coordinate frameId axis, expected, where_, depth, out => do
    let out ← enterLowering where_ depth .scalar expected out
    raiseIf (frameId ≠ ctx.frameId) (valueError (where_ ++ " coordinate belongs to another frame"))
    pure (out.append axis.name RealArithmetic.zero)
  | .parameter reference, expected, where_, depth, out => do
    let out ← enterLowering where_ depth .scalar expected out
    let value ← boundParameter ctx reference (where_ ++ ".reference")
    pure (out.append "constant" value)
  | .input valueId component, expected, where_, depth, out => do
    let out ← enterLowering where_ depth .scalar expected out
    raiseIf (valueId < 0) (typeError (where_ ++ " input value_id must be a non-negative integer"))
    raiseIf (component = "") (typeError (where_ ++ " input component must be non-empty text"))
    raiseIf (floatOverflow ≤ valueId) ⟨.overflowError, "int too large to convert to float"⟩
    pure (out.append "input" (RealArithmetic.ofNat valueId.toNat))
  | .time clock clockId, expected, where_, depth, out => do
    let out ← enterLowering where_ depth .scalar expected out
    raiseIf (ctx.timeClockId = none ∨ ctx.timeClockId = some "") ⟨.notImplementedError,
      where_ ++ " requires a consuming runtime with one exact physical-time Clock"⟩
    raiseIf (some clockId ≠ ctx.timeClockId)
      (valueError (where_ ++ " time belongs to another logical Clock"))
    raiseIf (some clock.qualifiedId ≠ ctx.timeClockId)
      (valueError (where_ ++ " time Clock data does not authenticate clock_id"))
    pure (out.append "input" RealArithmetic.zero)
  | .operator kind op arguments, expected, where_, depth, out => do
    let out ← enterLowering where_ depth kind expected out
    match childKinds kind op with
    | none => .error (valueError (where_ ++ " uses unsupported " ++ kind.name ++ " op '" ++ op ++
        "'"))
    | some kinds => do
      raiseIf (arguments.length ≠ kinds.length) (valueError (where_ ++ " op '" ++ op ++
        "' requires " ++ toString kinds.length ++ " arguments"))
      let out ← lowerArguments ctx arguments kinds where_ 0 (depth + 1) out
      pure (out.append op RealArithmetic.zero)

/-- The loop of `_lower_node` over the arguments. -/
def lowerArguments (ctx : LoweringContext R P) :
    List (NodeData R P) → List ExprKind → String → ℕ → ℕ → Lowered R → Raises (Lowered R)
  | argument :: rest, kind :: kinds, where_, index, depth, out => do
    let out ← lowerNode ctx argument kind
      (where_ ++ ".arguments[" ++ toString index ++ "]") depth out
    lowerArguments ctx rest kinds where_ (index + 1) depth out
  | _, _, _, _, _, out => pure out
end

/-- `raise type(exc)("%s: %s" % (where, exc))` for the errors of `from_data`. -/
def located {α : Type} (where_ : String) : Raises α → Raises α
  | .ok a => .ok a
  | .error e => .error ⟨e.kind, where_ ++ ": " ++ e.text⟩

/-- `_lower_expression`: the rows of a validated expression, operands first. -/
def lowerExpression [DecidableEq R] (ctx : LoweringContext R P) (root : NodeData R P)
    (where_ : String) : Raises (List String × List R) := do
  let root ← located where_ (fromData root)
  let out ← lowerNode ctx root .scalar (where_ ++ ".root") 1 ⟨0, [], []⟩
  raiseIf (out.opcodes.length ≠ out.literals.length ∨ out.opcodes = [])
    ⟨.runtimeError, "analytic lowering produced an invalid postfix program"⟩
  pure (out.opcodes, out.literals)

/-- The rows on the native side: the names are mapped by `analytic_op_from_name` and the tokens
compiled with the default limits. -/
def compileRows (opcodes : List String) (literals : List R) : Throws (AnalyticProgram R) := do
  let ops ← opcodes.mapM analyticOpFromName
  compileAnalyticPostfix (List.zipWith AnalyticToken.mk ops literals) {}

end Pops.Analytic
