import Pops.Foundation.Exception
import Pops.Foundation.Postfix

/-!
# Analytic expressions

An analytic expression is authored as a tree (`AnalyticNode`), flattened to postfix tokens and
compiled to a program for a small stack machine.  The compiler is also the validator: a typed
stack assigns to every subexpression its type and its depth, and rejects what the machine could
not execute.  This module follows `runtime/analytic/expression.hpp` from the opcodes to
`compile_analytic_expression`; the machine itself is in `Machine.lean`.

## Main definitions

* `Pops.Analytic.RealArithmetic` — the floating-point type and what the source does with it.
* `Pops.Analytic.AnalyticOp`, `AnalyticToken`, `AnalyticNode` — operations, tokens, trees.
* `Pops.Analytic.AnalyticProgram` — a compiled program.
* `Pops.Analytic.compileAnalyticPostfix`, `compileAnalyticExpression` — the two compilers.

## Implementation notes

`std::array` stacks and pre-sized vectors that are filled from the front are lists here; the
head of a stack is its top and the stack pointer is its length.  The arithmetic is a parameter:
nothing below depends on what `+` or `sqrt` return.
-/

namespace Pops.Analytic

/-- The floating-point type `Real` and the operations that the source applies to it.  The laws
are those of binary64: zero and one are finite, zero equals itself, and the conversion of an
integer below `2 ^ 32` is exact. -/
class RealArithmetic (R : Type) where
  zero : R
  one : R
  nan : R
  isFinite : R → Bool
  lt : R → R → Bool
  le : R → R → Bool
  eq : R → R → Bool
  floor : R → R
  /-- The conversion of a non-negative integer. -/
  ofNat : ℕ → R
  /-- `static_cast<std::uint32_t>`. -/
  toUInt32 : R → ℕ
  add : R → R → R
  sub : R → R → R
  mul : R → R → R
  div : R → R → R
  pow : R → R → R
  atan2 : R → R → R
  hypot : R → R → R
  fmin : R → R → R
  fmax : R → R → R
  neg : R → R
  sqrt : R → R
  fabs : R → R
  sin : R → R
  cos : R → R
  exp : R → R
  erf : R → R
  erfc : R → R
  log : R → R
  ofNat_zero : ofNat 0 = zero
  isFinite_zero : isFinite zero = true
  isFinite_one : isFinite one = true
  eq_zero : eq zero zero = true
  isFinite_ofNat : ∀ n < 2 ^ 32, isFinite (ofNat n) = true
  lt_ofNat_zero : ∀ n < 2 ^ 32, lt (ofNat n) zero = false
  eq_floor_ofNat : ∀ n < 2 ^ 32, eq (ofNat n) (floor (ofNat n)) = true
  lt_max_ofNat : ∀ n < 2 ^ 32, lt (ofNat (2 ^ 32 - 1)) (ofNat n) = false

/-- `AnalyticOp`.  The underlying type is `std::uint8_t`, so that a value need not be one of the
listed operations: `unlisted k` is the value `34 + k`. -/
inductive AnalyticOp
  | constant
  | x
  | y
  | add
  | sub
  | mul
  | div
  | pow
  | neg
  | sqrt
  | abs
  | sin
  | cos
  | exp
  | log
  | atan2
  | hypot
  | min
  | max
  | lt
  | le
  | gt
  | ge
  | eq
  | ne
  | and
  | or
  | not
  | select
  | between
  | input
  | z
  | erf
  | erfc
  | unlisted (k : Fin 222)
  deriving DecidableEq, Repr

namespace AnalyticOp

/-- The value of an operation as a `std::uint8_t`. -/
def code : AnalyticOp → ℕ
  | constant => 0
  | x => 1
  | y => 2
  | add => 3
  | sub => 4
  | mul => 5
  | div => 6
  | pow => 7
  | neg => 8
  | sqrt => 9
  | abs => 10
  | sin => 11
  | cos => 12
  | exp => 13
  | log => 14
  | atan2 => 15
  | hypot => 16
  | min => 17
  | max => 18
  | lt => 19
  | le => 20
  | gt => 21
  | ge => 22
  | eq => 23
  | ne => 24
  | and => 25
  | or => 26
  | not => 27
  | select => 28
  | between => 29
  | input => 30
  | z => 31
  | erf => 32
  | erfc => 33
  | unlisted k => 34 + k.val

/-- `op_name`: the name of an operation. -/
def opName : AnalyticOp → String
  | constant => "constant"
  | x => "x"
  | y => "y"
  | z => "z"
  | add => "add"
  | sub => "sub"
  | mul => "mul"
  | div => "div"
  | pow => "pow"
  | neg => "neg"
  | sqrt => "sqrt"
  | abs => "abs"
  | sin => "sin"
  | cos => "cos"
  | exp => "exp"
  | erf => "erf"
  | erfc => "erfc"
  | log => "log"
  | atan2 => "atan2"
  | hypot => "hypot"
  | min => "minimum"
  | max => "maximum"
  | lt => "lt"
  | le => "le"
  | gt => "gt"
  | ge => "ge"
  | eq => "eq"
  | ne => "ne"
  | and => "and"
  | or => "or"
  | not => "not"
  | select => "where"
  | between => "between"
  | input => "input"
  | unlisted _ => "unknown"

/-- `is_known`: the code of the operation is in the table. -/
def isKnown (op : AnalyticOp) : Bool := decide (op.code ≤ erfc.code)

/-- `arity`: the number of operands that an operation pops. -/
def arity : AnalyticOp → ℤ
  | constant | x | y | z | input => 0
  | neg | sqrt | abs | sin | cos | exp | erf | erfc | log | not => 1
  | add | sub | mul | div | pow | atan2 | hypot | min | max => 2
  | lt | le | gt | ge | eq | ne | and | or => 2
  | select | between => 3
  | unlisted _ => -1

/-- `static_cast<std::size_t>(arity(op))` for a listed operation. -/
def operands (op : AnalyticOp) : ℕ := op.arity.toNat

/-- `comparison`: the operation compares two scalars. -/
def comparison (op : AnalyticOp) : Bool := decide (lt.code ≤ op.code ∧ op.code ≤ ne.code)

end AnalyticOp

/-- `analytic_op_from_name`: the operation of a name, refused if there is none. -/
def analyticOpFromName (name : String) : Throws AnalyticOp :=
  match name with
  | "constant" => .ok .constant
  | "x" => .ok .x
  | "y" => .ok .y
  | "z" => .ok .z
  | "add" => .ok .add
  | "sub" => .ok .sub
  | "mul" => .ok .mul
  | "div" => .ok .div
  | "pow" => .ok .pow
  | "neg" => .ok .neg
  | "sqrt" => .ok .sqrt
  | "abs" => .ok .abs
  | "sin" => .ok .sin
  | "cos" => .ok .cos
  | "exp" => .ok .exp
  | "erf" => .ok .erf
  | "erfc" => .ok .erfc
  | "log" => .ok .log
  | "atan2" => .ok .atan2
  | "hypot" => .ok .hypot
  | "minimum" => .ok .min
  | "maximum" => .ok .max
  | "lt" => .ok .lt
  | "le" => .ok .le
  | "gt" => .ok .gt
  | "ge" => .ok .ge
  | "eq" => .ok .eq
  | "ne" => .ok .ne
  | "and" => .ok .and
  | "or" => .ok .or
  | "not" => .ok .not
  | "where" => .ok .select
  | "between" => .ok .between
  | "input" => .ok .input
  | _ => .error (invalidArgument ("analytic expression: unknown operation '" ++ name ++ "'"))

/-- `AnalyticValueType`. -/
inductive AnalyticValueType
  | scalar
  | predicate
  deriving DecidableEq, Repr

/-- `kAnalyticMaxNodes`. -/
def kAnalyticMaxNodes : ℕ := 4096

/-- `kAnalyticMaxDepth`. -/
def kAnalyticMaxDepth : ℕ := 64

/-- `kAnalyticMaxStack`. -/
def kAnalyticMaxStack : ℕ := 64

/-- `AnalyticLimits`: the limits of one compilation, which stay within the hard ones. -/
structure AnalyticLimits where
  maxNodes : ℕ := kAnalyticMaxNodes
  maxDepth : ℕ := kAnalyticMaxDepth
  maxStack : ℕ := kAnalyticMaxStack
  deriving DecidableEq, Repr

/-- `AnalyticToken`: one operation of a postfix sequence with its literal. -/
structure AnalyticToken (R : Type) where
  op : AnalyticOp
  literal : R
  deriving DecidableEq, Repr

/-- `AnalyticNode`: an operation with its literal, and ordered arguments. -/
abbrev AnalyticNode (R : Type) := Tree (AnalyticToken R)

/-- `AnalyticInstruction`: one compiled operation with its position in a pool. -/
structure AnalyticInstruction where
  operand : ℕ
  op : AnalyticOp
  deriving DecidableEq, Repr

/-- `AnalyticProgram`: the compiled instructions with their pools and the stack they need. -/
structure AnalyticProgram (R : Type) where
  instructions : List AnalyticInstruction
  literals : List R
  requiredStack : ℕ
  requiredDimension : ℕ
  resultType : AnalyticValueType
  deriving DecidableEq, Repr

variable {R : Type} [RealArithmetic R]

/-! ## Validation -/

/-- `reject`: the exception of every refused expression. -/
def reject (message : String) : Exception := invalidArgument ("analytic expression: " ++ message)

/-- `validate_limits`: every limit is positive and within the hard one. -/
def validateLimits (limits : AnalyticLimits) : Throws Unit := do
  throwIf (limits.maxNodes = 0 ∨ limits.maxNodes > kAnalyticMaxNodes)
    (reject ("max_nodes must be in [1," ++ toString kAnalyticMaxNodes ++ "]"))
  throwIf (limits.maxDepth = 0 ∨ limits.maxDepth > kAnalyticMaxDepth)
    (reject ("max_depth must be in [1," ++ toString kAnalyticMaxDepth ++ "]"))
  throwIf (limits.maxStack = 0 ∨ limits.maxStack > kAnalyticMaxStack)
    (reject ("max_stack must be in [1," ++ toString kAnalyticMaxStack ++ "]"))

/-- `require_type`: the operand has the type that the operation asks for. -/
def requireType (actual expected : AnalyticValueType) (op : AnalyticOp) (tokenIndex : ℕ) :
    Throws Unit :=
  throwIf (actual ≠ expected)
    (reject ("operator '" ++ op.opName ++ "' at token " ++ toString tokenIndex ++ " requires " ++
      (if expected = .scalar then "scalar" else "predicate") ++ " arguments"))

/-- `TypedStackEntry`: a value on the stack of the compiler, with its type. -/
structure TypedStackEntry (R : Type) where
  type : AnalyticValueType
  depth : ℕ
  literalConstant : Bool
  literalValue : R
  deriving DecidableEq, Repr

/-- What `flatten_node` updates: the number of nodes visited and the tokens emitted. -/
structure Flattened (R : Type) where
  nodeCount : ℕ
  tokens : List (AnalyticToken R)

mutual
/-- `flatten_node`. -/
def flattenNode (limits : AnalyticLimits) :
    AnalyticNode R → ℕ → Flattened R → Throws (Flattened R)
  | .node token args, depth, out => do
    throwIf (depth > limits.maxDepth)
      (reject ("tree depth exceeds max_depth=" ++ toString limits.maxDepth))
    throwIf (out.nodeCount + 1 > limits.maxNodes)
      (reject ("tree node count exceeds max_nodes=" ++ toString limits.maxNodes))
    throwIf (token.op.isKnown = false) (reject ("unknown opcode " ++ toString token.op.code))
    throwIf (args.length ≠ token.op.operands)
      (reject ("operator '" ++ token.op.opName ++ "' requires " ++ toString token.op.arity ++
        " arguments, got " ++ toString args.length))
    let inner ← flattenArguments limits args (depth + 1) ⟨out.nodeCount + 1, out.tokens⟩
    pure ⟨inner.nodeCount, inner.tokens ++ [token]⟩

/-- The loop of `flatten_node` over the arguments. -/
def flattenArguments (limits : AnalyticLimits) :
    List (AnalyticNode R) → ℕ → Flattened R → Throws (Flattened R)
  | [], _, out => pure out
  | argument :: rest, depth, out => do
    let next ← flattenNode limits argument depth out
    flattenArguments limits rest depth next
end

/-- What the loop of `compile_analytic_postfix` updates.  The head of `stack` is its top and
`sp` is its length; `next_literal` is the length of `literals`. -/
structure CompileState (R : Type) where
  stack : List (TypedStackEntry R)
  maximumStack : ℕ
  requiredDimension : ℕ
  instructions : List AnalyticInstruction
  literals : List R

/-- The axis of a coordinate, counted from one; zero for every other operation. -/
def axisDimension : AnalyticOp → ℕ
  | .x => 1
  | .y => 2
  | .z => 3
  | _ => 0

/-- The literal of a token: finite for a constant, a slot for an input, zero otherwise. -/
def checkLiteral (token : AnalyticToken R) (index : ℕ) : Throws Unit :=
  if token.op = .constant then
    throwIf (RealArithmetic.isFinite token.literal = false)
      (reject ("constant at token " ++ toString index ++ " must be finite"))
  else if token.op = .input then
    throwIf (RealArithmetic.isFinite token.literal = false ∨
        RealArithmetic.lt token.literal RealArithmetic.zero = true ∨
        RealArithmetic.eq token.literal (RealArithmetic.floor token.literal) = false ∨
        RealArithmetic.lt (RealArithmetic.ofNat (2 ^ 32 - 1)) token.literal = true)
      (reject ("input at token " ++ toString index ++ " must carry a non-negative integer slot"))
  else
    throwIf (RealArithmetic.eq token.literal RealArithmetic.zero = false)
      (reject ("non-constant token " ++ toString index ++ " ('" ++ token.op.opName ++
        "') must not carry a literal"))

/-- The type of a unary operation. -/
def typeUnary (op : AnalyticOp) (index : ℕ) (argument : TypedStackEntry R) :
    Throws AnalyticValueType :=
  if op = .not then do
    requireType argument.type .predicate op index
    pure .predicate
  else do
    requireType argument.type .scalar op index
    pure .scalar

/-- The type of a binary operation. -/
def typeBinary (op : AnalyticOp) (index : ℕ) (left right : TypedStackEntry R) :
    Throws AnalyticValueType :=
  if op = .and ∨ op = .or then do
    requireType left.type .predicate op index
    requireType right.type .predicate op index
    pure .predicate
  else do
    requireType left.type .scalar op index
    requireType right.type .scalar op index
    throwIf (op = .pow ∧ right.literalConstant = false)
      (reject ("operator 'pow' at token " ++ toString index ++ " requires a literal exponent"))
    pure (if op.comparison then .predicate else .scalar)

/-- The type of a selection. -/
def typeSelect (op : AnalyticOp) (index : ℕ) (condition selected otherwise : TypedStackEntry R) :
    Throws AnalyticValueType := do
  requireType condition.type .predicate op index
  throwIf (selected.type ≠ otherwise.type)
    (reject ("select at token " ++ toString index ++ " requires branches with the same type"))
  pure selected.type

/-- The type of an interval test. -/
def typeBetween (op : AnalyticOp) (index : ℕ) (value lower upper : TypedStackEntry R) :
    Throws AnalyticValueType := do
  requireType value.type .scalar op index
  requireType lower.type .scalar op index
  requireType upper.type .scalar op index
  throwIf (lower.literalConstant = true ∧ upper.literalConstant = true ∧
      RealArithmetic.lt upper.literalValue lower.literalValue = true)
    (reject ("operator 'between' at token " ++ toString index ++ " requires lower <= upper"))
  pure .predicate

/-- The refusal of an operation that finds too few operands. -/
def underflow (op : AnalyticOp) (index : ℕ) : Exception :=
  reject ("postfix stack underflow at token " ++ toString index ++ " ('" ++ op.opName ++ "')")

/-- The type and the depth of the result of an operation, and the stack below its operands. -/
def typeResult (op : AnalyticOp) (index : ℕ) :
    List (TypedStackEntry R) → Throws (AnalyticValueType × ℕ × List (TypedStackEntry R))
  | stack =>
    match op.operands, stack with
    | 0, rest => pure (.scalar, 1, rest)
    | 1, argument :: rest => do
      let type ← typeUnary op index argument
      pure (type, argument.depth + 1, rest)
    | 2, right :: left :: rest => do
      let type ← typeBinary op index left right
      pure (type, max left.depth right.depth + 1, rest)
    | 3, third :: second :: first :: rest => do
      let type ← if op = .select then typeSelect op index first second third
        else typeBetween op index first second third
      pure (type, max first.depth (max second.depth third.depth) + 1, rest)
    -- excluded by the underflow guard
    | _, _ => .error (underflow op index)

/-- The instruction of a token and the literals after it. -/
def emit (token : AnalyticToken R) (literals : List R) : AnalyticInstruction × List R :=
  if token.op = .constant then (⟨literals.length, token.op⟩, literals ++ [token.literal])
  else if token.op = .input then
    (⟨RealArithmetic.toUInt32 token.literal, token.op⟩, literals ++ [token.literal])
  else (⟨0, token.op⟩, literals)

/-- The entry that `compile_analytic_postfix` pushes for a token. -/
def resultEntry (token : AnalyticToken R) (type : AnalyticValueType) (depth : ℕ) :
    TypedStackEntry R :=
  ⟨type, depth, decide (token.op = .constant),
    if token.op = .constant then token.literal else RealArithmetic.zero⟩

/-- What one pass of the loop of `compile_analytic_postfix` leaves, for an accepted token. -/
def pushResult (s : CompileState R) (token : AnalyticToken R) (entry : TypedStackEntry R)
    (rest : List (TypedStackEntry R)) : CompileState R :=
  { stack := entry :: rest
    maximumStack := max s.maximumStack (rest.length + 1)
    requiredDimension := max s.requiredDimension (axisDimension token.op)
    instructions := s.instructions ++ [(emit token s.literals).1]
    literals := (emit token s.literals).2 }

/-- One pass of the loop of `compile_analytic_postfix`. -/
def compileToken (limits : AnalyticLimits) (s : CompileState R) (item : AnalyticToken R × ℕ) :
    Throws (CompileState R) := do
  let (token, index) := item
  throwIf (token.op.isKnown = false)
    (reject ("unknown opcode " ++ toString token.op.code ++ " at token " ++ toString index))
  checkLiteral token index
  throwIf (s.stack.length < token.op.operands) (underflow token.op index)
  let result ← typeResult token.op index s.stack
  throwIf (result.2.1 > limits.maxDepth)
    (reject ("expression depth exceeds max_depth=" ++ toString limits.maxDepth))
  throwIf (result.2.2.length ≥ limits.maxStack)
    (reject ("postfix stack exceeds max_stack=" ++ toString limits.maxStack))
  pure (pushResult s token (resultEntry token result.1 result.2.1) result.2.2)

/-- The program left by the loop of `compile_analytic_postfix`. -/
def finish (s : CompileState R) : Throws (AnalyticProgram R) :=
  match s.stack with
  | [entry] => pure ⟨s.instructions, s.literals, s.maximumStack, s.requiredDimension, entry.type⟩
  | stack => .error (reject ("postfix program must leave exactly one result, got " ++
      toString stack.length))

/-- `compile_analytic_postfix`: the typed compilation of a postfix sequence. -/
def compileAnalyticPostfix (tokens : List (AnalyticToken R)) (limits : AnalyticLimits) :
    Throws (AnalyticProgram R) := do
  validateLimits limits
  throwIf (tokens = []) (reject "postfix program is empty")
  throwIf (tokens.length > limits.maxNodes)
    (reject ("node count " ++ toString tokens.length ++ " exceeds max_nodes=" ++
      toString limits.maxNodes))
  let s ← tokens.zipIdx.foldlM (compileToken limits) ⟨[], 0, 0, [], []⟩
  finish s

/-- `compile_analytic_expression`: the postfix tokens of a tree, compiled. -/
def compileAnalyticExpression (root : AnalyticNode R) (limits : AnalyticLimits) :
    Throws (AnalyticProgram R) := do
  validateLimits limits
  let out ← flattenNode limits root 1 ⟨0, []⟩
  compileAnalyticPostfix out.tokens limits

end Pops.Analytic
