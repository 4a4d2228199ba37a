import Pops.Foundation.HashConsing
import Pops.Foundation.JsonText
import Pops.Foundation.PyException

/-!
# Identities of expression graphs

Expressions are graphs of Python objects.  `_dag_key_ids` numbers the objects below some roots in
post-order: an object that was met keeps its number, and an object whose descriptor was met gets the
number of that descriptor.  A descriptor holds the class of the node, its own data and the numbers
of its children.  The descriptors and the numbers of the roots are the identity of the roots.

A runtime parameter is described by its name: the declared value is not part of it.

## Main definitions

* `Pops.Ir.Dag.ScalarLiteral`, `Node` — literals and nodes.
* `Pops.Ir.Dag.Node.eval` — the value of an expression.
* `Pops.Ir.Dag.Roots` — root expressions.
* `Pops.Ir.Dag.dagKeyIds`, `dagKeyData` — the numbers and the identity.
-/

namespace Pops

namespace Ir

namespace Dag

/-! ## Literals -/

/-- The kind of a literal with its payload.  Decimals and floats are held as texts. -/
inductive Payload
  | integer (v : ℤ)
  | rational (v : ℚ)
  | decimal (text : String)
  | binary64 (text : String)
  | algebraic (expression : String)
  deriving DecidableEq, Repr

/-- The name of a kind. -/
def Payload.kind : Payload → String
  | .integer _ => "integer"
  | .rational _ => "rational"
  | .decimal _ => "decimal"
  | .binary64 _ => "binary64"
  | .algebraic _ => "algebraic"

/-- The entry `value`, which a rational does not have. -/
def Payload.value : Payload → Option String
  | .integer v => some v.repr
  | .rational _ => none
  | .decimal text => some text
  | .binary64 text => some text
  | .algebraic expression => some expression

/-- The entry `numerator`. -/
def Payload.numerator : Payload → Option String
  | .rational v => some v.num.repr
  | _ => none

/-- The entry `denominator`. -/
def Payload.denominator : Payload → Option String
  | .rational v => some (v.den : ℤ).repr
  | _ => none

/-- `ScalarLiteral`: a number with its target type and unit; only the parts that `to_data` reads. -/
structure ScalarLiteral where
  payload : Payload
  unit : Option String
  target : Option String
  cpp : Option String
  deriving DecidableEq, Repr

/-- The entries that `to_data` may have, in the order of their keys. -/
def ScalarLiteral.fields (l : ScalarLiteral) : List (String × Option String) :=
  [("cpp", l.cpp), ("denominator", l.payload.denominator), ("kind", some l.payload.kind),
    ("numerator", l.payload.numerator), ("target", l.target), ("unit", l.unit),
    ("value", l.payload.value)]

/-- The entries that are there. -/
def present (fields : List (String × Option String)) : List (String × String) :=
  fields.filterMap fun field => field.2.map (field.1, ·)

/-- `to_data()`, in the order of the keys, of literals of the five kinds of the library. Custom
kinds with their own payloads, texts with lone surrogates, and the limit of the interpreter on the
digits of an integer that is spelled are left out. -/
def ScalarLiteral.toData (l : ScalarLiteral) : List (String × String) := present l.fields

/-- `json.dumps(literal.to_data(), sort_keys=True, separators=(",", ":"))`: the canonical text of a
literal. -/
def ScalarLiteral.text (l : ScalarLiteral) : String := JsonText.dumps l.toData

/-- `scalar_literal(value)` of an integer. -/
def ScalarLiteral.ofInt (v : ℤ) : ScalarLiteral := ⟨.integer v, none, none, none⟩

/-! ## Nodes -/

/-- The handle of a declaration: its owner and its identity there. -/
structure Handle where
  owner : String
  localId : String
  deriving DecidableEq, Repr

/-- The classes with one operand. -/
inductive Unary
  | neg
  | sqrt
  | abs
  | sign
  | booleanNot
  deriving DecidableEq, Repr

/-- The tag of a class with one operand. -/
def Unary.tag : Unary → String
  | .neg => "neg"
  | .sqrt => "sqrt"
  | .abs => "abs"
  | .sign => "sign"
  | .booleanNot => "boolean_not"

/-- The classes with two operands, a comparison with its name. -/
inductive Bin
  | add
  | sub
  | mul
  | div
  | pow
  | minimum
  | maximum
  | eq
  | ne
  | lt
  | le
  | gt
  | ge
  | booleanAnd
  | booleanOr
  deriving DecidableEq, Repr

/-- `op`: the operator in the key of a binary node. -/
def Bin.op : Bin → String
  | .add => "+"
  | .sub => "-"
  | .mul => "*"
  | .div => "/"
  | .pow => "**"
  | .minimum => "minimum"
  | .maximum => "maximum"
  | .eq => "=="
  | .ne => "!="
  | .lt => "<"
  | .le => "<="
  | .gt => ">"
  | .ge => ">="
  | .booleanAnd => "&"
  | .booleanOr => "|"

/-- `_EIG_FIELDS`. -/
inductive EigField
  | maxIm
  | lmin
  | lmax
  | lminBound
  deriving DecidableEq, Repr

/-- The name of a scalar field of a spectrum. -/
def EigField.name : EigField → String
  | .maxIm => "max_im"
  | .lmin => "lmin"
  | .lmax => "lmax"
  | .lminBound => "lmin_bound"

/-- `_EIG_PREDICATES`. -/
inductive EigPredicate
  | allReal
  | realStatus
  deriving DecidableEq, Repr

/-- The name of a predicate of a spectrum. -/
def EigPredicate.name : EigPredicate → String
  | .allReal => "all_real"
  | .realStatus => "real_status"

/-- What an `EigWitness` reads of the spectrum of its matrix with `k` rows; a predicate has a
tolerance. -/
inductive Witness
  | field (field : EigField) (k : ℕ)
  | predicate (field : EigPredicate) (k : ℕ) (imTol : ℚ)
  deriving DecidableEq, Repr

/-- The state that a `StateRef` marks. -/
inductive Side
  | left
  | right
  deriving DecidableEq, Repr

/-- `side`. -/
def Side.text : Side → String
  | .left => "L"
  | .right => "R"

/-- A node with its `id`, the identity of the Python object.  The entries of a matrix stand row by
row. -/
inductive Node
  | const (id : ℕ) (literal : ScalarLiteral) (handle : Option Handle)
  | runtimeParamRef (id : ℕ) (name : String) (literal : ScalarLiteral) (handle : Option Handle)
      (dtype : Option String)
  | var (id : ℕ) (kind name : String)
  | unary (id : ℕ) (op : Unary) (a : Node)
  | bin (id : ℕ) (op : Bin) (a b : Node)
  | eigWitness (id : ℕ) (witness : Witness) (entries : List Node)
  | stateRef (id : ℕ) (side : Side) (expr : Node)

/-- `id(e)`. -/
def Node.id : Node → ℕ
  | .const id _ _ => id
  | .runtimeParamRef id _ _ _ _ => id
  | .var id _ _ => id
  | .unary id _ _ => id
  | .bin id _ _ _ => id
  | .eigWitness id _ _ => id
  | .stateRef id _ _ => id

/-- `_children(e)`: the operands in the order of the source. -/
def Node.children : Node → List Node
  | .const _ _ _ => []
  | .runtimeParamRef _ _ _ _ _ => []
  | .var _ _ _ => []
  | .unary _ _ a => [a]
  | .bin _ _ a b => [a, b]
  | .eigWitness _ _ entries => entries
  | .stateRef _ _ expr => [expr]

mutual

/-- A node and everything below it. -/
def Node.parts : Node → List Node
  | .const id literal handle => [.const id literal handle]
  | .runtimeParamRef id name literal handle dtype => [.runtimeParamRef id name literal handle dtype]
  | .var id kind name => [.var id kind name]
  | .unary id op a => .unary id op a :: a.parts
  | .bin id op a b => .bin id op a b :: (a.parts ++ b.parts)
  | .eigWitness id witness entries => .eigWitness id witness entries :: partsOf entries
  | .stateRef id side expr => .stateRef id side expr :: expr.parts

/-- Nodes and everything below them. -/
def partsOf : List Node → List Node
  | [] => []
  | n :: rest => n.parts ++ partsOf rest

end

mutual

/-- The tree of a node: the same data without the identities of the objects. -/
def Node.anonymous : Node → Node
  | .const _ literal handle => .const 0 literal handle
  | .runtimeParamRef _ name literal handle dtype => .runtimeParamRef 0 name literal handle dtype
  | .var _ kind name => .var 0 kind name
  | .unary _ op a => .unary 0 op a.anonymous
  | .bin _ op a b => .bin 0 op a.anonymous b.anonymous
  | .eigWitness _ witness entries => .eigWitness 0 witness (anonymousOf entries)
  | .stateRef _ side expr => .stateRef 0 side expr.anonymous

/-- The trees of nodes. -/
def anonymousOf : List Node → List Node
  | [] => []
  | n :: rest => n.anonymous :: anonymousOf rest

end

/-! ## Values -/

/-- The numbers and arrays that expressions are evaluated to, with the operations that Python and
NumPy have on them. -/
structure Arithmetic (V : Type) where
  int : ℤ → V
  fraction : ℚ → V
  decimal : String → V
  float : String → V
  unary : Unary → V → Raises V
  bin : Bin → V → V → Raises V
  eig : Witness → List V → Raises V

section Eval

variable {V : Type} (ops : Arithmetic V)

/-- `to_python()`: the Python number of a literal, refused where it has none. -/
def ScalarLiteral.toPython (l : ScalarLiteral) : Raises V :=
  match l.payload with
  | .integer v => .ok (ops.int v)
  | .rational v => .ok (ops.fraction v)
  | .decimal text => .ok (ops.decimal text)
  | .binary64 text => .ok (ops.float text)
  | .algebraic _ =>
    .error (typeError "algebraic literal needs target lowering before numerical evaluation")

/-- The value of a variable of the environment. -/
def readVar (env : String → Option V) (kind name : String) : Raises V :=
  match env name with
  | some v => .ok v
  | none => .error
      ⟨.keyError, "variable '" ++ name ++ "' (" ++ kind ++ ") missing from the environment"⟩

variable (read : String → ScalarLiteral → Raises V) (env : String → Option V)

mutual

/-- `eval(env)`, where `read` gives the value of a runtime parameter from its name and its declared
value. -/
def Node.evalReading : Node → Raises V
  | .const _ literal _ => literal.toPython ops
  | .runtimeParamRef _ name literal _ _ => read name literal
  | .var _ kind name => readVar env kind name
  | .unary _ op a => do
    let x ← a.evalReading
    ops.unary op x
  | .bin _ op a b => do
    let x ← a.evalReading
    let y ← b.evalReading
    ops.bin op x y
  | .eigWitness _ witness entries => do
    let values ← evalReadings entries
    ops.eig witness values
  | .stateRef _ _ _ => .error (notImplementedError
      ("StateRef (dsl.left / dsl.right) is not evaluated by the numpy interpreter: the two-state" ++
        " Roe dissipation is EMITTED in C++ (m.roe_dissipation), not interpreted on the host."))

/-- The values of the entries of a matrix. -/
def evalReadings : List Node → Raises (List V)
  | [] => .ok []
  | n :: rest => do
    let x ← n.evalReading
    let values ← evalReadings rest
    return x :: values

end

/-- `eval(env)`: the interpreter reads the declared value of a runtime parameter. -/
def Node.eval (n : Node) : Raises V := n.evalReading ops (fun _ literal => literal.toPython ops) env

/-- The value where the runtime parameters have the values `params`. -/
def Node.evalWith (params : String → V) (n : Node) : Raises V :=
  n.evalReading ops (fun name _ => .ok (params name)) env

end Eval

/-! ## Numbers and identities -/

/-- What a descriptor holds of a node besides the numbers of its children. -/
inductive Head
  | const (literal : ScalarLiteral) (localId : Option String)
  | runtimeParam (name : String)
  | var (kind name : String)
  | unary (op : Unary)
  | bin (op : Bin)
  | eig (witness : Witness)
  | state (side : Side)
  deriving DecidableEq, Repr

/-- An entry of a descriptor. -/
inductive Atom
  | text (s : String)
  | num (v : ℚ)
  | tuple (ids : List ℕ)
  deriving DecidableEq, Repr

/-- The numbers of children as entries. -/
def nums (ids : List ℕ) : List Atom := ids.map fun i : ℕ => .num i

/-- `descriptor`, from the numbers of the children. -/
def descriptor : Head → List ℕ → List Atom
  | .const literal (some localId), _ => [.text "param_const", .text localId, .text literal.text]
  | .const literal none, _ => [.text "const", .text literal.text]
  | .runtimeParam name, _ => [.text "rparam", .text name]
  | .var kind name, _ => [.text "var", .text kind, .text name]
  | .unary op, ids => .text op.tag :: nums ids
  | .bin op, ids => [.text op.op, .tuple ids]
  | .eig (.predicate field k imTol), ids =>
    [.text "eig", .text field.name, .num k, .num imTol, .tuple ids]
  | .eig (.field field k), ids => [.text "eig", .text field.name, .num k, .tuple ids]
  | .state side, ids => .text "state" :: .text side.text :: nums ids

mutual

/-- A node as an object whose children are numbered in their order. -/
def Node.object : Node → HashConsing.Shared Head
  | .const id literal handle => .node id (.const literal (handle.map Handle.localId)) []
  | .runtimeParamRef id name _ _ _ => .node id (.runtimeParam name) []
  | .var id kind name => .node id (.var kind name) []
  | .unary id op a => .node id (.unary op) [a.object]
  | .bin id op a b => .node id (.bin op) [a.object, b.object]
  | .eigWitness id witness entries => .node id (.eig witness) (objects entries)
  | .stateRef id side expr => .node id (.state side) [expr.object]

/-- Nodes as objects. -/
def objects : List Node → List (HashConsing.Shared Head)
  | [] => []
  | n :: rest => n.object :: objects rest

end

/-- Root expressions: nodes with one identity are one object. -/
structure Roots where
  nodes : List Node
  same : ∀ n ∈ partsOf nodes, ∀ m ∈ partsOf nodes, n.id = m.id → n = m

/-- `_dag_key_ids(exprs)`: the numbers of the objects, the descriptors and the numbers of the roots.
-/
def dagKeyIds (roots : Roots) : List (ℕ × ℕ) × List (List Atom) × List ℕ :=
  let result := HashConsing.visits descriptor (objects roots.nodes) .empty
  (result.2.known, result.2.table, result.1)

/-- The number of a node. -/
def nodeId (roots : Roots) (n : Node) : Option ℕ := (dagKeyIds roots).1.lookup n.id

/-- The data of an identity. -/
structure DagKeyData where
  protocol : String
  nodes : List (List Atom)
  roots : List ℕ
  deriving DecidableEq, Repr

/-- `_dag_key_data(exprs)`. -/
def dagKeyData (roots : Roots) : DagKeyData :=
  ⟨"pops.expr.dag.v1", (dagKeyIds roots).2.1, (dagKeyIds roots).2.2⟩

end Dag

end Ir

end Pops
