import Pops.Foundation.ScopedCode
import Pops.Ir.DagKeyCanonical

/-!
# Emission of expressions as C++

`pops.codegen.cpp_writer`: `_cse_emit` writes C++ for root expressions.  Subexpressions that occur
twice become locals `cseK_` in front of the roots.  The right operand of `&&` and `||` is a scope of
its own, a lambda whose locals `guardN_cseK_` are computed only when the left operand does not
decide; the names of these locals may be declared in front of everything and assigned inside the
lambda, so that a kernel can look at them.

## Main definitions

* `Pops.Codegen.cppIdentifier` — the C++ name of a variable.
* `Pops.Codegen.Cpp` — emitted expressions; `Pops.Codegen.textOf` is their text.
* `Pops.Codegen.Spelling` — how literals, parameters and tolerances are written, if they can be.
* `Pops.Codegen.render`, `cppExpand` — an expression over the locals that are there.
* `Pops.Codegen.visit` — occurrences and sizes of the subexpressions of a scope.
* `Pops.Codegen.emitScope`, `cseEmit` — a scope, and the whole emission.
-/

namespace Pops

namespace Codegen

open Ir.Dag
open ScopedCode (Code Body)

/-! ## Names -/

/-- `_CPP_KEYWORDS`: the reserved words, which are no names of locals. -/
def cppKeywords : List String :=
  ["alignas", "alignof", "and", "and_eq", "asm", "auto", "bitand", "bitor", "bool", "break", "case",
    "catch", "char", "char8_t", "char16_t", "char32_t", "class", "compl", "concept", "const",
    "consteval", "constexpr", "constinit", "const_cast", "continue", "co_await", "co_return",
    "co_yield", "decltype", "default", "delete", "do", "double", "dynamic_cast", "else", "enum",
    "explicit", "export", "extern", "false", "float", "for", "friend", "goto", "if",
      "inline", "int",
    "long", "mutable", "namespace", "new", "noexcept", "not", "not_eq", "nullptr", "operator", "or",
    "or_eq", "private", "protected", "public", "register", "reinterpret_cast", "requires", "return",
    "short", "signed", "sizeof", "static", "static_assert", "static_cast", "struct", "switch",
    "template", "this", "thread_local", "throw", "true", "try", "typedef", "typeid", "typename",
    "union", "unsigned", "using", "virtual", "void", "volatile", "wchar_t", "while",
      "xor", "xor_eq"]

/-- `_CPP_MATH_SHADOWS`: the functions of the mathematical headers, which a local must not hide. -/
def cppMathShadows : List String :=
  ["abs", "acos", "acosh", "asin", "asinh", "atan", "atan2", "atanh", "cbrt", "ceil", "copysign",
    "cos", "cosh", "erf", "erfc", "exp", "exp2", "expm1", "fabs", "fdim", "floor", "fma", "fmax",
    "fmin", "fmod", "frexp", "hypot", "ilogb", "isfinite", "isinf", "isnan", "isnormal", "ldexp",
    "lgamma", "llrint", "llround", "log", "log10", "log1p", "log2", "logb", "lrint",
      "lround", "max",
    "min", "modf", "nan", "nearbyint", "nextafter", "pow", "remainder", "rint", "round", "scalbln",
    "scalbn", "sin", "sinh", "sqrt", "swap", "tan", "tanh", "tgamma", "trunc"]

/-- Runs of underscores become one underscore. -/
def collapse (text : List Char) : List Char :=
  text.foldr (fun c rest => if c = '_' ∧ rest.head? = some '_' then rest else c :: rest) []

/-- `_cpp_identifier`: a C++ identifier for an arbitrary text. -/
def cppIdentifier (value : String) : String :=
  let identifier := collapse (value.toList.map fun c => if c.isAlphanum = true ∨
    c = '_' then c else '_')
  let identifier := if identifier = [] then "pops_generated".toList else identifier
  let identifier := if identifier.head?.any Char.isDigit = true then "pops_".toList ++ identifier
    else identifier
  if String.ofList identifier ∈ cppKeywords ∨ String.ofList identifier ∈ cppMathShadows ∨
      identifier.head? = some '_' then
    String.ofList ("pops_".toList ++ identifier.dropWhile fun c => c = '_')
  else String.ofList identifier

/-- The local `cseI_` of the outer scope or `guardN_cseI_` of a lambda. -/
def localName : Option ℕ → ℕ → String
  | none, i => "cse" ++ i.repr ++ "_"
  | some g, i => "guard" ++ g.repr ++ "_cse" ++ i.repr ++ "_"

/-! ## Emitted expressions -/

/-- What is emitted for an expression without operands: a literal, or `params.get(i)`. -/
inductive Leaf
  | const (literal : ScalarLiteral)
  | param (name : String)
  deriving DecidableEq

/-- An operator or a call. -/
inductive Operation
  | unary (op : Unary)
  | bin (op : Bin)
  | eig (witness : Witness)
  deriving DecidableEq

/-- An emitted expression. -/
abbrev Cpp := Code String Leaf Operation

/-- A local with its value; a local of a lambda may be declared in front of everything. -/
structure Line where
  hoisted : Bool
  name : String
  value : Cpp

/-- The lines and the values of a scope as a block. -/
def scopeBody (lines : List Line) (values : List Cpp) : Body String Leaf Operation :=
  lines.foldr (fun line rest => .define line.hoisted line.name line.value rest) (.results values)

/-- Emission text of a call of an operator. -/
def operationText (tolerance : ℚ → String) : Operation → List String → String
  | .unary .neg, [a] => "(-" ++ a ++ ")"
  | .unary .sqrt, [a] => "std::sqrt(" ++ a ++ ")"
  | .unary .abs, [a] => "std::fabs(" ++ a ++ ")"
  | .unary .sign, [a, b] => "(pops::Real(" ++ a ++ " > 0) - pops::Real(" ++ b ++ " < 0))"
  | .unary .booleanNot, [a] => "(!" ++ a ++ ")"
  | .bin .pow, [a, b] => "std::pow(" ++ a ++ ", " ++ b ++ ")"
  | .bin .minimum, [a, b] => "Kokkos::fmin(" ++ a ++ ", " ++ b ++ ")"
  | .bin .maximum, [a, b] => "Kokkos::fmax(" ++ a ++ ", " ++ b ++ ")"
  | .bin op, [a, b] => "(" ++ a ++ " " ++ op.op ++ " " ++ b ++ ")"
  | .eig (.field field k), args =>
    "pops_eig_" ++ field.name ++ "_" ++ k.repr ++ "x" ++ k.repr ++ "(" ++
      ", ".intercalate args ++ ")"
  | .eig (.predicate field k imTol), args => "pops_eig_" ++ field.name ++ "_" ++ k.repr ++ "x" ++
      k.repr ++ "(" ++ ", ".intercalate (args ++ [tolerance imTol]) ++ ")"
  | _, _ => ""

section Text

-- the texts of literals, of parameters and of tolerances, and the scalar type
variable (scalar : ScalarLiteral → String) (param : String → String) (tolerance : ℚ → String)
  (real : String)

mutual

/-- The text of an emitted expression. -/
def textOf : Cpp → String
  | .leaf (.const literal) => scalar literal
  | .leaf (.param name) => param name
  | .read name => name
  | .op o args => operationText tolerance o (textsOf args)
  | .guard conjunctive left right =>
    "(" ++ textOf left ++ (if conjunctive then " && " else " || ") ++ textOf right ++ ")"
  | .block body =>
    "([&]() \x7b " ++ " ".intercalate (bodyText body).1 ++ " return " ++
      ", ".intercalate (bodyText body).2 ++ "; \x7d())"

/-- The texts of emitted expressions. -/
def textsOf : List Cpp → List String
  | [] => []
  | c :: rest => textOf c :: textsOf rest

/-- The lines of a block and its values. -/
def bodyText : Body String Leaf Operation → List String × List String
  | .results codes => ([], textsOf codes)
  | .define hoisted name code rest =>
    ((if hoisted then name ++ " = " ++ textOf code ++ ";"
      else "const " ++ real ++ " " ++ name ++ " = " ++ textOf code ++ ";") :: (bodyText rest).1,
      (bodyText rest).2)

end

end Text

/-! ## Expressions over locals -/

/-- `cse_map`: the locals that are there, by the keys of the expressions that they hold. -/
abbrev CseMap := List (ℕ × String)

/-- What the emission of scopes shares: the number of the last lambda, the names that are declared
in front of everything, and the names that are looked at. -/
structure Emission where
  nextScope : ℕ
  declarations : List String
  observed : List String

/-- How the right operand of `&&` and `||` is emitted. -/
abbrev Guarded := Node → CseMap → Emission → Raises (Cpp × Emission)

/-- Whether the operator is `&&` or `||`; the flag tells them apart. -/
def conjunctive : Bin → Option Bool
  | .booleanAnd => some true
  | .booleanOr => some false
  | _ => none

/-- `sign` is emitted with its operand twice. -/
def operands {α : Type} (op : Unary) (a : α) : List α := if op = .sign then [a, a] else [a]

/-- The name of the local that holds an expression, or its expansion. -/
def localOr (cseMap : CseMap) (whole : Bool) (k : ℕ) (state : Emission)
    (expansion : Raises (Cpp × Emission)) : Raises (Cpp × Emission) :=
  match (if whole then none else cseMap.lookup k) with
  | some name => .ok (.read name, state)
  | none => expansion

/-- How the data of an expression is written, which may be refused. -/
structure Spelling where
  /-- `ScalarLiteral.to_cpp`, which refuses a unit and a number outside of `pops::Real`. -/
  literal : ScalarLiteral → Raises String
  /-- `_RUNTIME_PARAM_INDICES`: the slots of the runtime parameters, while they are assigned. -/
  indices : Option (List (String × ℕ))
  /-- `scalar_cpp` of the tolerance of a predicate. -/
  tolerance : ℚ → Raises String

/-- `RuntimeParamRef.to_cpp`: the member that holds the parameter, refused before its index is
known. -/
def Spelling.param (spelling : Spelling) (name : String) : Raises String :=
  match spelling.indices.bind fun indices => indices.lookup name with
  | some index => .ok ("params.get(" ++ index.repr ++ ")")
  | none => .error ⟨.runtimeError, "RuntimeParamRef('" ++ name ++ "'): index not assigned at " ++
      "codegen (call the compilation via dsl.Model which assigns the runtime indices)"⟩

/-- `_extra_args_cpp`: the arguments that a wave-speed witness adds to its call. -/
def Spelling.extraArgs (spelling : Spelling) : Witness → Raises (List String)
  | .field _ _ => .ok []
  | .predicate _ _ imTol => do
    let text ← spelling.tolerance imTol
    .ok [text]

section Render

variable (spelling : Spelling) (key : Node → ℕ) (guarded : Guarded) (cseMap : CseMap)

mutual

/-- `_cpp_expand` and `_cpp_cse`; the first one expands the level of the node even if a local holds
it. -/
def render (whole : Bool) : Node → Emission → Raises (Cpp × Emission)
  | .const id literal handle, state =>
    localOr cseMap whole (key (.const id literal handle)) state do
      let _ ← spelling.literal literal
      .ok (.leaf (.const literal), state)
  | .runtimeParamRef id name literal handle dtype, state =>
    localOr cseMap whole (key (.runtimeParamRef id name literal handle dtype)) state do
      let _ ← spelling.param name
      .ok (.leaf (.param name), state)
  | .var id kind name, state =>
    localOr cseMap whole (key (.var id kind name)) state (.ok (.read (cppIdentifier name), state))
  | .unary id op a, state =>
    localOr cseMap whole (key (.unary id op a)) state do
      let (s, state) ← render false a state
      .ok (.op (.unary op) (operands op s), state)
  | .bin id op a b, state =>
    localOr cseMap whole (key (.bin id op a b)) state
      (match conjunctive op with
      | some c => do
        let (right, state) ← guarded b cseMap state
        let (left, state) ← render false a state
        .ok (.guard c left right, state)
      | none => do
        let (left, state) ← render false a state
        let (right, state) ← render false b state
        .ok (.op (.bin op) [left, right], state))
  | .eigWitness id witness entries, state =>
    localOr cseMap whole (key (.eigWitness id witness entries)) state do
      let (args, state) ← renders entries state
      let _ ← spelling.extraArgs witness
      .ok (.op (.eig witness) args, state)
  | .stateRef id side expr, state =>
    localOr cseMap whole (key (.stateRef id side expr)) state
      (.error (typeError "expression not handled by the codegen"))

/-- `_cpp_cse` of expressions, one after the other. -/
def renders : List Node → Emission → Raises (List Cpp × Emission)
  | [], state => .ok ([], state)
  | n :: rest, state => do
    let (c, state) ← render false n state
    let (others, state) ← renders rest state
    .ok (c :: others, state)

end

/-- `_cpp_expand`: the spelling of a node without the subexpressions that already have locals. -/
def cppExpand : Node → Emission → Raises (Cpp × Emission) := render spelling key guarded cseMap true

end Render

/-! ## The subexpressions of a scope -/

mutual

/-- `full_size`: the number of operations of the tree below a node. -/
def fullSize : Node → ℕ
  | .const _ _ _ => 1
  | .runtimeParamRef _ _ _ _ _ => 1
  | .var _ _ _ => 1
  | .unary _ _ a => 1 + fullSize a
  | .bin _ _ a b => 1 + (fullSize a + fullSize b)
  | .eigWitness _ _ entries => 1 + fullSizes entries
  | .stateRef _ _ expr => 1 + fullSize expr

/-- The sizes of expressions together. -/
def fullSizes : List Node → ℕ
  | [] => 0
  | n :: rest => fullSize n + fullSizes rest

end

/-- `counts[k] = counts.get(k, 0) + c`: add to the count of a key, in order of first occurrence. -/
def addCount : List (ℕ × ℕ) → ℕ → ℕ → List (ℕ × ℕ)
  | [], k, c => [(k, c)]
  | (k', c') :: rest, k, c => if k' = k then (k', c' + c) :: rest else (k', c') :: addCount rest k c

/-- The counts of two expressions together. -/
def addCounts (counts others : List (ℕ × ℕ)) : List (ℕ × ℕ) :=
  others.foldl (fun counts entry => addCount counts entry.1 entry.2) counts

/-- `rep` and `size`: the first expression of every key, and its size. -/
structure Tables where
  rep : List (ℕ × Node)
  size : List (ℕ × ℕ)

/-- `rep.setdefault(k, e)` and `size[k] = s`. -/
def Tables.enter (tables : Tables) (k : ℕ) (e : Node) (s : ℕ) : Tables where
  rep := if (tables.rep.lookup k).isSome then tables.rep else tables.rep ++ [(k, e)]
  size := (k, s) :: tables.size

/-- The size and the counts of an expression that is neither a leaf nor inherited. -/
def counted (key : Node → ℕ) (inherited : CseMap) (n : Node) (tables : Tables)
    (children : (ℕ × List (ℕ × ℕ)) × Tables) : (ℕ × List (ℕ × ℕ)) × Tables :=
  if (inherited.lookup (key n)).isSome then ((1, []), tables)
  else
    let s := match n with
      | .bin _ op _ _ => if (conjunctive op).isSome then fullSize n else 1 + children.1.1
      | _ => 1 + children.1.1
    ((s, addCount children.1.2 (key n) 1), children.2.enter (key n) n s)

/-- The sizes and the counts of two expressions together. -/
def together (first others : ℕ × List (ℕ × ℕ)) : ℕ × List (ℕ × ℕ) :=
  (first.1 + others.1, addCounts first.2 others.2)

section Visit

variable (key : Node → ℕ) (inherited : CseMap)

mutual

/-- `visit`: the size of an expression and the occurrences below it, not counting what is only in
right operands of `&&` and `||`. -/
def visit : Node → Tables → (ℕ × List (ℕ × ℕ)) × Tables
  | .const _ _ _, tables => ((1, []), tables)
  | .var _ _ _, tables => ((1, []), tables)
  | .runtimeParamRef id name literal handle dtype, tables =>
    counted key inherited (.runtimeParamRef id name literal handle dtype) tables ((0, []), tables)
  | .unary id op a, tables => counted key inherited (.unary id op a) tables (visit a tables)
  | .bin id op a b, tables =>
    counted key inherited (.bin id op a b) tables
      (let left := visit a tables
      if (conjunctive op).isSome then left
      else
        let right := visit b left.2
        (together left.1 right.1, right.2))
  | .eigWitness id witness entries, tables =>
    counted key inherited (.eigWitness id witness entries) tables (visits entries tables)
  | .stateRef id side expr, tables =>
    counted key inherited (.stateRef id side expr) tables (visit expr tables)

/-- `visit` of expressions, one after the other. -/
def visits : List Node → Tables → (ℕ × List (ℕ × ℕ)) × Tables
  | [], tables => ((0, []), tables)
  | n :: rest, tables =>
    let first := visit n tables
    let others := visits rest first.2
    (together first.1 others.1, others.2)

end

end Visit

/-! ## Emission -/

/-- The keyword arguments of `_cse_emit`. -/
structure EmitFlags where
  materializeAll : Bool
  returnNames : Bool

/-- `cand`: the keys of the expressions that become locals, smaller expressions first. -/
def candidates (flags : EmitFlags) (counts : List (ℕ × ℕ)) (tables : Tables) : List ℕ :=
  let chosen := counts.filter fun entry => flags.materializeAll || decide (2 ≤ entry.2) ||
    (match tables.rep.lookup entry.1 with
    | some (.bin _ op _ _) => (conjunctive op).isSome
    | _ => false)
  (chosen.map Prod.fst).insertionSort fun k k' =>
    (tables.size.lookup k).getD 0 ≤ (tables.size.lookup k').getD 0

/-- The local of an expression is declared: in front of everything when it is hoisted. -/
def Emission.announce (state : Emission) (hoisted : Bool) (name : String) : Emission :=
  { state with
    declarations := if hoisted then state.declarations ++ [name] else state.declarations
    observed := state.observed ++ [name] }

section Emit

variable (spelling : Spelling) (key : Node → ℕ) (flags : EmitFlags)

/-- The loop over the candidates, from the one with the given index on. -/
def emitLines (guarded : Guarded) (tables : Tables) (scope : Option ℕ) :
    List ℕ → ℕ → CseMap → Emission → Raises (List Line × CseMap × Emission)
  | [], _, cseMap, state => .ok ([], cseMap, state)
  | k :: rest, i, cseMap, state =>
    match tables.rep.lookup k with
    | none => .error ⟨.keyError, k.repr⟩
    | some expression => do
      let name := localName scope i
      let hoisted := scope.isSome && flags.returnNames
      let (value, state) ← cppExpand spelling key guarded cseMap expression state
      let (lines, cseMap, state) ←
        emitLines guarded tables scope rest (i + 1) ((k, name) :: cseMap)
          (state.announce hoisted name)
      .ok (⟨hoisted, name, value⟩ :: lines, cseMap, state)

/-- `guarded`: the scope of a right operand in a lambda with the next number. -/
def guardedLambda (scopeOf : List Node → CseMap → Option ℕ → Emission →
    Raises (List Line × List Cpp × Emission)) : Guarded := fun right available state => do
  let number := state.nextScope + 1
  let (lines, values, state) ←
    scopeOf [right] available (some number) { state with nextScope := number }
  .ok (.block (scopeBody lines values), state)

/-- `emit_scope`, with a bound for the nesting of lambdas: the scope of the roots, over the locals
`inherited`, in the lambda with the given number or outside of all lambdas. -/
def emitScope : ℕ → List Node → CseMap → Option ℕ → Emission →
    Raises (List Line × List Cpp × Emission)
  | 0, _, _, _, _ => .error ⟨.runtimeError, "maximum recursion depth exceeded"⟩
  | depth + 1, roots, inherited, scope, state => do
    let guarded := guardedLambda (emitScope depth)
    let visited := visits key inherited roots ⟨[], []⟩
    let cand := candidates flags visited.1.2 visited.2
    let (lines, cseMap, state) ←
      emitLines spelling key flags guarded visited.2 scope cand 0 inherited state
    let (rendered, state) ← renders spelling key guarded cseMap roots state
    .ok (lines, rendered, state)

end Emit

/-- What `_cse_emit` returns: the names that are declared with the value zero, the lines behind
them, the roots, and the names of the locals. -/
structure Emitted where
  declarations : List String
  lines : List Line
  rendered : List Cpp
  names : List String

/-- `_key(e, key_memo)`: every expression below the roots has a number in the memo. -/
def memoKey (roots : Roots) (n : Node) : ℕ := (nodeId roots n).getD 0

/-- `_cse_emit`: the locals of the shared subexpressions and then the spelled roots. -/
def cseEmit (spelling : Spelling) (roots : Roots) (flags : EmitFlags) : Raises Emitted := do
  let (lines, rendered, state) ← emitScope spelling (memoKey roots) flags
    (fullSizes roots.nodes + 1) roots.nodes [] none ⟨0, [], []⟩
  .ok ⟨state.declarations, lines, rendered, state.observed⟩

end Codegen

end Pops
