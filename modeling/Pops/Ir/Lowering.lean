import Pops.Core.Identity.ScalarLiteral
import Pops.Foundation.OrderedMap

/-!
# Symbolic expressions and their derivatives

The tree of a symbolic expression, the constructors that simplify as they build (exact constants
are folded, zeros and ones are dropped), and the symbolic derivative.  A primitive that the table
of definitions defines is differentiated through its definition, so the derivative recurses along
the tree and along the table, whose definitions must not form a cycle.

## Main definitions

* `Pops.Ir.Expr` — the expressions with exact literals.
* `Pops.Ir.Definitions` — an acyclic table of definitions.
* `Pops.Ir.sAdd`, `sNeg`, `sSub`, `sMul`, `sDiv`, `sPow` — the simplifying constructors.
* `Pops.Ir.Definitions.diff` — the symbolic derivative.

## Main results

* `Pops.Ir.Definitions.induction` — induction along an expression and the definitions its
  variables name.
-/

namespace Pops

namespace Ir

open Scalar

/-! ## Expressions -/

/-- The binary operations of an expression. -/
inductive Operation
  | add
  | sub
  | mul
  | div
  | pow
  deriving DecidableEq, Repr

/-- The `semantic_operation` of a binary node class. -/
def Operation.text : Operation → String
  | .add => "add"
  | .sub => "sub"
  | .mul => "mul"
  | .div => "div"
  | .pow => "pow"

/-- A symbolic expression over exact literals, named variables and runtime parameters. -/
inductive Expr
  | const (literal : Literal)
  | var (name kind : String)
  | param (name : String)
  | bin (op : Operation) (a b : Expr)
  | neg (a : Expr)
  | sqrt (a : Expr)
  | abs (a : Expr)
  | sign (a : Expr)
  deriving DecidableEq, Repr

/-- `Const(v)` of an integer. -/
def Expr.ofInt (v : ℤ) : Expr := .const (.ofInt v)

/-- The names of the variables of an expression. -/
def Expr.names : Expr → List String
  | .const _ => []
  | .var name _ => [name]
  | .param _ => []
  | .bin _ a b => a.names ++ b.names
  | .neg a => a.names
  | .sqrt a => a.names
  | .abs a => a.names
  | .sign a => a.names

/-! ## Folding constants -/

/-- The `repr` of an optional annotation. -/
def reprAnnotation : Option String → String
  | none => "None"
  | some text => "'" ++ text ++ "'"

/-- Validates the annotations of two constants and gives those of the result. -/
def combinedAnnotations (a b : Literal) (operation : Operation) :
    Raises (Option String × Option String) := do
  let unit ← match operation with
    | .add | .sub => do
      raiseIf (a.unit ≠ b.unit) (typeError ("symbolic " ++ operation.text ++
        " requires identical units, got " ++ reprAnnotation a.unit ++ " and " ++
        reprAnnotation b.unit))
      pure a.unit
    | _ => do
      raiseIf (a.unit ≠ none ∨ b.unit ≠ none) (typeError ("symbolic " ++ operation.text ++
        " of unit-bearing constants requires an explicit unit-system " ++
        "operation; PoPS will not invent or erase a compound unit"))
      pure none
  raiseIf (a.target ≠ none ∧ b.target ≠ none ∧ a.target ≠ b.target) (typeError ("symbolic " ++
    operation.text ++ " requires compatible scalar targets, got " ++ reprAnnotation a.target ++
    " and " ++ reprAnnotation b.target))
  return (unit, a.target <|> b.target)

/-- The constructor of a binary node, which validates the annotations of two constants. -/
def binNode (op : Operation) (a b : Expr) : Raises Expr :=
  match a, b with
  | .const l, .const l' => do
    let _ ← combinedAnnotations l l' op
    return .bin op a b
  | _, _ => .ok (.bin op a b)

/-- Folds two constants without crossing domains or discarding annotations; an operation that
does not give an exact number leaves the node. -/
def foldConstants (a b : Literal) (operation : Number → Number → Raises (Option Number))
    (kind : Operation) : Raises Expr := do
  raiseIf (numericDomainsCompatible a.number b.number = false) (typeError
    ("symbolic constant folding cannot mix " ++ a.number.typeName ++ " and " ++
      b.number.typeName ++ " without an explicit target conversion"))
  let (unit, target) ← combinedAnnotations a b kind
  match ← operation a.number b.number with
  | none => binNode kind (.const a) (.const b)
  | some result => return .const ⟨result, unit, target⟩

/-- The sum of two compatible numbers. -/
def exactAddNumbers [Interpreter] : Number → Number → Raises (Option Number)
  | .int v, .int w => .ok (some (.int (v + w)))
  | .int v, .fraction w => .ok (some (.fraction (v + w)))
  | .fraction v, .int w => .ok (some (.fraction (v + w)))
  | .fraction v, .fraction w => .ok (some (.fraction (v + w)))
  | left, right => do return some (.decimal (← exactDecimalAdd left right))

/-- `right if isinstance(right, Decimal) else Decimal(right)`: the conversion of a number to a
decimal. -/
def toDecimal : Number → Raises Decimal
  | .decimal v => .ok v
  | .int v => decimalOfTuple (decide (v < 0)) v.natAbs 0
  | .fraction _ => .error (typeError "conversion from Fraction to Decimal is not supported")

/-- The difference of two compatible numbers. -/
def exactSubtractNumbers [Interpreter] : Number → Number → Raises (Option Number)
  | .int v, .int w => .ok (some (.int (v - w)))
  | .int v, .fraction w => .ok (some (.fraction (v - w)))
  | .fraction v, .int w => .ok (some (.fraction (v - w)))
  | .fraction v, .fraction w => .ok (some (.fraction (v - w)))
  | left, right => do
    let decimalRight ← toDecimal right
    return some (.decimal (← exactDecimalAdd left (.decimal (exactDecimalNegate decimalRight))))

/-- The product of two compatible numbers. -/
def exactMultiplyNumbers [Interpreter] : Number → Number → Raises (Option Number)
  | .int v, .int w => .ok (some (.int (v * w)))
  | .int v, .fraction w => .ok (some (.fraction (v * w)))
  | .fraction v, .int w => .ok (some (.fraction (v * w)))
  | .fraction v, .fraction w => .ok (some (.fraction (v * w)))
  | left, right => do return some (.decimal (← exactDecimalMultiply left right))

/-- `str(v)` of an integer. -/
def intText [Interpreter] (v : ℤ) : Raises String := do
  let digits ← strDigits v.natAbs
  return (if v < 0 then "-" else "") ++ String.ofList digits

/-- The exception of `Fraction(numerator, 0)`, whose text spells the numerator. -/
def zeroDenominator [Interpreter] {α : Type} (numerator : ℤ) : Raises α := do
  let text ← intText numerator
  .error (zeroDivisionError ("Fraction(" ++ text ++ ", 0)"))

/-- The quotient of two compatible numbers; a decimal quotient that does not terminate is not
folded.  A quotient by zero is a fraction that is refused: of two integers with the dividend as its
numerator, else with the numerator reduced by its common divisor with zero, which is its sign. -/
def exactDivide [Interpreter] (left right : Number) : Raises (Option Number) :=
  if left.isDecimal || right.isDecimal then do
    return (← exactDecimalDivide left right).map .decimal
  else if right.value = 0 then
    match left, right with
    | .int v, .int _ => zeroDenominator v
    | _, _ => zeroDenominator left.value.num.sign
  else .ok (some (.fraction (left.value / right.value)))

/-- The power of a number with an integer exponent; a power of a decimal is not folded, and a
negative power of zero is a fraction with the denominator zero. -/
def exactPower [Interpreter] (left : Number) (right : ℤ) : Raises (Option Number) :=
  match left with
  | .decimal _ => .ok none
  | .int v =>
    if right < 0 then
      if v = 0 then zeroDenominator 1 else .ok (some (.fraction (v ^ right : ℚ)))
    else .ok (some (.int (v ^ right.toNat)))
  | .fraction v =>
    if right < 0 ∧ v = 0 then zeroDenominator 1 else .ok (some (.fraction (v ^ right)))

/-! ## Simplifying constructors -/

/-- A numeric constant of the given value. -/
def isConst : Expr → ℚ → Bool
  | .const l, value => decide (l.number.value = value)
  | _, _ => false

/-- A numeric constant of the given value without annotations. -/
def isUnannotatedConst : Expr → ℚ → Bool
  | .const l, value =>
    decide (l.number.value = value) && l.unit.isNone && l.target.isNone
  | _, _ => false

/-- The sum of two expressions. -/
def sAdd [Interpreter] (a b : Expr) : Raises Expr :=
  match a, b with
  | .const l, .const l' => foldConstants l l' exactAddNumbers .add
  | _, _ =>
    if isUnannotatedConst a 0 then .ok b
    else if isUnannotatedConst b 0 then .ok a
    else binNode .add a b

/-- The negation of a number. -/
def negateNumber : Number → Number
  | .int v => .int (-v)
  | .fraction v => .fraction (-v)
  | .decimal v => .decimal (exactDecimalNegate v)

/-- The negation of an expression. -/
def sNeg (a : Expr) : Expr :=
  if isUnannotatedConst a 0 then .ofInt 0
  else match a with
    | .const l => .const { l with number := negateNumber l.number }
    | .neg inner => inner
    | _ => .neg a

/-- The difference of two expressions. -/
def sSub [Interpreter] (a b : Expr) : Raises Expr :=
  match a, b with
  | .const l, .const l' => foldConstants l l' exactSubtractNumbers .sub
  | _, _ =>
    if isUnannotatedConst b 0 then .ok a
    else if isUnannotatedConst a 0 then .ok (sNeg b)
    else binNode .sub a b

/-- The product of two expressions. -/
def sMul [Interpreter] (a b : Expr) : Raises Expr :=
  match a, b with
  | .const l, .const l' => foldConstants l l' exactMultiplyNumbers .mul
  | _, _ =>
    if isUnannotatedConst a 0 || isUnannotatedConst b 0 then .ok (.ofInt 0)
    else if isUnannotatedConst a 1 then .ok b
    else if isUnannotatedConst b 1 then .ok a
    else binNode .mul a b

/-- The quotient of two expressions. -/
def sDiv [Interpreter] (a b : Expr) : Raises Expr :=
  match a, b with
  | .const l, .const l' => foldConstants l l' exactDivide .div
  | _, _ =>
    if isUnannotatedConst a 0 then .ok (.ofInt 0)
    else if isUnannotatedConst b 1 then .ok a
    else binNode .div a b

/-- The power with an exponent that does not fold: the exponents zero and one are dropped. -/
def powNode (a b : Expr) : Raises Expr :=
  if isUnannotatedConst b 0 then .ok (.ofInt 1)
  else if isUnannotatedConst b 1 then .ok a
  else binNode .pow a b

/-- The power of two expressions; constants are folded for an integer exponent only. -/
def sPow [Interpreter] (a b : Expr) : Raises Expr :=
  match a, b with
  | .const l, .const l' =>
    match l'.number with
    | .int exponent => foldConstants l l' (fun left _ => exactPower left exponent) .pow
    | _ => do
      let _ ← combinedAnnotations l l' .pow
      powNode a b
  | _, _ => powNode a b

/-! ## Tables of definitions -/

/-- The definition of one name mentions another name. -/
def Mentions (entries : List (String × Expr)) (name name' : String) : Prop :=
  ∃ e, OrderedMap.lookup entries name = some e ∧ name' ∈ e.names

/-- A table of primitive definitions, none of which mentions itself, directly or through others. -/
structure Definitions where
  entries : List (String × Expr)
  acyclic : ∀ name, ¬ Relation.TransGen (Mentions entries) name name

namespace Definitions

variable (T : Definitions)

/-- `defs.get(name)`: the recipe of a primitive variable, or `None`. -/
def lookup (name : String) : Option Expr := OrderedMap.lookup T.entries name

open Classical in
/-- The defined names that the definition of a name leads to. -/
noncomputable def reach (name : String) : Finset String :=
  (T.entries.map Prod.fst).toFinset.filter (Relation.TransGen (Mentions T.entries) name)

/-- How far an expression is above the names without a definition. -/
noncomputable def level (e : Expr) : ℕ :=
  e.names.toFinset.sup fun name => if (T.lookup name).isSome then (T.reach name).card + 1 else 0

variable {T}

/-- A defined name that a definition mentions leads to fewer names. -/
lemma card_reach_lt {name name' : String} (h : Mentions T.entries name name')
    (hsome : (T.lookup name').isSome) : (T.reach name').card < (T.reach name).card := by
  apply Finset.card_lt_card
  rw [Finset.ssubset_iff_of_subset]
  · refine ⟨name', ?_, ?_⟩
    · simp only [reach, Finset.mem_filter, List.mem_toFinset]
      exact ⟨OrderedMap.isSome_lookup_iff.mp hsome, .single h⟩
    · -- the name would lead to itself
      simp only [reach, Finset.mem_filter, not_and]
      exact fun _ => T.acyclic name'
  · intro m hm
    simp only [reach, Finset.mem_filter] at hm ⊢
    exact ⟨hm.1, .head h hm.2⟩

/-- A subexpression is not above the expression. -/
lemma level_mono {e e' : Expr} (h : e'.names ⊆ e.names) : T.level e' ≤ T.level e := by
  apply Finset.sup_mono
  intro name hname
  exact List.mem_toFinset.mpr (h (List.mem_toFinset.mp hname))

/-- A definition is below the variable that it defines. -/
lemma level_lookup_lt {name kind : String} {e : Expr} (h : T.lookup name = some e) :
    T.level e < T.level (.var name kind) := by
  have hvar : T.level (.var name kind) = (T.reach name).card + 1 := by
    simp [level, Expr.names, h]
  rw [hvar, Nat.lt_succ_iff]
  apply Finset.sup_le
  intro name' hname'
  split_ifs with hsome
  · exact card_reach_lt ⟨e, h, List.mem_toFinset.mp hname'⟩ hsome
  · exact Nat.zero_le _

/-- The order in which expressions are taken apart: definitions before the names they define,
subexpressions before the expression. -/
def Below (e' e : Expr) : Prop :=
  Prod.Lex (· < ·) (· < ·) (T.level e', sizeOf e') (T.level e, sizeOf e)

/-- Taking expressions apart comes to an end. -/
lemma wellFounded_below : WellFounded (T.Below) :=
  InvImage.wf (fun e => (T.level e, sizeOf e)) (Prod.lex ⟨_, wellFounded_lt⟩ ⟨_, wellFounded_lt⟩).wf

/-- A subexpression is below the expression. -/
lemma below_of_names {e e' : Expr} (hnames : e'.names ⊆ e.names) (hsize : sizeOf e' < sizeOf e) :
    T.Below e' e := by
  unfold Below
  rcases Nat.lt_or_eq_of_le (level_mono (T := T) hnames) with h | h
  · exact Prod.Lex.left _ _ h
  · rw [h]
    exact Prod.Lex.right _ hsize

/-- A definition is below the variable that it defines. -/
lemma below_of_lookup {name kind : String} {e : Expr} (h : T.lookup name = some e) :
    T.Below e (.var name kind) :=
  Prod.Lex.left _ _ (level_lookup_lt h)

/-- An operand is below its binary node. -/
lemma below_left (op : Operation) (a b : Expr) : T.Below a (.bin op a b) := by
  apply below_of_names (List.subset_append_left _ _)
  simp only [Expr.bin.sizeOf_spec]
  omega

/-- An operand is below its binary node. -/
lemma below_right (op : Operation) (a b : Expr) : T.Below b (.bin op a b) := by
  apply below_of_names (List.subset_append_right _ _)
  simp only [Expr.bin.sizeOf_spec]
  omega

/-- **Induction along an expression and its definitions.** -/
theorem induction {motive : Expr → Prop}
    (const : ∀ l, motive (.const l))
    (var : ∀ name kind, (∀ e, T.lookup name = some e → motive e) → motive (.var name kind))
    (param : ∀ name, motive (.param name))
    (bin : ∀ op a b, motive a → motive b → motive (.bin op a b))
    (neg : ∀ a, motive a → motive (.neg a))
    (sqrt : ∀ a, motive a → motive (.sqrt a))
    (abs : ∀ a, motive a → motive (.abs a))
    (sign : ∀ a, motive a → motive (.sign a)) (e : Expr) : motive e := by
  induction e using (wellFounded_below (T := T)).induction with
  | _ e ih =>
    cases e with
    | const l => exact const l
    | var name kind => exact var name kind fun e he => ih e (below_of_lookup he)
    | param name => exact param name
    | bin op a b => exact bin op a b (ih a (below_left op a b)) (ih b (below_right op a b))
    | neg a => exact neg a (ih a (below_of_names (List.Subset.refl _) (by simp)))
    | sqrt a => exact sqrt a (ih a (below_of_names (List.Subset.refl _) (by simp)))
    | abs a => exact abs a (ih a (below_of_names (List.Subset.refl _) (by simp)))
    | sign a => exact sign a (ih a (below_of_names (List.Subset.refl _) (by simp)))

variable (T)

/-- An expression with all definitions expanded; the variable `x` itself stays a symbol. -/
def expand (x : String) : Expr → Expr
  | .const l => .const l
  | .var name kind =>
    if name = x then .var name kind
    else match _h : T.lookup name with
      | some e => expand x e
      | none => .var name kind
  | .param name => .param name
  | .bin op a b => .bin op (expand x a) (expand x b)
  | .neg a => .neg (expand x a)
  | .sqrt a => .sqrt (expand x a)
  | .abs a => .abs (expand x a)
  | .sign a => .sign (expand x a)
termination_by e => (T.level e, sizeOf e)
decreasing_by
  · exact below_of_lookup _h
  · exact below_left op a b
  · exact below_right op a b
  all_goals exact below_of_names (List.Subset.refl _) (by simp)

/-- The recursion of the symbolic derivative with respect to the name `target`. -/
def go [Interpreter] (target : String) : Expr → Raises Expr
  | .const _ => .ok (.ofInt 0)
  | .param _ => .ok (.ofInt 0)
  | .var name _ =>
    if name = target then .ok (.ofInt 1)
    else match _h : T.lookup name with
      | some e => go target e
      | none => .ok (.ofInt 0)
  | .bin .add a b => do sAdd (← go target a) (← go target b)
  | .bin .sub a b => do sSub (← go target a) (← go target b)
  | .bin .mul a b => do
    let left ← sMul (← go target a) b
    let right ← sMul a (← go target b)
    sAdd left right
  | .bin .div a b => do
    let left ← sMul (← go target a) b
    let right ← sMul a (← go target b)
    sDiv (← sSub left right) (← sMul b b)
  | .neg a => do return sNeg (← go target a)
  | .sqrt a => do sDiv (← go target a) (← sMul (.ofInt 2) (.sqrt a))
  | .abs a => do
    let ratio ← sDiv a (.abs a)
    sMul ratio (← go target a)
  | .sign _ => .ok (.ofInt 0)
  | .bin .pow a b => do
    raiseIf (isConst (← go target b) 0 = false) (notImplementedError
      ("dsl.diff: derivative of a**b with exponent depending on '" ++ target ++ "' (needs a " ++
        "logarithm, a node absent from the DSL)"))
    let power ← sPow a (← sSub b (.ofInt 1))
    sMul (← sMul b power) (← go target a)
termination_by e => (T.level e, sizeOf e)
decreasing_by
  · exact below_of_lookup _h
  · exact below_left .add a b
  · exact below_right .add a b
  · exact below_left .sub a b
  · exact below_right .sub a b
  · exact below_left .mul a b
  · exact below_right .mul a b
  · exact below_left .div a b
  · exact below_right .div a b
  · exact below_of_names (List.Subset.refl _) (by simp)
  · exact below_of_names (List.Subset.refl _) (by simp)
  · exact below_of_names (List.Subset.refl _) (by simp)
  · exact below_right .pow a b
  · exact below_left .pow a b

/-- The symbolic derivative of an expression with respect to a variable given by its name. -/
def diff [Interpreter] (expr : Expr) (target : String) : Raises Expr := do
  raiseIf (target = "") (typeError
    "diff variable must be a Var, QuantityRef, declaration Handle, or non-empty string")
  T.go target expr

end Definitions

end Ir

end Pops
