import Pops.Runtime.Analytic.Expression

/-!
# The typed stack of the analytic compiler

What `compile_analytic_postfix` accepts, in terms of trees.  The typed stack is a stack machine
in the sense of `Pops.StackMachine`: one pass of the compiler's loop is one step of it
(`compileToken_stack`), and on a tree it computes the type and the depth of the tree
(`fold_typing`).

## Main definitions

* `Pops.Analytic.HasType` — the typing rules of analytic trees.
* `Pops.Analytic.Fits` — a tree within the limits.
* `Pops.Analytic.typing` — the typed stack as a stack machine.
* `Pops.Analytic.Compiled` — what the loop of the compiler has done after a prefix.

## Main results

* `Pops.Analytic.fold_typing` — the typed stack computes the type of a tree.
* `Pops.Analytic.compileLoop_eq_ok`, `compileLoop_total` — the loop of the compiler.
* `Pops.Analytic.compileAnalyticPostfix_inv`, `compileAnalyticPostfix_total` — the accepted
  token lists are the words of well-typed trees.
-/

namespace Pops.Analytic

variable {R : Type} [RealArithmetic R]

/-! ## Typing rules -/

/-- The literal that a token may carry. -/
def LiteralAdmissible (token : AnalyticToken R) : Prop :=
  match token.op with
  | .constant => RealArithmetic.isFinite token.literal = true
  | .input => RealArithmetic.isFinite token.literal = true ∧
      RealArithmetic.lt token.literal RealArithmetic.zero = false ∧
      RealArithmetic.eq token.literal (RealArithmetic.floor token.literal) = true ∧
      RealArithmetic.lt (RealArithmetic.ofNat (2 ^ 32 - 1)) token.literal = false
  | _ => RealArithmetic.eq token.literal RealArithmetic.zero = true

/-- The value of a literal constant; nothing for any other tree. -/
def literalOf : AnalyticNode R → Option R
  | .node token _ => if token.op = .constant then some token.literal else none

/-- The typing rules of analytic trees. -/
inductive HasType : AnalyticNode R → AnalyticValueType → Prop
  | leaf {token : AnalyticToken R} (hop : token.op.operands = 0)
      (hknown : token.op.isKnown = true) (hliteral : LiteralAdmissible token) :
      HasType (.node token []) .scalar
  | unary {token : AnalyticToken R} {t : AnalyticNode R} (hop : token.op.operands = 1)
      (hnot : token.op ≠ .not) (hliteral : LiteralAdmissible token) (ht : HasType t .scalar) :
      HasType (.node token [t]) .scalar
  | not {token : AnalyticToken R} {t : AnalyticNode R} (hop : token.op = .not)
      (hliteral : LiteralAdmissible token) (ht : HasType t .predicate) :
      HasType (.node token [t]) .predicate
  | scalarBinary {token : AnalyticToken R} {t u : AnalyticNode R} (hop : token.op.operands = 2)
      (hlogical : token.op ≠ .and ∧ token.op ≠ .or) (hcomparison : token.op.comparison = false)
      (hpow : token.op = .pow → (literalOf u).isSome = true)
      (hliteral : LiteralAdmissible token) (ht : HasType t .scalar) (hu : HasType u .scalar) :
      HasType (.node token [t, u]) .scalar
  | comparison {token : AnalyticToken R} {t u : AnalyticNode R}
      (hcomparison : token.op.comparison = true) (hliteral : LiteralAdmissible token)
      (ht : HasType t .scalar) (hu : HasType u .scalar) :
      HasType (.node token [t, u]) .predicate
  | logical {token : AnalyticToken R} {t u : AnalyticNode R}
      (hop : token.op = .and ∨ token.op = .or) (hliteral : LiteralAdmissible token)
      (ht : HasType t .predicate) (hu : HasType u .predicate) :
      HasType (.node token [t, u]) .predicate
  | select {token : AnalyticToken R} {c t u : AnalyticNode R} {type : AnalyticValueType}
      (hop : token.op = .select) (hliteral : LiteralAdmissible token)
      (hc : HasType c .predicate) (ht : HasType t type) (hu : HasType u type) :
      HasType (.node token [c, t, u]) type
  | between {token : AnalyticToken R} {v l u : AnalyticNode R} (hop : token.op = .between)
      (horder : ∀ a b, literalOf l = some a → literalOf u = some b →
        RealArithmetic.lt b a = false)
      (hliteral : LiteralAdmissible token) (hv : HasType v .scalar) (hl : HasType l .scalar)
      (hu : HasType u .scalar) : HasType (.node token [v, l, u]) .predicate

/-- The tree is within the limits on depth and stack. -/
def Fits (limits : AnalyticLimits) (t : AnalyticNode R) : Prop :=
  t.depth ≤ limits.maxDepth ∧ t.need ≤ limits.maxStack

/-- The limits that `validate_limits` accepts. -/
def AnalyticLimits.Valid (limits : AnalyticLimits) : Prop :=
  (1 ≤ limits.maxNodes ∧ limits.maxNodes ≤ kAnalyticMaxNodes) ∧
    (1 ≤ limits.maxDepth ∧ limits.maxDepth ≤ kAnalyticMaxDepth) ∧
    (1 ≤ limits.maxStack ∧ limits.maxStack ≤ kAnalyticMaxStack)

/-- `validate_limits` accepts the valid limits. -/
lemma validateLimits_eq_ok {limits : AnalyticLimits} {u : Unit} :
    validateLimits limits = .ok u ↔ limits.Valid := by
  simp only [validateLimits, bind_eq_ok, throwIf_eq_ok, AnalyticLimits.Valid, exists_and_left,
    exists_const]
  omega

/-- An accepted literal. -/
lemma checkLiteral_eq_ok {token : AnalyticToken R} {index : ℕ} {u : Unit} :
    checkLiteral token index = .ok u ↔ LiteralAdmissible token := by
  unfold checkLiteral LiteralAdmissible
  by_cases hconstant : token.op = .constant
  · simp [hconstant]
  · by_cases hinput : token.op = .input
    · simp [hinput, not_or]
    · simp only [hconstant, hinput, if_false, throwIf_eq_ok, Bool.not_eq_false]

/-- No operation takes more than three operands. -/
lemma operands_le_three (op : AnalyticOp) : op.operands ≤ 3 := by
  cases op <;> simp [AnalyticOp.operands, AnalyticOp.arity]

/-! ## One operation of the typed stack -/

/-- The types that an operation accepts for its arguments, and the type of its result. -/
def ArgumentsTyped (op : AnalyticOp) (type : AnalyticValueType) :
    List (TypedStackEntry R) → Prop
  | [] => type = .scalar
  | [a] => if op = .not then a.type = .predicate ∧ type = .predicate
      else a.type = .scalar ∧ type = .scalar
  | [l, r] => if op = .and ∨ op = .or then
        l.type = .predicate ∧ r.type = .predicate ∧ type = .predicate
      else l.type = .scalar ∧ r.type = .scalar ∧ (op = .pow → r.literalConstant = true) ∧
        type = if op.comparison then .predicate else .scalar
  | [a, b, c] => if op = .select then a.type = .predicate ∧ b.type = c.type ∧ type = b.type
      else a.type = .scalar ∧ b.type = .scalar ∧ c.type = .scalar ∧
        (b.literalConstant = true → c.literalConstant = true →
          RealArithmetic.lt c.literalValue b.literalValue = false) ∧ type = .predicate
  | _ => False

/-- The greatest depth of a list of entries. -/
def greatestDepth (args : List (TypedStackEntry R)) : ℕ := (args.map (·.depth)).foldr max 0

omit [RealArithmetic R] in
/-- The depth of no arguments. -/
@[simp] lemma greatestDepth_nil : greatestDepth ([] : List (TypedStackEntry R)) = 0 := rfl

omit [RealArithmetic R] in
/-- The depth of a first argument and the others. -/
@[simp] lemma greatestDepth_cons (a : TypedStackEntry R) (args : List (TypedStackEntry R)) :
    greatestDepth (a :: args) = max a.depth (greatestDepth args) := rfl

/-- A type that is required is there. -/
lemma requireType_eq_ok {actual expected : AnalyticValueType} {op : AnalyticOp} {index : ℕ}
    {u : Unit} : requireType actual expected op index = .ok u ↔ actual = expected := by
  simp [requireType]

/-- An operation with one operand is typed when its argument fits. -/
lemma typeUnary_eq_ok {op : AnalyticOp} (index : ℕ) {a : TypedStackEntry R}
    {type : AnalyticValueType} :
    typeUnary op index a = .ok type ↔ ArgumentsTyped op type [a] := by
  unfold typeUnary
  by_cases hop : op = .not
  · simp only [ArgumentsTyped, hop, if_true, bind_eq_ok, requireType_eq_ok, pure_eq_ok,
      exists_const, eq_comm (a := type)]
  · simp only [ArgumentsTyped, hop, if_false, bind_eq_ok, requireType_eq_ok, pure_eq_ok,
      exists_const, eq_comm (a := type)]

/-- An operation with two operands is typed when its arguments fit. -/
lemma typeBinary_eq_ok {op : AnalyticOp} (index : ℕ) {l r : TypedStackEntry R}
    {type : AnalyticValueType} :
    typeBinary op index l r = .ok type ↔ ArgumentsTyped op type [l, r] := by
  unfold typeBinary
  by_cases hop : op = .and ∨ op = .or
  · simp only [ArgumentsTyped, hop, if_true, bind_eq_ok, requireType_eq_ok, pure_eq_ok,
      exists_const, eq_comm (a := type)]
  · simp only [ArgumentsTyped, hop, if_false, bind_eq_ok, requireType_eq_ok, pure_eq_ok,
      throwIf_eq_ok, not_and, Bool.not_eq_false, exists_const, eq_comm (a := type)]

/-- A selection is typed when its arguments fit. -/
lemma typeSelect_eq_ok {op : AnalyticOp} (index : ℕ) {a b c : TypedStackEntry R}
    {type : AnalyticValueType} (hop : op = .select) :
    typeSelect op index a b c = .ok type ↔ ArgumentsTyped op type [a, b, c] := by
  simp only [typeSelect, ArgumentsTyped, hop, if_true, bind_eq_ok, requireType_eq_ok, pure_eq_ok,
    throwIf_eq_ok, not_not, exists_const, eq_comm (a := type)]

/-- Another operation with three operands is typed when its arguments fit. -/
lemma typeBetween_eq_ok {op : AnalyticOp} (index : ℕ) {a b c : TypedStackEntry R}
    {type : AnalyticValueType} (hop : op ≠ .select) :
    typeBetween op index a b c = .ok type ↔ ArgumentsTyped op type [a, b, c] := by
  simp only [typeBetween, ArgumentsTyped, hop, if_false, bind_eq_ok, requireType_eq_ok,
    pure_eq_ok, throwIf_eq_ok, not_and, Bool.not_eq_true, exists_const, eq_comm (a := type)]

/-- A computed type, tagged with a depth and a stack. -/
lemma tagged_eq_ok {α β γ : Type} {x : Throws α} {a : α} {b b' : β} {c c' : γ} :
    (do let type ← x; pure (type, b, c)) = (.ok (a, b', c') : Throws (α × β × γ)) ↔
      x = .ok a ∧ b' = b ∧ c' = c := by
  simp only [bind_eq_ok, pure_eq_ok, Prod.mk.injEq]
  constructor
  · rintro ⟨_, hx, rfl, rfl, rfl⟩
    exact ⟨hx, rfl, rfl⟩
  · rintro ⟨hx, rfl, rfl⟩
    exact ⟨a, hx, rfl, rfl, rfl⟩

/-- **One operation of the typed stack.**  On a stack whose top holds the arguments, the
operation types them and leaves the stack below.

**Proof sketch.**  One case for each number of operands; the arguments are then explicit. -/
theorem typeResult_eq_ok {op : AnalyticOp} (index : ℕ) {args : List (TypedStackEntry R)}
    (rest : List (TypedStackEntry R)) (hargs : args.length = op.operands)
    (result : AnalyticValueType × ℕ × List (TypedStackEntry R)) :
    typeResult op index (args.reverse ++ rest) = .ok result ↔
      ArgumentsTyped op result.1 args ∧ result.2.1 = greatestDepth args + 1 ∧
        result.2.2 = rest := by
  obtain ⟨type, depth, rest'⟩ := result
  have hle := operands_le_three op
  match args with
  | [] =>
    have hop : op.operands = 0 := hargs.symm
    simp only [List.reverse_nil, List.nil_append, typeResult, hop, ArgumentsTyped,
      greatestDepth_nil, pure_eq_ok, Prod.mk.injEq, eq_comm (b := type),
      eq_comm (b := depth), eq_comm (b := rest'), zero_add]
  | [a] =>
    have hop : op.operands = 1 := hargs.symm
    rw [← typeUnary_eq_ok index]
    show typeResult op index (a :: rest) = _ ↔ _
    simp only [typeResult, hop, greatestDepth_cons, greatestDepth_nil, Nat.max_zero]
    exact tagged_eq_ok
  | [l, r] =>
    have hop : op.operands = 2 := hargs.symm
    rw [← typeBinary_eq_ok index]
    show typeResult op index (r :: l :: rest) = _ ↔ _
    simp only [typeResult, hop, greatestDepth_cons, greatestDepth_nil, Nat.max_zero]
    exact tagged_eq_ok
  | [a, b, c] =>
    have hop : op.operands = 3 := hargs.symm
    show typeResult op index (c :: b :: a :: rest) = _ ↔ _
    by_cases hselect : op = .select
    · rw [← typeSelect_eq_ok index hselect]
      simp only [typeResult, hop, if_pos hselect, greatestDepth_cons, greatestDepth_nil,
        Nat.max_zero]
      exact tagged_eq_ok
    · rw [← typeBetween_eq_ok index hselect]
      simp only [typeResult, hop, if_neg hselect, greatestDepth_cons, greatestDepth_nil,
        Nat.max_zero]
      exact tagged_eq_ok
  | _ :: _ :: _ :: _ :: _ =>
    simp only [List.length_cons] at hargs
    omega

/-! ## The typed stack as a machine -/

/-- The entry of the typed stack for a tree of a given type. -/
def entryOf (t : AnalyticNode R) (type : AnalyticValueType) : TypedStackEntry R :=
  ⟨type, t.depth, (literalOf t).isSome, (literalOf t).getD RealArithmetic.zero⟩

/-- The entry that a token makes of the entries of its arguments. -/
def combineEntry (limits : AnalyticLimits) (token : AnalyticToken R)
    (args : List (TypedStackEntry R)) : Throws (TypedStackEntry R) := do
  throwIf (token.op.isKnown = false) (reject "unknown opcode")
  checkLiteral token 0
  let result ← typeResult token.op 0 args.reverse
  throwIf (result.2.1 > limits.maxDepth) (reject "expression depth exceeds max_depth")
  pure (resultEntry token result.1 result.2.1)

/-- The typed stack of the compiler, with a limit on its height. -/
def typing (limits : AnalyticLimits) (height : ℕ) :
    StackMachine (AnalyticToken R) (TypedStackEntry R) where
  arity token := token.op.operands
  combine token args := (combineEntry limits token args).toOption
  limit := height

/-- Membership of a result in the partial function of the typed stack. -/
lemma combine_typing {limits : AnalyticLimits} (height : ℕ) {token : AnalyticToken R}
    {entries : List (TypedStackEntry R)} {entry : TypedStackEntry R} :
    (typing limits height).combine token entries = some entry ↔
      combineEntry limits token entries = .ok entry := by
  simp only [typing]
  cases combineEntry limits token entries <;> simp [Except.toOption]

/-- The entry that a token makes of the entries of its arguments, when it makes one. -/
lemma combineEntry_eq_ok {limits : AnalyticLimits} {token : AnalyticToken R}
    {args : List (TypedStackEntry R)} (hargs : args.length = token.op.operands)
    {entry : TypedStackEntry R} :
    combineEntry limits token args = .ok entry ↔
      token.op.isKnown = true ∧ LiteralAdmissible token ∧
        ∃ type, ArgumentsTyped token.op type args ∧ greatestDepth args + 1 ≤ limits.maxDepth ∧
          entry = resultEntry token type (greatestDepth args + 1) := by
  have hresult := typeResult_eq_ok 0 [] hargs
  simp only [List.append_nil] at hresult
  simp only [combineEntry, bind_eq_ok, throwIf_eq_ok, checkLiteral_eq_ok, pure_eq_ok, hresult,
    Bool.not_eq_false, not_lt, exists_const]
  constructor
  · rintro ⟨hknown, hliteral, ⟨type, depth, rest⟩, ⟨htyped, hdepth, -⟩, hle, rfl⟩
    simp only at htyped hdepth hle
    subst hdepth
    exact ⟨hknown, hliteral, type, htyped, hle, rfl⟩
  · rintro ⟨hknown, hliteral, type, htyped, hle, rfl⟩
    exact ⟨hknown, hliteral, (type, greatestDepth args + 1, []), ⟨htyped, rfl, rfl⟩, hle, rfl⟩

/-! ## The type of a tree -/

/-- A value that is not listed is not known. -/
@[simp] lemma isKnown_unlisted (k : Fin 222) : (AnalyticOp.unlisted k).isKnown = false := by
  have hlt : ¬ 34 + k.val ≤ 33 := by omega
  exact decide_eq_false hlt

/-- An operation that takes operands is listed. -/
lemma isKnown_of_operands_pos {op : AnalyticOp} (h : 0 < op.operands) : op.isKnown = true := by
  cases op with
  | unlisted k => simp [AnalyticOp.operands, AnalyticOp.arity] at h
  | _ => rfl

/-- What the comparisons have in common. -/
lemma comparison_spec {op : AnalyticOp} (h : op.comparison = true) :
    op.operands = 2 ∧ ¬ (op = .and ∨ op = .or) ∧ op ≠ .pow := by
  cases op with
  | unlisted k =>
    have hcode := (of_decide_eq_true h).2
    simp only [AnalyticOp.code] at hcode
    omega
  | _ => revert h; decide

/-- The second of the two operations with three operands. -/
lemma ternary_of_ne_select {op : AnalyticOp} (h : op.operands = 3) (hselect : op ≠ .select) :
    op = .between := by
  cases op with
  | unlisted k => simp [AnalyticOp.operands, AnalyticOp.arity] at h
  | between => rfl
  | select => exact absurd rfl hselect
  | _ => simp [AnalyticOp.operands, AnalyticOp.arity] at h

/-- A well-typed tree is ranked. -/
lemma HasType.ranked {t : AnalyticNode R} {type : AnalyticValueType} (h : HasType t type) :
    t.Ranked fun token => token.op.operands := by
  induction h with
  | leaf hop _ _ => exact .node (by simp [hop]) (by simp)
  | unary hop _ _ _ ih => exact .node (by simp [hop]) (by simpa using ih)
  | not hop _ _ ih =>
    exact .node (by simp [hop, AnalyticOp.operands, AnalyticOp.arity]) (by simpa using ih)
  | scalarBinary hop _ _ _ _ _ _ iht ihu => exact .node (by simp [hop]) (by simp [iht, ihu])
  | comparison hop _ _ _ iht ihu =>
    exact .node (by simp [(comparison_spec hop).1]) (by simp [iht, ihu])
  | logical hop _ _ _ iht ihu =>
    refine .node ?_ (by simp [iht, ihu])
    rcases hop with hop | hop <;> simp [hop, AnalyticOp.operands, AnalyticOp.arity]
  | select hop _ _ _ _ ihc iht ihu =>
    exact .node (by simp [hop, AnalyticOp.operands, AnalyticOp.arity]) (by simp [ihc, iht, ihu])
  | between hop _ _ _ _ _ ihv ihl ihu =>
    exact .node (by simp [hop, AnalyticOp.operands, AnalyticOp.arity]) (by simp [ihv, ihl, ihu])

/-- **The typing rules in one statement**: a ranked node is well typed when its arguments have
types that its operation accepts.

**Proof sketch.**  From left to right every rule is an instance.  From right to left the number
of arguments and the tests of `ArgumentsTyped` select the rule. -/
theorem hasType_node {token : AnalyticToken R} {ts : List (AnalyticNode R)}
    {type : AnalyticValueType} (hts : ts.length = token.op.operands) :
    HasType (.node token ts) type ↔
      token.op.isKnown = true ∧ LiteralAdmissible token ∧ ∃ types, List.Forall₂ HasType ts types ∧
        ArgumentsTyped token.op type (List.zipWith entryOf ts types) := by
  constructor
  · intro h
    cases h with
    | leaf hop hknown hliteral => exact ⟨hknown, hliteral, [], .nil, rfl⟩
    | unary hop hnot hliteral ht =>
      refine ⟨isKnown_of_operands_pos (by omega), hliteral, [.scalar], .cons ht .nil, ?_⟩
      simp [ArgumentsTyped, entryOf, hnot]
    | not hop hliteral ht =>
      refine ⟨by rw [hop]; rfl, hliteral, [.predicate], .cons ht .nil, ?_⟩
      simp [ArgumentsTyped, entryOf, hop]
    | scalarBinary hop hlogical hcomparison hpow hliteral ht hu =>
      refine ⟨isKnown_of_operands_pos (by omega), hliteral, [.scalar, .scalar],
        .cons ht (.cons hu .nil), ?_⟩
      simpa [ArgumentsTyped, entryOf, hlogical, hcomparison] using hpow
    | comparison hcomparison hliteral ht hu =>
      obtain ⟨hop, hlogical, hpow⟩ := comparison_spec hcomparison
      refine ⟨isKnown_of_operands_pos (by omega), hliteral, [.scalar, .scalar],
        .cons ht (.cons hu .nil), ?_⟩
      simp [ArgumentsTyped, entryOf, hlogical, hcomparison, hpow]
    | logical hop hliteral ht hu =>
      refine ⟨?_, hliteral, [.predicate, .predicate], .cons ht (.cons hu .nil), ?_⟩
      · rcases hop with hop | hop <;> rw [hop] <;> rfl
      · simp [ArgumentsTyped, entryOf, hop]
    | select hop hliteral hc ht hu =>
      refine ⟨by rw [hop]; rfl, hliteral, [.predicate, type, type],
        .cons hc (.cons ht (.cons hu .nil)), ?_⟩
      simp [ArgumentsTyped, entryOf, hop]
    | between hop horder hliteral hv hl hu =>
      refine ⟨by rw [hop]; rfl, hliteral, [.scalar, .scalar, .scalar],
        .cons hv (.cons hl (.cons hu .nil)), ?_⟩
      simp only [ArgumentsTyped, entryOf, hop, List.zipWith, reduceCtorEq, if_false, true_and,
        and_true]
      intro hla hub
      obtain ⟨a, ha⟩ := Option.isSome_iff_exists.mp hla
      obtain ⟨b, hb⟩ := Option.isSome_iff_exists.mp hub
      simpa [ha, hb] using horder a b ha hb
  · rintro ⟨hknown, hliteral, types, htypes, htyped⟩
    cases htypes with
    | nil =>
      obtain rfl := htyped
      exact .leaf hts.symm hknown hliteral
    | cons ha htypes =>
      cases htypes with
      | nil =>
        simp only [ArgumentsTyped, entryOf, List.zipWith] at htyped
        split_ifs at htyped with hop
        · obtain ⟨rfl, rfl⟩ := htyped
          exact .not hop hliteral ha
        · obtain ⟨rfl, rfl⟩ := htyped
          exact .unary hts.symm hop hliteral ha
      | cons hb htypes =>
        cases htypes with
        | nil =>
          simp only [ArgumentsTyped, entryOf, List.zipWith] at htyped
          by_cases hop : token.op = .and ∨ token.op = .or
          · rw [if_pos hop] at htyped
            obtain ⟨rfl, rfl, rfl⟩ := htyped
            exact .logical hop hliteral ha hb
          · rw [if_neg hop] at htyped
            obtain ⟨rfl, rfl, hpow, rfl⟩ := htyped
            by_cases hcomparison : token.op.comparison = true
            · rw [if_pos hcomparison]
              exact .comparison hcomparison hliteral ha hb
            · rw [if_neg hcomparison]
              exact .scalarBinary hts.symm (not_or.mp hop) (by simpa using hcomparison) hpow
                hliteral ha hb
        | cons hc htypes =>
          cases htypes with
          | nil =>
            simp only [ArgumentsTyped, entryOf, List.zipWith] at htyped
            by_cases hop : token.op = .select
            · rw [if_pos hop] at htyped
              obtain ⟨rfl, rfl, rfl⟩ := htyped
              exact .select hop hliteral ha hb hc
            · rw [if_neg hop] at htyped
              obtain ⟨rfl, rfl, rfl, horder, rfl⟩ := htyped
              refine .between (ternary_of_ne_select hts.symm hop) ?_ hliteral ha hb hc
              intro a b hla hub
              simpa [hla, hub] using horder
          | cons hd htypes =>
            have := operands_le_three token.op
            simp only [List.length_cons] at hts
            omega

/-- The entry pushed for a node is the entry of the node. -/
lemma resultEntry_eq {token : AnalyticToken R} {ts : List (AnalyticNode R)}
    {type : AnalyticValueType} :
    resultEntry token type (Tree.depthAll ts + 1) = entryOf (.node token ts) type := by
  by_cases hop : token.op = .constant
  · simp [resultEntry, entryOf, literalOf, hop, Tree.depth]
  · simp [resultEntry, entryOf, literalOf, hop, Tree.depth]

/-- The greatest depth of the entries of a list of trees. -/
lemma greatestDepth_entries {ts : List (AnalyticNode R)} {types : List AnalyticValueType}
    (h : List.Forall₂ HasType ts types) :
    greatestDepth (List.zipWith entryOf ts types) = Tree.depthAll ts := by
  induction h with
  | nil => rfl
  | cons _ _ ih => simp [Tree.depthAll, entryOf, ih]

/-- The list form of `fold_typing`, for arguments that satisfy it. -/
lemma foldAll_typing {limits : AnalyticLimits} {height : ℕ} {ts : List (AnalyticNode R)}
    (hts : ∀ t ∈ ts, ∀ entry, t.fold (typing limits height).combine = some entry ↔
      ∃ type, HasType t type ∧ t.depth ≤ limits.maxDepth ∧ entry = entryOf t type) :
    ∀ entries, Tree.foldAll (typing limits height).combine ts = some entries ↔
      ∃ types, List.Forall₂ HasType ts types ∧ Tree.depthAll ts ≤ limits.maxDepth ∧
        entries = List.zipWith entryOf ts types := by
  induction ts with
  | nil =>
    intro entries
    simp only [Tree.foldAll, Option.some.injEq, Tree.depthAll, Nat.zero_le, true_and,
      List.forall₂_nil_left_iff]
    constructor
    · rintro rfl
      exact ⟨[], rfl, rfl⟩
    · rintro ⟨types, rfl, rfl⟩
      rfl
  | cons t ts ih =>
    intro entries
    have ihts := ih fun t ht => hts t (by simp [ht])
    simp only [Tree.foldAll, Tree.depthAll, Option.bind_eq_some_iff, Option.map_eq_some_iff,
      hts t (by simp), ihts]
    constructor
    · rintro ⟨_, ⟨type, ht, hdepth, rfl⟩, _, ⟨types, htypes, hdepths, rfl⟩, rfl⟩
      exact ⟨type :: types, .cons ht htypes, by omega, rfl⟩
    · rintro ⟨types, htypes, hdepth, rfl⟩
      cases htypes with
      | cons ht htypes =>
        exact ⟨_, ⟨_, ht, by omega, rfl⟩, _, ⟨_, htypes, by omega, rfl⟩, rfl⟩

/-- **The typed stack computes the type and the depth of a tree**, for the trees that have a
type and are not too deep.

**Proof sketch.**  Induction on the tree; the arguments have entries exactly when they have
types (`foldAll_typing`), and then the operation decides (`combineEntry_eq_ok`,
`hasType_node`). -/
theorem fold_typing {limits : AnalyticLimits} {height : ℕ} {t : AnalyticNode R}
    (ht : t.Ranked fun token => token.op.operands) (entry : TypedStackEntry R) :
    t.fold (typing limits height).combine = some entry ↔
      ∃ type, HasType t type ∧ t.depth ≤ limits.maxDepth ∧ entry = entryOf t type := by
  induction t using Tree.induction generalizing entry with
  | node token ts ih =>
    obtain ⟨hlength, hranked⟩ := ht
    have hargs := foldAll_typing fun t ht => ih t ht (hranked t ht)
    simp only [Tree.fold, Option.bind_eq_some_iff, hargs, combine_typing]
    constructor
    · rintro ⟨entries, ⟨types, htypes, hdepth, rfl⟩, hentry⟩
      have hlengths : (List.zipWith entryOf ts types).length = token.op.operands := by
        simp [htypes.length_eq.symm, hlength]
      obtain ⟨hknown, hliteral, type, htyped, hle, rfl⟩ := (combineEntry_eq_ok hlengths).mp hentry
      rw [greatestDepth_entries htypes] at hle ⊢
      refine ⟨type, (hasType_node hlength).mpr ⟨hknown, hliteral, types, htypes, htyped⟩, ?_,
        resultEntry_eq⟩
      simpa [Tree.depth] using hle
    · rintro ⟨type, htype, hdepth, rfl⟩
      obtain ⟨hknown, hliteral, types, htypes, htyped⟩ := (hasType_node hlength).mp htype
      have hlengths : (List.zipWith entryOf ts types).length = token.op.operands := by
        simp [htypes.length_eq.symm, hlength]
      simp only [Tree.depth] at hdepth
      refine ⟨_, ⟨types, htypes, by omega, rfl⟩, (combineEntry_eq_ok hlengths).mpr ?_⟩
      rw [greatestDepth_entries htypes]
      exact ⟨hknown, hliteral, type, htyped, hdepth, resultEntry_eq.symm⟩

/-! ## The loop of the compiler -/

/-- **One pass of the loop is one step of the typed stack.** -/
theorem compileToken_eq_ok {limits : AnalyticLimits} {s s' : CompileState R}
    {token : AnalyticToken R} {index : ℕ} :
    compileToken limits s (token, index) = .ok s' ↔
      ∃ entry, (typing limits limits.maxStack).step s.stack token =
          some (entry :: s.stack.drop token.op.operands) ∧
        s' = pushResult s token entry (s.stack.drop token.op.operands) := by
  set n := token.op.operands with hn
  have hstep : ∀ entry, (typing limits limits.maxStack).step s.stack token =
      some (entry :: s.stack.drop n) ↔ n ≤ s.stack.length ∧ s.stack.length - n < limits.maxStack ∧
        combineEntry limits token (s.stack.take n).reverse = .ok entry := by
    intro entry
    rw [StackMachine.step_eq_some, ← combine_typing limits.maxStack]
    constructor
    · rintro ⟨hle, hlt, b, hb, hcons⟩
      obtain ⟨rfl, -⟩ := List.cons.inj hcons
      exact ⟨hle, hlt, hb⟩
    · rintro ⟨hle, hlt, hb⟩
      exact ⟨hle, hlt, entry, hb, rfl⟩
  simp only [hstep, compileToken, bind_eq_ok, throwIf_eq_ok, checkLiteral_eq_ok, pure_eq_ok,
    Bool.not_eq_false, not_lt, not_le, exists_const]
  have hargs (h : n ≤ s.stack.length) : ((s.stack.take n).reverse).length = token.op.operands := by
    rw [List.length_reverse, List.length_take]
    omega
  have hresult : ∀ h : n ≤ s.stack.length, ∀ result,
      typeResult token.op index s.stack = .ok result ↔
        ArgumentsTyped token.op result.1 (s.stack.take n).reverse ∧
          result.2.1 = greatestDepth (s.stack.take n).reverse + 1 ∧
          result.2.2 = s.stack.drop n := by
    intro h result
    rw [← typeResult_eq_ok index (s.stack.drop n) (hargs h), List.reverse_reverse,
      List.take_append_drop]
  constructor
  · rintro ⟨hknown, hliteral, hle, ⟨type, depth, rest⟩, htype, hdepth, hroom, rfl⟩
    obtain ⟨htyped, rfl, rfl⟩ := (hresult hle _).mp htype
    refine ⟨_, ⟨hle, by simpa using hroom, (combineEntry_eq_ok (hargs hle)).mpr ?_⟩, rfl⟩
    exact ⟨hknown, hliteral, type, htyped, hdepth, rfl⟩
  · rintro ⟨entry, ⟨hle, hroom, hentry⟩, rfl⟩
    obtain ⟨hknown, hliteral, type, htyped, hdepth, rfl⟩ :=
      (combineEntry_eq_ok (hargs hle)).mp hentry
    exact ⟨hknown, hliteral, hle, (type, _, s.stack.drop n),
      (hresult hle _).mpr ⟨htyped, rfl, rfl⟩, hdepth, by simpa using hroom, rfl⟩

/-- An instruction stands for a token, given the table of literals. -/
structure Encodes (literals : List R) (instruction : AnalyticInstruction)
    (token : AnalyticToken R) : Prop where
  op : instruction.op = token.op
  constant : token.op = .constant → literals[instruction.operand]? = some token.literal
  input : token.op = .input → instruction.operand = RealArithmetic.toUInt32 token.literal

/-- The greatest axis that a list of tokens refers to, counted from one. -/
def dimensionOf (tokens : List (AnalyticToken R)) : ℕ :=
  tokens.foldl (fun d token => max d (axisDimension token.op)) 0

/-- What the loop of the compiler has done after a prefix of the tokens. -/
structure Compiled (limits : AnalyticLimits) (tokens : List (AnalyticToken R))
    (s : CompileState R) : Prop where
  /-- The recorded maximum is room enough for the typed stack. -/
  run : ∀ height ≥ s.maximumStack, (typing limits height).run [] tokens = some s.stack
  maximum : s.maximumStack ≤ limits.maxStack
  encodes : List.Forall₂ (Encodes s.literals) s.instructions tokens
  dimension : s.requiredDimension = dimensionOf tokens

/-- The state before the first token. -/
def compileStart : CompileState R := ⟨[], 0, 0, [], []⟩

/-- The start of a compilation has compiled no tokens. -/
lemma Compiled.start (limits : AnalyticLimits) :
    Compiled limits ([] : List (AnalyticToken R)) compileStart :=
  ⟨fun _ _ => rfl, Nat.zero_le _, .nil, rfl⟩

/-- A larger table of literals encodes the same tokens. -/
lemma Encodes.mono {literals more : List R}
    {instruction : AnalyticInstruction} {token : AnalyticToken R}
    (h : Encodes literals instruction token) : Encodes (literals ++ more) instruction token := by
  refine ⟨h.op, fun hop => ?_, h.input⟩
  have hlt := (List.getElem?_eq_some_iff.mp (h.constant hop)).1
  rw [List.getElem?_append_left hlt]
  exact h.constant hop

/-- The instruction of a token and the literals that it adds. -/
lemma emit_spec (token : AnalyticToken R) (literals : List R) :
    ∃ more, (emit token literals).2 = literals ++ more ∧
      Encodes (literals ++ more) (emit token literals).1 token := by
  unfold emit
  by_cases hconstant : token.op = .constant
  · refine ⟨[token.literal], by simp [hconstant], ?_⟩
    rw [if_pos hconstant]
    refine ⟨rfl, fun _ => by simp, fun hinput => ?_⟩
    simp [hconstant] at hinput
  · by_cases hinput : token.op = .input
    · refine ⟨[token.literal], by simp [hinput], ?_⟩
      rw [if_neg hconstant, if_pos hinput]
      exact ⟨rfl, fun h => absurd h hconstant, fun _ => rfl⟩
    · refine ⟨[], by simp [hconstant, hinput], ?_⟩
      rw [if_neg hconstant, if_neg hinput]
      exact ⟨rfl, fun h => absurd h hconstant, fun h => absurd h hinput⟩

/-- The step lemma of the loop. -/
theorem Compiled.step {limits : AnalyticLimits} {tokens : List (AnalyticToken R)}
    {s s' : CompileState R} {token : AnalyticToken R} {index : ℕ} (h : Compiled limits tokens s)
    (hstep : compileToken limits s (token, index) = .ok s') :
    Compiled limits (tokens ++ [token]) s' := by
  obtain ⟨entry, htyped, rfl⟩ := compileToken_eq_ok.mp hstep
  obtain ⟨hle, hlt, b, hb, hcons⟩ := (StackMachine.step_eq_some _).mp htyped
  obtain ⟨more, hmore, hencodes⟩ := emit_spec token s.literals
  refine ⟨?_, ?_, ?_, ?_⟩
  · intro height hheight
    simp only [pushResult, List.length_drop] at hheight
    rw [StackMachine.run_append, h.run height (by omega)]
    have : (typing limits height).step s.stack token =
        some (entry :: s.stack.drop token.op.operands) := by
      rw [StackMachine.step_eq_some]
      refine ⟨hle, ?_, b, hb, hcons⟩
      simp only [typing] at hle ⊢
      omega
    simp [this, pushResult]
  · have := h.maximum
    simp only [typing] at hlt
    simp only [pushResult, List.length_drop]
    omega
  · simp only [pushResult, hmore]
    refine List.rel_append (h.encodes.imp fun _ _ hold => hold.mono) (.cons hencodes .nil)
  · simp [pushResult, dimensionOf, h.dimension]

/-- The loop of the compiler. -/
theorem compileLoop_eq_ok {limits : AnalyticLimits} {tokens : List (AnalyticToken R)}
    {s : CompileState R}
    (h : tokens.zipIdx.foldlM (compileToken limits) compileStart = .ok s) :
    Compiled limits tokens s := by
  have hloop := foldlM_invariant
    (P := fun done s => Compiled limits (done.map Prod.fst) s) h (Compiled.start limits) ?_
  · simpa [List.zipIdx_map_fst] using hloop
  · rintro done ⟨token, index⟩ rest s s' - hs hstep
    simpa using hs.step hstep

/-- The loop of the compiler runs to its end on every word that the typed stack reads. -/
theorem compileLoop_total {limits : AnalyticLimits} {tokens : List (AnalyticToken R)}
    {stack : List (TypedStackEntry R)}
    (h : (typing limits limits.maxStack).run [] tokens = some stack) :
    ∃ s, tokens.zipIdx.foldlM (compileToken limits) compileStart = .ok s ∧ s.stack = stack := by
  have hloop := foldlM_total (f := compileToken limits) (l := tokens.zipIdx) (s := compileStart)
    (P := fun done s => Compiled limits (done.map Prod.fst) s) (Compiled.start limits) ?_
  · obtain ⟨s, hs, hcompiled⟩ := hloop
    refine ⟨s, hs, ?_⟩
    have hrun := hcompiled.run limits.maxStack hcompiled.maximum
    rw [List.zipIdx_map_fst, h] at hrun
    exact (Option.some.inj hrun).symm
  · rintro done ⟨token, index⟩ rest s heq hs
    have hword : tokens = done.map Prod.fst ++ token :: rest.map Prod.fst := by
      rw [← List.zipIdx_map_fst 0 tokens, heq]
      simp
    rw [hword, StackMachine.run_append, hs.run limits.maxStack hs.maximum, Option.bind_some,
      StackMachine.run_cons] at h
    obtain ⟨stack', hstep, -⟩ := Option.bind_eq_some_iff.mp h
    obtain ⟨-, -, entry, -, rfl⟩ := (StackMachine.step_eq_some _).mp hstep
    have htoken : compileToken limits s (token, index) =
        .ok (pushResult s token entry (s.stack.drop token.op.operands)) :=
      compileToken_eq_ok.mpr ⟨entry, hstep, rfl⟩
    exact ⟨_, htoken, by simpa using hs.step htoken⟩

omit [RealArithmetic R] in
/-- The program that the compiler returns. -/
lemma finish_eq_ok {s : CompileState R} {program : AnalyticProgram R} :
    finish s = .ok program ↔ ∃ entry, s.stack = [entry] ∧
      program = ⟨s.instructions, s.literals, s.maximumStack, s.requiredDimension, entry.type⟩ := by
  unfold finish
  match hstack : s.stack with
  | [] => simp
  | [entry] => simp [eq_comm (b := program)]
  | _ :: _ :: _ => simp

/-- What the compiler knows of an accepted token list. -/
structure Accepted (limits : AnalyticLimits) (tokens : List (AnalyticToken R))
    (program : AnalyticProgram R) (t : AnalyticNode R) : Prop where
  word : t.flatten = tokens
  type : HasType t program.resultType
  fits : Fits limits t
  limits_valid : limits.Valid
  size : tokens.length ≤ limits.maxNodes
  room : t.need ≤ program.requiredStack
  stack : program.requiredStack ≤ limits.maxStack
  encodes : List.Forall₂ (Encodes program.literals) program.instructions tokens
  dimension : program.requiredDimension = dimensionOf tokens

/-- **The compiler accepts words of well-typed trees only.**

**Proof sketch.**  The typed stack has read the tokens, so they spell a ranked tree
(`StackMachine.run_parses`); on its word the typed stack computes its type
(`StackMachine.run_flatten`, `fold_typing`). -/
theorem compileAnalyticPostfix_inv {limits : AnalyticLimits} {tokens : List (AnalyticToken R)}
    {program : AnalyticProgram R} (h : compileAnalyticPostfix tokens limits = .ok program) :
    ∃ t, Accepted limits tokens program t := by
  simp only [compileAnalyticPostfix, bind_eq_ok, throwIf_eq_ok, validateLimits_eq_ok,
    finish_eq_ok, exists_const, not_lt] at h
  obtain ⟨hvalid, -, hsize, s, hloop, entry, hstack, rfl⟩ := h
  have hs := compileLoop_eq_ok hloop
  have hrun := hs.run s.maximumStack le_rfl
  rw [hstack] at hrun
  obtain ⟨ts, hlength, hranked, hword⟩ := StackMachine.run_parses _ _ hrun
  obtain ⟨t, rfl⟩ := List.length_eq_one_iff.mp hlength
  have ht : t.Ranked fun token => token.op.operands := hranked t (by simp)
  simp only [Tree.flattenAll, List.append_nil] at hword
  rw [← hword] at hrun
  obtain ⟨e, hfold, hneed, he⟩ := (StackMachine.run_flatten _ ht [] [entry]).mp hrun
  obtain ⟨rfl, -⟩ := List.cons.inj he
  obtain ⟨type, htype, hdepth, rfl⟩ := (fold_typing ht _).mp hfold
  have hneed' : t.need ≤ s.maximumStack := by simpa [typing] using hneed
  refine ⟨t, ?_⟩
  exact
    { word := hword
      type := htype
      fits := ⟨hdepth, hneed'.trans hs.maximum⟩
      limits_valid := hvalid
      size := hsize
      room := hneed'
      stack := hs.maximum
      encodes := hs.encodes
      dimension := hs.dimension }

/-- **The compiler accepts the word of every well-typed tree within the limits.** -/
theorem compileAnalyticPostfix_total {limits : AnalyticLimits} {t : AnalyticNode R}
    {type : AnalyticValueType} (hvalid : limits.Valid) (htype : HasType t type)
    (hfits : Fits limits t) (hsize : t.flatten.length ≤ limits.maxNodes) :
    ∃ program, compileAnalyticPostfix t.flatten limits = .ok program ∧
      program.resultType = type := by
  have hrun : (typing limits limits.maxStack).run [] t.flatten = some [entryOf t type] :=
    (StackMachine.run_flatten _ htype.ranked [] _).mpr
      ⟨_, (fold_typing htype.ranked _).mpr ⟨type, htype, hfits.1, rfl⟩,
        by simpa [typing] using hfits.2, rfl⟩
  obtain ⟨s, hloop, hstack⟩ := compileLoop_total hrun
  refine ⟨⟨s.instructions, s.literals, s.maximumStack, s.requiredDimension, type⟩, ?_, rfl⟩
  simp only [compileAnalyticPostfix, bind_eq_ok, throwIf_eq_ok, validateLimits_eq_ok,
    finish_eq_ok, exists_const, not_lt]
  refine ⟨hvalid, ?_, hsize, s, hloop, entryOf t type, hstack, rfl⟩
  cases t with
  | node token ts => simp [Tree.flatten]

/-! ## Flattening -/

mutual
/-- `flatten_node` appends the word of the tree, which is ranked. -/
lemma flattenNode_eq_ok {S : Type} {limits : AnalyticLimits} : ∀ (t : AnalyticNode S) (depth : ℕ)
    {out out' : Flattened S}, flattenNode limits t depth out = .ok out' →
      out'.tokens = out.tokens ++ t.flatten ∧ t.Ranked fun token => token.op.operands
  | .node token args, depth, out, out', h => by
    simp only [flattenNode, bind_eq_ok, throwIf_eq_ok, pure_eq_ok, not_not, exists_const] at h
    obtain ⟨-, -, -, hlength, inner, hinner, rfl⟩ := h
    obtain ⟨htokens, hranked⟩ := flattenArguments_eq_ok args (depth + 1) hinner
    exact ⟨by simp [htokens, Tree.flatten], .node hlength hranked⟩

/-- Flattened arguments append their tokens, and every node has as many arguments as operands. -/
lemma flattenArguments_eq_ok {S : Type} {limits : AnalyticLimits} : ∀ (ts : List (AnalyticNode S))
    (depth : ℕ) {out out' : Flattened S}, flattenArguments limits ts depth out = .ok out' →
      out'.tokens = out.tokens ++ Tree.flattenAll ts ∧
        ∀ t ∈ ts, t.Ranked fun token => token.op.operands
  | [], depth, out, out', h => by
    simp only [flattenArguments, pure_eq_ok] at h
    subst h
    simp [Tree.flattenAll]
  | t :: ts, depth, out, out', h => by
    simp only [flattenArguments, bind_eq_ok] at h
    obtain ⟨next, hnext, hrest⟩ := h
    obtain ⟨htokens, ht⟩ := flattenNode_eq_ok t depth hnext
    obtain ⟨htokens', hts⟩ := flattenArguments_eq_ok ts depth hrest
    refine ⟨by simp [htokens', htokens, Tree.flattenAll], ?_⟩
    intro u hu
    rcases List.mem_cons.mp hu with rfl | hu
    · exact ht
    · exact hts u hu
end

/-- **A compiled tree is the tree that its tokens spell.** -/
theorem compileAnalyticExpression_inv {limits : AnalyticLimits} {root : AnalyticNode R}
    {program : AnalyticProgram R} (h : compileAnalyticExpression root limits = .ok program) :
    Accepted limits root.flatten program root := by
  simp only [compileAnalyticExpression, bind_eq_ok] at h
  obtain ⟨-, -, out, hout, hprogram⟩ := h
  obtain ⟨htokens, hranked⟩ := flattenNode_eq_ok root 1 hout
  obtain ⟨t, ht⟩ := compileAnalyticPostfix_inv hprogram
  have hword : t.flatten = root.flatten := by rw [ht.word, htokens, List.nil_append]
  obtain rfl := Tree.flatten_injective ht.type.ranked hranked hword
  rw [htokens, List.nil_append] at ht
  exact ht

end Pops.Analytic
