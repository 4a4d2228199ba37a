import Pops.Runtime.Analytic.Lowering
import Pops.Runtime.Analytic.Compilation

/-!
# Lowered expressions on the native side

What the native compiler makes of the rows that `_lower_expression` returns.  The rows spell a
tree (`native`), whose depth, size and stack the Python side has bounded by the same limits, so
that only its typing is left.  The typing rules agree but for one: Python tests the order of the
bounds of `between` on literal constants, before the parameters have their values, and the native
compiler tests it on the values.

## Main definitions

* `Pops.Analytic.native` — the tree that the rows spell.
* `Pops.Analytic.OrderedIntervals` — the bounds of every `between` are in order, with the values
  of the parameters in place.

## Main results

* `Pops.Analytic.lowerNode_spec` — the rows are the word of the tree.
* `Pops.Analytic.hasType_native`, `ordered_of_hasType` — the tree is well typed exactly when the
  intervals are ordered.
* `Pops.Analytic.lowered_rows_compile_iff` — the native compiler accepts exactly those.
-/

namespace Pops.Analytic

variable {R P : Type} [RealArithmetic R]

/-! ## The tree of the rows -/

/-- The operation of a name; an unlisted one for a name that is not in the vocabulary. -/
def opOf (name : String) : AnalyticOp :=
  (analyticOpFromName name).toOption.getD (.unlisted 0)

/-- The value of a parameter, as `_bound_parameter` returns it. -/
def parameterValue (ctx : LoweringContext R P) (reference : P) : R :=
  normalizeZero ((ctx.effectiveValue reference).toOption.getD RealArithmetic.zero)

mutual
/-- The tree that the rows of a node spell. -/
def native (ctx : LoweringContext R P) : NodeData R P → AnalyticNode R
  | .constant v => .node ⟨.constant, v⟩ []
  | .coordinate _ axis => .node ⟨opOf axis.name, RealArithmetic.zero⟩ []
  | .parameter reference => .node ⟨.constant, parameterValue ctx reference⟩ []
  | .input valueId _ => .node ⟨.input, RealArithmetic.ofNat valueId.toNat⟩ []
  | .time _ _ => .node ⟨.input, RealArithmetic.zero⟩ []
  | .operator _ op arguments => .node ⟨opOf op, RealArithmetic.zero⟩ (nativeAll ctx arguments)

/-- The trees of a list of nodes. -/
def nativeAll (ctx : LoweringContext R P) : List (NodeData R P) → List (AnalyticNode R)
  | [] => []
  | argument :: rest => native ctx argument :: nativeAll ctx rest
end

/-- The value of a bound that the native compiler sees as a literal. -/
def effectiveLiteral (ctx : LoweringContext R P) : NodeData R P → Option R
  | .constant v => some v
  | .parameter reference => some (parameterValue ctx reference)
  | _ => none

/-- An interval test whose bounds are literals has them in order. -/
def OrderedBounds (ctx : LoweringContext R P) (op : String) : List (NodeData R P) → Prop
  | [_, lower, upper] => op = "between" →
      ∀ a ∈ effectiveLiteral ctx lower, ∀ b ∈ effectiveLiteral ctx upper,
        RealArithmetic.lt b a = false
  | _ => True

mutual
/-- The bounds of every interval test are in order, with the values of the parameters in
place. -/
def OrderedIntervals (ctx : LoweringContext R P) : NodeData R P → Prop
  | .operator _ op arguments => OrderedBounds ctx op arguments ∧ OrderedIntervalsAll ctx arguments
  | _ => True

/-- The interval tests of a list of nodes. -/
def OrderedIntervalsAll (ctx : LoweringContext R P) : List (NodeData R P) → Prop
  | [] => True
  | argument :: rest => OrderedIntervals ctx argument ∧ OrderedIntervalsAll ctx rest
end

mutual
/-- The slots of all inputs are below a bound. -/
def SlotsBelow (bound : ℤ) : NodeData R P → Prop
  | .input valueId _ => valueId < bound
  | .operator _ _ arguments => SlotsBelowAll bound arguments
  | _ => True

/-- The slots of the inputs in a list of nodes. -/
def SlotsBelowAll (bound : ℤ) : List (NodeData R P) → Prop
  | [] => True
  | argument :: rest => SlotsBelow bound argument ∧ SlotsBelowAll bound rest
end

/-! ## What lowering has checked -/

mutual
/-- The tests that a lowered node has passed. -/
def Lowerable (ctx : LoweringContext R P) : NodeData R P → ExprKind → Prop
  | .constant v, expected => expected = .scalar ∧ RealArithmetic.isFinite v = true
  | .parameter reference, expected => expected = .scalar ∧
      ∃ v, ctx.effectiveValue reference = .ok v ∧ RealArithmetic.isFinite v = true
  | .input valueId _, expected => expected = .scalar ∧ 0 ≤ valueId
  | .operator kind op arguments, expected => expected = kind ∧
      ∃ kinds, childKinds kind op = some kinds ∧ arguments.length = kinds.length ∧
        LowerableAll ctx arguments kinds
  | _, expected => expected = .scalar

/-- The tests that the lowered arguments of a node have passed. -/
def LowerableAll (ctx : LoweringContext R P) : List (NodeData R P) → List ExprKind → Prop
  | argument :: rest, kind :: kinds => Lowerable ctx argument kind ∧ LowerableAll ctx rest kinds
  | _, _ => True
end

/-! ## The vocabulary on both sides -/

/-- The scalar operations of one argument. -/
lemma opOf_scalarUnary : ∀ op ∈ scalarUnary, (opOf op).operands = 1 ∧ opOf op ≠ .not ∧
    (opOf op).opName = op := by decide

/-- The scalar operations of two arguments. -/
lemma opOf_scalarBinary : ∀ op ∈ scalarBinary, (opOf op).operands = 2 ∧
    (opOf op ≠ .and ∧ opOf op ≠ .or) ∧ (opOf op).comparison = false ∧
    (opOf op = .pow → op = "pow") ∧ (opOf op).opName = op := by decide

/-- The comparisons. -/
lemma opOf_comparisons : ∀ op ∈ comparisons, (opOf op).comparison = true ∧
    (opOf op).opName = op := by decide

/-- The logical operations of two arguments. -/
lemma opOf_logicalBinary : ∀ op ∈ logicalBinary, (opOf op = .and ∨ opOf op = .or) ∧
    (opOf op).opName = op := by decide

/-- The families of operations. -/
lemma childKinds_cases {kind : ExprKind} {op : String} {kinds : List ExprKind}
    (h : childKinds kind op = some kinds) :
    (kind = .scalar ∧ op ∈ scalarUnary ∧ kinds = [.scalar]) ∨
      (kind = .scalar ∧ op ∈ scalarBinary ∧ kinds = [.scalar, .scalar]) ∨
      (kind = .scalar ∧ op = "where" ∧ kinds = [.predicate, .scalar, .scalar]) ∨
      (kind = .predicate ∧ op ∈ comparisons ∧ kinds = [.scalar, .scalar]) ∨
      (kind = .predicate ∧ op ∈ logicalBinary ∧ kinds = [.predicate, .predicate]) ∨
      (kind = .predicate ∧ op = "not" ∧ kinds = [.predicate]) ∨
      (kind = .predicate ∧ op = "between" ∧ kinds = [.scalar, .scalar, .scalar]) := by
  cases kind with
  | scalar =>
    simp only [childKinds] at h
    split_ifs at h <;> simp_all
  | predicate =>
    simp only [childKinds] at h
    split_ifs at h <;> simp_all

/-- A name of the vocabulary, its operation and its number of operands. -/
lemma opOf_spec {kind : ExprKind} {op : String} {kinds : List ExprKind}
    (h : childKinds kind op = some kinds) :
    (opOf op).opName = op ∧ (opOf op).operands = kinds.length := by
  rcases childKinds_cases h with ⟨-, hop, rfl⟩ | ⟨-, hop, rfl⟩ | ⟨-, rfl, rfl⟩ | ⟨-, hop, rfl⟩ |
    ⟨-, hop, rfl⟩ | ⟨-, rfl, rfl⟩ | ⟨-, rfl, rfl⟩
  · exact ⟨(opOf_scalarUnary op hop).2.2, (opOf_scalarUnary op hop).1⟩
  · exact ⟨(opOf_scalarBinary op hop).2.2.2.2, (opOf_scalarBinary op hop).1⟩
  · decide
  · exact ⟨(opOf_comparisons op hop).2, (comparison_spec (opOf_comparisons op hop).1).1⟩
  · refine ⟨(opOf_logicalBinary op hop).2, ?_⟩
    rcases (opOf_logicalBinary op hop).1 with hand | hor
    · rw [hand]; rfl
    · rw [hor]; rfl
  · decide
  · decide

/-- The coordinates. -/
lemma opName_axis (axis : CartesianDirection) : (opOf axis.name).opName = axis.name := by
  cases axis <;> decide

/-- A listed operation is the operation of its name. -/
lemma fromName_opName {op : AnalyticOp} (h : op.isKnown = true) :
    analyticOpFromName op.opName = .ok op := by
  cases op with
  | unlisted k => simp at h
  | _ => rfl

/-! ## The rows -/

/-- Every argument has its native form. -/
@[simp] lemma length_nativeAll (ctx : LoweringContext R P)
    (arguments : List (NodeData R P)) : (nativeAll ctx arguments).length = arguments.length := by
  induction arguments with
  | nil => rfl
  | cons argument rest ih => simp [nativeAll, ih]

/-- What lowering a list of trees adds to the rows. -/
structure Rows (tokens : List (AnalyticToken R)) (out out' : Lowered R) : Prop where
  opcodes : out'.opcodes = out.opcodes ++ tokens.map fun token => token.op.opName
  literals : out'.literals = out.literals ++ tokens.map fun token => token.literal
  budget : out'.budget = out.budget + tokens.length
  within : out'.budget ≤ max out.budget maxNodes

omit [RealArithmetic R] in
/-- The tests that every lowered node passes first. -/
lemma enterLowering_eq_ok {where_ : String} {depth : ℕ} {kind expected : ExprKind}
    {out out' : Lowered R} :
    enterLowering where_ depth kind expected out = .ok out' ↔
      depth ≤ maxDepth ∧ out.budget + 1 ≤ maxNodes ∧ kind = expected ∧
        out' = ⟨out.budget + 1, out.opcodes, out.literals⟩ := by
  simp only [enterLowering, bind_eq_ok, raiseIf_eq_ok, pure_eq_ok, not_lt, not_not, exists_const]
  tauto

omit [RealArithmetic R] in
/-- The rows of a node: its arguments are lowered after the node has been counted, and its own
token is appended last. -/
lemma Rows.node {out mid : Lowered R} {op : String} {tokens : List (AnalyticToken R)}
    (token : AnalyticToken R) (hop : token.op.opName = op) (hbudget : out.budget + 1 ≤ maxNodes)
    (h : Rows tokens ⟨out.budget + 1, out.opcodes, out.literals⟩ mid) :
    Rows (tokens ++ [token]) out (mid.append op token.literal) := by
  obtain ⟨hopcodes, hliterals, hcount, hwithin⟩ := h
  simp only at hcount hwithin
  refine ⟨?_, ?_, ?_, ?_⟩
  · simp [Lowered.append, hop, hopcodes]
  · simp [Lowered.append, hliterals]
  · simp only [Lowered.append, List.length_append, List.length_singleton]
    omega
  · simp only [Lowered.append]
    omega

omit [RealArithmetic R] in
/-- The rows of a leaf. -/
lemma Rows.leaf {out : Lowered R} {op : String} (token : AnalyticToken R)
    (hop : token.op.opName = op) (hbudget : out.budget + 1 ≤ maxNodes) :
    Rows [token] out
      ((⟨out.budget + 1, out.opcodes, out.literals⟩ : Lowered R).append op token.literal) := by
  have hnone : Rows [] (⟨out.budget + 1, out.opcodes, out.literals⟩ : Lowered R) _ :=
    ⟨by simp, by simp, rfl, le_max_left _ _⟩
  exact Rows.node token hop hbudget hnone

omit [RealArithmetic R] in
/-- Rows added one after the other. -/
theorem Rows.trans {tokens tokens' : List (AnalyticToken R)} {out mid out' : Lowered R}
    (h : Rows tokens out mid) (h' : Rows tokens' mid out') :
    Rows (tokens ++ tokens') out out' := by
  have hwithin := h.within
  have hwithin' := h'.within
  refine ⟨?_, ?_, ?_, by omega⟩
  · simp [h'.opcodes, h.opcodes]
  · simp [h'.literals, h.literals]
  · simp [h'.budget, h.budget, Nat.add_assoc]

mutual
/-- **The rows of a node are the word of its tree**, and what lowering has checked. -/
theorem lowerNode_spec {ctx : LoweringContext R P} : ∀ (data : NodeData R P)
    {expected : ExprKind} {where_ : String} {depth : ℕ} {out out' : Lowered R},
    lowerNode ctx data expected where_ depth out = .ok out' →
      Rows (native ctx data).flatten out out' ∧
        depth + (native ctx data).depth ≤ maxDepth + 1 ∧ Lowerable ctx data expected
  | .constant v, expected, where_, depth, out, out', h => by
    simp only [lowerNode, bind_eq_ok, enterLowering_eq_ok, raiseIf_eq_ok, pure_eq_ok,
      Bool.not_eq_false, exists_const] at h
    obtain ⟨_, ⟨hdepth, hbudget, hkind, rfl⟩, hfinite, rfl⟩ := h
    refine ⟨Rows.leaf (⟨.constant, v⟩) rfl hbudget, ?_, hkind.symm, hfinite⟩
    simpa [native, Tree.depth, Tree.depthAll] using hdepth
  | .coordinate frameId axis, expected, where_, depth, out, out', h => by
    simp only [lowerNode, bind_eq_ok, enterLowering_eq_ok, raiseIf_eq_ok, pure_eq_ok,
      exists_const] at h
    obtain ⟨_, ⟨hdepth, hbudget, hkind, rfl⟩, -, rfl⟩ := h
    refine ⟨Rows.leaf (⟨opOf axis.name, RealArithmetic.zero⟩) ?_ hbudget, ?_, hkind.symm⟩
    · exact opName_axis axis
    · simpa [native, Tree.depth, Tree.depthAll] using hdepth
  | .parameter reference, expected, where_, depth, out, out', h => by
    simp only [lowerNode, boundParameter, bind_eq_ok, enterLowering_eq_ok, raiseIf_eq_ok,
      pure_eq_ok, Bool.not_eq_false, exists_const] at h
    obtain ⟨_, ⟨hdepth, hbudget, hkind, rfl⟩, _, ⟨v, hv, hfinite, rfl⟩, rfl⟩ := h
    have hvalue : parameterValue ctx reference = normalizeZero v := by
      simp [parameterValue, hv, Except.toOption]
    refine ⟨?_, ?_, hkind.symm, v, hv, hfinite⟩
    · rw [← hvalue]
      exact Rows.leaf (⟨.constant, parameterValue ctx reference⟩) rfl hbudget
    · simpa [native, Tree.depth, Tree.depthAll] using hdepth
  | .input valueId component, expected, where_, depth, out, out', h => by
    simp only [lowerNode, bind_eq_ok, enterLowering_eq_ok, raiseIf_eq_ok, pure_eq_ok, not_lt,
      exists_const] at h
    obtain ⟨_, ⟨hdepth, hbudget, hkind, rfl⟩, hnonneg, -, -, rfl⟩ := h
    refine ⟨Rows.leaf (⟨.input, RealArithmetic.ofNat valueId.toNat⟩) rfl hbudget, ?_,
      hkind.symm, hnonneg⟩
    simpa [native, Tree.depth, Tree.depthAll] using hdepth
  | .time clock clockId, expected, where_, depth, out, out', h => by
    simp only [lowerNode, bind_eq_ok, enterLowering_eq_ok, raiseIf_eq_ok, pure_eq_ok,
      exists_const] at h
    obtain ⟨_, ⟨hdepth, hbudget, hkind, rfl⟩, -, -, -, rfl⟩ := h
    refine ⟨Rows.leaf (⟨.input, RealArithmetic.zero⟩) rfl hbudget, ?_, hkind.symm⟩
    simpa [native, Tree.depth, Tree.depthAll] using hdepth
  | .operator kind op arguments, expected, where_, depth, out, out', h => by
    simp only [lowerNode, bind_eq_ok, enterLowering_eq_ok] at h
    obtain ⟨_, ⟨hdepth, hbudget, hkind, rfl⟩, h⟩ := h
    cases hkinds : childKinds kind op with
    | none => simp [hkinds] at h
    | some kinds =>
      simp only [hkinds, bind_eq_ok, raiseIf_eq_ok, pure_eq_ok, not_not, exists_const] at h
      obtain ⟨hlength, mid, hmid, rfl⟩ := h
      obtain ⟨hrows, hdepths, hall⟩ := lowerArguments_spec arguments hlength (by omega) hmid
      refine ⟨?_, ?_, hkind.symm, kinds, hkinds, hlength, hall⟩
      · exact Rows.node ⟨opOf op, RealArithmetic.zero⟩ (opOf_spec hkinds).1 hbudget hrows
      · simp only [native, Tree.depth]
        omega

/-- The list form of `lowerNode_spec`. -/
lemma lowerArguments_spec {ctx : LoweringContext R P} : ∀ (arguments : List (NodeData R P))
    {kinds : List ExprKind} {where_ : String} {index depth : ℕ} {out out' : Lowered R},
    arguments.length = kinds.length → depth ≤ maxDepth + 1 →
    lowerArguments ctx arguments kinds where_ index depth out = .ok out' →
      Rows (Tree.flattenAll (nativeAll ctx arguments)) out out' ∧
        depth + Tree.depthAll (nativeAll ctx arguments) ≤ maxDepth + 1 ∧
        LowerableAll ctx arguments kinds
  | [], kinds, where_, index, depth, out, out', hlength, hdepth, h => by
    simp only [lowerArguments, pure_eq_ok] at h
    subst h
    refine ⟨⟨by simp [nativeAll, Tree.flattenAll], by simp [nativeAll, Tree.flattenAll],
      by simp [nativeAll, Tree.flattenAll], by omega⟩, ?_, by simp [LowerableAll]⟩
    simpa [nativeAll, Tree.depthAll] using hdepth
  | argument :: rest, [], where_, index, depth, out, out', hlength, hdepth, h => by
    simp at hlength
  | argument :: rest, kind :: kinds, where_, index, depth, out, out', hlength, hdepth, h => by
    simp only [lowerArguments, bind_eq_ok] at h
    obtain ⟨mid, hmid, hrest⟩ := h
    obtain ⟨hrows, hfirst, hlower⟩ := lowerNode_spec argument hmid
    obtain ⟨hrows', hothers, hall⟩ :=
      lowerArguments_spec rest (by simpa using hlength) hdepth hrest
    refine ⟨hrows.trans hrows', ?_, hlower, hall⟩
    simp only [nativeAll, Tree.depthAll]
    omega
end

/-! ## The measures -/

/-- The arguments are decoded with one kind each. -/
lemma length_decodedKinds {kind : ExprKind} {op : String} {count : ℕ} {kinds : List ExprKind}
    (h : decodedKinds kind op count = .ok kinds) : count = kinds.length := by
  cases kind with
  | scalar =>
    simp only [decodedKinds, bind_eq_ok, raiseIf_eq_ok, pure_eq_ok, exists_const] at h
    obtain ⟨-, hwhere, rfl⟩ := h
    split_ifs with hop
    · by_contra hcount
      exact hwhere ⟨hop, hcount⟩
    · simp
  | predicate =>
    simp only [decodedKinds] at h
    cases hkinds : childKinds .predicate op with
    | none => simp [hkinds] at h
    | some expected =>
      simp only [hkinds, bind_eq_ok, raiseIf_eq_ok, pure_eq_ok, not_not, exists_const] at h
      obtain ⟨hlength, rfl⟩ := h
      exact hlength.symm

mutual
/-- The stack that `_measure` computes is the stack that reading the tree needs. -/
lemma measureNode_spec (ctx : LoweringContext R P) : ∀ (data : NodeData R P) {depth count : ℕ}
    {m : Measured}, measureNode data depth count = .ok m →
      (native ctx data).need = m.requiredStack ∧ m.requiredStack ≤ maxStack
  | .operator kind op arguments, depth, count, m, h => by
    simp only [measureNode, bind_eq_ok, raiseIf_eq_ok, pure_eq_ok, not_lt, exists_const] at h
    obtain ⟨-, -, inner, hinner, hle, rfl⟩ := h
    exact ⟨measureArguments_spec ctx arguments hinner, hle⟩
  | .constant _, depth, count, m, h | .coordinate _ _, depth, count, m, h
  | .parameter _, depth, count, m, h | .input _ _, depth, count, m, h
  | .time _ _, depth, count, m, h => by
    simp only [measureNode, bind_eq_ok, raiseIf_eq_ok, pure_eq_ok, exists_const] at h
    obtain ⟨-, -, rfl⟩ := h
    exact ⟨rfl, show 1 ≤ 64 by omega⟩

/-- The list form of `measureNode_spec`. -/
lemma measureArguments_spec (ctx : LoweringContext R P) : ∀ (arguments : List (NodeData R P))
    {index depth count : ℕ} {m : Measured},
    measureArguments arguments index depth count = .ok m →
      Tree.needFrom index (nativeAll ctx arguments) = m.requiredStack
  | [], index, depth, count, m, h => by
    simp only [measureArguments, pure_eq_ok] at h
    subst h
    rfl
  | argument :: rest, index, depth, count, m, h => by
    simp only [measureArguments, bind_eq_ok, pure_eq_ok] at h
    obtain ⟨first, hfirst, others, hothers, rfl⟩ := h
    simp only [nativeAll, Tree.needFrom, (measureNode_spec ctx argument hfirst).1,
      measureArguments_spec ctx rest hothers]
end

mutual
/-- Every power has a literal exponent. -/
def LiteralPowers : NodeData R P → Prop
  | .operator kind op arguments =>
      (kind = .scalar → op = "pow" → constantExponent arguments = true) ∧
        LiteralPowersAll arguments
  | _ => True

/-- The powers of a list of nodes. -/
def LiteralPowersAll : List (NodeData R P) → Prop
  | [] => True
  | argument :: rest => LiteralPowers argument ∧ LiteralPowersAll rest
end

mutual
/-- Decoding has checked the exponents. -/
lemma nodeFromData_powers : ∀ (data : NodeData R P) {expected : ExprKind} {depth count : ℕ}
    {decoded : Decoded}, nodeFromData data expected depth count = .ok decoded →
      LiteralPowers data
  | .operator kind op arguments, expected, depth, count, decoded, h => by
    simp only [nodeFromData, validateLocal, bind_eq_ok, raiseIf_eq_ok, pure_eq_ok,
      exists_const] at h
    obtain ⟨-, -, kinds, hkinds, inner, hinner, -, -, ⟨-, hpow, -⟩, -⟩ := h
    refine ⟨fun hkind hop => ?_, argumentsFromData_powers arguments ?_ hinner⟩
    · by_contra hexponent
      exact hpow ⟨hkind, hop, by simpa using hexponent⟩
    · exact length_decodedKinds hkinds
  | .constant _, _, _, _, _, _ | .coordinate _ _, _, _, _, _, _ | .parameter _, _, _, _, _, _
  | .input _ _, _, _, _, _, _ | .time _ _, _, _, _, _, _ => trivial

/-- The list form of `nodeFromData_powers`. -/
lemma argumentsFromData_powers : ∀ (arguments : List (NodeData R P)) {kinds : List ExprKind}
    {depth count : ℕ} {decoded : DecodedArguments}, arguments.length = kinds.length →
    argumentsFromData arguments kinds depth count = .ok decoded → LiteralPowersAll arguments
  | [], _, _, _, _, _, _ => trivial
  | argument :: rest, [], _, _, _, hlength, _ => by simp at hlength
  | argument :: rest, kind :: kinds, depth, count, decoded, hlength, h => by
    simp only [argumentsFromData, bind_eq_ok, pure_eq_ok] at h
    obtain ⟨first, hfirst, others, hothers, -⟩ := h
    exact ⟨nodeFromData_powers argument hfirst,
      argumentsFromData_powers rest (by simpa using hlength) hothers⟩
end

/-! ## The types -/

/-- The type of a kind. -/
def ExprKind.type : ExprKind → AnalyticValueType
  | scalar => .scalar
  | predicate => .predicate

/-- An operation of the vocabulary takes operands. -/
lemma operands_pos {kind : ExprKind} {op : String} {kinds : List ExprKind}
    (h : childKinds kind op = some kinds) : 0 < (opOf op).operands := by
  rw [(opOf_spec h).2]
  rcases childKinds_cases h with ⟨-, -, rfl⟩ | ⟨-, -, rfl⟩ | ⟨-, -, rfl⟩ | ⟨-, -, rfl⟩ |
    ⟨-, -, rfl⟩ | ⟨-, -, rfl⟩ | ⟨-, -, rfl⟩ <;> simp

/-- An operator may carry the literal zero. -/
lemma literalAdmissible_zero {op : AnalyticOp} (h : 0 < op.operands) :
    LiteralAdmissible (⟨op, RealArithmetic.zero⟩ : AnalyticToken R) := by
  cases op with
  | constant | input => simp [AnalyticOp.operands, AnalyticOp.arity] at h
  | _ => exact RealArithmetic.eq_zero

/-- An input may carry a slot below `2 ^ 32`. -/
lemma literalAdmissible_input {n : ℕ} (h : n < 2 ^ 32) :
    LiteralAdmissible (⟨.input, RealArithmetic.ofNat n⟩ : AnalyticToken R) :=
  ⟨RealArithmetic.isFinite_ofNat n h, RealArithmetic.lt_ofNat_zero n h,
    RealArithmetic.eq_floor_ofNat n h, RealArithmetic.lt_max_ofNat n h⟩

/-- A normalised finite number is finite. -/
lemma isFinite_normalizeZero {v : R} (h : RealArithmetic.isFinite v = true) :
    RealArithmetic.isFinite (normalizeZero v) = true := by
  unfold normalizeZero
  split_ifs
  · exact RealArithmetic.isFinite_zero
  · exact h

/-- The value of a bound parameter. -/
lemma parameterValue_eq {ctx : LoweringContext R P} {reference : P} {v : R}
    (h : ctx.effectiveValue reference = .ok v) :
    parameterValue ctx reference = normalizeZero v := by
  simp [parameterValue, h, Except.toOption]

/-- The literals that the native compiler sees: constants and bound parameters. -/
lemma literalOf_native {ctx : LoweringContext R P} {data : NodeData R P} {kind : ExprKind}
    (h : Lowerable ctx data kind) : literalOf (native ctx data) = effectiveLiteral ctx data := by
  cases data with
  | constant v => simp [native, literalOf, effectiveLiteral]
  | parameter reference => simp [native, literalOf, effectiveLiteral]
  | coordinate frameId axis =>
    cases axis <;> simp [native, literalOf, effectiveLiteral] <;> decide
  | input valueId component => simp [native, literalOf, effectiveLiteral]
  | time clock clockId => simp [native, literalOf, effectiveLiteral]
  | operator kind op arguments =>
    obtain ⟨-, kinds, hkinds, -, -⟩ := h
    have hconstant : opOf op ≠ .constant := by
      intro hop
      have hpos := operands_pos hkinds
      simp [hop, AnalyticOp.operands, AnalyticOp.arity] at hpos
    simp [native, literalOf, effectiveLiteral, hconstant]

/-- The operator case of `hasType_native`: the family of the operation selects the typing
rule. -/
lemma hasType_operator {ctx : LoweringContext R P} {kind : ExprKind} {op : String}
    {arguments : List (NodeData R P)} {kinds : List ExprKind}
    (hkinds : childKinds kind op = some kinds) (hlength : arguments.length = kinds.length)
    (hall : LowerableAll ctx arguments kinds)
    (htypes : List.Forall₂ HasType (nativeAll ctx arguments) (kinds.map ExprKind.type))
    (hpow : kind = .scalar → op = "pow" → constantExponent arguments = true)
    (hbounds : OrderedBounds ctx op arguments) :
    HasType (.node ⟨opOf op, RealArithmetic.zero⟩ (nativeAll ctx arguments)) kind.type := by
  have hliteral := literalAdmissible_zero (R := R) (operands_pos hkinds)
  rcases childKinds_cases hkinds with ⟨rfl, hop, rfl⟩ | ⟨rfl, hop, rfl⟩ | ⟨rfl, rfl, rfl⟩ |
    ⟨rfl, hop, rfl⟩ | ⟨rfl, hop, rfl⟩ | ⟨rfl, rfl, rfl⟩ | ⟨rfl, rfl, rfl⟩
  · obtain ⟨t, rfl⟩ := List.length_eq_one_iff.mp hlength
    obtain ⟨ht, -⟩ := List.forall₂_cons.mp htypes
    exact .unary (opOf_scalarUnary op hop).1 (opOf_scalarUnary op hop).2.1 hliteral ht
  · obtain ⟨t, u, rfl⟩ := List.length_eq_two.mp hlength
    obtain ⟨hoperands, hlogical, hcomparison, hname, -⟩ := opOf_scalarBinary op hop
    obtain ⟨ht, hrest⟩ := List.forall₂_cons.mp htypes
    obtain ⟨hu, -⟩ := List.forall₂_cons.mp hrest
    refine .scalarBinary hoperands hlogical hcomparison (fun hop' => ?_) hliteral ht hu
    -- a literal exponent is a literal on the native side
    have hexponent := hpow rfl (hname hop')
    cases u with
    | constant v => simp [native, literalOf]
    | _ => simp [constantExponent] at hexponent
  · obtain ⟨c, t, u, rfl⟩ := List.length_eq_three.mp hlength
    obtain ⟨hc, hrest⟩ := List.forall₂_cons.mp htypes
    obtain ⟨ht, hrest⟩ := List.forall₂_cons.mp hrest
    obtain ⟨hu, -⟩ := List.forall₂_cons.mp hrest
    exact .select rfl hliteral hc ht hu
  · obtain ⟨t, u, rfl⟩ := List.length_eq_two.mp hlength
    obtain ⟨ht, hrest⟩ := List.forall₂_cons.mp htypes
    obtain ⟨hu, -⟩ := List.forall₂_cons.mp hrest
    exact .comparison (opOf_comparisons op hop).1 hliteral ht hu
  · obtain ⟨t, u, rfl⟩ := List.length_eq_two.mp hlength
    obtain ⟨ht, hrest⟩ := List.forall₂_cons.mp htypes
    obtain ⟨hu, -⟩ := List.forall₂_cons.mp hrest
    exact .logical (opOf_logicalBinary op hop).1 hliteral ht hu
  · obtain ⟨t, rfl⟩ := List.length_eq_one_iff.mp hlength
    obtain ⟨ht, -⟩ := List.forall₂_cons.mp htypes
    exact .not rfl hliteral ht
  · obtain ⟨v, l, u, rfl⟩ := List.length_eq_three.mp hlength
    obtain ⟨hv, hrest⟩ := List.forall₂_cons.mp htypes
    obtain ⟨hl, hrest⟩ := List.forall₂_cons.mp hrest
    obtain ⟨hu, -⟩ := List.forall₂_cons.mp hrest
    refine .between rfl (fun a b ha hb => ?_) hliteral hv hl hu
    rw [literalOf_native hall.2.1] at ha
    rw [literalOf_native hall.2.2.1] at hb
    exact hbounds rfl a ha b hb

mutual
/-- **A lowered node with ordered intervals is well typed.**

**Proof sketch.**  Induction on the data.  The family of the operation selects the typing rule,
whose side conditions are the exponents that decoding has checked and the bounds that are ordered
by assumption. -/
theorem hasType_native {ctx : LoweringContext R P} : ∀ (data : NodeData R P) {kind : ExprKind},
    Lowerable ctx data kind → LiteralPowers data → SlotsBelow (2 ^ 32) data →
      OrderedIntervals ctx data → HasType (native ctx data) kind.type
  | .constant v, kind, hlower, _, _, _ => by
    obtain ⟨rfl, hfinite⟩ := hlower
    exact .leaf rfl rfl hfinite
  | .coordinate frameId axis, kind, hlower, _, _, _ => by
    obtain rfl : kind = .scalar := hlower
    cases axis
    · exact .leaf rfl rfl RealArithmetic.eq_zero
    · exact .leaf rfl rfl RealArithmetic.eq_zero
    · exact .leaf rfl rfl RealArithmetic.eq_zero
  | .parameter reference, kind, hlower, _, _, _ => by
    obtain ⟨rfl, v, hv, hfinite⟩ := hlower
    refine .leaf rfl rfl ?_
    show RealArithmetic.isFinite (parameterValue ctx reference) = true
    rw [parameterValue_eq hv]
    exact isFinite_normalizeZero hfinite
  | .input valueId component, kind, hlower, _, hslots, _ => by
    obtain ⟨rfl, hnonneg⟩ := hlower
    simp only [SlotsBelow] at hslots
    exact .leaf rfl rfl (literalAdmissible_input (by omega))
  | .time clock clockId, kind, hlower, _, _, _ => by
    obtain rfl : kind = .scalar := hlower
    have hzero := literalAdmissible_input (R := R) (n := 0) (by norm_num)
    rw [RealArithmetic.ofNat_zero] at hzero
    exact .leaf rfl rfl hzero
  | .operator kind op arguments, expected, hlower, hpowers, hslots, hordered => by
    obtain ⟨rfl, kinds, hkinds, hlength, hall⟩ := hlower
    have htypes := hasType_nativeAll arguments hlength hall hpowers.2 hslots hordered.2
    exact hasType_operator hkinds hlength hall htypes hpowers.1 hordered.1

/-- The list form of `hasType_native`. -/
lemma hasType_nativeAll {ctx : LoweringContext R P} : ∀ (arguments : List (NodeData R P))
    {kinds : List ExprKind}, arguments.length = kinds.length → LowerableAll ctx arguments kinds →
    LiteralPowersAll arguments → SlotsBelowAll (2 ^ 32) arguments →
      OrderedIntervalsAll ctx arguments →
      List.Forall₂ HasType (nativeAll ctx arguments) (kinds.map ExprKind.type)
  | [], [], _, _, _, _, _ => .nil
  | argument :: rest, kind :: kinds, hlength, hall, hpowers, hslots, hordered =>
    .cons (hasType_native argument hall.1 hpowers.1 hslots.1 hordered.1)
      (hasType_nativeAll rest (by simpa using hlength) hall.2 hpowers.2 hslots.2 hordered.2)
  | [], _ :: _, hlength, _, _, _, _ => by simp at hlength
  | _ :: _, [], hlength, _, _, _, _ => by simp at hlength
end

mutual
/-- **A well-typed lowered node has ordered intervals.**

**Proof sketch.**  Induction on the data.  The arguments of a well-typed node are well typed, and
the rule for `between` has the order of the literals as a premise. -/
theorem ordered_of_hasType {ctx : LoweringContext R P} : ∀ (data : NodeData R P)
    {kind : ExprKind} {type : AnalyticValueType}, Lowerable ctx data kind →
    HasType (native ctx data) type → OrderedIntervals ctx data
  | .constant _, _, _, _, _ | .coordinate _ _, _, _, _, _ | .parameter _, _, _, _, _
  | .input _ _, _, _, _, _ | .time _ _, _, _, _, _ => trivial
  | .operator kind op arguments, expected, type, hlower, htype => by
    obtain ⟨rfl, kinds, hkinds, hlength, hall⟩ := hlower
    have hoperands : (nativeAll ctx arguments).length = (opOf op).operands := by
      rw [length_nativeAll, hlength, (opOf_spec hkinds).2]
    obtain ⟨-, -, types, htypes, -⟩ := (hasType_node hoperands).mp htype
    refine ⟨?_, orderedAll_of_hasType arguments hlength hall htypes⟩
    match arguments, kinds with
    | [v, l, u], [kv, kl, ku] =>
      rintro rfl a ha b hb
      have horder : ∀ a b, literalOf (native ctx l) = some a → literalOf (native ctx u) = some b →
          RealArithmetic.lt b a = false := by
        cases htype with
        | between _ horder _ _ _ _ => exact horder
        | select hop _ _ _ _ => exact absurd hop (show opOf "between" ≠ .select by decide)
      refine horder a b ?_ ?_
      · rw [literalOf_native hall.2.1]
        exact ha
      · rw [literalOf_native hall.2.2.1]
        exact hb
    | [], _ => trivial
    | [_], _ => trivial
    | [_, _], _ => trivial
    | _ :: _ :: _ :: _ :: _, _ => trivial

/-- The list form of `ordered_of_hasType`. -/
lemma orderedAll_of_hasType {ctx : LoweringContext R P} : ∀ (arguments : List (NodeData R P))
    {kinds : List ExprKind} {types : List AnalyticValueType}, arguments.length = kinds.length →
    LowerableAll ctx arguments kinds → List.Forall₂ HasType (nativeAll ctx arguments) types →
      OrderedIntervalsAll ctx arguments
  | [], _, _, _, _, _ => trivial
  | argument :: rest, kind :: kinds, _, hlength, hall, htypes => by
    cases htypes with
    | cons hfirst hrest =>
      exact ⟨ordered_of_hasType argument hall.1 hfirst,
        orderedAll_of_hasType rest (by simpa using hlength) hall.2 hrest⟩
  | _ :: _, [], _, hlength, _, _ => by simp at hlength
end

mutual
/-- The tree of a lowered node is ranked, and its operations are listed. -/
lemma ranked_native {ctx : LoweringContext R P} : ∀ (data : NodeData R P) {kind : ExprKind},
    Lowerable ctx data kind → ((native ctx data).Ranked fun token => token.op.operands) ∧
      ∀ token ∈ (native ctx data).flatten, token.op.isKnown = true
  | .coordinate _ axis, _, _ => by
    refine ⟨.node (by cases axis <;> rfl) (by simp), ?_⟩
    cases axis <;> simp [native, Tree.flatten, Tree.flattenAll] <;> decide
  | .constant _, _, _ | .parameter _, _, _ | .input _ _, _, _ | .time _ _, _, _ => by
    refine ⟨.node rfl (by simp), ?_⟩
    simp [native, Tree.flatten, Tree.flattenAll]
    decide
  | .operator kind op arguments, expected, hlower => by
    obtain ⟨rfl, kinds, hkinds, hlength, hall⟩ := hlower
    obtain ⟨hranked, hknown⟩ := ranked_nativeAll arguments hlength hall
    refine ⟨.node ?_ hranked, ?_⟩
    · rw [length_nativeAll, hlength, (opOf_spec hkinds).2]
    · intro token htoken
      rcases List.mem_append.mp htoken with htoken | htoken
      · exact hknown token htoken
      · rw [List.mem_singleton.mp htoken]
        exact isKnown_of_operands_pos (operands_pos hkinds)

/-- The list form of `ranked_native`. -/
lemma ranked_nativeAll {ctx : LoweringContext R P} : ∀ (arguments : List (NodeData R P))
    {kinds : List ExprKind}, arguments.length = kinds.length → LowerableAll ctx arguments kinds →
      (∀ t ∈ nativeAll ctx arguments, t.Ranked fun token => token.op.operands) ∧
        ∀ token ∈ Tree.flattenAll (nativeAll ctx arguments), token.op.isKnown = true
  | [], _, _, _ => by simp [nativeAll, Tree.flattenAll]
  | argument :: rest, kind :: kinds, hlength, hall => by
    obtain ⟨hfirst, hknown⟩ := ranked_native argument hall.1
    obtain ⟨hrest, hknowns⟩ := ranked_nativeAll rest (by simpa using hlength) hall.2
    refine ⟨?_, ?_⟩
    · intro t ht
      rcases List.mem_cons.mp ht with rfl | ht
      · exact hfirst
      · exact hrest t ht
    · intro token htoken
      rcases List.mem_append.mp htoken with htoken | htoken
      · exact hknown token htoken
      · exact hknowns token htoken
  | _ :: _, [], hlength, _ => by simp at hlength
end

/-! ## Both sides together -/

/-- What `_lower_expression` has established when it returns. -/
lemma lowerExpression_spec [DecidableEq R] {ctx : LoweringContext R P} {root : NodeData R P}
    {where_ : String} {opcodes : List String} {literals : List R}
    (h : lowerExpression ctx root where_ = .ok (opcodes, literals)) :
    opcodes = (native ctx root).flatten.map (fun token => token.op.opName) ∧
      literals = (native ctx root).flatten.map (fun token => token.literal) ∧
      (native ctx root).flatten.length ≤ maxNodes ∧ (native ctx root).depth ≤ maxDepth ∧
      (native ctx root).need ≤ maxStack ∧ Lowerable ctx root .scalar ∧ LiteralPowers root := by
  simp only [lowerExpression, bind_eq_ok, raiseIf_eq_ok, pure_eq_ok, exists_const,
    Prod.mk.injEq] at h
  obtain ⟨data, hdata, out, hout, -, rfl, rfl⟩ := h
  obtain ⟨rfl, hdecoded, hmeasured⟩ : data = root ∧ (∃ d, nodeFromData root .scalar 1 0 = .ok d) ∧
      ∃ m, measureNode root 1 0 = .ok m := by
    cases hfrom : fromData root with
    | error e => simp [located, hfrom] at hdata
    | ok data' =>
      simp only [located, hfrom, Except.ok.injEq] at hdata
      simp only [fromData, bind_eq_ok, raiseIf_eq_ok, pure_eq_ok] at hfrom
      obtain ⟨d, hd, m, hm, -, -, rfl⟩ := hfrom
      exact ⟨hdata.symm, ⟨d, hd⟩, ⟨m, hm⟩⟩
  obtain ⟨d, hd⟩ := hdecoded
  obtain ⟨m, hm⟩ := hmeasured
  obtain ⟨hrows, hdepth, hlower⟩ := lowerNode_spec data hout
  obtain ⟨hneed, hstack⟩ := measureNode_spec ctx data hm
  have hbudget := hrows.budget
  have hwithin := hrows.within
  simp only [Nat.zero_add, Nat.zero_le, sup_of_le_right] at hbudget hwithin
  exact ⟨by simpa using hrows.opcodes, by simpa using hrows.literals, by omega, by omega,
    by omega, hlower, nodeFromData_powers data hd⟩

/-- Names and literals of listed tokens, put together again. -/
lemma compileRows_tokens {tokens : List (AnalyticToken R)}
    (hknown : ∀ token ∈ tokens, token.op.isKnown = true) :
    compileRows (tokens.map fun token => token.op.opName) (tokens.map fun token => token.literal) =
      compileAnalyticPostfix tokens {} := by
  have hops : (tokens.map fun token => token.op.opName).mapM analyticOpFromName =
      .ok (tokens.map fun token => token.op) := by
    induction tokens with
    | nil => rfl
    | cons token tokens ih =>
      simp [fromName_opName (hknown token (by simp)), ih fun t ht => hknown t (by simp [ht])]
  have hzip : List.zipWith AnalyticToken.mk (tokens.map fun token => token.op)
      (tokens.map fun token => token.literal) = tokens := by
    induction tokens with
    | nil => rfl
    | cons token tokens ih => simp
  simp only [compileRows, hops, ok_bind, hzip]

/-- **The native compiler accepts the rows of an expression exactly when its intervals are
ordered**, and it then returns a scalar program.

**Proof sketch.**  The rows are the word of a tree within the limits (`lowerExpression_spec`).
An accepted word is the word of a well-typed tree, which is this one
(`compileAnalyticPostfix_inv`, `Tree.flatten_injective`), so its intervals are ordered; and if they
are, the tree is well typed (`hasType_native`) and its word is accepted. -/
theorem lowered_rows_compile_iff [DecidableEq R] (ctx : LoweringContext R P)
    (root : NodeData R P) (where_ : String) (opcodes : List String) (literals : List R)
    (hlower : lowerExpression ctx root where_ = .ok (opcodes, literals))
    (hslots : SlotsBelow (2 ^ 32) root) :
    (∃ program, compileRows opcodes literals = .ok program ∧ program.resultType = .scalar) ↔
      OrderedIntervals ctx root := by
  obtain ⟨rfl, rfl, hsize, hdepth, hneed, hlowerable, hpowers⟩ := lowerExpression_spec hlower
  obtain ⟨hranked, hknown⟩ := ranked_native root hlowerable
  rw [compileRows_tokens hknown]
  constructor
  · rintro ⟨program, hprogram, -⟩
    obtain ⟨t, ht⟩ := compileAnalyticPostfix_inv hprogram
    obtain rfl := Tree.flatten_injective ht.type.ranked hranked ht.word
    exact ordered_of_hasType root hlowerable ht.type
  · intro hordered
    have htype := hasType_native root hlowerable hpowers hslots hordered
    have hvalid : ({} : AnalyticLimits).Valid := by
      refine ⟨⟨?_, ?_⟩, ⟨?_, ?_⟩, ?_, ?_⟩ <;> decide
    exact compileAnalyticPostfix_total hvalid htype ⟨hdepth, hneed⟩ hsize

/-- A context with two parameters, the first of value `1` and the second of value `0`. -/
def twoParameters : LoweringContext IntegerReal Bool :=
  ⟨"lab", fun reference => .ok (some (if reference then 1 else 0)), none⟩

/-- `where(between(x, lower, upper), 1, 0)` with two parameters as bounds. -/
def parameterInterval (lower upper : Bool) : NodeData IntegerReal Bool :=
  .operator .scalar "where"
    [.operator .predicate "between" [.coordinate "lab" .x, .parameter lower, .parameter upper],
      .constant (some 1), .constant (some 0)]

/-- The opcode names of `where(between(x, lower, upper), 1, 0)`. -/
def intervalOpcodes : List String :=
  ["x", "constant", "constant", "between", "constant", "constant", "where"]

/-- With the bounds in order the rows compile. -/
theorem lowered_interval_compiles :
    lowerExpression twoParameters (parameterInterval false true) "e" =
        .ok (intervalOpcodes, [some 0, some 0, some 1, some 0, some 1, some 0, some 0]) ∧
      ∃ program, compileRows intervalOpcodes
        ([some 0, some 0, some 1, some 0, some 1, some 0, some 0] : List IntegerReal) =
          .ok program ∧ program.resultType = .scalar := by
  have hlower : lowerExpression twoParameters (parameterInterval false true) "e" =
      .ok (intervalOpcodes, [some 0, some 0, some 1, some 0, some 1, some 0, some 0]) := rfl
  refine ⟨hlower, (lowered_rows_compile_iff twoParameters (parameterInterval false true) "e" _ _
    hlower ?_).mpr ?_⟩
  · simp [parameterInterval, SlotsBelow, SlotsBelowAll]
  · have hwhere : "where" ≠ "between" := by decide
    refine ⟨fun h => absurd h hwhere, ⟨?_, trivial, trivial, trivial, trivial⟩, trivial, trivial,
      trivial⟩
    rintro - a ha b hb
    cases ha
    cases hb
    rfl

/-- With the bounds out of order lowering returns rows that the native compiler rejects. -/
theorem lowered_interval_rejected :
    lowerExpression twoParameters (parameterInterval true false) "e" =
        .ok (intervalOpcodes, [some 0, some 1, some 0, some 0, some 1, some 0, some 0]) ∧
      SlotsBelow (2 ^ 32) (parameterInterval true false) ∧
      ¬ ∃ program, compileRows intervalOpcodes
        ([some 0, some 1, some 0, some 0, some 1, some 0, some 0] : List IntegerReal) =
          .ok program ∧ program.resultType = .scalar := by
  have hreject : compileRows intervalOpcodes
      ([some 0, some 1, some 0, some 0, some 1, some 0, some 0] : List IntegerReal) =
        .error (reject "operator 'between' at token 3 requires lower <= upper") := rfl
  refine ⟨rfl, by simp [parameterInterval, SlotsBelow, SlotsBelowAll], ?_⟩
  rintro ⟨program, hprogram, -⟩
  rw [hreject] at hprogram
  cases hprogram

end Pops.Analytic
