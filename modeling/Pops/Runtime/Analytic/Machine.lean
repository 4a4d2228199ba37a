import Pops.Runtime.Analytic.Typing

/-!
# The analytic machine

`AnalyticProgramView::eval_checked` executes a compiled program on two arrays of
`kAnalyticMaxStack` entries that start uninitialised.  The model keeps the arrays: an entry that
has not been written is `none`, and reading it, leaving the array, popping an empty stack or
reading past the literals is a fault of the machine.

## Main definitions

* `Pops.Analytic.MachineFault`, `MachineState` — the arrays and what can go wrong.
* `Pops.Analytic.execute` — one instruction.
* `Pops.Analytic.evalChecked` — `eval_checked`.
* `Pops.Analytic.evaluate` — the value of a tree, by recursion on the tree.

## Main results

* `Pops.Analytic.execute_simulates` — one instruction does to the arrays what the token does to
  the stack of values.
-/

namespace Pops.Analytic

variable {R : Type} [RealArithmetic R]

/-- What the machine must never do. -/
inductive MachineFault
  | underflow
  | stackBounds
  | unwritten
  | literalBounds
  deriving DecidableEq, Repr

/-- The local variables of `eval_checked`. -/
structure MachineState (R : Type) where
  values : ℕ → Option R
  validity : ℕ → Option Bool
  sp : ℕ

/-- `AnalyticEvaluation`. -/
structure AnalyticEvaluation (R : Type) where
  value : R
  valid : Bool
  deriving DecidableEq, Repr

/-- The arguments of `eval_checked`: the coordinates, and the inputs (`inputs` and `input_count`;
a null pointer and an empty array both make every input unavailable). -/
structure Surroundings (R : Type) (d : ℕ) where
  coordinates : Fin d → R
  inputs : List R

/-- `c ? Real(1) : Real(0)`. -/
def truth (c : Bool) : R := if c then RealArithmetic.one else RealArithmetic.zero

/-- `v != Real(0)`. -/
def holds (v : R) : Bool := !RealArithmetic.eq v RealArithmetic.zero

/-- The entries as they are at the start: none has been written. -/
def MachineState.start : MachineState R := ⟨fun _ => none, fun _ => none, 0⟩

namespace MachineState

variable (s : MachineState R)

/-- `values[i]`, read. -/
def value (i : ℕ) : Except MachineFault R :=
  if i < kAnalyticMaxStack then
    match s.values i with
    | some v => .ok v
    | none => .error .unwritten
  else .error .stackBounds

/-- `validity[i]`, read. -/
def valid (i : ℕ) : Except MachineFault Bool :=
  if i < kAnalyticMaxStack then
    match s.validity i with
    | some b => .ok b
    | none => .error .unwritten
  else .error .stackBounds

/-- `values[i] = v; validity[i] = b;`: write a slot of both stacks, refused beyond the fixed stack.
-/
def store (i : ℕ) (v : R) (b : Bool) : Except MachineFault (MachineState R) :=
  if i < kAnalyticMaxStack then
    .ok ⟨Function.update s.values i (some v), Function.update s.validity i (some b), s.sp⟩
  else .error .stackBounds

/-- `values[i] = v;`: write a slot of the value stack, refused beyond the fixed stack. -/
def storeValue (i : ℕ) (v : R) : Except MachineFault (MachineState R) :=
  if i < kAnalyticMaxStack then .ok ⟨Function.update s.values i (some v), s.validity, s.sp⟩
  else .error .stackBounds

/-- `--sp`. -/
def pop : Except MachineFault (MachineState R) :=
  if s.sp = 0 then .error .underflow else .ok ⟨s.values, s.validity, s.sp - 1⟩

/-- `++sp`. -/
def push : MachineState R := ⟨s.values, s.validity, s.sp + 1⟩

/-- `sp - 1`. -/
def top : Except MachineFault ℕ := if s.sp = 0 then .error .underflow else .ok (s.sp - 1)

/-- An instruction without operands: store at `sp`, then `++sp`. -/
def leaf (v : R) (b : Bool) : Except MachineFault (MachineState R) := do
  let s ← s.store s.sp v b
  pure s.push

/-- A unary instruction that returns a number: the result must be finite. -/
def unary (f : R → R) : Except MachineFault (MachineState R) := do
  let value ← s.top
  let v ← s.value value
  let b ← s.valid value
  s.store value (f v) (b && RealArithmetic.isFinite (f v))

/-- A binary instruction that returns a number: the result must be finite. -/
def binary (f : R → R → R) : Except MachineFault (MachineState R) := do
  let s ← s.pop
  let right := s.sp
  let left ← s.top
  let l ← s.value left
  let r ← s.value right
  let bl ← s.valid left
  let br ← s.valid right
  s.store left (f l r) (bl && br && RealArithmetic.isFinite (f l r))

/-- A binary instruction that returns a truth value. -/
def test (p : R → R → Bool) : Except MachineFault (MachineState R) := do
  let s ← s.pop
  let right := s.sp
  let left ← s.top
  let l ← s.value left
  let r ← s.value right
  let bl ← s.valid left
  let br ← s.valid right
  s.store left (truth (p l r)) (bl && br)

/-- `Not`: only the value is written. -/
def negate : Except MachineFault (MachineState R) := do
  let value ← s.top
  let v ← s.value value
  s.storeValue value (truth (RealArithmetic.eq v RealArithmetic.zero))

/-- `Select`: pop the two branches and keep the one that the condition picks, with its validity. -/
def select : Except MachineFault (MachineState R) := do
  let s ← s.pop
  let otherwise := s.sp
  let s ← s.pop
  let selected := s.sp
  let s ← s.pop
  let condition := s.sp
  let c ← s.value condition
  let chosen := if holds c then selected else otherwise
  let v ← s.value chosen
  let b ← s.valid chosen
  let bc ← s.valid condition
  let s ← s.store s.sp v (bc && b)
  pure s.push

/-- `Between`: pop the two bounds and compare the value with both. -/
def between : Except MachineFault (MachineState R) := do
  let s ← s.pop
  let upper := s.sp
  let s ← s.pop
  let lower := s.sp
  let s ← s.pop
  let value := s.sp
  let v ← s.value value
  let l ← s.value lower
  let u ← s.value upper
  let bv ← s.valid value
  let bl ← s.valid lower
  let bu ← s.valid upper
  let s ← s.store s.sp (truth (RealArithmetic.le l v && RealArithmetic.le v u)) (bv && bl && bu)
  pure s.push

end MachineState

/-- The value of a coordinate: not a number, and invalid, along an axis that is not there. -/
def coordinateValue {d : ℕ} (env : Surroundings R d) (axis : ℕ) : AnalyticEvaluation R :=
  if h : axis < d then
    ⟨env.coordinates ⟨axis, h⟩, RealArithmetic.isFinite (env.coordinates ⟨axis, h⟩)⟩
  else ⟨RealArithmetic.nan, false⟩

/-- The value of an input: not a number, and invalid, at a slot that is not there. -/
def inputValue {d : ℕ} (env : Surroundings R d) (slot : ℕ) : AnalyticEvaluation R :=
  match env.inputs[slot]? with
  | some v => ⟨v, RealArithmetic.isFinite v⟩
  | none => ⟨RealArithmetic.nan, false⟩

/-- `literals[operand]`. -/
def literalAt (literals : List R) (operand : ℕ) : Except MachineFault R :=
  match literals[operand]? with
  | some v => .ok v
  | none => .error .literalBounds

/-- One pass of the loop of `eval_checked`: the `switch` over the operation. -/
def execute {d : ℕ} (literals : List R) (env : Surroundings R d) (s : MachineState R)
    (instruction : AnalyticInstruction) : Except MachineFault (MachineState R) :=
  match instruction.op with
  | .constant => do
    let v ← literalAt literals instruction.operand
    s.leaf v true
  | .x => s.leaf (coordinateValue env 0).value (coordinateValue env 0).valid
  | .y => s.leaf (coordinateValue env 1).value (coordinateValue env 1).valid
  | .z => s.leaf (coordinateValue env 2).value (coordinateValue env 2).valid
  | .input =>
    s.leaf (inputValue env instruction.operand).value (inputValue env instruction.operand).valid
  | .add => s.binary RealArithmetic.add
  | .sub => s.binary RealArithmetic.sub
  | .mul => s.binary RealArithmetic.mul
  | .div => s.binary RealArithmetic.div
  | .pow => s.binary RealArithmetic.pow
  | .neg => s.unary RealArithmetic.neg
  | .sqrt => s.unary RealArithmetic.sqrt
  | .abs => s.unary RealArithmetic.fabs
  | .sin => s.unary RealArithmetic.sin
  | .cos => s.unary RealArithmetic.cos
  | .exp => s.unary RealArithmetic.exp
  | .erf => s.unary RealArithmetic.erf
  | .erfc => s.unary RealArithmetic.erfc
  | .log => s.unary RealArithmetic.log
  | .atan2 => s.binary RealArithmetic.atan2
  | .hypot => s.binary RealArithmetic.hypot
  | .min => s.binary RealArithmetic.fmin
  | .max => s.binary RealArithmetic.fmax
  | .lt => s.test RealArithmetic.lt
  | .le => s.test RealArithmetic.le
  | .gt => s.test fun l r => RealArithmetic.lt r l
  | .ge => s.test fun l r => RealArithmetic.le r l
  | .eq => s.test RealArithmetic.eq
  | .ne => s.test fun l r => !RealArithmetic.eq l r
  | .and => s.test fun l r => holds l && holds r
  | .or => s.test fun l r => holds l || holds r
  | .not => s.negate
  | .select => s.select
  | .between => s.between
  | .unlisted _ => .ok s

/-- The loop of `eval_checked` over a list of instructions. -/
def executeAll {d : ℕ} (literals : List R) (env : Surroundings R d) (s : MachineState R)
    (instructions : List AnalyticInstruction) : Except MachineFault (MachineState R) :=
  instructions.foldlM (execute literals env) s

/-- `eval_checked`: run the compiled instructions and return the top with its validity. -/
def evalChecked {d : ℕ} (program : AnalyticProgram R) (env : Surroundings R d) :
    Except MachineFault (AnalyticEvaluation R) :=
  if program.requiredDimension > d then .ok ⟨RealArithmetic.nan, false⟩
  else do
    let s ← executeAll program.literals env MachineState.start program.instructions
    let v ← s.value 0
    let b ← s.valid 0
    pure ⟨v, b⟩

/-! ## The value of a tree -/

/-- The payload of an operation with arguments. -/
def payload : AnalyticOp → List R → R
  | .add, [l, r] => RealArithmetic.add l r
  | .sub, [l, r] => RealArithmetic.sub l r
  | .mul, [l, r] => RealArithmetic.mul l r
  | .div, [l, r] => RealArithmetic.div l r
  | .pow, [l, r] => RealArithmetic.pow l r
  | .neg, [v] => RealArithmetic.neg v
  | .sqrt, [v] => RealArithmetic.sqrt v
  | .abs, [v] => RealArithmetic.fabs v
  | .sin, [v] => RealArithmetic.sin v
  | .cos, [v] => RealArithmetic.cos v
  | .exp, [v] => RealArithmetic.exp v
  | .erf, [v] => RealArithmetic.erf v
  | .erfc, [v] => RealArithmetic.erfc v
  | .log, [v] => RealArithmetic.log v
  | .atan2, [l, r] => RealArithmetic.atan2 l r
  | .hypot, [l, r] => RealArithmetic.hypot l r
  | .min, [l, r] => RealArithmetic.fmin l r
  | .max, [l, r] => RealArithmetic.fmax l r
  | .lt, [l, r] => truth (RealArithmetic.lt l r)
  | .le, [l, r] => truth (RealArithmetic.le l r)
  | .gt, [l, r] => truth (RealArithmetic.lt r l)
  | .ge, [l, r] => truth (RealArithmetic.le r l)
  | .eq, [l, r] => truth (RealArithmetic.eq l r)
  | .ne, [l, r] => truth (!RealArithmetic.eq l r)
  | .and, [l, r] => truth (holds l && holds r)
  | .or, [l, r] => truth (holds l || holds r)
  | .not, [v] => truth (RealArithmetic.eq v RealArithmetic.zero)
  | .between, [v, l, u] => truth (RealArithmetic.le l v && RealArithmetic.le v u)
  | _, _ => RealArithmetic.nan

/-- The value of an operator node: valid when all arguments are and the result is finite. -/
def evaluateOperator (op : AnalyticOp) (args : List (AnalyticEvaluation R)) :
    AnalyticEvaluation R :=
  let v := payload op (args.map (·.value))
  ⟨v, args.all (·.valid) && RealArithmetic.isFinite v⟩

/-- The value of a selection: valid when the condition and the chosen branch are. -/
def evaluateSelect (condition selected otherwise : AnalyticEvaluation R) :
    AnalyticEvaluation R :=
  let chosen := if holds condition.value then selected else otherwise
  ⟨chosen.value, condition.valid && chosen.valid⟩

/-- The value of a node from the values of its arguments. -/
def evaluateNode {d : ℕ} (env : Surroundings R d) (token : AnalyticToken R)
    (args : List (AnalyticEvaluation R)) : AnalyticEvaluation R :=
  match token.op, args with
  | .constant, _ => ⟨token.literal, true⟩
  | .x, _ => coordinateValue env 0
  | .y, _ => coordinateValue env 1
  | .z, _ => coordinateValue env 2
  | .input, _ => inputValue env (RealArithmetic.toUInt32 token.literal)
  | .select, [condition, selected, otherwise] => evaluateSelect condition selected otherwise
  | op, args => evaluateOperator op args

mutual
/-- The value of a tree, by recursion on the tree. -/
def evaluate {d : ℕ} (env : Surroundings R d) : AnalyticNode R → AnalyticEvaluation R
  | .node token args => evaluateNode env token (evaluateAll env args)

/-- The values of a list of trees. -/
def evaluateAll {d : ℕ} (env : Surroundings R d) :
    List (AnalyticNode R) → List (AnalyticEvaluation R)
  | [] => []
  | t :: ts => evaluate env t :: evaluateAll env ts
end

/-- The stack of values as a machine. -/
def valuation {d : ℕ} (env : Surroundings R d) (height : ℕ) :
    StackMachine (AnalyticToken R) (AnalyticEvaluation R) where
  arity token := token.op.operands
  combine token args := some (evaluateNode env token args)
  limit := height

/-- The values of a list of trees are those of the trees. -/
lemma evaluateAll_eq_map {d : ℕ} (env : Surroundings R d) (ts : List (AnalyticNode R)) :
    evaluateAll env ts = ts.map (evaluate env) := by
  induction ts with
  | nil => rfl
  | cons t ts ih => simp [evaluateAll, ih]

/-- The stack of values computes the value of a tree. -/
lemma fold_valuation {d : ℕ} (env : Surroundings R d) (height : ℕ) (t : AnalyticNode R) :
    t.fold (valuation env height).combine = some (evaluate env t) := by
  induction t using Tree.induction with
  | node token ts ih =>
    rw [Tree.fold, Tree.foldAll_eq_map ih, Option.bind_some, evaluate, evaluateAll_eq_map]
    rfl

/-! ## One instruction on the arrays -/

/-- The entries of the arrays below the stack pointer are the stack. -/
def Written (values : ℕ → Option R) (validity : ℕ → Option Bool) :
    List (AnalyticEvaluation R) → Prop
  | [] => True
  | e :: stack => values stack.length = some e.value ∧ validity stack.length = some e.valid ∧
      Written values validity stack

/-- The arrays hold the stack. -/
structure Represents (s : MachineState R) (stack : List (AnalyticEvaluation R)) : Prop where
  sp : s.sp = stack.length
  written : Written s.values s.validity stack

omit [RealArithmetic R] in
/-- The arrays hold nothing at the start. -/
lemma Represents.start : Represents (MachineState.start : MachineState R) [] := ⟨rfl, trivial⟩

omit [RealArithmetic R] in
/-- Writing above a stack does not change it. -/
lemma Written.update {values : ℕ → Option R} {validity : ℕ → Option Bool}
    {stack : List (AnalyticEvaluation R)} (h : Written values validity stack) {i : ℕ}
    (hi : stack.length ≤ i) (v : Option R) (b : Option Bool) :
    Written (Function.update values i v) (Function.update validity i b) stack := by
  induction stack with
  | nil => trivial
  | cons e stack ih =>
    obtain ⟨hv, hb, hrest⟩ := h
    simp only [List.length_cons] at hi
    refine ⟨?_, ?_, ih hrest (by omega)⟩
    · rw [Function.update_of_ne (by omega), hv]
    · rw [Function.update_of_ne (by omega), hb]

section Arrays

variable {s : MachineState R} {stack : List (AnalyticEvaluation R)}
  {a b c : AnalyticEvaluation R}

omit [RealArithmetic R] in
/-- Reading a written value. -/
lemma value_eq_ok {i : ℕ} {v : R} (hi : i < kAnalyticMaxStack) (h : s.values i = some v) :
    s.value i = .ok v := by
  simp [MachineState.value, hi, h]

omit [RealArithmetic R] in
/-- Reading a written validity. -/
lemma valid_eq_ok {i : ℕ} {v : Bool} (hi : i < kAnalyticMaxStack)
    (h : s.validity i = some v) : s.valid i = .ok v := by
  simp [MachineState.valid, hi, h]

/-- The arrays with a value written on top of a stack of a given height. -/
def MachineState.put (s : MachineState R) (height : ℕ) (e : AnalyticEvaluation R) :
    MachineState R :=
  ⟨Function.update s.values height (some e.value), Function.update s.validity height (some e.valid),
    height + 1⟩

omit [RealArithmetic R] in
/-- A value written on top of a stack. -/
theorem Written.put (h : Written s.values s.validity stack) (e : AnalyticEvaluation R) :
    Represents (s.put stack.length e) (e :: stack) :=
  ⟨rfl, by simp [MachineState.put], by simp [MachineState.put], h.update le_rfl _ _⟩

omit [RealArithmetic R] in
/-- Pushing a value on the arrays. -/
lemma leaf_eq (h : Represents s stack) (hroom : stack.length < kAnalyticMaxStack)
    (e : AnalyticEvaluation R) : s.leaf e.value e.valid = .ok (s.put stack.length e) := by
  simp only [MachineState.leaf, MachineState.store, h.sp, if_pos hroom, ok_bind]
  rfl

/-- A unary operation on the arrays. -/
lemma unary_eq (h : Represents s (a :: stack)) (hroom : stack.length < kAnalyticMaxStack)
    (f : R → R) :
    s.unary f = .ok (s.put stack.length
      ⟨f a.value, a.valid && RealArithmetic.isFinite (f a.value)⟩) := by
  obtain ⟨hsp, hv, hb, -⟩ := h
  simp only [List.length_cons] at hsp
  simp only [MachineState.unary, MachineState.top, hsp, Nat.add_one_ne_zero, if_false,
    Nat.add_sub_cancel, ok_bind, value_eq_ok hroom hv, valid_eq_ok hroom hb,
    MachineState.store, if_pos hroom]
  rfl

/-- `Not` on the arrays. -/
lemma negate_eq (h : Represents s (a :: stack)) (hroom : stack.length < kAnalyticMaxStack) :
    s.negate = .ok (s.put stack.length
      ⟨truth (RealArithmetic.eq a.value RealArithmetic.zero), a.valid⟩) := by
  obtain ⟨hsp, hv, hb, -⟩ := h
  simp only [List.length_cons] at hsp
  have hsame : Function.update s.validity stack.length (some a.valid) = s.validity := by
    rw [← hb, Function.update_eq_self]
  simp only [MachineState.negate, MachineState.top, hsp, Nat.add_one_ne_zero, if_false,
    Nat.add_sub_cancel, ok_bind, value_eq_ok hroom hv, MachineState.storeValue, if_pos hroom,
    MachineState.put, hsame]

omit [RealArithmetic R] in
/-- The two operands of a binary operation on the arrays. -/
lemma binary_operands (h : Represents s (b :: a :: stack))
    (hroom : stack.length + 2 ≤ kAnalyticMaxStack) :
    s.pop = .ok ⟨s.values, s.validity, stack.length + 1⟩ ∧
      s.value stack.length = .ok a.value ∧ s.value (stack.length + 1) = .ok b.value ∧
      s.valid stack.length = .ok a.valid ∧ s.valid (stack.length + 1) = .ok b.valid := by
  obtain ⟨hsp, hbv, hbb, hav, hab, -⟩ := h
  simp only [List.length_cons] at hsp hbv hbb
  refine ⟨?_, value_eq_ok (by omega) hav, value_eq_ok (by omega) hbv, valid_eq_ok (by omega) hab,
    valid_eq_ok (by omega) hbb⟩
  simp [MachineState.pop, hsp]

/-- A binary operation on the arrays. -/
lemma binary_eq (h : Represents s (b :: a :: stack))
    (hroom : stack.length + 2 ≤ kAnalyticMaxStack) (f : R → R → R) :
    s.binary f = .ok (s.put stack.length ⟨f a.value b.value,
      a.valid && b.valid && RealArithmetic.isFinite (f a.value b.value)⟩) := by
  obtain ⟨hpop, hav, hbv, hab, hbb⟩ := binary_operands h hroom
  have hlt : stack.length < kAnalyticMaxStack := by omega
  simp only [MachineState.value, MachineState.valid] at hav hbv hab hbb
  simp only [MachineState.binary, hpop, ok_bind, MachineState.top, Nat.add_one_ne_zero, if_false,
    Nat.add_sub_cancel, MachineState.value, MachineState.valid, hav, hbv, hab, hbb,
    MachineState.store, if_pos hlt]
  rfl

/-- A binary test on the arrays. -/
lemma test_eq (h : Represents s (b :: a :: stack))
    (hroom : stack.length + 2 ≤ kAnalyticMaxStack) (p : R → R → Bool) :
    s.test p = .ok (s.put stack.length ⟨truth (p a.value b.value), a.valid && b.valid⟩) := by
  obtain ⟨hpop, hav, hbv, hab, hbb⟩ := binary_operands h hroom
  have hlt : stack.length < kAnalyticMaxStack := by omega
  simp only [MachineState.value, MachineState.valid] at hav hbv hab hbb
  simp only [MachineState.test, hpop, ok_bind, MachineState.top, Nat.add_one_ne_zero, if_false,
    Nat.add_sub_cancel, MachineState.value, MachineState.valid, hav, hbv, hab, hbb,
    MachineState.store, if_pos hlt]
  rfl

omit [RealArithmetic R] in
/-- Popping a stack that is not empty. -/
lemma pop_succ (values : ℕ → Option R) (validity : ℕ → Option Bool) (n : ℕ) :
    (⟨values, validity, n + 1⟩ : MachineState R).pop = .ok ⟨values, validity, n⟩ := by
  simp [MachineState.pop]

omit [RealArithmetic R] in
/-- The three operands of a ternary operation on the arrays. -/
lemma ternary_operands (h : Represents s (c :: b :: a :: stack))
    (hroom : stack.length + 3 ≤ kAnalyticMaxStack) :
    (s.value stack.length = .ok a.value ∧ s.value (stack.length + 1) = .ok b.value ∧
      s.value (stack.length + 2) = .ok c.value) ∧
    s.valid stack.length = .ok a.valid ∧ s.valid (stack.length + 1) = .ok b.valid ∧
      s.valid (stack.length + 2) = .ok c.valid := by
  obtain ⟨-, hcv, hcb, hbv, hbb, hav, hab, -⟩ := h
  exact ⟨⟨value_eq_ok (by omega) hav, value_eq_ok (by omega) hbv, value_eq_ok (by omega) hcv⟩,
    valid_eq_ok (by omega) hab, valid_eq_ok (by omega) hbb, valid_eq_ok (by omega) hcb⟩

/-- `Select` on the arrays. -/
lemma select_eq (h : Represents s (c :: b :: a :: stack))
    (hroom : stack.length + 3 ≤ kAnalyticMaxStack) :
    s.select = .ok (s.put stack.length (evaluateSelect a b c)) := by
  obtain ⟨⟨hav, hbv, hcv⟩, hab, hbb, hcb⟩ := ternary_operands h hroom
  have hlt : stack.length < kAnalyticMaxStack := by omega
  have hsp := h.sp
  obtain ⟨values, validity, sp⟩ := s
  obtain rfl : sp = stack.length + 2 + 1 := hsp
  simp only [MachineState.value, MachineState.valid] at hav hbv hcv hab hbb hcb
  by_cases hholds : holds a.value = true
  · simp only [MachineState.select, pop_succ, ok_bind, MachineState.value, MachineState.valid, hav,
      if_pos hholds, hbv, hab, hbb, MachineState.store, if_pos hlt, evaluateSelect]
    rfl
  · simp only [MachineState.select, pop_succ, ok_bind, MachineState.value, MachineState.valid, hav,
      if_neg hholds, hcv, hab, hcb, MachineState.store, if_pos hlt, evaluateSelect]
    rfl

/-- `Between` on the arrays. -/
lemma between_eq (h : Represents s (c :: b :: a :: stack))
    (hroom : stack.length + 3 ≤ kAnalyticMaxStack) :
    s.between = .ok (s.put stack.length
      ⟨truth (RealArithmetic.le b.value a.value && RealArithmetic.le a.value c.value),
        a.valid && b.valid && c.valid⟩) := by
  obtain ⟨⟨hav, hbv, hcv⟩, hab, hbb, hcb⟩ := ternary_operands h hroom
  have hlt : stack.length < kAnalyticMaxStack := by omega
  have hsp := h.sp
  obtain ⟨values, validity, sp⟩ := s
  obtain rfl : sp = stack.length + 2 + 1 := hsp
  simp only [MachineState.value, MachineState.valid] at hav hbv hcv hab hbb hcb
  simp only [MachineState.between, pop_succ, ok_bind, MachineState.value, MachineState.valid, hav,
    hbv, hcv, hab, hbb, hcb, MachineState.store, if_pos hlt]
  rfl

end Arrays

/-! ## One instruction and one token -/

section Simulation

variable {d : ℕ} {env : Surroundings R d} {literals : List R} {s : MachineState R}
  {stack stack' : List (AnalyticEvaluation R)} {token : AnalyticToken R}
  {instruction : AnalyticInstruction} {height : ℕ}

/-- A truth value is finite. -/
@[simp] lemma isFinite_truth (c : Bool) : RealArithmetic.isFinite (truth c : R) = true := by
  cases c
  · exact RealArithmetic.isFinite_zero
  · exact RealArithmetic.isFinite_one

/-- The operands of a token, popped from the stack of values. -/
lemma step_valuation (h : (valuation env height).step stack token = some stack') :
    token.op.operands ≤ stack.length ∧ stack.length - token.op.operands < height ∧
      stack' = evaluateNode env token (stack.take token.op.operands).reverse ::
        stack.drop token.op.operands := by
  obtain ⟨hle, hlt, e, he, rfl⟩ := (StackMachine.step_eq_some _).mp h
  obtain rfl := Option.some.inj he
  exact ⟨hle, hlt, rfl⟩

/-- An operation without operands: the value that it pushes. -/
lemma execute_leaf (hencodes : Encodes literals instruction token)
    (hop : token.op.operands = 0) (hknown : token.op.isKnown = true) :
    execute literals env s instruction =
      s.leaf (evaluateNode env token []).value (evaluateNode env token []).valid := by
  obtain ⟨hsame, hconstant, hinput⟩ := hencodes
  cases htoken : token.op with
  | constant =>
    simp only [execute, hsame, htoken, evaluateNode, literalAt, hconstant htoken, ok_bind]
  | input => simp only [execute, hsame, htoken, evaluateNode, hinput htoken]
  | x => simp only [execute, hsame, htoken, evaluateNode]
  | y => simp only [execute, hsame, htoken, evaluateNode]
  | z => simp only [execute, hsame, htoken, evaluateNode]
  | unlisted k => simp [htoken] at hknown
  | _ => simp [htoken, AnalyticOp.operands, AnalyticOp.arity] at hop

/-- An operation with one operand. -/
lemma execute_unary {a : AnalyticEvaluation R} (hencodes : Encodes literals instruction token)
    (hop : token.op.operands = 1) (h : Represents s (a :: stack))
    (hroom : stack.length < kAnalyticMaxStack) :
    execute literals env s instruction = .ok (s.put stack.length (evaluateNode env token [a])) := by
  have hsame := hencodes.op
  cases htoken : token.op with
  | not =>
    simp [execute, hsame, htoken, negate_eq h hroom, evaluateNode, evaluateOperator, payload]
  | neg | sqrt | abs | sin | cos | exp | erf | erfc | log =>
    simp [execute, hsame, htoken, unary_eq h hroom, evaluateNode, evaluateOperator, payload]
  | _ => simp [htoken, AnalyticOp.operands, AnalyticOp.arity] at hop

/-- An operation with two operands. -/
lemma execute_binary {a b : AnalyticEvaluation R}
    (hencodes : Encodes literals instruction token) (hop : token.op.operands = 2)
    (h : Represents s (b :: a :: stack)) (hroom : stack.length + 2 ≤ kAnalyticMaxStack) :
    execute literals env s instruction =
      .ok (s.put stack.length (evaluateNode env token [a, b])) := by
  have hsame := hencodes.op
  cases htoken : token.op with
  | add | sub | mul | div | pow | atan2 | hypot | min | max =>
    simp [execute, hsame, htoken, binary_eq h hroom, evaluateNode, evaluateOperator, payload]
  | lt | le | gt | ge | eq | ne | and | or =>
    simp [execute, hsame, htoken, test_eq h hroom, evaluateNode, evaluateOperator, payload]
  | _ => simp [htoken, AnalyticOp.operands, AnalyticOp.arity] at hop

/-- An operation with three operands. -/
lemma execute_ternary {a b c : AnalyticEvaluation R}
    (hencodes : Encodes literals instruction token) (hop : token.op.operands = 3)
    (h : Represents s (c :: b :: a :: stack)) (hroom : stack.length + 3 ≤ kAnalyticMaxStack) :
    execute literals env s instruction =
      .ok (s.put stack.length (evaluateNode env token [a, b, c])) := by
  have hsame := hencodes.op
  cases htoken : token.op with
  | select => simp [execute, hsame, htoken, select_eq h hroom, evaluateNode]
  | between =>
    simp [execute, hsame, htoken, between_eq h hroom, evaluateNode, evaluateOperator, payload,
      Bool.and_assoc]
  | _ => simp [htoken, AnalyticOp.operands, AnalyticOp.arity] at hop

/-- **One instruction does to the arrays what its token does to the stack of values.**

**Proof sketch.**  One case for each number of operands, which are the top of the stack and so
the topmost written entries. -/
theorem execute_simulates (hencodes : Encodes literals instruction token)
    (hknown : token.op.isKnown = true) (h : Represents s stack)
    (hstep : (valuation env height).step stack token = some stack')
    (hheight : height ≤ kAnalyticMaxStack) (hstack : stack.length ≤ kAnalyticMaxStack) :
    ∃ s', execute literals env s instruction = .ok s' ∧ Represents s' stack' := by
  obtain ⟨hle, hlt, rfl⟩ := step_valuation hstep
  have hthree := operands_le_three token.op
  match hop : token.op.operands, stack with
  | 0, stack =>
    refine ⟨_, (execute_leaf hencodes hop hknown).trans (leaf_eq h (by omega) _), ?_⟩
    exact h.written.put _
  | 1, a :: stack =>
    refine ⟨_, execute_unary hencodes hop h (by simpa using hstack), ?_⟩
    exact h.written.2.2.put _
  | 2, b :: a :: stack =>
    simp only [List.length_cons] at hstack
    refine ⟨_, execute_binary hencodes hop h (by omega), ?_⟩
    exact h.written.2.2.2.2.put _
  | 3, c :: b :: a :: stack =>
    simp only [List.length_cons] at hstack
    refine ⟨_, execute_ternary hencodes hop h (by omega), ?_⟩
    exact h.written.2.2.2.2.2.2.put _
  | 1, [] => simp [hop] at hle
  | 2, [] => simp [hop] at hle
  | 2, [_] => simp [hop] at hle
  | 3, [] => simp [hop] at hle
  | 3, [_] => simp [hop] at hle
  | 3, [_, _] => simp [hop] at hle
  | _ + 4, _ => omega

end Simulation

end Pops.Analytic
