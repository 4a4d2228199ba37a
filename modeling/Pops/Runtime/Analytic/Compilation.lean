import Pops.Runtime.Analytic.Machine

/-!
# Correctness of the analytic compiler

A compiled program computes the value of the tree it was compiled from, without a fault and
within the stack that the compiler recorded; and the compiler accepts exactly the postfix words
of well-typed trees within the limits.  A program that refers to an axis beyond the dimension
fails closed, whatever branch a selection would take.

## Main results

* `Pops.Analytic.executeAll_simulates` — the loop of `eval_checked` on a list of instructions.
* `Pops.Analytic.Accepted.run_prefix` — every prefix of the program runs, and what is then on the
  stack.
* `Pops.Analytic.compiled_program_means_tree` — the correctness theorem.
-/

namespace Pops.Analytic

variable {R : Type} [RealArithmetic R]

/-- Every operation of a well-typed tree is listed. -/
lemma HasType.isKnown {t : AnalyticNode R} {type : AnalyticValueType} (h : HasType t type) :
    ∀ token ∈ t.flatten, token.op.isKnown = true := by
  have hranked := h.ranked
  induction t using Tree.induction generalizing type with
  | node token ts ih =>
    obtain ⟨hlength, hargs⟩ := hranked
    obtain ⟨hknown, -, types, htypes, -⟩ := (hasType_node hlength).mp h
    have hall : ∀ us : List (AnalyticNode R), ∀ types, List.Forall₂ HasType us types →
        (∀ u ∈ us, ∀ type, HasType u type → ∀ token ∈ u.flatten, token.op.isKnown = true) →
          ∀ token ∈ Tree.flattenAll us, token.op.isKnown = true := by
      intro us types hus hflat
      induction hus with
      | nil => simp [Tree.flattenAll]
      | cons hu _ ihus =>
        intro token htoken
        rcases List.mem_append.mp htoken with htoken | htoken
        · exact hflat _ (by simp) _ hu token htoken
        · exact ihus (fun u hu => hflat u (by simp [hu])) token htoken
    intro token' htoken'
    rcases List.mem_append.mp htoken' with htoken' | htoken'
    · exact hall ts types htypes (fun u hu type hu' => ih u hu hu' hu'.ranked) token' htoken'
    · rw [List.mem_singleton.mp htoken']
      exact hknown

/-- **The loop of `eval_checked` follows the stack of values.**

**Proof sketch.**  Induction on the instructions; one instruction is `execute_simulates`, and the
height of the stack stays within the limit (`StackMachine.length_step`). -/
theorem executeAll_simulates {d : ℕ} {env : Surroundings R d} {literals : List R} {height : ℕ}
    (hheight : height ≤ kAnalyticMaxStack) {instructions : List AnalyticInstruction}
    {tokens : List (AnalyticToken R)}
    (hencodes : List.Forall₂ (Encodes literals) instructions tokens)
    (hknown : ∀ token ∈ tokens, token.op.isKnown = true) {s : MachineState R}
    {stack stack' : List (AnalyticEvaluation R)} (h : Represents s stack)
    (hstack : stack.length ≤ height)
    (hrun : (valuation env height).run stack tokens = some stack') :
    ∃ s', executeAll literals env s instructions = .ok s' ∧ Represents s' stack' ∧
      stack'.length ≤ height := by
  induction hencodes generalizing s stack with
  | nil =>
    obtain rfl := Option.some.inj hrun
    exact ⟨s, rfl, h, hstack⟩
  | cons hinstruction _ ih =>
    rw [StackMachine.run_cons] at hrun
    obtain ⟨next, hstep, hrest⟩ := Option.bind_eq_some_iff.mp hrun
    obtain ⟨s₁, hs₁, h₁⟩ :=
      execute_simulates hinstruction (hknown _ (by simp)) h hstep hheight (by omega)
    obtain ⟨s', hs', h', hstack'⟩ := ih (fun token ht => hknown token (by simp [ht])) h₁
      (StackMachine.length_step _ hstep).2 hrest
    refine ⟨s', ?_, h', hstack'⟩
    simp only [executeAll] at hs' ⊢
    rw [List.foldlM_cons, hs₁, ok_bind, hs']

section Accepted

variable {limits : AnalyticLimits} {tokens : List (AnalyticToken R)} {program : AnalyticProgram R}
  {t : AnalyticNode R}

/-- The stack that the compiler recorded is within the machine's. -/
lemma Accepted.stack_le (h : Accepted limits tokens program t) :
    program.requiredStack ≤ kAnalyticMaxStack :=
  h.stack.trans h.limits_valid.2.2.2

/-- The stack of values reads the tokens as the tree. -/
lemma Accepted.run_valuation (h : Accepted limits tokens program t) {d : ℕ}
    (env : Surroundings R d) :
    (valuation env program.requiredStack).run [] tokens = some [evaluate env t] := by
  rw [← h.word]
  refine (StackMachine.run_flatten _ h.type.ranked [] _).mpr ⟨_, fold_valuation env _ t, ?_, rfl⟩
  simpa [valuation] using h.room

/-- **Every prefix of an accepted program runs without a fault**, and leaves at least the
operands of the next instruction and at most the recorded stack. -/
theorem Accepted.run_prefix (h : Accepted limits tokens program t) {d : ℕ}
    (env : Surroundings R d) (k : ℕ) :
    ∃ s, executeAll program.literals env MachineState.start (program.instructions.take k) = .ok s ∧
      s.sp ≤ program.requiredStack ∧
      ∀ instruction, program.instructions[k]? = some instruction →
        instruction.op.operands ≤ s.sp := by
  have hrun := h.run_valuation env
  rw [← List.take_append_drop k tokens, StackMachine.run_append] at hrun
  obtain ⟨stack, hstack, hrest⟩ := Option.bind_eq_some_iff.mp hrun
  have hknown : ∀ token ∈ tokens.take k, token.op.isKnown = true := fun token htoken =>
    h.type.isKnown token (by rw [h.word]; exact List.mem_of_mem_take htoken)
  obtain ⟨s, hs, hrep, hheight⟩ := executeAll_simulates h.stack_le
    (List.forall₂_take k h.encodes) hknown Represents.start (Nat.zero_le _) hstack
  refine ⟨s, hs, by rw [hrep.sp]; exact hheight, ?_⟩
  intro instruction hinstruction
  obtain ⟨hlt, hget⟩ := List.getElem?_eq_some_iff.mp hinstruction
  -- the next token is the one that this instruction stands for
  have hlength := h.encodes.length_eq
  have hencodes : Encodes program.literals instruction (tokens.get ⟨k, by omega⟩) := by
    have := (List.forall₂_iff_get.mp h.encodes).2 k hlt (by omega)
    rw [List.get_eq_getElem, hget] at this
    exact this
  rw [List.drop_eq_getElem_cons (by omega), StackMachine.run_cons] at hrest
  obtain ⟨next, hstep, -⟩ := Option.bind_eq_some_iff.mp hrest
  have hle := (StackMachine.step_eq_some _).mp hstep
  rw [hencodes.op, hrep.sp]
  exact hle.1

/-- **An accepted program computes the value of its tree.** -/
theorem Accepted.evalChecked_eq (h : Accepted limits tokens program t) {d : ℕ}
    (env : Surroundings R d) (hd : program.requiredDimension ≤ d) :
    evalChecked program env = .ok (evaluate env t) := by
  have hknown : ∀ token ∈ tokens, token.op.isKnown = true := fun token htoken =>
    h.type.isKnown token (by rw [h.word]; exact htoken)
  obtain ⟨s, hs, hrep, -⟩ := executeAll_simulates h.stack_le h.encodes hknown Represents.start
    (Nat.zero_le _) (h.run_valuation env)
  obtain ⟨-, hvalue, hvalid, -⟩ := hrep
  have hzero : 0 < kAnalyticMaxStack := by decide
  simp only [evalChecked, if_neg (not_lt.mpr hd), hs, ok_bind, value_eq_ok hzero hvalue,
    valid_eq_ok hzero hvalid]
  rfl

end Accepted

/-- **Compiled programs mean their trees.**

For every tree that compiles, the program runs without a fault on every dimension, coordinates
and inputs, with the stack pointer between the operands of the next instruction and the recorded
stack; and `eval_checked` returns the value of the tree, or fails closed when the tree refers to
an axis that is not there.  The postfix compiler accepts a token list exactly when it is the word
of a well-typed tree within the limits, and it is then the word of no other one.

**Proof sketch.**  The compiler is inverted once (`compileAnalyticExpression_inv`,
`compileAnalyticPostfix_inv`); both halves read off what it has checked. -/
theorem compiled_program_means_tree :
    (∀ (root : AnalyticNode R) (limits : AnalyticLimits) (program : AnalyticProgram R),
      compileAnalyticExpression root limits = .ok program →
        program.requiredStack ≤ kAnalyticMaxStack ∧
        ∀ (d : ℕ) (env : Surroundings R d),
          (dimensionOf root.flatten ≤ d → evalChecked program env = .ok (evaluate env root)) ∧
          (d < dimensionOf root.flatten →
            evalChecked program env = .ok ⟨RealArithmetic.nan, false⟩) ∧
          ∀ k ≤ program.instructions.length, ∃ s,
            executeAll program.literals env MachineState.start (program.instructions.take k) =
              .ok s ∧
            s.sp ≤ program.requiredStack ∧
            ∀ instruction, program.instructions[k]? = some instruction →
              instruction.op.operands ≤ s.sp) ∧
    ∀ (tokens : List (AnalyticToken R)) (limits : AnalyticLimits),
      (∃ program, compileAnalyticPostfix tokens limits = .ok program) ↔
        limits.Valid ∧ tokens.length ≤ limits.maxNodes ∧
          ∃ t : AnalyticNode R, t.flatten = tokens ∧ (∃ type, HasType t type) ∧ Fits limits t ∧
            ∀ u : AnalyticNode R, (∃ type, HasType u type) → u.flatten = tokens → u = t := by
  refine ⟨fun root limits program hprogram => ?_, fun tokens limits => ⟨?_, ?_⟩⟩
  · have h := compileAnalyticExpression_inv hprogram
    refine ⟨h.stack_le, fun d env => ⟨fun hd => ?_, fun hd => ?_, fun k _ => h.run_prefix env k⟩⟩
    · exact h.evalChecked_eq env (by rw [h.dimension]; exact hd)
    · rw [← h.dimension] at hd
      exact if_pos hd
  · rintro ⟨program, hprogram⟩
    obtain ⟨t, ht⟩ := compileAnalyticPostfix_inv hprogram
    refine ⟨ht.limits_valid, ht.size, t, ht.word, ⟨_, ht.type⟩, ht.fits, ?_⟩
    rintro u ⟨type, hu⟩ hword
    exact Tree.flatten_injective hu.ranked ht.type.ranked (hword.trans ht.word.symm)
  · rintro ⟨hvalid, hsize, t, rfl, ⟨type, htype⟩, hfits, -⟩
    obtain ⟨program, hprogram, -⟩ := compileAnalyticPostfix_total hvalid htype hfits hsize
    exact ⟨program, hprogram⟩

/-! ## A concrete arithmetic -/

/-- The integers among the floating-point numbers; `none` is every value that is not finite. -/
abbrev IntegerReal := Option ℤ

/-- A binary operation on the finite values. -/
def lift₂ (f : ℤ → ℤ → ℤ) : IntegerReal → IntegerReal → IntegerReal
  | some a, some b => some (f a b)
  | _, _ => none

/-- A comparison, false as soon as an operand is not a number. -/
def compare₂ (p : ℤ → ℤ → Bool) : IntegerReal → IntegerReal → Bool
  | some a, some b => p a b
  | _, _ => false

/-- Exact arithmetic on the integers; an operation that leaves them returns no number. -/
instance : RealArithmetic IntegerReal where
  zero := some 0
  one := some 1
  nan := none
  isFinite v := v.isSome
  lt := compare₂ fun a b => decide (a < b)
  le := compare₂ fun a b => decide (a ≤ b)
  eq := compare₂ fun a b => decide (a = b)
  floor v := v
  ofNat n := some n
  toUInt32 v := (v.getD 0).toNat
  add := lift₂ (· + ·)
  sub := lift₂ (· - ·)
  mul := lift₂ (· * ·)
  div _ _ := none
  pow _ _ := none
  atan2 _ _ := none
  hypot _ _ := none
  fmin := lift₂ min
  fmax := lift₂ max
  neg v := v.map (-·)
  sqrt _ := none
  fabs v := v.map abs
  sin _ := none
  cos _ := none
  exp _ := none
  erf _ := none
  erfc _ := none
  log _ := none
  ofNat_zero := rfl
  isFinite_zero := rfl
  isFinite_one := rfl
  eq_zero := rfl
  isFinite_ofNat _ _ := rfl
  lt_ofNat_zero n _ := by simp [compare₂]
  eq_floor_ofNat n _ := by simp [compare₂]
  lt_max_ofNat n hn := by
    simp only [compare₂, decide_eq_false_iff_not, not_lt]
    omega

/-- The tree `where(x < 1, 5, y)`. -/
def guardedPlane : AnalyticNode IntegerReal :=
  .node ⟨.select, some 0⟩
    [.node ⟨.lt, some 0⟩ [.node ⟨.x, some 0⟩ [], .node ⟨.constant, some 1⟩ []],
      .node ⟨.constant, some 5⟩ [], .node ⟨.y, some 0⟩ []]

/-- The program of `where(x < 1, 5, y)`. -/
def guardedPlaneProgram : AnalyticProgram IntegerReal :=
  ⟨[⟨0, .x⟩, ⟨0, .constant⟩, ⟨0, .lt⟩, ⟨1, .constant⟩, ⟨0, .y⟩, ⟨0, .select⟩], [some 1, some 5], 3,
    2, .scalar⟩

/-- The point `x = 0` of the line. -/
def lineOrigin : Surroundings IntegerReal 1 := ⟨fun _ => some 0, []⟩

/-- On the plane the program of `where(x < 1, 5, y)` returns the chosen branch. -/
theorem compiled_guardedPlane :
    compileAnalyticExpression guardedPlane {} = .ok guardedPlaneProgram ∧
      evalChecked guardedPlaneProgram (⟨fun _ => some 0, []⟩ : Surroundings IntegerReal 2) =
        .ok ⟨some 5, true⟩ := by
  have hcompile : compileAnalyticExpression guardedPlane {} = .ok guardedPlaneProgram := rfl
  refine ⟨hcompile, ?_⟩
  exact ((compiled_program_means_tree.1 guardedPlane {} guardedPlaneProgram hcompile).2 2 _).1
    (by decide)

/-- On the line the same program fails closed, although the tree selects a branch that does not
refer to the missing axis and has the valid value `5` there. -/
theorem compiled_guardedPlane_fails_closed :
    ∃ program, compileAnalyticExpression guardedPlane {} = .ok program ∧
      evalChecked program lineOrigin = .ok ⟨none, false⟩ ∧
      evaluate lineOrigin guardedPlane = ⟨some 5, true⟩ ∧
      evalChecked program lineOrigin ≠ .ok (evaluate lineOrigin guardedPlane) := by
  refine ⟨guardedPlaneProgram, rfl, rfl, rfl, ?_⟩
  have hprogram : evalChecked guardedPlaneProgram lineOrigin = .ok ⟨none, false⟩ := rfl
  have htree : evaluate lineOrigin guardedPlane = ⟨some 5, true⟩ := rfl
  rw [hprogram, htree]
  simp

end Pops.Analytic
