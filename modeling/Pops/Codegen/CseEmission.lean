import Pops.Codegen.CppWriter

/-!
# The emitted code computes the expressions

An expression has a value in an environment for its variables, where operators may be undefined and
the right operand of `&&` and `||` has to have a value only when the left one does not decide.  The
emitted code computes exactly these values, and fails exactly when one of them is missing: it shares
subexpressions, but it never computes one that the expression does not need, nor skips one that it
needs.

## Main definitions

* `Pops.Codegen.value` — the value of an expression.
* `Pops.Codegen.Holds` — a store holds the variables and the locals.
* `Pops.Codegen.Emitted.run` — the run of emitted code.

## Main results

* `Pops.Codegen.localName_injective` — the names of the locals are different.
* `Pops.Codegen.render_spec`, `emitLines_spec`, `emitScope_spec` — what an expression, the lines and
  a scope compute.
* `Pops.Codegen.cseEmit_preserves` — the emission preserves values and laziness.
-/

namespace Pops

namespace Codegen

open Ir.Dag
open HashConsing (Rose)
open ScopedCode

/-! ## Names of locals -/

/-- A number in front of an underscore can be read back. -/
lemma digits_injective {m n : ℕ} {rest others : List Char}
    (h : (Nat.repr m).toList ++ '_' :: rest = (Nat.repr n).toList ++ '_' :: others) :
    m = n ∧ rest = others := by
  rw [Nat.toList_repr, Nat.toList_repr] at h
  have htake : ∀ (k : ℕ) (tail : List Char),
      (Nat.toDigits 10 k ++ '_' :: tail).takeWhile Char.isDigit = Nat.toDigits 10 k := by
    intro k tail
    rw [List.takeWhile_append_of_pos fun c hc =>
      Nat.isDigit_of_mem_toDigits (by decide) (by decide) hc,
        List.takeWhile_cons_of_neg (by decide),
      List.append_nil]
  have hdigits := congrArg (List.takeWhile Char.isDigit) h
  rw [htake, htake] at hdigits
  refine ⟨?_, ?_⟩
  · rw [← Nat.ofDigitChars_ten_toDigits (n := m), hdigits, Nat.ofDigitChars_ten_toDigits]
  · rw [hdigits] at h
    exact (List.cons.inj (List.append_cancel_left h)).2

/-- Two locals have different names. -/
theorem localName_injective {scope scope' : Option ℕ} {i j : ℕ}
    (h : localName scope i = localName scope' j) : scope = scope' ∧ i = j := by
  have htext := congrArg String.toList h
  cases scope with
  | none =>
    cases scope' with
    | none =>
      simp only [localName, String.toList_append, List.append_assoc] at htext
      exact ⟨rfl, (digits_injective (List.append_cancel_left htext)).1⟩
    | some g => simp [localName, String.toList_append] at htext
  | some g =>
    cases scope' with
    | none => simp [localName, String.toList_append] at htext
    | some g' =>
      simp only [localName, String.toList_append, List.append_assoc] at htext
      obtain ⟨rfl, hrest⟩ := digits_injective (List.append_cancel_left htext)
      exact ⟨rfl, (digits_injective (List.append_cancel_left hrest)).1⟩

/-- A name that starts with neither `c` nor `g` is not that of a local. -/
lemma ne_localName {name : String} (hc : name.toList.head? ≠ some 'c')
    (hg : name.toList.head? ≠ some 'g') (scope : Option ℕ) (i : ℕ) : name ≠ localName scope i := by
  rintro rfl
  cases scope with
  | none => exact hc (by simp [localName, String.toList_append])
  | some g => exact hg (by simp [localName, String.toList_append])

/-! ## Values -/

section Value

variable {V : Type} (M : Meaning Leaf Operation V) (env : String → String → Option V)

mutual

/-- The value of an expression: the right operand of `&&` and `||` has to have a value only when the
left one does not decide. -/
def value : Node → Option V
  | .const _ literal _ => some (M.leaf (.const literal))
  | .runtimeParamRef _ name _ _ _ => some (M.leaf (.param name))
  | .var _ kind name => env kind name
  | .unary _ op a => (value a).bind fun x => M.op (.unary op) (operands op x)
  | .bin _ op a b =>
    match conjunctive op with
    | some c => (value a).bind fun x => M.guard c x (value b)
    | none => (value a).bind fun x => (value b).bind fun y => M.op (.bin op) [x, y]
  | .eigWitness _ witness entries => (values entries).bind (M.op (.eig witness))
  | .stateRef _ _ _ => none

/-- The values of expressions. -/
def values : List Node → Option (List V)
  | [] => some []
  | n :: rest => (value n).bind fun v => (values rest).map fun vs => v :: vs

end

mutual

/-- The value of a tree. -/
def shapeValue : Rose Head → Option V
  | .node (.const literal _) _ => some (M.leaf (.const literal))
  | .node (.runtimeParam name) _ => some (M.leaf (.param name))
  | .node (.var kind name) _ => env kind name
  | .node (.unary op) [a] => (shapeValue a).bind fun x => M.op (.unary op) (operands op x)
  | .node (.bin op) [a, b] =>
    match conjunctive op with
    | some c => (shapeValue a).bind fun x => M.guard c x (shapeValue b)
    | none => (shapeValue a).bind fun x => (shapeValue b).bind fun y => M.op (.bin op) [x, y]
  | .node (.eig witness) entries => (shapeValues entries).bind (M.op (.eig witness))
  | _ => none

/-- The values of trees. -/
def shapeValues : List (Rose Head) → Option (List V)
  | [] => some []
  | t :: rest => (shapeValue t).bind fun v => (shapeValues rest).map fun vs => v :: vs

end

mutual

/-- The value of an expression is that of its tree. -/
lemma value_eq_shapeValue : ∀ n : Node, value M env n = shapeValue M env n.shape
  | .const _ _ _ => rfl
  | .runtimeParamRef _ _ _ _ _ => rfl
  | .var _ _ _ => rfl
  | .unary _ op a => by
    have ha := value_eq_shapeValue a
    simp only [Node.shape] at ha ⊢
    simp only [value, Node.object, HashConsing.Shared.tree, HashConsing.trees, shapeValue, ha]
  | .bin _ op a b => by
    have ha := value_eq_shapeValue a
    have hb := value_eq_shapeValue b
    simp only [Node.shape] at ha hb ⊢
    simp only [value, Node.object, HashConsing.Shared.tree, HashConsing.trees, shapeValue, ha, hb]
  | .eigWitness _ witness entries => by
    have hentries := values_eq_shapeValues entries
    simp only [Node.shape, value, Node.object, HashConsing.Shared.tree, shapeValue, hentries]
  | .stateRef _ _ _ => rfl

/-- The values of expressions are those of their trees. -/
lemma values_eq_shapeValues : ∀ nodes : List Node,
    values M env nodes = shapeValues M env (HashConsing.trees (objects nodes))
  | [] => rfl
  | n :: rest => by
    have hn := value_eq_shapeValue n
    have hrest := values_eq_shapeValues rest
    simp only [Node.shape] at hn
    simp only [values, objects, HashConsing.trees, shapeValues, hn, hrest]

end

/-- Expressions with one key have one value. -/
lemma value_of_memoKey {roots : Roots} {n m : Node} (hn : n ∈ partsOf roots.nodes)
    (hm : m ∈ partsOf roots.nodes) (h : memoKey roots n = memoKey roots m) :
    value M env n = value M env m := by
  obtain ⟨i, hi⟩ := exists_nodeId roots hn
  obtain ⟨j, hj⟩ := exists_nodeId roots hm
  have hid : nodeId roots n = nodeId roots m := by
    simp only [memoKey, hi, hj, Option.getD_some] at h
    rw [hi, hj, h]
  rw [value_eq_shapeValue, value_eq_shapeValue, (nodeId_eq_iff roots hn hm).mp hid]

/-! ### Parts that are always needed -/

mutual

/-- An expression and what is below it, without what is only in right operands of `&&` and `||`. -/
def unguarded : Node → List Node
  | .unary id op a => .unary id op a :: unguarded a
  | .bin id op a b => .bin id op a b ::
      (if (conjunctive op).isSome then unguarded a else unguarded a ++ unguarded b)
  | .eigWitness id witness entries => .eigWitness id witness entries :: unguardeds entries
  | .stateRef id side expr => .stateRef id side expr :: unguarded expr
  | n => [n]

/-- The same for expressions. -/
def unguardeds : List Node → List Node
  | [] => []
  | n :: rest => unguarded n ++ unguardeds rest

end

mutual

/-- Always needed parts are parts. -/
lemma unguarded_subset : ∀ n : Node, unguarded n ⊆ n.parts
  | .const _ _ _ => List.Subset.refl _
  | .runtimeParamRef _ _ _ _ _ => List.Subset.refl _
  | .var _ _ _ => List.Subset.refl _
  | .unary id op a => List.cons_subset_cons _ (unguarded_subset a)
  | .bin id op a b => by
    rw [unguarded, Node.parts]
    refine List.cons_subset_cons _ ?_
    split_ifs
    · exact List.subset_append_of_subset_left _ (unguarded_subset a)
    · exact List.append_subset.mpr ⟨List.subset_append_of_subset_left _ (unguarded_subset a),
        List.subset_append_of_subset_right _ (unguarded_subset b)⟩
  | .eigWitness id witness entries => List.cons_subset_cons _ (unguardeds_subset entries)
  | .stateRef id side expr => List.cons_subset_cons _ (unguarded_subset expr)

/-- The same for expressions. -/
lemma unguardeds_subset : ∀ nodes : List Node, unguardeds nodes ⊆ partsOf nodes
  | [] => List.Subset.refl _
  | n :: rest => List.append_subset.mpr ⟨List.subset_append_of_subset_left _ (unguarded_subset n),
      List.subset_append_of_subset_right _ (unguardeds_subset rest)⟩

end

mutual

/-- An expression has no value when an always needed part has none. -/
lemma value_eq_none {m : Node} (hm : value M env m = none) :
    ∀ {n : Node}, m ∈ unguarded n → value M env n = none
  | .const _ _ _, h => by rwa [← List.mem_singleton.mp h]
  | .runtimeParamRef _ _ _ _ _, h => by rwa [← List.mem_singleton.mp h]
  | .var _ _ _, h => by rwa [← List.mem_singleton.mp h]
  | .unary id op a, h => by
    rcases List.mem_cons.mp h with rfl | h
    · exact hm
    · rw [value, value_eq_none hm h, Option.bind_none]
  | .bin id op a b, h => by
    rcases List.mem_cons.mp h with rfl | h
    · exact hm
    · rw [value]
      cases hop : conjunctive op with
      | some c =>
        rw [hop, Option.isSome_some, if_pos rfl] at h
        simp only [value_eq_none hm h, Option.bind_none]
      | none =>
        rw [hop, Option.isSome_none, if_neg (by simp)] at h
        rcases List.mem_append.mp h with h | h
        · simp only [value_eq_none hm h, Option.bind_none]
        · simp only [value_eq_none hm h, Option.bind_none, Option.bind_fun_none]
  | .eigWitness id witness entries, h => by
    rcases List.mem_cons.mp h with rfl | h
    · exact hm
    · rw [value, values_eq_none hm h, Option.bind_none]
  | .stateRef _ _ _, _ => rfl

/-- Expressions have no values when an always needed part of one has none. -/
lemma values_eq_none {m : Node} (hm : value M env m = none) :
    ∀ {nodes : List Node}, m ∈ unguardeds nodes → values M env nodes = none
  | [], h => by cases h
  | n :: rest, h => by
    rw [values]
    rcases List.mem_append.mp h with h | h
    · rw [value_eq_none hm h, Option.bind_none]
    · rw [values_eq_none hm h]
      simp

end

end Value

/-! ## The tables of a scope -/

section Visit

variable {key : Node → ℕ} {inherited : CseMap}

/-- Tables after a visit of expressions: the entries that were there are kept, and every new one is
an always needed part under its own key. -/
structure Entered (key : Node → ℕ) (parts : List Node) (before after : Tables) : Prop where
  kept : ∀ k m, before.rep.lookup k = some m → after.rep.lookup k = some m
  new : ∀ k m, after.rep.lookup k = some m → before.rep.lookup k = some m ∨ key m = k ∧ m ∈ parts

/-- Nothing is entered. -/
lemma Entered.refl (parts : List Node) (tables : Tables) : Entered key parts tables tables :=
  ⟨fun _ _ h => h, fun _ _ h => .inl h⟩

/-- Two visits one after the other. -/
theorem Entered.trans {parts others all : List Node} {before middle after : Tables}
    (h : Entered key parts before middle) (h' : Entered key others middle after)
    (hparts : parts ⊆ all) (hothers : others ⊆ all) : Entered key all before after where
  kept k m hm := h'.kept k m (h.kept k m hm)
  new k m hm := by
    rcases h'.new k m hm with hmiddle | ⟨hk, hmem⟩
    · exact (h.new k m hmiddle).imp_right fun h => ⟨h.1, hparts h.2⟩
    · exact .inr ⟨hk, hothers hmem⟩

/-- An entry with a key that is there or not. -/
lemma lookup_enter (tables : Tables) (k : ℕ) (e : Node) (s : ℕ) (k' : ℕ) :
    (tables.enter k e s).rep.lookup k' =
      (tables.rep.lookup k').or (if k' = k then some e else none) := by
  unfold Tables.enter
  cases hk : tables.rep.lookup k with
  | some m =>
    simp only [Option.isSome_some, if_true]
    by_cases hkk : k' = k
    · rw [hkk, hk]
      rfl
    · simp [hkk]
  | none =>
    simp only [Option.isSome_none, Bool.false_eq_true, if_false, List.lookup_append,
      List.lookup_cons, List.lookup_nil]
    by_cases hkk : k' = k
    · simp [hkk]
    · simp [hkk, beq_false_of_ne hkk]

/-- An expression is entered under its key. -/
lemma entered_enter {parts : List Node} {n : Node} (tables : Tables) (s : ℕ) (hn : n ∈ parts) :
    Entered key parts tables (tables.enter (key n) n s) ∧
      ∃ m, (tables.enter (key n) n s).rep.lookup (key n) = some m := by
  refine ⟨⟨fun k m hm => by rw [lookup_enter, hm]; rfl, fun k m hm => ?_⟩, ?_⟩
  · rw [lookup_enter] at hm
    cases hk : tables.rep.lookup k with
    | some m' =>
      rw [hk] at hm
      exact .inl hm
    | none =>
      rw [hk, Option.none_or] at hm
      split_ifs at hm with hkey
      obtain rfl := Option.some.inj hm
      exact .inr ⟨hkey.symm, hn⟩
  · rw [lookup_enter, if_pos rfl]
    cases tables.rep.lookup (key n) with
    | some m => exact ⟨m, rfl⟩
    | none => exact ⟨n, rfl⟩

/-- The keys of the counts of two expressions together. -/
lemma mem_addCount {counts : List (ℕ × ℕ)} {k c : ℕ} {entry : ℕ × ℕ}
    (h : entry ∈ addCount counts k c) : entry.1 = k ∨ ∃ old ∈ counts, old.1 = entry.1 := by
  induction counts with
  | nil => exact .inl (by rw [List.mem_singleton.mp h])
  | cons first rest ih =>
    unfold addCount at h
    split_ifs at h with hk
    · rcases List.mem_cons.mp h with rfl | h
      · exact .inl hk
      · exact .inr ⟨entry, by simp [h], rfl⟩
    · rcases List.mem_cons.mp h with rfl | h
      · exact .inr ⟨_, List.mem_cons_self, rfl⟩
      · exact (ih h).imp_right fun ⟨old, hold, heq⟩ => ⟨old, by simp [hold], heq⟩

/-- The keys of counts together. -/
lemma mem_addCounts {counts others : List (ℕ × ℕ)} {entry : ℕ × ℕ}
    (h : entry ∈ addCounts counts others) : ∃ old ∈ counts ++ others, old.1 = entry.1 := by
  induction others generalizing counts with
  | nil => exact ⟨entry, by simpa [addCounts] using h, rfl⟩
  | cons first rest ih =>
    rw [addCounts, List.foldl_cons] at h
    obtain ⟨old, hold, heq⟩ := ih h
    rcases List.mem_append.mp hold with hold | hold
    · rcases mem_addCount hold with hk | ⟨older, holder, hk⟩
      · exact ⟨first, by simp, hk.symm.trans heq⟩
      · exact ⟨older, by simp [holder], hk.trans heq⟩
    · exact ⟨old, by simp [hold], heq⟩

/-- What a visit leaves behind: entries of always needed parts, one for every counted key. -/
structure Visited (key : Node → ℕ) (parts : List Node) (before : Tables)
    (result : (ℕ × List (ℕ × ℕ)) × Tables) : Prop where
  entered : Entered key parts before result.2
  counted : ∀ entry ∈ result.1.2, ∃ m, result.2.rep.lookup entry.1 = some m

/-- Nothing is visited. -/
lemma Visited.nothing (parts : List Node) (tables : Tables) (s : ℕ) :
    Visited key parts tables ((s, []), tables) :=
  ⟨Entered.refl parts tables, by simp⟩

/-- Two visits one after the other. -/
lemma Visited.together {parts others all : List Node} {before : Tables}
    {first second : (ℕ × List (ℕ × ℕ)) × Tables} (h : Visited key parts before first)
    (h' : Visited key others first.2 second) (hparts : parts ⊆ all) (hothers : others ⊆ all) :
    Visited key all before (together first.1 second.1, second.2) where
  entered := h.entered.trans h'.entered hparts hothers
  counted entry hentry := by
    obtain ⟨old, hold, hk⟩ := mem_addCounts hentry
    rw [← hk]
    rcases List.mem_append.mp hold with hold | hold
    · obtain ⟨m, hm⟩ := h.counted old hold
      exact ⟨m, h'.entered.kept _ m hm⟩
    · exact h'.counted old hold

/-- An expression with its visited children. -/
lemma visited_counted {n : Node} {parts below : List Node} {before : Tables}
    {children : (ℕ × List (ℕ × ℕ)) × Tables} (h : Visited key below before children)
    (hn : n ∈ parts) (hbelow : below ⊆ parts) :
    Visited key parts before (counted key inherited n before children) := by
  unfold counted
  split_ifs
  · exact Visited.nothing parts before 1
  · obtain ⟨henter, hself⟩ := entered_enter children.2 _ hn
    refine ⟨h.entered.trans henter hbelow (List.Subset.refl _), fun entry hentry => ?_⟩
    rcases mem_addCount hentry with hk | ⟨old, hold, hk⟩
    · rw [hk]
      exact hself
    · obtain ⟨m, hm⟩ := h.counted old hold
      rw [← hk]
      exact ⟨m, henter.kept _ m hm⟩

mutual

/-- A visit enters always needed parts only. -/
theorem visit_spec : ∀ (n : Node) (tables : Tables),
    Visited key (unguarded n) tables (visit key inherited n tables)
  | .const _ _ _, tables => Visited.nothing _ tables 1
  | .var _ _ _, tables => Visited.nothing _ tables 1
  | .runtimeParamRef _ _ _ _ _, tables =>
    visited_counted (Visited.nothing [] tables 0) (by simp [unguarded]) (by simp)
  | .unary id op a, tables =>
    visited_counted (visit_spec a tables) List.mem_cons_self (List.subset_cons_self _ _)
  | .bin id op a b, tables => by
    rw [visit]
    have ha := visit_spec a tables
    have hb := visit_spec b (visit key inherited a tables).2
    by_cases hop : (conjunctive op).isSome
    · simp only [hop, if_true]
      exact visited_counted ha (by rw [unguarded]; exact List.mem_cons_self)
        (by rw [unguarded, if_pos hop]; exact List.subset_cons_self _ _)
    · have hboth := ha.together hb (List.subset_append_left (unguarded a) (unguarded b))
        (List.subset_append_right _ _)
      simp only [hop]
      exact visited_counted hboth (by rw [unguarded]; exact List.mem_cons_self)
        (by rw [unguarded, if_neg hop]; exact List.subset_cons_self _ _)
  | .eigWitness id witness entries, tables =>
    visited_counted (visits_spec entries tables) List.mem_cons_self (List.subset_cons_self _ _)
  | .stateRef id side expr, tables =>
    visited_counted (visit_spec expr tables) List.mem_cons_self (List.subset_cons_self _ _)

/-- Visits one after the other. -/
lemma visits_spec : ∀ (nodes : List Node) (tables : Tables),
    Visited key (unguardeds nodes) tables (visits key inherited nodes tables)
  | [], tables => Visited.nothing _ tables 0
  | n :: rest, tables =>
    (visit_spec n tables).together (visits_spec rest _) (List.subset_append_left _ _)
      (List.subset_append_right _ _)

end

/-- The candidates are counted keys. -/
lemma mem_candidates {flags : EmitFlags} {counts : List (ℕ × ℕ)} {tables : Tables} {k : ℕ}
    (h : k ∈ candidates flags counts tables) : ∃ entry ∈ counts, entry.1 = k := by
  rw [candidates, (List.perm_insertionSort _ _).mem_iff, List.mem_map] at h
  obtain ⟨entry, hentry, rfl⟩ := h
  exact ⟨entry, (List.mem_filter.mp hentry).1, rfl⟩

end Visit

/-! ## Stores -/

/-- The emission went on: later lambdas have larger numbers, and names of locals were declared. -/
structure Later (before after : Emission) : Prop where
  scope : before.nextScope ≤ after.nextScope
  declared : before.declarations ⊆ after.declarations
  new : ∀ name ∈ after.declarations,
    name ∈ before.declarations ∨ ∃ scope i, name = localName scope i

/-- Nothing was emitted. -/
lemma Later.refl (state : Emission) : Later state state :=
  ⟨le_rfl, List.Subset.refl _, fun _ h => .inl h⟩

/-- One emission after the other. -/
theorem Later.trans {before middle after : Emission} (h : Later before middle)
    (h' : Later middle after) : Later before after where
  scope := h.scope.trans h'.scope
  declared := List.Subset.trans h.declared h'.declared
  new name hname := (h'.new name hname).elim (h.new name) .inr

/-- The locals of a map have names of locals of lambdas that were already emitted. -/
def Known (next : ℕ) (cseMap : CseMap) : Prop :=
  ∀ entry ∈ cseMap, ∃ scope i, entry.2 = localName scope i ∧ ∀ g, scope = some g → g ≤ next

/-- Later, the locals are still known. -/
lemma Known.mono {next later : ℕ} {cseMap : CseMap} (h : Known next cseMap) (hle : next ≤ later) :
    Known later cseMap := by
  intro entry hentry
  obtain ⟨scope, i, hname, hscope⟩ := h entry hentry
  exact ⟨scope, i, hname, fun g hg => (hscope g hg).trans hle⟩

section Run

variable {roots : Roots} {V : Type} {M : Meaning Leaf Operation V} {env : String →
  String → Option V}
  {hoisted : List String}

/-- A store holds the variables and the locals of a map, and has the names that are declared in
front of everything. -/
structure Holds (roots : Roots) (M : Meaning Leaf Operation V) (env : String → String → Option V)
    (hoisted : List String) (cseMap : CseMap) (σ : String → Option V) : Prop where
  locals : ∀ entry ∈ cseMap, ∀ n ∈ partsOf roots.nodes, memoKey roots n = entry.1 →
    σ entry.2 = value M env n
  vars : ∀ id kind name, .var id kind name ∈ partsOf roots.nodes →
    σ (cppIdentifier name) = env kind name
  declared : ∀ name ∈ hoisted, (σ name).isSome

/-- The variables below the roots have no names of locals. -/
def NoClash (roots : Roots) : Prop :=
  ∀ id kind name, .var id kind name ∈ partsOf roots.nodes →
    ∀ scope i, cppIdentifier name ≠ localName scope i

/-- A new local that gets the value of its expression. -/
lemma Holds.enter {cseMap : CseMap} {σ : String → Option V}
    (h : Holds roots M env hoisted cseMap σ) (hclash : NoClash roots) {scope : Option ℕ} {i : ℕ}
    (hnew : ∀ entry ∈ cseMap, entry.2 ≠ localName scope i) {n : Node}
    (hn : n ∈ partsOf roots.nodes) {x : V} (hx : value M env n = some x) :
    Holds roots M env hoisted ((memoKey roots n, localName scope i) :: cseMap)
      (Function.update σ (localName scope i) (some x)) where
  locals entry hentry m hm hkey := by
    rcases List.mem_cons.mp hentry with rfl | hentry
    · rw [Function.update_self, ← hx]
      exact value_of_memoKey M env hn hm hkey.symm
    · rw [Function.update_of_ne (hnew entry hentry)]
      exact h.locals entry hentry m hm hkey
  vars id kind name hvar := by
    rw [Function.update_of_ne (hclash id kind name hvar scope i)]
    exact h.vars id kind name hvar
  declared name hname := by
    by_cases heq : name = localName scope i
    · rw [heq, Function.update_self]
      rfl
    · rw [Function.update_of_ne heq]
      exact h.declared name hname

/-- Behind the block of a local its name has the old value. -/
lemma Holds.leave {cseMap : CseMap} {σ τ : String → Option V}
    (h : Holds roots M env hoisted cseMap σ) (hclash : NoClash roots) {scope : Option ℕ} {i k : ℕ}
    (hnew : ∀ entry ∈ cseMap, entry.2 ≠ localName scope i)
    (hτ : Holds roots M env hoisted ((k, localName scope i) :: cseMap) τ) :
    Holds roots M env hoisted cseMap
      (Function.update τ (localName scope i) (σ (localName scope i))) where
  locals entry hentry m hm hkey := by
    rw [Function.update_of_ne (hnew entry hentry)]
    exact hτ.locals entry (List.mem_cons_of_mem _ hentry) m hm hkey
  vars id kind name hvar := by
    rw [Function.update_of_ne (hclash id kind name hvar scope i)]
    exact hτ.vars id kind name hvar
  declared name hname := by
    by_cases heq : name = localName scope i
    · rw [heq, Function.update_self]
      exact h.declared _ (heq ▸ hname)
    · rw [Function.update_of_ne heq]
      exact hτ.declared name hname

/-- A store holds fewer locals. -/
lemma Holds.tail {cseMap : CseMap} {entry : ℕ × String} {σ : String → Option V}
    (h : Holds roots M env hoisted (entry :: cseMap) σ) : Holds roots M env hoisted cseMap σ :=
  ⟨fun other hother => h.locals other (List.mem_cons_of_mem _ hother), h.vars, h.declared⟩

/-! ## Expressions over locals -/

variable (roots M env hoisted) in
/-- What is asked of the emission of right operands: a lambda that computes the operand. -/
def GuardedSpec (guarded : Guarded) : Prop :=
  ∀ {right : Node} {cseMap : CseMap} {state after : Emission} {c : Cpp},
    right ∈ partsOf roots.nodes → Known state.nextScope cseMap →
    guarded right cseMap state = .ok (c, after) → Later state after ∧
      (after.declarations ⊆ hoisted →
        Realizes M (Holds roots M env hoisted cseMap) c (value M env right))

variable {spelling : Spelling} {guarded : Guarded} {cseMap : CseMap}

/-- A local that holds the expression, or its expansion. -/
lemma localOr_spec {whole : Bool} {n : Node} (hn : n ∈ partsOf roots.nodes)
    {state after : Emission} {c : Cpp} {expansion : Raises (Cpp × Emission)}
    (hexpansion : expansion = .ok (c, after) → Later state after ∧ (after.declarations ⊆ hoisted →
      Realizes M (Holds roots M env hoisted cseMap) c (value M env n)))
    (h : localOr cseMap whole (memoKey roots n) state expansion = .ok (c, after)) :
    Later state after ∧ (after.declarations ⊆ hoisted →
      Realizes M (Holds roots M env hoisted cseMap) c (value M env n)) := by
  unfold localOr at h
  split at h
  case h_2 => exact hexpansion h
  case h_1 name hname =>
    obtain ⟨rfl, rfl⟩ := Prod.mk.inj (Except.ok.inj h)
    refine ⟨Later.refl state, fun _ => realizes_read fun σ hσ => ?_⟩
    have hlookup : cseMap.lookup (memoKey roots n) = some name := by
      cases whole with
      | false => simpa using hname
      | true => simp at hname
    have hmem : (memoKey roots n, name) ∈ cseMap := by
      obtain ⟨front, back, rfl, -⟩ := List.lookup_eq_some_iff.mp hlookup
      simp
    exact hσ.locals _ hmem n hn rfl

/-- The operands of a unary operator. -/
lemma realizesAll_operands {Good : (String → Option V) → Prop} {c : Cpp} {x : Option V}
    (op : Unary) (h : Realizes M Good c x) :
    RealizesAll M Good (operands op c) (x.map fun v => operands op v) := by
  unfold operands
  split_ifs
  · have hboth := realizesAll_cons h (realizesAll_cons h realizesAll_nil)
    cases x <;> simpa using hboth
  · have hone := realizesAll_cons h realizesAll_nil
    cases x <;> simpa using hone

mutual

/-- **An expression over locals computes the value of the expression.** -/
theorem render_spec (hguarded : GuardedSpec roots M env hoisted guarded) {whole : Bool} :
    ∀ {n : Node} {state after : Emission} {c : Cpp}, n.parts ⊆ partsOf roots.nodes →
      Known state.nextScope cseMap →
      render spelling (memoKey roots) guarded cseMap whole n state = .ok (c, after) →
      Later state after ∧ (after.declarations ⊆ hoisted →
        Realizes M (Holds roots M env hoisted cseMap) c (value M env n))
  | .const id literal handle, state, after, c, hparts, _, h =>
    localOr_spec (hparts (self_mem_parts _)) (fun hexpansion => by
      simp only [bind_eq_ok, Except.ok.injEq, Prod.mk.injEq] at hexpansion
      obtain ⟨_, _, rfl, rfl⟩ := hexpansion
      exact ⟨Later.refl _, fun _ => realizes_leaf _⟩) h
  | .runtimeParamRef id name literal handle dtype, state, after, c, hparts, _, h =>
    localOr_spec (hparts (self_mem_parts _)) (fun hexpansion => by
      simp only [bind_eq_ok, Except.ok.injEq, Prod.mk.injEq] at hexpansion
      obtain ⟨_, _, rfl, rfl⟩ := hexpansion
      exact ⟨Later.refl _, fun _ => realizes_leaf _⟩) h
  | .var id kind name, state, after, c, hparts, _, h =>
    localOr_spec (hparts (self_mem_parts _)) (fun hexpansion => by
      obtain ⟨rfl, rfl⟩ := Prod.mk.inj (Except.ok.inj hexpansion)
      exact ⟨Later.refl _, fun _ =>
        realizes_read fun σ hσ => hσ.vars id kind name (hparts (self_mem_parts _))⟩) h
  | .unary id op a, state, after, c, hparts, hknown, h => by
    refine localOr_spec (hparts (self_mem_parts _)) (fun hexpansion => ?_) h
    simp only [bind_eq_ok, Except.ok.injEq, Prod.mk.injEq, Prod.exists] at hexpansion
    obtain ⟨s, middle, ha, rfl, rfl⟩ := hexpansion
    obtain ⟨hlater, hspec⟩ := render_spec hguarded
      (fun _ hx => hparts (List.mem_cons_of_mem _ hx)) hknown ha
    refine ⟨hlater, fun hdeclared => ?_⟩
    have hargs := realizes_op (o := .unary op) (realizesAll_operands op (hspec hdeclared))
    rw [value]
    rwa [Option.bind_map] at hargs
  | .bin id op a b, state, after, c, hparts, hknown, h => by
    have hleft : a.parts ⊆ partsOf roots.nodes := fun _ hx =>
      hparts (List.mem_cons_of_mem _ (List.mem_append_left _ hx))
    have hright : b.parts ⊆ partsOf roots.nodes := fun _ hx =>
      hparts (List.mem_cons_of_mem _ (List.mem_append_right _ hx))
    refine localOr_spec (hparts (self_mem_parts _)) (fun hexpansion => ?_) h
    cases hop : conjunctive op with
    | some flag =>
      simp only [hop, bind_eq_ok, Except.ok.injEq, Prod.mk.injEq, Prod.exists] at hexpansion
      obtain ⟨right, middle, hb, left, last, ha, rfl, rfl⟩ := hexpansion
      obtain ⟨hlater, hspec⟩ := hguarded (hright (self_mem_parts b)) hknown hb
      obtain ⟨hlater', hspec'⟩ := render_spec hguarded hleft (hknown.mono hlater.scope) ha
      refine ⟨hlater.trans hlater', fun hdeclared => ?_⟩
      simp only [value, hop]
      exact realizes_guard (hspec' hdeclared)
        (hspec (List.Subset.trans hlater'.declared hdeclared))
    | none =>
      simp only [hop, bind_eq_ok, Except.ok.injEq, Prod.mk.injEq, Prod.exists] at hexpansion
      obtain ⟨left, middle, ha, right, last, hb, rfl, rfl⟩ := hexpansion
      obtain ⟨hlater, hspec⟩ := render_spec hguarded hleft hknown ha
      obtain ⟨hlater', hspec'⟩ := render_spec hguarded hright (hknown.mono hlater.scope) hb
      refine ⟨hlater.trans hlater', fun hdeclared => ?_⟩
      have hargs := realizes_op (o := .bin op) (realizesAll_cons
        (hspec (List.Subset.trans hlater'.declared hdeclared))
        (realizesAll_cons (hspec' hdeclared) realizesAll_nil))
      simp only [value, hop]
      simpa [Option.bind_assoc, Option.bind_map, Function.comp_def] using hargs
  | .eigWitness id witness entries, state, after, c, hparts, hknown, h => by
    refine localOr_spec (hparts (self_mem_parts _)) (fun hexpansion => ?_) h
    simp only [bind_eq_ok, Except.ok.injEq, Prod.mk.injEq, Prod.exists] at hexpansion
    obtain ⟨args, middle, hentries, _, _, rfl, rfl⟩ := hexpansion
    obtain ⟨hlater, hspec⟩ := renders_spec hguarded
      (fun _ hx => hparts (List.mem_cons_of_mem _ hx)) hknown hentries
    exact ⟨hlater, fun hdeclared => realizes_op (hspec hdeclared)⟩
  | .stateRef id side expr, state, after, c, hparts, _, h => by
    rw [render] at h
    refine localOr_spec (hparts (self_mem_parts _)) (fun hexpansion => ?_) h
    cases hexpansion

/-- Expressions over locals compute the values of the expressions. -/
lemma renders_spec (hguarded : GuardedSpec roots M env hoisted guarded) :
    ∀ {nodes : List Node} {state after : Emission} {cs : List Cpp},
    partsOf nodes ⊆ partsOf roots.nodes →
      Known state.nextScope cseMap →
      renders spelling (memoKey roots) guarded cseMap nodes state = .ok (cs, after) →
      Later state after ∧ (after.declarations ⊆ hoisted →
        RealizesAll M (Holds roots M env hoisted cseMap) cs (values M env nodes))
  | [], state, after, cs, _, _, h => by
    obtain ⟨rfl, rfl⟩ := Prod.mk.inj (Except.ok.inj h)
    exact ⟨Later.refl _, fun _ => realizesAll_nil⟩
  | n :: rest, state, after, cs, hparts, hknown, h => by
    simp only [renders, bind_eq_ok, Except.ok.injEq, Prod.mk.injEq, Prod.exists] at h
    obtain ⟨c, middle, hn, others, last, hrest, rfl, rfl⟩ := h
    obtain ⟨hlater, hspec⟩ := render_spec hguarded
      (fun _ hx => hparts (List.mem_append_left _ hx)) hknown hn
    obtain ⟨hlater', hspec'⟩ := renders_spec hguarded
      (fun _ hx => hparts (List.mem_append_right _ hx)) (hknown.mono hlater.scope) hrest
    exact ⟨hlater.trans hlater', fun hdeclared => realizesAll_cons
      (hspec (List.Subset.trans hlater'.declared hdeclared)) (hspec' hdeclared)⟩

end

/-! ## Lines and scopes -/

/-- The locals of a map have names of locals that were already emitted, those of the scope itself
with smaller indices. -/
def Ahead (next : ℕ) (scope : Option ℕ) (i : ℕ) (cseMap : CseMap) : Prop :=
  ∀ entry ∈ cseMap, ∃ other j, entry.2 = localName other j ∧ (∀ g, other = some g → g ≤ next) ∧
    (other = scope → j < i)

/-- Such locals are known. -/
lemma Ahead.known {next : ℕ} {scope : Option ℕ} {i : ℕ} (h : Ahead next scope i cseMap) :
    Known next cseMap := by
  intro entry hentry
  obtain ⟨other, j, hname, hother, -⟩ := h entry hentry
  exact ⟨other, j, hname, hother⟩

/-- The next local of a scope has a new name. -/
lemma Ahead.ne {next : ℕ} {scope : Option ℕ} {i : ℕ} (h : Ahead next scope i cseMap) :
    ∀ entry ∈ cseMap, entry.2 ≠ localName scope i := by
  intro entry hentry heq
  obtain ⟨other, j, hname, -, hindex⟩ := h entry hentry
  obtain ⟨hscope, hij⟩ := localName_injective (hname.symm.trans heq)
  have := hindex hscope
  omega

/-- A local is announced. -/
lemma later_announce (state : Emission) (hoist : Bool) (scope : Option ℕ) (i : ℕ) :
    Later state (state.announce hoist (localName scope i)) := by
  cases hoist with
  | false => exact ⟨le_rfl, List.Subset.refl _, fun _ h => .inl h⟩
  | true =>
    refine ⟨le_rfl, List.subset_append_left _ _, fun name hname => ?_⟩
    rcases List.mem_append.mp hname with hname | hname
    · exact .inl hname
    · exact .inr ⟨scope, i, List.mem_singleton.mp hname⟩

/-- **The lines of a scope**: if the results are computed from the locals, the block of the lines
and the results computes them; when the expression of a line has no value, the block has none.

**Proof sketch.** Induction on the candidates.  A line computes its expression from the locals in
front of it (`render_spec`), and the rest of the block runs in a store that holds it. -/
theorem emitLines_spec (hclash : NoClash roots) (hguarded : GuardedSpec roots M env hoisted guarded)
    {flags : EmitFlags} {tables : Tables} {scope : Option ℕ} {parts : List Node}
    (htables : ∀ k m, tables.rep.lookup k = some m → memoKey roots m = k ∧ m ∈ parts)
    (hparts : parts ⊆ partsOf roots.nodes) {cand : List ℕ} :
    ∀ {i : ℕ} {cseMap : CseMap} {state : Emission} {lines : List Line} {locals : CseMap}
      {after : Emission}, Ahead state.nextScope scope i cseMap →
      (∀ g, scope = some g → g ≤ state.nextScope) →
      emitLines spelling (memoKey roots) flags guarded tables scope cand i cseMap state =
        .ok (lines, locals, after) →
      Later state after ∧ Known after.nextScope locals ∧
        ∀ {results : List Cpp} {xs : Option (List V)}, after.declarations ⊆ hoisted →
          (∀ m ∈ parts, value M env m = none → xs = none) →
          RealizesAll M (Holds roots M env hoisted locals) results xs →
          RealizesBody M (Holds roots M env hoisted cseMap) (scopeBody lines results) xs := by
  induction cand with
  | nil =>
    intro i cseMap state lines locals after hahead _ h
    simp only [emitLines, Except.ok.injEq, Prod.mk.injEq] at h
    obtain ⟨rfl, rfl, rfl⟩ := h
    exact ⟨Later.refl _, hahead.known, fun _ _ hresults => hresults⟩
  | cons k rest ih =>
    intro i cseMap state lines locals after hahead hscope h
    rw [emitLines] at h
    split at h
    case h_1 => cases h
    case h_2 m hm =>
      simp only [bind_eq_ok, Except.ok.injEq, Prod.mk.injEq, Prod.exists] at h
      obtain ⟨c, middle, hexpand, others, locals', last, hrest, rfl, rfl, rfl⟩ := h
      obtain ⟨hkey, hmem⟩ := htables k m hm
      obtain ⟨hlater, hspec⟩ :=
        render_spec hguarded (parts_subset_partsOf (hparts hmem)) hahead.known
        hexpand
      have hannounce := later_announce middle (scope.isSome && flags.returnNames) scope i
      have hstart := hlater.trans hannounce
      have hnext : Ahead (middle.announce (scope.isSome && flags.returnNames)
          (localName scope i)).nextScope scope (i + 1) ((k, localName scope i) :: cseMap) := by
        intro entry hentry
        rcases List.mem_cons.mp hentry with rfl | hentry
        · exact ⟨scope, i, rfl, fun g hg => (hscope g hg).trans hstart.scope, fun _ => by omega⟩
        · obtain ⟨other, j, hname, hother, hindex⟩ := hahead entry hentry
          exact ⟨other, j, hname, fun g hg => (hother g hg).trans hstart.scope,
            fun heq => by have := hindex heq; omega⟩
      obtain ⟨hlater', hknown, hbody⟩ :=
        ih hnext (fun g hg => (hscope g hg).trans hstart.scope) hrest
      refine ⟨hstart.trans hlater', hknown, fun {results xs} hdeclared hnone hresults => ?_⟩
      have hcode := hspec (List.Subset.trans hannounce.declared
        (List.Subset.trans hlater'.declared hdeclared))
      show RealizesBody M _ (.define (scope.isSome && flags.returnNames) (localName scope i) c
        (scopeBody others results)) xs
      cases hvalue : value M env m with
      | none =>
        rw [hvalue] at hcode
        rw [hnone m hmem hvalue]
        exact realizesBody_fail hcode
      | some x =>
        rw [hvalue] at hcode
        have henter : ∀ σ, Holds roots M env hoisted cseMap σ →
            Holds roots M env hoisted ((k, localName scope i) :: cseMap)
              (Function.update σ (localName scope i) (some x)) := fun σ hσ =>
          hkey ▸ hσ.enter hclash hahead.ne (hparts hmem) hvalue
        cases hcase : (scope.isSome && flags.returnNames) with
        | false =>
          exact realizesBody_define hcode henter (hbody hdeclared hnone hresults)
            fun σ τ hσ hτ => hσ.leave hclash hahead.ne hτ
        | true =>
          -- the name is declared in front of everything
          have hmember : localName scope i ∈ hoisted := by
            refine hdeclared (hlater'.declared ?_)
            simp [Emission.announce, hcase]
          exact realizesBody_assign hcode (fun σ hσ => hσ.declared _ hmember) henter
            (hbody hdeclared hnone hresults) fun τ hτ => hτ.tail

/-- **A scope computes the values of its roots.**

**Proof sketch.** Induction on the bound of the nesting: the lambdas of the scope are scopes with a
smaller bound.  The lines are expressions that every run of the roots needs (`visits_spec`), so when
one of them has no value the roots have none (`values_eq_none`). -/
theorem emitScope_spec (hclash : NoClash roots) {flags : EmitFlags} {depth : ℕ} :
    ∀ {nodes : List Node} {inherited : CseMap} {scope : Option ℕ} {state : Emission}
      {lines : List Line} {rendered : List Cpp} {after : Emission},
      partsOf nodes ⊆ partsOf roots.nodes → Ahead state.nextScope scope 0 inherited →
      (∀ g, scope = some g → g ≤ state.nextScope) →
      emitScope spelling (memoKey roots) flags depth nodes inherited scope state =
        .ok (lines, rendered, after) →
      Later state after ∧ (after.declarations ⊆ hoisted →
        RealizesBody M (Holds roots M env hoisted inherited) (scopeBody lines rendered)
          (values M env nodes)) := by
  induction depth with
  | zero => exact fun _ _ _ h => nomatch h
  | succ depth ih =>
    intro nodes inherited scope state lines rendered after hnodes hahead hscope h
    simp only [emitScope, bind_eq_ok, Except.ok.injEq, Prod.mk.injEq, Prod.exists] at h
    obtain ⟨lines', locals, middle, hlines, cs, last, hrendered, rfl, rfl, rfl⟩ := h
    have hguarded : GuardedSpec roots M env hoisted
        (guardedLambda (emitScope spelling (memoKey roots) flags depth)) := by
      intro right cseMap before done c hright hknown hrun
      simp only [guardedLambda, bind_eq_ok, Except.ok.injEq, Prod.mk.injEq, Prod.exists] at hrun
      obtain ⟨innerLines, innerValues, innerState, hinner, rfl, rfl⟩ := hrun
      have hinside : partsOf [right] ⊆ partsOf roots.nodes := by
        rw [partsOf, partsOf, List.append_nil]
        exact parts_subset_partsOf hright
      have hinnerAhead : Ahead (before.nextScope + 1) (some (before.nextScope + 1)) 0 cseMap := by
        intro entry hentry
        obtain ⟨other, j, hname, hother⟩ := hknown entry hentry
        refine ⟨other, j, hname, fun g hg => (hother g hg).trans (Nat.le_succ _), fun heq => ?_⟩
        have := hother _ heq
        omega
      obtain ⟨hlater, hbody⟩ := ih hinside hinnerAhead
        (fun g hg => by rw [Option.some.inj hg]) hinner
      refine ⟨⟨(Nat.le_succ _).trans hlater.scope, hlater.declared, hlater.new⟩,
        fun hdeclared => ?_⟩
      refine realizes_block ?_
      have hone := hbody hdeclared
      rw [values, values] at hone
      cases hvalue : value M env right <;> simpa [hvalue] using hone
    have hvisited := (visits_spec nodes ⟨[], []⟩ :
      Visited (memoKey roots) (unguardeds nodes) _ (visits (memoKey roots) inherited nodes ⟨[],
        []⟩))
    have htables : ∀ k m, (visits (memoKey roots) inherited nodes ⟨[], []⟩).2.rep.lookup k =
        some m →
        memoKey roots m = k ∧ m ∈ unguardeds nodes := fun k m hm =>
      (hvisited.entered.new k m hm).resolve_left (by simp)
    obtain ⟨hlater, hknown, hbody⟩ := emitLines_spec hclash hguarded htables
      (List.Subset.trans (unguardeds_subset nodes) hnodes) hahead hscope hlines
    obtain ⟨hlater', hresults⟩ := renders_spec hguarded hnodes hknown hrendered
    refine ⟨hlater.trans hlater', fun hdeclared => ?_⟩
    exact hbody (List.Subset.trans hlater'.declared hdeclared)
      (fun m hm hnone => values_eq_none M env hnone hm) (hresults hdeclared)

end Run

/-! ## The emission returns -/

/-- The roots hold no marked state, which cannot be emitted. -/
def NoStateRef (nodes : List Node) : Prop := ∀ id side expr, .stateRef id side expr ∉ partsOf nodes

/-- Every literal, parameter and tolerance below the roots can be written. -/
structure Spelled (spelling : Spelling) (nodes : List Node) : Prop where
  const : ∀ id literal handle, .const id literal handle ∈ partsOf nodes →
    ∃ text, spelling.literal literal = .ok text
  param : ∀ id name literal handle dtype, .runtimeParamRef id name literal handle dtype ∈
    partsOf nodes →
    ∃ text, spelling.param name = .ok text
  tolerance : ∀ id witness entries, .eigWitness id witness entries ∈ partsOf nodes →
    ∃ texts, spelling.extraArgs witness = .ok texts

mutual

/-- A part is not larger. -/
lemma fullSize_le {m : Node} : ∀ {n : Node}, m ∈ n.parts → fullSize m ≤ fullSize n
  | .const _ _ _, h => by rw [List.mem_singleton.mp h]
  | .runtimeParamRef _ _ _ _ _, h => by rw [List.mem_singleton.mp h]
  | .var _ _ _, h => by rw [List.mem_singleton.mp h]
  | .unary id op a, h => by
    rcases List.mem_cons.mp h with rfl | h
    · exact le_rfl
    · have := fullSize_le h
      rw [fullSize]
      omega
  | .bin id op a b, h => by
    rcases List.mem_cons.mp h with rfl | h
    · exact le_rfl
    · rw [fullSize]
      rcases List.mem_append.mp h with h | h
      · have := fullSize_le h
        omega
      · have := fullSize_le h
        omega
  | .eigWitness id witness entries, h => by
    rcases List.mem_cons.mp h with rfl | h
    · exact le_rfl
    · have := fullSize_le_fullSizes h
      rw [fullSize]
      omega
  | .stateRef id side expr, h => by
    rcases List.mem_cons.mp h with rfl | h
    · exact le_rfl
    · have := fullSize_le h
      rw [fullSize]
      omega

/-- A part is not larger than the expressions together. -/
lemma fullSize_le_fullSizes {m : Node} : ∀ {nodes : List Node}, m ∈ partsOf nodes →
    fullSize m ≤ fullSizes nodes
  | [], h => by cases h
  | n :: rest, h => by
    rw [fullSizes]
    rcases List.mem_append.mp h with h | h
    · have := fullSize_le h
      omega
    · have := fullSize_le_fullSizes h
      omega

end

section Total

variable {spelling : Spelling} {key : Node → ℕ} {guarded : Guarded} {cseMap : CseMap}
  {nodes : List Node} {bound : ℕ}

/-- The emission of small right operands returns. -/
def GuardedReturns (guarded : Guarded) (nodes : List Node) (bound : ℕ) : Prop :=
  ∀ right ∈ partsOf nodes, fullSize right < bound → ∀ cseMap state,
    ∃ r, guarded right cseMap state = .ok r

/-- A local or an expansion that returns. -/
lemma localOr_returns {whole : Bool} {k : ℕ} {state : Emission}
    {expansion : Raises (Cpp × Emission)} (h : ∃ r, expansion = .ok r) :
    ∃ r, localOr cseMap whole k state expansion = .ok r := by
  unfold localOr
  split
  · exact ⟨_, rfl⟩
  · exact h

mutual

/-- An expression over locals is emitted. -/
lemma render_returns (hguarded : GuardedReturns guarded nodes bound) (hstate : NoStateRef nodes)
    (hspelled : Spelled spelling nodes) :
    ∀ {n : Node} (whole : Bool) (state : Emission), n.parts ⊆ partsOf nodes → fullSize n ≤ bound →
      ∃ r, render spelling key guarded cseMap whole n state = .ok r
  | .const id literal handle, _, _, hparts, _ => by
    obtain ⟨text, htext⟩ := hspelled.const id literal handle (hparts (self_mem_parts _))
    exact localOr_returns ⟨_, by rw [htext]; rfl⟩
  | .runtimeParamRef id name literal handle dtype, _, _, hparts, _ => by
    obtain ⟨text, htext⟩ := hspelled.param id name literal handle dtype (hparts (self_mem_parts _))
    exact localOr_returns ⟨_, by rw [htext]; rfl⟩
  | .var _ _ _, _, _, _, _ => localOr_returns ⟨_, rfl⟩
  | .unary id op a, whole, state, hparts, hsize => by
    rw [fullSize] at hsize
    obtain ⟨r, hr⟩ := render_returns hguarded hstate hspelled false state
      (fun _ hx => hparts (List.mem_cons_of_mem _ hx)) (by omega : fullSize a ≤ bound)
    exact localOr_returns ⟨_, by rw [hr]; rfl⟩
  | .bin id op a b, whole, state, hparts, hsize => by
    rw [fullSize] at hsize
    have hleft : a.parts ⊆ partsOf nodes := fun _ hx =>
      hparts (List.mem_cons_of_mem _ (List.mem_append_left _ hx))
    have hright : b.parts ⊆ partsOf nodes := fun _ hx =>
      hparts (List.mem_cons_of_mem _ (List.mem_append_right _ hx))
    have hpos : 0 < fullSize a := by cases a <;> simp [fullSize]
    refine localOr_returns ?_
    cases conjunctive op with
    | some flag =>
      obtain ⟨r, hr⟩ := hguarded b (hright (self_mem_parts b)) (by omega) cseMap state
      obtain ⟨l, hl⟩ :=
        render_returns hguarded hstate hspelled false r.2 hleft (by omega : fullSize a ≤ bound)
      exact ⟨_, by simp only [hr, ok_bind, hl]; rfl⟩
    | none =>
      obtain ⟨l, hl⟩ := render_returns hguarded hstate hspelled false state hleft
        (by omega : fullSize a ≤ bound)
      obtain ⟨r, hr⟩ := render_returns hguarded hstate hspelled false l.2 hright
        (by omega : fullSize b ≤ bound)
      exact ⟨_, by simp only [hl, ok_bind, hr]; rfl⟩
  | .eigWitness id witness entries, whole, state, hparts, hsize => by
    rw [fullSize] at hsize
    obtain ⟨r, hr⟩ := renders_returns hguarded hstate hspelled state
      (fun _ hx => hparts (List.mem_cons_of_mem _ hx)) (by omega : fullSizes entries ≤ bound)
    obtain ⟨texts, htexts⟩ := hspelled.tolerance id witness entries (hparts (self_mem_parts _))
    exact localOr_returns ⟨_, by simp only [hr, ok_bind, htexts]; rfl⟩
  | .stateRef id side expr, _, _, hparts, _ =>
    absurd (hparts (self_mem_parts _)) (hstate id side expr)

/-- Expressions over locals are emitted. -/
lemma renders_returns (hguarded : GuardedReturns guarded nodes bound) (hstate : NoStateRef nodes)
    (hspelled : Spelled spelling nodes) :
    ∀ {ns : List Node} (state : Emission), partsOf ns ⊆ partsOf nodes → fullSizes ns ≤ bound →
      ∃ r, renders spelling key guarded cseMap ns state = .ok r
  | [], _, _, _ => ⟨_, rfl⟩
  | n :: rest, state, hparts, hsize => by
    rw [fullSizes] at hsize
    obtain ⟨r, hr⟩ := render_returns hguarded hstate hspelled false state
      (fun _ hx => hparts (List.mem_append_left _ hx)) (by omega : fullSize n ≤ bound)
    obtain ⟨rs, hrs⟩ := renders_returns hguarded hstate hspelled r.2
      (fun _ hx => hparts (List.mem_append_right _ hx)) (by omega : fullSizes rest ≤ bound)
    exact ⟨_, by simp only [renders, hr, ok_bind, hrs]; rfl⟩

end

/-- The lines of a scope are emitted. -/
lemma emitLines_returns (hguarded : GuardedReturns guarded nodes bound)
    (hstate : NoStateRef nodes) (hspelled : Spelled spelling nodes) {flags : EmitFlags}
    {tables : Tables} {scope : Option ℕ}
    (htables : ∀ k m, tables.rep.lookup k = some m → m ∈ partsOf nodes ∧ fullSize m ≤ bound)
    {cand : List ℕ} (hcand : ∀ k ∈ cand, ∃ m, tables.rep.lookup k = some m) :
    ∀ (i : ℕ) (cseMap : CseMap) (state : Emission),
      ∃ r, emitLines spelling key flags guarded tables scope cand i cseMap state = .ok r := by
  induction cand with
  | nil => exact fun _ _ _ => ⟨_, rfl⟩
  | cons k rest ih =>
    intro i cseMap state
    obtain ⟨m, hm⟩ := hcand k (by simp)
    obtain ⟨hmem, hsize⟩ := htables k m hm
    obtain ⟨r, hr⟩ : ∃ r, cppExpand spelling key guarded cseMap m state = .ok r :=
      render_returns hguarded hstate hspelled true state (parts_subset_partsOf hmem) hsize
    obtain ⟨rs, hrs⟩ := ih (fun k' hk' => hcand k' (by simp [hk'])) (i + 1)
      ((k, localName scope i) :: cseMap)
      (r.2.announce (scope.isSome && flags.returnNames) (localName scope i))
    rw [emitLines, hm]
    exact ⟨_, by simp only [hr, ok_bind, hrs]; rfl⟩

/-- A scope is emitted when the bound of the nesting is larger than its roots. -/
lemma emitScope_returns (hstate : NoStateRef nodes)
    (hspelled : Spelled spelling nodes) {flags : EmitFlags} {depth : ℕ} :
    ∀ {ns : List Node} (inherited : CseMap) (scope : Option ℕ) (state : Emission),
      partsOf ns ⊆ partsOf nodes → fullSizes ns < depth →
      ∃ r, emitScope spelling key flags depth ns inherited scope state = .ok r := by
  induction depth with
  | zero => exact fun _ _ _ _ h => absurd h (Nat.not_lt_zero _)
  | succ depth ih =>
    intro ns inherited scope state hns hsize
    have hguarded : GuardedReturns (guardedLambda (emitScope spelling key flags depth))
        nodes depth := by
      intro right hright hsmall cseMap before
      have hinside : partsOf [right] ⊆ partsOf nodes := by
        rw [partsOf, partsOf, List.append_nil]
        exact parts_subset_partsOf hright
      have hone : fullSizes [right] < depth := by
        rw [fullSizes, fullSizes]
        omega
      obtain ⟨r, hr⟩ := ih cseMap (some (before.nextScope + 1))
        { before with nextScope := before.nextScope + 1 } hinside hone
      exact ⟨_, by simp only [guardedLambda, hr, ok_bind]; rfl⟩
    have hvisited : Visited key (unguardeds ns) _ (visits key inherited ns ⟨[], []⟩) :=
      visits_spec ns ⟨[], []⟩
    have htables : ∀ k m, (visits key inherited ns ⟨[], []⟩).2.rep.lookup k = some m →
        m ∈ partsOf nodes ∧ fullSize m ≤ depth := by
      intro k m hm
      obtain ⟨-, hmem⟩ := (hvisited.entered.new k m hm).resolve_left (by simp)
      have hpart := unguardeds_subset ns hmem
      have := fullSize_le_fullSizes hpart
      exact ⟨hns hpart, by omega⟩
    have hcand : ∀ k ∈ candidates flags (visits key inherited ns ⟨[], []⟩).1.2
        (visits key inherited ns ⟨[], []⟩).2,
        ∃ m, (visits key inherited ns ⟨[], []⟩).2.rep.lookup k = some m := by
      intro k hk
      obtain ⟨entry, hentry, rfl⟩ := mem_candidates hk
      exact hvisited.counted entry hentry
    obtain ⟨lines, hlines⟩ : ∃ r,
      emitLines spelling key flags (guardedLambda (emitScope spelling key flags depth))
        (visits key inherited ns ⟨[], []⟩).2 scope (candidates flags
          (visits key inherited ns ⟨[], []⟩).1.2 (visits key inherited ns ⟨[], []⟩).2) 0 inherited
        state = .ok r :=
      emitLines_returns hguarded hstate hspelled htables hcand 0 inherited state
    obtain ⟨cs, hcs⟩ : ∃ r,
      renders spelling key (guardedLambda (emitScope spelling key flags depth)) lines.2.1 ns
        lines.2.2 = .ok r :=
      renders_returns hguarded hstate hspelled lines.2.2 hns (by omega)
    exact ⟨_, by simp only [emitScope, hlines, ok_bind, hcs]; rfl⟩

end Total

/-! ## The whole emission -/

/-- The store in front of the lines: the hoisted names are there, with the value zero. -/
def Emitted.declared {V : Type} (M : Meaning Leaf Operation V) (out : Emitted)
    (σ : String → Option V) : String → Option V :=
  fun name => if name ∈ out.declarations then some (M.leaf (.const (.ofInt 0))) else σ name

/-- The values of the roots after the run of the emitted code. -/
def Emitted.run {V : Type} (M : Meaning Leaf Operation V) (out : Emitted) (σ : String → Option V) :
    Option (List V) :=
  ((scopeBody out.lines out.rendered).run M (out.declared M σ)).map Prod.fst

/-- **The emission preserves values and laziness.**  For all flags, root expressions whose data can
be written and whose variables have no names of locals are emitted, and for all meanings of the
operators, also partial ones, the emitted code computes the values of the roots, and fails exactly
when the roots have no values: an operation that is only in right operands that are not needed is
never run, and no other one is left out.

**Proof sketch.** Two expressions with one key have one tree, hence one value (`value_of_memoKey`).
The lines of a scope are expressions that every run of the roots needs, and each is computed from
locals that are there (`emitScope_spec`). -/
theorem cseEmit_preserves (spelling : Spelling) (roots : Roots) (flags : EmitFlags)
    (hstate : NoStateRef roots.nodes) (hspelled : Spelled spelling roots.nodes)
    (hclash : NoClash roots) :
    ∃ out, cseEmit spelling roots flags = .ok out ∧
      ∀ (V : Type) (M : Meaning Leaf Operation V) (env : String → String → Option V)
        (σ : String → Option V), (∀ id kind name, .var id kind name ∈ partsOf roots.nodes →
          σ (cppIdentifier name) = env kind name) →
        out.run M σ = values M env roots.nodes := by
  obtain ⟨⟨lines, rendered, state⟩, hscope⟩ := emitScope_returns hstate hspelled [] none ⟨0, [], []⟩
    (List.Subset.refl _) (Nat.lt_succ_self (fullSizes roots.nodes))
  refine ⟨⟨state.declarations, lines, rendered, state.observed⟩, by rw [cseEmit, hscope]; rfl, ?_⟩
  intro V M env σ hvars
  have hahead : Ahead 0 none 0 [] := by simp [Ahead]
  obtain ⟨hlater, hbody⟩ := emitScope_spec hclash (List.Subset.refl _) hahead (by simp) hscope
  refine (hbody (List.Subset.refl _) _ ⟨by simp, fun id kind name hvar => ?_,
    fun name hname => ?_⟩).1
  · -- a variable is not a hoisted name
    have hnot : cppIdentifier name ∉ state.declarations := by
      intro hmem
      rcases hlater.new _ hmem with hmem | ⟨scope, i, heq⟩
      · cases hmem
      · exact hclash id kind name hvar scope i heq
    simp only [Emitted.declared, if_neg hnot]
    exact hvars id kind name hvar
  · simp only [Emitted.declared, if_pos hname]
    rfl

/-- `sqrt(x)`: the root of a variable. -/
def sqrtX : Node := .unary 2 .sqrt (.var 0 "cons" "x")

/-- `sqrt(x) / y`: that root over another variable. -/
def ratio : Node := .bin 3 .div sqrtX (.var 1 "cons" "y")

/-- The objects of the roots below. -/
def nodeAt : ℕ → Node
  | 0 => .var 0 "cons" "x"
  | 1 => .var 1 "cons" "y"
  | 2 => sqrtX
  | 3 => ratio
  | 4 => .bin 4 .add sqrtX sqrtX
  | 5 => .bin 5 .gt (.var 1 "cons" "y") (.var 0 "cons" "x")
  | 6 => .bin 6 .gt ratio ratio
  | 7 => .bin 7 .booleanAnd (.bin 5 .gt (.var 1 "cons" "y") (.var 0 "cons" "x"))
      (.bin 6 .gt ratio ratio)
  | 8 => .const 8 (.ofInt 2) none
  | 9 => .runtimeParamRef 9 "nu" (.ofInt 1) none none
  | _ => .bin 10 .mul (.runtimeParamRef 9 "nu" (.ofInt 1) none none) (.const 8 (.ofInt 2) none)

/-- Every part of the roots is one of these objects. -/
lemma eq_nodeAt : ∀ n ∈ partsOf [nodeAt 4, nodeAt 7, nodeAt 10], n = nodeAt n.id := by
  simp [partsOf, Node.parts, nodeAt, sqrtX, ratio, Node.id]

/-- `sqrt(x) + sqrt(x)`, `y > x && sqrt(x) / y > sqrt(x) / y` and `nu * 2`. -/
def sharedRoots : Roots where
  nodes := [nodeAt 4, nodeAt 7, nodeAt 10]
  same n hn m hm h := by rw [eq_nodeAt n hn, eq_nodeAt m hm, h]

/-- Integers without a unit are written, and the parameter `nu` has the first slot. -/
def integerSpelling : Spelling where
  literal literal := match literal.payload, literal.unit with
    | .integer v, none => .ok ("pops::Real(" ++ v.repr ++ ")")
    | _, _ => .error (typeError "literal has no C++ lowering")
  indices := some [("nu", 0)]
  tolerance _ := .ok "pops::Real(1)"

-- every operation has a local, those of the guarded operand are assigned in its lambda
example : (cseEmit integerSpelling sharedRoots ⟨true, true⟩).toOption.map (fun out =>
    bodyText (fun _ => "pops::Real(2)") (fun _ => "params.get(0)") (fun _ => "") "pops::Real"
      (scopeBody out.lines out.rendered)) =
    some (["const pops::Real cse0_ = params.get(0);", "const pops::Real cse1_ = std::sqrt(x);",
      "const pops::Real cse2_ = (y > x);", "const pops::Real cse3_ = (cse0_ * pops::Real(2));",
      "const pops::Real cse4_ = (cse1_ + cse1_);",
      "const pops::Real cse5_ = (cse2_ && ([&]() \x7b guard1_cse0_ = (cse1_ / y); " ++
        "guard1_cse1_ = (guard1_cse0_ > guard1_cse0_); return guard1_cse1_; \x7d()));"],
      ["cse4_", "cse5_", "cse3_"]) := by
  decide +kernel

/-- Expressions with a shared operation, a guarded one, a parameter and a literal. -/
theorem cseEmit_preserves_shared :
    ∃ out, cseEmit integerSpelling sharedRoots ⟨true, true⟩ = .ok out ∧
      ∀ (V : Type) (M : Meaning Leaf Operation V) (env : String → String → Option V)
        (σ : String → Option V), (∀ id kind name, .var id kind name ∈ partsOf sharedRoots.nodes →
          σ (cppIdentifier name) = env kind name) →
        out.run M σ = values M env sharedRoots.nodes := by
  have hx : ∀ scope i, "x" ≠ localName scope i := ne_localName (by decide) (by decide)
  have hy : ∀ scope i, "y" ≠ localName scope i := ne_localName (by decide) (by decide)
  have hcx : cppIdentifier "x" = "x" := by decide +kernel
  have hcy : cppIdentifier "y" = "y" := by decide +kernel
  refine cseEmit_preserves integerSpelling sharedRoots ⟨true, true⟩ (fun id side expr h => ?_)
    ⟨fun id literal handle h => ?_, fun id name literal handle dtype h => ?_,
      fun id witness entries h => ?_⟩ (fun id kind name h scope i => ?_)
  · simp [sharedRoots, partsOf, Node.parts, nodeAt, sqrtX, ratio] at h
  · simp [sharedRoots, partsOf, Node.parts, nodeAt, sqrtX, ratio] at h
    obtain ⟨-, rfl, -⟩ := h
    exact ⟨"pops::Real(2)", by decide⟩
  · simp [sharedRoots, partsOf, Node.parts, nodeAt, sqrtX, ratio] at h
    obtain ⟨-, rfl, -⟩ := h
    exact ⟨"params.get(0)", by decide⟩
  · simp [sharedRoots, partsOf, Node.parts, nodeAt, sqrtX, ratio] at h
  · have hname : name = "x" ∨ name = "y" := by
      simp [sharedRoots, partsOf, Node.parts, nodeAt, sqrtX, ratio] at h
      tauto
    rcases hname with rfl | rfl
    · rw [hcx]
      exact hx scope i
    · rw [hcy]
      exact hy scope i

end Codegen

end Pops
