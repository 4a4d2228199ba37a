import Pops.Foundation.OrderedMap
import Pops.Foundation.PyException

/-!
# Expansion of primitive recipes

`expand_primitive_recipes` clones a graph of expression objects and replaces every primitive
variable that has a recipe by the clone of its recipe.  A stack of open names refuses recipes that
need themselves; a memo of objects, filled before the clone of an object is complete, keeps the
sharing of the graph.

Expressions are immutable, so the objects below an object form a finite tree; an object is a node of
that tree with its identity.  The clone of a graph is a reference into a heap of new objects.

## Main definitions

* `Pops.Expansion.Value` — the values of an object graph.
* `Pops.Expansion.Recipes` — a table of recipes.
* `Pops.Expansion.clone`, `expandPrimitiveRecipes` — the code.

## Main results

* `Pops.Expansion.descent_induction` — induction along a value and the recipes it opens.
-/

namespace Pops

namespace Expansion

/-- Data that a clone keeps as it is: a text, or another object known by its identity. -/
inductive Leaf
  | text (value : String)
  | other (identity : ℕ)
  deriving DecidableEq, Repr

/-- A value of an object graph.  `nil` and `cons` are lists of named children: the fields of an
object, the entries of a mapping and the items of a tuple or list.  `var` is the kind and name
of an instance of `Var`. -/
inductive Value
  | leaf (data : Leaf)
  | nil
  | cons (key : String) (head tail : Value)
  | object (id : ℕ) (cls : String) (var : Option (String × String)) (fields : Value)
  | mapping (entries : Value)
  | sequence (items : Value)
  deriving DecidableEq, Repr

/-- The recipes of the owning model, by name. -/
abbrev Recipes := List (String × Value)

/-- The name and the recipe of a primitive variable that has one. -/
def recipeOf (recipes : Recipes) : Option (String × String) → Option (String × Value)
  | some (kind, name) =>
    if kind = "prim" then (OrderedMap.lookup recipes name).map fun recipe =>
    (name, recipe) else none
  | none => none

/-- A value of the clone, which refers to new objects. -/
inductive Clone
  | leaf (data : Leaf)
  | nil
  | cons (key : String) (head tail : Clone)
  | ref (index : ℕ)
  | mapping (entries : Clone)
  | sequence (items : Clone)
  deriving DecidableEq, Repr

/-- A new object. -/
structure CloneObject where
  cls : String
  var : Option (String × String)
  fields : Clone
  deriving DecidableEq, Repr

/-- The memo of the objects that were met, and the new objects in order of creation. -/
structure CloneState where
  memo : List (ℕ × ℕ)
  heap : List CloneObject
  deriving DecidableEq, Repr

/-- The error of a recipe that needs itself. -/
def recipeCycle (names : List String) : PyError :=
  valueError ("primitive recipe cycle: " ++ " -> ".intercalate names)

/-- The recipes that are not open. -/
def unopened (recipes : Recipes) (active : List String) : ℕ :=
  (recipes.filter fun entry => entry.1 ∉ active).length

/-- A recipe is found under its name. -/
lemma lookup_of_recipeOf {recipes : Recipes} {var : Option (String × String)} {name : String}
    {recipe : Value} (h : recipeOf recipes var = some (name, recipe)) :
    OrderedMap.lookup recipes name = some recipe := by
  unfold recipeOf at h
  split at h
  · split_ifs at h
    simp only [Option.map_eq_some_iff, Prod.mk.injEq] at h
    obtain ⟨found, hfound, rfl, rfl⟩ := h
    exact hfound
  · cases h

/-- Opening a recipe leaves fewer recipes unopened. -/
lemma unopened_lt {recipes : Recipes} {active : List String} {var : Option (String × String)}
    {name : String} {recipe : Value} (h : recipeOf recipes var = some (name, recipe))
    (hactive : name ∉ active) : unopened recipes (active ++ [name]) < unopened recipes active := by
  have hmem := OrderedMap.mem_of_lookup (lookup_of_recipeOf h)
  have hsublist : (recipes.filter fun entry => entry.1 ∉ active ++ [name]) =
      (recipes.filter fun entry => entry.1 ∉ active).filter fun entry => entry.1 ≠ name := by
    rw [List.filter_filter]
    refine List.filter_congr fun entry _ => ?_
    simp only [List.mem_append, List.mem_singleton, not_or, Bool.decide_and, ne_eq, Bool.and_comm]
  unfold unopened
  rw [hsublist]
  refine List.length_filter_lt_length_iff_exists.mpr ⟨(name, recipe), ?_, by simp⟩
  exact List.mem_filter.mpr ⟨hmem, by simpa using hactive⟩

/-- The recursion of `expand_primitive_recipes`. -/
def clone (recipes : Recipes) (active : List String) : Value → CloneState →
    Raises (Clone × CloneState)
  | .leaf data, s => .ok (.leaf data, s)
  | .nil, s => .ok (.nil, s)
  | .cons key head tail, s => do
    let (head', s) ← clone recipes active head s
    let (tail', s) ← clone recipes active tail s
    .ok (.cons key head' tail', s)
  | .mapping entries, s => do
    let (entries', s) ← clone recipes active entries s
    .ok (.mapping entries', s)
  | .sequence items, s => do
    let (items', s) ← clone recipes active items s
    .ok (.sequence items', s)
  | .object id cls var fields, s =>
    match _hrecipe : recipeOf recipes var with
    | some (name, recipe) =>
      if _hactive : name ∈ active then .error (recipeCycle (active ++ [name]))
      else clone recipes (active ++ [name]) recipe s
    | none =>
      match OrderedMap.lookup s.memo id with
      | some index => .ok (.ref index, s)
      | none => do
        -- the memo has the new object before its fields are known
        let index := s.heap.length
        let (fields', s') ← clone recipes active fields
          ⟨(id, index) :: s.memo, s.heap ++ [⟨cls, var, .nil⟩]⟩
        .ok (.ref index, { s' with heap := s'.heap.set index ⟨cls, var, fields'⟩ })
termination_by value => (unopened recipes active, sizeOf value)
decreasing_by
  all_goals first
    | exact Prod.Lex.left _ _ (unopened_lt _hrecipe _hactive)
    | exact Prod.Lex.right _ (by simp; omega)
    | exact Prod.Lex.right _ (by simp)

/-! ### Equations of the recursion -/

section Equations

variable {recipes : Recipes} {active : List String} {id : ℕ} {cls name : String}
  {var : Option (String × String)} {fields recipe : Value} {s : CloneState}

/-- A recipe that is open. -/
lemma clone_cycle (h : recipeOf recipes var = some (name, recipe)) (hactive : name ∈ active) :
    clone recipes active (.object id cls var fields) s =
      .error (recipeCycle (active ++ [name])) := by
  rw [clone]
  split
  · rename_i heq
    rw [h] at heq
    obtain ⟨rfl, rfl⟩ := Prod.mk.inj (Option.some.inj heq)
    rw [dif_pos hactive]
  · rename_i heq
    rw [h] at heq
    cases heq

/-- A recipe that is not open. -/
lemma clone_recipe (h : recipeOf recipes var = some (name, recipe)) (hactive : name ∉ active) :
    clone recipes active (.object id cls var fields) s =
      clone recipes (active ++ [name]) recipe s := by
  rw [clone]
  split
  · rename_i heq
    rw [h] at heq
    obtain ⟨rfl, rfl⟩ := Prod.mk.inj (Option.some.inj heq)
    rw [dif_neg hactive]
  · rename_i heq
    rw [h] at heq
    cases heq

/-- An object that was met before. -/
lemma clone_memo {index : ℕ} (h : recipeOf recipes var = none)
    (hmemo : OrderedMap.lookup s.memo id = some index) :
    clone recipes active (.object id cls var fields) s = .ok (.ref index, s) := by
  rw [clone]
  split
  · rename_i heq
    rw [h] at heq
    cases heq
  · rw [hmemo]

/-- The state in which the fields of an object are cloned. -/
def CloneState.enter (s : CloneState) (id : ℕ) (cls : String) (var : Option (String × String)) :
    CloneState :=
  ⟨(id, s.heap.length) :: s.memo, s.heap ++ [⟨cls, var, .nil⟩]⟩

/-- The state after the fields of an object were cloned. -/
def CloneState.leave (s : CloneState) (index : ℕ) (cls : String) (var : Option (String × String))
    (fields : Clone) : CloneState :=
  { s with heap := s.heap.set index ⟨cls, var, fields⟩ }

/-- An object that is met for the first time. -/
lemma clone_new (h : recipeOf recipes var = none) (hmemo : OrderedMap.lookup s.memo id = none) :
    clone recipes active (.object id cls var fields) s =
      (clone recipes active fields (s.enter id cls var)).map fun r =>
        (.ref s.heap.length, r.2.leave s.heap.length cls var r.1) := by
  rw [clone]
  split
  · rename_i heq
    rw [h] at heq
    cases heq
  · rw [hmemo]
    rfl

end Equations

/-- `expand_primitive_recipes`: clone the expressions with every primitive variable replaced by its
recipe. -/
def expandPrimitiveRecipes (expressions : Value) (recipes : Recipes) :
    Raises (Clone × CloneState) :=
  clone recipes [] expressions ⟨[], []⟩

/-- **Induction along a value and the recipes it opens.** -/
theorem descent_induction {recipes : Recipes} {P : List String → Value → Prop}
    (leaf : ∀ active data, P active (.leaf data)) (nil : ∀ active, P active .nil)
    (cons : ∀ active key head tail, P active head → P active tail → P active (.cons key head tail))
    (mapping : ∀ active entries, P active entries → P active (.mapping entries))
    (sequence : ∀ active items, P active items → P active (.sequence items))
    (cycle : ∀ active id cls var fields name recipe,
      recipeOf recipes var = some (name, recipe) → name ∈ active →
      P active (.object id cls var fields))
    (recipe : ∀ active id cls var fields name recipe,
      recipeOf recipes var = some (name, recipe) → name ∉ active →
      P (active ++ [name]) recipe → P active (.object id cls var fields))
    (object : ∀ active id cls var fields, recipeOf recipes var = none →
      P active fields → P active (.object id cls var fields))
    (active : List String) (value : Value) : P active value := by
  -- outer induction on the unopened recipes, inner induction on the value
  induction hn : unopened recipes active using Nat.strong_induction_on generalizing active
    value with
  | _ n outer =>
    induction value with
    | leaf data => exact leaf active data
    | nil => exact nil active
    | cons key head tail ihhead ihtail => exact cons active key head tail ihhead ihtail
    | mapping entries ih => exact mapping active entries ih
    | sequence items ih => exact sequence active items ih
    | object id cls var fields ih =>
      rcases hrecipe : recipeOf recipes var with _ | ⟨name, found⟩
      · exact object active id cls var fields hrecipe ih
      · by_cases hactive : name ∈ active
        · exact cycle active id cls var fields name found hrecipe hactive
        · refine recipe active id cls var fields name found hrecipe hactive ?_
          exact outer _ (hn ▸ unopened_lt hrecipe hactive) (active ++ [name]) found rfl

end Expansion

end Pops
