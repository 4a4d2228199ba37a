import Pops.Ir.PrimitiveExpansion

/-!
# Soundness of the expansion of primitive recipes

What an expansion returns is an image of the expression: every object has one clone, a variable with
a recipe is replaced by the image of its recipe, and the value is that of the expression with the
recipes put in place of the variables.  A recipe that needs itself is refused, unless an object that
is still being cloned is met again first: then the memo answers before the stack of open names can.

## Main definitions

* `Pops.Expansion.Input` — an expression and recipes in which an identity belongs to one object.
* `Pops.Expansion.Cyclic` — a name that the expression needs depends on itself.
* `Pops.Expansion.Image` — the clone is the expression with the recipes in place.
* `Pops.Expansion.Denotes`, `Evaluates` — the value of an expression through its recipes, and of a
  clone.
* `Pops.Expansion.firstReentry` — what a walk without a memo comes back to first.

## Main results

* `Pops.Expansion.clone_image` — what a call returns is an image.
* `Pops.Expansion.cyclic_of_error` — a refusal is right.
* `Pops.Expansion.expandPrimitiveRecipes_of_clear` — the expansion is right.
-/

namespace Pops

namespace Expansion

/-! ## Inputs -/

/-- An object of a graph. -/
structure Object where
  id : ℕ
  cls : String
  var : Option (String × String)
  fields : Value
  deriving DecidableEq

/-- The objects of a value. -/
def Value.objects : Value → List Object
  | .leaf _ => []
  | .nil => []
  | .cons _ head tail => head.objects ++ tail.objects
  | .object id cls var fields => ⟨id, cls, var, fields⟩ :: fields.objects
  | .mapping entries => entries.objects
  | .sequence items => items.objects

/-- An expression and recipes.  An identity belongs to one object. -/
structure Input where
  expressions : Value
  recipes : Recipes
  identity : ∀ o ∈ expressions.objects ++ recipes.flatMap fun entry => entry.2.objects,
    ∀ o' ∈ expressions.objects ++ recipes.flatMap fun entry => entry.2.objects,
      o.id = o'.id → o = o'

namespace Input

variable (input : Input)

/-- All objects. -/
def objects : List Object :=
  input.expressions.objects ++ input.recipes.flatMap fun entry => entry.2.objects

/-- The value is made of objects of the input. -/
def Owns (value : Value) : Prop := value.objects ⊆ input.objects

/-- A recipe is made of objects of the input. -/
lemma owns_recipe {var : Option (String × String)} {name : String} {recipe : Value}
    (h : recipeOf input.recipes var = some (name, recipe)) : input.Owns recipe := by
  intro o ho
  refine List.mem_append_right _ (List.mem_flatMap.mpr ⟨(name, recipe), ?_, ho⟩)
  exact OrderedMap.mem_of_lookup (lookup_of_recipeOf h)

end Input

/-! ## Dependencies -/

/-- The names whose recipes a value needs at once. -/
def mentions (recipes : Recipes) : Value → List String
  | .leaf _ => []
  | .nil => []
  | .cons _ head tail => mentions recipes head ++ mentions recipes tail
  | .object _ _ var fields => match recipeOf recipes var with
    | some (name, _) => [name]
    | none => mentions recipes fields
  | .mapping entries => mentions recipes entries
  | .sequence items => mentions recipes items

/-- The recipe of a name needs another name. -/
def Needs (recipes : Recipes) (name other : String) : Prop :=
  ∃ recipe, OrderedMap.lookup recipes name = some recipe ∧ other ∈ mentions recipes recipe

/-- A name is needed by an expression, through recipes. -/
def Reaches (recipes : Recipes) (value : Value) (name : String) : Prop :=
  ∃ first ∈ mentions recipes value, Relation.ReflTransGen (Needs recipes) first name

/-- A name that the expression needs depends on itself. -/
def Cyclic (recipes : Recipes) (value : Value) : Prop :=
  ∃ name, Reaches recipes value name ∧ Relation.TransGen (Needs recipes) name name

/-- The expansion of a value is finite. -/
inductive Grounded (recipes : Recipes) : Value → Prop
  | leaf (data : Leaf) : Grounded recipes (.leaf data)
  | nil : Grounded recipes .nil
  | cons {key : String} {head tail : Value} : Grounded recipes head → Grounded recipes tail →
      Grounded recipes (.cons key head tail)
  | mapping {entries : Value} : Grounded recipes entries → Grounded recipes (.mapping entries)
  | sequence {items : Value} : Grounded recipes items → Grounded recipes (.sequence items)
  | object {id : ℕ} {cls : String} {var : Option (String × String)} {fields : Value} :
      recipeOf recipes var = none → Grounded recipes fields →
      Grounded recipes (.object id cls var fields)
  | recipe {id : ℕ} {cls name : String} {var : Option (String × String)} {fields recipe : Value} :
      recipeOf recipes var = some (name, recipe) → Grounded recipes recipe →
      Grounded recipes (.object id cls var fields)

section Dependencies

variable {recipes : Recipes}

/-- A variable with a recipe mentions its name, and nothing of its fields. -/
lemma mentions_recipe {id : ℕ} {cls name : String} {var : Option (String × String)}
    {fields recipe : Value} (h : recipeOf recipes var = some (name, recipe)) :
    mentions recipes (.object id cls var fields) = [name] := by
  simp [mentions, h]

/-- Another object mentions what its fields mention. -/
@[simp] lemma mentions_object {id : ℕ} {cls : String} {var : Option (String × String)}
    {fields : Value} (h : recipeOf recipes var = none) :
    mentions recipes (.object id cls var fields) = mentions recipes fields := by
  simp [mentions, h]

/-- The names that a grounded value needs are founded. -/
lemma Grounded.acc {value : Value} (h : Grounded recipes value) :
    ∀ name ∈ mentions recipes value, Acc (fun other name => Needs recipes name other) name := by
  induction h with
  | leaf data => simp [mentions]
  | nil => simp [mentions]
  | cons _ _ ihhead ihtail =>
    intro name hname
    rcases List.mem_append.mp hname with hname | hname
    · exact ihhead name hname
    · exact ihtail name hname
  | mapping _ ih => exact ih
  | sequence _ ih => exact ih
  | object hnone _ ih =>
    intro name hname
    rw [mentions_object hnone] at hname
    exact ih name hname
  | recipe hsome _ ih =>
    intro name hname
    rw [mentions_recipe hsome, List.mem_singleton] at hname
    subst hname
    refine Acc.intro _ fun other hother => ?_
    obtain ⟨recipe', hlookup, hmention⟩ := hother
    rw [lookup_of_recipeOf hsome, Option.some.injEq] at hlookup
    exact ih other (hlookup ▸ hmention)

/-- A founded name does not depend on itself. -/
lemma not_transGen_of_acc {name : String}
    (h : Acc (fun other name => Needs recipes name other) name) :
    ¬ Relation.TransGen (Needs recipes) name name := by
  induction h with
  | intro name _ ih =>
    intro hcycle
    obtain ⟨next, hstep, hback⟩ := Relation.TransGen.head'_iff.mp hcycle
    exact ih next hstep (Relation.TransGen.tail' hback hstep)

/-- **A grounded value needs no name that depends on itself.** -/
theorem Grounded.not_cyclic {value : Value} (h : Grounded recipes value) :
    ¬ Cyclic recipes value := by
  rintro ⟨name, ⟨first, hfirst, hreach⟩, hcycle⟩
  have hacc := h.acc first hfirst
  refine not_transGen_of_acc ?_ hcycle
  clear hcycle
  induction hreach with
  | refl => exact hacc
  | tail _ hstep ih => exact ih.inv hstep

/-- The value is met below the root with these names open: every open name depends on the names that
the value needs. -/
structure Within (recipes : Recipes) (root : Value) (active : List String) (value : Value) :
    Prop where
  needs : ∀ name ∈ active, ∀ other ∈ mentions recipes value,
    Relation.TransGen (Needs recipes) name other
  reaches : ∀ other ∈ mentions recipes value, Reaches recipes root other

namespace Within

variable {root value : Value} {active : List String}

/-- The root is reached with no recipe open. -/
lemma root_self (recipes : Recipes) (root : Value) : Within recipes root [] root :=
  ⟨by simp, fun other hother => ⟨other, hother, .refl⟩⟩

/-- What needs less is met as well. -/
lemma mono {other : Value} (h : Within recipes root active value)
    (hsub : mentions recipes other ⊆ mentions recipes value) : Within recipes root active other :=
  ⟨fun name hname n hn => h.needs name hname n (hsub hn), fun n hn => h.reaches n (hsub hn)⟩

/-- A variable with an open recipe closes a cycle. -/
lemma cyclic {id : ℕ} {cls name : String} {var : Option (String × String)} {fields recipe : Value}
    (h : Within recipes root active (.object id cls var fields))
    (hrecipe : recipeOf recipes var = some (name, recipe)) (hactive : name ∈ active) :
    Cyclic recipes root := by
  have hmention : name ∈ mentions recipes (.object id cls var fields) := by
    rw [mentions_recipe hrecipe]
    exact List.mem_singleton_self name
  exact ⟨name, h.reaches name hmention, h.needs name hactive name hmention⟩

/-- Opening a recipe. -/
lemma recipe {id : ℕ} {cls name : String} {var : Option (String × String)}
    {fields recipe : Value} (h : Within recipes root active (.object id cls var fields))
    (hrecipe : recipeOf recipes var = some (name, recipe)) :
    Within recipes root (active ++ [name]) recipe := by
  have hmention : name ∈ mentions recipes (.object id cls var fields) := by
    rw [mentions_recipe hrecipe]
    exact List.mem_singleton_self name
  have hneeds : ∀ other ∈ mentions recipes recipe, Needs recipes name other :=
    fun other hother => ⟨recipe, lookup_of_recipeOf hrecipe, hother⟩
  refine ⟨fun n hn other hother => ?_, fun other hother => ?_⟩
  · rcases List.mem_append.mp hn with hn | hn
    · exact (h.needs n hn name hmention).tail (hneeds other hother)
    · rw [List.mem_singleton.mp hn]
      exact .single (hneeds other hother)
  · obtain ⟨first, hfirst, hreach⟩ := h.reaches name hmention
    exact ⟨first, hfirst, hreach.tail (hneeds other hother)⟩

end Within

/-- **Without a cycle the expansion is finite.**  The induction opens every recipe once on a
branch. -/
theorem grounded_of_not_cyclic {root : Value} (hroot : ¬ Cyclic recipes root) :
    Grounded recipes root := by
  refine @descent_induction recipes
    (fun active value => Within recipes root active value → Grounded recipes value)
    ?_ ?_ ?_ ?_ ?_ ?_ ?_ ?_ [] root (Within.root_self recipes root)
  · exact fun _ data _ => .leaf data
  · exact fun _ _ => .nil
  · exact fun _ key head tail ihhead ihtail h =>
      .cons (ihhead (h.mono (by simp [mentions]))) (ihtail (h.mono (by simp [mentions])))
  · exact fun _ entries ih h => .mapping (ih (h.mono (by simp [mentions])))
  · exact fun _ items ih h => .sequence (ih (h.mono (by simp [mentions])))
  · exact fun _ _ _ _ _ _ _ hrecipe hactive h => absurd (h.cyclic hrecipe hactive) hroot
  · exact fun _ _ _ _ _ _ _ hrecipe _ ih h => .recipe hrecipe (ih (h.recipe hrecipe))
  · exact fun _ _ _ _ _ hnone ih h => .object hnone (ih (h.mono (by simp [hnone])))

end Dependencies

/-! ## Refusals -/

/-- An error of a call whose result is mapped. -/
lemma map_eq_error {ε α β : Type} {x : Except ε α} {f : α → β} {e : ε}
    (h : x.map f = .error e) : x = .error e := by
  cases x with
  | error e' =>
    obtain rfl : e' = e := Except.error.inj h
    rfl
  | ok a => cases h

/-- **A refusal is right**: it is the error of a cycle, and there is one. -/
theorem cyclic_of_error {recipes : Recipes} {root : Value} {active : List String} {value : Value} :
    Within recipes root active value → ∀ {s : CloneState} {e : PyError},
      clone recipes active value s = .error e →
        Cyclic recipes root ∧ ∃ names, e = recipeCycle names := by
  refine @descent_induction recipes (fun active value =>
    Within recipes root active value → ∀ {s : CloneState} {e : PyError},
      clone recipes active value s = .error e →
        Cyclic recipes root ∧ ∃ names, e = recipeCycle names)
    ?_ ?_ ?_ ?_ ?_ ?_ ?_ ?_ active value
  · intro active data _ s e h
    rw [clone] at h
    cases h
  · intro active _ s e h
    rw [clone] at h
    cases h
  · intro active key head tail ihhead ihtail hwithin s e h
    rw [clone] at h
    cases hhead : clone recipes active head s with
    | error e' =>
      rw [hhead] at h
      obtain rfl : e' = e := Except.error.inj h
      exact ihhead (hwithin.mono (by simp [mentions])) hhead
    | ok r =>
      obtain ⟨head', s'⟩ := r
      rw [hhead] at h
      simp only [ok_bind] at h
      cases htail : clone recipes active tail s' with
      | error e' =>
        rw [htail] at h
        obtain rfl : e' = e := Except.error.inj h
        exact ihtail (hwithin.mono (by simp [mentions])) htail
      | ok r' =>
        rw [htail] at h
        cases h
  · intro active entries ih hwithin s e h
    rw [clone] at h
    cases hentries : clone recipes active entries s with
    | error e' =>
      rw [hentries] at h
      obtain rfl : e' = e := Except.error.inj h
      exact ih (hwithin.mono (by simp [mentions])) hentries
    | ok r =>
      rw [hentries] at h
      cases h
  · intro active items ih hwithin s e h
    rw [clone] at h
    cases hitems : clone recipes active items s with
    | error e' =>
      rw [hitems] at h
      obtain rfl : e' = e := Except.error.inj h
      exact ih (hwithin.mono (by simp [mentions])) hitems
    | ok r =>
      rw [hitems] at h
      cases h
  · intro active id cls var fields name recipe hrecipe hactive hwithin s e h
    rw [clone_cycle hrecipe hactive] at h
    exact ⟨hwithin.cyclic hrecipe hactive, _, (Except.error.inj h).symm⟩
  · intro active id cls var fields name recipe hrecipe hactive ih hwithin s e h
    rw [clone_recipe hrecipe hactive] at h
    exact ih (hwithin.recipe hrecipe) h
  · intro active id cls var fields hnone ih hwithin s e h
    cases hmemo : OrderedMap.lookup s.memo id with
    | some index =>
      rw [clone_memo hnone hmemo] at h
      cases h
    | none =>
      rw [clone_new hnone hmemo] at h
      exact ih (hwithin.mono (by simp [hnone])) (map_eq_error h)

/-! ## Images -/

/-- The clone is the value with every recipe in place of its variable, where an object `id` has the
clone `clones id`. -/
inductive Image (recipes : Recipes) (clones : ℕ → Option ℕ) : Value → Clone → Prop
  | leaf (data : Leaf) : Image recipes clones (.leaf data) (.leaf data)
  | nil : Image recipes clones .nil .nil
  | cons {key : String} {head tail : Value} {head' tail' : Clone} :
      Image recipes clones head head' → Image recipes clones tail tail' →
      Image recipes clones (.cons key head tail) (.cons key head' tail')
  | mapping {entries : Value} {entries' : Clone} : Image recipes clones entries entries' →
      Image recipes clones (.mapping entries) (.mapping entries')
  | sequence {items : Value} {items' : Clone} : Image recipes clones items items' →
      Image recipes clones (.sequence items) (.sequence items')
  | object {id index : ℕ} {cls : String} {var : Option (String × String)} {fields : Value} :
      recipeOf recipes var = none → clones id = some index →
      Image recipes clones (.object id cls var fields) (.ref index)
  | recipe {id : ℕ} {cls name : String} {var : Option (String × String)} {fields recipe : Value}
      {out : Clone} : recipeOf recipes var = some (name, recipe) → Image recipes clones recipe out →
      Image recipes clones (.object id cls var fields) out

/-- More clones leave an image an image. -/
lemma Image.mono {recipes : Recipes} {clones clones' : ℕ → Option ℕ}
    (hsub : ∀ id index, clones id = some index → clones' id = some index) {value : Value}
    {out : Clone} (h : Image recipes clones value out) : Image recipes clones' value out := by
  induction h with
  | leaf data => exact .leaf data
  | nil => exact .nil
  | cons _ _ ihhead ihtail => exact .cons ihhead ihtail
  | mapping _ ih => exact .mapping ih
  | sequence _ ih => exact .sequence ih
  | object hnone hindex => exact .object hnone (hsub _ _ hindex)
  | recipe hsome _ ih => exact .recipe hsome ih

/-- The clone of an object. -/
def CloneState.clones (s : CloneState) (id : ℕ) : Option ℕ := OrderedMap.lookup s.memo id

/-- The new objects are the clones of objects of the input, each the clone of one, and complete but
for the objects that are open. -/
structure Built (input : Input) (s : CloneState) (pending : List ℕ) : Prop where
  index_lt : ∀ id index, s.clones id = some index → index < s.heap.length
  injective : ∀ id id' index, s.clones id = some index → s.clones id' = some index → id = id'
  covered : ∀ index object, s.heap[index]? = some object →
    ∃ o ∈ input.objects, recipeOf input.recipes o.var = none ∧ o.var = object.var ∧
      s.clones o.id = some index
  complete : ∀ o ∈ input.objects, recipeOf input.recipes o.var = none → ∀ index,
    s.clones o.id = some index → o.id ∉ pending → ∃ fields,
      s.heap[index]? = some ⟨o.cls, o.var, fields⟩ ∧ Image input.recipes s.clones o.fields fields

/-- A later state keeps the clones and the new objects. -/
structure Extends (s s' : CloneState) : Prop where
  clones : ∀ id index, s.clones id = some index → s'.clones id = some index
  heap : ∀ index, index < s.heap.length → s'.heap[index]? = s.heap[index]?

/-- A state extends itself. -/
lemma Extends.refl (s : CloneState) : Extends s s := ⟨fun _ _ h => h, fun _ _ => rfl⟩

/-- An extension has no fewer objects. -/
lemma Extends.length_le {s s' : CloneState} (h : Extends s s') :
    s.heap.length ≤ s'.heap.length := by
  by_contra hlt
  have hindex := h.heap s'.heap.length (by omega)
  rw [List.getElem?_eq_none le_rfl, List.getElem?_eq_getElem (by omega)] at hindex
  cases hindex

/-- Extensions of extensions are extensions. -/
theorem Extends.trans {s s' s'' : CloneState} (h : Extends s s') (h' : Extends s' s'') :
    Extends s s'' :=
  ⟨fun id index hindex => h'.clones id index (h.clones id index hindex), fun index hindex =>
    (h'.heap index (lt_of_lt_of_le hindex h.length_le)).trans (h.heap index hindex)⟩

/-! ### Entering and leaving an object -/

section Object

variable {input : Input} {s : CloneState} {pending : List ℕ} {id : ℕ} {cls : String}
  {var : Option (String × String)} {fields : Value}

/-- The clones after an object was entered. -/
lemma clones_enter (other : ℕ) : (s.enter id cls var).clones other =
    if id = other then some s.heap.length else s.clones other := rfl

/-- Entering a new object extends the state. -/
lemma extends_enter (hmemo : s.clones id = none) : Extends s (s.enter id cls var) := by
  refine ⟨fun other index h => ?_, fun index h => ?_⟩
  · rw [clones_enter, if_neg]
    · exact h
    · rintro rfl
      rw [hmemo] at h
      cases h
  · exact List.getElem?_append_left h

/-- Entering an object opens it. -/
lemma Built.enter (h : Built input s pending) (hmemo : s.clones id = none)
    (howns : input.Owns (.object id cls var fields)) (hnone : recipeOf input.recipes var = none) :
    Built input (s.enter id cls var) (id :: pending) := by
  have hextends : Extends s (s.enter id cls var) := extends_enter hmemo
  have hlength : (s.enter id cls var).heap.length = s.heap.length + 1 := by
    simp [CloneState.enter]
  refine ⟨fun other index hindex => ?_, fun other other' index hindex hindex' => ?_,
    fun index object hobject => ?_, fun o ho hrecipe index hindex hpending => ?_⟩
  · rw [clones_enter] at hindex
    split_ifs at hindex with heq
    · obtain rfl := Option.some.inj hindex
      omega
    · have := h.index_lt other index hindex
      omega
  · rw [clones_enter] at hindex hindex'
    split_ifs at hindex hindex' with heq heq' heq'
    · exact heq.symm.trans heq'
    · obtain rfl := Option.some.inj hindex
      exact absurd (h.index_lt other' _ hindex') (lt_irrefl _)
    · obtain rfl := Option.some.inj hindex'
      exact absurd (h.index_lt other _ hindex) (lt_irrefl _)
    · exact h.injective other other' index hindex hindex'
  · by_cases hold : index < s.heap.length
    · rw [hextends.heap index hold] at hobject
      obtain ⟨o, ho, hrecipe, hvar, hindex⟩ := h.covered index object hobject
      exact ⟨o, ho, hrecipe, hvar, hextends.clones _ _ hindex⟩
    · have hlast : index = s.heap.length := by
        have := (List.getElem?_eq_some_iff.mp hobject).1
        omega
      subst hlast
      refine ⟨⟨id, cls, var, fields⟩, howns (by simp [Value.objects]), hnone, ?_, ?_⟩
      · rw [CloneState.enter, List.getElem?_append_right le_rfl, Nat.sub_self] at hobject
        rw [← Option.some.inj hobject]
      · rw [clones_enter, if_pos rfl]
  · rw [List.mem_cons, not_or] at hpending
    rw [clones_enter, if_neg (Ne.symm hpending.1)] at hindex
    obtain ⟨out, hheap, himage⟩ := h.complete o ho hrecipe index hindex hpending.2
    exact ⟨out, (hextends.heap index (h.index_lt _ _ hindex)).trans hheap,
      himage.mono hextends.clones⟩

/-- Leaving an object with the image of its fields completes it. -/
lemma Built.leave (h : Built input s (id :: pending)) {index : ℕ} {out : Clone}
    (hindex : s.clones id = some index) (howns : input.Owns (.object id cls var fields))
    (hout : Image input.recipes s.clones fields out) (hnone : recipeOf input.recipes var = none) :
    Built input (s.leave index cls var out) pending := by
  have hmem : (⟨id, cls, var, fields⟩ : Object) ∈ input.objects := howns (by simp [Value.objects])
  refine ⟨fun other k hk => ?_, h.injective, fun k object hobject => ?_,
    fun o ho hrecipe k hk hpending => ?_⟩
  · rw [CloneState.leave, List.length_set]
    exact h.index_lt other k hk
  · rw [CloneState.leave, List.getElem?_set] at hobject
    split_ifs at hobject with heq hlt
    · subst heq
      obtain rfl := Option.some.inj hobject
      exact ⟨_, hmem, hnone, rfl, hindex⟩
    · exact h.covered k object hobject
  · by_cases hid : o.id = id
    · -- the object that is left, by its identity
      obtain rfl : o = ⟨id, cls, var, fields⟩ := input.identity o ho _ hmem hid
      have hk' : index = k := Option.some.inj (hindex.symm.trans hk)
      subst hk'
      exact ⟨out, List.getElem?_set_self (h.index_lt _ _ hindex), hout⟩
    · obtain ⟨out', hheap, himage⟩ :=
        h.complete o ho hrecipe k hk (by simp [hid, hpending])
      have hne : index ≠ k := fun heq => hid (h.injective _ _ k hk (heq ▸ hindex))
      exact ⟨out', (List.getElem?_set_ne hne).trans hheap, himage⟩

/-- The state after an object keeps what was there before it. -/
lemma Extends.leave {s' : CloneState} (h : Extends s s') {index : ℕ} {object : CloneObject}
    (hindex : s.heap.length ≤ index) :
    Extends s (s'.leave index object.cls object.var object.fields) :=
  ⟨h.clones, fun k hk => (List.getElem?_set_ne (by omega)).trans (h.heap k hk)⟩

end Object

/-- **What a call returns is an image**, and the new objects stay complete. -/
theorem clone_image {input : Input} {active : List String} {value : Value} :
    ∀ {s s' : CloneState} {pending : List ℕ} {out : Clone}, input.Owns value →
      Built input s pending → clone input.recipes active value s = .ok (out, s') →
      Built input s' pending ∧ Extends s s' ∧ Image input.recipes s'.clones value out := by
  refine @descent_induction input.recipes (fun active value =>
    ∀ {s s' : CloneState} {pending : List ℕ} {out : Clone}, input.Owns value →
      Built input s pending → clone input.recipes active value s = .ok (out, s') →
      Built input s' pending ∧ Extends s s' ∧ Image input.recipes s'.clones value out)
    ?_ ?_ ?_ ?_ ?_ ?_ ?_ ?_ active value
  · intro active data s s' pending out _ hbuilt h
    rw [clone] at h
    obtain ⟨rfl, rfl⟩ := Prod.mk.inj (Except.ok.inj h)
    exact ⟨hbuilt, .refl s, .leaf data⟩
  · intro active s s' pending out _ hbuilt h
    rw [clone] at h
    obtain ⟨rfl, rfl⟩ := Prod.mk.inj (Except.ok.inj h)
    exact ⟨hbuilt, .refl s, .nil⟩
  · intro active key head tail ihhead ihtail s s' pending out howns hbuilt h
    rw [clone] at h
    simp only [bind_eq_ok, Except.ok.injEq, Prod.mk.injEq, Prod.exists] at h
    obtain ⟨head', s₁, hhead, tail', s₂, htail, rfl, rfl⟩ := h
    have howns' := List.append_subset.mp howns
    obtain ⟨hbuilt₁, hextends₁, himage₁⟩ := ihhead howns'.1 hbuilt hhead
    obtain ⟨hbuilt₂, hextends₂, himage₂⟩ := ihtail howns'.2 hbuilt₁ htail
    exact ⟨hbuilt₂, hextends₁.trans hextends₂, .cons (himage₁.mono hextends₂.clones) himage₂⟩
  · intro active entries ih s s' pending out howns hbuilt h
    rw [clone] at h
    simp only [bind_eq_ok, Except.ok.injEq, Prod.mk.injEq, Prod.exists] at h
    obtain ⟨entries', s₁, hentries, rfl, rfl⟩ := h
    obtain ⟨hbuilt₁, hextends₁, himage₁⟩ := ih howns hbuilt hentries
    exact ⟨hbuilt₁, hextends₁, .mapping himage₁⟩
  · intro active items ih s s' pending out howns hbuilt h
    rw [clone] at h
    simp only [bind_eq_ok, Except.ok.injEq, Prod.mk.injEq, Prod.exists] at h
    obtain ⟨items', s₁, hitems, rfl, rfl⟩ := h
    obtain ⟨hbuilt₁, hextends₁, himage₁⟩ := ih howns hbuilt hitems
    exact ⟨hbuilt₁, hextends₁, .sequence himage₁⟩
  · intro active id cls var fields name recipe hrecipe hactive s s' pending out _ _ h
    rw [clone_cycle hrecipe hactive] at h
    cases h
  · intro active id cls var fields name recipe hrecipe hactive ih s s' pending out _ hbuilt h
    rw [clone_recipe hrecipe hactive] at h
    obtain ⟨hbuilt', hextends, himage⟩ := ih (input.owns_recipe hrecipe) hbuilt h
    exact ⟨hbuilt', hextends, .recipe hrecipe himage⟩
  · intro active id cls var fields hnone ih s s' pending out howns hbuilt h
    cases hmemo : OrderedMap.lookup s.memo id with
    | some index =>
      rw [clone_memo hnone hmemo] at h
      obtain ⟨rfl, rfl⟩ := Prod.mk.inj (Except.ok.inj h)
      exact ⟨hbuilt, .refl s, .object hnone hmemo⟩
    | none =>
      rw [clone_new hnone hmemo] at h
      cases hfields : clone input.recipes active fields (s.enter id cls var) with
      | error e =>
        rw [hfields] at h
        cases h
      | ok r =>
        obtain ⟨fields', s₁⟩ := r
        rw [hfields] at h
        obtain ⟨rfl, rfl⟩ := Prod.mk.inj (Except.ok.inj h)
        have hfieldsOwn : input.Owns fields :=
          fun o ho => howns (by simp [Value.objects, ho])
        obtain ⟨hbuilt₁, hextends₁, himage₁⟩ :=
          ih hfieldsOwn (hbuilt.enter hmemo howns hnone) hfields
        have hindex : s₁.clones id = some s.heap.length :=
          hextends₁.clones id _ (by rw [clones_enter, if_pos rfl])
        refine ⟨hbuilt₁.leave hindex howns himage₁ hnone, ?_, .object hnone hindex⟩
        exact @Extends.leave _ _ ((extends_enter hmemo).trans hextends₁) _ ⟨cls, var,
          fields'⟩ le_rfl

/-! ## Values -/

/-- A meaning of the classes, of containers and of data; an environment is part of the meaning of a
variable without a recipe. -/
structure Meaning (D : Type) where
  leaf : Leaf → D
  nil : D
  cons : String → D → D → D
  object : String → Option (String × String) → D → D
  mapping : D → D
  sequence : D → D

/-- The value of an expression, in which a variable with a recipe has the value of its recipe. -/
inductive Denotes {D : Type} (meaning : Meaning D) (recipes : Recipes) : Value → D → Prop
  | leaf (data : Leaf) : Denotes meaning recipes (.leaf data) (meaning.leaf data)
  | nil : Denotes meaning recipes .nil meaning.nil
  | cons {key : String} {head tail : Value} {a b : D} : Denotes meaning recipes head a →
      Denotes meaning recipes tail b →
      Denotes meaning recipes (.cons key head tail) (meaning.cons key a b)
  | mapping {entries : Value} {a : D} : Denotes meaning recipes entries a →
      Denotes meaning recipes (.mapping entries) (meaning.mapping a)
  | sequence {items : Value} {a : D} : Denotes meaning recipes items a →
      Denotes meaning recipes (.sequence items) (meaning.sequence a)
  | object {id : ℕ} {cls : String} {var : Option (String × String)} {fields : Value} {a : D} :
      recipeOf recipes var = none → Denotes meaning recipes fields a →
      Denotes meaning recipes (.object id cls var fields) (meaning.object cls var a)
  | recipe {id : ℕ} {cls name : String} {var : Option (String × String)} {fields recipe : Value}
      {a : D} : recipeOf recipes var = some (name, recipe) → Denotes meaning recipes recipe a →
      Denotes meaning recipes (.object id cls var fields) a

/-- The value of a clone. -/
inductive Evaluates {D : Type} (meaning : Meaning D) (heap : List CloneObject) : Clone → D → Prop
  | leaf (data : Leaf) : Evaluates meaning heap (.leaf data) (meaning.leaf data)
  | nil : Evaluates meaning heap .nil meaning.nil
  | cons {key : String} {head tail : Clone} {a b : D} : Evaluates meaning heap head a →
      Evaluates meaning heap tail b →
      Evaluates meaning heap (.cons key head tail) (meaning.cons key a b)
  | mapping {entries : Clone} {a : D} : Evaluates meaning heap entries a →
      Evaluates meaning heap (.mapping entries) (meaning.mapping a)
  | sequence {items : Clone} {a : D} : Evaluates meaning heap items a →
      Evaluates meaning heap (.sequence items) (meaning.sequence a)
  | ref {index : ℕ} {object : CloneObject} {a : D} : heap[index]? = some object →
      Evaluates meaning heap object.fields a →
      Evaluates meaning heap (.ref index) (meaning.object object.cls object.var a)

/-- An expression whose expansion is finite has a value. -/
lemma Grounded.denotes {D : Type} (meaning : Meaning D) {recipes : Recipes} {value : Value}
    (h : Grounded recipes value) : ∃ d, Denotes meaning recipes value d := by
  induction h with
  | leaf data => exact ⟨_, .leaf data⟩
  | nil => exact ⟨_, .nil⟩
  | cons _ _ ihhead ihtail =>
    obtain ⟨a, ha⟩ := ihhead
    obtain ⟨b, hb⟩ := ihtail
    exact ⟨_, .cons ha hb⟩
  | mapping _ ih =>
    obtain ⟨a, ha⟩ := ih
    exact ⟨_, .mapping ha⟩
  | sequence _ ih =>
    obtain ⟨a, ha⟩ := ih
    exact ⟨_, .sequence ha⟩
  | object hnone _ ih =>
    obtain ⟨a, ha⟩ := ih
    exact ⟨_, .object hnone ha⟩
  | recipe hsome _ ih =>
    obtain ⟨a, ha⟩ := ih
    exact ⟨a, .recipe hsome ha⟩

/-- **The clone has the value of the expression**, once all new objects are complete. -/
theorem Denotes.evaluates {D : Type} {meaning : Meaning D} {input : Input} {s : CloneState}
    (hbuilt : Built input s []) {value : Value} {d : D}
    (h : Denotes meaning input.recipes value d) : ∀ {out : Clone}, input.Owns value →
      Image input.recipes s.clones value out → Evaluates meaning s.heap out d := by
  induction h with
  | leaf data =>
    rintro out _ ⟨⟩
    exact .leaf data
  | nil =>
    rintro out _ ⟨⟩
    exact .nil
  | cons _ _ ihhead ihtail =>
    rintro out howns ⟨⟩
    rename_i himage himage'
    have howns' := List.append_subset.mp howns
    exact .cons (ihhead howns'.1 himage) (ihtail howns'.2 himage')
  | mapping _ ih =>
    rintro out howns ⟨⟩
    rename_i himage
    exact .mapping (ih howns himage)
  | sequence _ ih =>
    rintro out howns ⟨⟩
    rename_i himage
    exact .sequence (ih howns himage)
  | @object id cls var fields a hnone _ ih =>
    intro out howns himage
    cases himage with
    | object _ hindex =>
      have hmem : (⟨id, cls, var, fields⟩ : Object) ∈ input.objects :=
        howns (by simp [Value.objects])
      obtain ⟨fields', hheap, hfields⟩ := hbuilt.complete _ hmem hnone _ hindex (by simp)
      exact .ref hheap (ih (fun o ho => howns (by simp [Value.objects, ho])) hfields)
    | recipe hsome _ =>
      rw [hnone] at hsome
      cases hsome
  | recipe hsome _ ih =>
    intro out howns himage
    cases himage with
    | object hnone _ =>
      rw [hnone] at hsome
      cases hsome
    | recipe hsome' himage' =>
      rw [hsome] at hsome'
      obtain ⟨rfl, rfl⟩ := Prod.mk.inj (Option.some.inj hsome')
      exact ih (input.owns_recipe hsome) himage'

/-! ## Cycles that are refused -/

/-- What a walk comes back to while it is still inside. -/
inductive Reentry
  | object
  | recipe
  deriving DecidableEq

/-- What the walk from left to right through fields, containers and recipes, which remembers no
object that it has left, comes back to first: an object that it is inside of, or a recipe that is
open. -/
def firstReentry (recipes : Recipes) (path : List ℕ) (active : List String) :
    Value → Option Reentry
  | .leaf _ => none
  | .nil => none
  | .cons _ head tail =>
    match firstReentry recipes path active head with
    | some reentry => some reentry
    | none => firstReentry recipes path active tail
  | .mapping entries => firstReentry recipes path active entries
  | .sequence items => firstReentry recipes path active items
  | .object id _ var fields =>
    match _hrecipe : recipeOf recipes var with
    | some (name, recipe) =>
      if _hactive : name ∈ active then some .recipe
      else firstReentry recipes path (active ++ [name]) recipe
    | none => if id ∈ path then some .object else firstReentry recipes (id :: path) active fields
termination_by value => (unopened recipes active, sizeOf value)
decreasing_by
  all_goals first
    | exact Prod.Lex.left _ _ (unopened_lt _hrecipe _hactive)
    | exact Prod.Lex.right _ (by simp; omega)
    | exact Prod.Lex.right _ (by simp)

section Reentries

variable {recipes : Recipes} {path : List ℕ} {active : List String} {id : ℕ} {cls key name : String}
  {var : Option (String × String)} {head tail fields recipe : Value}

/-- The walk comes back in the tail of a list only when it does not in the head. -/
lemma firstReentry_cons : firstReentry recipes path active (.cons key head tail) =
    (firstReentry recipes path active head).or (firstReentry recipes path active tail) := by
  rw [firstReentry]
  cases firstReentry recipes path active head <;> rfl

/-- A variable with a recipe. -/
lemma firstReentry_recipe (h : recipeOf recipes var = some (name, recipe)) :
    firstReentry recipes path active (.object id cls var fields) =
      if name ∈ active then some .recipe
      else firstReentry recipes path (active ++ [name]) recipe := by
  rw [firstReentry]
  split
  · rename_i heq
    rw [h] at heq
    obtain ⟨rfl, rfl⟩ := Prod.mk.inj (Option.some.inj heq)
    rfl
  · rename_i heq
    rw [h] at heq
    cases heq

/-- Another object. -/
lemma firstReentry_object (h : recipeOf recipes var = none) :
    firstReentry recipes path active (.object id cls var fields) =
      if id ∈ path then some .object else firstReentry recipes (id :: path) active fields := by
  rw [firstReentry]
  split
  · rename_i heq
    rw [h] at heq
    cases heq
  · rfl

/-- The walk through a finite expansion comes back to no open recipe. -/
lemma Grounded.firstReentry_ne_recipe {root value : Value} (h : Grounded recipes value) :
    ∀ {path : List ℕ} {active : List String}, Within recipes root active value →
      firstReentry recipes path active value ≠ some .recipe := by
  induction h with
  | leaf data =>
    intro path active _
    rw [firstReentry]
    simp
  | nil =>
    intro path active _
    rw [firstReentry]
    simp
  | @cons key head tail _ _ ihhead ihtail =>
    intro path active hwithin
    have hhead := @ihhead path active (hwithin.mono (by simp [mentions]))
    have htail := @ihtail path active (hwithin.mono (by simp [mentions]))
    rw [firstReentry_cons]
    cases hfirst : firstReentry recipes path active head with
    | none => exact htail
    | some reentry => rwa [hfirst] at hhead
  | mapping _ ih =>
    intro path active hwithin
    rw [firstReentry]
    exact ih (hwithin.mono (by simp [mentions]))
  | sequence _ ih =>
    intro path active hwithin
    rw [firstReentry]
    exact ih (hwithin.mono (by simp [mentions]))
  | object hnone _ ih =>
    intro path active hwithin
    rw [firstReentry_object hnone]
    split_ifs with hid
    · simp
    · exact ih (hwithin.mono (by simp [hnone]))
  | @recipe id cls name var fields recipe hsome hground ih =>
    intro path active hwithin
    rw [firstReentry_recipe hsome, if_neg]
    · exact ih (hwithin.recipe hsome)
    · -- an open recipe would need itself, but the name is founded
      intro hactive
      have hmention : name ∈ mentions recipes (.object id cls var fields) := by
        rw [mentions_recipe hsome]
        exact List.mem_singleton_self name
      exact not_transGen_of_acc ((Grounded.recipe hsome hground).acc name hmention)
        (hwithin.needs name hactive name hmention)

end Reentries

/-- The objects that were met are open, or their expansions are finite. -/
def Settled (input : Input) (s : CloneState) (path : List ℕ) : Prop :=
  ∀ o ∈ input.objects, recipeOf input.recipes o.var = none → s.clones o.id ≠ none →
    o.id ∈ path ∨ Grounded input.recipes o.fields

/-- **What returns is finite**, unless the walk comes back to an open object first.

**Proof sketch.** An object that is found in the memo is not open, because the walk would come back
to it, so its expansion is known to be finite.  The walk through what returned comes back to no open
recipe either, so that it goes on in the rest of a list as the call does. -/
theorem grounded_of_clone {input : Input} {active : List String} {value : Value} :
    ∀ {path : List ℕ} {s s' : CloneState} {out : Clone},
      Within input.recipes input.expressions active value → input.Owns value →
      firstReentry input.recipes path active value ≠ some .object →
      Settled input s path → clone input.recipes active value s = .ok (out, s') →
      Grounded input.recipes value ∧ Settled input s' path := by
  refine @descent_induction input.recipes (fun active value =>
    ∀ {path : List ℕ} {s s' : CloneState} {out : Clone},
      Within input.recipes input.expressions active value → input.Owns value →
      firstReentry input.recipes path active value ≠ some .object →
      Settled input s path → clone input.recipes active value s = .ok (out, s') →
      Grounded input.recipes value ∧ Settled input s' path)
    ?_ ?_ ?_ ?_ ?_ ?_ ?_ ?_ active value
  · intro active data path s s' out _ _ _ hsettled h
    rw [clone] at h
    obtain ⟨_, rfl⟩ := Prod.mk.inj (Except.ok.inj h)
    exact ⟨.leaf data, hsettled⟩
  · intro active path s s' out _ _ _ hsettled h
    rw [clone] at h
    obtain ⟨_, rfl⟩ := Prod.mk.inj (Except.ok.inj h)
    exact ⟨.nil, hsettled⟩
  · intro active key head tail ihhead ihtail path s s' out hwithin howns hfirst hsettled h
    rw [clone] at h
    simp only [bind_eq_ok, Except.ok.injEq, Prod.mk.injEq, Prod.exists] at h
    obtain ⟨head', s₁, hhead, tail', s₂, htail, _, rfl⟩ := h
    have howns' := List.append_subset.mp howns
    have hwithin' : Within input.recipes input.expressions active head :=
      hwithin.mono (by simp [mentions])
    rw [firstReentry_cons] at hfirst
    have hfirst' : firstReentry input.recipes path active head ≠ some .object := by
      intro heq
      rw [heq] at hfirst
      exact hfirst rfl
    obtain ⟨hground, hsettled₁⟩ := ihhead hwithin' howns'.1 hfirst' hsettled hhead
    -- the walk comes back to nothing in the head
    have hnone : firstReentry input.recipes path active head = none := by
      have hrecipe : firstReentry input.recipes path active head ≠ some .recipe :=
        hground.firstReentry_ne_recipe hwithin'
      rcases hcases : firstReentry input.recipes path active head with _ | (_ | _)
      · rfl
      · exact absurd hcases hfirst'
      · exact absurd hcases hrecipe
    rw [hnone, Option.none_or] at hfirst
    obtain ⟨hground', hsettled₂⟩ :=
      ihtail (hwithin.mono (by simp [mentions])) howns'.2 hfirst hsettled₁ htail
    exact ⟨.cons hground hground', hsettled₂⟩
  · intro active entries ih path s s' out hwithin howns hfirst hsettled h
    rw [clone] at h
    rw [firstReentry] at hfirst
    simp only [bind_eq_ok, Except.ok.injEq, Prod.mk.injEq, Prod.exists] at h
    obtain ⟨entries', s₁, hentries, _, rfl⟩ := h
    obtain ⟨hground, hsettled₁⟩ :=
      ih (hwithin.mono (by simp [mentions])) howns hfirst hsettled hentries
    exact ⟨.mapping hground, hsettled₁⟩
  · intro active items ih path s s' out hwithin howns hfirst hsettled h
    rw [clone] at h
    rw [firstReentry] at hfirst
    simp only [bind_eq_ok, Except.ok.injEq, Prod.mk.injEq, Prod.exists] at h
    obtain ⟨items', s₁, hitems, _, rfl⟩ := h
    obtain ⟨hground, hsettled₁⟩ :=
      ih (hwithin.mono (by simp [mentions])) howns hfirst hsettled hitems
    exact ⟨.sequence hground, hsettled₁⟩
  · intro active id cls var fields name recipe hrecipe hactive path s s' out _ _ _ _ h
    rw [clone_cycle hrecipe hactive] at h
    cases h
  · intro active id cls var fields name recipe hrecipe hactive ih path s s' out hwithin _ hfirst
      hsettled h
    rw [clone_recipe hrecipe hactive] at h
    rw [firstReentry_recipe hrecipe, if_neg hactive] at hfirst
    obtain ⟨hground, hsettled'⟩ := ih (hwithin.recipe hrecipe) (input.owns_recipe hrecipe) hfirst
      hsettled h
    exact ⟨.recipe hrecipe hground, hsettled'⟩
  · intro active id cls var fields hnone ih path s s' out hwithin howns hfirst hsettled h
    have hmem : (⟨id, cls, var, fields⟩ : Object) ∈ input.objects :=
      howns (by simp [Value.objects])
    rw [firstReentry_object hnone] at hfirst
    have hnot : id ∉ path := by
      intro hid
      rw [if_pos hid] at hfirst
      exact hfirst rfl
    rw [if_neg hnot] at hfirst
    cases hmemo : OrderedMap.lookup s.memo id with
    | some index =>
      rw [clone_memo hnone hmemo] at h
      obtain ⟨_, rfl⟩ := Prod.mk.inj (Except.ok.inj h)
      have hfound : s.clones id ≠ none := by
        rw [CloneState.clones, hmemo]
        simp
      rcases hsettled _ hmem hnone hfound with hopen | hground
      · exact absurd hopen hnot
      · exact ⟨.object hnone hground, hsettled⟩
    | none =>
      rw [clone_new hnone hmemo] at h
      cases hfields : clone input.recipes active fields (s.enter id cls var) with
      | error e =>
        rw [hfields] at h
        cases h
      | ok r =>
        obtain ⟨fields', s₁⟩ := r
        rw [hfields] at h
        obtain ⟨_, rfl⟩ := Prod.mk.inj (Except.ok.inj h)
        have henter : Settled input (s.enter id cls var) (id :: path) := by
          intro o ho hrecipe hfound
          by_cases hid : id = o.id
          · exact .inl (by simp [hid])
          · rw [clones_enter, if_neg hid] at hfound
            rcases hsettled o ho hrecipe hfound with hopen | hground
            · exact .inl (by simp [hopen])
            · exact .inr hground
        obtain ⟨hground, hsettled₁⟩ := ih (hwithin.mono (by simp [hnone]))
          (fun o ho => howns (by simp [Value.objects, ho])) hfirst henter hfields
        refine ⟨.object hnone hground, fun o ho hrecipe hfound => ?_⟩
        rcases hsettled₁ o ho hrecipe hfound with hopen | hground'
        · rcases List.mem_cons.mp hopen with hid | hopen
          · -- the object that was left is finite now
            obtain rfl : o = ⟨id, cls, var, fields⟩ := input.identity o ho _ hmem hid
            exact .inr hground
          · exact .inl hopen
        · exact .inr hground'

/-! ## The expansion -/

/-- What an expansion has to return: no variable with a recipe is left, the clone is the expression
with the recipes in place, an object has one clone and a clone belongs to one object, and the value
is that of the expression through its recipes. -/
structure Expanded (input : Input) (out : Clone) (s : CloneState) : Prop where
  no_recipe : ∀ (index : ℕ) (object : CloneObject), s.heap[index]? = some object →
    recipeOf input.recipes object.var = none
  image : Image input.recipes s.clones input.expressions out
  complete : ∀ o ∈ input.objects, recipeOf input.recipes o.var = none → ∀ index,
    s.clones o.id = some index → ∃ fields, s.heap[index]? = some ⟨o.cls, o.var, fields⟩ ∧
      Image input.recipes s.clones o.fields fields
  injective : ∀ id id' index, s.clones id = some index → s.clones id' = some index → id = id'
  value : ∀ (D : Type) (meaning : Meaning D),
    (∃ d, Denotes meaning input.recipes input.expressions d) ∧
      ∀ d, Denotes meaning input.recipes input.expressions d → Evaluates meaning s.heap out d

/-- Before the first call there is nothing to complete. -/
lemma built_start (input : Input) : Built input ⟨[], []⟩ [] where
  index_lt _ _ h := nomatch h
  injective _ _ _ h := nomatch h
  covered _ _ h := nomatch h
  complete _ _ _ _ h := nomatch h

/-- The expression is made of objects of the input. -/
lemma Input.owns_expressions (input : Input) : input.Owns input.expressions :=
  fun _ ho => List.mem_append_left _ ho

/-- **An expansion without a cycle** returns what it has to return. -/
theorem expanded_of_not_cyclic (input : Input)
    (h : ¬ Cyclic input.recipes input.expressions) :
    ∃ out s, expandPrimitiveRecipes input.expressions input.recipes = .ok (out, s) ∧
      Expanded input out s := by
  cases hcall : expandPrimitiveRecipes input.expressions input.recipes with
  | error e => exact absurd (cyclic_of_error (Within.root_self _ _) hcall).1 h
  | ok r =>
    obtain ⟨out, s⟩ := r
    obtain ⟨hbuilt, _, himage⟩ :=
      clone_image input.owns_expressions (built_start input) hcall
    refine ⟨out, s, rfl, ?_, himage, ?_, hbuilt.injective, fun D meaning => ⟨?_, ?_⟩⟩
    · intro index object hobject
      obtain ⟨o, _, hrecipe, hvar, _⟩ := hbuilt.covered index object hobject
      rw [← hvar]
      exact hrecipe
    · exact fun o ho hrecipe index hindex =>
        hbuilt.complete o ho hrecipe index hindex (by simp)
    · exact (grounded_of_not_cyclic h).denotes meaning
    · exact fun d hd => hd.evaluates hbuilt input.owns_expressions himage

/-- **Primitive recipes expand soundly or are refused**, on every input without a cycle and on every
input whose walk does not come back to an open object before it comes back to an open recipe.

**Proof sketch.** A refusal closes a chain of needs.  A call that returns on such an input has only
met objects whose expansions are finite, so the expression has no cycle. -/
theorem expandPrimitiveRecipes_of_clear (input : Input)
    (h : ¬ Cyclic input.recipes input.expressions ∨
      firstReentry input.recipes [] [] input.expressions ≠ some .object) :
    ((∃ names, expandPrimitiveRecipes input.expressions input.recipes =
        .error (recipeCycle names)) ↔ Cyclic input.recipes input.expressions) ∧
    (¬ Cyclic input.recipes input.expressions → ∃ out s,
      expandPrimitiveRecipes input.expressions input.recipes = .ok (out, s) ∧
        Expanded input out s) := by
  refine ⟨⟨?_, fun hcyclic => ?_⟩, expanded_of_not_cyclic input⟩
  · rintro ⟨names, hcall⟩
    exact (cyclic_of_error (Within.root_self _ _) hcall).1
  · have hclear := h.resolve_left (not_not.mpr hcyclic)
    cases hcall : expandPrimitiveRecipes input.expressions input.recipes with
    | error e =>
      obtain ⟨_, names, rfl⟩ := cyclic_of_error (Within.root_self _ _) hcall
      exact ⟨names, rfl⟩
    | ok r =>
      have hsettled : Settled input ⟨[], []⟩ [] := fun o _ _ hfound => absurd rfl hfound
      obtain ⟨hground, _⟩ := grounded_of_clone (Within.root_self _ _) input.owns_expressions hclear
        hsettled hcall
      exact absurd hcyclic hground.not_cyclic

/-- The variable `p`, and the variable `u` as its recipe. -/
def renamed : Input where
  expressions := .object 0 "Var" (some ("prim", "p")) .nil
  recipes := [("p", .object 1 "Var" (some ("cons", "u")) .nil)]
  identity := by decide

/-- The recipe `r = p + 1` of `p`. -/
def selfRecipe : Value :=
  .object 1 "Add" none (.cons "a" (.object 0 "Var" (some ("prim", "p")) .nil)
    (.cons "b" (.leaf (.other 1)) .nil))

/-- The variable `q`, whose recipe is the variable itself, in front of the recipe of `p`. -/
def refusedFirst : Input where
  expressions := .sequence (.cons "0" (.object 2 "Var" (some ("prim", "q")) .nil)
    (.cons "1" selfRecipe .nil))
  recipes := [("p", selfRecipe), ("q", .object 2 "Var" (some ("prim", "q")) .nil)]
  identity := by decide

/-- An expression without a cycle, and one with two cycles of which the first is refused. -/
theorem expandPrimitiveRecipes_renamed :
    (¬ Cyclic renamed.recipes renamed.expressions ∧
      ∃ out s, expandPrimitiveRecipes renamed.expressions renamed.recipes = .ok (out, s) ∧
        Expanded renamed out s) ∧
    Cyclic refusedFirst.recipes refusedFirst.expressions ∧
      ∃ names, expandPrimitiveRecipes refusedFirst.expressions refusedFirst.recipes =
        .error (recipeCycle names) := by
  have hacyclic : ¬ Cyclic renamed.recipes renamed.expressions :=
    Grounded.not_cyclic (.recipe rfl
      (.object rfl .nil : Grounded renamed.recipes (.object 1 "Var" (some ("cons", "u")) .nil)))
  have hneeds : Needs refusedFirst.recipes "q" "q" :=
    ⟨.object 2 "Var" (some ("prim", "q")) .nil, by simp [refusedFirst,
      OrderedMap.lookup], by decide⟩
  have hcyclic : Cyclic refusedFirst.recipes refusedFirst.expressions :=
    ⟨"q", ⟨"q", by decide, .refl⟩, .single hneeds⟩
  have hfirst : firstReentry refusedFirst.recipes [] [] refusedFirst.expressions ≠
      some .object := by
    simp [refusedFirst, firstReentry, recipeOf, OrderedMap.lookup]
  exact ⟨⟨hacyclic, (expandPrimitiveRecipes_of_clear renamed (.inl hacyclic)).2 hacyclic⟩, hcyclic,
    (expandPrimitiveRecipes_of_clear refusedFirst (.inr hfirst)).1.mpr hcyclic⟩

/-- The recipe of `p` as the expression. -/
def selfNamed : Input where
  expressions := selfRecipe
  recipes := [("p", selfRecipe)]
  identity := by decide

/-- **A cycle that is not refused**: the recipe itself is expanded, and the memo answers when the
recipe of `p` is opened. -/
theorem expandPrimitiveRecipes_selfNamed :
    Cyclic selfNamed.recipes selfNamed.expressions ∧
      ¬ ∃ e, expandPrimitiveRecipes selfNamed.expressions selfNamed.recipes = .error e := by
  have hneeds : Needs selfNamed.recipes "p" "p" :=
    ⟨selfRecipe, by simp [selfNamed, OrderedMap.lookup], by decide⟩
  refine ⟨⟨"p", ⟨"p", by decide, .refl⟩, .single hneeds⟩, ?_⟩
  rintro ⟨e, h⟩
  simp [expandPrimitiveRecipes, selfNamed, selfRecipe, clone, recipeOf, OrderedMap.lookup] at h

end Expansion

end Pops
