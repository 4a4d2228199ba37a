import Pops.Ir.DagKey

/-!
# Identities of expression graphs are canonical

Descriptors of different nodes differ: the text of a literal determines it, and no two classes have
descriptors of one form.  So the numbers that hash-consing gives stand for trees, whatever objects
the roots share.

The trees are those that descriptors see: a runtime parameter is its name, a constant with a handle
has the local identity of the handle.  Two parameters with one name and different declared values
have one number, and different values when they are evaluated with the values that they declare.

## Main definitions

* `Pops.Ir.Dag.Node.shape` — the tree that descriptors see.

## Main results

* `Pops.Ir.Dag.text_injective`, `determines_descriptor` — descriptors determine nodes.
* `Pops.Ir.Dag.dag_key_canonical` — equal identities stand for equal lists of trees.
* `Pops.Ir.Dag.declared_value_not_in_key` — a declared value is not part of the identity.
-/

namespace Pops

namespace Ir

namespace Dag

/-! ## The text of a literal -/

/-- The entries that are there, of a field in front of others. -/
lemma present_cons (k : String) (x : Option String) (xs : List (String × Option String)) :
    present ((k, x) :: xs) = (x.map (k, ·)).toList ++ present xs := by
  cases x <;> rfl

/-- A key that no field has is not found. -/
lemma lookup_present_eq_none {k : String} {xs : List (String × Option String)}
    (h : k ∉ xs.map Prod.fst) : (present xs).lookup k = none := by
  refine List.lookup_eq_none_iff.mpr fun item hitem => ?_
  obtain ⟨field, hfield, hsome⟩ := List.mem_filterMap.mp hitem
  obtain ⟨v, -, rfl⟩ := Option.map_eq_some_iff.mp hsome
  rw [bne_iff_ne]
  rintro rfl
  exact h (List.mem_map_of_mem hfield)

/-- A field is found under its key. -/
lemma lookup_present {k : String} {v : Option String} {xs : List (String × Option String)}
    (hnodup : (xs.map Prod.fst).Nodup) (h : (k, v) ∈ xs) : (present xs).lookup k = v := by
  induction xs with
  | nil => cases h
  | cons field xs ih =>
    obtain ⟨k', x⟩ := field
    rw [List.map_cons, List.nodup_cons] at hnodup
    rw [present_cons]
    rcases List.mem_cons.mp h with heq | htail
    · obtain ⟨rfl, rfl⟩ := Prod.ext_iff.mp heq
      cases v with
      | none => exact lookup_present_eq_none hnodup.1
      | some w => exact List.lookup_cons_self
    · have hne : k ≠ k' := by
        rintro rfl
        exact hnodup.1 (List.mem_map.mpr ⟨_, htail, rfl⟩)
      cases x with
      | none => exact ih hnodup.2 htail
      | some w =>
        show List.lookup k ((k', w) :: present xs) = v
        rw [List.lookup_cons, beq_false_of_ne hne]
        exact ih hnodup.2 htail

/-- The fields can be read back from the entries that are there. -/
lemma map_lookup_present {xs : List (String × Option String)} (hnodup : (xs.map Prod.fst).Nodup) :
    ((xs.map Prod.fst).map fun k => (k, (present xs).lookup k)) = xs := by
  rw [List.map_map]
  refine (List.map_congr_left fun field hfield => ?_).trans (List.map_id _)
  show (field.1, (present xs).lookup field.1) = field
  rw [lookup_present hnodup hfield]

/-- The kind and the entries of a payload determine it. -/
lemma payload_ext {p q : Payload} (hkind : p.kind = q.kind) (hvalue : p.value = q.value)
    (hnumerator : p.numerator = q.numerator) (hdenominator : p.denominator = q.denominator) :
    p = q := by
  cases p <;> cases q <;> simp only [Payload.kind, String.reduceEq] at hkind
  case integer.integer v w => rw [Int.repr_injective (Option.some.inj hvalue)]
  case rational.rational v w =>
    have hnum := Int.repr_injective (Option.some.inj hnumerator)
    have hden := Int.repr_injective (Option.some.inj hdenominator)
    rw [Rat.ext hnum (by omega)]
  case decimal.decimal v w => rw [Option.some.inj hvalue]
  case binary64.binary64 v w => rw [Option.some.inj hvalue]
  case algebraic.algebraic v w => rw [Option.some.inj hvalue]

/-- **The text of a literal determines it.** -/
theorem text_injective : Function.Injective ScalarLiteral.text := by
  intro l l' h
  have hkeys : ∀ l : ScalarLiteral, l.fields.map Prod.fst =
      ["cpp", "denominator", "kind", "numerator", "target", "unit", "value"] := fun _ => rfl
  have hnodup : ∀ l : ScalarLiteral, (l.fields.map Prod.fst).Nodup := fun l => by
    rw [hkeys]
    decide
  have hdata : present l.fields = present l'.fields := JsonText.dumps_injective h
  have hfields : l.fields = l'.fields := by
    rw [← map_lookup_present (hnodup l), ← map_lookup_present (hnodup l'), hkeys, hkeys, hdata]
  simp only [ScalarLiteral.fields, List.cons.injEq, Prod.mk.injEq, true_and, and_true,
    Option.some.injEq] at hfields
  obtain ⟨hcpp, hdenominator, hkind, hnumerator, htarget, hunit, hvalue⟩ := hfields
  have hpayload := payload_ext hkind hvalue hnumerator hdenominator
  cases l
  cases l'
  simp only at hpayload hunit htarget hcpp
  rw [hpayload, hunit, htarget, hcpp]

/-! ## Descriptors determine nodes -/

/-- The class that a tag belongs to. -/
def tagClass (tag : String) : ℕ :=
  if tag = "const" then 0
  else if tag = "param_const" then 1
  else if tag = "rparam" then 2
  else if tag = "var" then 3
  else if tag = "eig" then 4
  else if tag = "state" then 5
  else if tag ∈ ["neg", "sqrt", "abs", "sign", "boolean_not"] then 6
  else 7

/-- The class of a node. -/
def Head.class : Head → ℕ
  | .const _ none => 0
  | .const _ (some _) => 1
  | .runtimeParam _ => 2
  | .var _ _ => 3
  | .eig _ => 4
  | .state _ => 5
  | .unary _ => 6
  | .bin _ => 7

/-- Every descriptor begins with the tag of its class. -/
lemma descriptor_eq_cons (head : Head) (ids : List ℕ) :
    ∃ tag rest, descriptor head ids = .text tag :: rest ∧ tagClass tag = head.class := by
  rcases head with ⟨literal, _ | localId⟩ | name | ⟨kind,
    name⟩ | op | op | (⟨field, k⟩ | ⟨field, k, tol⟩) |
    side
  case unary => exact ⟨_, _, rfl, by cases op <;> rfl⟩
  case bin => exact ⟨_, _, rfl, by cases op <;> rfl⟩
  all_goals exact ⟨_, _, rfl, rfl⟩

/-- Descriptors of different classes differ. -/
lemma class_of_descriptor {head head' : Head} {ids ids' : List ℕ}
    (h : descriptor head ids = descriptor head' ids') : head.class = head'.class := by
  obtain ⟨tag, rest, hdescriptor, hclass⟩ := descriptor_eq_cons head ids
  obtain ⟨tag', rest', hdescriptor', hclass'⟩ := descriptor_eq_cons head' ids'
  rw [hdescriptor, hdescriptor'] at h
  rw [← hclass, ← hclass', Atom.text.inj (List.cons.inj h).1]

/-- Constants, parameters and variables have no children. -/
def Fits : Head → ℕ → Prop
  | .const _ _, n => n = 0
  | .runtimeParam _, n => n = 0
  | .var _ _, n => n = 0
  | _, _ => True

/-- The entries of numbers determine these. -/
lemma nums_injective : Function.Injective nums :=
  List.map_injective_iff.mpr fun _ _ h => Nat.cast_injective (Atom.num.inj h)

/-- The tag of a class with one operand determines it. -/
lemma tag_injective : Function.Injective Unary.tag := by
  intro op op' h
  cases op <;> cases op' <;> first | rfl | exact absurd h (by decide)

/-- `op` determines a class with two operands. -/
lemma op_injective : Function.Injective Bin.op := by
  intro op op' h
  cases op <;> cases op' <;> first | rfl | exact absurd h (by decide)

/-- The names of the eigenvalue fields are distinct. -/
lemma eigField_name_injective : Function.Injective EigField.name := by
  intro field field' h
  cases field <;> cases field' <;> first | rfl | exact absurd h (by decide)

/-- The names of the eigenvalue predicates are distinct. -/
lemma eigPredicate_name_injective : Function.Injective EigPredicate.name := by
  intro field field' h
  cases field <;> cases field' <;> first | rfl | exact absurd h (by decide)

/-- The texts of the sides are distinct. -/
lemma side_text_injective : Function.Injective Side.text := by
  intro side side' h
  cases side <;> cases side' <;> first | rfl | exact absurd h (by decide)

/-- Witnesses of one descriptor are equal; a predicate has one entry more than a scalar field. -/
lemma witness_of_descriptor {w w' : Witness} {ids ids' : List ℕ}
    (h : descriptor (.eig w) ids = descriptor (.eig w') ids') : w = w' ∧ ids = ids' := by
  cases w with
  | field field k =>
    cases w' with
    | field field' k' =>
      simp only [descriptor, List.cons.injEq, Atom.text.injEq, Atom.num.injEq, Atom.tuple.injEq,
        Nat.cast_inj, true_and, and_true] at h
      obtain ⟨hfield, rfl, rfl⟩ := h
      exact ⟨by rw [eigField_name_injective hfield], rfl⟩
    | predicate field' k' tol' => cases congrArg List.length h
  | predicate field k tol =>
    cases w' with
    | field field' k' => cases congrArg List.length h
    | predicate field' k' tol' =>
      simp only [descriptor, List.cons.injEq, Atom.text.injEq, Atom.num.injEq, Atom.tuple.injEq,
        Nat.cast_inj, true_and, and_true] at h
      obtain ⟨hfield, rfl, rfl, rfl⟩ := h
      exact ⟨by rw [eigPredicate_name_injective hfield], rfl⟩

/-- **Descriptors determine nodes and the numbers of their children.** -/
theorem determines_descriptor : HashConsing.Determines Fits descriptor := by
  intro head head' ids ids' hfit hfit' h
  have hclass := class_of_descriptor h
  cases head with
  | const literal localId =>
    obtain rfl := List.length_eq_zero_iff.mp hfit
    cases head' with
    | const literal' localId' =>
      obtain rfl := List.length_eq_zero_iff.mp hfit'
      cases localId <;> cases localId' <;> simp only [Head.class, reduceCtorEq] at hclass
      · simp only [descriptor, List.cons.injEq, Atom.text.injEq, true_and, and_true] at h
        exact ⟨by rw [text_injective h], rfl⟩
      · simp only [descriptor, List.cons.injEq, Atom.text.injEq, true_and, and_true] at h
        exact ⟨by rw [h.1, text_injective h.2], rfl⟩
    | _ => cases localId <;> cases hclass
  | runtimeParam name =>
    obtain rfl := List.length_eq_zero_iff.mp hfit
    cases head' with
    | runtimeParam name' =>
      obtain rfl := List.length_eq_zero_iff.mp hfit'
      simp only [descriptor, List.cons.injEq, Atom.text.injEq, true_and, and_true] at h
      exact ⟨by rw [h], rfl⟩
    | const literal' localId' => cases localId' <;> cases hclass
    | _ => cases hclass
  | var kind name =>
    obtain rfl := List.length_eq_zero_iff.mp hfit
    cases head' with
    | var kind' name' =>
      obtain rfl := List.length_eq_zero_iff.mp hfit'
      simp only [descriptor, List.cons.injEq, Atom.text.injEq, true_and, and_true] at h
      exact ⟨by rw [h.1, h.2], rfl⟩
    | const literal' localId' => cases localId' <;> cases hclass
    | _ => cases hclass
  | unary op =>
    cases head' with
    | unary op' =>
      simp only [descriptor, List.cons.injEq, Atom.text.injEq] at h
      exact ⟨by rw [tag_injective h.1], nums_injective h.2⟩
    | const literal' localId' => cases localId' <;> cases hclass
    | _ => cases hclass
  | bin op =>
    cases head' with
    | bin op' =>
      simp only [descriptor, List.cons.injEq, Atom.text.injEq, Atom.tuple.injEq, and_true] at h
      exact ⟨by rw [op_injective h.1], h.2⟩
    | const literal' localId' => cases localId' <;> cases hclass
    | _ => cases hclass
  | eig witness =>
    cases head' with
    | eig witness' =>
      obtain ⟨rfl, rfl⟩ := witness_of_descriptor h
      exact ⟨rfl, rfl⟩
    | const literal' localId' => cases localId' <;> cases hclass
    | _ => cases hclass
  | state side =>
    cases head' with
    | state side' =>
      simp only [descriptor, List.cons.injEq, Atom.text.injEq, true_and] at h
      exact ⟨by rw [side_text_injective h.1], nums_injective h.2⟩
    | const literal' localId' => cases localId' <;> cases hclass
    | _ => cases hclass

/-! ## Trees that descriptors see -/

/-- The tree that descriptors see: a runtime parameter is its name, and a constant has the local
identity of its handle. -/
def Node.shape (n : Node) : HashConsing.Rose Head := n.object.tree

/-- The runtime parameters below a node with their declared values. -/
def Node.declared (n : Node) : List (String × ScalarLiteral) :=
  n.parts.filterMap fun
    | .runtimeParamRef _ name literal _ _ => some (name, literal)
    | _ => none

/-- The label of a node is its identity as an object. -/
@[simp] lemma label_object (n : Node) : n.object.label = n.id := by
  cases n <;> rfl

/-- The objects of a list of nodes are those of the nodes. -/
lemma objects_eq_map (nodes : List Node) : objects nodes = nodes.map Node.object := by
  induction nodes with
  | nil => rfl
  | cons n rest ih => rw [objects, ih, List.map_cons]

/-- The children of the object of a node are the objects of its children. -/
lemma children_object (n : Node) : n.object.children = n.children.map Node.object := by
  cases n with
  | eigWitness id witness entries => exact objects_eq_map entries
  | _ => rfl

mutual

/-- The objects below an object are those of the nodes below. -/
lemma parts_object : ∀ n : Node, n.object.parts = n.parts.map Node.object
  | .const _ _ _ => rfl
  | .runtimeParamRef _ _ _ _ _ => rfl
  | .var _ _ _ => rfl
  | .unary id op a => by
    rw [Node.object, HashConsing.Shared.parts, HashConsing.partsOf, HashConsing.partsOf,
      parts_object a, List.append_nil, Node.parts, List.map_cons, Node.object]
  | .bin id op a b => by
    rw [Node.object, HashConsing.Shared.parts, HashConsing.partsOf, HashConsing.partsOf,
      HashConsing.partsOf, parts_object a, parts_object b, List.append_nil, Node.parts,
      List.map_cons, List.map_append, Node.object]
  | .eigWitness id witness entries => by
    rw [Node.object, HashConsing.Shared.parts, partsOf_objects entries, Node.parts, List.map_cons,
      Node.object]
  | .stateRef id side expr => by
    rw [Node.object, HashConsing.Shared.parts, HashConsing.partsOf, HashConsing.partsOf,
      parts_object expr, List.append_nil, Node.parts, List.map_cons, Node.object]

/-- The parts of the objects are the objects of the parts. -/
lemma partsOf_objects : ∀ nodes : List Node,
    HashConsing.partsOf (objects nodes) = (partsOf nodes).map Node.object
  | [] => rfl
  | n :: rest => by
    rw [objects, HashConsing.partsOf, parts_object n, partsOf_objects rest, partsOf,
      List.map_append]

end

mutual

/-- Every node has as many children as its class has. -/
lemma fitting_shape : ∀ n : Node, HashConsing.Fitting Fits n.object.tree
  | .const _ _ _ => .node rfl fun _ h => by cases h
  | .runtimeParamRef _ _ _ _ _ => .node rfl fun _ h => by cases h
  | .var _ _ _ => .node rfl fun _ h => by cases h
  | .unary _ _ a => .node trivial fun child h => by
    obtain rfl := List.mem_singleton.mp h
    exact fitting_shape a
  | .bin _ _ a b => .node trivial fun child h => by
    rcases List.mem_cons.mp h with rfl | h
    · exact fitting_shape a
    · obtain rfl := List.mem_singleton.mp h
      exact fitting_shape b
  | .eigWitness _ _ entries => .node trivial (fitting_shapes entries)
  | .stateRef _ _ expr => .node trivial fun child h => by
    obtain rfl := List.mem_singleton.mp h
    exact fitting_shape expr

/-- The trees of expressions have heads that fit their numbers of children. -/
lemma fitting_shapes : ∀ nodes : List Node, ∀ t ∈ HashConsing.trees (objects nodes),
    HashConsing.Fitting Fits t
  | [], t, h => by cases h
  | n :: rest, t, h => by
    rw [objects, HashConsing.trees] at h
    rcases List.mem_cons.mp h with rfl | h
    · exact fitting_shape n
    · exact fitting_shapes rest t h

end

/-- Nodes with one identity have one object. -/
theorem Roots.consistent (roots : Roots) :
    HashConsing.Consistent (HashConsing.partsOf (objects roots.nodes)) := by
  rw [partsOf_objects]
  intro x hx y hy h
  obtain ⟨n, hn, rfl⟩ := List.mem_map.mp hx
  obtain ⟨m, hm, rfl⟩ := List.mem_map.mp hy
  rw [label_object, label_object] at h
  rw [roots.same n hn m hm h]

/-- The trees of the roots are their shapes. -/
lemma trees_objects (nodes : List Node) :
    HashConsing.trees (objects nodes) = nodes.map Node.shape := by
  rw [HashConsing.trees_eq_map, objects_eq_map, List.map_map]
  rfl

/-- A node below the roots is an object below them. -/
lemma object_mem {nodes : List Node} {n : Node} (h : n ∈ partsOf nodes) :
    n.object ∈ HashConsing.partsOf (objects nodes) := by
  rw [partsOf_objects]
  exact List.mem_map_of_mem h

/-- The number of a node is that of its object. -/
lemma nodeId_eq (roots : Roots) (n : Node) :
    nodeId roots n = (HashConsing.visits descriptor (objects roots.nodes) .empty).2.known.lookup
      n.object.label := by
  rw [label_object]
  rfl

/-! ## Values of equal trees -/

section Eval

variable {V : Type} {ops : Arithmetic V} {read : String → ScalarLiteral → Raises V}
  {env : String → Option V}

/-- Runtime parameters with one name are read alike. -/
def ReadAlike (read : String → ScalarLiteral → Raises V) (all : List Node) : Prop :=
  ∀ ⦃id name literal handle dtype id' literal' handle' dtype'⦄,
    .runtimeParamRef id name literal handle dtype ∈ all →
    .runtimeParamRef id' name literal' handle' dtype' ∈ all → read name literal = read name literal'

mutual

/-- **Equal trees have equal values**, where runtime parameters with one name are read alike.

**Proof sketch.** Induction on the first tree; the second one has the same class. -/
theorem eval_of_shape {all : List Node} (hread : ReadAlike read all) : ∀ {n m : Node},
    n.parts ⊆ all → m.parts ⊆ all → n.shape = m.shape →
    n.evalReading ops read env = m.evalReading ops read env
  | .const _ literal handle, m, _, _, h => by
    cases m with
    | const _ literal' handle' =>
      obtain ⟨hhead, -⟩ := HashConsing.Rose.node.inj h
      obtain ⟨rfl, -⟩ := Head.const.inj hhead
      rfl
    | _ => cases h
  | .runtimeParamRef _ name literal handle dtype, m, hn, hm, h => by
    cases m with
    | runtimeParamRef _ name' literal' handle' dtype' =>
      obtain ⟨hhead, -⟩ := HashConsing.Rose.node.inj h
      obtain rfl := Head.runtimeParam.inj hhead
      exact hread (hn List.mem_cons_self) (hm List.mem_cons_self)
    | _ => cases h
  | .var _ kind name, m, _, _, h => by
    cases m with
    | var _ kind' name' =>
      obtain ⟨hhead, -⟩ := HashConsing.Rose.node.inj h
      obtain ⟨rfl, rfl⟩ := Head.var.inj hhead
      rfl
    | _ => cases h
  | .unary _ op a, m, hn, hm, h => by
    cases m with
    | unary _ op' a' =>
      obtain ⟨hhead, hchildren⟩ := HashConsing.Rose.node.inj h
      obtain rfl := Head.unary.inj hhead
      have ha := eval_of_shape hread (fun _ hx => hn (List.mem_cons_of_mem _ hx))
        (fun _ hx => hm (List.mem_cons_of_mem _ hx)) (List.cons.inj hchildren).1
      rw [Node.evalReading, Node.evalReading, ha]
    | _ => cases h
  | .bin _ op a b, m, hn, hm, h => by
    cases m with
    | bin _ op' a' b' =>
      obtain ⟨hhead, hchildren⟩ := HashConsing.Rose.node.inj h
      obtain rfl := Head.bin.inj hhead
      obtain ⟨hshape, hrest⟩ := List.cons.inj hchildren
      have ha := eval_of_shape hread
        (fun _ hx => hn (List.mem_cons_of_mem _ (List.mem_append_left _ hx)))
        (fun _ hx => hm (List.mem_cons_of_mem _ (List.mem_append_left _ hx))) hshape
      have hb := eval_of_shape hread
        (fun _ hx => hn (List.mem_cons_of_mem _ (List.mem_append_right _ hx)))
        (fun _ hx => hm (List.mem_cons_of_mem _ (List.mem_append_right _ hx)))
        (List.cons.inj hrest).1
      rw [Node.evalReading, Node.evalReading, ha, hb]
    | _ => cases h
  | .eigWitness _ witness entries, m, hn, hm, h => by
    cases m with
    | eigWitness _ witness' entries' =>
      obtain ⟨hhead, hchildren⟩ := HashConsing.Rose.node.inj h
      obtain rfl := Head.eig.inj hhead
      have hentries := evals_of_shape hread (fun _ hx => hn (List.mem_cons_of_mem _ hx))
        (fun _ hx => hm (List.mem_cons_of_mem _ hx)) hchildren
      rw [Node.evalReading, Node.evalReading, hentries]
    | _ => cases h
  | .stateRef _ side expr, m, _, _, h => by
    cases m with
    | stateRef _ side' expr' => rfl
    | _ => cases h

/-- Lists of equal trees below the roots have equal values. -/
lemma evals_of_shape {all : List Node} (hread : ReadAlike read all) : ∀ {ns ms : List Node},
    partsOf ns ⊆ all → partsOf ms ⊆ all →
    HashConsing.trees (objects ns) = HashConsing.trees (objects ms) →
    evalReadings ops read env ns = evalReadings ops read env ms
  | [], ms, _, _, h => by
    cases ms with
    | nil => rfl
    | cons m rest => cases h
  | n :: ns, ms, hn, hm, h => by
    cases ms with
    | nil => cases h
    | cons m rest =>
      obtain ⟨hshape, hrest⟩ := List.cons.inj h
      have hfirst := eval_of_shape hread (fun _ hx => hn (List.mem_append_left _ hx))
        (fun _ hx => hm (List.mem_append_left _ hx)) hshape
      have hothers := evals_of_shape hread (fun _ hx => hn (List.mem_append_right _ hx))
        (fun _ hx => hm (List.mem_append_right _ hx)) hrest
      rw [evalReadings, evalReadings, hfirst, hothers]

end

end Eval

/-! ## Identities are canonical -/

/-- A node is one of its parts. -/
lemma self_mem_parts (n : Node) : n ∈ n.parts := by
  cases n <;> exact List.mem_cons_self

/-- A child is a part. -/
lemma mem_parts_of_mem_children {n child : Node} (h : child ∈ n.children) : child ∈ n.parts := by
  have hmem : ∀ {nodes : List Node}, child ∈ nodes → child ∈ partsOf nodes := by
    intro nodes hchild
    induction nodes with
    | nil => cases hchild
    | cons first rest ih =>
      rcases List.mem_cons.mp hchild with rfl | hrest
      · exact List.mem_append_left _ (self_mem_parts child)
      · exact List.mem_append_right _ (ih hrest)
  have hparts : n.parts = n :: partsOf n.children := by
    cases n <;> simp [Node.parts, Node.children, partsOf]
  rw [hparts]
  exact List.mem_cons_of_mem _ (hmem h)

mutual

/-- The parts of a part are parts. -/
lemma parts_subset : ∀ {n m : Node}, m ∈ n.parts → m.parts ⊆ n.parts
  | .const _ _ _, m, h => by
    obtain rfl := List.mem_singleton.mp h
    exact List.Subset.refl _
  | .runtimeParamRef _ _ _ _ _, m, h => by
    obtain rfl := List.mem_singleton.mp h
    exact List.Subset.refl _
  | .var _ _ _, m, h => by
    obtain rfl := List.mem_singleton.mp h
    exact List.Subset.refl _
  | .unary _ _ a, m, h => by
    rcases List.mem_cons.mp h with rfl | h
    · exact List.Subset.refl _
    · exact List.subset_cons_of_subset _ (parts_subset h)
  | .bin _ _ a b, m, h => by
    rcases List.mem_cons.mp h with rfl | h
    · exact List.Subset.refl _
    · rcases List.mem_append.mp h with h | h
      · exact List.subset_cons_of_subset _ (List.subset_append_of_subset_left _ (parts_subset h))
      · exact List.subset_cons_of_subset _ (List.subset_append_of_subset_right _ (parts_subset h))
  | .eigWitness _ _ entries, m, h => by
    rcases List.mem_cons.mp h with rfl | h
    · exact List.Subset.refl _
    · exact List.subset_cons_of_subset _ (parts_subset_partsOf h)
  | .stateRef _ _ expr, m, h => by
    rcases List.mem_cons.mp h with rfl | h
    · exact List.Subset.refl _
    · exact List.subset_cons_of_subset _ (parts_subset h)

/-- The parts of a part of a list are parts of the list. -/
lemma parts_subset_partsOf : ∀ {nodes : List Node} {m : Node}, m ∈ partsOf nodes →
    m.parts ⊆ partsOf nodes
  | [], m, h => by cases h
  | n :: rest, m, h => by
    rcases List.mem_append.mp h with h | h
    · exact List.subset_append_of_subset_left _ (parts_subset h)
    · exact List.subset_append_of_subset_right _ (parts_subset_partsOf h)

end

/-- Equal identities stand for equal lists of trees, however the nodes are shared. -/
lemma dagKeyData_eq_iff (a b : Roots) :
    dagKeyData a = dagKeyData b ↔ a.nodes.map Node.shape = b.nodes.map Node.shape := by
  have h := HashConsing.visits_eq_iff determines_descriptor a.consistent b.consistent
    (fitting_shapes a.nodes) (fitting_shapes b.nodes)
  rw [trees_objects, trees_objects] at h
  rw [← h, dagKeyData, dagKeyData, DagKeyData.mk.injEq, and_comm (a := (_ : List ℕ) = _)]
  exact ⟨fun heq => heq.2, fun heq => ⟨rfl, heq⟩⟩

/-- Nodes have one number just when their trees are equal. -/
lemma nodeId_eq_iff (roots : Roots) {n m : Node} (hn : n ∈ partsOf roots.nodes)
    (hm : m ∈ partsOf roots.nodes) : nodeId roots n = nodeId roots m ↔ n.shape = m.shape := by
  rw [nodeId_eq, nodeId_eq]
  exact HashConsing.lookup_eq_iff determines_descriptor roots.consistent
    (fitting_shapes roots.nodes)
    (object_mem hn) (object_mem hm)

/-- Every node has a number. -/
lemma exists_nodeId (roots : Roots) {n : Node} (hn : n ∈ partsOf roots.nodes) :
    ∃ i, nodeId roots n = some i := by
  obtain ⟨i, hi, -⟩ := HashConsing.lookup_visits descriptor roots.consistent (object_mem hn)
  exact ⟨i, by rw [nodeId_eq]; exact hi⟩

/-- Every number is larger than the numbers of the children. -/
lemma nodeId_children_lt (roots : Roots) {n child : Node} (hn : n ∈ partsOf roots.nodes)
    (hchild : child ∈ n.children) {i j : ℕ} (hi : nodeId roots n = some i)
    (hj : nodeId roots child = some j) : j < i := by
  rw [nodeId_eq] at hi hj
  refine HashConsing.lookup_children_lt determines_descriptor roots.consistent
    (fitting_shapes roots.nodes) (object_mem hn) ?_ hi hj
  rw [children_object]
  exact List.mem_map_of_mem hchild

/-- Runtime parameters with one name declare one value. -/
def DeclaredAlike (all : List Node) : Prop :=
  ∀ ⦃id name literal handle dtype id' literal' handle' dtype'⦄,
    .runtimeParamRef id name literal handle dtype ∈ all →
    .runtimeParamRef id' name literal' handle' dtype' ∈ all → literal = literal'

/-- **Identities of expression graphs are canonical.**  Equal identities stand for equal lists of
trees, however the nodes are shared.  Below one list of roots every node has a number that is larger
than those of its children, two nodes have one number just when their trees are equal, and then they
have equal values in every environment that gives the runtime parameters by name; where parameters
with one name declare one value, also with the declared values. -/
theorem dag_key_canonical (a b : Roots) :
    (dagKeyData a = dagKeyData b ↔ a.nodes.map Node.shape = b.nodes.map Node.shape) ∧
    ∀ n ∈ partsOf a.nodes,
      (∃ i, nodeId a n = some i ∧ ∀ child ∈ n.children, ∃ j, nodeId a child = some j ∧ j < i) ∧
      ∀ m ∈ partsOf a.nodes,
        (nodeId a n = nodeId a m ↔ n.shape = m.shape) ∧
        (nodeId a n = nodeId a m → ∀ (V : Type) (ops : Arithmetic V) (env : String → Option V),
          (∀ params, n.evalWith ops env params = m.evalWith ops env params) ∧
          (DeclaredAlike (partsOf a.nodes) → n.eval ops env = m.eval ops env)) := by
  refine ⟨dagKeyData_eq_iff a b, fun n hn => ⟨?_, fun m hm => ⟨nodeId_eq_iff a hn hm, ?_⟩⟩⟩
  · obtain ⟨i, hi⟩ := exists_nodeId a hn
    refine ⟨i, hi, fun child hchild => ?_⟩
    obtain ⟨j, hj⟩ := exists_nodeId a (parts_subset_partsOf hn (mem_parts_of_mem_children hchild))
    exact ⟨j, hj, nodeId_children_lt a hn hchild hi hj⟩
  · intro hid V ops env
    have hshape := (nodeId_eq_iff a hn hm).mp hid
    have hparts := parts_subset_partsOf hn
    have hparts' := parts_subset_partsOf hm
    constructor
    · intro params
      exact eval_of_shape (fun _ _ _ _ _ _ _ _ _ _ _ => rfl) hparts hparts' hshape
    · intro hdeclared
      refine eval_of_shape (fun _ _ _ _ _ _ _ _ _ hp hq => ?_) hparts hparts' hshape
      rw [hdeclared hp hq]

/-- A read of a runtime parameter `a`. -/
def readOf (id : ℕ) (value : ℤ) : Node := .runtimeParamRef id "a" (.ofInt value) none none

/-- A read as the only root. -/
def oneRead (value : ℤ) : Roots where
  nodes := [readOf 0 value]
  same := by
    intro n hn m hm _
    obtain rfl := List.mem_singleton.mp hn
    obtain rfl := List.mem_singleton.mp hm
    rfl

/-- Two reads that declare the values one and two. -/
def twoReads : Roots where
  nodes := [readOf 0 1, readOf 1 2]
  same := by
    intro n hn m hm h
    rcases List.mem_pair.mp hn with rfl | rfl <;> rcases List.mem_pair.mp hm with rfl | rfl
    · rfl
    · cases h
    · cases h
    · rfl

/-- Reads that declare different values are different trees. -/
lemma anonymous_readOf_ne {id id' : ℕ} {v w : ℤ} (h : v ≠ w) :
    (readOf id v).anonymous ≠ (readOf id' w).anonymous := by
  intro htree
  obtain ⟨-, -, hliteral, -⟩ := Node.runtimeParamRef.inj htree
  exact h (Payload.integer.inj (ScalarLiteral.mk.inj hliteral).1)

/-- **A declared value is not part of the identity**: reads of one name have one identity, and in
one list of roots one number, but other trees and other values. -/
theorem declared_value_not_in_key :
    (¬ ∀ a b : Roots, dagKeyData a = dagKeyData b ↔
      a.nodes.map Node.anonymous = b.nodes.map Node.anonymous) ∧
    (¬ ∀ roots : Roots, ∀ n ∈ partsOf roots.nodes, ∀ m ∈ partsOf roots.nodes,
      (nodeId roots n = nodeId roots m ↔ n.anonymous = m.anonymous)) ∧
    ¬ ∀ roots : Roots, ∀ n ∈ partsOf roots.nodes, ∀ m ∈ partsOf roots.nodes,
      nodeId roots n = nodeId roots m →
      ∀ (V : Type) (ops : Arithmetic V) (env : String → Option V),
        n.eval ops env = m.eval ops env := by
  have hfirst : readOf 0 1 ∈ partsOf twoReads.nodes := List.mem_cons_self
  have hsecond : readOf 1 2 ∈ partsOf twoReads.nodes := List.mem_cons_of_mem _ List.mem_cons_self
  have hid : nodeId twoReads (readOf 0 1) = nodeId twoReads (readOf 1 2) := by decide +kernel
  refine ⟨fun h => ?_, fun h => ?_, fun h => ?_⟩
  · have htrees := (h (oneRead 1) (oneRead 2)).mp (by decide +kernel)
    exact anonymous_readOf_ne (by decide) (List.cons.inj htrees).1
  · exact anonymous_readOf_ne (by decide) ((h twoReads _ hfirst _ hsecond).mp hid)
  · have hvalue := h twoReads _ hfirst _ hsecond hid ℤ
      ⟨id, fun _ => 0, fun _ => 0, fun _ => 0, fun _ x => .ok x, fun _ x _ =>
        .ok x, fun _ _ => .ok 0⟩
      fun _ => none
    exact absurd (Except.ok.inj hvalue) (by decide)

end Dag

end Ir

end Pops
