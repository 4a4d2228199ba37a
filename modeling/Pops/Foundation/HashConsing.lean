import Mathlib

/-!
# Hash-consing

Trees are interned into a table of keys: the key of a node is made of its head and the numbers of
its children, a key that is in the table keeps its number, and a new key is appended.  Objects are
trees with labels on their nodes; equal labels stand for one object, which is visited once.

The numbers that a table gives do not depend on how the objects are shared.  When keys determine
heads and children, equal numbers stand for equal trees.

## Main definitions

* `HashConsing.Rose`, `Shared` — trees, and trees of labelled objects.
* `HashConsing.name` — the number of a tree in a table.
* `HashConsing.intern` — the numbering of trees.
* `HashConsing.visit` — the numbering of objects, with a memo.

## Main results

* `HashConsing.name_inj` — equal numbers stand for equal trees.
* `HashConsing.visit_spec` — objects are numbered as their trees are.
* `HashConsing.visits_eq_iff` — equal results stand for equal lists of trees.
-/

namespace HashConsing

variable {H K : Type}

/-! ## Trees and objects -/

/-- A tree: a head with its children. -/
inductive Rose (H : Type)
  | node (head : H) (children : List (Rose H))

/-- An object: a tree with labels. -/
inductive Shared (H : Type)
  | node (label : ℕ) (head : H) (children : List (Shared H))

mutual

/-- The tree of an object. -/
def Shared.tree : Shared H → Rose H
  | .node _ head children => .node head (trees children)

/-- The trees of objects. -/
def trees : List (Shared H) → List (Rose H)
  | [] => []
  | child :: rest => child.tree :: trees rest

end

mutual

/-- An object and everything below it. -/
def Shared.parts : Shared H → List (Shared H)
  | .node label head children => .node label head children :: partsOf children

/-- Objects and everything below them. -/
def partsOf : List (Shared H) → List (Shared H)
  | [] => []
  | child :: rest => child.parts ++ partsOf rest

end

/-- The label of an object. -/
def Shared.label : Shared H → ℕ
  | .node label _ _ => label

/-- The children of an object. -/
def Shared.children : Shared H → List (Shared H)
  | .node _ _ children => children

/-- The trees of a list of nodes are the trees of the nodes. -/
lemma trees_eq_map (children : List (Shared H)) : trees children = children.map Shared.tree := by
  induction children with
  | nil => rfl
  | cons child rest ih => rw [trees, ih, List.map_cons]

/-- An object is one of its parts. -/
lemma self_mem_parts (n : Shared H) : n ∈ n.parts := by
  cases n with
  | node label head children =>
    rw [Shared.parts]
    exact List.mem_cons_self

/-- A part of a list of nodes is a part of one of them. -/
lemma mem_partsOf {children : List (Shared H)} {m : Shared H} :
    m ∈ partsOf children ↔ ∃ child ∈ children, m ∈ child.parts := by
  induction children with
  | nil => simp [partsOf]
  | cons child rest ih => simp [partsOf, ih]

/-- A child is a part. -/
lemma mem_parts_of_mem_children {n child : Shared H} (h : child ∈ n.children) :
    child ∈ n.parts := by
  cases n with
  | node label head children =>
    rw [Shared.parts]
    exact List.mem_cons_of_mem _ (mem_partsOf.mpr ⟨child, h, self_mem_parts child⟩)

/-- The parts of a part are parts. -/
lemma parts_trans {m l : Shared H} (hl : l ∈ m.parts) : ∀ {n : Shared H}, m ∈ n.parts →
    l ∈ n.parts
  | .node label head children, hm => by
    rw [Shared.parts] at hm ⊢
    rcases List.mem_cons.mp hm with rfl | hm
    · rw [Shared.parts] at hl
      exact hl
    · obtain ⟨child, hchild, hm⟩ := mem_partsOf.mp hm
      exact List.mem_cons_of_mem _ (mem_partsOf.mpr ⟨child, hchild, parts_trans hl hm⟩)

/-! ## Numbering -/

section Numbering

variable [DecidableEq K] (key : H → List ℕ → K)

/-- The number of a key in a table, which is appended if it is new. -/
def internKey (table : List K) (k : K) : ℕ × List K :=
  match table.idxOf? k with
  | some i => (i, table)
  | none => (table.length, table ++ [k])

mutual

/-- The number of a tree in a table, if it has one. -/
def name (table : List K) : Rose H → Option ℕ
  | .node head children => (names table children).bind fun ids => table.idxOf? (key head ids)

/-- The numbers of trees in a table, if all of them have one. -/
def names (table : List K) : List (Rose H) → Option (List ℕ)
  | [] => some []
  | child :: rest => (name table child).bind fun i => (names table rest).map (i :: ·)

end

mutual

/-- Number a tree. -/
def intern : Rose H → List K → ℕ × List K
  | .node head children, table =>
    internKey (interns children table).2 (key head (interns children table).1)

/-- Number trees. -/
def interns : List (Rose H) → List K → List ℕ × List K
  | [], table => ([], table)
  | child :: rest, table =>
    ((intern child table).1 :: (interns rest (intern child table).2).1,
      (interns rest (intern child table).2).2)

end

/-- The numbers of the visited objects, by label, and the table. -/
structure Memo (K : Type) where
  known : List (ℕ × ℕ)
  table : List K

mutual

/-- Number an object. -/
def visit : Shared H → Memo K → ℕ × Memo K
  | .node label head children, s =>
    match s.known.lookup label with
    | some i => (i, s)
    | none =>
      let result := visits children s
      let numbered := internKey result.2.table (key head result.1)
      (numbered.1, ⟨(label, numbered.1) :: result.2.known, numbered.2⟩)

/-- Number objects. -/
def visits : List (Shared H) → Memo K → List ℕ × Memo K
  | [], s => ([], s)
  | child :: rest, s =>
    ((visit child s).1 :: (visits rest (visit child s).2).1, (visits rest (visit child s).2).2)

end

variable {key} {table table' : List K}

/-! ### Keys -/

/-- A key keeps its number when the table grows. -/
lemma idxOf?_mono {k : K} {i : ℕ} (h : table <+: table') (hk : table.idxOf? k = some i) :
    table'.idxOf? k = some i := by
  obtain ⟨rest, rfl⟩ := h
  show (table ++ rest).findIdx? _ = some i
  rw [List.findIdx?_append]
  rw [List.idxOf?] at hk
  rw [hk]
  rfl

/-- Numbering a key extends the table, and gives the key a number. -/
lemma internKey_spec (table : List K) (k : K) :
    table <+: (internKey table k).2 ∧
      (internKey table k).2.idxOf? k = some (internKey table k).1 := by
  unfold internKey
  cases hk : table.idxOf? k with
  | some i => exact ⟨List.prefix_rfl, hk⟩
  | none =>
    refine ⟨List.prefix_append _ _, ?_⟩
    show (table ++ [k]).findIdx? _ = some table.length
    rw [List.findIdx?_append]
    rw [List.idxOf?] at hk
    rw [hk]
    simp

/-- A key that has a number keeps the table. -/
lemma internKey_of_idxOf? {k : K} {i : ℕ} (h : table.idxOf? k = some i) :
    internKey table k = (i, table) := by
  rw [internKey, h]

/-! ### Trees -/

mutual

/-- A tree keeps its number when the table grows. -/
lemma name_mono (h : table <+: table') : ∀ {t : Rose H} {i : ℕ}, name key table t = some i →
    name key table' t = some i
  | .node head children, i, ht => by
    rw [name] at ht ⊢
    obtain ⟨ids, hids, hkey⟩ := Option.bind_eq_some_iff.mp ht
    exact Option.bind_eq_some_iff.mpr ⟨ids, names_mono h hids, idxOf?_mono h hkey⟩

/-- Trees keep their numbers when the table grows. -/
lemma names_mono (h : table <+: table') : ∀ {ts : List (Rose H)} {ids : List ℕ},
    names key table ts = some ids → names key table' ts = some ids
  | [], ids, hts => hts
  | child :: rest, ids, hts => by
    rw [names] at hts ⊢
    obtain ⟨i, hi, hrest⟩ := Option.bind_eq_some_iff.mp hts
    obtain ⟨others, hothers, hids⟩ := Option.map_eq_some_iff.mp hrest
    exact Option.bind_eq_some_iff.mpr ⟨i, name_mono h hi,
      Option.map_eq_some_iff.mpr ⟨others, names_mono h hothers, hids⟩⟩

end

mutual

/-- Numbering a tree extends the table, and gives the tree a number. -/
lemma intern_spec : ∀ (t : Rose H) (table : List K), table <+: (intern key t table).2 ∧
    name key (intern key t table).2 t = some (intern key t table).1
  | .node head children, table => by
    obtain ⟨hextends, hnames⟩ := interns_spec children table
    obtain ⟨hextends', hkey⟩ := internKey_spec (interns key children table).2
      (key head (interns key children table).1)
    refine ⟨hextends.trans hextends', ?_⟩
    rw [name, intern]
    exact Option.bind_eq_some_iff.mpr ⟨_, names_mono hextends' hnames, hkey⟩

/-- Numbering trees extends the table, and gives the trees numbers. -/
lemma interns_spec : ∀ (ts : List (Rose H)) (table : List K), table <+: (interns key ts table).2 ∧
    names key (interns key ts table).2 ts = some (interns key ts table).1
  | [], table => ⟨List.prefix_rfl, rfl⟩
  | child :: rest, table => by
    obtain ⟨hextends, hname⟩ := intern_spec child table
    obtain ⟨hextends', hnames⟩ := interns_spec rest (intern key child table).2
    refine ⟨hextends.trans hextends', ?_⟩
    rw [names, interns]
    exact Option.bind_eq_some_iff.mpr ⟨_, name_mono hextends' hname,
      Option.map_eq_some_iff.mpr ⟨_, hnames, rfl⟩⟩

end

mutual

/-- A tree that has a number keeps the table. -/
lemma intern_of_name : ∀ {t : Rose H} {i : ℕ}, name key table t = some i →
    intern key t table = (i, table)
  | .node head children, i, ht => by
    rw [name] at ht
    obtain ⟨ids, hids, hkey⟩ := Option.bind_eq_some_iff.mp ht
    rw [intern, interns_of_names hids]
    exact internKey_of_idxOf? hkey

/-- Trees that have numbers keep the table. -/
lemma interns_of_names : ∀ {ts : List (Rose H)} {ids : List ℕ}, names key table ts = some ids →
    interns key ts table = (ids, table)
  | [], ids, hts => by
    rw [names] at hts
    obtain rfl := Option.some.inj hts
    rfl
  | child :: rest, ids, hts => by
    rw [names] at hts
    obtain ⟨i, hi, hrest⟩ := Option.bind_eq_some_iff.mp hts
    obtain ⟨others, hothers, rfl⟩ := Option.map_eq_some_iff.mp hrest
    rw [interns, intern_of_name hi, interns_of_names hothers]

end

/-! ### Keys that determine heads and children -/

/-- Every head of a tree fits its number of children. -/
inductive Fitting (fits : H → ℕ → Prop) : Rose H → Prop
  | node {head : H} {children : List (Rose H)} (hhead : fits head children.length)
      (hchildren : ∀ child ∈ children, Fitting fits child) : Fitting fits (.node head children)

/-- The keys of fitting heads determine head and children. -/
def Determines (fits : H → ℕ → Prop) (key : H → List ℕ → K) : Prop :=
  ∀ ⦃head head' ids ids'⦄, fits head ids.length → fits head' ids'.length →
    key head ids = key head' ids' → head = head' ∧ ids = ids'

/-- There are as many numbers as trees. -/
lemma length_of_names : ∀ {ts : List (Rose H)} {ids : List ℕ}, names key table ts = some ids →
    ids.length = ts.length
  | [], ids, hts => by
    rw [names] at hts
    obtain rfl := Option.some.inj hts
    rfl
  | child :: rest, ids, hts => by
    rw [names] at hts
    obtain ⟨i, -, hrest⟩ := Option.bind_eq_some_iff.mp hts
    obtain ⟨others, hothers, rfl⟩ := Option.map_eq_some_iff.mp hrest
    rw [List.length_cons, List.length_cons, length_of_names hothers]

/-- Keys with one number are equal. -/
lemma idxOf?_inj {k k' : K} {i : ℕ} (h : table.idxOf? k = some i)
    (h' : table.idxOf? k' = some i) :
    k = k' := by
  obtain ⟨hi, rfl, -⟩ := List.idxOf?_eq_some_iff.mp h
  obtain ⟨-, rfl, -⟩ := List.idxOf?_eq_some_iff.mp h'
  rfl

mutual

/-- **Equal numbers stand for equal trees.** -/
theorem name_inj {fits : H → ℕ → Prop} (hkey : Determines fits key) : ∀ {t t' : Rose H} {i : ℕ},
    Fitting fits t → Fitting fits t' → name key table t = some i → name key table t' = some i →
    t = t'
  | .node head children, .node head' children', i, ht, ht', h, h' => by
    rw [name] at h h'
    obtain ⟨ids, hids, hindex⟩ := Option.bind_eq_some_iff.mp h
    obtain ⟨ids', hids', hindex'⟩ := Option.bind_eq_some_iff.mp h'
    cases ht with
    | node hhead hchildren =>
      cases ht' with
      | node hhead' hchildren' =>
        rw [← length_of_names hids] at hhead
        rw [← length_of_names hids'] at hhead'
        obtain ⟨rfl, rfl⟩ := hkey hhead hhead' (idxOf?_inj hindex hindex')
        rw [names_inj hkey hchildren hchildren' hids hids']

/-- Equal numbers stand for equal lists of trees. -/
lemma names_inj {fits : H → ℕ → Prop} (hkey : Determines fits key) :
    ∀ {ts ts' : List (Rose H)} {ids : List ℕ}, (∀ t ∈ ts, Fitting fits t) →
    (∀ t ∈ ts', Fitting fits t) → names key table ts = some ids → names key table ts' = some ids →
    ts = ts'
  | [], ts', ids, _, _, h, h' => by
    rw [names] at h
    obtain rfl := Option.some.inj h
    exact (List.length_eq_zero_iff.mp (length_of_names h').symm).symm
  | child :: rest, [], ids, _, _, h, h' => by
    rw [names] at h'
    obtain rfl := Option.some.inj h'
    cases length_of_names h
  | child :: rest, child' :: rest', ids, ht, ht', h, h' => by
    rw [names] at h h'
    obtain ⟨i, hi, hrest⟩ := Option.bind_eq_some_iff.mp h
    obtain ⟨others, hothers, rfl⟩ := Option.map_eq_some_iff.mp hrest
    obtain ⟨i', hi', hrest'⟩ := Option.bind_eq_some_iff.mp h'
    obtain ⟨others', hothers', hcons⟩ := Option.map_eq_some_iff.mp hrest'
    obtain ⟨rfl, rfl⟩ := List.cons.inj hcons
    rw [List.forall_mem_cons] at ht ht'
    rw [name_inj hkey ht.1 ht'.1 hi hi', names_inj hkey ht.2 ht'.2 hothers hothers']

end

/-- Every key of a table is made of smaller numbers. -/
def Grounded (fits : H → ℕ → Prop) (key : H → List ℕ → K) (table : List K) : Prop :=
  ∀ i k, table[i]? = some k → ∃ head ids, fits head ids.length ∧ k = key head ids ∧ ∀ j ∈ ids, j < i

/-- A number in a table is smaller than its length. -/
lemma lt_of_idxOf? {k : K} {i : ℕ} (h : table.idxOf? k = some i) : i < table.length :=
  (List.idxOf?_eq_some_iff.mp h).1

mutual

/-- The name of a tree is a position of the table. -/
lemma lt_of_name : ∀ {t : Rose H} {i : ℕ}, name key table t = some i → i < table.length
  | .node head children, i, h => by
    rw [name] at h
    obtain ⟨ids, -, hindex⟩ := Option.bind_eq_some_iff.mp h
    exact lt_of_idxOf? hindex

/-- The names of trees are positions of the table. -/
lemma lt_of_names : ∀ {ts : List (Rose H)} {ids : List ℕ}, names key table ts = some ids →
    ∀ i ∈ ids, i < table.length
  | [], ids, h, i, hi => by
    rw [names] at h
    obtain rfl := Option.some.inj h
    cases hi
  | child :: rest, ids, h, i, hi => by
    rw [names] at h
    obtain ⟨j, hj, hrest⟩ := Option.bind_eq_some_iff.mp h
    obtain ⟨others, hothers, rfl⟩ := Option.map_eq_some_iff.mp hrest
    rcases List.mem_cons.mp hi with rfl | hi
    · exact lt_of_name hj
    · exact lt_of_names hothers i hi

end

/-- Numbering a key made of numbers of the table keeps it grounded. -/
lemma Grounded.internKey {fits : H → ℕ → Prop} (h : Grounded fits key table) {head : H}
    {ids : List ℕ} (hhead : fits head ids.length) (hids : ∀ j ∈ ids, j < table.length) :
    Grounded fits key (internKey table (key head ids)).2 := by
  unfold HashConsing.internKey
  cases hk : table.idxOf? (key head ids) with
  | some i => exact h
  | none =>
    intro i k hi
    rcases lt_or_ge i table.length with hlt | hge
    · rw [List.getElem?_append_left hlt] at hi
      exact h i k hi
    · obtain ⟨hbound, rfl⟩ := List.getElem?_eq_some_iff.mp hi
      rw [List.length_append, List.length_singleton] at hbound
      obtain rfl : i = table.length := by omega
      exact ⟨head, ids, hhead, by simp, hids⟩

mutual

/-- Numbering keeps a table grounded. -/
theorem Grounded.intern {fits : H → ℕ → Prop} : ∀ {t : Rose H} {table : List K},
    Grounded fits key table → Fitting fits t → Grounded fits key (intern key t table).2
  | .node head children, table, h, ht => by
    cases ht with
    | node hhead hchildren =>
      have hnames := (@interns_spec H K _ key children table).2
      rw [HashConsing.intern]
      refine (Grounded.interns h hchildren).internKey ?_ (lt_of_names hnames)
      rw [length_of_names hnames]
      exact hhead

/-- Interning fitting trees keeps the table grounded. -/
lemma Grounded.interns {fits : H → ℕ → Prop} : ∀ {ts : List (Rose H)} {table : List K},
    Grounded fits key table → (∀ t ∈ ts, Fitting fits t) →
    Grounded fits key (interns key ts table).2
  | [], table, h, _ => h
  | child :: rest, table, h, ht => by
    rw [List.forall_mem_cons] at ht
    rw [HashConsing.interns]
    exact Grounded.interns (Grounded.intern h ht.1) ht.2

end

/-- In a grounded table a tree has a larger number than its children. -/
lemma children_lt {fits : H → ℕ → Prop} (hkey : Determines fits key) (h : Grounded fits key table)
    {head : H} {children : List (Rose H)} {i : ℕ} (hfit : Fitting fits (.node head children))
    (hname : name key table (.node head children) = some i) :
    ∃ ids, names key table children = some ids ∧ ∀ j ∈ ids, j < i := by
  rw [name] at hname
  obtain ⟨ids, hids, hindex⟩ := Option.bind_eq_some_iff.mp hname
  cases hfit with
  | node hhead hchildren =>
    obtain ⟨hi, hget, -⟩ := List.idxOf?_eq_some_iff.mp hindex
    obtain ⟨head', ids', hhead', hk, hlt⟩ := h i _ (List.getElem?_eq_some_iff.mpr ⟨hi, hget⟩)
    rw [← length_of_names hids] at hhead
    obtain ⟨-, rfl⟩ := hkey hhead hhead' hk
    exact ⟨ids, hids, hlt⟩

/-! ### Objects -/

/-- Equal labels stand for one object. -/
def Consistent (all : List (Shared H)) : Prop :=
  ∀ n ∈ all, ∀ m ∈ all, n.label = m.label → n = m

/-- The memo holds the numbers that the trees have in the table; with an object it holds everything
below it. -/
def Sound (key : H → List ℕ → K) (all : List (Shared H)) (s : Memo K) : Prop :=
  ∀ n ∈ all, ∀ i, s.known.lookup n.label = some i →
    name key s.table n.tree = some i ∧ ∀ m ∈ n.parts, ∃ j, s.known.lookup m.label = some j

/-- What a visit does: it numbers as trees are numbered, keeps the memo sound, remembers what it
knew and knows what it visited. -/
structure Visited (all : List (Shared H)) (visited : List (Shared H)) (s s' : Memo K)
    (key : H → List ℕ → K) : Prop where
  sound : Sound key all s'
  keeps : ∀ n ∈ all, ∀ i, s.known.lookup n.label = some i → s'.known.lookup n.label = some i
  knows : ∀ n ∈ visited, ∃ i, s'.known.lookup n.label = some i

/-- What the memo knew it still knows behind a new entry, perhaps with another number. -/
lemma exists_lookup_cons {known : List (ℕ × ℕ)} {label i : ℕ} {label' : ℕ}
    (h : ∃ j, known.lookup label' = some j) :
    ∃ j, ((label, i) :: known).lookup label' = some j := by
  by_cases heq : label' = label
  · exact ⟨i, by rw [heq, List.lookup_cons_self]⟩
  · obtain ⟨j, hj⟩ := h
    exact ⟨j, by rw [List.lookup_cons, beq_false_of_ne heq]; exact hj⟩

/-- An object whose children were visited is entered. -/
theorem Visited.add {all : List (Shared H)} {label : ℕ} {head : H} {children : List (Shared H)}
    {s s' : Memo K} {i : ℕ} {table : List K} (h : Visited all (partsOf children) s s' key)
    (hconsistent : Consistent all) (hself : .node label head children ∈ all)
    (hextends : s'.table <+: table)
    (hname : name key table (Shared.node label head children).tree = some i) :
    Visited all (Shared.node label head children).parts s ⟨(label, i) :: s'.known, table⟩ key := by
  have hkeeps : ∀ m ∈ all, ∀ j, s'.known.lookup m.label = some j →
      ((label, i) :: s'.known).lookup m.label = some j := by
    intro m hm j hj
    by_cases heq : m.label = label
    · obtain rfl := hconsistent m hm _ hself heq
      have hsame := name_mono hextends (h.sound _ hm j hj).1
      rw [hname] at hsame
      rw [← hsame]
      exact List.lookup_cons_self
    · rw [List.lookup_cons, beq_false_of_ne heq]
      exact hj
  have hknows : ∀ m ∈ (Shared.node label head children).parts,
      ∃ j, ((label, i) :: s'.known).lookup m.label = some j := by
    intro m hm
    rw [Shared.parts] at hm
    rcases List.mem_cons.mp hm with rfl | hm
    · exact ⟨i, List.lookup_cons_self⟩
    · exact exists_lookup_cons (h.knows m hm)
  refine ⟨fun m hm j hj => ?_, fun m hm j hj => hkeeps m hm j (h.keeps m hm j hj), hknows⟩
  by_cases heq : m.label = label
  · obtain rfl := hconsistent m hm _ hself heq
    have hij : i = j := by
      rw [show (Shared.node label head children).label = label from rfl,
        List.lookup_cons_self] at hj
      exact Option.some.inj hj
    exact ⟨by rw [← hij]; exact hname, hknows⟩
  · have hold : s'.known.lookup m.label = some j := by
      rw [List.lookup_cons, beq_false_of_ne heq] at hj
      exact hj
    obtain ⟨htree, hbelow⟩ := h.sound m hm j hold
    exact ⟨name_mono hextends htree, fun m' hm' => exists_lookup_cons (hbelow m' hm')⟩

mutual

/-- **Objects are numbered as their trees are.**

**Proof sketch.** Induction on the object.  An object that is known has its number in the table, and
numbering its tree again changes nothing.  Behind the visit of its children a new object is numbered
by its key. -/
theorem visit_spec {all : List (Shared H)} (hconsistent : Consistent all) :
    ∀ {n : Shared H} {s : Memo K}, (∀ m ∈ n.parts, m ∈ all) → Sound key all s →
      (visit key n s).1 = (intern key n.tree s.table).1 ∧
      (visit key n s).2.table = (intern key n.tree s.table).2 ∧
      Visited all n.parts s (visit key n s).2 key
  | .node label head children, s, hparts, hsound => by
    have hself := hparts _ (self_mem_parts _)
    cases hknown : s.known.lookup label with
    | some i =>
      obtain ⟨hname, hbelow⟩ := hsound _ hself i hknown
      have hvisit : visit key (.node label head children) s = (i, s) := by
        rw [visit, hknown]
      rw [hvisit, intern_of_name hname]
      exact ⟨rfl, rfl, hsound, fun _ _ _ h => h, hbelow⟩
    | none =>
      have hchildren : ∀ m ∈ partsOf children, m ∈ all := fun m hm => by
        refine hparts m ?_
        rw [Shared.parts]
        exact List.mem_cons_of_mem _ hm
      obtain ⟨hids, htable, hvisited⟩ := visits_spec hconsistent hchildren hsound
      obtain ⟨hextends, hkey⟩ := internKey_spec (visits key children s).2.table
        (key head (visits key children s).1)
      have hvisit : visit key (.node label head children) s =
          ((internKey (visits key children s).2.table (key head (visits key children s).1)).1,
            ⟨(label, (internKey (visits key children s).2.table
                (key head (visits key children s).1)).1) :: (visits key children s).2.known,
              (internKey (visits key children s).2.table
                (key head (visits key children s).1)).2⟩) := by
        rw [visit, hknown]
      have hintern : intern key (Shared.node label head children).tree s.table =
          internKey (visits key children s).2.table (key head (visits key children s).1) := by
        rw [Shared.tree, intern, hids, htable]
      rw [hvisit, hintern]
      generalize internKey (visits key children s).2.table (key head (visits key children s).1) =
        numbered at hextends hkey
      have hname : name key numbered.2 (Shared.node label head children).tree =
          some numbered.1 := by
        rw [Shared.tree, name]
        refine Option.bind_eq_some_iff.mpr ⟨_, names_mono hextends ?_, hkey⟩
        rw [hids, htable]
        exact (interns_spec (trees children) s.table).2
      exact ⟨rfl, rfl, hvisited.add hconsistent hself hextends hname⟩

/-- Visiting nodes one after the other interns their trees, and visits all of their parts. -/
lemma visits_spec {all : List (Shared H)} (hconsistent : Consistent all) :
    ∀ {ns : List (Shared H)} {s : Memo K}, (∀ m ∈ partsOf ns, m ∈ all) → Sound key all s →
      (visits key ns s).1 = (interns key (trees ns) s.table).1 ∧
      (visits key ns s).2.table = (interns key (trees ns) s.table).2 ∧
      Visited all (partsOf ns) s (visits key ns s).2 key
  | [], s, _, hsound => ⟨rfl, rfl, hsound, fun _ _ _ h => h, fun _ h => by cases h⟩
  | n :: rest, s, hparts, hsound => by
    rw [partsOf] at hparts
    obtain ⟨hid, htable, hvisited⟩ := visit_spec hconsistent
      (fun m hm => hparts m (List.mem_append_left _ hm)) hsound
    obtain ⟨hids, htable', hvisited'⟩ := visits_spec hconsistent
      (fun m hm => hparts m (List.mem_append_right _ hm)) hvisited.sound
    rw [visits, trees, interns, ← htable, ← hid, ← hids, ← htable', partsOf]
    refine ⟨rfl, rfl, hvisited'.sound, fun m hm i h =>
      hvisited'.keeps m hm i (hvisited.keeps m hm i h), fun m hm => ?_⟩
    rcases List.mem_append.mp hm with hm' | hm'
    · obtain ⟨i, hi⟩ := hvisited.knows m hm'
      exact ⟨i, hvisited'.keeps m (hparts m hm) i hi⟩
    · exact hvisited'.knows m hm'

end

/-! ### Numbering from an empty table -/

/-- Nothing is known and the table is empty. -/
def Memo.empty : Memo K := ⟨[], []⟩

/-- An empty memo is sound. -/
lemma sound_empty (key : H → List ℕ → K) (all : List (Shared H)) :
    Sound key all (Memo.empty : Memo K) :=
  fun _ _ _ h => by cases h

omit [DecidableEq K] in
/-- An empty table is grounded. -/
lemma grounded_nil (fits : H → ℕ → Prop) : Grounded fits key ([] : List K) :=
  fun _ _ h => by cases h

/-- The parts of fitting objects fit. -/
lemma fitting_of_mem_parts {fits : H → ℕ → Prop} : ∀ {n m : Shared H}, Fitting fits n.tree →
    m ∈ n.parts → Fitting fits m.tree
  | .node label head children, m, hfit, hm => by
    rw [Shared.parts] at hm
    rcases List.mem_cons.mp hm with rfl | hm
    · exact hfit
    · obtain ⟨child, hchild, hm⟩ := mem_partsOf.mp hm
      rw [Shared.tree, trees_eq_map] at hfit
      cases hfit with
      | node hhead hchildren =>
        exact fitting_of_mem_parts (hchildren _ (List.mem_map_of_mem hchild)) hm

section Start

variable {fits : H → ℕ → Prop} {roots roots' : List (Shared H)}

/-- The numbers of the roots and the table are those of the trees. -/
lemma visits_empty (key : H → List ℕ → K) (hconsistent : Consistent (partsOf roots)) :
    (visits key roots .empty).1 = (interns key (trees roots) []).1 ∧
      (visits key roots .empty).2.table = (interns key (trees roots) []).2 := by
  obtain ⟨hids, htable, -⟩ := visits_spec hconsistent (fun _ h => h) (sound_empty key _)
  exact ⟨hids, htable⟩

/-- **Equal results stand for equal lists of trees**, however the objects are shared. -/
theorem visits_eq_iff (hkey : Determines fits key) (hconsistent : Consistent (partsOf roots))
    (hconsistent' : Consistent (partsOf roots')) (hfit : ∀ t ∈ trees roots, Fitting fits t)
    (hfit' : ∀ t ∈ trees roots', Fitting fits t) :
    ((visits key roots .empty).1 = (visits key roots' .empty).1 ∧
      (visits key roots .empty).2.table = (visits key roots' .empty).2.table) ↔
      trees roots = trees roots' := by
  obtain ⟨hids, htable⟩ := visits_empty key hconsistent
  obtain ⟨hids', htable'⟩ := visits_empty key hconsistent'
  rw [hids, hids', htable, htable']
  constructor
  · rintro ⟨hsame, hsameTable⟩
    have hnames := (@interns_spec H K _ key (trees roots) []).2
    rw [hsame, hsameTable] at hnames
    exact names_inj hkey hfit hfit' hnames (@interns_spec H K _ key (trees roots') []).2
  · intro h
    rw [h]
    exact ⟨rfl, rfl⟩

/-- Every visited object is remembered with the number of its tree. -/
lemma lookup_visits (key : H → List ℕ → K) (hconsistent : Consistent (partsOf roots))
    {n : Shared H} (hn : n ∈ partsOf roots) :
    ∃ i, (visits key roots .empty).2.known.lookup n.label = some i ∧
      name key (visits key roots .empty).2.table n.tree = some i := by
  obtain ⟨-, -, hvisited⟩ := visits_spec hconsistent (fun _ h => h) (sound_empty key _)
  obtain ⟨i, hi⟩ := hvisited.knows n hn
  exact ⟨i, hi, (hvisited.sound n hn i hi).1⟩

/-- The parts of fitting roots fit. -/
lemma fitting_of_mem_partsOf (hfit : ∀ t ∈ trees roots, Fitting fits t) {n : Shared H}
    (hn : n ∈ partsOf roots) : Fitting fits n.tree := by
  obtain ⟨root, hroot, hn⟩ := mem_partsOf.mp hn
  rw [trees_eq_map] at hfit
  exact fitting_of_mem_parts (hfit _ (List.mem_map_of_mem hroot)) hn

/-- **Within one numbering, objects have one number just when their trees are equal.** -/
theorem lookup_eq_iff (hkey : Determines fits key) (hconsistent : Consistent (partsOf roots))
    (hfit : ∀ t ∈ trees roots, Fitting fits t) {n m : Shared H} (hn : n ∈ partsOf roots)
    (hm : m ∈ partsOf roots) :
    (visits key roots .empty).2.known.lookup n.label =
      (visits key roots .empty).2.known.lookup m.label ↔ n.tree = m.tree := by
  obtain ⟨i, hi, hname⟩ := lookup_visits key hconsistent hn
  obtain ⟨j, hj, hname'⟩ := lookup_visits key hconsistent hm
  rw [hi, hj, Option.some.injEq]
  constructor
  · rintro rfl
    exact name_inj hkey (fitting_of_mem_partsOf hfit hn) (fitting_of_mem_partsOf hfit hm)
      hname hname'
  · intro h
    rw [h, hname'] at hname
    exact (Option.some.inj hname).symm

/-- The numbers of trees are the numbers of each. -/
lemma name_mem_of_names : ∀ {ts : List (Rose H)} {ids : List ℕ}, names key table ts = some ids →
    ∀ t ∈ ts, ∃ i ∈ ids, name key table t = some i
  | [], _, _, t, ht => by cases ht
  | child :: rest, ids, h, t, ht => by
    rw [names] at h
    obtain ⟨i, hi, hrest⟩ := Option.bind_eq_some_iff.mp h
    obtain ⟨others, hothers, rfl⟩ := Option.map_eq_some_iff.mp hrest
    rcases List.mem_cons.mp ht with rfl | ht
    · exact ⟨i, List.mem_cons_self, hi⟩
    · obtain ⟨j, hj, hname⟩ := name_mem_of_names hothers t ht
      exact ⟨j, List.mem_cons_of_mem _ hj, hname⟩

/-- **Every number is larger than the numbers of the children.** -/
theorem lookup_children_lt (hkey : Determines fits key) (hconsistent : Consistent (partsOf roots))
    (hfit : ∀ t ∈ trees roots, Fitting fits t) {n child : Shared H} (hn : n ∈ partsOf roots)
    (hchild : child ∈ n.children) {i j : ℕ}
    (hi : (visits key roots .empty).2.known.lookup n.label = some i)
    (hj : (visits key roots .empty).2.known.lookup child.label = some j) : j < i := by
  have hgrounded : Grounded fits key (visits key roots .empty).2.table := by
    rw [(visits_empty key hconsistent).2]
    exact (grounded_nil fits).interns hfit
  obtain ⟨i', hi', hname⟩ := lookup_visits key hconsistent hn
  obtain rfl : i' = i := Option.some.inj (hi'.symm.trans hi)
  cases n with
  | node label head children =>
    have hbelow : child ∈ partsOf roots := by
      obtain ⟨root, hroot, hn⟩ := mem_partsOf.mp hn
      exact mem_partsOf.mpr ⟨root, hroot, parts_trans (mem_parts_of_mem_children hchild) hn⟩
    obtain ⟨j', hj', hname'⟩ := lookup_visits key hconsistent hbelow
    obtain rfl : j' = j := Option.some.inj (hj'.symm.trans hj)
    have hfitting := fitting_of_mem_partsOf hfit hn
    rw [Shared.tree] at hname hfitting
    obtain ⟨ids, hids, hlt⟩ := children_lt hkey hgrounded hfitting hname
    rw [trees_eq_map] at hids
    obtain ⟨j'', hj'', hname''⟩ := name_mem_of_names hids _ (List.mem_map_of_mem hchild)
    obtain rfl : j'' = j' := Option.some.inj (hname''.symm.trans hname')
    exact hlt _ hj''

end Start

end Numbering

end HashConsing
