import Pops.Foundation.Reordering
import Pops.Codegen.RhsCoherenceRounds

/-!
# The emission order is a legal reordering

The groups of residuals are emitted at their barriers, so residuals move in front of or behind other
nodes. Whatever the operations compute, the nodes leave the same values in the order of the emission
and in the order in which they were authored: what changes its order are residuals and pure
operations, none of which reads the value of the other.

## Main definitions

* `Pops.Codegen.RhsCoherence.Authored` — what the authoring of a Program promises.
* `Pops.Codegen.RhsCoherence.Interpretation` — what the operations compute.
* `Pops.Codegen.RhsCoherence.slot` — what the emission adds at a node.

## Main results

* `Pops.Codegen.RhsCoherence.inverted_independent` — nodes that change their order are independent.
* `Pops.Codegen.RhsCoherence.emitBody_preserves` — the emission returns, and leaves the same values.
-/

namespace Pops

namespace Codegen

namespace RhsCoherence

variable {P : Type}

/-- A node that a round may cross, decided. -/
instance (node : Value P) : Decidable (Crossable node) := inferInstanceAs (Decidable (_ ∨ _))

/-- What the authoring of a Program promises about its nodes: no id is used twice and a node reads
earlier nodes only.  `_rhs_primitive` takes a State and a FieldContext of `solve_fields`, so the
state of a residual is neither a residual nor the synchronization, and neither a residual nor a pure
operation computes its fields. -/
structure Authored (values : List (Value P)) : Prop where
  nodup : (values.map Value.id).Nodup
  earlier : ∀ (i j : ℕ) (v w : Value P), values[i]? = some v → values[j]? = some w →
    w.id ∈ v.inputs.map Value.id → j < i
  state : ∀ v ∈ values, ∀ residual, groupableDefaultRhs v = some residual → ∀ w ∈ values,
    w.id = residual.state.id → groupableDefaultRhs w = none ∧ w.op ≠ "post_synchronization"
  fields : ∀ v ∈ values, ∀ residual, groupableDefaultRhs v = some residual →
    ∀ field ∈ residual.fields, ∀ w ∈ values, w.id = field.id → ¬ Crossable w

/-! ## Meaning -/

/-- What the operations compute, over storage `S` that the nodes share and a buffer for every id.
Pure operations and default residuals read the shared storage and the buffers of their inputs and
fill their own buffer; every other operation may change everything. -/
structure Interpretation (P S V : Type) where
  read : Value P → S → List V → V
  effect : Value P → S × (ℕ → V) → S × (ℕ → V)

section Meaning

variable {S V : Type} (I : Interpretation P S V)

/-- A node is executed. -/
def Interpretation.step (machine : S × (ℕ → V)) (node : Value P) : S × (ℕ → V) :=
  if Crossable node then
    (machine.1, Function.update machine.2 node.id
      (I.read node machine.1 (node.inputs.map fun input => machine.2 input.id)))
  else I.effect node machine

/-- The node with the given id is executed. -/
def Interpretation.stepId (values : List (Value P)) (machine : S × (ℕ → V)) (id : ℕ) :
    S × (ℕ → V) :=
  match values.find? fun node => node.id = id with
  | some node => I.step machine node
  | none => machine

/-- The nodes with the given ids are executed one after the other. -/
def Interpretation.run (values : List (Value P)) (order : List ℕ) (machine : S × (ℕ → V)) :
    S × (ℕ → V) :=
  order.foldl (I.stepId values) machine

/-- Two nodes that fill their own buffers and do not read each other. -/
structure Independent (v w : Value P) : Prop where
  left : Crossable v
  right : Crossable w
  ne : v.id ≠ w.id
  reads : v.id ∉ w.inputs.map Value.id
  reads' : w.id ∉ v.inputs.map Value.id

variable {I}

/-- A buffer that a node does not read. -/
lemma inputs_update {v : Value P} {id : ℕ} (h : id ∉ v.inputs.map Value.id) (buffers : ℕ → V)
    (x : V) :
    (v.inputs.map fun input => Function.update buffers id x input.id) =
      v.inputs.map fun input => buffers input.id :=
  List.map_congr_left fun input hinput =>
    Function.update_of_ne (fun heq : input.id = id => h (heq ▸ List.mem_map_of_mem hinput)) _ _

/-- Independent nodes commute. -/
lemma step_comm {v w : Value P} (h : Independent v w) (machine : S × (ℕ → V)) :
    I.step (I.step machine v) w = I.step (I.step machine w) v := by
  simp only [Interpretation.step, if_pos h.left, if_pos h.right, inputs_update h.reads,
    inputs_update h.reads', Function.update_comm h.ne]

end Meaning

/-! ## Nodes and ids -/

section Ids

variable {values : List (Value P)}

/-- The residual of a node has its id. -/
lemma id_of_groupable {v : Value P} {residual : Residual P}
    (h : groupableDefaultRhs v = some residual) :
    residual.id = v.id ∧ v.inputs = residual.state :: residual.fields := by
  cases v with
  | rhs id name block attrs point context state fields =>
    simp only [groupableDefaultRhs] at h
    split_ifs at h
    rw [← Option.some.inj h]
    exact ⟨rfl, rfl⟩
  | other => cases h

/-- One id has one position. -/
lemma index_unique (hnodup : (values.map Value.id).Nodup) {i j : ℕ} {v w : Value P}
    (hv : values[i]? = some v) (hw : values[j]? = some w) (hid : v.id = w.id) : i = j := by
  have hi : i < (values.map Value.id).length := by
    rw [List.length_map]
    exact (List.getElem?_eq_some_iff.mp hv).1
  refine (List.getElem?_inj hi hnodup).mp ?_
  rw [List.getElem?_map, List.getElem?_map, hv, hw, Option.map_some, Option.map_some, hid]

/-- The node of an id. -/
lemma find?_id (hnodup : (values.map Value.id).Nodup) {i : ℕ} {v : Value P}
    (hv : values[i]? = some v) : (values.find? fun node => node.id = v.id) = some v := by
  cases h : values.find? fun node => node.id = v.id with
  | none => simpa using List.find?_eq_none.mp h v (List.mem_of_getElem? hv)
  | some w =>
    have hid : w.id = v.id := by simpa using List.find?_some h
    obtain ⟨j, hj⟩ := List.mem_iff_getElem?.mp (List.mem_of_find?_eq_some h)
    obtain rfl := index_unique hnodup hj hv hid
    exact hj ▸ hv

/-- The position of a producer. -/
lemma producerIndex_eq {id p : ℕ} (h : producerIndex values id = some p) :
    ∃ w, values[p]? = some w ∧ w.id = id := by
  obtain ⟨⟨w, q⟩, hfind, rfl⟩ := Option.map_eq_some_iff.mp h
  have hmem := List.mem_reverse.mp (List.mem_of_find?_eq_some hfind)
  exact ⟨w, List.mem_zipIdx_iff_getElem?.mp hmem, by simpa using List.find?_some hfind⟩

/-- A default residual with its position. -/
lemma mem_residuals {entry : Indexed P} :
    entry ∈ residuals values ↔
      ∃ v, values[entry.index]? = some v ∧ groupableDefaultRhs v = some entry.residual := by
  simp only [residuals, residualsOf, List.mem_filterMap, Prod.exists, List.mem_zipIdx_iff_getElem?,
    Option.map_eq_some_iff]
  constructor
  · rintro ⟨v, i, hv, residual, hresidual, rfl⟩
    exact ⟨v, hv, hresidual⟩
  · rintro ⟨v, hv, hresidual⟩
    exact ⟨v, entry.index, hv, entry.residual, hresidual, rfl⟩

/-- The positions of the default residuals are positions. -/
lemma index_residualsOf_sublist : ∀ indexed : List (Value P × ℕ),
    ((residualsOf indexed).map Indexed.index).Sublist (indexed.map Prod.snd)
  | [] => List.Sublist.refl _
  | (v, i) :: rest => by
    have ih := index_residualsOf_sublist rest
    rw [residualsOf, List.filterMap_cons]
    cases h : groupableDefaultRhs v with
    | none => exact ih.cons i
    | some residual => exact ih.cons_cons i

/-- No default residual is listed twice. -/
lemma residuals_nodup (values : List (Value P)) : (residuals values).Nodup := by
  refine List.Nodup.of_map Indexed.index ((index_residualsOf_sublist _).nodup ?_)
  rw [List.zipIdx_map_snd]
  exact List.nodup_range'

end Ids

/-! ## Groups -/

/-- What the emission uses of a plan. -/
structure Checked (values : List (Value P)) (rounds : List (Round P)) : Prop where
  once : (rounds.flatMap Round.indexedValues).Perm (residuals values)
  increasing : ∀ round ∈ rounds, round.indexedValues.Pairwise fun e e' => e.index < e'.index
  movable : ∀ round ∈ groups rounds, Movable values round
  barriers : ((groups rounds).map Round.barrierIndex).Nodup

/-- A plan that returns was checked. -/
lemma checked_of_plan [DecidableEq P] {values : List (Value P)} {neighbours : Option Neighbours}
    {rounds : List (Round P)} (h : planRhsCoherence values neighbours = .ok rounds) :
    Checked values rounds := by
  obtain ⟨cohorts, stages, sorted, -, hregular, hperm, -, hsorted, hrounds⟩ := plan_stages h
  obtain ⟨hflat, hstage, hmovable, hnodup⟩ :=
    planStages_spec (fun stage hstage => (hregular stage hstage).increasing) hsorted
  have hgroups : (groups rounds).Perm (groups sorted) := hrounds.filter _
  refine ⟨(hrounds.flatMap_right Round.indexedValues).trans (hflat ▸ hperm), fun round hround => ?_,
    fun round hround => hmovable round (hgroups.subset hround), ?_⟩
  · obtain ⟨stage, hmem, -, hget⟩ := hstage round (hrounds.subset hround)
    exact (hregular stage hmem).increasing _ (List.mem_of_getElem? hget)
  · have hbarriers := hnodup List.nodup_nil
    rw [List.append_nil, barriers, List.nodup_reverse] at hbarriers
    exact (hgroups.map Round.barrierIndex).nodup_iff.mpr hbarriers

section Groups

variable {values : List (Value P)} {rounds : List (Round P)}

/-- The group at a node. -/
def groupAt (rounds : List (Round P)) (index : ℕ) : List (Residual P) :=
  ((schedule rounds).lookup index).getD []

/-- What the emission adds at a node. -/
def slot (rounds : List (Round P)) (row : Value P × ℕ) : List ℕ :=
  (groupAt rounds row.2).map Residual.id ++
    (if row.1.id ∈ groupedIds rounds ∨ row.1.op = "post_synchronization" then [] else [row.1.id])

/-- The group at a barrier. -/
lemma groupAt_barrier (h : Checked values rounds) {round : Round P}
    (hround : round ∈ groups rounds) :
    groupAt rounds round.barrierIndex = round.indexedValues.map Indexed.residual := by
  unfold groupAt
  cases hlookup : (schedule rounds).lookup round.barrierIndex with
  | none =>
    have := List.lookup_eq_none_iff.mp hlookup (round.barrierIndex,
      round.indexedValues.map Indexed.residual)
      (List.mem_map.mpr ⟨round, hround, rfl⟩)
    simp at this
  | some group =>
    obtain ⟨front, back, heq, -⟩ := List.lookup_eq_some_iff.mp hlookup
    have hmem : (round.barrierIndex, group) ∈ schedule rounds := by rw [heq]; simp
    obtain ⟨other, hother, hpair⟩ := List.mem_map.mp hmem
    obtain ⟨hbarrier, rfl⟩ := Prod.mk.inj hpair
    rw [List.inj_on_of_nodup_map h.barriers hother hround hbarrier]
    rfl

/-- Only groups with this barrier are emitted at a node. -/
lemma exists_of_groupAt_ne {index : ℕ} (h : groupAt rounds index ≠ []) :
    ∃ round ∈ groups rounds, round.barrierIndex = index := by
  unfold groupAt at h
  cases hlookup : (schedule rounds).lookup index with
  | none => simp [hlookup] at h
  | some group =>
    obtain ⟨front, back, heq, -⟩ := List.lookup_eq_some_iff.mp hlookup
    have hmem : (index, group) ∈ schedule rounds := by rw [heq]; simp
    obtain ⟨round, hround, hpair⟩ := List.mem_map.mp hmem
    exact ⟨round, hround, (Prod.mk.inj hpair).1⟩

/-- A member of a group is a default residual at its position. -/
lemma member_node (h : Checked values rounds) {round : Round P} (hround : round ∈ groups rounds)
    {e : Indexed P} (he : e ∈ round.indexedValues) :
    ∃ v, values[e.index]? = some v ∧ groupableDefaultRhs v = some e.residual ∧
    e.residual.id = v.id := by
  have hmem : e ∈ rounds.flatMap Round.indexedValues :=
    List.mem_flatMap.mpr ⟨round, List.mem_of_mem_filter hround, he⟩
  obtain ⟨v, hv, hresidual⟩ := mem_residuals.mp (h.once.subset hmem)
  exact ⟨v, hv, hresidual, (id_of_groupable hresidual).1⟩

/-- The ids of the members of a round. -/
def memberIds (round : Round P) : List ℕ := round.indexedValues.map fun e => e.residual.id

/-- An id that is emitted with a group is that of a member. -/
lemma mem_groupAt (h : Checked values rounds) {index id : ℕ}
    (hid : id ∈ (groupAt rounds index).map Residual.id) :
    ∃ round ∈ groups rounds, round.barrierIndex = index ∧ id ∈ memberIds round := by
  have hne : groupAt rounds index ≠ [] := by
    rintro heq
    rw [heq] at hid
    cases hid
  obtain ⟨round, hround, rfl⟩ := exists_of_groupAt_ne hne
  rw [groupAt_barrier h hround, List.map_map] at hid
  exact ⟨round, hround, rfl, hid⟩

/-- A grouped id is that of a member. -/
lemma mem_groupedIds {id : ℕ} :
    id ∈ groupedIds rounds ↔ ∃ round ∈ groups rounds, id ∈ memberIds round := List.mem_flatMap

/-- The id of a member tells its position. -/
lemma member_index (h : Checked values rounds) (hnodup : (values.map Value.id).Nodup)
    {round : Round P} (hround : round ∈ groups rounds) {i : ℕ} {v : Value P}
    (hv : values[i]? = some v) (hid : v.id ∈ memberIds round) :
    ∃ e ∈ round.indexedValues, e.index = i ∧ groupableDefaultRhs v = some e.residual := by
  obtain ⟨e, he, heq⟩ := List.mem_map.mp hid
  obtain ⟨w, hw, hresidual, hidw⟩ := member_node h hround he
  obtain hindex := index_unique hnodup hw hv (hidw.symm.trans heq)
  rw [hindex, hv] at hw
  obtain rfl := Option.some.inj hw
  exact ⟨e, he, hindex, hresidual⟩

/-- A node is in one group at most. -/
lemma group_unique (h : Checked values rounds) (hnodup : (values.map Value.id).Nodup)
    {round round' : Round P} (hround : round ∈ groups rounds) (hround' : round' ∈ groups rounds)
    {i : ℕ} {v : Value P} (hv : values[i]? = some v) (hid : v.id ∈ memberIds round)
    (hid' : v.id ∈ memberIds round') : round = round' := by
  obtain ⟨e, he, hindex, hresidual⟩ := member_index h hnodup hround hv hid
  obtain ⟨e', he', hindex', hresidual'⟩ := member_index h hnodup hround' hv hid'
  have hee : e = e' := by
    cases e
    cases e'
    simp_all
  have hdisjoint := (List.nodup_flatMap.mp (h.once.nodup_iff.mpr (residuals_nodup values))).2
  have : Std.Symm (Function.onFun List.Disjoint (Round.indexedValues (P := P))) :=
    ⟨fun _ _ hab => hab.symm⟩
  by_contra hne
  exact hdisjoint.forall (List.mem_of_mem_filter hround) (List.mem_of_mem_filter hround') hne he
    (hee ▸ he')

/-! ## The order of the emission -/

/-- The ids in the order of the emission. -/
def emissionOrder (values : List (Value P)) (rounds : List (Round P)) : List ℕ :=
  values.zipIdx.flatMap (slot rounds)

/-- A grouped node is a default residual. -/
lemma groupable_of_mem_groupedIds (h : Checked values rounds)
    (hnodup : (values.map Value.id).Nodup) {i : ℕ} {v : Value P} (hv : values[i]? = some v)
    (hid : v.id ∈ groupedIds rounds) :
    (groupableDefaultRhs v).isSome := by
  obtain ⟨round, hround, hmem⟩ := mem_groupedIds.mp hid
  obtain ⟨e, -, -, hresidual⟩ := member_index h hnodup hround hv hmem
  rw [hresidual]
  rfl

/-- Two residuals do not read each other. -/
lemma residuals_independent (hvalues : Authored values) {i j : ℕ} {v w : Value P}
    (hv : values[i]? = some v) (hw : values[j]? = some w) (hne : i ≠ j)
    (hvs : (groupableDefaultRhs v).isSome) (hws : (groupableDefaultRhs w).isSome) :
    Independent v w := by
  have hreads : ∀ {a b : Value P}, a ∈ values → b ∈ values → (groupableDefaultRhs a).isSome →
      (groupableDefaultRhs b).isSome → a.id ∉ b.inputs.map Value.id := by
    intro a b ha hb has hbs hmem
    obtain ⟨residual, hresidual⟩ := Option.isSome_iff_exists.mp hbs
    rw [(id_of_groupable hresidual).2] at hmem
    rcases List.mem_cons.mp hmem with hid | hmem
    · simp [(hvalues.state b hb residual hresidual a ha hid).1] at has
    · obtain ⟨field, hfield, hid⟩ := List.mem_map.mp hmem
      exact hvalues.fields b hb residual hresidual field hfield a ha hid.symm (.inl has)
  have hvm := List.mem_of_getElem? hv
  have hwm := List.mem_of_getElem? hw
  exact ⟨.inl hvs, .inl hws, fun hid => hne (index_unique hvalues.nodup hv hw hid),
    hreads hvm hwm hvs hws, hreads hwm hvm hws hvs⟩

/-- A member and a node between it and the barrier of its group are independent.

**Proof sketch.** The node may be crossed.  If it stands behind the member, it does not read the
member, which is delayed past it; if it stands in front of it, it computes neither the state, which
is there at the barrier, nor the fields of the member. -/
theorem crossed_independent (h : Checked values rounds) (hvalues : Authored values)
    {round : Round P} (hround : round ∈ groups rounds) {i j : ℕ} {v w : Value P}
    (hv : values[i]? = some v) (hw : values[j]? = some w) (hmember : v.id ∈ memberIds round)
    (hother : w.id ∉ memberIds round)
    (hbetween : i < j ∧ j < round.barrierIndex ∨ round.barrierIndex ≤ j ∧ j < i) :
    Independent v w := by
  obtain ⟨e, he, rfl, hresidual⟩ := member_index h hvalues.nodup hround hv hmember
  have hmove := h.movable round hround
  have hcross := hmove.crossed e he j w hw hother hbetween
  have hvm := List.mem_of_getElem? hv
  have hwm := List.mem_of_getElem? hw
  refine ⟨.inl (by rw [hresidual]; rfl), hcross, fun hid => hother (hid ▸ hmember),
    fun hreads => ?_, fun hreads => ?_⟩
  · rcases hbetween with ⟨hij, hj⟩ | ⟨-, hji⟩
    · obtain ⟨input, hinput, hid⟩ := List.mem_map.mp hreads
      exact hmove.delayed e he j w hw hother hij hj input hinput (hid ▸ hmember)
    · have := hvalues.earlier j e.index w v hw hv hreads
      omega
  · rcases hbetween with ⟨hij, -⟩ | ⟨hbarrier, hji⟩
    · have := hvalues.earlier e.index j v w hv hw hreads
      omega
    · rw [(id_of_groupable hresidual).2] at hreads
      rcases List.mem_cons.mp hreads with hid | hmem
      · obtain ⟨p, hp, hlt⟩ := hmove.produced e he
        obtain ⟨x, hx, hxid⟩ := producerIndex_eq hp
        have := index_unique hvalues.nodup hx hw (hxid.trans hid.symm)
        omega
      · obtain ⟨field, hfield, hid⟩ := List.mem_map.mp hmem
        exact hvalues.fields v hvm e.residual hresidual field hfield w hwm hid.symm hcross

/-- Independence does not depend on the order. -/
lemma Independent.symm {v w : Value P} (h : Independent v w) : Independent w v :=
  ⟨h.right, h.left, h.ne.symm, h.reads', h.reads⟩

/-- Where an id is emitted: with its group, or at its node. -/
lemma mem_slot (h : Checked values rounds) {x : Value P} {k : ℕ} (hx : values[k]? = some x)
    {i : ℕ} {v : Value P} (hnodup : (values.map Value.id).Nodup) (hv : values[i]? = some v) :
    v.id ∈ slot rounds (x, k) ↔
      (∃ round ∈ groups rounds, round.barrierIndex = k ∧ v.id ∈ memberIds round) ∨
        k = i ∧ v.id ∉ groupedIds rounds ∧ v.op ≠ "post_synchronization" := by
  rw [slot, List.mem_append]
  refine or_congr ⟨mem_groupAt h, ?_⟩ ?_
  · rintro ⟨round, hround, rfl, hid⟩
    rw [groupAt_barrier h hround, List.map_map]
    exact hid
  · constructor
    · intro hid
      split_ifs at hid with hskip
      · cases hid
      · have hid := List.mem_singleton.mp hid
        obtain rfl := index_unique hnodup hv hx hid
        obtain rfl : v = x := Option.some.inj (hv.symm.trans hx)
        exact ⟨rfl, not_or.mp hskip⟩
    · rintro ⟨rfl, hskip⟩
      obtain rfl : v = x := Option.some.inj (hv.symm.trans hx)
      rw [if_neg (not_or.mpr hskip)]
      exact List.mem_singleton_self _

/-- Two nodes with positions stand in the order of their positions. -/
lemma lt_of_pair_sublist {x y : Value P} {k l : ℕ} (h : [(x, k), (y, l)].Sublist values.zipIdx) :
    k < l ∧ values[k]? = some x ∧ values[l]? = some y := by
  obtain ⟨i, j, hij, hi, hj⟩ := Reordering.pair_sublist_iff.mp h
  simp only [List.getElem?_zipIdx, Nat.zero_add, Option.map_eq_some_iff, Prod.mk.injEq] at hi hj
  obtain ⟨_, hi, rfl, rfl⟩ := hi
  obtain ⟨_, hj, rfl, rfl⟩ := hj
  exact ⟨hij, hi, hj⟩

/-- The members of a group keep their order. -/
lemma member_lt (h : Checked values rounds) (hnodup : (values.map Value.id).Nodup)
    {round : Round P} (hround : round ∈ groups rounds) {i j : ℕ} {v w : Value P}
    (hv : values[i]? = some v) (hw : values[j]? = some w)
    (hpair : [w.id, v.id].Sublist (memberIds round)) : j < i := by
  obtain ⟨members, hmembers, hids⟩ := List.sublist_map_iff.mp hpair
  obtain ⟨e, e', rfl⟩ := List.length_eq_two.mp (by simpa using (congrArg List.length hids).symm)
  have hlt := List.rel_of_pairwise_cons
    ((h.increasing round (List.mem_of_mem_filter hround)).sublist hmembers)
      (List.mem_singleton_self e')
  simp only [List.map_cons, List.map_nil, List.cons.injEq, and_true] at hids
  obtain ⟨x, hx, -, hxid⟩ := member_node h hround (hmembers.subset List.mem_cons_self)
  obtain ⟨y, hy, -, hyid⟩ := member_node h hround
    (hmembers.subset (List.mem_cons_of_mem e (List.mem_singleton_self e')))
  rwa [index_unique hnodup hx hw (hxid.symm.trans hids.1.symm),
    index_unique hnodup hy hv (hyid.symm.trans hids.2.symm)] at hlt

/-- Two ids that are emitted at a barrier are in its group when the last one is: the part of the
slot behind the group is no member. -/
lemma pair_sublist_memberIds (h : Checked values rounds) {round : Round P}
    (hround : round ∈ groups rounds) {x : Value P} {a b : ℕ} (hb : b ∈ memberIds round)
    (hpair : [a, b].Sublist (slot rounds (x, round.barrierIndex))) :
    [a, b].Sublist (memberIds round) := by
  have hslot : slot rounds (x, round.barrierIndex) = memberIds round ++
      (if x.id ∈ groupedIds rounds ∨ x.op = "post_synchronization" then [] else [x.id]) := by
    rw [slot, groupAt_barrier h hround, List.map_map]
    rfl
  rw [hslot, List.sublist_append_iff] at hpair
  obtain ⟨left, right, heq, hleft, hright⟩ := hpair
  have hlast : b ∉ right := by
    intro hmem
    have hmem := hright.subset hmem
    split_ifs at hmem with hskip
    · cases hmem
    · rw [List.mem_singleton] at hmem
      exact hskip (.inl (hmem ▸ mem_groupedIds.mpr ⟨round, hround, hb⟩))
  rcases List.eq_nil_or_concat right with rfl | ⟨front, last, rfl⟩
  · rw [List.append_nil] at heq
    rwa [heq]
  · obtain ⟨-, heq⟩ :=
      List.append_inj' (show [a] ++ [b] = (left ++ front) ++ [last] by simpa using heq) rfl
    exact absurd (by simp [List.singleton_inj.mp heq]) hlast

/-- **Nodes that change their order are independent.**

**Proof sketch.** Two nodes that are emitted at two barriers are residuals.  When one of them is in
no group, it lies between the other one and its barrier (`crossed_independent`).  The members of one
group keep their order, and so do two nodes in no group. -/
theorem inverted_independent (h : Checked values rounds) (hvalues : Authored values) {i j : ℕ}
    {v w : Value P} (hv : values[i]? = some v) (hw : values[j]? = some w) (hij : i < j)
    (hinverted : [w.id, v.id].Sublist (emissionOrder values rounds)) : Independent v w := by
  have hnodup := hvalues.nodup
  have hresidual : ∀ {k : ℕ} {x : Value P}, values[k]? = some x → ∀ round ∈ groups rounds,
      x.id ∈ memberIds round → (groupableDefaultRhs x).isSome := fun hx round hround hmem =>
    groupable_of_mem_groupedIds h hnodup hx (mem_groupedIds.mpr ⟨round, hround, hmem⟩)
  have hfree : ∀ {x : Value P}, x.id ∉ groupedIds rounds → ∀ round ∈ groups rounds,
      x.id ∉ memberIds round := fun hx round hround hmem =>
    hx (mem_groupedIds.mpr ⟨round, hround, hmem⟩)
  rcases Reordering.pair_sublist_flatMap hinverted with
    ⟨⟨x, k⟩, hx, hpair⟩ | ⟨⟨x, k⟩, ⟨y, l⟩, hrows, hb, ha⟩
  · have hx := List.mem_zipIdx_iff_getElem?.mp hx
    have hvslot := (mem_slot h hx hnodup hv).mp (hpair.subset (by simp))
    have hwslot := (mem_slot h hx hnodup hw).mp (hpair.subset (by simp))
    rcases hvslot with ⟨round, hround, hbarrier, hvm⟩ | ⟨rfl, hvfree, -⟩
    · obtain rfl := hbarrier
      have hgroup := pair_sublist_memberIds h hround hvm hpair
      have := member_lt h hnodup hround hv hw hgroup
      omega
    · rcases hwslot with ⟨round, hround, hbarrier, hwm⟩ | ⟨hkj, -, -⟩
      · exact (crossed_independent h hvalues hround hw hv hwm (hfree hvfree round hround)
          (.inr ⟨hbarrier.le, hij⟩)).symm
      · omega
  · obtain ⟨hkl, hx, hy⟩ := lt_of_pair_sublist hrows
    have hvslot := (mem_slot h hy hnodup hv).mp ha
    have hwslot := (mem_slot h hx hnodup hw).mp hb
    rcases hvslot with ⟨round, hround, hbarrier, hvm⟩ | ⟨rfl, hvfree, -⟩
    · rcases hwslot with ⟨round', hround', -, hwm⟩ | ⟨rfl, hwfree, -⟩
      · exact residuals_independent hvalues hv hw hij.ne (hresidual hv round hround hvm)
          (hresidual hw round' hround' hwm)
      · exact crossed_independent h hvalues hround hv hw hvm (hfree hwfree round hround)
          (.inl ⟨hij, by omega⟩)
    · rcases hwslot with ⟨round', hround', hbarrier, hwm⟩ | ⟨rfl, -, -⟩
      · exact (crossed_independent h hvalues hround' hw hv hwm (hfree hvfree round' hround')
          (.inr ⟨by omega, hij⟩)).symm
      · omega

/-! ## The emission returns -/

/-- The nodes that are emitted, in the order in which they were authored. -/
def authoredIds (values : List (Value P)) : List ℕ :=
  (values.filter fun v => v.op ≠ "post_synchronization").map Value.id

/-- A default residual is not the synchronization. -/
lemma op_ne_of_groupable {v : Value P} (h : (groupableDefaultRhs v).isSome) :
    v.op ≠ "post_synchronization" := by
  cases v with
  | rhs => simp [Value.op]
  | other => simp [groupableDefaultRhs] at h

/-- The barrier of a group is the position of a node. -/
lemma exists_at_barrier (h : Checked values rounds) {round : Round P}
    (hround : round ∈ groups rounds) :
    ∃ x, values[round.barrierIndex]? = some x := by
  obtain ⟨last, hlast, hle⟩ := (h.movable round hround).inside
  obtain ⟨v, hv, -, -⟩ := member_node h hround hlast
  have hlt := (List.getElem?_eq_some_iff.mp hv).1
  exact ⟨_, List.getElem?_eq_getElem (lt_of_le_of_lt hle hlt)⟩

/-- Every node but the synchronization is emitted. -/
lemma mem_emissionOrder (h : Checked values rounds) (hnodup : (values.map Value.id).Nodup) {i : ℕ}
    {v : Value P} (hv : values[i]? = some v) (hop : v.op ≠ "post_synchronization") :
    v.id ∈ emissionOrder values rounds := by
  refine List.mem_flatMap.mpr ?_
  by_cases hid : v.id ∈ groupedIds rounds
  · obtain ⟨round, hround, hmem⟩ := mem_groupedIds.mp hid
    obtain ⟨x, hx⟩ := exists_at_barrier h hround
    exact ⟨(x, round.barrierIndex), List.mem_zipIdx_iff_getElem?.mpr hx,
      (mem_slot h hx hnodup hv).mpr (.inl ⟨round, hround, rfl, hmem⟩)⟩
  · exact ⟨(v, i), List.mem_zipIdx_iff_getElem?.mpr hv,
      (mem_slot h hv hnodup hv).mpr (.inr ⟨rfl, hid, hop⟩)⟩

/-- Only ids of such nodes are emitted. -/
lemma exists_of_mem_slot (h : Checked values rounds) {x : Value P} {k id : ℕ}
    (hx : values[k]? = some x) (hid : id ∈ slot rounds (x, k)) :
    ∃ (i : ℕ) (v : Value P), values[i]? = some v ∧ v.id = id ∧ v.op ≠ "post_synchronization" := by
  rcases List.mem_append.mp hid with hid | hid
  · obtain ⟨round, hround, -, hmem⟩ := mem_groupAt h hid
    obtain ⟨e, he, rfl⟩ := List.mem_map.mp hmem
    obtain ⟨v, hv, hresidual, hvid⟩ := member_node h hround he
    exact ⟨e.index, v, hv, hvid.symm, op_ne_of_groupable (by rw [hresidual]; rfl)⟩
  · split_ifs at hid with hskip
    · cases hid
    · exact ⟨k, x, hx, (List.mem_singleton.mp hid).symm, (not_or.mp hskip).2⟩

/-- No id is emitted twice. -/
lemma emissionOrder_nodup (h : Checked values rounds) (hnodup : (values.map Value.id).Nodup) :
    (emissionOrder values rounds).Nodup := by
  refine List.nodup_flatMap.mpr ⟨?_, ?_⟩
  · rintro ⟨x, k⟩ hx
    have hx := List.mem_zipIdx_iff_getElem?.mp hx
    refine List.nodup_append.mpr ⟨?_, ?_, ?_⟩
    · by_cases hgroup : groupAt rounds k = []
      · rw [hgroup]
        exact List.nodup_nil
      · obtain ⟨round, hround, rfl⟩ := exists_of_groupAt_ne hgroup
        rw [groupAt_barrier h hround, List.map_map]
        refine List.pairwise_map.mpr ?_
        refine (h.increasing round (List.mem_of_mem_filter hround)).imp_of_mem
          fun {e e'} he he' hlt hid => ?_
        obtain ⟨v, hv, -, hvid⟩ := member_node h hround he
        obtain ⟨w, hw, -, hwid⟩ := member_node h hround he'
        have := index_unique hnodup hv hw (hvid.symm.trans (hid.trans hwid))
        omega
    · split_ifs
      · exact List.nodup_nil
      · exact List.nodup_singleton _
    · rintro a ha b hb rfl
      obtain ⟨round, hround, -, hmem⟩ := mem_groupAt h ha
      split_ifs at hb with hskip
      · cases hb
      · rw [List.mem_singleton.mp hb] at hmem
        exact hskip (.inl (mem_groupedIds.mpr ⟨round, hround, hmem⟩))
  · rw [List.pairwise_iff_forall_sublist]
    rintro ⟨x, k⟩ ⟨y, l⟩ hrows id hid hid'
    obtain ⟨hkl, hx, hy⟩ := lt_of_pair_sublist hrows
    obtain ⟨i, v, hv, rfl, -⟩ := exists_of_mem_slot h hx hid
    rcases (mem_slot h hx hnodup hv).mp hid with ⟨round, hround, hbarrier, hmem⟩ | ⟨rfl, hfree, -⟩
    · rcases (mem_slot h hy hnodup hv).mp hid' with
        ⟨round', hround', hbarrier', hmem'⟩ | ⟨-, hfree, -⟩
      · rw [group_unique h hnodup hround hround' hv hmem hmem'] at hbarrier
        omega
      · exact hfree (mem_groupedIds.mpr ⟨round, hround, hmem⟩)
    · rcases (mem_slot h hy hnodup hv).mp hid' with ⟨round', hround', -, hmem'⟩ | ⟨hl, -, -⟩
      · exact hfree (mem_groupedIds.mpr ⟨round', hround', hmem'⟩)
      · omega

/-- The emission is a permutation of the nodes. -/
lemma emissionOrder_perm (h : Checked values rounds) (hnodup : (values.map Value.id).Nodup) :
    (emissionOrder values rounds).Perm (authoredIds values) := by
  have hauthored : (authoredIds values).Nodup := hnodup.sublist (List.filter_sublist.map Value.id)
  refine (List.perm_ext_iff_of_nodup (emissionOrder_nodup h hnodup) hauthored).mpr fun id =>
    ⟨?_, ?_⟩
  · intro hid
    obtain ⟨⟨x, k⟩, hx, hslot⟩ := List.mem_flatMap.mp hid
    obtain ⟨i, v, hv, rfl, hop⟩ := exists_of_mem_slot h (List.mem_zipIdx_iff_getElem?.mp hx) hslot
    exact List.mem_map_of_mem (List.mem_filter.mpr ⟨List.mem_of_getElem? hv, by simpa using hop⟩)
  · intro hid
    obtain ⟨v, hv, rfl⟩ := List.mem_map.mp hid
    obtain ⟨hmem, hop⟩ := List.mem_filter.mp hv
    obtain ⟨i, hi⟩ := List.mem_iff_getElem?.mp hmem
    exact mem_emissionOrder h hnodup hi (by simpa using hop)

/-- The states of a group are emitted in front of its barrier. -/
lemma state_emitted (h : Checked values rounds) (hvalues : Authored values)
    {front : List (Value P × ℕ)} {x : Value P} {k : ℕ} {back : List (Value P × ℕ)}
    (hsplit : values.zipIdx = front ++ (x, k) :: back) {residual : Residual P}
    (hresidual : residual ∈ groupAt rounds k) :
    residual.state.id ∈ front.flatMap (slot rounds) := by
  have hgroup : groupAt rounds k ≠ [] := List.ne_nil_of_mem hresidual
  obtain ⟨round, hround, rfl⟩ := exists_of_groupAt_ne hgroup
  rw [groupAt_barrier h hround] at hresidual
  obtain ⟨e, he, rfl⟩ := List.mem_map.mp hresidual
  obtain ⟨p, hp, hlt⟩ := (h.movable round hround).produced e he
  obtain ⟨w, hw, hid⟩ := producerIndex_eq hp
  obtain ⟨v, hv, hvr, -⟩ := member_node h hround he
  obtain ⟨hplain, hop⟩ := hvalues.state v (List.mem_of_getElem? hv) e.residual hvr w
    (List.mem_of_getElem? hw) hid
  have hslot : w.id ∈ slot rounds (w, p) := by
    refine (mem_slot h hw hvalues.nodup hw).mpr (.inr ⟨rfl, fun hmem => ?_, hop⟩)
    have hsome := groupable_of_mem_groupedIds h hvalues.nodup hw hmem
    rw [hplain] at hsome
    cases hsome
  have hfront : (w, p) ∈ front := by
    have hmem : (w, p) ∈ values.zipIdx := List.mem_zipIdx_iff_getElem?.mpr hw
    rw [hsplit] at hmem
    rcases List.mem_append.mp hmem with hmem | hmem
    · exact hmem
    · -- what stands at the barrier or behind it has no smaller position
      rcases List.mem_cons.mp hmem with heq | hmem
      · have := (Prod.mk.inj heq).2
        omega
      · have hpair : [(x, round.barrierIndex), (w, p)].Sublist values.zipIdx := by
          rw [hsplit]
          exact ((List.singleton_sublist.mpr hmem).cons_cons _).trans
            (List.sublist_append_right _ _)
        have := (lt_of_pair_sublist hpair).1
        omega
  exact hid ▸ List.mem_flatMap.mpr ⟨(w, p), hfront, hslot⟩

/-- The loop of the emission returns. -/
lemma emitLoop_eq (h : Checked values rounds) (hvalues : Authored values) :
    ∀ {rows front : List (Value P × ℕ)}, values.zipIdx = front ++ rows →
      emitLoop rounds rows (front.flatMap (slot rounds)) = .ok (emissionOrder values rounds)
  | [], front, hsplit => by
    rw [List.append_nil] at hsplit
    rw [emitLoop, emissionOrder, hsplit]
  | (x, k) :: rows, front, hsplit => by
    have havailable : ((groupAt rounds k).map fun row => row.state.id).filter
        (· ∉ front.flatMap (slot rounds)) = [] := by
      rw [List.filter_eq_nil_iff]
      intro id hid
      obtain ⟨residual, hresidual, rfl⟩ := List.mem_map.mp hid
      simpa using state_emitted h hvalues hsplit hresidual
    have hnext : values.zipIdx = (front ++ [(x, k)]) ++ rows := by rw [hsplit]; simp
    have hrest := emitLoop_eq h hvalues hnext
    rw [List.flatMap_append, List.flatMap_singleton, slot] at hrest
    simp only [groupAt] at havailable hrest
    rw [emitLoop, ← hrest]
    simp only [havailable, List.insertionSort_nil, raiseIf, ne_eq, not_true_eq_false,
      if_false, ok_bind]
    split_ifs <;> simp

/-- **The emission order is a legal reordering.**  When the rounds are planned, the emission returns
a permutation of the nodes, without the synchronization, in which every node stands behind its
inputs, and for all meanings of the operations it leaves the same storage and the same buffers as
the order in which the nodes were authored.

**Proof sketch.** Nodes that change their order are independent (`inverted_independent`), so they
commute (`step_comm`), and a reordering that inverts commuting steps only changes nothing. -/
theorem emitBody_preserves [DecidableEq P] {neighbours : Option Neighbours}
    (hvalues : Authored values) (h : planRhsCoherence values neighbours = .ok rounds) :
    ∃ order, emitBody values neighbours = .ok order ∧ order.Perm (authoredIds values) ∧
      (∀ v ∈ values, ∀ w ∈ values, v.id ∈ order → w.id ∈ order → v.id ∈ w.inputs.map Value.id →
        [v.id, w.id].Sublist order) ∧
      ∀ (S V : Type) (I : Interpretation P S V) (machine : S × (ℕ → V)),
        I.run values order machine = I.run values (authoredIds values) machine := by
  have hchecked := checked_of_plan h
  have hperm := emissionOrder_perm hchecked hvalues.nodup
  have hloop := emitLoop_eq hchecked hvalues (List.nil_append values.zipIdx).symm
  refine ⟨emissionOrder values rounds, by rw [emitBody, h]; exact hloop, hperm, ?_, ?_⟩
  · intro v hv w hw hvo hwo hreads
    obtain ⟨i, hi⟩ := List.mem_iff_getElem?.mp hv
    obtain ⟨j, hj⟩ := List.mem_iff_getElem?.mp hw
    have hij := hvalues.earlier j i w v hj hi hreads
    have hne : v.id ≠ w.id := by
      intro hid
      have := index_unique hvalues.nodup hi hj hid
      omega
    rcases Reordering.pair_sublist_or hne hvo hwo with hpair | hpair
    · exact hpair
    · exact absurd hreads (inverted_independent hchecked hvalues hi hj hij hpair).reads
  · intro S V I machine
    refine (Reordering.foldl_eq_of_inverted hperm.symm (fun a b hab hba machine => ?_) machine).symm
    have hids : [a, b].Sublist (values.map Value.id) := hab.trans (List.filter_sublist.map Value.id)
    obtain ⟨i, j, hij, hi, hj⟩ := Reordering.pair_sublist_iff.mp hids
    rw [List.getElem?_map, Option.map_eq_some_iff] at hi hj
    obtain ⟨v, hv, rfl⟩ := hi
    obtain ⟨w, hw, rfl⟩ := hj
    simp only [Interpretation.stepId, find?_id hvalues.nodup hv, find?_id hvalues.nodup hw]
    exact step_comm (inverted_independent hchecked hvalues hv hw hij hba) machine

end Groups

/-! ## Two coupled blocks -/

-- the residual of the left block moves behind the state of the right one
example : (emitBody coupledValues none).toOption = some [0, 2, 1, 3] := by decide +kernel

/-- The nodes of two coupled blocks are authored. -/
lemma authored_coupledValues : Authored coupledValues := by
  refine ⟨by decide, fun i j v w hv hw hreads => ?_, ?_, ?_⟩
  · rcases i with _ | _ | _ | _ | i <;> rcases j with _ | _ | _ | _ | j <;>
      simp [coupledValues] at hv hw <;> subst hv hw <;>
      simp [stateOf, residualOf, Value.inputs, Value.id] at hreads ⊢
  · simp [coupledValues, stateOf, residualOf, groupableDefaultRhs, usesDefaultFlux,
      Value.id, Value.op]
  · simp [coupledValues, stateOf, residualOf, groupableDefaultRhs, usesDefaultFlux]

/-- Two coupled blocks. -/
theorem emitBody_preserves_coupled : ∃ order, emitBody coupledValues none = .ok order ∧
    order.Perm (authoredIds coupledValues) ∧
      (∀ v ∈ coupledValues, ∀ w ∈ coupledValues, v.id ∈ order → w.id ∈ order →
        v.id ∈ w.inputs.map Value.id → [v.id, w.id].Sublist order) ∧
      ∀ (S V : Type) (I : Interpretation ℕ S V) (machine : S × (ℕ → V)),
        I.run coupledValues order machine =
        I.run coupledValues (authoredIds coupledValues) machine := by
  obtain ⟨rounds, hplan⟩ := planned_coupledValues
  exact emitBody_preserves authored_coupledValues hplan

end RhsCoherence

end Codegen

end Pops
