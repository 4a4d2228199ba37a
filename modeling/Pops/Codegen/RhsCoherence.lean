import Pops.Foundation.GraphSearch
import Pops.Codegen.ProgramSlicing

/-!
# Rounds of residual evaluations

`pops.codegen._rhs_coherence`: the residuals of the blocks of a Program that are coupled by
boundaries are evaluated together.  `plan_rhs_coherence` partitions the default residuals at one
stage point into rounds, the first residual of every block, the second one, and so on; a round with
several residuals is emitted as one group at its barrier, so its members move in front of or behind
other nodes.  `_emit_body` emits the groups at their barriers and every other node in its place.

## Main definitions

* `Pops.Codegen.RhsCoherence.Value` — the nodes, with what the planner reads.
* `Pops.Codegen.RhsCoherence.rhsCohorts` — the blocks that are connected.
* `Pops.Codegen.RhsCoherence.planRhsCoherence` — the rounds.
* `Pops.Codegen.RhsCoherence.emitBody` — the order of the emission.

## Main results

* `Pops.Codegen.RhsCoherence.mem_cohort` — a cohort is a connected set.
-/

namespace Pops

namespace Codegen

namespace RhsCoherence

/-! ## Nodes -/

/-- `FieldContext`: the field, and the blocks of `stage_sources`. -/
structure FieldContext where
  field : String
  stageSources : List String

/-- `attrs` of a residual. -/
structure RhsAttrs where
  flux : Option Bool
  fluxes : Option (List String)
  sources : Option (List String)

/-- A node.  A residual, the node with the operation `rhs`, has a block, a state, and maybe fields;
`other` is every other operation. -/
inductive Value (P : Type)
  | rhs (id : ℕ) (name block : String) (attrs : RhsAttrs) (point : P)
      (fieldContext : Option FieldContext) (state : Value P) (fields : List (Value P))
  | other (id : ℕ) (name op : String) (block : Option String) (fieldContext : Option FieldContext)
      (inputs : List (Value P))

variable {P : Type}

namespace Value

/-- `id`: the position of the node in the Program. -/
def id : Value P → ℕ
  | rhs id _ _ _ _ _ _ _ => id
  | other id _ _ _ _ _ => id

/-- `name`: the local that the emitted code gives to the node. -/
def name : Value P → String
  | rhs _ name _ _ _ _ _ _ => name
  | other _ name _ _ _ _ => name

/-- `op`: the operation, which for a residual is always `rhs`. -/
def op : Value P → String
  | rhs _ _ _ _ _ _ _ _ => "rhs"
  | other _ _ op _ _ _ => op

/-- `block`: the block that the node belongs to, which every residual has. -/
def block : Value P → Option String
  | rhs _ _ block _ _ _ _ _ => some block
  | other _ _ _ block _ _ => block

/-- `field_context`: the field and the stage sources that the node was built under. -/
def fieldContext : Value P → Option FieldContext
  | rhs _ _ _ _ _ context _ _ => context
  | other _ _ _ _ context _ => context

/-- `inputs`: the operands; those of a residual are its state and then its fields. -/
def inputs : Value P → List (Value P)
  | rhs _ _ _ _ _ _ state fields => state :: fields
  | other _ _ _ _ _ inputs => inputs

end Value

/-- What the planner reads of a default residual. -/
structure Residual (P : Type) where
  id : ℕ
  name : String
  block : String
  point : P
  state : Value P
  fields : List (Value P)

/-- `uses_default_flux`: the residual takes the flux of its block and nothing else. -/
def usesDefaultFlux (attrs : RhsAttrs) : Bool :=
  attrs.flux.getD true && (match attrs.fluxes with
    | none => true
    | some fluxes => decide (fluxes = []) || decide (fluxes = ["default"]))

/-- `groupable_default_rhs`: the residual that can enter a group. -/
def groupableDefaultRhs : Value P → Option (Residual P)
  | .rhs id name block attrs point _ state fields =>
    if usesDefaultFlux attrs && !((attrs.sources.getD []).any fun source =>
      source != "default") then
      some ⟨id, name, block, point, state, fields⟩
    else none
  | .other _ _ _ _ _ _ => none

/-- `_PURE_OPS`: operations without a side effect on the runtime. -/
def pureOps : List String :=
  ["linear_combine", "linear_source", "cell_compare", "where", "scalar_op", "compare"]

/-- `_reorderable_ops`: operations that a group may be moved across: the pure ones and the reads. -/
def reorderableOps : List String := pureOps ++ ["state", "history", "scalar_field", "reduce"]

/-! ## Cohorts -/

/-- Blocks with their neighbours. -/
structure Neighbours where
  table : List (String × List String)
  nodup : (table.map Prod.fst).Nodup

namespace Neighbours

/-- The blocks. -/
def names (graph : Neighbours) : List String := graph.table.map Prod.fst

/-- The neighbours of a block. -/
def peers (graph : Neighbours) (name : String) : List String := (graph.table.lookup name).getD []

/-- `graph[a].add(b)`: record a neighbour once. -/
def add (graph : Neighbours) (a b : String) : Neighbours where
  table := graph.table.map fun row => (row.1, if row.1 = a ∧ b ∉ row.2 then row.2 ++ [b] else row.2)
  nodup := by
    rw [List.map_map]
    exact graph.nodup

end Neighbours

/-- The graph, and the blocks that first read the fields. -/
structure Links where
  graph : Neighbours
  readers : List (String × String)

namespace Links

/-- `connect`: link the block of a node to another block; both have to be declared. -/
def connect (links : Links) (owner : String) : Option String → Raises Links
  | none => .ok links
  | some name =>
    if name = owner then .ok links
    else if name ∉ links.graph.names then
      .error (valueError "RHS coherence dependency references an unknown block")
    else .ok { links with graph := (links.graph.add owner name).add name owner }

/-- `connect_context`: link the block of a node to the stage sources of its field context. -/
def connectContext (links : Links) (owner : String) : Option FieldContext → Raises Links
  | none => .ok links
  | some context => do
    let links ← context.stageSources.foldlM (fun links block =>
      links.connect owner (some block)) links
    match links.readers.lookup context.field with
    | some previous => links.connect owner (some previous)
    | none => .ok { links with readers := links.readers ++ [(context.field, owner)] }

end Links

mutual

/-- A popped producer: it is skipped when it was visited, otherwise it is connected and everything
that it reads is popped. -/
def connectProducer (owner : String) : Value P → List ℕ × Links → Raises (List ℕ × Links)
  | .rhs id _ block _ _ context state fields, (visited, links) => do
    if id ∈ visited then .ok (visited, links)
    else do
      let links ← links.connect owner (some block)
      let links ← links.connectContext owner context
      let visited ← connectProducers owner fields (id :: visited, links)
      connectProducer owner state visited
  | .other id _ _ block context inputs, (visited, links) => do
    if id ∈ visited then .ok (visited, links)
    else do
      let links ← links.connect owner block
      let links ← links.connectContext owner context
      connectProducers owner inputs (id :: visited, links)

/-- The loop over the pending producers: the last one is popped first, and with it everything that
it reads. -/
def connectProducers (owner : String) : List (Value P) → List ℕ × Links → Raises (List ℕ × Links)
  | [], visited => .ok visited
  | value :: pending, visited => do
    let visited ← connectProducers owner pending visited
    connectProducer owner value visited

end

/-- The links of one node. -/
def connectValue (links : Links) (value : Value P) : Raises Links :=
  match groupableDefaultRhs value with
  | none => .ok links
  | some residual => do
    let links ← links.connectContext residual.block value.fieldContext
    let (_, links) ← connectProducers residual.block value.inputs ([], links)
    .ok links

/-- A cohort: the blocks that are reached from a block, in the order of the graph. -/
def cohort (graph : Neighbours) (name : String) : List String :=
  let reached :=
    GraphSearch.search graph.peers (GraphSearch.rounds graph.peers graph.names) [] [name]
  graph.names.filter (· ∈ reached)

/-- **A cohort is a connected set**: where every neighbour is a block of the graph, it holds the
blocks to which there is a path. -/
theorem mem_cohort {graph : Neighbours} (hclosed : ∀ a b, b ∈ graph.peers a → b ∈ graph.names)
    {name : String} (hname : name ∈ graph.names) (x : String) :
    x ∈ cohort graph name ↔ Relation.ReflTransGen (fun a b => b ∈ graph.peers a) name x := by
  have hsearch := GraphSearch.mem_search_iff graph.nodup (fun a _ => hclosed a) hname x
  rw [cohort, List.mem_filter, decide_eq_true_iff]
  refine ⟨fun h => hsearch.mp h.2, fun h => ⟨?_, hsearch.mpr h⟩⟩
  cases h with
  | refl => exact hname
  | tail _ hbc => exact hclosed _ _ hbc

/-- The loop over the blocks of the graph. -/
def cohorts (graph : Neighbours) : List (String × List String) :=
  graph.names.foldl (fun cohorts name =>
    if (cohorts.lookup name).isSome then cohorts
    else ((cohort graph name).map fun peer => (peer, cohort graph name)) ++ cohorts) []

/-- `_rhs_cohorts`: the connected sets of blocks, in order of declaration. -/
def rhsCohorts (values : List (Value P)) (neighbours : Option Neighbours) :
    Raises (List (String × List String)) :=
  let names := (values.filterMap fun value => (groupableDefaultRhs value).map Residual.block).dedup
  match neighbours with
  | none => .ok (names.map fun name => (name, names))
  | some graph => do
    raiseIf (¬ names ⊆ graph.names)
      (valueError "RHS coherence connectivity omits participating blocks")
    raiseIf (∃ row ∈ graph.table, ∃ peer ∈ row.2, peer ∉ graph.names ∨ row.1 ∉ graph.peers peer)
      (valueError "RHS coherence block connectivity must be complete and symmetric")
    let links ← values.foldlM connectValue ⟨graph, []⟩
    .ok (cohorts links.graph)

/-! ## Rounds -/

/-- A residual with its position in the list of nodes. -/
structure Indexed (P : Type) where
  index : ℕ
  residual : Residual P

/-- `_StageRounds`: the rounds of one stage point, with the number of residuals of every block. -/
structure StageRounds (P : Type) where
  point : P
  counts : List (String × ℕ)
  rounds : List (List (Indexed P))
  cohort : List String

/-- `RhsCoherenceRound`: the residuals that are evaluated together, with their barrier. -/
structure Round (P : Type) where
  point : P
  occurrence : ℕ
  indexedValues : List (Indexed P)
  barrierIndex : ℕ

namespace StageRounds

/-- `stage.rounds[occurrence].append((index, value))`, behind new empty rounds if there are not
enough. -/
def appendTo : List (List (Indexed P)) → ℕ → Indexed P → List (List (Indexed P))
  | [], 0, entry => [[entry]]
  | [], occurrence + 1, entry => [] :: appendTo [] occurrence entry
  | round :: rounds, 0, entry => (round ++ [entry]) :: rounds
  | round :: rounds, occurrence + 1, entry => round :: appendTo rounds occurrence entry

/-- A residual enters the round of its occurrence. -/
def record (stage : StageRounds P) (entry : Indexed P) : StageRounds P :=
  let occurrence := (stage.counts.lookup entry.residual.block).getD 0
  { stage with
    counts := (entry.residual.block, occurrence + 1) :: stage.counts
    rounds := appendTo stage.rounds occurrence entry }

end StageRounds

section Plan

variable [DecidableEq P]

/-- A residual enters the first stage with its point and its cohort, or a new one. -/
def recordIn (cohort : List String) (entry : Indexed P) :
    List (StageRounds P) → List (StageRounds P)
  | [] => [(⟨entry.residual.point, [], [], cohort⟩ : StageRounds P).record entry]
  | stage :: stages =>
    if stage.point = entry.residual.point ∧ stage.cohort = cohort then stage.record entry :: stages
    else stage :: recordIn cohort entry stages

/-- The loop that partitions the default residuals. -/
def partition (cohorts : List (String × List String)) :
    List (Value P × ℕ) → List (StageRounds P) → Raises (List (StageRounds P))
  | [], stages => .ok stages
  | (value, index) :: rest, stages =>
    match groupableDefaultRhs value with
    | none => partition cohorts rest stages
    | some residual =>
      match cohorts.lookup residual.block with
      | none => .error ⟨.keyError, pyRepr residual.block⟩
      | some cohort => partition cohorts rest (recordIn cohort ⟨index, residual⟩ stages)

/-- `producer_index`: the position of the last node with the given id. -/
def producerIndex (values : List (Value P)) (id : ℕ) : Option ℕ :=
  (values.zipIdx.reverse.find? fun row => row.1.id = id).map Prod.snd

/-- A statement that raises for the first element with an error. -/
def raiseFirst {α : Type} (error : α → Option PyError) (l : List α) : Raises Unit :=
  match l.findSome? error with
  | some e => .error e
  | none => .ok ()

/-- `[3, 5]`: the `repr` of a list of positions. -/
def listText (ids : List ℕ) : String := "[" ++ ", ".intercalate (ids.map Nat.repr) ++ "]"

/-- The check of a node in the range of a round. -/
def crossingError (cohorts : List (String × List String)) (stage : StageRounds P)
    (memberIds : List ℕ) (node : Value P) : Option PyError :=
  if node.id ∈ memberIds then none
  else
    let reordered := if node.op ∉ reorderableOps then
        some (valueError
          ("RHS coherence cannot reorder a sibling residual across ordering barrier " ++
          pyRepr node.name ++ " (op=" ++ node.op ++
            "); materialize every participating block state and " ++
          "place the residual round before side effects"))
      else none
    match groupableDefaultRhs node with
    | none => reordered
    | some residual =>
      if residual.point = stage.point then
        if (cohorts.lookup residual.block).getD [] ≠ stage.cohort then none
        else some (valueError ("RHS coherence rounds at one StagePoint are interleaved around " ++
          pyRepr node.name ++ "; author each complete block round before starting the next"))
      else reordered

/-- The check of a node in front of the barrier. -/
def consumerError (memberIds : List ℕ) (consumer : Value P) : Option PyError :=
  if consumer.id ∈ memberIds then none
  else
    let consumed := ((consumer.inputs.map Value.id).filter (· ∈ memberIds)).insertionSort (· ≤ ·)
    if consumed = [] then none
    else some (valueError ("RHS coherence cannot delay residual node(s) " ++ listText consumed ++
      " past consumer " ++ pyRepr consumer.name ++
        "; materialize every participating block stage state " ++
      "before evaluating the first cross-block residual"))

/-- The position of the producer of the state of a residual. -/
def stateProducer (values : List (Value P)) (entry : Indexed P) : Raises ℕ :=
  match producerIndex values entry.residual.state.id with
  | some index => .ok index
  | none => .error (valueError ("RHS coherence cannot locate state producer id " ++
      entry.residual.state.id.repr ++ " for " ++ pyRepr entry.residual.name))

/-- `values[first:stop]`: the slice of a list. -/
def between {α : Type} (values : List α) (first stop : ℕ) : List α :=
  (values.drop first).take (stop - first)

/-- One round of a stage; the barriers that are occupied are threaded through. -/
def planRound (values : List (Value P)) (cohorts : List (String × List String))
    (stage : StageRounds P) (occurrence : ℕ) (candidates : List (Indexed P)) (occupied : List ℕ) :
    Raises (Round P × List ℕ) :=
  match candidates with
  | [] => .error (valueError "RHS coherence occurrence partition contains an empty round")
  | [only] => .ok (⟨stage.point, occurrence, [only], only.index⟩, occupied)
  | first :: second :: rest => do
    let last := (second :: rest).getLast (by simp)
    let memberIds := candidates.map fun entry => entry.residual.id
    let inputProducers ← candidates.mapM (stateProducer values)
    let barrierIndex := max first.index (inputProducers.foldl max 0 + 1)
    raiseIf (last.index < barrierIndex)
      (valueError "RHS coherence state producer lies after its authored evaluation round")
    raiseFirst (crossingError cohorts stage memberIds) (between values first.index (last.index + 1))
    raiseFirst (consumerError memberIds) (between values first.index barrierIndex)
    raiseIf (barrierIndex ∈ occupied)
      (valueError "RHS coherence rounds have an ambiguous emission barrier")
    .ok (⟨stage.point, occurrence, candidates, barrierIndex⟩, barrierIndex :: occupied)

/-- The rounds of a stage, from the one with the given number on. -/
def planStage (values : List (Value P)) (cohorts : List (String × List String))
    (stage : StageRounds P) :
    ℕ → List (List (Indexed P)) → List ℕ → Raises (List (Round P) × List ℕ)
  | _, [], occupied => .ok ([], occupied)
  | occurrence, candidates :: rest, occupied => do
    let (round, occupied) ← planRound values cohorts stage occurrence candidates occupied
    let (rounds, occupied) ← planStage values cohorts stage (occurrence + 1) rest occupied
    .ok (round :: rounds, occupied)

/-- The rounds of all stages. -/
def planStages (values : List (Value P)) (cohorts : List (String × List String)) :
    List (StageRounds P) → List ℕ → Raises (List (Round P))
  | [], _ => .ok []
  | stage :: stages, occupied => do
    let (rounds, occupied) ← planStage values cohorts stage 0 stage.rounds occupied
    let others ← planStages values cohorts stages occupied
    .ok (rounds ++ others)

/-- `round_.indexed_values[0][0]`: the position of the first member of a round. -/
def Round.firstIndex (round : Round P) : ℕ := (round.indexedValues.head?.map Indexed.index).getD 0

/-- `plan_rhs_coherence`: the rounds of every stage point, in order of their first members. -/
def planRhsCoherence (values : List (Value P)) (neighbours : Option Neighbours) :
    Raises (List (Round P)) := do
  let cohorts ← rhsCohorts values neighbours
  let stages ← partition cohorts values.zipIdx []
  let rounds ← planStages values cohorts stages []
  .ok (rounds.insertionSort fun r r' => r.firstIndex ≤ r'.firstIndex)

end Plan

/-! ## Emission -/

/-- The rounds that are emitted as groups. -/
def groups (rounds : List (Round P)) : List (Round P) :=
  rounds.filter fun round => 1 < round.indexedValues.length

/-- `schedule`: the groups by their barriers. -/
def schedule (rounds : List (Round P)) : List (ℕ × List (Residual P)) :=
  (groups rounds).map fun round => (round.barrierIndex, round.indexedValues.map Indexed.residual)

/-- `grouped_ids`: the positions of the members of the groups. -/
def groupedIds (rounds : List (Round P)) : List ℕ :=
  (groups rounds).flatMap fun round => round.indexedValues.map fun entry => entry.residual.id

/-- The loop of `_emit_body` over the nodes: a group is emitted at its barrier, when the states of
its members were emitted, and every node that is in no group in its place.  The ids that were
emitted are threaded through. -/
def emitLoop (rounds : List (Round P)) :
    List (Value P × ℕ) → List ℕ → Raises (List ℕ)
  | [], emitted => .ok emitted
  | (value, index) :: rest, emitted => do
    let group := ((schedule rounds).lookup index).getD []
    let unavailable :=
      ((group.map fun row => row.state.id).filter (· ∉ emitted)).insertionSort (· ≤ ·)
    raiseIf (unavailable ≠ []) (valueError
      ("RHS coherence barrier lacks materialized state value ids " ++ listText unavailable))
    let emitted := emitted ++ group.map Residual.id
    let emitted := if value.id ∈ groupedIds rounds ∨ value.op = "post_synchronization" then emitted
      else emitted ++ [value.id]
    emitLoop rounds rest emitted

/-- The ids of the nodes in the order of their emission. -/
def emitBody [DecidableEq P] (values : List (Value P)) (neighbours : Option Neighbours) :
    Raises (List ℕ) := do
  let rounds ← planRhsCoherence values neighbours
  emitLoop rounds values.zipIdx []

end RhsCoherence

end Codegen

end Pops
