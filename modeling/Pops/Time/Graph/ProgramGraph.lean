import Pops.Core.Identity.ScalarLiteral
import Pops.Foundation.SingleAssignment

/-!
# Program graphs

A Program is compiled from a graph of nodes in single-assignment form.  A node has an id, reads the
values of earlier nodes, and is evaluated at a point of a clock.  Linear combinations have
coefficients that are polynomials in the time step; what the other operations compute is left to the
model.

## Main definitions

* `Pops.Time.TimePoint`, `Point` — the coordinates of nodes.
* `Pops.Time.GraphNode`, `validateNodes`, `ProgramGraph` — the graph.
* `Pops.Time.Meaning`, `Meaning.run` — what a graph computes.

## Main results

* `Pops.Time.ProgramGraph.run_eq` — the values of a graph satisfy the equation of every node.
-/

namespace Pops.Time

open Scalar (Number)

/-! ## Coordinates and coefficients -/

/-- The data of a scalar literal: an exact number, the exact value of a binary64 number, or a
literal that is lowered by its target. -/
inductive ScalarData
  | number (value : Number)
  | binary64 (value : ℚ)
  | algebraic (expression : String)
  deriving DecidableEq

/-- `TimePoint`: a clock with an offset in its step. -/
structure TimePoint where
  clock : String
  offset : ScalarData
  step : ℤ
  deriving DecidableEq

/-- A point of a graph node: a `TimePoint`, or a `StagePoint` with the coordinates of its
partitions, the first one apart. -/
inductive Point
  | time (point : TimePoint)
  | stage (name : String) (first : TimePoint) (others : List TimePoint)
  deriving DecidableEq

/-- The point itself, or `StagePoint.time`. -/
def Point.time? : Point → Raises TimePoint
  | .time point => .ok point
  | .stage name first others =>
    if ∃ point ∈ others, point ≠ first then
      .error (valueError
        s!"StagePoint '{name}' has ambiguous partition times; use time_for(partition)")
    else .ok first

/-- `CoeffPolynomial`: the coefficients of the powers of the time step. -/
structure CoeffPolynomial where
  powers : List (ℤ × ScalarData)
  nodup : (powers.map Prod.fst).Nodup

/-! ## Nodes -/

/-- What the classification of an `OperatorCall` reads of its operator. -/
structure OperatorData where
  handleKind : Option String
  loweringOp : Option String
  loweringValueType : Option String
  deriving DecidableEq

/-- The kinds of nodes, with the parts that are read.  The coefficients are those under
`attrs["coeffs"]`; `other` is any other kind of node, with its references. -/
inductive GraphNodeKind
  | stateRead
  | programValue (op : String) (inputs : List ℕ) (coeffs : Option (List CoeffPolynomial))
  | operatorCall (operator : OperatorData) (inputs : List ℕ)
  | commit (value : ℕ)
  | other (kind : String) (inputs : List ℕ)

/-- A graph node. -/
structure GraphNode where
  nodeId : ℕ
  kind : GraphNodeKind
  point : Point

namespace GraphNode

/-- `references`: the nodes that a node reads. -/
def references (node : GraphNode) : List ℕ :=
  match node.kind with
  | .stateRead => []
  | .programValue _ inputs _ => inputs
  | .operatorCall _ inputs => inputs
  | .commit value => [value]
  | .other _ inputs => inputs

/-- `node.kind == "state_read"`. -/
def isStateRead (node : GraphNode) : Bool :=
  match node.kind with
  | .stateRead => true
  | _ => false

/-- `node.kind == "commit"`. -/
def isCommit (node : GraphNode) : Bool :=
  match node.kind with
  | .commit _ => true
  | _ => false

/-- `readable`: nothing reads a commit. -/
def readable (node : GraphNode) : Bool := !node.isCommit

end GraphNode

/-! ## Graphs -/

/-- The check of one reference. -/
def validateReference (available : List GraphNode) (ref : ℕ) : Raises Unit :=
  match available.find? fun source => source.nodeId = ref with
  | none => .error (valueError
      s!"ProgramGraph reference {ref} must name an earlier readable node or explicit capture")
  | some source =>
      raiseIf (source.readable = false) (valueError "ProgramGraph cannot read a Commit node")

/-- The check of the references of one node. -/
def validateReferences (available : List GraphNode) : List ℕ → Raises Unit
  | [] => .ok ()
  | ref :: refs => do
    validateReference available ref
    validateReferences available refs

/-- `validate_nodes`: the ids and the references. -/
def validateNodes (available : List GraphNode) : List GraphNode → Raises Unit
  | [] => .ok ()
  | node :: nodes => do
    raiseIf (node.nodeId ∈ available.map GraphNode.nodeId)
      (valueError "ProgramGraph node ids must be unique across captures and local nodes")
    validateReferences available node.references
    validateNodes (node :: available) nodes

/-- `ProgramGraph`: the nodes in order of definition. -/
structure ProgramGraph where
  nodes : List GraphNode
  valid : validateNodes [] nodes = .ok ()

/-- Accepted references are ids of available nodes. -/
lemma mem_of_validateReferences {available : List GraphNode} : ∀ {refs : List ℕ},
    validateReferences available refs = .ok () → ∀ ref ∈ refs, ref ∈ available.map GraphNode.nodeId
  | [], _, _, href => by simp at href
  | first :: refs, h, ref, href => by
    simp only [validateReferences, bind_eq_ok] at h
    obtain ⟨u, hfirst, hrest⟩ := h
    rcases List.mem_cons.mp href with rfl | hmem
    · cases hfind : available.find? fun source => source.nodeId = ref with
      | none =>
        rw [validateReference, hfind] at hfirst
        cases hfirst
      | some source =>
        have hid := List.find?_some hfind
        exact List.mem_map.mpr ⟨source, List.mem_of_find?_eq_some hfind, by simpa using hid⟩
    · exact mem_of_validateReferences hrest ref hmem

/-- The nodes that are accepted after others define new names, in an order for evaluation. -/
lemma ordered_of_validateNodes : ∀ {nodes available : List GraphNode},
    validateNodes available nodes = .ok () →
      (∀ i ∈ nodes.map GraphNode.nodeId, i ∉ available.map GraphNode.nodeId) ∧
      SingleAssignment.Ordered GraphNode.nodeId GraphNode.references nodes
  | [], _, _ => ⟨by simp, trivial⟩
  | node :: nodes, available, h => by
    simp only [validateNodes, bind_eq_ok, raiseIf_eq_ok] at h
    obtain ⟨-, hnew, u, hrefs, hnodes⟩ := h
    obtain ⟨hdisjoint, hordered⟩ := ordered_of_validateNodes hnodes
    have hlater : ∀ i ∈ nodes.map GraphNode.nodeId, i ≠ node.nodeId ∧
        i ∉ available.map GraphNode.nodeId := fun i hi => by
      simpa using hdisjoint i hi
    have hall : ∀ i ∈ (node :: nodes).map GraphNode.nodeId, i ∉ available.map GraphNode.nodeId := by
      intro i hi
      rcases List.mem_cons.mp hi with rfl | hmem
      · exact hnew
      · exact (hlater i hmem).2
    exact ⟨hall, fun hmem => (hlater _ hmem).1 rfl,
      fun i hi hmem => hall i hmem (mem_of_validateReferences hrefs i hi), hordered⟩

namespace ProgramGraph

/-- The nodes of a graph are in an order for evaluation. -/
lemma ordered (graph : ProgramGraph) :
    SingleAssignment.Ordered GraphNode.nodeId GraphNode.references graph.nodes :=
  (ordered_of_validateNodes graph.valid).2

end ProgramGraph

/-! ## What a graph computes -/

variable {K V : Type*} [Field K] [AddCommGroup V] [Module K V]

/-- What the operations of a graph compute: the time step, the numbers of literals, the values of
the states, and a function of the inputs for every other node. -/
structure Meaning (K V : Type*) [Field K] where
  dt : K
  scalar : ScalarData → K
  scalar_number : ∀ value : Number, scalar (.number value) = (value.value : K)
  state : GraphNode → V
  call : GraphNode → List V → V

namespace Meaning

/-- The value of a coefficient. -/
def coefficient (M : Meaning K V) (polynomial : CoeffPolynomial) : K :=
  (polynomial.powers.map fun term => M.scalar term.2 * M.dt ^ term.1).sum

/-- The value of a node in an environment. -/
def value (M : Meaning K V) (env : ℕ → V) (node : GraphNode) : V :=
  match node.kind with
  | .stateRead => M.state node
  | .programValue "linear_combine" inputs (some coeffs) =>
    (List.zipWith (fun ref polynomial => M.coefficient polynomial • env ref) inputs coeffs).sum
  | _ => M.call node (node.references.map env)

/-- The values of the nodes of a graph. -/
def run (M : Meaning K V) (graph : ProgramGraph) : ℕ → V :=
  SingleAssignment.run GraphNode.nodeId M.value graph.nodes fun _ => 0

/-- The value of a linear combination. -/
lemma value_combine (M : Meaning K V) {env : ℕ → V} {node : GraphNode} {inputs : List ℕ}
    {coeffs : List CoeffPolynomial}
    (h : node.kind = .programValue "linear_combine" inputs (some coeffs)) :
    M.value env node =
      (List.zipWith (fun ref polynomial =>
        M.coefficient polynomial • env ref) inputs coeffs).sum := by
  simp only [value, h]

/-- The value of a state. -/
lemma value_stateRead (M : Meaning K V) {env : ℕ → V} {node : GraphNode}
    (h : node.kind = .stateRead) : M.value env node = M.state node := by
  simp only [value, h]

end Meaning

/-- The values of a graph satisfy the equation of every node. -/
theorem ProgramGraph.run_eq (graph : ProgramGraph) (M : Meaning K V) {node : GraphNode}
    (h : node ∈ graph.nodes) : M.run graph node.nodeId = M.value (M.run graph) node := by
  refine SingleAssignment.run_eq (fun node env env' hread => ?_) _ graph.ordered node h
  have hcall : ∀ {refs : List ℕ}, (∀ i ∈ refs, env i = env' i) → refs.map env = refs.map env' :=
    fun hrefs => List.map_congr_left hrefs
  unfold Meaning.value
  split
  · rfl
  · rename_i inputs coeffs hkind
    have hinputs : ∀ i ∈ inputs, env i = env' i := by
      simpa [GraphNode.references, hkind] using hread
    congr 1
    clear hkind hread
    induction inputs generalizing coeffs with
    | nil => simp
    | cons ref refs ih =>
      cases coeffs with
      | nil => simp
      | cons polynomial coeffs =>
        rw [List.zipWith_cons_cons, List.zipWith_cons_cons, hinputs ref (by simp),
          ih coeffs fun i hi => hinputs i (by simp [hi])]
  · rw [hcall hread]

end Pops.Time
