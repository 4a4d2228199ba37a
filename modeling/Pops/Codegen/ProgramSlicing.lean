import Pops.Foundation.PyException

/-!
# Slicing a Program by layout

`slice_program`: the nodes of a Program that one layout needs.  A slice starts from the nodes of
the selected blocks, closes them under dataflow and captured regions, and refuses a node of a
foreign block.  The selected nodes are handed to the rebuild engine, which renumbers them and
checks the clone; it is a parameter of the model with the part of its contract that the code
generator relies on.

## Main definitions

* `Pops.Codegen.ProgramValue`, `Program` — nodes and the tables of a Program that slicing reads.
* `Pops.Codegen.closure` — the worklist loop.
* `Pops.Codegen.RebuildEngine`, `sliceProgram` — the slice.

## Main results

* `Pops.Codegen.closure_ne_none` — the worklist loop always ends.
* `Pops.Codegen.sliceProgram_refused` — which errors a slice raises.
* `Pops.Codegen.sliceProgram_port` — the nodes of a slice carry the operation and the invocation
  of nodes of the Program.
-/

namespace Pops.Codegen

/-- A node of a Program, with the fields that slicing and map scheduling read. -/
structure ProgramValue where
  id : ℕ
  op : String
  region : ℕ
  /-- the local identity of the block, if the node has one -/
  block : Option String
  stateRef : Option String
  inputs : List ℕ
  /-- the nodes of `apply_block`, `residual_block` and `body_block` -/
  captured : List ℕ
  /-- `attrs["invocation"]`, if it is a string -/
  invocation : Option String
  sourceState : Option String
  targetState : Option String
  /-- the canonical bytes of the attributes -/
  contract : Raises (List UInt8)

/-- The tables of a Program that slicing reads. -/
structure Program where
  /-- the top-level nodes -/
  values : List ProgramValue
  /-- the nodes of the sub-blocks -/
  nested : List ProgramValue
  hasDtBound : Bool
  hasAcceptanceGuards : Bool
  histories : List String
  historyStateRefs : List String
  /-- the committed blocks and the ids of their values -/
  commits : List (Option String × ℕ)

namespace Program

/-- All nodes of a Program. -/
def nodes (program : Program) : List ProgramValue := program.values ++ program.nested

/-- The node with the given id. -/
def find? (program : Program) (id : ℕ) : Option ProgramValue :=
  program.nodes.find? fun value => value.id = id

end Program

/-- Operations that cannot be sliced. -/
def unsliceableOps : List String :=
  ["solve_coupled_implicit", "solve_fields_from_blocks", "field_solve_from_blocks", "while",
    "branch", "range", "subcycle", "solve_local_nonlinear", "solve_spatial_nonlinear"]

/-- `repr` of a string without quotes, backslashes and control characters. -/
def pyRepr (text : String) : String := "'" ++ text ++ "'"

/-- The nodes that a node reads. -/
def ProgramValue.reads (value : ProgramValue) : List ℕ := value.inputs ++ value.captured

/-- The worklist loop: pop the last pending node, keep it, and push what it reads.  `none` when the
bound on the number of rounds is reached. -/
def closure (program : Program) (selected : List String) :
    ℕ → List ℕ → List ℕ → Option (Raises (List ℕ))
  | _, keep, [] => some (.ok keep)
  | 0, _, _ :: _ => none
  | fuel + 1, keep, next :: pending =>
    -- the list of pending nodes is kept with its last element first
    match program.find? next with
    | none => closure program selected fuel keep pending
    | some value =>
      if value.id ∈ keep then closure program selected fuel keep pending
      else match value.block with
        | some block =>
          if block ∉ selected then
            some (.error (valueError ("layout Program partition reads block " ++ pyRepr block ++
              " outside its selected layout")))
          else closure program selected fuel (keep ++ [value.id])
            (value.reads.reverse ++ pending)
        | none => closure program selected fuel (keep ++ [value.id])
            (value.reads.reverse ++ pending)

/-- A bound on the number of rounds: every node is kept once, and pushes what it reads. -/
def closureFuel (program : Program) (roots : List ℕ) : ℕ :=
  roots.length + (program.nodes.map fun value => value.reads.length + 1).sum

/-- The rebuild engine: it clones the kept nodes, renumbers them and checks the clone.  The clone
keeps the operation and the invocation of every node, in the order of the Program. -/
structure RebuildEngine where
  rebuild : Program → List String → List ℕ → Raises (List ProgramValue)
  keeps : ∀ program selected keep values, rebuild program selected keep = .ok values →
    values.map (fun value => (value.op, value.invocation)) =
      (program.values.filter fun value => value.id ∈ keep).map fun value =>
        (value.op, value.invocation)

/-- The slice of a Program for the selected blocks. -/
def sliceProgram (engine : RebuildEngine) (program : Program) (selected : List String) :
    Raises (List ProgramValue) := do
  raiseIf (selected = [] ∨ "" ∈ selected)
    (typeError "slice_program block_names must contain non-empty names")
  raiseIf (program.hasDtBound = true ∨ program.hasAcceptanceGuards = true)
    (valueError "multi-layout Program slicing does not support dt bounds or guards")
  raiseIf (∃ name ∈ program.histories, name ∉ program.historyStateRefs)
    (valueError "multi-layout histories require exact qualified state ownership")
  let unsupported := ((program.values.map ProgramValue.op).filter fun op =>
    op ∈ unsliceableOps).dedup.insertionSort (· ≤ ·)
  raiseIf (unsupported ≠ [])
    (valueError ("multi-layout Program contains unsliceable operation(s) [" ++
      ", ".intercalate (unsupported.map pyRepr) ++ "]"))
  let roots := (program.values.filter fun value =>
    value.block.elim false fun block => block ∈ selected).map ProgramValue.id
  raiseIf (roots = []) (valueError "layout Program partition contains no executable nodes")
  let keep ← (closure program selected (closureFuel program roots) [] roots.reverse).getD
    (.error ⟨.runtimeError, "the worklist loop does not end"⟩)
  let selectedCommits := program.commits.filter fun commit =>
    commit.1.elim false fun block => block ∈ selected
  raiseIf (selectedCommits = []) (valueError "layout Program partition commits no state")
  raiseIf (∃ commit ∈ selectedCommits, commit.2 ∉ keep)
    (valueError "layout Program commit is outside the selected dataflow closure")
  engine.rebuild program selected keep

/-! ## The worklist loop ends -/

/-- The rounds that the nodes outside `keep` can still cause. -/
def remaining (program : Program) (keep : List ℕ) : ℕ :=
  ((program.nodes.filter fun value => value.id ∉ keep).map fun value =>
    value.reads.length + 1).sum

/-- Leaving out a listed element leaves out its summand. -/
lemma sum_filter_add_le {α : Type*} (f : α → ℕ) {p : α → Bool} {l : List α} {a : α}
    (ha : a ∈ l) (hp : p a = false) : ((l.filter p).map f).sum + f a ≤ (l.map f).sum := by
  have hle : ∀ k : List α, ((k.filter p).map f).sum ≤ (k.map f).sum := by
    intro k
    exact List.Sublist.sum_le_sum (List.filter_sublist.map f) (by simp)
  obtain ⟨before, after, rfl⟩ := List.append_of_mem ha
  have h1 := hle before
  have h2 := hle after
  simp only [List.filter_append, List.filter_cons, hp, List.map_append, List.map_cons,
    List.sum_append, List.sum_cons, Bool.false_eq_true, if_false]
  omega

/-- Keeping a further node uses up the rounds that it causes. -/
lemma remaining_append {program : Program} {keep : List ℕ} {value : ProgramValue}
    (hmem : value ∈ program.nodes) (hnew : value.id ∉ keep) :
    remaining program (keep ++ [value.id]) + (value.reads.length + 1) ≤ remaining program keep := by
  have hfilter : (program.nodes.filter fun v => v.id ∉ keep ++ [value.id]) =
      (program.nodes.filter fun v => v.id ∉ keep).filter fun v => v.id ≠ value.id := by
    rw [List.filter_filter]
    apply List.filter_congr
    intro v _
    simp [and_comm]
  unfold remaining
  rw [hfilter]
  exact sum_filter_add_le (fun v : ProgramValue => v.reads.length + 1)
    (List.mem_filter.mpr ⟨hmem, by simpa using hnew⟩) (by simp)

/-- The worklist loop ends within its bound. -/
theorem closure_ne_none {program : Program} {selected : List String} {fuel : ℕ}
    {keep pending : List ℕ} (h : pending.length + remaining program keep ≤ fuel) :
    closure program selected fuel keep pending ≠ none := by
  induction fuel generalizing keep pending with
  | zero =>
    obtain rfl : pending = [] := List.length_eq_zero_iff.mp (by omega)
    simp [closure]
  | succ fuel ih =>
    cases pending with
    | nil => simp [closure]
    | cons next pending =>
      rw [List.length_cons] at h
      unfold closure
      cases hfind : program.find? next with
      | none => exact ih (by omega)
      | some value =>
        have hmem : value ∈ program.nodes := List.mem_of_find?_eq_some hfind
        by_cases hkeep : value.id ∈ keep
        · simp only [if_pos hkeep]
          exact ih (by omega)
        · have hrounds := remaining_append hmem hkeep
          have hnext : closure program selected fuel (keep ++ [value.id])
              (value.reads.reverse ++ pending) ≠ none := by
            apply ih
            rw [List.length_append, List.length_reverse]
            omega
          simp only [if_neg hkeep]
          cases value.block with
          | none => exact hnext
          | some block =>
            simp only
            split_ifs
            · exact hnext
            · simp

/-- The bound of the slice is enough. -/
lemma closure_closureFuel (program : Program) (selected : List String) (roots : List ℕ) :
    closure program selected (closureFuel program roots) [] roots.reverse ≠ none := by
  apply closure_ne_none
  simp [remaining, closureFuel]

/-- **A slice is refused by its own checks, in the worklist loop or by the rebuild engine**, never
because the loop does not end. -/
theorem sliceProgram_refused {engine : RebuildEngine} {program : Program} {selected : List String}
    {e : PyError} (h : sliceProgram engine program selected = .error e) :
    e.kind = .typeError ∨ e.kind = .valueError ∨
      (∃ fuel roots, closure program selected fuel [] roots = some (.error e)) ∨
      ∃ keep, engine.rebuild program selected keep = .error e := by
  have hguard : ∀ {c : Prop} [Decidable c] {text : String},
      raiseIf c (valueError text) = .error e → e.kind = .valueError :=
    fun h => by rw [raiseIf_eq_error h]; rfl
  unfold sliceProgram at h
  rcases bind_eq_error.mp h with h | ⟨_, -, h⟩
  · exact .inl (by rw [raiseIf_eq_error h]; rfl)
  apply Or.inr
  rcases bind_eq_error.mp h with h | ⟨_, -, h⟩
  · exact .inl (hguard h)
  rcases bind_eq_error.mp h with h | ⟨_, -, h⟩
  · exact .inl (hguard h)
  rcases bind_eq_error.mp h with h | ⟨_, -, h⟩
  · exact .inl (hguard h)
  rcases bind_eq_error.mp h with h | ⟨_, -, h⟩
  · exact .inl (hguard h)
  rcases bind_eq_error.mp h with h | ⟨keep, -, h⟩
  · -- the worklist loop ends, so that the error is its own
    obtain ⟨result, hresult⟩ := Option.ne_none_iff_exists'.mp
      (closure_closureFuel program selected _)
    rw [hresult, Option.getD_some] at h
    exact .inr (.inl ⟨_, _, hresult.trans (congrArg some h)⟩)
  rcases bind_eq_error.mp h with h | ⟨_, -, h⟩
  · exact .inl (hguard h)
  rcases bind_eq_error.mp h with h | ⟨_, -, h⟩
  · exact .inl (hguard h)
  exact .inr (.inr ⟨keep, h⟩)

/-- The nodes of a slice carry the operation and the invocation of nodes of the Program. -/
theorem sliceProgram_port {engine : RebuildEngine} {program : Program} {selected : List String}
    {values : List ProgramValue} (h : sliceProgram engine program selected = .ok values)
    {value : ProgramValue} (hv : value ∈ values) :
    ∃ node ∈ program.values, value.op = node.op ∧ value.invocation = node.invocation := by
  simp only [sliceProgram, bind_eq_ok, raiseIf_eq_ok, exists_const] at h
  obtain ⟨_, _, _, _, _, keep, _, _, _, hrebuild⟩ := h
  have hports := engine.keeps _ _ _ _ hrebuild
  have hmem : (value.op, value.invocation) ∈
      values.map fun value => (value.op, value.invocation) := List.mem_map.mpr ⟨value, hv, rfl⟩
  rw [hports] at hmem
  obtain ⟨node, hnode, heq⟩ := List.mem_map.mp hmem
  obtain ⟨hop, hinvocation⟩ := Prod.mk.inj heq
  exact ⟨node, (List.mem_filter.mp hnode).1, hop.symm, hinvocation.symm⟩

end Pops.Codegen
