import Pops.Codegen.ProgramSlicing
import Pops.Foundation.DependencyRounds
import Pops.Foundation.OrderedMap

/-!
# Regions between physical maps

`plan_program_mapping_regions`: every layout runs its own slice of a Program, cut into regions at
the ports of the physical maps.  Both peers of a map stop at their port, the transfer completes,
and then both go on.  The plan orders the regions and the maps so that every event comes after
what it waits for, or reports a communication cycle.

## Main definitions

* `Pops.Codegen.programMapInvocations` — the maps of a Program with their two ports.
* `Pops.Codegen.regionGraph` — the regions of all layouts and what every event waits for.
* `Pops.Codegen.planProgramMappingRegions` — the plan.
* `Pops.Codegen.ValidOrder` — an order of the events that a run can follow.

## Main results

* `Pops.Codegen.regionGraph_spec` — the regions cut the slices at their ports, and the
  dependencies are those of the cuts.
* `Pops.Codegen.validOrder_iff_respects` — the orders a run can follow are those that respect the
  dependencies.
* `Pops.Codegen.planProgramMappingRegions_complete` — a plan is complete and runs without
  deadlock, and the cycle error means that no order could be followed.
-/

namespace Pops.Codegen

open DependencyRounds (Before Respects Outcome rounds)

/-! ## Invocations -/

/-- The operation of a source port. -/
def mapExport : String := "layout_map_export"

/-- The operation of a target port. -/
def mapImport : String := "layout_map_import"

/-- The operations of ports. -/
def mapOps : List String := [mapExport, mapImport]

/-- A physical map with its two ports. -/
structure ProgramMapInvocation where
  identity : String
  source : ProgramValue
  target : ProgramValue

/-- The ports seen so far, by invocation and operation, in the order of their identities. -/
abbrev PortTable := List (String × List (String × ProgramValue))

/-- `attrs[key]`: an attribute that the operation must carry; a `KeyError` names it. -/
def requiredAttr (value : Option String) (key : String) : Raises String :=
  value.elim (.error ⟨.keyError, pyRepr key⟩) .ok

/-- One round of the port loop. -/
def addPort (ports : PortTable) (node : ProgramValue) : Raises PortTable :=
  if node.op ∈ mapOps then do
    raiseIf (node.region ≠ 0) (valueError "physical maps require top-level Program barriers")
    let identity ← node.invocation.elim
      (.error (valueError "Program map lacks an authenticated invocation identity")) .ok
    raiseIf (¬ "pops.program-map.v1::".toList <+: identity.toList)
      (valueError "Program map lacks an authenticated invocation identity")
    let row := (OrderedMap.lookup ports identity).getD []
    raiseIf ((OrderedMap.lookup row node.op).isSome)
      (valueError "Program map duplicates a directional invocation port")
    pure (OrderedMap.assign ports identity (row ++ [(node.op, node)]))
  else pure ports

/-- The state that the only input of a source port reads. -/
def inputState (program : Program) (source : ProgramValue) : Option String :=
  source.inputs.head?.bind fun id => (program.find? id).bind ProgramValue.stateRef

/-- The invocation of two ports that agree on their contract. -/
def pairPorts (program : Program) (identity : String) (source target : ProgramValue) :
    Raises ProgramMapInvocation := do
  let sourceContract ← source.contract
  let targetContract ← target.contract
  raiseIf (sourceContract ≠ targetContract)
    (valueError "Program map directional ports disagree on their exact contract")
  raiseIf (source.inputs.length ≠ 1)
    (valueError "Program map source port does not read its declared qualified state")
  let sourceState ← requiredAttr source.sourceState "source_state"
  raiseIf (inputState program source ≠ some sourceState)
    (valueError "Program map source port does not read its declared qualified state")
  raiseIf (source.stateRef ≠ some sourceState)
    (valueError "Program map port state provenance differs from its declaration")
  let targetState ← requiredAttr target.targetState "target_state"
  raiseIf (target.stateRef ≠ some targetState)
    (valueError "Program map port state provenance differs from its declaration")
  pure ⟨identity, source, target⟩

/-- One round of the pairing loop. -/
def addInvocation (program : Program) (allowPartition : Bool) (result : List ProgramMapInvocation)
    (entry : String × List (String × ProgramValue)) : Raises (List ProgramMapInvocation) :=
  match OrderedMap.lookup entry.2 mapExport, OrderedMap.lookup entry.2 mapImport with
  | some source, some target => do
    let invocation ← pairPorts program entry.1 source target
    pure (result ++ [invocation])
  | _, _ =>
    if allowPartition then pure result
    else .error (valueError "Program map requires exactly one source and one target port")

/-- The maps of a Program, in the order of their identities. -/
def programMapInvocations (program : Program) (allowPartition : Bool) :
    Raises (List ProgramMapInvocation) := do
  let ports ← program.values.foldlM addPort []
  ports.foldlM (addInvocation program allowPartition) []

/-! ## Regions -/

/-- What a run does next: the transfer of a map, or a region of a layout. -/
inductive Event
  | map (identity : String)
  | region (layout : String) (index : ℕ)
  deriving DecidableEq

/-- The tuple that represents an event. -/
def Event.key : Event → String ×ₗ String ×ₗ ℕ
  | map identity => toLex ("map", toLex (identity, 0))
  | region layout index => toLex ("region", toLex (layout, index))

/-- `sorted` of events. -/
def sortEvents (events : List Event) : List Event :=
  events.insertionSort fun event event' => event.key ≤ event'.key

/-- The nodes of a layout up to a port. -/
structure ProgramMappingRegion where
  layout : String
  index : ℕ
  values : List ProgramValue
  barrier : Option String
  direction : Option String

/-- The event of a region. -/
def ProgramMappingRegion.event (region : ProgramMappingRegion) : Event :=
  .region region.layout region.index

/-- The plan of all layouts. -/
structure ProgramMappingRegions where
  invocations : List ProgramMapInvocation
  regions : List ProgramMappingRegion
  events : List Event

/-- The tables that the region loops fill. -/
structure RegionTables where
  regions : List ProgramMappingRegion
  dependencies : List (Event × List Event)
  /-- the region that ends at a port, by invocation and operation -/
  portRegions : List ((String × String) × (String × ℕ))

/-- The variables of the loop over one layout. -/
structure LayoutState where
  tables : RegionTables
  pending : List ProgramValue
  index : ℕ
  prior : Option Event

/-- One round of the loop over the nodes of a layout. -/
def regionStep (layout : String) (s : LayoutState) (value : ProgramValue) : Raises LayoutState :=
  if value.op ∈ mapOps then do
    let identity ← requiredAttr value.invocation "invocation"
    raiseIf ((OrderedMap.lookup s.tables.portRegions (identity, value.op)).isSome)
      (valueError "Program map port appears in multiple layout regions")
    pure {
      tables := {
        regions := s.tables.regions ++
          [⟨layout, s.index, s.pending ++ [value], some identity, some value.op⟩]
        dependencies := s.tables.dependencies ++ [(.region layout s.index, s.prior.toList)]
        portRegions := s.tables.portRegions ++ [((identity, value.op), (layout, s.index))] }
      pending := []
      index := s.index + 1
      prior := some (.map identity) }
  else pure { s with pending := s.pending ++ [value] }

/-- The tables after the last region of a layout. -/
def LayoutState.finish (layout : String) (s : LayoutState) : RegionTables where
  regions := s.tables.regions ++ [⟨layout, s.index, s.pending, none, none⟩]
  dependencies := s.tables.dependencies ++ [(.region layout s.index, s.prior.toList)]
  portRegions := s.tables.portRegions

/-- One round of the loop over the layouts. -/
def layoutStep (tables : RegionTables) (slice : String × List ProgramValue) :
    Raises RegionTables := do
  let s ← slice.2.foldlM (regionStep slice.1) ⟨tables, [], 0, none⟩
  pure (s.finish slice.1)

/-- What the transfer of a map waits for: its two port regions. -/
def invocationDependency (tables : RegionTables) (invocation : ProgramMapInvocation) :
    Raises (Event × List Event) :=
  match OrderedMap.lookup tables.portRegions (invocation.identity, mapExport),
    OrderedMap.lookup tables.portRegions (invocation.identity, mapImport) with
  | some source, some target =>
    if source.1 = target.1 then
      .error (valueError "Program map requires one port on each of two distinct layouts")
    else .ok (.map invocation.identity,
      [.region source.1 source.2, .region target.1 target.2])
  | _, _ => .error (valueError "Program map requires one port on each of two distinct layouts")

/-- The layouts of the blocks. -/
def layoutsOf (layoutByBlock : List (String × String)) : List String :=
  (layoutByBlock.map Prod.snd).dedup.insertionSort (· ≤ ·)

/-- The blocks of a layout. -/
def blocksOf (layoutByBlock : List (String × String)) (layout : String) : List String :=
  (layoutByBlock.filter fun entry => entry.2 = layout).map Prod.fst

/-- The slices of all layouts. -/
def layoutSlices (engine : RebuildEngine) (program : Program)
    (layoutByBlock : List (String × String)) : Raises (List (String × List ProgramValue)) :=
  (layoutsOf layoutByBlock).mapM fun layout => do
    let values ← sliceProgram engine program (blocksOf layoutByBlock layout)
    pure (layout, values)

/-- The regions of all layouts and what every event waits for. -/
def regionGraph (engine : RebuildEngine) (program : Program)
    (layoutByBlock : List (String × String)) (invocations : List ProgramMapInvocation) :
    Raises (List ProgramMappingRegion × List (Event × List Event)) := do
  raiseIf (layoutsOf layoutByBlock = [])
    (valueError "Program mapping regions require resolved layout ownership")
  let slices ← layoutSlices engine program layoutByBlock
  let tables ← slices.foldlM layoutStep ⟨[], [], []⟩
  let transfers ← invocations.mapM (invocationDependency tables)
  pure (tables.regions, tables.dependencies ++ transfers)

/-- The error of an order that does not exist. -/
def communicationCycle : PyError :=
  valueError "Program map region dependencies contain a communication cycle"

/-- The plan of a Program whose blocks are assigned to layouts. -/
def planProgramMappingRegions (engine : RebuildEngine) (program : Program)
    (layoutByBlock : List (String × String)) : Raises ProgramMappingRegions := do
  let invocations ← programMapInvocations program false
  if invocations.isEmpty then pure ⟨[], [], []⟩
  else do
    let (regions, dependencies) ← regionGraph engine program layoutByBlock invocations
    match rounds sortEvents dependencies.length dependencies [] with
    | .sorted events => pure ⟨invocations, regions, events⟩
    | .cycle => .error communicationCycle
    | .outOfFuel => .error ⟨.runtimeError, "the event loop does not end"⟩

/-! ## The invocations of a Program -/

/-- A required attribute that is there. -/
lemma requiredAttr_eq_ok {value : Option String} {key text : String} :
    requiredAttr value key = .ok text ↔ value = some text := by
  cases value <;> simp [requiredAttr]

/-- The port loop keeps the identities of all ports it has seen, in order. -/
lemma foldlM_addPort {values : List ProgramValue} {ports : PortTable}
    (h : values.foldlM addPort [] = .ok ports) :
    OrderedMap.Sorted ports ∧ ∀ node ∈ values, node.op ∈ mapOps →
      ∃ identity, node.invocation = some identity ∧ (OrderedMap.lookup ports identity).isSome := by
  refine foldlM_invariant (P := fun done (ports : PortTable) => OrderedMap.Sorted ports ∧
    ∀ node ∈ done, node.op ∈ mapOps → ∃ identity, node.invocation = some identity ∧
      (OrderedMap.lookup ports identity).isSome) h ⟨List.Pairwise.nil, by simp⟩ ?_
  rintro done node rest ports ports' _ ⟨hsorted, hseen⟩ hstep
  unfold addPort at hstep
  split_ifs at hstep with hop
  · simp only [bind_eq_ok, raiseIf_eq_ok, exists_const, pure_eq_ok] at hstep
    obtain ⟨_, identity, hidentity, _, _, rfl⟩ := hstep
    refine ⟨hsorted.assign _ _, fun n hn hport => ?_⟩
    rcases List.mem_append.mp hn with hn | hn
    · obtain ⟨known, hknown, hlookup⟩ := hseen n hn hport
      refine ⟨known, hknown, ?_⟩
      rw [OrderedMap.lookup_assign]
      split_ifs
      · rfl
      · exact hlookup
    · rw [List.mem_singleton.mp hn]
      refine ⟨identity, ?_, by simp⟩
      cases hinv : node.invocation with
      | none => simp [hinv] at hidentity
      | some known => simpa [hinv] using hidentity
  · simp only [pure_eq_ok] at hstep
    subst hstep
    refine ⟨hsorted, fun n hn hport => ?_⟩
    rcases List.mem_append.mp hn with hn | hn
    · exact hseen n hn hport
    · rw [List.mem_singleton.mp hn] at hport
      exact absurd hport hop

/-- The invocation of two ports that agree. -/
lemma pairPorts_eq {program : Program} {identity : String} {source target : ProgramValue}
    {invocation : ProgramMapInvocation}
    (h : pairPorts program identity source target = .ok invocation) :
    invocation = ⟨identity, source, target⟩ := by
  simp only [pairPorts, bind_eq_ok, raiseIf_eq_ok, exists_const, pure_eq_ok] at h
  obtain ⟨_, _, _, _, _, _, _, _, _, _, _, _, _, hresult⟩ := h
  exact hresult.symm

/-- The pairing loop has one invocation for every identity. -/
lemma foldlM_addInvocation {program : Program} {ports : PortTable}
    {invocations : List ProgramMapInvocation}
    (h : ports.foldlM (addInvocation program false) [] = .ok invocations) :
    invocations.map ProgramMapInvocation.identity = ports.map Prod.fst := by
  refine foldlM_invariant (P := fun done (result : List ProgramMapInvocation) =>
    result.map ProgramMapInvocation.identity = done.map Prod.fst) h rfl ?_
  intro done entry rest result result' _ hresult hstep
  unfold addInvocation at hstep
  split at hstep
  · simp only [bind_eq_ok, pure_eq_ok] at hstep
    obtain ⟨invocation, hpair, rfl⟩ := hstep
    simp [hresult, pairPorts_eq hpair]
  · simp at hstep

/-- The maps of a Program have distinct identities, and every port belongs to one of them. -/
lemma programMapInvocations_spec {program : Program} {invocations : List ProgramMapInvocation}
    (h : programMapInvocations program false = .ok invocations) :
    (invocations.map ProgramMapInvocation.identity).Nodup ∧
      ∀ node ∈ program.values, node.op ∈ mapOps →
        ∃ invocation ∈ invocations, node.invocation = some invocation.identity := by
  simp only [programMapInvocations, bind_eq_ok] at h
  obtain ⟨ports, hports, hpairs⟩ := h
  obtain ⟨hsorted, hseen⟩ := foldlM_addPort hports
  have hidentities := foldlM_addInvocation hpairs
  refine ⟨?_, fun node hnode hop => ?_⟩
  · rw [hidentities]
    exact (List.pairwise_map.mpr hsorted).imp fun hlt => ne_of_lt hlt
  · obtain ⟨identity, hidentity, hlookup⟩ := hseen node hnode hop
    obtain ⟨row, hrow⟩ := Option.isSome_iff_exists.mp hlookup
    have hmem : identity ∈ invocations.map ProgramMapInvocation.identity := by
      rw [hidentities]
      exact List.mem_map.mpr ⟨_, OrderedMap.mem_of_lookup hrow, rfl⟩
    obtain ⟨invocation, hinvocation, rfl⟩ := List.mem_map.mp hmem
    exact ⟨invocation, hinvocation, hidentity⟩

/-! ## Regions of one layout -/

/-- The regions that the ports cut out of the nodes of a layout. -/
def cutRegions (layout : String) : ℕ → List ProgramValue → List ProgramValue →
    List ProgramMappingRegion
  | index, pending, [] => [⟨layout, index, pending, none, none⟩]
  | index, pending, value :: values =>
    if value.op ∈ mapOps then
      ⟨layout, index, pending ++ [value], value.invocation, some value.op⟩ ::
        cutRegions layout (index + 1) [] values
    else cutRegions layout index (pending ++ [value]) values

/-- What consecutive regions wait for: the map at the end of the previous one. -/
def regionDependencies : Option Event → List ProgramMappingRegion → List (Event × List Event)
  | _, [] => []
  | prior, region :: regions =>
    (region.event, prior.toList) :: regionDependencies (region.barrier.map .map) regions

/-- The port at the end of a region. -/
def ProgramMappingRegion.port (region : ProgramMappingRegion) :
    Option ((String × String) × (String × ℕ)) :=
  region.barrier.bind fun identity => region.direction.map fun direction =>
    ((identity, direction), (region.layout, region.index))

/-- The loop over the nodes of a layout fills the tables with the cut regions. -/
lemma foldlM_regionStep {layout : String} {values : List ProgramValue} {s s' : LayoutState}
    (h : values.foldlM (regionStep layout) s = .ok s') :
    (s'.finish layout).regions =
        s.tables.regions ++ cutRegions layout s.index s.pending values ∧
      (s'.finish layout).dependencies = s.tables.dependencies ++
        regionDependencies s.prior (cutRegions layout s.index s.pending values) ∧
      (s'.finish layout).portRegions = s.tables.portRegions ++
        (cutRegions layout s.index s.pending values).filterMap ProgramMappingRegion.port ∧
      ((s.tables.portRegions.map Prod.fst).Nodup →
        ((s'.finish layout).portRegions.map Prod.fst).Nodup) ∧
      ∀ value ∈ values, value.op ∈ mapOps → value.invocation.isSome := by
  induction values generalizing s with
  | nil =>
    simp only [List.foldlM_nil, pure_eq_ok] at h
    subst h
    simp [cutRegions, regionDependencies, LayoutState.finish, ProgramMappingRegion.port,
      ProgramMappingRegion.event]
  | cons value values ih =>
    simp only [List.foldlM_cons, bind_eq_ok] at h
    obtain ⟨next, hnext, hrest⟩ := h
    obtain ⟨hregions, hdependencies, hports, hnodup, hsome⟩ := ih hrest
    unfold regionStep at hnext
    split_ifs at hnext with hop
    · simp only [bind_eq_ok, raiseIf_eq_ok, exists_const, pure_eq_ok, requiredAttr_eq_ok] at hnext
      obtain ⟨identity, hidentity, hfresh, rfl⟩ := hnext
      simp only [cutRegions, if_pos hop, hidentity]
      refine ⟨?_, ?_, ?_, fun hkeys => hnodup ?_, fun v hv hport => ?_⟩
      · rw [hregions]
        simp
      · rw [hdependencies]
        simp [regionDependencies, ProgramMappingRegion.event]
      · rw [hports]
        simp [ProgramMappingRegion.port]
      · rw [List.map_append, List.nodup_append]
        refine ⟨hkeys, by simp, fun key hkey key' hkey' heq => ?_⟩
        simp only [List.map_cons, List.map_nil, List.mem_singleton] at hkey'
        apply hfresh
        rw [← hkey', ← heq]
        exact OrderedMap.isSome_lookup_iff.mpr hkey
      · rcases List.mem_cons.mp hv with rfl | hv
        · simp [hidentity]
        · exact hsome v hv hport
    · simp only [pure_eq_ok] at hnext
      subst hnext
      simp only [cutRegions, if_neg hop]
      refine ⟨hregions, hdependencies, hports, hnodup, fun v hv hport => ?_⟩
      rcases List.mem_cons.mp hv with rfl | hv
      · exact absurd hport hop
      · exact hsome v hv hport

section Cut

variable {layout : String} {index : ℕ} {pending values : List ProgramValue}

/-- The regions of a layout concatenate to its nodes. -/
lemma cutRegions_values :
    (cutRegions layout index pending values).flatMap ProgramMappingRegion.values =
      pending ++ values := by
  induction values generalizing index pending with
  | nil => simp [cutRegions]
  | cons value values ih =>
    unfold cutRegions
    split_ifs
    · simp [ih]
    · simp [ih]

/-- The regions belong to the layout and are numbered from the first index. -/
lemma of_mem_cutRegions {region : ProgramMappingRegion}
    (h : region ∈ cutRegions layout index pending values) :
    region.layout = layout ∧ index ≤ region.index := by
  induction values generalizing index pending with
  | nil =>
    rw [cutRegions, List.mem_singleton] at h
    subst h
    exact ⟨rfl, le_rfl⟩
  | cons value values ih =>
    unfold cutRegions at h
    split_ifs at h
    · rcases List.mem_cons.mp h with rfl | h
      · exact ⟨rfl, le_rfl⟩
      · obtain ⟨hlayout, hindex⟩ := ih h
        exact ⟨hlayout, by omega⟩
    · exact ih h

/-- The regions of a layout have different events. -/
lemma nodup_cutRegions :
    ((cutRegions layout index pending values).map ProgramMappingRegion.event).Nodup := by
  induction values generalizing index pending with
  | nil => simp [cutRegions]
  | cons value values ih =>
    unfold cutRegions
    split_ifs
    · rw [List.map_cons, List.nodup_cons]
      refine ⟨fun hmem => ?_, ih⟩
      obtain ⟨region, hregion, heq⟩ := List.mem_map.mp hmem
      have := (of_mem_cutRegions hregion).2
      simp only [ProgramMappingRegion.event, Event.region.injEq] at heq
      omega
    · exact ih

/-- A region that ends at a port ends with the node of the port. -/
lemma exists_port {region : ProgramMappingRegion}
    (h : region ∈ cutRegions layout index pending values) {identity : String}
    (hbarrier : region.barrier = some identity) :
    ∃ value ∈ values, value.op ∈ mapOps ∧ value.invocation = some identity ∧
      region.direction = some value.op := by
  induction values generalizing index pending with
  | nil =>
    rw [cutRegions, List.mem_singleton] at h
    subst h
    cases hbarrier
  | cons value values ih =>
    unfold cutRegions at h
    split_ifs at h with hop
    · rcases List.mem_cons.mp h with rfl | h
      · exact ⟨value, by simp, hop, hbarrier, rfl⟩
      · obtain ⟨port, hport, hrest⟩ := ih h
        exact ⟨port, by simp [hport], hrest⟩
    · obtain ⟨port, hport, hrest⟩ := ih h
      exact ⟨port, by simp [hport], hrest⟩

/-- Before a region that is not the first there is one that ends at a port. -/
lemma exists_previous (hports : ∀ value ∈ values, value.op ∈ mapOps → value.invocation.isSome)
    {region : ProgramMappingRegion} (h : region ∈ cutRegions layout index pending values)
    (hlater : index < region.index) :
    ∃ previous ∈ cutRegions layout index pending values,
      region.index = previous.index + 1 ∧ previous.barrier.isSome := by
  induction values generalizing index pending with
  | nil =>
    rw [cutRegions, List.mem_singleton] at h
    subst h
    exact absurd hlater (lt_irrefl _)
  | cons value values ih =>
    unfold cutRegions at h ⊢
    split_ifs at h ⊢ with hop
    · rcases List.mem_cons.mp h with rfl | h
      · exact absurd hlater (lt_irrefl _)
      · rcases Nat.eq_or_lt_of_le (of_mem_cutRegions h).2 with hnext | hnext
        · exact ⟨_, List.mem_cons_self .., hnext.symm, hports value (by simp) hop⟩
        · obtain ⟨previous, hprevious, hrest⟩ :=
            ih (fun v hv => hports v (by simp [hv])) h hnext
          exact ⟨previous, by simp [hprevious], hrest⟩
    · exact ih (fun v hv => hports v (by simp [hv])) h hlater

/-- The waiting events are the regions. -/
lemma map_fst_regionDependencies (prior : Option Event) (regions : List ProgramMappingRegion) :
    (regionDependencies prior regions).map Prod.fst =
      regions.map ProgramMappingRegion.event := by
  induction regions generalizing prior with
  | nil => rfl
  | cons region regions ih => simp [regionDependencies, ih]

/-- The first region waits for the given event. -/
lemma head_regionDependencies (prior : Option Event) :
    (.region layout index, prior.toList) ∈
      regionDependencies prior (cutRegions layout index pending values) := by
  induction values generalizing pending with
  | nil => simp [cutRegions, regionDependencies, ProgramMappingRegion.event]
  | cons value values ih =>
    unfold cutRegions
    split_ifs
    · simp [regionDependencies, ProgramMappingRegion.event]
    · exact ih

/-- A region waits only for the map at the end of the previous one. -/
lemma of_mem_regionDependencies {prior : Option Event} {entry : Event × List Event}
    (h : entry ∈ regionDependencies prior (cutRegions layout index pending values))
    {parent : Event} (hparent : parent ∈ entry.2) :
    (prior = some parent ∧ entry.1 = .region layout index) ∨
      ∃ region ∈ cutRegions layout index pending values, ∃ identity,
        region.barrier = some identity ∧ parent = .map identity ∧
          entry.1 = .region layout (region.index + 1) := by
  induction values generalizing index pending prior with
  | nil =>
    simp only [cutRegions, regionDependencies, List.mem_singleton] at h
    subst h
    exact .inl ⟨by simpa using hparent, rfl⟩
  | cons value values ih =>
    unfold cutRegions at h ⊢
    split_ifs at h ⊢ with hop
    · simp only [regionDependencies, List.mem_cons] at h
      rcases h with rfl | h
      · exact .inl ⟨by simpa using hparent, rfl⟩
      · right
        rcases ih h with ⟨hprior, hfirst⟩ | ⟨region, hregion, hrest⟩
        · obtain ⟨identity, hidentity, rfl⟩ := Option.map_eq_some_iff.mp hprior
          exact ⟨_, List.mem_cons_self .., identity, hidentity, rfl, hfirst⟩
        · exact ⟨region, by simp [hregion], hrest⟩
    · exact ih h

/-- A region waits for the map at the end of the previous one. -/
lemma mem_regionDependencies {prior : Option Event} {region : ProgramMappingRegion}
    (h : region ∈ cutRegions layout index pending values) {identity : String}
    (hbarrier : region.barrier = some identity) :
    (.region layout (region.index + 1), [.map identity]) ∈
      regionDependencies prior (cutRegions layout index pending values) := by
  induction values generalizing index pending prior with
  | nil =>
    rw [cutRegions, List.mem_singleton] at h
    subst h
    cases hbarrier
  | cons value values ih =>
    unfold cutRegions at h ⊢
    split_ifs at h ⊢ with hop
    · simp only [regionDependencies, List.mem_cons]
      right
      rcases List.mem_cons.mp h with rfl | h
      · have hsome : value.invocation = some identity := hbarrier
        have hfirst : (Event.region layout (index + 1), (value.invocation.map Event.map).toList) ∈
            regionDependencies (value.invocation.map Event.map)
              (cutRegions layout (index + 1) [] values) := head_regionDependencies _
        simp only [hsome] at hfirst ⊢
        exact hfirst
      · exact ih h
    · exact ih h

end Cut

/-! ## The dependencies of all layouts -/

/-- The regions of all slices. -/
def allRegions (slices : List (String × List ProgramValue)) : List ProgramMappingRegion :=
  slices.flatMap fun slice => cutRegions slice.1 0 [] slice.2

/-- The loop over the layouts fills the tables with the cut regions of all slices. -/
lemma foldlM_layoutStep {slices : List (String × List ProgramValue)} {tables : RegionTables}
    (h : slices.foldlM layoutStep ⟨[], [], []⟩ = .ok tables) :
    tables.regions = allRegions slices ∧
      tables.dependencies = slices.flatMap (fun slice =>
        regionDependencies none (cutRegions slice.1 0 [] slice.2)) ∧
      tables.portRegions = (allRegions slices).filterMap ProgramMappingRegion.port ∧
      (tables.portRegions.map Prod.fst).Nodup ∧
      ∀ slice ∈ slices, ∀ value ∈ slice.2, value.op ∈ mapOps → value.invocation.isSome := by
  refine foldlM_invariant (P := fun done (tables : RegionTables) =>
    tables.regions = allRegions done ∧
      tables.dependencies = done.flatMap (fun slice =>
        regionDependencies none (cutRegions slice.1 0 [] slice.2)) ∧
      tables.portRegions = (allRegions done).filterMap ProgramMappingRegion.port ∧
      (tables.portRegions.map Prod.fst).Nodup ∧
      ∀ slice ∈ done, ∀ value ∈ slice.2, value.op ∈ mapOps → value.invocation.isSome) h
    ⟨rfl, rfl, rfl, List.nodup_nil, by simp⟩ ?_
  intro done slice rest tables tables' _ ⟨hregions, hdependencies, hports, hnodup, hsome⟩ hstep
  simp only [layoutStep, bind_eq_ok, pure_eq_ok] at hstep
  obtain ⟨s, hs, rfl⟩ := hstep
  obtain ⟨hregions', hdependencies', hports', hnodup', hsome'⟩ := foldlM_regionStep hs
  refine ⟨?_, ?_, ?_, hnodup' hnodup, fun other hother => ?_⟩
  · rw [hregions', hregions]
    simp [allRegions]
  · rw [hdependencies', hdependencies]
    simp
  · rw [hports', hports]
    simp [allRegions]
  · rcases List.mem_append.mp hother with hother | hother
    · exact hsome other hother
    · rw [List.mem_singleton.mp hother]
      exact hsome'

/-- A region follows another one of the same layout. -/
def ProgramMappingRegion.Follows (next region : ProgramMappingRegion) : Prop :=
  next.layout = region.layout ∧ next.index = region.index + 1

/-- What the regions and the dependencies of a plan are. -/
structure GraphSpec (invocations : List ProgramMapInvocation) (regions : List ProgramMappingRegion)
    (dependencies : List (Event × List Event)) : Prop where
  keys : dependencies.map Prod.fst = regions.map ProgramMappingRegion.event ++
    invocations.map fun invocation => .map invocation.identity
  nodup : (dependencies.map Prod.fst).Nodup
  /-- every waiting event is a transfer at its port regions or a region after a port -/
  waits : ∀ entry ∈ dependencies, ∀ parent ∈ entry.2, ∃ region ∈ regions, ∃ identity,
    region.barrier = some identity ∧
      ((entry.1 = .map identity ∧ parent = region.event) ∨
        (entry.1 = .region region.layout (region.index + 1) ∧ parent = .map identity))
  /-- a transfer waits for its port regions, and the next regions wait for the transfer -/
  rendezvous : ∀ region ∈ regions, ∀ identity, region.barrier = some identity →
    (∃ entry ∈ dependencies, entry.1 = .map identity ∧ region.event ∈ entry.2) ∧
      ∃ entry ∈ dependencies, entry.1 = .region region.layout (region.index + 1) ∧
        .map identity ∈ entry.2
  /-- before every later region there is one that ends at a port -/
  previous : ∀ region ∈ regions, 0 < region.index → ∃ earlier ∈ regions, ∃ identity,
    region.Follows earlier ∧ earlier.barrier = some identity
  /-- every map has its two ports at the ends of regions of two layouts -/
  ports : ∀ invocation ∈ invocations, ∃ source ∈ regions, ∃ target ∈ regions,
    source.layout ≠ target.layout ∧
      source.barrier = some invocation.identity ∧ source.direction = some mapExport ∧
      target.barrier = some invocation.identity ∧ target.direction = some mapImport

/-- The layouts are listed once. -/
lemma nodup_layoutsOf (layoutByBlock : List (String × String)) :
    (layoutsOf layoutByBlock).Nodup :=
  (List.perm_insertionSort _ _).nodup_iff.mpr (List.nodup_dedup _)

/-- There is one slice for every layout. -/
lemma layoutSlices_spec {engine : RebuildEngine} {program : Program}
    {layoutByBlock : List (String × String)} {slices : List (String × List ProgramValue)}
    (h : layoutSlices engine program layoutByBlock = .ok slices) :
    slices.map Prod.fst = layoutsOf layoutByBlock ∧ ∀ slice ∈ slices,
      sliceProgram engine program (blocksOf layoutByBlock slice.1) = .ok slice.2 := by
  refine ⟨?_, fun slice hslice => ?_⟩
  · have hfst := map_of_mapM Prod.fst id h fun layout slice hslice => by
      simp only [bind_eq_ok, pure_eq_ok] at hslice
      obtain ⟨values, _, rfl⟩ := hslice
      rfl
    simpa using hfst
  · obtain ⟨layout, _, hlayout⟩ := (mem_of_mapM h).2 slice hslice
    simp only [bind_eq_ok, pure_eq_ok] at hlayout
    obtain ⟨values, hvalues, rfl⟩ := hlayout
    exact hvalues

/-- What a transfer waits for: the two regions that end at its ports. -/
lemma invocationDependency_spec {tables : RegionTables} {invocation : ProgramMapInvocation}
    {entry : Event × List Event} (h : invocationDependency tables invocation = .ok entry) :
    ∃ source target, OrderedMap.lookup tables.portRegions (invocation.identity, mapExport) =
        some source ∧
      OrderedMap.lookup tables.portRegions (invocation.identity, mapImport) = some target ∧
      source.1 ≠ target.1 ∧ entry = (.map invocation.identity,
        [.region source.1 source.2, .region target.1 target.2]) := by
  unfold invocationDependency at h
  split at h
  · rename_i source target hsource htarget
    split_ifs at h with hlayout
    exact ⟨source, target, hsource, htarget, hlayout, by simpa using h.symm⟩
  · cases h

/-- The events of all regions are different. -/
lemma nodup_allRegions {slices : List (String × List ProgramValue)}
    (hslices : (slices.map Prod.fst).Nodup) :
    ((allRegions slices).map ProgramMappingRegion.event).Nodup := by
  rw [allRegions, List.map_flatMap, List.nodup_flatMap]
  refine ⟨fun slice _ => nodup_cutRegions, ?_⟩
  refine (List.pairwise_map.mp hslices).imp fun hne => ?_
  intro event h1 h2
  obtain ⟨region, hregion, rfl⟩ := List.mem_map.mp h1
  obtain ⟨region', hregion', heq⟩ := List.mem_map.mp h2
  simp only [ProgramMappingRegion.event, Event.region.injEq] at heq
  rw [(of_mem_cutRegions hregion).1, (of_mem_cutRegions hregion').1] at heq
  exact hne heq.1.symm

/-- The tables of a region graph that was built. -/
structure GraphBuild (engine : RebuildEngine) (program : Program)
    (layoutByBlock : List (String × String)) (invocations : List ProgramMapInvocation)
    (slices : List (String × List ProgramValue)) (tables : RegionTables)
    (transfers : List (Event × List Event)) : Prop where
  identities : (invocations.map ProgramMapInvocation.identity).Nodup
  known : ∀ node ∈ program.values, node.op ∈ mapOps →
    ∃ invocation ∈ invocations, node.invocation = some invocation.identity
  layouts : (slices.map Prod.fst).Nodup
  slice : ∀ slice ∈ slices,
    sliceProgram engine program (blocksOf layoutByBlock slice.1) = .ok slice.2
  regions_eq : tables.regions = allRegions slices
  dependencies_eq : tables.dependencies = slices.flatMap fun slice =>
    regionDependencies none (cutRegions slice.1 0 [] slice.2)
  ports_eq : tables.portRegions = (allRegions slices).filterMap ProgramMappingRegion.port
  ports_nodup : (tables.portRegions.map Prod.fst).Nodup
  ports_some : ∀ slice ∈ slices, ∀ value ∈ slice.2, value.op ∈ mapOps → value.invocation.isSome
  transfers_eq : invocations.mapM (invocationDependency tables) = .ok transfers

namespace GraphBuild

variable {engine : RebuildEngine} {program : Program} {layoutByBlock : List (String × String)}
  {invocations : List ProgramMapInvocation} {slices : List (String × List ProgramValue)}
  {tables : RegionTables} {transfers : List (Event × List Event)}
  (h : GraphBuild engine program layoutByBlock invocations slices tables transfers)
include h

/-- The regions are those of the slices. -/
lemma mem_regions {region : ProgramMappingRegion} :
    region ∈ tables.regions ↔ ∃ slice ∈ slices, region ∈ cutRegions slice.1 0 [] slice.2 := by
  rw [h.regions_eq]
  exact List.mem_flatMap

/-- A recorded port is at the end of a region. -/
lemma exists_region {key : String × String} {place : String × ℕ}
    (hport : OrderedMap.lookup tables.portRegions key = some place) :
    ∃ region ∈ tables.regions, region.barrier = some key.1 ∧ region.direction = some key.2 ∧
      region.layout = place.1 ∧ region.event = .region place.1 place.2 := by
  rw [h.ports_eq, ← h.regions_eq] at hport
  obtain ⟨region, hregion, hport⟩ := List.mem_filterMap.mp (OrderedMap.mem_of_lookup hport)
  simp only [ProgramMappingRegion.port, Option.bind_eq_some_iff, Option.map_eq_some_iff,
    Prod.mk.injEq] at hport
  obtain ⟨identity, hbarrier, direction, hdirection, hkey, hplace⟩ := hport
  subst hkey hplace
  exact ⟨region, hregion, hbarrier, hdirection, rfl, rfl⟩

/-- The waiting events are the regions and the transfers. -/
lemma keys : (tables.dependencies ++ transfers).map Prod.fst =
    tables.regions.map ProgramMappingRegion.event ++
      invocations.map fun invocation => .map invocation.identity := by
  have hfirst : transfers.map Prod.fst =
      invocations.map fun invocation => Event.map invocation.identity := by
    refine map_of_mapM _ _ h.transfers_eq fun invocation entry hentry => ?_
    obtain ⟨_, _, _, _, _, rfl⟩ := invocationDependency_spec hentry
    rfl
  rw [List.map_append, hfirst, h.dependencies_eq, h.regions_eq, allRegions, List.map_flatMap,
    List.map_flatMap]
  congr 2
  funext slice
  exact map_fst_regionDependencies _ _

/-- The waiting events are different. -/
lemma nodup : ((tables.dependencies ++ transfers).map Prod.fst).Nodup := by
  rw [h.keys, List.nodup_append]
  refine ⟨h.regions_eq ▸ nodup_allRegions h.layouts, ?_, ?_⟩
  · have hmaps := h.identities.map fun _ _ heq => Event.map.inj heq
    rwa [List.map_map] at hmaps
  · intro event hevent event' hevent' heq
    obtain ⟨region, _, rfl⟩ := List.mem_map.mp hevent
    obtain ⟨invocation, _, rfl⟩ := List.mem_map.mp hevent'
    cases heq

/-- Every waiting event is a transfer at its port regions or a region after a port. -/
lemma waits {entry : Event × List Event} (hentry : entry ∈ tables.dependencies ++ transfers)
    {parent : Event} (hparent : parent ∈ entry.2) :
    ∃ region ∈ tables.regions, ∃ identity, region.barrier = some identity ∧
      ((entry.1 = .map identity ∧ parent = region.event) ∨
        (entry.1 = .region region.layout (region.index + 1) ∧ parent = .map identity)) := by
  rcases List.mem_append.mp hentry with hentry | hentry
  · rw [h.dependencies_eq] at hentry
    obtain ⟨slice, hslice, hentry⟩ := List.mem_flatMap.mp hentry
    rcases of_mem_regionDependencies hentry hparent with ⟨hnone, _⟩ | ⟨region, hregion, identity,
      hbarrier, hmap, hnext⟩
    · cases hnone
    · refine ⟨region, h.mem_regions.mpr ⟨slice, hslice, hregion⟩, identity, hbarrier,
        .inr ⟨?_, hmap⟩⟩
      rw [hnext, (of_mem_cutRegions hregion).1]
  · obtain ⟨invocation, _, hdependency⟩ := (mem_of_mapM h.transfers_eq).2 entry hentry
    obtain ⟨source, target, hsource, htarget, _, rfl⟩ := invocationDependency_spec hdependency
    rcases List.mem_cons.mp hparent with rfl | hparent
    · obtain ⟨region, hregion, hbarrier, _, _, hevent⟩ := h.exists_region hsource
      exact ⟨region, hregion, _, hbarrier, .inl ⟨rfl, hevent.symm⟩⟩
    · obtain ⟨region, hregion, hbarrier, _, _, hevent⟩ := h.exists_region htarget
      exact ⟨region, hregion, _, hbarrier, .inl ⟨rfl, by
        rw [List.mem_singleton.mp hparent, hevent]⟩⟩

/-- A transfer waits for its port regions: the port of a region is a port of the Program, hence of
one of its maps. -/
lemma transfer_waits {region : ProgramMappingRegion} (hregion : region ∈ tables.regions)
    {identity : String} (hbarrier : region.barrier = some identity) :
    ∃ entry ∈ tables.dependencies ++ transfers,
      entry.1 = .map identity ∧ region.event ∈ entry.2 := by
  obtain ⟨slice, hslice, hcut⟩ := h.mem_regions.mp hregion
  obtain ⟨value, hvalue, hop, hinvocation, hdirection⟩ := exists_port hcut hbarrier
  obtain ⟨node, hnode, hnodeOp, hnodeInvocation⟩ := sliceProgram_port (h.slice slice hslice) hvalue
  obtain ⟨invocation, hmem, hidentity⟩ := h.known node hnode (hnodeOp ▸ hop)
  obtain rfl : identity = invocation.identity := by
    rw [← hnodeInvocation, hinvocation] at hidentity
    exact Option.some.inj hidentity
  obtain ⟨entry, hentry, hdependency⟩ := (mem_of_mapM h.transfers_eq).1 invocation hmem
  refine ⟨entry, List.mem_append_right _ hentry, ?_⟩
  obtain ⟨source, target, hsource, htarget, _, rfl⟩ := invocationDependency_spec hdependency
  have hrecorded : ((invocation.identity, value.op), (region.layout, region.index)) ∈
      tables.portRegions := by
    rw [h.ports_eq, ← h.regions_eq]
    exact List.mem_filterMap.mpr ⟨region, hregion, by
      simp [ProgramMappingRegion.port, hbarrier, hdirection]⟩
  have hlookup := OrderedMap.lookup_of_nodup h.ports_nodup hrecorded
  refine ⟨rfl, ?_⟩
  simp only [mapOps, List.mem_cons, List.not_mem_nil, or_false] at hop
  rcases hop with hop | hop
  · rw [hop, hsource, Option.some.injEq] at hlookup
    simp [ProgramMappingRegion.event, hlookup]
  · rw [hop, htarget, Option.some.injEq] at hlookup
    simp [ProgramMappingRegion.event, hlookup]

/-- The next region of a layout waits for the transfer at the end of a region. -/
lemma next_waits {region : ProgramMappingRegion} (hregion : region ∈ tables.regions)
    {identity : String} (hbarrier : region.barrier = some identity) :
    (.region region.layout (region.index + 1), [.map identity]) ∈
      tables.dependencies ++ transfers := by
  obtain ⟨slice, hslice, hcut⟩ := h.mem_regions.mp hregion
  apply List.mem_append_left
  rw [h.dependencies_eq, (of_mem_cutRegions hcut).1]
  exact List.mem_flatMap.mpr ⟨slice, hslice, mem_regionDependencies hcut hbarrier⟩

/-- Before every later region there is one that ends at a port. -/
lemma exists_earlier {region : ProgramMappingRegion} (hregion : region ∈ tables.regions)
    (hlater : 0 < region.index) :
    ∃ earlier ∈ tables.regions, ∃ identity,
      region.Follows earlier ∧ earlier.barrier = some identity := by
  obtain ⟨slice, hslice, hcut⟩ := h.mem_regions.mp hregion
  obtain ⟨earlier, hearlier, hindex, hsome⟩ :=
    exists_previous (h.ports_some slice hslice) hcut hlater
  obtain ⟨identity, hidentity⟩ := Option.isSome_iff_exists.mp hsome
  refine ⟨earlier, h.mem_regions.mpr ⟨slice, hslice, hearlier⟩, identity, ⟨?_, hindex⟩, hidentity⟩
  rw [(of_mem_cutRegions hcut).1, (of_mem_cutRegions hearlier).1]

/-- Every map has its two ports at the ends of regions of two layouts. -/
lemma exists_ports {invocation : ProgramMapInvocation} (hmem : invocation ∈ invocations) :
    ∃ source ∈ tables.regions, ∃ target ∈ tables.regions, source.layout ≠ target.layout ∧
      source.barrier = some invocation.identity ∧ source.direction = some mapExport ∧
      target.barrier = some invocation.identity ∧ target.direction = some mapImport := by
  obtain ⟨entry, _, hdependency⟩ := (mem_of_mapM h.transfers_eq).1 invocation hmem
  obtain ⟨source, target, hsource, htarget, hlayouts, _⟩ := invocationDependency_spec hdependency
  obtain ⟨region, hregion, hbarrier, hdirection, hlayout, _⟩ := h.exists_region hsource
  obtain ⟨region', hregion', hbarrier', hdirection', hlayout', _⟩ := h.exists_region htarget
  exact ⟨region, hregion, region', hregion', by rwa [hlayout, hlayout'], hbarrier, hdirection,
    hbarrier', hdirection'⟩

end GraphBuild

/-- **The region graph.** The regions cut the slices of the layouts at their ports, and the
dependencies are those of the cuts. -/
theorem regionGraph_spec {engine : RebuildEngine} {program : Program}
    {layoutByBlock : List (String × String)} {invocations : List ProgramMapInvocation}
    {regions : List ProgramMappingRegion} {dependencies : List (Event × List Event)}
    (hinvocations : programMapInvocations program false = .ok invocations)
    (h : regionGraph engine program layoutByBlock invocations = .ok (regions, dependencies)) :
    GraphSpec invocations regions dependencies ∧ ∃ slices,
      layoutSlices engine program layoutByBlock = .ok slices ∧ regions = allRegions slices := by
  obtain ⟨hidentities, hknown⟩ := programMapInvocations_spec hinvocations
  simp only [regionGraph, bind_eq_ok, raiseIf_eq_ok, exists_const, pure_eq_ok,
    Prod.mk.injEq] at h
  obtain ⟨_, slices, hslices, tables, htables, transfers, htransfers, rfl, rfl⟩ := h
  obtain ⟨hlayouts, hslice⟩ := layoutSlices_spec hslices
  obtain ⟨hregions, hdependencies, hports, hkeys, hsome⟩ := foldlM_layoutStep htables
  have hbuild : GraphBuild engine program layoutByBlock invocations slices tables transfers :=
    ⟨hidentities, hknown, hlayouts ▸ nodup_layoutsOf layoutByBlock, hslice, hregions,
      hdependencies, hports, hkeys, hsome, htransfers⟩
  refine ⟨⟨hbuild.keys, hbuild.nodup, fun _ hentry _ hparent => hbuild.waits hentry hparent, ?_,
    fun _ hregion hlater => hbuild.exists_earlier hregion hlater,
    fun _ hmem => hbuild.exists_ports hmem⟩, slices, hslices, hregions⟩
  intro region hregion identity hbarrier
  exact ⟨hbuild.transfer_waits hregion hbarrier,
    _, hbuild.next_waits hregion hbarrier, rfl, List.mem_singleton.mpr rfl⟩

/-! ## Orders that a run can follow -/

/-- An order of the events that a run can follow: every region and every transfer once, a transfer
after the regions that end at its ports and before the next regions of their layouts, and the
regions of a layout in their order. -/
structure ValidOrder (invocations : List ProgramMapInvocation)
    (regions : List ProgramMappingRegion) (order : List Event) : Prop where
  perm : order.Perm (regions.map ProgramMappingRegion.event ++
    invocations.map fun invocation => .map invocation.identity)
  nodup : order.Nodup
  transfer : ∀ region ∈ regions, ∀ identity, region.barrier = some identity →
    Before order region.event (.map identity)
  resume : ∀ region ∈ regions, ∀ next ∈ regions, ∀ identity, region.barrier = some identity →
    next.Follows region → Before order (.map identity) next.event
  ordered : ∀ region ∈ regions, ∀ later ∈ regions, later.layout = region.layout →
    region.index < later.index → Before order region.event later.event

section Orders

variable {invocations : List ProgramMapInvocation} {regions : List ProgramMappingRegion}
  {dependencies : List (Event × List Event)} {order : List Event}

/-- A waiting region is one of the regions. -/
lemma GraphSpec.follows_of_key (hgraph : GraphSpec invocations regions dependencies)
    {entry : Event × List Event} (hentry : entry ∈ dependencies) {region : ProgramMappingRegion}
    (hkey : entry.1 = .region region.layout (region.index + 1)) :
    ∃ next ∈ regions, next.Follows region := by
  have hmem : entry.1 ∈ regions.map ProgramMappingRegion.event ++
      invocations.map fun invocation => Event.map invocation.identity := by
    rw [← hgraph.keys]
    exact List.mem_map.mpr ⟨entry, hentry, rfl⟩
  rw [hkey] at hmem
  rcases List.mem_append.mp hmem with hmem | hmem
  · obtain ⟨next, hnext, heq⟩ := List.mem_map.mp hmem
    exact ⟨next, hnext, Event.region.inj heq⟩
  · obtain ⟨invocation, _, heq⟩ := List.mem_map.mp hmem
    cases heq

/-- After a region that ends at a port its layout goes on. -/
lemma GraphSpec.exists_next (hgraph : GraphSpec invocations regions dependencies)
    {region : ProgramMappingRegion} (hregion : region ∈ regions) (hsome : region.barrier.isSome) :
    ∃ next ∈ regions, next.Follows region := by
  obtain ⟨identity, hbarrier⟩ := Option.isSome_iff_exists.mp hsome
  obtain ⟨_, entry, hentry, hkey, _⟩ := hgraph.rendezvous region hregion identity hbarrier
  exact hgraph.follows_of_key hentry hkey

/-- In an order that respects the dependencies, the regions of a layout are in order: each waits
for the transfer that ends the one before. -/
lemma before_of_index_lt (hgraph : GraphSpec invocations regions dependencies)
    (hnodup : order.Nodup) (horder : Respects dependencies order) {n : ℕ} :
    ∀ region ∈ regions, ∀ later ∈ regions, later.index = n → later.layout = region.layout →
      region.index < later.index → Before order region.event later.event := by
  induction n using Nat.strong_induction_on with
  | _ n ih =>
    intro region hregion later hlater hn hlayout hlt
    obtain ⟨earlier, hearlier, identity, hfollows, hbarrier⟩ :=
      hgraph.previous later hlater (by omega)
    obtain ⟨⟨entry, hentry, hmap, hwaits⟩, next, hnext, hnextKey, hnextWaits⟩ :=
      hgraph.rendezvous earlier hearlier identity hbarrier
    have hlast : Before order earlier.event later.event := by
      have h1 := horder.2 entry hentry _ hwaits
      have h2 := horder.2 next hnext _ hnextWaits
      rw [hmap] at h1
      rw [hnextKey, ← hfollows.1, ← hfollows.2] at h2
      exact h1.trans hnodup h2
    have hindex := hfollows.2
    rcases Nat.eq_or_lt_of_le (show region.index ≤ earlier.index by omega) with heq | hbefore
    · have hsame : region.event = earlier.event := by
        rw [ProgramMappingRegion.event, ProgramMappingRegion.event, heq, ← hlayout, hfollows.1]
      rwa [hsame]
    · exact (ih earlier.index (by omega) region hregion earlier hearlier rfl
        (hfollows.1.symm.trans hlayout) hbefore).trans hnodup hlast

/-- The orders that a run can follow are those that respect the dependencies. -/
theorem validOrder_iff_respects (hgraph : GraphSpec invocations regions dependencies) :
    ValidOrder invocations regions order ↔ Respects dependencies order := by
  refine ⟨fun h => ⟨by rw [hgraph.keys]; exact h.perm, ?_⟩, fun h => ?_⟩
  · intro entry hentry parent hparent
    obtain ⟨region, hregion, identity, hbarrier, ⟨hkey, rfl⟩ | ⟨hkey, rfl⟩⟩ :=
      hgraph.waits entry hentry parent hparent
    · rw [hkey]
      exact h.transfer region hregion identity hbarrier
    · obtain ⟨next, hnext, hfollows⟩ := hgraph.follows_of_key hentry hkey
      rw [hkey, ← hfollows.1, ← hfollows.2]
      exact h.resume region hregion next hnext identity hbarrier hfollows
  · have hnodup : order.Nodup := h.1.nodup_iff.mpr hgraph.nodup
    refine ⟨by rw [← hgraph.keys]; exact h.1, hnodup, ?_, ?_, ?_⟩
    · intro region hregion identity hbarrier
      obtain ⟨⟨entry, hentry, hkey, hwaits⟩, _⟩ :=
        hgraph.rendezvous region hregion identity hbarrier
      rw [← hkey]
      exact h.2 entry hentry _ hwaits
    · intro region hregion next hnext identity hbarrier hfollows
      obtain ⟨_, entry, hentry, hkey, hwaits⟩ :=
        hgraph.rendezvous region hregion identity hbarrier
      rw [ProgramMappingRegion.event, hfollows.1, hfollows.2, ← hkey]
      exact h.2 entry hentry _ hwaits
    · intro region hregion later hlater hlayout hlt
      exact before_of_index_lt hgraph hnodup h region hregion later hlater rfl hlayout hlt

end Orders

/-- The regions of one layout among all regions. -/
lemma filter_allRegions {slices : List (String × List ProgramValue)}
    (hslices : (slices.map Prod.fst).Nodup) {slice : String × List ProgramValue}
    (hslice : slice ∈ slices) :
    (allRegions slices).filter (fun region => region.layout = slice.1) =
      cutRegions slice.1 0 [] slice.2 := by
  have hown : (cutRegions slice.1 0 [] slice.2).filter (fun region => region.layout = slice.1) =
      cutRegions slice.1 0 [] slice.2 := by
    rw [List.filter_eq_self]
    intro region hregion
    simpa using (of_mem_cutRegions hregion).1
  have hforeign : ∀ other : List (String × List ProgramValue), (∀ s ∈ other, s.1 ≠ slice.1) →
      (allRegions other).filter (fun region => region.layout = slice.1) = [] := by
    intro other hne
    rw [List.filter_eq_nil_iff]
    intro region hregion
    obtain ⟨s, hs, hcut⟩ := List.mem_flatMap.mp hregion
    simpa [(of_mem_cutRegions hcut).1] using hne s hs
  obtain ⟨before, after, rfl⟩ := List.append_of_mem hslice
  rw [List.map_append, List.map_cons, List.nodup_append, List.nodup_cons] at hslices
  obtain ⟨_, ⟨hafter, _⟩, hbefore⟩ := hslices
  have h1 := hforeign before fun s hs heq =>
    hbefore s.1 (List.mem_map_of_mem hs) slice.1 (by simp) heq
  have h2 := hforeign after fun s hs heq => hafter (heq ▸ List.mem_map_of_mem hs)
  unfold allRegions at h1 h2 ⊢
  rw [List.flatMap_append, List.flatMap_cons, List.filter_append, List.filter_append, h1, h2, hown,
    List.nil_append, List.append_nil]

/-- `sorted` only permutes. -/
lemma sortEvents_perm (events : List Event) : (sortEvents events).Perm events :=
  List.perm_insertionSort _ _

section Plan

variable {engine : RebuildEngine} {program : Program} {layoutByBlock : List (String × String)}
  {invocations : List ProgramMapInvocation} {regions : List ProgramMappingRegion}
  {dependencies : List (Event × List Event)}

/-- Inversion of a plan with maps. -/
lemma exists_graph {plan : ProgramMappingRegions}
    (h : planProgramMappingRegions engine program layoutByBlock = .ok plan)
    (hne : plan.invocations ≠ []) :
    programMapInvocations program false = .ok plan.invocations ∧ ∃ dependencies,
      regionGraph engine program layoutByBlock plan.invocations =
          .ok (plan.regions, dependencies) ∧
        rounds sortEvents dependencies.length dependencies [] = .sorted plan.events := by
  simp only [planProgramMappingRegions, bind_eq_ok] at h
  obtain ⟨invocations, hinvocations, h⟩ := h
  split_ifs at h with hempty
  · simp only [pure_eq_ok] at h
    subst h
    exact absurd rfl hne
  · simp only [bind_eq_ok] at h
    obtain ⟨⟨regions, dependencies⟩, hgraph, h⟩ := h
    cases hrounds : rounds sortEvents dependencies.length dependencies [] with
    | cycle => simp [hrounds] at h
    | outOfFuel => simp [hrounds] at h
    | sorted events =>
      simp only [hrounds, pure_eq_ok] at h
      subst h
      exact ⟨hinvocations, dependencies, hgraph, hrounds⟩

/-- The regions of every layout concatenate to its slice. -/
lemma flatMap_regions (hinvocations : programMapInvocations program false = .ok invocations)
    (hgraph : regionGraph engine program layoutByBlock invocations = .ok (regions, dependencies))
    {layout : String} (hlayout : layout ∈ layoutsOf layoutByBlock) :
    ∃ values, sliceProgram engine program (blocksOf layoutByBlock layout) = .ok values ∧
      (regions.filter fun region => region.layout = layout).flatMap
        ProgramMappingRegion.values = values := by
  obtain ⟨_, slices, hslices, rfl⟩ := regionGraph_spec hinvocations hgraph
  obtain ⟨hlayouts, hslice⟩ := layoutSlices_spec hslices
  rw [← hlayouts] at hlayout
  obtain ⟨slice, hmem, rfl⟩ := List.mem_map.mp hlayout
  refine ⟨slice.2, hslice slice hmem, ?_⟩
  rw [filter_allRegions (hlayouts ▸ nodup_layoutsOf layoutByBlock) hmem, cutRegions_values,
    List.nil_append]

/-- The plan reports a cycle exactly when the event loop does. -/
lemma plan_eq_cycle_iff (hinvocations : programMapInvocations program false = .ok invocations)
    (hne : invocations ≠ [])
    (hgraph : regionGraph engine program layoutByBlock invocations = .ok (regions, dependencies)) :
    planProgramMappingRegions engine program layoutByBlock = .error communicationCycle ↔
      rounds sortEvents dependencies.length dependencies [] = .cycle := by
  simp only [planProgramMappingRegions, hinvocations, ok_bind, hgraph]
  cases rounds sortEvents dependencies.length dependencies [] with
  | cycle => simp [hne]
  | outOfFuel => simp [hne, communicationCycle, valueError]
  | sorted events => simp [hne, pure, Except.pure]

end Plan

/-- **Map scheduling.** In a plan with maps the regions of every layout concatenate to its slice,
every map has its ports at the ends of regions of two layouts, which both go on, and the events are
in an order that a run can follow.  The event loop always ends, and reports a communication cycle
exactly when no such order exists. -/
theorem planProgramMappingRegions_complete (engine : RebuildEngine) (program : Program)
    (layoutByBlock : List (String × String)) :
    (∀ plan, planProgramMappingRegions engine program layoutByBlock = .ok plan →
      plan.invocations ≠ [] →
        (∀ layout ∈ layoutsOf layoutByBlock, ∃ values,
          sliceProgram engine program (blocksOf layoutByBlock layout) = .ok values ∧
            (plan.regions.filter fun region => region.layout = layout).flatMap
              ProgramMappingRegion.values = values) ∧
        (∀ invocation ∈ plan.invocations, ∃ source ∈ plan.regions, ∃ target ∈ plan.regions,
          source.layout ≠ target.layout ∧
            source.barrier = some invocation.identity ∧ source.direction = some mapExport ∧
            target.barrier = some invocation.identity ∧ target.direction = some mapImport) ∧
        (∀ region ∈ plan.regions, region.barrier.isSome → ∃ next ∈ plan.regions,
          next.Follows region) ∧
        ValidOrder plan.invocations plan.regions plan.events) ∧
      ∀ invocations regions dependencies, programMapInvocations program false = .ok invocations →
        invocations ≠ [] →
        regionGraph engine program layoutByBlock invocations = .ok (regions, dependencies) →
          rounds sortEvents dependencies.length dependencies [] ≠ .outOfFuel ∧
          (planProgramMappingRegions engine program layoutByBlock = .error communicationCycle ↔
            ¬ ∃ order, ValidOrder invocations regions order) := by
  refine ⟨fun plan hplan hne => ?_, fun invocations regions dependencies hinvocations hne hgraph =>
    ?_⟩
  · obtain ⟨hinvocations, dependencies, hgraph, hrounds⟩ := exists_graph hplan hne
    obtain ⟨hspec, _⟩ := regionGraph_spec hinvocations hgraph
    obtain ⟨rest, hrest, hrespects⟩ :=
      DependencyRounds.rounds_sorted sortEvents_perm hspec.nodup hrounds
    rw [List.nil_append] at hrest
    rw [← hrest] at hrespects
    exact ⟨fun layout hlayout => flatMap_regions hinvocations hgraph hlayout, hspec.ports,
      fun region hregion hsome => hspec.exists_next hregion hsome,
      (validOrder_iff_respects hspec).mpr hrespects⟩
  · obtain ⟨hspec, _⟩ := regionGraph_spec hinvocations hgraph
    refine ⟨DependencyRounds.rounds_ne_outOfFuel sortEvents_perm hspec.nodup le_rfl, ?_⟩
    rw [plan_eq_cycle_iff hinvocations hne hgraph,
      DependencyRounds.rounds_cycle_iff sortEvents_perm hspec.nodup le_rfl]
    simp only [validOrder_iff_respects hspec]

/-! ## Two layouts with one map -/

/-- A rebuild engine that only renumbers the kept nodes. -/
def renumberEngine : RebuildEngine where
  rebuild program _ keep :=
    let kept := program.values.filter fun value => value.id ∈ keep
    .ok (kept.zipIdx.map fun entry =>
      { entry.1 with
        id := entry.2
        inputs := entry.1.inputs.map fun old => (kept.map ProgramValue.id).idxOf old })
  keeps program _ keep values h := by
    obtain rfl := Except.ok.inj h
    rw [List.map_map]
    conv_rhs => rw [← List.zipIdx_map_fst 0 (program.values.filter fun value => value.id ∈ keep)]
    rw [List.map_map]
    rfl

/-- A state of a block. -/
def stateNode (id : ℕ) (block state : String) : ProgramValue where
  id := id
  op := "state"
  region := 0
  block := some block
  stateRef := some state
  inputs := []
  captured := []
  invocation := none
  sourceState := none
  targetState := none
  contract := .ok []

/-- A port of the map `pops.program-map.v1::m` from the state `u` to the state `v`. -/
def portNode (id : ℕ) (op block state : String) (input : ℕ) : ProgramValue where
  id := id
  op := op
  region := 0
  block := some block
  stateRef := some state
  inputs := [input]
  captured := []
  invocation := some "pops.program-map.v1::m"
  sourceState := some "u"
  targetState := some "v"
  contract := .ok [1]

/-- Two blocks with one state each, and a map between them. -/
def twoBlocks : Program where
  values := [stateNode 0 "a" "u", stateNode 1 "b" "v", portNode 2 mapExport "a" "u" 0,
    portNode 3 mapImport "b" "v" 1]
  nested := []
  hasDtBound := false
  hasAcceptanceGuards := false
  histories := []
  historyStateRefs := []
  commits := [(some "a", 0), (some "b", 3)]

/-- The plan of the two blocks on two layouts runs both regions up to their port, the transfer, and
the two remaining regions. -/
theorem planProgramMappingRegions_twoBlocks :
    ∃ plan, planProgramMappingRegions renumberEngine twoBlocks [("a", "x"), ("b", "y")] =
        .ok plan ∧
      plan.events = [.region "x" 0, .region "y" 0, .map "pops.program-map.v1::m", .region "x" 1,
        .region "y" 1] ∧
      ValidOrder plan.invocations plan.regions plan.events := by
  have hreturns : (planProgramMappingRegions renumberEngine twoBlocks
      [("a", "x"), ("b", "y")]).toOption.map (fun plan =>
        (plan.events, plan.invocations.isEmpty)) = some ([.region "x" 0, .region "y" 0,
          .map "pops.program-map.v1::m", .region "x" 1, .region "y" 1], false) := by
    decide +kernel
  cases hplan : planProgramMappingRegions renumberEngine twoBlocks [("a", "x"), ("b", "y")] with
  | error e =>
    rw [hplan] at hreturns
    cases hreturns
  | ok plan =>
    rw [hplan] at hreturns
    obtain ⟨hevents, hempty⟩ := Prod.mk.inj (Option.some.inj hreturns)
    have hne : plan.invocations ≠ [] := by
      intro hnil
      rw [hnil] at hempty
      cases hempty
    exact ⟨plan, rfl, hevents,
      ((planProgramMappingRegions_complete renumberEngine twoBlocks _).1 plan hplan hne).2.2.2⟩

end Pops.Codegen
