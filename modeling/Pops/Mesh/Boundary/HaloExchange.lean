import Pops.Foundation.Store
import Pops.Mesh.Boundary.HaloPlans
import Pops.Mesh.Storage.MultiFab

/-!
# Halo exchange

`pops::HaloExchange`: the transport that executes a halo schedule.  Every rank packs its local
jobs and its send plans into staging buffers, the buffers travel to their peers, and every rank
unpacks its receive plans and its local jobs.  A step that fails on one rank fails on all of them:
each phase ends with an `all_reduce_max` of the failure flags.

The iterations of a kernel run in any order.  A wait for a message that nobody sends does not
return; it is recorded as a failed wait.

## Main definitions

* `Pops.HaloExchange`, `HaloExchange.create` — the prepared transport of one rank.
* `Pops.HaloExchange.packJobs`, `unpackJobs` — the kernels of a list of jobs.
* `Pops.HaloExchange.execute` — one exchange on all ranks.
-/

namespace Pops

/-! ## Buffers and kernels -/

/-- A linear staging buffer. -/
structure Buffer (V : Type) where
  extent : ℕ
  data : ℕ → V

/-- A job lowered to the integers that a kernel reads. -/
structure KernelJob (d : ℕ) where
  destinationLower : Index d
  destinationExtent : Fin d → ℕ
  sourceTranslation : Index d
  componentCount : ℤ
  cellsPerComponent : ℕ
  offset : ℕ
  elements : ℕ

/-- The order in which the iterations of every kernel launch run. -/
structure Launches (d : ℕ) where
  order : HaloJob d → List ℕ
  perm : ∀ job, (order job).Perm (List.range job.elements)

/-- The launches of the pack and the unpack kernels of a rank. -/
structure ExecutionSpace (d : ℕ) where
  pack : Launches d
  unpack : Launches d

/-- The plans shared with one peer. -/
structure PeerPlans (d : ℕ) where
  coordinate : Index d
  mpiRank : ℕ
  sendPlan : Option (HaloPeerPlan d)
  receivePlan : Option (HaloPeerPlan d)

/-- The plans shared with one peer and their staging buffers. -/
structure PeerStorage (d : ℕ) (V : Type) extends PeerPlans d where
  deviceSend : Buffer V
  deviceReceive : Buffer V
  hostSend : Buffer V
  hostReceive : Buffer V

/-- The prepared transport of one rank. -/
structure HaloExchange (d : ℕ) (V : Type) where
  schedule : HaloSchedule d
  peers : List (PeerStorage d V)
  localBuffer : Buffer V

/-- The transport and the storage of one rank. -/
structure HaloParty (d : ℕ) (V : Type) where
  exchange : HaloExchange d V
  fields : MultiFab d V

namespace HaloExchange

variable {d : ℕ} {V : Type}

/-- The component of an iteration. -/
def component (job : KernelJob d) (element : ℕ) : ℤ :=
  castInt (element / job.cellsPerComponent : ℕ)

/-- The destination coordinate of an iteration. -/
def coordinate (job : KernelJob d) (element : ℕ) (axis : Fin d) : ℤ :=
  job.destinationLower axis +
    MixedRadix.unrank job.destinationExtent (element % job.cellsPerComponent) axis

/-- One iteration of the pack kernel: the buffer element it writes and the value. -/
def packKernel (data : ℕ × ℤ → V) (source : FieldView d) (job : KernelJob d) (element : ℕ) :
    ℕ × V :=
  let sourceIndex : Index d := fun axis =>
    castInt (coordinate job element axis + job.sourceTranslation axis)
  (job.offset + element, data (source.address sourceIndex (component job element)))

/-- One iteration of the unpack kernel: the field element it writes and the value. -/
def unpackKernel (buffer : ℕ → V) (destination : FieldView d) (job : KernelJob d)
    (element : ℕ) : (ℕ × ℤ) × V :=
  let destinationIndex : Index d := fun axis => castInt (coordinate job element axis)
  (destination.address destinationIndex (component job element), buffer (job.offset + element))

/-- The checked lowering of a job. -/
def lowerJob (ncomp : ℤ) (job : HaloJob d) : Throws (KernelJob d) := do
  throwIf (job.elements = 0 ∨ (job.elements : ℤ) > int64Max ∨ (job.offset : ℤ) > int64Max ∨
      (job.elements : ℤ) > int64Max - job.offset ∨ job.elements % ncomp.toNat ≠ 0)
    (overflowError "pops::HaloExchange job exceeds execution range")
  let extent ← forEachAxis fun axis => do
    throwIf (job.destinationRegion.length axis ≤ 0)
      (invalidArgument "pops::HaloExchange job region must be non-empty")
    pure (job.destinationRegion.length axis).toNat
  pure {
    destinationLower := job.destinationRegion.lo
    destinationExtent := extent
    sourceTranslation := job.sourceFromDestination
    componentCount := ncomp
    cellsPerComponent := job.elements / ncomp.toNat
    offset := job.offset
    elements := job.elements }

/-- Launch the pack kernel of one job. -/
def packJob (launches : Launches d) (fields : MultiFab d V) (ncomp : ℤ) (data : ℕ → V)
    (job : HaloJob d) : Throws (ℕ → V) := do
  let source ← fields.fabGlobal job.sourceBox
  let lowered ← lowerJob ncomp job
  pure (Store.writes data ((launches.order job).map (packKernel fields.data source lowered)))

/-- Pack a list of jobs into a buffer. -/
def packJobs (launches : Launches d) (fields : MultiFab d V) (ncomp : ℤ)
    (jobs : List (HaloJob d)) (elements : ℕ) (buffer : Buffer V) : Throws (Buffer V) := do
  throwIf (buffer.extent ≠ elements)
    (invalidArgument "pops::HaloExchange pack buffer does not match its job plan")
  let data ← jobs.foldlM (packJob launches fields ncomp) buffer.data
  pure ⟨buffer.extent, data⟩

/-- Launch the unpack kernel of one job. -/
def unpackJob (launches : Launches d) (ncomp : ℤ) (buffer : ℕ → V) (fields : MultiFab d V)
    (job : HaloJob d) : Throws (MultiFab d V) := do
  let destination ← fields.fabGlobal job.destinationBox
  let lowered ← lowerJob ncomp job
  pure (fields.setData (Store.writes fields.data
    ((launches.order job).map (unpackKernel buffer destination lowered))))

/-- Unpack a list of jobs from a buffer. -/
def unpackJobs (launches : Launches d) (fields : MultiFab d V) (ncomp : ℤ)
    (jobs : List (HaloJob d)) (elements : ℕ) (buffer : Buffer V) : Throws (MultiFab d V) := do
  throwIf (buffer.extent ≠ elements)
    (invalidArgument "pops::HaloExchange unpack buffer does not match its job plan")
  jobs.foldlM (unpackJob launches ncomp buffer.data) fields

/-! ## Preparation -/

/-- The plan of a peer in one direction. -/
def slot (send : Bool) (peer : PeerPlans d) : Option (HaloPeerPlan d) :=
  if send then peer.sendPlan else peer.receivePlan

/-- Store the plan of a peer in one direction. -/
def setSlot (send : Bool) (peer : PeerPlans d) (plan : HaloPeerPlan d) : PeerPlans d :=
  if send then { peer with sendPlan := some plan } else { peer with receivePlan := some plan }

/-- Add a plan to the peer it is shared with. -/
def addPlan (space : RankSpace d) (send : Bool) (peers : List (PeerPlans d))
    (plan : HaloPeerPlan d) : Throws (List (PeerPlans d)) := do
  let linear ← space.linearRank plan.peer
  throwIf ((linear : ℤ) > intMax ∨ (plan.elements : ℤ) > intMax)
    (overflowError "pops::HaloExchange peer payload exceeds MPI int range")
  let found := (Grouping.find PeerPlans.mpiRank peers linear).getD ⟨plan.peer, linear, none, none⟩
  throwIf ((slot send found).isSome) (logicError "pops::HaloExchange duplicate peer plan")
  pure (Grouping.put PeerPlans.mpiRank (setSlot send found plan) peers)

/-- The peers of a schedule, ordered by MPI rank. -/
def initializePeers (schedule : HaloSchedule d) : Throws (List (PeerPlans d)) := do
  let requestCount := schedule.send.length + schedule.receive.length
  throwIf (requestCount > sizeMax)
    (overflowError "pops::HaloExchange request count overflows size_t")
  throwIf ((requestCount : ℤ) > intMax)
    (lengthError "pops::HaloExchange request capacity is invalid")
  let space := schedule.inputs.distribution.rankSpace
  let peers ← schedule.send.foldlM (addPlan space true) []
  let peers ← schedule.receive.foldlM (addPlan space false) peers
  pure (peers.mergeSort fun left right => left.mpiRank ≤ right.mpiRank)

/-- A zero-initialized buffer. -/
def allocate (zero : V) (extent : ℕ) : Buffer V := ⟨extent, fun _ => zero⟩

/-- The number of elements of an optional plan. -/
def planElements (plan : Option (HaloPeerPlan d)) : ℕ := plan.elim 0 HaloPeerPlan.elements

/-- The staging buffers of a peer. -/
def allocatePeer (zero : V) (peer : PeerPlans d) : PeerStorage d V where
  toPeerPlans := peer
  deviceSend := allocate zero (planElements peer.sendPlan)
  deviceReceive := allocate zero (planElements peer.receivePlan)
  hostSend := allocate zero (planElements peer.sendPlan)
  hostReceive := allocate zero (planElements peer.receivePlan)

/-- The constructor: find the peers and allocate the staging buffers. -/
def create (zero : V) (schedule : HaloSchedule d) : Throws (HaloExchange d V) := do
  let peers ← initializePeers schedule
  pure ⟨schedule, peers.map (allocatePeer zero), allocate zero schedule.localElements⟩

/-! ## One exchange -/

/-- The storage must be the one that the schedule was built for. -/
def authenticate (schedule : HaloSchedule d) (fields : MultiFab d V) : Throws Unit :=
  throwIf (fields.layout ≠ schedule.inputs.layout ∨
      fields.distribution ≠ schedule.inputs.distribution ∨
      fields.localRank ≠ schedule.localRank ∨ fields.ghosts ≠ schedule.inputs.ghosts ∨
      fields.ncomp ≠ schedule.inputs.ncomp)
    (invalidArgument "pops::HaloSchedule does not match the destination MultiFab")

/-- Pack the send plan of a peer and copy it to the host. -/
def packPeer (launches : Launches d) (fields : MultiFab d V) (ncomp : ℤ)
    (peer : PeerStorage d V) : Throws (PeerStorage d V) :=
  match peer.sendPlan with
  | none => pure peer
  | some plan => do
    let packed ← packJobs launches fields ncomp plan.jobs plan.elements peer.deviceSend
    pure { peer with deviceSend := packed, hostSend := packed }

/-- Pack the local jobs, if any. -/
def packLocal (launches : Launches d) (fields : MultiFab d V) (schedule : HaloSchedule d)
    (buffer : Buffer V) : Throws (Buffer V) :=
  if schedule.localElements ≠ 0 then
    packJobs launches fields schedule.inputs.ncomp schedule.localJobs schedule.localElements buffer
  else pure buffer

/-- The packing phase of `begin` on one rank. -/
def pack (execution : ExecutionSpace d) (party : HaloParty d V) : Throws (HaloParty d V) := do
  let schedule := party.exchange.schedule
  authenticate schedule party.fields
  let localBuffer ← packLocal execution.pack party.fields schedule party.exchange.localBuffer
  let peers ← party.exchange.peers.mapM
    (packPeer execution.pack party.fields schedule.inputs.ncomp)
  pure { party with exchange := ⟨schedule, peers, localBuffer⟩ }

/-- The message that a process sends to an MPI rank. -/
def message (peers : List (PeerStorage d V)) (destination : ℕ) : Option (Buffer V) :=
  (Grouping.find (fun peer => peer.mpiRank) peers destination).bind fun peer =>
    peer.sendPlan.map fun _ => peer.hostSend

/-- The failure of a wait. -/
def waitFailure : Exception :=
  runtimeError "pops::HaloExchange receive authentication or MPI_Waitall failed collectively"

/-- Wait for the message of a peer, check its length and stage it on the device. -/
def receivePeer (space : RankSpace d) (world : Index d → HaloParty d V) (rank : Index d)
    (peer : PeerStorage d V) : Throws (PeerStorage d V) :=
  match peer.receivePlan with
  | none => pure peer
  | some plan => do
    let source ← space.coordinate peer.mpiRank
    match message (world source).exchange.peers (space.rankOf rank) with
    | none => throw waitFailure
    | some buffer => do
      throwIf (buffer.extent ≠ plan.elements) waitFailure
      pure { peer with hostReceive := buffer, deviceReceive := buffer }

/-- The wait of `complete` on one rank. -/
def receive (space : RankSpace d) (world : Index d → HaloParty d V) (rank : Index d) :
    Throws (HaloParty d V) := do
  let party := world rank
  authenticate party.exchange.schedule party.fields
  let peers ← party.exchange.peers.mapM (receivePeer space world rank)
  pure { party with exchange := { party.exchange with peers := peers } }

/-- Unpack the receive plan of a peer. -/
def unpackPeer (launches : Launches d) (ncomp : ℤ) (fields : MultiFab d V)
    (peer : PeerStorage d V) : Throws (MultiFab d V) :=
  match peer.receivePlan with
  | none => pure fields
  | some plan => unpackJobs launches fields ncomp plan.jobs plan.elements peer.deviceReceive

/-- Unpack the local jobs, if any. -/
def unpackLocal (launches : Launches d) (schedule : HaloSchedule d) (buffer : Buffer V)
    (fields : MultiFab d V) : Throws (MultiFab d V) :=
  if schedule.localElements ≠ 0 then
    unpackJobs launches fields schedule.inputs.ncomp schedule.localJobs schedule.localElements
      buffer
  else pure fields

/-- The publication of `complete` on one rank: remote ghosts, then local ones. -/
def publish (execution : ExecutionSpace d) (party : HaloParty d V) : Throws (HaloParty d V) := do
  let schedule := party.exchange.schedule
  let fields ← party.exchange.peers.foldlM
    (unpackPeer execution.unpack schedule.inputs.ncomp) party.fields
  let fields ← unpackLocal execution.unpack schedule party.exchange.localBuffer fields
  pure { party with fields := fields }

/-- A phase that all ranks pass or none does. -/
def phaseGate (space : RankSpace d) (phase : Index d → Throws (HaloParty d V))
    (world : Index d → HaloParty d V) (failure : Exception) :
    Throws (Index d → HaloParty d V) := do
  throwIf (∃ rank ∈ space.ranks, (phase rank).isOk = false) failure
  pure fun rank =>
    if rank ∈ space.ranks then (phase rank).toOption.getD (world rank) else world rank

/-- One exchange: `begin` and `complete` on every rank.  A failed publication terminates. -/
def execute (space : RankSpace d) (execution : Index d → ExecutionSpace d)
    (world : Index d → HaloParty d V) : Throws (Index d → HaloParty d V) := do
  let packed ← phaseGate space (fun rank => pack (execution rank) (world rank)) world (runtimeError
    "pops::HaloExchange validation, packing, or host staging failed collectively")
  let received ← phaseGate space (receive space packed) packed waitFailure
  phaseGate space (fun rank => publish (execution rank) (received rank)) received terminate

end HaloExchange

end Pops
