import Pops.Mesh.Boundary.HaloKernels

/-!
# What a halo exchange transports

One exchange on all ranks of a partitioned layout writes the source value of every canonical job
into its ghost cells, and nothing else.  A rank packs what it sends at the offsets of its send
plan and its peer unpacks at the offsets of its receive plan; the two plans are equal
(`Pops.HaloSchedule.find_send_eq_find_receive`).

## Main definitions

* `Pops.HaloExchange.PeersHold` — the peers of a schedule hold exactly its plans.
* `Pops.HaloExchange.Prepared` — a transport that is ready for an exchange.
* `Pops.HaloExchange.Delivers` — writes that carry source values to ghost cells.

## Main results

* `Pops.HaloExchange.pack_spec`, `receive_spec`, `publish_eq_ok` — the phases of an exchange.
* `Pops.haloExchange_fills_ghosts` — plans agree, jobs occur once, and an exchange fills exactly
  the ghost cells of the canonical jobs.
-/

namespace Pops

namespace HaloExchange

open HaloSchedule

variable {d : ℕ} {V : Type} {inputs : HaloInputs d}

/-! ## Peers -/

/-- What a stored slot holds. -/
lemma slot_setSlot (s send : Bool) (peer : PeerPlans d) (plan : HaloPeerPlan d) :
    slot s (setSlot send peer plan) = if s = send then some plan else slot s peer := by
  cases s <;> cases send <;> rfl

/-- Storing a plan does not change the rank of a peer. -/
@[simp] lemma setSlot_mpiRank (send : Bool) (peer : PeerPlans d) (plan : HaloPeerPlan d) :
    (setSlot send peer plan).mpiRank = peer.mpiRank := by
  cases send <;> rfl

/-- The peers have distinct ranks and hold exactly the given plans. -/
structure PeersHold (space : RankSpace d) (plans : Bool → List (HaloPeerPlan d))
    (peers : List (PeerPlans d)) : Prop where
  nodup : (peers.map PeerPlans.mpiRank).Nodup
  mem_iff : ∀ send plan, (∃ peer ∈ peers, slot send peer = some plan) ↔ plan ∈ plans send
  rank_eq : ∀ send, ∀ peer ∈ peers, ∀ plan, slot send peer = some plan →
    space.linearRank plan.peer = .ok peer.mpiRank ∧ (plan.elements : ℤ) ≤ intMax

/-- One more plan is added to the peers. -/
lemma PeersHold.addPlan {space : RankSpace d} {plans : Bool → List (HaloPeerPlan d)}
    {peers peers' : List (PeerPlans d)} {send : Bool} {plan : HaloPeerPlan d}
    (hold : PeersHold space plans peers)
    (h : HaloExchange.addPlan space send peers plan = .ok peers') :
    PeersHold space (Function.update plans send (plans send ++ [plan])) peers' := by
  simp only [HaloExchange.addPlan, bind_eq_ok, throwIf_eq_ok, exists_const, pure_eq_ok] at h
  obtain ⟨linear, hlinear, hrange, hfree, rfl⟩ := h
  set found := (Grouping.find PeerPlans.mpiRank peers linear).getD ⟨plan.peer, linear, none, none⟩
    with hfound
  -- the peer that was found, or a fresh one with no plan at all
  have hcases : (found ∈ peers ∧ found.mpiRank = linear) ∨ (found.mpiRank = linear ∧
      (∀ s, slot s found = none) ∧ ∀ peer ∈ peers, peer.mpiRank ≠ linear) := by
    cases hf : Grouping.find PeerPlans.mpiRank peers linear with
    | some peer =>
      have hpeer : found = peer := by rw [hfound, hf]; rfl
      have hkey : peer.mpiRank = linear := by simpa using List.find?_some hf
      exact .inl ⟨hpeer ▸ List.mem_of_find?_eq_some hf, hpeer ▸ hkey⟩
    | none =>
      have hfresh : found = ⟨plan.peer, linear, none, none⟩ := by rw [hfound, hf]; rfl
      refine .inr ⟨by rw [hfresh], fun s => ?_, fun peer hpeer => ?_⟩
      · rw [hfresh]
        cases s <;> rfl
      · simpa using List.find?_eq_none.mp hf peer hpeer
  have hkey : found.mpiRank = linear := hcases.elim And.right And.left
  have hunique : ∀ peer ∈ peers, peer.mpiRank = linear → peer = found := by
    intro peer hpeer hrank
    rcases hcases with ⟨hin, hk⟩ | ⟨_, _, hnone⟩
    · exact List.inj_on_of_nodup_map hold.nodup hpeer hin (hrank.trans hk.symm)
    · exact absurd hrank (hnone peer hpeer)
  have hmem : ∀ {peer}, peer ∈ Grouping.put PeerPlans.mpiRank (setSlot send found plan) peers ↔
      peer = setSlot send found plan ∨ (peer ∈ peers ∧ peer.mpiRank ≠ linear) := by
    intro peer
    rw [Grouping.mem_put PeerPlans.mpiRank hold.nodup, setSlot_mpiRank, hkey]
  have hslot : ∀ s p, slot s found = some p → found ∈ peers := by
    intro s p hs
    rcases hcases with ⟨hin, _⟩ | ⟨_, hnone, _⟩
    · exact hin
    · rw [hnone s] at hs
      exact absurd hs (by simp)
  refine ⟨Grouping.nodup_put PeerPlans.mpiRank hold.nodup, fun s p => ?_,
    fun s peer hpeer p hs => ?_⟩
  · by_cases hsend : s = send
    · subst hsend
      rw [Function.update_self, List.mem_append, List.mem_singleton, ← hold.mem_iff]
      refine ⟨fun h => ?_, fun h => ?_⟩
      · obtain ⟨peer, hpeer, hs⟩ := h
        rcases hmem.mp hpeer with rfl | ⟨hin, _⟩
        · rw [slot_setSlot, if_pos rfl] at hs
          exact .inr (Option.some.inj hs).symm
        · exact .inl ⟨peer, hin, hs⟩
      · rcases h with ⟨peer, hin, hs⟩ | rfl
        · refine ⟨peer, hmem.mpr (.inr ⟨hin, fun hrank => ?_⟩), hs⟩
          rw [hunique peer hin hrank] at hs
          exact hfree (by rw [hs]; rfl)
        · exact ⟨_, hmem.mpr (.inl rfl), by rw [slot_setSlot, if_pos rfl]⟩
    · rw [Function.update_of_ne hsend, ← hold.mem_iff]
      refine ⟨fun h => ?_, fun h => ?_⟩
      · obtain ⟨peer, hpeer, hs⟩ := h
        rcases hmem.mp hpeer with rfl | ⟨hin, _⟩
        · rw [slot_setSlot, if_neg hsend] at hs
          exact ⟨found, hslot s p hs, hs⟩
        · exact ⟨peer, hin, hs⟩
      · obtain ⟨peer, hin, hs⟩ := h
        by_cases hrank : peer.mpiRank = linear
        · refine ⟨_, hmem.mpr (.inl rfl), ?_⟩
          rwa [slot_setSlot, if_neg hsend, ← hunique peer hin hrank]
        · exact ⟨peer, hmem.mpr (.inr ⟨hin, hrank⟩), hs⟩
  · rcases hmem.mp hpeer with rfl | ⟨hin, _⟩
    · rw [slot_setSlot] at hs
      split_ifs at hs with hsend
      · obtain rfl := Option.some.inj hs
        rw [setSlot_mpiRank, hkey]
        exact ⟨hlinear, by omega⟩
      · rw [setSlot_mpiRank]
        exact hold.rank_eq s found (hslot s p hs) p hs
    · exact hold.rank_eq s peer hin p hs

/-- The plans of a schedule in both directions. -/
def plansOf (schedule : HaloSchedule d) (send : Bool) : List (HaloPeerPlan d) :=
  if send then schedule.send else schedule.receive

/-- The peers of a schedule hold exactly its plans. -/
lemma initializePeers_hold {schedule : HaloSchedule d} {peers : List (PeerPlans d)}
    (h : initializePeers schedule = .ok peers) :
    PeersHold schedule.inputs.distribution.rankSpace (plansOf schedule) peers := by
  simp only [initializePeers, bind_eq_ok, throwIf_eq_ok, exists_const, pure_eq_ok] at h
  obtain ⟨_, _, sent, hsent, both, hboth, rfl⟩ := h
  set space := schedule.inputs.distribution.rankSpace
  have hfirst := foldlM_invariant
    (P := fun done peers => PeersHold space (fun s => if s then done else []) peers) hsent
    ⟨by simp, by simp, by simp⟩ (fun done plan rest s s' _ hs hstep => by
      convert hs.addPlan hstep using 1
      funext b
      cases b <;> simp [Function.update])
  have hsecond := foldlM_invariant
    (P := fun done peers => PeersHold space (fun s => if s then schedule.send else done) peers)
    hboth (by simpa using hfirst) (fun done plan rest s s' _ hs hstep => by
      convert hs.addPlan hstep using 1
      funext b
      cases b <;> simp [Function.update])
  -- sorting the peers only permutes them
  have hperm := List.mergeSort_perm both fun left right => left.mpiRank ≤ right.mpiRank
  refine ⟨(hperm.map _).nodup_iff.mpr hsecond.nodup, fun s plan => ?_, fun s peer hpeer => ?_⟩
  · rw [plansOf, ← hsecond.mem_iff]
    simp only [hperm.mem_iff]
  · exact hsecond.rank_eq s peer (hperm.mem_iff.mp hpeer)

/-! ## The plans of a rank -/

/-- The canonical jobs from one rank to another. -/
def between (inputs : HaloInputs d) (p q : Index d) : List (HaloJob d) :=
  Routing.pairItems (sender inputs) (receiver inputs) (jobsOf inputs) p q

/-- A canonical job lies between its sender and its receiver. -/
lemma mem_between {p q : Index d} {job : HaloJob d} :
    job ∈ between inputs p q ↔ job ∈ jobsOf inputs ∧ sender inputs job = p ∧
      receiver inputs job = q := by
  simp [between, Routing.pairItems]

/-- A laid out job is a canonical job with an offset. -/
lemma eraseOffset_mem {p q : Index d} {job : HaloJob d} (h : job ∈ place (between inputs p q)) :
    eraseOffset job ∈ between inputs p q := by
  have hmap := map_eraseOffset_placeFrom 0 fun j (hj : j ∈ between inputs p q) =>
    (mem_jobsOf (mem_between.mp hj).1).2.2.1
  rw [← hmap]
  exact List.mem_map_of_mem h

/-- Every canonical job is laid out. -/
lemma exists_placed {p q : Index d} {job : HaloJob d} (h : job ∈ between inputs p q) :
    ∃ job' ∈ place (between inputs p q), eraseOffset job' = job := by
  have hmap := map_eraseOffset_placeFrom 0 fun j (hj : j ∈ between inputs p q) =>
    (mem_jobsOf (mem_between.mp hj).1).2.2.1
  rw [← hmap] at h
  exact List.mem_map.mp h

section Rank

variable {rank : Index d} {budget : HaloScheduleBudget} {schedule : HaloSchedule d}
  (hc : Created inputs rank budget schedule)

include hc in
/-- The jobs between two ranks are ready and have their ends there. -/
lemma allOwned_between (p q : Index d) :
    AllOwned inputs (sender inputs) p (place (between inputs p q)) ∧
      AllOwned inputs (receiver inputs) q (place (between inputs p q)) := by
  refine ⟨fun job hjob => ?_, fun job hjob => ?_⟩ <;>
    obtain ⟨hcanonical, hs, hr⟩ := mem_between.mp (eraseOffset_mem hjob)
  · exact ⟨jobReady_of_created hc hcanonical, hs⟩
  · exact ⟨jobReady_of_created hc hcanonical, hr⟩

include hc in
/-- A layout without elements has no jobs. -/
lemma between_eq_nil {p q : Index d} (h : totalElements (between inputs p q) = 0) :
    place (between inputs p q) = [] := by
  rw [List.eq_nil_iff_forall_not_mem]
  intro job hjob
  have hready := ((allOwned_between hc p q).1 job hjob).1
  have hpos : 0 < job.elements := by
    have := hc.ncomp_pos
    rw [hready.elements_eq]
    exact Nat.mul_pos (card_pos hready) (by omega)
  have := (offset_bounds hjob).2
  omega

variable (hclass : Classified inputs rank (jobsOf inputs) schedule)

include hclass in
/-- The send plans of a rank. -/
lemma mem_send_iff {plan : HaloPeerPlan d} : plan ∈ schedule.send ↔ ∃ q, rank ≠ q ∧
    between inputs rank q ≠ [] ∧
      plan = ⟨q, place (between inputs rank q), totalElements (between inputs rank q)⟩ := by
  rw [hclass.sorted.mem_send]
  simp only [build_peerPlan]
  rfl

include hclass in
/-- The receive plans of a rank. -/
lemma mem_receive_iff {plan : HaloPeerPlan d} : plan ∈ schedule.receive ↔ ∃ p, p ≠ rank ∧
    between inputs p rank ≠ [] ∧
      plan = ⟨p, place (between inputs p rank), totalElements (between inputs p rank)⟩ := by
  rw [hclass.sorted.mem_receive]
  simp only [build_peerPlan]
  rfl

end Rank

/-- The jobs of a layout fit when its elements do. -/
lemma fits_of_total {jobs : List (HaloJob d)} (h : (totalElements jobs : ℤ) ≤ int64Max) :
    ∀ job ∈ place jobs, Fits job := by
  intro job hjob
  have := (offset_bounds hjob).2
  unfold Fits
  omega

/-! ## Phases -/

/-- A transport that is ready for an exchange: its peers are those of the schedule, and its
buffers have the sizes of their plans, whatever they hold. -/
structure Prepared (schedule : HaloSchedule d) (exchange : HaloExchange d V) : Prop where
  schedule_eq : exchange.schedule = schedule
  peers_eq : initializePeers schedule = .ok (exchange.peers.map PeerStorage.toPeerPlans)
  local_extent : exchange.localBuffer.extent = schedule.localElements
  send_extent : ∀ peer ∈ exchange.peers, ∀ plan, peer.sendPlan = some plan →
    peer.deviceSend.extent = plan.elements

/-- The constructor prepares the transport. -/
lemma create_prepared {zero : V} {schedule : HaloSchedule d} {exchange : HaloExchange d V}
    (h : create zero schedule = .ok exchange) : Prepared schedule exchange := by
  simp only [create, bind_eq_ok, pure_eq_ok] at h
  obtain ⟨peers, hpeers, rfl⟩ := h
  refine ⟨rfl, ?_, rfl, fun peer hpeer plan hplan => ?_⟩
  · rw [hpeers, List.map_map]
    exact congrArg _ (List.map_id peers).symm
  · obtain ⟨plans, _, rfl⟩ := List.mem_map.mp hpeer
    simp only [allocatePeer] at hplan
    simp only [allocatePeer, allocate, hplan, planElements, Option.elim_some]

/-- The plans that a prepared peer shares. -/
lemma Prepared.hold {schedule : HaloSchedule d} {exchange : HaloExchange d V}
    (h : Prepared schedule exchange) :
    PeersHold schedule.inputs.distribution.rankSpace (plansOf schedule)
      (exchange.peers.map PeerStorage.toPeerPlans) :=
  initializePeers_hold h.peers_eq

/-- The plan of a prepared peer is a plan of the schedule. -/
lemma Prepared.plan_mem {schedule : HaloSchedule d} {exchange : HaloExchange d V}
    (h : Prepared schedule exchange) {peer : PeerStorage d V} (hpeer : peer ∈ exchange.peers)
    (send : Bool) {plan : HaloPeerPlan d} (hplan : slot send peer.toPeerPlans = some plan) :
    plan ∈ plansOf schedule send :=
  (h.hold.mem_iff send plan).mp ⟨_, List.mem_map_of_mem hpeer, hplan⟩

/-- All ranks pass a gate with the results of the phase, or none does. -/
lemma phaseGate_eq_ok {space : RankSpace d} {phase : Index d → Throws (HaloParty d V)}
    {world w : Index d → HaloParty d V} {failure : Exception}
    (h : phaseGate space phase world failure = .ok w) :
    ∀ r, space.Contains r → phase r = .ok (w r) := by
  simp only [phaseGate, bind_eq_ok, throwIf_eq_ok, exists_const, pure_eq_ok] at h
  obtain ⟨hall, rfl⟩ := h
  intro r hr
  beta_reduce
  rw [if_pos (RankSpace.mem_ranks.mpr hr)]
  cases hp : phase r with
  | ok party => rfl
  | error e =>
    refine absurd ⟨r, RankSpace.mem_ranks.mpr hr, ?_⟩ hall
    rw [hp]
    rfl

/-- A phase that every rank passes ends with a passed gate. -/
lemma phaseGate_returns {space : RankSpace d} {phase : Index d → Throws (HaloParty d V)}
    {world : Index d → HaloParty d V} {failure : Exception}
    (h : ∀ r, space.Contains r → Returns (phase r)) :
    Returns (phaseGate space phase world failure) := by
  have hall : ¬ ∃ rank ∈ space.ranks, (phase rank).isOk = false := by
    intro hfail
    obtain ⟨r, hr, hfail⟩ := hfail
    obtain ⟨party, hp⟩ := h r (RankSpace.mem_ranks.mp hr)
    rw [hp] at hfail
    exact absurd hfail (by simp [Except.isOk, Except.toBool])
  rw [phaseGate, throwIf_neg hall]
  exact ⟨_, rfl⟩

section Phases

variable {rank : Index d} {budget : HaloScheduleBudget} {schedule : HaloSchedule d}
  {source : Index d → MultiFab d V}

/-- A rank that has packed: its send buffers and its local buffer hold the source values. -/
structure HasPacked (inputs : HaloInputs d) (source : Index d → MultiFab d V)
    (schedule : HaloSchedule d) (rank : Index d) (party : HaloParty d V) : Prop where
  prepared : Prepared schedule party.exchange
  fields_eq : party.fields = source rank
  local_packed : Packed inputs source schedule.localJobs party.exchange.localBuffer.data
  send_packed : ∀ peer ∈ party.exchange.peers, ∀ plan, peer.sendPlan = some plan →
    peer.hostSend.extent = plan.elements ∧ Packed inputs source plan.jobs peer.hostSend.data

/-- A rank that has received: its receive buffers and its local buffer hold the source values. -/
structure HasReceived (inputs : HaloInputs d) (source : Index d → MultiFab d V)
    (schedule : HaloSchedule d) (rank : Index d) (party : HaloParty d V) : Prop where
  prepared : Prepared schedule party.exchange
  fields_eq : party.fields = source rank
  local_packed : Packed inputs source schedule.localJobs party.exchange.localBuffer.data
  receive_packed : ∀ peer ∈ party.exchange.peers, ∀ plan, peer.receivePlan = some plan →
    peer.deviceReceive.extent = plan.elements ∧
      Packed inputs source plan.jobs peer.deviceReceive.data

/-- A peer whose send plan is packed. -/
def packedPeer (launches : Launches d) (fields : MultiFab d V) (ncomp : ℤ)
    (peer : PeerStorage d V) : PeerStorage d V :=
  match peer.sendPlan with
  | none => peer
  | some plan =>
    let packed : Buffer V := ⟨peer.deviceSend.extent, Store.writes peer.deviceSend.data
      (plan.jobs.flatMap (packWrites launches fields ncomp))⟩
    { peer with deviceSend := packed, hostSend := packed }

/-- Packing does not change the plans of a peer. -/
@[simp] lemma toPeerPlans_packedPeer (launches : Launches d) (fields : MultiFab d V)
    (ncomp : ℤ) (peer : PeerStorage d V) :
    (packedPeer launches fields ncomp peer).toPeerPlans = peer.toPeerPlans := by
  unfold packedPeer
  split <;> rfl

variable (hc : Created inputs rank budget schedule)
  (hclass : Classified inputs rank (jobsOf inputs) schedule)

include hclass in
/-- The send plan of a prepared peer: the jobs towards it, all of which fit. -/
lemma send_plan_spec {exchange : HaloExchange d V} (hprep : Prepared schedule exchange)
    {peer : PeerStorage d V} (hpeer : peer ∈ exchange.peers) {plan : HaloPeerPlan d}
    (hplan : peer.sendPlan = some plan) :
    ∃ q, rank ≠ q ∧ plan.jobs = place (between inputs rank q) ∧
      plan.elements = totalElements (between inputs rank q) ∧ ∀ job ∈ plan.jobs, Fits job := by
  have hmem := hprep.plan_mem hpeer true hplan
  obtain ⟨q, hne, _, rfl⟩ := (mem_send_iff hclass).mp hmem
  have hbound := (hprep.hold.rank_eq true _ (List.mem_map_of_mem hpeer) _ hplan).2
  exact ⟨q, hne, rfl, rfl, fits_of_total (hbound.trans (by decide))⟩

include hclass in
/-- The receive plan of a prepared peer: the jobs from it, all of which fit. -/
lemma receive_plan_spec {exchange : HaloExchange d V} (hprep : Prepared schedule exchange)
    {peer : PeerStorage d V} (hpeer : peer ∈ exchange.peers) {plan : HaloPeerPlan d}
    (hplan : peer.receivePlan = some plan) :
    ∃ p, p ≠ rank ∧ between inputs p rank ≠ [] ∧
      plan = ⟨p, place (between inputs p rank), totalElements (between inputs p rank)⟩ ∧
      inputs.distribution.rankSpace.linearRank p = .ok peer.mpiRank ∧
      ∀ job ∈ plan.jobs, Fits job := by
  have hmem := hprep.plan_mem hpeer false hplan
  obtain ⟨p, hne, hnil, rfl⟩ := (mem_receive_iff hclass).mp hmem
  have hrank := hprep.hold.rank_eq false _ (List.mem_map_of_mem hpeer) _ hplan
  rw [hclass.inputs_eq] at hrank
  exact ⟨p, hne, hnil, rfl, hrank.1, fits_of_total (hrank.2.trans (by decide))⟩

include hc hclass in
/-- **Packing on one rank** succeeds exactly when the local jobs fit, and then every buffer holds
the source values. -/
theorem pack_spec {execution : ExecutionSpace d} {party : HaloParty d V}
    (hprep : Prepared schedule party.exchange) (hmatch : Matches inputs rank party.fields)
    (hsource : source rank = party.fields) :
    ((∀ job ∈ schedule.localJobs, Fits job) → Returns (pack execution party)) ∧
      ∀ party', pack execution party = .ok party' →
        HasPacked inputs source schedule rank party' := by
  have hncomp := hc.ncomp_pos
  have hpeers : ∀ peer ∈ party.exchange.peers, ∀ peer',
      packPeer execution.pack party.fields inputs.ncomp peer = .ok peer' ↔
        True ∧ peer' = packedPeer execution.pack party.fields inputs.ncomp peer := by
    intro peer hpeer peer'
    unfold packPeer packedPeer
    cases hplan : peer.sendPlan with
    | none =>
      simp only [pure_eq_ok, true_and]
      exact eq_comm
    | some plan =>
      obtain ⟨q, _, hjobs, helements, hfits⟩ := send_plan_spec hclass hprep hpeer hplan
      have howned : AllOwned inputs (sender inputs) rank plan.jobs :=
        hjobs ▸ (allOwned_between hc rank q).1
      simp only [bind_eq_ok, packJobs_eq_ok hncomp hmatch howned, pure_eq_ok, true_and]
      refine ⟨fun h => ?_, fun h => ?_⟩
      · obtain ⟨_, ⟨_, rfl⟩, rfl⟩ := h
        rfl
      · exact ⟨_, ⟨⟨hprep.send_extent peer hpeer plan hplan, hfits⟩, rfl⟩, h.symm⟩
  have hlocal : schedule.localJobs = place (between inputs rank rank) := hclass.localJobs_eq
  have howned : AllOwned inputs (sender inputs) rank schedule.localJobs :=
    hlocal ▸ (allOwned_between hc rank rank).1
  -- without local elements there are no local jobs, so both branches pack them
  have hbuffer : ∀ b : Buffer V,
      packLocal execution.pack party.fields schedule party.exchange.localBuffer = .ok b ↔
        (∀ job ∈ schedule.localJobs, Fits job) ∧
        b = ⟨party.exchange.localBuffer.extent, Store.writes party.exchange.localBuffer.data
          (schedule.localJobs.flatMap (packWrites execution.pack party.fields inputs.ncomp))⟩ := by
    intro b
    unfold packLocal
    rw [hclass.inputs_eq]
    by_cases hzero : schedule.localElements = 0
    · have hnil : schedule.localJobs = [] := by
        rw [hlocal]
        exact between_eq_nil hc (hclass.localElements_eq.symm.trans hzero)
      rw [if_neg (not_not.mpr hzero), hnil, pure_eq_ok]
      simp only [List.not_mem_nil, false_imp_iff, implies_true, List.flatMap_nil,
        Store.writes_nil, true_and]
      exact eq_comm
    · rw [if_pos hzero, packJobs_eq_ok hncomp hmatch howned]
      simp [hprep.local_extent]
  have hpack : ∀ party', pack execution party = .ok party' ↔
      (∀ job ∈ schedule.localJobs, Fits job) ∧
        party' = ⟨⟨schedule, party.exchange.peers.map
          (packedPeer execution.pack party.fields inputs.ncomp),
          ⟨party.exchange.localBuffer.extent, Store.writes party.exchange.localBuffer.data
            (schedule.localJobs.flatMap
              (packWrites execution.pack party.fields inputs.ncomp))⟩⟩, party.fields⟩ := by
    intro party'
    have hauth : authenticate schedule party.fields = .ok () := by
      rw [authenticate_eq_ok, hclass.inputs_eq, hclass.localRank_eq]
      exact hmatch
    rw [pack, hprep.schedule_eq, hauth, hclass.inputs_eq]
    simp only [ok_bind, bind_eq_ok, hbuffer, mapM_eq_ok_iff hpeers, pure_eq_ok]
    refine ⟨fun h => ?_, fun h => ?_⟩
    · obtain ⟨_, ⟨hfits, rfl⟩, _, ⟨_, rfl⟩, rfl⟩ := h
      exact ⟨hfits, rfl⟩
    · obtain ⟨hfits, rfl⟩ := h
      exact ⟨_, ⟨hfits, rfl⟩, _, ⟨fun _ _ => trivial, rfl⟩, rfl⟩
  refine ⟨fun hfits => ⟨_, (hpack _).mpr ⟨hfits, rfl⟩⟩, fun party' h => ?_⟩
  obtain ⟨_, rfl⟩ := (hpack party').mp h
  have hmap : (party.exchange.peers.map
      (packedPeer execution.pack party.fields inputs.ncomp)).map PeerStorage.toPeerPlans =
        party.exchange.peers.map PeerStorage.toPeerPlans := by
    rw [List.map_map]
    exact List.map_congr_left fun peer _ => toPeerPlans_packedPeer _ _ _ peer
  refine ⟨⟨rfl, ?_, hprep.local_extent, ?_⟩, hsource.symm, ?_, ?_⟩
  · rw [hmap]
    exact hprep.peers_eq
  · intro peer' hpeer' plan hplan
    obtain ⟨peer, hpeer, rfl⟩ := List.mem_map.mp hpeer'
    rw [toPeerPlans_packedPeer] at hplan
    simp only [packedPeer, hplan]
    exact hprep.send_extent peer hpeer plan hplan
  · rw [hlocal] at howned ⊢
    exact packed_of_placed hncomp hsource howned _ _
  · intro peer' hpeer' plan hplan
    obtain ⟨peer, hpeer, rfl⟩ := List.mem_map.mp hpeer'
    rw [toPeerPlans_packedPeer] at hplan
    obtain ⟨q, _, hjobs, _, _⟩ := send_plan_spec hclass hprep hpeer hplan
    simp only [packedPeer, hplan]
    refine ⟨hprep.send_extent peer hpeer plan hplan, ?_⟩
    rw [hjobs]
    exact packed_of_placed hncomp hsource (allOwned_between hc rank q).1 _ _

/-- The writes that a rank receives: the source values of its ghost cells and nothing else. -/
structure Delivers (inputs : HaloInputs d) (source : Index d → MultiFab d V) (rank : Index d)
    (ws : List ((ℕ × ℤ) × V)) : Prop where
  sound : ∀ w ∈ ws, ∃ job ∈ jobsOf inputs, receiver inputs job = rank ∧
    ∃ i ∈ job.destinationRegion.cells, ∃ c, 0 ≤ c ∧ c < inputs.ncomp ∧
      w = (((source rank).view job.destinationBox).address i c,
        (source (sender inputs job)).value job.sourceBox (i + job.sourceFromDestination) c)
  complete : ∀ job ∈ jobsOf inputs, receiver inputs job = rank →
    ∀ i ∈ job.destinationRegion.cells, ∀ c, 0 ≤ c → c < inputs.ncomp →
      ∃ w ∈ ws, w.1 = ((source rank).view job.destinationBox).address i c

include hc in
/-- Unpacking the jobs from one rank writes source values into ghost cells. -/
lemma unpack_sound {p : Index d} {buffer : ℕ → V} (launches : Launches d)
    (hpacked : Packed inputs source (place (between inputs p rank)) buffer) :
    ∀ w ∈ (place (between inputs p rank)).flatMap
        (unpackWrites launches (source rank) inputs.ncomp buffer),
      ∃ job ∈ jobsOf inputs, receiver inputs job = rank ∧
        ∃ i ∈ job.destinationRegion.cells, ∃ c, 0 ≤ c ∧ c < inputs.ncomp ∧
          w = (((source rank).view job.destinationBox).address i c,
            (source (sender inputs job)).value job.sourceBox
              (i + job.sourceFromDestination) c) := by
  intro w hw
  obtain ⟨job, hjob, hw⟩ := List.mem_flatMap.mp hw
  obtain ⟨e, he, rfl⟩ := List.mem_map.mp hw
  rw [mem_order] at he
  obtain ⟨hready, hreceiver⟩ := (allOwned_between hc p rank).2 job hjob
  obtain ⟨hmem, h0, hlt⟩ := site_mem hready hc.ncomp_pos he
  refine ⟨eraseOffset job, (mem_between.mp (eraseOffset_mem hjob)).1, hreceiver, _, hmem, _, h0,
    hlt, ?_⟩
  rw [unpackKernel_lowered hready hc.ncomp_pos _ _ he, hpacked job hjob e he]
  rfl

include hc in
/-- Unpacking the jobs from one rank reaches all of their ghost cells. -/
lemma unpack_complete (source : Index d → MultiFab d V) {p : Index d} (buffer : ℕ → V)
    (launches : Launches d) {job : HaloJob d} (hjob : job ∈ between inputs p rank) {i : Index d}
    (hi : i ∈ job.destinationRegion.cells) {c : ℤ} (h0 : 0 ≤ c) (hlt : c < inputs.ncomp) :
    ∃ w ∈ (place (between inputs p rank)).flatMap
        (unpackWrites launches (source rank) inputs.ncomp buffer),
      w.1 = ((source rank).view job.destinationBox).address i c := by
  obtain ⟨job', hplaced, rfl⟩ := exists_placed hjob
  obtain ⟨hready, _⟩ := (allOwned_between hc p rank).2 job' hplaced
  obtain ⟨e, he, hsite⟩ := exists_site hready hc.ncomp_pos hi h0 hlt
  refine ⟨_, List.mem_flatMap.mpr ⟨job', hplaced, List.mem_map.mpr ⟨e, mem_order.mpr he, rfl⟩⟩, ?_⟩
  rw [unpackKernel_lowered hready hc.ncomp_pos _ _ he, hsite]
  rfl

/-- The writes of the receive plan of a peer. -/
def peerWrites (launches : Launches d) (fields : MultiFab d V) (ncomp : ℤ)
    (peer : PeerStorage d V) : List ((ℕ × ℤ) × V) :=
  peer.receivePlan.elim [] fun plan =>
    plan.jobs.flatMap (unpackWrites launches fields ncomp peer.deviceReceive.data)

/-- The writes of a publication: the receive plans of all peers, then the local jobs. -/
def publishWrites (launches : Launches d) (schedule : HaloSchedule d) (party : HaloParty d V) :
    List ((ℕ × ℤ) × V) :=
  party.exchange.peers.flatMap (peerWrites launches party.fields schedule.inputs.ncomp) ++
    schedule.localJobs.flatMap (unpackWrites launches party.fields schedule.inputs.ncomp
      party.exchange.localBuffer.data)

include hc hclass in
/-- **Publication on one rank** succeeds exactly when the local jobs fit, and runs the writes of
all its plans. -/
theorem publish_eq_ok {execution : ExecutionSpace d} {party party' : HaloParty d V}
    (hreceived : HasReceived inputs source schedule rank party)
    (hmatch : Matches inputs rank (source rank)) :
    publish execution party = .ok party' ↔ (∀ job ∈ schedule.localJobs, Fits job) ∧
      party' = ⟨party.exchange, party.fields.setData (Store.writes party.fields.data
        (publishWrites execution.unpack schedule party))⟩ := by
  have hncomp := hc.ncomp_pos
  rw [← hreceived.fields_eq] at hmatch
  have hpeers : ∀ peer ∈ party.exchange.peers, ∀ s : MultiFab d V,
      (∃ data, s = party.fields.setData data) → ∀ s',
        unpackPeer execution.unpack inputs.ncomp s peer = .ok s' ↔
          True ∧ s' = s.setData (Store.writes s.data
            (peerWrites execution.unpack party.fields inputs.ncomp peer)) := by
    intro peer hpeer s hs s'
    obtain ⟨data, rfl⟩ := hs
    unfold unpackPeer peerWrites
    cases hplan : peer.receivePlan with
    | none =>
      simp only [pure_eq_ok, true_and, Option.elim_none, Store.writes_nil]
      exact eq_comm
    | some plan =>
      obtain ⟨p, _, _, rfl, _, hfits⟩ := receive_plan_spec hclass hreceived.prepared hpeer hplan
      have hextent := (hreceived.receive_packed peer hpeer _ hplan).1
      simp only [unpackJobs_eq_ok hncomp hmatch (allOwned_between hc p rank).2, hextent, true_and,
        Option.elim_some]
      exact ⟨fun h => h.2, fun h => ⟨hfits, h⟩⟩
  have hfold : ∀ (l : List (PeerStorage d V)) (data : ℕ × ℤ → V),
      l.foldl (fun s peer => s.setData (Store.writes s.data
        (peerWrites execution.unpack party.fields inputs.ncomp peer)))
        (party.fields.setData data) = party.fields.setData (Store.writes data
          (l.flatMap (peerWrites execution.unpack party.fields inputs.ncomp))) := by
    intro l
    induction l with
    | nil => exact fun _ => rfl
    | cons peer l ih =>
      intro data
      rw [List.foldl_cons, List.flatMap_cons, Store.writes_append]
      exact ih _
  have hremote : ∀ fields, party.exchange.peers.foldlM
      (unpackPeer execution.unpack inputs.ncomp) party.fields = .ok fields ↔
        fields = party.fields.setData (Store.writes party.fields.data
          (party.exchange.peers.flatMap
            (peerWrites execution.unpack party.fields inputs.ncomp))) := by
    intro fields
    have hstart : party.fields = party.fields.setData party.fields.data := rfl
    rw [foldlM_eq_ok_iff (I := fun s => ∃ data, s = party.fields.setData data) ?_ hpeers
      ⟨_, hstart⟩]
    · rw [← hfold]
      exact ⟨fun h => h.2, fun h => ⟨fun _ _ => trivial, h⟩⟩
    · intro s peer hs
      obtain ⟨data, rfl⟩ := hs
      exact ⟨_, rfl⟩
  have hlocal : schedule.localJobs = place (between inputs rank rank) := hclass.localJobs_eq
  have hjobs : ∀ data fields, unpackLocal execution.unpack schedule party.exchange.localBuffer
      (party.fields.setData data) = .ok fields ↔ (∀ job ∈ schedule.localJobs, Fits job) ∧
        fields = party.fields.setData (Store.writes data (schedule.localJobs.flatMap
          (unpackWrites execution.unpack party.fields inputs.ncomp
            party.exchange.localBuffer.data))) := by
    intro data fields
    unfold unpackLocal
    rw [hclass.inputs_eq]
    by_cases hzero : schedule.localElements = 0
    · have hnil : schedule.localJobs = [] := by
        rw [hlocal]
        exact between_eq_nil hc (hclass.localElements_eq.symm.trans hzero)
      rw [if_neg (not_not.mpr hzero), hnil, pure_eq_ok]
      simp only [List.not_mem_nil, false_imp_iff, implies_true, List.flatMap_nil,
        Store.writes_nil, true_and]
      exact eq_comm
    · rw [if_pos hzero, hlocal,
        unpackJobs_eq_ok hncomp hmatch (allOwned_between hc rank rank).2]
      simp [hreceived.prepared.local_extent]
  rw [publish, hreceived.prepared.schedule_eq, hclass.inputs_eq]
  simp only [bind_eq_ok, hremote, pure_eq_ok, exists_eq_left, hjobs]
  rw [publishWrites, Store.writes_append, hclass.inputs_eq]
  refine ⟨fun h => ?_, fun h => ?_⟩
  · obtain ⟨_, ⟨hfits, rfl⟩, rfl⟩ := h
    exact ⟨hfits, rfl⟩
  · obtain ⟨hfits, rfl⟩ := h
    exact ⟨_, ⟨hfits, rfl⟩, rfl⟩

include hc hclass in
/-- The publication of a rank delivers the source values of its ghost cells. -/
lemma publishWrites_delivers {launches : Launches d} {party : HaloParty d V}
    (hreceived : HasReceived inputs source schedule rank party) :
    Delivers inputs source rank (publishWrites launches schedule party) := by
  have hlocal : schedule.localJobs = place (between inputs rank rank) := hclass.localJobs_eq
  have hpacked := hreceived.local_packed
  unfold publishWrites
  rw [hlocal] at hpacked ⊢
  rw [hclass.inputs_eq, hreceived.fields_eq]
  refine ⟨fun w hw => ?_, fun job hjob hreceiver i hi c h0 hlt => ?_⟩
  · rcases List.mem_append.mp hw with hw | hw
    · obtain ⟨peer, hpeer, hw⟩ := List.mem_flatMap.mp hw
      unfold peerWrites at hw
      cases hplan : peer.receivePlan with
      | none => simp [hplan] at hw
      | some plan =>
        obtain ⟨p, _, _, rfl, _⟩ := receive_plan_spec hclass hreceived.prepared hpeer hplan
        rw [hplan] at hw
        exact unpack_sound hc launches (hreceived.receive_packed peer hpeer _ hplan).2 w hw
    · exact unpack_sound hc launches hpacked w hw
  · by_cases hself : sender inputs job = rank
    · obtain ⟨w, hw, haddress⟩ := unpack_complete hc source
        party.exchange.localBuffer.data launches (mem_between.mpr ⟨hjob, hself,
          hreceiver⟩) hi h0 hlt
      exact ⟨w, List.mem_append_right _ hw, haddress⟩
    · -- the job is in the receive plan of its sender, which some peer holds
      have hbetween := mem_between.mpr ⟨hjob, rfl, hreceiver⟩
      have hplan : (⟨sender inputs job, place (between inputs (sender inputs job) rank),
          totalElements (between inputs (sender inputs job) rank)⟩ : HaloPeerPlan d) ∈
            plansOf schedule false :=
        (mem_receive_iff hclass).mpr ⟨_, hself, List.ne_nil_of_mem hbetween, rfl⟩
      obtain ⟨plans, hplans, hslot⟩ := (hreceived.prepared.hold.mem_iff false _).mpr hplan
      obtain ⟨peer, hpeer, rfl⟩ := List.mem_map.mp hplans
      have hslot : peer.receivePlan = some _ := hslot
      obtain ⟨w, hw, haddress⟩ := unpack_complete hc source peer.deviceReceive.data
        launches hbetween hi h0 hlt
      refine ⟨w, List.mem_append_left _ (List.mem_flatMap.mpr ⟨peer, hpeer, ?_⟩), haddress⟩
      rw [peerWrites, hslot]
      exact hw

end Phases

/-! ## All ranks -/

section World

variable {budget : Index d → HaloScheduleBudget} {schedule : Index d → HaloSchedule d}
  {source : Index d → MultiFab d V}
  (hcreated : ∀ r, inputs.distribution.rankSpace.Contains r →
    Created inputs r (budget r) (schedule r))
  (hclass : ∀ r, inputs.distribution.rankSpace.Contains r →
    Classified inputs r (jobsOf inputs) (schedule r))

include hclass in
/-- **Every rank receives what its peers have packed**: the send plan of the peer exists, has the
same elements and lays out the same jobs. -/
theorem receive_spec {packed : Index d → HaloParty d V}
    (hpacked : ∀ r, inputs.distribution.rankSpace.Contains r →
      HasPacked inputs source (schedule r) r (packed r))
    (hmatch : ∀ r, inputs.distribution.rankSpace.Contains r → Matches inputs r (source r))
    {q : Index d} (hq : inputs.distribution.rankSpace.Contains q) :
    ∃ party, receive inputs.distribution.rankSpace packed q = .ok party ∧
      HasReceived inputs source (schedule q) q party := by
  have hown := hpacked q hq
  have hpeers : ∀ peer ∈ (packed q).exchange.peers, ∃ peer',
      receivePeer inputs.distribution.rankSpace packed q peer = .ok peer' ∧
        (peer'.toPeerPlans = peer.toPeerPlans ∧ peer'.deviceSend = peer.deviceSend ∧
          ∀ plan, peer.receivePlan = some plan → peer'.deviceReceive.extent = plan.elements ∧
            Packed inputs source plan.jobs peer'.deviceReceive.data) := by
    intro peer hpeer
    unfold receivePeer
    cases hplan : peer.receivePlan with
    | none => exact ⟨peer, rfl, rfl, rfl, by simp⟩
    | some plan =>
      obtain ⟨p, hne, hnil, rfl, hrank, _⟩ :=
        receive_plan_spec (hclass q hq) hown.prepared hpeer hplan
      obtain ⟨hp, hrankOf⟩ := RankSpace.linearRank_eq_ok.mp hrank
      -- the plan at the other end
      have hpp := hpacked p hp
      have hsend : (⟨q, place (between inputs p q), totalElements (between inputs p q)⟩ :
          HaloPeerPlan d) ∈ plansOf (schedule p) true :=
        (mem_send_iff (hclass p hp)).mpr ⟨q, hne, hnil, rfl⟩
      obtain ⟨plans, hplans, hslot⟩ := (hpp.prepared.hold.mem_iff true _).mpr hsend
      obtain ⟨peer', hpeer', rfl⟩ := List.mem_map.mp hplans
      have hslot' : peer'.sendPlan = some _ := hslot
      have hmpi := (hpp.prepared.hold.rank_eq true _ hplans _ hslot).1
      rw [(hclass p hp).inputs_eq] at hmpi
      have hmpi' := (RankSpace.linearRank_eq_ok.mp hmpi).2
      have hnodup : ((packed p).exchange.peers.map fun peer => peer.mpiRank).Nodup := by
        have := hpp.prepared.hold.nodup
        rwa [List.map_map] at this
      have hfind := (Grouping.mem_iff_find (fun peer : PeerStorage d V => peer.mpiRank)
        hnodup).mp hpeer'
      have hmessage : message (packed p).exchange.peers (inputs.distribution.rankSpace.rankOf q) =
          some peer'.hostSend := by
        rw [message, hmpi', hfind, Option.bind_some, hslot', Option.map_some]
      obtain ⟨hextent, hdata⟩ := hpp.send_packed peer' hpeer' _ hslot'
      refine ⟨{ peer with hostReceive := peer'.hostSend, deviceReceive := peer'.hostSend }, ?_, rfl,
        rfl, fun plan hsome => ?_⟩
      · simp only [← hrankOf, RankSpace.coordinate_rankOf hp, ok_bind, hmessage,
          throwIf_neg (not_not.mpr hextent)]
        rfl
      · obtain rfl := Option.some.inj hsome
        exact ⟨hextent, hdata⟩
  obtain ⟨peers, hmap, hall, horigin⟩ := mapM_total hpeers
  have hauth : authenticate (packed q).exchange.schedule (packed q).fields = .ok () := by
    rw [authenticate_eq_ok, hown.prepared.schedule_eq, (hclass q hq).inputs_eq,
      (hclass q hq).localRank_eq, hown.fields_eq]
    exact hmatch q hq
  have hplans : peers.map PeerStorage.toPeerPlans =
      (packed q).exchange.peers.map PeerStorage.toPeerPlans := by
    have heq : List.Forall₂ Eq ((packed q).exchange.peers.map PeerStorage.toPeerPlans)
        (peers.map PeerStorage.toPeerPlans) :=
      List.forall₂_map_left_iff.mpr (List.forall₂_map_right_iff.mpr
        (hall.imp fun _ _ h => h.1.symm))
    rw [List.forall₂_eq_eq_eq] at heq
    exact heq.symm
  refine ⟨⟨{ (packed q).exchange with peers := peers }, (packed q).fields⟩, ?_, ⟨?_, ?_, ?_, ?_⟩,
    hown.fields_eq, hown.local_packed, ?_⟩
  · simp only [receive, hauth, ok_bind, hmap]
    rfl
  · exact hown.prepared.schedule_eq
  · rw [hplans]
    exact hown.prepared.peers_eq
  · exact hown.prepared.local_extent
  · intro peer' hpeer' plan hplan
    obtain ⟨peer, hpeer, hsame, hdevice, _⟩ := horigin peer' hpeer'
    rw [hdevice]
    exact hown.prepared.send_extent peer hpeer plan (hsame ▸ hplan)
  · intro peer' hpeer' plan hplan
    obtain ⟨peer, hpeer, hsame, _, hdata⟩ := horigin peer' hpeer'
    exact hdata plan (hsame ▸ hplan)

include hcreated hclass in
/-- **One exchange on all ranks**: it returns when the local jobs of every rank fit, and then
every rank has run writes that deliver the source values of its ghost cells. -/
theorem execute_spec {execution : Index d → ExecutionSpace d} {world : Index d → HaloParty d V}
    (hprep : ∀ r, inputs.distribution.rankSpace.Contains r →
      Prepared (schedule r) (world r).exchange)
    (hmatch : ∀ r, inputs.distribution.rankSpace.Contains r →
      Matches inputs r (world r).fields) :
    ((∀ r, inputs.distribution.rankSpace.Contains r →
        ((schedule r).localElements : ℤ) ≤ int64Max) →
      Returns (execute inputs.distribution.rankSpace execution world)) ∧
    ∀ world', execute inputs.distribution.rankSpace execution world = .ok world' →
      ∀ r, inputs.distribution.rankSpace.Contains r →
        Prepared (schedule r) (world' r).exchange ∧
        ∃ ws, (world' r).fields = (world r).fields.setData
          (Store.writes (world r).fields.data ws) ∧
            Delivers inputs (fun r => (world r).fields) r ws := by
  set source : Index d → MultiFab d V := fun r => (world r).fields with hsource
  have hpack : ∀ r, inputs.distribution.rankSpace.Contains r →
      ((∀ job ∈ (schedule r).localJobs, Fits job) → Returns (pack (execution r) (world r))) ∧
        ∀ party, pack (execution r) (world r) = .ok party →
          HasPacked inputs source (schedule r) r party :=
    fun r hr => pack_spec (hcreated r hr) (hclass r hr) (hprep r hr) (hmatch r hr) rfl
  refine ⟨fun hlocal => ?_, fun world' h => ?_⟩
  · have hfits : ∀ r, inputs.distribution.rankSpace.Contains r →
        ∀ job ∈ (schedule r).localJobs, Fits job := by
      intro r hr
      have htotal := hlocal r hr
      rw [(hclass r hr).localElements_eq] at htotal
      rw [(hclass r hr).localJobs_eq]
      exact fits_of_total htotal
    obtain ⟨packed, hpacked⟩ := phaseGate_returns fun r hr => (hpack r hr).1 (hfits r hr)
    have hhas := fun r hr => (hpack r hr).2 _ (phaseGate_eq_ok hpacked r hr)
    obtain ⟨received, hreceived⟩ := phaseGate_returns fun r hr =>
      (receive_spec hclass hhas hmatch hr).imp fun _ h => h.1
    have hhas' : ∀ r, inputs.distribution.rankSpace.Contains r →
        HasReceived inputs source (schedule r) r (received r) := by
      intro r hr
      obtain ⟨party, hparty, hspec⟩ := receive_spec hclass hhas hmatch hr
      obtain rfl := Except.ok.inj (hparty.symm.trans (phaseGate_eq_ok hreceived r hr))
      exact hspec
    rw [execute, hpacked, ok_bind, hreceived, ok_bind]
    exact phaseGate_returns fun r hr =>
      ⟨_, (publish_eq_ok (hcreated r hr) (hclass r hr) (hhas' r hr) (hmatch r hr)).mpr
        ⟨hfits r hr, rfl⟩⟩
  · simp only [execute, bind_eq_ok] at h
    obtain ⟨packed, hpacked, received, hreceived, hpublished⟩ := h
    intro r hr
    have hhas := fun r hr => (hpack r hr).2 _ (phaseGate_eq_ok hpacked r hr)
    obtain ⟨party, hparty, hspec⟩ := receive_spec hclass hhas hmatch hr
    obtain rfl := Except.ok.inj (hparty.symm.trans (phaseGate_eq_ok hreceived r hr))
    obtain ⟨_, hresult⟩ := (publish_eq_ok (hcreated r hr) (hclass r hr) hspec (hmatch r hr)).mp
      (phaseGate_eq_ok hpublished r hr)
    rw [hresult]
    refine ⟨hspec.prepared, publishWrites (execution r).unpack (schedule r) (received r), ?_,
      publishWrites_delivers (hcreated r hr) (hclass r hr) hspec⟩
    rw [hspec.fields_eq]

end World

/-! ## Stored cells -/

/-- The stored box of a patch of the layout is the patch with its ghost cells. -/
lemma grownBox_eq {rank : Index d} {fields : MultiFab d V} (hmatch : Matches inputs rank fields)
    {n : ℕ} (hne : ¬ (patch inputs n).Empty) :
    fields.grownBox n = grown (patch inputs n) inputs.ghosts := by
  rw [MultiFab.grownBox, hmatch.layout_eq, hmatch.ghosts_eq]
  exact if_neg hne

section Stored

variable {rank r : Index d} {budget : HaloScheduleBudget} {schedule : HaloSchedule d}
  (hc : Created inputs rank budget schedule) {fields : MultiFab d V}
  (hmatch : Matches inputs r fields) {job : HaloJob d} (hjob : job ∈ jobsOf inputs) {i : Index d}
  (hi : i ∈ job.destinationRegion.cells) {c : ℤ} (h0 : 0 ≤ c) (hlt : c < inputs.ncomp)

include hc hjob in
/-- A canonical job keeps its facts. -/
lemma ready_of_mem : JobReady inputs job := by
  refine jobReady_of_created hc ?_
  have hzero : eraseOffset job = job := HaloJob.ext rfl rfl rfl rfl (mem_jobsOf hjob).2.2.1.symm rfl
  rwa [hzero]

include hc hmatch hjob hi h0 hlt in
/-- The receiver of a job stores its ghost cells. -/
lemma holds_destination (hr : receiver inputs job = r) :
    fields.Holds job.destinationBox i c := by
  have hready := ready_of_mem hc hjob
  have hmem := patch_mem hready.destination_lt
  have hne := ((BoxArray.disjointWithin_iff.mp hc.disjointWithin).1 _ hmem).1
  refine ⟨by rw [hmatch.layout_eq]; exact hready.destination_lt, .inr ?_, ?_, h0, ?_⟩
  · rw [hmatch.distribution_eq, hmatch.localRank_eq]
    exact hr
  · rw [grownBox_eq hmatch hne]
    exact hready.destination_mem i hi
  · rwa [hmatch.ncomp_eq]

include hc hmatch hjob hi h0 hlt in
/-- The sender of a job stores its source cells. -/
lemma holds_source (hr : sender inputs job = r) :
    fields.Holds job.sourceBox (i + job.sourceFromDestination) c := by
  have hready := ready_of_mem hc hjob
  have hmem := patch_mem hready.source_lt
  have hne := ((BoxArray.disjointWithin_iff.mp hc.disjointWithin).1 _ hmem).1
  refine ⟨by rw [hmatch.layout_eq]; exact hready.source_lt, .inr ?_, ?_, h0, ?_⟩
  · rw [hmatch.distribution_eq, hmatch.localRank_eq]
    exact hr
  · rw [grownBox_eq hmatch hne, Box.mem_cells]
    intro a
    have hcell := Box.mem_cells.mp (hready.source_mem i hi) a
    have hghost := hc.ghosts_nonneg a
    simp only [grown]
    omega
  · rwa [hmatch.ncomp_eq]

end Stored

/-- Delivered writes set the ghost cells of the jobs to their source values and leave every other
stored cell unchanged. -/
lemma Delivers.values {rank : Index d} {budget : HaloScheduleBudget} {schedule : HaloSchedule d}
    (hc : Created inputs rank budget schedule) {source : Index d → MultiFab d V} {r : Index d}
    {ws : List ((ℕ × ℤ) × V)} (h : Delivers inputs source r ws)
    (hmatch : Matches inputs r (source r)) :
    (∀ job ∈ jobsOf inputs, receiver inputs job = r → ∀ i ∈ job.destinationRegion.cells, ∀ c,
      0 ≤ c → c < inputs.ncomp →
        ((source r).setData (Store.writes (source r).data ws)).value job.destinationBox i c =
          (source (sender inputs job)).value job.sourceBox (i + job.sourceFromDestination) c) ∧
    (∀ n i c, (source r).Holds n i c → (∀ job ∈ jobsOf inputs, ¬ Fills n i job) →
      ((source r).setData (Store.writes (source r).data ws)).value n i c =
        (source r).value n i c) := by
  refine ⟨fun job hjob hr i hi c h0 hlt => ?_, fun n i c hheld hnone => ?_⟩
  · refine Store.writes_of_mem _ (h.complete job hjob hr i hi c h0 hlt) fun w hw haddress => ?_
    obtain ⟨job', hjob', hr', i', hi', c', h0', hlt', rfl⟩ := h.sound w hw
    -- another write to the same element comes from the same job, cell and component
    obtain ⟨hbox, rfl, rfl⟩ := MultiFab.address_injective
      (holds_destination hc hmatch hjob' hi' h0' hlt' hr')
      (holds_destination hc hmatch hjob hi h0 hlt hr) haddress
    obtain rfl := eq_of_fills hc.disjointWithin hjob' hjob ⟨hbox, hi'⟩ ⟨rfl, hi⟩
    rfl
  · refine Store.writes_of_notMem _ fun w hw haddress => ?_
    obtain ⟨job, hjob, hr, i', hi', c', h0', hlt', rfl⟩ := h.sound w hw
    obtain ⟨hbox, rfl, rfl⟩ := MultiFab.address_injective
      (holds_destination hc hmatch hjob hi' h0' hlt' hr) hheld haddress
    exact hnone job hjob ⟨hbox, hi'⟩

end HaloExchange

open HaloSchedule HaloExchange in
/-- **Halo exchange across ranks equals the global ghost fill.**  For every partitioned layout and
schedules that all ranks built from the same inputs:

* the send plan of `p` towards `q` and the receive plan of `q` from `p` exist together and hold
  the same jobs in the same order with the same offsets and elements;
* every canonical job is a local job of exactly one rank, or occurs in exactly one send plan and
  one receive plan;
* one exchange on all ranks, with prepared transports whose buffers hold anything and storage that
  the schedules accept, sets each ghost cell of every job to the value that its source cell had
  before, for every component, and leaves every other stored cell unchanged; the transports are
  prepared for the next exchange.  It returns whenever the local jobs of every rank fit the
  execution index.

**Proof sketch.** All ranks classify the same canonical jobs, so both ends of a pair group the
same list (`find_send_eq_find_receive`).  A packed buffer holds the source values at the offsets of
its plan (`packed_of_placed`), the receiving rank finds that buffer under the same plan
(`receive_spec`), and its writes are exactly those of the canonical jobs it receives
(`publishWrites_delivers`).  No cell is filled by two jobs (`eq_of_fills`), so the writes agree. -/
theorem haloExchange_fills_ghosts {d : ℕ} {inputs : HaloInputs d}
    {budget : Index d → HaloScheduleBudget} {schedule : Index d → HaloSchedule d}
    (hpart : ¬ inputs.distribution.Replicated)
    (hcreate : ∀ r, inputs.distribution.rankSpace.Contains r →
      HaloSchedule.create inputs r (budget r) = .ok (schedule r)) :
    (∀ p q, inputs.distribution.rankSpace.Contains p → inputs.distribution.rankSpace.Contains q →
      p ≠ q → ((schedule p).send.map HaloPeerPlan.peer).Nodup ∧
        ((schedule q).receive.map HaloPeerPlan.peer).Nodup ∧
        (Grouping.find HaloPeerPlan.peer (schedule p).send q).map payload =
          (Grouping.find HaloPeerPlan.peer (schedule q).receive p).map payload) ∧
    (∀ r, inputs.distribution.rankSpace.Contains r → ∀ job ∈ (schedule r).canonicalJobs,
      Routing.LocalOnce inputs.distribution.rankSpace.Contains
          (fun r => (schedule r).localJobs.map eraseOffset) (fun r => (schedule r).send)
          (fun r => (schedule r).receive) planJobs job ∨
        Routing.SentOnce inputs.distribution.rankSpace.Contains
          (fun r => (schedule r).localJobs.map eraseOffset) (fun r => (schedule r).send)
          (fun r => (schedule r).receive) planJobs HaloPeerPlan.peer (sender inputs job)
          (receiver inputs job) job) ∧
    (∀ (V : Type) (execution : Index d → ExecutionSpace d) (world : Index d → HaloParty d V),
      (∀ r, inputs.distribution.rankSpace.Contains r →
        Prepared (schedule r) (world r).exchange ∧
          authenticate (schedule r) (world r).fields = .ok ()) →
      ((∀ r, inputs.distribution.rankSpace.Contains r →
          ((schedule r).localElements : ℤ) ≤ int64Max) →
        Returns (execute inputs.distribution.rankSpace execution world)) ∧
      ∀ world', execute inputs.distribution.rankSpace execution world = .ok world' →
        ∀ r, inputs.distribution.rankSpace.Contains r →
          Prepared (schedule r) (world' r).exchange ∧
          (∀ job ∈ (schedule r).canonicalJobs, receiver inputs job = r →
            ∀ i ∈ job.destinationRegion.cells, ∀ c, 0 ≤ c → c < inputs.ncomp →
              (world r).fields.Holds job.destinationBox i c ∧
              (world (sender inputs job)).fields.Holds job.sourceBox
                (i + job.sourceFromDestination) c ∧
              (world' r).fields.value job.destinationBox i c =
                (world (sender inputs job)).fields.value job.sourceBox
                  (i + job.sourceFromDestination) c) ∧
          (∀ n i c, (world r).fields.Holds n i c →
            (∀ job ∈ (schedule r).canonicalJobs, ¬ Fills n i job) →
              (world' r).fields.value n i c = (world r).fields.value n i c)) := by
  have hcreated := fun r hr => create_inv (hcreate r hr)
  have hclass := fun r hr => create_classified hpart (hcreate r hr)
  have howner : ∀ r, inputs.distribution.rankSpace.Contains r → ∀ n < inputs.layout.boxes.length,
      inputs.distribution.rankSpace.Contains (inputs.distribution.ownerOf n) := by
    intro r hr n hn
    rw [← (hcreated r hr).layout_eq] at hn
    exact Distribution.contains_ownerOf hpart hn
  refine ⟨fun p q hp hq hne => ⟨(hclass p hp).sorted.send.nodup, (hclass q hq).sorted.receive.nodup,
    find_send_eq_find_receive hne (hclass p hp) (hclass q hq)⟩, fun r hr job hjob => ?_, ?_⟩
  · rw [(hcreated r hr).canonicalJobs_eq] at hjob
    obtain ⟨hsrc, hdst, _⟩ := mem_jobsOf hjob
    exact job_once hclass (nodup_jobsOf (hcreated r hr).disjointWithin (hcreated r hr).sound) hjob
      (howner r hr _ hsrc) (howner r hr _ hdst)
  · intro V execution world hworld
    have hmatch : ∀ r, inputs.distribution.rankSpace.Contains r →
        Matches inputs r (world r).fields := by
      intro r hr
      have hauth := authenticate_eq_ok.mp (hworld r hr).2
      rwa [(hclass r hr).inputs_eq, (hclass r hr).localRank_eq] at hauth
    obtain ⟨hreturns, hspec⟩ := execute_spec hcreated hclass
      (fun r hr => (hworld r hr).1) hmatch
    refine ⟨hreturns, fun world' h r hr => ?_⟩
    obtain ⟨hprep, ws, hfields, hdelivers⟩ := hspec world' h r hr
    obtain ⟨hfilled, hkept⟩ := hdelivers.values (hcreated r hr) (hmatch r hr)
    rw [(hcreated r hr).canonicalJobs_eq, hfields]
    refine ⟨hprep, fun job hjob hreceiver i hi c h0 hlt => ?_, hkept⟩
    have hsender := howner r hr _ (mem_jobsOf hjob).1
    exact ⟨holds_destination (hcreated r hr) (hmatch r hr) hjob hi h0 hlt hreceiver,
      holds_source (hcreated r hr) (hmatch _ hsender) hjob hi h0 hlt rfl,
      hfilled job hjob hreceiver i hi c h0 hlt⟩

/-- The schedule of a rank of the periodic line. -/
def HaloSchedule.line (r : Index 1) : HaloSchedule 1 :=
  (HaloSchedule.create HaloInputs.line r HaloScheduleBudget.line).toOption.getD
    (HaloSchedule.start HaloInputs.line r)

/-- Launches that run their iterations in ascending order. -/
def Launches.ascending (d : ℕ) :
    Launches d := ⟨fun job => List.range job.elements, fun _ => .refl _⟩

/-- A rank of the periodic line: a fresh transport, and storage in which patch `n` holds the
value `n` everywhere. -/
def HaloParty.line (r : Index 1) : HaloParty 1 ℕ where
  exchange := (HaloExchange.create 0 (HaloSchedule.line r)).toOption.getD
    ⟨HaloSchedule.line r, [], ⟨0, fun _ => 0⟩⟩
  fields := {
    layout := BoxArray.line
    distribution := Distribution.line
    localRank := r
    ncomp := 2
    ghosts := fun _ => 5
    data := fun address => address.1 }

open HaloExchange in
/-- On the periodic line one exchange fills the ghost cell `-5` of the patch `[0, 1]` on rank `0`
from the patch `[2, 3]` on rank `1`. -/
theorem haloExchange_line :
    ∃ world, execute RankSpace.line (fun _ => ⟨Launches.ascending 1, Launches.ascending 1⟩)
        HaloParty.line = .ok world ∧
      (world fun _ => 0).fields.value 0 (fun _ => -5) 1 = 1 := by
  have hranks : ∀ r : Index 1, RankSpace.line.Contains r → r = (fun _ => 0) ∨ r = fun _ => 1 := by
    intro r hr
    have h0 := hr.2 0
    simp only [RankSpace.line] at h0
    have hcases : r 0 = 0 ∨ r 0 = 1 := by omega
    refine hcases.imp (fun h => ?_) fun h => ?_ <;>
      exact funext fun a => (congrArg r (Subsingleton.elim a 0)).trans h
  have hschedule : ∀ r, RankSpace.line.Contains r →
      HaloSchedule.create HaloInputs.line r HaloScheduleBudget.line =
        .ok (HaloSchedule.line r) := by
    intro r hr
    have hreturns : Returns (HaloSchedule.create HaloInputs.line r HaloScheduleBudget.line) := by
      rcases hranks r hr with rfl | rfl
      · exact haloSchedule_line_returns 0
      · exact haloSchedule_line_returns 1
    obtain ⟨schedule, h⟩ := hreturns
    rw [HaloSchedule.line, h]
    rfl
  have hprepared : ∀ r, RankSpace.line.Contains r →
      Prepared (HaloSchedule.line r) (HaloParty.line r).exchange := by
    intro r hr
    have hok : (HaloExchange.create 0 (HaloSchedule.line r)).isOk = true := by
      rcases hranks r hr with rfl | rfl <;> decide +kernel
    refine create_prepared
      (show HaloExchange.create 0 (HaloSchedule.line r) = .ok (HaloParty.line r).exchange from ?_)
    rw [HaloParty.line]
    cases hc : HaloExchange.create 0 (HaloSchedule.line r) with
    | ok exchange => rfl
    | error e => rw [hc] at hok; exact absurd hok (by simp [Except.isOk, Except.toBool])
  have hexchange := (haloExchange_fills_ghosts
    (show ¬ HaloInputs.line.distribution.Replicated by decide) hschedule).2.2 ℕ
    (fun _ => ⟨Launches.ascending 1, Launches.ascending 1⟩) HaloParty.line fun r hr =>
      ⟨hprepared r hr, by rcases hranks r hr with rfl | rfl <;> decide +kernel⟩
  obtain ⟨world, hworld⟩ := hexchange.1 fun r hr => by
    rcases hranks r hr with rfl | rfl <;> decide +kernel
  refine ⟨world, hworld, ?_⟩
  have hjob : ∃ job ∈ (HaloSchedule.line fun _ => 0).canonicalJobs,
      HaloSchedule.receiver HaloInputs.line job = (fun _ => 0) ∧ job.destinationBox = 0 ∧
        job.sourceBox = 1 ∧ job.destinationRegion.Contains fun _ => -5 := by decide +kernel
  obtain ⟨job, hmem, hreceiver, hdestination, hsource, hcell⟩ := hjob
  have hvalue := ((hexchange.2 world hworld (fun _ => 0) (by decide)).2.1 job hmem hreceiver
    (fun _ => -5) (Box.contains_iff.mp hcell) 1 (by decide) (by decide)).2.2
  rw [hdestination, hsource] at hvalue
  exact hvalue

end Pops
