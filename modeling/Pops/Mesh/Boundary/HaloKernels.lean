import Pops.Mesh.Boundary.HaloExchange

/-!
# The kernels of a halo exchange

Packing and unpacking enumerate the cells and the components of a job by the same mixed-radix
digits.  A canonical job is lowered without loss, a list of jobs laid out one after another is
packed without overlaps, and unpacking writes each cell and component of its regions.

## Main definitions

* `Pops.HaloExchange.JobReady` — what every canonical job guarantees.
* `Pops.HaloExchange.site` — the cell and the component of an iteration.
* `Pops.HaloExchange.Packed` — a buffer that holds the source values of its jobs.

## Main results

* `Pops.HaloExchange.packJobs_eq_ok`, `unpackJobs_eq_ok` — when a list of jobs is packed or
  unpacked, and with which result.
* `Pops.HaloExchange.packed_of_placed` — a packed layout holds the source values.
-/

namespace Pops

namespace HaloExchange

open HaloSchedule

variable {d : ℕ} {V : Type} {inputs : HaloInputs d}

/-! ## Canonical jobs -/

/-- The patch with the given index. -/
def patch (inputs : HaloInputs d) (n : ℕ) : Box d := inputs.layout.boxes.getD n ⟨0, 0⟩

/-- The patch found under an index. -/
lemma patch_eq {n : ℕ} {b : Box d} (h : inputs.layout.boxes[n]? = some b) :
    patch inputs n = b := by
  rw [patch, List.getD_eq_getElem?_getD, h, Option.getD_some]

/-- The patch of a valid index is a patch of the layout. -/
lemma patch_mem {n : ℕ} (h : n < inputs.layout.boxes.length) :
    patch inputs n ∈ inputs.layout.boxes := by
  rw [patch, List.getD_eq_getElem _ _ h]
  exact List.getElem_mem _

/-- What every canonical job guarantees, wherever it was laid out. -/
structure JobReady (inputs : HaloInputs d) (job : HaloJob d) : Prop where
  nonempty : ¬ job.destinationRegion.Empty
  elements_eq : job.elements = job.destinationRegion.cells.card * inputs.ncomp.toNat
  source_lt : job.sourceBox < inputs.layout.boxes.length
  destination_lt : job.destinationBox < inputs.layout.boxes.length
  destination_mem : ∀ i ∈ job.destinationRegion.cells,
    i ∈ (grown (patch inputs job.destinationBox) inputs.ghosts).cells
  destination_isInt : job.destinationRegion.IsInt
  source_mem : ∀ i ∈ job.destinationRegion.cells,
    i + job.sourceFromDestination ∈ (patch inputs job.sourceBox).cells

/-- Every canonical job is ready. -/
lemma jobReady_of_created {rank : Index d} {budget : HaloScheduleBudget}
    {schedule : HaloSchedule d} (hc : Created inputs rank budget schedule) {job : HaloJob d}
    (h : eraseOffset job ∈ jobsOf inputs) : JobReady inputs job := by
  obtain ⟨hsrc, hdst, _, helements⟩ := mem_jobsOf h
  obtain ⟨hsub, _⟩ := BoxArray.disjointWithin_iff.mp hc.disjointWithin
  have hboth : ∀ i ∈ job.destinationRegion.cells,
      i ∈ (grown (patch inputs job.destinationBox) inputs.ghosts).cells ∧
        i + job.sourceFromDestination ∈ (patch inputs job.sourceBox).cells := by
    intro i hi
    obtain ⟨D, image, S, k, hround, hfilled, hbox, hvector⟩ := exists_round_of_fills h ⟨rfl, hi⟩
    obtain ⟨hD, _, hS⟩ := mem_rounds.mp hround
    obtain rfl : job.sourceBox = k := hbox
    have hv : job.sourceFromDestination = imageVector inputs image := hvector
    have hpD : patch inputs job.destinationBox = D := patch_eq hD
    have hpS : patch inputs job.sourceBox = S := patch_eq hS
    rw [hpD, hpS, hv]
    exact ⟨hfilled.2.1, hfilled.2.2.2⟩
  have hne := (hc.sound _ h).nonempty
  have hmem : patch inputs job.destinationBox ∈ inputs.layout.boxes := patch_mem hdst
  have hgrown := (grow_eq_ok (hsub _ hmem).1 (inputs.layout.isInt _ hmem)
    (hc.grow_eq _ hmem)).2
  exact ⟨hne, helements, hsrc, hdst, fun i hi => (hboth i hi).1,
    hgrown.subset hne fun i hi => (hboth i hi).1, fun i hi => (hboth i hi).2⟩

/-! ## Lowering -/

/-- The lowered job, without the checks. -/
def lowered (ncomp : ℤ) (job : HaloJob d) : KernelJob d where
  destinationLower := job.destinationRegion.lo
  destinationExtent axis := (job.destinationRegion.length axis).toNat
  sourceTranslation := job.sourceFromDestination
  componentCount := ncomp
  cellsPerComponent := job.elements / ncomp.toNat
  offset := job.offset
  elements := job.elements

/-- The job ends in the range of the execution index. -/
def Fits (job : HaloJob d) : Prop := ((job.offset + job.elements : ℕ) : ℤ) ≤ int64Max

/-- The cell and the component of an iteration. -/
def site (ncomp : ℤ) (job : HaloJob d) (element : ℕ) : Index d × ℤ :=
  (coordinate (lowered ncomp job) element, (element / (job.elements / ncomp.toNat) : ℕ))

section Job

variable {job : HaloJob d} (hready : JobReady inputs job) (hncomp : 1 ≤ inputs.ncomp)

include hready in
/-- A job has cells. -/
lemma card_pos : 0 < job.destinationRegion.cells.card :=
  Finset.card_pos.mpr ⟨_, Box.lo_mem_cells hready.nonempty⟩

include hready hncomp in
/-- Every component of a job has all cells of its region. -/
lemma cellsPerComponent_eq :
    job.elements / inputs.ncomp.toNat = job.destinationRegion.cells.card := by
  rw [hready.elements_eq]
  exact Nat.mul_div_cancel _ (by omega)

include hready hncomp in
/-- A ready job is lowered exactly when it fits. -/
lemma lowerJob_eq_ok {k : KernelJob d} :
    lowerJob inputs.ncomp job = .ok k ↔ Fits job ∧ k = lowered inputs.ncomp job := by
  have hpos : 0 < job.elements := by
    rw [hready.elements_eq]
    exact Nat.mul_pos (card_pos hready) (by omega)
  have hmod : job.elements % inputs.ncomp.toNat = 0 := by
    rw [hready.elements_eq]
    exact Nat.mul_mod_left _ _
  simp only [lowerJob, bind_eq_ok, throwIf_eq_ok, exists_const, forEachAxis_eq_ok, pure_eq_ok]
  refine ⟨fun h => ?_, fun h => ?_⟩
  · obtain ⟨hrange, extent, hextent, rfl⟩ := h
    refine ⟨?_, ?_⟩
    · unfold Fits
      push_cast
      omega
    · obtain rfl : extent = fun axis => (job.destinationRegion.length axis).toNat :=
        funext fun a => (hextent a).2.symm
      rfl
  · obtain ⟨hfits, rfl⟩ := h
    unfold Fits at hfits
    push_cast at hfits
    refine ⟨by omega, _, fun a => ⟨?_, rfl⟩, rfl⟩
    have := Box.length_pos hready.nonempty a
    omega

include hready hncomp in
/-- The site of an iteration is a cell of the region and a component. -/
lemma site_mem {e : ℕ} (he : e < job.elements) :
    (site inputs.ncomp job e).1 ∈ job.destinationRegion.cells ∧
      0 ≤ (site inputs.ncomp job e).2 ∧ (site inputs.ncomp job e).2 < inputs.ncomp := by
  refine ⟨Box.mem_cells.mpr fun a => ?_, Int.natCast_nonneg _, ?_⟩
  · have hlt := MixedRadix.unrank_lt
      (r := fun a => (job.destinationRegion.length a).toNat)
      (fun a => by have := Box.length_pos hready.nonempty a; omega)
      (e % (job.elements / inputs.ncomp.toNat)) a
    have hlen := Box.length_of_nonempty hready.nonempty a
    simp only [site, coordinate, lowered]
    omega
  · have hdiv : e / (job.elements / inputs.ncomp.toNat) < inputs.ncomp.toNat := by
      rw [cellsPerComponent_eq hready hncomp]
      apply Nat.div_lt_of_lt_mul
      rwa [hready.elements_eq] at he
    simp only [site]
    omega

include hready hncomp in
/-- Every cell of the region and every component is the site of an iteration. -/
lemma exists_site {i : Index d} (hi : i ∈ job.destinationRegion.cells) {c : ℤ} (h0 : 0 ≤ c)
    (hc : c < inputs.ncomp) : ∃ e < job.elements, site inputs.ncomp job e = (i, c) := by
  lift c to ℕ using h0
  set card := job.destinationRegion.cells.card with hcard
  have hdigits := Fab.digits_lt hi
  have hrank := MixedRadix.rank_lt hdigits
  have hprod : ∏ a, Fab.extents job.destinationRegion a = card :=
    (Box.card_cells_toNat hready.nonempty).symm
  rw [hprod] at hrank
  set q := MixedRadix.rank (Fab.extents job.destinationRegion)
    (Fab.digits job.destinationRegion i) with hq
  have hcell := cellsPerComponent_eq hready hncomp
  have hpos : 0 < card := card_pos hready
  refine ⟨card * c + q, ?_, ?_⟩
  · rw [hready.elements_eq]
    calc card * c + q < card * c + card := by omega
      _ = card * (c + 1) := by ring
      _ ≤ card * inputs.ncomp.toNat := Nat.mul_le_mul_left _ (by omega)
  · refine Prod.ext (funext fun a => ?_) ?_
    · simp only [site, coordinate, lowered, hcell, ← hcard, Nat.mul_add_mod, Nat.mod_eq_of_lt hrank]
      have hunrank := congrFun (MixedRadix.unrank_rank hdigits) a
      have hmem := Box.mem_cells.mp hi a
      rw [← hq] at hunrank
      show job.destinationRegion.lo a + MixedRadix.unrank (Fab.extents _) q a = i a
      rw [hunrank, Fab.digits, Int.toNat_of_nonneg (by omega)]
      omega
    · have hdiv : (card * c + q) / card = c := by
        rw [Nat.mul_add_div hpos, Nat.div_eq_of_lt hrank, Nat.add_zero]
      simp only [site, hcell, ← hcard, hdiv]

include hready hncomp in
/-- The component of an iteration is not changed by the narrowing. -/
lemma component_lowered {e : ℕ} (he : e < job.elements) :
    component (lowered inputs.ncomp job) e = (site inputs.ncomp job e).2 := by
  have hmem := (site_mem hready hncomp he).2
  have hmax := inputs.ncomp_isInt.2
  refine castInt_of_isInt ⟨?_, ?_⟩
  · exact le_trans (by decide) hmem.1
  · exact hmem.2.le.trans hmax

include hready hncomp in
/-- One iteration of the pack kernel reads the source of its site. -/
lemma packKernel_lowered (data : ℕ × ℤ → V) (view : FieldView d) {e : ℕ}
    (he : e < job.elements) :
    packKernel data view (lowered inputs.ncomp job) e =
      (job.offset + e, data (view.address
        ((site inputs.ncomp job e).1 + job.sourceFromDestination)
        (site inputs.ncomp job e).2)) := by
  have hsource := hready.source_mem _ (site_mem hready hncomp he).1
  have hpatch : (patch inputs job.sourceBox).IsInt :=
    inputs.layout.isInt _ (patch_mem hready.source_lt)
  have hindex : (fun axis => castInt (coordinate (lowered inputs.ncomp job) e axis +
      (lowered inputs.ncomp job).sourceTranslation axis)) =
        (site inputs.ncomp job e).1 + job.sourceFromDestination :=
    funext fun a => castInt_of_isInt (hpatch.mem hsource a)
  simp only [packKernel, hindex, component_lowered hready hncomp he]
  rfl

include hready hncomp in
/-- One iteration of the unpack kernel writes its site. -/
lemma unpackKernel_lowered (buffer : ℕ → V) (view : FieldView d) {e : ℕ}
    (he : e < job.elements) :
    unpackKernel buffer view (lowered inputs.ncomp job) e =
      (view.address (site inputs.ncomp job e).1 (site inputs.ncomp job e).2,
        buffer (job.offset + e)) := by
  have hindex : (fun axis => castInt (coordinate (lowered inputs.ncomp job) e axis)) =
      (site inputs.ncomp job e).1 :=
    funext fun a =>
      castInt_of_isInt (hready.destination_isInt.mem (site_mem hready hncomp he).1 a)
  simp only [unpackKernel, hindex, component_lowered hready hncomp he]
  rfl

end Job

/-! ## Packing and unpacking a list of jobs -/

/-- The storage of a rank belongs to the inputs. -/
structure Matches (inputs : HaloInputs d) (rank : Index d) (fields : MultiFab d V) : Prop where
  layout_eq : fields.layout = inputs.layout
  distribution_eq : fields.distribution = inputs.distribution
  localRank_eq : fields.localRank = rank
  ghosts_eq : fields.ghosts = inputs.ghosts
  ncomp_eq : fields.ncomp = inputs.ncomp

/-- The storage passes the check of a schedule exactly when it belongs to its inputs. -/
lemma authenticate_eq_ok {schedule : HaloSchedule d} {fields : MultiFab d V} {u : Unit} :
    authenticate schedule fields = .ok u ↔
      Matches schedule.inputs schedule.localRank fields := by
  rw [authenticate, throwIf_eq_ok]
  refine ⟨fun h => ?_, fun h => ?_⟩
  · simp only [not_or, not_not, ne_eq] at h
    exact ⟨h.1, h.2.1, h.2.2.1, h.2.2.2.1, h.2.2.2.2⟩
  · simp [h.layout_eq, h.distribution_eq, h.localRank_eq, h.ghosts_eq, h.ncomp_eq]

/-- A patch owned by the rank is found in its storage. -/
lemma fabGlobal_owned {rank : Index d} {fields : MultiFab d V}
    (hmatch : Matches inputs rank fields) {n : ℕ} (hn : n < inputs.layout.boxes.length)
    (howner : inputs.distribution.ownerOf n = rank) :
    fields.fabGlobal n = .ok (fields.view n) := by
  refine MultiFab.fabGlobal_eq_ok.mpr ⟨by rwa [hmatch.layout_eq], .inr ?_, rfl⟩
  rw [hmatch.distribution_eq, hmatch.localRank_eq]
  exact howner

/-- The writes of the pack kernel of a job. -/
def packWrites (launches : Launches d) (fields : MultiFab d V) (ncomp : ℤ) (job : HaloJob d) :
    List (ℕ × V) :=
  (launches.order job).map
    (packKernel fields.data (fields.view job.sourceBox) (lowered ncomp job))

/-- The writes of the unpack kernel of a job. -/
def unpackWrites (launches : Launches d) (fields : MultiFab d V) (ncomp : ℤ) (buffer : ℕ → V)
    (job : HaloJob d) : List ((ℕ × ℤ) × V) :=
  (launches.order job).map
    (unpackKernel buffer (fields.view job.destinationBox) (lowered ncomp job))

/-- The jobs of a list are ready, and `rank` has the ends that `owner` names. -/
def AllOwned (inputs : HaloInputs d) (owner : HaloJob d → Index d) (rank : Index d)
    (jobs : List (HaloJob d)) : Prop :=
  ∀ job ∈ jobs, JobReady inputs job ∧ owner job = rank

section Jobs

variable {rank : Index d} {fields : MultiFab d V} (hncomp : 1 ≤ inputs.ncomp)
  (hmatch : Matches inputs rank fields) {jobs : List (HaloJob d)}

include hncomp hmatch in
/-- **Packing**: a list of jobs whose sources are local is packed exactly when the buffer has the
right size and all jobs fit. -/
theorem packJobs_eq_ok (hjobs : AllOwned inputs (sender inputs) rank jobs)
    {launches : Launches d} {elements : ℕ} {buffer b : Buffer V} :
    packJobs launches fields inputs.ncomp jobs elements buffer = .ok b ↔
      (buffer.extent = elements ∧ ∀ job ∈ jobs, Fits job) ∧
      b = ⟨buffer.extent, Store.writes buffer.data
        (jobs.flatMap (packWrites launches fields inputs.ncomp))⟩ := by
  have hbody : ∀ job ∈ jobs, ∀ data : ℕ → V, True → ∀ data',
      packJob launches fields inputs.ncomp data job = .ok data' ↔
        Fits job ∧ data' = Store.writes data (packWrites launches fields inputs.ncomp job) := by
    intro job hjob data _ data'
    obtain ⟨hready, howner⟩ := hjobs job hjob
    rw [packJob, fabGlobal_owned hmatch hready.source_lt howner, ok_bind]
    simp only [bind_eq_ok, lowerJob_eq_ok hready hncomp, pure_eq_ok]
    refine ⟨fun h => ?_, fun h => ?_⟩
    · obtain ⟨_, ⟨hfits, rfl⟩, rfl⟩ := h
      exact ⟨hfits, rfl⟩
    · obtain ⟨hfits, rfl⟩ := h
      exact ⟨_, ⟨hfits, rfl⟩, rfl⟩
  simp only [packJobs, bind_eq_ok, throwIf_eq_ok, exists_const, not_not, ne_eq,
    foldlM_eq_ok_iff (fun _ _ _ => trivial) hbody trivial, Store.foldl_writes, pure_eq_ok]
  refine ⟨fun h => ?_, fun h => ?_⟩
  · obtain ⟨hextent, _, ⟨hfits, rfl⟩, rfl⟩ := h
    exact ⟨⟨hextent, hfits⟩, rfl⟩
  · obtain ⟨⟨hextent, hfits⟩, rfl⟩ := h
    exact ⟨hextent, _, ⟨hfits, rfl⟩, rfl⟩

include hncomp hmatch in
/-- **Unpacking**: a list of jobs whose destinations are local is unpacked exactly when the buffer
has the right size and all jobs fit. -/
theorem unpackJobs_eq_ok (hjobs : AllOwned inputs (receiver inputs) rank jobs)
    {launches : Launches d} {elements : ℕ} {buffer : Buffer V} {data : ℕ × ℤ → V}
    {r : MultiFab d V} :
    unpackJobs launches (fields.setData data) inputs.ncomp jobs elements buffer = .ok r ↔
      (buffer.extent = elements ∧ ∀ job ∈ jobs, Fits job) ∧
      r = fields.setData (Store.writes data
        (jobs.flatMap (unpackWrites launches fields inputs.ncomp buffer.data))) := by
  have hbody : ∀ job ∈ jobs, ∀ s : MultiFab d V, (∃ data, s = fields.setData data) →
      ∀ s', unpackJob launches inputs.ncomp buffer.data s job = .ok s' ↔ Fits job ∧
        s' = s.setData (Store.writes s.data
          (unpackWrites launches fields inputs.ncomp buffer.data job)) := by
    intro job hjob s hs s'
    obtain ⟨data, rfl⟩ := hs
    obtain ⟨hready, howner⟩ := hjobs job hjob
    have hmatch' : Matches inputs rank (fields.setData data) :=
      ⟨hmatch.layout_eq, hmatch.distribution_eq, hmatch.localRank_eq, hmatch.ghosts_eq,
        hmatch.ncomp_eq⟩
    rw [unpackJob, fabGlobal_owned hmatch' hready.destination_lt howner, ok_bind]
    simp only [bind_eq_ok, lowerJob_eq_ok hready hncomp, pure_eq_ok]
    refine ⟨fun h => ?_, fun h => ?_⟩
    · obtain ⟨_, ⟨hfits, rfl⟩, rfl⟩ := h
      exact ⟨hfits, rfl⟩
    · obtain ⟨hfits, rfl⟩ := h
      exact ⟨_, ⟨hfits, rfl⟩, rfl⟩
  have hfold : ∀ (l : List (HaloJob d)) (data : ℕ × ℤ → V),
      l.foldl (fun s job => s.setData (Store.writes s.data
        (unpackWrites launches fields inputs.ncomp buffer.data job))) (fields.setData data) =
      fields.setData (Store.writes data
        (l.flatMap (unpackWrites launches fields inputs.ncomp buffer.data))) := by
    intro l
    induction l with
    | nil => exact fun _ => rfl
    | cons job l ih =>
      intro data
      rw [List.foldl_cons, List.flatMap_cons, Store.writes_append]
      exact ih _
  rw [unpackJobs, bind_eq_ok]
  simp only [throwIf_eq_ok, exists_const, not_not, ne_eq]
  rw [foldlM_eq_ok_iff (I := fun s => ∃ data, s = fields.setData data) ?_ hbody ⟨data, rfl⟩, hfold]
  · tauto
  · intro s job hs
    obtain ⟨data, rfl⟩ := hs
    exact ⟨_, rfl⟩

end Jobs

/-- The buffer holds the source value of every iteration of its jobs. -/
def Packed (inputs : HaloInputs d) (source : Index d → MultiFab d V) (jobs : List (HaloJob d))
    (data : ℕ → V) : Prop :=
  ∀ job ∈ jobs, ∀ e < job.elements, data (job.offset + e) =
    (source (sender inputs job)).value job.sourceBox
      ((site inputs.ncomp job e).1 + job.sourceFromDestination) (site inputs.ncomp job e).2

/-- A launch runs every iteration. -/
lemma mem_order {launches : Launches d} {job : HaloJob d} {e : ℕ} :
    e ∈ launches.order job ↔ e < job.elements := by
  rw [(launches.perm job).mem_iff, List.mem_range]

/-- Jobs laid out one after another are packed without touching each other. -/
theorem packed_of_placed (hncomp : 1 ≤ inputs.ncomp) {rank : Index d} {fields : MultiFab d V}
    {source : Index d → MultiFab d V} (hsource : source rank = fields) {jobs : List (HaloJob d)}
    (hjobs : AllOwned inputs (sender inputs) rank (place jobs)) (launches : Launches d)
    (data : ℕ → V) :
    Packed inputs source (place jobs) (Store.writes data
      ((place jobs).flatMap (packWrites launches fields inputs.ncomp))) := by
  intro job hjob e he
  obtain ⟨hready, howner⟩ := hjobs job hjob
  rw [howner, hsource]
  refine Store.writes_of_mem data ⟨_, List.mem_flatMap.mpr ⟨job, hjob,
    List.mem_map.mpr ⟨e, mem_order.mpr he, rfl⟩⟩, ?_⟩ fun w hw hposition => ?_
  · rw [packKernel_lowered hready hncomp _ _ he]
  · obtain ⟨job', hjob', hw⟩ := List.mem_flatMap.mp hw
    obtain ⟨e', he', rfl⟩ := List.mem_map.mp hw
    rw [mem_order] at he'
    obtain ⟨hready', _⟩ := hjobs job' hjob'
    rw [packKernel_lowered hready' hncomp _ _ he'] at hposition ⊢
    obtain ⟨rfl, rfl⟩ := position_unique hjob' hjob he' he hposition
    rfl

end HaloExchange

end Pops
