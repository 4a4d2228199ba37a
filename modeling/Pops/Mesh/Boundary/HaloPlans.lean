import Pops.Mesh.Boundary.HaloCoverage

/-!
# What the ranks of a halo schedule store

Every rank classifies the same canonical jobs.  On a partitioned layout the send plan of one rank
towards another and the receive plan at the other end hold the same jobs at the same offsets,
although neither rank has seen the other's plan.

## Main definitions

* `Pops.HaloSchedule.place` — jobs laid out one after another in a buffer.
* `Pops.HaloSchedule.Classified` — what one rank stores after visiting some jobs.

## Main results

* `Pops.HaloSchedule.create_classified` — what the constructor stores on one rank.
* `Pops.HaloSchedule.nodup_jobsOf` — no canonical job occurs twice.
* `Pops.HaloSchedule.find_send_eq_find_receive` — the two ends of a pair of ranks agree.
* `Pops.HaloSchedule.job_once` — every canonical job is stored exactly once.
-/

namespace Pops

namespace HaloSchedule

variable {d : ℕ} {inputs : HaloInputs d}

/-! ## Buffer layout -/

/-- The number of elements of a list of jobs. -/
def totalElements (jobs : List (HaloJob d)) : ℕ := (jobs.map HaloJob.elements).sum

/-- The jobs laid out one after another from a base offset. -/
def placeFrom : (base : ℕ) → List (HaloJob d) → List (HaloJob d)
  | _, [] => []
  | base, job :: rest => { job with offset := base } :: placeFrom (base + job.elements) rest

/-- The jobs laid out from the start of a buffer. -/
def place (jobs : List (HaloJob d)) : List (HaloJob d) := placeFrom 0 jobs

/-- Forget where a job was laid out. -/
def eraseOffset (job : HaloJob d) : HaloJob d := { job with offset := 0 }

/-- One more job is laid out behind the others. -/
lemma placeFrom_append_singleton (base : ℕ) (jobs : List (HaloJob d)) (job : HaloJob d) :
    placeFrom base (jobs ++ [job]) =
      placeFrom base jobs ++ [{ job with offset := base + totalElements jobs }] := by
  induction jobs generalizing base with
  | nil => rfl
  | cons head jobs ih =>
    simp only [List.cons_append, placeFrom, ih, totalElements, List.map_cons, List.sum_cons,
      Nat.add_assoc]

/-- Forgetting the layout gives canonical jobs back. -/
lemma map_eraseOffset_placeFrom (base : ℕ) {jobs : List (HaloJob d)}
    (h : ∀ job ∈ jobs, job.offset = 0) : (placeFrom base jobs).map eraseOffset = jobs := by
  induction jobs generalizing base with
  | nil => rfl
  | cons job jobs ih =>
    have hjob : eraseOffset { job with offset := base } = job :=
      HaloJob.ext rfl rfl rfl rfl (h job (by simp)).symm rfl
    rw [placeFrom, List.map_cons, hjob, ih _ fun j hj => h j (by simp [hj])]

/-- A laid out job lies between the base and the end of the layout. -/
lemma offset_bounds {base : ℕ} {jobs : List (HaloJob d)} {job : HaloJob d}
    (h : job ∈ placeFrom base jobs) :
    base ≤ job.offset ∧ job.offset + job.elements ≤ base + totalElements jobs := by
  induction jobs generalizing base with
  | nil => simp [placeFrom] at h
  | cons head jobs ih =>
    simp only [totalElements, List.map_cons, List.sum_cons] at ih ⊢
    rcases List.mem_cons.mp h with rfl | h
    · simp only
      omega
    · have := ih h
      omega

/-- A position of the layout belongs to one element of one job. -/
lemma position_unique {base : ℕ} {jobs : List (HaloJob d)} {j k : HaloJob d} {e f : ℕ}
    (hj : j ∈ placeFrom base jobs) (hk : k ∈ placeFrom base jobs) (he : e < j.elements)
    (hf : f < k.elements) (h : j.offset + e = k.offset + f) : j = k ∧ e = f := by
  induction jobs generalizing base with
  | nil => simp [placeFrom] at hj
  | cons head jobs ih =>
    rw [placeFrom, List.mem_cons] at hj hk
    rcases hj with rfl | hj
    · rcases hk with rfl | hk
      · exact ⟨rfl, by omega⟩
      · have hb := offset_bounds hk
        simp only at he h
        omega
    · rcases hk with rfl | hk
      · have hb := offset_bounds hj
        simp only at hf h
        omega
      · exact ih hj hk

/-- The plan of a peer lays its jobs out one after another. -/
lemma build_peerPlan (peer : Index d) (jobs : List (HaloJob d)) :
    peerPlan.build peer jobs = ⟨peer, place jobs, totalElements jobs⟩ := by
  induction jobs using List.reverseRecOn with
  | nil => rfl
  | append_singleton jobs job ih =>
    have hplace : place (jobs ++ [job]) =
        place jobs ++ [{ job with offset := totalElements jobs }] := by
      rw [place, placeFrom_append_singleton, Nat.zero_add]
      rfl
    rw [Grouping.Collector.build_append_singleton, ih, hplace]
    simp [peerPlan, totalElements]

/-! ## Classification -/

/-- The rank that owns the source patch of a job. -/
def sender (inputs : HaloInputs d) (job : HaloJob d) : Index d :=
  inputs.distribution.ownerOf job.sourceBox

/-- The rank that owns the destination patch of a job. -/
def receiver (inputs : HaloInputs d) (job : HaloJob d) : Index d :=
  inputs.distribution.ownerOf job.destinationBox

/-- What a rank of a partitioned layout stores after visiting some jobs. -/
structure Classified (inputs : HaloInputs d) (rank : Index d) (visited : List (HaloJob d))
    (schedule : HaloSchedule d) : Prop where
  inputs_eq : schedule.inputs = inputs
  localRank_eq : schedule.localRank = rank
  localElements_eq : schedule.localElements =
    totalElements (Routing.pairItems (sender inputs) (receiver inputs) visited rank rank)
  localJobs_eq : schedule.localJobs =
    place (Routing.pairItems (sender inputs) (receiver inputs) visited rank rank)
  sorted : Routing.Sorted (sender inputs) (receiver inputs) peerPlan rank visited
    (Routing.pairItems (sender inputs) (receiver inputs) visited rank rank)
    schedule.send schedule.receive

/-- A schedule that differs from `s` in the plans and counters of one branch of `classify`. -/
lemma classify_cases {budget : HaloScheduleBudget} {s t : HaloSchedule d} {job : HaloJob d}
    (hpart : ¬ s.inputs.distribution.Replicated)
    (hrank : s.inputs.distribution.rankSpace.Contains s.localRank)
    (hsrc : job.sourceBox < s.inputs.distribution.layout.boxes.length)
    (hdst : job.destinationBox < s.inputs.distribution.layout.boxes.length)
    (h : classify budget s job = .ok t) :
    (sender s.inputs job = s.localRank ∧ receiver s.inputs job = s.localRank ∧
      t = { s with
        localJobs := s.localJobs ++ [{ job with offset := s.localElements }]
        localElements := s.localElements + job.elements }) ∨
    (sender s.inputs job = s.localRank ∧ receiver s.inputs job ≠ s.localRank ∧
      ∃ total, t = { s with
        send := peerPlan.append s.send (receiver s.inputs job) job
        sendElements := total }) ∨
    (sender s.inputs job ≠ s.localRank ∧ receiver s.inputs job = s.localRank ∧
      ∃ total, t = { s with
        receive := peerPlan.append s.receive (sender s.inputs job) job
        receiveElements := total }) ∨
    (sender s.inputs job ≠ s.localRank ∧ receiver s.inputs job ≠ s.localRank ∧ t = s) := by
  unfold classify at h
  rw [Distribution.isLocal_partitioned hpart hsrc hrank,
    Distribution.isLocal_partitioned hpart hdst hrank, Distribution.owner_partitioned hpart hsrc,
    Distribution.owner_partitioned hpart hdst] at h
  simp only [ok_bind, Bool.and_eq_true, decide_eq_true_eq] at h
  unfold sender receiver
  by_cases h1 : s.inputs.distribution.ownerOf job.sourceBox = s.localRank
  · by_cases h2 : s.inputs.distribution.ownerOf job.destinationBox = s.localRank
    · simp only [h1, h2, and_self, if_true, checkedAdd, bind_eq_ok, throwIf_eq_ok, exists_const,
        pure_eq_ok] at h
      obtain ⟨_, ⟨_, rfl⟩, rfl⟩ := h
      exact .inl ⟨h1, h2, rfl⟩
    · simp only [h1, h2, and_false, if_false, if_true, bind_eq_ok, pure_eq_ok] at h
      obtain ⟨_, _, _, _, _, _, _, _, total, _, rfl⟩ := h
      exact .inr (.inl ⟨h1, h2, total, rfl⟩)
  · by_cases h2 : s.inputs.distribution.ownerOf job.destinationBox = s.localRank
    · simp only [h1, h2, false_and, if_false, if_true, bind_eq_ok, pure_eq_ok] at h
      obtain ⟨_, _, _, _, _, _, _, _, total, _, rfl⟩ := h
      exact .inr (.inr (.inl ⟨h1, h2, total, rfl⟩))
    · simp only [h1, h2, false_and, if_false, bind_eq_ok, pure_eq_ok] at h
      obtain ⟨_, _, rfl⟩ := h
      exact .inr (.inr (.inr ⟨h1, h2, rfl⟩))

/-- The items a rank keeps after one more job. -/
lemma pairItems_append {visited : List (HaloJob d)} {job : HaloJob d} {p q : Index d} :
    Routing.pairItems (sender inputs) (receiver inputs) (visited ++ [job]) p q =
      if sender inputs job = p ∧ receiver inputs job = q then
        Routing.pairItems (sender inputs) (receiver inputs) visited p q ++ [job]
      else Routing.pairItems (sender inputs) (receiver inputs) visited p q := by
  unfold Routing.pairItems
  rw [List.filter_append]
  by_cases h : sender inputs job = p ∧ receiver inputs job = q
  · simp [h]
  · simp [h]

/-- Classifying one more job. -/
theorem Classified.step {budget : HaloScheduleBudget} {rank : Index d}
    {visited : List (HaloJob d)} {s t : HaloSchedule d} {job : HaloJob d}
    (hinv : Classified inputs rank visited s) (hpart : ¬ inputs.distribution.Replicated)
    (hrank : inputs.distribution.rankSpace.Contains rank)
    (hsrc : job.sourceBox < inputs.distribution.layout.boxes.length)
    (hdst : job.destinationBox < inputs.distribution.layout.boxes.length)
    (h : classify budget s job = .ok t) : Classified inputs rank (visited ++ [job]) t := by
  obtain ⟨rfl, rfl, helements, hjobs, hsorted⟩ := hinv
  rcases classify_cases hpart hrank hsrc hdst h with ⟨h1, h2, rfl⟩ | ⟨h1, h2, total, rfl⟩ |
    ⟨h1, h2, total, rfl⟩ | ⟨h1, h2, rfl⟩
  · have hpair : Routing.pairItems (sender s.inputs) (receiver s.inputs) (visited ++ [job])
        s.localRank s.localRank = _ := pairItems_append.trans (if_pos ⟨h1, h2⟩)
    refine ⟨rfl, rfl, ?_, ?_, ?_⟩
    · rw [hpair]
      simp [helements, totalElements]
    · rw [hpair, place, placeFrom_append_singleton, ← place, ← hjobs, Nat.zero_add, ← helements]
    · rw [hpair]
      exact hsorted.keep h1 h2
  · have hpair : Routing.pairItems (sender s.inputs) (receiver s.inputs) (visited ++ [job])
        s.localRank s.localRank = _ := pairItems_append.trans (if_neg fun h => h2 h.2)
    refine ⟨rfl, rfl, by rw [hpair]; exact helements, by rw [hpair]; exact hjobs, ?_⟩
    rw [hpair]
    exact hsorted.sent h1 h2
  · have hpair : Routing.pairItems (sender s.inputs) (receiver s.inputs) (visited ++ [job])
        s.localRank s.localRank = _ := pairItems_append.trans (if_neg fun h => h1 h.1)
    refine ⟨rfl, rfl, by rw [hpair]; exact helements, by rw [hpair]; exact hjobs, ?_⟩
    rw [hpair]
    exact hsorted.received h1 h2
  · have hpair : Routing.pairItems (sender t.inputs) (receiver t.inputs) (visited ++ [job])
        t.localRank t.localRank = _ := pairItems_append.trans (if_neg fun h => h1 h.1)
    refine ⟨rfl, rfl, by rw [hpair]; exact helements, by rw [hpair]; exact hjobs, ?_⟩
    rw [hpair]
    exact hsorted.ignored h1 h2

/-! ## The stored plans -/

/-- The patches of a canonical job exist, and its layout offset is zero. -/
lemma mem_jobsOf {job : HaloJob d} (h : job ∈ jobsOf inputs) :
    job.sourceBox < inputs.layout.boxes.length ∧
      job.destinationBox < inputs.layout.boxes.length ∧ job.offset = 0 ∧
      job.elements = job.destinationRegion.cells.card * inputs.ncomp.toNat := by
  rw [jobsOf, List.mem_flatMap] at h
  obtain ⟨⟨⟨D, n⟩, i, S, k⟩, hround, hjob⟩ := h
  obtain ⟨hD, _, hS⟩ := mem_rounds.mp hround
  obtain ⟨hn, _⟩ := List.getElem?_eq_some_iff.mp hD
  obtain ⟨hk, _⟩ := List.getElem?_eq_some_iff.mp hS
  simp only [roundJobs, sourceJobs] at hjob
  split_ifs at hjob with hempty
  · simp at hjob
  · obtain ⟨region, _, rfl⟩ := List.mem_map.mp hjob
    exact ⟨hk, hn, rfl, rfl⟩

/-- Two canonical jobs that fill the same cell of the same patch are the same job. -/
lemma eq_of_fills (hwithin : inputs.layout.DisjointWithin inputs.domain) {j k : HaloJob d}
    (hj : j ∈ jobsOf inputs) (hk : k ∈ jobsOf inputs) {n : ℕ} {g : Index d} (hjf : Fills n g j)
    (hkf : Fills n g k) : j = k := by
  have hle := countP_fills_le_one hwithin n g
  rw [List.countP_eq_length_filter] at hle
  have hmem : ∀ {job : HaloJob d}, job ∈ jobsOf inputs → Fills n g job →
      job ∈ (jobsOf inputs).filter fun job => Fills n g job :=
    fun hjob hf => List.mem_filter.mpr ⟨hjob, decide_eq_true hf⟩
  obtain ⟨job, hsingle⟩ := List.length_eq_one_iff.mp
    (le_antisymm hle (List.length_pos_of_mem (hmem hj hjf)))
  have h1 := hmem hj hjf
  have h2 := hmem hk hkf
  rw [hsingle, List.mem_singleton] at h1 h2
  rw [h1, h2]

/-- No canonical job occurs twice: it would fill its cells twice. -/
theorem nodup_jobsOf (hwithin : inputs.layout.DisjointWithin inputs.domain)
    (hsound : ∀ job ∈ jobsOf inputs, JobSound inputs job) : (jobsOf inputs).Nodup := by
  rw [List.nodup_iff_count_le_one]
  intro job
  by_cases hjob : job ∈ jobsOf inputs
  · have hcell := Box.lo_mem_cells (hsound job hjob).nonempty
    refine le_trans ?_ (countP_fills_le_one hwithin job.destinationBox job.destinationRegion.lo)
    refine List.countP_mono_left fun k _ hk => ?_
    rw [eq_of_beq hk]
    exact decide_eq_true ⟨rfl, hcell⟩
  · rw [List.count_eq_zero_of_not_mem hjob]
    exact Nat.zero_le _

/-- What the constructor stores on a rank of a partitioned layout. -/
theorem create_classified {rank : Index d} {budget : HaloScheduleBudget}
    {schedule : HaloSchedule d} (hpart : ¬ inputs.distribution.Replicated)
    (h : create inputs rank budget = .ok schedule) :
    Classified inputs rank (jobsOf inputs) schedule := by
  have hc := create_inv h
  obtain ⟨pre, hpre, rfl⟩ := hc.classified
  have hclass : Classified inputs rank (jobsOf inputs) pre := by
    refine foldlM_invariant (P := Classified inputs rank) hpre
      ⟨rfl, rfl, rfl, rfl, Routing.Sorted.nil⟩ ?_
    intro done job rest s s' heq hinv hstep
    have hjob : job ∈ jobsOf inputs := by rw [heq]; simp
    obtain ⟨hsrc, hdst, _⟩ := mem_jobsOf hjob
    rw [← hc.layout_eq] at hsrc hdst
    exact hinv.step hpart hc.contains_rank hsrc hdst hstep
  -- sorting the plans permutes them, which the grouping does not see
  refine ⟨hclass.inputs_eq, hclass.localRank_eq, hclass.localElements_eq, hclass.localJobs_eq,
    hclass.sorted.kept_eq, hclass.sorted.send.perm (List.mergeSort_perm _ _).symm,
    hclass.sorted.receive.perm (List.mergeSort_perm _ _).symm⟩

/-- The plan of one rank for a peer: the jobs between them, laid out one after another. -/
lemma find_send {rank q : Index d} {schedule : HaloSchedule d}
    (h : Classified inputs rank (jobsOf inputs) schedule) (hne : rank ≠ q) :
    Grouping.find HaloPeerPlan.peer schedule.send q =
      if Routing.pairItems (sender inputs) (receiver inputs) (jobsOf inputs) rank q = [] then none
      else some (peerPlan.build q
        (Routing.pairItems (sender inputs) (receiver inputs) (jobsOf inputs) rank q)) := by
  have hfind := h.sorted.send.find_eq q
  rwa [Routing.itemsOf_sendRoute hne] at hfind

/-- The plan at the other end. -/
lemma find_receive {rank p : Index d} {schedule : HaloSchedule d}
    (h : Classified inputs rank (jobsOf inputs) schedule) (hne : p ≠ rank) :
    Grouping.find HaloPeerPlan.peer schedule.receive p =
      if Routing.pairItems (sender inputs) (receiver inputs) (jobsOf inputs) p rank = [] then none
      else some (peerPlan.build p
        (Routing.pairItems (sender inputs) (receiver inputs) (jobsOf inputs) p rank)) := by
  have hfind := h.sorted.receive.find_eq p
  rwa [Routing.itemsOf_receiveRoute hne] at hfind

/-- What a plan transports: its jobs with their offsets, and the number of its elements. -/
def payload (plan : HaloPeerPlan d) : List (HaloJob d) × ℕ := (plan.jobs, plan.elements)

/-- **The two ends of a pair of ranks agree**: the send plan of `p` towards `q` exists exactly when
the receive plan of `q` from `p` does, with the same jobs, offsets and elements. -/
theorem find_send_eq_find_receive {p q : Index d} {s t : HaloSchedule d} (hne : p ≠ q)
    (hs : Classified inputs p (jobsOf inputs) s) (ht : Classified inputs q (jobsOf inputs) t) :
    (Grouping.find HaloPeerPlan.peer s.send q).map payload =
      (Grouping.find HaloPeerPlan.peer t.receive p).map payload := by
  rw [find_send hs hne, find_receive ht hne]
  split_ifs with hnil
  · rfl
  · simp only [build_peerPlan, Option.map_some, payload]

/-- The canonical jobs of a plan. -/
def planJobs (plan : HaloPeerPlan d) : List (HaloJob d) := plan.jobs.map eraseOffset

/-- **Every canonical job is stored exactly once** over all ranks: as a local job of the one rank
that owns both of its patches, or in one send plan and one receive plan. -/
theorem job_once {Party : Index d → Prop} {schedule : Index d → HaloSchedule d}
    (h : ∀ r, Party r → Classified inputs r (jobsOf inputs) (schedule r))
    (hnodup : (jobsOf inputs).Nodup) {job : HaloJob d} (hjob : job ∈ jobsOf inputs)
    (hs : Party (sender inputs job)) (hr : Party (receiver inputs job)) :
    Routing.LocalOnce Party (fun r => (schedule r).localJobs.map eraseOffset)
        (fun r => (schedule r).send) (fun r => (schedule r).receive) planJobs job ∨
      Routing.SentOnce Party (fun r => (schedule r).localJobs.map eraseOffset)
        (fun r => (schedule r).send) (fun r => (schedule r).receive) planJobs HaloPeerPlan.peer
        (sender inputs job) (receiver inputs job) job := by
  have hcontents : ∀ k l, l ⊆ jobsOf inputs → planJobs (peerPlan.build k l) = l := by
    intro k l hl
    rw [build_peerPlan]
    exact map_eraseOffset_placeFrom 0 fun j hj => (mem_jobsOf (hl hj)).2.2.1
  refine Routing.sorted_once hnodup hcontents (fun r hparty => ?_) hjob hs hr
  have hclass := h r hparty
  have hlocal : (schedule r).localJobs.map eraseOffset =
      Routing.pairItems (sender inputs) (receiver inputs) (jobsOf inputs) r r := by
    rw [hclass.localJobs_eq]
    exact map_eraseOffset_placeFrom 0 fun j hj => (mem_jobsOf (List.mem_of_mem_filter hj)).2.2.1
  rw [hlocal]
  exact hclass.sorted

end HaloSchedule

end Pops
