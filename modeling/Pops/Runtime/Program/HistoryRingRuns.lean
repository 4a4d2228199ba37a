import Pops.Runtime.Program.HistoryRings

/-!
# Runs of history rings

An account of a ring is kept beside it: the record of the last store since the last rotation, and
the records that were in slot zero when the ring was rotated after a store, most recent first.  As
long as no rotation meets a ring that was not stored to, the slots of the ring are the account.  The
number of filled slots and the identities of the samples are right in every run.

A rotation without a store is the gap: it moves the slots all the same, and the recycled oldest
value comes to stand in front of newer ones.

## Main definitions

* `Pops.HistoryRecord`, `HistoryAccount` — what a store records, and the account of a ring.
* `Pops.HistoryRuns.Tracked` — the rings of a runtime with their accounts.
* `Pops.HistoryRuns.Matched` — a rotation meets only rings that were stored to.

## Main results

* `Pops.HistoryRing.Consistent.store`, `rotate` — one step of a ring.
* `Pops.HistoryRing.Aligned.rotate` — a rotation after a store keeps the slots equal to the account.
* `Pops.HistoryRuns.historyRings_run` — the rings along every run.
-/

namespace Pops

/-- What a store records in one slot. -/
structure HistoryRecord (V F : Type) where
  value : V
  dt : Binary64
  sample : HistorySampleIdentity
  expression : Option F
  deriving DecidableEq

/-- The account of a ring. -/
structure HistoryAccount (V F : Type) where
  /-- the record of the last store since the last rotation -/
  pending : Option (HistoryRecord V F)
  /-- the records that were in slot zero at a rotation after a store, most recent first -/
  log : List (HistoryRecord V F)
  /-- the identity that last filled the whole ring -/
  filled : HistorySampleIdentity

namespace HistoryAccount

variable {V F : Type}

/-- The account of a new ring. -/
def new : HistoryAccount V F := ⟨none, [], HistorySampleIdentity.zeroStart⟩

/-- A store; the first one fills the ring. -/
def store (account : HistoryAccount V F) (initialized : Bool) (record : HistoryRecord V F) :
    HistoryAccount V F :=
  { account with
    pending := some record
    filled := if initialized then account.filled else record.sample }

/-- A rotation, which accepts the pending record. -/
def rotate (account : HistoryAccount V F) : HistoryAccount V F :=
  match account.pending with
  | none => account
  | some record => { account with pending := none, log := record :: account.log }

end HistoryAccount

/-! ## Sample identities -/

/-- The largest ordinal is at least every ordinal of the window. -/
lemma le_latestOrdinal {start interval : Binary64} {slots : List HistorySampleIdentity}
    {latest : ℕ} (h : latestOrdinal start interval slots = .ok latest) :
    ∀ sample ∈ slots, sample.kind = .publication → sample.startBits = start →
      sample.intervalBits = interval → sample.ordinal ≤ latest := by
  unfold latestOrdinal at h
  refine foldlM_invariant (P := fun done latest => ∀ sample ∈ done, sample.kind = .publication →
    sample.startBits = start → sample.intervalBits = interval →
      sample.ordinal ≤ latest) h (by simp) ?_
  intro done sample rest latest latest' _ hdone hstep other hother hkind hstart hinterval
  simp only [bind_eq_ok, pure_eq_ok] at hstep
  obtain ⟨_, _, rfl⟩ := hstep
  rcases List.mem_append.mp hother with hother | hother
  · have hle := hdone other hother hkind hstart hinterval
    split_ifs
    · exact le_max_of_le_left hle
    · exact hle
  · rw [List.mem_singleton.mp hother] at hkind hstart hinterval ⊢
    rw [if_pos ⟨hkind, hstart, hinterval⟩]
    exact le_max_right _ _

/-- **The next identity** is that of the pending publication, or is new to the ring. -/
theorem nextHistorySample_cases {slots : List HistorySampleIdentity} {pending : Bool}
    {start interval : Binary64} {sample : HistorySampleIdentity}
    (h : nextHistorySample slots pending start interval = .ok sample) :
    sample.kind = .publication ∧ ((pending = true ∧ slots.head? = some sample) ∨
      ((∀ front, slots.head? = some front → pending = true → front.kind ≠ .publication) ∧
        ∀ other ∈ slots, other.kind = .publication → other.window ≠ sample.window)) := by
  unfold nextHistorySample at h
  simp only [bind_eq_ok] at h
  obtain ⟨_, _, latest, hlatest, h⟩ := h
  -- a new identity has a larger ordinal than every publication of its window
  have hnew : sample = ⟨start, interval, latest + 1, .publication⟩ →
      ∀ other ∈ slots, other.kind = .publication → other.window ≠ sample.window := by
    rintro rfl other hother hkind hwindow
    simp only [HistorySampleIdentity.window, Prod.mk.injEq] at hwindow
    have := le_latestOrdinal hlatest other hother hkind hwindow.1 hwindow.2.1
    omega
  split at h
  · rename_i front hfront
    split_ifs at h with hpending
    · simp only [bind_eq_ok, throwIf_eq_ok, pure_eq_ok] at h
      obtain ⟨_, _, rfl⟩ := h
      exact ⟨hpending.2, .inl ⟨hpending.1, hfront⟩⟩
    · simp only [bind_eq_ok, throwIf_eq_ok, pure_eq_ok] at h
      obtain ⟨_, _, hsample⟩ := h
      refine ⟨by rw [← hsample], .inr ⟨fun other hother hp hkind => ?_, hnew hsample.symm⟩⟩
      rw [hfront, Option.some.injEq] at hother
      exact hpending ⟨hp, hother ▸ hkind⟩
  · rename_i hfront
    simp only [bind_eq_ok, throwIf_eq_ok, pure_eq_ok] at h
    obtain ⟨_, _, hsample⟩ := h
    refine ⟨by rw [← hsample], .inr ⟨fun other hother => ?_, hnew hsample.symm⟩⟩
    rw [hfront] at hother
    cases hother

/-! ## One ring -/

namespace HistoryRing

variable {V F : Type}

/-- What a slot holds. -/
def recordAt (ring : HistoryRing V F) (k : ℕ) : Option (HistoryRecord V F) := do
  let value ← ring.slots[k]?
  let dt ← ring.slotDt[k]?
  let sample ← ring.slotSample[k]?
  some ⟨value, dt, sample, ring.expressions[k]?⟩

/-- The ring and its account agree on everything but the slots behind slot zero. -/
structure Consistent (backend : HistoryBackend) (ring : HistoryRing V F)
    (account : HistoryAccount V F) : Prop where
  depth_pos : 0 < ring.depth
  length_slots : ring.slots.length = ring.depth
  length_dt : ring.slotDt.length = ring.depth
  length_sample : ring.slotSample.length = ring.depth
  length_expressions : backend = .amr → ring.expressions.length = ring.depth
  expressions_nil : backend = .uniform → ring.expressions = []
  storePending_eq : ring.storePending = account.pending.isSome
  pending_front : ∀ record, account.pending = some record → ring.recordAt 0 = some record
  initialized_of_pending : ring.storePending = true → ring.initialized = true
  fillCount_eq : ring.fillCount = min ring.depth account.log.length
  fresh : ring.initialized = false → account.log = []
  publications : ring.initialized = true → ∀ sample ∈ ring.slotSample, sample.kind = .publication
  distinct : ring.slotSample.Pairwise fun sample other =>
    sample.window = other.window → sample = account.filled ∧ other = account.filled

/-- The slots behind slot zero are the account. -/
def Aligned (ring : HistoryRing V F) (account : HistoryAccount V F) : Prop :=
  ∀ k, k < account.log.length → k + 1 < ring.depth → ring.recordAt (k + 1) = account.log[k]?

/-- A new ring and a new account. -/
lemma consistent_register (backend : HistoryBackend) (lag : ℕ) (zero : V) (expression : F)
    (clock : Option String) (level : ℤ) :
    Consistent backend (register backend lag zero expression clock level)
      (HistoryAccount.new (V := V) (F := F)) where
  depth_pos := Nat.succ_pos _
  length_slots := List.length_replicate
  length_dt := List.length_replicate
  length_sample := List.length_replicate
  length_expressions := by
    rintro rfl
    exact List.length_replicate
  expressions_nil := by
    rintro rfl
    rfl
  storePending_eq := rfl
  pending_front := by
    intro record h
    cases h
  initialized_of_pending := by
    intro h
    cases h
  fillCount_eq := by
    simp [register, HistoryAccount.new]
  fresh := fun _ => rfl
  publications := by
    intro h
    cases h
  distinct := by
    rw [show (register backend lag zero expression clock level).slotSample =
      List.replicate (lag + 1) HistorySampleIdentity.zeroStart from rfl]
    rw [List.pairwise_replicate]
    exact .inr fun _ => ⟨rfl, rfl⟩

/-! ### Stores -/

/-- A write keeps the number of slots. -/
@[simp] lemma length_write {α : Type} (initialized : Bool) (slots : List α) (value : α) :
    (write initialized slots value).length = slots.length := by
  unfold write
  split_ifs <;> simp

/-- Slot zero holds what was written. -/
lemma write_zero {α : Type} {initialized : Bool} {slots : List α} {value : α}
    (h : 0 < slots.length) : (write initialized slots value)[0]? = some value := by
  unfold write
  split_ifs
  · rw [List.getElem?_set_self h]
  · rw [List.getElem?_map, List.getElem?_eq_getElem h]
    rfl

/-- A ring that was written before keeps the other slots. -/
lemma write_succ {α : Type} (slots : List α) (value : α) (k : ℕ) :
    (write true slots value)[k + 1]? = slots[k + 1]? := by
  unfold write
  rw [if_pos rfl, List.getElem?_set_ne (by omega)]

/-- What a slot can hold after a write. -/
lemma mem_write {α : Type} {initialized : Bool} {slots : List α} {value other : α}
    (h : other ∈ write initialized slots value) :
    other = value ∨ initialized = true ∧ other ∈ slots := by
  unfold write at h
  split_ifs at h with hinit
  · rcases List.mem_or_eq_of_mem_set h with h | h
    · exact .inr ⟨hinit, h⟩
    · exact .inl h
  · obtain ⟨_, _, rfl⟩ := List.mem_map.mp h
    exact .inl rfl

/-- **What a store returns.** -/
theorem store_cases {backend : HistoryBackend} {sameContract : V → V → Throws Unit}
    {ring ring' : HistoryRing V F} {value : V} {expression : F} {start dt : Binary64}
    (h : ring.store backend sameContract value expression start dt = .ok ring') :
    ∃ sample, nextHistorySample ring.slotSample ring.storePending start dt = .ok sample ∧
      ring' = ring.publish backend value expression dt
        (write ring.initialized ring.slotSample sample) := by
  unfold store at h
  split at h
  · simp at h
  · simp only [bind_eq_ok, pure_eq_ok] at h
    obtain ⟨_, _, _, _, samples, hsamples, rfl⟩ := h
    unfold prepareSampleStore validatedSamples at hsamples
    simp only [bind_eq_ok, pure_eq_ok] at hsamples
    obtain ⟨_, ⟨_, _, _, _, rfl⟩, sample, hsample, rfl⟩ := hsamples
    exact ⟨sample, hsample, rfl⟩

/-- The record of a store. -/
def recordOf (backend : HistoryBackend) (value : V) (expression : F) (dt : Binary64)
    (sample : HistorySampleIdentity) : HistoryRecord V F :=
  ⟨value, dt, sample, if backend = .amr then some expression else none⟩

section Store

variable {backend : HistoryBackend} {sameContract : V → V →
  Throws Unit} {ring ring' : HistoryRing V F}
  {account : HistoryAccount V F} {value : V} {expression : F} {start dt : Binary64}

/-- After a store, slot zero holds its record. -/
lemma Consistent.recordAt_store (h : Consistent backend ring account)
    (sample : HistorySampleIdentity) :
    (ring.publish backend value expression dt
      (write ring.initialized ring.slotSample sample)).recordAt 0 =
        some (recordOf backend value expression dt sample) := by
  have hpos := h.depth_pos
  have hexpressions : (ring.publish backend value expression dt
      (write ring.initialized ring.slotSample sample)).expressions[0]? =
        if backend = .amr then some expression else none := by
    cases hbackend : backend with
    | uniform => simp [publish, h.expressions_nil hbackend]
    | amr => exact write_zero (by rw [h.length_expressions hbackend]; exact hpos)
  unfold recordAt recordOf
  rw [hexpressions]
  have hslots : 0 < ring.slots.length := by rw [h.length_slots]; exact hpos
  have hdts : 0 < ring.slotDt.length := by rw [h.length_dt]; exact hpos
  have hsamples : 0 < ring.slotSample.length := by rw [h.length_sample]; exact hpos
  simp only [publish, write_zero hslots, write_zero hdts, write_zero hsamples]
  rfl

/-- The identities of a ring after a store.

**Proof sketch.** A first store fills the ring with one identity.  A second store before the next
rotation finds the pending identity in slot zero and leaves it there.  Any other store brings an
identity that no slot has. -/
theorem Consistent.distinct_store (h : Consistent backend ring account)
    {sample : HistorySampleIdentity}
    (hsample : nextHistorySample ring.slotSample ring.storePending start dt = .ok sample) :
    (write ring.initialized ring.slotSample sample).Pairwise fun s t => s.window = t.window →
      s = (if ring.initialized then account.filled else sample) ∧
        t = if ring.initialized then account.filled else sample := by
  obtain ⟨hkind, hcases⟩ := nextHistorySample_cases hsample
  cases hinit : ring.initialized with
  | false =>
    simp only [write, Bool.false_eq_true, if_false]
    rw [List.map_const', List.pairwise_replicate]
    exact .inr fun _ => ⟨rfl, rfl⟩
  | true =>
    simp only [write, if_true]
    have hdistinct := h.distinct
    have hpublications := h.publications hinit
    cases hslots : ring.slotSample with
    | nil => simp
    | cons front rest =>
      rw [hslots] at hdistinct hpublications hcases
      rw [List.set_cons_zero]
      rcases hcases with ⟨_, hfront⟩ | ⟨_, hnew⟩
      · rw [List.head?_cons, Option.some.injEq] at hfront
        rw [← hfront]
        exact hdistinct
      · rw [List.pairwise_cons] at hdistinct ⊢
        refine ⟨fun other hother hwindow => ?_, hdistinct.2⟩
        exact absurd hwindow.symm
          (hnew other (by simp [hother]) (hpublications other (by simp [hother])))

/-- **A store keeps ring and account consistent.** -/
theorem Consistent.store (h : Consistent backend ring account)
    (hstore : ring.store backend sameContract value expression start dt = .ok ring') :
    Consistent backend ring' (account.store ring.initialized
      (recordOf backend value expression dt
        (ring'.slotSample.headD HistorySampleIdentity.zeroStart))) := by
  obtain ⟨sample, hsample, rfl⟩ := store_cases hstore
  obtain ⟨hkind, _⟩ := nextHistorySample_cases hsample
  have hhead : (ring.publish backend value expression dt
      (write ring.initialized ring.slotSample sample)).slotSample.headD
        HistorySampleIdentity.zeroStart = sample := by
    show (write ring.initialized ring.slotSample sample).headD _ = sample
    rw [List.headD_eq_head?_getD, List.head?_eq_getElem?,
      write_zero (by rw [h.length_sample]; exact h.depth_pos)]
    rfl
  rw [hhead]
  refine ⟨h.depth_pos, ?_, ?_, ?_, ?_, ?_, rfl, ?_, fun _ => rfl, h.fillCount_eq, ?_, ?_, ?_⟩
  · exact (length_write ..).trans h.length_slots
  · exact (length_write ..).trans h.length_dt
  · exact (length_write ..).trans h.length_sample
  · rintro rfl
    exact (length_write ..).trans (h.length_expressions rfl)
  · rintro rfl
    exact h.expressions_nil rfl
  · intro record hrecord
    rw [HistoryAccount.store, Option.some.injEq] at hrecord
    rw [← hrecord]
    exact h.recordAt_store sample
  · intro hinit
    cases hinit
  · intro _ other hother
    rcases mem_write hother with rfl | ⟨hinit, hother⟩
    · exact hkind
    · exact h.publications hinit other hother
  · exact h.distinct_store hsample

/-- A store keeps the slots behind slot zero. -/
theorem Aligned.store (h : Consistent backend ring account) (haligned : Aligned ring account)
    (hstore : ring.store backend sameContract value expression start dt = .ok ring')
    (record : HistoryRecord V F) : Aligned ring' (account.store ring.initialized record) := by
  obtain ⟨sample, hsample, rfl⟩ := store_cases hstore
  intro k hk hdepth
  change k < account.log.length at hk
  show _ = account.log[k]?
  have hinit : ring.initialized = true := by
    rcases hcase : ring.initialized with _ | _
    · rw [h.fresh hcase] at hk
      simp at hk
    · rfl
  rw [← haligned k hk hdepth]
  unfold recordAt publish
  simp only [hinit, write_succ]
  cases backend with
  | uniform => rfl
  | amr => simp only [write_succ]

end Store

/-! ### Rotations -/

/-- A rotation moves every slot but the last. -/
lemma Consistent.recordAt_rotate {backend : HistoryBackend} {ring : HistoryRing V F}
    {account : HistoryAccount V F} (h : Consistent backend ring account) {k : ℕ}
    (hk : k + 1 < ring.depth) : (ring.rotate backend).recordAt (k + 1) = ring.recordAt k := by
  have hexpressions : (ring.rotate backend).expressions[k + 1]? = ring.expressions[k]? := by
    cases hbackend : backend with
    | uniform => simp [HistoryRing.rotate, h.expressions_nil hbackend]
    | amr => exact SwapChain.getElem?_shift (by rw [h.length_expressions hbackend]; exact hk)
  unfold recordAt
  rw [hexpressions]
  simp only [HistoryRing.rotate,
    SwapChain.getElem?_shift (l := ring.slots) (by rw [h.length_slots]; exact hk),
    SwapChain.getElem?_shift (l := ring.slotDt) (by rw [h.length_dt]; exact hk),
    SwapChain.getElem?_shift (l := ring.slotSample) (by rw [h.length_sample]; exact hk)]

/-- **A rotation keeps ring and account consistent**, with or without a store. -/
theorem Consistent.rotate {backend : HistoryBackend} {ring : HistoryRing V F}
    {account : HistoryAccount V F} (h : Consistent backend ring account) :
    Consistent backend (ring.rotate backend) account.rotate := by
  have hpending := h.storePending_eq
  have hsamples := SwapChain.shift_perm ring.slotSample
  refine ⟨h.depth_pos, ?_, ?_, ?_, ?_, ?_, ?_, ?_, ?_, ?_, ?_, ?_, ?_⟩
  · exact (SwapChain.length_shift _).trans h.length_slots
  · exact (SwapChain.length_shift _).trans h.length_dt
  · exact (SwapChain.length_shift _).trans h.length_sample
  · rintro rfl
    exact (SwapChain.length_shift _).trans (h.length_expressions rfl)
  · rintro rfl
    exact h.expressions_nil rfl
  · unfold HistoryAccount.rotate
    cases hcase : account.pending with
    | none => simp [HistoryRing.rotate, hcase]
    | some record => rfl
  · intro record hrecord
    unfold HistoryAccount.rotate at hrecord
    cases hcase : account.pending with
    | none => simp [hcase] at hrecord
    | some record' => simp [hcase] at hrecord
  · intro hfalse
    cases hfalse
  · show (if ring.storePending then min ring.slots.length (ring.fillCount + 1)
      else ring.fillCount) = min ring.depth account.rotate.log.length
    rw [hpending, h.length_slots, h.fillCount_eq]
    unfold HistoryAccount.rotate
    cases hcase : account.pending with
    | none => simp
    | some record =>
      simp only [Option.isSome_some, if_true, List.length_cons]
      omega
  · intro hinit
    have hlog := h.fresh hinit
    unfold HistoryAccount.rotate
    cases hcase : account.pending with
    | none => exact hlog
    | some record =>
      rw [hcase] at hpending
      have := h.initialized_of_pending hpending
      rw [show (ring.rotate backend).initialized = ring.initialized from rfl, this] at hinit
      cases hinit
  · intro hinit sample hsample
    exact h.publications hinit sample (hsamples.mem_iff.mp hsample)
  · have hfilled : account.rotate.filled = account.filled := by
      unfold HistoryAccount.rotate
      cases account.pending <;> rfl
    rw [hfilled]
    refine (hsamples.pairwise_iff ?_).mpr h.distinct
    exact fun {s t} hst hwindow => (hst hwindow.symm).symm

/-- **A rotation after a store keeps the slots equal to the account**, and so does a rotation of a
ring that was never written or has no slot to move. -/
theorem Aligned.rotate {backend : HistoryBackend} {ring : HistoryRing V F}
    {account : HistoryAccount V F} (h : Consistent backend ring account)
    (haligned : Aligned ring account)
    (hmatched : ring.initialized = true → 2 ≤ ring.depth → ring.storePending = true) :
    Aligned (ring.rotate backend) account.rotate := by
  intro k hk hdepth
  change k + 1 < ring.depth at hdepth
  rw [h.recordAt_rotate hdepth]
  cases hcase : account.pending with
  | none =>
    -- without a store the ring was never written, so there is nothing to be aligned with
    have hlog : account.rotate.log = account.log := by
      unfold HistoryAccount.rotate
      rw [hcase]
    rw [hlog] at hk
    have hinit : ring.initialized = true := by
      rcases hwritten : ring.initialized with _ | _
      · rw [h.fresh hwritten] at hk
        simp at hk
      · rfl
    have hpending := h.storePending_eq
    rw [hmatched hinit (by omega), hcase] at hpending
    cases hpending
  | some record =>
    have hlog : account.rotate.log = record :: account.log := by
      unfold HistoryAccount.rotate
      rw [hcase]
    rw [hlog] at hk ⊢
    cases k with
    | zero => exact h.pending_front record hcase
    | succ k =>
      rw [List.getElem?_cons_succ]
      exact haligned k (by simpa using hk) (by omega)

end HistoryRing

/-! ## Runs -/

namespace HistoryRuns

variable {V F : Type}

/-- The operations of a run.  `fault` is what the other ranks make a collective phase throw. -/
inductive Operation (V F : Type)
  | store (key : String) (value : V) (expression : F) (start dt : Binary64)
      (fault : Option Exception)
  | rotate (level : ℤ) (clock : Option String) (fault : Option Exception)

/-- The rings of a runtime with their accounts. -/
structure Tracked (V F : Type) where
  histories : Histories V F
  accounts : String → HistoryAccount V F

/-- The account of a store that returned. -/
def accountStore (backend : HistoryBackend) (t : Tracked V F) (stored : Histories V F)
    (key : String) (value : V) (expression : F) (dt : Binary64) : HistoryAccount V F :=
  match OrderedMap.lookup t.histories key, OrderedMap.lookup stored key with
  | some ring, some ring' => (t.accounts key).store ring.initialized
      (HistoryRing.recordOf backend value expression dt
        (ring'.slotSample.headD HistorySampleIdentity.zeroStart))
  | _, _ => t.accounts key

/-- The accounts after a rotation that returned. -/
def accountsRotate (backend : HistoryBackend) (t : Tracked V F) (level : ℤ) (clock : Option String)
    (key : String) : HistoryAccount V F :=
  match OrderedMap.lookup t.histories key with
  | some ring => if ring.Selected backend level clock then (t.accounts key).rotate
      else t.accounts key
  | none => t.accounts key

section

variable (backend : HistoryBackend) (sameContract : V → V → Throws Unit)

/-- One operation; one that throws leaves the rings. -/
def step (t : Tracked V F) : Operation V F → Tracked V F
  | .store key value expression start dt fault =>
    match Histories.store backend sameContract t.histories key value expression start dt fault with
    | .error _ => t
    | .ok stored => ⟨stored, Function.update t.accounts key
        (accountStore backend t stored key value expression dt)⟩
  | .rotate level clock fault =>
    match Histories.rotate backend t.histories level clock fault with
    | .error _ => t
    | .ok rotated => ⟨rotated, accountsRotate backend t level clock⟩

/-- A rotation meets only rings that were stored to since their last rotation, that were never
stored to, or that have no slot to move. -/
def Matched (t : Tracked V F) : Operation V F → Prop
  | .store .. => True
  | .rotate level clock _ => ∀ key ring, OrderedMap.lookup t.histories key = some ring →
      ring.Selected backend level clock → ring.initialized = true → 2 ≤ ring.depth →
      ring.storePending = true

/-- The rings and accounts after a run. -/
def run (t : Tracked V F) (operations : List (Operation V F)) : Tracked V F :=
  operations.foldl (step backend sameContract) t

/-- Every rotation of a run is matched. -/
def EachMatched : Tracked V F → List (Operation V F) → Prop
  | _, [] => True
  | t, operation :: rest => Matched backend t operation ∧
      EachMatched (step backend sameContract t operation) rest

end

/-- The rings are as they were registered. -/
def Registered (backend : HistoryBackend) (histories : Histories V F) : Prop :=
  ∀ key ring, OrderedMap.lookup histories key = some ring → ∃ lag zero expression clock level,
    1 ≤ lag ∧ ring = HistoryRing.register backend lag zero expression clock level

/-- New accounts for all rings. -/
def start (histories : Histories V F) : Tracked V F := ⟨histories, fun _ => HistoryAccount.new⟩

/-- Every ring is consistent with its account. -/
def Invariant (backend : HistoryBackend) (t : Tracked V F) : Prop :=
  ∀ key ring, OrderedMap.lookup t.histories key = some ring →
    ring.Consistent backend (t.accounts key)

/-- Every ring holds its account. -/
def AllAligned (t : Tracked V F) : Prop :=
  ∀ key ring, OrderedMap.lookup t.histories key = some ring → ring.Aligned (t.accounts key)

/-- The ring of a key after every ring was mapped. -/
lemma lookup_map_values {κ β γ : Type} [DecidableEq κ] (m : List (κ × β)) (f : β → γ) (key : κ) :
    OrderedMap.lookup (m.map fun entry => (entry.1, f entry.2)) key =
      (OrderedMap.lookup m key).map f := by
  induction m with
  | nil => rfl
  | cons entry rest ih =>
    simp only [List.map_cons, OrderedMap.lookup, ih]
    split_ifs <;> rfl

/-- A store that returned changed one ring, by the store of that ring. -/
lemma store_lookup {backend : HistoryBackend} {sameContract : V → V → Throws Unit}
    {histories stored : Histories V F} {key : String} {value : V} {expression : F}
    {start dt : Binary64} {fault : Option Exception}
    (h : Histories.store backend sameContract histories key value expression start dt fault =
      .ok stored) : ∃ ring ring', OrderedMap.lookup histories key = some ring ∧
        ring.store backend sameContract value expression start dt = .ok ring' ∧
        ∀ other, OrderedMap.lookup stored other =
          if key = other then some ring' else OrderedMap.lookup histories other := by
  unfold Histories.store at h
  split at h
  · simp at h
  · rename_i ring hring
    simp only [bind_eq_ok, pure_eq_ok] at h
    obtain ⟨ring', hstore, _, _, rfl⟩ := h
    exact ⟨ring, ring', hring, hstore, OrderedMap.lookup_assign histories key ring'⟩

/-- A rotation that returned rotated the selected rings. -/
lemma rotate_lookup {backend : HistoryBackend} {histories rotated : Histories V F} {level : ℤ}
    {clock : Option String} {fault : Option Exception}
    (h : Histories.rotate backend histories level clock fault = .ok rotated) (key : String) :
    OrderedMap.lookup rotated key = (OrderedMap.lookup histories key).map fun ring =>
      if ring.Selected backend level clock then ring.rotate backend else ring := by
  unfold Histories.rotate at h
  simp only [bind_eq_ok, pure_eq_ok] at h
  obtain ⟨_, _, _, _, _, _, rfl⟩ := h
  exact lookup_map_values histories
    (fun ring => if ring.Selected backend level clock then ring.rotate backend else ring) key

section Step

variable {backend : HistoryBackend} {sameContract : V → V → Throws Unit} {t : Tracked V F}

/-- **What an operation does to a ring and its account**: nothing, a store, or a rotation. -/
theorem step_cases {operation : Operation V F} {key : String} {ring : HistoryRing V F}
    (h : OrderedMap.lookup (step backend sameContract t operation).histories key = some ring) :
    (OrderedMap.lookup t.histories key = some ring ∧
      (step backend sameContract t operation).accounts key = t.accounts key) ∨
    (∃ old value expression start dt, OrderedMap.lookup t.histories key = some old ∧
      old.store backend sameContract value expression start dt = .ok ring ∧
      (step backend sameContract t operation).accounts key =
        (t.accounts key).store old.initialized (HistoryRing.recordOf backend value expression dt
          (ring.slotSample.headD HistorySampleIdentity.zeroStart))) ∨
    ∃ old level clock fault, operation = .rotate level clock fault ∧
      OrderedMap.lookup t.histories key = some old ∧ old.Selected backend level clock ∧
      ring = old.rotate backend ∧
      (step backend sameContract t operation).accounts key = (t.accounts key).rotate := by
  cases operation with
  | store target value expression start dt fault =>
    unfold HistoryRuns.step at h ⊢
    cases hstore : Histories.store backend sameContract t.histories target value expression start dt
      fault with
    | error e =>
      simp only [hstore] at h ⊢
      exact .inl ⟨h, trivial⟩
    | ok stored =>
      simp only [hstore] at h ⊢
      obtain ⟨old, new, hold, hnew, hlookup⟩ := store_lookup hstore
      rw [hlookup] at h
      split_ifs at h with hkey
      · subst hkey
        obtain rfl := Option.some.inj h
        refine .inr (.inl ⟨old, value, expression, start, dt, hold, hnew, ?_⟩)
        rw [Function.update_self, accountStore, hold, hlookup, if_pos rfl]
      · exact .inl ⟨h, Function.update_of_ne (Ne.symm hkey) _ _⟩
  | rotate level clock fault =>
    unfold HistoryRuns.step at h ⊢
    cases hrotate : Histories.rotate backend t.histories level clock fault with
    | error e =>
      simp only [hrotate] at h ⊢
      exact .inl ⟨h, trivial⟩
    | ok rotated =>
      simp only [hrotate] at h ⊢
      rw [rotate_lookup hrotate key, Option.map_eq_some_iff] at h
      obtain ⟨old, hold, hring⟩ := h
      split_ifs at hring with hselected
      · refine .inr (.inr ⟨old, level, clock, fault, rfl, hold, hselected, hring.symm, ?_⟩)
        simp only [accountsRotate, hold, if_pos hselected]
      · refine .inl ⟨hring ▸ hold, ?_⟩
        simp only [accountsRotate, hold, if_neg hselected]

/-- **One operation keeps every ring consistent with its account.** -/
theorem Invariant.step (h : Invariant backend t) (operation : Operation V F) :
    Invariant backend (step backend sameContract t operation) := by
  intro key ring hring
  rcases step_cases hring with ⟨hold, haccount⟩ | ⟨old, _, _, _, _, hold, hstore, haccount⟩ |
    ⟨old, _, _, _, _, hold, _, rfl, haccount⟩
  · rw [haccount]
    exact h key ring hold
  · rw [haccount]
    exact (h key old hold).store hstore
  · rw [haccount]
    exact (h key old hold).rotate

/-- **One operation that is matched keeps the slots of every ring equal to its account.** -/
theorem AllAligned.step (h : Invariant backend t) (haligned : AllAligned t)
    {operation : Operation V F} (hmatched : Matched backend t operation) :
    AllAligned (step backend sameContract t operation) := by
  intro key ring hring
  rcases step_cases hring with ⟨hold, haccount⟩ | ⟨old, _, _, _, _, hold, hstore, haccount⟩ |
    ⟨old, level, clock, fault, rfl, hold, hselected, rfl, haccount⟩
  · rw [haccount]
    exact haligned key ring hold
  · rw [haccount]
    exact HistoryRing.Aligned.store (h key old hold) (haligned key old hold) hstore _
  · rw [haccount]
    exact HistoryRing.Aligned.rotate (h key old hold) (haligned key old hold)
      (hmatched key old hold hselected)

/-- The rings along a run are consistent with their accounts, and hold them if every rotation is
matched.  The induction is on the operations. -/
lemma invariant_run {operations : List (Operation V F)} : ∀ {t : Tracked V F},
    Invariant backend t → Invariant backend (run backend sameContract t operations) ∧
      (AllAligned t → EachMatched backend sameContract t operations →
        AllAligned (run backend sameContract t operations)) := by
  induction operations with
  | nil => exact fun h => ⟨h, fun haligned _ => haligned⟩
  | cons operation rest ih =>
    intro t h
    obtain ⟨hrest, halignedRest⟩ := ih (h.step operation)
    exact ⟨hrest, fun haligned hmatched => halignedRest (haligned.step h hmatched.1) hmatched.2⟩

end Step

/-- New rings are consistent with new accounts, and hold nothing of an account yet. -/
lemma invariant_start {backend : HistoryBackend} {histories : Histories V F}
    (h : Registered backend histories) :
    Invariant backend (start histories) ∧ AllAligned (start histories) := by
  refine ⟨fun key ring hring => ?_, fun key ring _ k hk =>
    absurd hk (by simp [start, HistoryAccount.new])⟩
  obtain ⟨lag, zero, expression, clock, level, _, rfl⟩ := h key ring hring
  exact HistoryRing.consistent_register backend lag zero expression clock level

/-- **History rings along every run.**  In a run whose rotations meet no ring without a store since
its last rotation, every slot behind slot zero, up to the number of filled slots, holds the record
of the store that was accepted that many rotations ago, all four parts of it.  In every run slot
zero holds the record that the next rotation accepts, the number of filled slots is the number of
accepted stores, up to the depth, and two samples of one window have different ordinals unless both
are copies of the store that filled the ring.

**Proof sketch.** One step of one ring is a store or a rotation.  A store writes slot zero and finds
a new ordinal or the pending one.  A rotation moves slot `k` to slot `k + 1`; after a store slot
zero is the pending record, which the account accepts in the same step. -/
theorem historyRings_run (backend : HistoryBackend) (sameContract : V → V → Throws Unit)
    (histories : Histories V F) (hregistered : Registered backend histories)
    (operations : List (Operation V F)) (key : String) (ring : HistoryRing V F)
    (account : HistoryAccount V F)
    (hring : OrderedMap.lookup
      (run backend sameContract (start histories) operations).histories key = some ring)
    (haccount : (run backend sameContract (start histories) operations).accounts key = account) :
    (EachMatched backend sameContract (start histories) operations →
      ∀ k, 1 ≤ k → k ≤ min ring.fillCount (ring.depth - 1) →
        ring.recordAt k = account.log[k - 1]? ∧ (account.log[k - 1]?).isSome = true) ∧
    (∀ record, account.pending = some record → ring.recordAt 0 = some record) ∧
    ring.fillCount = min ring.depth account.log.length ∧
    ∀ i j : ℕ, i < j → ∀ s t, ring.slotSample[i]? = some s → ring.slotSample[j]? = some t →
      s.startBits = t.startBits → s.intervalBits = t.intervalBits → s.ordinal = t.ordinal →
      s = account.filled ∧ t = account.filled := by
  obtain ⟨hstart, halignedStart⟩ := invariant_start hregistered
  obtain ⟨hinvariant, haligned⟩ := @invariant_run _ _ _ sameContract operations _ hstart
  have hconsistent := hinvariant key ring hring
  rw [haccount] at hconsistent
  refine ⟨fun hmatched k hk hle => ?_, hconsistent.pending_front, hconsistent.fillCount_eq, ?_⟩
  · have hslots := haligned halignedStart hmatched key ring hring
    rw [haccount] at hslots
    have hfill := hconsistent.fillCount_eq
    have hdepth := hconsistent.depth_pos
    have hlog : k - 1 < account.log.length := by omega
    have hrecord := hslots (k - 1) hlog (by omega)
    rw [Nat.sub_add_cancel hk] at hrecord
    exact ⟨hrecord, by rw [List.getElem?_eq_getElem hlog]; rfl⟩
  · intro i j hij s t hs ht hstart' hinterval hordinal
    have hpair := List.pairwise_iff_getElem.mp hconsistent.distinct
    obtain ⟨hi, rfl⟩ := List.getElem?_eq_some_iff.mp hs
    obtain ⟨hj, rfl⟩ := List.getElem?_eq_some_iff.mp ht
    refine hpair i j hi hj hij ?_
    simp only [HistorySampleIdentity.window, hstart', hinterval, hordinal]

/-- A runtime with one ring of depth three. -/
def lagTwo : Histories ℕ Unit :=
  [("gas.U", HistoryRing.register .uniform 2 0 () (some "macro") 0)]

/-- A store of a number over the unit interval. -/
def storeUnit (value : ℕ) : Operation ℕ Unit :=
  .store "gas.U" value () 0 0x3ff0000000000000 none

/-- A rotation of the clock of the ring. -/
def rotateMacro : Operation ℕ Unit := .rotate 0 (some "macro") none

/-- The ring of the example is registered. -/
lemma registered_lagTwo : Registered .uniform lagTwo := by
  intro key ring h
  obtain ⟨_, rfl⟩ : "gas.U" = key ∧
    HistoryRing.register .uniform 2 0 () (some "macro") 0 = ring := by
    simpa [lagTwo, OrderedMap.lookup] using h
  exact ⟨2, 0, (), some "macro", 0, by omega, rfl⟩

/-- A rotation is matched when every ring was stored to. -/
lemma matched_of_pending {backend : HistoryBackend} {t : Tracked V F} {level : ℤ}
    {clock : Option String} {fault : Option Exception}
    (h : ∀ entry ∈ t.histories, entry.2.storePending = true) :
    Matched backend t (.rotate level clock fault) :=
  fun _ _ hring _ _ _ => h _ (OrderedMap.mem_of_lookup hring)

/-- After two stores, each followed by a rotation, two values count and lag one reads the last one.
-/
theorem historyRings_run_two :
    ∃ ring, OrderedMap.lookup (run .uniform (fun _ _ => .ok ()) (start lagTwo)
        [storeUnit 1, rotateMacro, storeUnit 2, rotateMacro]).histories "gas.U" = some ring ∧
      ring.fillCount = 2 ∧ (ring.recordAt 1).map (·.value) = some 2 := by
  have hmatched : EachMatched .uniform (fun _ _ => .ok ()) (start lagTwo)
      [storeUnit 1, rotateMacro, storeUnit 2, rotateMacro] :=
    ⟨trivial, matched_of_pending (by decide +kernel), trivial,
      matched_of_pending (by decide +kernel), trivial⟩
  obtain ⟨hslots, _, hfill, _⟩ :=
    historyRings_run .uniform (fun _ _ => .ok ()) lagTwo registered_lagTwo
    [storeUnit 1, rotateMacro, storeUnit 2, rotateMacro] "gas.U" _ _ rfl rfl
  refine ⟨_, rfl, hfill.trans (by decide +kernel), ?_⟩
  rw [(hslots hmatched 1 le_rfl (by decide +kernel)).1]
  decide +kernel

/-- **A rotation without a store** puts the recycled oldest value in front of the newest one. -/
theorem historyRings_unmatched :
    ¬ ∀ ring, OrderedMap.lookup (run .uniform (fun _ _ => .ok ()) (start lagTwo)
        [storeUnit 1, rotateMacro, storeUnit 2, rotateMacro, rotateMacro]).histories "gas.U" =
          some ring →
      ∀ k, 1 ≤ k → k ≤ min ring.fillCount (ring.depth - 1) → ring.recordAt k =
        ((run .uniform (fun _ _ => .ok ()) (start lagTwo) [storeUnit 1, rotateMacro, storeUnit 2,
          rotateMacro, rotateMacro]).accounts "gas.U").log[k - 1]? := by
  intro h
  have hslot := h _ rfl 1 (by decide) (by decide +kernel)
  revert hslot
  decide +kernel

end HistoryRuns

end Pops
