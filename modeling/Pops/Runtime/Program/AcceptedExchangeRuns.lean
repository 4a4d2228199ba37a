import Pops.Runtime.Program.AcceptedExchange

/-!
# Runs of the mailbox of accepted exchanges

Along every run, operations that throw included, the index of the ledger holds the keys of its
records and nothing else, and no two records share a key.  The byte image of a ledger is read back
bit for bit, and an image that is read is the image of the ledger that was read.

## Main definitions

* `Pops.AcceptedExchangeLedger.Coherent` — the records pass their check, their keys are distinct and
  are the index.

## Main results

* `Pops.AcceptedExchangeLedger.atomic_stage` — a staging that throws changes nothing.
* `Pops.AcceptedExchangeLedger.restoreSize_eq` — the first records remain, with their keys.
* `Pops.ExchangeRecord.exact_read` — the reader of a record accepts precisely images of records.
* `Pops.AcceptedExchangeLedger.acceptedExchange_runs` — the ledger along every run.
-/

namespace Pops

/-! ## Qualified contexts -/

namespace ExchangeRecord

/-- **A qualified context determines the point and the original context.**

**Proof sketch.** The texts are peeled from the front: the clock stands behind its length, every
number in front of a slash, and the original context behind its length. -/
theorem frameText_inj {p q : BoundaryEvaluationPoint} {x y : List Byte}
    (h : frameText p x = frameText q y) : p = q ∧ x = y := by
  have hnumber : ∀ {a b : ℤ} {s t : List Byte},
      decimalText a ++ 47 :: s = decimalText b ++ 47 :: t → a = b ∧ s = t :=
    fun h => decimalText_append_inj (by decide) (by decide) h
  unfold frameText at h
  obtain ⟨hclock, h⟩ := sizedText_append_inj (List.append_cancel_left h)
  obtain ⟨htick, h⟩ := hnumber (List.cons.inj h).2
  obtain ⟨hlevel, h⟩ := hnumber h
  obtain ⟨hsubstep, h⟩ := hnumber h
  obtain ⟨hstage, h⟩ := hnumber h
  obtain ⟨hnumerator, h⟩ := hnumber h
  obtain ⟨hdenominator, h⟩ := hnumber h
  obtain ⟨hdt, h⟩ := hnumber h
  obtain ⟨htime, h⟩ := hnumber h
  obtain ⟨hcontext, _⟩ := sizedText_append_inj (s := []) (t := []) (by simpa using h)
  refine ⟨?_, hcontext⟩
  cases p
  cases q
  simp only at hclock htick hlevel hsubstep hstage hnumerator hdenominator hdt htime
  rw [BoundaryEvaluationPoint.mk.injEq]
  exact ⟨Subtype.ext hclock, htick, hlevel, hsubstep, hstage,
    Rational.ext hnumerator hdenominator, UInt64.toNat.inj (by exact_mod_cast hdt),
    UInt64.toNat.inj (by exact_mod_cast htime)⟩

/-- A qualified record keeps everything but its context. -/
lemma qualifyRuntimePoint_eq_ok {record qualified : ExchangeRecord}
    {point : BoundaryEvaluationPoint} (h : record.qualifyRuntimePoint point = .ok qualified) :
    qualified.evaluationContext.val = frameText point record.evaluationContext.val ∧
      qualified = { record with evaluationContext := qualified.evaluationContext } := by
  unfold qualifyRuntimePoint at h
  simp only [bind_eq_ok, pure_eq_ok, Text.create_eq_ok] at h
  obtain ⟨_, _, context, hcontext, rfl⟩ := h
  exact ⟨hcontext.symm, rfl⟩

/-- **Records with equal qualified keys** have equal identities at equal points. -/
theorem eq_of_qualified_key {record record' qualified qualified' : ExchangeRecord}
    {point point' : BoundaryEvaluationPoint}
    (h : record.qualifyRuntimePoint point = .ok qualified)
    (h' : record'.qualifyRuntimePoint point' = .ok qualified')
    (hkey : qualified.key = qualified'.key) : record.key = record'.key ∧ point = point' := by
  obtain ⟨hcontext, hrecord⟩ := qualifyRuntimePoint_eq_ok h
  obtain ⟨hcontext', hrecord'⟩ := qualifyRuntimePoint_eq_ok h'
  simp only [key, Prod.mk.injEq] at hkey ⊢
  obtain ⟨hoperation, hoccurrence, hqualified, hquadrature⟩ := hkey
  obtain ⟨hpoint, hcontexts⟩ := frameText_inj
    (hcontext.symm.trans ((congrArg Subtype.val hqualified).trans hcontext'))
  rw [hrecord, hrecord'] at hoperation hoccurrence hquadrature
  exact ⟨⟨hoperation, hoccurrence, Subtype.ext hcontexts, hquadrature⟩, hpoint⟩

/-! ## The image of a record -/

/-- **The reader of a text** accepts precisely the texts behind their length. -/
theorem exact_readText :
    Reader.Exact readText (fun text => Reader.writeText text.val) fun _ => True := by
  intro bytes text rest
  unfold readText
  simp only [Reader.bind_eq_ok, Reader.exact_text _ _ _ _ _, Reader.call_eq_ok, Text.create_eq_ok,
    true_and]
  constructor
  · rintro ⟨_, _, ⟨_, rfl⟩, rfl, rfl⟩
    rfl
  · rintro rfl
    refine ⟨text.val, rest, ⟨?_, rfl⟩, rfl, rfl⟩
    have := text.property
    unfold objectMaxSize at this
    omega

/-- A word is the word of the `std::int64_t` it stands for. -/
lemma bitsOfInt64_int64OfBits (bits : UInt64) : bitsOfInt64 (int64OfBits bits) = bits := by
  have hbits := bits.toNat_lt
  have hmod : int64OfBits bits % 2 ^ 64 = bits.toNat := by
    have h := Int.bmod_emod (x := (bits.toNat : ℤ)) (m := 2 ^ 64)
    unfold int64OfBits
    push_cast at h ⊢
    rw [h]
    omega
  rw [bitsOfInt64, hmod, Int.toNat_natCast, UInt64.ofNat_toNat]

/-- The two orientations are read back from their words. -/
lemma int64OfBits_bits {orientation : ℤ} (h : orientation = -1 ∨ orientation = 1) :
    int64OfBits (bitsOfInt64 orientation) = orientation ∧ castInt orientation = orientation := by
  rcases h with rfl | rfl <;> decide

/-- The word of a positive `int` is the `int`. -/
lemma toNat_bitsOfInt64 {value : ℤ} (h0 : 0 ≤ value) (h : IsInt value) :
    ((bitsOfInt64 value).toNat : ℤ) = value := by
  unfold IsInt intMax at h
  have hmod : value % 2 ^ 64 = value := Int.emod_eq_of_lt h0 (by omega)
  have hlt : value.toNat < 2 ^ 64 := by omega
  rw [bitsOfInt64, hmod, UInt64.toNat_ofNat', Nat.mod_eq_of_lt hlt]
  omega

/-- A positive word in the range of `int` is the word of its `int`. -/
lemma bitsOfInt64_cast {bits : UInt64} (h : bits.toNat ≤ intMax.toNat) :
    castInt bits.toNat = bits.toNat ∧ bitsOfInt64 (castInt bits.toNat) = bits := by
  have hint : IsInt (bits.toNat : ℤ) := by
    unfold intMax at h
    unfold IsInt intMin intMax
    omega
  have hcast := castInt_of_isInt hint
  refine ⟨hcast, UInt64.toNat.inj ?_⟩
  rw [hcast]
  exact_mod_cast toNat_bitsOfInt64 (by omega) hint

/-- The records that an image can hold. -/
def Imaged (record : ExchangeRecord) : Prop :=
  (record.orientation = -1 ∨ record.orientation = 1) ∧ 0 < record.multiplicity

/-- **The reader of a record accepts precisely the images of records.**

**Proof sketch.** A call that returned is taken apart into its nine fields.  Each field reader is
exact, so the bytes are the images of the fields; the guards say that the two integers are the ones
that their words stand for. -/
theorem exact_read : Reader.Exact read write Imaged := by
  intro bytes record rest
  unfold read write Imaged
  simp only [Reader.bind_eq_ok, exact_readText _ _ _, Reader.exact_word _ _ _ _, Reader.call_eq_ok,
    Reader.pure_eq_ok, throwIf_eq_ok, true_and]
  constructor
  · rintro ⟨operation, _, rfl, occurrence, _, rfl, context, _, rfl, quadrature, _, rfl, orientation,
      _, rfl, _, _, ⟨horientation, rfl⟩, measure, _, rfl, flux, _, rfl, weight, _, rfl,
        multiplicity,
      _, rfl, _, _, ⟨hmultiplicity, rfl⟩, rfl, rfl⟩
    have hsign : int64OfBits orientation = -1 ∨ int64OfBits orientation = 1 := by omega
    have hcast : castInt (int64OfBits orientation) = int64OfBits orientation := by
      rcases hsign with h | h <;> rw [h] <;> decide
    obtain ⟨hcount, hword⟩ := @bitsOfInt64_cast multiplicity (by omega)
    refine ⟨⟨by simpa only [hcast] using hsign, ?_⟩, ?_⟩
    · simp only [hcount]
      omega
    · simp only [hcast, bitsOfInt64_int64OfBits, hword, List.append_assoc]
  · rintro ⟨⟨hsign, hpositive⟩, rfl⟩
    obtain ⟨horientation, hcast⟩ := int64OfBits_bits hsign
    have hcount := toNat_bitsOfInt64 hpositive.le record.multiplicity_isInt
    have hint := record.multiplicity_isInt
    refine ⟨_, _, List.append_assoc .., _, _, List.append_assoc .., _, _,
      List.append_assoc .., _, _,
      List.append_assoc .., _, _, List.append_assoc .., (), _, ⟨?_, rfl⟩, _, _,
      List.append_assoc .., _, _, List.append_assoc .., _, _,
        List.append_assoc .., _, _, rfl, (), _,
      ⟨?_, rfl⟩, ?_, rfl⟩
    · rw [horientation]
      omega
    · unfold IsInt at hint
      omega
    · cases record
      simp only at horientation hcast hcount hint ⊢
      simp only [horientation, hcast, hcount, castInt_of_isInt hint]

/-- A record that passes its check has an image. -/
lemma imaged_of_validate {record : ExchangeRecord} (h : record.validate = .ok ()) :
    record.Imaged := by
  unfold validate at h
  simp only [bind_eq_ok, throwIf_eq_ok, not_or, not_and_or, not_not] at h
  obtain ⟨_, _, hsign, hpositive, _⟩ := h
  exact ⟨hsign, by omega⟩

/-- The image of a record has at least nine words. -/
lemma le_length_write (record : ExchangeRecord) : 72 ≤ record.write.length := by
  simp only [write, List.length_append, Reader.length_writeText, Reader.length_writeWord]
  omega

end ExchangeRecord

/-! ## Coherent ledgers -/

namespace AcceptedExchangeLedger

/-- The ledger that holds these records. -/
def ofRecords (records : List ExchangeRecord) : AcceptedExchangeLedger :=
  ⟨records, (records.map ExchangeRecord.key).toFinset⟩

/-- The records of a ledger that is made of records. -/
@[simp] lemma records_ofRecords (records : List ExchangeRecord) :
    (ofRecords records).records = records := rfl

/-- The records pass their check, their keys are distinct, and the index holds their keys. -/
structure Coherent (ledger : AcceptedExchangeLedger) : Prop where
  valid : ∀ record ∈ ledger.records, record.validate = .ok ()
  nodup : (ledger.records.map ExchangeRecord.key).Nodup
  length_le : ledger.records.length ≤ objectMaxSize
  keys_eq : ledger.keys = (ledger.records.map ExchangeRecord.key).toFinset

/-- The empty ledger is coherent. -/
lemma coherent_empty : Coherent empty :=
  ⟨by simp [empty], by simp [empty], by simp [empty], rfl⟩

/-- A coherent ledger is determined by its records. -/
lemma Coherent.eq_ofRecords {ledger : AcceptedExchangeLedger} (h : Coherent ledger) :
    ledger = ofRecords ledger.records :=
  AcceptedExchangeLedger.ext rfl h.keys_eq

/-- The records of a coherent ledger up to some place are those of a coherent ledger. -/
lemma Coherent.append_left {records rest : List ExchangeRecord}
    (h : Coherent (ofRecords (records ++ rest))) : Coherent (ofRecords records) := by
  refine ⟨fun record hmem =>
    h.valid record (by simp [ofRecords] at hmem ⊢; exact .inl hmem), ?_, ?_, rfl⟩
  · have := h.nodup
    rw [records_ofRecords, List.map_append] at this
    exact (List.nodup_append.mp this).1
  · have := h.length_le
    rw [records_ofRecords, List.length_append] at this
    rw [records_ofRecords]
    omega

/-! ### Staging -/

/-- **A staging returns** exactly when the record passes its check, its key is new and memory is
left; the record goes to the end. -/
theorem stage_eq_ok {record : ExchangeRecord} {allocation : Allocation}
    {ledger ledger' : AcceptedExchangeLedger} {x : PUnit} :
    stage record allocation ledger = (.ok x, ledger') ↔ record.validate = .ok () ∧
      record.key ∉ ledger.keys ∧ ledger.records.length < objectMaxSize ∧ allocation.node = true ∧
      allocation.growth = true ∧
      ledger' = ⟨ledger.records ++ [record], insert record.key ledger.keys⟩ := by
  unfold stage emplace pushBack
  simp only [Method.bind_eq_ok, Method.call_eq_ok, Method.require_eq_ok, Method.update_eq_ok,
    Method.undoing_eq_ok, Bool.not_eq_false]
  constructor
  · rintro ⟨_, _, ⟨hvalid, rfl⟩, _, _, ⟨_, _, ⟨hnode, rfl⟩, _, _, ⟨hkey, rfl⟩, rfl⟩, _, _,
      ⟨hsize, rfl⟩, _, _, ⟨hgrowth, rfl⟩, rfl⟩
    rcases hcheck : record.validate with e | u
    · simp [hcheck, Except.map] at hvalid
    · exact ⟨rfl, hkey, not_le.mp hsize, hnode, hgrowth, rfl⟩
  · rintro ⟨hvalid, hkey, hsize, hnode, hgrowth, rfl⟩
    refine ⟨PUnit.unit, ledger, ⟨by rw [hvalid]; rfl, rfl⟩, PUnit.unit, _, ⟨PUnit.unit, ledger,
      ⟨hnode, rfl⟩, PUnit.unit, ledger, ⟨hkey, rfl⟩, rfl⟩, PUnit.unit, _, ⟨not_le.mpr hsize, rfl⟩,
      PUnit.unit, _, ⟨hgrowth, rfl⟩, rfl⟩

/-- **A staging that throws changes nothing**: the handler of a failed growth takes back the key,
which was new. -/
theorem atomic_stage (record : ExchangeRecord) (allocation : Allocation) :
    Method.Atomic (stage record allocation) := by
  unfold stage
  refine Method.Atomic.bind (Method.readOnly_call _) fun _ => ?_
  refine Method.Atomic.bind_undoing ?_ (fun _ => ?_) ?_
  · exact Method.Atomic.bind (Method.readOnly_require _ _) fun _ =>
      Method.Atomic.bind (Method.readOnly_require _ _) fun _ => (Method.total_update _).atomic
  · exact Method.Atomic.bind (Method.readOnly_require _ _) fun _ =>
      Method.Atomic.bind (Method.readOnly_require _ _) fun _ => (Method.total_update _).atomic
  · intro ledger _ ledger' h
    unfold emplace at h
    simp only [Method.bind_eq_ok, Method.require_eq_ok, Method.update_eq_ok] at h
    obtain ⟨_, _, ⟨_, rfl⟩, _, _, ⟨hkey, rfl⟩, rfl⟩ := h
    simp only [Finset.erase_insert hkey]

/-- A record that can be staged keeps the ledger coherent. -/
theorem Coherent.append {ledger : AcceptedExchangeLedger} {record : ExchangeRecord}
    (h : Coherent ledger) (hvalid : record.validate = .ok ()) (hkey : record.key ∉ ledger.keys)
    (hsize : ledger.records.length < objectMaxSize) :
    Coherent ⟨ledger.records ++ [record], insert record.key ledger.keys⟩ := by
  rw [h.keys_eq, List.mem_toFinset] at hkey
  refine ⟨?_, ?_, ?_, ?_⟩
  · intro r hr
    rcases List.mem_append.mp hr with hr | hr
    · exact h.valid r hr
    · rw [List.mem_singleton.mp hr]
      exact hvalid
  · rw [List.map_append, List.map_singleton, ← List.concat_eq_append]
    exact List.Nodup.concat hkey h.nodup
  · rw [List.length_append, List.length_singleton]
    exact hsize
  · ext k
    simp [h.keys_eq]

/-- What a staging leaves is coherent and holds the records that were there. -/
theorem Coherent.stage {ledger : AcceptedExchangeLedger} (h : Coherent ledger)
    (record : ExchangeRecord) (allocation : Allocation) :
    Coherent (AcceptedExchangeLedger.stage record allocation ledger).2 ∧
      ledger.records <+: (AcceptedExchangeLedger.stage record allocation ledger).2.records := by
  rcases hcase : AcceptedExchangeLedger.stage record allocation ledger with ⟨result, ledger'⟩
  cases result with
  | error e =>
    have hsame := atomic_stage record allocation ledger e (by rw [hcase])
    rw [hcase] at hsame
    simp only at hsame ⊢
    rw [hsame]
    exact ⟨h, List.prefix_rfl⟩
  | ok u =>
    obtain ⟨hvalid, hkey, hsize, _, _, rfl⟩ := stage_eq_ok.mp hcase
    exact ⟨h.append hvalid hkey hsize, List.prefix_append ..⟩

/-! ### Restoring the size -/

/-- One round of `restore_size` removes the last record and its key. -/
lemma popBack_ofRecords {records : List ExchangeRecord} {record : ExchangeRecord}
    (h : ((records ++ [record]).map ExchangeRecord.key).Nodup) :
    popBack (ofRecords (records ++ [record])) = ofRecords records := by
  have hnew : record.key ∉ records.map ExchangeRecord.key := by
    rw [List.map_append, List.map_singleton, List.nodup_append] at h
    exact fun hmem => h.2.2 _ hmem _ (by simp) rfl
  unfold popBack
  simp only [ofRecords, List.getLast?_concat, List.dropLast_concat, List.map_append,
    List.map_singleton]
  congr 1
  ext k
  simp only [Finset.mem_erase, List.mem_toFinset, List.mem_append, List.mem_singleton]
  constructor
  · rintro ⟨hne, hmem | hmem⟩
    · exact hmem
    · exact absurd hmem hne
  · exact fun hmem => ⟨fun heq => hnew (heq ▸ hmem), .inl hmem⟩

/-- **Restoring a size leaves the first records and their keys.**  The induction is on the records
beyond the size. -/
theorem restoreSize_append {records rest : List ExchangeRecord}
    (h : ((records ++ rest).map ExchangeRecord.key).Nodup) :
    popBack^[rest.length] (ofRecords (records ++ rest)) = ofRecords records := by
  induction rest using List.reverseRecOn with
  | nil => simp
  | append_singleton rest record ih =>
    rw [← List.append_assoc] at h
    rw [List.length_append, List.length_singleton, Function.iterate_succ_apply, ← List.append_assoc,
      popBack_ofRecords h]
    rw [List.map_append, List.nodup_append] at h
    exact ih h.1

/-- What restoring a size leaves of a coherent ledger. -/
theorem restoreSize_eq {ledger : AcceptedExchangeLedger} (h : Coherent ledger) (size : ℕ) :
    restoreSize size ledger = ofRecords (ledger.records.take size) := by
  have hnodup := h.nodup
  rw [← List.take_append_drop size ledger.records] at hnodup
  calc restoreSize size ledger
      = popBack^[(ledger.records.drop size).length]
          (ofRecords (ledger.records.take size ++ ledger.records.drop size)) := by
        rw [List.take_append_drop, ← h.eq_ofRecords, List.length_drop]
        rfl
    _ = ofRecords (ledger.records.take size) := restoreSize_append hnodup

/-- A prefix of the records is what restoring its length leaves. -/
lemma Coherent.restoreSize_prefix {ledger ledger' : AcceptedExchangeLedger} (h : Coherent ledger)
    (h' : Coherent ledger') (hextends : ledger.records <+: ledger'.records) :
    restoreSize ledger.records.length ledger' = ledger := by
  rw [restoreSize_eq h', ← List.prefix_iff_eq_take.mp hextends]
  exact h.eq_ofRecords.symm

/-! ### Batches -/

/-- What the loop of a batch leaves is coherent and holds the records that were there. -/
lemma Coherent.stageEach {records : List (ExchangeRecord × Allocation)} :
    ∀ {ledger : AcceptedExchangeLedger}, Coherent ledger →
      Coherent (AcceptedExchangeLedger.stageEach records ledger).2 ∧
        ledger.records <+: (AcceptedExchangeLedger.stageEach records ledger).2.records := by
  induction records with
  | nil => exact fun h => ⟨h, List.prefix_rfl⟩
  | cons first rest ih =>
    intro ledger h
    obtain ⟨hcoherent, hextends⟩ := h.stage first.1 first.2
    show Coherent (Method.bind _ _ ledger).2 ∧ _ <+: (Method.bind _ _ ledger).2.records
    unfold Method.bind
    rcases hcase : AcceptedExchangeLedger.stage first.1 first.2 ledger with ⟨result, ledger'⟩
    rw [hcase] at hcoherent hextends
    cases result with
    | error e => exact ⟨hcoherent, hextends⟩
    | ok u =>
      obtain ⟨hrest, hextends'⟩ := ih hcoherent
      exact ⟨hrest, hextends.trans hextends'⟩

/-- **A batch that throws, here or on a peer, changes nothing.** -/
theorem stageExchangeBatch_error {ledger ledger' : AcceptedExchangeLedger} (h : Coherent ledger)
    {records : List (ExchangeRecord × Allocation)} {peers : Option Exception} {e : Exception}
    (hbatch : stageExchangeBatch records peers ledger = (.error e, ledger')) :
    ledger' = ledger := by
  obtain ⟨hcoherent, hextends⟩ := @Coherent.stageEach records _ h
  unfold stageExchangeBatch at hbatch
  split at hbatch
  · cases hbatch
  · rename_i hcase
    rw [hcase] at hcoherent hextends
    obtain ⟨_, rfl⟩ := Prod.mk.inj hbatch
    exact h.restoreSize_prefix hcoherent hextends
  · rename_i hcase
    rw [hcase] at hcoherent hextends
    obtain ⟨_, rfl⟩ := Prod.mk.inj hbatch
    exact h.restoreSize_prefix hcoherent hextends

/-! ### The byte image -/

/-- The image of a list of records. -/
def image (records : List ExchangeRecord) : List Byte :=
  magic ++ (Reader.writeWord (UInt64.ofNat records.length) ++ records.flatMap ExchangeRecord.write)

/-- A checkpoint is the image of the records, if they pass their check. -/
lemma checkpoint_eq_ok {ledger : AcceptedExchangeLedger} {bytes : List Byte} :
    ledger.checkpoint = .ok bytes ↔
      (∀ record ∈ ledger.records, record.validate = .ok ()) ∧ bytes = image ledger.records := by
  have hrecord : ∀ record ∈ ledger.records, ∀ written, (do
      record.validate
      pure record.write : Throws (List Byte)) = .ok written ↔
        record.validate = .ok () ∧ written = record.write := by
    intro record _ written
    simp only [bind_eq_ok, pure_eq_ok]
    constructor
    · rintro ⟨_, hvalid, hwritten⟩
      exact ⟨hvalid, hwritten.symm⟩
    · rintro ⟨hvalid, hwritten⟩
      exact ⟨(), hvalid, hwritten.symm⟩
  unfold checkpoint image
  simp only [bind_eq_ok, pure_eq_ok, mapM_eq_ok_iff hrecord]
  constructor
  · rintro ⟨_, ⟨hvalid, rfl⟩, rfl⟩
    exact ⟨hvalid, rfl⟩
  · rintro ⟨hvalid, rfl⟩
    exact ⟨_, ⟨hvalid, rfl⟩, rfl⟩

/-- The loop over an image: the records that it stages are those whose image it consumes. -/
lemma readRecords_sound {allocation : ℕ → Allocation} {count : ℕ} :
    ∀ {ledger ledger' : AcceptedExchangeLedger} {bytes rest : List Byte}, Coherent ledger →
      readRecords allocation count ledger bytes = .ok (ledger', rest) →
      ∃ records, records.length = count ∧ ledger'.records = ledger.records ++ records ∧
        Coherent ledger' ∧ bytes = records.flatMap ExchangeRecord.write ++ rest := by
  induction count with
  | zero =>
    intro ledger ledger' bytes rest h hread
    simp only [readRecords, Reader.pure_eq_ok] at hread
    obtain ⟨rfl, rfl⟩ := hread
    exact ⟨[], rfl, by simp, h, rfl⟩
  | succ count ih =>
    intro ledger ledger' bytes rest h hread
    simp only [readRecords, Reader.bind_eq_ok, ExchangeRecord.exact_read _ _ _, Reader.call_eq_ok,
      Method.run_eq_ok] at hread
    obtain ⟨record, left, ⟨_, rfl⟩, staged, _, ⟨⟨_, hstage⟩, rfl⟩, hrest⟩ := hread
    obtain ⟨hvalid, hkey, hsize, _, _, rfl⟩ := stage_eq_ok.mp hstage
    obtain ⟨records, hlength, hrecords, hcoherent, rfl⟩ := ih (h.append hvalid hkey hsize) hrest
    refine ⟨record :: records, by simp [hlength], ?_, hcoherent, ?_⟩
    · rw [hrecords, List.append_assoc, List.singleton_append]
    · rw [List.flatMap_cons, List.append_assoc]

/-- Memory is never short. -/
def plenty : ℕ → Allocation := fun _ => ⟨true, true⟩

/-- The loop over the image of records that fit behind those already staged stages them all. -/
lemma readRecords_complete {records : List ExchangeRecord} :
    ∀ {staged : List ExchangeRecord} {rest : List Byte}, Coherent (ofRecords (staged ++ records)) →
      readRecords plenty records.length (ofRecords staged)
          (records.flatMap ExchangeRecord.write ++ rest) =
        .ok (ofRecords (staged ++ records), rest) := by
  induction records with
  | nil =>
    intro staged rest _
    simp only [List.length_nil, readRecords, Reader.pure_eq_ok, List.append_nil, List.flatMap_nil,
      List.nil_append, and_self]
  | cons record records ih =>
    intro staged rest h
    have hfront : Coherent (ofRecords (staged ++ [record])) :=
      @Coherent.append_left _ records (by simpa using h)
    have hvalid : record.validate = .ok () := hfront.valid record (by simp)
    have hkey : record.key ∉ (ofRecords staged).keys := by
      have hnodup := hfront.nodup
      rw [records_ofRecords, List.map_append, List.map_singleton, List.nodup_append] at hnodup
      rw [ofRecords, List.mem_toFinset]
      exact fun hmem => hnodup.2.2 _ hmem _ (by simp) rfl
    have hsize : (ofRecords staged).records.length < objectMaxSize := by
      have := hfront.length_le
      rw [records_ofRecords, List.length_append, List.length_singleton] at this
      exact this
    have hstaged : (⟨(ofRecords staged).records ++ [record],
        insert record.key (ofRecords staged).keys⟩ : AcceptedExchangeLedger) =
          ofRecords (staged ++ [record]) := by
      apply AcceptedExchangeLedger.ext
      · rfl
      · ext k
        simp [ofRecords]
    simp only [List.length_cons, readRecords, Reader.bind_eq_ok, ExchangeRecord.exact_read _ _ _,
      Reader.call_eq_ok, Method.run_eq_ok]
    refine ⟨record, records.flatMap ExchangeRecord.write ++ rest,
      ⟨ExchangeRecord.imaged_of_validate hvalid, ?_⟩, ofRecords (staged ++ [record]), _,
        ⟨⟨PUnit.unit, stage_eq_ok.mpr ⟨hvalid, hkey, hsize, rfl, rfl, hstaged.symm⟩⟩, rfl⟩, ?_⟩
    · rw [List.flatMap_cons, List.append_assoc]
    · rw [ih (by simpa using h), List.append_assoc, List.singleton_append]

/-- Every record takes at least 72 bytes. -/
lemma le_length_flatMap_write (records : List ExchangeRecord) :
    72 * records.length ≤ (records.flatMap ExchangeRecord.write).length := by
  induction records with
  | nil => simp
  | cons record records ih =>
    have := record.le_length_write
    rw [List.length_cons, List.flatMap_cons, List.length_append]
    omega

/-- **What is read has the image it was read from**, whatever memory does. -/
theorem fromCheckpoint_sound {allocation : ℕ → Allocation} {bytes : List Byte}
    {ledger : AcceptedExchangeLedger} (h : fromCheckpoint allocation bytes = .ok ledger) :
    Coherent ledger ∧ ledger.checkpoint = .ok bytes := by
  unfold fromCheckpoint readBody at h
  simp only [bind_eq_ok, throwIf_eq_ok, pure_eq_ok, Reader.bind_eq_ok, Reader.exact_word _ _ _ _,
    Reader.remaining_eq_ok, Reader.call_eq_ok, true_and, not_or, not_not, Prod.exists] at h
  obtain ⟨_, ⟨_, hmagic⟩, _, _, ⟨count, left, hcount, _, _, ⟨rfl, rfl⟩, _, _, ⟨_, rfl⟩, hread⟩, _,
    rfl, rfl⟩ := h
  obtain ⟨records, hlength, hrecords, hcoherent, rfl⟩ := readRecords_sound coherent_empty hread
  refine ⟨hcoherent, checkpoint_eq_ok.mpr ⟨hcoherent.valid, ?_⟩⟩
  have hall : bytes = magic ++ bytes.drop 8 := by rw [← hmagic, List.take_append_drop]
  rw [hall, hcount, image, hrecords, empty, List.nil_append, hlength, UInt64.ofNat_toNat,
    List.append_nil]

/-- **The image of a coherent ledger is read back.** -/
theorem fromCheckpoint_complete {ledger : AcceptedExchangeLedger} (h : Coherent ledger) :
    fromCheckpoint plenty (image ledger.records) = .ok ledger := by
  have hmagic : magic.length = 8 := by decide
  have hcount : (UInt64.ofNat ledger.records.length).toNat = ledger.records.length := by
    have := h.length_le
    unfold objectMaxSize at this
    rw [UInt64.toNat_ofNat', Nat.mod_eq_of_lt (by omega)]
  have hspace : 72 * ledger.records.length ≤
      (ledger.records.flatMap ExchangeRecord.write).length := le_length_flatMap_write _
  unfold fromCheckpoint readBody
  simp only [bind_eq_ok, throwIf_eq_ok, pure_eq_ok, Reader.bind_eq_ok, Reader.exact_word _ _ _ _,
    Reader.remaining_eq_ok, Reader.call_eq_ok, true_and, not_or, not_not, Prod.exists]
  refine ⟨(), ⟨?_, ?_⟩, ledger, [], ⟨UInt64.ofNat ledger.records.length,
    ledger.records.flatMap ExchangeRecord.write, ?_, _, _, ⟨rfl, rfl⟩, (), _, ⟨?_, rfl⟩, ?_⟩, (),
      rfl,
    rfl⟩
  · rw [image, List.length_append, List.length_append, hmagic, Reader.length_writeWord]
    omega
  · rw [image, List.take_left' hmagic]
  · rw [image, List.drop_left' hmagic]
  · rw [hcount]
    omega
  · rw [hcount]
    have hread := @readRecords_complete ledger.records [] []
      (by rw [List.nil_append, ← h.eq_ofRecords]; exact h)
    rw [List.append_nil, List.nil_append, ← h.eq_ofRecords] at hread
    exact hread

/-! ## Runs -/

/-- **One operation keeps the ledger coherent**, also when it throws. -/
theorem Coherent.apply {ledger : AcceptedExchangeLedger} (h : Coherent ledger)
    (operation : Operation) : Coherent (operation.apply ledger).2 := by
  cases operation with
  | stage record allocation => exact (h.stage record allocation).1
  | stageBatch records peers =>
    rcases hcase : stageExchangeBatch records peers ledger with ⟨result, ledger'⟩
    show Coherent (stageExchangeBatch records peers ledger).2
    rw [hcase]
    cases result with
    | error e =>
      rw [stageExchangeBatch_error h hcase]
      exact h
    | ok u =>
      obtain ⟨hcoherent, _⟩ := @Coherent.stageEach records _ h
      unfold stageExchangeBatch at hcase
      split at hcase
      · rename_i hstaged
        rw [hstaged] at hcoherent
        obtain ⟨_, rfl⟩ := Prod.mk.inj hcase
        exact hcoherent
      · cases hcase
      · cases hcase
  | restoreSize size =>
    show Coherent (AcceptedExchangeLedger.restoreSize size ledger)
    rw [restoreSize_eq h]
    refine @Coherent.append_left _ (ledger.records.drop size) ?_
    rw [List.take_append_drop, ← h.eq_ofRecords]
    exact h
  | clear => exact coherent_empty
  | checkpoint => exact h
  | fromCheckpoint allocation bytes =>
    show Coherent (Method.bind _ _ ledger).2
    unfold Method.bind Method.call
    rcases hcase : AcceptedExchangeLedger.fromCheckpoint allocation bytes with e | candidate
    · exact h
    · exact (fromCheckpoint_sound hcase).1

/-- **Every run leaves a coherent ledger.** -/
theorem coherent_runs (operations : List Operation) : Coherent (runs operations) := by
  have hrun : ∀ ledger, Coherent ledger → Coherent (operations.foldl
      (fun ledger operation => (operation.apply ledger).2) ledger) := by
    induction operations with
    | nil => exact fun ledger h => h
    | cons operation rest ih => exact fun ledger h => ih _ (h.apply operation)
  exact hrun empty coherent_empty

/-- **The mailbox of accepted exchanges along every run.**  The index is the set of the keys of the
records, which are distinct; a staging that throws changes nothing; restoring a size leaves the
first records and their keys; the checkpoint is read back bit for bit; an image that is read is the
checkpoint of what was read; and qualified keys are equal only for equal identities at equal points.

**Proof sketch.** Every operation keeps the ledger coherent, so the operations may be specified on
coherent ledgers.  The image is a concatenation of images with exact readers, and a qualified
context is peeled from the front. -/
theorem acceptedExchange_runs (operations : List Operation) :
    (runs operations).keys = ((runs operations).records.map ExchangeRecord.key).toFinset ∧
    ((runs operations).records.map ExchangeRecord.key).Nodup ∧
    (∀ record allocation e ledger,
      stage record allocation (runs operations) = (.error e, ledger) → ledger = runs operations) ∧
    (∀ size, (restoreSize size (runs operations)).records = (runs operations).records.take size ∧
      (restoreSize size (runs operations)).keys =
        (((runs operations).records.take size).map ExchangeRecord.key).toFinset) ∧
    (∃ bytes, (runs operations).checkpoint = .ok bytes ∧
      fromCheckpoint plenty bytes = .ok (runs operations)) ∧
    (∀ allocation bytes ledger, fromCheckpoint allocation bytes = .ok ledger →
      ledger.checkpoint = .ok bytes) ∧
    ∀ record record' qualified qualified' : ExchangeRecord, ∀ point point',
      record.qualifyRuntimePoint point = .ok qualified →
      record'.qualifyRuntimePoint point' = .ok qualified' → qualified.key = qualified'.key →
      record.key = record'.key ∧ point = point' := by
  have hcoherent := coherent_runs operations
  refine ⟨hcoherent.keys_eq, hcoherent.nodup, ?_, ?_, ?_, ?_, ?_⟩
  · intro record allocation e ledger hstage
    have hsame := atomic_stage record allocation (runs operations) e (by rw [hstage])
    rwa [hstage] at hsame
  · intro size
    rw [restoreSize_eq hcoherent]
    exact ⟨rfl, rfl⟩
  · exact ⟨_, checkpoint_eq_ok.mpr ⟨hcoherent.valid, rfl⟩, fromCheckpoint_complete hcoherent⟩
  · exact fun allocation bytes ledger h => (fromCheckpoint_sound h).2
  · exact fun record record' qualified qualified' point point' h h' hkey =>
      ExchangeRecord.eq_of_qualified_key h h' hkey

/-- The multiplicity one is an `int`. -/
lemma isInt_one : IsInt 1 := by decide

/-- A record with unit measure, flux two and weight one half. -/
def halfRecord : ExchangeRecord where
  operationIdentity := ⟨ascii "flux", by decide⟩
  occurrenceIdentity := ⟨ascii "face", by decide⟩
  evaluationContext := ⟨ascii "stage", by decide⟩
  quadratureIdentity := ⟨ascii "midpoint", by decide⟩
  orientation := -1
  faceMeasure := 0x3ff0000000000000
  numericalFlux := 0x4000000000000000
  temporalWeight := 0x3fe0000000000000
  multiplicity := 1
  orientation_isInt := by decide
  multiplicity_isInt := isInt_one

/-- After one record is staged, a second staging of it is refused and changes nothing, and the
ledger is restored from its checkpoint. -/
theorem acceptedExchange_runs_half :
    (runs [.stage halfRecord ⟨true, true⟩]).records = [halfRecord] ∧
      (stage halfRecord ⟨true, true⟩ (runs [.stage halfRecord ⟨true, true⟩])).2 =
        runs [.stage halfRecord ⟨true, true⟩] ∧
      ∃ bytes, (runs [.stage halfRecord ⟨true, true⟩]).checkpoint = .ok bytes ∧
        fromCheckpoint plenty bytes = .ok (runs [.stage halfRecord ⟨true, true⟩]) := by
  obtain ⟨_, _, hatomic, _, himage, _⟩ :=
    acceptedExchange_runs [.stage halfRecord ⟨true, true⟩]
  have hduplicate : (stage halfRecord ⟨true, true⟩ (runs [.stage halfRecord ⟨true, true⟩])).1 =
      .error (invalidArgument
        "duplicate accepted exchange occurrence/quadrature contribution") := by
    decide +kernel
  exact ⟨by decide +kernel, hatomic _ _ _ _ (Prod.ext hduplicate rfl), himage⟩

end AcceptedExchangeLedger

end Pops
