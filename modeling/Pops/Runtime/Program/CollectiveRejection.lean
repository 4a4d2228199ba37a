import Pops.Foundation.Lockstep
import Pops.Runtime.Program.StepRejection

/-!
# Collective step rejection

Every rank runs a callback and a completion.  The callback may reject the step attempt, and either
may fail.  The ranks first agree on failures, then on rejections: if some rank has rejected, the
ranks compare the envelopes, and all of them throw the one rejection.

## Main definitions

* `Pops.StepRejection.Thrown` — what a callback may throw.
* `Pops.StepRejection.collectivelyRethrow` — `collectively_rethrow_exception`.
* `Pops.StepRejection.allRanksAgree` — `all_ranks_agree_exact_ordered_byte_pairs`.
* `Pops.StepRejection.rethrow`, `phase` — `rethrow` and `collective_step_rejection_phase`.
* `Pops.StepRejection.RunsTo` — all ranks run to one outcome.
* `Pops.StepRejection.Ends` — the outcome that the callbacks and completions call for.

## Main results

* `Pops.StepRejection.runs_collectivelyRethrow` — failures are agreed on.
* `Pops.StepRejection.runs_selectPayload` — one envelope is selected on all ranks.
* `Pops.StepRejection.phase_is_collective` — all ranks return, throw one rejection or fail.
-/

namespace Pops.StepRejection

open Lockstep

/-! ## Exceptions -/

/-- `solve_status_name`: the name of a status in a message. -/
def SolveStatus.name : SolveStatus → String
  | .solved => "solved"
  | .singular => "singular"
  | .breakdown => "breakdown"
  | .iterationLimit => "iteration_limit"
  | .invalidEvaluation => "invalid_evaluation"
  | .capabilityFailure => "capability_failure"
  | .invalidInput => "invalid_input"
  | .incompatibleRhs => "incompatible_rhs"
  | .inadmissibleCandidate => "inadmissible_candidate"
  | .safeguardFailure => "safeguard_failure"

/-- `step_attempt_disposition_name`: the name of a disposition in a message. -/
def StepAttemptDisposition.name : StepAttemptDisposition → String
  | .retry => "retry"
  | .reject => "reject"

/-- `StepAttemptRejected`: its fields and its text. -/
structure StepAttemptRejected where
  envelope : Envelope
  what : List Byte
  deriving DecidableEq

/-- The text of a rejection that is built from all five fields. -/
def Envelope.message (envelope : Envelope) : List Byte :=
  let qualified := ascii "attempt_action=" ++ ascii envelope.disposition.name ++
    ascii ", reason_code=" ++ ascii (toString envelope.reasonCode.toNat) ++
    (if envelope.detail.val = [] then [] else ascii ", " ++ envelope.detail.val)
  ascii "step attempt rejected during " ++ envelope.phase.val ++ ascii ": solve status=" ++
    ascii envelope.status.name ++
    (if qualified = [] then [] else ascii " (" ++ qualified ++ ascii ")")

/-- The constructor of `StepAttemptRejected` that `rethrow` calls. -/
def Envelope.rejection (envelope : Envelope) : StepAttemptRejected := ⟨envelope, envelope.message⟩

/-- What a callback may throw: a rejection, another standard exception or anything else. -/
inductive Thrown
  | rejected (control : StepAttemptRejected)
  | standard (kind : ExceptionKind) (what : List Byte)
  | badAlloc
  | nonStandard
  deriving DecidableEq

/-- A standard exception. -/
def Thrown.ofException (e : Exception) : Thrown := .standard e.kind (ascii e.what)

/-- The part of the diagnostic that describes an exception. -/
def Thrown.describe : Thrown → List Byte
  | .rejected control => control.what
  | .standard _ what => what
  | .badAlloc => ascii "std::bad_alloc"
  | .nonStandard => ascii "non-standard exception"

/-- A step rejection. -/
def Thrown.IsRejection (e : Thrown) : Prop := ∃ control, e = .rejected control

/-! ## The collective operations -/

/-- Bytes as a buffer. -/
def toBuffer (bytes : List Byte) : List ℤ := bytes.map fun b => (b.toNat : ℤ)

/-- A buffer as bytes. -/
def ofBuffer (buffer : List ℤ) : List Byte := buffer.map fun z => UInt8.ofNat z.toNat

/-- `broadcast_bytes_inplace`; an empty buffer is not sent. -/
def broadcastBytes (bytes : List Byte) (root : ℤ) : Ranked Thrown (List Byte) :=
  if bytes = [] then pure bytes
  else do
    let reply ← collective ⟨.broadcast root, toBuffer bytes⟩
    pure (ofBuffer reply)

/-- `std::string::resize`. -/
def resize (bytes : List Byte) (size : ℕ) : List Byte :=
  (bytes ++ List.replicate (size - bytes.length) 0).take size

/-- `all_reduce_max(failed, communicator) != 0` after an allocation, which does not fail. -/
def agreeOnAllocation : Ranked Thrown Unit := do
  let failed ← allReduceMax 0
  raiseWhen (failed ≠ 0) .badAlloc

/-- The last part of `collectively_rethrow_exception`: the diagnostic of the root is sent to all
ranks. -/
def sendDiagnostic (diagnostic : List Byte) (root : ℤ) : Ranked Thrown Unit := do
  agreeOnAllocation
  let invalid ← allReduceMax (flag ((diagnostic.length : ℤ) > int64Max))
  raiseWhen (invalid ≠ 0)
    (.ofException (lengthError "collective exception diagnostic exceeds long capacity"))
  let length ← allReduceMax (diagnostic.length : ℤ)
  agreeOnAllocation
  let text ← broadcastBytes (resize diagnostic length.toNat) root
  raise (.standard .runtimeError text)

/-- The diagnostic that a rank prepares. -/
def rankDiagnostic (localError : Option Thrown) (rank : ℕ) (root : ℤ) (message : List Byte) :
    List Byte :=
  if (rank : ℤ) = root then
    message ++ ascii "; rank " ++ ascii (toString root) ++ ascii ": " ++
      (localError.map Thrown.describe).getD []
  else []

/-- `collectively_rethrow_exception`: throw on every rank what one of them has thrown. -/
def collectivelyRethrow (localError : Option Thrown) (rank size : ℕ) (message : List Byte) :
    Ranked Thrown Unit := do
  let failed ← allReduceMax (flag (localError.isSome = true))
  if failed = 0 then pure ()
  else
    match size == 1, localError with
    | true, some e => raise e
    | _, _ => do
      let root ← allReduceMin (if localError.isSome = true then (rank : ℤ) else (size : ℤ))
      sendDiagnostic (rankDiagnostic localError rank root message) root

/-- The check of the lengths in `all_ranks_agree_exact_ordered_byte_pairs`. -/
def invalidLengths : List (List Byte × List Byte) → ℕ → Bool
  | [], _ => false
  | (first, second) :: values, payload =>
    if (first.length : ℤ) > int64Max ∨ (second.length : ℤ) > int64Max ∨
        first.length > sizeMax - payload ∨ second.length > sizeMax - payload - first.length then
      true
    else invalidLengths values (payload + first.length + second.length)

/-- Consensus on the bytes of all pairs. -/
def agreeOnBytes (values : List (List Byte × List Byte)) : Ranked Thrown Bool := do
  agreeOnAllocation
  consensus (toBuffer (values.flatMap fun value => value.1 ++ value.2))

/-- Consensus on the lengths of all pairs. -/
def agreeOnLengths (values : List (List Byte × List Byte)) : Ranked Thrown Bool := do
  let invalid ← allReduceMax (flag (invalidLengths values 0 = true))
  raiseWhen (invalid ≠ 0)
    (.ofException (lengthError "exact collective consensus payload size overflows capacity"))
  agreeOnAllocation
  let agree ← consensus (values.flatMap fun value => [(value.1.length : ℤ), (value.2.length : ℤ)])
  if agree = true then agreeOnBytes values else pure false

/-- `all_ranks_agree_exact_ordered_byte_pairs`: every rank holds the same pairs, in the same order.
-/
def allRanksAgree (values : List (List Byte × List Byte)) : Ranked Thrown Bool := do
  let invalid ← allReduceMax
    (flag ((values.length : ℤ) > int64Max ∨ values.length > sizeMax / 2))
  raiseWhen (invalid ≠ 0)
    (.ofException (lengthError "exact collective consensus pair count exceeds long capacity"))
  let agree ← consensus [(values.length : ℤ)]
  if agree = true then agreeOnLengths values else pure false

/-! ## The phase -/

/-- What a rank brings to the agreement on rejections: its envelope, if it has rejected. -/
abbrev Rejection := Option Envelope

/-- The envelope as bytes; empty on a rank that has not rejected. -/
def payload (contract : Contract) (rejection : Rejection) : List Byte :=
  match rejection with
  | none => []
  | some envelope => encode envelope contract

/-- The branch of `rethrow` in which every rank has rejected. -/
def selectCommon (contract : Contract) (rejection : Rejection) : Ranked Thrown (List Byte) := do
  let agree ← allRanksAgree [(contract.agreement, payload contract rejection)]
  raiseWhen (agree = false)
    (.ofException (runtimeError "collective step rejection fields differ between ranks"))
  pure (payload contract rejection)

/-- The envelope of the root is sent to all ranks and compared. -/
def sendEnvelope (contract : Contract) (rejection : Rejection) (rank : ℕ) (root : ℤ) (length : ℤ) :
    Ranked Thrown (List Byte) := do
  agreeOnAllocation
  let selected ← broadcastBytes
    (resize (if (rank : ℤ) = root then payload contract rejection else []) length.toNat) root
  let mismatch ← allReduceMax
    (flag (rejection.isSome = true ∧ payload contract rejection ≠ selected))
  raiseWhen (mismatch ≠ 0)
    (.ofException (runtimeError "collective step rejection fields differ between rejecting ranks"))
  pure selected

/-- The branch of `rethrow` in which some rank has not rejected. -/
def selectFromRoot (contract : Contract) (rejection : Rejection) (rank size : ℕ) :
    Ranked Thrown (List Byte) := do
  let root ← allReduceMin (if rejection.isSome = true then (rank : ℤ) else (size : ℤ))
  raiseWhen (root < 0 ∨ root ≥ (size : ℤ))
    (.ofException (runtimeError "collective step rejection lost its typed envelope"))
  let invalid ← allReduceMax
    (flag ((rank : ℤ) = root ∧ ((payload contract rejection).length : ℤ) > int64Max))
  raiseWhen (invalid ≠ 0)
    (.ofException (lengthError "collective step rejection envelope exceeds long capacity"))
  let length ← allReduceMax
    (if (rank : ℤ) = root then ((payload contract rejection).length : ℤ) else 0)
  raiseWhen (length ≤ 0)
    (.ofException (runtimeError "collective step rejection envelope is empty"))
  sendEnvelope contract rejection rank root length

/-- The first part of `rethrow`: one envelope for all ranks. -/
def selectPayload (contract : Contract) (rejection : Rejection) (rank size : ℕ) :
    Ranked Thrown (List Byte) := do
  let all ← allReduceMin (flag (rejection.isSome = true))
  if all ≠ 0 then selectCommon contract rejection
  else selectFromRoot contract rejection rank size

/-- The last part of `rethrow`: a failure to decode is agreed on before any rank throws. -/
def throwSelected (contract : Contract) (selected : List Byte) (rank size : ℕ) :
    Ranked Thrown Unit :=
  match decode selected contract with
  | .ok envelope => do
    collectivelyRethrow none rank size (ascii "collective rejection decoding failed")
    raise (.rejected envelope.rejection)
  | .error e =>
    collectivelyRethrow (some (.ofException e)) rank size
      (ascii "collective rejection decoding failed")

/-- `rethrow`: rebuild the exception of a decoded envelope and throw it. -/
def rethrow (contract : Contract) (rejection : Rejection) (rank size : ℕ) :
    Ranked Thrown Unit := do
  let selected ← selectPayload contract rejection rank size
  throwSelected contract selected rank size

/-- The rejection of a callback. -/
def rejectionOf (body : Except Thrown Unit) : Rejection :=
  match body with
  | .error (.rejected control) => some control.envelope
  | _ => none

/-- The local failure: an exception of the completion replaces one of the callback. -/
def localError (body completion : Except Thrown Unit) : Option Thrown :=
  match completion with
  | .error e => some e
  | .ok () =>
    match body with
    | .error (.rejected _) => none
    | .error e => some e
    | .ok () => none

/-- `collective_step_rejection_phase` on one rank, whose callback and completion end as given. -/
def phase (contract : Contract) (failure : List Byte) (rank size : ℕ)
    (body completion : Except Thrown Unit) : Ranked Thrown Unit := do
  collectivelyRethrow (localError body completion) rank size failure
  let rejected ← allReduceMax (flag ((rejectionOf body).isSome = true))
  if rejected ≠ 0 then rethrow contract (rejectionOf body) rank size else pure ()

/-! ## Rules for the collective operations -/

variable {n : ℕ}

/-- The bytes of a buffer are read back. -/
lemma ofBuffer_toBuffer (bytes : List Byte) : ofBuffer (toBuffer bytes) = bytes := by
  simp [ofBuffer, toBuffer, Function.comp_def]

/-- Different bytes fill different buffers. -/
lemma toBuffer_injective : Function.Injective toBuffer :=
  Function.LeftInverse.injective ofBuffer_toBuffer

/-- Resizing to the length of the bytes changes nothing. -/
lemma resize_length (bytes : List Byte) : resize bytes bytes.length = bytes := by
  simp [resize]

/-- A resized string has the given size. -/
@[simp] lemma length_resize (bytes : List Byte) (size : ℕ) :
    (resize bytes size).length = size := by
  simp [resize]
  omega

/-- The buffer of the root reaches all ranks. -/
lemma runs_broadcastBytes (root : Fin (n + 1)) (buffer : Fin (n + 1) → List Byte)
    (hlength : ∀ rank, (buffer rank).length = (buffer 0).length) :
    Executes exactReply (fun rank => broadcastBytes (buffer rank) (root.val : ℤ))
      (fun _ => .ok (buffer root)) := by
  by_cases hempty : buffer root = []
  · have hnil : ∀ rank, buffer rank = [] := by
      intro rank
      have := hlength root
      rw [hempty, List.length_nil] at this
      exact List.length_eq_zero_iff.mp ((hlength rank).trans this.symm)
    simp only [broadcastBytes, hnil, if_true]
    exact runs_pure _
  · have hne : ∀ rank, buffer rank ≠ [] := by
      intro rank h
      have hroot := hlength root
      rw [← hlength rank, h, List.length_nil] at hroot
      exact hempty (List.length_eq_zero_iff.mp hroot)
    simp only [broadcastBytes, hne, if_false]
    refine Executes.andThen (runs_broadcast root (fun rank => toBuffer (buffer rank)) ?_) ?_
    · intro rank
      simp [toBuffer, hlength rank]
    · rw [ofBuffer_toBuffer]
      exact runs_pure _

/-- Allocations do not fail. -/
lemma runs_agreeOnAllocation :
    Executes exactReply (fun _ : Fin (n + 1) => agreeOnAllocation) (fun _ => .ok ()) := by
  have hzero : (greatest fun _ : Fin (n + 1) => (0 : ℤ)) = 0 := by
    obtain ⟨rank, h⟩ := exists_eq_greatest fun _ : Fin (n + 1) => (0 : ℤ)
    exact h
  refine Executes.andThen (runs_allReduceMax fun _ => 0) ?_
  rw [hzero]
  exact runs_raiseWhen_neg fun _ h => h rfl

/-- The greatest of lengths of which only the root has one that counts. -/
lemma greatest_of_root {root : Fin (n + 1)} {value : ℤ} (hvalue : 0 ≤ value) :
    (greatest fun rank : Fin (n + 1) => if rank = root then value else 0) = value := by
  apply le_antisymm
  · obtain ⟨rank, h⟩ := exists_eq_greatest fun rank : Fin (n + 1) =>
      if rank = root then value else 0
    rw [h]
    split_ifs <;> omega
  · have := le_greatest (fun rank : Fin (n + 1) => if rank = root then value else 0) root
    rwa [if_pos rfl] at this

/-- After the diagnostic has been sent every rank throws a standard exception. -/
lemma runs_sendDiagnostic (root : Fin (n + 1)) (diagnostic : Fin (n + 1) → List Byte)
    (hothers : ∀ rank, rank ≠ root → diagnostic rank = []) :
    ∃ e : Thrown, ¬e.IsRejection ∧
      Executes exactReply (fun rank => sendDiagnostic (diagnostic rank) (root.val : ℤ))
        (fun _ => .error e) := by
  by_cases hlong : ((diagnostic root).length : ℤ) > int64Max
  · refine ⟨.ofException (lengthError "collective exception diagnostic exceeds long capacity"),
      by simp [Thrown.IsRejection, Thrown.ofException], ?_⟩
    refine Executes.andThen runs_agreeOnAllocation (Executes.andThen (runs_allReduceMax _) ?_)
    refine Executes.thrown (runs_raiseWhen_pos fun rank h => ?_)
    exact greatest_flag_eq_zero_iff.mp h root hlong
  · have hshort : ∀ rank, ¬((diagnostic rank).length : ℤ) > int64Max := by
      intro rank
      by_cases hrank : rank = root
      · rwa [hrank]
      · simp [hothers rank hrank, int64Max]
    have hlengths : (fun rank => ((diagnostic rank).length : ℤ)) =
        fun rank => if rank = root then ((diagnostic root).length : ℤ) else 0 := by
      funext rank
      split_ifs with hrank
      · rw [hrank]
      · simp [hothers rank hrank]
    have hgreatest : (greatest fun rank => ((diagnostic rank).length : ℤ)) =
        ((diagnostic root).length : ℤ) := by
      rw [hlengths, greatest_of_root (by omega)]
    refine ⟨.standard .runtimeError (diagnostic root), by simp [Thrown.IsRejection], ?_⟩
    refine Executes.andThen runs_agreeOnAllocation (Executes.andThen (runs_allReduceMax _) ?_)
    refine Executes.andThen (runs_raiseWhen_neg fun rank h => ?_) ?_
    · exact h (greatest_flag_eq_zero_iff.mpr hshort)
    refine Executes.andThen (runs_allReduceMax fun rank => ((diagnostic rank).length : ℤ)) ?_
    rw [hgreatest]
    refine Executes.andThen runs_agreeOnAllocation ?_
    refine Executes.andThen (runs_broadcastBytes root
      (fun rank => resize (diagnostic rank) (diagnostic root).length) (by simp)) ?_
    rw [resize_length]
    exact runs_raise _

/-- Ranks without a failure go on. -/
lemma runs_collectivelyRethrow_none (message : List Byte) (error : Fin (n + 1) → Option Thrown)
    (h : ∀ rank, error rank = none) :
    Executes exactReply
      (fun rank => collectivelyRethrow (error rank) rank.val (n + 1) message)
      (fun _ => .ok ()) := by
  refine Executes.andThen (runs_allReduceMax fun rank => flag ((error rank).isSome = true)) ?_
  have hzero : (greatest fun rank => flag ((error rank).isSome = true)) = 0 :=
    greatest_flag_eq_zero_iff.mpr fun rank => by simp [h rank]
  simp only [hzero, if_true]
  exact runs_pure _

/-- **Failures are agreed on**: if some rank has failed, a single rank throws its own exception,
and several ranks throw one standard exception. -/
theorem runs_collectivelyRethrow (message : List Byte) (error : Fin (n + 1) → Option Thrown)
    (h : ∃ rank, (error rank).isSome = true) :
    ∃ e : Thrown, (n = 0 ∧ error 0 = some e ∨ n ≠ 0 ∧ ¬e.IsRejection) ∧
      Executes exactReply
        (fun rank => collectivelyRethrow (error rank) rank.val (n + 1) message)
        (fun _ => .error e) := by
  have hfailed : (greatest fun rank => flag ((error rank).isSome = true)) ≠ 0 := by
    rw [Ne, greatest_flag_eq_zero_iff]
    push Not
    exact h
  by_cases hsingle : n = 0
  · subst hsingle
    obtain ⟨rank, hrank⟩ := h
    have hzero : ∀ rank : Fin (0 + 1), rank = 0 := fun rank => Fin.ext (by omega)
    rw [hzero rank] at hrank
    obtain ⟨e, he⟩ := Option.isSome_iff_exists.mp hrank
    refine ⟨e, Or.inl ⟨rfl, he⟩, ?_⟩
    refine Executes.andThen (runs_allReduceMax fun rank => flag ((error rank).isSome = true)) ?_
    have hall : ∀ rank, error rank = some e := fun rank => by rw [hzero rank, he]
    simp only [if_neg hfailed]
    simp only [hall]
    exact runs_raise fun _ => e
  · obtain ⟨root, hroot, hleast⟩ := exists_root h
    obtain ⟨e, he, hsend⟩ := runs_sendDiagnostic root
      (fun rank => rankDiagnostic (error rank) rank.val (root.val : ℤ) message) (by
        intro rank hne
        have : (rank.val : ℤ) ≠ (root.val : ℤ) := by
          intro heq
          exact hne (Fin.ext (by omega))
        simp [rankDiagnostic, this])
    refine ⟨e, Or.inr ⟨hsingle, he⟩, ?_⟩
    refine Executes.andThen (runs_allReduceMax fun rank => flag ((error rank).isSome = true)) ?_
    have hsize : (n + 1 == 1) = false := by simp [hsingle]
    simp only [hfailed, if_false, hsize]
    refine Executes.andThen (runs_allReduceMin _) ?_
    rw [hleast]
    exact hsend

/-! ## One envelope for all ranks -/

/-- One pair on every rank is compared exactly. -/
lemma runs_allRanksAgree {agreement : List Byte} (bytes : Fin (n + 1) → List Byte)
    (hagreement : (agreement.length : ℤ) ≤ int64Max)
    (hbytes : ∀ rank, ((bytes rank).length : ℤ) ≤ int64Max) :
    Executes exactReply (fun rank => allRanksAgree [(agreement, bytes rank)])
      (fun _ => .ok (decide (∀ rank, bytes rank = bytes 0))) := by
  have hvalid : ∀ rank, ¬invalidLengths [(agreement, bytes rank)] 0 = true := by
    intro rank
    have := hbytes rank
    unfold int64Max at this hagreement
    have hguard : ¬((agreement.length : ℤ) > int64Max ∨ ((bytes rank).length : ℤ) > int64Max ∨
        agreement.length > sizeMax - 0 ∨
        (bytes rank).length > sizeMax - 0 - agreement.length) := by
      unfold int64Max sizeMax
      omega
    simp only [invalidLengths, if_neg hguard, Bool.false_eq_true, not_false_eq_true]
  refine Executes.andThen (runs_allReduceMax _) (Executes.andThen (runs_raiseWhen_neg
    fun rank h => h (greatest_flag_eq_zero_iff.mpr fun _ => by simp [int64Max, sizeMax])) ?_)
  refine Executes.andThen (runs_consensus _ fun _ => rfl) ?_
  simp only [List.length_singleton, implies_true, decide_true, if_true]
  refine Executes.andThen (runs_allReduceMax _) (Executes.andThen (runs_raiseWhen_neg
    fun rank h => h (greatest_flag_eq_zero_iff.mpr hvalid)) ?_)
  refine Executes.andThen runs_agreeOnAllocation ?_
  refine Executes.andThen (runs_consensus _ fun _ => rfl) ?_
  simp only [List.flatMap_cons, List.flatMap_nil, List.append_nil, List.cons.injEq, and_true,
    true_and, Nat.cast_inj, decide_eq_true_eq]
  by_cases hlength : ∀ rank, (bytes rank).length = (bytes 0).length
  · simp only [if_pos hlength]
    refine Executes.andThen runs_agreeOnAllocation ?_
    have hconsensus := runs_consensus (ε := Thrown)
      (fun rank => toBuffer (agreement ++ bytes rank)) (by simp [toBuffer, hlength])
    have hiff : (∀ rank, toBuffer (agreement ++ bytes rank) = toBuffer (agreement ++ bytes 0)) ↔
        ∀ rank, bytes rank = bytes 0 := by
      refine forall_congr' fun rank => ?_
      rw [toBuffer_injective.eq_iff, List.append_cancel_left_eq]
    simp only [hiff] at hconsensus
    simpa using hconsensus
  · simp only [if_neg hlength]
    have hne : ¬∀ rank, bytes rank = bytes 0 :=
      fun h => hlength fun rank => by rw [h rank]
    simp only [hne, decide_false]
    exact runs_pure _

/-- An envelope is never empty. -/
lemma payload_length_pos (contract : Contract) (envelope : Envelope) :
    0 < (encode envelope contract).length := by
  rw [encode_eq]
  simp only [List.length_append, length_bigEndian]
  omega

section Selection

variable {contract : Contract} {rejection : Fin (n + 1) → Rejection}

/-- All rejecting ranks carry the same fields. -/
def CommonEnvelope (rejection : Fin (n + 1) → Rejection) (envelope : Envelope) : Prop :=
  ∀ rank e, rejection rank = some e → e = envelope

/-- The comparison of the numbers of two ranks. -/
lemma rank_cast_eq_iff (rank root : Fin (n + 1)) :
    ((rank.val : ℤ) = (root.val : ℤ)) ↔ rank = root := by
  rw [Nat.cast_inj, Fin.val_inj]

/-- Payloads of rejecting ranks are equal exactly if the fields are. -/
lemma payload_eq_iff {rank : Fin (n + 1)} {envelope : Envelope} {e : Envelope}
    (he : rejection rank = some e) :
    payload contract (rejection rank) = encode envelope contract ↔ e = envelope := by
  rw [he, payload]
  exact ⟨encode_injective, fun h => by rw [h]⟩

variable (hagreement : (contract.agreement.length : ℤ) ≤ int64Max)
  (hshort : ∀ rank e, rejection rank = some e → ((encode e contract).length : ℤ) ≤ int64Max)

include hshort

/-- The payload of every rank fits. -/
lemma payload_length_le (rank : Fin (n + 1)) :
    ((payload contract (rejection rank)).length : ℤ) ≤ int64Max := by
  cases h : rejection rank with
  | none => simp [payload, int64Max]
  | some e => exact hshort rank e h

include hagreement

/-- Every rank has rejected: the payloads are compared. -/
lemma runs_selectCommon {envelope : Envelope} (hall : ∀ rank, (rejection rank).isSome = true)
    (henvelope : rejection 0 = some envelope) :
    (CommonEnvelope rejection envelope ∧
      Executes exactReply (fun rank => selectCommon contract (rejection rank))
        (fun _ => .ok (encode envelope contract))) ∨
    (¬CommonEnvelope rejection envelope ∧ ∃ e : Thrown, ¬e.IsRejection ∧
      Executes exactReply (fun rank => selectCommon contract (rejection rank))
        (fun _ => .error e)) := by
  have hagree := runs_allRanksAgree (fun rank => payload contract (rejection rank))
    hagreement (payload_length_le hshort)
  have hzero : payload contract (rejection 0) = encode envelope contract := by
    rw [henvelope, payload]
  by_cases hcommon : ∀ rank, payload contract (rejection rank) = payload contract (rejection 0)
  · refine Or.inl ⟨?_, ?_⟩
    · intro rank e he
      exact (payload_eq_iff he).mp ((hcommon rank).trans hzero)
    · refine Executes.andThen hagree (Executes.andThen (runs_raiseWhen_neg fun _ => ?_) ?_)
      · simp [hcommon]
      · simp only [hcommon, hzero]
        exact runs_pure _
  · refine Or.inr ⟨?_, .ofException
      (runtimeError "collective step rejection fields differ between ranks"),
      by simp [Thrown.IsRejection, Thrown.ofException], ?_⟩
    · intro henv
      refine hcommon fun rank => ?_
      obtain ⟨e, he⟩ := Option.isSome_iff_exists.mp (hall rank)
      exact ((payload_eq_iff he).mpr (henv rank e he)).trans hzero.symm
    · exact Executes.andThen hagree
        (Executes.thrown (runs_raiseWhen_pos fun _ => by simp [hcommon]))

omit hagreement
omit hshort in
/-- The envelope of the root reaches all ranks and is compared with theirs. -/
lemma runs_sendEnvelope {root : Fin (n + 1)} {envelope : Envelope}
    (hroot : rejection root = some envelope) :
    (CommonEnvelope rejection envelope ∧
      Executes exactReply (fun rank => sendEnvelope contract (rejection rank) rank.val
        (root.val : ℤ) ((encode envelope contract).length : ℤ))
        (fun _ => .ok (encode envelope contract))) ∨
    (¬CommonEnvelope rejection envelope ∧ ∃ e : Thrown, ¬e.IsRejection ∧
      Executes exactReply (fun rank => sendEnvelope contract (rejection rank) rank.val
        (root.val : ℤ) ((encode envelope contract).length : ℤ)) (fun _ => .error e)) := by
  have hbroadcast := runs_broadcastBytes root (fun rank => resize
    (if (rank.val : ℤ) = (root.val : ℤ) then payload contract (rejection rank) else [])
    ((encode envelope contract).length : ℤ).toNat) (fun _ => by rw [length_resize, length_resize])
  have hselected : resize (if (root.val : ℤ) = (root.val : ℤ) then
      payload contract (rejection root) else []) ((encode envelope contract).length : ℤ).toNat =
      encode envelope contract := by
    rw [if_pos rfl, hroot, payload, Int.toNat_natCast, resize_length]
  rw [hselected] at hbroadcast
  have hmismatch : (greatest fun rank => flag ((rejection rank).isSome = true ∧
      payload contract (rejection rank) ≠ encode envelope contract)) = 0 ↔
      CommonEnvelope rejection envelope := by
    rw [greatest_flag_eq_zero_iff]
    refine forall_congr' fun rank => ?_
    cases h : rejection rank with
    | none => simp
    | some e =>
      rw [← h, Ne, payload_eq_iff h, h]
      simp
  by_cases hcommon : CommonEnvelope rejection envelope
  · refine Or.inl ⟨hcommon, ?_⟩
    refine Executes.andThen runs_agreeOnAllocation (Executes.andThen hbroadcast ?_)
    refine Executes.andThen (runs_allReduceMax _) (Executes.andThen (runs_raiseWhen_neg
      fun _ h => h (hmismatch.mpr hcommon)) (runs_pure _))
  · refine Or.inr ⟨hcommon, .ofException (runtimeError
      "collective step rejection fields differ between rejecting ranks"),
      by simp [Thrown.IsRejection, Thrown.ofException], ?_⟩
    refine Executes.andThen runs_agreeOnAllocation (Executes.andThen hbroadcast ?_)
    exact Executes.andThen (runs_allReduceMax _) (Executes.thrown (runs_raiseWhen_pos
      fun _ h => hcommon (hmismatch.mp h)))

/-- Some rank has not rejected: the envelope of the first rejecting rank is selected. -/
lemma runs_selectFromRoot (h : ∃ rank, (rejection rank).isSome = true) :
    ∃ root envelope, rejection root = some envelope ∧
      ((CommonEnvelope rejection envelope ∧
        Executes exactReply (fun rank => selectFromRoot contract (rejection rank) rank.val (n + 1))
          (fun _ => .ok (encode envelope contract))) ∨
      (¬CommonEnvelope rejection envelope ∧ ∃ e : Thrown, ¬e.IsRejection ∧
        Executes exactReply (fun rank => selectFromRoot contract (rejection rank) rank.val (n + 1))
          (fun _ => .error e))) := by
  obtain ⟨root, hroot, hleast⟩ := exists_root h
  obtain ⟨envelope, henvelope⟩ := Option.isSome_iff_exists.mp hroot
  have hsend := @runs_sendEnvelope n contract rejection root envelope henvelope
  -- up to the broadcast every rank passes every guard
  have hpass : ∀ outcome, Executes exactReply (fun rank => sendEnvelope contract (rejection rank)
      rank.val (root.val : ℤ) ((encode envelope contract).length : ℤ)) outcome →
      Executes exactReply
        (fun rank => selectFromRoot contract (rejection rank) rank.val (n + 1)) outcome := by
    intro outcome hrun
    have hlt := root.isLt
    have hlengths : (fun rank : Fin (n + 1) => if (rank.val : ℤ) = (root.val : ℤ) then
        ((payload contract (rejection rank)).length : ℤ) else 0) =
        fun rank => if rank = root then ((encode envelope contract).length : ℤ) else 0 := by
      funext rank
      simp only [rank_cast_eq_iff]
      split_ifs with hrank
      · rw [hrank, henvelope, payload]
      · rfl
    have hpositive := payload_length_pos contract envelope
    refine Executes.andThen (runs_allReduceMin _) ?_
    rw [hleast]
    refine Executes.andThen (runs_raiseWhen_neg fun _ => by omega) ?_
    refine Executes.andThen (runs_allReduceMax _) (Executes.andThen (runs_raiseWhen_neg
      fun rank hflag => hflag (greatest_flag_eq_zero_iff.mpr fun rank hlong => ?_)) ?_)
    · exact absurd (payload_length_le hshort rank) (not_le.mpr hlong.2)
    refine Executes.andThen (runs_allReduceMax _) ?_
    rw [hlengths, greatest_of_root (by omega)]
    exact Executes.andThen (runs_raiseWhen_neg fun _ => by omega) hrun
  refine ⟨root, envelope, henvelope, ?_⟩
  rcases hsend with ⟨hcommon, hrun⟩ | ⟨hcommon, e, he, hrun⟩
  · exact Or.inl ⟨hcommon, hpass _ hrun⟩
  · exact Or.inr ⟨hcommon, e, he, hpass _ hrun⟩

include hagreement

/-- **One envelope is selected on all ranks**, if the rejecting ranks agree; otherwise all ranks
fail. -/
theorem runs_selectPayload (h : ∃ rank, (rejection rank).isSome = true) :
    ∃ root envelope, rejection root = some envelope ∧
      ((CommonEnvelope rejection envelope ∧
        Executes exactReply (fun rank => selectPayload contract (rejection rank) rank.val (n + 1))
          (fun _ => .ok (encode envelope contract))) ∨
      (¬CommonEnvelope rejection envelope ∧ ∃ e : Thrown, ¬e.IsRejection ∧
        Executes exactReply (fun rank => selectPayload contract (rejection rank) rank.val (n + 1))
          (fun _ => .error e))) := by
  have hpass : ∀ (c : Prop) [Decidable c] outcome,
      ((least fun rank => flag ((rejection rank).isSome = true)) ≠ 0 ↔ c) →
      Executes exactReply (fun rank => if c then selectCommon contract (rejection rank)
        else selectFromRoot contract (rejection rank) rank.val (n + 1)) outcome →
      Executes exactReply
        (fun rank => selectPayload contract (rejection rank) rank.val (n + 1)) outcome := by
    intro c _ outcome hc hrun
    refine Executes.andThen (runs_allReduceMin fun rank => flag ((rejection rank).isSome = true)) ?_
    simp only [hc]
    exact hrun
  by_cases hall : ∀ rank, (rejection rank).isSome = true
  · obtain ⟨envelope, henvelope⟩ := Option.isSome_iff_exists.mp (hall 0)
    have hleast : (least fun rank => flag ((rejection rank).isSome = true)) ≠ 0 ↔ True := by
      rw [Ne, least_flag_eq_zero_iff, iff_true]
      push Not
      exact hall
    refine ⟨0, envelope, henvelope, ?_⟩
    rcases runs_selectCommon hagreement hshort hall henvelope with ⟨hcommon, hrun⟩ |
      ⟨hcommon, e, he, hrun⟩
    · exact Or.inl ⟨hcommon, hpass True _ hleast (by simpa using hrun)⟩
    · exact Or.inr ⟨hcommon, e, he, hpass True _ hleast (by simpa using hrun)⟩
  · have hleast : (least fun rank => flag ((rejection rank).isSome = true)) ≠ 0 ↔ False := by
      rw [Ne, least_flag_eq_zero_iff, iff_false, not_not]
      push Not at hall
      exact hall
    obtain ⟨root, envelope, henvelope, hselect⟩ :=
      @runs_selectFromRoot n contract rejection hshort h
    refine ⟨root, envelope, henvelope, ?_⟩
    rcases hselect with ⟨hcommon, hrun⟩ | ⟨hcommon, e, he, hrun⟩
    · exact Or.inl ⟨hcommon, hpass False _ hleast (by simpa using hrun)⟩
    · exact Or.inr ⟨hcommon, e, he, hpass False _ hleast (by simpa using hrun)⟩

end Selection

/-! ## All ranks together -/

section Phase

variable {contract : Contract} {body : Fin (n + 1) → Except Thrown Unit}

/-- After the same envelope has been selected, all ranks throw its rejection if it meets the
contract, and otherwise all of them fail. -/
lemma runs_throwSelected (contract : Contract) (envelope : Envelope) :
    (envelope.Meets contract ∧
      Executes exactReply (fun rank : Fin (n + 1) =>
        throwSelected contract (encode envelope contract) rank.val (n + 1))
        (fun _ => .error (.rejected envelope.rejection))) ∨
    (¬envelope.Meets contract ∧ ∃ e : Thrown, ¬e.IsRejection ∧
      Executes exactReply (fun rank : Fin (n + 1) =>
        throwSelected contract (encode envelope contract) rank.val (n + 1))
        (fun _ => .error e)) := by
  cases hdecode : decode (encode envelope contract) contract with
  | ok decoded =>
    obtain ⟨hmeets, hencode⟩ := decode_eq_ok_iff.mp hdecode
    obtain rfl := encode_injective hencode
    refine Or.inl ⟨hmeets, ?_⟩
    simp only [throwSelected, hdecode]
    exact Executes.andThen (runs_collectivelyRethrow_none _ _ fun _ => rfl) (runs_raise _)
  | error e =>
    refine Or.inr ⟨?_, ?_⟩
    · intro hmeets
      rw [decode_eq_ok_iff.mpr ⟨hmeets, rfl⟩] at hdecode
      cases hdecode
    · obtain ⟨thrown, hthrown, hrun⟩ := runs_collectivelyRethrow
        (ascii "collective rejection decoding failed")
        (fun _ : Fin (n + 1) => some (Thrown.ofException e)) ⟨0, rfl⟩
      refine ⟨thrown, ?_, by simpa only [throwSelected, hdecode] using hrun⟩
      rcases hthrown with ⟨-, hlocal⟩ | ⟨-, hthrown⟩
      · rw [← Option.some.inj hlocal]
        simp [Thrown.IsRejection, Thrown.ofException]
      · exact hthrown

/-- No callback and no completion has failed otherwise than by a rejection of the callback. -/
def NoFailure (body completion : Fin (n + 1) → Except Thrown Unit) : Prop :=
  ∀ rank, completion rank = .ok () ∧
    (body rank = .ok () ∨ ∃ control, body rank = .error (.rejected control))

/-- The ranks throw the rejection with the given fields: nothing has failed, some callback has
rejected, all rejections have these fields, and these meet the contract. -/
def RejectsWith (contract : Contract) (body completion : Fin (n + 1) → Except Thrown Unit)
    (envelope : Envelope) : Prop :=
  NoFailure body completion ∧ (∃ rank control, body rank = .error (.rejected control)) ∧
    (∀ rank control, body rank = .error (.rejected control) → control.envelope = envelope) ∧
    envelope.Meets contract

/-- A rank has no error of its own when its checks pass and its body returns or is rejected. -/
lemma localError_eq_none_iff {b c : Except Thrown Unit} :
    localError b c = none ↔
      c = .ok () ∧ (b = .ok () ∨ ∃ control, b = .error (.rejected control)) := by
  unfold localError
  cases c with
  | error e => simp
  | ok u =>
    cases b with
    | ok v => simp
    | error e => cases e <;> simp

/-- The envelope of a rank is that of its rejection. -/
lemma rejectionOf_eq_some_iff {b : Except Thrown Unit} {envelope : Envelope} :
    rejectionOf b = some envelope ↔
      ∃ control, b = .error (.rejected control) ∧ control.envelope = envelope := by
  unfold rejectionOf
  cases b with
  | ok u => simp
  | error e => cases e <;> simp

/-- The end of all ranks: they return, they throw one rejection, a single rank throws the rejection
of its completion, or they throw one other error; each with its condition. -/
inductive Ends (contract : Contract) (body completion : Fin (n + 1) → Except Thrown Unit) :
    Except Thrown Unit → Prop
  | returned (h : ∀ rank, body rank = .ok () ∧ completion rank = .ok ()) :
    Ends contract body completion (.ok ())
  | rejected (envelope : Envelope) (h : RejectsWith contract body completion envelope) :
    Ends contract body completion (.error (.rejected envelope.rejection))
  | alone (control : StepAttemptRejected) (hn : n = 0)
    (h : completion 0 = .error (.rejected control)) :
    Ends contract body completion (.error (.rejected control))
  | thrown (e : Thrown) (hnot : ¬e.IsRejection)
    (hreturned : ¬∀ rank, body rank = .ok () ∧ completion rank = .ok ())
    (hno : ∀ envelope, ¬RejectsWith contract body completion envelope)
    (halone : ∀ control, ¬(n = 0 ∧ completion 0 = .error (.rejected control))) :
    Ends contract body completion (.error e)

/-- The ranks run to one outcome. -/
def RunsTo (contract : Contract) (failure : List Byte)
    (body completion : Fin (n + 1) → Except Thrown Unit) (outcome : Except Thrown Unit) : Prop :=
  Executes exactReply (fun rank => phase contract failure rank.val (n + 1) (body rank)
    (completion rank)) fun _ => outcome

section Cases

variable {completion : Fin (n + 1) → Except Thrown Unit} (failure : List Byte)

/-- When nothing has failed, no rank throws in the first collective. -/
lemma NoFailure.runs (h : NoFailure body completion) :
    Executes exactReply (fun rank : Fin (n + 1) => collectivelyRethrow
      (localError (body rank) (completion rank)) rank.val (n + 1) failure) fun _ => .ok () :=
  runs_collectivelyRethrow_none failure (fun rank => localError (body rank) (completion rank))
    fun rank => localError_eq_none_iff.mpr (h rank)

/-- Nothing has failed and no callback has rejected: all ranks return. -/
lemma runsTo_returns (hfailure : NoFailure body completion)
    (hrejected : ∀ rank control, body rank ≠ .error (.rejected control)) :
    RunsTo contract failure body completion (.ok ()) ∧
      ∀ rank, body rank = .ok () ∧ completion rank = .ok () := by
  have hbody : ∀ rank, body rank = .ok () := by
    intro rank
    rcases (hfailure rank).2 with h | ⟨control, h⟩
    · exact h
    · exact absurd h (hrejected rank control)
  have hflag : (greatest fun rank => flag ((rejectionOf (body rank)).isSome = true)) = 0 :=
    greatest_flag_eq_zero_iff.mpr fun rank => by simp [rejectionOf, hbody rank]
  refine ⟨?_, fun rank => ⟨hbody rank, (hfailure rank).1⟩⟩
  refine Executes.andThen (hfailure.runs failure) (Executes.andThen (runs_allReduceMax _) ?_)
  simp only [hflag, ne_eq, not_true_eq_false, if_false]
  exact runs_pure _

/-- Nothing has failed and some callback has rejected: all ranks rethrow one rejection, or throw one
other error. -/
lemma runsTo_rethrows (hagreement : (contract.agreement.length : ℤ) ≤ int64Max)
    (hshort : ∀ rank control, body rank = .error (.rejected control) →
      ((encode control.envelope contract).length : ℤ) ≤ int64Max)
    (hfailure : NoFailure body completion)
    (hrejected : ∃ rank control, body rank = .error (.rejected control)) :
    ∃ outcome, RunsTo contract failure body completion outcome ∧
      Ends contract body completion outcome := by
  have hsome : ∃ rank, (rejectionOf (body rank)).isSome = true := by
    obtain ⟨rank, control, h⟩ := hrejected
    exact ⟨rank, by simp [rejectionOf, h]⟩
  have hflag : (greatest fun rank => flag ((rejectionOf (body rank)).isSome = true)) ≠ 0 := by
    rw [Ne, greatest_flag_eq_zero_iff]
    push Not
    exact hsome
  have hcommon : ∀ envelope, CommonEnvelope (fun rank => rejectionOf (body rank)) envelope ↔
      ∀ rank control, body rank = .error (.rejected control) → control.envelope = envelope := by
    intro envelope
    constructor
    · intro h rank control hbody
      exact h rank _ (rejectionOf_eq_some_iff.mpr ⟨control, hbody, rfl⟩)
    · intro h rank e he
      obtain ⟨control, hbody, rfl⟩ := rejectionOf_eq_some_iff.mp he
      exact h rank control hbody
  -- the first two collectives lead every rank into the rethrow
  have hpass : ∀ outcome, Executes exactReply (fun rank => rethrow contract
      (rejectionOf (body rank)) rank.val (n + 1)) (fun _ => outcome) →
      RunsTo contract failure body completion outcome := by
    intro outcome hrun
    refine Executes.andThen (hfailure.runs failure) (Executes.andThen (runs_allReduceMax _) ?_)
    simp only [if_pos hflag]
    exact hrun
  obtain ⟨root, envelope, hroot, hselect⟩ := runs_selectPayload hagreement (fun rank e he => by
    obtain ⟨control, hbody, rfl⟩ := rejectionOf_eq_some_iff.mp he
    exact hshort rank control hbody) hsome
  obtain ⟨control, hbody, henvelope⟩ := rejectionOf_eq_some_iff.mp hroot
  have hother : ∀ e : Thrown, ¬e.IsRejection →
      (∀ envelope', ¬RejectsWith contract body completion envelope') →
      Ends contract body completion (.error e) := by
    intro e he hno
    refine .thrown e he (fun h => ?_) hno ?_
    · rw [(h root).1] at hbody
      cases hbody
    · rintro control ⟨-, h⟩
      rw [(hfailure 0).1] at h
      cases h
  -- a rejection that all ranks throw has the fields of the root
  have hsame : ∀ envelope', RejectsWith contract body completion envelope' →
      envelope' = envelope :=
    fun envelope' h => (h.2.2.1 root control hbody).symm.trans henvelope
  rcases hselect with ⟨hagree, hselect⟩ | ⟨hagree, e, he, hselect⟩
  · rcases runs_throwSelected (n := n) contract envelope with
      ⟨hmeets, hthrow⟩ | ⟨hmeets, e, he, hthrow⟩
    · exact ⟨_, hpass _ (Executes.andThen hselect hthrow), .rejected envelope
        ⟨hfailure, hrejected, (hcommon envelope).mp hagree, hmeets⟩⟩
    · refine ⟨_, hpass _ (Executes.andThen hselect hthrow), hother e he fun envelope' h => ?_⟩
      obtain rfl := hsame envelope' h
      exact hmeets h.2.2.2
  · refine ⟨_, hpass _ (Executes.thrown hselect), hother e he fun envelope' h => ?_⟩
    obtain rfl := hsame envelope' h
    exact hagree ((hcommon envelope').mpr h.2.2.1)

/-- Some rank has failed: all ranks throw in the first collective. -/
lemma runsTo_failed (hfailure : ¬NoFailure body completion) :
    ∃ outcome, RunsTo contract failure body completion outcome ∧
      Ends contract body completion outcome := by
  have hsome : ∃ rank, (localError (body rank) (completion rank)).isSome = true := by
    unfold NoFailure at hfailure
    push Not at hfailure
    obtain ⟨rank, hrank⟩ := hfailure
    refine ⟨rank, Option.isSome_iff_ne_none.mpr fun hlocal => ?_⟩
    obtain ⟨hc, hb⟩ := localError_eq_none_iff.mp hlocal
    obtain ⟨hne, hnone⟩ := hrank hc
    rcases hb with hb | ⟨control, hb⟩
    · exact hne hb
    · exact hnone control hb
  obtain ⟨e, he, hrun⟩ := runs_collectivelyRethrow failure
    (fun rank => localError (body rank) (completion rank)) hsome
  have hreturned : ¬∀ rank, body rank = .ok () ∧ completion rank = .ok () :=
    fun h => hfailure fun rank => ⟨(h rank).2, Or.inl (h rank).1⟩
  have hno : ∀ envelope, ¬RejectsWith contract body completion envelope :=
    fun envelope h => hfailure h.1
  refine ⟨.error e, Executes.thrown hrun, ?_⟩
  rcases he with ⟨hn, hlocal⟩ | ⟨hn, hnot⟩
  · -- a single rank throws its own exception
    cases hcompletion : completion 0 with
    | error c =>
      simp only [localError, hcompletion, Option.some.injEq] at hlocal
      subst hlocal
      cases c with
      | rejected control => exact .alone control hn hcompletion
      | _ => exact .thrown _ (by simp [Thrown.IsRejection]) hreturned hno (by simp [hcompletion])
    | ok u =>
      refine .thrown e ?_ hreturned hno (by simp [hcompletion])
      rintro ⟨control, rfl⟩
      simp only [localError, hcompletion] at hlocal
      cases hbody : body 0 with
      | ok v => simp [hbody] at hlocal
      | error b => cases b <;> simp [hbody] at hlocal
  · exact .thrown e hnot hreturned hno fun control h => hn h.1

end Cases

/-- What the ranks do, with the condition for each kind of end. -/
lemma phase_cases (failure : List Byte) (completion : Fin (n + 1) → Except Thrown Unit)
    (hagreement : (contract.agreement.length : ℤ) ≤ int64Max)
    (hshort : ∀ rank control, body rank = .error (.rejected control) →
      ((encode control.envelope contract).length : ℤ) ≤ int64Max) :
    ∃ outcome : Except Thrown Unit, RunsTo contract failure body completion outcome ∧
      Ends contract body completion outcome := by
  by_cases hfailure : NoFailure body completion
  · by_cases hrejected : ∃ rank control, body rank = .error (.rejected control)
    · exact runsTo_rethrows failure hagreement hshort hfailure hrejected
    · push Not at hrejected
      obtain ⟨hruns, hreturned⟩ := runsTo_returns failure hfailure hrejected
      exact ⟨.ok (), hruns, .returned hreturned⟩
  · exact runsTo_failed failure hfailure

/-- **Step rejection is collective.**  The ranks have a joint run, so they make the same sequence
of collective calls, and

* all of them return, or all of them throw one rejection, or all of them throw one other error;
* they return exactly if every callback and every completion has returned;
* they throw the rejection with given fields exactly if nothing has failed, some callback has
  rejected, all rejections have these fields and the fields meet the contract, or if there is only
  one rank and its completion has thrown that rejection;
* the decoder returns the fields of exactly the encodings of rejections that meet the contract. -/
theorem phase_is_collective (contract : Contract) (failure : List Byte)
    (body completion : Fin (n + 1) → Except Thrown Unit)
    (hagreement : (contract.agreement.length : ℤ) ≤ int64Max)
    (hshort : ∀ rank control, body rank = .error (.rejected control) →
      ((encode control.envelope contract).length : ℤ) ≤ int64Max) :
    (∃ outcome : Fin (n + 1) → Except Thrown Unit,
      Executes exactReply (fun rank => phase contract failure rank.val (n + 1) (body rank)
        (completion rank)) outcome ∧
      ((∀ rank, outcome rank = .ok ()) ∨
        (∃ control, ∀ rank, outcome rank = .error (.rejected control)) ∨
        ∃ e : Thrown, ¬e.IsRejection ∧ ∀ rank, outcome rank = .error e) ∧
      ((∀ rank, outcome rank = .ok ()) ↔
        ∀ rank, body rank = .ok () ∧ completion rank = .ok ()) ∧
      ∀ envelope, (∃ control, control.envelope = envelope ∧
          ∀ rank, outcome rank = .error (.rejected control)) ↔
        RejectsWith contract body completion envelope ∨
          n = 0 ∧ ∃ control, control.envelope = envelope ∧
            completion 0 = .error (.rejected control)) ∧
    ∀ bytes envelope, decode bytes contract = .ok envelope ↔
      envelope.Meets contract ∧ bytes = encode envelope contract := by
  refine ⟨?_, fun bytes envelope => decode_eq_ok_iff⟩
  obtain ⟨outcome, hrun, hcases⟩ := phase_cases failure completion hagreement hshort
  refine ⟨fun _ => outcome, hrun, ?_⟩
  rcases hcases with hok | ⟨envelope, hrejects⟩ | ⟨control, hn, hcompletion⟩ |
    ⟨e, hnot, hreturned, hno, hcompletion⟩
  · refine ⟨Or.inl fun _ => rfl, by simp [hok], fun envelope => ⟨?_, ?_⟩⟩
    · rintro ⟨control, -, h⟩
      cases h 0
    · rintro (h | ⟨-, control, -, h⟩)
      · obtain ⟨rank, control, hbody⟩ := h.2.1
        rw [(hok rank).1] at hbody
        cases hbody
      · rw [(hok 0).2] at h
        cases h
  · obtain ⟨hfailure, ⟨rank, control, hbody⟩, hsame, hmeets⟩ := hrejects
    refine ⟨Or.inr (Or.inl ⟨_, fun _ => rfl⟩), ⟨fun h => ?_, fun h => ?_⟩, fun envelope' =>
      ⟨?_, ?_⟩⟩
    · cases h 0
    · rw [(h rank).1] at hbody
      cases hbody
    · rintro ⟨control', rfl, h⟩
      obtain rfl : envelope.rejection = control' := by simpa using h 0
      exact Or.inl ⟨hfailure, ⟨rank, control, hbody⟩, hsame, hmeets⟩
    · rintro (h | ⟨-, control', -, h⟩)
      · refine ⟨envelope.rejection, ?_, fun _ => rfl⟩
        exact (hsame rank control hbody).symm.trans (h.2.2.1 rank control hbody)
      · rw [(hfailure 0).1] at h
        cases h
  · refine ⟨Or.inr (Or.inl ⟨_, fun _ => rfl⟩), ⟨fun h => ?_, fun h => ?_⟩, fun envelope' =>
      ⟨?_, ?_⟩⟩
    · cases h 0
    · rw [(h 0).2] at hcompletion
      cases hcompletion
    · rintro ⟨control', rfl, h⟩
      obtain rfl : control = control' := by simpa using h 0
      exact Or.inr ⟨hn, control, rfl, hcompletion⟩
    · rintro (h | ⟨-, control', rfl, h⟩)
      · rw [(h.1 0).1] at hcompletion
        cases hcompletion
      · rw [hcompletion] at h
        obtain rfl : control = control' := by simpa using h
        exact ⟨control, rfl, fun _ => rfl⟩
  · refine ⟨Or.inr (Or.inr ⟨e, hnot, fun _ => rfl⟩), ⟨fun h => ?_, fun h => absurd h hreturned⟩,
      fun envelope' => ⟨?_, ?_⟩⟩
    · cases h 0
    · rintro ⟨control', -, h⟩
      have heq : e = .rejected control' := by simpa using h 0
      exact absurd ⟨control', heq⟩ hnot
    · rintro (h | ⟨hn, control', -, h⟩)
      · exact absurd h (hno envelope')
      · exact absurd ⟨hn, h⟩ (hcompletion control')

/-- Two ranks: the first rejects, the second returns. -/
theorem phase_is_collective_two_ranks :
    let contract : Contract := ⟨ascii "v1", ascii "agreement", true, false⟩
    let envelope : Envelope := ⟨.breakdown, .retry, 7, ⟨ascii "solve", by decide⟩, ⟨[], by decide⟩⟩
    let body : Fin 2 → Except Thrown Unit :=
      fun rank => if rank = 0 then .error (.rejected envelope.rejection) else .ok ()
    let completion : Fin 2 → Except Thrown Unit := fun _ => .ok ()
    (∃ outcome : Fin 2 → Except Thrown Unit,
      Executes exactReply (fun rank => phase contract [] rank.val 2 (body rank)
        (completion rank)) outcome ∧
      ((∀ rank, outcome rank = .ok ()) ∨
        (∃ control, ∀ rank, outcome rank = .error (.rejected control)) ∨
        ∃ e : Thrown, ¬e.IsRejection ∧ ∀ rank, outcome rank = .error e) ∧
      ((∀ rank, outcome rank = .ok ()) ↔
        ∀ rank, body rank = .ok () ∧ completion rank = .ok ()) ∧
      ∀ envelope, (∃ control, control.envelope = envelope ∧
          ∀ rank, outcome rank = .error (.rejected control)) ↔
        RejectsWith contract body completion envelope ∨
          1 = 0 ∧ ∃ control, control.envelope = envelope ∧
            completion 0 = .error (.rejected control)) ∧
    ∀ bytes envelope, decode bytes contract = .ok envelope ↔
      envelope.Meets contract ∧ bytes = encode envelope contract := by
  intro contract envelope body completion
  refine phase_is_collective contract [] body completion (by decide) fun rank control h => ?_
  have hcontrol : control = envelope.rejection := by
    by_cases hrank : rank = 0
    · simpa [body, hrank, eq_comm] using h
    · simp [body, hrank] at h
  have hlength : (encode envelope contract).length = 47 := by decide
  rw [hcontrol]
  change ((encode envelope contract).length : ℤ) ≤ int64Max
  rw [hlength]
  decide

/-- One rank whose callback returns and whose completion throws: the rank does not return,
although every callback has returned. -/
theorem completion_failure_not_returned :
    ¬∀ outcome : Fin 1 → Except Thrown Unit,
      Executes exactReply (fun rank => phase ⟨ascii "v1", ascii "agreement", false, false⟩ []
        rank.val 1 (.ok ()) (.error .badAlloc)) outcome →
      ((∀ rank, outcome rank = .ok ()) ↔ ∀ _ : Fin 1, (.ok () : Except Thrown Unit) = .ok ()) := by
  intro h
  obtain ⟨e, -, hrun⟩ := runs_collectivelyRethrow []
    (fun _ : Fin (0 + 1) => localError (.ok ()) (.error .badAlloc)) ⟨0, rfl⟩
  have hreturned := (h _ (Executes.thrown hrun)).mpr fun _ => rfl
  cases hreturned 0

end Phase

end Pops.StepRejection
