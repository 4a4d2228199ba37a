import Pops.Foundation.MachineInt
import Pops.Foundation.PrefixCode

/-!
# The envelope of a step rejection

A rank whose callback rejects the step attempt sends the fields of the rejection to the other
ranks: a schema, three numbers of eight bytes and two texts, each behind its length.  The decoder
checks every field and that nothing is left over.

## Main definitions

* `Pops.StepRejection.Envelope` — the fields of a rejection.
* `Pops.StepRejection.Contract` — the schema and the texts that must not be empty.
* `Pops.StepRejection.encode`, `decode` — the envelope as bytes.

## Main results

* `Pops.StepRejection.decode_eq_ok_iff` — the decoder returns the fields of exactly the encodings
  of rejections that meet the contract.
* `Pops.StepRejection.encode_injective` — the bytes determine the fields.
-/

namespace Pops.StepRejection

/-! ## Fields -/

/-- `SolveStatus`: how the solve of a step ended. -/
inductive SolveStatus
  | solved
  | singular
  | breakdown
  | iterationLimit
  | invalidEvaluation
  | capabilityFailure
  | invalidInput
  | incompatibleRhs
  | inadmissibleCandidate
  | safeguardFailure
  deriving DecidableEq, Repr

/-- The enumerators in order. -/
def SolveStatus.all : List SolveStatus :=
  [.solved, .singular, .breakdown, .iterationLimit, .invalidEvaluation, .capabilityFailure,
    .invalidInput, .incompatibleRhs, .inadmissibleCandidate, .safeguardFailure]

/-- The value of an enumerator. -/
def SolveStatus.toNat (status : SolveStatus) : ℕ := SolveStatus.all.idxOf status

/-- `StepAttemptDisposition`: what the controller should do next. -/
inductive StepAttemptDisposition
  | retry
  | reject
  deriving DecidableEq, Repr

/-- The enumerators in order. -/
def StepAttemptDisposition.all : List StepAttemptDisposition := [.retry, .reject]

/-- The value of an enumerator. -/
def StepAttemptDisposition.toNat (disposition : StepAttemptDisposition) : ℕ :=
  StepAttemptDisposition.all.idxOf disposition

/-- A text whose size is a `std::size_t`. -/
abbrev Text := {bytes : List Byte // bytes.length ≤ sizeMax}

/-- `Envelope`: the fields of a rejection. -/
structure Envelope where
  status : SolveStatus
  disposition : StepAttemptDisposition
  reasonCode : UInt32
  phase : Text
  detail : Text
  deriving DecidableEq

/-- `StepRejectionContract`: the prefix of an encoding, and the sizes of its parts. -/
structure Contract where
  schema : List Byte
  agreement : List Byte
  requirePhase : Bool
  requireDetail : Bool

/-- The texts that the contract requires are not empty. -/
def Envelope.Meets (envelope : Envelope) (contract : Contract) : Prop :=
  (contract.requirePhase = true → envelope.phase.val ≠ []) ∧
    (contract.requireDetail = true → envelope.detail.val ≠ [])

/-! ## Bytes -/

/-- `append_u64`. -/
def appendU64 (bytes : List Byte) (value : ℕ) : List Byte :=
  [56, 48, 40, 32, 24, 16, 8, 0].foldl
    (fun bytes shift => bytes ++ [UInt8.ofNat ((value >>> shift) &&& 0xff)]) bytes

/-- `read_u64` at the cursor: the value and what lies behind it. -/
def readU64 (bytes : List Byte) : Throws (ℕ × List Byte) := do
  throwIf (bytes.length < 8) (runtimeError "collective step rejection envelope is truncated")
  pure ((bytes.take 8).foldl (fun value b => (value <<< 8) ||| b.toNat) 0, bytes.drop 8)

/-- The loop body of `encode` for a text. -/
def appendText (bytes : List Byte) (text : Text) : List Byte :=
  appendU64 bytes text.val.length ++ text.val

/-- `encode`: the schema, the three codes and the two texts. -/
def encode (envelope : Envelope) (contract : Contract) : List Byte :=
  let bytes := appendU64 contract.schema envelope.status.toNat
  let bytes := appendU64 bytes envelope.disposition.toNat
  let bytes := appendU64 bytes envelope.reasonCode.toNat
  appendText (appendText bytes envelope.phase) envelope.detail

/-- The loop body of `decode` for a text. -/
def readText (bytes : List Byte) : Throws (Text × List Byte) := do
  let (size, bytes) ← readU64 bytes
  if h : size > sizeMax then
    throw (overflowError "collective step rejection text exceeds size_t")
  else do
    throwIf (size > bytes.length) (runtimeError "collective step rejection text is truncated")
    pure (⟨bytes.take size, (List.length_take_le ..).trans (not_lt.mp h)⟩, bytes.drop size)

/-- `decode`: the envelope of a payload, refused unless all of it is read. -/
def decode (bytes : List Byte) (contract : Contract) : Throws Envelope := do
  throwIf (¬contract.schema <+: bytes)
    (runtimeError "collective step rejection envelope has another schema")
  let (status, bytes) ← readU64 (bytes.drop contract.schema.length)
  let (disposition, bytes) ← readU64 bytes
  let (reason, bytes) ← readU64 bytes
  throwIf (status > SolveStatus.safeguardFailure.toNat ∨
      disposition > StepAttemptDisposition.reject.toNat ∨ reason > 2 ^ 32 - 1)
    (runtimeError "collective step rejection envelope has invalid typed fields")
  let (phase, bytes) ← readText bytes
  let (detail, bytes) ← readText bytes
  throwIf (bytes ≠ [] ∨ (contract.requirePhase = true ∧ phase.val = []) ∨
      (contract.requireDetail = true ∧ detail.val = []))
    (runtimeError "collective step rejection envelope is incomplete")
  pure ⟨SolveStatus.all.getD status .solved, StepAttemptDisposition.all.getD disposition .retry,
    UInt32.ofNat reason, phase, detail⟩

/-! ## Reading what was written -/

/-- A word is appended with its highest byte first. -/
@[simp] lemma appendU64_eq (bytes : List Byte) (value : ℕ) :
    appendU64 bytes value = bytes ++ bigEndian 8 value := by
  have hmask : ∀ n : ℕ, UInt8.ofNat (n &&& 0xff) = UInt8.ofNat n := by
    intro n
    have hlow : n &&& 0xff = n % 256 := Nat.and_two_pow_sub_one_eq_mod n 8
    apply UInt8.toNat.inj
    rw [hlow, UInt8.toNat_ofNat', UInt8.toNat_ofNat']
    norm_num
  simp [appendU64, bigEndian, hmask, Nat.shiftRight_eq_div_pow]

/-- The loop of `read_u64` collects the big-endian number. -/
lemma foldl_shift_or (bytes : List Byte) :
    bytes.foldl (fun value b => (value <<< 8) ||| b.toNat) 0 = ofBigEndian bytes := by
  have hstep : (fun (value : ℕ) (b : Byte) => (value <<< 8) ||| b.toNat) =
      fun value b => value * 256 + b.toNat := by
    funext value b
    rw [← Nat.shiftLeft_add_eq_or_of_lt b.toNat_lt, Nat.shiftLeft_eq]
  rw [hstep, ofBigEndian]

/-- Reading a number takes exactly its eight bytes. -/
lemma readU64_eq_ok_iff {bytes rest : List Byte} {value : ℕ} :
    readU64 bytes = .ok (value, rest) ↔
      value < 2 ^ 64 ∧ bytes = bigEndian 8 value ++ rest := by
  unfold readU64
  rw [foldl_shift_or, bind_eq_ok]
  simp only [throwIf_eq_ok, not_lt, pure_eq_ok, Prod.mk.injEq, exists_const]
  constructor
  · rintro ⟨hlength, rfl, rfl⟩
    have htake : (bytes.take 8).length = 8 := by
      rw [List.length_take]
      omega
    obtain ⟨hlt, hbytes⟩ := bigEndian_ofBigEndian (bytes.take 8)
    rw [htake] at hlt hbytes
    refine ⟨by norm_num at hlt ⊢; exact hlt, ?_⟩
    rw [hbytes, List.take_append_drop]
  · rintro ⟨hlt, rfl⟩
    have htake : (bigEndian 8 value ++ rest).take 8 = bigEndian 8 value :=
      List.take_left' (length_bigEndian ..)
    have hdrop : (bigEndian 8 value ++ rest).drop 8 = rest :=
      List.drop_left' (length_bigEndian ..)
    rw [htake, hdrop, ofBigEndian_bigEndian (by norm_num; exact hlt)]
    simp

/-- Reading a text takes exactly its length and its bytes. -/
lemma readText_eq_ok_iff {bytes rest : List Byte} {text : Text} :
    readText bytes = .ok (text, rest) ↔
    bytes = bigEndian 8 text.val.length ++ text.val ++ rest := by
  unfold readText
  rw [bind_eq_ok]
  constructor
  · rintro ⟨⟨size, bytes'⟩, hread, h⟩
    obtain ⟨-, rfl⟩ := readU64_eq_ok_iff.mp hread
    dsimp only at h
    split_ifs at h with hsize
    simp only [bind_eq_ok, throwIf_eq_ok, not_lt, pure_eq_ok, Prod.mk.injEq, exists_const] at h
    obtain ⟨hlength, rfl, rfl⟩ := h
    have htake : (bytes'.take size).length = size := by
      rw [List.length_take]
      omega
    dsimp only
    rw [htake, List.append_assoc, List.take_append_drop]
  · rintro rfl
    have hsize : ¬text.val.length > sizeMax := not_lt.mpr text.property
    refine ⟨(text.val.length, text.val ++ rest), readU64_eq_ok_iff.mpr ⟨?_, ?_⟩, ?_⟩
    · have := text.property
      unfold sizeMax at this
      omega
    · rw [List.append_assoc]
    · dsimp only
      rw [dif_neg hsize]
      simp

/-- The bytes of an envelope, field by field. -/
lemma encode_eq (envelope : Envelope) (contract : Contract) :
    encode envelope contract = contract.schema ++ (bigEndian 8 envelope.status.toNat ++
      (bigEndian 8 envelope.disposition.toNat ++ (bigEndian 8 envelope.reasonCode.toNat ++
        (bigEndian 8 envelope.phase.val.length ++ envelope.phase.val ++
          (bigEndian 8 envelope.detail.val.length ++ envelope.detail.val ++ []))))) := by
  simp [encode, appendText]

/-- The number of a status is its position in the list of all. -/
lemma SolveStatus.getD_toNat (status : SolveStatus) :
    SolveStatus.all.getD status.toNat .solved = status ∧
      status.toNat ≤ SolveStatus.safeguardFailure.toNat := by
  cases status <;> decide

/-- The status at a position has this number. -/
lemma SolveStatus.toNat_getD :
    ∀ n ≤ SolveStatus.safeguardFailure.toNat, (SolveStatus.all.getD n .solved).toNat = n := by
  decide

/-- The number of a disposition is its position in the list of all. -/
lemma StepAttemptDisposition.getD_toNat (disposition : StepAttemptDisposition) :
    StepAttemptDisposition.all.getD disposition.toNat .retry = disposition ∧
      disposition.toNat ≤ StepAttemptDisposition.reject.toNat := by
  cases disposition <;> decide

/-- The disposition at a position has this number. -/
lemma StepAttemptDisposition.toNat_getD :
    ∀ n ≤ StepAttemptDisposition.reject.toNat,
      (StepAttemptDisposition.all.getD n .retry).toNat = n := by
  decide

/-- **The decoder returns the fields of exactly the encodings** of rejections that meet the
contract.

**Proof sketch.** Each read takes exactly the bytes that were written for its field, and the last
check leaves no byte over. -/
theorem decode_eq_ok_iff {bytes : List Byte} {contract : Contract} {envelope : Envelope} :
    decode bytes contract = .ok envelope ↔
      envelope.Meets contract ∧ bytes = encode envelope contract := by
  rw [encode_eq]
  unfold decode
  simp only [bind_eq_ok, throwIf_eq_ok, pure_eq_ok, Prod.exists, exists_const, readU64_eq_ok_iff,
    readText_eq_ok_iff, not_not]
  constructor
  · rintro ⟨⟨tail, rfl⟩, status, bytes₁, ⟨-, hstatus⟩, disposition, bytes₂, ⟨-, rfl⟩, reason,
      bytes₃, ⟨-, rfl⟩, hfields, phase, bytes₄, rfl, detail, bytes₅, rfl, hcomplete, rfl⟩
    rw [List.drop_left] at hstatus
    push Not at hfields hcomplete
    obtain ⟨rfl, hphase, hdetail⟩ := hcomplete
    refine ⟨⟨hphase, hdetail⟩, ?_⟩
    dsimp only
    rw [SolveStatus.toNat_getD status hfields.1,
      StepAttemptDisposition.toNat_getD disposition hfields.2.1, UInt32.toNat_ofNat',
      Nat.mod_eq_of_lt (by omega), hstatus]
  · rintro ⟨⟨hphase, hdetail⟩, rfl⟩
    obtain ⟨hstatus, hstatus_le⟩ := envelope.status.getD_toNat
    obtain ⟨hdisposition, hdisposition_le⟩ := envelope.disposition.getD_toNat
    have hreason := envelope.reasonCode.toNat_lt
    have hstatus_lt : envelope.status.toNat < 2 ^ 64 :=
      hstatus_le.trans_lt (by decide)
    have hdisposition_lt : envelope.disposition.toNat < 2 ^ 64 :=
      hdisposition_le.trans_lt (by decide)
    refine ⟨List.prefix_append .., _, _, ⟨hstatus_lt, List.drop_left ..⟩, _, _,
      ⟨hdisposition_lt, rfl⟩, _, _, ⟨by omega, rfl⟩, ?_, envelope.phase, _, rfl, envelope.detail,
      [], rfl, ?_, ?_⟩
    · push Not
      exact ⟨hstatus_le, hdisposition_le, by omega⟩
    · push Not
      exact ⟨rfl, hphase, hdetail⟩
    · rw [hstatus, hdisposition, UInt32.ofNat_toNat]

/-- A contract that requires nothing. -/
def Contract.lenient (contract : Contract) : Contract :=
  { contract with requirePhase := false, requireDetail := false }

/-- **The bytes determine the fields.** -/
theorem encode_injective {contract : Contract} {envelope envelope' : Envelope}
    (h : encode envelope contract = encode envelope' contract) : envelope = envelope' := by
  -- without required texts both can be decoded
  have hmeets : ∀ e : Envelope, e.Meets contract.lenient := fun e => ⟨by simp [Contract.lenient],
    by simp [Contract.lenient]⟩
  have hencode : ∀ e : Envelope, encode e contract = encode e contract.lenient := by
    intro e
    rw [encode_eq, encode_eq, Contract.lenient]
  have hdecode : ∀ e : Envelope, decode (encode e contract) contract.lenient = .ok e :=
    fun e => decode_eq_ok_iff.mpr ⟨hmeets e, hencode e⟩
  have hresult := hdecode envelope
  rw [h, hdecode envelope'] at hresult
  exact (Except.ok.inj hresult).symm

end Pops.StepRejection
