import Pops.Foundation.Exception
import Pops.Foundation.PrefixCode

/-!
# Exact contracts

A prepared provider describes its parameters as a string of bytes, and the ranks compare these
strings.  The builder appends one frame for each call: a kind, the byte count of the payload in
eight bytes, and the payload.  The payload of a sequence holds the number of its elements and one
frame for each of them, whose payload is a contract of its own.

## Main definitions

* `Pops.ContractScalar` — the values that `scalar` accepts.
* `Pops.ExactContractBuilder` — the builder and its operations.
* `Pops.ContractCall` — a call of the builder; a sequence holds the calls made for its elements.
* `Pops.ContractCall.payload`, `contract` — the bytes that the calls stand for.

## Main results

* `Pops.applyAll_eq_contract` — the builder appends the contract of the calls.
* `Pops.exactContract_unambiguous` — equal contracts come from equal calls, and no contract of
  `n` calls begins another one.
-/

namespace Pops

/-! ## Scalars -/

/-- An integer as the contract records it: signedness, `sizeof` and the bits as an unsigned
number. -/
structure ContractInteger where
  signed : Bool
  width : Byte
  bits : ℕ
  fits : bits < 256 ^ width.toNat
  deriving DecidableEq

/-- The values an underlying type of an enumeration can have. -/
inductive ContractIntegral
  | bool (value : Bool)
  | integer (value : ContractInteger)
  deriving DecidableEq

/-- `ExactContractScalar`: an enumerator is known by the value of its underlying type, a
floating-point number by its object bits. -/
inductive ContractScalar
  | integral (value : ContractIntegral)
  | enumeration (value : ContractIntegral)
  | float (bits : UInt32)
  | double (bits : UInt64)
  deriving DecidableEq

/-- The code of an ASCII character. -/
def byteOf (c : Char) : Byte := UInt8.ofNat c.toNat

/-- The byte of a flag. -/
def byteOfBool (b : Bool) : Byte := if b then 1 else 0

/-- `append_contract_unsigned`: the loop pushes the byte at each shift, from the highest down. -/
def appendContractUnsigned (bytes : List Byte) (width value : ℕ) : List Byte :=
  (List.range width).reverse.foldl
    (fun bytes k => bytes ++ [UInt8.ofNat ((value >>> (8 * k)) &&& 0xff)]) bytes

/-- The payload of an integral value. -/
def appendContractIntegral (bytes : List Byte) : ContractIntegral → List Byte
  | .bool value => bytes ++ [byteOf 'b'] ++ [byteOfBool value]
  | .integer value =>
    appendContractUnsigned (bytes ++ [byteOf (if value.signed then 'i' else 'u')] ++ [value.width])
      value.width.toNat value.bits

/-- `append_contract_scalar_payload`: the tag and the bytes of a scalar. -/
def appendContractScalarPayload (bytes : List Byte) : ContractScalar → List Byte
  | .enumeration value => appendContractIntegral (bytes ++ [byteOf 'e']) value
  | .integral value => appendContractIntegral bytes value
  | .float bits => appendContractUnsigned (bytes ++ [byteOf 'f']) 4 bits.toNat
  | .double bits => appendContractUnsigned (bytes ++ [byteOf 'd']) 8 bits.toNat

/-- `append_contract_frame`. -/
def appendContractFrame (destination : List Byte) (kind : Byte) (payload : List Byte) : List Byte :=
  appendContractUnsigned (destination ++ [kind]) 8 payload.length ++ payload

/-! ## The builder -/

/-- `ExactContractBuilder`: the bytes appended so far. -/
structure ExactContractBuilder where
  bytes : List Byte := []
  deriving DecidableEq

namespace ExactContractBuilder

/-- `append_frame_`: the frame goes behind those already appended. -/
def appendFrame (b : ExactContractBuilder) (kind : Byte) (payload : List Byte) :
    ExactContractBuilder :=
  ⟨appendContractFrame b.bytes kind payload⟩

/-- `scalar`: append one scalar as a frame of kind `s`. -/
def scalar (b : ExactContractBuilder) (value : ContractScalar) : ExactContractBuilder :=
  b.appendFrame (byteOf 's') (appendContractScalarPayload [] value)

/-- `text`: append one text as a frame of kind `t`. -/
def text (b : ExactContractBuilder) (value : List Byte) : ExactContractBuilder :=
  b.appendFrame (byteOf 't') value

/-- `bytes`; both overloads read the same bytes. -/
def appendBytes (b : ExactContractBuilder) (value : List Byte) : ExactContractBuilder :=
  b.appendFrame (byteOf 'x') value

/-- `presence`: append whether an optional follows, as a frame of kind `p`. -/
def presence (b : ExactContractBuilder) (present : Bool) : ExactContractBuilder :=
  b.appendFrame (byteOf 'p') [byteOfBool present]

/-- `optional_collective_contract`: an absent provider has no contract to read. -/
def optionalCollectiveContract (b : ExactContractBuilder) (provider : Option (List Byte)) :
    ExactContractBuilder :=
  match provider with
  | none => b.presence false
  | some collectiveContract => (b.presence true).appendBytes collectiveContract

/-- The loop of `sequence` over the values that remain: the frames of the elements so far and
their number. -/
def sequenceLoop {α : Type*} (encoder : ExactContractBuilder → α → Throws ExactContractBuilder) :
    List α → List Byte → ℕ → Throws (List Byte × ℕ)
  | [], elements, count => .ok (elements, count)
  | value :: values, elements, count => do
    throwIf (count = 2 ^ 64 - 1) (lengthError "exact contract sequence has too many elements")
    let element ← encoder {} value
    sequenceLoop encoder values (appendContractFrame elements (byteOf 'v') element.bytes)
      (count + 1)

/-- `sequence`: the frame holds the count and then the frames of the elements. -/
def sequence {α : Type*} (b : ExactContractBuilder) (values : List α)
    (encoder : ExactContractBuilder → α → Throws ExactContractBuilder) :
    Throws ExactContractBuilder := do
  let (elements, count) ← sequenceLoop encoder values [] 0
  pure (b.appendFrame (byteOf 'q') (appendContractUnsigned [] 8 count ++ elements))

/-- The overload of `sequence` for scalars. -/
def scalarSequence (b : ExactContractBuilder) (values : List ContractScalar) :
    Throws ExactContractBuilder :=
  b.sequence values fun element value => .ok (element.scalar value)

end ExactContractBuilder

/-! ## Calls -/

/-- A call of the builder.  A sequence is given by the calls that the encoder makes for each of
its elements. -/
inductive ContractCall
  | scalar (value : ContractScalar)
  | text (value : List Byte)
  | bytes (value : List Byte)
  | presence (present : Bool)
  | sequence (elements : List (List ContractCall))

/-- Induction on a call: a sequence may use the statement for every call of its elements. -/
theorem ContractCall.induction {motive : ContractCall → Prop}
    (scalar : ∀ v, motive (.scalar v)) (text : ∀ v, motive (.text v))
    (bytes : ∀ v, motive (.bytes v)) (presence : ∀ v, motive (.presence v))
    (sequence : ∀ es, (∀ e ∈ es, ∀ c ∈ e, motive c) → motive (.sequence es)) (c : ContractCall) :
    motive c := by
  refine @ContractCall.rec motive (fun es => ∀ e ∈ es, ∀ c ∈ e, motive c)
    (fun e => ∀ c ∈ e, motive c) scalar text bytes presence sequence ?_ ?_ ?_ ?_ c
  · intro e he
    cases he
  · intro head tail hhead htail e he
    rcases List.mem_cons.mp he with rfl | he
    · exact hhead
    · exact htail e he
  · intro c hc
    cases hc
  · intro head tail hhead htail c hc
    rcases List.mem_cons.mp hc with rfl | hc
    · exact hhead
    · exact htail c hc

mutual
/-- What a call does to a builder. -/
def ContractCall.apply : ContractCall → ExactContractBuilder → Throws ExactContractBuilder
  | .scalar value, b => .ok (b.scalar value)
  | .text value, b => .ok (b.text value)
  | .bytes value, b => .ok (b.appendBytes value)
  | .presence present, b => .ok (b.presence present)
  | .sequence es, b => do
    let (elements, count) ← ContractCall.applyElements es [] 0
    pure (b.appendFrame (byteOf 'q') (appendContractUnsigned [] 8 count ++ elements))

/-- A sequence of calls on one builder. -/
def ContractCall.applyAll : List ContractCall → ExactContractBuilder → Throws ExactContractBuilder
  | [], b => .ok b
  | c :: cs, b => do
    let b ← ContractCall.apply c b
    ContractCall.applyAll cs b

/-- The loop of `sequence` whose encoder makes the given calls. -/
def ContractCall.applyElements : List (List ContractCall) → List Byte → ℕ →
    Throws (List Byte × ℕ)
  | [], elements, count => .ok (elements, count)
  | e :: es, elements, count => do
    throwIf (count = 2 ^ 64 - 1) (lengthError "exact contract sequence has too many elements")
    let element ← ContractCall.applyAll e {}
    ContractCall.applyElements es (appendContractFrame elements (byteOf 'v') element.bytes)
      (count + 1)
end

namespace ContractCall

/-- The loop over the elements is the loop of the builder. -/
lemma applyElements_eq (es : List (List ContractCall)) : ∀ elements count,
    applyElements es elements count =
      ExactContractBuilder.sequenceLoop (fun element e =>
        applyAll e element) es elements count := by
  induction es with
  | nil => intro elements count; rfl
  | cons e es ih =>
    intro elements count
    rw [applyElements, ExactContractBuilder.sequenceLoop]
    simp only [ih]

/-- A sequence call is `sequence` with the encoder that makes the calls of each element. -/
lemma apply_sequence (es : List (List ContractCall)) (b : ExactContractBuilder) :
    (sequence es).apply b = b.sequence es (fun element e => applyAll e element) := by
  rw [apply, ExactContractBuilder.sequence]
  simp only [applyElements_eq]

/-- The calls that `optional_collective_contract` makes. -/
def optionalCollectiveContract : Option (List Byte) → List ContractCall
  | none => [presence false]
  | some collectiveContract => [presence true, bytes collectiveContract]

/-- `optional_collective_contract` is its presence flag, followed by the bytes. -/
lemma applyAll_optionalCollectiveContract (provider : Option (List Byte))
    (b : ExactContractBuilder) :
    applyAll (optionalCollectiveContract provider) b =
      .ok (b.optionalCollectiveContract provider) := by
  cases provider <;> rfl

/-- The overload for scalars makes one scalar call for each element. -/
lemma apply_scalarSequence (values : List ContractScalar) (b : ExactContractBuilder) :
    (sequence (values.map fun v => [scalar v])).apply b = b.scalarSequence values := by
  have hloop : ∀ vs : List ContractScalar, ∀ elements count,
      applyElements (vs.map fun v => [scalar v]) elements count =
        ExactContractBuilder.sequenceLoop
          (fun element value => .ok (element.scalar value)) vs elements count := by
    intro vs
    induction vs with
    | nil => intro elements count; rfl
    | cons v vs ih =>
      intro elements count
      rw [List.map_cons, applyElements, ExactContractBuilder.sequenceLoop]
      simp only [applyAll, apply, ih]
      rfl
  rw [apply, hloop]
  rfl

end ContractCall

/-! ## The bytes of the calls -/

/-- The payload of an integral value. -/
def ContractIntegral.payload : ContractIntegral → List Byte
  | .bool value => [byteOf 'b', byteOfBool value]
  | .integer value =>
    byteOf (if value.signed then 'i' else 'u') :: value.width ::
      bigEndian value.width.toNat value.bits

/-- The payload of a scalar. -/
def ContractScalar.payload : ContractScalar → List Byte
  | .enumeration value => byteOf 'e' :: value.payload
  | .integral value => value.payload
  | .float bits => byteOf 'f' :: bigEndian 4 bits.toNat
  | .double bits => byteOf 'd' :: bigEndian 8 bits.toNat

/-- The kind of the frame that a call appends. -/
def ContractCall.kind : ContractCall → Byte
  | .scalar _ => byteOf 's'
  | .text _ => byteOf 't'
  | .bytes _ => byteOf 'x'
  | .presence _ => byteOf 'p'
  | .sequence _ => byteOf 'q'

mutual
/-- The payload of the frame that a call appends. -/
def ContractCall.payload : ContractCall → List Byte
  | .scalar value => value.payload
  | .text value => value
  | .bytes value => value
  | .presence present => [byteOfBool present]
  | .sequence es => bigEndian 8 es.length ++ ContractCall.elementFrames es

/-- The contract of a sequence of calls: their frames, one after the other. -/
def contract : List ContractCall → List Byte
  | [] => []
  | c :: cs => frame c.kind (ContractCall.payload c) ++ contract cs

/-- The frames of the elements of a sequence. -/
def ContractCall.elementFrames : List (List ContractCall) → List Byte
  | [] => []
  | e :: es => frame (byteOf 'v') (contract e) ++ ContractCall.elementFrames es
end

/-- Every payload is shorter than `2 ^ 64` bytes.  The payloads inside a sequence are parts of its
own, so they are shorter as well. -/
def ShortPayloads (cs : List ContractCall) : Prop := ∀ c ∈ cs, c.payload.length < 2 ^ 64

/-! ## The builder appends the contract -/

/-- The byte at a shift is a digit to the base 256. -/
lemma shiftRight_land_byte (value k : ℕ) :
    UInt8.ofNat ((value >>> (8 * k)) &&& 0xff) = UInt8.ofNat (value / 256 ^ k) := by
  apply UInt8.toNat.inj
  have hmask : (value >>> (8 * k)) &&& 0xff = value / 256 ^ k % 256 := by
    rw [Nat.shiftRight_eq_div_pow, pow_mul]
    exact Nat.and_two_pow_sub_one_eq_mod _ 8
  rw [hmask, UInt8.toNat_ofNat', UInt8.toNat_ofNat']
  norm_num

/-- The loop over the shifts appends the big-endian bytes. -/
@[simp] lemma appendContractUnsigned_eq (bytes : List Byte) (width value : ℕ) :
    appendContractUnsigned bytes width value = bytes ++ bigEndian width value := by
  induction width generalizing bytes with
  | zero => simp [appendContractUnsigned, bigEndian]
  | succ width ih =>
    unfold appendContractUnsigned at ih ⊢
    rw [List.range_succ, List.reverse_append, List.foldl_append, ih, bigEndian]
    simp only [List.reverse_cons, List.reverse_nil, List.nil_append, List.foldl_cons,
      List.foldl_nil, shiftRight_land_byte, List.append_assoc, List.singleton_append]

/-- An integral value appends its payload. -/
@[simp] lemma appendContractIntegral_eq (bytes : List Byte) (v : ContractIntegral) :
    appendContractIntegral bytes v = bytes ++ v.payload := by
  cases v <;> simp [appendContractIntegral, ContractIntegral.payload]

/-- A scalar appends its payload. -/
@[simp] lemma appendContractScalarPayload_eq (bytes : List Byte) (v : ContractScalar) :
    appendContractScalarPayload bytes v = bytes ++ v.payload := by
  cases v <;> simp [appendContractScalarPayload, ContractScalar.payload]

/-- A frame is appended whole. -/
@[simp] lemma appendContractFrame_eq (destination : List Byte) (kind : Byte)
    (payload : List Byte) :
    appendContractFrame destination kind payload = destination ++ frame kind payload := by
  simp [appendContractFrame, frame]

/-- The frames of the elements hold at least nine bytes each. -/
lemma length_le_elementFrames (es : List (List ContractCall)) :
    9 * es.length ≤ (ContractCall.elementFrames es).length := by
  induction es with
  | nil => simp
  | cons e es ih =>
    rw [ContractCall.elementFrames, List.length_append, length_frame, List.length_cons]
    omega

/-- The payload of a call stands inside the contract. -/
lemma length_payload_lt_contract {c : ContractCall} :
    ∀ {cs : List ContractCall}, c ∈ cs → c.payload.length < (contract cs).length := by
  intro cs hc
  induction cs with
  | nil => cases hc
  | cons d cs ih =>
    rw [contract, List.length_append, length_frame]
    rcases List.mem_cons.mp hc with rfl | hc
    · omega
    · have := ih hc
      omega

/-- The contract of an element stands inside the frames of the elements. -/
lemma length_contract_lt_elementFrames {e : List ContractCall} :
    ∀ {es : List (List ContractCall)}, e ∈ es →
      (contract e).length < (ContractCall.elementFrames es).length := by
  intro es he
  induction es with
  | nil => cases he
  | cons d es ih =>
    rw [ContractCall.elementFrames, List.length_append, length_frame]
    rcases List.mem_cons.mp he with rfl | he
    · omega
    · have := ih he
      omega

/-- A contract that is short enough has short payloads. -/
lemma shortPayloads_of_length {cs : List ContractCall} (h : (contract cs).length < 2 ^ 64) :
    ShortPayloads cs :=
  fun _ hc => (length_payload_lt_contract hc).trans h

section Sequence

variable {es : List (List ContractCall)}
  (hshort : (ContractCall.sequence es).payload.length < 2 ^ 64)

include hshort

/-- The frames of the elements of a short sequence are short. -/
lemma length_elementFrames_lt : (ContractCall.elementFrames es).length < 2 ^ 64 := by
  rw [ContractCall.payload, List.length_append] at hshort
  omega

/-- A short sequence has fewer elements than the counter can hold. -/
lemma length_elements_lt : es.length < 2 ^ 64 - 1 := by
  have hframes := length_le_elementFrames es
  rw [ContractCall.payload, List.length_append, length_bigEndian] at hshort
  omega

/-- The elements of a short sequence have short contracts. -/
lemma length_contract_lt {e : List ContractCall} (he : e ∈ es) :
    (contract e).length < 2 ^ 64 :=
  (length_contract_lt_elementFrames he).trans (length_elementFrames_lt hshort)

end Sequence

namespace ContractCall

/-- The loop over elements whose calls append their contracts. -/
lemma applyElements_eq_ok {es : List (List ContractCall)} :
    (∀ e ∈ es, applyAll e {} = .ok ⟨contract e⟩) → ∀ elements count,
      count + es.length < 2 ^ 64 →
      applyElements es elements count =
        .ok (elements ++ elementFrames es, count + es.length) := by
  induction es with
  | nil => intro _ elements count _; simp [applyElements, elementFrames]
  | cons e es ih =>
    intro he elements count hcount
    rw [List.length_cons] at hcount
    have hguard : ¬count = 2 ^ 64 - 1 := by omega
    rw [applyElements, he e (by simp), throwIf, if_neg hguard]
    change applyElements es _ _ = _
    rw [ih (fun e' he' => he e' (by simp [he'])) _ _ (by omega), appendContractFrame_eq,
      elementFrames, List.append_assoc, List.length_cons]
    congr 2
    omega

/-- Calls that append their frames append the contract together. -/
lemma applyAll_eq_ok {cs : List ContractCall} :
    (∀ c ∈ cs, ∀ b, apply c b = .ok ⟨b.bytes ++ frame c.kind c.payload⟩) → ∀ b,
      applyAll cs b = .ok ⟨b.bytes ++ contract cs⟩ := by
  induction cs with
  | nil => intro _ b; simp [applyAll, contract]
  | cons c cs ih =>
    intro hc b
    rw [applyAll, hc c (by simp)]
    change applyAll cs _ = _
    rw [ih (fun c' hc' => hc c' (by simp [hc'])), contract, List.append_assoc]

/-- A call appends its frame.

**Proof sketch.** By induction on the call.  A short sequence never reaches the guard of its
counter, and its elements are short again. -/
theorem apply_eq_ok (c : ContractCall) : c.payload.length < 2 ^ 64 → ∀ b,
    c.apply b = .ok ⟨b.bytes ++ frame c.kind c.payload⟩ := by
  induction c using ContractCall.induction with
  | scalar v =>
    intro _ b
    simp [apply, ExactContractBuilder.scalar, ExactContractBuilder.appendFrame, kind, payload]
  | text v =>
    intro _ b
    simp [apply, ExactContractBuilder.text, ExactContractBuilder.appendFrame, kind, payload]
  | bytes v =>
    intro _ b
    simp [apply, ExactContractBuilder.appendBytes, ExactContractBuilder.appendFrame, kind, payload]
  | presence v =>
    intro _ b
    simp [apply, ExactContractBuilder.presence, ExactContractBuilder.appendFrame, kind, payload]
  | sequence es ih =>
    intro hshort b
    have hcount := length_elements_lt hshort
    have helements : ∀ e ∈ es, applyAll e {} = .ok ⟨contract e⟩ := by
      intro e he
      have hpayloads := shortPayloads_of_length (length_contract_lt hshort he)
      simpa using applyAll_eq_ok (fun c hc => ih e he c hc (hpayloads c hc)) {}
    rw [apply, applyElements_eq_ok helements [] 0 (by omega)]
    change Except.ok _ = _
    rw [ExactContractBuilder.appendFrame, appendContractFrame_eq, kind, payload]
    simp

end ContractCall

/-- **The builder appends the contract of the calls.** -/
theorem applyAll_eq_contract {cs : List ContractCall} (h : ShortPayloads cs)
    (b : ExactContractBuilder) :
    ContractCall.applyAll cs b = .ok ⟨b.bytes ++ contract cs⟩ :=
  ContractCall.applyAll_eq_ok (fun c hc => c.apply_eq_ok (h c hc)) b

/-! ## Reading the bytes back -/

/-- The byte of a flag determines the flag. -/
lemma byteOfBool_inj {a b : Bool} (h : byteOfBool a = byteOfBool b) : a = b := by
  cases a <;> cases b <;> simp [byteOfBool] at h ⊢

/-- The payload determines an integral value. -/
lemma ContractIntegral.payload_inj {v w : ContractIntegral} (h : v.payload = w.payload) :
    v = w := by
  cases v with
  | bool a =>
    cases w with
    | bool b =>
      have hbyte : byteOfBool a = byteOfBool b := by simpa [payload] using h
      rw [byteOfBool_inj hbyte]
    | integer w =>
      obtain ⟨signed, width, bits, fits⟩ := w
      cases signed <;> simp [payload, byteOf] at h
  | integer v =>
    obtain ⟨signed, width, bits, fits⟩ := v
    cases w with
    | bool b => cases signed <;> simp [payload, byteOf] at h
    | integer w =>
      obtain ⟨signed', width', bits', fits'⟩ := w
      simp only [payload, List.cons.injEq] at h
      obtain ⟨hsigned, rfl, hbits⟩ := h
      obtain rfl : bits = bits' := bigEndian_inj fits fits' hbits
      obtain rfl : signed = signed' := by
        cases signed <;> cases signed' <;> simp [byteOf] at hsigned ⊢
      rfl

/-- The first byte of an integral payload is none of the markers of the other scalars. -/
lemma ContractIntegral.head_payload (v : ContractIntegral) (c : Byte) (rest : List Byte)
    (hc : c = byteOf 'e' ∨ c = byteOf 'f' ∨ c = byteOf 'd') : v.payload ≠ c :: rest := by
  intro h
  cases v with
  | bool a =>
    simp only [payload, List.cons.injEq] at h
    rcases hc with rfl | rfl | rfl <;> simp [byteOf] at h
  | integer v =>
    obtain ⟨signed, width, bits, fits⟩ := v
    simp only [payload, List.cons.injEq] at h
    rcases hc with rfl | rfl | rfl <;> cases signed <;> simp [byteOf] at h

/-- The payload determines a scalar. -/
lemma ContractScalar.payload_inj {v w : ContractScalar} (h : v.payload = w.payload) : v = w := by
  have hef : byteOf 'e' ≠ byteOf 'f' := by decide
  have hed : byteOf 'e' ≠ byteOf 'd' := by decide
  have hfd : byteOf 'f' ≠ byteOf 'd' := by decide
  cases v with
  | integral v =>
    cases w with
    | integral w => rw [ContractIntegral.payload_inj h]
    | enumeration w => exact absurd h (v.head_payload _ _ (by simp))
    | float w => exact absurd h (v.head_payload _ _ (by simp))
    | double w => exact absurd h (v.head_payload _ _ (by simp))
  | enumeration v =>
    cases w with
    | integral w => exact absurd h.symm (w.head_payload _ _ (by simp))
    | enumeration w => rw [ContractIntegral.payload_inj (List.cons.inj h).2]
    | float w => exact absurd (List.cons.inj h).1 hef
    | double w => exact absurd (List.cons.inj h).1 hed
  | float v =>
    cases w with
    | integral w => exact absurd h.symm (w.head_payload _ _ (by simp))
    | enumeration w => exact absurd (List.cons.inj h).1 hef.symm
    | float w =>
      have hbits := bigEndian_inj (by norm_num; exact v.toNat_lt) (by norm_num; exact w.toNat_lt)
        (List.cons.inj h).2
      rw [UInt32.toNat.inj hbits]
    | double w => exact absurd (List.cons.inj h).1 hfd
  | double v =>
    cases w with
    | integral w => exact absurd h.symm (w.head_payload _ _ (by simp))
    | enumeration w => exact absurd (List.cons.inj h).1 hed.symm
    | float w => exact absurd (List.cons.inj h).1 hfd.symm
    | double w =>
      have hbits := bigEndian_inj (by norm_num; exact v.toNat_lt) (by norm_num; exact w.toNat_lt)
        (List.cons.inj h).2
      rw [UInt64.toNat.inj hbits]

/-- The call is determined by its kind and its payload, whatever the other call is. -/
def ContractCall.Readable (c : ContractCall) : Prop :=
  ∀ d : ContractCall, d.payload.length < 2 ^ 64 → c.kind = d.kind → c.payload = d.payload → c = d

/-- Of two sequences of calls whose contracts agree as far as they go, one begins the other. -/
lemma contract_comparable {xs : List ContractCall} :
    ∀ {ys : List ContractCall} {s t : List Byte}, (∀ c ∈ xs, c.Readable) → ShortPayloads xs →
      ShortPayloads ys → contract xs ++ s = contract ys ++ t → xs <+: ys ∨ ys <+: xs := by
  induction xs with
  | nil => intro ys s t _ _ _ _; exact Or.inl List.nil_prefix
  | cons c xs ih =>
    intro ys s t hread hx hy h
    cases ys with
    | nil => exact Or.inr List.nil_prefix
    | cons d ys =>
      rw [contract, contract, List.append_assoc, List.append_assoc] at h
      obtain ⟨hkind, hpayload⟩ := frame_append_inj (hx c (by simp)) (hy d (by simp)) h
      obtain rfl := hread c (by simp) d (hy d (by simp)) hkind hpayload
      have htail := ih (fun e he => hread e (by simp [he])) (fun e he => hx e (by simp [he]))
        (fun e he => hy e (by simp [he])) (List.append_cancel_left h)
      exact htail.imp (List.prefix_cons_inj c).mpr (List.prefix_cons_inj c).mpr

/-- Only the empty sequence of calls has the empty contract. -/
lemma contract_eq_nil {cs : List ContractCall} (h : contract cs = []) : cs = [] := by
  cases cs with
  | nil => rfl
  | cons c cs => simp [contract, frame] at h

/-- The contract of two sequences of calls, one made after the other. -/
lemma contract_append (xs ys : List ContractCall) :
    contract (xs ++ ys) = contract xs ++ contract ys := by
  induction xs with
  | nil => simp [contract]
  | cons c xs ih => rw [List.cons_append, contract, contract, ih, List.append_assoc]

/-- Calls that make a prefix of the calls and the same contract are all the calls. -/
lemma eq_of_prefix_of_contract {xs ys : List ContractCall} (hbegin : xs <+: ys)
    (h : contract xs = contract ys) : xs = ys := by
  obtain ⟨zs, rfl⟩ := hbegin
  rw [contract_append] at h
  have hnil : contract zs = [] := List.append_cancel_left ((List.append_nil _).trans h).symm
  rw [contract_eq_nil hnil, List.append_nil]

/-- The frames of the elements determine the contracts of the elements. -/
lemma map_contract_eq {es fs : List (List ContractCall)}
    (hes : ∀ e ∈ es, (contract e).length < 2 ^ 64)
    (hfs : ∀ f ∈ fs, (contract f).length < 2 ^ 64) (hlength : es.length = fs.length)
    (h : ContractCall.elementFrames es = ContractCall.elementFrames fs) :
    es.map contract = fs.map contract := by
  induction es generalizing fs with
  | nil =>
    obtain rfl : fs = [] := List.length_eq_zero_iff.mp hlength.symm
    rfl
  | cons e es ih =>
    cases fs with
    | nil => simp at hlength
    | cons f fs =>
      rw [ContractCall.elementFrames, ContractCall.elementFrames] at h
      obtain ⟨-, hhead⟩ := frame_append_inj (hes e (by simp)) (hfs f (by simp)) h
      rw [hhead] at h
      rw [List.map_cons, List.map_cons, hhead, ih (fun e' he' => hes e' (by simp [he']))
        (fun f' hf' => hfs f' (by simp [hf'])) (by simpa using hlength)
        (List.append_cancel_left h)]

/-- Readable calls are determined by their contract. -/
lemma contract_inj_of_readable {xs ys : List ContractCall} (hread : ∀ c ∈ xs, c.Readable)
    (hx : ShortPayloads xs) (hy : ShortPayloads ys) (h : contract xs = contract ys) : xs = ys := by
  have happend : contract xs ++ [] = contract ys ++ [] := by rw [h]
  rcases contract_comparable hread hx hy happend with hbegin | hbegin
  · exact eq_of_prefix_of_contract hbegin h
  · exact (eq_of_prefix_of_contract hbegin h.symm).symm

/-- **A call is determined by its kind and its payload.**

**Proof sketch.** By induction on the first call.  The payload of a sequence begins with eight
bytes that hold the number of the elements, so both sequences have as many; their frames give
the contracts of the elements one by one, and these are readable by the hypothesis. -/
theorem ContractCall.readable (c : ContractCall) : c.payload.length < 2 ^ 64 → c.Readable := by
  induction c using ContractCall.induction with
  | scalar v =>
    intro _ d _ hkind h
    cases d with
    | scalar w =>
      simp only [payload] at h
      rw [ContractScalar.payload_inj h]
    | _ => simp [kind, byteOf] at hkind
  | text v =>
    intro _ d _ hkind h
    cases d with
    | text w => simpa [payload] using h
    | _ => simp [kind, byteOf] at hkind
  | bytes v =>
    intro _ d _ hkind h
    cases d with
    | bytes w => simpa [payload] using h
    | _ => simp [kind, byteOf] at hkind
  | presence v =>
    intro _ d _ hkind h
    cases d with
    | presence w =>
      have hbyte : byteOfBool v = byteOfBool w := by simpa [payload] using h
      rw [byteOfBool_inj hbyte]
    | _ => simp [kind, byteOf] at hkind
  | sequence es ih =>
    intro hc d hd hkind h
    cases d with
    | sequence fs =>
      have hes := length_elements_lt hc
      have hfs := length_elements_lt hd
      simp only [payload] at h
      obtain ⟨hcount, hframes⟩ := List.append_inj h (by simp)
      have hlength : es.length = fs.length :=
        bigEndian_inj (by norm_num; omega) (by norm_num; omega) hcount
      have hmap := map_contract_eq (fun e he => length_contract_lt hc he)
        (fun f hf => length_contract_lt hd hf) hlength hframes
      -- the elements agree position by position
      congr 1
      refine List.ext_getElem hlength fun i hi hi' => ?_
      have hcontract : contract es[i] = contract fs[i] := by
        have := congrArg (fun l => l[i]?) hmap
        simpa [List.getElem?_eq_getElem hi, List.getElem?_eq_getElem hi'] using this
      have hshort := shortPayloads_of_length (length_contract_lt hc (List.getElem_mem hi))
      have hshort' := shortPayloads_of_length (length_contract_lt hd (List.getElem_mem hi'))
      exact contract_inj_of_readable
        (fun c hmem =>
          ih es[i] (List.getElem_mem hi) c hmem (hshort c hmem)) hshort hshort' hcontract
    | _ => simp [kind, byteOf] at hkind

/-- **Contracts are unambiguous.**  For two sequences of calls with payloads of fewer than
`2 ^ 64` bytes the builder finishes both contracts; the contracts are equal byte strings exactly
if the calls are equal, and a contract of as many different calls is not a prefix of the other.

**Proof sketch.** The builder appends the frames of the calls.  Of two contracts that agree as
far as they go, one is made by the first calls of the other; with as many calls, or with equal
bytes, these are all of them. -/
theorem exactContract_unambiguous (xs ys : List ContractCall) (hx : ShortPayloads xs)
    (hy : ShortPayloads ys) :
    ∃ a b, ContractCall.applyAll xs {} = .ok a ∧ ContractCall.applyAll ys {} = .ok b ∧
      (a.bytes = b.bytes ↔ xs = ys) ∧
      (xs.length = ys.length → xs ≠ ys → ¬a.bytes <+: b.bytes) := by
  have hread : ∀ c ∈ xs, c.Readable := fun c hc => c.readable (hx c hc)
  refine ⟨_, _, applyAll_eq_contract hx {}, applyAll_eq_contract hy {}, ?_, ?_⟩
  · simp only [List.nil_append]
    constructor
    · exact contract_inj_of_readable hread hx hy
    · rintro rfl
      rfl
  · simp only [List.nil_append]
    rintro hlength hne ⟨rest, hrest⟩
    have happend : contract xs ++ rest = contract ys ++ [] := by rw [hrest, List.append_nil]
    rcases contract_comparable hread hx hy happend with hbegin | hbegin
    · exact hne (hbegin.eq_of_length hlength)
    · exact hne (hbegin.eq_of_length hlength.symm).symm

/-- A text, a nested sequence whose bytes look like a frame, and a scalar, against the same calls
with the sequence split in two. -/
theorem exactContract_unambiguous_nested :
    let xs := [ContractCall.text [115, 0], .sequence [[.bytes [113], .presence true]],
      .scalar (.double 0)]
    let ys := [ContractCall.text [115, 0], .sequence [[.bytes [113]], [.presence true]],
      .scalar (.double 0)]
    ∃ a b, ContractCall.applyAll xs {} = .ok a ∧ ContractCall.applyAll ys {} = .ok b ∧
      (a.bytes = b.bytes ↔ xs = ys) ∧
      (xs.length = ys.length → xs ≠ ys → ¬a.bytes <+: b.bytes) :=
  exactContract_unambiguous _ _
    (by intro c hc; fin_cases hc <;> simp [ContractCall.payload, ContractCall.elementFrames,
      contract, frame, ContractScalar.payload])
    (by intro c hc; fin_cases hc <;> simp [ContractCall.payload, ContractCall.elementFrames,
      contract, frame, ContractScalar.payload])

end Pops
