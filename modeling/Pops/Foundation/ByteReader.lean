import Pops.Foundation.Exception
import Pops.Foundation.PrefixCode

/-!
# Reading byte images

A byte image is read from front to back.  A reader returns a value together with the bytes behind
it, or throws.  A reader is exact for a writer when it accepts precisely the images that the writer
produces, whatever stands behind them.

## Main definitions

* `Pops.littleEndian`, `ofLittleEndian` — the bytes of a number, least significant first, and the
  number of bytes.
* `Pops.Reader` — a computation that consumes bytes.
* `Pops.Reader.Exact` — the reader accepts precisely the images of a writer.
* `Pops.Reader.word`, `text` — a number of 64 bits, and a text behind its length.

## Main results

* `Pops.Reader.exact_word`, `exact_text` — the readers of the two kinds of fields.
-/

namespace Pops

/-! ## Little-endian numbers -/

/-- The bytes of a number, from the least significant of `width` bytes up. -/
def littleEndian : ℕ → ℕ → List Byte
  | 0, _ => []
  | width + 1, n => UInt8.ofNat n :: littleEndian width (n / 256)

/-- The number that bytes stand for, least significant first. -/
def ofLittleEndian : List Byte → ℕ
  | [] => 0
  | b :: bytes => b.toNat + 256 * ofLittleEndian bytes

/-- A number is written in the given width. -/
@[simp] lemma length_littleEndian (width n : ℕ) : (littleEndian width n).length = width := by
  induction width generalizing n with
  | zero => rfl
  | succ width ih => simp [littleEndian, ih]

/-- The number of its own bytes. -/
lemma ofLittleEndian_littleEndian {width : ℕ} : ∀ {n : ℕ}, n < 256 ^ width →
    ofLittleEndian (littleEndian width n) = n := by
  induction width with
  | zero =>
    intro n hn
    rw [pow_zero] at hn
    simp only [littleEndian, ofLittleEndian]
    omega
  | succ width ih =>
    intro n hn
    have hdiv : n / 256 < 256 ^ width := Nat.div_lt_of_lt_mul (by rw [pow_succ] at hn; omega)
    rw [littleEndian, ofLittleEndian, ih hdiv, UInt8.toNat_ofNat']
    norm_num
    omega

/-- Bytes stand for a number that fits. -/
lemma ofLittleEndian_lt (bytes : List Byte) : ofLittleEndian bytes < 256 ^ bytes.length := by
  induction bytes with
  | nil => simp [ofLittleEndian]
  | cons b bytes ih =>
    have hb := b.toNat_lt
    rw [ofLittleEndian, List.length_cons, pow_succ]
    omega

/-- Bytes are the bytes of the number they stand for. -/
lemma littleEndian_ofLittleEndian (bytes : List Byte) :
    littleEndian bytes.length (ofLittleEndian bytes) = bytes := by
  induction bytes with
  | nil => rfl
  | cons b bytes ih =>
    have hb := b.toNat_lt
    have hdiv : (b.toNat + 256 * ofLittleEndian bytes) / 256 = ofLittleEndian bytes := by omega
    have hlow : UInt8.ofNat (b.toNat + 256 * ofLittleEndian bytes) = b := by
      apply UInt8.toNat.inj
      rw [UInt8.toNat_ofNat']
      omega
    rw [List.length_cons, ofLittleEndian, littleEndian, hdiv, ih, hlow]

/-! ## Readers -/

/-- A computation that consumes bytes from the front of an image. -/
def Reader (α : Type) : Type := List Byte → Throws (α × List Byte)

namespace Reader

variable {α β : Type}

/-- Read nothing. -/
protected def pure (a : α) : Reader α := fun bytes => .ok (a, bytes)

/-- Two readers in sequence: the second starts where the first stopped. -/
protected def bind (r : Reader α) (f : α → Reader β) : Reader β := fun bytes =>
  match r bytes with
  | .ok (a, rest) => f a rest
  | .error e => .error e

instance : Monad Reader where
  pure := Reader.pure
  bind := Reader.bind

/-- A computation that reads nothing. -/
def call (x : Throws α) : Reader α := fun bytes => x.map (·, bytes)

/-- The number of bytes that are left. -/
def remaining : Reader ℕ := fun bytes => .ok (bytes.length, bytes)

/-- A number of 64 bits; `e` is thrown when fewer than eight bytes are left. -/
def word (e : Exception) : Reader UInt64 := fun bytes =>
  if bytes.length < 8 then .error e
  else .ok (UInt64.ofNat (ofLittleEndian (bytes.take 8)), bytes.drop 8)

/-- A number of bytes that was checked against what is left. -/
def raw (size : ℕ) : Reader (List Byte) := fun bytes => .ok (bytes.take size, bytes.drop size)

/-- A text behind its length; `e'` is thrown when the length exceeds what is left. -/
def text (e e' : Exception) : Reader (List Byte) := do
  let size ← word e
  let left ← remaining
  call (throwIf (size.toNat > left) e')
  raw size.toNat

/-! ### Inversion -/

/-- A sequence returns exactly when both readers do. -/
@[simp] theorem bind_eq_ok {r : Reader α} {f : α → Reader β} {bytes rest : List Byte} {b : β} :
    (r >>= f) bytes = .ok (b, rest) ↔ ∃ a left, r bytes = .ok (a, left) ∧
      f a left = .ok (b, rest) := by
  show Reader.bind r f bytes = _ ↔ _
  unfold Reader.bind
  rcases h : r bytes with _ | ⟨a, left⟩ <;> simp

/-- Reading nothing leaves the bytes. -/
@[simp] lemma pure_eq_ok {bytes rest : List Byte} {a b : α} :
    (pure a : Reader α) bytes = .ok (b, rest) ↔ a = b ∧ bytes = rest := by
  show (Except.ok (a, bytes) : Throws _) = _ ↔ _
  simp

/-- A computation that reads nothing leaves the bytes. -/
@[simp] lemma call_eq_ok {x : Throws α} {bytes rest : List Byte} {a : α} :
    call x bytes = .ok (a, rest) ↔ x = .ok a ∧ bytes = rest := by
  unfold call
  cases x with
  | error e => simp [Except.map]
  | ok a' => simp [Except.map]

/-- Asking for the number of bytes leaves them. -/
@[simp] lemma remaining_eq_ok {bytes rest : List Byte} {n : ℕ} :
    remaining bytes = .ok (n, rest) ↔ bytes.length = n ∧ bytes = rest := by
  simp [remaining]

/-- Reading a number of bytes. -/
@[simp] lemma raw_eq_ok {size : ℕ} {bytes rest value : List Byte} :
    raw size bytes = .ok (value, rest) ↔ bytes.take size = value ∧ bytes.drop size = rest := by
  simp [raw]

/-! ## Exact readers -/

/-- The reader accepts precisely the images `write a` of the values with `P`, and stops behind
them. -/
def Exact (r : Reader α) (write : α → List Byte) (P : α → Prop) : Prop :=
  ∀ bytes a rest, r bytes = .ok (a, rest) ↔ P a ∧ bytes = write a ++ rest

/-- The bytes of a number of 64 bits. -/
def writeWord (value : UInt64) : List Byte := littleEndian 8 value.toNat

/-- The bytes of a text behind its length. -/
def writeText (value : List Byte) : List Byte := littleEndian 8 value.length ++ value

/-- A word has eight bytes. -/
@[simp] lemma length_writeWord (value : UInt64) : (writeWord value).length = 8 := by
  simp [writeWord]

/-- A text is written behind a word with its length. -/
@[simp] lemma length_writeText (value : List Byte) :
    (writeText value).length = 8 + value.length := by
  simp [writeText]

/-- **The reader of a number accepts precisely the eight bytes of a number.** -/
theorem exact_word (e : Exception) : Exact (word e) writeWord fun _ => True := by
  intro bytes value rest
  unfold word
  simp only [true_and]
  constructor
  · intro h
    split_ifs at h with hshort
    simp only [Except.ok.injEq, Prod.mk.injEq] at h
    obtain ⟨rfl, rfl⟩ := h
    have hlength : (bytes.take 8).length = 8 := by
      rw [List.length_take]
      omega
    have hlt := ofLittleEndian_lt (bytes.take 8)
    have hback := littleEndian_ofLittleEndian (bytes.take 8)
    rw [hlength] at hlt hback
    rw [writeWord, UInt64.toNat_ofNat', Nat.mod_eq_of_lt (by norm_num at hlt ⊢; exact hlt), hback,
      List.take_append_drop]
  · rintro rfl
    have hfits : value.toNat < 256 ^ 8 := by
      have := value.toNat_lt
      norm_num at this ⊢
      exact this
    have hnot : ¬ (writeWord value ++ rest).length < 8 := by simp
    rw [if_neg hnot, List.take_left' (length_writeWord value),
      List.drop_left' (length_writeWord value), writeWord, ofLittleEndian_littleEndian hfits,
      UInt64.ofNat_toNat]

/-- **The reader of a text accepts precisely the texts behind their length.** -/
theorem exact_text (e e' : Exception) :
    Exact (text e e') writeText fun value => value.length < 2 ^ 64 := by
  intro bytes value rest
  unfold text
  simp only [bind_eq_ok, exact_word e _ _ _, true_and, remaining_eq_ok, call_eq_ok, throwIf_eq_ok,
    raw_eq_ok]
  constructor
  · rintro ⟨size, left, rfl, _, _, ⟨rfl, rfl⟩, _, _, ⟨hsize, rfl⟩, rfl, rfl⟩
    have hlength : (left.take size.toNat).length = size.toNat := by
      rw [List.length_take]
      omega
    refine ⟨by rw [hlength]; exact size.toNat_lt, ?_⟩
    rw [writeText, hlength, List.append_assoc, List.take_append_drop]
    rfl
  · rintro ⟨hlength, rfl⟩
    have hsize : (UInt64.ofNat value.length).toNat = value.length := by
      rw [UInt64.toNat_ofNat', Nat.mod_eq_of_lt hlength]
    refine ⟨UInt64.ofNat value.length, value ++ rest, ?_, _, _, ⟨rfl, rfl⟩, (), _, ⟨?_, rfl⟩, ?_⟩
    · rw [writeText, writeWord, hsize, List.append_assoc]
    · rw [hsize, List.length_append]
      omega
    · rw [hsize]
      exact ⟨List.take_left, List.drop_left⟩

end Reader

end Pops
