import Pops.Amr.Reflux.InterfaceFluxLedger
import Pops.Foundation.Binary64
import Pops.Foundation.ByteReader

/-!
# Byte images of checkpoints

`checkpoint_detail::Writer` appends words of eight bytes, texts behind their length and containers
behind their count.  An `int` takes a whole word.  `CountingWriter` adds up the same bytes without
writing them and throws when the sum does not fit.  Every writer has the length of its image beside
it.

## Main definitions

* `Pops.Image.u64`, `Pops.Image.i64`, `Pops.Image.text` and the writers built from them.
* `Pops.Image.sequence` — a container behind its count.
* `Pops.CountingWriter.add`, `repeatedBytes` — the counting twin.
-/

namespace Pops

namespace Image

/-! ## Writing -/

/-- `Writer::u64`, and `Writer::size`. -/
def u64 (value : ℕ) : List Byte := littleEndian 8 value

/-- `Writer::i64`, and `Writer::i32`. -/
def i64 (value : ℤ) : List Byte := u64 (value % 2 ^ 64).toNat

/-- `Writer::real`. -/
def real (bits : Binary64) : List Byte := u64 bits.toNat

/-- The bytes of a `std::string`. -/
def ofString (value : String) : List Byte := value.toList.map fun c => UInt8.ofNat c.toNat

/-- `Writer::bytes`: bytes behind their number. -/
def bytes (value : List Byte) : List Byte := u64 value.length ++ value

/-- `Writer::string`. -/
def text (value : String) : List Byte := bytes (ofString value)

/-- A flag. -/
def flag (value : Bool) : List Byte := u64 (if value then 1 else 0)

/-- The elements of a container behind their number. -/
def sequence {α : Type} (write : α → List Byte) (elements : List α) : List Byte :=
  u64 elements.length ++ elements.flatMap write

/-- `write_rational`. -/
def rational (value : Rational) : List Byte := i64 value.numerator ++ i64 value.denominator

/-- `write_clock`. -/
def clock (value : FluxClock Binary64) : List Byte :=
  i64 value.level ++ (i64 value.macroStep ++ (rational value.phase ++ real value.physicalTime))

/-- `write_clock_window`. -/
def clockWindow (value : FluxWindow Binary64) : List Byte :=
  clock value.opening ++ clock value.closing

/-- `write_index`. -/
def index {d : ℕ} (value : Index d) : List Byte := (List.ofFn value).flatMap i64

/-! ### Lengths -/

/-- An unsigned word has eight bytes. -/
@[simp] lemma length_u64 (value : ℕ) : (u64 value).length = 8 := length_littleEndian 8 value

/-- A signed word has eight bytes. -/
@[simp] lemma length_i64 (value : ℤ) : (i64 value).length = 8 := length_u64 _

/-- A binary64 number has eight bytes. -/
@[simp] lemma length_real (bits : Binary64) : (real bits).length = 8 := length_u64 _

/-- A string has as many bytes as letters. -/
@[simp] lemma length_ofString (value : String) : (ofString value).length = value.length := by
  rw [ofString, List.length_map, String.length_toList]

/-- A string of bytes is written behind a word with its length. -/
@[simp] lemma length_bytes (value : List Byte) : (bytes value).length = 8 + value.length := by
  rw [bytes, List.length_append, length_u64]

/-- A text is written behind a word with its length. -/
@[simp] lemma length_text (value : String) : (text value).length = 8 + value.length := by
  rw [text, length_bytes, length_ofString]

/-- A flag has eight bytes. -/
@[simp] lemma length_flag (value : Bool) : (flag value).length = 8 := length_u64 _

/-- The images of the elements add up. -/
lemma length_sequence {α : Type} (write : α → List Byte) (elements : List α) :
    (sequence write elements).length = 8 + (elements.map fun x => (write x).length).sum := by
  rw [sequence, List.length_append, length_u64, List.length_flatMap]

/-- Elements of one length. -/
lemma length_sequence_const {α : Type} {write : α → List Byte} {n : ℕ}
    (h : ∀ x, (write x).length = n) (elements : List α) :
    (sequence write elements).length = 8 + elements.length * n := by
  rw [length_sequence, funext h, List.map_const', List.sum_replicate, smul_eq_mul]

/-- A rational number has two words. -/
@[simp] lemma length_rational (value : Rational) : (rational value).length = 16 := by
  simp [rational]

/-- A clock has five words. -/
@[simp] lemma length_clock (value : FluxClock Binary64) : (clock value).length = 40 := by
  simp [clock]

/-- A window has two clocks. -/
@[simp] lemma length_clockWindow (value : FluxWindow Binary64) :
    (clockWindow value).length = 80 := by
  simp [clockWindow]

/-- An index has a word for every axis. -/
@[simp] lemma length_index {d : ℕ} (value : Index d) : (index value).length = d * 8 := by
  rw [index, List.length_flatMap, funext length_i64, List.map_const', List.sum_replicate,
    List.length_ofFn, smul_eq_mul]

end Image

/-! ## Counting -/

namespace CountingWriter

/-- `CountingWriter::add_`: count more bytes, refused if the sum leaves `size_t`. -/
def add (count value : ℕ) : Throws ℕ := do
  throwIf (value > sizeMax - count)
    (lengthError "AMR Program checkpoint capacity exceeds size_t")
  pure (count + value)

/-- `CountingWriter::u64` and the writers of one word. -/
def word (count : ℕ) : Throws ℕ := add count 8

/-- `CountingWriter::string_size` and `bytes_size`. -/
def sized (count characters : ℕ) : Throws ℕ := do
  let count ← word count
  add count characters

/-- `CountingWriter::repeated_bytes`: count equal parts, refused if their product leaves `size_t`.
-/
def repeatedBytes (count elements bytesPerValue : ℕ) : Throws ℕ := do
  throwIf (bytesPerValue ≠ 0 ∧ elements > sizeMax / bytesPerValue)
    (lengthError "AMR Program checkpoint repeated capacity exceeds size_t")
  add count (elements * bytesPerValue)

/-- A loop whose rounds add to a measure adds the sum. -/
lemma foldlM_measure {σ α : Type} {f : σ → α → Throws σ} (m : σ → ℕ) (g : α → ℕ)
    (hstep : ∀ s a s', f s a = .ok s' → m s' = m s + g a) {l : List α} {s t : σ}
    (h : l.foldlM f s = .ok t) : m t = m s + (l.map g).sum := by
  refine foldlM_invariant (P := fun done t => m t = m s + (done.map g).sum) h (by simp) ?_
  intro done a rest u u' _ hu hround
  rw [hstep u a u' hround, hu, List.map_append, List.sum_append, List.map_singleton,
    List.sum_singleton, add_assoc]

/-- A loop whose rounds take from a measure takes the sum. -/
lemma foldlM_consume {σ α : Type} {f : σ → α → Throws σ} (m : σ → ℕ) (g : α → ℕ)
    (hstep : ∀ s a s', f s a = .ok s' → m s = g a + m s') {l : List α} {s t : σ}
    (h : l.foldlM f s = .ok t) : m s = (l.map g).sum + m t := by
  refine foldlM_invariant (P := fun done t => m s = (done.map g).sum + m t) h (by simp) ?_
  intro done a rest u u' _ hu hround
  rw [hu, hstep u a u' hround, List.map_append, List.sum_append, List.map_singleton,
    List.sum_singleton, add_assoc]

/-- A counted value is added without overflow. -/
lemma add_eq {count value result : ℕ} (h : add count value = .ok result) :
    result = count + value := by
  simp only [add, bind_eq_ok, pure_eq_ok] at h
  obtain ⟨_, -, rfl⟩ := h
  rfl

/-- A returned count grows by a word. -/
lemma word_eq {count result : ℕ} (h : word count = .ok result) : result = count + 8 := add_eq h

/-- A returned count grows by a word and the characters. -/
lemma sized_eq {count characters result : ℕ} (h : sized count characters = .ok result) :
    result = count + (8 + characters) := by
  simp only [sized, bind_eq_ok] at h
  obtain ⟨middle, hmiddle, h⟩ := h
  rw [add_eq h, word_eq hmiddle, add_assoc]

/-- A counted repetition is multiplied and added without overflow. -/
lemma repeatedBytes_eq {count elements bytesPerValue result : ℕ}
    (h : repeatedBytes count elements bytesPerValue = .ok result) :
    result = count + elements * bytesPerValue := by
  simp only [repeatedBytes, bind_eq_ok] at h
  obtain ⟨_, -, h⟩ := h
  exact add_eq h

end CountingWriter

end Pops
