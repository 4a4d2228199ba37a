import Pops.Foundation.PrefixCode
import Pops.Foundation.Numeral

/-!
# Numbers inside delimited texts

`std::to_string` spells an integer with decimal digits and perhaps a minus sign.  A spelled integer
is told apart from what follows a delimiter, as long as the delimiter is neither a digit nor a minus
sign; a text that is spelled behind its own length may contain any delimiter.

## Main definitions

* `Pops.decimalText` — `std::to_string`.
* `Pops.sizedText` — a text behind its length and a colon.

## Main results

* `Pops.decimalText_append_inj` — a number in front of a delimiter.
* `Pops.sizedText_append_inj` — a text behind its length.
-/

namespace Pops

/-- `std::to_string(value)`. -/
def decimalText (value : ℤ) : List Byte :=
  if value < 0 then 45 :: (Nat.toDigits 10 value.natAbs).map (fun c => UInt8.ofNat c.toNat)
  else (Nat.toDigits 10 value.natAbs).map fun c => UInt8.ofNat c.toNat

/-- A text behind its length and a colon. -/
def sizedText (text : List Byte) : List Byte := decimalText text.length ++ 58 :: text

/-- The byte of a digit, which is also the code of its character. -/
lemma toNat_digit {c : Char} (h : c.isDigit = true) :
    (UInt8.ofNat c.toNat).toNat = c.toNat ∧ 48 ≤ c.toNat ∧ c.toNat ≤ 57 := by
  have hrange : 48 ≤ c.toNat ∧ c.toNat ≤ 57 := by
    simpa [Char.isDigit, UInt32.le_iff_toNat_le] using h
  refine ⟨?_, hrange⟩
  rw [UInt8.toNat_ofNat']
  omega

/-- Digits are spelled with the bytes `'0'` to `'9'`. -/
lemma range_of_mem_digits {n : ℕ} {b : Byte}
    (h : b ∈ (Nat.toDigits 10 n).map fun c => UInt8.ofNat c.toNat) :
    48 ≤ b.toNat ∧ b.toNat ≤ 57 := by
  obtain ⟨c, hc, rfl⟩ := List.mem_map.mp h
  obtain ⟨hbyte, hrange⟩ :=
    toNat_digit (Nat.isDigit_of_mem_toDigits (by decide) (by decide) hc)
  omega

/-- The digits of a number can be read back from their bytes. -/
lemma digits_of_bytes (n : ℕ) : ((Nat.toDigits 10 n).map fun c => UInt8.ofNat c.toNat).map
    (fun b => Char.ofNat b.toNat) = Nat.toDigits 10 n := by
  rw [List.map_map]
  refine (List.map_congr_left fun c hc => ?_).trans (List.map_id _)
  obtain ⟨hbyte, _⟩ := toNat_digit (Nat.isDigit_of_mem_toDigits (by decide) (by decide) hc)
  show Char.ofNat (UInt8.ofNat c.toNat).toNat = c
  rw [hbyte, Char.ofNat_toNat]

/-- The bytes of the digits determine the number. -/
lemma digits_inj {n m : ℕ} (h : (Nat.toDigits 10 n).map (fun c => UInt8.ofNat c.toNat) =
    (Nat.toDigits 10 m).map fun c => UInt8.ofNat c.toNat) : n = m := by
  have hdigits : Nat.toDigits 10 n = Nat.toDigits 10 m := by
    rw [← digits_of_bytes n, h, digits_of_bytes]
  rw [← Nat.ofDigitChars_ten_toDigits (n := n), hdigits, Nat.ofDigitChars_ten_toDigits]

/-- A spelled integer has digits and a minus sign, nothing else. -/
lemma range_of_mem_decimalText {value : ℤ} {b : Byte} (h : b ∈ decimalText value) :
    b.toNat = 45 ∨ 48 ≤ b.toNat ∧ b.toNat ≤ 57 := by
  unfold decimalText at h
  split_ifs at h with hneg
  · rcases List.mem_cons.mp h with rfl | h
    · exact .inl rfl
    · exact .inr (range_of_mem_digits h)
  · exact .inr (range_of_mem_digits h)

/-- **The text determines the integer.** -/
theorem decimalText_inj {a b : ℤ} (h : decimalText a = decimalText b) : a = b := by
  -- a minus sign is no digit, so the signs agree
  have hmixed : ∀ n m : ℕ, 45 :: (Nat.toDigits 10 n).map (fun c => UInt8.ofNat c.toNat) ≠
      (Nat.toDigits 10 m).map fun c => UInt8.ofNat c.toNat := by
    intro n m heq
    have := range_of_mem_digits (n := m) (b := 45) (by rw [← heq]; simp)
    simp at this
  unfold decimalText at h
  split_ifs at h with ha hb hb
  · have := digits_inj (List.cons.inj h).2
    omega
  · exact absurd h (hmixed _ _)
  · exact absurd h.symm (hmixed _ _)
  · have := digits_inj h
    omega

/-- What stands in front of the first delimiter is determined by the whole text. -/
lemma append_delimiter_inj {α : Type*} {delimiter : α} {x y s t : List α}
    (hx : delimiter ∉ x) (hy : delimiter ∉ y) (h : x ++ delimiter :: s = y ++ delimiter :: t) :
    x = y ∧ s = t := by
  induction x generalizing y with
  | nil =>
    cases y with
    | nil => exact ⟨rfl, (List.cons.inj h).2⟩
    | cons b y => exact absurd (List.cons.inj h).1 fun e => hy (by simp [e])
  | cons a x ih =>
    cases y with
    | nil => exact absurd (List.cons.inj h).1 fun e => hx (by simp [e])
    | cons b y =>
      obtain ⟨rfl, htail⟩ := List.cons.inj h
      obtain ⟨rfl, hrest⟩ := ih (fun hmem => hx (by simp [hmem])) (fun hmem => hy (by simp [hmem]))
        htail
      exact ⟨rfl, hrest⟩

/-- **A number in front of a delimiter is told apart from whatever follows.** -/
theorem decimalText_append_inj {delimiter : Byte} (hminus : delimiter.toNat ≠ 45)
    (hdigit : ¬ (48 ≤ delimiter.toNat ∧ delimiter.toNat ≤ 57)) {a b : ℤ} {s t : List Byte}
    (h : decimalText a ++ delimiter :: s = decimalText b ++ delimiter :: t) : a = b ∧ s = t := by
  have hnot : ∀ value : ℤ, delimiter ∉ decimalText value := by
    intro value hmem
    rcases range_of_mem_decimalText hmem with h | h
    · exact hminus h
    · exact hdigit h
  obtain ⟨htext, hrest⟩ := append_delimiter_inj (hnot a) (hnot b) h
  exact ⟨decimalText_inj htext, hrest⟩

/-- **A text behind its length is told apart from whatever follows.** -/
theorem sizedText_append_inj {x y s t : List Byte} (h : sizedText x ++ s = sizedText y ++ t) :
    x = y ∧ s = t := by
  unfold sizedText at h
  rw [List.append_assoc, List.append_assoc] at h
  obtain ⟨hlength, hrest⟩ := decimalText_append_inj (by decide) (by decide) h
  exact List.append_inj hrest (by exact_mod_cast hlength)

end Pops
