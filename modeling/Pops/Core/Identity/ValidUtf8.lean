import Pops.Foundation.Utf8

/-!
# The UTF-8 validator

`valid_utf8` reads a byte string once.  The first byte of a character gives the number of bytes
that follow, the bits it carries and the least code point that needs so many bytes; the code
point is then collected from the others and checked.

## Main definitions

* `Pops.leadByte`, `trailingBytes` — the two halves of the loop body.
* `Pops.validUtf8` — the loop.

## Main results

* `Pops.validUtf8_utf8` — one character is read off, and it is accepted exactly if it is a scalar.
* `Pops.validUtf8_iff` — the accepted byte strings are the texts of scalars.
-/

namespace Pops

/-- The first byte of a character of more than one byte: the number of trailing bytes, the bits
of the code point and the least code point that is not an overlong form. -/
def leadByte (first : ℕ) : Option (ℕ × ℕ × ℕ) :=
  if 0xc2 ≤ first ∧ first ≤ 0xdf then some (1, first &&& 0x1f, 0x80)
  else if 0xe0 ≤ first ∧ first ≤ 0xef then some (2, first &&& 0x0f, 0x800)
  else if 0xf0 ≤ first ∧ first ≤ 0xf4 then some (3, first &&& 0x07, 0x10000)
  else none

/-- The loop over the trailing bytes: the code point and what is left, unless a byte is no
continuation byte. -/
def trailingBytes : ℕ → ℕ → List Byte → Option (ℕ × List Byte)
  | 0, code, rest => some (code, rest)
  | _ + 1, _, [] => none
  | trailing + 1, code, next :: rest =>
    if next.toNat &&& 0xc0 ≠ 0x80 then none
    else trailingBytes trailing ((code <<< 6) ||| (next.toNat &&& 0x3f)) rest

/-- The loop over the trailing bytes only consumes. -/
lemma length_trailingBytes {n code code' : ℕ} {bytes rest : List Byte}
    (h : trailingBytes n code bytes = some (code', rest)) : rest.length ≤ bytes.length := by
  induction n generalizing code bytes with
  | zero =>
    obtain ⟨-, rfl⟩ := Prod.mk.inj (Option.some.inj h)
    exact le_rfl
  | succ n ih =>
    cases bytes with
    | nil => cases h
    | cons b bytes =>
      rw [trailingBytes] at h
      split_ifs at h
      have := ih h
      rw [List.length_cons]
      omega

/-- `valid_utf8`: the loop over the characters. -/
def validUtf8 : List Byte → Bool
  | [] => true
  | first :: rest =>
    if first.toNat ≤ 0x7f then validUtf8 rest
    else
      match leadByte first.toNat with
      | none => false
      | some (trailing, code, minimum) =>
        if trailing > rest.length then false
        else
          match _h : trailingBytes trailing code rest with
          | none => false
          | some (code, rest') =>
            if code < minimum ∨ code > 0x10ffff ∨ (0xd800 ≤ code ∧ code ≤ 0xdfff) then false
            else validUtf8 rest'
termination_by bytes => bytes.length
decreasing_by
  · simp
  · have := length_trailingBytes _h
    simp only [List.length_cons]
    omega

/-! ## One character -/

/-- The mask of a continuation byte looks at its upper two bits. -/
lemma land_c0_eq_80_iff : ∀ n < 256, (n &&& 0xc0 = 0x80 ↔ n / 64 = 2) := by
  decide +kernel

/-- Six more bits. -/
lemma shiftLeft_or_low (code next : ℕ) :
    (code <<< 6) ||| (next &&& 0x3f) = code * 64 + next % 64 := by
  have hlow : next &&& 0x3f = next % 64 := Nat.and_two_pow_sub_one_eq_mod next 6
  rw [hlow, ← Nat.shiftLeft_add_eq_or_of_lt (by omega), Nat.shiftLeft_eq]

/-- One trailing byte. -/
lemma trailingBytes_cons (n code : ℕ) (next : Byte) (rest : List Byte) :
    trailingBytes (n + 1) code (next :: rest) =
      if next.toNat / 64 = 2 then trailingBytes n (code * 64 + next.toNat % 64) rest
      else none := by
  rw [trailingBytes, shiftLeft_or_low]
  simp only [ne_eq, land_c0_eq_80_iff next.toNat next.toNat_lt, ite_not]

/-- The bits that the first byte carries. -/
lemma leadByte_eq (first : ℕ) : leadByte first =
    if 0xc2 ≤ first ∧ first ≤ 0xdf then some (1, first % 32, 0x80)
    else if 0xe0 ≤ first ∧ first ≤ 0xef then some (2, first % 16, 0x800)
    else if 0xf0 ≤ first ∧ first ≤ 0xf4 then some (3, first % 8, 0x10000)
    else none := by
  have h5 : first &&& 0x1f = first % 32 := Nat.and_two_pow_sub_one_eq_mod first 5
  have h4 : first &&& 0x0f = first % 16 := Nat.and_two_pow_sub_one_eq_mod first 4
  have h3 : first &&& 0x07 = first % 8 := Nat.and_two_pow_sub_one_eq_mod first 3
  rw [leadByte, h5, h4, h3]

/-- A character of more than one byte whose trailing bytes are read. -/
lemma validUtf8_of_trailing {first : Byte} {rest rest' : List Byte} {n code minimum code' : ℕ}
    (hfirst : 0x7f < first.toNat) (hlead : leadByte first.toNat = some (n, code, minimum))
    (hlength : n ≤ rest.length) (htrailing : trailingBytes n code rest = some (code', rest')) :
    validUtf8 (first :: rest) =
      if code' < minimum ∨ code' > 0x10ffff ∨ (0xd800 ≤ code' ∧ code' ≤ 0xdfff) then false
      else validUtf8 rest' := by
  rw [validUtf8, if_neg (by omega), hlead]
  simp only [gt_iff_lt, not_lt.mpr hlength, if_false]
  split
  · next h => rw [htrailing] at h; cases h
  · next h =>
    rw [htrailing] at h
    obtain ⟨rfl, rfl⟩ := Prod.mk.inj (Option.some.inj h)
    rfl

/-- The number of a byte that fits. -/
lemma toNat_ofNat_of_lt {n : ℕ} (h : n < 256) : (UInt8.ofNat n).toNat = n := by
  rw [UInt8.toNat_ofNat']
  exact Nat.mod_eq_of_lt h

/-- **One character is read off, and it is accepted exactly if it is a scalar.** -/
theorem validUtf8_utf8 (c : CodePoint) (rest : List Byte) :
    validUtf8 (utf8 c ++ rest) = (decide c.IsScalar && validUtf8 rest) := by
  obtain ⟨c, hc⟩ := c
  unfold utf8 CodePoint.IsScalar
  dsimp only
  split_ifs with h1 h2 h3
  · have hscalar : ¬(0xd800 ≤ c ∧ c ≤ 0xdfff) := by omega
    rw [List.singleton_append, validUtf8, toNat_ofNat_of_lt (by omega), if_pos (by omega)]
    simp [hscalar]
  · have hscalar : ¬(0xd800 ≤ c ∧ c ≤ 0xdfff) := by omega
    have htrailing : trailingBytes 1 ((0xc0 + c / 64) % 32) (UInt8.ofNat (0x80 + c % 64) :: rest) =
        some (c, rest) := by
      rw [trailingBytes_cons, toNat_ofNat_of_lt (by omega), if_pos (by omega), trailingBytes]
      congr 2
      omega
    rw [List.cons_append, List.singleton_append, validUtf8_of_trailing
      (by rw [toNat_ofNat_of_lt (by omega)]; omega)
      (by rw [toNat_ofNat_of_lt (by omega), leadByte_eq, if_pos (by omega)])
      (by simp) htrailing, if_neg (by omega)]
    simp [hscalar]
  · have htrailing : trailingBytes 2 ((0xe0 + c / 4096) % 16)
        (UInt8.ofNat (0x80 + c / 64 % 64) :: UInt8.ofNat (0x80 + c % 64) :: rest) =
        some (c, rest) := by
      rw [trailingBytes_cons, toNat_ofNat_of_lt (by omega), if_pos (by omega), trailingBytes_cons,
        toNat_ofNat_of_lt (by omega), if_pos (by omega), trailingBytes]
      congr 2
      omega
    rw [List.cons_append, List.cons_append, List.singleton_append, validUtf8_of_trailing
      (by rw [toNat_ofNat_of_lt (by omega)]; omega)
      (by rw [toNat_ofNat_of_lt (by omega), leadByte_eq, if_neg (by omega), if_pos (by omega)])
      (by simp) htrailing]
    by_cases hscalar : 0xd800 ≤ c ∧ c ≤ 0xdfff
    · rw [if_pos (by omega)]
      simp [hscalar]
    · rw [if_neg (by omega)]
      simp [hscalar]
  · have hscalar : ¬(0xd800 ≤ c ∧ c ≤ 0xdfff) := by omega
    have htrailing : trailingBytes 3 ((0xf0 + c / 262144) % 8)
        (UInt8.ofNat (0x80 + c / 4096 % 64) :: UInt8.ofNat (0x80 + c / 64 % 64) ::
          UInt8.ofNat (0x80 + c % 64) :: rest) = some (c, rest) := by
      rw [trailingBytes_cons, toNat_ofNat_of_lt (by omega), if_pos (by omega), trailingBytes_cons,
        toNat_ofNat_of_lt (by omega), if_pos (by omega), trailingBytes_cons,
        toNat_ofNat_of_lt (by omega), if_pos (by omega), trailingBytes]
      congr 2
      omega
    rw [List.cons_append, List.cons_append, List.cons_append, List.singleton_append,
      validUtf8_of_trailing
      (by rw [toNat_ofNat_of_lt (by omega)]; omega)
      (by rw [toNat_ofNat_of_lt (by omega), leadByte_eq, if_neg (by omega), if_neg (by omega),
        if_pos (by omega)])
      (by simp) htrailing, if_neg (by omega)]
    simp [hscalar]

/-- The validator accepts a text exactly if it consists of scalars. -/
lemma validUtf8_utf8Text (text : List CodePoint) :
    validUtf8 (utf8Text text) = true ↔ ∀ c ∈ text, c.IsScalar := by
  induction text with
  | nil => simp [utf8Text, validUtf8]
  | cons c text ih =>
    have happend : utf8Text (c :: text) = utf8 c ++ utf8Text text := rfl
    rw [happend, validUtf8_utf8, Bool.and_eq_true, decide_eq_true_iff, ih, List.forall_mem_cons]

/-! ## The accepted strings -/

/-- What the validator demands of a character of more than one byte. -/
lemma trailing_of_validUtf8 {first : Byte} {rest : List Byte} (hfirst : 0x7f < first.toNat)
    (h : validUtf8 (first :: rest) = true) :
    ∃ n code minimum code' rest', leadByte first.toNat = some (n, code, minimum) ∧
      trailingBytes n code rest = some (code', rest') ∧ minimum ≤ code' ∧ code' ≤ 0x10ffff ∧
      ¬(0xd800 ≤ code' ∧ code' ≤ 0xdfff) ∧ validUtf8 rest' = true := by
  rw [validUtf8, if_neg (by omega)] at h
  split at h
  · cases h
  · next n code minimum hlead =>
    split_ifs at h
    split at h
    · cases h
    · next code' rest' htrailing =>
      split_ifs at h with hcode
      push Not at hcode
      exact ⟨n, code, minimum, code', rest', hlead, htrailing, hcode.1, hcode.2.1,
        fun hsurrogate => absurd hsurrogate.2 (not_le.mpr (hcode.2.2 hsurrogate.1)), h⟩

/-- A trailing byte that is read. -/
lemma trailingBytes_succ_eq_some {n code code' : ℕ} {bytes rest : List Byte}
    (h : trailingBytes (n + 1) code bytes = some (code', rest)) :
    ∃ next bytes', bytes = next :: bytes' ∧ next.toNat / 64 = 2 ∧
      trailingBytes n (code * 64 + next.toNat % 64) bytes' = some (code', rest) := by
  cases bytes with
  | nil => cases h
  | cons next bytes =>
    rw [trailingBytes_cons] at h
    split_ifs at h with hnext
    exact ⟨next, bytes, rfl, hnext, h⟩

/-- The loop ends when no trailing byte is left. -/
lemma trailingBytes_zero_eq_some {code code' : ℕ} {bytes rest : List Byte}
    (h : trailingBytes 0 code bytes = some (code', rest)) : code = code' ∧ bytes = rest :=
  Prod.mk.inj (Option.some.inj h)

/-- A byte is the byte of its number. -/
lemma eq_ofNat_of_toNat {b : Byte} {n : ℕ} (h : b.toNat = n) : b = UInt8.ofNat n := by
  rw [← h, UInt8.ofNat_toNat]

/-- A character of more than one byte that the validator accepts is the byte form of a scalar. -/
lemma exists_scalar_of_validUtf8 {first : Byte} {rest : List Byte} (hfirst : 0x7f < first.toNat)
    (h : validUtf8 (first :: rest) = true) :
    ∃ (c : CodePoint) (rest' : List Byte), c.IsScalar ∧ first :: rest = utf8 c ++ rest' ∧
      validUtf8 rest' = true := by
  obtain ⟨n, code, minimum, code', rest', hlead, htrailing, hmin, hmax, hscalar, hrest⟩ :=
    trailing_of_validUtf8 hfirst h
  refine ⟨⟨code', by omega⟩, rest', hscalar, ?_, hrest⟩
  have hbyte := first.toNat_lt
  rw [leadByte_eq] at hlead
  -- two, three or four bytes
  split_ifs at hlead with h2 h3 h4 <;>
    obtain ⟨rfl, rfl, rfl⟩ : _ ∧ _ ∧ _ := by simpa using hlead
  · obtain ⟨b, bytes, rfl, hb, htrailing⟩ := trailingBytes_succ_eq_some htrailing
    obtain ⟨hcode, rfl⟩ := trailingBytes_zero_eq_some htrailing
    have hfirst' : first = UInt8.ofNat (0xc0 + code' / 64) := eq_ofNat_of_toNat (by omega)
    have hb' : b = UInt8.ofNat (0x80 + code' % 64) := eq_ofNat_of_toNat (by omega)
    rw [utf8, if_neg (by dsimp only; omega), if_pos (by dsimp only; omega), hfirst', hb']
    rfl
  · obtain ⟨b, bytes, rfl, hb, htrailing⟩ := trailingBytes_succ_eq_some htrailing
    obtain ⟨b₁, bytes, rfl, hb₁, htrailing⟩ := trailingBytes_succ_eq_some htrailing
    obtain ⟨hcode, rfl⟩ := trailingBytes_zero_eq_some htrailing
    have hlt := b.toNat_lt
    have hlt₁ := b₁.toNat_lt
    have hfirst' : first = UInt8.ofNat (0xe0 + code' / 4096) := eq_ofNat_of_toNat (by omega)
    have hb' : b = UInt8.ofNat (0x80 + code' / 64 % 64) := eq_ofNat_of_toNat (by omega)
    have hb₁' : b₁ = UInt8.ofNat (0x80 + code' % 64) := eq_ofNat_of_toNat (by omega)
    rw [utf8, if_neg (by dsimp only; omega), if_neg (by dsimp only; omega),
      if_pos (by dsimp only; omega), hfirst', hb', hb₁']
    rfl
  · obtain ⟨b, bytes, rfl, hb, htrailing⟩ := trailingBytes_succ_eq_some htrailing
    obtain ⟨b₁, bytes, rfl, hb₁, htrailing⟩ := trailingBytes_succ_eq_some htrailing
    obtain ⟨b₂, bytes, rfl, hb₂, htrailing⟩ := trailingBytes_succ_eq_some htrailing
    obtain ⟨hcode, rfl⟩ := trailingBytes_zero_eq_some htrailing
    have hfirst' : first = UInt8.ofNat (0xf0 + code' / 262144) := eq_ofNat_of_toNat (by omega)
    have hb' : b = UInt8.ofNat (0x80 + code' / 4096 % 64) := eq_ofNat_of_toNat (by omega)
    have hb₁' : b₁ = UInt8.ofNat (0x80 + code' / 64 % 64) := eq_ofNat_of_toNat (by omega)
    have hb₂' : b₂ = UInt8.ofNat (0x80 + code' % 64) := eq_ofNat_of_toNat (by omega)
    rw [utf8, if_neg (by dsimp only; omega), if_neg (by dsimp only; omega),
      if_neg (by dsimp only; omega), hfirst', hb', hb₁', hb₂']
    rfl

/-- **The accepted byte strings are the texts of scalars.**

**Proof sketch.** By induction on the length: the first character is the byte form of a scalar,
and the validator accepts what follows it. -/
theorem validUtf8_iff (bytes : List Byte) :
    validUtf8 bytes = true ↔ ∃ text, (∀ c ∈ text, CodePoint.IsScalar c) ∧
    bytes = utf8Text text := by
  constructor
  · induction hn : bytes.length using Nat.strong_induction_on generalizing bytes with
    | _ n ih =>
      intro h
      cases bytes with
      | nil => exact ⟨[], by simp, rfl⟩
      | cons first rest =>
        obtain ⟨c, rest', hc, hbytes, hrest⟩ : ∃ (c : CodePoint) (rest' : List Byte),
            c.IsScalar ∧ first :: rest = utf8 c ++ rest' ∧ validUtf8 rest' = true := by
          by_cases hfirst : first.toNat ≤ 0x7f
          · rw [validUtf8, if_pos hfirst] at h
            refine ⟨⟨first.toNat, by omega⟩, rest, ?_, ?_, h⟩
            · unfold CodePoint.IsScalar
              dsimp only
              omega
            · rw [utf8, if_pos (by dsimp only; omega), UInt8.ofNat_toNat]
              rfl
          · exact exists_scalar_of_validUtf8 (by omega) h
        have hpos : 0 < (utf8 c).length := List.length_pos_iff.mpr (utf8_ne_nil c)
        have hlength : rest'.length < n := by
          have := congrArg List.length hbytes
          rw [List.length_append] at this
          omega
        obtain ⟨text, htext, rfl⟩ := ih _ hlength rest' rfl hrest
        exact ⟨c :: text, by simpa using ⟨hc, htext⟩, hbytes⟩
  · rintro ⟨text, htext, rfl⟩
    exact (validUtf8_utf8Text text).mpr htext

end Pops
