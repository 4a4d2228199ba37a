import Pops.Foundation.PrefixCode

/-!
# UTF-8

The byte form of a code point takes one to four bytes; the first byte tells how many follow, and
each of the others carries six bits.  The surrogates are code points that no Unicode text holds.

## Main definitions

* `Pops.CodePoint`, `CodePoint.IsScalar` — code points, and those that are no surrogates.
* `Pops.utf8` — the byte form of a code point, surrogates included.
* `Pops.utf8Text` — the byte form of a text.

## Main results

* `Pops.utf8_append_inj` — the byte form of a code point is told apart from what follows.
* `Pops.utf8Text_injective` — the bytes determine the text.
-/

namespace Pops

/-- A Unicode code point. -/
abbrev CodePoint := Fin 0x110000

/-- A Unicode scalar value: a code point that is no surrogate. -/
def CodePoint.IsScalar (c : CodePoint) : Prop := ¬(0xd800 ≤ c.val ∧ c.val ≤ 0xdfff)

instance (c : CodePoint) : Decidable c.IsScalar := inferInstanceAs (Decidable (¬_))

/-- The byte form of a code point. -/
def utf8 (c : CodePoint) : List Byte :=
  if c.val < 0x80 then [UInt8.ofNat c.val]
  else if c.val < 0x800 then [UInt8.ofNat (0xc0 + c.val / 64), UInt8.ofNat (0x80 + c.val % 64)]
  else if c.val < 0x10000 then
    [UInt8.ofNat (0xe0 + c.val / 4096), UInt8.ofNat (0x80 + c.val / 64 % 64),
      UInt8.ofNat (0x80 + c.val % 64)]
  else
    [UInt8.ofNat (0xf0 + c.val / 262144), UInt8.ofNat (0x80 + c.val / 4096 % 64),
      UInt8.ofNat (0x80 + c.val / 64 % 64), UInt8.ofNat (0x80 + c.val % 64)]

/-- The byte form of a text. -/
def utf8Text (text : List CodePoint) : List Byte := text.flatMap utf8

/-- The byte of a number that fits is that number. -/
lemma ofNat_eq_ofNat_iff {n m : ℕ} (hn : n < 256) (hm : m < 256) :
    UInt8.ofNat n = UInt8.ofNat m ↔ n = m := by
  constructor
  · intro h
    have := congrArg UInt8.toNat h
    rw [UInt8.toNat_ofNat', UInt8.toNat_ofNat'] at this
    norm_num at this
    rwa [Nat.mod_eq_of_lt hn, Nat.mod_eq_of_lt hm] at this
  · rintro rfl
    rfl

/-- **The byte form of a code point is told apart from whatever follows it.**

**Proof sketch.** The first byte lies below `0x80`, or from `0xc0`, `0xe0` or `0xf0` on, according
to the number of bytes, so both have as many; the digits of the code points then agree. -/
theorem utf8_append_inj {c d : CodePoint} {s t : List Byte} (h : utf8 c ++ s = utf8 d ++ t) :
    c = d := by
  obtain ⟨c, hc⟩ := c
  obtain ⟨d, hd⟩ := d
  apply Fin.ext
  unfold utf8 at h
  dsimp only at h ⊢
  split_ifs at h <;>
    simp (disch := omega) only [List.cons_append, List.nil_append, List.cons.injEq,
      ofNat_eq_ofNat_iff] at h <;> omega

/-- Every code point has a byte. -/
lemma utf8_ne_nil (c : CodePoint) : utf8 c ≠ [] := by
  unfold utf8
  split_ifs <;> simp

/-- **The bytes determine the text.** -/
theorem utf8Text_injective : Function.Injective utf8Text := by
  intro a
  induction a with
  | nil =>
    intro b h
    cases b with
    | nil => rfl
    | cons d b =>
      have hnil : utf8 d ++ utf8Text b = [] := h.symm
      exact absurd (List.append_eq_nil_iff.mp hnil).1 (utf8_ne_nil d)
  | cons c a ih =>
    intro b h
    cases b with
    | nil =>
      have hnil : utf8 c ++ utf8Text a = [] := h
      exact absurd (List.append_eq_nil_iff.mp hnil).1 (utf8_ne_nil c)
    | cons d b =>
      have happend : utf8 c ++ utf8Text a = utf8 d ++ utf8Text b := h
      obtain rfl := utf8_append_inj happend
      rw [ih (List.append_cancel_left happend)]

end Pops
