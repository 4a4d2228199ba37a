import Mathlib

/-!
# Numerals in texts

What the conversions of the C library read from the front of a text: white space, a sign and decimal
digits.  A text may be split at the first occurrence of a separator.

## Main definitions

* `Numeral.scan` — the sign, the magnitude and the length of the numeral at the front of a text.
* `Numeral.Spelled` — the text is one numeral.
* `Numeral.splitFirst` — split a text at a separator.

## Main results

* `Numeral.scan_all_iff` — a text is consumed exactly when it is one numeral.
* `Numeral.splitFirst_eq_some` — the parts of a split text.
-/

namespace Numeral

/-- `isspace` in the C locale. -/
def isSpace (c : Char) : Bool :=
  c = ' ' || c = '\t' || c = '\n' || c = '\x0b' || c = '\x0c' || c = '\r'

/-- The sign at the front of a text, whether it is negative, and what follows. -/
def readSign : List Char → Bool × ℕ × List Char
  | '-' :: rest => (true, 1, rest)
  | '+' :: rest => (false, 1, rest)
  | rest => (false, 0, rest)

/-- The numeral at the front of a text: whether it is negative, its magnitude and the number of
characters it takes. -/
def scan (text : List Char) : Option (Bool × ℕ × ℕ) :=
  let blank := text.takeWhile isSpace
  let (negative, signLength, rest) := readSign (text.dropWhile isSpace)
  let digits := rest.takeWhile Char.isDigit
  if digits = [] then none
  else some (negative, Nat.ofDigitChars 10 digits 0, blank.length + signLength + digits.length)

/-- The text of a sign. -/
def IsSign (negative : Bool) (sign : List Char) : Prop :=
  sign = ['-'] ∧ negative = true ∨ sign = ['+'] ∧ negative = false ∨ sign = [] ∧ negative = false

/-- The text is a nonempty string of digits with this value. -/
def Decimal (text : List Char) (value : ℕ) : Prop :=
  text ≠ [] ∧ (∀ c ∈ text, c.isDigit = true) ∧ Nat.ofDigitChars 10 text 0 = value

/-- The text is one numeral: white space, a sign and digits. -/
def Spelled (text : List Char) (negative : Bool) (magnitude : ℕ) : Prop :=
  ∃ blank sign digits, text = blank ++ (sign ++ digits) ∧ (∀ c ∈ blank, isSpace c = true) ∧
    IsSign negative sign ∧ Decimal digits magnitude

/-- A digit is neither white space nor a sign. -/
lemma not_space_of_isDigit {c : Char} (h : c.isDigit = true) :
    isSpace c = false ∧ c ≠ '-' ∧ c ≠ '+' := by
  have hrange : 48 ≤ c.toNat ∧ c.toNat ≤ 57 := by
    simpa [Char.isDigit, UInt32.le_iff_toNat_le] using h
  have hne : ∀ e : Char, e.toNat < 48 → c ≠ e := by
    rintro e he rfl
    omega
  refine ⟨?_, hne _ (by decide), hne _ (by decide)⟩
  simp only [isSpace, Bool.or_eq_false_iff, decide_eq_false_iff_not]
  exact ⟨⟨⟨⟨⟨hne _ (by decide), hne _ (by decide)⟩, hne _ (by decide)⟩, hne _ (by decide)⟩,
    hne _ (by decide)⟩, hne _ (by decide)⟩

/-- The decimal digits of a number are its numeral. -/
lemma decimal_toDigits (n : ℕ) : Decimal (Nat.toDigits 10 n) n :=
  ⟨Nat.toDigits_ne_nil, fun _ hc => Nat.isDigit_of_mem_toDigits (by decide) (by decide) hc,
    Nat.ofDigitChars_ten_toDigits⟩

/-- Digits alone are a numeral without sign. -/
lemma Decimal.spelled {text : List Char} {value : ℕ} (h : Decimal text value) :
    Spelled text false value :=
  ⟨[], [], text, rfl, by simp, .inr (.inr ⟨rfl, rfl⟩), h⟩

/-- Reading a sign in front of digits. -/
lemma readSign_append {negative : Bool} {sign digits : List Char} {value : ℕ}
    (hsign : IsSign negative sign) (hdigits : Decimal digits value) :
    readSign (sign ++ digits) = (negative, sign.length, digits) := by
  rcases hsign with ⟨rfl, rfl⟩ | ⟨rfl, rfl⟩ | ⟨rfl, rfl⟩
  · rfl
  · rfl
  · cases digits with
    | nil => exact absurd rfl hdigits.1
    | cons c rest =>
      obtain ⟨_, hminus, hplus⟩ := not_space_of_isDigit (hdigits.2.1 c (by simp))
      simp only [List.nil_append, readSign, List.length_nil]
      split
      · rename_i heq
        exact absurd (List.cons.inj heq).1 hminus
      · rename_i heq
        exact absurd (List.cons.inj heq).1 hplus
      · rfl

/-- What a sign reader leaves is the text behind the sign. -/
lemma readSign_spec (text : List Char) : ∃ sign, text = sign ++ (readSign text).2.2 ∧
    sign.length = (readSign text).2.1 ∧ IsSign (readSign text).1 sign := by
  unfold readSign
  split
  · exact ⟨['-'], rfl, rfl, .inl ⟨rfl, rfl⟩⟩
  · exact ⟨['+'], rfl, rfl, .inr (.inl ⟨rfl, rfl⟩)⟩
  · exact ⟨[], rfl, rfl, .inr (.inr ⟨rfl, rfl⟩)⟩

/-- **A text is consumed as a whole exactly when it is one numeral.** -/
theorem scan_all_iff {text : List Char} {negative : Bool} {magnitude : ℕ} :
    scan text = some (negative, magnitude, text.length) ↔ Spelled text negative magnitude := by
  constructor
  · intro h
    obtain ⟨sign, hrest, hlength, hsign⟩ := readSign_spec (text.dropWhile isSpace)
    unfold scan at h
    generalize readSign (text.dropWhile isSpace) = read at h hrest hlength hsign
    obtain ⟨negative', signLength, rest⟩ := read
    simp only at h hrest hlength hsign
    split_ifs at h with hempty
    simp only [Option.some.injEq, Prod.mk.injEq] at h
    obtain ⟨rfl, hvalue, hall⟩ := h
    have htext : text = text.takeWhile isSpace ++ (sign ++ rest) := by
      rw [← hrest, List.takeWhile_append_dropWhile]
    -- nothing follows the digits because the whole text was consumed
    have hdigits : rest.takeWhile Char.isDigit = rest := by
      refine (List.takeWhile_prefix _).eq_of_length ?_
      have hlen := congrArg List.length htext
      simp only [List.length_append] at hlen
      omega
    rw [hdigits] at hempty hvalue
    refine ⟨text.takeWhile isSpace, sign, rest, htext, fun c hc => List.mem_takeWhile_imp hc, hsign,
      hempty, fun c hc => ?_, hvalue⟩
    rw [← hdigits] at hc
    exact List.mem_takeWhile_imp hc
  · rintro ⟨blank, sign, digits, rfl, hblank, hsign, hdigits⟩
    have hfront : ∀ c ∈ (sign ++ digits).head?, isSpace c = false := by
      intro c hc
      rcases hsign with ⟨rfl, _⟩ | ⟨rfl, _⟩ | ⟨rfl, _⟩
      · obtain rfl : '-' = c := by simpa using hc
        rfl
      · obtain rfl : '+' = c := by simpa using hc
        rfl
      · exact (not_space_of_isDigit (hdigits.2.1 c (List.mem_of_mem_head? hc))).1
    have hdrop : (sign ++ digits).dropWhile isSpace = sign ++ digits := by
      cases hlist : sign ++ digits with
      | nil => rfl
      | cons c rest =>
        rw [List.dropWhile_cons_of_neg]
        simpa using hfront c (by simp [hlist])
    have htake : (sign ++ digits).takeWhile isSpace = [] := by
      cases hlist : sign ++ digits with
      | nil => rfl
      | cons c rest =>
        rw [List.takeWhile_cons_of_neg]
        simpa using hfront c (by simp [hlist])
    have hall : digits.takeWhile Char.isDigit = digits :=
      List.takeWhile_eq_self_iff.mpr hdigits.2.1
    rw [scan]
    simp only [List.takeWhile_append_of_pos hblank, List.dropWhile_append_of_pos hblank, htake,
      hdrop, readSign_append hsign hdigits, hall, if_neg hdigits.1, hdigits.2.2, List.append_nil,
      List.length_append, Nat.add_assoc]

/-! ## Separators -/

/-- Split a text at the first separator. -/
def splitFirst (separator : Char) (text : List Char) : Option (List Char × List Char) :=
  match text.dropWhile (· != separator) with
  | [] => none
  | _ :: rest => some (text.takeWhile (· != separator), rest)

/-- **The parts of a split text.** -/
theorem splitFirst_eq_some {separator : Char} {text front rest : List Char} :
    splitFirst separator text = some (front, rest) ↔
      text = front ++ separator :: rest ∧ separator ∉ front := by
  constructor
  · intro h
    unfold splitFirst at h
    cases hdrop : text.dropWhile (· != separator) with
    | nil =>
      rw [hdrop] at h
      cases h
    | cons c tail =>
      simp only [hdrop, Option.some.injEq, Prod.mk.injEq] at h
      obtain ⟨rfl, rfl⟩ := h
      have hc : c = separator := by
        have hhead := List.head?_dropWhile_not (· != separator) text
        rw [hdrop] at hhead
        simpa using hhead
      refine ⟨?_, fun hmem => ?_⟩
      · conv_lhs =>
          rw [← List.takeWhile_append_dropWhile (p := (· != separator)) (l := text), hdrop]
        rw [hc]
      · simpa using List.mem_takeWhile_imp hmem
  · rintro ⟨rfl, hnot⟩
    have hfront : ∀ c ∈ front, (c != separator) = true := by
      intro c hc
      rw [bne_iff_ne]
      rintro rfl
      exact hnot hc
    simp [splitFirst, List.dropWhile_append_of_pos hfront, List.takeWhile_append_of_pos hfront]

end Numeral
