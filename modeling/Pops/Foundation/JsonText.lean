import Mathlib

/-!
# JSON texts of flat objects

The text that `json.dumps` writes for an object whose values are texts, with sorted keys, without
blanks, and with escapes for everything outside printable ASCII.  The text determines the object:
the escape of a character can be told apart from what stands behind it, so a quoted text and the
entries of an object can be read back.

## Main definitions

* `JsonText.escape`, `quote` — a character and a text.
* `JsonText.dumps` — an object.

## Main results

* `JsonText.dumps_injective` — the text determines the object.
-/

namespace JsonText

/-! ## Writing -/

/-- A hexadecimal digit. -/
def hexDigit (n : ℕ) : Char := Nat.digitChar (n % 16)

/-- Four hexadecimal digits. -/
def hex4 (n : ℕ) : List Char :=
  [hexDigit (n / 4096), hexDigit (n / 256), hexDigit (n / 16), hexDigit n]

/-- The escape of a number of 16 bits. -/
def unicode (n : ℕ) : List Char := '\\' :: 'u' :: hex4 n

/-- The characters with short escapes, and the letters of these. -/
def shortEscapes : List (Char × Char) :=
  [('"', '"'), ('\\', '\\'), ('\n', 'n'), ('\r', 'r'), ('\t', 't'), ('\x0c', 'f'), ('\x08', 'b')]

/-- The letter of a short escape. -/
def shortEscape (c : Char) : Option Char :=
  (shortEscapes.find? fun item => item.1 = c).map Prod.snd

/-- A character inside a quoted text. -/
def escape (c : Char) : List Char :=
  match shortEscape c with
  | some letter => ['\\', letter]
  | none =>
    if 32 ≤ c.toNat ∧ c.toNat ≤ 126 then [c]
    else if c.toNat < 65536 then unicode c.toNat
    else
      let n := c.toNat - 65536
      unicode (55296 + n / 1024 % 1024) ++ unicode (56320 + n % 1024)

/-- A quoted text. -/
def quote (text : String) : List Char := '"' :: (text.toList.flatMap escape ++ ['"'])

/-- An entry of an object. -/
def entry (item : String × String) : List Char := quote item.1 ++ ':' :: quote item.2

/-- The entries of an object with commas between them. -/
def entries : List (String × String) → List Char
  | [] => []
  | [item] => entry item
  | item :: rest => entry item ++ ',' :: entries rest

/-- `json.dumps(data, sort_keys=True, separators=(",", ":"))` of an object whose items stand in the
order of their keys. -/
def dumps (items : List (String × String)) : String :=
  String.ofList ('\x7b' :: (entries items ++ ['\x7d']))

/-! ## Reading back -/

/-- A hexadecimal digit determines its number. -/
lemma hexDigit_inj {a b : ℕ} (h : hexDigit a = hexDigit b) : a % 16 = b % 16 := by
  have hall : ∀ a b : Fin 16, Nat.digitChar a = Nat.digitChar b → a = b := by decide
  have := hall ⟨a % 16, Nat.mod_lt _ (by decide)⟩ ⟨b % 16, Nat.mod_lt _ (by decide)⟩ h
  exact congrArg Fin.val this

/-- Four digits determine a number of 16 bits. -/
lemma unicode_append_inj {n m : ℕ} {s t : List Char} (hn : n < 65536) (hm : m < 65536)
    (h : unicode n ++ s = unicode m ++ t) : n = m ∧ s = t := by
  simp only [unicode, hex4, List.cons_append, List.nil_append, List.cons.injEq, true_and] at h
  obtain ⟨h3, h2, h1, h0, hrest⟩ := h
  have h3 := hexDigit_inj h3
  have h2 := hexDigit_inj h2
  have h1 := hexDigit_inj h1
  have h0 := hexDigit_inj h0
  exact ⟨by omega, hrest⟩

/-- A short escape is in the table. -/
lemma mem_of_shortEscape {c letter : Char} (h : shortEscape c = some letter) :
    (c, letter) ∈ shortEscapes := by
  obtain ⟨item, hfind, rfl⟩ := Option.map_eq_some_iff.mp h
  have hkey : item.1 = c := by simpa using List.find?_some hfind
  rw [← hkey]
  exact List.mem_of_find?_eq_some hfind

/-- The letter of a short escape determines the character; it is not the letter of a number. -/
lemma shortEscape_inj {c c' letter : Char} (h : shortEscape c = some letter)
    (h' : shortEscape c' = some letter) : c = c' := by
  have hall : ∀ item ∈ shortEscapes, ∀ item' ∈ shortEscapes, item.2 = item'.2 →
      item.1 = item'.1 := by
    decide
  exact hall _ (mem_of_shortEscape h) _ (mem_of_shortEscape h') rfl

/-- No short escape is spelled with the letter of the long ones. -/
lemma shortEscape_ne {c letter : Char} (h : shortEscape c = some letter) : letter ≠ 'u' := by
  have hall : ∀ item ∈ shortEscapes, item.2 ≠ 'u' := by decide
  exact hall _ (mem_of_shortEscape h)

/-- A character without a short escape is neither a quotation mark nor a backslash. -/
lemma ne_of_shortEscape {c : Char} (h : shortEscape c = none) : c ≠ '\\' ∧ c ≠ '"' := by
  constructor
  all_goals
    rintro rfl
    cases h

/-- The code of a character is not that of a surrogate. -/
lemma toNat_valid (c : Char) : c.toNat < 55296 ∨ 57343 < c.toNat ∧ c.toNat < 1114112 := by
  rcases c.valid with h | h
  · exact .inl h
  · exact .inr h

/-- What the escape of a character can be. -/
lemma escape_cases (c : Char) :
    (∃ letter, shortEscape c = some letter ∧ escape c = ['\\', letter]) ∨
      (c ≠ '\\' ∧ c ≠ '"' ∧ escape c = [c]) ∨
      (c.toNat < 65536 ∧ escape c = unicode c.toNat) ∨
      (65536 ≤ c.toNat ∧ escape c = unicode (55296 + (c.toNat - 65536) / 1024 % 1024) ++
        unicode (56320 + (c.toNat - 65536) % 1024)) := by
  unfold escape
  cases hshort : shortEscape c with
  | some letter => exact .inl ⟨letter, rfl, rfl⟩
  | none =>
    obtain ⟨hslash, hquote⟩ := ne_of_shortEscape hshort
    right
    by_cases hplain : 32 ≤ c.toNat ∧ c.toNat ≤ 126
    · exact .inl ⟨hslash, hquote, by simp only [if_pos hplain]⟩
    · by_cases hsmall : c.toNat < 65536
      · exact .inr (.inl ⟨hsmall, by simp only [if_neg hplain, if_pos hsmall]⟩)
      · exact .inr (.inr ⟨not_lt.mp hsmall, by simp only [if_neg hplain, if_neg hsmall]⟩)

/-- An escape does not begin with a quotation mark. -/
lemma escape_append_ne (c : Char) (s t : List Char) : escape c ++ s ≠ '"' :: t := by
  rcases escape_cases c with ⟨letter, -, h⟩ | ⟨-, hquote, h⟩ | ⟨-, h⟩ | ⟨-, h⟩ <;> rw [h] <;>
    intro heq
  · exact absurd (List.cons.inj heq).1 (by decide)
  · exact hquote (List.cons.inj heq).1
  · exact absurd (List.cons.inj heq).1 (by decide)
  · exact absurd (List.cons.inj heq).1 (by decide)

/-- **The escape of a character can be told apart from what stands behind it.**

**Proof sketch.** A single character is not a backslash; the letter behind a backslash is that of a
number or determines the character; of two numbers the first is a surrogate, which no character is.
-/
theorem escape_append_inj {c c' : Char} {s t : List Char} (h : escape c ++ s = escape c' ++ t) :
    c = c' ∧ s = t := by
  have hvalid := toNat_valid c
  have hvalid' := toNat_valid c'
  rcases escape_cases c with ⟨letter, hl, he⟩ | ⟨hslash, -, he⟩ | ⟨hsmall, he⟩ | ⟨hlarge, he⟩ <;>
    rcases escape_cases c' with ⟨letter', hl', he'⟩ | ⟨hslash', -, he'⟩ | ⟨hsmall', he'⟩ |
      ⟨hlarge', he'⟩ <;> rw [he, he'] at h
  · obtain ⟨-, h⟩ := List.cons.inj h
    obtain ⟨rfl, hrest⟩ := List.cons.inj h
    exact ⟨shortEscape_inj hl hl', hrest⟩
  · exact absurd (List.cons.inj h).1.symm hslash'
  · exact absurd (List.cons.inj (List.cons.inj h).2).1 (shortEscape_ne hl)
  · exact absurd (List.cons.inj (List.cons.inj h).2).1 (shortEscape_ne hl)
  · exact absurd (List.cons.inj h).1 hslash
  · obtain ⟨rfl, hrest⟩ := List.cons.inj h
    exact ⟨rfl, hrest⟩
  · exact absurd (List.cons.inj h).1 hslash
  · exact absurd (List.cons.inj h).1 hslash
  · exact absurd (List.cons.inj (List.cons.inj h).2).1.symm (shortEscape_ne hl')
  · exact absurd (List.cons.inj h).1.symm hslash'
  · obtain ⟨hcode, hrest⟩ := unicode_append_inj hsmall hsmall' h
    exact ⟨Char.toNat_inj.mp hcode, hrest⟩
  · rw [List.append_assoc] at h
    have := (unicode_append_inj hsmall (by omega) h).1
    omega
  · exact absurd (List.cons.inj (List.cons.inj h).2).1.symm (shortEscape_ne hl')
  · exact absurd (List.cons.inj h).1.symm hslash'
  · rw [List.append_assoc] at h
    have := (unicode_append_inj (by omega) hsmall' h).1
    omega
  · rw [List.append_assoc, List.append_assoc] at h
    obtain ⟨hhigh, h⟩ := unicode_append_inj (by omega) (by omega) h
    obtain ⟨hlow, hrest⟩ := unicode_append_inj (by omega) (by omega) h
    exact ⟨Char.toNat_inj.mp (by omega), hrest⟩

/-- Escaped characters in front of a quotation mark can be told apart from what stands behind it. -/
lemma escapes_append_inj {x y s t : List Char}
    (h : x.flatMap escape ++ '"' :: s = y.flatMap escape ++ '"' :: t) : x = y ∧ s = t := by
  induction x generalizing y with
  | nil =>
    cases y with
    | nil => exact ⟨rfl, (List.cons.inj h).2⟩
    | cons c y =>
      rw [List.flatMap_cons, List.append_assoc] at h
      exact absurd h.symm (escape_append_ne c _ _)
  | cons c x ih =>
    cases y with
    | nil =>
      rw [List.flatMap_cons, List.append_assoc] at h
      exact absurd h (escape_append_ne c _ _)
    | cons c' y =>
      rw [List.flatMap_cons, List.flatMap_cons, List.append_assoc, List.append_assoc] at h
      obtain ⟨rfl, htail⟩ := escape_append_inj h
      obtain ⟨rfl, hrest⟩ := ih htail
      exact ⟨rfl, hrest⟩

/-- A quoted text can be told apart from what stands behind it. -/
lemma quote_append_inj {x y : String} {s t : List Char} (h : quote x ++ s = quote y ++ t) :
    x = y ∧ s = t := by
  rw [quote, quote, List.cons_append, List.cons_append] at h
  have h := (List.cons.inj h).2
  rw [List.append_assoc, List.append_assoc] at h
  obtain ⟨hchars, hrest⟩ := escapes_append_inj h
  exact ⟨String.toList_inj.mp hchars, hrest⟩

/-- An entry can be told apart from what stands behind it. -/
lemma entry_append_inj {a b : String × String} {s t : List Char}
    (h : entry a ++ s = entry b ++ t) :
    a = b ∧ s = t := by
  unfold entry at h
  rw [List.append_assoc, List.append_assoc] at h
  obtain ⟨hkey, h⟩ := quote_append_inj h
  obtain ⟨hvalue, hrest⟩ := quote_append_inj (List.cons.inj h).2
  exact ⟨Prod.ext hkey hvalue, hrest⟩

/-- The entries behind the first one. -/
lemma entries_cons_append (a b : String × String) (rest : List (String × String))
    (s : List Char) :
    entries (a :: b :: rest) ++ s = entry a ++ ',' :: (entries (b :: rest) ++ s) := by
  rw [entries, List.append_assoc, List.cons_append]
  rintro ⟨⟩

/-- The entries of an object in front of its closing brace. -/
lemma entries_append_inj : ∀ {xs ys : List (String × String)} {s t : List Char},
    entries xs ++ '\x7d' :: s = entries ys ++ '\x7d' :: t → xs = ys
  | [], [], _, _, _ => rfl
  | [], [_], _, _, h => absurd (List.cons.inj h).1 (by decide)
  | [], _ :: _ :: _, _, _, h => absurd (List.cons.inj h).1 (by decide)
  | [_], [], _, _, h => absurd (List.cons.inj h).1 (by decide)
  | _ :: _ :: _, [], _, _, h => absurd (List.cons.inj h).1 (by decide)
  | [a], [b], _, _, h => by
    rw [(entry_append_inj h).1]
  | [a], b :: c :: ys, _, _, h => by
    rw [entries_cons_append] at h
    exact absurd (List.cons.inj (entry_append_inj h).2).1 (by decide)
  | a :: b :: xs, [c], _, _, h => by
    rw [entries_cons_append] at h
    exact absurd (List.cons.inj (entry_append_inj h).2).1 (by decide)
  | a :: b :: xs, c :: d :: ys, _, _, h => by
    rw [entries_cons_append, entries_cons_append] at h
    obtain ⟨rfl, htail⟩ := entry_append_inj h
    rw [entries_append_inj (List.cons.inj htail).2]

/-- **The text determines the object.** -/
theorem dumps_injective : Function.Injective dumps := by
  intro xs ys h
  exact entries_append_inj (List.cons.inj (String.ofList_inj.mp h)).2

end JsonText
