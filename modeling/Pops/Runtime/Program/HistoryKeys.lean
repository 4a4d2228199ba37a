import Pops.Foundation.MachineInt
import Pops.Foundation.Numeral

/-!
# Keys of level-qualified histories

`history_key_` spells the level and the name of a history ring as one text, with the length of the
name in front of it.  Two functions read such a text back: `decode_history_key` with the conversions
of the C++ library, and the reader of the pending remaps with its own decimal parser.

## Main definitions

* `Pops.HistoryKeys.historyKey` — the key of a ring.
* `Pops.HistoryKeys.decodeHistoryKey`, `parsePendingKey` — the two readers.
* `Pops.HistoryKeys.LooselySpelled` — the texts on which the readers go wrong.

## Main results

* `Pops.HistoryKeys.decoded_eq_some`, `pending_eq_some` — what the readers accept.
* `Pops.HistoryKeys.historyKeys_decode_iff` — the readers agree and accept only keys on exactly the
  other texts.
-/

namespace Pops.HistoryKeys

open Numeral

/-! ## The functions of the source -/

/-- The common front of all keys. -/
def front : List Char := "pops.amr.level-history.v1/".toList

/-- `std::to_string` of a value that is not negative. -/
def toText (n : ℕ) : List Char := Nat.toDigits 10 n

/-- The key of a ring. -/
def historyKey (name : List Char) (level : ℤ) : Throws (List Char) := do
  throwIf (name = [] ∨ level < 0) (invalidArgument "AMR Program history key is invalid")
  pure (front ++ (toText level.toNat ++ '/' :: (toText name.length ++ ':' :: name)))

/-- The fields of a key behind its front: the text of the level, the text of the length and the
name. -/
def splitFields (suffix : List Char) : Option (List Char × List Char × List Char) := do
  let (levelText, rest) ← splitFirst '/' suffix
  let (lengthText, name) ← splitFirst ':' rest
  pure (levelText, lengthText, name)

/-- `std::stoi` with the number of consumed characters. -/
def stoi (text : List Char) : Throws (ℤ × ℕ) :=
  match Numeral.scan text with
  | none => throw (invalidArgument "stoi")
  | some (negative, magnitude, consumed) => do
    let value : ℤ := if negative then -magnitude else magnitude
    throwIf (¬ IsInt value) (outOfRange "stoi")
    pure (value, consumed)

/-- `std::stoull` with the number of consumed characters; a minus sign negates modulo `2⁶⁴`. -/
def stoull (text : List Char) : Throws (ℕ × ℕ) :=
  match Numeral.scan text with
  | none => throw (invalidArgument "stoull")
  | some (negative, magnitude, consumed) => do
    throwIf (magnitude > sizeMax) (outOfRange "stoull")
    pure (if negative then (sizeMax + 1 - magnitude) % (sizeMax + 1) else magnitude, consumed)

/-- Decode a storage key; `none` is a key with another front. -/
def decodeHistoryKey (key : List Char) : Throws (Option (ℤ × List Char)) :=
  if ¬ front <+: key then pure none
  else
    match splitFields (key.drop front.length) with
    | none => throw (invalidArgument "AMR Program history storage key is malformed")
    | some (levelText, lengthText, name) => do
      let level ← stoi levelText
      throwIf (level.1 < 0 ∨ level.2 ≠ levelText.length)
        (invalidArgument "AMR Program history storage key has an invalid level")
      let length ← stoull lengthText
      throwIf (length.2 ≠ lengthText.length ∨ name = [] ∨ name.length ≠ length.1)
        (invalidArgument "AMR Program history storage key has an invalid name")
      pure (some (level.1, name))

/-- One digit of a decimal field. -/
def parseDigit (result : ℕ) (character : Char) : Throws ℕ := do
  throwIf (character.toNat < '0'.toNat ∨ character.toNat > '9'.toNat ∨
      result > (sizeMax - (character.toNat - '0'.toNat)) / 10)
    (invalidArgument ("exact AMR Program checkpoint pending history remap key has an invalid " ++
      "decimal field"))
  pure (result * 10 + (character.toNat - '0'.toNat))

/-- A decimal field. -/
def parseDecimal (text : List Char) : Throws ℕ := do
  throwIf (text = []) (invalidArgument
    "exact AMR Program checkpoint pending history remap key has an empty decimal field")
  text.foldlM parseDigit 0

/-- Read the key of a pending remap. -/
def parsePendingKey (key : List Char) : Throws (ℤ × List Char) :=
  if ¬ front <+: key then
    throw (invalidArgument "exact AMR Program checkpoint pending history remap has a foreign key")
  else
    match splitFields (key.drop front.length) with
    | none => throw (invalidArgument
        "exact AMR Program checkpoint pending history remap key is malformed")
    | some (levelText, lengthText, name) => do
      let level ← parseDecimal levelText
      let nameSize ← parseDecimal lengthText
      throwIf ((level : ℤ) > intMax ∨ nameSize ≠ name.length) (invalidArgument
        "exact AMR Program checkpoint pending history remap key is not canonical")
      pure (level, name)

/-! ## What the readers accept -/

/-- The pair that a decoded key denotes, if it is not refused. -/
def decoded (key : List Char) : Option (ℤ × List Char) := (decodeHistoryKey key).toOption.join

/-- The pair that a pending key denotes, if it is not refused. -/
def pending (key : List Char) : Option (ℤ × List Char) := (parsePendingKey key).toOption

/-- The text with these fields. -/
def keyText (levelText lengthText name : List Char) : List Char :=
  front ++ (levelText ++ '/' :: (lengthText ++ ':' :: name))

/-- The text is the key of a ring. -/
def IsHistoryKey (key : List Char) : Prop :=
  ∃ name level, IsInt level ∧ historyKey name level = .ok key

/-- The text of a level in the syntax of `std::stoi`. -/
def LevelSpelled (text : List Char) (level : ℤ) : Prop :=
  ∃ (negative : Bool) (magnitude : ℕ), Spelled text negative magnitude ∧
    level = if negative then -(magnitude : ℤ) else magnitude

/-- The text of a length in the syntax of `std::stoull`. -/
def LengthSpelled (text : List Char) (length : ℕ) : Prop :=
  ∃ negative magnitude, Spelled text negative magnitude ∧ magnitude ≤ sizeMax ∧
    length = if negative then (sizeMax + 1 - magnitude) % (sizeMax + 1) else magnitude

/-- The fields of a text with the front of a key. -/
lemma splitFields_eq_some {suffix levelText lengthText name : List Char} :
    splitFields suffix = some (levelText, lengthText, name) ↔
      suffix = levelText ++ '/' :: (lengthText ++ ':' :: name) ∧ '/' ∉ levelText ∧
        ':' ∉ lengthText := by
  simp only [splitFields, Option.bind_eq_bind, Option.bind_eq_some_iff, Prod.exists,
    splitFirst_eq_some, Option.pure_def, Option.some.injEq, Prod.mk.injEq]
  constructor
  · rintro ⟨a, rest, ⟨rfl, ha⟩, b, c, ⟨rfl, hb⟩, rfl, rfl, rfl⟩
    exact ⟨rfl, ha, hb⟩
  · rintro ⟨rfl, ha, hb⟩
    exact ⟨levelText, _, ⟨rfl, ha⟩, lengthText, name, ⟨rfl, hb⟩, rfl, rfl, rfl⟩

/-- A key has a front and fields. -/
lemma front_and_fields {key levelText lengthText name : List Char} :
    (front <+: key ∧ splitFields (key.drop front.length) = some (levelText, lengthText, name)) ↔
      key = keyText levelText lengthText name ∧ '/' ∉ levelText ∧ ':' ∉ lengthText := by
  rw [splitFields_eq_some]
  constructor
  · rintro ⟨⟨suffix, rfl⟩, hsuffix, hrest⟩
    rw [List.drop_left] at hsuffix
    exact ⟨by rw [hsuffix, keyText], hrest⟩
  · rintro ⟨rfl, hrest⟩
    exact ⟨⟨_, rfl⟩, by rw [keyText, List.drop_left], hrest⟩

/-- `std::stoi` consumes the whole text exactly when it spells the value. -/
lemma stoi_all_iff {text : List Char} {value : ℤ} :
    stoi text = .ok (value, text.length) ↔ LevelSpelled text value ∧ IsInt value := by
  unfold stoi LevelSpelled
  cases hscan : Numeral.scan text with
  | none =>
    refine iff_of_false (by simp [throw, throwThe, MonadExceptOf.throw]) ?_
    rintro ⟨⟨negative, magnitude, hspelled, _⟩, _⟩
    rw [scan_all_iff.mpr hspelled] at hscan
    cases hscan
  | some read =>
    obtain ⟨negative, magnitude, consumed⟩ := read
    simp only [bind_eq_ok, throwIf_eq_ok, exists_const, not_not, pure_eq_ok, Prod.mk.injEq]
    constructor
    · rintro ⟨hint, rfl, rfl⟩
      exact ⟨⟨negative, magnitude, scan_all_iff.mp hscan, rfl⟩, hint⟩
    · rintro ⟨⟨negative', magnitude', hspelled, rfl⟩, hint⟩
      rw [scan_all_iff.mpr hspelled] at hscan
      simp only [Option.some.injEq, Prod.mk.injEq] at hscan
      obtain ⟨rfl, rfl, rfl⟩ := hscan
      exact ⟨hint, rfl, rfl⟩

/-- `std::stoull` consumes the whole text exactly when it spells the value. -/
lemma stoull_all_iff {text : List Char} {value : ℕ} :
    stoull text = .ok (value, text.length) ↔ LengthSpelled text value := by
  unfold stoull LengthSpelled
  cases hscan : Numeral.scan text with
  | none =>
    refine iff_of_false (by simp [throw, throwThe, MonadExceptOf.throw]) ?_
    rintro ⟨negative, magnitude, hspelled, _⟩
    rw [scan_all_iff.mpr hspelled] at hscan
    cases hscan
  | some read =>
    obtain ⟨negative, magnitude, consumed⟩ := read
    simp only [bind_eq_ok, throwIf_eq_ok, exists_const, not_lt, pure_eq_ok, Prod.mk.injEq]
    constructor
    · rintro ⟨hle, rfl, rfl⟩
      exact ⟨negative, magnitude, scan_all_iff.mp hscan, hle, rfl⟩
    · rintro ⟨negative', magnitude', hspelled, hle, rfl⟩
      rw [scan_all_iff.mpr hspelled] at hscan
      simp only [Option.some.injEq, Prod.mk.injEq] at hscan
      obtain ⟨rfl, rfl, rfl⟩ := hscan
      exact ⟨hle, rfl, rfl⟩

/-- A spelled text has no separators. -/
lemma not_mem_of_spelled {text : List Char} {negative : Bool} {magnitude : ℕ}
    (h : Spelled text negative magnitude) {c : Char} (hc : c = '/' ∨ c = ':') : c ∉ text := by
  obtain ⟨blank, sign, digits, rfl, hblank, hsign, hdigits⟩ := h
  intro hmem
  rw [List.mem_append, List.mem_append] at hmem
  rcases hmem with hmem | hmem | hmem
  · have := hblank c hmem
    rcases hc with rfl | rfl <;> exact absurd this (by decide)
  · rcases hsign with ⟨rfl, _⟩ | ⟨rfl, _⟩ | ⟨rfl, _⟩ <;> rcases hc with rfl | rfl <;>
      simp at hmem
  · have := hdigits.2.1 c hmem
    rcases hc with rfl | rfl <;> exact absurd this (by decide)

/-- **What `decode_history_key` accepts.** -/
theorem decoded_eq_some {key name : List Char} {level : ℤ} :
    decoded key = some (level, name) ↔ ∃ levelText lengthText,
      key = keyText levelText lengthText name ∧ name ≠ [] ∧ 0 ≤ level ∧ IsInt level ∧
        LevelSpelled levelText level ∧ LengthSpelled lengthText name.length := by
  have hjoin : decoded key = some (level, name) ↔
      decodeHistoryKey key = .ok (some (level, name)) := by
    unfold decoded
    cases decodeHistoryKey key with
    | error e => simp [Except.toOption]
    | ok value => cases value <;> simp [Except.toOption]
  rw [hjoin]
  constructor
  · intro h
    unfold decodeHistoryKey at h
    by_cases hfront : front <+: key
    swap
    · rw [if_pos hfront, pure_eq_ok] at h
      cases h
    rw [if_neg (not_not.mpr hfront)] at h
    cases hfields : splitFields (key.drop front.length) with
    | none =>
      rw [hfields] at h
      cases h
    | some fields =>
      obtain ⟨levelText, lengthText, name'⟩ := fields
      simp only [hfields, bind_eq_ok, throwIf_eq_ok, exists_const, pure_eq_ok, Option.some.injEq,
        Prod.mk.injEq, not_or, not_not, ne_eq, not_lt, Prod.exists] at h
      obtain ⟨value, consumed, hstoi, ⟨hnonneg, rfl⟩, length, consumed', hstoull,
        ⟨rfl, hname, rfl⟩, rfl, rfl⟩ := h
      obtain ⟨rfl, _⟩ := front_and_fields.mp ⟨hfront, hfields⟩
      obtain ⟨hlevel, hint⟩ := stoi_all_iff.mp hstoi
      exact ⟨levelText, lengthText, rfl, hname, hnonneg, hint, hlevel, stoull_all_iff.mp hstoull⟩
  · rintro ⟨levelText, lengthText, rfl, hname, hnonneg, hint, hlevel, hlength⟩
    obtain ⟨_, _, hspelled, _⟩ := id hlevel
    obtain ⟨_, _, hspelled', _⟩ := id hlength
    obtain ⟨hfront, hfields⟩ := front_and_fields.mpr ⟨rfl, not_mem_of_spelled hspelled (.inl rfl),
      not_mem_of_spelled hspelled' (.inr rfl)⟩
    unfold decodeHistoryKey
    rw [if_neg (not_not.mpr hfront), hfields]
    simp only [bind_eq_ok, throwIf_eq_ok, exists_const, pure_eq_ok, Option.some.injEq,
      Prod.mk.injEq, not_or, not_not, ne_eq, not_lt, Prod.exists]
    exact ⟨level, levelText.length, stoi_all_iff.mpr ⟨hlevel, hint⟩, ⟨hnonneg, rfl⟩, name.length,
      lengthText.length, stoull_all_iff.mpr hlength, ⟨rfl, hname, rfl⟩, rfl, trivial⟩

/-- A digit, by its code. -/
lemma isDigit_iff {c : Char} :
    c.isDigit = true ↔ ¬ (c.toNat < '0'.toNat ∨ c.toNat > '9'.toNat) := by
  have h : c.isDigit = true ↔ 48 ≤ c.toNat ∧ c.toNat ≤ 57 := by
    simp [Char.isDigit, UInt32.le_iff_toNat_le]
  rw [h]
  simp only [Char.reduceToNat]
  omega

/-- Further digits do not make a number smaller. -/
lemma le_ofDigitChars (digits : List Char) (start : ℕ) :
    start ≤ Nat.ofDigitChars 10 digits start := by
  rw [Nat.ofDigitChars_eq_ofDigitChars_zero]
  have hpos : 0 < 10 ^ digits.length := by positivity
  exact (Nat.le_mul_of_pos_left start hpos).trans (Nat.le_add_right _ _)

/-- One digit is read when it is a digit and the value still fits. -/
lemma parseDigit_eq_ok {result value : ℕ} {c : Char} : parseDigit result c = .ok value ↔
    c.isDigit = true ∧ value = 10 * result + (c.toNat - '0'.toNat) ∧ value ≤ sizeMax := by
  simp only [parseDigit, bind_eq_ok, throwIf_eq_ok, exists_const, pure_eq_ok, isDigit_iff]
  simp only [Char.reduceToNat, sizeMax]
  omega

/-- **A decimal field** is a nonempty string of digits whose value fits. -/
theorem parseDecimal_eq_ok {text : List Char} {value : ℕ} :
    parseDecimal text = .ok value ↔ Decimal text value ∧ value ≤ sizeMax := by
  have hloop : ∀ (digits : List Char) (start : ℕ), digits.foldlM parseDigit start = .ok value ↔
      (∀ c ∈ digits, c.isDigit = true) ∧ Nat.ofDigitChars 10 digits start = value ∧
        (digits = [] ∨ value ≤ sizeMax) := by
    intro digits
    induction digits with
    | nil => simp [Nat.ofDigitChars]
    | cons c digits ih =>
      intro start
      simp only [List.foldlM_cons, bind_eq_ok, parseDigit_eq_ok, List.forall_mem_cons,
        Nat.ofDigitChars_cons, reduceCtorEq, false_or, ih]
      constructor
      · rintro ⟨_, ⟨hc, rfl, hle⟩, hdigits, hvalue, hfits⟩
        refine ⟨⟨hc, hdigits⟩, hvalue, ?_⟩
        rcases hfits with rfl | hfits
        · rw [← hvalue]
          exact hle
        · exact hfits
      · rintro ⟨⟨hc, hdigits⟩, hvalue, hfits⟩
        have hmono := le_ofDigitChars digits (10 * start + (c.toNat - '0'.toNat))
        exact ⟨_, ⟨hc, rfl, by omega⟩, hdigits, hvalue, .inr hfits⟩
  simp only [parseDecimal, bind_eq_ok, throwIf_eq_ok, exists_const, hloop, Decimal]
  tauto

/-- **What the reader of the pending remaps accepts.** -/
theorem pending_eq_some {key name : List Char} {level : ℤ} :
    pending key = some (level, name) ↔ ∃ levelText lengthText, ∃ n : ℕ,
      key = keyText levelText lengthText name ∧ level = n ∧ IsInt level ∧ Decimal levelText n ∧
        Decimal lengthText name.length ∧ name.length ≤ sizeMax := by
  have hoption : pending key = some (level, name) ↔ parsePendingKey key = .ok (level, name) := by
    unfold pending
    cases parsePendingKey key <;> simp [Except.toOption]
  rw [hoption]
  constructor
  · intro h
    unfold parsePendingKey at h
    by_cases hfront : front <+: key
    swap
    · rw [if_pos hfront] at h
      cases h
    rw [if_neg (not_not.mpr hfront)] at h
    cases hfields : splitFields (key.drop front.length) with
    | none =>
      rw [hfields] at h
      cases h
    | some fields =>
      obtain ⟨levelText, lengthText, name'⟩ := fields
      simp only [hfields, bind_eq_ok, throwIf_eq_ok, exists_const, pure_eq_ok,
        Prod.mk.injEq, not_or, not_not, ne_eq, not_lt, parseDecimal_eq_ok] at h
      obtain ⟨n, ⟨hlevel, _⟩, size, ⟨hsize, hfits⟩, ⟨hint, rfl⟩, rfl, rfl⟩ := h
      obtain ⟨rfl, _⟩ := front_and_fields.mp ⟨hfront, hfields⟩
      refine ⟨levelText, lengthText, n, rfl, rfl, ⟨?_, hint⟩, hlevel, hsize, hfits⟩
      unfold intMin
      omega
  · rintro ⟨levelText, lengthText, n, rfl, rfl, hint, hlevel, hsize, hfits⟩
    obtain ⟨hfront, hfields⟩ := front_and_fields.mpr ⟨rfl,
      not_mem_of_spelled hlevel.spelled (.inl rfl), not_mem_of_spelled hsize.spelled (.inr rfl)⟩
    unfold parsePendingKey
    rw [if_neg (not_not.mpr hfront), hfields]
    simp only [bind_eq_ok, throwIf_eq_ok, exists_const, pure_eq_ok, Prod.mk.injEq, not_or,
      not_not, ne_eq, not_lt, parseDecimal_eq_ok]
    refine ⟨n, ⟨hlevel, ?_⟩, name.length, ⟨hsize, hfits⟩, ⟨hint.2, rfl⟩, rfl, trivial⟩
    have := hint.2
    unfold intMax at this
    unfold sizeMax
    omega

/-! ## Agreement -/

/-- The canonical text of a pair. -/
def canonical (level : ℕ) (name : List Char) : List Char :=
  keyText (toText level) (toText name.length) name

/-- The keys are the canonical texts of the `int` levels and the nonempty names. -/
lemma isHistoryKey_iff {key : List Char} : IsHistoryKey key ↔
    ∃ (level : ℕ) (name : List Char), name ≠ [] ∧ IsInt level ∧ key = canonical level name := by
  simp only [IsHistoryKey, historyKey, bind_eq_ok, throwIf_eq_ok, exists_const, pure_eq_ok, not_or,
    not_lt]
  constructor
  · rintro ⟨name, level, hint, ⟨hname, hnonneg⟩, rfl⟩
    obtain ⟨n, rfl⟩ := Int.eq_ofNat_of_zero_le hnonneg
    exact ⟨n, name, hname, hint, rfl⟩
  · rintro ⟨level, name, hname, hint, rfl⟩
    exact ⟨name, level, hint, ⟨hname, Int.natCast_nonneg level⟩, rfl⟩

/-- The two readers return one pair, or both refuse. -/
def ReadersAgree (key : List Char) : Prop := decoded key = pending key

/-- Both readers accept exactly the keys. -/
def AcceptedExactly (key : List Char) : Prop :=
  ((decoded key).isSome ↔ IsHistoryKey key) ∧ ((pending key).isSome ↔ IsHistoryKey key)

/-- The text has the fields of a key, and
* the name is not empty, but the level or the length is spelled with white space, a sign or leading
  zeros; or
* the name is empty, and both numbers are spelled with digits only. -/
def LooselySpelled (key : List Char) : Prop :=
  ∃ (levelText lengthText name : List Char) (level : ℕ), IsInt level ∧
    key = keyText levelText lengthText name ∧
      ((name ≠ [] ∧ LevelSpelled levelText level ∧ LengthSpelled lengthText name.length ∧
          (levelText ≠ toText level ∨ lengthText ≠ toText name.length)) ∨
        (name = [] ∧ Decimal levelText level ∧ Decimal lengthText 0))

/-- Both readers return the pair of a canonical text. -/
lemma read_canonical {level : ℕ} {name : List Char} (hname : name ≠ []) (hint : IsInt level)
    (hfits : name.length ≤ sizeMax) :
    decoded (canonical level name) = some ((level : ℤ), name) ∧
      pending (canonical level name) = some ((level : ℤ), name) := by
  have hlevel := decimal_toDigits level
  have hlength := decimal_toDigits name.length
  refine ⟨decoded_eq_some.mpr ⟨_, _, rfl, hname, Int.natCast_nonneg level, hint, ?_, ?_⟩,
    pending_eq_some.mpr ⟨_, _, level, rfl, rfl, hint, hlevel, hlength, hfits⟩⟩
  · exact ⟨false, level, hlevel.spelled, rfl⟩
  · exact ⟨false, name.length, hlength.spelled, hfits, rfl⟩

/-- The fields of a text with spelled numbers. -/
lemma splitFields_keyText {levelText lengthText : List Char} {b e : Bool} {m k : ℕ}
    (hl : Spelled levelText b m) (hs : Spelled lengthText e k) (name : List Char) :
    splitFields ((keyText levelText lengthText name).drop front.length) =
      some (levelText, lengthText, name) :=
  (front_and_fields.mpr ⟨rfl, not_mem_of_spelled hl (.inl rfl),
    not_mem_of_spelled hs (.inr rfl)⟩).2

/-- Equal texts have equal fields, if the numbers are spelled. -/
lemma keyText_injective {levelText lengthText name levelText' lengthText' name' : List Char}
    {b b' e e' : Bool} {m m' k k' : ℕ} (hl : Spelled levelText b m) (hl' : Spelled levelText' b' m')
    (hs : Spelled lengthText e k) (hs' : Spelled lengthText' e' k')
    (h : keyText levelText lengthText name = keyText levelText' lengthText' name') :
    levelText = levelText' ∧ lengthText = lengthText' ∧ name = name' := by
  have hfields := splitFields_keyText hl hs name
  rw [h, splitFields_keyText hl' hs' name'] at hfields
  simp only [Option.some.injEq, Prod.mk.injEq] at hfields
  exact ⟨hfields.1.symm, hfields.2.1.symm, hfields.2.2.symm⟩

/-- A name is not longer than its key. -/
lemma length_name_le (levelText lengthText name : List Char) :
    name.length ≤ (keyText levelText lengthText name).length := by
  simp only [keyText, List.length_append, List.length_cons]
  omega

/-- A decoded text that is not loosely spelled is canonical. -/
lemma canonical_of_decoded {key name : List Char} {level : ℤ} (hloose : ¬ LooselySpelled key)
    (h : decoded key = some (level, name)) :
    ∃ n : ℕ, level = n ∧ IsInt level ∧ name ≠ [] ∧ key = canonical n name := by
  obtain ⟨levelText, lengthText, rfl, hname, hnonneg, hint, hlevel, hlength⟩ := decoded_eq_some.mp h
  obtain ⟨n, rfl⟩ := Int.eq_ofNat_of_zero_le hnonneg
  refine ⟨n, rfl, hint, hname, ?_⟩
  by_contra hne
  refine hloose ⟨levelText, lengthText, name, n, hint, rfl, .inl ⟨hname, hlevel, hlength, ?_⟩⟩
  by_contra hboth
  push Not at hboth
  exact hne (by rw [hboth.1, hboth.2, canonical])

/-- A pending text that is not loosely spelled is canonical. -/
lemma canonical_of_pending {key name : List Char} {level : ℤ} (hloose : ¬ LooselySpelled key)
    (h : pending key = some (level, name)) :
    ∃ n : ℕ, level = n ∧ IsInt level ∧ name ≠ [] ∧ key = canonical n name := by
  obtain ⟨levelText, lengthText, n, rfl, rfl, hint, hlevel, hlength, hfits⟩ := pending_eq_some.mp h
  have hname : name ≠ [] := by
    rintro rfl
    exact hloose ⟨levelText, lengthText, [], n, hint, rfl, .inr ⟨rfl, hlevel, hlength⟩⟩
  refine ⟨n, rfl, hint, hname, ?_⟩
  by_contra hne
  refine hloose ⟨levelText, lengthText, name, n, hint, rfl, .inl ⟨hname,
    ⟨false, n, hlevel.spelled, rfl⟩, ⟨false, name.length, hlength.spelled, hfits, rfl⟩, ?_⟩⟩
  by_contra hboth
  push Not at hboth
  exact hne (by rw [hboth.1, hboth.2, canonical])

/-- **When history keys decode uniquely.** The key of a nonempty name and a level decodes to them.
On a text, the two readers agree and accept exactly the keys if and only if the text is not loosely
spelled; two such texts that decode to one pair are equal.

**Proof sketch.** Both readers split the text at the same separators.  What they accept differs from
the keys in the spelling of the two numbers, which `std::stoi` and `std::stoull` read with white
space, signs and leading zeros and the decimal parser with leading zeros, and in the empty name,
which only the decimal parser accepts. -/
theorem historyKeys_decode_iff (key : List Char) (hfits : key.length ≤ sizeMax) :
    (∀ (name : List Char) (level : ℤ), name ≠ [] → 0 ≤ level → IsInt level →
        name.length ≤ sizeMax → ∃ spelled, historyKey name level = .ok spelled ∧
          decoded spelled = some (level, name)) ∧
      (ReadersAgree key ∧ AcceptedExactly key ↔ ¬ LooselySpelled key) ∧
      ∀ key' : List Char, ¬ LooselySpelled key → ¬ LooselySpelled key' →
        ∀ ring, decoded key = some ring → decoded key' = some ring → key = key' := by
  refine ⟨?_, ?_, ?_⟩
  · intro name level hname hnonneg hint hfits
    obtain ⟨n, rfl⟩ := Int.eq_ofNat_of_zero_le hnonneg
    refine ⟨canonical n name, ?_, (read_canonical hname hint hfits).1⟩
    simp only [historyKey, bind_eq_ok, throwIf_eq_ok, exists_const, pure_eq_ok]
    exact ⟨by simp [hname], rfl⟩
  · constructor
    · rintro ⟨hagree, hexact, _⟩ ⟨levelText, lengthText, name, level, hint, rfl, hkind⟩
      rcases hkind with ⟨hname, hlevel, hlength, hne⟩ | ⟨rfl, hlevel, hlength⟩
      · have hread : decoded (keyText levelText lengthText name) = some ((level : ℤ), name) :=
          decoded_eq_some.mpr ⟨_, _, rfl, hname, Int.natCast_nonneg level, hint, hlevel, hlength⟩
        obtain ⟨n, name', hname', hint', hkey⟩ :=
          isHistoryKey_iff.mp (hexact.mp (by rw [hread]; rfl))
        have hname_fits : name'.length ≤ sizeMax := by
          rw [hkey] at hfits
          exact (length_name_le _ _ name').trans hfits
        have hread' := (read_canonical hname' hint' hname_fits).1
        rw [← hkey, hread] at hread'
        simp only [Option.some.injEq, Prod.mk.injEq, Nat.cast_inj] at hread'
        obtain ⟨rfl, rfl⟩ := hread'
        obtain ⟨_, _, hspelled, _⟩ := hlevel
        obtain ⟨_, _, hspelled', _⟩ := hlength
        obtain ⟨rfl, rfl, _⟩ :=
          keyText_injective hspelled (decimal_toDigits level).spelled hspelled'
          (decimal_toDigits name.length).spelled hkey
        exact hne.elim (fun h => h rfl) fun h => h rfl
      · have hread : pending (keyText levelText lengthText []) = some ((level : ℤ), []) :=
          pending_eq_some.mpr ⟨_, _, level, rfl, rfl, hint, hlevel, hlength, Nat.zero_le _⟩
        rw [ReadersAgree, hread] at hagree
        obtain ⟨_, _, _, hname, _⟩ := decoded_eq_some.mp hagree
        exact hname rfl
    · intro hloose
      have hname_fits : ∀ {n : ℕ} {name : List Char}, key = canonical n name →
          name.length ≤ sizeMax := by
        rintro n name rfl
        exact (length_name_le _ _ name).trans hfits
      have hsame : ∀ ring, decoded key = some ring ↔ pending key = some ring := by
        rintro ⟨level, name⟩
        constructor
        · intro h
          obtain ⟨n, rfl, hint, hname, hkey⟩ := canonical_of_decoded hloose h
          rw [hkey]
          exact (read_canonical hname hint (hname_fits hkey)).2
        · intro h
          obtain ⟨n, rfl, hint, hname, hkey⟩ := canonical_of_pending hloose h
          rw [hkey]
          exact (read_canonical hname hint (hname_fits hkey)).1
      have hagree : decoded key = pending key := Option.ext hsame
      have hexact : (decoded key).isSome ↔ IsHistoryKey key := by
        rw [isHistoryKey_iff, Option.isSome_iff_exists]
        constructor
        · rintro ⟨⟨level, name⟩, h⟩
          obtain ⟨n, rfl, hint, hname, hkey⟩ := canonical_of_decoded hloose h
          exact ⟨n, name, hname, hint, hkey⟩
        · rintro ⟨n, name, hname, hint, hkey⟩
          rw [hkey]
          exact ⟨_, (read_canonical hname hint (hname_fits hkey)).1⟩
      exact ⟨hagree, hexact, hagree ▸ hexact⟩
  · rintro key' hloose hloose' ⟨level, name⟩ h h'
    obtain ⟨n, rfl, _, _, rfl⟩ := canonical_of_decoded hloose h
    obtain ⟨n', hn, _, _, rfl⟩ := canonical_of_decoded hloose' h'
    rw [Nat.cast_inj.mp hn]

/-- The name `u` on level `1`: its key decodes, and it is not loosely spelled. -/
theorem historyKeys_decode_u :
    (∃ key, historyKey ['u'] 1 = .ok key ∧ decoded key = some (1, ['u'])) ∧
      (ReadersAgree (canonical 1 ['u']) ∧ AcceptedExactly (canonical 1 ['u']) ↔
        ¬ LooselySpelled (canonical 1 ['u'])) :=
  have h := historyKeys_decode_iff (canonical 1 ['u']) (by decide +kernel)
  ⟨h.1 ['u'] 1 (by decide) (by decide) (by decide) (by decide), h.2.1⟩

/-- A key with a leading zero in its level is accepted and denotes the ring of another key; a key
with an empty name is accepted by one of the readers only. -/
theorem historyKeys_ambiguous :
    keyText ['0', '1'] ['1'] ['u'] ≠ keyText ['1'] ['1'] ['u'] ∧
      decoded (keyText ['0', '1'] ['1'] ['u']) = some (1, ['u']) ∧
      decoded (keyText ['1'] ['1'] ['u']) = some (1, ['u']) ∧
      decoded (keyText ['0'] ['0'] []) = none ∧ pending (keyText ['0'] ['0'] []) =
      some (0, []) := by
  decide +kernel

end Pops.HistoryKeys
