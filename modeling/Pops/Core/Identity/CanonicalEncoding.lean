import Pops.Foundation.PyException
import Pops.Core.Identity.CanonicalValue
import Pops.Core.Identity.ValidUtf8

/-!
# The two canonical encoders

Python and C++ each encode identity values on their own: `pops.identity.encoding` walks a Python
object, `canonical_value.hpp` a `CanonicalValue`.  Both are compared with the code of
`CanonicalValue.lean`.  A Python text is a sequence of code points, a C++ text a byte string; a
value of the one language stands for the value of the other whose texts are the UTF-8 forms.

## Main definitions

* `Pops.pyEncode`, `pyCanonicalBytes` — `_encode` and `canonical_bytes` of Python.
* `Pops.encodeInto`, `canonicalBytes` — `encode_into` and `canonical_bytes` of C++.
* `Pops.CanonicalValue.mapText` — a value with other texts.

## Main results

* `Pops.pyEncode_eq_ok_iff`, `encodeInto_eq_ok_iff` — what the encoders accept and return.
* `Pops.canonicalBytes_agree` — one injective, prefix-free language in both encoders.
-/

namespace Pops

open CanonicalValue

/-! ## The Python encoder -/

/-- A Python text. -/
abbrev PyText := List CodePoint

/-- A text as it is spelled in a path. -/
def PyText.display (t : PyText) : String := String.ofList (t.map fun c => Char.ofNat c.val)

/-- `value.encode("utf-8")`, which raises for surrogates. -/
def strEncode (t : PyText) : Option (List Byte) :=
  if t.all fun c => decide c.IsScalar then some (utf8Text t) else none

/-- `raise OverflowError(text)`. -/
def pyOverflowError (text : String) : PyError := ⟨.overflowError, text⟩

/-- `_head`: the head of an item: the major type and the shortest argument. -/
def pyHead (major argument : ℕ) : Raises (List Byte) :=
  let lead := major <<< 5
  if argument < 24 then .ok [UInt8.ofNat (lead ||| argument)]
  else if argument ≤ 0xff then .ok [UInt8.ofNat (lead ||| 24), UInt8.ofNat argument]
  else if argument ≤ 0xffff then .ok ([UInt8.ofNat (lead ||| 25)] ++ bigEndian 2 argument)
  else if argument ≤ 0xffffffff then .ok ([UInt8.ofNat (lead ||| 26)] ++ bigEndian 4 argument)
  else if argument ≤ 0xffffffffffffffff then
    .ok ([UInt8.ofNat (lead ||| 27)] ++ bigEndian 8 argument)
  else .error (pyOverflowError "canonical CBOR length or argument exceeds uint64")

/-- The branch of `_encode` for a string. -/
def pyEncodeText (t : PyText) (path : String) : Raises (List Byte) :=
  match strEncode t with
  | none => .error (valueError ("canonical CBOR string at " ++ path ++ " is not valid Unicode"))
  | some encoded => do
    let head ← pyHead 3 encoded.length
    pure (head ++ encoded)

/-- Two neighbours of a list are equal. -/
def hasEqualNeighbours (items : List (List Byte)) : Bool :=
  (items.zip items.tail).any fun pair => pair.1 == pair.2

mutual
/-- `_encode`, on a value without reference cycles. -/
def pyEncode : CanonicalValue PyText → String → Raises (List Byte)
  | .null, _ => .ok [0xf6]
  | .bool b, _ => .ok (if b then [0xf5] else [0xf4])
  | .int n, path => do
    raiseIf (n.val < int64Min ∨ n.val > int64Max)
      (pyOverflowError ("canonical CBOR integer at " ++ path ++ " is outside signed int64"))
    if 0 ≤ n.val then pyHead 0 n.val.toNat else pyHead 1 (-1 - n.val).toNat
  | .text t, path => pyEncodeText t path
  | .bytes b, _ => do
    let head ← pyHead 2 b.length
    pure (head ++ b)
  | .array vs, path => do
    let head ← pyHead 4 vs.length
    let items ← pyEncodeItems vs path 0
    pure (head ++ items.flatten)
  | .map es, path => do
    let entries ← pyEncodeEntries es path
    let head ← pyHead 5 entries.length
    pure (head ++ (lengthFirstSort Prod.fst entries).flatMap fun entry => entry.1 ++ entry.2)
  | .set vs, path => do
    let items ← pyEncodeElements vs path
    let items := lengthFirstSort id items
    raiseIf (hasEqualNeighbours items)
      (valueError ("canonical CBOR set at " ++ path ++ " contains duplicate canonical values"))
    let head ← pyHead 4 items.length
    pure ([0xd9, 0x01, 0x02] ++ head ++ items.flatten)

/-- The items of a list or a tuple. -/
def pyEncodeItems : List (CanonicalValue PyText) → String → ℕ → Raises (List (List Byte))
  | [], _, _ => .ok []
  | v :: vs, path, index => do
    let item ← pyEncode v (path ++ "[" ++ toString index ++ "]")
    let items ← pyEncodeItems vs path (index + 1)
    pure (item :: items)

/-- The loop of `_encode_dict`. -/
def pyEncodeEntries : List (PyText × CanonicalValue PyText) → String →
    Raises (List (List Byte × List Byte))
  | [], _ => .ok []
  | (k, v) :: es, path => do
    let key ← pyEncodeText k (path ++ "\x7bkey\x7d")
    let item ← pyEncode v (path ++ "." ++ k.display)
    let entries ← pyEncodeEntries es path
    pure ((key, item) :: entries)

/-- The elements of a set. -/
def pyEncodeElements : List (CanonicalValue PyText) → String → Raises (List (List Byte))
  | [], _ => .ok []
  | v :: vs, path => do
    let item ← pyEncode v (path ++ "\x7bitem\x7d")
    let items ← pyEncodeElements vs path
    pure (item :: items)
end

/-- The values that the Python encoder meets: a dictionary holds a key once.  The type is wider than
the objects of Python, whose sets hold no dictionaries, and of `True` and `1` one only. -/
abbrev PyValue := {v : CanonicalValue PyText // v.DistinctKeys}

/-- `canonical_bytes` of `pops.identity.encoding`. -/
def pyCanonicalBytes (v : PyValue) : Raises (List Byte) := pyEncode v.val "$"

/-! ## The C++ encoder -/

/-- `append_uint`: the head of an item: the major type and the shortest argument. -/
def appendUint (out : List Byte) (major value : ℕ) : List Byte :=
  let lead := major <<< 5
  if value < 24 then out ++ [UInt8.ofNat (lead ||| value)]
  else if value ≤ 0xff then out ++ [UInt8.ofNat (lead ||| 24)] ++ [UInt8.ofNat value]
  else if value ≤ 0xffff then
    out ++ [UInt8.ofNat (lead ||| 25)] ++ [UInt8.ofNat (value >>> 8)] ++ [UInt8.ofNat value]
  else if value ≤ 0xffffffff then
    [24, 16, 8, 0].foldl (fun out shift => out ++ [UInt8.ofNat (value >>> shift)])
      (out ++ [UInt8.ofNat (lead ||| 26)])
  else
    [56, 48, 40, 32, 24, 16, 8, 0].foldl (fun out shift => out ++ [UInt8.ofNat (value >>> shift)])
      (out ++ [UInt8.ofNat (lead ||| 27)])

/-- `length_first_less`: shorter keys come first, and keys of one length in byte order. -/
def lengthFirstLess (left right : List Byte) : Bool :=
  if left.length ≠ right.length then decide (left.length < right.length)
  else decide (left.map UInt8.toNat < right.map UInt8.toNat)

/-- `std::sort` with a strict order: the order of equivalent members is left open there and plays
no part, since equal keys are refused. -/
def stdSort {α : Type*} (less : α → α → Bool) (l : List α) : List α :=
  l.mergeSort fun a b => !less b a

/-- `append_text`: a text, refused unless it is valid UTF-8. -/
def appendText (out : List Byte) (t : List Byte) : Throws (List Byte) := do
  throwIf (validUtf8 t = false) (invalidArgument "canonical identity text is not valid UTF-8")
  pure (appendUint out 3 t.length ++ t)

/-- An entry of a map: its key, and what `encode_into` appends for the value it points to. -/
abbrev CanonicalEntry := List Byte × (List Byte → Throws (List Byte))

/-- The loop that writes the sorted entries. -/
def appendEntries : List CanonicalEntry → List Byte → Throws (List Byte)
  | [], out => .ok out
  | (key, value) :: entries, out => do
    let out ← value (out ++ key)
    appendEntries entries out

mutual
/-- `encode_into`: a value after what is already encoded. -/
def encodeInto : CanonicalValue (List Byte) → List Byte → Throws (List Byte)
  | .null, out => .ok (out ++ [0xf6])
  | .bool b, out => .ok (out ++ [if b then 0xf5 else 0xf4])
  | .int n, out =>
    if 0 ≤ n.val then .ok (appendUint out 0 n.val.toNat)
    else .ok (appendUint out 1 (-(n.val + 1)).toNat)
  | .text t, out => appendText out t
  | .bytes b, out => .ok (appendUint out 2 b.length ++ b)
  | .array vs, out => encodeItemsInto vs (appendUint out 4 vs.length)
  | .map es, out => do
    let entries ← canonicalEntries es
    let entries := stdSort (fun a b => lengthFirstLess a.1 b.1) entries
    throwIf (hasEqualNeighbours (entries.map Prod.fst))
      (invalidArgument "canonical identity map has a duplicate key")
    appendEntries entries (appendUint out 5 entries.length)
  | .set vs, out => do
    let out := appendUint out 6 258
    let items ← encodedItems vs
    let items := stdSort lengthFirstLess items
    throwIf (hasEqualNeighbours items)
      (invalidArgument "canonical identity set has duplicate canonical elements")
    pure (appendUint out 4 items.length ++ items.flatten)

/-- The loop over the items of an array. -/
def encodeItemsInto : List (CanonicalValue (List Byte)) → List Byte → Throws (List Byte)
  | [], out => .ok out
  | v :: vs, out => do
    let out ← encodeInto v out
    encodeItemsInto vs out

/-- The loop that collects the entries of a map. -/
def canonicalEntries : List (List Byte × CanonicalValue (List Byte)) → Throws (List CanonicalEntry)
  | [] => .ok []
  | (k, v) :: es => do
    let key ← appendText [] k
    let entries ← canonicalEntries es
    pure ((key, encodeInto v) :: entries)

/-- The loop that encodes the elements of a set. -/
def encodedItems : List (CanonicalValue (List Byte)) → Throws (List (List Byte))
  | [] => .ok []
  | v :: vs => do
    let item ← encodeInto v []
    let items ← encodedItems vs
    pure (item :: items)
end

/-- `canonical_bytes` of `canonical_value.hpp`. -/
def canonicalBytes (v : CanonicalValue (List Byte)) : Throws (List Byte) := encodeInto v []

/-! ## Heads and texts -/

/-- The major type and the low bits of a first byte. -/
lemma lead_or (major : ℕ) {low : ℕ} (h : low < 32) :
    (major <<< 5) ||| low = major * 32 + low := by
  rw [← Nat.shiftLeft_add_eq_or_of_lt (by omega), Nat.shiftLeft_eq]

/-- The head that Python writes. -/
lemma pyHead_eq {major argument : ℕ} (h : argument < 2 ^ 64) :
    pyHead major argument = .ok (cborHead major argument) := by
  unfold pyHead cborHead
  dsimp only
  split_ifs <;> first
    | omega
    | simp (disch := omega) [lead_or, bigEndian]

/-- The head that C++ writes. -/
lemma appendUint_eq {out : List Byte} {major value : ℕ} (h : value < 2 ^ 64) :
    appendUint out major value = out ++ cborHead major value := by
  unfold appendUint cborHead
  dsimp only
  split_ifs <;> first
    | omega
    | simp (disch := omega) [lead_or, bigEndian, Nat.shiftRight_eq_div_pow]

/-- The texts that C++ accepts are those it appends. -/
lemma appendText_eq_ok_iff {out t b : List Byte} (h : t.length < 2 ^ 64) :
    appendText out t = .ok b ↔ validUtf8 t = true ∧ b = out ++ textCode id t := by
  unfold appendText textCode
  rw [appendUint_eq h]
  cases validUtf8 t <;> simp [throwIf, eq_comm]

/-- The texts that Python accepts are those of scalars. -/
lemma pyEncodeText_eq_ok_iff {t : PyText} {path : String} {b : List Byte}
    (h : (utf8Text t).length < 2 ^ 64) :
    pyEncodeText t path = .ok b ↔ (∀ c ∈ t, c.IsScalar) ∧ b = textCode utf8Text t := by
  unfold pyEncodeText strEncode textCode
  have hall : (t.all fun c => decide c.IsScalar) = true ↔ ∀ c ∈ t, c.IsScalar := by simp
  by_cases hscalar : ∀ c ∈ t, c.IsScalar
  · rw [if_pos (hall.mpr hscalar)]
    dsimp only
    rw [pyHead_eq h, ok_bind, pure_eq_ok]
    exact ⟨fun heq => ⟨hscalar, heq.symm⟩, fun hb => hb.2.symm⟩
  · rw [if_neg (mt hall.mp hscalar)]
    exact ⟨fun heq => absurd heq (by simp), fun hb => absurd hb.1 hscalar⟩

/-! ## Sorted lists -/

/-- In a sorted list without equal neighbours nothing occurs twice. -/
lemma hasEqualNeighbours_eq_false_iff {l : List (List Byte)}
    (h : l.Pairwise fun a b => lengthFirstKey a ≤ lengthFirstKey b) :
    hasEqualNeighbours l = false ↔ l.Nodup := by
  induction l with
  | nil => simp [hasEqualNeighbours]
  | cons a l ih =>
    cases l with
    | nil => simp [hasEqualNeighbours]
    | cons b l =>
      have hrec : hasEqualNeighbours (a :: b :: l) = ((a == b) || hasEqualNeighbours (b :: l)) :=
        rfl
      rw [List.pairwise_cons] at h
      rw [hrec, Bool.or_eq_false_iff, ih h.2, @List.nodup_cons _ a, beq_eq_false_iff_ne]
      refine and_congr_left fun _ => ?_
      constructor
      · intro hne hmem
        rcases List.mem_cons.mp hmem with heq | hmem
        · exact hne heq
        · -- `b` lies between the two occurrences of `a`
          have hba := (List.pairwise_cons.mp h.2).1 a hmem
          exact hne (lengthFirstKey_injective (le_antisymm (h.1 b (by simp)) hba))
      · rintro hnot rfl
        exact hnot (by simp)

/-- The check after sorting finds every repetition. -/
lemma hasEqualNeighbours_map_sort {α : Type*} (key : α → List Byte) (l : List α) :
    hasEqualNeighbours ((lengthFirstSort key l).map key) = false ↔ (l.map key).Nodup := by
  rw [hasEqualNeighbours_eq_false_iff (List.pairwise_map.mpr (lengthFirstSort_pairwise key l))]
  exact ((lengthFirstSort_perm key l).map key).nodup_iff

/-- Both comparisons of byte strings are the length-first order. -/
lemma not_lengthFirstLess (a b : List Byte) : (!lengthFirstLess b a) = lengthFirstLe a b := by
  rw [Bool.eq_iff_iff]
  simp only [lengthFirstLe, lengthFirstLess, lengthFirstKey, Bool.not_eq_true',
    decide_eq_true_eq, Prod.Lex.toLex_le_toLex]
  split_ifs with h
  · simp only [decide_eq_false_iff_not, not_lt]
    omega
  · simp only [decide_eq_false_iff_not, not_lt]
    push Not at h
    simp [h]

/-- `std::sort` by the length-first order of the keys. -/
lemma stdSort_eq {α : Type*} (key : α → List Byte) (l : List α) :
    stdSort (fun a b => lengthFirstLess (key a) (key b)) l = lengthFirstSort key l := by
  unfold stdSort lengthFirstSort
  simp only [not_lengthFirstLess]

/-! ## What the encoders return -/

/-- The texts of which Python and C++ both have a code. -/
def PyText.IsUnicode (t : PyText) : Prop := ∀ c ∈ t, c.IsScalar

section Python

variable {C : CanonicalValue PyText → Prop}

/-- The loop over the items, when each of them is encoded as it should. -/
lemma pyEncodeItems_eq_ok_iff {vs : List (CanonicalValue PyText)}
    (h : ∀ v ∈ vs, ∀ path b, pyEncode v path = .ok b ↔ C v ∧ b = code utf8Text v) :
    ∀ path index bs, pyEncodeItems vs path index = .ok bs ↔
      (∀ v ∈ vs, C v) ∧ bs = codes utf8Text vs := by
  induction vs with
  | nil => intro path index bs; simp [pyEncodeItems, eq_comm]
  | cons v vs ih =>
    intro path index bs
    simp only [pyEncodeItems, bind_eq_ok, pure_eq_ok, h v (by simp),
      ih fun w hw => h w (by simp [hw])]
    constructor
    · rintro ⟨_, ⟨hv, rfl⟩, _, ⟨hvs, rfl⟩, rfl⟩
      exact ⟨by simpa using ⟨hv, hvs⟩, by rw [codes]⟩
    · rintro ⟨hvs, rfl⟩
      rw [List.forall_mem_cons] at hvs
      exact ⟨_, ⟨hvs.1, rfl⟩, _, ⟨hvs.2, rfl⟩, by rw [codes]⟩

/-- The loop over the elements, when each of them is encoded as it should. -/
lemma pyEncodeElements_eq_ok_iff {vs : List (CanonicalValue PyText)}
    (h : ∀ v ∈ vs, ∀ path b, pyEncode v path = .ok b ↔ C v ∧ b = code utf8Text v) :
    ∀ path bs, pyEncodeElements vs path = .ok bs ↔
      (∀ v ∈ vs, C v) ∧ bs = codes utf8Text vs := by
  induction vs with
  | nil => intro path bs; simp [pyEncodeElements, eq_comm]
  | cons v vs ih =>
    intro path bs
    simp only [pyEncodeElements, bind_eq_ok, pure_eq_ok, h v (by simp),
      ih fun w hw => h w (by simp [hw])]
    constructor
    · rintro ⟨_, ⟨hv, rfl⟩, _, ⟨hvs, rfl⟩, rfl⟩
      exact ⟨by simpa using ⟨hv, hvs⟩, by rw [codes]⟩
    · rintro ⟨hvs, rfl⟩
      rw [List.forall_mem_cons] at hvs
      exact ⟨_, ⟨hvs.1, rfl⟩, _, ⟨hvs.2, rfl⟩, by rw [codes]⟩

/-- The loop over the entries, when their values are encoded as they should. -/
lemma pyEncodeEntries_eq_ok_iff {es : List (PyText × CanonicalValue PyText)}
    (hkey : ∀ e ∈ es, (utf8Text e.1).length < 2 ^ 64)
    (h : ∀ e ∈ es, ∀ path b, pyEncode e.2 path = .ok b ↔ C e.2 ∧ b = code utf8Text e.2) :
    ∀ path bs, pyEncodeEntries es path = .ok bs ↔
      (∀ e ∈ es, PyText.IsUnicode e.1 ∧ C e.2) ∧ bs = entryCodes utf8Text es := by
  induction es with
  | nil => intro path bs; simp [pyEncodeEntries, eq_comm]
  | cons e es ih =>
    obtain ⟨k, v⟩ := e
    intro path bs
    simp only [pyEncodeEntries, bind_eq_ok, pure_eq_ok, pyEncodeText_eq_ok_iff
      (hkey (k, v) (by simp)),
      h (k, v) (by simp), ih (fun f hf => hkey f (by simp [hf])) fun f hf => h f (by simp [hf])]
    constructor
    · rintro ⟨_, ⟨hk, rfl⟩, _, ⟨hv, rfl⟩, _, ⟨hes, rfl⟩, rfl⟩
      exact ⟨by rw [List.forall_mem_cons]; exact ⟨⟨hk, hv⟩, hes⟩, by rw [entryCodes]⟩
    · rintro ⟨hes, rfl⟩
      rw [List.forall_mem_cons] at hes
      exact ⟨_, ⟨hes.1.1, rfl⟩, _, ⟨hes.1.2, rfl⟩, _, ⟨hes.2, rfl⟩, by rw [entryCodes]⟩

end Python

/-- A value is accepted if it is at its top and inside. -/
lemma CanonicalValue.accepted_iff {τ : Type} {enc : τ → List Byte} {ok : τ → Prop}
    {v : CanonicalValue τ} :
    v.Accepted enc ok ↔ v.LocallyAccepted enc ok ∧ ∀ c ∈ v.children, c.Accepted enc ok :=
  ⟨fun h => ⟨h.here, h.inside⟩, fun h => All.mk h.1 h.2⟩

/-- **The Python encoder returns the code of exactly the accepted values.**

**Proof sketch.** By induction on the value.  The head, the texts and the check for repetitions
have been settled; what remains is that the loops encode the values inside. -/
theorem pyEncode_eq_ok_iff (v : CanonicalValue PyText) : v.DistinctKeys → v.Sized utf8Text →
    ∀ path b, pyEncode v path = .ok b ↔
      v.Accepted utf8Text PyText.IsUnicode ∧ b = code utf8Text v := by
  induction v using CanonicalValue.induction with
  | step v ih =>
    intro hkeys hsized path b
    have hchild := fun c hc => ih c hc (hkeys.inside c hc) (hsized.inside c hc)
    rw [accepted_iff]
    cases v with
    | null => simp [pyEncode, LocallyAccepted, children, code, cborHead, eq_comm]
    | bool x => cases x <;> simp [pyEncode, LocallyAccepted, children, code, cborHead, eq_comm]
    | int n =>
      have hargument := argument_lt hsized
      obtain ⟨n, hn⟩ := n
      have hrange : ¬(n < int64Min ∨ n > int64Max) := by
        unfold IsInt64 at hn
        omega
      simp only [argument] at hargument
      simp only [pyEncode, bind_eq_ok, raiseIf_eq_ok, hrange, not_false_eq_true, true_and,
        LocallyAccepted, children, code, List.not_mem_nil, false_implies, implies_true,
        exists_const]
      split_ifs with hsign
      · rw [if_pos hsign] at hargument
        rw [pyHead_eq hargument]
        simp [eq_comm]
      · rw [if_neg hsign] at hargument
        rw [pyHead_eq hargument]
        simp [eq_comm]
    | text t =>
      rw [pyEncode, pyEncodeText_eq_ok_iff hsized.here, code]
      simp [LocallyAccepted, children, PyText.IsUnicode]
    | bytes x =>
      rw [pyEncode, pyHead_eq hsized.here]
      simp [LocallyAccepted, children, code, eq_comm]
    | array vs =>
      have hitem : ∀ v ∈ vs, ∀ path b, pyEncode v path = .ok b ↔
          v.Accepted utf8Text PyText.IsUnicode ∧ b = code utf8Text v := hchild
      rw [pyEncode, pyHead_eq hsized.here, ok_bind]
      simp only [bind_eq_ok, pure_eq_ok, pyEncodeItems_eq_ok_iff hitem]
      constructor
      · rintro ⟨_, ⟨hvs, rfl⟩, rfl⟩
        exact ⟨⟨trivial, hvs⟩, by rw [code]⟩
      · rintro ⟨⟨-, hvs⟩, rfl⟩
        exact ⟨_, ⟨hvs, rfl⟩, by rw [code]⟩
    | map es =>
      have hentry : ∀ e ∈ es, ∀ path b, pyEncode e.2 path = .ok b ↔
          e.2.Accepted utf8Text PyText.IsUnicode ∧ b = code utf8Text e.2 :=
        fun e he => hchild e.2 (List.mem_map_of_mem he)
      have hlength : (entryCodes utf8Text es).length < 2 ^ 64 := by
        rw [entryCodes_eq_map, List.length_map]
        exact hsized.here.1
      simp only [pyEncode, bind_eq_ok, pure_eq_ok, pyEncodeEntries_eq_ok_iff hsized.here.2 hentry]
      constructor
      · rintro ⟨_, ⟨hes, rfl⟩, head, hhead, rfl⟩
        rw [pyHead_eq hlength] at hhead
        obtain rfl := Except.ok.inj hhead
        refine ⟨⟨⟨fun e he => (hes e he).1, hkeys.here⟩, ?_⟩, ?_⟩
        · intro c hc
          obtain ⟨e, he, rfl⟩ := List.mem_map.mp hc
          exact (hes e he).2
        · rw [code, entryCodes_eq_map, List.length_map]
      · rintro ⟨⟨⟨hunicode, -⟩, hes⟩, rfl⟩
        refine ⟨_, ⟨fun e he => ⟨hunicode e he, hes e.2 (List.mem_map_of_mem he)⟩, rfl⟩, _,
          pyHead_eq hlength, ?_⟩
        rw [code, entryCodes_eq_map, List.length_map]
    | set vs =>
      have hneighbours := hasEqualNeighbours_map_sort id (codes utf8Text vs)
      rw [List.map_id, List.map_id] at hneighbours
      have hlength : (lengthFirstSort id (codes utf8Text vs)).length < 2 ^ 64 := by
        rw [(lengthFirstSort_perm id _).length_eq, codes_eq_map, List.length_map]
        exact hsized.here
      have htag : cborHead 6 258 = [0xd9, 0x01, 0x02] := by decide
      have hitem : ∀ v ∈ vs, ∀ path b, pyEncode v path = .ok b ↔
          v.Accepted utf8Text PyText.IsUnicode ∧ b = code utf8Text v := hchild
      simp only [pyEncode, bind_eq_ok, pure_eq_ok, raiseIf_eq_ok, Bool.not_eq_true,
        pyEncodeElements_eq_ok_iff hitem]
      constructor
      · rintro ⟨_, ⟨hvs, rfl⟩, _, hnodup, head, hhead, rfl⟩
        rw [pyHead_eq hlength] at hhead
        obtain rfl := Except.ok.inj hhead
        refine ⟨⟨?_, hvs⟩, ?_⟩
        · rw [hneighbours, codes_eq_map] at hnodup
          exact hnodup
        · rw [code, (lengthFirstSort_perm id _).length_eq, htag, codes_eq_map, List.length_map,
            List.append_assoc]
      · rintro ⟨⟨hnodup, hvs⟩, rfl⟩
        refine ⟨_, ⟨hvs, rfl⟩, (), ?_, _, pyHead_eq hlength, ?_⟩
        · rw [hneighbours, codes_eq_map]
          exact hnodup
        · rw [code, (lengthFirstSort_perm id _).length_eq, htag, codes_eq_map, List.length_map,
            List.append_assoc]

section Cpp

variable {C : CanonicalValue (List Byte) → Prop}

/-- The loop over the items, when each of them is encoded as it should. -/
lemma encodeItemsInto_eq_ok_iff {vs : List (CanonicalValue (List Byte))}
    (h : ∀ v ∈ vs, ∀ out b, encodeInto v out = .ok b ↔ C v ∧ b = out ++ code id v) :
    ∀ out b, encodeItemsInto vs out = .ok b ↔
      (∀ v ∈ vs, C v) ∧ b = out ++ (codes id vs).flatten := by
  induction vs with
  | nil => intro out b; simp [encodeItemsInto, @eq_comm _ b]
  | cons v vs ih =>
    intro out b
    simp only [encodeItemsInto, bind_eq_ok, h v (by simp), ih fun w hw => h w (by simp [hw])]
    constructor
    · rintro ⟨_, ⟨hv, rfl⟩, hvs, rfl⟩
      exact ⟨by simpa using ⟨hv, hvs⟩, by rw [codes, List.flatten_cons, List.append_assoc]⟩
    · rintro ⟨hvs, rfl⟩
      rw [List.forall_mem_cons] at hvs
      exact ⟨_, ⟨hvs.1, rfl⟩, hvs.2, by rw [codes, List.flatten_cons, List.append_assoc]⟩

/-- The loop over the elements, when each of them is encoded as it should. -/
lemma encodedItems_eq_ok_iff {vs : List (CanonicalValue (List Byte))}
    (h : ∀ v ∈ vs, ∀ out b, encodeInto v out = .ok b ↔ C v ∧ b = out ++ code id v) :
    ∀ bs, encodedItems vs = .ok bs ↔ (∀ v ∈ vs, C v) ∧ bs = codes id vs := by
  induction vs with
  | nil => intro bs; simp [encodedItems]
  | cons v vs ih =>
    intro bs
    simp only [encodedItems, bind_eq_ok, pure_eq_ok, h v (by simp),
      ih fun w hw => h w (by simp [hw])]
    constructor
    · rintro ⟨_, ⟨hv, rfl⟩, _, ⟨hvs, rfl⟩, rfl⟩
      exact ⟨by simpa using ⟨hv, hvs⟩, by rw [codes, List.nil_append]⟩
    · rintro ⟨hvs, rfl⟩
      rw [List.forall_mem_cons] at hvs
      exact ⟨_, ⟨hvs.1, rfl⟩, _, ⟨hvs.2, rfl⟩, by rw [codes, List.nil_append]⟩

/-- An entry as C++ collects it. -/
def canonicalEntry (e : List Byte × CanonicalValue (List Byte)) : CanonicalEntry :=
  (textCode id e.1, encodeInto e.2)

/-- The loop that collects the entries stops at a key that is no UTF-8. -/
lemma canonicalEntries_eq_ok_iff {es : List (List Byte × CanonicalValue (List Byte))}
    (hkey : ∀ e ∈ es, e.1.length < 2 ^ 64) :
    ∀ entries, canonicalEntries es = .ok entries ↔
      (∀ e ∈ es, validUtf8 e.1 = true) ∧ entries = es.map canonicalEntry := by
  induction es with
  | nil => intro entries; simp [canonicalEntries]
  | cons e es ih =>
    obtain ⟨k, v⟩ := e
    intro entries
    simp only [canonicalEntries, bind_eq_ok, pure_eq_ok, appendText_eq_ok_iff
      (hkey (k, v) (by simp)), ih fun f hf => hkey f (by simp [hf])]
    constructor
    · rintro ⟨_, ⟨hk, rfl⟩, _, ⟨hes, rfl⟩, rfl⟩
      exact ⟨by rw [List.forall_mem_cons]; exact ⟨hk, hes⟩, rfl⟩
    · rintro ⟨hes, rfl⟩
      rw [List.forall_mem_cons] at hes
      exact ⟨_, ⟨hes.1, rfl⟩, _, ⟨hes.2, rfl⟩, rfl⟩

/-- The loop that writes entries, when their values are encoded as they should. -/
lemma appendEntries_eq_ok_iff {es : List (List Byte × CanonicalValue (List Byte))}
    (h : ∀ e ∈ es, ∀ out b, encodeInto e.2 out = .ok b ↔ C e.2 ∧ b = out ++ code id e.2) :
    ∀ out b, appendEntries (es.map canonicalEntry) out = .ok b ↔
      (∀ e ∈ es, C e.2) ∧ b = out ++ es.flatMap (entryCode id) := by
  induction es with
  | nil => intro out b; simp [appendEntries, @eq_comm _ b]
  | cons e es ih =>
    intro out b
    simp only [List.map_cons, canonicalEntry, appendEntries, bind_eq_ok, h e (by simp)]
    change (∃ a, _ ∧ appendEntries (es.map canonicalEntry) a = _) ↔ _
    simp only [ih fun f hf => h f (by simp [hf])]
    constructor
    · rintro ⟨_, ⟨he, rfl⟩, hes, rfl⟩
      exact ⟨List.forall_mem_cons.mpr ⟨he, hes⟩, by simp [entryCode]⟩
    · rintro ⟨hes, rfl⟩
      rw [List.forall_mem_cons] at hes
      exact ⟨_, ⟨hes.1, rfl⟩, hes.2, by simp [entryCode]⟩

end Cpp

/-- The keys of the sorted entries of a map are the sorted keys. -/
lemma stdSort_canonicalEntry (es : List (List Byte × CanonicalValue (List Byte))) :
    stdSort (fun a b => lengthFirstLess a.1 b.1) (es.map canonicalEntry) =
      (lengthFirstSort (fun e => textCode id e.1) es).map canonicalEntry := by
  rw [stdSort_eq Prod.fst]
  exact (map_lengthFirstSort _ _ canonicalEntry (fun _ => rfl) es).symm

/-- Keys are different exactly if their codes are. -/
lemma nodup_map_textCode_iff {es : List (List Byte × CanonicalValue (List Byte))}
    (hkey : ∀ e ∈ es, e.1.length < 2 ^ 64) :
    (es.map fun e => textCode id e.1).Nodup ↔ (es.map Prod.fst).Nodup := by
  have hmap : (es.map fun e => textCode id e.1) = (es.map Prod.fst).map (textCode id) := by simp
  rw [hmap]
  refine ⟨List.Nodup.of_map _, fun h => h.map_on fun a ha b hb hab => ?_⟩
  obtain ⟨e, he, rfl⟩ := List.mem_map.mp ha
  obtain ⟨f, hf, rfl⟩ := List.mem_map.mp hb
  exact textCode_inj Function.injective_id (hkey e he) (hkey f hf) hab

/-- **The C++ encoder appends the code of exactly the accepted values.**

**Proof sketch.** By induction on the value, as for Python.  The entries of a map are sorted
before their values are encoded; the values follow their keys through the sort. -/
theorem encodeInto_eq_ok_iff (v : CanonicalValue (List Byte)) : v.Sized id → ∀ out b,
    encodeInto v out = .ok b ↔
      v.Accepted id (fun t => validUtf8 t = true) ∧ b = out ++ code id v := by
  induction v using CanonicalValue.induction with
  | step v ih =>
    intro hsized out b
    have hchild := fun c hc => ih c hc (hsized.inside c hc)
    rw [accepted_iff]
    cases v with
    | null => simp [encodeInto, LocallyAccepted, children, code, cborHead, @eq_comm _ b]
    | bool x => cases x <;> simp [encodeInto, LocallyAccepted, children, code, cborHead,
        @eq_comm _ b]
    | int n =>
      have hargument := argument_lt hsized
      obtain ⟨n, hn⟩ := n
      simp only [argument] at hargument
      have hneg : -(n + 1) = -1 - n := by omega
      simp only [encodeInto, LocallyAccepted, children, code, List.not_mem_nil, false_implies,
        implies_true, true_and, hneg]
      split_ifs with hsign
      · rw [if_pos hsign] at hargument
        rw [appendUint_eq hargument]
        simp [@eq_comm _ b]
      · rw [if_neg hsign] at hargument
        rw [appendUint_eq hargument]
        simp [@eq_comm _ b]
    | text t =>
      have hlength : t.length < 2 ^ 64 := hsized.here
      rw [encodeInto, appendText_eq_ok_iff hlength, code]
      simp [LocallyAccepted, children]
    | bytes x =>
      rw [encodeInto, appendUint_eq hsized.here]
      simp [LocallyAccepted, children, code, @eq_comm _ b]
    | array vs =>
      have hitem : ∀ v ∈ vs, ∀ out b, encodeInto v out = .ok b ↔
          v.Accepted id (fun t => validUtf8 t = true) ∧ b = out ++ code id v := hchild
      rw [encodeInto, appendUint_eq hsized.here, encodeItemsInto_eq_ok_iff hitem, code,
        List.append_assoc]
      simp [LocallyAccepted, children]
    | map es =>
      have hentry : ∀ e ∈ lengthFirstSort (fun e => textCode id e.1) es, ∀ out b,
          encodeInto e.2 out = .ok b ↔
            e.2.Accepted id (fun t => validUtf8 t = true) ∧ b = out ++ code id e.2 :=
        fun e he => hchild e.2 (List.mem_map_of_mem ((lengthFirstSort_perm _ es).mem_iff.mp he))
      have hkeys : hasEqualNeighbours (((lengthFirstSort (fun e => textCode id e.1) es).map
          canonicalEntry).map Prod.fst) = false ↔ (es.map Prod.fst).Nodup := by
        rw [List.map_map, ← nodup_map_textCode_iff hsized.here.2]
        exact hasEqualNeighbours_map_sort (fun e => textCode id e.1) es
      have hlength : ((lengthFirstSort (fun e => textCode id e.1) es).map
          canonicalEntry).length = es.length := by
        rw [List.length_map, (lengthFirstSort_perm _ es).length_eq]
      rw [code_eq, major, argument, body]
      simp only [encodeInto, bind_eq_ok, throwIf_eq_ok, Bool.not_eq_true,
        canonicalEntries_eq_ok_iff hsized.here.2]
      constructor
      · rintro ⟨_, ⟨hvalid, rfl⟩, _, hnodup, happend⟩
        rw [stdSort_canonicalEntry] at hnodup happend
        rw [hlength, appendEntries_eq_ok_iff hentry, appendUint_eq hsized.here.1,
          List.append_assoc] at happend
        refine ⟨⟨⟨hvalid, hkeys.mp hnodup⟩, ?_⟩, happend.2⟩
        intro c hc
        obtain ⟨e, he, rfl⟩ := List.mem_map.mp hc
        exact happend.1 e ((lengthFirstSort_perm _ es).mem_iff.mpr he)
      · rintro ⟨⟨⟨hvalid, hnodup⟩, hes⟩, rfl⟩
        refine ⟨_, ⟨hvalid, rfl⟩, (), ?_, ?_⟩
        · rw [stdSort_canonicalEntry]
          exact hkeys.mpr hnodup
        · rw [stdSort_canonicalEntry, hlength, appendEntries_eq_ok_iff hentry,
            appendUint_eq hsized.here.1, List.append_assoc]
          exact ⟨fun e he => hes e.2
            (List.mem_map_of_mem ((lengthFirstSort_perm _ es).mem_iff.mp he)), rfl⟩
    | set vs =>
      have hitem : ∀ v ∈ vs, ∀ out b, encodeInto v out = .ok b ↔
          v.Accepted id (fun t => validUtf8 t = true) ∧ b = out ++ code id v := hchild
      have hneighbours := hasEqualNeighbours_map_sort id (codes id vs)
      rw [List.map_id, List.map_id] at hneighbours
      have hsort : stdSort lengthFirstLess (codes id vs) = lengthFirstSort id (codes id vs) :=
        stdSort_eq id _
      have hlength : (lengthFirstSort id (codes id vs)).length = vs.length := by
        rw [(lengthFirstSort_perm id _).length_eq, codes_eq_map, List.length_map]
      rw [code, ← List.append_assoc, ← List.append_assoc]
      simp only [encodeInto, bind_eq_ok, pure_eq_ok, throwIf_eq_ok, Bool.not_eq_true,
        encodedItems_eq_ok_iff hitem]
      constructor
      · rintro ⟨_, ⟨hvs, rfl⟩, _, hnodup, rfl⟩
        rw [hsort] at hnodup
        rw [hneighbours, codes_eq_map] at hnodup
        refine ⟨⟨hnodup, hvs⟩, ?_⟩
        rw [hsort, hlength, appendUint_eq hsized.here, appendUint_eq (by norm_num)]
      · rintro ⟨⟨hnodup, hvs⟩, rfl⟩
        refine ⟨_, ⟨hvs, rfl⟩, (), ?_, ?_⟩
        · rw [hsort, hneighbours, codes_eq_map]
          exact hnodup
        · rw [hsort, hlength, appendUint_eq hsized.here, appendUint_eq (by norm_num)]

/-! ## Texts of the other language -/

namespace CanonicalValue

variable {τ σ : Type}

mutual
/-- A value with other texts. -/
def mapText (f : τ → σ) : CanonicalValue τ → CanonicalValue σ
  | .null => .null
  | .bool b => .bool b
  | .int n => .int n
  | .text t => .text (f t)
  | .bytes b => .bytes b
  | .array vs => .array (mapTextItems f vs)
  | .map es => .map (mapTextEntries f es)
  | .set vs => .set (mapTextItems f vs)

/-- Values with other texts. -/
def mapTextItems (f : τ → σ) : List (CanonicalValue τ) → List (CanonicalValue σ)
  | [] => []
  | v :: vs => mapText f v :: mapTextItems f vs

/-- Entries with other texts. -/
def mapTextEntries (f : τ → σ) : List (τ × CanonicalValue τ) → List (σ × CanonicalValue σ)
  | [] => []
  | (k, v) :: es => (f k, mapText f v) :: mapTextEntries f es
end

/-- The texts of a sequence are replaced element by element. -/
@[simp] lemma mapTextItems_eq_map (f : τ → σ) (vs : List (CanonicalValue τ)) :
    mapTextItems f vs = vs.map (mapText f) := by
  induction vs with
  | nil => simp [mapTextItems]
  | cons v vs ih => simp [mapTextItems, ih]

/-- The texts of a mapping are replaced entry by entry, in keys and values. -/
@[simp] lemma mapTextEntries_eq_map (f : τ → σ) (es : List (τ × CanonicalValue τ)) :
    mapTextEntries f es = es.map fun e => (f e.1, mapText f e.2) := by
  induction es with
  | nil => simp [mapTextEntries]
  | cons e es ih => simp [mapTextEntries, ih]

/-- What stands inside has the other texts too. -/
lemma children_mapText (f : τ → σ) (v : CanonicalValue τ) :
    (v.mapText f).children = v.children.map (mapText f) := by
  cases v <;> simp [mapText, children, Function.comp_def]

/-- A property of every value inside is one of the values with the other texts. -/
lemma all_mapText_iff {f : τ → σ} {p : CanonicalValue σ → Prop} {q : CanonicalValue τ → Prop}
    (h : ∀ v, p (v.mapText f) ↔ q v) (v : CanonicalValue τ) : All p (v.mapText f) ↔ All q v := by
  induction v using CanonicalValue.induction with
  | step v ih =>
    constructor
    · intro hall
      refine All.mk ((h v).mp hall.here) fun c hc => (ih c hc).mp (hall.inside _ ?_)
      rw [children_mapText]
      exact List.mem_map_of_mem hc
    · intro hall
      refine All.mk ((h v).mpr hall.here) fun c hc => ?_
      rw [children_mapText] at hc
      obtain ⟨d, hd, rfl⟩ := List.mem_map.mp hc
      exact (ih d hd).mpr (hall.inside d hd)

variable {enc : τ → List Byte}

/-- The code reads only the bytes of the texts. -/
lemma code_mapText (v : CanonicalValue τ) : code id (v.mapText enc) = code enc v := by
  induction v using CanonicalValue.induction with
  | step v ih =>
    cases v with
    | array vs =>
      have hcodes : (vs.map (mapText enc)).map (code id) = vs.map (code enc) := by
        rw [List.map_map]
        exact List.map_congr_left ih
      simp only [mapText, code, codes_eq_map, mapTextItems_eq_map, hcodes, List.length_map]
    | map es =>
      have hcodes : entryCodes id (es.map fun e => (enc e.1, mapText enc e.2)) =
          entryCodes enc es := by
        rw [entryCodes_eq_map, entryCodes_eq_map, List.map_map]
        refine List.map_congr_left fun e he => ?_
        have := ih e.2 (List.mem_map_of_mem he)
        simp [textCode, this]
      rw [mapText, mapTextEntries_eq_map, code, code, hcodes, List.length_map]
    | set vs =>
      have hcodes : (vs.map (mapText enc)).map (code id) = vs.map (code enc) := by
        rw [List.map_map]
        exact List.map_congr_left ih
      simp only [mapText, code, codes_eq_map, mapTextItems_eq_map, hcodes, List.length_map]
    | _ => simp [mapText, code, textCode]

/-- The lengths are those of the bytes of the texts. -/
lemma sized_mapText_iff (v : CanonicalValue τ) : (v.mapText enc).Sized id ↔ v.Sized enc := by
  refine all_mapText_iff (fun v => ?_) v
  cases v with
  | map es =>
    simp only [mapText, LocallySized, mapTextEntries_eq_map, List.length_map, List.forall_mem_map,
      id_eq]
  | _ => simp [mapText, LocallySized]

/-- Different keys are different byte strings. -/
lemma accepted_mapText_iff (henc : Function.Injective enc) {ok : τ → Prop}
    {valid : List Byte → Prop} (hvalid : ∀ t, valid (enc t) ↔ ok t) (v : CanonicalValue τ) :
    (v.mapText enc).Accepted id valid ↔ v.Accepted enc ok := by
  refine all_mapText_iff (fun v => ?_) v
  cases v with
  | map es =>
    have hkeys : (es.map fun e => (enc e.1, mapText enc e.2)).map Prod.fst =
        (es.map Prod.fst).map enc := by
      simp
    rw [mapText, mapTextEntries_eq_map, LocallyAccepted, LocallyAccepted, hkeys,
      List.nodup_map_iff henc]
    simp only [List.forall_mem_map, hvalid]
  | set vs =>
    have hcodes : (vs.map (mapText enc)).map (code id) = vs.map (code enc) := by
      simp [code_mapText]
    rw [mapText, mapTextItems_eq_map, LocallyAccepted, LocallyAccepted, hcodes]
  | text t => exact hvalid t
  | _ => simp [mapText, LocallyAccepted]

/-- A list of images is the image of a list. -/
lemma exists_map_eq_of_forall {α β : Type*} {f : α → β} {l : List β}
    (h : ∀ b ∈ l, ∃ a, b = f a) : ∃ k : List α, l = k.map f := by
  induction l with
  | nil => exact ⟨[], rfl⟩
  | cons b l ih =>
    obtain ⟨a, rfl⟩ := h b (by simp)
    obtain ⟨k, rfl⟩ := ih fun c hc => h c (by simp [hc])
    exact ⟨a :: k, rfl⟩

/-- A value whose texts are all images is the image of a value. -/
lemma exists_mapText_eq {valid : List Byte → Prop} (hvalid : ∀ b, valid b → ∃ t, b = enc t)
    (w : CanonicalValue (List Byte)) : w.Accepted id valid → ∃ v, w = mapText enc v := by
  induction w using CanonicalValue.induction with
  | step w ih =>
    intro hw
    have hchild := fun c hc => ih c hc (hw.inside c hc)
    cases w with
    | null => exact ⟨.null, rfl⟩
    | bool b => exact ⟨.bool b, rfl⟩
    | int n => exact ⟨.int n, rfl⟩
    | text t =>
      obtain ⟨s, rfl⟩ := hvalid t hw.here
      exact ⟨.text s, rfl⟩
    | bytes b => exact ⟨.bytes b, rfl⟩
    | array ws =>
      obtain ⟨vs, rfl⟩ := exists_map_eq_of_forall hchild
      exact ⟨.array vs, by rw [mapText, mapTextItems_eq_map]⟩
    | map es =>
      have hentries : ∀ e ∈ es, ∃ f : τ × CanonicalValue τ, e = (enc f.1, mapText enc f.2) := by
        intro e he
        obtain ⟨k, hk⟩ := hvalid e.1 (hw.here.1 e he)
        obtain ⟨v, hv⟩ := hchild e.2 (List.mem_map_of_mem he)
        exact ⟨(k, v), Prod.ext hk hv⟩
      obtain ⟨fs, rfl⟩ := exists_map_eq_of_forall hentries
      exact ⟨.map fs, by rw [mapText, mapTextEntries_eq_map]⟩
    | set ws =>
      obtain ⟨vs, rfl⟩ := exists_map_eq_of_forall hchild
      exact ⟨.set vs, by rw [mapText, mapTextItems_eq_map]⟩

/-- Accepted values have different keys. -/
lemma Accepted.distinctKeys {ok : τ → Prop} {v : CanonicalValue τ} (h : v.Accepted enc ok) :
    v.DistinctKeys := by
  induction v using CanonicalValue.induction with
  | step v ih =>
    refine All.mk ?_ fun c hc => ih c hc (h.inside c hc)
    cases v with
    | map es => exact h.here.2
    | _ => trivial

end CanonicalValue

/-! ## One language -/

/-- What C++ returns for the value that Python holds. -/
lemma canonicalBytes_mapText_eq_ok_iff {v : CanonicalValue PyText} (hv : v.Sized utf8Text)
    (b : List Byte) : canonicalBytes (v.mapText utf8Text) = .ok b ↔
      v.Accepted utf8Text PyText.IsUnicode ∧ b = code utf8Text v := by
  rw [canonicalBytes, encodeInto_eq_ok_iff _ ((sized_mapText_iff v).mpr hv),
    accepted_mapText_iff utf8Text_injective validUtf8_utf8Text, code_mapText, List.nil_append]
  rfl

/-- **One injective language in both encoders.**  Take two values `v` and `w` of Python's
vocabulary and a C++ value `u`, all of them with lengths of 64 bits.

* C++ returns bytes for `v` exactly if every dictionary in `v` has its keys once and Python returns
  the same bytes.
* The values that are refused are those with a text that is not Unicode, a repeated key or
  repeated elements of a set.
* A C++ value that is not refused is a value of `PyValue`, with the same bytes.
* Two values have the same bytes exactly if they are equal up to the order of map entries and set
  elements.
* No bytes begin the bytes of another value.

**Proof sketch.** Both encoders return the code of the accepted values; the code is injective and
told apart from whatever follows it. -/
theorem canonicalBytes_agree (v w : CanonicalValue PyText) (u : CanonicalValue (List Byte))
    (hv : v.Sized utf8Text) (hw : w.Sized utf8Text) (hu : u.Sized id) :
    (∀ b, canonicalBytes (v.mapText utf8Text) = .ok b ↔
      ∃ h : v.DistinctKeys, pyCanonicalBytes ⟨v, h⟩ = .ok b) ∧
    ((∃ b, canonicalBytes (v.mapText utf8Text) = .ok b) ↔
      v.Accepted utf8Text PyText.IsUnicode) ∧
    (∀ b, canonicalBytes u = .ok b →
      ∃ x : PyValue, u = x.val.mapText utf8Text ∧ pyCanonicalBytes x = .ok b) ∧
    (∀ b c, canonicalBytes (v.mapText utf8Text) = .ok b →
      canonicalBytes (w.mapText utf8Text) = .ok c → (b = c ↔ Equiv v w) ∧ (b <+: c → b = c)) := by
  have hpython : ∀ {x : CanonicalValue PyText}, x.Sized utf8Text → ∀ b (h : x.DistinctKeys),
      pyCanonicalBytes ⟨x, h⟩ = .ok b ↔
        x.Accepted utf8Text PyText.IsUnicode ∧ b = code utf8Text x :=
    fun hx b h => pyEncode_eq_ok_iff _ h hx "$" b
  refine ⟨fun b => ?_, ?_, fun b hb => ?_, fun b c hb hc => ?_⟩
  · rw [canonicalBytes_mapText_eq_ok_iff hv]
    constructor
    · intro h
      exact ⟨h.1.distinctKeys, (hpython hv b _).mpr h⟩
    · rintro ⟨hkeys, h⟩
      exact (hpython hv b hkeys).mp h
  · simp only [canonicalBytes_mapText_eq_ok_iff hv, exists_and_left, exists_eq, and_true]
  · obtain ⟨hacc, rfl⟩ := (encodeInto_eq_ok_iff u hu [] b).mp hb
    have htext : ∀ t, validUtf8 t = true → ∃ s, t = utf8Text s :=
      fun t ht => ((validUtf8_iff t).mp ht).imp fun _ h => h.2
    obtain ⟨x, rfl⟩ := exists_mapText_eq htext u hacc
    rw [accepted_mapText_iff utf8Text_injective validUtf8_utf8Text] at hacc
    rw [sized_mapText_iff] at hu
    refine ⟨⟨x, hacc.distinctKeys⟩, rfl, (hpython hu _ _).mpr ⟨hacc, ?_⟩⟩
    rw [List.nil_append, code_mapText]
  · obtain ⟨hacc, rfl⟩ := (canonicalBytes_mapText_eq_ok_iff hv b).mp hb
    obtain ⟨hacc', rfl⟩ := (canonicalBytes_mapText_eq_ok_iff hw c).mp hc
    exact ⟨code_eq_iff utf8Text_injective hacc hacc' hv hw,
      code_eq_of_begins utf8Text_injective hacc hacc' hv hw⟩

/-- A map whose two entries stand in either order, with the least integer in a set; and a C++ text
that spells a surrogate. -/
theorem canonicalBytes_agree_reordered :
    let v : CanonicalValue PyText := .map [([0xe9], .set [.int ⟨int64Min, by decide⟩, .null]),
      ([0x62], .text [0x1f600])]
    let w : CanonicalValue PyText := .map [([0x62], .text [0x1f600]),
      ([0xe9], .set [.null, .int ⟨int64Min, by decide⟩])]
    let u : CanonicalValue (List Byte) := .text [0xed, 0xa0, 0x80]
    (∀ b, canonicalBytes (v.mapText utf8Text) = .ok b ↔
      ∃ h : v.DistinctKeys, pyCanonicalBytes ⟨v, h⟩ = .ok b) ∧
    ((∃ b, canonicalBytes (v.mapText utf8Text) = .ok b) ↔
      v.Accepted utf8Text PyText.IsUnicode) ∧
    (∀ b, canonicalBytes u = .ok b →
      ∃ x : PyValue, u = x.val.mapText utf8Text ∧ pyCanonicalBytes x = .ok b) ∧
    (∀ b c, canonicalBytes (v.mapText utf8Text) = .ok b →
      canonicalBytes (w.mapText utf8Text) = .ok c → (b = c ↔ Equiv v w) ∧ (b <+: c → b = c)) := by
  have hint : Sized utf8Text (.int ⟨int64Min, by decide⟩) := All.mk trivial (by simp [children])
  have hnull : Sized utf8Text .null := All.mk trivial (by simp [children])
  have htext : Sized utf8Text (.text [0x1f600]) := by
    refine All.mk ?_ (by simp [children])
    change (utf8Text [0x1f600]).length < 2 ^ 64
    decide
  have hkeys : (utf8Text [0xe9]).length < 2 ^ 64 ∧ (utf8Text [0x62]).length < 2 ^ 64 := by decide
  have hset : Sized utf8Text (.set [.int ⟨int64Min, by decide⟩, .null]) :=
    All.mk (by simp [LocallySized]) (by simpa [children] using ⟨hint, hnull⟩)
  have hset' : Sized utf8Text (.set [.null, .int ⟨int64Min, by decide⟩]) :=
    All.mk (by simp [LocallySized]) (by simpa [children] using ⟨hnull, hint⟩)
  refine canonicalBytes_agree _ _ _ (All.mk ⟨by simp, ?_⟩ ?_) (All.mk ⟨by simp, ?_⟩ ?_)
    (All.mk (by simp [LocallySized]) (by simp [children]))
  · exact List.forall_mem_cons.mpr ⟨hkeys.1, List.forall_mem_cons.mpr ⟨hkeys.2, by simp⟩⟩
  · simpa [children] using ⟨hset, htext⟩
  · exact List.forall_mem_cons.mpr ⟨hkeys.2, List.forall_mem_cons.mpr ⟨hkeys.1, by simp⟩⟩
  · simpa [children] using ⟨htext, hset'⟩

end Pops
