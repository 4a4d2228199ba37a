import Pops.Foundation.MachineInt
import Pops.Foundation.Utf8

/-!
# Canonical identity values

The values that the identity layers encode, and the one code of bytes that stands for them.  A
code begins with a head that holds a major type and an argument; the entries of a map and the
elements of a set follow in length-first order of their codes.  The type of texts is a parameter:
Python holds code points, C++ holds bytes.

## Main definitions

* `Pops.CanonicalValue` — null, booleans, integers, texts, bytes, arrays, maps and sets.
* `Pops.CanonicalValue.All` — a property of a value and of every value inside it.
* `Pops.CanonicalValue.Equiv` — equality up to the order of map entries and set elements.
* `Pops.cborHead`, `CanonicalValue.code` — the code.
* `Pops.CanonicalValue.Accepted` — the values that have a code.

## Main results

* `Pops.cborHead_append_inj` — a head is told apart from whatever follows it.
* `Pops.CanonicalValue.equiv_of_code_append` — codes that agree as far as they go belong to equal
  values.
* `Pops.CanonicalValue.code_eq_iff` — the code of an accepted value determines it.
-/

namespace Pops

/-! ## Heads -/

/-- The head of a code: a major type and an argument in as few bytes as hold it. -/
def cborHead (major argument : ℕ) : List Byte :=
  if argument < 24 then [UInt8.ofNat (major * 32 + argument)]
  else if argument < 256 ^ 1 then UInt8.ofNat (major * 32 + 24) :: bigEndian 1 argument
  else if argument < 256 ^ 2 then UInt8.ofNat (major * 32 + 25) :: bigEndian 2 argument
  else if argument < 256 ^ 4 then UInt8.ofNat (major * 32 + 26) :: bigEndian 4 argument
  else UInt8.ofNat (major * 32 + 27) :: bigEndian 8 argument

/-- Arguments of one width are told apart from whatever follows them. -/
lemma bigEndian_append_inj {width n m : ℕ} {s t : List Byte} (hn : n < 256 ^ width)
    (hm : m < 256 ^ width) (h : bigEndian width n ++ s = bigEndian width m ++ t) :
    n = m ∧ s = t := by
  obtain ⟨hbytes, hrest⟩ := List.append_inj h (by simp)
  exact ⟨bigEndian_inj hn hm hbytes, hrest⟩

/-- **A head is told apart from whatever follows it.**

**Proof sketch.** The lower five bits of the first byte are the argument or say how many bytes
hold it, so both heads are of one form. -/
theorem cborHead_append_inj {major major' n m : ℕ} {s t : List Byte} (hmajor : major < 8)
    (hmajor' : major' < 8) (hn : n < 2 ^ 64) (hm : m < 2 ^ 64)
    (h : cborHead major n ++ s = cborHead major' m ++ t) : major = major' ∧ n = m ∧ s = t := by
  have hn8 : n < 256 ^ 8 := by norm_num; omega
  have hm8 : m < 256 ^ 8 := by norm_num; omega
  unfold cborHead at h
  split_ifs at h with h1 h2 h3 h4 h5 h6 h7 h8 h9 h10 h11 h12 h13 h14 h15 h16 h17 h18 h19 h20 <;>
    simp (disch := omega) only [List.cons_append, List.nil_append, List.cons.injEq,
      ofNat_eq_ofNat_iff] at h <;> first
    | omega
    | exact ⟨by omega, by omega, h.2⟩
    | exact ⟨by omega, bigEndian_append_inj (by assumption) (by assumption) h.2⟩

/-! ## Values -/

/-- A canonical value whose texts are of type `τ`. -/
inductive CanonicalValue (τ : Type)
  | null
  | bool (value : Bool)
  | int (value : {n : ℤ // IsInt64 n})
  | text (value : τ)
  | bytes (value : List Byte)
  | array (items : List (CanonicalValue τ))
  | map (entries : List (τ × CanonicalValue τ))
  | set (items : List (CanonicalValue τ))

namespace CanonicalValue

variable {τ : Type}

/-- The values that stand directly inside a value. -/
def children : CanonicalValue τ → List (CanonicalValue τ)
  | array items => items
  | map entries => entries.map Prod.snd
  | set items => items
  | _ => []

/-- Induction on a value: the statement may be used for what stands directly inside. -/
theorem induction {motive : CanonicalValue τ → Prop}
    (step : ∀ v, (∀ c ∈ v.children, motive c) → motive v) (v : CanonicalValue τ) : motive v := by
  refine @CanonicalValue.rec τ motive (fun vs => ∀ c ∈ vs, motive c)
    (fun es => ∀ c ∈ es.map Prod.snd, motive c) (fun e => motive e.2) ?_ ?_ ?_ ?_ ?_ ?_ ?_ ?_ ?_ ?_
    ?_ ?_ ?_ v
  · exact step _ (by simp [children])
  · exact fun b => step _ (by simp [children])
  · exact fun n => step _ (by simp [children])
  · exact fun t => step _ (by simp [children])
  · exact fun b => step _ (by simp [children])
  · exact fun items ih => step _ ih
  · exact fun entries ih => step _ ih
  · exact fun items ih => step _ ih
  · intro c hc
    cases hc
  · intro head tail hhead htail c hc
    rcases List.mem_cons.mp hc with rfl | hc
    · exact hhead
    · exact htail c hc
  · intro c hc
    cases hc
  · intro head tail hhead htail c hc
    rcases List.mem_cons.mp hc with rfl | hc
    · exact hhead
    · exact htail c hc
  · exact fun _ _ h => h

/-- A property of a value and of every value inside it. -/
inductive All (p : CanonicalValue τ → Prop) : CanonicalValue τ → Prop
  | mk {v : CanonicalValue τ} (here : p v) (inside : ∀ c ∈ v.children, All p c) : All p v

/-- What holds of all parts of a value holds of the value. -/
lemma All.here {p : CanonicalValue τ → Prop} {v : CanonicalValue τ} (h : All p v) : p v := by
  cases h
  assumption

/-- What holds of all parts of a value holds of all parts of its children. -/
lemma All.inside {p : CanonicalValue τ → Prop} {v : CanonicalValue τ} (h : All p v) :
    ∀ c ∈ v.children, All p c := by
  cases h
  assumption

mutual
/-- Equality up to the order of map entries and of set elements. -/
def Equiv : CanonicalValue τ → CanonicalValue τ → Prop
  | null, w => w = null
  | bool b, w => w = bool b
  | int n, w => w = int n
  | text t, w => w = text t
  | bytes b, w => w = bytes b
  | array vs, w => ∃ ws, w = array ws ∧ EquivItems vs ws
  | map es, w => ∃ fs fs', w = map fs ∧ fs'.Perm fs ∧ EquivEntries es fs'
  | set vs, w => ∃ ws ws', w = set ws ∧ ws'.Perm ws ∧ EquivItems vs ws'

/-- Values that are equal one by one. -/
def EquivItems : List (CanonicalValue τ) → List (CanonicalValue τ) → Prop
  | [], ws => ws = []
  | v :: vs, ws => ∃ w ws', ws = w :: ws' ∧ Equiv v w ∧ EquivItems vs ws'

/-- Entries that are equal one by one. -/
def EquivEntries : List (τ × CanonicalValue τ) → List (τ × CanonicalValue τ) → Prop
  | [], fs => fs = []
  | (k, v) :: es, fs => ∃ w fs', fs = (k, w) :: fs' ∧ Equiv v w ∧ EquivEntries es fs'
end

/-- Sequences are equivalent element by element. -/
lemma equivItems_iff {vs ws : List (CanonicalValue τ)} :
    EquivItems vs ws ↔ List.Forall₂ Equiv vs ws := by
  induction vs generalizing ws with
  | nil => simp [EquivItems]
  | cons v vs ih =>
    simp only [EquivItems, ih, List.forall₂_cons_left_iff]
    constructor
    · rintro ⟨w, ws', rfl, hv, hvs⟩
      exact ⟨w, ws', hv, hvs, rfl⟩
    · rintro ⟨w, ws', hv, hvs, rfl⟩
      exact ⟨w, ws', rfl, hv, hvs⟩

/-- Mappings are equivalent entry by entry, with equal keys. -/
lemma equivEntries_iff {es fs : List (τ × CanonicalValue τ)} :
    EquivEntries es fs ↔ List.Forall₂ (fun e f => e.1 = f.1 ∧ Equiv e.2 f.2) es fs := by
  induction es generalizing fs with
  | nil => simp [EquivEntries]
  | cons e es ih =>
    obtain ⟨k, v⟩ := e
    simp only [EquivEntries, ih, List.forall₂_cons_left_iff]
    constructor
    · rintro ⟨w, fs', rfl, hv, hes⟩
      exact ⟨(k, w), fs', ⟨rfl, hv⟩, hes, rfl⟩
    · rintro ⟨⟨k', w⟩, fs', ⟨rfl, hv⟩, hes, rfl⟩
      exact ⟨w, fs', rfl, hv, hes⟩

end CanonicalValue

/-! ## The length-first order -/

/-- The place of a byte string in the length-first order: its length, then its bytes. -/
def lengthFirstKey (bytes : List Byte) : ℕ ×ₗ List ℕ :=
  toLex (bytes.length, bytes.map UInt8.toNat)

/-- The length-first order. -/
def lengthFirstLe (left right : List Byte) : Bool :=
  decide (lengthFirstKey left ≤ lengthFirstKey right)

/-- Different byte strings have different length-first keys. -/
lemma lengthFirstKey_injective : Function.Injective lengthFirstKey := by
  intro a b h
  have hbytes : a.map UInt8.toNat = b.map UInt8.toNat := (Prod.mk.inj (toLex.injective h)).2
  exact List.map_injective_iff.mpr (fun x y hxy => UInt8.toNat.inj hxy) hbytes

section Sorting

variable {α : Type*} (key : α → List Byte)

/-- A list in the length-first order of the keys of its members. -/
def lengthFirstSort (l : List α) : List α :=
  l.mergeSort fun a b => lengthFirstLe (key a) (key b)

/-- Sorting by length first only reorders. -/
lemma lengthFirstSort_perm (l : List α) : (lengthFirstSort key l).Perm l :=
  List.mergeSort_perm ..

/-- The sorted keys do not decrease. -/
lemma lengthFirstSort_pairwise (l : List α) :
    (lengthFirstSort key l).Pairwise fun a b =>
    lengthFirstKey (key a) ≤ lengthFirstKey (key b) := by
  have h : (lengthFirstSort key l).Pairwise fun a b => lengthFirstLe (key a) (key b) = true :=
    List.pairwise_mergeSort (fun a b c hab hbc => by
      simp only [lengthFirstLe, decide_eq_true_eq] at hab hbc ⊢
      exact hab.trans hbc)
    (fun a b => by
      simp only [lengthFirstLe, Bool.or_eq_true, decide_eq_true_eq]
      exact le_total _ _) l
  exact h.imp fun hab => by simpa [lengthFirstLe] using hab

/-- Members with different keys stand in one order only. -/
lemma lengthFirstSort_eq_of_perm {l l' : List α} (h : l.Perm l')
    (hkey : ∀ a ∈ l, ∀ b ∈ l, key a = key b → a = b) :
    lengthFirstSort key l = lengthFirstSort key l' := by
  have hperm := (lengthFirstSort_perm key l).trans (h.trans (lengthFirstSort_perm key l').symm)
  refine hperm.eq_of_pairwise ?_ (lengthFirstSort_pairwise key l) (lengthFirstSort_pairwise key l')
  intro a b ha hb hab hba
  refine hkey a ((lengthFirstSort_perm key l).mem_iff.mp ha) b ?_
    (lengthFirstKey_injective (le_antisymm hab hba))
  exact h.mem_iff.mpr ((lengthFirstSort_perm key l').mem_iff.mp hb)

/-- Sorting commutes with a map that keeps the keys. -/
lemma map_lengthFirstSort {β : Type*} (key' : β → List Byte) (f : α → β)
    (hf : ∀ a, key' (f a) = key a) (l : List α) :
    (lengthFirstSort key l).map f = lengthFirstSort key' (l.map f) :=
  List.map_mergeSort fun a _ b _ => by simp only [hf]

end Sorting

/-! ## The code -/

namespace CanonicalValue

variable {τ : Type} (enc : τ → List Byte)

/-- The code of a text. -/
def textCode (t : τ) : List Byte := cborHead 3 (enc t).length ++ enc t

mutual
/-- The code of a value. -/
def code : CanonicalValue τ → List Byte
  | null => cborHead 7 22
  | bool b => cborHead 7 (if b then 21 else 20)
  | int n => if 0 ≤ n.val then cborHead 0 n.val.toNat else cborHead 1 (-1 - n.val).toNat
  | text t => textCode enc t
  | bytes b => cborHead 2 b.length ++ b
  | array vs => cborHead 4 vs.length ++ (codes vs).flatten
  | map es =>
    cborHead 5 es.length ++ (lengthFirstSort Prod.fst (entryCodes es)).flatMap fun e => e.1 ++ e.2
  | set vs => cborHead 6 258 ++ (cborHead 4 vs.length ++ (lengthFirstSort id (codes vs)).flatten)

/-- The codes of values. -/
def codes : List (CanonicalValue τ) → List (List Byte)
  | [] => []
  | v :: vs => code v :: codes vs

/-- The codes of the keys and the values of entries. -/
def entryCodes : List (τ × CanonicalValue τ) → List (List Byte × List Byte)
  | [] => []
  | (k, v) :: es => (textCode enc k, code v) :: entryCodes es
end

/-- The codes of a sequence are those of its elements. -/
@[simp] lemma codes_eq_map (vs : List (CanonicalValue τ)) : codes enc vs = vs.map (code enc) := by
  induction vs with
  | nil => simp [codes]
  | cons v vs ih => simp [codes, ih]

/-- The codes of a mapping are those of its keys and values. -/
@[simp] lemma entryCodes_eq_map (es : List (τ × CanonicalValue τ)) :
    entryCodes enc es = es.map fun e => (textCode enc e.1, code enc e.2) := by
  induction es with
  | nil => simp [entryCodes]
  | cons e es ih => simp [entryCodes, ih]

/-- The major type of the head of a code. -/
def major : CanonicalValue τ → ℕ
  | null => 7
  | bool _ => 7
  | int n => if 0 ≤ n.val then 0 else 1
  | text _ => 3
  | bytes _ => 2
  | array _ => 4
  | map _ => 5
  | set _ => 6

/-- The argument of the head of a code. -/
def argument : CanonicalValue τ → ℕ
  | null => 22
  | bool b => if b then 21 else 20
  | int n => if 0 ≤ n.val then n.val.toNat else (-1 - n.val).toNat
  | text t => (enc t).length
  | bytes b => b.length
  | array vs => vs.length
  | map es => es.length
  | set _ => 258

/-- An entry as it stands in the code of a map. -/
def entryCode (e : τ × CanonicalValue τ) : List Byte := textCode enc e.1 ++ code enc e.2

/-- What follows the head of a code. -/
def body : CanonicalValue τ → List Byte
  | null => []
  | bool _ => []
  | int _ => []
  | text t => enc t
  | bytes b => b
  | array vs => vs.flatMap (code enc)
  | map es => (lengthFirstSort (fun e => textCode enc e.1) es).flatMap (entryCode enc)
  | set vs => cborHead 4 vs.length ++ (lengthFirstSort (code enc) vs).flatMap (code enc)

/-- Every code is a head and a body. -/
lemma code_eq (v : CanonicalValue τ) :
    code enc v = cborHead v.major (v.argument enc) ++ v.body enc := by
  cases v with
  | null => simp [code, major, argument, body]
  | bool b => simp [code, major, argument, body]
  | int n =>
    simp only [code, major, argument, body]
    split_ifs <;> simp
  | text t => simp [code, major, argument, body, textCode]
  | bytes b => simp [code, major, argument, body]
  | array vs => simp [code, major, argument, body, List.flatMap_def]
  | map es =>
    rw [code, major, argument, body, entryCodes_eq_map,
      ← map_lengthFirstSort (fun e => textCode enc e.1) Prod.fst _ (fun _ => rfl), List.flatMap_map]
    rfl
  | set vs =>
    rw [code, major, argument, body, codes_eq_map,
      ← map_lengthFirstSort (code enc) id _ (fun _ => rfl), ← List.flatMap_def]

/-! ## Accepted values -/

/-- The lengths that stand in the code of a value are numbers of 64 bits. -/
def LocallySized : CanonicalValue τ → Prop
  | text t => (enc t).length < 2 ^ 64
  | bytes b => b.length < 2 ^ 64
  | array vs => vs.length < 2 ^ 64
  | map es => es.length < 2 ^ 64 ∧ ∀ e ∈ es, (enc e.1).length < 2 ^ 64
  | set vs => vs.length < 2 ^ 64
  | _ => True

/-- All lengths are numbers of 64 bits, as `std::size_t` is. -/
def Sized : CanonicalValue τ → Prop := All (LocallySized enc)

/-- The keys of a map are all different. -/
def LocallyDistinctKeys : CanonicalValue τ → Prop
  | map es => (es.map Prod.fst).Nodup
  | _ => True

/-- The keys of every map are all different. -/
def DistinctKeys : CanonicalValue τ → Prop := All LocallyDistinctKeys

variable (ok : τ → Prop)

/-- The texts of a value are valid, its keys are different and so are the codes of its elements. -/
def LocallyAccepted : CanonicalValue τ → Prop
  | text t => ok t
  | map es => (∀ e ∈ es, ok e.1) ∧ (es.map Prod.fst).Nodup
  | set vs => (vs.map (code enc)).Nodup
  | _ => True

/-- The values that have a code. -/
def Accepted : CanonicalValue τ → Prop := All (LocallyAccepted enc ok)

/-! ## Reading the code back -/

section Injectivity

variable {enc : τ → List Byte} {ok : τ → Prop}

/-- A text is told apart from whatever follows its code. -/
lemma textCode_append_inj (henc : Function.Injective enc) {a b : τ} {s t : List Byte}
    (ha : (enc a).length < 2 ^ 64) (hb : (enc b).length < 2 ^ 64)
    (h : textCode enc a ++ s = textCode enc b ++ t) : a = b ∧ s = t := by
  rw [textCode, textCode, List.append_assoc, List.append_assoc] at h
  obtain ⟨-, hlength, hrest⟩ := cborHead_append_inj (by omega) (by omega) ha hb h
  obtain ⟨htext, hrest⟩ := List.append_inj hrest hlength
  exact ⟨henc htext, hrest⟩

/-- The code of a text determines the text. -/
lemma textCode_inj (henc : Function.Injective enc) {a b : τ}
    (ha : (enc a).length < 2 ^ 64) (hb : (enc b).length < 2 ^ 64)
    (h : textCode enc a = textCode enc b) : a = b :=
  (textCode_append_inj henc ha hb (congrArg (· ++ []) h)).1

/-- The argument of a head is a number of 64 bits. -/
lemma argument_lt {v : CanonicalValue τ} (h : v.Sized enc) : v.argument enc < 2 ^ 64 := by
  have hhere := h.here
  cases v with
  | null => simp [argument]
  | bool b => cases b <;> simp [argument]
  | int n =>
    obtain ⟨n, hn⟩ := n
    unfold IsInt64 int64Min int64Max at hn
    simp only [argument]
    split_ifs <;> omega
  | text t => exact hhere
  | bytes b => exact hhere
  | array vs => exact hhere
  | map es => exact hhere.1
  | set vs => simp [argument]

/-- A major type has three bits. -/
lemma major_lt (v : CanonicalValue τ) : v.major < 8 := by
  cases v <;> simp only [major] <;> first | omega | (split_ifs <;> omega)

/-- An integer has one of the first two major types. -/
lemma major_int_le (n : {n : ℤ // IsInt64 n}) : (int n : CanonicalValue τ).major ≤ 1 := by
  simp only [major]
  split_ifs <;> omega

/-- Lists that are related one by one have equal images. -/
lemma map_eq_of_forall₂ {α β γ : Type*} {R : α → β → Prop} {f : α → γ} {g : β → γ} {xs : List α}
    {ys : List β} (h : List.Forall₂ R xs ys) (hR : ∀ x ∈ xs, ∀ y, R x y → f x = g y) :
    xs.map f = ys.map g := by
  induction h with
  | nil => rfl
  | cons hxy _ ih =>
    rw [List.map_cons, List.map_cons, hR _ (by simp) _ hxy,
      ih fun x hx y hxy => hR x (by simp [hx]) y hxy]

/-- **Equal values have equal codes.**

**Proof sketch.** By induction on the value.  The entries of a map are sorted by the codes of
their keys, which are different, and the elements of a set by all of their bytes; so another order
of the entries or the elements is sorted into the same list. -/
theorem code_eq_of_equiv (henc : Function.Injective enc) (v : CanonicalValue τ) :
    ∀ w, v.Accepted enc ok → v.Sized enc → Equiv v w → code enc v = code enc w := by
  induction v using CanonicalValue.induction with
  | step v ih =>
    intro w hacc hsized h
    have hchild : ∀ c ∈ v.children, ∀ w, Equiv c w → code enc c = code enc w :=
      fun c hc w => ih c hc w (hacc.inside c hc) (hsized.inside c hc)
    cases v with
    | null => rw [Equiv] at h; rw [h]
    | bool b => rw [Equiv] at h; rw [h]
    | int n => rw [Equiv] at h; rw [h]
    | text t => rw [Equiv] at h; rw [h]
    | bytes b => rw [Equiv] at h; rw [h]
    | array vs =>
      rw [Equiv] at h
      obtain ⟨ws, rfl, hitems⟩ := h
      rw [equivItems_iff] at hitems
      rw [code, code, codes_eq_map, codes_eq_map, map_eq_of_forall₂ hitems hchild,
        hitems.length_eq]
    | map es =>
      rw [Equiv] at h
      obtain ⟨fs, fs', rfl, hperm, hentries⟩ := h
      rw [equivEntries_iff] at hentries
      have hcodes : entryCodes enc es = entryCodes enc fs' := by
        rw [entryCodes_eq_map, entryCodes_eq_map]
        refine map_eq_of_forall₂ hentries fun e he f hef => ?_
        rw [hef.1, hchild e.2 (List.mem_map_of_mem he) f.2 hef.2]
      have hkeys : ∀ a ∈ entryCodes enc es, ∀ b ∈ entryCodes enc es, a.1 = b.1 → a = b := by
        rw [entryCodes_eq_map]
        intro a ha b hb hab
        obtain ⟨e, he, rfl⟩ := List.mem_map.mp ha
        obtain ⟨f, hf, rfl⟩ := List.mem_map.mp hb
        have hkey := textCode_inj henc (hsized.here.2 e he) (hsized.here.2 f hf) hab
        rw [List.inj_on_of_nodup_map hacc.here.2 he hf hkey]
      have hsort : lengthFirstSort Prod.fst (entryCodes enc es) =
          lengthFirstSort Prod.fst (entryCodes enc fs) := by
        refine lengthFirstSort_eq_of_perm _ ?_ hkeys
        rw [hcodes, entryCodes_eq_map, entryCodes_eq_map]
        exact hperm.map _
      rw [code, code, hsort, hentries.length_eq, hperm.length_eq]
    | set vs =>
      rw [Equiv] at h
      obtain ⟨ws, ws', rfl, hperm, hitems⟩ := h
      rw [equivItems_iff] at hitems
      have hsort : lengthFirstSort id (codes enc vs) = lengthFirstSort id (codes enc ws) := by
        refine lengthFirstSort_eq_of_perm _ ?_ fun a _ b _ hab => hab
        rw [codes_eq_map, codes_eq_map, map_eq_of_forall₂ hitems hchild]
        exact hperm.map _
      rw [code, code, hsort, hitems.length_eq, hperm.length_eq]

/-- Lists that are related after both have been permuted are related after permuting one. -/
lemma forall₂_of_perm {α : Type*} {R : α → α → Prop} {xs xs' ys ys' : List α}
    (hxs : xs'.Perm xs) (hys : ys'.Perm ys) (h : List.Forall₂ R xs' ys') :
    ∃ zs, zs.Perm ys ∧ List.Forall₂ R xs zs := by
  obtain ⟨zs, hR, hperm⟩ := List.perm_comp_forall₂ hxs.symm h
  exact ⟨zs, hperm.trans hys, hR⟩

/-- **Codes that agree as far as they go belong to equal values.**

**Proof sketch.** By induction on the first value.  The heads agree, so both values are of one
kind and have as many items.  The codes of the items are told apart from what follows them, by the
hypothesis; in a map and in a set this relates the sorted entries and elements one by one. -/
theorem equiv_of_code_append (henc : Function.Injective enc) (v : CanonicalValue τ) :
    ∀ w s t, v.Accepted enc ok → w.Accepted enc ok → v.Sized enc → w.Sized enc →
      code enc v ++ s = code enc w ++ t → Equiv v w := by
  induction v using CanonicalValue.induction with
  | step v ih =>
    intro w s t hv hw hsv hsw h
    rw [code_eq, code_eq, List.append_assoc, List.append_assoc] at h
    obtain ⟨hmajor, hargument, hbody⟩ :=
      cborHead_append_inj v.major_lt w.major_lt (argument_lt hsv) (argument_lt hsw) h
    -- an item is told apart from what follows it
    have hitem : ∀ c ∈ v.children, ∀ d ∈ w.children, ∀ s t,
        code enc c ++ s = code enc d ++ t → Equiv c d ∧ code enc c = code enc d := by
      intro c hc d hd s t hcd
      have hequiv := ih c hc d s t (hv.inside c hc) (hw.inside d hd) (hsv.inside c hc)
        (hsw.inside d hd) hcd
      exact ⟨hequiv, code_eq_of_equiv henc c d (hv.inside c hc) (hsv.inside c hc) hequiv⟩
    cases v with
    | null =>
      cases w with
      | null => rfl
      | bool b => cases b <;> simp [argument] at hargument
      | int n => exact absurd (hmajor.le.trans (major_int_le n)) (by simp [major])
      | _ => simp [major] at hmajor
    | bool a =>
      cases w with
      | bool b => cases a <;> cases b <;> simp [argument, Equiv] at hargument ⊢
      | null => cases a <;> simp [argument] at hargument
      | int n => exact absurd (hmajor.le.trans (major_int_le n)) (by simp [major])
      | _ => simp [major] at hmajor
    | int a =>
      cases w with
      | int b =>
        rw [Equiv]
        congr 1
        apply Subtype.ext
        simp only [major, argument] at hmajor hargument
        split_ifs at hmajor hargument <;> omega
      | _ => exact absurd (hmajor.symm.le.trans (major_int_le a)) (by simp [major])
    | text a =>
      cases w with
      | text b => rw [Equiv, henc (List.append_inj hbody hargument).1]
      | int n => exact absurd (hmajor.le.trans (major_int_le n)) (by simp [major])
      | _ => simp [major] at hmajor
    | bytes a =>
      cases w with
      | bytes b =>
        obtain rfl : a = b := (List.append_inj hbody hargument).1
        rw [Equiv]
      | int n => exact absurd (hmajor.le.trans (major_int_le n)) (by simp [major])
      | _ => simp [major] at hmajor
    | array vs =>
      cases w with
      | array ws =>
        obtain ⟨hitems, -⟩ := forall₂_of_flatMap_append hargument hitem hbody
        rw [Equiv]
        exact ⟨ws, rfl, equivItems_iff.mpr hitems⟩
      | int n => exact absurd (hmajor.le.trans (major_int_le n)) (by simp [major])
      | _ => simp [major] at hmajor
    | map es =>
      cases w with
      | map fs =>
        have hes := lengthFirstSort_perm (fun e => textCode enc e.1) es
        have hfs := lengthFirstSort_perm (fun e => textCode enc e.1) fs
        have hlength := hes.length_eq.trans (hargument.trans hfs.length_eq.symm)
        obtain ⟨hentries, -⟩ := forall₂_of_flatMap_append
          (R := fun e f => e.1 = f.1 ∧ Equiv e.2 f.2) hlength (fun e he f hf s t hef => by
            rw [entryCode, entryCode, List.append_assoc, List.append_assoc] at hef
            rw [hes.mem_iff] at he
            rw [hfs.mem_iff] at hf
            obtain ⟨hkey, hrest⟩ := textCode_append_inj henc (hsv.here.2 e he)
              (hsw.here.2 f hf) hef
            obtain ⟨hequiv, hcode⟩ := hitem e.2 (List.mem_map_of_mem he) f.2
              (List.mem_map_of_mem hf) _ _ hrest
            exact ⟨⟨hkey, hequiv⟩, by rw [entryCode, entryCode, hkey, hcode]⟩) hbody
        obtain ⟨fs', hperm, hentries⟩ := forall₂_of_perm hes hfs hentries
        rw [Equiv]
        exact ⟨fs, fs', rfl, hperm, equivEntries_iff.mpr hentries⟩
      | int n => exact absurd (hmajor.le.trans (major_int_le n)) (by simp [major])
      | _ => simp [major] at hmajor
    | set vs =>
      cases w with
      | set ws =>
        have hvs := lengthFirstSort_perm (code enc) vs
        have hws := lengthFirstSort_perm (code enc) ws
        rw [body, body, List.append_assoc, List.append_assoc] at hbody
        obtain ⟨-, hcount, hbody⟩ :=
          cborHead_append_inj (by omega) (by omega) hsv.here hsw.here hbody
        have hlength := hvs.length_eq.trans (hcount.trans hws.length_eq.symm)
        obtain ⟨hitems, -⟩ := forall₂_of_flatMap_append hlength (fun c hc d hd =>
          hitem c (hvs.mem_iff.mp hc) d (hws.mem_iff.mp hd)) hbody
        obtain ⟨ws', hperm, hitems⟩ := forall₂_of_perm hvs hws hitems
        rw [Equiv]
        exact ⟨ws, ws', rfl, hperm, equivItems_iff.mpr hitems⟩
      | int n => exact absurd (hmajor.le.trans (major_int_le n)) (by simp [major])
      | _ => simp [major] at hmajor

/-- **The code of an accepted value determines it**, up to the order of map entries and of set
elements. -/
theorem code_eq_iff (henc : Function.Injective enc) {v w : CanonicalValue τ}
    (hv : v.Accepted enc ok) (hw : w.Accepted enc ok) (hsv : v.Sized enc) (hsw : w.Sized enc) :
    code enc v = code enc w ↔ Equiv v w :=
  ⟨fun h => equiv_of_code_append henc v w [] [] hv hw hsv hsw (congrArg (· ++ []) h),
    code_eq_of_equiv henc v w hv hsv⟩

/-- No code of an accepted value begins another one. -/
lemma code_eq_of_begins (henc : Function.Injective enc) {v w : CanonicalValue τ}
    (hv : v.Accepted enc ok) (hw : w.Accepted enc ok) (hsv : v.Sized enc) (hsw : w.Sized enc)
    (h : code enc v <+: code enc w) : code enc v = code enc w := by
  obtain ⟨rest, hrest⟩ := h
  refine code_eq_of_equiv henc v w hv hsv ?_
  exact equiv_of_code_append henc v w rest [] hv hw hsv hsw (by rw [hrest, List.append_nil])

end Injectivity

end CanonicalValue

end Pops
