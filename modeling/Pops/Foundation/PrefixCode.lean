import Mathlib

/-!
# Prefix codes

A word of a prefix code is told apart from whatever follows it.  A concatenation of a known number
of such words is read in one way only.  Byte codes are built from fixed-width big-endian numbers
and from frames, which carry the length of their payload.

## Main definitions

* `Pops.bigEndian`, `ofBigEndian` — the bytes of a number, most significant first, and the number of
  bytes.
* `Pops.frame` — a kind, the length of the payload in eight bytes, and the payload.

## Main results

* `Pops.forall₂_of_flatMap_append` — a concatenation determines its words.
* `Pops.bigEndian_inj` — the bytes determine a number that fits.
* `Pops.frame_append_inj` — a frame is told apart from whatever follows it.
-/

universe u

namespace Pops

/-- A byte. -/
abbrev Byte := UInt8

section Words

variable {β : Type u}

/-- **A concatenation determines its words**, when it is known how many there are and each word is
told apart from whatever follows it. -/
theorem forall₂_of_flatMap_append {α γ : Type*} {f : α → List β} {g : γ → List β}
    {R : α → γ → Prop} : ∀ {xs : List α} {ys : List γ} {s t : List β}, xs.length = ys.length →
      (∀ x ∈ xs, ∀ y ∈ ys, ∀ s t, f x ++ s = g y ++ t → R x y ∧ f x = g y) →
      xs.flatMap f ++ s = ys.flatMap g ++ t → List.Forall₂ R xs ys ∧ s = t := by
  intro xs
  induction xs with
  | nil =>
    intro ys s t hlength _ h
    obtain rfl : ys = [] := List.length_eq_zero_iff.mp hlength.symm
    exact ⟨List.Forall₂.nil, by simpa using h⟩
  | cons x xs ih =>
    intro ys s t hlength hword h
    cases ys with
    | nil => simp at hlength
    | cons y ys =>
      rw [List.flatMap_cons, List.flatMap_cons, List.append_assoc, List.append_assoc] at h
      obtain ⟨hR, hcode⟩ := hword x (by simp) y (by simp) _ _ h
      rw [hcode] at h
      obtain ⟨htail, hrest⟩ := ih (by simpa using hlength)
        (fun x' hx' y' hy' => hword x' (by simp [hx']) y' (by simp [hy']))
        (List.append_cancel_left h)
      exact ⟨List.Forall₂.cons hR htail, hrest⟩

end Words

/-! ## Big-endian numbers -/

/-- The bytes of a number, from the most significant of `width` bytes down. -/
def bigEndian : ℕ → ℕ → List Byte
  | 0, _ => []
  | width + 1, n => UInt8.ofNat (n / 256 ^ width) :: bigEndian width n

/-- A number is written in the given width. -/
@[simp] lemma length_bigEndian (width n : ℕ) : (bigEndian width n).length = width := by
  induction width with
  | zero => rfl
  | succ width ih => simp [bigEndian, ih]

/-- The bytes do not depend on what lies above them. -/
lemma bigEndian_mod (width n : ℕ) : bigEndian width (n % 256 ^ width) = bigEndian width n := by
  have hstep : ∀ k, k ≤ width → bigEndian k (n % 256 ^ width) = bigEndian k n := by
    intro k
    induction k with
    | zero => exact fun _ => rfl
    | succ k ih =>
      intro hk
      have hpow : 256 ^ width = 256 ^ k * (256 * 256 ^ (width - (k + 1))) := by
        rw [← pow_succ', ← pow_add]
        congr 1
        omega
      rw [bigEndian, bigEndian, ih (by omega)]
      congr 1
      apply UInt8.toNat.inj
      rw [UInt8.toNat_ofNat', UInt8.toNat_ofNat', hpow, Nat.mod_mul_right_div_self]
      exact Nat.mod_mul_right_mod ..
  exact hstep width le_rfl

/-- **The bytes determine a number that fits.** -/
theorem bigEndian_inj {width : ℕ} : ∀ {n m : ℕ}, n < 256 ^ width → m < 256 ^ width →
    bigEndian width n = bigEndian width m → n = m := by
  induction width with
  | zero =>
    intro n m hn hm _
    rw [pow_zero] at hn hm
    omega
  | succ width ih =>
    intro n m hn hm h
    obtain ⟨hhead, htail⟩ := List.cons.inj h
    have hlow : n % 256 ^ width = m % 256 ^ width := by
      refine ih (Nat.mod_lt _ (by positivity)) (Nat.mod_lt _ (by positivity)) ?_
      rw [bigEndian_mod, bigEndian_mod]
      exact htail
    have hhigh : n / 256 ^ width = m / 256 ^ width := by
      have hmod := congrArg UInt8.toNat hhead
      rw [UInt8.toNat_ofNat', UInt8.toNat_ofNat'] at hmod
      rw [pow_succ] at hn hm
      rw [Nat.mod_eq_of_lt (Nat.div_lt_of_lt_mul hn), Nat.mod_eq_of_lt (Nat.div_lt_of_lt_mul hm)]
        at hmod
      exact hmod
    calc n = 256 ^ width * (n / 256 ^ width) + n % 256 ^ width := (Nat.div_add_mod ..).symm
      _ = 256 ^ width * (m / 256 ^ width) + m % 256 ^ width := by rw [hhigh, hlow]
      _ = m := Nat.div_add_mod ..

/-! ## Reading big-endian numbers -/

/-- The number that bytes stand for, most significant first. -/
def ofBigEndian (bytes : List Byte) : ℕ := bytes.foldl (fun value b => value * 256 + b.toNat) 0

/-- A further byte is the lowest one. -/
@[simp] lemma ofBigEndian_concat (bytes : List Byte) (b : Byte) :
    ofBigEndian (bytes ++ [b]) = ofBigEndian bytes * 256 + b.toNat := by
  simp [ofBigEndian]

/-- The last byte of a number is its lowest digit. -/
lemma bigEndian_succ (width n : ℕ) :
    bigEndian (width + 1) n = bigEndian width (n / 256) ++ [UInt8.ofNat n] := by
  induction width with
  | zero => simp [bigEndian]
  | succ width ih =>
    rw [bigEndian, ih, bigEndian, Nat.div_div_eq_div_mul, pow_succ, mul_comm 256]
    rfl

/-- The number of its own bytes. -/
lemma ofBigEndian_bigEndian {width : ℕ} : ∀ {n : ℕ}, n < 256 ^ width →
    ofBigEndian (bigEndian width n) = n := by
  induction width with
  | zero =>
    intro n hn
    rw [pow_zero] at hn
    simp [bigEndian, ofBigEndian]
    omega
  | succ width ih =>
    intro n hn
    have hdiv : n / 256 < 256 ^ width := Nat.div_lt_of_lt_mul (by rw [pow_succ] at hn; omega)
    rw [bigEndian_succ, ofBigEndian_concat, ih hdiv, UInt8.toNat_ofNat']
    norm_num
    omega

/-- Bytes stand for a number that fits, and are its bytes. -/
lemma bigEndian_ofBigEndian (bytes : List Byte) :
    ofBigEndian bytes < 256 ^ bytes.length ∧
      bigEndian bytes.length (ofBigEndian bytes) = bytes := by
  induction bytes using List.reverseRecOn with
  | nil => simp [ofBigEndian, bigEndian]
  | append_singleton bytes b ih =>
    have hb := b.toNat_lt
    have hdiv : (ofBigEndian bytes * 256 + b.toNat) / 256 = ofBigEndian bytes := by omega
    have hlast : UInt8.ofNat (ofBigEndian bytes * 256 + b.toNat) = b := by
      apply UInt8.toNat.inj
      rw [UInt8.toNat_ofNat']
      norm_num
    rw [ofBigEndian_concat, List.length_append, List.length_singleton, bigEndian_succ, hdiv, ih.2,
      hlast, pow_succ]
    refine ⟨?_, rfl⟩
    have := ih.1
    omega

/-- The bytes of an ASCII text. -/
def ascii (text : String) : List Byte := text.toList.map fun c => UInt8.ofNat c.toNat

/-! ## Frames -/

/-- A payload behind its kind and its length. -/
def frame (kind : Byte) (payload : List Byte) : List Byte :=
  kind :: (bigEndian 8 payload.length ++ payload)

/-- A frame has at least the nine bytes of its kind and its length. -/
lemma length_frame (kind : Byte) (payload : List Byte) :
    (frame kind payload).length = 9 + payload.length := by
  simp [frame]
  omega

/-- **A frame is told apart from whatever follows it.** -/
theorem frame_append_inj {kind kind' : Byte} {payload payload' s t : List Byte}
    (hp : payload.length < 2 ^ 64) (hp' : payload'.length < 2 ^ 64)
    (h : frame kind payload ++ s = frame kind' payload' ++ t) :
    kind = kind' ∧ payload = payload' := by
  simp only [frame, List.cons_append, List.append_assoc, List.cons.injEq] at h
  obtain ⟨hkind, h⟩ := h
  obtain ⟨hlength, hrest⟩ := List.append_inj h (by simp)
  have hlen : payload.length = payload'.length :=
    bigEndian_inj (by norm_num at hp ⊢; exact hp) (by norm_num at hp' ⊢; exact hp') hlength
  exact ⟨hkind, (List.append_inj hrest hlen).1⟩

end Pops
