import Pops.Foundation.Limbs
import Pops.Mesh.Index.Box

/-!
# Exact cell counts

`pops::mesh::ExactCellCount`, the portable unsigned four-limb count behind every coverage test.
Three full signed-index axes need 97 of its 128 bits, so on boxes with `int` bounds the count of
a single box never overflows, and neither does the total of disjoint boxes.

## Main definitions

* `Pops.ExactCellCount` — four 32-bit limbs; `fromBox`, `add`, `multiply` as in the source.
* `Pops.ExactCellCount.sumBoxes` — the accumulation loop over a list of boxes.

## Main results

* `Pops.ExactCellCount.fromBox_eq_ok` — the count of a box is its number of cells.
* `Pops.ExactCellCount.sumBoxes_eq_ok` — the accumulated count is the summed number of cells.
* `Pops.ExactCellCount.sumBoxes_returns` — counting disjoint boxes never overflows.
-/

namespace Pops

/-- The limb base `2³²`. -/
def limbBase : ℕ := 4294967296

/-- The limb base is positive. -/
lemma limbBase_pos : 0 < limbBase := by decide

/-- Portable unsigned four-limb count. -/
abbrev ExactCellCount := Limbs.Number limbBase 4

namespace ExactCellCount

variable {d : ℕ}

/-- The count zero. -/
def zero : ExactCellCount := ⟨[0, 0, 0, 0], rfl, by decide⟩

/-- The count of a 64-bit value. -/
def fromUint64 (value : ℕ) : ExactCellCount :=
  ⟨[value % limbBase, value / limbBase % limbBase, 0, 0], rfl, by
    have h1 := Nat.mod_lt value limbBase_pos
    have h2 := Nat.mod_lt (value / limbBase) limbBase_pos
    simp [h1, h2, limbBase_pos]⟩

/-- In-place sum; the flag is `false` when the sum leaves the four limbs. -/
def add (count other : ExactCellCount) : ExactCellCount × Bool :=
  let sum := Limbs.Number.add limbBase_pos count other
  (sum.1, sum.2 == 0)

/-- The statement `if (!count.add(other)) throw e;`. -/
def addChecked (count other : ExactCellCount) (e : Exception) : Throws ExactCellCount := do
  let sum := add count other
  throwIf (sum.2 = false) e
  pure sum.1

/-- Add one word at a limb offset, propagating the carry. -/
def addWord (count : ExactCellCount) (offset word : ℕ) : Throws ExactCellCount :=
  match Limbs.Number.addWord limbBase_pos count offset word with
  | some r => pure r
  | none => throw (overflowError "ExactCellCount exceeds four limbs")

/-- Add the product of two limbs at a limb offset. -/
def addProduct (count : ExactCellCount) (offset left right : ℕ) : Throws ExactCellCount := do
  let product := left * right
  let count ← addWord count offset (product % limbBase)
  addWord count (offset + 1) (product / limbBase)

/-- The statement `if (right != 0) count.add_product_(offset, left, right);`. -/
def addProductIf (count : ExactCellCount) (offset left right : ℕ) : Throws ExactCellCount :=
  if right ≠ 0 then addProduct count offset left right else pure count

/-- The loop of `multiply_` over the remaining limbs, the first of which sits at `limb`. -/
def multiplyLoop (low high : ℕ) : List ℕ → (limb : ℕ) → ExactCellCount → Throws ExactCellCount
  | [], _, result => pure result
  | l :: rest, limb, result => do
    let result ← addProductIf result limb l low
    let result ← addProductIf result (limb + 1) l high
    multiplyLoop low high rest (limb + 1) result

/-- Multiply by a 64-bit factor. -/
def multiply (count : ExactCellCount) (factor : ℕ) : Throws ExactCellCount :=
  multiplyLoop (factor % limbBase) (factor / limbBase) count.limbs 0 zero

/-- The number of cells of a box. -/
def fromBox (box : Box d) : Throws ExactCellCount :=
  if box.Empty then pure zero
  else (List.finRange d).foldlM (fun result axis => multiply result (box.length axis).toNat)
    (fromUint64 1)

/-- The accumulation loop `for (box : boxes) if (!total.add(from_box(box))) throw e;`. -/
def sumBoxes (boxes : List (Box d)) (e : Exception) : Throws ExactCellCount :=
  boxes.foldlM (fun total box => do
    let count ← fromBox box
    addChecked total count e) zero

/-! ## Exactness of the operations -/

/-- The count zero stands for zero. -/
@[simp] lemma toNat_zero : zero.toNat = 0 := by decide

/-- The count of one word one stands for one. -/
@[simp] lemma toNat_one : (fromUint64 1).toNat = 1 := by decide

/-- A checked sum is the exact sum. -/
@[simp] lemma addChecked_eq_ok {count other r : ExactCellCount} {e : Exception} :
    addChecked count other e = .ok r ↔ r.toNat = count.toNat + other.toNat := by
  have hsum := Limbs.Number.toNat_add limbBase_pos count other
  have hiff := Limbs.Number.add_carry_eq_zero_iff limbBase_pos count other
  simp only [addChecked, add, bind_eq_ok, throwIf_eq_ok, pure_eq_ok, beq_eq_false_iff_ne, ne_eq,
    not_not]
  constructor
  · rintro ⟨_, hcarry, rfl⟩
    rw [hcarry, Nat.mul_zero, Nat.add_zero] at hsum
    exact hsum
  · intro h
    have hcarry := hiff.mpr (h ▸ r.toNat_lt)
    rw [hcarry, Nat.mul_zero, Nat.add_zero] at hsum
    exact ⟨(), hcarry, Limbs.Number.toNat_injective (hsum.trans h.symm)⟩

/-- Adding a word is exact. -/
@[simp] lemma addWord_eq_ok {count r : ExactCellCount} {offset word : ℕ} :
    addWord count offset word = .ok r ↔ r.toNat = count.toNat + word * limbBase ^ offset := by
  rw [← Limbs.Number.addWord_eq_some_iff limbBase_pos]
  unfold addWord
  cases Limbs.Number.addWord limbBase_pos count offset word with
  | none => simp
  | some x => simp

/-- A count between zero and a stored count is stored by some count: the intermediate value
after an exact addition exists. -/
lemma exists_add_iff {r : ExactCellCount} {x y : ℕ} :
    (∃ mid : ExactCellCount, mid.toNat = x ∧ r.toNat = mid.toNat + y) ↔ r.toNat = x + y := by
  constructor
  · rintro ⟨mid, rfl, h⟩
    exact h
  · intro h
    obtain ⟨mid, hmid⟩ := Limbs.Number.exists_toNat (B := limbBase) (n := 4) (v := x)
      (by have := r.toNat_lt; omega)
    exact ⟨mid, hmid, by rw [hmid, h]⟩

/-- Adding a product of two limbs is exact. -/
@[simp] lemma addProduct_eq_ok {count r : ExactCellCount} {offset left right : ℕ} :
    addProduct count offset left right = .ok r ↔
      r.toNat = count.toNat + left * right * limbBase ^ offset := by
  have hdiv := Nat.mod_add_div (left * right) limbBase
  have hsplit : count.toNat + left * right * limbBase ^ offset =
      count.toNat + left * right % limbBase * limbBase ^ offset +
        left * right / limbBase * limbBase ^ (offset + 1) := by
    rw [Nat.add_assoc, pow_succ', ← Nat.mul_assoc, Nat.mul_comm _ limbBase, ← Nat.add_mul, hdiv]
  simp only [addProduct, bind_eq_ok, addWord_eq_ok]
  rw [hsplit]
  exact exists_add_iff

/-- A guarded product of zero adds nothing. -/
lemma addProductIf_eq_ok {count r : ExactCellCount} {offset left right : ℕ} :
    addProductIf count offset left right = .ok r ↔
      r.toNat = count.toNat + left * right * limbBase ^ offset := by
  unfold addProductIf
  by_cases h : right = 0
  · simp only [h, ne_eq, not_true_eq_false, if_false, pure_eq_ok, Nat.mul_zero, Nat.zero_mul,
      Nat.add_zero]
    exact ⟨fun e => by rw [e], fun e => Limbs.Number.toNat_injective e.symm⟩
  · simp only [ne_eq, h, not_false_eq_true, if_true, addProduct_eq_ok]

/-- The multiplication loop adds the exact product of the remaining limbs.

**Proof sketch.** Induction on the limbs.  One round adds `l · low` at the limb's own offset and
`l · high` one limb higher, together `l · (low + 2³² · high)` at the limb's offset. -/
theorem multiplyLoop_eq_ok {low high : ℕ} {ls : List ℕ} {limb : ℕ} {result r : ExactCellCount} :
    multiplyLoop low high ls limb result = .ok r ↔
      r.toNat = result.toNat +
        Limbs.value limbBase ls * (low + limbBase * high) * limbBase ^ limb := by
  induction ls generalizing limb result with
  | nil =>
    simp only [multiplyLoop, pure_eq_ok, Limbs.value_nil, Nat.zero_mul, Nat.add_zero]
    exact ⟨fun e => by rw [e], fun e => Limbs.Number.toNat_injective e.symm⟩
  | cons l ls ih =>
    have hsplit : result.toNat +
        Limbs.value limbBase (l :: ls) * (low + limbBase * high) * limbBase ^ limb =
        (result.toNat + l * low * limbBase ^ limb + l * high * limbBase ^ (limb + 1)) +
          Limbs.value limbBase ls * (low + limbBase * high) * limbBase ^ (limb + 1) := by
      rw [Limbs.value_cons]
      ring
    rw [hsplit, ← exists_add_iff]
    simp only [multiplyLoop, bind_eq_ok, addProductIf_eq_ok, ih]
    constructor
    · rintro ⟨c1, h1, c2, h2, h3⟩
      exact ⟨c2, by rw [h2, h1], h3⟩
    · rintro ⟨c2, h2, h3⟩
      obtain ⟨c1, h1, h2'⟩ := exists_add_iff.mpr h2
      exact ⟨c1, h1, c2, h2', h3⟩

/-- Multiplication is exact. -/
lemma multiply_eq_ok {count r : ExactCellCount} {factor : ℕ} :
    multiply count factor = .ok r ↔ r.toNat = count.toNat * factor := by
  rw [multiply, multiplyLoop_eq_ok, Nat.mod_add_div, toNat_zero, pow_zero, Nat.mul_one,
    Nat.zero_add]
  rfl

/-- The product loop over positive factors is exact. -/
lemma foldlM_multiply_eq_ok {ι : Type} {f : ι → ℕ} {l : List ι} (hf : ∀ a ∈ l, 0 < f a)
    {count r : ExactCellCount} :
    l.foldlM (fun result a => multiply result (f a)) count = .ok r ↔
      r.toNat = count.toNat * (l.map f).prod := by
  induction l generalizing count with
  | nil =>
    simp only [List.foldlM_nil, pure_eq_ok, List.map_nil, List.prod_nil, Nat.mul_one]
    exact ⟨fun e => by rw [e], fun e => Limbs.Number.toNat_injective e.symm⟩
  | cons a l ih =>
    have hl : ∀ b ∈ l, 0 < f b := fun b hb => hf b (by simp [hb])
    simp only [List.foldlM_cons, bind_eq_ok, multiply_eq_ok, ih hl, List.map_cons, List.prod_cons]
    constructor
    · rintro ⟨c, hc, h⟩
      rw [h, hc, Nat.mul_assoc]
    · intro h
      have hpos : 0 < (l.map f).prod := List.prod_pos fun x hx => by
        obtain ⟨b, hb, rfl⟩ := List.mem_map.mp hx
        exact hl b hb
      obtain ⟨c, hc⟩ := Limbs.Number.exists_toNat (B := limbBase) (n := 4)
        (v := count.toNat * f a) (by
          have hr := r.toNat_lt
          have hle := Nat.le_mul_of_pos_right (count.toNat * f a) hpos
          rw [Nat.mul_assoc, ← h] at hle
          omega)
      exact ⟨c, hc, by rw [hc, h, Nat.mul_assoc]⟩

/-- The count of a box is its number of cells. -/
theorem fromBox_eq_ok {b : Box d} {r : ExactCellCount} :
    fromBox b = .ok r ↔ r.toNat = b.cells.card := by
  unfold fromBox
  split_ifs with he
  · rw [Box.empty_iff_cells.mp he, pure_eq_ok, Finset.card_empty]
    exact ⟨fun e => by rw [← e, toNat_zero],
      fun e => Limbs.Number.toNat_injective (by rw [toNat_zero, e])⟩
  · rw [foldlM_multiply_eq_ok fun a _ => by have := Box.length_pos he a; omega, toNat_one,
      Nat.one_mul, Box.card_cells_toNat he, ← List.ofFn_eq_map, List.prod_ofFn]

/-- Counts that fit four limbs are returned. -/
lemma fromBox_returns {b : Box d} (h : b.cells.card < limbBase ^ 4) : Returns (fromBox b) := by
  obtain ⟨c, hc⟩ := Limbs.Number.exists_toNat h
  exact ⟨c, fromBox_eq_ok.mpr hc⟩

/-- The accumulated count is the summed number of cells. -/
theorem sumBoxes_eq_ok {boxes : List (Box d)} {e : Exception} {r : ExactCellCount} :
    sumBoxes boxes e = .ok r ↔ r.toNat = (boxes.map fun b => b.cells.card).sum := by
  have hgen : ∀ (l : List (Box d)) (total r : ExactCellCount),
      l.foldlM (fun total box => do
        let count ← fromBox box
        addChecked total count e) total = .ok r ↔
        r.toNat = total.toNat + (l.map fun b => b.cells.card).sum := by
    intro l
    induction l with
    | nil =>
      intro total r
      simp only [List.foldlM_nil, pure_eq_ok, List.map_nil, List.sum_nil, Nat.add_zero]
      exact ⟨fun e => by rw [e], fun e => Limbs.Number.toNat_injective e.symm⟩
    | cons b l ih =>
      intro total r
      simp only [List.foldlM_cons, bind_eq_ok, fromBox_eq_ok, addChecked_eq_ok, ih, List.map_cons,
        List.sum_cons]
      constructor
      · rintro ⟨mid, ⟨count, hcount, hmid⟩, h⟩
        rw [h, hmid, hcount, Nat.add_assoc]
      · intro h
        obtain ⟨mid, hmid, hr⟩ := exists_add_iff.mpr (h.trans (Nat.add_assoc _ _ _).symm)
        obtain ⟨count, hcount⟩ := Limbs.Number.exists_toNat (B := limbBase) (n := 4)
          (v := b.cells.card) (by have := r.toNat_lt; omega)
        exact ⟨mid, ⟨count, hcount, by rw [hmid, hcount]⟩, hr⟩
  rw [sumBoxes, hgen, toNat_zero, Nat.zero_add]

/-- A total that fits four limbs is returned. -/
theorem sumBoxes_returns {boxes : List (Box d)} {e : Exception}
    (h : (boxes.map fun b => b.cells.card).sum < limbBase ^ 4) : Returns (sumBoxes boxes e) := by
  obtain ⟨c, hc⟩ := Limbs.Number.exists_toNat h
  exact ⟨c, sumBoxes_eq_ok.mpr hc⟩

end ExactCellCount

end Pops
