import Mathlib

/-!
# Tilings of an interval

A list of intervals tiles `[a, b]` when the first one starts at `a`, each one is non-empty and ends
where the next one starts, and the last one ends at `b`.  The intervals are values of any type with
a lower and an upper end.

## Main definitions

* `Pops.Tiles` — a list of intervals tiles an interval.

## Main results

* `Pops.Tiles.append`, `flatMap` — tilings are joined end to end, and tiling every tile tiles the
  whole.
* `Pops.Tiles.split` — a tile separates the tiles before it from the tiles after it.
* `Pops.flatMap_eq_append_cons` — the position of an element in a concatenation of lists.
-/

universe u v

namespace Pops

/-- The list tiles the interval from `a` to `b`, from left to right. -/
inductive Tiles {ι : Type u} {α : Type v} [LT α] (lo hi : ι → α) : α → α → List ι → Prop
  | nil (a : α) : Tiles lo hi a a []
  | cons {b : α} {l : List ι} (i : ι) (h : lo i < hi i) (hl : Tiles lo hi (hi i) b l) :
      Tiles lo hi (lo i) b (i :: l)

namespace Tiles

variable {ι κ : Type u} {α : Type v}

section Order

variable [Preorder α] {lo hi : ι → α} {a b c : α} {l l' : List ι}

/-- One non-empty interval tiles itself. -/
lemma singleton {i : ι} (h : lo i < hi i) : Tiles lo hi (lo i) (hi i) [i] :=
  .cons i h (.nil _)

/-- A tiled interval has its ends in order. -/
lemma le (h : Tiles lo hi a b l) : a ≤ b := by
  induction h with
  | nil a => exact le_refl a
  | cons i hi _ ih => exact hi.le.trans ih

/-- Two tilings that meet are joined to one. -/
theorem append (h : Tiles lo hi a b l) (h' : Tiles lo hi b c l') : Tiles lo hi a c (l ++ l') := by
  induction h with
  | nil a => exact h'
  | cons i hi _ ih => exact .cons i hi (ih h')

/-- The tilings of two consecutive parts of a list. -/
lemma of_append : ∀ {l : List ι} {a : α}, Tiles lo hi a c (l ++ l') →
    ∃ b, Tiles lo hi a b l ∧ Tiles lo hi b c l' := by
  intro l
  induction l with
  | nil =>
    intro a h
    exact ⟨a, .nil a, h⟩
  | cons i l ih =>
    intro a h
    cases h with
    | cons _ hi h =>
      obtain ⟨b, hl, hl'⟩ := ih h
      exact ⟨b, .cons i hi hl, hl'⟩

/-- Every tile is non-empty and lies between the ends. -/
lemma mem {i : ι} (h : Tiles lo hi a b l) (hmem : i ∈ l) : a ≤ lo i ∧ lo i < hi i ∧ hi i ≤ b := by
  induction h with
  | nil a => simp at hmem
  | cons j hj hl ih =>
    rcases List.mem_cons.mp hmem with rfl | hmem
    · exact ⟨le_refl _, hj, hl.le⟩
    · obtain ⟨h1, h2, h3⟩ := ih hmem
      exact ⟨hj.le.trans h1, h2, h3⟩

/-- **A tile separates the others**: the tiles before it end where it starts or earlier, and the
tiles after it start where it ends or later. -/
theorem split {i : ι} (h : Tiles lo hi a b (l ++ i :: l')) :
    (∀ j ∈ l, hi j ≤ lo i) ∧ ∀ j ∈ l', hi i ≤ lo j := by
  obtain ⟨m, hl, hr⟩ := h.of_append
  cases hr with
  | cons _ hi hr => exact ⟨fun j hj => (hl.mem hj).2.2, fun j hj => (hr.mem hj).1⟩

end Order

/-- **Tilings compose**: when every tile is tiled in turn, the concatenation tiles the whole. -/
theorem flatMap [Preorder α] {lo hi : ι → α} {lo' hi' : κ → α} {a b : α} {l : List ι}
    {f : ι → List κ} (h : Tiles lo hi a b l)
    (hf : ∀ i ∈ l, Tiles lo' hi' (lo i) (hi i) (f i)) : Tiles lo' hi' a b (l.flatMap f) := by
  induction h with
  | nil a => exact .nil a
  | cons i hi _ ih =>
    rw [List.flatMap_cons]
    exact (hf i (by simp)).append (ih fun j hj => hf j (by simp [hj]))

/-- Tilings are transported along a map of the intervals. -/
lemma map_iff [LT α] {lo hi : ι → α} {f : κ → ι} {a b : α} {l : List κ} :
    Tiles lo hi a b (l.map f) ↔ Tiles (lo ∘ f) (hi ∘ f) a b l := by
  induction l generalizing a with
  | nil =>
    refine ⟨fun h => ?_, fun h => ?_⟩
    · cases h with
      | nil => exact .nil _
    · cases h with
      | nil => exact .nil _
  | cons i l ih =>
    refine ⟨fun h => ?_, fun h => ?_⟩
    · cases h with
      | cons _ hi h => exact .cons i hi (ih.mp h)
    · cases h with
      | cons _ hi h => exact .cons (f i) hi (ih.mpr h)

end Tiles

/-- An element of a concatenation stands in the part of one entry; the parts of the other entries
come before and after it. -/
theorem flatMap_eq_append_cons {α : Type u} {β : Type v} {f : α → List β} {x : β} :
    ∀ {l : List α} {before after : List β}, l.flatMap f = before ++ x :: after →
      ∃ l₁ a l₂ left right, l = l₁ ++ a :: l₂ ∧ f a = left ++ x :: right ∧
        before = l₁.flatMap f ++ left ∧ after = right ++ l₂.flatMap f := by
  intro l
  induction l with
  | nil =>
    intro before after h
    simp at h
  | cons a l ih =>
    intro before after h
    rw [List.flatMap_cons, List.append_eq_append_iff] at h
    rcases h with ⟨middle, hbefore, hrest⟩ | ⟨middle, hfa, hrest⟩
    · obtain ⟨l₁, c, l₂, left, right, rfl, hfc, hmiddle, hafter⟩ := ih hrest
      exact ⟨a :: l₁, c, l₂, left, right, rfl, hfc, by simp [hbefore, hmiddle], hafter⟩
    · cases middle with
      | nil =>
        have hrest' : l.flatMap f = [] ++ x :: after := by simpa using hrest.symm
        obtain ⟨l₁, c, l₂, left, right, rfl, hfc, hmiddle, hafter⟩ := ih hrest'
        refine ⟨a :: l₁, c, l₂, left, right, rfl, hfc, ?_, hafter⟩
        rw [List.flatMap_cons, List.append_assoc, ← hmiddle]
        simp [hfa]
      | cons y middle =>
        obtain ⟨rfl, hafter⟩ : x = y ∧ after = middle ++ l.flatMap f := by
          simpa using hrest
        exact ⟨[], a, l, before, middle, rfl, hfa, by simp, hafter⟩

end Pops
