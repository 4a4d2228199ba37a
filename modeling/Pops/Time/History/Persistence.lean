import Pops.Foundation.NearestEven
import Pops.Foundation.PyException
import Pops.Foundation.Spacing

/-!
# History persistence

A history persistence policy says which slots of a ring a checkpoint stores; the others are replayed
from the stored ones.  Slot `0` is the newest and the last slot the oldest.  `Dense` stores every
slot, `Interval(k)` every `k`-th one and `Revolve(snapshots)` a given number of slots, placed so
that the largest gap is as small as possible.

## Main definitions

* `Pops.History.HistoryPersistence` — the policies.
* `Pops.History.optimalPlacement` — `_optimal_placement`.
* `Pops.History.HistoryPersistence.storedSlots`, `validateFor` — what a policy stores, and the
  depths that it accepts.

## Main results

* `Pops.History.optimalPlacement_eq` — the placement is the rounded equispaced one.
* `Pops.History.optimalPlacement_optimal` — it is optimal, and no accepted policy leaves a slot
  without stored slots on both sides.
-/

namespace Pops.History

open NearestEven Spacing

/-! ## The placement -/

/-- `sorted(set(slots))`. -/
def sortedSet (slots : List ℤ) : List ℤ := slots.dedup.insertionSort (· ≤ ·)

/-- `tuple(range(n))`. -/
def rangeTuple (n : ℤ) : List ℤ := (List.range n.toNat).map fun i : ℕ => (i : ℤ)

/-- One pass of the loop over the gaps: the first of the widest ones, by its lower end and width. -/
def widest (best : ℤ × ℤ) (pair : ℤ × ℤ) : ℤ × ℤ :=
  if pair.2 - pair.1 > best.2 then (pair.1, pair.2 - pair.1) else best

/-- The body of the loop that fills gaps: split the widest gap in its middle. -/
def splitWidest (anchors : List ℤ) : List ℤ :=
  let (widestLo, widestGap) := (anchors.zip anchors.tail).foldl widest (anchors.headD 0, -1)
  let mid := widestLo + widestGap / 2
  let mid := if mid ∈ anchors ∨ mid = widestLo then widestLo + 1 else mid
  sortedSet (mid :: anchors)

/-- The loop that fills gaps, for at most `fuel` rounds. -/
def fillGaps (snapshots : ℤ) : (fuel : ℕ) → List ℤ → Option (List ℤ)
  | 0, anchors => if anchors.length < snapshots then none else some anchors
  | fuel + 1, anchors =>
    if anchors.length < snapshots then fillGaps snapshots fuel (splitWidest anchors)
    else some anchors

/-- The rounded equispaced position of anchor `i`. -/
def equispaced (depth snapshots : ℤ) (i : ℕ) : ℤ :=
  nearestEven (((i : ℚ) * (depth - 1)) / (snapshots - 1))

/-- `_optimal_placement`; `none` is a loop that did not end within the fuel. -/
def optimalPlacement (fuel : ℕ) (depth snapshots : ℤ) : Raises (Option (List ℤ)) :=
  if snapshots ≥ depth then pure (some (rangeTuple depth))
  else do
    raiseIf (snapshots < 2)
      (valueError s!"_optimal_placement requires snapshots >= 2 (got {snapshots
      }) to bound a depth-{depth} ring")
    let anchors := sortedSet ((List.range snapshots.toNat).map (equispaced depth snapshots))
    pure (fillGaps snapshots fuel anchors)

/-! ## The policies -/

/-- The policies; a stride is positive and a budget is at least two. -/
inductive HistoryPersistence
  | dense
  | interval (k : ℤ) (hk : 1 ≤ k)
  | revolve (snapshots : ℤ) (hs : 2 ≤ snapshots)

namespace HistoryPersistence

/-- The name of the class. -/
def name : HistoryPersistence → String
  | dense => "Dense"
  | interval _ _ => "Interval"
  | revolve _ _ => "Revolve"

/-- The check of a ring depth. -/
def checkDepth (policy : HistoryPersistence) (depth : ℤ) : Raises ℤ := do
  raiseIf (depth < 1) (valueError s!"{policy.name}: ring depth must be a Python int >= 1 (got {depth
    })")
  pure depth

/-- The slots that the policy stores. -/
def storedSlots (policy : HistoryPersistence) (fuel : ℕ) (depth : ℤ) :
    Raises (Option (List ℤ)) := do
  let depth ← policy.checkDepth depth
  match policy with
  | dense => pure (some (rangeTuple depth))
  | interval k _ => pure (some (sortedSet (0 :: (rangeTuple depth).filter fun s => s % k = 0)))
  | revolve snapshots _ => optimalPlacement fuel depth snapshots

/-- The check of a policy against the depth of a ring. -/
def validateFor (policy : HistoryPersistence) (depth : ℤ) : Raises ℤ := do
  let depth ← policy.checkDepth depth
  match policy with
  | dense => pure depth
  | interval k _ =>
    if depth = 1 then pure depth
    else do
      raiseIf (k ≥ depth) (valueError (s!"Interval(k={k}) invalid for ring depth {depth
        }: k >= depth stores only the newest slot " ++ "-- use Dense() to keep the whole ring"))
      raiseIf ((depth - 1) % k ≠ 0) (valueError (s!"Interval(k={k}) does not store the oldest slot {
        depth - 1} ((depth-1)={depth - 1} % k={k} != 0); the " ++
        s!"oldest lag cannot be replayed -- choose k dividing depth-1, or Dense()"))
      pure depth
  | revolve snapshots _ =>
    if depth = 1 then pure depth
    else do
      raiseIf (snapshots > depth) (valueError (s!"Revolve(snapshots={snapshots
        }) exceeds ring depth {depth}: more budget than slots -- use Dense() " ++
        "to store the whole ring"))
      pure depth

end HistoryPersistence

/-! ## Sorted sets and ranges -/

/-- The members of a sorted set. -/
@[simp] lemma mem_sortedSet {slots : List ℤ} {x : ℤ} : x ∈ sortedSet slots ↔ x ∈ slots := by
  simp [sortedSet]

/-- An increasing list is its own sorted set. -/
lemma sortedSet_eq {slots : List ℤ} (h : slots.Pairwise (· < ·)) : sortedSet slots = slots := by
  have hnodup : slots.Nodup := h.imp fun hlt => hlt.ne
  rw [sortedSet, hnodup.dedup]
  exact List.Pairwise.insertionSort_eq (h.imp le_of_lt)

/-- The members of a range. -/
@[simp] lemma mem_rangeTuple {n x : ℤ} : x ∈ rangeTuple n ↔ 0 ≤ x ∧ x < n := by
  simp only [rangeTuple, List.mem_map, List.mem_range]
  constructor
  · rintro ⟨i, hi, rfl⟩
    omega
  · rintro ⟨h0, hn⟩
    exact ⟨x.toNat, by omega, by omega⟩

/-- A range is increasing. -/
lemma pairwise_rangeTuple (n : ℤ) : (rangeTuple n).Pairwise (· < ·) := by
  rw [rangeTuple, List.pairwise_map]
  exact List.pairwise_lt_range.imp fun h => by exact_mod_cast h

/-! ## The placement is equispaced -/

section Placement

variable {depth snapshots : ℤ}

/-- The distance of neighbouring positions before rounding. -/
def stride (depth snapshots : ℤ) : ℚ := (depth - 1 : ℚ) / (snapshots - 1)

/-- The anchors are the rounded multiples of the stride. -/
lemma equispaced_eq (depth snapshots : ℤ) (i : ℕ) :
    equispaced depth snapshots i = nearestEven (i * stride depth snapshots) := by
  rw [equispaced, stride, mul_div_assoc]

/-- Neighbouring positions are more than one apart before rounding. -/
lemma one_lt_stride (hs : 2 ≤ snapshots) (hd : snapshots < depth) :
    1 < stride depth snapshots := by
  have hpos : (2 : ℚ) ≤ snapshots := by exact_mod_cast hs
  have hlt : (snapshots : ℚ) < depth := by exact_mod_cast hd
  rw [stride, one_lt_div (by linarith)]
  linarith

/-- No two of them collide. -/
lemma equispaced_strictMono (hs : 2 ≤ snapshots) (hd : snapshots < depth) :
    StrictMono (equispaced depth snapshots) := by
  refine strictMono_nat_of_lt_succ fun i => ?_
  have := one_lt_stride hs hd
  rw [equispaced_eq, equispaced_eq]
  refine lt_of_one_lt ?_
  push_cast
  linarith

/-- The first anchor is the newest slot. -/
lemma equispaced_zero (depth snapshots : ℤ) : equispaced depth snapshots 0 = 0 := by
  rw [equispaced_eq, Nat.cast_zero, zero_mul]
  exact nearestEven_intCast 0

/-- The last anchor is the oldest slot. -/
lemma equispaced_last (hs : 2 ≤ snapshots) :
    equispaced depth snapshots (snapshots.toNat - 1) = depth - 1 := by
  have hpos : (2 : ℚ) ≤ snapshots := by exact_mod_cast hs
  have hcast : ((snapshots.toNat - 1 : ℕ) : ℚ) = snapshots - 1 := by
    have : ((snapshots.toNat - 1 : ℕ) : ℤ) = snapshots - 1 := by omega
    exact_mod_cast this
  rw [equispaced_eq, hcast, stride, mul_div_cancel₀ _ (by linarith)]
  exact_mod_cast nearestEven_intCast (depth - 1)

/-- Neighbouring anchors are at most the rounded-up distance apart.  A tie is rounded twice in the
same direction only if the distance is an integer, and then there are no ties. -/
lemma equispaced_gap_le (depth snapshots : ℤ) (i : ℕ) :
    equispaced depth snapshots (i + 1) - equispaced depth snapshots i ≤
    ⌈stride depth snapshots⌉ := by
  rw [equispaced_eq, equispaced_eq]
  by_cases hinteger : stride depth snapshots ∈ Set.range (Int.cast : ℤ → ℚ)
  · obtain ⟨m, hm⟩ := hinteger
    have hi : ((i : ℚ) * m) = ((i * m : ℤ) : ℚ) := by push_cast; rfl
    have hnext : (((i + 1 : ℕ) : ℚ) * m) = (((i + 1) * m : ℤ) : ℚ) := by push_cast; rfl
    rw [← hm, hi, hnext, nearestEven_intCast, nearestEven_intCast, Int.ceil_intCast]
    linarith
  · have h := sub_le_floor (i * stride depth snapshots) ((i + 1 : ℕ) * stride depth snapshots)
    rw [(Int.ceil_eq_floor_add_one_iff_notMem _).mpr hinteger]
    rw [Nat.cast_succ, add_mul, one_mul] at h ⊢
    rwa [add_sub_cancel_left] at h

/-- **The placement** is the rounded equispaced one; the loop that fills gaps is never entered. -/
theorem optimalPlacement_eq (fuel : ℕ) (hs : 2 ≤ snapshots) (hd : snapshots < depth) :
    optimalPlacement fuel depth snapshots =
      .ok (some ((List.range snapshots.toNat).map (equispaced depth snapshots))) := by
  have hsorted : ((List.range snapshots.toNat).map (equispaced depth snapshots)).Pairwise
      (· < ·) := by
    rw [List.pairwise_map]
    exact List.pairwise_lt_range.imp fun h => equispaced_strictMono hs hd h
  have hlength : ¬ (((List.range snapshots.toNat).map (equispaced depth snapshots)).length : ℤ) <
      snapshots := by
    rw [List.length_map, List.length_range]
    omega
  rw [optimalPlacement, if_neg (by omega), raiseIf, if_neg (by omega), sortedSet_eq hsorted]
  cases fuel <;> simp only [fillGaps, if_neg hlength] <;> rfl

/-- The slots of a placement: they are distinct and in increasing order, as many as the budget or
the ring has, with both ends among them; and every gap is at most the rounded-up quotient. -/
structure Placed (depth snapshots : ℤ) (slots : List ℤ) : Prop where
  increasing : slots.Pairwise (· < ·)
  length_eq : (slots.length : ℤ) = min snapshots depth
  newest : 0 ∈ slots
  oldest : depth - 1 ∈ slots
  inside : ∀ slot ∈ slots, 0 ≤ slot ∧ slot < depth
  gap_le : ∀ gap ∈ gaps slots, gap ≤ ⌈stride depth (min snapshots depth)⌉

/-- A range with all slots. -/
lemma placed_range (hdepth : 1 ≤ depth) (hd : depth ≤ snapshots) :
    Placed depth snapshots (rangeTuple depth) where
  increasing := pairwise_rangeTuple depth
  length_eq := by
    rw [rangeTuple, List.length_map, List.length_range]
    omega
  newest := by
    rw [mem_rangeTuple]
    omega
  oldest := by
    rw [mem_rangeTuple]
    omega
  inside slot hslot := mem_rangeTuple.mp hslot
  gap_le gap hgap := by
    rw [rangeTuple, List.range_eq_range'] at hgap
    obtain ⟨i, -, hi, rfl⟩ := mem_gaps_map hgap
    have hpos : (0 : ℚ) < depth - 1 := by
      have : (1 : ℤ) < depth := by omega
      have : (1 : ℚ) < depth := by exact_mod_cast this
      linarith
    have hone : stride depth (min snapshots depth) = 1 := by
      rw [min_eq_right hd, stride, div_self hpos.ne']
    rw [hone, Int.ceil_one]
    push_cast
    omega

/-- The rounded equispaced slots. -/
lemma placed_equispaced (hs : 2 ≤ snapshots) (hd : snapshots < depth) :
    Placed depth snapshots ((List.range snapshots.toNat).map (equispaced depth snapshots)) where
  increasing := by
    rw [List.pairwise_map]
    exact List.pairwise_lt_range.imp fun h => equispaced_strictMono hs hd h
  length_eq := by
    rw [List.length_map, List.length_range]
    omega
  newest := List.mem_map.mpr ⟨0, List.mem_range.mpr (by omega), equispaced_zero depth snapshots⟩
  oldest := List.mem_map.mpr ⟨_, List.mem_range.mpr (by omega), equispaced_last hs⟩
  inside slot hslot := by
    obtain ⟨i, hi, rfl⟩ := List.mem_map.mp hslot
    have hi := List.mem_range.mp hi
    have hmono := (equispaced_strictMono hs hd).monotone
    have hfirst := hmono (Nat.zero_le i)
    have hlast := hmono (show i ≤ snapshots.toNat - 1 by omega)
    rw [equispaced_zero] at hfirst
    rw [equispaced_last hs] at hlast
    omega
  gap_le gap hgap := by
    rw [List.range_eq_range'] at hgap
    obtain ⟨i, -, -, rfl⟩ := mem_gaps_map hgap
    rw [min_eq_left hd.le]
    exact equispaced_gap_le depth snapshots i

/-- The placement returns slots. -/
lemma exists_placed (fuel : ℕ) (hdepth : 1 ≤ depth) (hs : 2 ≤ snapshots) :
    ∃ slots, optimalPlacement fuel depth snapshots = .ok (some slots) ∧
      Placed depth snapshots slots := by
  by_cases hd : snapshots < depth
  · exact ⟨_, optimalPlacement_eq fuel hs hd, placed_equispaced hs hd⟩
  · refine ⟨rangeTuple depth, ?_, placed_range hdepth (by omega)⟩
    rw [optimalPlacement, if_pos (by omega)]
    rfl

/-- No set of as many slots with both ends has a smaller largest gap: its gaps add up to the
distance of the ends. -/
lemma Placed.optimal {slots : List ℤ} (h : Placed depth snapshots slots) {other : Finset ℤ}
    (hcard : (other.card : ℤ) = min snapshots depth) (hnewest : 0 ∈ other)
    (holdest : depth - 1 ∈ other) (hinside : ∀ slot ∈ other, 0 ≤ slot ∧ slot < depth) :
    largestGap slots ≤ largestGap (other.sort (· ≤ ·)) := by
  have hspan := span_le_sort hnewest holdest fun slot hslot => (hinside slot hslot).1
  rw [sub_zero, hcard] at hspan
  have hnonneg := largestGap_nonneg (other.sort (· ≤ ·))
  refine largestGap_le hnonneg fun gap hgap => (h.gap_le gap hgap).trans ?_
  have hcount : 0 < other.card := Finset.card_pos.mpr ⟨0, hnewest⟩
  generalize min snapshots depth = count at *
  rw [Int.ceil_le, stride]
  by_cases hone : count = 1
  · rw [hone, Int.cast_one, sub_self, div_zero]
    exact_mod_cast hnonneg
  · have hpos : (0 : ℚ) < count - 1 := by
      have : (1 : ℤ) < count := by omega
      have : (1 : ℚ) < count := by exact_mod_cast this
      linarith
    rw [div_le_iff₀ hpos, mul_comm]
    exact_mod_cast hspan

end Placement

/-! ## Every accepted policy -/

/-- A positive depth is accepted as it is. -/
lemma HistoryPersistence.checkDepth_eq (policy : HistoryPersistence) {depth : ℤ}
    (hdepth : 1 ≤ depth) : policy.checkDepth depth = .ok depth := by
  simp only [checkDepth, bind_eq_ok, raiseIf_eq_ok, pure_eq_ok, exists_const]
  exact ⟨not_lt.mpr hdepth, trivial⟩

/-- A slot that an accepted policy does not store has stored slots on both sides. -/
lemma HistoryPersistence.enclosed {policy : HistoryPersistence} {depth checked : ℤ} (fuel : ℕ)
    (h : policy.validateFor depth = .ok checked) :
    ∃ slots, policy.storedSlots fuel depth = .ok (some slots) ∧
      ∀ slot, 0 ≤ slot → slot < depth → slot ∉ slots →
        ∃ newer ∈ slots, ∃ older ∈ slots, newer < slot ∧ slot < older := by
  have hends : ∀ {slots : List ℤ}, 0 ∈ slots → depth - 1 ∈ slots →
      ∀ slot, 0 ≤ slot → slot < depth → slot ∉ slots →
        ∃ newer ∈ slots, ∃ older ∈ slots, newer < slot ∧ slot < older := by
    intro slots hnewest holdest slot h0 hd hslot
    have hne : slot ≠ 0 := fun h => hslot (h ▸ hnewest)
    have hne' : slot ≠ depth - 1 := fun h => hslot (h ▸ holdest)
    exact ⟨0, hnewest, depth - 1, holdest, by omega, by omega⟩
  simp only [validateFor, checkDepth, bind_eq_ok, raiseIf_eq_ok, pure_eq_ok, exists_const] at h
  obtain ⟨_, ⟨hdepth, rfl⟩, h⟩ := h
  simp only [storedSlots, policy.checkDepth_eq (not_lt.mp hdepth), bind_eq_ok, Except.ok.injEq,
    exists_eq_left']
  cases policy with
  | dense =>
    exact ⟨_, rfl, hends (mem_rangeTuple.mpr (by omega)) (mem_rangeTuple.mpr (by omega))⟩
  | interval k hk =>
    refine ⟨_, rfl, hends (by simp) ?_⟩
    have hdvd : depth = 1 ∨ (depth - 1) % k = 0 := by
      by_cases hone : depth = 1
      · exact .inl hone
      · simp only [if_neg hone, bind_eq_ok, raiseIf_eq_ok, exists_const, not_not] at h
        exact .inr h.2.1
    rcases hdvd with rfl | hdvd
    · simp
    · rw [mem_sortedSet, List.mem_cons, List.mem_filter, mem_rangeTuple]
      exact .inr ⟨by omega, by simpa using hdvd⟩
  | revolve snapshots hs =>
    obtain ⟨slots, hslots, hplaced⟩ := exists_placed fuel (not_lt.mp hdepth) hs
    exact ⟨slots, hslots, hends hplaced.newest hplaced.oldest⟩

/-- **Budgeted placement is optimal.**  For a ring and a budget of at least two slots, the placement
ends and returns as many distinct slots as the budget or the ring has, in increasing order and with
both ends among them, and no set of as many slots with both ends has a smaller largest gap.  A slot
that an accepted policy does not store lies strictly between two stored slots.

**Proof sketch.** The positions before rounding are more than one apart, so that no two anchors
collide and the loop that fills gaps is not entered (`optimalPlacement_eq`); the gaps are at most
the rounded-up distance (`equispaced_gap_le`), and the gaps of any other placement add up to the
distance of the ends (`Spacing.span_le_sort`). -/
theorem optimalPlacement_optimal (policy : HistoryPersistence) (depth snapshots : ℤ) (fuel : ℕ)
    (hdepth : 1 ≤ depth) (hs : 2 ≤ snapshots) :
    (∃ slots, optimalPlacement fuel depth snapshots = .ok (some slots) ∧
      slots.Pairwise (· < ·) ∧ (slots.length : ℤ) = min snapshots depth ∧ 0 ∈ slots ∧
      depth - 1 ∈ slots ∧ (∀ slot ∈ slots, 0 ≤ slot ∧ slot < depth) ∧
      ∀ other : Finset ℤ, (other.card : ℤ) = min snapshots depth → 0 ∈ other →
        depth - 1 ∈ other → (∀ slot ∈ other, 0 ≤ slot ∧ slot < depth) →
          largestGap slots ≤ largestGap (other.sort (· ≤ ·))) ∧
      ((policy.validateFor depth).isOk → ∃ slots, policy.storedSlots fuel depth = .ok (some slots) ∧
        ∀ slot, 0 ≤ slot → slot < depth → slot ∉ slots →
          ∃ newer ∈ slots, ∃ older ∈ slots, newer < slot ∧ slot < older) := by
  constructor
  · obtain ⟨slots, hslots, hplaced⟩ := exists_placed fuel hdepth hs
    exact ⟨slots, hslots, hplaced.increasing, hplaced.length_eq, hplaced.newest, hplaced.oldest,
      hplaced.inside, fun other hcard hnewest holdest hinside =>
        hplaced.optimal hcard hnewest holdest hinside⟩
  · intro h
    cases hcase : policy.validateFor depth with
    | error e =>
      rw [hcase] at h
      cases h
    | ok checked => exact policy.enclosed fuel hcase

/-- Three slots of a ring of six: the half-way position `2.5` is rounded to the even slot. -/
theorem optimalPlacement_three_of_six :
    (∃ slots, optimalPlacement 0 6 3 = .ok (some slots) ∧ slots = [0, 2, 5] ∧
      ∀ other : Finset ℤ, (other.card : ℤ) = 3 → 0 ∈ other → 5 ∈ other →
        (∀ slot ∈ other, 0 ≤ slot ∧ slot < 6) →
          largestGap slots ≤ largestGap (other.sort (· ≤ ·))) := by
  obtain ⟨slots, hslots, -, -, -, -, -, hoptimal⟩ :=
    (optimalPlacement_optimal .dense 6 3 0 (by decide) (by decide)).1
  have hvalue : optimalPlacement 0 6 3 = .ok (some [0, 2, 5]) := by decide +kernel
  refine ⟨slots, hslots, ?_, hoptimal⟩
  rw [hvalue] at hslots
  exact (Option.some.inj (Except.ok.inj hslots)).symm

end Pops.History
