import Pops.Foundation.OrderedMap

/-!
# Sums over the entries of an ordered map

A `std::map` from keys to coefficients stands for the sum of its entries.  Assigning an entry and
dropping entries change the sum by what they add and remove, and an increasing list of entries is
determined by the values of its keys.

## Main definitions

* `OrderedMap.total` — the sum of a function of the entries.

## Main results

* `OrderedMap.total_assign`, `total_erase`, `total_filter` — what changes the sum.
* `OrderedMap.Sorted.ext`, `ext_total` — an increasing list is determined by the values of its keys,
  and by the sums over them.
-/

namespace OrderedMap

variable {κ β M : Type*} [AddCommMonoid M]

/-- The sum of a function of the entries. -/
def total (f : κ → β → M) (m : List (κ × β)) : M := (m.map fun entry => f entry.1 entry.2).sum

/-- The total of an empty map. -/
@[simp] lemma total_nil (f : κ → β → M) : total f [] = 0 := rfl

/-- The total of a first entry and the others. -/
@[simp] lemma total_cons (f : κ → β → M) (entry : κ × β) (m : List (κ × β)) :
    total f (entry :: m) = f entry.1 entry.2 + total f m := by
  simp [total]

/-- Dropping entries that contribute nothing keeps the sum. -/
theorem total_filter (f : κ → β → M) {p : κ × β → Bool} {m : List (κ × β)}
    (h : ∀ entry ∈ m, p entry = false → f entry.1 entry.2 = 0) :
    total f (m.filter p) = total f m := by
  induction m with
  | nil => rfl
  | cons head rest ih =>
    have hrest := ih fun entry hentry => h entry (List.mem_cons_of_mem _ hentry)
    cases hp : p head with
    | true => rw [List.filter_cons_of_pos hp, total_cons, total_cons, hrest]
    | false =>
      rw [List.filter_cons_of_neg (by simp [hp]), total_cons, hrest,
        h head List.mem_cons_self hp, zero_add]

variable [LinearOrder κ]

/-- A key below all keys of a list has no value there. -/
lemma lookup_eq_none_of_lt {m : List (κ × β)} {k : κ} (h : ∀ entry ∈ m, k < entry.1) :
    lookup m k = none := by
  cases hl : lookup m k with
  | none => rfl
  | some v => exact absurd (h _ (mem_of_lookup hl)) (lt_irrefl k)

/-- An assignment trades the old value of its key for the new one. -/
theorem total_assign (f : κ → β → M) {m : List (κ × β)} (hm : Sorted m) (k : κ) (v : β) :
    total f (assign m k v) + ((lookup m k).map (f k)).getD 0 = total f m + f k v := by
  induction m with
  | nil => simp [assign, lookup]
  | cons head rest ih =>
    obtain ⟨key, value⟩ := head
    have hm' := List.pairwise_cons.mp hm
    by_cases hkey : key = k
    · subst hkey
      simp only [assign, lookup, if_true, total_cons, Option.map_some, Option.getD_some]
      abel
    · by_cases hlt : k < key
      · -- the key is new
        have hnone : lookup rest k = none :=
          lookup_eq_none_of_lt fun entry hentry => hlt.trans (hm'.1 entry hentry)
        simp only [assign, lookup, if_neg hkey, if_pos hlt, total_cons, hnone, Option.map_none,
          Option.getD_none]
        abel
      · simp only [assign, lookup, if_neg hkey, if_neg hlt, total_cons]
        rw [add_assoc, ih hm'.2, add_assoc]

/-- Erasing the entry of a key takes its value off the sum. -/
theorem total_erase (f : κ → β → M) {m : List (κ × β)} (hm : Sorted m) {k : κ} {v : β}
    (h : lookup m k = some v) :
    total f (m.filter fun entry => decide (entry.1 ≠ k)) + f k v = total f m := by
  induction m with
  | nil => cases h
  | cons head rest ih =>
    obtain ⟨key, value⟩ := head
    have hm' := List.pairwise_cons.mp hm
    by_cases hkey : key = k
    · subst hkey
      obtain rfl : value = v := by simpa [lookup] using h
      have hkeep : rest.filter (fun entry => decide (entry.1 ≠ key)) = rest := by
        apply List.filter_eq_self.mpr
        exact fun entry hentry => decide_eq_true (hm'.1 entry hentry).ne'
      rw [List.filter_cons_of_neg (by simp), hkeep, total_cons, add_comm]
    · simp only [lookup, if_neg hkey] at h
      rw [List.filter_cons_of_pos (by simpa using hkey), total_cons, total_cons, add_assoc,
        ih hm'.2 h]

/-- The sum over one key is its value. -/
lemma total_single {m : List (κ × M)} (hm : Sorted m) (k : κ) :
    total (fun k' v => if k' = k then v else 0) m = (lookup m k).getD 0 := by
  induction m with
  | nil => rfl
  | cons head rest ih =>
    obtain ⟨key, value⟩ := head
    have hm' := List.pairwise_cons.mp hm
    rw [total_cons, ih hm'.2]
    by_cases hkey : key = k
    · subst hkey
      rw [lookup_eq_none_of_lt hm'.1]
      simp [lookup]
    · simp [lookup, hkey]

/-- Dropping entries keeps the keys increasing. -/
lemma Sorted.filter {m : List (κ × β)} (hm : Sorted m) (p : κ × β → Bool) :
    Sorted (m.filter p) :=
  List.Pairwise.filter p hm

/-- An increasing list is determined by the values of its keys. -/
theorem Sorted.ext {m m' : List (κ × β)} (hm : Sorted m) (hm' : Sorted m')
    (h : ∀ k, lookup m k = lookup m' k) : m = m' := by
  have hmem : ∀ entry, entry ∈ m ↔ entry ∈ m' := by
    rintro ⟨k, v⟩
    constructor
    · intro hentry
      exact mem_of_lookup ((h k).symm.trans (lookup_of_mem hm hentry))
    · intro hentry
      exact mem_of_lookup ((h k).trans (lookup_of_mem hm' hentry))
  have hnodup : ∀ {l : List (κ × β)}, Sorted l → l.Nodup := fun hl =>
    List.Pairwise.imp (fun hlt heq => absurd hlt (by rw [heq]; exact lt_irrefl _)) hl
  refine List.Perm.eq_of_pairwise ?_ hm hm'
    ((List.perm_ext_iff_of_nodup (hnodup hm) (hnodup hm')).mpr hmem)
  intro a b _ _ hab hba
  exact absurd (hab.trans hba) (lt_irrefl _)

/-- An increasing list of values that are not zero is determined by the sums over its keys. -/
theorem Sorted.ext_total {m m' : List (κ × M)} (hm : Sorted m) (hm' : Sorted m')
    (hne : ∀ entry ∈ m, entry.2 ≠ 0) (hne' : ∀ entry ∈ m', entry.2 ≠ 0)
    (h : ∀ k, total (fun k' v => if k' = k then v else 0) m =
      total (fun k' v => if k' = k then v else 0) m') : m = m' := by
  refine hm.ext hm' fun k => ?_
  have hk := h k
  rw [total_single hm, total_single hm'] at hk
  cases hl : lookup m k with
  | none =>
    cases hl' : lookup m' k with
    | none => rfl
    | some v' =>
      rw [hl, hl'] at hk
      exact absurd hk.symm (hne' _ (mem_of_lookup hl'))
  | some v =>
    cases hl' : lookup m' k with
    | none =>
      rw [hl, hl'] at hk
      exact absurd hk (hne _ (mem_of_lookup hl))
    | some v' =>
      rw [hl, hl'] at hk
      exact congrArg some hk

end OrderedMap
