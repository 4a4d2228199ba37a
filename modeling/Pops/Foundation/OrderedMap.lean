import Mathlib

/-!
# Ordered maps

A `std::map` as the list of its entries in key order.

## Main definitions

* `OrderedMap.lookup` — the value of a key.
* `OrderedMap.assign` — `m[key] = value`.
* `OrderedMap.emplace` — insertion that keeps an existing entry.

## Main results

* `OrderedMap.lookup_assign`, `lookup_emplace` — what an insertion changes.
* `OrderedMap.Sorted.assign` — an assignment keeps the keys in order.
-/

namespace OrderedMap

variable {κ β : Type*} [DecidableEq κ]

/-- The value of a key. -/
def lookup : List (κ × β) → κ → Option β
  | [], _ => none
  | (k', v) :: rest, k => if k' = k then some v else lookup rest k

section Insert

variable [LT κ] [DecidableLT κ]

/-- `m[key] = value`: replace the entry of the key, or insert it in key order. -/
def assign : List (κ × β) → κ → β → List (κ × β)
  | [], k, v => [(k, v)]
  | (k', v') :: rest, k, v =>
    if k' = k then (k, v) :: rest
    else if k < k' then (k, v) :: (k', v') :: rest
    else (k', v') :: assign rest k v

/-- `m.emplace(key, value)`: insert the entry unless the key is there. -/
def emplace (m : List (κ × β)) (k : κ) (v : β) : List (κ × β) :=
  if (lookup m k).isSome then m else assign m k v

/-- An insertion of a new key assigns it. -/
lemma emplace_eq_assign {m : List (κ × β)} {k : κ} {v : β} (h : lookup m k = none) :
    emplace m k v = assign m k v := by
  simp [emplace, h]

/-- An assignment changes the value of its key only. -/
@[simp] theorem lookup_assign (m : List (κ × β)) (k : κ) (v : β) (k' : κ) :
    lookup (assign m k v) k' = if k = k' then some v else lookup m k' := by
  induction m with
  | nil => simp [assign, lookup]
  | cons entry rest ih =>
    obtain ⟨key, value⟩ := entry
    by_cases hkey : key = k
    · subst hkey
      by_cases hk : key = k' <;> simp [assign, lookup, hk]
    · by_cases hlt : k < key
      · simp [assign, lookup, hkey, hlt]
      · simp only [assign, if_neg hkey, if_neg hlt, lookup, ih]
        by_cases hk : key = k'
        · have hne : k ≠ k' := fun h => hkey (hk.trans h.symm)
          simp [hk, hne]
        · simp [hk]

/-- An insertion changes the value of its key only, and only if there was none. -/
@[simp] theorem lookup_emplace (m : List (κ × β)) (k : κ) (v : β) (k' : κ) :
    lookup (emplace m k v) k' =
      if k = k' then some ((lookup m k).getD v) else lookup m k' := by
  unfold emplace
  cases hk : lookup m k with
  | none => simp
  | some w =>
    by_cases hkk : k = k'
    · subst hkk
      simp [hk]
    · simp [hkk]

end Insert

/-- The value of a key is an entry of the list. -/
lemma mem_of_lookup {m : List (κ × β)} {k : κ} {v : β} (h : lookup m k = some v) :
    (k, v) ∈ m := by
  induction m with
  | nil => cases h
  | cons head rest ih =>
    obtain ⟨key, value⟩ := head
    by_cases hkey : key = k
    · simp only [lookup, if_pos hkey, Option.some.injEq] at h
      simp [hkey, h]
    · simp only [lookup, if_neg hkey] at h
      exact List.mem_cons_of_mem _ (ih h)

/-- A key has a value exactly when it is the key of an entry. -/
lemma isSome_lookup_iff {m : List (κ × β)} {k : κ} :
    (lookup m k).isSome ↔ k ∈ m.map Prod.fst := by
  induction m with
  | nil => simp [lookup]
  | cons head rest ih =>
    obtain ⟨key, value⟩ := head
    by_cases hkey : key = k
    · simp [lookup, hkey]
    · simp only [lookup, if_neg hkey, ih, List.map_cons, List.mem_cons]
      exact ⟨Or.inr, fun h => h.resolve_left (Ne.symm hkey)⟩

/-- Among distinct keys every entry is the value of its key. -/
lemma lookup_of_nodup {m : List (κ × β)} (hm : (m.map Prod.fst).Nodup) {k : κ} {v : β}
    (h : (k, v) ∈ m) : lookup m k = some v := by
  obtain ⟨w, hw⟩ := Option.isSome_iff_exists.mp
    (isSome_lookup_iff.mpr (List.mem_map.mpr ⟨_, h, rfl⟩))
  have heq := List.inj_on_of_nodup_map hm (mem_of_lookup hw) h rfl
  rw [hw, (Prod.mk.inj heq).2]

/-! ## Key order -/

section Order

variable {κ β : Type*} [LinearOrder κ]

/-- The keys are increasing. -/
def Sorted (m : List (κ × β)) : Prop := m.Pairwise fun entry entry' => entry.1 < entry'.1

/-- The entries of an increasing list are the values of their keys. -/
lemma lookup_of_mem {m : List (κ × β)} (hm : Sorted m) {k : κ} {v : β} (h : (k, v) ∈ m) :
    lookup m k = some v := by
  induction m with
  | nil => cases h
  | cons head rest ih =>
    obtain ⟨key, value⟩ := head
    have hm' := List.pairwise_cons.mp hm
    rcases List.mem_cons.mp h with heq | hrest
    · obtain ⟨rfl, rfl⟩ := Prod.mk.inj heq
      simp [lookup]
    · have hlt : key < k := hm'.1 (k, v) hrest
      simp only [lookup, if_neg hlt.ne]
      exact ih hm'.2 hrest

/-- The entries of an assignment are the new one and those of the list. -/
lemma mem_of_mem_assign {m : List (κ × β)} {k : κ} {v : β} {entry : κ × β}
    (h : entry ∈ assign m k v) : entry = (k, v) ∨ entry ∈ m := by
  induction m with
  | nil => exact .inl (List.mem_singleton.mp h)
  | cons head rest ih =>
    obtain ⟨key, value⟩ := head
    unfold assign at h
    split_ifs at h with hkey hlt
    · rcases List.mem_cons.mp h with rfl | hrest
      · exact .inl rfl
      · exact .inr (List.mem_cons_of_mem _ hrest)
    · rcases List.mem_cons.mp h with rfl | hrest
      · exact .inl rfl
      · exact .inr hrest
    · rcases List.mem_cons.mp h with rfl | hrest
      · exact .inr List.mem_cons_self
      · exact (ih hrest).imp id (List.mem_cons_of_mem _)

/-- An assignment keeps the keys increasing. -/
theorem Sorted.assign {m : List (κ × β)} (hm : Sorted m) (k : κ) (v : β) :
    Sorted (OrderedMap.assign m k v) := by
  induction m with
  | nil => exact List.pairwise_singleton _ _
  | cons head rest ih =>
    obtain ⟨key, value⟩ := head
    have hm' := List.pairwise_cons.mp hm
    unfold OrderedMap.assign
    split_ifs with hkey hlt
    · subst hkey
      exact List.pairwise_cons.mpr hm'
    · refine List.pairwise_cons.mpr ⟨fun entry hentry => ?_, hm⟩
      rcases List.mem_cons.mp hentry with rfl | hrest
      · exact hlt
      · exact hlt.trans (hm'.1 entry hrest)
    · refine List.pairwise_cons.mpr ⟨fun entry hentry => ?_, ih hm'.2⟩
      rcases mem_of_mem_assign hentry with rfl | hmem
      · exact lt_of_le_of_ne (not_lt.mp hlt) hkey
      · exact hm'.1 entry hmem

/-- Assigning the value that a key has changes nothing. -/
lemma assign_of_lookup {m : List (κ × β)} (hm : Sorted m) {k : κ} {v : β}
    (h : lookup m k = some v) : assign m k v = m := by
  induction m with
  | nil => cases h
  | cons head rest ih =>
    obtain ⟨key, value⟩ := head
    have hm' := List.pairwise_cons.mp hm
    by_cases hkey : key = k
    · subst hkey
      simp only [lookup, if_true, Option.some.injEq] at h
      simp [assign, h]
    · simp only [lookup, if_neg hkey] at h
      have hlt : key < k := hm'.1 (k, v) (mem_of_lookup h)
      simp only [assign, if_neg hkey, if_neg hlt.asymm, ih hm'.2 h]

end Order

end OrderedMap
