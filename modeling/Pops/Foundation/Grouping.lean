import Mathlib

/-!
# Keyed lists built by stable grouping

A list of entries with distinct keys, filled by visiting a list of items: every item goes to the
entry of its key, which is appended when it does not exist yet.  Whatever the order of the
entries, the entry of a key is a function of the items routed to that key, in the order in which
they were visited.

## Main definitions

* `Grouping.find`, `put` — look an entry up; replace or append it.
* `Grouping.Collector` — how an entry starts and takes up one more item.
* `Grouping.Groups` — the entries are the groups of a list of items.

## Main results

* `Grouping.Groups.step`, `skip` — visiting one more item.
* `Grouping.Groups.mem_iff` — the entries, read off the items.
* `Grouping.Groups.perm` — the order of the entries does not matter.
-/

namespace Grouping

variable {κ π α : Type*} [DecidableEq κ] (key : π → κ)

/-- The entry of a key. -/
def find (entries : List π) (k : κ) : Option π := entries.find? fun p => key p = k

/-- Replace the entry with the key of `p`, or append `p` when there is none. -/
def put (p : π) : List π → List π
  | [] => [p]
  | q :: rest => if key q = key p then p :: rest else q :: put p rest

/-- The entry just put is found under its key, every other key is unaffected. -/
lemma find_put (p : π) (entries : List π) (k : κ) :
    find key (put key p entries) k = if key p = k then some p else find key entries k := by
  induction entries with
  | nil => by_cases h : key p = k <;> simp [put, find, h]
  | cons q rest ih =>
    unfold find at ih ⊢
    by_cases hq : key q = key p
    · by_cases h : key p = k <;> simp [put, hq, h]
    · by_cases h : key q = k
      · subst h
        have hpq : key p ≠ key q := fun hp => hq hp.symm
        simp only [put, if_neg hq, List.find?_cons, decide_true, if_neg hpq]
      · simp only [put, if_neg hq, List.find?_cons, h, decide_false, ih]

/-- The keys after a `put`. -/
lemma mem_keys_put {p : π} {entries : List π} {k : κ} :
    k ∈ (put key p entries).map key ↔ k = key p ∨ k ∈ entries.map key := by
  induction entries with
  | nil => simp [put]
  | cons q rest ih =>
    by_cases hq : key q = key p
    · simp [put, hq]
    · simp only [put, if_neg hq, List.map_cons, List.mem_cons, ih]
      tauto

/-- A `put` keeps the keys distinct. -/
lemma nodup_put {p : π} {entries : List π} (h : (entries.map key).Nodup) :
    ((put key p entries).map key).Nodup := by
  induction entries with
  | nil => simp [put]
  | cons q rest ih =>
    rw [List.map_cons, List.nodup_cons] at h
    by_cases hq : key q = key p
    · rw [put, if_pos hq, List.map_cons, List.nodup_cons, ← hq]
      exact h
    · rw [put, if_neg hq, List.map_cons, List.nodup_cons]
      refine ⟨fun hmem => ?_, ih h.2⟩
      rcases (mem_keys_put key).mp hmem with heq | hin
      · exact hq heq
      · exact h.1 hin

/-- With distinct keys, an entry is the one found under its key. -/
lemma mem_iff_find {entries : List π} (h : (entries.map key).Nodup) {p : π} :
    p ∈ entries ↔ find key entries (key p) = some p := by
  refine ⟨fun hp => ?_, fun hp => List.mem_of_find?_eq_some hp⟩
  induction entries with
  | nil => simp at hp
  | cons q rest ih =>
    rw [List.map_cons, List.nodup_cons] at h
    rcases List.mem_cons.mp hp with rfl | hp
    · simp [find]
    · have hne : key q ≠ key p := fun heq => h.1 (heq ▸ List.mem_map_of_mem hp)
      have := ih h.2 hp
      unfold find at this ⊢
      rw [List.find?_cons, decide_eq_false hne, this]

/-- With distinct keys, a `put` replaces the entry of its key and keeps every other entry. -/
lemma mem_put {p q : π} {entries : List π} (h : (entries.map key).Nodup) :
    q ∈ put key p entries ↔ q = p ∨ (q ∈ entries ∧ key q ≠ key p) := by
  rw [mem_iff_find key (nodup_put key h), find_put, mem_iff_find key h]
  by_cases hk : key p = key q
  · rw [if_pos hk]
    refine ⟨fun hp => .inl (Option.some.inj hp).symm, fun hq => ?_⟩
    rcases hq with rfl | ⟨_, hne⟩
    · rfl
    · exact absurd hk.symm hne
  · rw [if_neg hk]
    refine ⟨fun hq => .inr ⟨hq, fun he => hk he.symm⟩, fun hq => ?_⟩
    rcases hq with rfl | ⟨hq, _⟩
    · exact absurd rfl hk
    · exact hq

/-! ## Groups -/

/-- How the entry of a key starts and takes up one more item, without changing its key. -/
structure Collector (κ α π : Type*) where
  key : π → κ
  fresh : κ → π
  push : π → α → π
  key_fresh : ∀ k, key (fresh k) = k
  key_push : ∀ p a, key (push p a) = key p

namespace Collector

variable (c : Collector κ α π)

/-- The entry of a key that has taken up the given items. -/
def build (k : κ) (items : List α) : π := items.foldl c.push (c.fresh k)

/-- Append an item to the entry of a key, which is created when it does not exist. -/
def append (entries : List π) (k : κ) (a : α) : List π :=
  put c.key (c.push ((find c.key entries k).getD (c.fresh k)) a) entries

/-- After an item was appended there is an entry. -/
lemma append_ne_nil (entries : List π) (k : κ) (a : α) : c.append entries k a ≠ [] := by
  cases entries with
  | nil => simp [append, put]
  | cons entry entries =>
    simp only [append, put]
    split_ifs <;> simp

omit [DecidableEq κ] in
/-- Taking up items never changes the key. -/
@[simp] lemma key_build (k : κ) (items : List α) : c.key (c.build k items) = k := by
  induction items using List.reverseRecOn with
  | nil => exact c.key_fresh k
  | append_singleton items a ih =>
    rw [build, List.foldl_append]
    exact (c.key_push _ a).trans ih

omit [DecidableEq κ] in
/-- The entry built from one more item. -/
lemma build_append_singleton (k : κ) (items : List α) (a : α) :
    c.build k (items ++ [a]) = c.push (c.build k items) a := by
  simp [build]

end Collector

/-- The items routed to a key, in order. -/
def itemsOf (route : α → Option κ) (items : List α) (k : κ) : List α :=
  items.filter fun a => route a = some k

/-- The entries have distinct keys, and a key has an entry exactly when an item is routed to it;
the entry is then built from the items of the key. -/
structure Groups (c : Collector κ α π) (route : α → Option κ) (items : List α)
    (entries : List π) : Prop where
  nodup : (entries.map c.key).Nodup
  find_eq : ∀ k, find c.key entries k =
    if itemsOf route items k = [] then none else some (c.build k (itemsOf route items k))

namespace Groups

variable {c : Collector κ α π} {route : α → Option κ} {items : List α} {entries : List π} {a : α}

/-- No entry groups no items. -/
lemma nil : Groups c route [] [] := ⟨by simp, fun k => by simp [find, itemsOf]⟩

/-- The entry of a key, or a fresh one, is built from the items visited so far. -/
lemma getD_find (h : Groups c route items entries) (k : κ) :
    (find c.key entries k).getD (c.fresh k) = c.build k (itemsOf route items k) := by
  rw [h.find_eq]
  by_cases hnil : itemsOf route items k = []
  · rw [if_pos hnil, hnil]
    rfl
  · rw [if_neg hnil]
    rfl

/-- An item that is routed nowhere leaves the groups unchanged. -/
theorem skip (h : Groups c route items entries) (ha : route a = none) :
    Groups c route (items ++ [a]) entries := by
  have hitems : ∀ k, itemsOf route (items ++ [a]) k = itemsOf route items k :=
    fun k => by simp [itemsOf, List.filter_append, ha]
  exact ⟨h.nodup, fun k => by rw [h.find_eq, hitems]⟩

/-- An item routed to a key is appended to the entry of that key. -/
theorem step {k : κ} (h : Groups c route items entries) (ha : route a = some k) :
    Groups c route (items ++ [a]) (c.append entries k a) := by
  unfold Collector.append
  rw [h.getD_find, ← c.build_append_singleton]
  refine ⟨nodup_put c.key h.nodup, fun k' => ?_⟩
  rw [find_put, c.key_build]
  by_cases hk : k = k'
  · subst hk
    have hitems : itemsOf route (items ++ [a]) k = itemsOf route items k ++ [a] := by
      simp [itemsOf, List.filter_append, ha]
    rw [if_pos rfl, hitems, if_neg (List.append_ne_nil_of_right_ne_nil _ (List.cons_ne_nil a []))]
  · have hitems : itemsOf route (items ++ [a]) k' = itemsOf route items k' := by
      simp [itemsOf, List.filter_append, ha, hk]
    rw [if_neg hk, h.find_eq, hitems]

/-- The entries are the groups of the keys that some item is routed to. -/
theorem mem_iff (h : Groups c route items entries) {p : π} :
    p ∈ entries ↔ ∃ k, itemsOf route items k ≠ [] ∧ p = c.build k (itemsOf route items k) := by
  rw [mem_iff_find c.key h.nodup, h.find_eq]
  refine ⟨fun hp => ?_, fun hp => ?_⟩
  · split_ifs at hp with hnil
    exact ⟨c.key p, hnil, (Option.some.inj hp).symm⟩
  · obtain ⟨k, hnil, rfl⟩ := hp
    rw [c.key_build, if_neg hnil]

/-- The groups do not depend on the order of the entries. -/
theorem perm {entries' : List π} (h : Groups c route items entries) (hp : entries.Perm entries') :
    Groups c route items entries' := by
  have hnodup : (entries'.map c.key).Nodup := (hp.map c.key).nodup_iff.mp h.nodup
  refine ⟨hnodup, fun k => ?_⟩
  rw [← h.find_eq]
  refine Option.ext fun p => ?_
  have hkey : ∀ l : List π, find c.key l k = some p → c.key p = k := fun l hl => by
    simpa using List.find?_some hl
  refine ⟨fun hf => ?_, fun hf => ?_⟩
  · have hk := hkey _ hf
    subst hk
    exact (mem_iff_find c.key h.nodup).mp (hp.mem_iff.mpr ((mem_iff_find c.key hnodup).mpr hf))
  · have hk := hkey _ hf
    subst hk
    exact (mem_iff_find c.key hnodup).mp (hp.mem_iff.mp ((mem_iff_find c.key h.nodup).mpr hf))

end Groups

end Grouping
