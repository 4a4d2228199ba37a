import Pops.Foundation.Grouping

/-!
# Routing items between parties

Every item of a common list has a sender and a receiver.  Each party visits the whole list on
its own and keeps the items it has both ends of, one entry per receiver for the items it sends
and one entry per sender for the items it receives.  Although no party sees what another one
stored, the two ends of a pair of parties hold the same items in the same order.

## Main definitions

* `Routing.pairItems` — the items from one party to another.
* `Routing.Sorted` — what one party stores after visiting a list of items.
* `Routing.LocalOnce`, `SentOnce` — an item occurs exactly once over all parties.

## Main results

* `Routing.itemsOf_sendRoute`, `itemsOf_receiveRoute` — both ends of a pair of parties group the
  same items.
* `Routing.sorted_once` — every item is kept locally once, or sent once and received once at the
  same position.
-/

namespace Routing

open Grouping

variable {κ α π : Type*} [DecidableEq κ] (sender receiver : α → κ)

/-- The party an item is sent to. -/
def sendRoute (party : κ) (a : α) : Option κ :=
  if sender a = party ∧ receiver a ≠ party then some (receiver a) else none

/-- The party an item is received from. -/
def receiveRoute (party : κ) (a : α) : Option κ :=
  if receiver a = party ∧ sender a ≠ party then some (sender a) else none

/-- The items from one party to another. -/
def pairItems (items : List α) (p q : κ) : List α :=
  items.filter fun a => sender a = p ∧ receiver a = q

variable {sender receiver}

/-- A party groups for a peer the items it sends to it. -/
theorem itemsOf_sendRoute {items : List α} {p q : κ} (h : p ≠ q) :
    itemsOf (sendRoute sender receiver p) items q = pairItems sender receiver items p q := by
  refine List.filter_congr fun a _ => decide_eq_decide.mpr ?_
  unfold sendRoute
  refine ⟨fun ha => ?_, fun ha => ?_⟩
  · split_ifs at ha with hroute
    exact ⟨hroute.1, Option.some.inj ha⟩
  · obtain ⟨hs, hr⟩ := ha
    rw [if_pos ⟨hs, fun hp => h (hp.symm.trans hr)⟩, hr]

/-- A party groups for a peer the items it receives from it. -/
theorem itemsOf_receiveRoute {items : List α} {p q : κ} (h : p ≠ q) :
    itemsOf (receiveRoute sender receiver q) items p = pairItems sender receiver items p q := by
  refine List.filter_congr fun a _ => decide_eq_decide.mpr ?_
  unfold receiveRoute
  refine ⟨fun ha => ?_, fun ha => ?_⟩
  · split_ifs at ha with hroute
    exact ⟨Option.some.inj ha, hroute.1⟩
  · obtain ⟨hs, hr⟩ := ha
    rw [if_pos ⟨hr, fun hq => h (hs.symm.trans hq)⟩, hs]

/-- No party sends an item to itself. -/
lemma itemsOf_sendRoute_self (items : List α) (p : κ) :
    itemsOf (sendRoute sender receiver p) items p = [] := by
  refine List.filter_eq_nil_iff.mpr fun a _ => ?_
  unfold sendRoute
  split_ifs with h <;> simp [h]

/-- No party receives an item from itself. -/
lemma itemsOf_receiveRoute_self (items : List α) (p : κ) :
    itemsOf (receiveRoute sender receiver p) items p = [] := by
  refine List.filter_eq_nil_iff.mpr fun a _ => ?_
  unfold receiveRoute
  split_ifs with h <;> simp [h]

variable (sender receiver) in
/-- What a party stores after visiting a list of items. -/
structure Sorted (c : Collector κ α π) (party : κ) (visited kept : List α)
    (send receive : List π) : Prop where
  kept_eq : kept = pairItems sender receiver visited party party
  send : Groups c (sendRoute sender receiver party) visited send
  receive : Groups c (receiveRoute sender receiver party) visited receive

namespace Sorted

variable {c : Collector κ α π} {party : κ} {visited kept : List α} {send receive : List π} {a : α}

/-- A party that has visited nothing stores nothing. -/
lemma nil : Sorted sender receiver c party [] [] [] [] :=
  ⟨rfl, Groups.nil, Groups.nil⟩

/-- An item with both ends at the party is kept. -/
lemma keep (h : Sorted sender receiver c party visited kept send receive)
    (hs : sender a = party) (hr : receiver a = party) :
    Sorted sender receiver c party (visited ++ [a]) (kept ++ [a]) send receive := by
  refine ⟨?_, h.send.skip ?_, h.receive.skip ?_⟩
  · simp [h.kept_eq, pairItems, List.filter_append, hs, hr]
  · simp [sendRoute, hr]
  · simp [receiveRoute, hs]

/-- An item whose sender is the party goes to the entry of its receiver. -/
lemma sent (h : Sorted sender receiver c party visited kept send receive)
    (hs : sender a = party) (hr : receiver a ≠ party) :
    Sorted sender receiver c party (visited ++ [a]) kept (c.append send (receiver a) a)
      receive := by
  refine ⟨?_, h.send.step ?_, h.receive.skip ?_⟩
  · simp [h.kept_eq, pairItems, List.filter_append, hr]
  · simp [sendRoute, hs, hr]
  · simp [receiveRoute, hr]

/-- An item whose receiver is the party goes to the entry of its sender. -/
lemma received (h : Sorted sender receiver c party visited kept send receive)
    (hs : sender a ≠ party) (hr : receiver a = party) :
    Sorted sender receiver c party (visited ++ [a]) kept send
      (c.append receive (sender a) a) := by
  refine ⟨?_, h.send.skip ?_, h.receive.step ?_⟩
  · simp [h.kept_eq, pairItems, List.filter_append, hs]
  · simp [sendRoute, hs]
  · simp [receiveRoute, hs, hr]

/-- An item with no end at the party is not stored. -/
lemma ignored (h : Sorted sender receiver c party visited kept send receive)
    (hs : sender a ≠ party) (hr : receiver a ≠ party) :
    Sorted sender receiver c party (visited ++ [a]) kept send receive := by
  refine ⟨?_, h.send.skip ?_, h.receive.skip ?_⟩
  · simp [h.kept_eq, pairItems, List.filter_append, hs]
  · simp [sendRoute, hs]
  · simp [receiveRoute, hr]

/-- The entries a party sends are the items from it to its peers. -/
lemma mem_send (h : Sorted sender receiver c party visited kept send receive) {p : π} :
    p ∈ send ↔ ∃ q, party ≠ q ∧ pairItems sender receiver visited party q ≠ [] ∧
      p = c.build q (pairItems sender receiver visited party q) := by
  rw [h.send.mem_iff]
  refine exists_congr fun q => ?_
  by_cases hq : party = q
  · subst hq
    simp [itemsOf_sendRoute_self]
  · simp [itemsOf_sendRoute hq, hq]

/-- The entries a party receives are the items to it from its peers. -/
lemma mem_receive (h : Sorted sender receiver c party visited kept send receive) {p : π} :
    p ∈ receive ↔ ∃ q, q ≠ party ∧ pairItems sender receiver visited q party ≠ [] ∧
      p = c.build q (pairItems sender receiver visited q party) := by
  rw [h.receive.mem_iff]
  refine exists_congr fun q => ?_
  by_cases hq : q = party
  · subst hq
    simp [itemsOf_receiveRoute_self]
  · simp [itemsOf_receiveRoute hq, hq]

end Sorted

/-! ## All parties -/

section AllParties

variable [DecidableEq α] (Party : κ → Prop) (kept : κ → List α) (send receive : κ → List π)
  (contents : π → List α)

/-- The item is kept once by one party and occurs nowhere else. -/
def LocalOnce (a : α) : Prop :=
  ∃ r, Party r ∧ (kept r).count a = 1 ∧ ∀ r', Party r' → (a ∈ kept r' → r' = r) ∧
    (∀ p ∈ send r', a ∉ contents p) ∧ ∀ q ∈ receive r', a ∉ contents q

/-- The item occurs once in an entry sent by `source`, once at the same position in an entry
received by `destination`, and nowhere else. -/
def SentOnce (key : π → κ) (source destination : κ) (a : α) : Prop :=
  ∃ p ∈ send source, ∃ q ∈ receive destination, key p = destination ∧ key q = source ∧
    (contents p).count a = 1 ∧ (contents q).count a = 1 ∧
    (contents p).idxOf a = (contents q).idxOf a ∧
    ∀ r, Party r → a ∉ kept r ∧ (∀ p' ∈ send r, a ∈ contents p' → r = source ∧ p' = p) ∧
      ∀ q' ∈ receive r, a ∈ contents q' → r = destination ∧ q' = q

variable {Party kept send receive contents}

/-- **Every item is routed exactly once**: over all parties it is kept by the one party that has
both of its ends, or sent by its sender and received by its receiver at the same position. -/
theorem sorted_once {c : Collector κ α π} {items : List α} (hnodup : items.Nodup)
    (hcontents : ∀ k l, l ⊆ items → contents (c.build k l) = l)
    (h : ∀ r, Party r → Sorted sender receiver c r items (kept r) (send r) (receive r)) {a : α}
    (ha : a ∈ items) (hs : Party (sender a)) (hr : Party (receiver a)) :
    LocalOnce Party kept send receive contents a ∨
      SentOnce Party kept send receive contents c.key (sender a) (receiver a) a := by
  have hmem : ∀ p q, a ∈ pairItems sender receiver items p q ↔ sender a = p ∧ receiver a = q :=
    fun p q => by simp [pairItems, ha]
  have hpair : ∀ k p q, contents (c.build k (pairItems sender receiver items p q)) =
      pairItems sender receiver items p q :=
    fun k p q => hcontents k _ (List.filter_subset_self _)
  have hcount : ∀ p q, a ∈ pairItems sender receiver items p q →
      (pairItems sender receiver items p q).count a = 1 :=
    fun p q hin => List.count_eq_one_of_mem (hnodup.filter _) hin
  have hsend : ∀ r, Party r → ∀ p ∈ send r, a ∈ contents p → r = sender a ∧ r ≠ receiver a ∧
      p = c.build (receiver a) (pairItems sender receiver items (sender a) (receiver a)) := by
    intro r hpr p hp hin
    obtain ⟨q, hne, _, rfl⟩ := (h r hpr).mem_send.mp hp
    rw [hpair, hmem] at hin
    obtain ⟨rfl, rfl⟩ := hin
    exact ⟨rfl, hne, rfl⟩
  have hreceive : ∀ r, Party r → ∀ p ∈ receive r, a ∈ contents p → r = receiver a ∧
      r ≠ sender a ∧
      p = c.build (sender a) (pairItems sender receiver items (sender a) (receiver a)) := by
    intro r hpr p hp hin
    obtain ⟨q, hne, _, rfl⟩ := (h r hpr).mem_receive.mp hp
    rw [hpair, hmem] at hin
    obtain ⟨rfl, rfl⟩ := hin
    exact ⟨rfl, hne.symm, rfl⟩
  by_cases heq : sender a = receiver a
  · refine .inl ⟨sender a, hs, ?_, fun r hpr => ⟨fun hin => ?_, fun p hp hin => ?_,
      fun p hp hin => ?_⟩⟩
    · rw [(h _ hs).kept_eq]
      exact hcount _ _ ((hmem _ _).mpr ⟨rfl, heq.symm⟩)
    · rw [(h _ hpr).kept_eq, hmem] at hin
      exact hin.1.symm
    · obtain ⟨hrs, hne, _⟩ := hsend r hpr p hp hin
      exact hne (hrs.trans heq)
    · obtain ⟨hrr, hne, _⟩ := hreceive r hpr p hp hin
      exact hne (hrr.trans heq.symm)
  · have hin := (hmem (sender a) (receiver a)).mpr ⟨rfl, rfl⟩
    have hnil := List.ne_nil_of_mem hin
    refine .inr ⟨_, (h _ hs).mem_send.mpr ⟨receiver a, heq, hnil, rfl⟩, _,
      (h _ hr).mem_receive.mpr ⟨sender a, heq, hnil, rfl⟩, c.key_build _ _, c.key_build _ _,
      ?_, ?_, ?_, fun r hpr => ⟨fun hk => ?_, fun p hp hp' => ?_, fun p hp hp' => ?_⟩⟩
    · rw [hpair]
      exact hcount _ _ hin
    · rw [hpair]
      exact hcount _ _ hin
    · rw [hpair, hpair]
    · rw [(h _ hpr).kept_eq, hmem] at hk
      exact heq (hk.1.trans hk.2.symm)
    · obtain ⟨hrs, _, hpe⟩ := hsend r hpr p hp hp'
      exact ⟨hrs, hpe⟩
    · obtain ⟨hrr, _, hpe⟩ := hreceive r hpr p hp hp'
      exact ⟨hrr, hpe⟩

end AllParties

end Routing
