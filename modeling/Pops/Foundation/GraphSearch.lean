import Mathlib

/-!
# Search in a finite graph

The loop that pops a pending vertex, marks it when it is new, and pushes its neighbours.  It marks
exactly the vertices that can be reached.

## Main definitions

* `GraphSearch.search` — the loop, with a bound on its rounds.
* `GraphSearch.rounds` — enough rounds for a list of vertices.

## Main results

* `GraphSearch.mem_search_iff` — what is marked at the end.
-/

namespace GraphSearch

variable {α : Type*} [DecidableEq α] (next : α → List α)

/-- The loop: pop a pending vertex, skip it when it is marked, otherwise mark it and push its
neighbours. -/
def search : ℕ → List α → List α → List α
  | _, reached, [] => reached
  | 0, reached, _ :: _ => reached
  | fuel + 1, reached, a :: pending =>
    if a ∈ reached then search fuel reached pending
    else search fuel (a :: reached) (next a ++ pending)

/-- Every vertex is marked once and pushes its neighbours. -/
def rounds (vertices : List α) : ℕ := 1 + (vertices.map fun a => (next a).length).sum

/-- The neighbours that vertices without a mark are still going to push. -/
def waiting (vertices reached : List α) : ℕ :=
  ((vertices.filter (· ∉ reached)).map fun a => (next a).length).sum

variable {next}

/-- Marking a vertex takes its neighbours off. -/
lemma waiting_cons {vertices reached : List α} {a : α} (hnodup : vertices.Nodup)
    (ha : a ∈ vertices) (hnew : a ∉ reached) :
    waiting next vertices reached = (next a).length + waiting next vertices (a :: reached) := by
  have hperm : (vertices.filter (· ∉ reached)).Perm (a :: vertices.filter (· ∉ a :: reached)) := by
    refine (List.perm_ext_iff_of_nodup (hnodup.filter _)
      (List.nodup_cons.mpr ⟨by simp, hnodup.filter _⟩)).mpr fun b => ?_
    by_cases hb : b = a
    · subst hb
      simp [ha, hnew]
    · simp [hb]
  unfold waiting
  rw [(hperm.map fun a => (next a).length).sum_eq]
  simp

/-- What the loop marks: marks stay, pending vertices are marked, and the marked vertices are closed
under neighbours; everything that is marked can be reached. -/
lemma search_spec {vertices : List α} (hnodup : vertices.Nodup)
    (hclosed : ∀ a ∈ vertices, ∀ b ∈ next a, b ∈ vertices) {P : α → Prop}
    (hP : ∀ a b, P a → b ∈ next a → P b) :
    ∀ {fuel : ℕ} {reached pending : List α}, pending ⊆ vertices →
      pending.length + waiting next vertices reached ≤ fuel →
      (∀ a ∈ reached, next a ⊆ reached ++ pending) → (∀ a ∈ reached ++ pending, P a) →
      reached ++ pending ⊆ search next fuel reached pending ∧
        (∀ a ∈ search next fuel reached pending, next a ⊆ search next fuel reached pending) ∧
        ∀ a ∈ search next fuel reached pending, P a := by
  intro fuel
  induction fuel with
  | zero =>
    intro reached pending _ hfuel hnext hgood
    obtain rfl : pending = [] := List.eq_nil_of_length_eq_zero (by omega)
    rw [List.append_nil] at hgood
    simp only [List.append_nil] at hnext
    exact ⟨by simp [search], hnext, hgood⟩
  | succ fuel ih =>
    intro reached pending hpending hfuel hnext hgood
    cases pending with
    | nil =>
      rw [List.append_nil] at hgood
      simp only [List.append_nil] at hnext
      exact ⟨by simp [search], hnext, hgood⟩
    | cons a pending =>
      rw [List.length_cons] at hfuel
      have hrest : pending ⊆ vertices := fun b hb => hpending (List.mem_cons_of_mem a hb)
      rw [search]
      split_ifs with ha
      · have hless : pending.length + waiting next vertices reached ≤ fuel := by omega
        obtain ⟨hsub, hrest'⟩ := ih hrest hless
          (fun b hb c hc => by
            rcases List.mem_append.mp (hnext b hb hc) with h | h
            · exact List.mem_append_left _ h
            · rcases List.mem_cons.mp h with rfl | h
              · exact List.mem_append_left _ ha
              · exact List.mem_append_right _ h)
          (fun b hb => hgood b (by
            rcases List.mem_append.mp hb with h | h
            · exact List.mem_append_left _ h
            · exact List.mem_append_right _ (List.mem_cons_of_mem a h)))
        refine ⟨fun b hb => ?_, hrest'⟩
        rcases List.mem_append.mp hb with h | h
        · exact hsub (List.mem_append_left _ h)
        · rcases List.mem_cons.mp h with rfl | h
          · exact hsub (List.mem_append_left _ ha)
          · exact hsub (List.mem_append_right _ h)
      · have hmem := hpending List.mem_cons_self
        have hwaiting : waiting next vertices reached =
            (next a).length + waiting next vertices (a :: reached) := waiting_cons hnodup hmem ha
        have hless : (next a ++ pending).length + waiting next vertices (a :: reached) ≤ fuel := by
          rw [List.length_append]
          omega
        obtain ⟨hsub, hrest'⟩ := ih (List.append_subset.mpr ⟨hclosed a hmem, hrest⟩) hless
          (fun b hb c hc => by
            rcases List.mem_cons.mp hb with rfl | hb
            · simp [hc]
            · have := hnext b hb hc
              simp only [List.mem_append, List.mem_cons] at this ⊢
              tauto)
          (fun b hb => by
            simp only [List.cons_append, List.mem_cons, List.mem_append] at hb
            rcases hb with rfl | hb | hb | hb
            · exact hgood b (by simp)
            · exact hgood b (by simp [hb])
            · exact hP a b (hgood a (by simp)) hb
            · exact hgood b (by simp [hb]))
        refine ⟨fun b hb => hsub ?_, hrest'⟩
        simp only [List.mem_append, List.mem_cons] at hb ⊢
        tauto

/-- **The loop marks exactly the vertices that can be reached.** -/
theorem mem_search_iff {vertices : List α} (hnodup : vertices.Nodup)
    (hclosed : ∀ a ∈ vertices, ∀ b ∈ next a, b ∈ vertices) {start : α} (hstart : start ∈ vertices)
    (x : α) :
    x ∈ search next (rounds next vertices) [] [start] ↔
      Relation.ReflTransGen (fun a b => b ∈ next a) start x := by
  have hwaiting : waiting next vertices [] = (vertices.map fun a => (next a).length).sum := by
    simp [waiting]
  have hfuel : [start].length + waiting next vertices [] ≤ rounds next vertices := by
    rw [hwaiting, rounds, List.length_singleton]
  have hstep : ∀ a b, Relation.ReflTransGen (fun a b => b ∈ next a) start a → b ∈ next a →
      Relation.ReflTransGen (fun a b => b ∈ next a) start b := fun a b hab hb => hab.tail hb
  obtain ⟨hsub, hnext, hreach⟩ := search_spec hnodup hclosed hstep (by simpa using hstart) hfuel
    (by simp) (by simp [Relation.ReflTransGen.refl])
  refine ⟨hreach x, fun h => ?_⟩
  induction h with
  | refl => exact hsub (by simp)
  | tail _ hbc ih => exact hnext _ ih hbc

end GraphSearch
