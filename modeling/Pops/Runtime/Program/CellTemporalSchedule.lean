import Pops.Runtime.Program.CellTemporalExecutor

/-!
# The multirate schedule of the rung events

`next_batch_` selects the rung whose next interval ends first, and the finest one of those that end
at the same tick.  This module says what the events of such a run are: they are ordered by their
end, the events of a rung tile the time from the start of the attempt, and no clock is more than
one interval away from the end of an event.

## Main definitions

* `Pops.CellTemporal.Clock` — what all ranks share of a batch.
* `Pops.CellTemporal.ClocksOk` — clocks on their way to a target.
* `Pops.CellTemporal.IsNext` — the clock that `next_batch_` selects.
* `Pops.CellTemporal.Schedule` — the events up to the clocks.

## Main results

* `Pops.CellTemporal.nextBatch_spec` — the selection, and that it overflows no tick.
* `Pops.CellTemporal.Schedule.step` — one event more.
-/

namespace Pops.CellTemporal

/-- What all ranks share of a batch. -/
structure Clock where
  rung : ℤ
  stride : ℤ
  tick : ℤ
  indices : List ℕ
  deriving DecidableEq, Repr

/-- The clock of a batch. -/
def RungBatch.clock (batch : RungBatch) : Clock :=
  ⟨batch.rung, batch.stride, batch.currentTick, batch.globalIndices⟩

/-- The end of the next interval of a clock. -/
def Clock.nextEnd (clock : Clock) : ℤ := clock.tick + clock.stride

/-- The clock at another tick. -/
def Clock.moveTo (clock : Clock) (tick : ℤ) : Clock :=
  ⟨clock.rung, clock.stride, tick, clock.indices⟩

/-- The order of two events by end and rung. -/
def EventLt (endTick rung endTick' rung' : ℤ) : Prop :=
  endTick < endTick' ∨ (endTick = endTick' ∧ rung < rung')

/-- Clocks on their way from a start to a target. -/
structure ClocksOk (start target : ℤ) (clocks : List Clock) : Prop where
  strides : ∀ clock ∈ clocks, clock.stride = stride clock.rung
  sorted : clocks.Pairwise fun clock clock' => clock.rung < clock'.rung
  ticks : ∀ clock ∈ clocks, start ≤ clock.tick ∧ clock.tick ≤ target
  reach : ∀ clock ∈ clocks, clock.stride ∣ target - clock.tick

/-- The clock at a position is the next one: it is behind the target, and every other clock behind
the target ends its next interval later. -/
structure IsNext (target : ℤ) (clocks : List Clock) (position : ℕ) (clock : Clock) : Prop where
  found : clocks[position]? = some clock
  behind : clock.tick < target
  least : ∀ other ∈ clocks, other.tick < target →
    other = clock ∨ EventLt clock.nextEnd clock.rung other.nextEnd other.rung

section Clocks

variable {start target : ℤ} {clocks : List Clock}

/-- A clock behind the target reaches the end of its next interval before the target. -/
lemma ClocksOk.nextEnd_le (h : ClocksOk start target clocks) {clock : Clock}
    (hclock : clock ∈ clocks) (hbehind : clock.tick < target) :
    clock.tick < clock.nextEnd ∧ clock.nextEnd ≤ target := by
  have hpos : 0 < clock.stride := by
    rw [h.strides clock hclock]
    exact stride_pos _
  have hle := Int.le_of_dvd (by omega) (h.reach clock hclock)
  unfold Clock.nextEnd
  omega

/-- A clock is known by its rung. -/
lemma ClocksOk.eq_of_rung (h : ClocksOk start target clocks) {i j : ℕ} {clock clock' : Clock}
    (hi : clocks[i]? = some clock) (hj : clocks[j]? = some clock')
    (hrung : clock.rung = clock'.rung) : i = j := by
  obtain ⟨hlti, hgeti⟩ := List.getElem?_eq_some_iff.mp hi
  obtain ⟨hltj, hgetj⟩ := List.getElem?_eq_some_iff.mp hj
  rcases Nat.lt_trichotomy i j with hlt | heq | hlt
  · have hless := List.pairwise_iff_getElem.mp h.sorted i j hlti hltj hlt
    rw [hgeti, hgetj] at hless
    omega
  · exact heq
  · have hless := List.pairwise_iff_getElem.mp h.sorted j i hltj hlti hlt
    rw [hgeti, hgetj] at hless
    omega

/-- The clocks after one of them has moved: the moved one, and all others. -/
lemma ClocksOk.mem_set (h : ClocksOk start target clocks) {position : ℕ}
    {clock moved other : Clock} (hfound : clocks[position]? = some clock)
    (hother : other ∈ clocks.set position moved) :
    other = moved ∨ (other ∈ clocks ∧ other.rung ≠ clock.rung) := by
  obtain ⟨j, hj⟩ := List.mem_iff_getElem?.mp hother
  by_cases hpos : position = j
  · subst hpos
    obtain ⟨hlt, -⟩ := List.getElem?_eq_some_iff.mp hfound
    rw [List.getElem?_set_self hlt] at hj
    exact .inl (Option.some.inj hj).symm
  · rw [List.getElem?_set_ne hpos] at hj
    refine .inr ⟨List.mem_of_getElem? hj, fun hrung => hpos ?_⟩
    exact h.eq_of_rung hfound hj hrung.symm

/-- The next clock is one, and the position of it too. -/
theorem IsNext.unique (h : ClocksOk start target clocks) {i j : ℕ} {clock clock' : Clock}
    (hi : IsNext target clocks i clock) (hj : IsNext target clocks j clock') :
    i = j ∧ clock = clock' := by
  have heq : clock = clock' := by
    rcases hi.least clock' (List.mem_of_getElem? hj.found) hj.behind with heq | hlt
    · exact heq.symm
    · rcases hj.least clock (List.mem_of_getElem? hi.found) hi.behind with heq | hlt'
      · exact heq
      · unfold EventLt at hlt hlt'
        omega
  exact ⟨h.eq_of_rung hi.found hj.found (by rw [heq]), heq⟩

/-- A clock that moves keeps its rung. -/
lemma map_rung_set {position : ℕ} {clock : Clock}
    {tick : ℤ} (hfound : clocks[position]? = some clock) :
    (clocks.set position (clock.moveTo tick)).map Clock.rung = clocks.map Clock.rung := by
  apply List.ext_getElem?
  intro j
  rw [List.getElem?_map, List.getElem?_map]
  by_cases hj : position = j
  · subst hj
    obtain ⟨hlt, -⟩ := List.getElem?_eq_some_iff.mp hfound
    rw [List.getElem?_set_self hlt, hfound]
    rfl
  · rw [List.getElem?_set_ne hj]

/-- The clocks after the next one has taken its interval. -/
theorem ClocksOk.step (h : ClocksOk start target clocks) {position : ℕ} {clock : Clock}
    (hnext : IsNext target clocks position clock) :
    ClocksOk start target (clocks.set position (clock.moveTo clock.nextEnd)) := by
  have hclock := List.mem_of_getElem? hnext.found
  obtain ⟨hlt, hle⟩ := h.nextEnd_le hclock hnext.behind
  have hcases := fun {other : Clock}
    (hother : other ∈ clocks.set position (clock.moveTo clock.nextEnd)) =>
      h.mem_set hnext.found hother
  refine ⟨fun other hother => ?_, ?_, fun other hother => ?_, fun other hother => ?_⟩
  · rcases hcases hother with rfl | ⟨hother, -⟩
    · exact h.strides clock hclock
    · exact h.strides other hother
  · have hrungs : (clocks.set position (clock.moveTo clock.nextEnd)).map Clock.rung =
        clocks.map Clock.rung := map_rung_set hnext.found
    have hsorted := List.pairwise_map.mpr h.sorted
    rw [← hrungs] at hsorted
    exact List.pairwise_map.mp hsorted
  · rcases hcases hother with rfl | ⟨hother, -⟩
    · have := (h.ticks clock hclock).1
      exact ⟨by simp only [Clock.moveTo]; omega, hle⟩
    · exact h.ticks other hother
  · rcases hcases hother with rfl | ⟨hother, -⟩
    · have hdvd := dvd_sub (h.reach clock hclock) (dvd_refl clock.stride)
      simp only [Clock.moveTo, Clock.nextEnd]
      rwa [sub_sub] at hdvd
    · exact h.reach other hother

end Clocks

/-! ## The selection -/

section Selection

variable {start target : ℤ}

/-- What the loop of `next_batch_` has selected among the batches that it has seen. -/
def Selected (target : ℤ) (seen : List (RungBatch × ℕ)) (selection : Selection) : Prop :=
  match selection.selected with
  | none => selection.selectedEnd = int64Max ∧ ∀ entry ∈ seen, target ≤ entry.1.currentTick
  | some entry => entry ∈ seen ∧ entry.1.currentTick < target ∧
      selection.selectedEnd = entry.1.clock.nextEnd ∧
      ∀ other ∈ seen, other.1.currentTick < target → other = entry ∨
        EventLt entry.1.clock.nextEnd entry.1.rung other.1.clock.nextEnd other.1.rung

/-- One batch in the loop of `next_batch_`. -/
lemma selectBatch_spec {seen : List (RungBatch × ℕ)} {selection : Selection}
    {entry : RungBatch × ℕ} (h : Selected target seen selection)
    (hlater : ∀ other ∈ seen, other.1.rung < entry.1.rung)
    (hrange : entry.1.currentTick < target → 0 ≤ entry.1.currentTick ∧ 0 ≤ entry.1.stride ∧
      entry.1.clock.nextEnd ≤ int64Max) :
    ∃ selection', selectBatch target selection entry = .ok selection' ∧
      Selected target (seen ++ [entry]) selection' := by
  unfold selectBatch
  split_ifs with hdone
  · -- the batch is at the target: the selection stays
    refine ⟨selection, rfl, ?_⟩
    obtain ⟨selected, selectedEnd⟩ := selection
    cases selected with
    | none =>
      refine ⟨h.1, fun other hother => ?_⟩
      rcases List.mem_append.mp hother with hother | hother
      · exact h.2 other hother
      · rw [List.mem_singleton.mp hother]
        exact hdone
    | some best =>
      refine ⟨List.mem_append_left _ h.1, h.2.1, h.2.2.1, fun other hother hbehind => ?_⟩
      rcases List.mem_append.mp hother with hother | hother
      · exact h.2.2.2 other hother hbehind
      · rw [List.mem_singleton.mp hother] at hbehind
        omega
  · have hbehind : entry.1.currentTick < target := by omega
    obtain ⟨hnonneg, hstride, hle⟩ := hrange hbehind
    have hsum : tickSum entry.1.currentTick entry.1.stride = .ok entry.1.clock.nextEnd :=
      tickSum_of_le hnonneg hstride hle
    rw [hsum]
    obtain ⟨selected, selectedEnd⟩ := selection
    cases selected with
    | none =>
      obtain ⟨rfl, hseen⟩ := h
      have htake : entry.1.clock.nextEnd < int64Max ∨ (entry.1.clock.nextEnd = int64Max ∧
          PrecedesSelected ⟨none, int64Max⟩ entry.1) := by
        rcases hle.lt_or_eq with hlt | heq
        · exact .inl hlt
        · exact .inr ⟨heq, by simp [PrecedesSelected]⟩
      refine ⟨⟨some entry, entry.1.clock.nextEnd⟩, congrArg Except.ok (if_pos htake), by simp,
        hbehind, rfl, fun other hother hother' => ?_⟩
      rcases List.mem_append.mp hother with hother | hother
      · have := hseen other hother
        omega
      · exact .inl (List.mem_singleton.mp hother)
    | some best =>
      obtain ⟨hbest, hbest', rfl, hleast⟩ := h
      have hrung := hlater best hbest
      by_cases hlt : entry.1.clock.nextEnd < best.1.clock.nextEnd
      · refine ⟨⟨some entry, entry.1.clock.nextEnd⟩,
          congrArg Except.ok (if_pos (.inl hlt)), by simp,
          hbehind, rfl, fun other hother hother' => ?_⟩
        rcases List.mem_append.mp hother with hother | hother
        · right
          rcases hleast other hother hother' with rfl | hless
          · exact .inl hlt
          · unfold EventLt at hless ⊢
            omega
        · exact .inl (List.mem_singleton.mp hother)
      · have hkeep : ¬ (entry.1.clock.nextEnd < best.1.clock.nextEnd ∨
            (entry.1.clock.nextEnd = best.1.clock.nextEnd ∧
              PrecedesSelected ⟨some best, best.1.clock.nextEnd⟩ entry.1)) := by
          rintro (hlt' | ⟨-, hprecedes⟩)
          · exact hlt hlt'
          · have := hprecedes best rfl
            omega
        refine ⟨⟨some best, best.1.clock.nextEnd⟩, congrArg Except.ok (if_neg hkeep),
          List.mem_append_left _ hbest, hbest', rfl, fun other hother hother' => ?_⟩
        rcases List.mem_append.mp hother with hother | hother
        · exact hleast other hother hother'
        · rw [List.mem_singleton.mp hother]
          right
          unfold EventLt
          omega

/-- `next_batch_` returns without overflow: no batch if all of them are at the target, and the next
one otherwise. -/
theorem nextBatch_spec {batches : List RungBatch}
    (h : ClocksOk start target (batches.map RungBatch.clock)) (hstart : 0 ≤ start)
    (htarget : target ≤ int64Max) :
    (nextBatch target batches = .ok none ∧ ∀ batch ∈ batches, batch.currentTick = target) ∨
      ∃ batch position, nextBatch target batches = .ok (some (batch, position)) ∧
        batches[position]? = some batch ∧
        IsNext target (batches.map RungBatch.clock) position batch.clock := by
  have hclock : ∀ {batch : RungBatch}, batch ∈ batches →
      batch.clock ∈ batches.map RungBatch.clock := fun hbatch => List.mem_map_of_mem hbatch
  have hfst : ∀ {entry : RungBatch × ℕ}, entry ∈ batches.zipIdx → entry.1 ∈ batches :=
    fun hentry => List.fst_mem_of_mem_zipIdx hentry
  have hsorted : batches.zipIdx.Pairwise fun entry entry' => entry.1.rung < entry'.1.rung := by
    have hrungs := h.sorted
    rw [List.pairwise_map, ← List.zipIdx_map_fst 0 batches, List.pairwise_map] at hrungs
    exact hrungs
  have htotal := foldlM_total (f := selectBatch target) (P := Selected target)
    (l := batches.zipIdx) (s := ⟨none, int64Max⟩) ⟨rfl, by simp⟩ ?_
  · obtain ⟨selection, hloop, hselected⟩ := htotal
    have hnext : nextBatch target batches = .ok selection.selected := by
      simp [nextBatch, hloop]
    obtain ⟨selected, selectedEnd⟩ := selection
    cases selected with
    | none =>
      refine .inl ⟨hnext, fun batch hbatch => ?_⟩
      obtain ⟨position, hposition⟩ := List.mem_iff_getElem?.mp hbatch
      have hmem : (batch, position) ∈ batches.zipIdx :=
        List.mk_mem_zipIdx_iff_getElem?.mpr hposition
      have hge : target ≤ batch.currentTick := hselected.2 _ hmem
      have hle := (h.ticks batch.clock (hclock hbatch)).2
      simp only [RungBatch.clock] at hle
      omega
    | some entry =>
      obtain ⟨batch, position⟩ := entry
      obtain ⟨hmem, hbehind, -, hleast⟩ := hselected
      have hposition := List.mk_mem_zipIdx_iff_getElem?.mp hmem
      refine .inr ⟨batch, position, hnext, hposition, ?_, hbehind, fun other hother hother' => ?_⟩
      · rw [List.getElem?_map, hposition]
        rfl
      · obtain ⟨other, hbatch, rfl⟩ := List.mem_map.mp hother
        obtain ⟨j, hj⟩ := List.mem_iff_getElem?.mp hbatch
        have hmem' : (other, j) ∈ batches.zipIdx := List.mk_mem_zipIdx_iff_getElem?.mpr hj
        rcases hleast _ hmem' hother' with heq | hlt
        · exact .inl (by rw [(Prod.mk.inj heq).1])
        · exact .inr hlt
  · intro done entry rest selection heq hselected
    have hentry : entry ∈ batches.zipIdx := by rw [heq]; simp
    refine selectBatch_spec hselected ?_ ?_
    · intro other hother
      rw [heq] at hsorted
      exact (List.pairwise_append.mp hsorted).2.2 other hother entry (by simp)
    · intro hbehind
      have hmem := hclock (hfst hentry)
      have hstride : 0 < entry.1.clock.stride := by
        rw [h.strides _ hmem]
        exact stride_pos _
      have hle := (h.nextEnd_le hmem hbehind).2
      have hge := (h.ticks _ hmem).1
      simp only [RungBatch.clock] at hge hstride
      exact ⟨by omega, by omega, by omega⟩

end Selection

/-! ## The events -/

/-- Consecutive intervals of one length. -/
def tiles (start step : ℤ) (count : ℕ) : List (ℤ × ℤ) :=
  (List.range count).map fun i : ℕ => (start + (i : ℤ) * step, start + ((i : ℤ) + 1) * step)

/-- The intervals of a rung among the events. -/
def intervals (events : List Event) (rung : ℤ) : List (ℤ × ℤ) :=
  (events.filter fun event => event.rung = rung).map fun event => (event.beginTick, event.endTick)

/-- The event of a clock, with the clocks just before it. -/
def Clock.event (clock : Clock) (clocks : List Clock) : Event :=
  ⟨clock.rung, clock.tick, clock.nextEnd, clocks.map fun other => (other.rung, other.tick)⟩

/-- The events of a run from a start up to the clocks. -/
structure Schedule (start target : ℤ) (clocks : List Clock) (events : List Event) : Prop where
  /-- The events are ordered by end, and by rung where they end together. -/
  sorted : events.Pairwise fun event event' =>
    EventLt event.endTick event.rung event'.endTick event'.rung
  /-- Every event is one of a rung. -/
  known : ∀ event ∈ events, event.rung ∈ clocks.map Clock.rung
  /-- Every event comes before those that are still to come. -/
  ahead : ∀ event ∈ events, ∀ clock ∈ clocks, clock.tick < target →
    EventLt event.endTick event.rung clock.nextEnd clock.rung
  /-- The events of a rung tile the time from the start to its clock. -/
  tiled : ∀ clock ∈ clocks, ∃ count : ℕ, clock.tick = start + count * clock.stride ∧
    intervals events clock.rung = tiles start clock.stride count
  /-- Every event has seen the clocks of all rungs. -/
  seen : ∀ event ∈ events, event.clocks.map Prod.fst = clocks.map Clock.rung
  /-- No clock is more than one interval away from the end of an event. -/
  lag : ∀ event ∈ events, ∀ entry ∈ event.clocks,
    entry.2 ≤ event.endTick ∧ event.endTick ≤ entry.2 + stride entry.1

section Events

variable {start target : ℤ} {clocks : List Clock} {events : List Event}

/-- Before the first event all clocks are at the start. -/
lemma Schedule.initial (hstart : ∀ clock ∈ clocks, clock.tick = start) :
    Schedule start target clocks [] := by
  refine ⟨.nil, by simp, by simp, fun clock hclock => ⟨0, ?_, rfl⟩, by simp, by simp⟩
  rw [hstart clock hclock]
  simp

/-- One interval more. -/
lemma tiles_succ (start step : ℤ) (count : ℕ) :
    tiles start step (count + 1) =
      tiles start step count ++ [(start + count * step, start + count * step + step)] := by
  simp only [tiles, List.range_succ, List.map_append, List.map_cons, List.map_nil]
  congr 3
  ring

/-- A clock is at the start, or at the end of one of its events. -/
lemma Schedule.tick_eq (h : Schedule start target clocks events) {clock : Clock}
    (hclock : clock ∈ clocks) :
    clock.tick = start ∨ ∃ event ∈ events, event.endTick = clock.tick := by
  obtain ⟨count, htick, htiles⟩ := h.tiled clock hclock
  cases count with
  | zero => exact .inl (by simpa using htick)
  | succ count =>
    right
    have hlast : (start + count * clock.stride, start + count * clock.stride + clock.stride) ∈
        intervals events clock.rung := by
      rw [htiles, tiles_succ]
      simp
    obtain ⟨event, hevent, heq⟩ := List.mem_map.mp hlast
    refine ⟨event, (List.mem_filter.mp hevent).1, ?_⟩
    rw [(Prod.mk.inj heq).2, htick]
    push_cast
    ring

/-- The intervals of a rung after one event more. -/
lemma intervals_append (events : List Event) (event : Event) (rung : ℤ) :
    intervals (events ++ [event]) rung =
      intervals events rung ++
        if event.rung = rung then [(event.beginTick, event.endTick)] else [] := by
  simp only [intervals, List.filter_append, List.map_append]
  split_ifs with hrung <;> simp [hrung]

/-- No clock is more than one interval away from the end of the next event. -/
lemma Schedule.lag_next (h : Schedule start target clocks events)
    (hclocks : ClocksOk start target clocks) {position : ℕ} {clock : Clock}
    (hnext : IsNext target clocks position clock) {other : Clock} (hother : other ∈ clocks) :
    other.tick ≤ clock.nextEnd ∧ clock.nextEnd ≤ other.tick + stride other.rung := by
  have hclock := List.mem_of_getElem? hnext.found
  obtain ⟨hlt, hle⟩ := hclocks.nextEnd_le hclock hnext.behind
  have hstart := (hclocks.ticks clock hclock).1
  constructor
  · rcases h.tick_eq hother with heq | ⟨event, hevent, heq⟩
    · omega
    · have hless := h.ahead event hevent clock hclock hnext.behind
      unfold EventLt at hless
      omega
  · have hstride := hclocks.strides other hother
    have hpos := stride_pos other.rung
    rcases (hclocks.ticks other hother).2.lt_or_eq with hbehind | hdone
    · rcases hnext.least other hother hbehind with rfl | hless
      · rw [Clock.nextEnd, hstride]
      · unfold EventLt Clock.nextEnd at hless
        unfold Clock.nextEnd
        omega
    · omega

/-- One event more: the next clock takes its interval. -/
theorem Schedule.step (h : Schedule start target clocks events)
    (hclocks : ClocksOk start target clocks) {position : ℕ} {clock : Clock}
    (hnext : IsNext target clocks position clock) :
    Schedule start target (clocks.set position (clock.moveTo clock.nextEnd))
      (events ++ [clock.event clocks]) := by
  have hclock := List.mem_of_getElem? hnext.found
  obtain ⟨hlt, hle⟩ := hclocks.nextEnd_le hclock hnext.behind
  have hrungs : (clocks.set position (clock.moveTo clock.nextEnd)).map Clock.rung =
      clocks.map Clock.rung := map_rung_set hnext.found
  have hpast := fun event hevent => h.ahead event hevent clock hclock hnext.behind
  refine ⟨?_, ?_, ?_, ?_, ?_, ?_⟩
  · refine List.pairwise_append.mpr ⟨h.sorted, List.pairwise_singleton _ _, ?_⟩
    intro event hevent event' hevent'
    rw [List.mem_singleton.mp hevent']
    exact hpast event hevent
  · intro event hevent
    rw [hrungs]
    rcases List.mem_append.mp hevent with hevent | hevent
    · exact h.known event hevent
    · rw [List.mem_singleton.mp hevent]
      exact List.mem_map_of_mem hclock
  · intro event hevent other hother hbehind
    rcases List.mem_append.mp hevent with hevent | hevent
    · rcases hclocks.mem_set hnext.found hother with rfl | ⟨hother, -⟩
      · have hless := hpast event hevent
        simp only [EventLt, Clock.moveTo, Clock.nextEnd] at hless hlt ⊢
        omega
      · exact h.ahead event hevent other hother hbehind
    · rw [List.mem_singleton.mp hevent]
      rcases hclocks.mem_set hnext.found hother with rfl | ⟨hother, hrung⟩
      · simp only [EventLt, Clock.event, Clock.moveTo, Clock.nextEnd] at hlt ⊢
        omega
      · rcases hnext.least other hother hbehind with rfl | hless
        · exact absurd rfl hrung
        · exact hless
  · intro other hother
    rcases hclocks.mem_set hnext.found hother with rfl | ⟨hother, hrung⟩
    · obtain ⟨count, htick, htiles⟩ := h.tiled clock hclock
      refine ⟨count + 1, ?_, ?_⟩
      · simp only [Clock.moveTo, Clock.nextEnd, htick]
        push_cast
        ring
      · simp only [Clock.moveTo, intervals_append, Clock.event, if_true, tiles_succ, htiles,
          Clock.nextEnd, htick]
    · obtain ⟨count, htick, htiles⟩ := h.tiled other hother
      refine ⟨count, htick, ?_⟩
      rw [intervals_append, if_neg (fun heq => hrung heq.symm), List.append_nil, htiles]
  · intro event hevent
    rw [hrungs]
    rcases List.mem_append.mp hevent with hevent | hevent
    · exact h.seen event hevent
    · rw [List.mem_singleton.mp hevent]
      simp [Clock.event]
  · intro event hevent entry hentry
    rcases List.mem_append.mp hevent with hevent | hevent
    · exact h.lag event hevent entry hentry
    · rw [List.mem_singleton.mp hevent] at hentry ⊢
      obtain ⟨other, hother, rfl⟩ := List.mem_map.mp hentry
      exact h.lag_next hclocks hnext hother

end Events

end Pops.CellTemporal
