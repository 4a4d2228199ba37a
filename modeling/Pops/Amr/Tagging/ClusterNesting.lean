import Pops.Amr.Tagging.TagMask

/-!
# Options of a clustering and proper nesting

The options and the work budgets of `pops::amr::tagging::ClusterProvider`, and the nesting test of
the Berger-Rigoutsos provider: a box may be refined only if the parent patches hold the box together
with its padding.  The padding of a cell is cut off at the domain faces, and continues on the other
side of the domain along a periodic axis.

## Main definitions

* `Pops.ClusterOptions`, `ClusterWork` — the options and the counters of the work.
* `Pops.nestingRegion`, `nestingCovered` — the padded region in pieces; the test.
* `Pops.neighbourhood` — a cell together with its padding.

## Main results

* `Pops.mem_nestingRegion` — the pieces are the neighbourhoods of the cells of the region.
* `Pops.nestingCovered_spec` — the test decides whether the parent patches hold all of them.
-/

namespace Pops

/-- The budgets of a clustering. -/
structure ClusterWorkBudget where
  shards : ℕ
  recursionNodes : ℕ
  cellVisits : ℕ
  outputBoxes : ℕ
  identityBytes : ℕ
  deriving DecidableEq

/-- The options of a clustering; an efficiency that is not a finite number is `none`. -/
structure ClusterOptions (d : ℕ) where
  minEfficiency : Option ℚ
  minBoxSize : Fin d → ℤ
  maxBoxSize : Fin d → ℤ
  budget : ClusterWorkBudget
  nestingBuffer : Fin d → ℤ
  periodicAxes : Fin d → Bool
  deriving DecidableEq

/-- The work done so far. -/
structure ClusterWork where
  allowed : ClusterWorkBudget
  nodes : ℕ
  visitedCells : ℕ
  outputBoxes : ℕ
  identityBytes : ℕ
  deriving DecidableEq

namespace ClusterWork

/-- Count a node of the recursion. -/
def visitNode (work : ClusterWork) : Throws ClusterWork := do
  throwIf (work.nodes = work.allowed.recursionNodes)
    (lengthError "Berger-Rigoutsos exceeds its recursion-node budget")
  pure { work with nodes := work.nodes + 1 }

/-- Count visited cells. -/
def visitCells (work : ClusterWork) (count : ℕ) : Throws ClusterWork := do
  throwIf (work.visitedCells > work.allowed.cellVisits ∨
      count > work.allowed.cellVisits - work.visitedCells)
    (lengthError "Berger-Rigoutsos exceeds its cell-visit budget")
  pure { work with visitedCells := work.visitedCells + count }

/-- Count boxes of the output. -/
def requireOutput (work : ClusterWork) (count : ℕ) : Throws ClusterWork := do
  throwIf (work.outputBoxes > work.allowed.outputBoxes ∨
      count > work.allowed.outputBoxes - work.outputBoxes)
    (lengthError "Berger-Rigoutsos exceeds its output-box budget")
  pure { work with outputBoxes := work.outputBoxes + count }

/-- Count bytes of the identity. -/
def requireIdentity (work : ClusterWork) (count : ℕ) : Throws ClusterWork := do
  throwIf (work.identityBytes > work.allowed.identityBytes ∨
      count > work.allowed.identityBytes - work.identityBytes)
    (lengthError "Berger-Rigoutsos exceeds its identity-copy byte budget")
  pure { work with identityBytes := work.identityBytes + count }

/-- The checked product of byte counts. -/
def checkedProduct (left right : ℕ) : Throws ℕ := do
  throwIf (right ≠ 0 ∧ left > sizeMax / right)
    (lengthError "Berger-Rigoutsos identity byte count exceeds size_t")
  pure (left * right)

end ClusterWork

variable {d : ℕ}

/-- The box with both bounds along one axis replaced. -/
def Box.setAxis (b : Box d) (axis : Fin d) (lower upper : ℤ) : Box d :=
  (b.setLo axis lower).setHi axis upper

/-! ## The padded region -/

/-- The pieces that one axis of a piece becomes: cut off at the faces of the domain, the whole axis,
or continued on the other side. -/
def nestingPieces (domain : Box d) (options : ClusterOptions d) (axis : Fin d) (piece : Box d) :
    List (Box d) :=
  let lower := piece.lo axis - options.nestingBuffer axis
  let upper := piece.hi axis + options.nestingBuffer axis
  let domainLower := domain.lo axis
  let domainUpper := domain.hi axis
  let length := domain.length axis
  if options.periodicAxes axis = false then
    [piece.setAxis axis (castInt (max lower domainLower)) (castInt (min upper domainUpper))]
  else if upper - lower + 1 ≥ length then
    [piece.setAxis axis domainLower domainUpper]
  else
    let relative := lower - domainLower
    let wrapped := domainLower + (relative.tmod length + length).tmod length
    let last := wrapped + upper - lower
    let kept := piece.setAxis axis (castInt wrapped) (castInt (min last domainUpper))
    if last > domainUpper then
      [piece.setAxis axis domainLower (castInt (domainLower + last - domainUpper - 1)), kept]
    else [kept]

/-- The pieces of the padded region, axis by axis. -/
def nestingRegion (domain : Box d) (options : ClusterOptions d) (region : Box d) : List (Box d) :=
  (List.finRange d).foldl
    (fun canonical axis => canonical.flatMap (nestingPieces domain options axis)) [region]

/-- The loop over the pieces: the parent patches hold as many cells of every piece as it has. -/
def coversAll (patches : List (Box d)) : List (Box d) → Throws Bool
  | [] => pure true
  | required :: rest => do
    let covered ← ExactCellCount.sumBoxes (patches.map fun parent => required.intersect parent)
      (overflowError "Berger-Rigoutsos nesting coverage exceeds exact count")
    let whole ← ExactCellCount.fromBox required
    if covered ≠ whole then pure false else coversAll patches rest

/-- `nesting_covered_`: the region with its nesting buffer is covered by patches of the level. -/
def nestingCovered (region : Box d) (source : LevelLayoutIdentity d) (options : ClusterOptions d)
    (work : ClusterWork) : Throws (Bool × ClusterWork) := do
  let canonical := nestingRegion source.domain options region
  let visits ← ClusterWork.checkedProduct canonical.length source.patches.length
  let work ← work.visitCells visits
  let covered ← coversAll source.patches canonical
  pure (covered, work)

/-- The coordinate `j` lies in the padding of the coordinate `i` of a cell. -/
def Padded (domain : Box d) (options : ClusterOptions d) (axis : Fin d) (i j : ℤ) : Prop :=
  if options.periodicAxes axis = false then |j - i| ≤ options.nestingBuffer axis
  else ∃ k : ℤ, |j + k * domain.length axis - i| ≤ options.nestingBuffer axis

/-- A cell together with its padding inside the domain. -/
def neighbourhood (domain : Box d) (options : ClusterOptions d) (i : Index d) : Set (Index d) :=
  {j | j ∈ domain.cells ∧ ∀ a, Padded domain options a (i a) (j a)}

/-! ## One axis -/

/-- The cells of a box with other bounds along one axis. -/
lemma Box.mem_setAxis {b : Box d} {axis : Fin d} {lower upper : ℤ} {j : Index d} :
    j ∈ (b.setAxis axis lower upper).cells ↔
      (lower ≤ j axis ∧ j axis ≤ upper) ∧ ∀ a, a ≠ axis → b.lo a ≤ j a ∧ j a ≤ b.hi a := by
  rw [Box.mem_cells]
  constructor
  · intro h
    refine ⟨by simpa [setAxis] using h axis, fun a ha => ?_⟩
    simpa [setAxis, ha] using h a
  · rintro ⟨haxis, hothers⟩ a
    by_cases ha : a = axis
    · subst ha
      simpa [setAxis] using haxis
    · simpa [setAxis, ha] using hothers a ha

/-- A coordinate is within the buffer of an interval when it is within the buffer of a point of it.
-/
lemma exists_near_iff {l h buffer j : ℤ} (hlh : l ≤ h) :
    (∃ x, (l ≤ x ∧ x ≤ h) ∧ |j - x| ≤ buffer) ↔ 0 ≤ buffer ∧ l - buffer ≤ j ∧ j ≤ h + buffer := by
  constructor
  · rintro ⟨x, hx, hnear⟩
    rw [abs_le] at hnear
    omega
  · rintro ⟨hbuffer, hl, hh⟩
    refine ⟨max l (min j h), by omega, ?_⟩
    rw [abs_le]
    omega

/-- The corrected truncated remainder is the remainder of the floor division. -/
lemma tmod_add_tmod {x length : ℤ} (h : 0 < length) :
    (x.tmod length + length).tmod length = x % length := by
  have hlower := Int.emod_nonneg x h.ne'
  have hupper := Int.emod_lt_of_pos x h
  have habs : (length.natAbs : ℤ) = length := Int.natAbs_of_nonneg h.le
  have hnonneg : 0 ≤ x.tmod length + length := by
    rw [Int.tmod_eq_emod]
    split_ifs <;> omega
  rw [Int.tmod_eq_emod_of_nonneg hnonneg, Int.add_emod_right, Int.tmod_eq_emod]
  split_ifs with hcase
  · simp
  · rw [habs, Int.sub_emod]
    simp

/-- Some translate of a coordinate by whole periods lies in an interval of at least one period. -/
lemma exists_translate {lower upper j length : ℤ} (hpos : 0 < length)
    (hlong : length ≤ upper - lower + 1) :
    ∃ k : ℤ, lower ≤ j + k * length ∧ j + k * length ≤ upper := by
  have hlow := Int.emod_nonneg (j - lower) hpos.ne'
  have hhigh := Int.emod_lt_of_pos (j - lower) hpos
  have hdiv := Int.emod_add_mul_ediv (j - lower) length
  refine ⟨-((j - lower) / length), ?_⟩
  rw [Int.neg_mul, Int.mul_comm]
  omega

/-- A translate of a coordinate of the domain lies in an interval of less than one period exactly
when the coordinate, or its translate by one period, lies in the interval moved into the domain. -/
lemma exists_translate_iff {lo hi length : ℤ} (lower upper j : ℤ) (hlength : length = hi - lo + 1)
    (hj : lo ≤ j ∧ j ≤ hi) (hshort : upper - lower + 1 < length) :
    (∃ k : ℤ, lower ≤ j + k * length ∧ j + k * length ≤ upper) ↔
      (lo + (lower - lo) % length ≤ j ∧ j ≤ lo + (lower - lo) % length + upper - lower) ∨
      (lo + (lower - lo) % length ≤ j + length ∧
        j + length ≤ lo + (lower - lo) % length + upper - lower) := by
  have hpos : 0 < length := by omega
  have hlow := Int.emod_nonneg (lower - lo) hpos.ne'
  have hhigh := Int.emod_lt_of_pos (lower - lo) hpos
  have hdiv := Int.emod_add_mul_ediv (lower - lo) length
  rw [Int.mul_comm] at hdiv
  generalize (lower - lo) % length = r at *
  generalize (lower - lo) / length = q at *
  constructor
  · rintro ⟨k, hk⟩
    have hmove : j + k * length = j + (k - q) * length + q * length := by ring
    rw [hmove] at hk
    -- after the move only the translates by no period and by one period are left
    have hkq : k - q = 0 ∨ k - q = 1 := by
      have hneg : ¬ k - q ≤ -1 := fun h => by
        have := mul_le_mul_of_nonneg_right h hpos.le
        omega
      have hbig : ¬ 2 ≤ k - q := fun h => by
        have := mul_le_mul_of_nonneg_right h hpos.le
        omega
      omega
    rcases hkq with h | h
    · rw [h, Int.zero_mul] at hk
      exact .inl (by omega)
    · rw [h, Int.one_mul] at hk
      exact .inr (by omega)
  · rintro (h | h)
    · exact ⟨q, by omega⟩
    · refine ⟨q + 1, ?_⟩
      rw [Int.add_mul, Int.one_mul]
      omega

/-- A coordinate of the domain that pads some coordinate of an interval of the region. -/
def PaddedAxis (domain : Box d) (options : ClusterOptions d) (region : Box d) (axis : Fin d)
    (j : ℤ) :
    Prop :=
  (domain.lo axis ≤ j ∧ j ≤ domain.hi axis) ∧
    ∃ x, (region.lo axis ≤ x ∧ x ≤ region.hi axis) ∧ Padded domain options axis x j

section Pieces

variable {domain : Box d} {options : ClusterOptions d} {axis : Fin d} {piece : Box d}

/-- The pieces of one axis hold the padded coordinates along it, and leave the other axes alone. -/
lemma mem_nestingPieces (hdomain : ¬ domain.Empty) (hint : domain.IsInt)
    (hbuffer : 0 ≤ options.nestingBuffer axis) (hlo : domain.lo axis ≤ piece.lo axis)
    (hle : piece.lo axis ≤ piece.hi axis) (hhi : piece.hi axis ≤ domain.hi axis) {j : Index d} :
    (∃ q ∈ nestingPieces domain options axis piece, j ∈ q.cells) ↔
      PaddedAxis domain options piece axis (j axis) ∧
        ∀ a, a ≠ axis → piece.lo a ≤ j a ∧ j a ≤ piece.hi a := by
  have hlength := Box.length_of_nonempty hdomain axis
  have hpos := Box.length_pos hdomain axis
  have hrange := hint axis
  unfold PaddedAxis Padded nestingPieces
  cases hperiodic : options.periodicAxes axis with
  | false =>
    have hlow : castInt (max (piece.lo axis - options.nestingBuffer axis) (domain.lo axis)) =
        max (piece.lo axis - options.nestingBuffer axis) (domain.lo axis) :=
      castInt_of_isInt (by unfold IsInt at *; omega)
    have hhigh : castInt (min (piece.hi axis + options.nestingBuffer axis) (domain.hi axis)) =
        min (piece.hi axis + options.nestingBuffer axis) (domain.hi axis) :=
      castInt_of_isInt (by unfold IsInt at *; omega)
    simp only [if_true, List.mem_singleton, exists_eq_left, Box.mem_setAxis, hlow, hhigh,
      exists_near_iff hle]
    refine and_congr_left fun _ => ?_
    omega
  | true =>
    have hshift : (∃ x, (piece.lo axis ≤ x ∧ x ≤ piece.hi axis) ∧
        ∃ k : ℤ, |j axis + k * domain.length axis - x| ≤ options.nestingBuffer axis) ↔
        ∃ k : ℤ, piece.lo axis - options.nestingBuffer axis ≤ j axis + k * domain.length axis ∧
          j axis + k * domain.length axis ≤ piece.hi axis + options.nestingBuffer axis := by
      constructor
      · rintro ⟨x, hx, k, hk⟩
        exact ⟨k, ((exists_near_iff hle).mp ⟨x, hx, hk⟩).2⟩
      · rintro ⟨k, hk⟩
        obtain ⟨x, hx, hnear⟩ := (exists_near_iff hle).mpr ⟨hbuffer, hk⟩
        exact ⟨x, hx, k, hnear⟩
    simp only [Bool.true_eq_false, if_false, hshift]
    split_ifs with hlong hlast
    · -- the padded interval is as long as the axis
      simp only [List.mem_singleton, exists_eq_left, Box.mem_setAxis]
      refine and_congr_left fun _ => ⟨fun hj => ⟨hj, exists_translate hpos ?_⟩, fun hj => hj.1⟩
      omega
    all_goals
      -- the padded interval starts in the domain after a move by whole periods
      rw [tmod_add_tmod hpos] at hlast ⊢
      have hlow :=
        Int.emod_nonneg (piece.lo axis - options.nestingBuffer axis - domain.lo axis) hpos.ne'
      have hhigh := Int.emod_lt_of_pos
        (piece.lo axis - options.nestingBuffer axis - domain.lo axis) hpos
      have htranslate := fun hj => exists_translate_iff (piece.lo axis - options.nestingBuffer axis)
        (piece.hi axis + options.nestingBuffer axis) (j axis) hlength hj (by omega)
      generalize (piece.lo axis - options.nestingBuffer axis - domain.lo axis) %
        domain.length axis = r
        at *
      have hstart : castInt (domain.lo axis + r) = domain.lo axis + r :=
        castInt_of_isInt (by unfold IsInt at *; omega)
      have hend : castInt (min (domain.lo axis + r + (piece.hi axis + options.nestingBuffer axis) -
          (piece.lo axis - options.nestingBuffer axis)) (domain.hi axis)) =
          min (domain.lo axis + r + (piece.hi axis + options.nestingBuffer axis) -
            (piece.lo axis - options.nestingBuffer axis)) (domain.hi axis) :=
        castInt_of_isInt (by unfold IsInt at *; omega)
    · have hrest : castInt (domain.lo axis + (domain.lo axis + r +
          (piece.hi axis + options.nestingBuffer axis) -
            (piece.lo axis - options.nestingBuffer axis)) -
          domain.hi axis - 1) = domain.lo axis + (domain.lo axis + r +
          (piece.hi axis + options.nestingBuffer axis) -
            (piece.lo axis - options.nestingBuffer axis)) -
          domain.hi axis - 1 :=
        castInt_of_isInt (by unfold IsInt at *; omega)
      simp only [List.mem_cons, List.not_mem_nil, or_false, exists_eq_or_imp, exists_eq_left,
        Box.mem_setAxis, hstart, hend, hrest, ← or_and_right]
      refine and_congr_left fun _ => ⟨fun h => ?_, fun h => ?_⟩
      · have hj : domain.lo axis ≤ j axis ∧ j axis ≤ domain.hi axis := by omega
        exact ⟨hj, (htranslate hj).mpr (by omega)⟩
      · have := (htranslate h.1).mp h.2
        omega
    · simp only [List.mem_singleton, exists_eq_left, Box.mem_setAxis, hstart, hend]
      refine and_congr_left fun _ => ⟨fun h => ?_, fun h => ?_⟩
      · have hj : domain.lo axis ≤ j axis ∧ j axis ≤ domain.hi axis := by omega
        exact ⟨hj, (htranslate hj).mpr (by omega)⟩
      · have := (htranslate h.1).mp h.2
        omega

/-- The pieces of one axis keep the bounds along the other axes. -/
lemma nestingPieces_other {q : Box d} (hq : q ∈ nestingPieces domain options axis piece)
    {a : Fin d} (ha : a ≠ axis) : q.lo a = piece.lo a ∧ q.hi a = piece.hi a := by
  have hset : ∀ l u, (piece.setAxis axis l u).lo a = piece.lo a ∧
      (piece.setAxis axis l u).hi a = piece.hi a := fun l u => by simp [Box.setAxis, ha]
  simp only [nestingPieces] at hq
  split_ifs at hq
  · rw [List.mem_singleton.mp hq]
    exact hset _ _
  · rw [List.mem_singleton.mp hq]
    exact hset _ _
  · rcases List.mem_pair.mp hq with rfl | rfl
    · exact hset _ _
    · exact hset _ _
  · rw [List.mem_singleton.mp hq]
    exact hset _ _

end Pieces

/-! ## The whole region -/

section Region

variable {domain : Box d} {options : ClusterOptions d} {region : Box d}

/-- The loop over the axes, from pieces that are padded along the axes `done` only.

**Proof sketch.** Induction on the remaining axes.  Along an axis that is not padded yet every piece
still has the bounds of the region, so one round pads exactly that axis (`mem_nestingPieces`). -/
theorem foldl_nestingPieces (hdomain : ¬ domain.Empty) (hint : domain.IsInt)
    (hbuffer : ∀ a, 0 ≤ options.nestingBuffer a) (hregion : ¬ region.Empty)
    (hsubset : region.cells ⊆ domain.cells) {axes : List (Fin d)} :
    ∀ (done : List (Fin d)) (canonical : List (Box d)), axes.Nodup → (∀ a ∈ axes, a ∉ done) →
      (∀ q ∈ canonical, ∀ a, a ∉ done → q.lo a = region.lo a ∧ q.hi a = region.hi a) →
      (∀ j, (∃ q ∈ canonical, j ∈ q.cells) ↔ ∀ a,
        (a ∈ done → PaddedAxis domain options region a (j a)) ∧
        (a ∉ done → region.lo a ≤ j a ∧ j a ≤ region.hi a)) →
      ∀ j, (∃ q ∈ axes.foldl
          (fun canonical axis => canonical.flatMap (nestingPieces domain options axis)) canonical,
          j ∈ q.cells) ↔
        ∀ a, (a ∈ axes ++ done → PaddedAxis domain options region a (j a)) ∧
          (a ∉ axes ++ done → region.lo a ≤ j a ∧ j a ≤ region.hi a) := by
  induction axes with
  | nil => exact fun _ _ _ _ _ hcells => hcells
  | cons axis rest ih =>
    intro done canonical hnodup hnew hbounds hcells j
    rw [List.nodup_cons] at hnodup
    have haxis : axis ∉ done := hnew axis (by simp)
    have hlo := Box.mem_cells.mp (hsubset (Box.lo_mem_cells hregion)) axis
    have hhi := Box.mem_cells.mp (hsubset (Box.hi_mem_cells hregion)) axis
    have hle := Box.lo_le_hi hregion axis
    have hpieces : ∀ q ∈ canonical, ∀ i, (∃ p ∈ nestingPieces domain options axis q, i ∈ p.cells) ↔
        PaddedAxis domain options region axis (i axis) ∧
          ∀ a, a ≠ axis → q.lo a ≤ i a ∧ i a ≤ q.hi a := by
      intro q hq i
      obtain ⟨hqlo, hqhi⟩ := hbounds q hq axis haxis
      rw [mem_nestingPieces hdomain hint (hbuffer axis) (by omega) (by omega) (by omega)]
      unfold PaddedAxis
      rw [hqlo, hqhi]
    rw [List.foldl_cons, ih (axis :: done) _ hnodup.2]
    · simp only [List.mem_append, List.mem_cons, ← or_assoc, or_comm]
    · intro a ha hmem
      rcases List.mem_cons.mp hmem with rfl | hmem
      · exact hnodup.1 ha
      · exact hnew a (by simp [ha]) hmem
    · intro p hp a ha
      obtain ⟨q, hq, hpq⟩ := List.mem_flatMap.mp hp
      rw [List.mem_cons, not_or] at ha
      obtain ⟨hplo, hphi⟩ := nestingPieces_other hpq ha.1
      rw [hplo, hphi]
      exact hbounds q hq a ha.2
    · intro i
      -- along the axis every piece still has the bounds of the region
      have hmove : (∃ q ∈ canonical, ∀ a, a ≠ axis → q.lo a ≤ i a ∧ i a ≤ q.hi a) ↔
          ∃ q ∈ canonical, Function.update i axis (region.lo axis) ∈ q.cells := by
        refine exists_congr fun q => and_congr_right fun hq => ?_
        obtain ⟨hqlo, hqhi⟩ := hbounds q hq axis haxis
        rw [Box.mem_cells, Function.forall_update_iff i fun a t => q.lo a ≤ t ∧ t ≤ q.hi a]
        exact ⟨fun h => ⟨by omega, h⟩, fun h => h.2⟩
      have hround : (∃ p ∈ canonical.flatMap (nestingPieces domain options axis), i ∈ p.cells) ↔
          PaddedAxis domain options region axis (i axis) ∧
            ∃ q ∈ canonical, ∀ a, a ≠ axis → q.lo a ≤ i a ∧ i a ≤ q.hi a := by
        constructor
        · rintro ⟨p, hp, hi⟩
          obtain ⟨q, hq, hpq⟩ := List.mem_flatMap.mp hp
          obtain ⟨hpad, hothers⟩ := (hpieces q hq i).mp ⟨p, hpq, hi⟩
          exact ⟨hpad, q, hq, hothers⟩
        · rintro ⟨hpad, q, hq, hothers⟩
          obtain ⟨p, hpq, hi⟩ := (hpieces q hq i).mpr ⟨hpad, hothers⟩
          exact ⟨p, List.mem_flatMap.mpr ⟨q, hq, hpq⟩, hi⟩
      rw [hround, hmove, hcells, Function.forall_update_iff i fun a t =>
        (a ∈ done → PaddedAxis domain options region a t) ∧
          (a ∉ done → region.lo a ≤ t ∧ t ≤ region.hi a)]
      constructor
      · rintro ⟨hpad, -, hothers⟩ a
        by_cases ha : a = axis
        · subst ha
          exact ⟨fun _ => hpad, fun h => absurd (List.mem_cons_self ..) h⟩
        · simpa [ha] using hothers a ha
      · intro h
        refine ⟨(h axis).1 (by simp), ⟨fun hmem => absurd hmem haxis, fun _ => by omega⟩,
          fun a ha => ?_⟩
        simpa [ha] using h a

/-- **The pieces are the neighbourhoods of the cells of the region.** -/
theorem mem_nestingRegion (hdomain : ¬ domain.Empty) (hint : domain.IsInt)
    (hbuffer : ∀ a, 0 ≤ options.nestingBuffer a) (hregion : ¬ region.Empty)
    (hsubset : region.cells ⊆ domain.cells) {j : Index d} :
    (∃ q ∈ nestingRegion domain options region, j ∈ q.cells) ↔
      ∃ i ∈ region.cells, j ∈ neighbourhood domain options i := by
  have hloop := foldl_nestingPieces hdomain hint hbuffer hregion hsubset [] [region]
    (List.nodup_finRange d) (by simp) (by simp) (by simp) j
  simp only [List.append_nil, List.mem_finRange, forall_true_left, not_true_eq_false,
    false_implies, and_true] at hloop
  rw [nestingRegion, hloop]
  simp only [neighbourhood, Set.mem_ofPred_eq]
  constructor
  · intro h
    choose i hi using fun a => (h a).2
    exact ⟨i, Box.mem_cells.mpr fun a => (hi a).1, Box.mem_cells.mpr fun a => (h a).1,
      fun a => (hi a).2⟩
  · rintro ⟨i, hi, hj, hpad⟩ a
    exact ⟨Box.mem_cells.mp hj a, i a, Box.mem_cells.mp hi a, hpad a⟩

end Region

/-- The counting loop decides whether the pieces lie in disjoint patches. -/
lemma coversAll_eq_ok {patches pieces : List (Box d)}
    (hdisjoint : (patches.map Box.cells).Pairwise Disjoint) {covered : Bool}
    (h : coversAll patches pieces = .ok covered) :
    covered = true ↔ ∀ q ∈ pieces, ∀ j ∈ q.cells, ∃ b ∈ patches, j ∈ b.cells := by
  induction pieces with
  | nil => simp [← pure_eq_ok.mp h]
  | cons q rest ih =>
    simp only [coversAll, bind_eq_ok, ExactCellCount.sumBoxes_eq_ok, ExactCellCount.fromBox_eq_ok]
      at h
    obtain ⟨count, hcount, whole, hwhole, h⟩ := h
    have hsum : count.toNat = ((patches.map Box.cells).map fun t => (q.cells ∩ t).card).sum := by
      rw [hcount, List.map_map, List.map_map]
      simp [Function.comp_def]
    have hiff := Cover.sum_card_inter_eq_iff q.cells hdisjoint
    rw [← hsum, ← hwhole] at hiff
    simp only [List.mem_map, exists_exists_and_eq_and] at hiff
    rw [List.forall_mem_cons, ← hiff]
    split_ifs at h with hne
    · obtain rfl := pure_eq_ok.mp h
      simp only [Bool.false_eq_true, false_iff, not_and]
      exact fun heq => absurd (Limbs.Number.toNat_injective heq) hne
    · rw [not_not] at hne
      rw [ih h, hne]
      simp

/-- **The nesting test decides proper nesting**: it accepts a region exactly when the parent patches
hold the neighbourhood of every cell of the region. -/
theorem nestingCovered_spec {source : LevelLayoutIdentity d} {options : ClusterOptions d}
    {region : Box d} {work after : ClusterWork} {covered : Bool} (hdomain : ¬ source.domain.Empty)
    (hint : source.domain.IsInt) (hbuffer : ∀ a, 0 ≤ options.nestingBuffer a)
    (hdisjoint : (source.patches.map Box.cells).Pairwise Disjoint) (hregion : ¬ region.Empty)
    (hsubset : region.cells ⊆ source.domain.cells)
    (h : nestingCovered region source options work = .ok (covered, after)) :
    (covered = true ↔ ∀ i ∈ region.cells, ∀ j ∈ neighbourhood source.domain options i,
      ∃ b ∈ source.patches, j ∈ b.cells) ∧
      after.allowed = work.allowed ∧ after.nodes = work.nodes := by
  simp only [nestingCovered, ClusterWork.checkedProduct, ClusterWork.visitCells, bind_eq_ok,
    throwIf_eq_ok, exists_const, pure_eq_ok, Prod.mk.injEq] at h
  obtain ⟨_, ⟨_, _⟩, _, ⟨_, rfl⟩, result, hresult, rfl, rfl⟩ := h
  refine ⟨?_, rfl, rfl⟩
  rw [coversAll_eq_ok hdisjoint hresult]
  constructor
  · intro hall i hi j hj
    obtain ⟨q, hq, hjq⟩ := (mem_nestingRegion hdomain hint hbuffer hregion hsubset).mpr ⟨i, hi, hj⟩
    exact hall q hq j hjq
  · intro hall q hq j hj
    obtain ⟨i, hi, hji⟩ := (mem_nestingRegion hdomain hint hbuffer hregion hsubset).mp ⟨q, hq, hj⟩
    exact hall i hi j hji

end Pops
