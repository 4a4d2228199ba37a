import Pops.Amr.Levels.ClockRelation
import Pops.Foundation.AxisInterpolation
import Pops.Foundation.MapSum
import Pops.Runtime.Program.HistoryFlux

/-!
# A lineage of history fluxes is one interpolation

Every generation of `source_queries` splits the weighted faces along their axis and merges those
that meet.  The merged map stands for the sum of its weights times the data of its faces, and a
generation keeps that sum when the data is read through it.  So a whole lineage reads the data of
the root by one interpolation with the product of the ratios.  The faces are kept in increasing
order and their weights are positive, so the map itself is the single projection; the differences of
the fluxes over the fine cells of a root cell then add up to the difference at the root.

## Main definitions

* `Pops.HistoryFlux.value` — the interpolated flux of weighted faces.
* `Pops.HistoryFlux.Snapshot.read` — the data of the root, read through the lineage.
* `Pops.HistoryFlux.Snapshot.project` — the single projection with the product of the ratios.

## Main results

* `Pops.HistoryFlux.projectQueries_value` — a generation keeps the flux.
* `Pops.HistoryFlux.resolve_value` — so does a lineage.
* `Pops.HistoryFlux.sourceQueries_interpolation` — the result of a query and the sum over a root
  cell.
-/

namespace Pops

open AxisInterpolation OrderedMap

namespace HistoryFlux

variable {d : ℕ}

/-! ## The order of the faces -/

namespace FaceQuery

/-- The next face comes later.

**Proof sketch.** The codes agree on the axis and on the coordinates after it, and the coordinate of
the axis grows. -/
theorem lt_next (query : FaceQuery d) : query < query.next := by
  show query.code < query.next.code
  rw [code, code, List.cons_lt_cons_iff]
  refine .inr ⟨rfl, ?_⟩
  refine List.lt_iff_exists.mpr (.inr ⟨d - 1 - query.axis, ?_⟩)
  have haxis := query.axis.isLt
  refine ⟨by simp only [List.length_reverse, List.length_ofFn]; omega,
    by simp only [List.length_reverse, List.length_ofFn]; omega, ?_, ?_⟩
  · intro j hj
    rw [List.getElem_reverse, List.getElem_reverse, List.getElem_ofFn, List.getElem_ofFn]
    simp only [List.length_ofFn, next]
    rw [Function.update_of_ne]
    intro h
    have := congrArg Fin.val h
    simp only at this
    omega
  · rw [List.getElem_reverse, List.getElem_reverse, List.getElem_ofFn, List.getElem_ofFn]
    have hgrows : ∀ i : Fin d, i = query.axis → query.face i < query.next.face i := by
      rintro i rfl
      simp only [next, Function.update_self]
      omega
    simp only [List.length_ofFn]
    refine hgrows _ (Fin.ext ?_)
    show d - 1 - (d - 1 - (query.axis : ℕ)) = query.axis
    omega

end FaceQuery

/-! ## Weighted faces -/

/-- The faces are in increasing order, with positive weights in canonical form. -/
structure Weighted (queries : Queries d) : Prop where
  sorted : Sorted queries
  canonical : ∀ entry ∈ queries, entry.2.Canonical
  positive : ∀ entry ∈ queries, 0 < entry.2.toRat

/-- No faces. -/
lemma weighted_nil : Weighted ([] : Queries d) :=
  ⟨List.Pairwise.nil, fun _ h => absurd h List.not_mem_nil, fun _ h => absurd h List.not_mem_nil⟩

/-- Whole numbers are canonical. -/
lemma canonical_integer {n : ℤ} (hn : IsInt64 n) : (⟨n, 1⟩ : Rational).Canonical :=
  ⟨hn, Int.one_pos, (by decide : (1 : ℤ) ≤ int64Max), isCoprime_one_right⟩

/-- A single face of weight one. -/
lemma weighted_single (query : FaceQuery d) : Weighted [(query, ⟨1, 1⟩)] := by
  refine ⟨List.pairwise_singleton _ _, ?_, ?_⟩
  · intro entry hentry
    rw [List.mem_singleton.mp hentry]
    exact canonical_integer (by decide)
  · intro entry hentry
    rw [List.mem_singleton.mp hentry]
    simp [Rational.toRat]

/-- What an added weight does: the face has the sum of its weight and the share. -/
lemma addWeight_eq_ok {next next' : Queries d} {face : FaceQuery d} {weight : Rational}
    {part ratio : ℤ} (hnext : Weighted next) (hweight : weight.Canonical) (hratio : 0 < ratio)
    (h : addWeight next face weight part ratio = .ok next') :
    ∃ sum : Rational, sum.Canonical ∧
      sum.toRat = ((lookup next face).getD ⟨0, 1⟩).toRat + weight.toRat * ((part : ℚ) / ratio) ∧
      next' = assign next face sum := by
  simp only [addWeight, bind_eq_ok, pure_eq_ok] at h
  obtain ⟨share, hshare, product, hproduct, sum, hsum, rfl⟩ := h
  have hshare' := Rational.create_canonical hshare
  have hproduct' := Rational.mul_canonical hproduct
  have hold : ((lookup next face).getD ⟨0, 1⟩).Canonical := by
    cases hl : lookup next face with
    | none => exact canonical_integer (by decide)
    | some w => exact hnext.canonical _ (mem_of_lookup hl)
  refine ⟨sum, Rational.addOrSubtract_canonical hsum, ?_, rfl⟩
  rw [Rational.toRat_add hold hproduct' hsum, Rational.toRat_mul hweight hshare' hproduct,
    (Rational.create_exact part hratio.ne').eq_ok hshare]

/-- The weights stay positive. -/
lemma addWeight_weighted {next next' : Queries d} {face : FaceQuery d} {weight : Rational}
    {part ratio : ℤ} (hnext : Weighted next) (hweight : weight.Canonical)
    (hpos : 0 < weight.toRat) (hpart : 0 < part) (hratio : 0 < ratio)
    (h : addWeight next face weight part ratio = .ok next') : Weighted next' := by
  obtain ⟨sum, hcanonical, hsum, rfl⟩ := addWeight_eq_ok hnext hweight hratio h
  have hold : 0 ≤ ((lookup next face).getD ⟨0, 1⟩).toRat := by
    cases hl : lookup next face with
    | none => simp [Rational.toRat]
    | some w => exact (hnext.positive _ (mem_of_lookup hl)).le
  have hshare : (0 : ℚ) < (part : ℚ) / ratio :=
    div_pos (Int.cast_pos.mpr hpart) (Int.cast_pos.mpr hratio)
  have hsumpos : 0 < sum.toRat := by
    rw [hsum]
    have := mul_pos hpos hshare
    linarith
  refine ⟨hnext.sorted.assign face sum, ?_, ?_⟩
  · intro entry hentry
    rcases mem_of_mem_assign hentry with rfl | hentry
    · exact hcanonical
    · exact hnext.canonical entry hentry
  · intro entry hentry
    rcases mem_of_mem_assign hentry with rfl | hentry
    · exact hsumpos
    · exact hnext.positive entry hentry

section

variable {K : Type*} [Field K]

/-- The interpolated flux of weighted faces. -/
def value (φ : FaceQuery d → K) (queries : Queries d) : K :=
  total (fun face weight => (weight.toRat : K) * φ face) queries

/-- No queries have the value zero. -/
@[simp] lemma value_nil (φ : FaceQuery d → K) : value φ ([] : Queries d) = 0 := rfl

/-- The value of two lists of queries. -/
@[simp] lemma value_append (φ : FaceQuery d → K) (left right : Queries d) :
    value φ (left ++ right) = value φ left + value φ right := by
  simp [value, total]

/-- The value of one weighted query. -/
@[simp] lemma value_single (φ : FaceQuery d → K) (entry : FaceQuery d × Rational) :
    value φ [entry] = (entry.2.toRat : K) * φ entry.1 := by
  simp [value, total]

variable [CharZero K]

/-- An added weight adds its share of the data. -/
lemma addWeight_value {next next' : Queries d} {face : FaceQuery d} {weight : Rational}
    {part ratio : ℤ} (hnext : Weighted next) (hweight : weight.Canonical) (hratio : 0 < ratio)
    (h : addWeight next face weight part ratio = .ok next') (φ : FaceQuery d → K) :
    value φ next' =
      value φ next + (weight.toRat : K) * ((part : K) / (ratio : K)) * φ face := by
  obtain ⟨sum, -, hsum, rfl⟩ := addWeight_eq_ok hnext hweight hratio h
  have hassign := total_assign (fun (face : FaceQuery d) (weight : Rational) =>
    (weight.toRat : K) * φ face) hnext.sorted face sum
  have hold : ((lookup next face).map fun weight : Rational => (weight.toRat : K) * φ face).getD 0 =
      (((lookup next face).getD ⟨0, 1⟩).toRat : K) * φ face := by
    cases lookup next face with
    | none => simp [Rational.toRat]
    | some w => rfl
  have hcast : (sum.toRat : K) = (((lookup next face).getD ⟨0, 1⟩).toRat : K) +
      (weight.toRat : K) * ((part : K) / (ratio : K)) := by
    rw [hsum]
    push_cast
    rfl
  rw [hold, hcast] at hassign
  unfold value
  linear_combination hassign

end

/-! ## A generation -/

/-- The quotient is the floor of the division. -/
lemma floorQuotient_eq {relative ratio : ℤ} (hratio : 0 < ratio) :
    floorQuotient relative ratio = relative / ratio := by
  unfold floorQuotient
  have hmod := Int.tmod_eq_emod (a := relative) (b := ratio)
  have hdiv := Int.tdiv_eq_ediv (a := relative) (b := ratio)
  have hnonneg := Int.emod_nonneg relative hratio.ne'
  have hlt := Int.emod_lt_of_pos relative hratio
  have hsign := Int.sign_eq_one_of_pos hratio
  have habs : (ratio.natAbs : ℤ) = ratio := Int.natAbs_of_nonneg hratio.le
  rw [hdiv, hmod, hsign]
  by_cases hexact : 0 ≤ relative ∨ ratio ∣ relative
  · rw [if_pos hexact, if_pos hexact, if_neg (by omega)]
    omega
  · rw [if_neg hexact, if_neg hexact, habs, if_pos (by omega)]
    omega

/-- The coarse face at or below a fine one. -/
lemma lowerFace_eq_ok {domain parentDomain : Box d} {ratio : Fin d → ℤ}
    {query lower : FaceQuery d} (hratio : ∀ a, 0 < ratio a)
    (h : lowerFace domain parentDomain ratio query = .ok lower) :
    lower = ⟨query.axis, below domain.lo parentDomain.lo ratio query.face⟩ := by
  simp only [lowerFace, bind_eq_ok, pure_eq_ok, forEachAxis_eq_ok, checkedIndex_eq_ok] at h
  obtain ⟨face, hface, rfl⟩ := h
  refine FaceQuery.ext rfl (funext fun a => ?_)
  show face a = below domain.lo parentDomain.lo ratio query.face a
  rw [← (hface a).2, floorQuotient_eq (hratio a)]
  rfl

/-- What is left along the normal. -/
lemma normalRemainder_eq {domain : Box d} {ratio : Fin d → ℤ} {query : FaceQuery d}
    (hratio : 0 < ratio query.axis) :
    normalRemainder domain ratio query = offset domain.lo ratio query.axis query.face := by
  simp only [normalRemainder, floorQuotient_eq hratio, offset]
  have := Int.emod_add_mul_ediv (query.face query.axis - domain.lo query.axis) (ratio query.axis)
  linear_combination -this

/-- What the projection of one weighted face does: it adds a share at the face below and, unless the
fine face lies on it, a share at the face above. -/
lemma projectQuery_eq_ok {domain parentDomain : Box d} {ratio : Fin d → ℤ}
    {next result : Queries d} {entry : FaceQuery d × Rational} (hratio : ∀ a, 0 < ratio a)
    (h : projectQuery domain parentDomain ratio next entry = .ok result) :
    ∃ middle, addWeight next ⟨entry.1.axis, below domain.lo parentDomain.lo ratio entry.1.face⟩
        entry.2 (ratio entry.1.axis - offset domain.lo ratio entry.1.axis entry.1.face)
        (ratio entry.1.axis) = .ok middle ∧
      (offset domain.lo ratio entry.1.axis entry.1.face = 0 ∧ result = middle ∨
        offset domain.lo ratio entry.1.axis entry.1.face ≠ 0 ∧
          addWeight middle
            ⟨entry.1.axis, succ entry.1.axis (below domain.lo parentDomain.lo ratio entry.1.face)⟩
            entry.2 (offset domain.lo ratio entry.1.axis entry.1.face) (ratio entry.1.axis) =
              .ok result) := by
  simp only [projectQuery, bind_eq_ok, normalRemainder_eq (hratio _)] at h
  obtain ⟨lower, hlower, middle, hmiddle, h⟩ := h
  obtain rfl := lowerFace_eq_ok hratio hlower
  refine ⟨middle, hmiddle, ?_⟩
  split_ifs at h with hoffset
  · simp only [bind_eq_ok, checkedIndex_eq_ok] at h
    obtain ⟨coordinate, ⟨-, rfl⟩, h⟩ := h
    exact .inr ⟨hoffset, h⟩
  · exact .inl ⟨not_not.mp hoffset, (pure_eq_ok.mp h).symm⟩

/-- The offset lies below the ratio. -/
lemma offset_lt (fine : Fin d → ℤ) {ratio : Fin d → ℤ} {axis : Fin d} (hratio : 0 < ratio axis)
    (x : Fin d → ℤ) :
    0 ≤ offset fine ratio axis x ∧ offset fine ratio axis x < ratio axis :=
  ⟨Int.emod_nonneg _ hratio.ne', Int.emod_lt_of_pos _ hratio⟩

/-- The projection of one weighted face keeps the order and the signs. -/
lemma projectQuery_weighted {domain parentDomain : Box d} {ratio : Fin d → ℤ}
    {next result : Queries d} {entry : FaceQuery d × Rational} (hratio : ∀ a, 0 < ratio a)
    (hnext : Weighted next) (hcanonical : entry.2.Canonical) (hpos : 0 < entry.2.toRat)
    (h : projectQuery domain parentDomain ratio next entry = .ok result) : Weighted result := by
  obtain ⟨middle, hmiddle, h⟩ := projectQuery_eq_ok hratio h
  have hoffset := offset_lt domain.lo (hratio entry.1.axis) entry.1.face
  have hmiddle' := addWeight_weighted hnext hcanonical hpos (by omega) (hratio _) hmiddle
  rcases h with ⟨-, rfl⟩ | ⟨hne, h⟩
  · exact hmiddle'
  · exact addWeight_weighted hmiddle' hcanonical hpos (by omega) (hratio _) h

section

variable {K : Type*} [Field K] [CharZero K]

/-- The data of the parent, read at a fine face. -/
def readFace (fine coarse ratio : Fin d → ℤ) (φ : FaceQuery d → K) (query : FaceQuery d) : K :=
  interpolate fine coarse ratio query.axis (fun x => φ ⟨query.axis, x⟩) query.face

/-- The projection of one weighted face adds its weight times the data read there. -/
lemma projectQuery_value {domain parentDomain : Box d} {ratio : Fin d → ℤ}
    {next result : Queries d} {entry : FaceQuery d × Rational} (hratio : ∀ a, 0 < ratio a)
    (hnext : Weighted next) (hcanonical : entry.2.Canonical) (hpos : 0 < entry.2.toRat)
    (h : projectQuery domain parentDomain ratio next entry = .ok result) (φ : FaceQuery d → K) :
    value φ result =
      value φ next + (entry.2.toRat : K) * readFace domain.lo parentDomain.lo ratio φ entry.1 := by
  obtain ⟨middle, hmiddle, h⟩ := projectQuery_eq_ok hratio h
  have hoffset := offset_lt domain.lo (hratio entry.1.axis) entry.1.face
  have hmiddle' := addWeight_weighted hnext hcanonical hpos (by omega) (hratio _) hmiddle
  have hlower := addWeight_value hnext hcanonical (hratio _) hmiddle φ
  have hne : (ratio entry.1.axis : K) ≠ 0 := Int.cast_ne_zero.mpr (hratio _).ne'
  unfold readFace interpolate
  rcases h with ⟨hzero, rfl⟩ | ⟨-, h⟩
  · rw [hlower, hzero]
    push_cast
    field_simp
    ring
  · rw [addWeight_value hmiddle' hcanonical (hratio _) h φ, hlower]
    push_cast
    field_simp
    ring

/-- A generation keeps the order, the signs and the flux. -/
theorem projectQueries_value {domain parentDomain : Box d} {ratio : Fin d → ℤ}
    {queries result : Queries d} (hratio : ∀ a, 0 < ratio a) (hqueries : Weighted queries)
    (h : queries.foldlM (projectQuery domain parentDomain ratio) [] = .ok result)
    (φ : FaceQuery d → K) :
    Weighted result ∧
    value φ result = value (readFace domain.lo parentDomain.lo ratio φ) queries := by
  refine foldlM_invariant
    (P := fun done next => Weighted next ∧
      value φ next = value (readFace domain.lo parentDomain.lo ratio φ) done) h
    ⟨weighted_nil, rfl⟩ ?_
  rintro done entry rest next next' rfl ⟨hnext, hvalue⟩ hstep
  have hentry : entry ∈ done ++ entry :: rest := by simp
  have hcanonical := hqueries.canonical entry hentry
  have hpos := hqueries.positive entry hentry
  refine ⟨projectQuery_weighted hratio hnext hcanonical hpos hstep, ?_⟩
  rw [projectQuery_value hratio hnext hcanonical hpos hstep, hvalue, value_append, value_single]

end

/-! ## A lineage -/

section

variable {metricMismatch : Binary64 → ℤ → Binary64 → Bool}

/-- The checks of a projection leave positive ratios. -/
lemma ratio_pos_of_metadata {archive : Archive d} {ratio : Fin d → ℤ} {parent : Snapshot d}
    (h : metadata metricMismatch (.projection archive ratio parent) = .ok ()) (a : Fin d) :
    0 < ratio a := by
  simp only [metadata, bind_eq_ok, throwIf_eq_ok, forEachAxis_eq_ok] at h
  obtain ⟨_, -, _, -, _, hratio, -⟩ := h
  have ha := hratio a
  simp only [checkRatio, bind_eq_ok, throwIf_eq_ok] at ha
  obtain ⟨_, ha, -⟩ := ha
  omega

/-- What a checked level says. -/
lemma checkLevel_eq_ok {snapshot : Snapshot d} {levels : ℕ} {queries : Queries d}
    (h : checkLevel metricMismatch snapshot levels queries = .ok ()) :
    metadata metricMismatch snapshot = .ok () ∧
      ∀ entry ∈ queries, ∃ patch, supportingPatch snapshot.archive entry.1 = .ok patch := by
  simp only [checkLevel, bind_eq_ok, throwIf_eq_ok, forEach_eq_ok] at h
  obtain ⟨_, -, _, hmetadata, hsupport⟩ := h
  refine ⟨hmetadata, fun entry hentry => ?_⟩
  have hpatch := hsupport entry hentry
  cases hs : supportingPatch snapshot.archive entry.1 with
  | error e => simp [hs, Except.map] at hpatch
  | ok patch => exact ⟨patch, rfl⟩

/-- The ratios of a lineage that resolved are positive. -/
lemma ratios_pos_of_resolve {snapshot : Snapshot d} {levels : ℕ} {queries result : Queries d}
    (h : resolve metricMismatch snapshot levels queries = .ok result) (a : Fin d) :
    0 < snapshot.ratios a := by
  induction snapshot generalizing levels queries with
  | raw archive => exact Int.one_pos
  | projection archive ratio parent ih =>
    simp only [resolve, bind_eq_ok] at h
    obtain ⟨_, hcheck, next, -, h⟩ := h
    exact mul_pos (ratio_pos_of_metadata (checkLevel_eq_ok hcheck).1 a) (ih h)

/-- The faces of the result are supported at the root. -/
lemma supported_of_resolve {snapshot : Snapshot d} {levels : ℕ} {queries result : Queries d}
    (h : resolve metricMismatch snapshot levels queries = .ok result) :
    ∀ entry ∈ result, ∃ patch, supportingPatch snapshot.root entry.1 = .ok patch := by
  induction snapshot generalizing levels queries with
  | raw archive =>
    simp only [resolve, bind_eq_ok, pure_eq_ok] at h
    obtain ⟨_, hcheck, rfl⟩ := h
    exact (checkLevel_eq_ok hcheck).2
  | projection archive ratio parent ih =>
    simp only [resolve, bind_eq_ok] at h
    obtain ⟨_, -, next, -, h⟩ := h
    exact ih h

/-- A supporting patch has the face among its own. -/
lemma supportingFrom_eq_ok {query : FaceQuery d} {patches : List (Box d)} {start patch : ℕ}
    (h : supportingFrom query patches start = .ok patch) :
    ∃ cells ∈ patches, ∃ faces, faceBox cells query.axis = .ok faces ∧
    faces.Contains query.face := by
  induction patches generalizing start with
  | nil => simp [supportingFrom, throw, throwThe, MonadExceptOf.throw] at h
  | cons cells rest ih =>
    simp only [supportingFrom, bind_eq_ok] at h
    obtain ⟨faces, hfaces, h⟩ := h
    split_ifs at h with hcontains
    · exact ⟨cells, List.mem_cons_self, faces, hfaces, hcontains⟩
    · obtain ⟨cells', hmem, hsupport⟩ := ih h
      exact ⟨cells', List.mem_cons_of_mem _ hmem, hsupport⟩

end

section

variable {K : Type*} [Field K]

/-- The data of the root, read through the lineage. -/
def Snapshot.read (snapshot : Snapshot d) (φ : FaceQuery d → K) : FaceQuery d → K :=
  readFace snapshot.archive.domain.lo snapshot.root.domain.lo snapshot.ratios φ

/-- A raw archive is read at its own faces. -/
lemma read_raw (archive : Archive d) (φ : FaceQuery d → K) :
    (Snapshot.raw archive).read φ = φ := by
  funext query
  have hbelow : below archive.domain.lo archive.domain.lo (fun _ => 1) query.face = query.face := by
    funext a
    simp [below]
  simp only [Snapshot.read, readFace, interpolate, Snapshot.archive, Snapshot.root, Snapshot.ratios,
    hbelow, offset, Int.emod_one, Int.cast_zero, zero_div, zero_mul, add_zero]

variable [CharZero K] {metricMismatch : Binary64 → ℤ → Binary64 → Bool}

/-- A projection reads through its parent. -/
lemma read_projection {archive : Archive d} {ratio : Fin d → ℤ} {parent : Snapshot d}
    (hratio : ∀ a, 0 < ratio a) (hparent : ∀ a, 0 < parent.ratios a) (φ : FaceQuery d → K) :
    (Snapshot.projection archive ratio parent).read φ =
      readFace archive.domain.lo parent.archive.domain.lo ratio (parent.read φ) := by
  funext query
  exact (interpolate_interpolate hratio (hparent query.axis)
    (fun x => φ ⟨query.axis, x⟩) query.face).symm

/-- A lineage keeps the order, the signs and the flux. -/
theorem resolve_value {snapshot : Snapshot d} {levels : ℕ} {queries result : Queries d}
    (hqueries : Weighted queries)
    (h : resolve metricMismatch snapshot levels queries = .ok result) (φ : FaceQuery d → K) :
    Weighted result ∧ value φ result = value (snapshot.read φ) queries := by
  induction snapshot generalizing levels queries with
  | raw archive =>
    simp only [resolve, bind_eq_ok, pure_eq_ok] at h
    obtain ⟨_, -, rfl⟩ := h
    exact ⟨hqueries, by rw [read_raw]⟩
  | projection archive ratio parent ih =>
    simp only [resolve, bind_eq_ok] at h
    obtain ⟨_, hcheck, next, hnext, h⟩ := h
    have hratio := ratio_pos_of_metadata (checkLevel_eq_ok hcheck).1
    obtain ⟨hweighted, hgeneration⟩ := projectQueries_value hratio hqueries hnext (parent.read φ)
    obtain ⟨hresult, hlineage⟩ := ih hweighted h
    refine ⟨hresult, ?_⟩
    rw [hlineage, hgeneration, read_projection hratio (ratios_pos_of_resolve h)]

/-- A query reads the data of the root through the lineage. -/
lemma sourceQueries_value {snapshot : Snapshot d} {query : FaceQuery d} {maxLevels : ℕ}
    {result : Queries d} (h : sourceQueries metricMismatch snapshot query maxLevels = .ok result)
    (φ : FaceQuery d → K) : value φ result = snapshot.read φ query := by
  rw [(resolve_value (weighted_single query) h φ).2, value_single]
  simp [Rational.toRat]

end

/-! ## The single projection -/

/-- The projection of a face to the root with the product of the ratios: the face below, and the one
above it unless the fine face lies on the face below. -/
def Snapshot.project (snapshot : Snapshot d) (query : FaceQuery d) : List (FaceQuery d × ℚ) :=
  let ratio := snapshot.ratios query.axis
  let relative := query.face query.axis - snapshot.archive.domain.lo query.axis
  let lower : FaceQuery d := ⟨query.axis, fun a => snapshot.root.domain.lo a +
    (query.face a - snapshot.archive.domain.lo a) / snapshot.ratios a⟩
  if relative % ratio = 0 then [(lower, 1)]
  else [(lower, ((ratio - relative % ratio : ℤ) : ℚ) / ratio),
    (lower.next, ((relative % ratio : ℤ) : ℚ) / ratio)]

/-- The faces with the values of their weights. -/
def weights (queries : Queries d) : List (FaceQuery d × ℚ) :=
  queries.map fun entry => (entry.1, entry.2.toRat)

/-- The single projection is in increasing order. -/
lemma project_sorted (snapshot : Snapshot d) (query : FaceQuery d) :
    Sorted (snapshot.project query) := by
  unfold Snapshot.project
  simp only
  split_ifs
  · exact List.pairwise_singleton _ _
  · refine List.pairwise_pair.mpr ?_
    exact FaceQuery.lt_next _

/-- Its weights are positive. -/
lemma project_pos {snapshot : Snapshot d} {query : FaceQuery d}
    (hratio : 0 < snapshot.ratios query.axis) :
    ∀ entry ∈ snapshot.project query, 0 < entry.2 := by
  have hlt := Int.emod_lt_of_pos
    (query.face query.axis - snapshot.archive.domain.lo query.axis) hratio
  have hnonneg := Int.emod_nonneg
    (query.face query.axis - snapshot.archive.domain.lo query.axis) hratio.ne'
  have hcast : (0 : ℚ) < snapshot.ratios query.axis := Int.cast_pos.mpr hratio
  intro entry hentry
  unfold Snapshot.project at hentry
  simp only at hentry
  split_ifs at hentry with hzero
  · rw [List.mem_singleton.mp hentry]
    exact one_pos
  · rcases List.mem_pair.mp hentry with rfl | rfl
    · exact div_pos (Int.cast_pos.mpr (by omega)) hcast
    · exact div_pos (Int.cast_pos.mpr (by omega)) hcast

/-- Its sum reads the data of the root through the lineage. -/
lemma project_total {snapshot : Snapshot d} {query : FaceQuery d}
    (hratio : 0 < snapshot.ratios query.axis) (φ : FaceQuery d → ℚ) :
    total (fun face weight => weight * φ face) (snapshot.project query) =
    snapshot.read φ query := by
  have hne : (snapshot.ratios query.axis : ℚ) ≠ 0 := Int.cast_ne_zero.mpr hratio.ne'
  unfold Snapshot.project Snapshot.read readFace interpolate offset
  simp only
  split_ifs with hzero
  · rw [hzero]
    simp only [total, List.map_cons, List.map_nil, List.sum_cons, List.sum_nil, Int.cast_zero,
      zero_div, zero_mul, add_zero, one_mul]
    rfl
  · simp only [total, List.map_cons, List.map_nil, List.sum_cons, List.sum_nil]
    push_cast
    show _ * φ ⟨query.axis, below _ _ _ _⟩ + (_ * φ ⟨query.axis, succ _ (below _ _ _ _)⟩ + 0) = _
    field_simp
    ring

/-- The returned faces and weights are those of the single projection.

**Proof sketch.** Both lists are in increasing order and have no zero weight, so they are determined
by their sums against the data that is one on a single face.  These sums read the same data through
the lineage. -/
theorem weights_eq_project {metricMismatch : Binary64 → ℤ → Binary64 → Bool} {snapshot : Snapshot d}
    {query : FaceQuery d} {maxLevels : ℕ} {result : Queries d}
    (h : sourceQueries metricMismatch snapshot query maxLevels = .ok result) :
    weights result = snapshot.project query := by
  have hweighted := (resolve_value (K := ℚ) (weighted_single query) h fun _ => 0).1
  have hratio := ratios_pos_of_resolve h query.axis
  refine Sorted.ext_total ?_ (project_sorted snapshot query) ?_
    (fun entry hentry => (project_pos hratio entry hentry).ne') ?_
  · exact List.pairwise_map.mpr hweighted.sorted
  · intro entry hentry
    obtain ⟨source, hsource, rfl⟩ := List.mem_map.mp hentry
    exact (hweighted.positive source hsource).ne'
  · intro face
    -- the data that is one on the face
    have hvalue := sourceQueries_value h fun other => if other = face then (1 : ℚ) else 0
    have htotal := project_total hratio fun other => if other = face then (1 : ℚ) else 0
    rw [← htotal] at hvalue
    simp only [value, total, weights, List.map_map, mul_ite, mul_one, mul_zero,
      Rat.cast_id] at hvalue ⊢
    exact hvalue

/-- The weights of the single projection sum to one. -/
lemma project_sum {snapshot : Snapshot d} {query : FaceQuery d}
    (hratio : 0 < snapshot.ratios query.axis) :
    ((snapshot.project query).map Prod.snd).sum = 1 := by
  have htotal := project_total hratio fun _ => (1 : ℚ)
  simp only [total, mul_one, Snapshot.read, readFace, interpolate, sub_self, mul_zero,
    add_zero] at htotal
  exact htotal

/-- The single projection has at most two faces. -/
lemma project_length (snapshot : Snapshot d) (query : FaceQuery d) :
    (snapshot.project query).length ≤ 2 := by
  unfold Snapshot.project
  simp only
  split_ifs
  · show 1 ≤ 2
    omega
  · exact le_rfl

/-- Whatever a query returns is one interpolation: distinct faces of the root's support, positive
weights of sum one, and the faces and weights of the single projection with the product of the
ratios. Over the fine cells of a root cell the differences of the fluxes, weighted by the areas of
the fine faces, add up to the weighted difference at the root. -/
theorem sourceQueries_interpolation {K : Type*} [Field K] [CharZero K]
    (metricMismatch : Binary64 → ℤ → Binary64 → Bool) (snapshot : Snapshot d) (maxLevels : ℕ) :
    (∀ query result, sourceQueries metricMismatch snapshot query maxLevels = .ok result →
      (result.map Prod.fst).Nodup ∧
      (∀ entry ∈ result, ∃ cells ∈ snapshot.root.patches, ∃ faces,
        faceBox cells entry.1.axis = .ok faces ∧ faces.Contains entry.1.face) ∧
      (∀ entry ∈ result, 0 < entry.2.toRat) ∧
      (result.map fun entry => entry.2.toRat).sum = 1 ∧
      weights result = snapshot.project query ∧ result.length ≤ 2) ∧
    ∀ (φ flux : FaceQuery d → K) (extent : Fin d → K) (axis : Fin d) (cell : Index d),
      (block snapshot.archive.domain.lo snapshot.root.domain.lo snapshot.ratios cell).Nonempty →
      (∀ x ∈ block snapshot.archive.domain.lo snapshot.root.domain.lo snapshot.ratios cell,
        ∀ query ∈ [(⟨axis, x⟩ : FaceQuery d), FaceQuery.next ⟨axis, x⟩], ∃ result,
          sourceQueries metricMismatch snapshot query maxLevels = .ok result ∧
            flux query = value φ result) →
      ∑ x ∈ block snapshot.archive.domain.lo snapshot.root.domain.lo snapshot.ratios cell,
          (area axis (fun a => extent a / snapshot.ratios a) * flux (FaceQuery.next ⟨axis, x⟩) -
            area axis (fun a => extent a / snapshot.ratios a) * flux ⟨axis, x⟩) =
        area axis extent * φ (FaceQuery.next ⟨axis, cell⟩) - area axis extent * φ ⟨axis, cell⟩ := by
  constructor
  · intro query result h
    have hweighted := (resolve_value (K := ℚ) (weighted_single query) h fun _ => 0).1
    have hproject := weights_eq_project h
    refine ⟨?_, ?_, hweighted.positive, ?_, hproject, ?_⟩
    · exact List.pairwise_map.mpr (hweighted.sorted.imp fun hlt => hlt.ne)
    · intro entry hentry
      obtain ⟨patch, hpatch⟩ := supported_of_resolve h entry hentry
      exact supportingFrom_eq_ok hpatch
    · rw [← project_sum (ratios_pos_of_resolve h query.axis), ← hproject]
      simp only [weights, List.map_map]
      rfl
    · have hlength := project_length snapshot query
      rwa [← hproject, weights, List.length_map] at hlength
  · intro φ flux extent axis cell hblock hflux
    have hratio : ∀ a, 0 < snapshot.ratios a := by
      obtain ⟨x, hx⟩ := hblock
      obtain ⟨result, h, -⟩ := hflux x hx ⟨axis, x⟩ (by simp)
      exact ratios_pos_of_resolve h
    have hread : ∀ x ∈
        block snapshot.archive.domain.lo snapshot.root.domain.lo snapshot.ratios cell,
        ∀ query ∈ [(⟨axis, x⟩ : FaceQuery d), FaceQuery.next ⟨axis, x⟩],
          flux query = snapshot.read φ query := by
      intro x hx query hquery
      obtain ⟨result, h, hvalue⟩ := hflux x hx query hquery
      rw [hvalue, sourceQueries_value h]
    rw [← show _ = area axis extent * φ (FaceQuery.next ⟨axis, cell⟩) -
      area axis extent * φ ⟨axis, cell⟩ from
        sum_block snapshot.archive.domain.lo snapshot.root.domain.lo axis cell hratio extent
          fun x => φ ⟨axis, x⟩]
    refine Finset.sum_congr rfl fun x hx => ?_
    rw [hread x hx _ List.mem_cons_self, hread x hx _ (by simp)]
    rfl

/-- Two cells of unit size next to each other, halved along both axes and then along the first one.
-/
def halvedTwice : Snapshot 2 :=
  let level (number : ℤ) (lo hi : Index 2) (size : Fin 2 → Binary64) : Archive 2 :=
    ⟨[114], [115], number, 1, ⟨lo, hi⟩, size, [⟨lo, hi⟩], [0], 1, 0, []⟩
  .projection (level 2 ![-3, 10] ![4, 11] ![⟨0x3FD0000000000000⟩, ⟨0x3FE0000000000000⟩]) ![2, 1]
    (.projection (level 1 ![5, 3] ![8, 4] fun _ => ⟨0x3FE0000000000000⟩) ![2, 2]
      (.raw (level 0 ![-1, 0] ![0, 0] fun _ => ⟨0x3FF0000000000000⟩)))

/-- The flux of a face of the coarse cells. -/
def coarseData (query : FaceQuery 2) : ℚ := ∑ axis, (query.face axis : ℚ) ^ (axis.val + 1)

/-- The fluxes that a query of the finest cells returns. -/
def halvedFlux (φ : FaceQuery 2 → ℚ) (query : FaceQuery 2) : ℚ :=
  ((sourceQueries (fun _ _ _ => false) halvedTwice query 64).toOption.map (value φ)).getD 0

/-- The faces across the first axis of the cells over the first coarse one all have sources. -/
lemma halvedTwice_returns {x y : ℤ} (hx : -3 ≤ x ∧ x ≤ 1) (hy : 10 ≤ y ∧ y ≤ 11) :
    ∃ result, sourceQueries (fun _ _ _ => false) halvedTwice ⟨0, ![x, y]⟩ 64 = .ok result := by
  have hok : (sourceQueries (fun _ _ _ => false) halvedTwice ⟨0, ![x, y]⟩ 64).isOk = true := by
    obtain ⟨hlo, hhi⟩ := hx
    obtain ⟨hlo', hhi'⟩ := hy
    interval_cases x <;> interval_cases y <;> decide +kernel
  cases h : sourceQueries (fun _ _ _ => false) halvedTwice ⟨0, ![x, y]⟩ 64 with
  | error e => simp [h, Except.isOk, Except.toBool] at hok
  | ok result => exact ⟨result, rfl⟩

/-- A face a quarter into the first coarse cell, in its second row, and the fluxes of the eight
cells that the coarse one is cut into. -/
theorem sourceQueries_interpolation_quarter :
    (∃ result,
      sourceQueries (fun _ _ _ => false) halvedTwice ⟨0, ![-2, 11]⟩ 64 = .ok result ∧
      weights result = halvedTwice.project ⟨0, ![-2, 11]⟩) ∧
    ∑ x ∈ block ![-3, 10] ![-1, 0] halvedTwice.ratios ![-1, 0],
        (area (0 : Fin 2) (fun a => 1 / (halvedTwice.ratios a : ℚ)) *
            halvedFlux coarseData (FaceQuery.next ⟨0, x⟩) -
          area (0 : Fin 2) (fun a => 1 / (halvedTwice.ratios a : ℚ)) *
            halvedFlux coarseData ⟨0, x⟩) =
      area (0 : Fin 2) (fun _ => 1) * coarseData (FaceQuery.next ⟨0, ![-1, 0]⟩) -
        area (0 : Fin 2) (fun _ => 1) * coarseData ⟨0, ![-1, 0]⟩ := by
  have htheorem := sourceQueries_interpolation (K := ℚ) (fun _ _ _ => false) halvedTwice 64
  constructor
  · obtain ⟨result, h⟩ := halvedTwice_returns (x := -2) (y := 11) (by omega) (by omega)
    exact ⟨result, h, (htheorem.1 _ _ h).2.2.2.2.1⟩
  · refine htheorem.2 coarseData (halvedFlux coarseData) (fun _ => 1) 0 ![-1, 0] ?_ ?_
    · refine ⟨![-3, 10], Fintype.mem_piFinset.mpr fun a => Finset.mem_Ico.mpr ?_⟩
      fin_cases a <;> decide
    · intro x hx query hquery
      have hx0 := Finset.mem_Ico.mp (Fintype.mem_piFinset.mp hx 0)
      have hx1 := Finset.mem_Ico.mp (Fintype.mem_piFinset.mp hx 1)
      simp [halvedTwice, Snapshot.archive, Snapshot.root, Snapshot.ratios] at hx0 hx1
      have hreturns : ∀ y : ℤ, -3 ≤ y ∧ y ≤ 1 → ∃ result,
          sourceQueries (fun _ _ _ => false) halvedTwice ⟨0, ![y, x 1]⟩ 64 = .ok result ∧
            halvedFlux coarseData ⟨0, ![y, x 1]⟩ = value coarseData result := by
        intro y hy
        obtain ⟨result, h⟩ := halvedTwice_returns hy (y := x 1) (by omega)
        exact ⟨result, h, by simp [halvedFlux, h, Except.toOption]⟩
      rcases List.mem_pair.mp hquery with rfl | rfl
      · rw [show x = ![x 0, x 1] from funext fun a => by fin_cases a <;> rfl]
        exact hreturns (x 0) (by omega)
      · rw [show FaceQuery.next ⟨0, x⟩ = ⟨0, ![x 0 + 1, x 1]⟩ from
          FaceQuery.ext rfl (funext fun a => by fin_cases a <;> simp [FaceQuery.next])]
        exact hreturns (x 0 + 1) (by omega)

end HistoryFlux

end Pops
