import Pops.Runtime.Program.AcceptedExchangeRuns
import Pops.Runtime.Program.HistoryFluxSize

/-!
# Restoring a payload of history fluxes

The reader on the bytes of the writer.  Every record that meets the reader's own checks is read back
with identical bits, unless a guard on a count refuses it.  Of the guards on the bytes that are
left, only the one on the number of terms can refuse what was written: the least number of bytes
that the reader takes a term to have is more than some terms have in three dimensions.

## Main definitions

* `Pops.HistoryFlux.Admissible` — a registry that meets the checks of the reader on its fields.
* `Pops.HistoryFlux.Credible` — every container and text is within the limit of the reader.
* `Pops.HistoryFlux.Room` — the terms of every expression, at the bytes that the reader expects of
  one, take no more bytes than the registry has from there on.

## Main results

* `Pops.HistoryFlux.restore_serialize_iff` — exactly then the registry is restored.
* `Pops.HistoryFlux.room_of_le_two` — in at most two dimensions the bytes are always there.
-/

namespace OrderedMap

variable {κ β : Type*} [DecidableEq κ] [LT κ] [DecidableLT κ]

/-- An insertion behind all keys appends. -/
lemma emplace_append {m : List (κ × β)} {k : κ} {v : β}
    (h : ∀ entry ∈ m, entry.1 ≠ k ∧ ¬ k < entry.1) : emplace m k v = m ++ [(k, v)] := by
  have hlookup : lookup m k = none := by
    rw [← Option.not_isSome_iff_eq_none, isSome_lookup_iff]
    intro hmem
    obtain ⟨entry, hentry, heq⟩ := List.mem_map.mp hmem
    exact (h entry hentry).1 heq
  rw [emplace, hlookup, Option.isSome_none, if_neg Bool.false_ne_true]
  clear hlookup
  induction m with
  | nil => rfl
  | cons head rest ih =>
    obtain ⟨key, value⟩ := head
    obtain ⟨hne, hnlt⟩ := h (key, value) List.mem_cons_self
    rw [assign, if_neg hne, if_neg hnlt, ih fun entry hentry =>
      h entry (List.mem_cons_of_mem _ hentry), List.cons_append]

omit [DecidableEq κ] [DecidableLT κ] in
/-- The keys of a map in front of an entry stand before its key. -/
lemma before_of_pairwise [Std.Asymm (α := κ) (· < ·)] {m : List (κ × β)}
    (hm : m.Pairwise fun entry entry' => entry.1 < entry'.1) {done rest : List (κ × β)} {x : κ × β}
    (h : m = done ++ x :: rest) : ∀ entry ∈ done, entry.1 ≠ x.1 ∧ ¬ x.1 < entry.1 := by
  subst h
  intro entry hentry
  have hlt : entry.1 < x.1 := (List.pairwise_append.mp hm).2.2 entry hentry x List.mem_cons_self
  refine ⟨fun heq => ?_, Std.Asymm.asymm _ _ hlt⟩
  rw [heq] at hlt
  exact Std.Asymm.asymm _ _ hlt hlt

omit [DecidableLT κ] in
/-- The key of an entry is not among the keys in front of it. -/
lemma lookup_of_pairwise [Std.Asymm (α := κ) (· < ·)] {m : List (κ × β)}
    (hm : m.Pairwise fun entry entry' => entry.1 < entry'.1) {done rest : List (κ × β)} {x : κ × β}
    (h : m = done ++ x :: rest) : lookup done x.1 = none := by
  rw [← Option.not_isSome_iff_eq_none, isSome_lookup_iff]
  intro hmem
  obtain ⟨entry, hentry, heq⟩ := List.mem_map.mp hmem
  exact (before_of_pairwise hm h entry hentry).1 heq

end OrderedMap

namespace Pops

namespace Reader.Reads

variable {α β : Type}

/-- Readers in sequence whose guards do not depend on what stands behind. -/
lemma and {r : Reader α} {f : α → Reader β} {image image' : List Byte} {a : α} {b : β}
    {P Q : Prop} (h : Reads r image a fun _ => P) (h' : Reads (f a) image' b fun _ => Q) :
    Reads (r >>= f) (image ++ image') b fun _ => P ∧ Q :=
  h.bind h'

/-- A check that passes, in front of a reader. -/
lemma check {c : Prop} [Decidable c] {e : Exception} {f : Unit → Reader β} {image : List Byte}
    {b : β} {guard : ℕ → Prop} (hc : ¬ c) (h : Reads (f ()) image b guard) :
    Reads (call (throwIf c e) >>= f) image b guard :=
  call_bind (throwIf_eq_ok.mpr hc) h

/-- A reader in front of computations that read nothing more. -/
lemma last {r : Reader α} {f : α → Reader β} {image : List Byte} {a : α} {b : β}
    {guard : ℕ → Prop} (h : Reads r image a guard) (h' : Reads (f a) [] b fun _ => True) :
    Reads (r >>= f) image b guard :=
  (h.bind h').congr (List.append_nil _) fun n => by simp

/-- A check that passes, behind a reader. -/
lemma checked {r : Reader α} {image : List Byte} {a : α} {guard : ℕ → Prop}
    {c : α → Prop} [DecidablePred c] {e : Exception} (h : Reads r image a guard) (hc : ¬ c a) :
    Reads (do let x ← r; call (throwIf (c x) e); pure x) image a guard :=
  h.last (check hc (Reads.pure a))

/-- A loop over elements whose guards do not depend on what stands behind them. -/
lemma loop {σ : Type} {step : σ → Reader σ} {write : α → List Byte} {credible : α → Prop}
    (next : List α → σ) (elements : List α)
    (hstep : ∀ done x rest, elements = done ++ x :: rest →
      Reads (step (next done)) (write x) (next (done ++ [x])) fun _ => credible x) :
    Reads (Reader.iterate step elements.length (next [])) (elements.flatMap write) (next elements)
      fun _ => ∀ x ∈ elements, credible x := by
  refine (@iterate _ _ step write (fun x _ => credible x) next [] elements hstep).congr rfl fun n =>
    ?_
  constructor
  · intro hall x hx
    obtain ⟨done, rest, h⟩ := List.append_of_mem hx
    exact hall done x rest h
  · intro hall done x rest h
    refine hall x ?_
    rw [h]
    simp

/-- A count in front of what it counts.  Elements of the least size pass the guard on the bytes
left. -/
lemma counted {e e' : Exception} {limit elementBytes : ℕ} {f : ℕ → Reader β}
    {write : α → List Byte} {elements : List α} {b : β} {guard : ℕ → Prop}
    (hbytes : 0 < elementBytes) (hcount : elements.length < 2 ^ 64)
    (hsize : ∀ x ∈ elements, elementBytes ≤ (write x).length)
    (h : Reads (f elements.length) (elements.flatMap write) b guard) :
    Reads (Reader.credibleCount e e' limit elementBytes >>= f) (Image.sequence write elements) b
      fun n => elements.length ≤ limit ∧ guard n := by
  refine ((credibleCount e e' hcount hbytes).bind h).congr rfl fun n => ?_
  have hleft := mul_le_length_flatMap hsize
  exact ⟨fun hguard => ⟨hguard.1.1, hguard.2⟩, fun hguard => ⟨⟨hguard.1, by omega⟩, hguard.2⟩⟩

end Reader.Reads

/-- The fraction of a canonical value is that value. -/
lemma Rational.Canonical.create_eq {r : Rational} (h : r.Canonical) :
    Rational.create r.numerator r.denominator = .ok r := by
  obtain ⟨hnum, hden⟩ := Rational.num_den_of_coprime h.denominator_pos h.coprime
  have hrepresentable : Rational.Representable ((r.numerator : ℚ) / r.denominator) := by
    rw [Rational.Representable, hnum, hden]
    exact ⟨h.numerator_isInt64, h.denominator_le⟩
  rw [(Rational.create_exact r.numerator h.denominator_pos.ne').1 hrepresentable,
    Rational.ofRat, hnum, hden]

/-- A `std::int64_t` is read back from its word. -/
lemma int64OfBits_ofNat {value : ℤ} (h : IsInt64 value) :
    int64OfBits (UInt64.ofNat (value % 2 ^ 64).toNat) = value := by
  unfold IsInt64 int64Min int64Max at h
  have hlt : (value % 2 ^ 64).toNat < 2 ^ 64 := by omega
  have hcast : ((value % 2 ^ 64).toNat : ℤ) = value % 2 ^ 64 := Int.toNat_of_nonneg (by omega)
  have hmod : Int.bmod (value % 2 ^ 64) (2 ^ 64) = Int.bmod value (2 ^ 64) := by
    have := Int.emod_bmod value (2 ^ 64)
    push_cast at this
    exact this
  have hrange : Int.bmod value (2 ^ 64) = value := Int.bmod_eq_of_le (by omega) (by omega)
  unfold int64OfBits
  simp only [UInt64.toNat_ofNat', Nat.mod_eq_of_lt hlt, hcast, hmod, hrange]

namespace HistoryFlux

open Reader (Reads)
open Image

/-! ## Fields -/

section Fields

/-- The size of a container in memory. -/
def Sized (n : ℕ) : Prop := n < 2 ^ 64

instance (n : ℕ) : Decidable (Sized n) := inferInstanceAs (Decidable (_ < _))

/-- The image of a size is that of a word. -/
lemma u64_eq {n : ℕ} (h : Sized n) : u64 n = Reader.writeWord (UInt64.ofNat n) := by
  rw [u64, Reader.writeWord, UInt64.toNat_ofNat', Nat.mod_eq_of_lt h]

/-- A size is read back. -/
lemma reads_u64 {n : ℕ} (h : Sized n) : Reads readU64 (u64 n) n fun _ => True := by
  have hread := (Reads.word truncatedPayload (UInt64.ofNat n)).map UInt64.toNat
  rw [UInt64.toNat_ofNat', Nat.mod_eq_of_lt h] at hread
  rw [u64_eq h]
  exact hread

/-- A signed word is read back. -/
lemma reads_i64 {value : ℤ} (h : IsInt64 value) :
    Reads readI64 (i64 value) value fun _ => True := by
  have hlt : Sized (value % 2 ^ 64).toNat := by
    unfold Sized
    omega
  have hread := (Reads.word truncatedPayload (UInt64.ofNat (value % 2 ^ 64).toNat)).map int64OfBits
  rw [int64OfBits_ofNat h] at hread
  rw [i64, u64_eq hlt]
  exact hread

/-- An `int` fits a signed word. -/
lemma isInt64_of_isInt {value : ℤ} (h : IsInt value) : IsInt64 value := by
  unfold IsInt intMin intMax at h
  unfold IsInt64 int64Min int64Max
  omega

/-- An `int` is read back. -/
lemma reads_i32 {value : ℤ} (h : IsInt value) : Reads readI32 (i64 value) value fun _ => True :=
  (reads_i64 (isInt64_of_isInt h)).checked (by unfold IsInt at h; omega)

/-- The bits of a number are read back. -/
lemma reads_real (bits : Binary64) : Reads readReal (real bits) bits fun _ => True :=
  Reads.word truncatedPayload bits

/-- A text is refused when it is longer than the limit. -/
lemma reads_string {value : List Byte} (h : Sized value.length) :
    Reads readString (Image.bytes value) value fun _ => value.length ≤ maxElements := by
  refine ((Reads.credibleCount truncatedPayload incredible h Nat.one_pos).bind
    (Reads.raw value)).congr rfl fun n => ?_
  constructor
  · rintro ⟨⟨hlimit, -⟩, -⟩
    exact hlimit
  · intro hlimit
    exact ⟨⟨hlimit, by omega⟩, trivial⟩

/-- A container is refused when it has more elements than the limit. -/
lemma reads_container {α : Type} {elementBytes : ℕ} {r : Reader α} {write : α → List Byte}
    {credible : α → Prop} {elements : List α} (hbytes : 0 < elementBytes)
    (h : Sized elements.length) (hread : ∀ x ∈ elements, Reads r (write x) x fun _ => credible x)
    (hsize : ∀ x ∈ elements, elementBytes ≤ (write x).length) :
    Reads (readContainer elementBytes r) (sequence write elements) elements
      fun _ => elements.length ≤ maxElements ∧ ∀ x ∈ elements, credible x :=
  Reads.container hbytes h hread hsize

/-- The denominator of a canonical rational fits a signed word. -/
lemma isInt64_denominator {value : Rational} (h : value.Canonical) :
    IsInt64 value.denominator := by
  have := h.denominator_pos
  have := h.denominator_le
  unfold IsInt64 int64Min
  unfold int64Max at *
  omega

/-- A canonical rational is read back. -/
lemma reads_rational {value : Rational} (h : value.Canonical) :
    Reads readRational (rational value) value fun _ => True := by
  have hcreate : Reads (Reader.call (Rational.create value.numerator value.denominator)) [] value
      fun _ => True := Reads.call_ok h.create_eq
  exact (reads_i64 h.numerator_isInt64).then_ ((reads_i64 (isInt64_denominator h)).last hcreate)

/-- The fields of a clock are in the ranges of their types. -/
structure ClockTyped (clock : FluxClock Binary64) : Prop where
  level : IsInt clock.level
  macroStep : IsInt64 clock.macroStep
  phase : clock.phase.Canonical

/-- A clock whose fields have their types is read back. -/
lemma reads_clock {clock : FluxClock Binary64} (h : ClockTyped clock) :
    Reads readClock (Image.clock clock) clock fun _ => True :=
  (reads_i32 h.level).then_ ((reads_i64 h.macroStep).then_ ((reads_rational h.phase).then_
    ((reads_real clock.physicalTime).map fun physicalTime =>
      (⟨clock.level, clock.macroStep, clock.phase, physicalTime⟩ : FluxClock Binary64))))

/-- The fields of a point are in the ranges of their types. -/
structure PointTyped (point : BoundaryPoint) : Prop where
  clock : Sized point.clock.length
  tick : IsInt64 point.tick
  level : IsInt point.level
  substep : IsInt point.substep
  stage : IsInt point.stage
  stageFraction : point.stageFraction.Canonical
  graphIdentity : Sized point.graphIdentity.length
  rateIdentity : Sized point.rateIdentity.length
  applicationIdentity : Sized point.applicationIdentity.length

/-- The texts of a point are within the limit. -/
def PointCredible (point : BoundaryPoint) : Prop :=
  point.clock.length ≤ maxElements ∧ point.graphIdentity.length ≤ maxElements ∧
    point.rateIdentity.length ≤ maxElements ∧ point.applicationIdentity.length ≤ maxElements

/-- A point is read back when its texts are within the limit. -/
lemma reads_point {point : BoundaryPoint} (h : PointTyped point) :
    Reads readPointFields (writePoint point) point fun _ => PointCredible point :=
  (reads_string h.clock).and ((reads_i64 h.tick).then_ ((reads_i32 h.level).then_
    ((reads_i32 h.substep).then_ ((reads_i32 h.stage).then_ ((reads_rational h.stageFraction).then_
      ((reads_real point.dt).then_ ((reads_real point.physicalTime).then_
        ((reads_string h.graphIdentity).and ((reads_string h.rateIdentity).and
          ((reads_string h.applicationIdentity).map fun applicationIdentity =>
            (⟨point.clock, point.tick, point.level, point.substep, point.stage, point.stageFraction,
              point.dt, point.physicalTime, point.graphIdentity, point.rateIdentity,
              applicationIdentity⟩ : BoundaryPoint)))))))))))

/-- A coefficient: its powers increase, are not negative and have canonical factors. -/
structure CoefficientTyped (coefficient : ExactPolynomial) : Prop where
  sized : Sized coefficient.length
  nonempty : coefficient ≠ []
  sorted : coefficient.Pairwise fun entry entry' => entry.1 < entry'.1
  terms : ∀ entry ∈ coefficient, IsInt entry.1 ∧ 0 ≤ entry.1 ∧ entry.2.Canonical

/-- One term behind the terms before it. -/
lemma reads_coefficientTerm {coefficient done rest : ExactPolynomial} {entry : ℤ × Rational}
    (h : CoefficientTyped coefficient) (hsplit : coefficient = done ++ entry :: rest) :
    Reads (readCoefficientTerm done) (writeCoefficient entry) (done ++ [entry]) fun _ => True := by
  obtain ⟨power, factor⟩ := entry
  obtain ⟨hpower, hsign, hfactor⟩ : IsInt power ∧ 0 ≤ power ∧ factor.Canonical :=
    h.terms (power, factor) (by rw [hsplit]; simp)
  have hlookup := OrderedMap.lookup_of_pairwise h.sorted hsplit
  have hemplace := OrderedMap.emplace_append (v := factor)
    (OrderedMap.before_of_pairwise h.sorted hsplit)
  have hend : Reads (pure (OrderedMap.emplace done power factor) : Reader ExactPolynomial) []
      (done ++ [(power, factor)]) fun _ => True := by
    rw [← hemplace]
    exact Reads.pure _
  have hcheck : ¬ (power < 0 ∨ factor.denominator ≤ 0 ∨ factor ≠ factor ∨
      (OrderedMap.lookup done power).isSome) := by
    have := hfactor.denominator_pos
    rw [hlookup]
    simp
    omega
  exact (reads_i32 hpower).then_ ((reads_i64 hfactor.numerator_isInt64).then_
    ((reads_i64 (isInt64_denominator hfactor)).last (Reads.call_bind hfactor.create_eq
      (Reads.call_bind hfactor.create_eq (Reads.check hcheck hend)))))

/-- A coefficient is read back when its terms are within the limit. -/
lemma reads_coefficient {coefficient : ExactPolynomial} (h : CoefficientTyped coefficient) :
    Reads readCoefficient (sequence writeCoefficient coefficient) coefficient
      fun _ => coefficient.length ≤ maxElements := by
  have hloop : Reads (Reader.iterate readCoefficientTerm coefficient.length [])
      (coefficient.flatMap writeCoefficient) coefficient fun _ => ∀ entry ∈ coefficient, True :=
    Reads.loop id coefficient fun done entry rest hsplit => reads_coefficientTerm h hsplit
  refine (Reads.counted (by decide) h.sized (fun entry _ => (length_writeCoefficient entry).ge)
    (hloop.checked h.nonempty)).congr rfl fun _ => ?_
  simp

/-- The window of a basis: typed clocks in increasing order. -/
structure WindowTyped (window : FluxWindow Binary64) : Prop where
  opening : ClockTyped window.opening
  closing : ClockTyped window.closing
  phase : Rational.less window.opening.phase window.closing.phase = some true
  physicalTime : Binary64.less window.opening.physicalTime window.closing.physicalTime = true

/-- A window is read back. -/
lemma reads_window {window : FluxWindow Binary64} (h : WindowTyped window) :
    Reads readWindow (clockWindow window) window fun _ => True := by
  have hcheck : ¬ (Rational.less window.opening.phase window.closing.phase ≠ some true ∨
      ¬ Binary64.less window.opening.physicalTime window.closing.physicalTime) := by
    rw [h.phase, h.physicalTime]
    simp
  exact (reads_clock h.opening).then_ ((reads_clock h.closing).last
    (Reads.check hcheck (Reads.pure window)))

variable {d : ℕ}

/-- A pair of coordinates on every axis. -/
lemma reads_pairs {first second : Fin d → ℤ} (h : ∀ a, IsInt (first a) ∧ IsInt (second a)) :
    Reads (Reader.axes fun _ => readPair) (List.ofFn fun a => writePair (first a, second a)).flatten
      (fun a => (first a, second a)) fun _ => True :=
  Reads.axes fun a => (reads_i32 (h a).1).then_ ((reads_i32 (h a).2).map fun second =>
    (first a, second))

/-- An archived face that passes the checks of the reader. -/
structure FaceTyped (face : BasisFace d) : Prop where
  axis : IsInt face.axis ∧ 0 ≤ face.axis ∧ face.axis < d
  coordinates : ∀ a, IsInt (face.face a) ∧ IsInt (face.coarseFace a)
  measure : Binary64.isPositive face.faceMeasure = true ∧ Binary64.isFinite face.faceMeasure = true
  sized : Sized face.fluxDensity.length
  nonempty : face.fluxDensity ≠ []
  finite : ∀ value ∈ face.fluxDensity, Binary64.isFinite value = true

/-- An archived face is read back when its density is within the limit. -/
lemma reads_face {face : BasisFace d} (h : FaceTyped face) :
    Reads readBasisFace (writeFace face) face fun _ => face.fluxDensity.length ≤ maxElements := by
  obtain ⟨role, axis, faceIndex, coarseFace, faceMeasure, fluxDensity⟩ := face
  obtain ⟨⟨haxis, hlow, hhigh⟩, hcoordinates, ⟨hpositive, hfinite⟩, hsized, hnonempty, hdensity⟩ :=
    h
  have hrole : Sized role.code ∧ ¬ role.code > 1 := by
    cases role <;> decide
  have hloop : Reads (Reader.iterate (fun values => do
      let value ← readDensity
      pure (values ++ [value])) fluxDensity.length []) (fluxDensity.flatMap real) fluxDensity
      fun _ => ∀ value ∈ fluxDensity, True :=
    Reads.loop id fluxDensity fun done value rest hsplit => by
      have hvalue : Binary64.isFinite value = true := hdensity value (by rw [hsplit]; simp)
      exact ((reads_real value).checked (by rw [hvalue]; simp)).map fun value => done ++ [value]
  have hbuilt := hloop.map fun values =>
    (⟨if role.code = 0 then .coarse else .fine, axis, faceIndex,
    coarseFace, faceMeasure, values⟩ : BasisFace d)
  have hcheck : ¬ (¬ Binary64.isPositive faceMeasure ∨ ¬ Binary64.isFinite faceMeasure ∨
      fluxDensity.length = 0) := by
    rw [List.length_eq_zero_iff, hpositive, hfinite]
    simpa using hnonempty
  have haxis' : ¬ (axis < 0 ∨ axis ≥ d) := by
    rw [not_or, not_lt, not_le]
    exact ⟨hlow, hhigh⟩
  suffices h : Reads readBasisFace (writeFace ⟨role, axis, faceIndex, coarseFace, faceMeasure,
      fluxDensity⟩)
      ⟨role, axis, faceIndex, coarseFace, faceMeasure, fluxDensity⟩
      fun _ => fluxDensity.length ≤ maxElements ∧ ∀ value ∈ fluxDensity, True from
    h.congr rfl fun _ => by simp
  cases role
  all_goals
    exact (reads_u64 hrole.1).then_ (Reads.check hrole.2 ((reads_i32 haxis).then_
      (Reads.check haxis' ((reads_pairs hcoordinates).then_ ((reads_real faceMeasure).then_
        (Reads.counted (by decide) hsized (fun value _ => (length_real value).ge)
          (Reads.check hcheck hbuilt)))))))

/-- A shared sample that passes the checks of the reader, for a block at one of its ends. -/
structure SharedTyped (ctx : RestoreContext d) (endpoint : ℕ) (sample : SharedSample) : Prop where
  interfaceIdentity : Sized sample.interfaceIdentity.length
  routeContract : CanonicalDigest sample.routeContract
  leftBlock : Sized sample.leftBlock
  rightBlock : Sized sample.rightBlock
  level : IsInt sample.level
  sourceTopologyEpoch : Sized sample.sourceTopologyEpoch
  leftAxis : IsInt sample.leftAxis
  rightAxis : IsInt sample.rightAxis
  faceCount : Sized sample.faceCount
  componentCount : IsInt sample.componentCount
  rightComponents : Sized sample.rightComponentForLeft.length
  components : ∀ component ∈ sample.rightComponentForLeft, IsInt component
  sourcePoint : PointTyped sample.sourcePoint
  fluxDensity : Sized sample.fluxDensity.length
  ends : sample.leftBlock = endpoint ∨ sample.rightBlock = endpoint
  program : sample.sourcePoint.graphIdentity = ctx.installedProgramHash
  authentic : ctx.authenticate sample = .ok ()

/-- The texts and containers of a shared sample are within the limit. -/
def SharedCredible (sample : SharedSample) : Prop :=
  sample.interfaceIdentity.length ≤ maxElements ∧ sample.rightComponentForLeft.length ≤
    maxElements ∧
    PointCredible sample.sourcePoint ∧ sample.fluxDensity.length ≤ maxElements

/-- The code of a side is a bit that tells the side. -/
lemma sideOf_code (side : InterfaceSide) :
    sideOf side.code = side ∧ Sized side.code ∧ ¬ side.code > 1 := by
  cases side <;> decide

/-- A shared sample is read back when its containers are within the limit. -/
lemma reads_shared {ctx : RestoreContext d} {endpoint : ℕ} {sample : SharedSample}
    (h : SharedTyped ctx endpoint sample) :
    Reads (readShared ctx endpoint) (writeShared sample) sample fun _ => SharedCredible sample := by
  obtain ⟨hleft, hleftSized, hleftSide⟩ := sideOf_code sample.leftSide
  obtain ⟨hright, hrightSized, hrightSide⟩ := sideOf_code sample.rightSide
  have hroute : Sized sample.routeContract.length := by
    rw [h.routeContract.1]
    decide
  have hcheck : ¬ ((sample.leftBlock ≠ endpoint ∧ sample.rightBlock ≠ endpoint) ∨
      sample.sourcePoint.graphIdentity ≠ ctx.installedProgramHash) := by
    rw [h.program]
    have := h.ends
    tauto
  have hsides : ¬ (sample.leftSide.code > 1 ∨ sample.rightSide.code > 1) :=
    not_or.mpr ⟨hleftSide, hrightSide⟩
  have hend : Reads (do
      let built : SharedSample := ⟨sample.interfaceIdentity, sample.routeContract, sample.leftBlock,
        sample.rightBlock, sample.level, sample.sourceTopologyEpoch, sample.faceMeasure,
        sample.leftAxis, sample.rightAxis, sideOf sample.leftSide.code,
          sideOf sample.rightSide.code,
        sample.leftNormalSpacing, sample.rightNormalSpacing, sample.faceCount,
          sample.componentCount,
        sample.rightComponentForLeft, sample.sourcePoint, sample.fluxDensity⟩
      Reader.call (ctx.authenticate built)
      pure built) [] sample fun _ => True := by
    rw [hleft, hright]
    exact Reads.call_bind h.authentic (Reads.pure sample)
  suffices hall : Reads (readShared ctx endpoint) (writeShared sample) sample
      fun _ => sample.interfaceIdentity.length ≤ maxElements ∧
        sample.routeContract.length ≤ maxElements ∧
        (sample.rightComponentForLeft.length ≤ maxElements ∧
          ∀ component ∈ sample.rightComponentForLeft, True) ∧
        PointCredible sample.sourcePoint ∧ sample.fluxDensity.length ≤ maxElements ∧
          ∀ value ∈ sample.fluxDensity, True by
    refine hall.congr rfl fun _ => ?_
    rw [h.routeContract.1]
    simp [SharedCredible, maxElements]
  exact (reads_string h.interfaceIdentity).and ((reads_string hroute).and
    ((reads_u64 h.leftBlock).then_ ((reads_u64 h.rightBlock).then_ ((reads_i32 h.level).then_
      ((reads_u64 h.sourceTopologyEpoch).then_ ((reads_real sample.faceMeasure).then_
        ((reads_i32 h.leftAxis).then_ ((reads_i32 h.rightAxis).then_ ((reads_u64 hleftSized).then_
          ((reads_u64 hrightSized).then_ (Reads.check hsides
            ((reads_real sample.leftNormalSpacing).then_
              ((reads_real sample.rightNormalSpacing).then_
              ((reads_u64 h.faceCount).then_ ((reads_i32 h.componentCount).then_
                ((reads_container (by decide) h.rightComponents
                    (fun component hmem => reads_i32 (h.components component hmem))
                    fun component _ => (length_i64 component).ge).and
                  (Reads.check (not_not.mpr h.routeContract) ((reads_point h.sourcePoint).and
                    ((reads_container (by decide) h.fluxDensity (fun value _ => reads_real value)
                        fun value _ => (length_real value).ge).last
                      (Reads.check hcheck hend))))))))))))))))))))

end Fields

/-! ## Snapshots -/

section Snapshots

variable {d : ℕ} {ctx : RestoreContext d}

/-- The part of an archive that its descriptor holds. -/
def Archive.physical (archive : Archive d) : Archive d :=
  { archive with owners := [], rankCount := 1, localRank := 0, owned := [] }

/-- The archive that a projection of a parent has. -/
def Archive.projected (archive : Archive d) (parent : Snapshot d) : Archive d :=
  { archive.physical with
    rankCount := parent.archive.rankCount
    localRank := parent.archive.localRank
    owners := List.replicate archive.patches.length 0 }

/-- The descriptor of an archive passes the checks of the reader. -/
structure ArchiveTyped (ctx : RestoreContext d) (archive : Archive d) : Prop where
  identity : Sized archive.identity.length
  sourceIdentity : Sized archive.sourceIdentity.length
  level : IsInt archive.level ∧ 0 ≤ archive.level ∧ archive.level < ctx.configuredLevels
  components : IsInt archive.components ∧ 0 < archive.components
  domain : ∀ a, IsInt (archive.domain.lo a) ∧ IsInt (archive.domain.hi a)
  sized : Sized archive.patches.length
  nonempty : archive.patches ≠ []
  patches : ∀ patch ∈ archive.patches, ∀ a, IsInt (patch.lo a) ∧ IsInt (patch.hi a)
  limit : ∃ limit, points archive.domain = .ok limit ∧ archive.patches.length ≤ limit

/-- The texts and patches of a descriptor are within the limit. -/
def ArchiveCredible (archive : Archive d) : Prop :=
  archive.sourceIdentity.length ≤ maxElements ∧ archive.patches.length ≤ maxElements

/-- A snapshot that the context resolves from its descriptor. -/
def SnapshotTyped (ctx : RestoreContext d) : Snapshot d → Prop
  | .raw archive => ArchiveTyped ctx archive ∧ ctx.snapshots archive.identity = some (.raw archive)
  | .projection archive ratio parent =>
    SnapshotTyped ctx parent ∧ ArchiveTyped ctx archive ∧ (∀ a, IsInt (ratio a)) ∧
      archive.projected parent = archive ∧ ctx.certify (.projection archive ratio parent) = .ok () ∧
      projectionIdentity ctx archive ratio parent = archive.identity

/-- The descriptors of a lineage are within the limit. -/
def SnapshotCredible : Snapshot d → Prop
  | .raw archive => archive.identity.length ≤ maxElements ∧ ArchiveCredible archive
  | .projection archive _ parent =>
    archive.identity.length ≤ maxElements ∧ ArchiveCredible archive ∧ SnapshotCredible parent

/-- A patch is read back. -/
lemma reads_patch {patch : Box d} (h : ∀ a, IsInt (patch.lo a) ∧ IsInt (patch.hi a)) :
    Reads readPatch (writePatch patch) patch fun _ => True :=
  (reads_pairs h).map fun bounds => (⟨fun a => (bounds a).1, fun a => (bounds a).2⟩ : Box d)

/-- The metadata of an archive are read back when its containers are within the limit. -/
lemma reads_metadata (hd : 0 < d) {archive : Archive d} (h : ArchiveTyped ctx archive) :
    Reads (readPhysicalMetadata ctx archive.identity) (writePhysicalMetadata archive)
    archive.physical
      fun _ => ArchiveCredible archive := by
  obtain ⟨limit, hlimit, hcount⟩ := h.limit
  have hlevel : ¬ (archive.level < 0 ∨ archive.level ≥ ctx.configuredLevels ∨
      archive.components ≤ 0) := by
    have := h.level
    have := h.components
    omega
  have hmetrics : Reads (Reader.axes fun _ : Fin d => readMetric)
      (List.ofFn fun a => writeMetric (archive.domain.lo a, archive.domain.hi a,
        archive.cellSize a)).flatten
      (fun a => (archive.domain.lo a, archive.domain.hi a, archive.cellSize a)) fun _ => True :=
    Reads.axes fun a => (reads_i32 (h.domain a).1).then_ ((reads_i32 (h.domain a).2).then_
      ((reads_real (archive.cellSize a)).map fun size =>
        (archive.domain.lo a, archive.domain.hi a, size)))
  have hloop : Reads (Reader.iterate (fun patches => do
      let patch ← readPatch
      pure (patches ++ [patch])) archive.patches.length []) (archive.patches.flatMap writePatch)
      archive.patches fun _ => ∀ patch ∈ archive.patches, True :=
    Reads.loop id archive.patches fun done patch rest hsplit =>
      (reads_patch (h.patches patch (by rw [hsplit]; simp))).map fun patch => done ++ [patch]
  have hbuilt := hloop.map fun patches => (⟨archive.identity, archive.sourceIdentity, archive.level,
    archive.components, archive.domain, archive.cellSize, patches, [], 1, 0, []⟩ : Archive d)
  suffices hall : Reads (readPhysicalMetadata ctx archive.identity) (writePhysicalMetadata archive)
      archive.physical fun _ => archive.sourceIdentity.length ≤ maxElements ∧
        archive.patches.length ≤ maxElements ∧ ∀ patch ∈ archive.patches, True from
    hall.congr rfl fun _ => by simp [ArchiveCredible]
  exact (reads_string h.sourceIdentity).and
    ((reads_i32 h.level.1).then_ ((reads_i32 h.components.1).then_
    (Reads.check hlevel (hmetrics.then_ (Reads.counted (by omega) h.sized
      (fun patch _ => (length_writePatch patch).ge)
      (Reads.check (List.length_eq_zero_iff.not.mpr h.nonempty) (Reads.call_bind hlimit
        (Reads.check hcount.not_gt hbuilt))))))))

/-- A descriptor is read back in a context that resolves it.

**Proof sketch.** Induction on the lineage; every generation takes one of the levels that remain. -/
theorem reads_snapshot (hd : 0 < d) : ∀ {snapshot : Snapshot d} {remaining : ℕ},
    SnapshotTyped ctx snapshot → snapshot.generations ≤ remaining →
    Reads (readDescriptor ctx remaining) (writeSnapshot snapshot) (some snapshot)
      fun _ => SnapshotCredible snapshot := by
  intro snapshot
  induction snapshot with
  | raw archive =>
    rintro (_ | remaining) ⟨htyped, hfound⟩ hremaining
    · cases hremaining
    · have hsource : rawSource ctx archive.physical = .ok (.raw archive) := by
        have hidentity : archive.physical.identity = archive.identity := rfl
        have hmetadata : writePhysicalMetadata archive.physical = writePhysicalMetadata archive :=
          rfl
        simp only [rawSource, hidentity, hfound, hmetadata, ne_eq, not_true_eq_false,
          throwIf, if_false]
        rfl
      exact (reads_u64 (by decide)).then_
        (Reads.check (by decide) ((reads_string htyped.identity).and
        ((reads_metadata hd htyped).last (Reads.call_bind hsource (Reads.pure _)))))
  | projection archive ratio parent ih =>
    rintro (_ | remaining) ⟨hparent, htyped, hratio, hprojected, hcertify, hidentity⟩ hremaining
    · cases hremaining
    · have hsource : projectedSource ctx archive.physical ratio (some parent) =
          .ok (.projection archive ratio parent) := by
        have hpasses : throwIf (projectionIdentity ctx archive ratio parent ≠ archive.identity)
            (invalidArgument "AMR history flux projection differs from its lineage digest") =
              .ok () :=
          throwIf_eq_ok.mpr (not_not.mpr hidentity)
        show (ctx.certify (.projection (archive.projected parent) ratio parent) >>= fun _ =>
          throwIf (projectionIdentity ctx (archive.projected parent) ratio parent ≠
            archive.identity)
            (invalidArgument "AMR history flux projection differs from its lineage digest") >>=
              fun _ =>
          pure (Snapshot.projection (archive.projected parent) ratio parent)) = _
        rw [hprojected, hcertify, ok_bind, hpasses]
        rfl
      have hratios : Reads (Reader.axes fun _ : Fin d => readI32)
          (List.ofFn fun a => i64 (ratio a)).flatten ratio fun _ => True :=
        Reads.axes fun a => reads_i32 (hratio a)
      exact (reads_u64 (by decide)).then_
        (Reads.check (by decide) ((reads_string htyped.identity).and
        ((reads_metadata hd htyped).and (hratios.then_
          ((ih hparent (Nat.le_of_succ_le_succ hremaining)).last
            (Reads.call_bind hsource (Reads.pure _)))))))

/-- A descriptor that may be absent, in a payload that has descriptors or has none. -/
lemma reads_optional (hd : 0 < d) {snapshots : Bool} {snapshot : Option (Snapshot d)}
    (habsent : snapshots = false → snapshot = none)
    (htyped : ∀ x ∈ snapshot, SnapshotTyped ctx x ∧ x.generations ≤ ctx.configuredLevels) :
    Reads (readSnapshot ctx ⟨false, snapshots⟩)
      (if snapshots then writeDescriptor snapshot else []) snapshot
      fun _ => ∀ x ∈ snapshot, SnapshotCredible x := by
  cases snapshots with
  | false =>
    rw [habsent rfl]
    exact (Reads.pure none).congr rfl fun _ => by simp
  | true =>
    show Reads (readDescriptor ctx ctx.configuredLevels) (writeDescriptor snapshot) snapshot _
    cases snapshot with
    | none =>
      have hnone : Reads (readDescriptor ctx ctx.configuredLevels) (u64 0) none fun _ => True := by
        cases ctx.configuredLevels with
        | zero => exact (reads_u64 (by decide)).last (Reads.pure none)
        | succ remaining => exact (reads_u64 (by decide)).last (Reads.pure none)
      exact hnone.congr rfl fun _ => by simp
    | some snapshot =>
      obtain ⟨hsnapshot, hgenerations⟩ := htyped snapshot rfl
      exact (reads_snapshot hd hsnapshot hgenerations).congr rfl fun _ => by simp

end Snapshots

/-! ## Terms -/

section Terms

variable {d : ℕ} {ctx : RestoreContext d}

/-- The provider of a basis is read back. -/
lemma reads_provider (provider : BasisProvider) :
    Reads readProvider (u64 provider.code) provider fun _ => True := by
  cases provider
  all_goals exact (reads_u64 (by decide)).last (Reads.pure _)

/-- A basis that passes the checks of the reader. -/
structure BasisTyped (ctx : RestoreContext d) (basis : Basis d) : Prop where
  runtimeBlock : Sized basis.runtimeBlock
  level : IsInt basis.level
  rhsIdentity : IsInt basis.rhsIdentity
  temporalFamily : Sized basis.temporalFamily.length
  family : restoredFamily ctx basis.runtimeBlock basis.rhsIdentity basis.provider
    basis.temporalFamily
    false = .ok basis.temporalFamily
  point : PointTyped basis.point
  pointChecked : checkPoint basis.point = .ok ()
  window : WindowTyped basis.window
  facesSized : Sized basis.faces.length
  faces : ∀ face ∈ basis.faces, FaceTyped face
  sharedSized : Sized basis.sharedSamples.length
  shared : ∀ sample ∈ basis.sharedSamples,
    SharedTyped ctx basis.runtimeBlock sample ∧ sample.level = basis.level
  sharedDistinct : (basis.sharedSamples.map ctx.sharedIdentity).Nodup
  snapshot : ∀ snapshot ∈ basis.historySnapshot,
    SnapshotTyped ctx snapshot ∧ snapshot.generations ≤ ctx.configuredLevels

/-- The texts and containers of a basis are within the limit. -/
def BasisCredible (basis : Basis d) : Prop :=
  basis.temporalFamily.length ≤ maxElements ∧ PointCredible basis.point ∧
    (basis.faces.length ≤ maxElements ∧ ∀ face ∈ basis.faces,
      face.fluxDensity.length ≤ maxElements) ∧
    (basis.sharedSamples.length ≤ maxElements ∧ ∀ sample ∈ basis.sharedSamples,
      SharedCredible sample) ∧
    ∀ snapshot ∈ basis.historySnapshot, SnapshotCredible snapshot

/-- The shared samples of a basis. -/
lemma reads_sharedSamples {block : ℕ} {level : ℤ} {samples : List SharedSample}
    (hsized : Sized samples.length)
    (htyped : ∀ sample ∈ samples, SharedTyped ctx block sample ∧ sample.level = level)
    (hdistinct : (samples.map ctx.sharedIdentity).Nodup) :
    Reads (readSharedSamples ctx block level) (sequence writeShared samples) samples
      fun _ => samples.length ≤ maxElements ∧ ∀ sample ∈ samples, SharedCredible sample := by
  refine Reads.counted (by decide) hsized (fun sample _ =>
    (sharedSize_ge sample).trans (length_writeShared sample).ge)
    (Reads.loop id samples fun done sample rest hsplit => ?_)
  obtain ⟨hsample, hlevel⟩ := htyped sample (by rw [hsplit]; simp)
  have hfresh : ctx.sharedIdentity sample ∉ done.map ctx.sharedIdentity := by
    rw [hsplit, List.map_append, List.map_cons, List.nodup_append] at hdistinct
    intro hmem
    exact hdistinct.2.2 _ hmem _ List.mem_cons_self rfl
  exact (reads_shared hsample).last (Reads.check
    (not_or.mpr ⟨not_not.mpr hlevel, hfresh⟩) (Reads.pure _))

/-- A basis is read back when its containers are within the limit. -/
lemma reads_basis (hd : 0 < d) {snapshots : Bool} {basis : Basis d} (h : BasisTyped ctx basis)
    (habsent : snapshots = false → basis.historySnapshot = none) :
    Reads (readBasis ctx ⟨false, snapshots⟩ basis.identity) (writeBasis snapshots basis) basis
      fun _ => BasisCredible basis :=
  (reads_u64 h.runtimeBlock).then_ ((reads_i32 h.level).then_ ((reads_i32 h.rhsIdentity).then_
    ((reads_provider basis.provider).then_ ((reads_string h.temporalFamily).and
      (Reads.call_bind h.family ((reads_point h.point).and (Reads.call_bind h.pointChecked
        ((reads_window h.window).then_ ((reads_container (by omega) h.facesSized
            (fun face hmem => reads_face (h.faces face hmem))
            fun face hmem => (faceSize_ge (h.faces face hmem).nonempty).trans
              (length_writeFace face).ge).and
          ((reads_sharedSamples h.sharedSized h.shared h.sharedDistinct).and
            ((reads_optional hd habsent h.snapshot).last (Reads.pure basis))))))))))))

/-- A term that passes the checks of the reader. -/
structure TermTyped (ctx : RestoreContext d) (entry : ℕ × FluxExpressionTerm (Basis d)) : Prop where
  sized : Sized entry.1
  identity : entry.2.basis.identity = entry.1
  coefficient : CoefficientTyped entry.2.coefficient
  basis : BasisTyped ctx entry.2.basis
  block : entry.2.basis.runtimeBlock < ctx.rhsBasisBounds.length
  authorized : entry.2.basis.faces = [] → emptyFacesAuthorized ctx entry.2.basis.level = true

/-- The texts and containers of a term are within the limit. -/
def TermCredible (entry : ℕ × FluxExpressionTerm (Basis d)) : Prop :=
  entry.2.coefficient.length ≤ maxElements ∧ BasisCredible entry.2.basis

/-- An expression: its identities increase, its terms pass the checks, and it fits the budget. -/
structure ExpressionTyped (ctx : RestoreContext d) (expression : FluxExpression (Basis d)) :
    Prop where
  sized : Sized expression.length
  sorted : expression.Pairwise fun entry entry' => entry.1 < entry'.1
  terms : ∀ entry ∈ expression, TermTyped ctx entry
  budget : requireExpressionBudget ctx expression = .ok ()

/-- One term behind the terms before it. -/
lemma reads_term (hd : 0 < d) {snapshots : Bool} {expression done rest : FluxExpression (Basis d)}
    {entry : ℕ × FluxExpressionTerm (Basis d)} (h : ExpressionTyped ctx expression)
    (habsent : snapshots = false → entry.2.basis.historySnapshot = none)
    (hsplit : expression = done ++ entry :: rest) :
    Reads (readTerm ctx ⟨false, snapshots⟩ done) (writeTerm snapshots entry) (done ++ [entry])
      fun _ => TermCredible entry := by
  have hterm := h.terms entry (by rw [hsplit]; simp)
  have hlookup := OrderedMap.lookup_of_pairwise h.sorted hsplit
  have hemplace := OrderedMap.emplace_append (v := entry.2)
    (OrderedMap.before_of_pairwise h.sorted hsplit)
  obtain ⟨identity, basis, coefficient⟩ := entry
  obtain ⟨hsized, hidentity, hcoefficient, hbasis, hblock, hauthorized⟩ := hterm
  obtain rfl : basis.identity = identity := hidentity
  have hcheck : ¬ (basis.runtimeBlock ≥ ctx.rhsBasisBounds.length ∨
      (basis.faces = [] ∧ emptyFacesAuthorized ctx basis.level = false) ∨
      (OrderedMap.lookup done basis.identity).isSome) := by
    rw [hlookup]
    rintro (hge | ⟨hempty, hrefused⟩ | hfound)
    · exact absurd hblock (not_lt.mpr hge)
    · rw [hauthorized hempty] at hrefused
      cases hrefused
    · cases hfound
  have hend : Reads (pure (OrderedMap.emplace done basis.identity ⟨basis, coefficient⟩) :
      Reader (FluxExpression (Basis d))) [] (done ++ [(basis.identity, ⟨basis, coefficient⟩)])
      fun _ => True := by
    rw [← hemplace]
    exact Reads.pure _
  exact (reads_u64 hsized).then_ ((reads_coefficient hcoefficient).and
    ((reads_basis hd hbasis habsent).last (Reads.check hcheck hend)))

end Terms

/-! ## Expressions and rings -/

section Rings

variable {d : ℕ} {ctx : RestoreContext d}

/-- The texts and containers of an expression are within the limit. -/
def ExpressionCredible (expression : FluxExpression (Basis d)) : Prop :=
  expression.length ≤ maxElements ∧ ∀ entry ∈ expression, TermCredible entry

/-- The terms of an expression, at `(29 + 2 * d) * 8` bytes each, take no more bytes than there are
from its first term on; `behind` is the number of bytes behind the expression. -/
def RoomAt (snapshots : Bool) (expression : FluxExpression (Basis d)) (behind : ℕ) : Prop :=
  expression.length * ((29 + 2 * d) * 8) ≤ (expression.map (termSize snapshots)).sum + behind

/-- The expression of a slot behind those of the slots before it. -/
lemma reads_expression (hd : 0 < d) {snapshots : Bool} {expression : FluxExpression (Basis d)}
    (done : List (FluxExpression (Basis d))) (h : ExpressionTyped ctx expression)
    (habsent : ∀ entry ∈ expression, snapshots = false → entry.2.basis.historySnapshot = none) :
    Reads (readExpression ctx ⟨false, snapshots⟩ done) (sequence (writeTerm snapshots) expression)
      (done ++ [expression])
      fun n => ExpressionCredible expression ∧ RoomAt snapshots expression n := by
  have hloop : Reads (Reader.iterate (readTerm ctx ⟨false, snapshots⟩) expression.length [])
      (expression.flatMap (writeTerm snapshots)) expression
      fun _ => ∀ entry ∈ expression, TermCredible entry :=
    Reads.loop id expression fun done entry rest hsplit =>
      reads_term hd h (habsent entry (by rw [hsplit]; simp)) hsplit
  have hbytes : 0 < termBytes d ⟨false, snapshots⟩ := by
    show 0 < (29 + 2 * d) * 8
    omega
  have hlength := length_flatMap_size (length_writeTerm snapshots) expression
  have hrest : Reads (do
      let expression ← Reader.iterate (readTerm ctx ⟨false, snapshots⟩) expression.length []
      Reader.call (requireExpressionBudget ctx expression)
      pure (done ++ [expression])) (expression.flatMap (writeTerm snapshots)) (done ++ [expression])
      fun _ => ∀ entry ∈ expression, TermCredible entry :=
    hloop.last (Reads.call_bind h.budget (Reads.pure (done ++ [expression])))
  refine ((Reads.credibleCount truncatedPayload incredible h.sized hbytes).bind hrest).congr rfl
    fun n => ?_
  rw [hlength]
  exact ⟨fun hguard => ⟨⟨hguard.1.1, hguard.2⟩, hguard.1.2⟩,
    fun hguard => ⟨⟨hguard.1.1, hguard.2⟩, hguard.1.2⟩⟩

/-- A sequence has at least the word of its count. -/
lemma length_sequence_ge {α : Type} (write : α → List Byte) (elements : List α) :
    8 ≤ (sequence write elements).length := by
  rw [length_sequence]
  omega

/-- A ring that the context has, with its expressions. -/
structure RingTyped (ctx : RestoreContext d) (ring : List Byte × List (FluxExpression (Basis d))) :
    Prop where
  key : Sized ring.1.length
  nonempty : ring.1 ≠ []
  depth : OrderedMap.lookup ctx.rings ring.1 = some ring.2.length
  sized : Sized ring.2.length
  slots : ∀ expression ∈ ring.2, ExpressionTyped ctx expression

/-- The guards on the slots of a ring with a number of bytes behind it. -/
def SlotsGuard (snapshots : Bool) (slots : List (FluxExpression (Basis d))) (behind : ℕ) : Prop :=
  ∀ done slot rest, slots = done ++ slot :: rest → ExpressionCredible slot ∧
    RoomAt snapshots slot ((rest.map (expressionSize snapshots)).sum + behind)

/-- The expressions of a ring behind the rings before it. -/
lemma reads_ring (hd : 0 < d) {snapshots : Bool} {histories done rest : Registry d}
    {ring : List Byte × List (FluxExpression (Basis d))}
    (hsorted : histories.Pairwise fun entry entry' => entry.1 < entry'.1)
    (hsplit : histories = done ++ ring :: rest) (h : RingTyped ctx ring)
    (habsent : ∀ expression ∈ ring.2, ∀ entry ∈ expression,
      snapshots = false → entry.2.basis.historySnapshot = none) :
    Reads (readRing ctx ⟨false, snapshots⟩ done) (writeRing snapshots ring) (done ++ [ring])
      fun n => ring.1.length ≤ maxElements ∧ ring.2.length ≤ maxElements ∧
        SlotsGuard snapshots ring.2 n := by
  obtain ⟨key, slots⟩ := ring
  have hlookup : OrderedMap.lookup done key = none := OrderedMap.lookup_of_pairwise hsorted hsplit
  have hemplace : OrderedMap.emplace done key slots = done ++ [(key, slots)] :=
    OrderedMap.emplace_append (OrderedMap.before_of_pairwise hsorted hsplit)
  have hdepth : liveDepth ctx key = .ok slots.length := by
    have hrings : OrderedMap.lookup ctx.rings key = some slots.length := h.depth
    have hkey : key ≠ [] := h.nonempty
    simp only [liveDepth, hrings, hkey, throwIf, if_false]
    rfl
  have hloop : Reads (Reader.iterate (readExpression ctx ⟨false, snapshots⟩) slots.length [])
      (slots.flatMap (sequence (writeTerm snapshots))) slots (SlotsGuard snapshots slots) := by
    have hread := @Reads.iterate _ _ (readExpression ctx ⟨false, snapshots⟩)
      (sequence (writeTerm snapshots))
      (fun slot n => ExpressionCredible slot ∧ RoomAt snapshots slot n) id [] slots
      fun done slot rest hslot => by
        have hmem : slot ∈ slots := by
          rw [hslot]
          simp
        exact reads_expression hd done (h.slots slot hmem) (habsent slot hmem)
    simp only [length_flatMap_size (length_writeExpression snapshots)] at hread
    exact hread
  have hend : Reads (pure (OrderedMap.emplace done key slots) : Reader (Registry d)) []
      (done ++ [(key, slots)]) fun _ => True := by
    rw [← hemplace]
    exact Reads.pure _
  exact (reads_string h.key).bind (Reads.call_bind hdepth (Reads.counted (by decide) h.sized
    (fun slot _ => length_sequence_ge _ slot) (Reads.check (not_not.mpr rfl) (hloop.last
      (Reads.check (by rw [hlookup]; simp) hend)))))

end Rings

/-! ## Registries -/

section Registries

variable {d : ℕ} {ctx : RestoreContext d} {histories : Registry d}

/-- A registry that meets the checks of the reader on its fields, in a context with the same rings.
-/
structure Admissible (ctx : RestoreContext d) (histories : Registry d) : Prop where
  sized : Sized histories.length
  sorted : histories.Pairwise fun ring ring' => ring.1 < ring'.1
  rings : ∀ ring ∈ histories, RingTyped ctx ring
  complete : histories.length = ctx.rings.length

/-- Every container and every text of a registry is within the limit of the reader. -/
def Credible (histories : Registry d) : Prop :=
  histories.length ≤ maxElements ∧ ∀ ring ∈ histories, ring.1.length ≤ maxElements ∧
    ring.2.length ≤ maxElements ∧ ∀ slot ∈ ring.2, ExpressionCredible slot

/-- The terms of every expression, at `(29 + 2 * d) * 8` bytes each, take no more bytes than the
registry has from the first of them on. -/
def Room (histories : Registry d) : Prop :=
  ∀ before ring after, histories = before ++ ring :: after →
    ∀ done slot rest, ring.2 = done ++ slot :: rest →
      RoomAt (hasSnapshots histories) slot
        ((rest.map (expressionSize (hasSnapshots histories))).sum +
          (after.map (ringSize (hasSnapshots histories))).sum)

/-- Without snapshots in a registry none of its terms has one. -/
lemma absent_of_hasSnapshots (h : hasSnapshots histories = false) :
    ∀ ring ∈ histories, ∀ expression ∈ ring.2, ∀ entry ∈ expression,
      entry.2.basis.historySnapshot = none := by
  intro ring hring expression hexpression entry hentry
  by_contra hsome
  have htrue : hasSnapshots histories = true := by
    simp only [hasSnapshots, List.any_eq_true]
    exact ⟨ring, hring, expression, hexpression, entry, hentry, Option.isSome_iff_ne_none.mpr hsome⟩
  rw [htrue] at h
  cases h

/-- The rings of a payload.

**Proof sketch.** Every ring is read behind the rings before it, and its guards count the bytes of
the rings behind it. -/
theorem reads_rings (hd : 0 < d) (h : Admissible ctx histories) :
    Reads (do
        let count ← Reader.credibleCount truncatedPayload incredible maxElements 16
        Reader.iterate (readRing ctx ⟨false, hasSnapshots histories⟩) count [])
      (sequence (writeRing (hasSnapshots histories)) histories) histories
      fun n => histories.length ≤ maxElements ∧ ∀ before ring after,
        histories = before ++ ring :: after → ring.1.length ≤ maxElements ∧
          ring.2.length ≤ maxElements ∧ SlotsGuard (hasSnapshots histories) ring.2
            ((after.map (ringSize (hasSnapshots histories))).sum + n) := by
  refine Reads.counted (by decide) h.sized (fun ring _ => ?_) ?_
  · rw [length_writeRing, ringSize]
    omega
  · have hread := @Reads.iterate _ _ (readRing ctx ⟨false, hasSnapshots histories⟩)
      (writeRing (hasSnapshots histories))
      (fun ring n => ring.1.length ≤ maxElements ∧ ring.2.length ≤ maxElements ∧
        SlotsGuard (hasSnapshots histories) ring.2 n) id [] histories
          fun done ring rest hsplit => by
        have hmem : ring ∈ histories := by
          rw [hsplit]
          simp
        exact reads_ring hd h.sorted hsplit (h.rings ring hmem) fun expression hexpression entry
          hentry hnone => absent_of_hasSnapshots hnone ring hmem expression hexpression entry hentry
    simp only [length_flatMap_size (length_writeRing (hasSnapshots histories))] at hread
    exact hread

/-- The guards on the rings of a registry are the limits and the room. -/
lemma guards_iff : (histories.length ≤ maxElements ∧ ∀ before ring after,
      histories = before ++ ring :: after → ring.1.length ≤ maxElements ∧
        ring.2.length ≤ maxElements ∧ SlotsGuard (hasSnapshots histories) ring.2
          ((after.map (ringSize (hasSnapshots histories))).sum + 0)) ↔
      Credible histories ∧ Room histories := by
  constructor
  · rintro ⟨hcount, hrings⟩
    refine ⟨⟨hcount, fun ring hring => ?_⟩, fun before ring after hsplit done slot rest hslot =>
      ((hrings before ring after hsplit).2.2 done slot rest hslot).2⟩
    obtain ⟨before, after, hsplit⟩ := List.append_of_mem hring
    obtain ⟨hkey, hslots, hguard⟩ := hrings before ring after hsplit
    refine ⟨hkey, hslots, fun slot hmem => ?_⟩
    obtain ⟨done, rest, hslot⟩ := List.append_of_mem hmem
    exact (hguard done slot rest hslot).1
  · rintro ⟨⟨hcount, hrings⟩, hroom⟩
    refine ⟨hcount, fun before ring after hsplit => ?_⟩
    obtain ⟨hkey, hslots, hcredible⟩ := hrings ring (by rw [hsplit]; simp)
    exact ⟨hkey, hslots, fun done slot rest hslot =>
      ⟨hcredible slot (by rw [hslot]; simp), hroom before ring after hsplit done slot rest hslot⟩⟩

/-- The bytes of a registry with rings. -/
def payload (histories : Registry d) : List Byte :=
  u64 (if hasSnapshots histories then snapshotVersion else plainVersion) ++
    sequence (writeRing (hasSnapshots histories)) histories

/-- An admissible registry with rings is written. -/
lemma serializeExpressions_eq (h : Admissible ctx histories) (hne : histories ≠ []) :
    serializeExpressions histories ctx.configuredLevels = .ok (payload histories) := by
  have hchecks : forEach histories (fun ring => forEach ring.2 fun expression =>
      forEach expression (checkTerm ctx.configuredLevels)) = .ok () := by
    simp only [forEach_eq_ok]
    intro ring hring expression hexpression entry hentry
    have hterm := ((h.rings ring hring).slots expression hexpression).terms entry hentry
    simp only [checkTerm, bind_eq_ok, throwIf_eq_ok, not_not, exists_const]
    refine ⟨hterm.identity, ?_⟩
    rintro ⟨snapshot, hmem, hgenerations⟩
    exact absurd (hterm.basis.snapshot snapshot hmem).2 (not_le.mpr hgenerations)
  simp only [serializeExpressions, if_neg hne, hchecks, ok_bind]
  rfl

/-- The reader of a payload. -/
lemma reads_payload (hd : 0 < d) (h : Admissible ctx histories) :
    Reads (readPayload ctx) (payload histories) histories
      fun n => histories.length ≤ maxElements ∧ ∀ before ring after,
        histories = before ++ ring :: after → ring.1.length ≤ maxElements ∧
          ring.2.length ≤ maxElements ∧ SlotsGuard (hasSnapshots histories) ring.2
            ((after.map (ringSize (hasSnapshots histories))).sum + n) := by
  have hversion : Sized (if hasSnapshots histories then snapshotVersion else plainVersion) := by
    cases hasSnapshots histories <;> decide
  have hformat : formatOf (if hasSnapshots histories then snapshotVersion else plainVersion) =
      .ok ⟨false, hasSnapshots histories⟩ := by
    cases hasSnapshots histories <;> rfl
  exact (reads_u64 hversion).then_ (Reads.call_bind hformat (reads_rings hd h))

/-- **When a payload is restored**: an admissible registry is restored from its bytes if and only if
no text or container exceeds the limit and behind every count of terms stand the bytes that the
reader expects.

**Proof sketch.** Every record is read back field by field.  The elements of all containers but the
expressions have at least the bytes that the reader takes them to have, so their guards pass within
the limit. -/
theorem restore_serialize_iff (hd : 0 < d) (h : Admissible ctx histories) :
    (serializeExpressions histories ctx.configuredLevels >>= restore ctx) = .ok histories ↔
      Credible histories ∧ Room histories := by
  by_cases hne : histories = []
  · subst hne
    have hrings : ctx.rings = [] := List.length_eq_zero_iff.mp h.complete.symm
    refine iff_of_true ?_ ⟨⟨Nat.zero_le _, by simp⟩, by simp [Room]⟩
    show restore ctx [] = .ok []
    simp only [restore, if_true, emptyRegistry, hrings]
    rfl
  · have hread := reads_payload hd h
    have himage : payload histories ≠ [] := by
      intro hempty
      have hlength := congrArg List.length hempty
      rw [payload, List.length_append, length_u64] at hlength
      simp at hlength
    rw [serializeExpressions_eq h hne, ok_bind, restore, if_neg himage, ← guards_iff]
    by_cases hguard : histories.length ≤ maxElements ∧ ∀ before ring after,
        histories = before ++ ring :: after → ring.1.length ≤ maxElements ∧
          ring.2.length ≤ maxElements ∧ SlotsGuard (hasSnapshots histories) ring.2
            ((after.map (ringSize (hasSnapshots histories))).sum + 0)
    · have hreturns := hread.returns [] hguard
      rw [List.append_nil] at hreturns
      refine iff_of_true ?_ hguard
      simp only [hreturns, ok_bind, ne_eq, not_true_eq_false, throwIf, if_false, h.complete]
      rfl
    · obtain ⟨e, hthrows⟩ := hread.throws [] hguard
      rw [List.append_nil] at hthrows
      refine iff_of_false ?_ hguard
      rw [hthrows]
      intro hcontra
      cases hcontra

/-! ### Where the bytes are always there -/

/-- Terms with the bytes that the reader expects. -/
lemma room_of_terms (h : ∀ ring ∈ histories, ∀ slot ∈ ring.2, ∀ entry ∈ slot,
    (29 + 2 * d) * 8 ≤ termSize (hasSnapshots histories) entry) : Room histories := by
  intro before ring after hsplit done slot rest hslot
  have hring : ring ∈ histories := by
    rw [hsplit]
    simp
  have hmem : slot ∈ ring.2 := by
    rw [hslot]
    simp
  have hsum := List.card_nsmul_le_sum (slot.map (termSize (hasSnapshots histories)))
    ((29 + 2 * d) * 8) (by
      intro size hsize
      obtain ⟨entry, hentry, rfl⟩ := List.mem_map.mp hsize
      exact h ring hring slot hmem entry hentry)
  rw [List.length_map, smul_eq_mul] at hsum
  exact hsum.trans (Nat.le_add_right _ _)

/-- In at most two dimensions the bytes of the terms are always there. -/
theorem room_of_le_two (h : Admissible ctx histories) (hd : d ≤ 2) : Room histories := by
  refine room_of_terms fun ring hring slot hslot entry hentry => ?_
  have hterm := ((h.rings ring hring).slots slot hslot).terms entry hentry
  have hsize := termSize_ge (hasSnapshots histories) hterm.coefficient.nonempty
  omega

end Registries

/-! ### A term without faces in three dimensions -/

/-- The number one. -/
def oneBits : Binary64 := 0x3ff0000000000000

/-- A basis without faces, whose point is on a clock and has no other text. -/
def bareBasis (clock : List Byte) : Basis 3 :=
  ⟨0, 0, 0, ⟨clock, 0, 0, 0, 0, ⟨0, 1⟩, oneBits, 0, [], [], []⟩, 0, .preparedResidual, [],
    ⟨⟨0, 0, ⟨0, 1⟩, 0⟩, ⟨0, 0, ⟨1, 1⟩, oneBits⟩⟩, [], [], none⟩

/-- One ring with one slot and one term. -/
def bareRegistry (clock : List Byte) : Registry 3 :=
  [(ascii "h", [[(0, ⟨bareBasis clock, [(0, ⟨1, 1⟩)]⟩)]])]

/-- A context with the same ring, one level and a budget of one term. -/
def bareContext : RestoreContext 3 where
  rings := [(ascii "h", 1)]
  owner _ := some 0
  initialized _ := true
  rhsBasisBounds := [1]
  coefficientTermBounds := [1]
  declaredFamilies := []
  levels := 1
  hasInterfaceFaces _ := false
  installedProgramHash := []
  authenticate _ := pure ()
  sharedIdentity _ := []
  snapshots _ := none
  configuredLevels := 1
  certify _ := pure ()
  sha256 := id

/-- Zero is canonical. -/
lemma canonical_zero :
    Rational.Canonical ⟨0, 1⟩ := ⟨by decide, by decide, by decide, isCoprime_one_right⟩

/-- One is canonical. -/
lemma canonical_one :
    Rational.Canonical ⟨1, 1⟩ := ⟨by decide, by decide, by decide, isCoprime_one_right⟩

/-- Zero is a size. -/
lemma sized_zero : Sized 0 := by decide

/-- Zero is an `int`. -/
lemma isInt_zero : IsInt 0 := by decide

/-- The basis passes the checks of the reader. -/
lemma bareBasis_typed {clock : List Byte} (hclock : clock ≠ []) (hsized : Sized clock.length) :
    BasisTyped bareContext (bareBasis clock) where
  runtimeBlock := sized_zero
  level := isInt_zero
  rhsIdentity := isInt_zero
  temporalFamily := sized_zero
  family := rfl
  point := ⟨hsized, isInt64_of_isInt isInt_zero, isInt_zero, isInt_zero, isInt_zero, canonical_zero,
    sized_zero, sized_zero, sized_zero⟩
  pointChecked := by
    have hcreate : Rational.create 0 1 = .ok ⟨0, 1⟩ := canonical_zero.create_eq
    have hone : Binary64.isFinite oneBits = true ∧ Binary64.isPositive oneBits = true ∧
        Binary64.isFinite 0 = true := by decide
    simp only [checkPoint, bareBasis, hcreate, ok_bind, hclock, hone, throwIf_eq_ok]
    decide
  window := ⟨⟨isInt_zero, isInt64_of_isInt isInt_zero, canonical_zero⟩,
    ⟨isInt_zero, isInt64_of_isInt isInt_zero, canonical_one⟩,
    by simp [Rational.less, Rational.positiveLess, Rational.magnitude, bareBasis],
    (by decide : Binary64.less 0 oneBits = true)⟩
  facesSized := sized_zero
  faces := by simp [bareBasis]
  sharedSized := sized_zero
  shared := by simp [bareBasis]
  sharedDistinct := List.nodup_nil
  snapshot := by simp [bareBasis]

/-- The registry is admissible. -/
lemma bareRegistry_admissible {clock : List Byte} (hclock : clock ≠ [])
    (hsized : Sized clock.length) :
    Admissible bareContext (bareRegistry clock) := by
  have hcoefficient : CoefficientTyped [(0, ⟨1, 1⟩)] :=
    ⟨by decide, by simp, by simp, by simpa using ⟨by decide, canonical_one⟩⟩
  have hterm : TermTyped bareContext (0, ⟨bareBasis clock, [(0, ⟨1, 1⟩)]⟩) :=
    ⟨sized_zero, rfl, hcoefficient, bareBasis_typed hclock hsized, Nat.one_pos, fun _ => rfl⟩
  have hexpression : ExpressionTyped bareContext [(0, ⟨bareBasis clock, [(0, ⟨1, 1⟩)]⟩)] :=
    ⟨(by decide : 1 < 2 ^ 64), by simp, by simpa using hterm, rfl⟩
  refine ⟨(by decide : 1 < 2 ^ 64), by simp [bareRegistry], ?_, rfl⟩
  intro ring hring
  rw [bareRegistry, List.mem_singleton] at hring
  subst hring
  exact ⟨(by decide : 1 < 2 ^ 64), (by decide : ascii "h" ≠ []), rfl, (by decide : 1 < 2 ^ 64),
    by simpa using hexpression⟩

/-- All its texts and containers are within the limit. -/
lemma bareRegistry_credible {clock : List Byte} (h : clock.length ≤ maxElements) :
    Credible (bareRegistry clock) := by
  have hkey : (ascii "h").length ≤ maxElements := by decide
  simp [Credible, bareRegistry, ExpressionCredible, TermCredible, BasisCredible, PointCredible,
    bareBasis, h, hkey]
  decide

/-- With eight letters in the name of the clock the bytes are there. -/
lemma bareRegistry_room {clock : List Byte} (h : 8 ≤ clock.length) :
    Room (bareRegistry clock) := by
  have hsize : termSize false (0, ⟨bareBasis clock, [(0, ⟨1, 1⟩)]⟩) = 272 + clock.length := by
    simp [termSize, basisSize, pointSize, descriptorSize, bareBasis]
    omega
  refine room_of_terms fun ring hring slot hslot entry hentry => ?_
  rw [bareRegistry, List.mem_singleton] at hring
  subst hring
  obtain rfl := List.mem_singleton.mp hslot
  obtain rfl := List.mem_singleton.mp hentry
  show 280 ≤ termSize false _
  rw [hsize]
  omega

/-- A clock with a long name: the term is restored. -/
theorem restore_long_clock :
    (serializeExpressions (bareRegistry (ascii "macro-clock")) 1 >>= restore bareContext) =
      .ok (bareRegistry (ascii "macro-clock")) :=
  (restore_serialize_iff (by decide) (bareRegistry_admissible (by decide) (by decide))).mpr
    ⟨bareRegistry_credible (by decide), bareRegistry_room (by decide)⟩

/-- A clock with a name of one letter: the 273 bytes of the term are fewer than the 280 that the
reader expects, and the payload is refused. -/
theorem restore_short_clock :
    Admissible bareContext (bareRegistry (ascii "c")) ∧
      (serializeExpressions (bareRegistry (ascii "c")) 1 >>= restore bareContext) ≠
        .ok (bareRegistry (ascii "c")) := by
  refine ⟨bareRegistry_admissible (by decide) (by decide), fun h => ?_⟩
  have hok : (serializeExpressions (bareRegistry (ascii "c")) 1 >>= restore bareContext).isOk =
      true := by
    rw [h]
    rfl
  revert hok
  decide +kernel

end HistoryFlux

end Pops
