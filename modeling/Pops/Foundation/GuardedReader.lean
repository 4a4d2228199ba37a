import Pops.Foundation.ByteReader

/-!
# Readers that guard their counts

A reader of containers checks a count against a limit and against the bytes that are left before it
reads the elements.  On the image of a value it then returns the value if its guards hold, and
throws if they do not.  Whether they hold depends only on the number of bytes that stand behind the
image, so the condition of a sequence or of a loop is put together from the conditions of its
parts.

## Main definitions

* `Pops.Reader.iterate` — a reader of one element after another.
* `Pops.Reader.credibleCount` — a count with its guards.
* `Pops.Reader.axes` — one value for every axis.
* `Pops.Reader.Reads` — what a reader does on the image of a value.

## Main results

* `Pops.Reader.Reads.bind` — readers in sequence.
* `Pops.Reader.Reads.iterate` — a loop.
* `Pops.Reader.Reads.container` — a container behind its count.
-/

namespace Pops.Reader

variable {α β σ : Type}

/-! ## Readers -/

/-- A number of elements, read one after another into a state. -/
def iterate (step : σ → Reader σ) : ℕ → σ → Reader σ
  | 0, s => pure s
  | n + 1, s => do
    let s' ← step s
    iterate step n s'

/-- A count: at most `limit` elements, each of which takes `elementBytes` of the bytes left. -/
def credibleCount (e e' : Exception) (limit elementBytes : ℕ) : Reader ℕ := do
  let value ← word e
  let left ← remaining
  call (throwIf (elementBytes = 0 ∨ value.toNat > limit ∨ value.toNat > left / elementBytes) e')
  pure value.toNat

/-- The elements of a container behind their count. -/
def container (e e' : Exception) (limit elementBytes : ℕ) (r : Reader α) : Reader (List α) := do
  let count ← credibleCount e e' limit elementBytes
  iterate (fun elements => do
    let x ← r
    pure (elements ++ [x])) count []

/-- One value for every axis. -/
def axes : {d : ℕ} → (Fin d → Reader α) → Reader (Fin d → α)
  | 0, _ => pure Fin.elim0
  | _ + 1, r => do
    let first ← r 0
    let others ← axes fun axis => r axis.succ
    pure (Fin.cons first others)

/-! ## What a reader does on an image -/

/-- On the image of `a` the reader returns `a` and stops behind it, if the guard holds of the number
of bytes behind the image, and throws if it does not. -/
structure Reads (r : Reader α) (image : List Byte) (a : α) (guard : ℕ → Prop) : Prop where
  returns : ∀ rest, guard rest.length → r (image ++ rest) = .ok (a, rest)
  throws : ∀ rest, ¬ guard rest.length → ∃ e, r (image ++ rest) = .error e

namespace Reads

/-- Equal images and equal guards. -/
lemma congr {r : Reader α} {image image' : List Byte} {a : α} {guard guard' : ℕ → Prop}
    (h : Reads r image a guard) (himage : image = image') (hguard : ∀ n, guard n ↔ guard' n) :
    Reads r image' a guard' := by
  subst himage
  exact ⟨fun rest hrest => h.returns rest ((hguard _).mpr hrest),
    fun rest hrest => h.throws rest fun hg => hrest ((hguard _).mp hg)⟩

/-- A reader that reads nothing. -/
protected lemma pure (a : α) : Reads (pure a : Reader α) [] a fun _ => True :=
  ⟨fun _ _ => rfl, fun _ h => absurd trivial h⟩

/-- A computation that returns. -/
lemma call_ok {x : Throws α} {a : α} (h : x = .ok a) : Reads (call x) [] a fun _ => True := by
  subst h
  exact ⟨fun _ _ => rfl, fun _ h => absurd trivial h⟩

/-- Readers in sequence: the image of the second stands behind the first. -/
theorem bind {r : Reader α} {f : α → Reader β} {image image' : List Byte} {a : α} {b : β}
    {guard guard' : ℕ → Prop} (h : Reads r image a guard) (h' : Reads (f a) image' b guard') :
    Reads (r >>= f) (image ++ image') b fun n => guard (image'.length + n) ∧ guard' n := by
  constructor
  · rintro rest ⟨hguard, hguard'⟩
    rw [List.append_assoc, bind_eq_ok]
    refine ⟨a, image' ++ rest, h.returns _ ?_, h'.returns rest hguard'⟩
    rwa [List.length_append]
  · intro rest hrest
    rw [List.append_assoc]
    show ∃ e, Reader.bind r f (image ++ (image' ++ rest)) = .error e
    unfold Reader.bind
    by_cases hguard : guard (image' ++ rest).length
    · rw [h.returns _ hguard]
      refine h'.throws rest fun hguard' => hrest ⟨?_, hguard'⟩
      rwa [List.length_append] at hguard
    · obtain ⟨e, he⟩ := h.throws _ hguard
      exact ⟨e, by rw [he]⟩

/-- A computation that returns, in front of a reader. -/
lemma call_bind {x : Throws α} {a : α} {f : α → Reader β} {image : List Byte} {b : β}
    {guard : ℕ → Prop} (hx : x = .ok a) (h : Reads (f a) image b guard) :
    Reads (call x >>= f) image b guard :=
  ((call_ok hx).bind h).congr rfl fun _ => by simp

/-- Readers in sequence, the first of them without a guard. -/
lemma then_ {r : Reader α} {f : α → Reader β} {image image' : List Byte} {a : α} {b : β}
    {guard : ℕ → Prop} (h : Reads r image a fun _ => True) (h' : Reads (f a) image' b guard) :
    Reads (r >>= f) (image ++ image') b guard :=
  (h.bind h').congr rfl fun _ => by simp

/-- A value made from what was read. -/
theorem map {r : Reader α} {image : List Byte} {a : α} {guard : ℕ → Prop}
    (h : Reads r image a guard) (f : α → β) :
    Reads (do let x ← r; pure (f x)) image (f a) guard :=
  (h.bind (Reads.pure (f a))).congr (List.append_nil _) fun n => by
    simp

/-- A number of 64 bits. -/
theorem word (e : Exception) (value : UInt64) :
    Reads (word e) (writeWord value) value fun _ => True :=
  ⟨fun rest _ => (exact_word e _ value rest).mpr ⟨trivial, rfl⟩, fun _ h => absurd trivial h⟩

/-- A count: its guards are those of the reader. -/
theorem credibleCount (e e' : Exception) {limit elementBytes count : ℕ} (hcount : count < 2 ^ 64)
    (hbytes : 0 < elementBytes) :
    Reads (credibleCount e e' limit elementBytes) (littleEndian 8 count) count
      fun n => count ≤ limit ∧ count * elementBytes ≤ n := by
  have hvalue : (UInt64.ofNat count).toNat = count := by
    rw [UInt64.toNat_ofNat', Nat.mod_eq_of_lt hcount]
  have himage : littleEndian 8 count = writeWord (UInt64.ofNat count) := by rw [writeWord, hvalue]
  have hdiv : ∀ n : ℕ, count > n / elementBytes ↔ ¬ count * elementBytes ≤ n := by
    intro n
    rw [gt_iff_lt, ← not_le, Nat.le_div_iff_mul_le hbytes]
  have hword := fun rest => (exact_word e (writeWord (UInt64.ofNat count) ++ rest) _ rest).mpr
    ⟨trivial, rfl⟩
  rw [himage]
  constructor
  · rintro rest ⟨hlimit, hleft⟩
    simp only [Reader.credibleCount, bind_eq_ok, remaining_eq_ok, call_eq_ok, throwIf_eq_ok,
      pure_eq_ok]
    refine ⟨_, rest, hword rest, _, rest, ⟨rfl, rfl⟩, (), rest, ⟨?_, rfl⟩, hvalue, rfl⟩
    rw [hvalue, hdiv]
    omega
  · intro behind hguard
    cases hresult : Reader.credibleCount e e' limit elementBytes
        (writeWord (UInt64.ofNat count) ++ behind) with
    | error e'' => exact ⟨e'', rfl⟩
    | ok result =>
      -- a count that was returned has passed the guards
      exfalso
      obtain ⟨n, left⟩ := result
      simp only [Reader.credibleCount, bind_eq_ok, remaining_eq_ok, call_eq_ok, throwIf_eq_ok,
        hword behind, Except.ok.injEq, Prod.mk.injEq] at hresult
      obtain ⟨_, _, ⟨rfl, rfl⟩, _, _, ⟨rfl, rfl⟩, _, _, ⟨hpassed, rfl⟩, -⟩ := hresult
      rw [hvalue, hdiv] at hpassed
      exact hguard ⟨by omega, by tauto⟩

/-- A number of bytes that stand there. -/
lemma raw (image : List Byte) : Reads (raw image.length) image image fun _ => True :=
  ⟨fun _ _ => raw_eq_ok.mpr ⟨List.take_left, List.drop_left⟩, fun _ h => absurd trivial h⟩

/-- A loop over elements: every element has its own guard, and behind it stand the images of the
elements after it.

**Proof sketch.** Induction on the elements, with the state in front of them. -/
theorem iterate {step : σ → Reader σ} {write : α → List Byte} {guard : α → ℕ → Prop}
    (next : List α → σ) : ∀ (before elements : List α),
    (∀ done x rest, elements = done ++ x :: rest →
      Reads (step (next (before ++ done))) (write x) (next (before ++ (done ++ [x]))) (guard x)) →
    Reads (iterate step elements.length (next before)) (elements.flatMap write)
      (next (before ++ elements)) fun n => ∀ done x rest, elements = done ++ x :: rest →
        guard x ((rest.flatMap write).length + n) := by
  intro before elements
  induction elements generalizing before with
  | nil =>
    intro _
    rw [List.append_nil]
    exact (Reads.pure (next before)).congr rfl fun n => by simp
  | cons head rest ih =>
    intro hstep
    have hhead := hstep [] head rest rfl
    rw [List.append_nil, List.nil_append] at hhead
    have hrest : ∀ done x rest', rest = done ++ x :: rest' →
        Reads (step (next (before ++ [head] ++ done))) (write x)
          (next (before ++ [head] ++ (done ++ [x]))) (guard x) := by
      intro done x rest' h
      have := hstep (head :: done) x rest' (by rw [h, List.cons_append])
      simpa only [List.append_assoc, List.singleton_append, List.cons_append,
        List.nil_append] using this
    have hloop := ih (before ++ [head]) hrest
    rw [List.append_assoc, List.singleton_append] at hloop
    refine (hhead.bind hloop).congr List.flatMap_cons.symm fun n => ?_
    constructor
    · rintro ⟨hguard, hguards⟩ done x rest' h
      cases done with
      | nil =>
        obtain ⟨rfl, rfl⟩ := List.cons.inj h
        exact hguard
      | cons y done =>
        exact hguards done x rest' (List.cons.inj h).2
    · intro hguards
      exact ⟨hguards [] head rest rfl, fun done x rest' h =>
        hguards (head :: done) x rest' (by rw [h, List.cons_append])⟩

/-- The bytes of elements of a least size. -/
lemma mul_le_length_flatMap {write : α → List Byte} {elementBytes : ℕ} {elements : List α}
    (hsize : ∀ x ∈ elements, elementBytes ≤ (write x).length) :
    elements.length * elementBytes ≤ (elements.flatMap write).length := by
  rw [List.length_flatMap]
  have := List.card_nsmul_le_sum (elements.map fun x => (write x).length) elementBytes
    (by simpa using hsize)
  rwa [List.length_map, smul_eq_mul] at this

/-- A container behind its count.  Elements of the least size pass the guard on the bytes left. -/
theorem container {e e' : Exception} {limit elementBytes : ℕ} {r : Reader α} {write : α → List Byte}
    {credible : α → Prop} {elements : List α} (hbytes : 0 < elementBytes)
    (hcount : elements.length < 2 ^ 64)
    (hread : ∀ x ∈ elements, Reads r (write x) x fun _ => credible x)
    (hsize : ∀ x ∈ elements, elementBytes ≤ (write x).length) :
    Reads (container e e' limit elementBytes r)
      (littleEndian 8 elements.length ++ elements.flatMap write) elements
      fun _ => elements.length ≤ limit ∧ ∀ x ∈ elements, credible x := by
  have hloop := @iterate _ _ (fun elements => do
      let x ← r
      pure (elements ++ [x])) write (fun x _ => credible x) id [] elements
    fun done x rest h => by
      have hx : x ∈ elements := by
        rw [h]
        simp
      exact (hread x hx).map fun x => done ++ [x]
  refine ((credibleCount e e' hcount hbytes).bind hloop).congr rfl fun n => ?_
  have hleft := mul_le_length_flatMap hsize
  constructor
  · rintro ⟨⟨hlimit, -⟩, helements⟩
    refine ⟨hlimit, fun x hx => ?_⟩
    obtain ⟨done, rest, h⟩ := List.append_of_mem hx
    exact helements done x rest h
  · rintro ⟨hlimit, helements⟩
    refine ⟨⟨hlimit, by omega⟩, fun done x rest h => helements x ?_⟩
    rw [h]
    simp

/-- One value for every axis. -/
theorem axes {d : ℕ} {r : Fin d → Reader α} {write : Fin d → List Byte} {value : Fin d → α}
    (h : ∀ axis, Reads (r axis) (write axis) (value axis) fun _ => True) :
    Reads (axes r) (List.ofFn write).flatten value fun _ => True := by
  induction d with
  | zero =>
    rw [show value = Fin.elim0 from funext fun axis => axis.elim0]
    exact Reads.pure _
  | succ d ih =>
    have hothers := (ih fun axis => h axis.succ).map
      fun others => (Fin.cons (value 0) others : Fin (d + 1) → α)
    rw [show (Fin.cons (value 0) fun axis => value axis.succ : Fin (d + 1) → α) = value from
      Fin.cons_self_tail value] at hothers
    refine ((h 0).then_ hothers).congr ?_ fun _ => Iff.rfl
    rw [List.ofFn_succ, List.flatten_cons]

end Reads

end Pops.Reader
