import Pops.Foundation.Exception

/-!
# Ranks that call collectives

A set of ranks runs one program each.  A rank computes on its own up to its next collective, an
all-reduce of a list of values, and goes on with the reduced values; `Collective` is the tree of
what a rank may do, with one branch for every reply.  `spmd` runs all ranks together: a reduction
completes when every rank has reached a reduction of the same operation, datatype and length, and
the run ends when every rank has returned.  In every other case (one rank has returned while
another waits, two ranks wait in different reductions, a rank is stuck) the ranks have no joint
run.

A `Computation` is the code of one rank with a local state that survives exceptions.  `Triple` is
a rule of pre- and postconditions for all ranks together: from a vector of states that meets the
precondition the ranks have a joint run, and either all of them return or all of them throw.

## Main definitions

* `Pops.Spmd.Collective`, `spmd` — one rank, and all ranks together.
* `Pops.Spmd.Computation` — the code of one rank.
* `Pops.Spmd.consensus` — a local block whose failure is reduced before any rank goes on.
* `Pops.Spmd.Block` — local code as a sequence of statements.
* `Pops.Spmd.Triple` — pre- and postconditions of a joint run.

## Main results

* `Pops.Spmd.spmd_bind` — a joint run of a sequence is a joint run of its parts.
* `Pops.Spmd.Triple.bind`, `consensus` — the rules for a sequence and for a block with consensus.
* `Pops.Spmd.minimum_eq_maximum` — the two extreme reductions agree only if all ranks do.
-/

namespace Pops.Spmd

/-! ## One rank -/

/-- The operation of an all-reduce. -/
inductive ReduceOp
  | min
  | max
  | sum
  deriving DecidableEq, Repr

/-- The datatype of an all-reduce. -/
inductive Datatype
  | long
  | uint64
  | char
  | real
  deriving DecidableEq, Repr

/-- The contribution of one rank to an all-reduce. -/
structure Request where
  op : ReduceOp
  datatype : Datatype
  values : List ℤ
  deriving DecidableEq, Repr

/-- What the ranks must share for their contributions to meet in one reduction. -/
def Request.shape (request : Request) : ReduceOp × Datatype × ℕ :=
  (request.op, request.datatype, request.values.length)

/-- What one rank may do: return, contribute to a reduction and go on with the reduced values, or
neither (it computes forever, or its behaviour is undefined). -/
inductive Collective (α : Type)
  | done (a : α)
  | exchange (request : Request) (next : List ℤ → Collective α)
  | stuck

namespace Collective

variable {α β : Type}

/-- The value of a rank that has returned. -/
def result? : Collective α → Option α
  | .done a => some a
  | _ => none

/-- The contribution of a rank that waits. -/
def request? : Collective α → Option Request
  | .exchange request _ => some request
  | _ => none

/-- A rank that waits goes on with the reply. -/
def resume (reply : List ℤ) : Collective α → Collective α
  | .exchange _ next => next reply
  | rank => rank

/-- One program after the other. -/
def bind (rank : Collective α) (f : α → Collective β) : Collective β :=
  match rank with
  | .done a => f a
  | .exchange request next => .exchange request fun reply => (next reply).bind f
  | .stuck => .stuck

/-- A rank that has returned goes on with its value. -/
lemma bind_of_result? {rank : Collective α} (h : rank.result?.isSome = true)
    (f : α → Collective β) : rank.bind f = f (rank.result?.get h) := by
  cases rank with
  | done a => rfl
  | exchange request next => cases h
  | stuck => cases h

end Collective

/-! ## All ranks together -/

section Ranks

variable {ι : Type} [Fintype ι] [Inhabited ι] {α β σ : Type}

/-- The value of a reduction. -/
def ReduceOp.combine (op : ReduceOp) (values : ι → ℤ) : ℤ :=
  match op with
  | .min => Finset.univ.inf' ⟨default, Finset.mem_univ _⟩ values
  | .max => Finset.univ.sup' ⟨default, Finset.mem_univ _⟩ values
  | .sum => ∑ rank, values rank

/-- The reply to the contributions of all ranks, element by element. -/
def reply (op : ReduceOp) (length : ℕ) (values : ι → List ℤ) : List ℤ :=
  (List.range length).map fun i => op.combine fun rank => (values rank).getD i 0

/-- The contribution of a rank, and nothing for a rank that does not wait. -/
def contribution (rank : Collective α) : List ℤ :=
  (rank.request?.map Request.values).getD []

/-- The joint run, along the program of one of the ranks. -/
def joint : Collective α → (ι → Collective α) → Option (ι → α)
  | .done _, ranks =>
    if h : ∀ rank, (ranks rank).result?.isSome = true then
      some fun rank => (ranks rank).result?.get (h rank)
    else none
  | .exchange request next, ranks =>
    if ∀ rank, (ranks rank).request?.map Request.shape = some request.shape then
      joint (next (reply request.op request.values.length fun rank => contribution (ranks rank)))
        fun rank => (ranks rank).resume
          (reply request.op request.values.length fun rank => contribution (ranks rank))
    else none
  | .stuck, _ => none

/-- The joint run of all ranks. -/
def spmd (ranks : ι → Collective α) : Option (ι → α) := joint (ranks default) ranks

/-- Ranks that have returned have run. -/
lemma spmd_done (a : ι → α) : spmd (fun rank => .done (a rank)) = some a := by
  simp [spmd, joint, Collective.result?]

/-- Ranks that wait in one reduction go on with its reply. -/
lemma spmd_exchange {op : ReduceOp} {datatype : Datatype} {length : ℕ} {values : ι → List ℤ}
    (hlength : ∀ rank, (values rank).length = length) (next : ι → List ℤ → Collective α) :
    spmd (fun rank => .exchange ⟨op, datatype, values rank⟩ (next rank)) =
      spmd fun rank => next rank (reply op length values) := by
  simp [spmd, joint, Collective.request?, Collective.resume, contribution, Request.shape, hlength]

/-- A joint run of a sequence is a joint run of its first part, and then of its second. -/
lemma joint_bind (f : ι → α → Collective β) :
    ∀ (lead : Collective α) (ranks : ι → Collective α) (a : ι → α), lead = ranks default →
      joint lead ranks = some a →
      joint (lead.bind (f default)) (fun rank => (ranks rank).bind (f rank)) =
        spmd fun rank => f rank (a rank) := by
  intro lead
  induction lead with
  | done value =>
    intro ranks a hlead hrun
    simp only [joint, Option.dite_none_right_eq_some, Option.some.injEq] at hrun
    obtain ⟨hall, rfl⟩ := hrun
    have hbind : ∀ rank, (ranks rank).bind (f rank) =
        f rank ((ranks rank).result?.get (hall rank)) :=
      fun rank => Collective.bind_of_result? (hall rank) (f rank)
    simp only [hbind, hlead, spmd]
  | exchange request next ih =>
    intro ranks a hlead hrun
    simp only [joint] at hrun
    split_ifs at hrun with hshape
    have hranks : ∀ rank, ∃ request' next', ranks rank = .exchange request' next' ∧
        request'.shape = request.shape := by
      intro rank
      have hrank := hshape rank
      cases hcase : ranks rank with
      | done b => simp [hcase, Collective.request?] at hrank
      | exchange request' next' =>
        exact ⟨request', next', rfl, by simpa [hcase, Collective.request?] using hrank⟩
      | stuck => simp [hcase, Collective.request?] at hrank
    have hrequest : ∀ rank, ((ranks rank).bind (f rank)).request? = (ranks rank).request? := by
      intro rank
      obtain ⟨request', next', hcase, -⟩ := hranks rank
      rw [hcase]
      rfl
    have hresume : ∀ rank reply, ((ranks rank).bind (f rank)).resume reply =
        ((ranks rank).resume reply).bind (f rank) := by
      intro rank reply
      obtain ⟨request', next', hcase, -⟩ := hranks rank
      rw [hcase]
      rfl
    have hnext : ∀ reply, next reply = (ranks default).resume reply := by
      intro reply
      rw [← hlead]
      rfl
    simp only [Collective.bind, joint, hrequest, contribution, hresume, if_pos hshape]
    exact ih _ _ _ (hnext _) hrun
  | stuck =>
    intro ranks a _ hrun
    cases hrun

/-- A joint run of a sequence is a joint run of its parts. -/
theorem spmd_bind {ranks : ι → Collective α} {a : ι → α} (hrun : spmd ranks = some a)
    (f : ι → α → Collective β) :
    spmd (fun rank => (ranks rank).bind (f rank)) = spmd fun rank => f rank (a rank) :=
  joint_bind f _ ranks a rfl hrun

/-! ## Extreme reductions -/

/-- A value of every rank is at least the minimum. -/
lemma minimum_le (values : ι → ℤ) (rank : ι) : ReduceOp.min.combine values ≤ values rank :=
  Finset.inf'_le _ (Finset.mem_univ rank)

/-- A value of every rank is at most the maximum. -/
lemma le_maximum (values : ι → ℤ) (rank : ι) : values rank ≤ ReduceOp.max.combine values :=
  Finset.le_sup' _ (Finset.mem_univ rank)

/-- The minimum is the value of a rank. -/
lemma exists_eq_minimum (values : ι → ℤ) : ∃ rank, ReduceOp.min.combine values = values rank := by
  obtain ⟨rank, -, h⟩ := Finset.exists_mem_eq_inf' (s := Finset.univ)
    ⟨(default : ι), Finset.mem_univ _⟩ values
  exact ⟨rank, h⟩

/-- The maximum is the value of a rank. -/
lemma exists_eq_maximum (values : ι → ℤ) : ∃ rank, ReduceOp.max.combine values = values rank := by
  obtain ⟨rank, -, h⟩ := Finset.exists_mem_eq_sup' (s := Finset.univ)
    ⟨(default : ι), Finset.mem_univ _⟩ values
  exact ⟨rank, h⟩

/-- The reduction of a value that all ranks share is that value. -/
lemma combine_const {op : ReduceOp} (hop : op ≠ .sum) {values : ι → ℤ} {value : ℤ}
    (h : ∀ rank, values rank = value) : op.combine values = value := by
  cases op with
  | min =>
    obtain ⟨rank, hrank⟩ := exists_eq_minimum values
    exact hrank.trans (h rank)
  | max =>
    obtain ⟨rank, hrank⟩ := exists_eq_maximum values
    exact hrank.trans (h rank)
  | sum => exact absurd rfl hop

/-- The extreme reductions of lists of one length agree exactly when all ranks have one list. -/
theorem minimum_eq_maximum {length : ℕ} {values : ι → List ℤ}
    (hlength : ∀ rank, (values rank).length = length) :
    reply .min length values = reply .max length values ↔
      ∀ rank, values rank = values default := by
  constructor
  · intro h rank
    apply List.ext_getElem (by rw [hlength, hlength])
    intro i hi hi'
    have hentry : ReduceOp.min.combine (fun rank => (values rank).getD i 0) =
        ReduceOp.max.combine fun rank => (values rank).getD i 0 := by
      have hget := congrArg (fun l => l.getD i 0) h
      have hlt : i < length := by rw [← hlength rank]; exact hi
      simpa [reply, hlt] using hget
    have hrank := minimum_le (fun rank => (values rank).getD i 0) rank
    have hrank' := le_maximum (fun rank => (values rank).getD i 0) rank
    have hdefault := minimum_le (fun rank => (values rank).getD i 0) default
    have hdefault' := le_maximum (fun rank => (values rank).getD i 0) default
    simp only [List.getD_eq_getElem _ _ hi, List.getD_eq_getElem _ _ hi'] at *
    omega
  · intro h
    have hentry : ∀ (op : ReduceOp), op ≠ .sum → reply op length values =
        (List.range length).map fun i => (values default).getD i 0 := by
      intro op hop
      apply List.map_congr_left
      intro i _
      exact combine_const hop fun rank => by rw [h rank]
    rw [hentry .min (by decide), hentry .max (by decide)]

end Ranks

/-! ## Computations with a local state -/

/-- The code of one rank with a local state: it returns or throws, and leaves a state in both
cases. -/
def Computation (σ α : Type) : Type := σ → Collective (Except Exception α × σ)

section Computations

variable {σ α β : Type}

/-- What follows a part that has returned or thrown. -/
def Computation.continue (f : α → Computation σ β) (end_ : Except Exception α × σ) :
    Collective (Except Exception β × σ) :=
  match end_ with
  | (.ok a, s) => f a s
  | (.error e, s) => .done (.error e, s)

instance : Monad (Computation σ) where
  pure a := fun s => .done (.ok a, s)
  bind m f := fun s => (m s).bind (Computation.continue f)

/-- Code that calls no collective. -/
def localCode (f : σ → Except Exception α × σ) : Computation σ α := fun s => .done (f s)

/-- A read of the state. -/
def read : Computation σ σ := localCode fun s => (.ok s, s)

/-- An update of the state. -/
def update (f : σ → σ) : Computation σ Unit := localCode fun s => (.ok (), f s)

/-- The statement `if (c) throw e;` after an update. -/
def throwWhen (c : Prop) [Decidable c] (undo : σ → σ) (e : Exception) : Computation σ Unit :=
  localCode fun s => if c then (.error e, undo s) else (.ok (), s)

/-- Code that never reaches another collective. -/
def undefined : Computation σ α := fun _ => .stuck

/-- A reduction of a list of values. -/
def allReduce (op : ReduceOp) (datatype : Datatype) (values : List ℤ) :
    Computation σ (List ℤ) :=
  fun s => .exchange ⟨op, datatype, values⟩ fun reply => .done (.ok reply, s)

/-- A reduction of one value. -/
def allReduceOne (op : ReduceOp) (datatype : Datatype) (value : ℤ) : Computation σ ℤ := do
  let reply ← allReduce op datatype [value]
  pure (reply.getD 0 0)

/-- `all_reduce_max` of a `long`. -/
def allReduceMax (value : ℤ) : Computation σ ℤ := allReduceOne .max .long value

/-- `all_reduce_min` of a `long`. -/
def allReduceMin (value : ℤ) : Computation σ ℤ := allReduceOne .min .long value

/-- The code `try { block } catch (...) { local_error = std::current_exception(); }`. -/
def capture (block : σ → Except Exception α × σ) : Computation σ (Except Exception α) :=
  localCode fun s => (.ok (block s).1, (block s).2)

/-- `local_error ? 1L : 0L`. -/
def failureFlag (outcome : Except Exception α) : ℤ :=
  match outcome with
  | .ok _ => 0
  | .error _ => 1

/-- The local error, and the error of another rank where there is none. -/
def collectiveFailure (outcome : Except Exception α) (message : String) : Exception :=
  match outcome with
  | .ok _ => runtimeError message
  | .error e => e

/-- The value of a block that did not throw. -/
def returned (outcome : Except Exception α) : Computation σ α :=
  localCode fun s => (outcome, s)

/-- A local block whose failure is reduced before any rank goes on: if it failed on some rank,
every rank undoes what it has done and throws. -/
def consensus (block : σ → Except Exception α × σ) (undo : σ → σ) (message : String) :
    Computation σ α := do
  let outcome ← capture block
  let failed ← allReduceMax (failureFlag outcome)
  throwWhen (failed ≠ 0) undo (collectiveFailure outcome message)
  returned outcome

/-- Exact consensus on a list of values of one length: both extreme reductions. -/
def allAgree (datatype : Datatype) (values : List ℤ) : Computation σ Bool := do
  let minimum ← allReduce .min datatype values
  let maximum ← allReduce .max datatype values
  pure (minimum == maximum)

end Computations

/-! ## Local blocks -/

/-- Code that calls no collective, as a sequence of statements: it returns or throws, and leaves a
state in both cases. -/
def Block (σ α : Type) : Type := σ → Except Exception α × σ

section Blocks

variable {σ α β γ : Type}

/-- What follows a statement that has returned or thrown. -/
def Block.continue (f : α → Block σ β) (end_ : Except Exception α × σ) : Except Exception β × σ :=
  match end_ with
  | (.ok a, s) => f a s
  | (.error e, s) => (.error e, s)

instance : Monad (Block σ) where
  pure a := fun s => (.ok a, s)
  bind m f := fun s => Block.continue f (m s)

/-- A read of the state. -/
def Block.read : Block σ σ := fun s => (.ok s, s)

/-- A computation that does not use the state. -/
def Block.lift (x : Except Exception α) : Block σ α := fun s => (x, s)

/-- A sequence of statements returns exactly when its parts do. -/
theorem Block.bind_eq_ok {m : Block σ α} {f : α → Block σ β} {s s' : σ} {b : β} :
    (m >>= f) s = (.ok b, s') ↔ ∃ a t, m s = (.ok a, t) ∧ f a t = (.ok b, s') := by
  change Block.continue f (m s) = _ ↔ _
  match m s with
  | (.ok a, t) => simp [Block.continue]
  | (.error e, t) => simp [Block.continue]

/-- A sequence of statements throws because one of its parts does. -/
lemma Block.error_of_bind {m : Block σ α} {f : α → Block σ β} {s : σ} {e : Exception}
    (h : ((m >>= f) s).1 = .error e) :
    (m s).1 = .error e ∨ ∃ a t, m s = (.ok a, t) ∧ (f a t).1 = .error e := by
  change (Block.continue f (m s)).1 = _ at h
  match hm : m s with
  | (.ok a, t) => exact .inr ⟨a, t, rfl, by rw [hm] at h; exact h⟩
  | (.error e', t) =>
    rw [hm] at h
    exact .inl (congrArg Except.error (Except.error.inj h))

/-- The block leaves a view of the state as it was, whether it returns or throws. -/
def Block.Preserves (view : σ → γ) (m : Block σ α) : Prop := ∀ s, view (m s).2 = view s

/-- A value leaves the state as it was. -/
lemma Block.preserves_pure (view : σ → γ) (a : α) :
    Block.Preserves view (pure a : Block σ α) :=
  fun _ => rfl

/-- A computation that does not use the state leaves it as it was. -/
lemma Block.preserves_lift (view : σ → γ) (x : Except Exception α) :
    Block.Preserves view (Block.lift x : Block σ α) :=
  fun _ => rfl

/-- A read leaves the state as it was. -/
lemma Block.preserves_read (view : σ → γ) : Block.Preserves view (Block.read : Block σ σ) :=
  fun _ => rfl

/-- A sequence of statements that preserve a view preserves it. -/
lemma Block.preserves_bind {view : σ → γ} {m : Block σ α} {f : α → Block σ β}
    (hm : Block.Preserves view m) (hf : ∀ a, Block.Preserves view (f a)) :
    Block.Preserves view (m >>= f) := by
  intro s
  have hs := hm s
  change view (Block.continue f (m s)).2 = view s
  match hcase : m s with
  | (.ok a, t) => rw [hcase] at hs; exact (hf a t).trans hs
  | (.error e, t) => rw [hcase] at hs; exact hs

end Blocks

/-! ## Pre- and postconditions of joint runs -/

section Triples

variable {ι : Type} [Fintype ι] [Inhabited ι] {σ α β : Type}

/-- From states that meet the precondition the ranks have a joint run, in which all of them return
and the postcondition holds, or all of them throw and the exceptional postcondition holds. -/
def Triple (P : (ι → σ) → Prop) (m : ι → Computation σ α) (Q : (ι → α) → (ι → σ) → Prop)
    (E : (ι → σ) → Prop) : Prop :=
  ∀ s, P s →
    (∃ (a : ι → α) (s' : ι → σ),
      spmd (fun rank => m rank (s rank)) = some (fun rank => (.ok (a rank), s' rank)) ∧ Q a s') ∨
    ∃ (e : ι → Exception) (s' : ι → σ),
      spmd (fun rank => m rank (s rank)) = some (fun rank => (.error (e rank), s' rank)) ∧ E s'

namespace Triple

variable {P P' : (ι → σ) → Prop} {Q Q' : (ι → α) → (ι → σ) → Prop} {E E' : (ι → σ) → Prop}

/-- The rule of consequence. -/
lemma consequence {m : ι → Computation σ α} (h : Triple P m Q E) (hP : ∀ s, P' s → P s)
    (hQ : ∀ a s, Q a s → Q' a s) (hE : ∀ s, E s → E' s) : Triple P' m Q' E' := by
  intro s hs
  rcases h s (hP s hs) with ⟨a, s', hrun, hQs⟩ | ⟨e, s', hrun, hEs⟩
  · exact .inl ⟨a, s', hrun, hQ a s' hQs⟩
  · exact .inr ⟨e, s', hrun, hE s' hEs⟩

/-- A joint run in which all ranks return meets the postcondition. -/
lemma of_returned {m : ι → Computation σ α} (h : Triple P m Q E) {s s' : ι → σ} {a : ι → α}
    (hs : P s)
    (hrun : spmd (fun rank => m rank (s rank)) = some fun rank => (.ok (a rank), s' rank)) :
    Q a s' := by
  rcases h s hs with ⟨b, t, hjoint, hQ⟩ | ⟨e, t, hjoint, -⟩
  · have heq := Option.some.inj (hjoint.symm.trans hrun)
    have hvalues : b = a := funext fun rank => Except.ok.inj (congrArg Prod.fst (congrFun heq rank))
    have hstates : t = s' := funext fun rank => congrArg Prod.snd (congrFun heq rank)
    exact hvalues ▸ hstates ▸ hQ
  · have heq := Option.some.inj (hjoint.symm.trans hrun)
    have hdefault := congrArg Prod.fst (congrFun heq default)
    cases hdefault

/-- Ranks that have no reason to throw return. -/
lemma returns {m : ι → Computation σ α} (h : Triple P m Q E) {s : ι → σ} (hs : P s)
    (hE : ∀ s, ¬ E s) :
    ∃ (a : ι → α) (s' : ι → σ),
      spmd (fun rank => m rank (s rank)) = some (fun rank => (.ok (a rank), s' rank)) ∧ Q a s' := by
  rcases h s hs with hreturns | ⟨e, t, -, hEt⟩
  · exact hreturns
  · exact absurd hEt (hE t)

/-- A part of the precondition that is not about the states. -/
lemma pre_and {H : Prop} {m : ι → Computation σ α} (h : H → Triple P m Q E) :
    Triple (fun s => H ∧ P s) m Q E :=
  fun s hs => h hs.1 s hs.2

/-- The rule for a sequence. -/
theorem bind {m : ι → Computation σ α} {f : ι → α → Computation σ β}
    {R : (ι → β) → (ι → σ) → Prop} (hm : Triple P m Q E)
    (hf : ∀ a, Triple (Q a) (fun rank => f rank (a rank)) R E) :
    Triple P (fun rank => m rank >>= f rank) R E := by
  intro s hs
  have hsequence : ∀ outcome, spmd (fun rank => m rank (s rank)) = some outcome →
      spmd (fun rank => (m rank >>= f rank) (s rank)) =
        spmd fun rank => Computation.continue (f rank) (outcome rank) :=
    fun outcome hrun => spmd_bind hrun fun rank => Computation.continue (f rank)
  rcases hm s hs with ⟨a, s', hrun, hQs⟩ | ⟨e, s', hrun, hEs⟩
  · rcases hf a s' hQs with ⟨b, s'', hrun', hR⟩ | ⟨e, s'', hrun', hE⟩
    · exact .inl ⟨b, s'', (hsequence _ hrun).trans hrun', hR⟩
    · exact .inr ⟨e, s'', (hsequence _ hrun).trans hrun', hE⟩
  · exact .inr ⟨e, s', (hsequence _ hrun).trans (spmd_done _), hEs⟩

/-- The rule for a value. -/
lemma pure (a : ι → α) (h : ∀ s, P s → Q a s) :
    Triple P (fun rank => (Pure.pure (a rank) : Computation σ α)) Q E := by
  intro s hs
  exact .inl ⟨a, s, spmd_done _, h s hs⟩

/-- The rule for local code that returns on every rank. -/
lemma localCode_ok {f : ι → σ → Except Exception α × σ}
    (h : ∀ s, P s → ∃ a s', (∀ rank, f rank (s rank) = (.ok (a rank), s' rank)) ∧ Q a s') :
    Triple P (fun rank => localCode (f rank)) Q E := by
  intro s hs
  obtain ⟨a, s', hf, hQ⟩ := h s hs
  refine .inl ⟨a, s', ?_, hQ⟩
  simp only [localCode, hf]
  exact spmd_done _

/-- The rule for a read of the states. -/
theorem read : Triple P (fun _ => (Spmd.read : Computation σ σ)) (fun a s => a = s ∧ P s) E := by
  apply localCode_ok
  intro s hs
  exact ⟨s, s, fun _ => rfl, rfl, hs⟩

/-- The rule for an update of the states. -/
lemma update {R : (ι → σ) → Prop} {f : ι → σ → σ} (h : ∀ s, P s → R fun rank => f rank (s rank)) :
    Triple P (fun rank => Spmd.update (f rank)) (fun _ s => R s) E := by
  apply localCode_ok
  intro s hs
  exact ⟨fun _ => (), _, fun _ => rfl, h s hs⟩

/-- The rule for a guard whose condition is the same on all ranks. -/
lemma throwWhen {c : ι → Prop} [∀ rank, Decidable (c rank)] {undo : ι → σ → σ}
    {e : ι → Exception} (huniform : ∀ rank, c rank ↔ c default)
    (hthrow : ∀ s, P s → c default → E fun rank => undo rank (s rank)) :
    Triple P (fun rank => Spmd.throwWhen (c rank) (undo rank) (e rank))
      (fun _ s => ¬ c default ∧ P s) E := by
  intro s hs
  by_cases hc : c default
  · refine .inr ⟨e, fun rank => undo rank (s rank), ?_, hthrow s hs hc⟩
    simp only [Spmd.throwWhen, localCode, (huniform _).mpr hc, if_true]
    exact spmd_done _
  · refine .inl ⟨fun _ => (), s, ?_, hc, hs⟩
    simp only [Spmd.throwWhen, localCode, mt (huniform _).mp hc, if_false]
    exact spmd_done _

/-- The rule for a choice that is the same on all ranks. -/
lemma ite {c : ι → Prop} [∀ rank, Decidable (c rank)] {m n : ι → Computation σ α}
    (huniform : ∀ rank, c rank ↔ c default) (hm : c default → Triple P m Q E)
    (hn : ¬ c default → Triple P n Q E) :
    Triple P (fun rank => if c rank then m rank else n rank) Q E := by
  by_cases hc : c default
  · simp only [(huniform _).mpr hc, if_true]
    exact hm hc
  · simp only [mt (huniform _).mp hc, if_false]
    exact hn hc

/-- The rule for a reduction. -/
lemma allReduce {op : ReduceOp} {datatype : Datatype} {length : ℕ} {values : ι → List ℤ}
    (hlength : ∀ rank, (values rank).length = length) :
    Triple P (fun rank => Spmd.allReduce op datatype (values rank))
      (fun a s => (a = fun _ => reply op length values) ∧ P s) E := by
  intro s hs
  refine .inl ⟨fun _ => reply op length values, s, ?_, rfl, hs⟩
  simp only [Spmd.allReduce]
  rw [spmd_exchange hlength]
  exact spmd_done _

/-- The rule for a reduction of one value. -/
lemma allReduceOne {op : ReduceOp} {datatype : Datatype} (values : ι → ℤ) :
    Triple P (fun rank => Spmd.allReduceOne op datatype (values rank))
      (fun a s => (a = fun _ => op.combine values) ∧ P s) E := by
  have hlength : ∀ rank, [values rank].length = 1 := fun _ => rfl
  refine bind (allReduce hlength) fun a => ?_
  apply pure
  rintro s ⟨rfl, hs⟩
  exact ⟨by simp [reply], hs⟩

/-- The rule for exact consensus: the reply says on every rank whether all values are the same. -/
lemma allAgree {datatype : Datatype} {length : ℕ} {values : ι → List ℤ}
    (hlength : ∀ rank, (values rank).length = length) :
    Triple P (fun rank => Spmd.allAgree datatype (values rank))
      (fun a s => (a = fun _ => decide (∀ rank, values rank = values default)) ∧ P s) E := by
  refine bind (allReduce hlength) fun minimum => ?_
  refine bind (allReduce hlength) fun maximum => ?_
  apply pure
  rintro s ⟨rfl, rfl, hs⟩
  refine ⟨?_, hs⟩
  funext rank
  rw [Bool.eq_iff_iff, beq_iff_eq, decide_eq_true_iff]
  exact minimum_eq_maximum hlength

omit [Fintype ι] [Inhabited ι] in
/-- A flag is raised exactly by a failure. -/
lemma failureFlag_eq_zero {outcome : Except Exception α} :
    failureFlag outcome = 0 ↔ ∃ a, outcome = .ok a := by
  cases outcome with
  | ok a => simp [failureFlag]
  | error e => simp [failureFlag]

/-- The reduced flag is zero exactly when no rank has failed. -/
lemma maximum_failureFlag {outcome : ι → Except Exception α} :
    ReduceOp.max.combine (fun rank => failureFlag (outcome rank)) = 0 ↔
      ∀ rank, ∃ a, outcome rank = .ok a := by
  have hnonneg : ∀ rank, 0 ≤ failureFlag (outcome rank) := by
    intro rank
    cases outcome rank <;> simp [failureFlag]
  constructor
  · intro h rank
    have hle := le_maximum (fun rank => failureFlag (outcome rank)) rank
    apply failureFlag_eq_zero.mp
    have := hnonneg rank
    omega
  · intro h
    exact combine_const (by decide) fun rank => failureFlag_eq_zero.mpr (h rank)

/-- The rule for a block with consensus: all ranks go on if the block returns on all of them, and
all ranks undo and throw if it throws on some rank. -/
theorem consensus {block : ι → σ → Except Exception α × σ} {undo : ι → σ → σ} {message : String}
    (hok : ∀ s, P s → ∀ a s', (∀ rank, block rank (s rank) = (.ok (a rank), s' rank)) → Q a s')
    (hfail : ∀ s, P s → (∃ rank e, (block rank (s rank)).1 = .error e) →
      E fun rank => undo rank (block rank (s rank)).2) :
    Triple P (fun rank => Spmd.consensus (block rank) (undo rank) message) Q E := by
  have hcapture : Triple P (fun rank => capture (block rank))
      (fun outcome s' => ∃ s, P s ∧ ∀ rank, block rank (s rank) = (outcome rank, s' rank)) E := by
    apply localCode_ok
    intro s hs
    exact ⟨fun rank => (block rank (s rank)).1, fun rank => (block rank (s rank)).2,
      fun _ => rfl, s, hs, fun _ => rfl⟩
  refine bind hcapture fun outcome => ?_
  refine bind (allReduceOne fun rank => failureFlag (outcome rank)) fun failed => ?_
  refine bind (Q := fun _ s' => ∃ s, P s ∧
    ∃ a : ι → α, ∀ rank, outcome rank = .ok (a rank) ∧
      block rank (s rank) = (outcome rank, s' rank))
    ?_ fun _ => ?_
  · intro s' hs'
    obtain ⟨rfl, s, hs, hblock⟩ := hs'
    by_cases hfailed : ReduceOp.max.combine (fun rank => failureFlag (outcome rank)) = 0
    · choose a ha using maximum_failureFlag.mp hfailed
      refine .inl ⟨fun _ => (), s', ?_, s, hs, a, fun rank => ⟨ha rank, hblock rank⟩⟩
      simp only [Spmd.throwWhen, localCode, hfailed, ne_eq, not_true_eq_false, if_false]
      exact spmd_done _
    · refine .inr ⟨fun rank => collectiveFailure (outcome rank) message,
        fun rank => undo rank (s' rank), ?_, ?_⟩
      · simp only [Spmd.throwWhen, localCode, ne_eq, hfailed, not_false_eq_true, if_true]
        exact spmd_done _
      · have hexists : ∃ rank e, (block rank (s rank)).1 = .error e := by
          by_contra hnone
          apply hfailed
          apply maximum_failureFlag.mpr
          intro rank
          cases hcase : outcome rank with
          | ok a => exact ⟨a, rfl⟩
          | error e => exact absurd ⟨rank, e, by rw [hblock rank, hcase]⟩ hnone
        have hundo := hfail s hs hexists
        simpa only [hblock] using hundo
  · apply localCode_ok
    rintro s' ⟨s, hs, a, ha⟩
    refine ⟨a, s', fun rank => by rw [(ha rank).1], hok s hs a s' fun rank => ?_⟩
    rw [← (ha rank).1]
    exact (ha rank).2

end Triple

end Triples

end Pops.Spmd
