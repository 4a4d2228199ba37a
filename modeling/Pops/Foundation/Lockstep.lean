import Pops.Foundation.Spmd

/-!
# Numbered ranks in lockstep

Ranks `0, …, n` run one program each and meet in collective calls: exact reductions and
broadcasts from a root.  A joint run goes on as long as the calls of all ranks match; it records
the calls, so that two ranks that run jointly have made the same sequence of calls.

## Main definitions

* `Pops.Lockstep.Rank`, `Program` — the program of one rank, and one that may throw.
* `Pops.Lockstep.Runs`, `Executes` — joint runs with the calls made.
* `Pops.Lockstep.Call`, `exactReply` — reductions and broadcasts, and their replies.

## Main results

* `Pops.Lockstep.Executes.unique` — programs have at most one joint run.
* `Pops.Lockstep.Executes.andThen`, `thrown` — the rules for sequences.
* `Pops.Lockstep.runs_allReduceMax`, `runs_allReduceMin`, `runs_broadcast` — the rules for the
  calls.
-/

namespace Pops.Lockstep

/-! ## Programs and joint runs -/

/-- What one rank does: it returns, or it makes a call and goes on with the reply. -/
inductive Rank (κ ρ α : Type)
  | done (a : α)
  | call (c : κ) (next : ρ → Rank κ ρ α)

section Runs

variable {ι κ ρ α β : Type}

/-- One program after the other. -/
def Rank.bind (rank : Rank κ ρ α) (f : α → Rank κ ρ β) : Rank κ ρ β :=
  match rank with
  | .done a => f a
  | .call c next => .call c fun reply => (next reply).bind f

/-- The ranks run jointly through the listed calls and return the given values. -/
inductive Runs (reply : (ι → κ) → Option ρ) : (ι → Rank κ ρ α) → List (ι → κ) → (ι → α) → Prop
  | done (a : ι → α) : Runs reply (fun rank => .done (a rank)) [] a
  | call {c : ι → κ} {next : ι → ρ → Rank κ ρ α} {answer : ρ} {calls : List (ι → κ)} {a : ι → α}
      (hreply : reply c = some answer) (hrest : Runs reply (fun rank => next rank answer) calls a) :
      Runs reply (fun rank => .call (c rank) (next rank)) (c :: calls) a

variable {reply : (ι → κ) → Option ρ}

/-- Ranks have at most one joint run. -/
theorem Runs.unique [Inhabited ι] {ranks ranks' : ι → Rank κ ρ α} {calls calls' : List (ι → κ)}
    {a a' : ι → α} (h : Runs reply ranks calls a) (heq : ranks = ranks')
    (h' : Runs reply ranks' calls' a') : calls = calls' ∧ a = a' := by
  induction h generalizing ranks' calls' a' with
  | done a =>
    cases h' with
    | done a' =>
      refine ⟨rfl, funext fun rank => ?_⟩
      simpa using congrFun heq rank
    | call hreply hrest => simpa using congrFun heq default
  | @call c next answer calls a hreply hrest ih =>
    cases h' with
    | done a' => simpa using congrFun heq default
    | @call c' next' answer' calls' a' hreply' hrest' =>
      have hc : c = c' := funext fun rank => by simpa using (Rank.call.inj (congrFun heq rank)).1
      have hnext : next = next' :=
        funext fun rank => by simpa using (Rank.call.inj (congrFun heq rank)).2
      subst hc hnext
      obtain rfl : answer = answer' := Option.some.inj (hreply.symm.trans hreply')
      obtain ⟨rfl, rfl⟩ := ih rfl hrest'
      exact ⟨rfl, rfl⟩

/-- A joint run of the first programs, followed by one of the second. -/
theorem Runs.bind {m : ι → Rank κ ρ α} {f : ι → α → Rank κ ρ β} {calls calls' : List (ι → κ)}
    {a : ι → α} {b : ι → β} (hm : Runs reply m calls a)
    (hf : Runs reply (fun rank => f rank (a rank)) calls' b) :
    Runs reply (fun rank => (m rank).bind (f rank)) (calls ++ calls') b := by
  induction hm with
  | done a => exact hf
  | call hreply _ ih => exact Runs.call hreply (ih hf)

end Runs

/-! ## Programs that throw -/

/-- The program of a rank that returns or throws. -/
def Program (κ ρ ε α : Type) : Type := Rank κ ρ (Except ε α)

section Programs

variable {ι κ ρ ε α β : Type} {reply : (ι → κ) → Option ρ}

/-- What follows a part that has returned or thrown. -/
def Program.continue (f : α → Program κ ρ ε β) : Except ε α → Rank κ ρ (Except ε β)
  | .ok a => f a
  | .error e => .done (.error e)

instance : Monad (Program κ ρ ε) where
  pure a := Rank.done (.ok a)
  bind m f := Rank.bind m (Program.continue f)

/-- `throw e;`. -/
def raise (e : ε) : Program κ ρ ε α := Rank.done (.error e)

/-- The statement `if (c) throw e;`. -/
def raiseWhen (c : Prop) [Decidable c] (e : ε) : Program κ ρ ε Unit :=
  if c then raise e else pure ()

/-- A collective call. -/
def collective (c : κ) : Program κ ρ ε ρ := Rank.call c fun reply => .done (.ok reply)

/-- The ranks have a joint run; each of them returns or throws as given. -/
def Executes (reply : (ι → κ) → Option ρ) (m : ι → Program κ ρ ε α)
    (outcome : ι → Except ε α) : Prop :=
  ∃ calls, Runs reply m calls outcome

/-- Programs have at most one joint run. -/
theorem Executes.unique [Inhabited ι] {m : ι → Program κ ρ ε α} {outcome outcome' : ι → Except ε α}
    (h : Executes reply m outcome) (h' : Executes reply m outcome') : outcome = outcome' := by
  obtain ⟨calls, h⟩ := h
  obtain ⟨calls', h'⟩ := h'
  exact (Runs.unique h rfl h').2

/-- All ranks return. -/
lemma runs_pure (a : ι → α) :
    Executes reply (fun rank => (pure (a rank) : Program κ ρ ε α)) (fun rank => .ok (a rank)) :=
  ⟨[], Runs.done _⟩

/-- All ranks throw. -/
lemma runs_raise (e : ι → ε) :
    Executes reply (fun rank => (raise (e rank) : Program κ ρ ε α)) (fun rank => .error (e rank)) :=
  ⟨[], Runs.done _⟩

/-- All ranks pass a guard. -/
lemma runs_raiseWhen_neg {c : ι → Prop} [∀ rank, Decidable (c rank)] {e : ι → ε}
    (h : ∀ rank, ¬c rank) :
    Executes reply (fun rank => (raiseWhen (c rank) (e rank) : Program κ ρ ε Unit))
      (fun _ => .ok ()) := by
  simp only [raiseWhen, h, if_false]
  exact runs_pure _

/-- All ranks throw at a guard. -/
lemma runs_raiseWhen_pos {c : ι → Prop} [∀ rank, Decidable (c rank)] {e : ι → ε}
    (h : ∀ rank, c rank) :
    Executes reply (fun rank => (raiseWhen (c rank) (e rank) : Program κ ρ ε Unit))
      (fun rank => .error (e rank)) := by
  simp only [raiseWhen, h, if_true]
  exact runs_raise _

/-- All ranks return from the first part and go on with the second. -/
theorem Executes.andThen {m : ι → Program κ ρ ε α} {f : ι → α → Program κ ρ ε β} {a : ι → α}
    {b : ι → Except ε β} (hm : Executes reply m (fun rank => .ok (a rank)))
    (hf : Executes reply (fun rank => f rank (a rank)) b) :
    Executes reply (fun rank => m rank >>= f rank) b := by
  obtain ⟨calls, hm⟩ := hm
  obtain ⟨calls', hf⟩ := hf
  exact ⟨calls ++ calls', Runs.bind (f := fun rank => Program.continue (f rank)) hm hf⟩

/-- All ranks throw in the first part. -/
theorem Executes.thrown {m : ι → Program κ ρ ε α} {f : ι → α → Program κ ρ ε β} {e : ι → ε}
    (hm : Executes reply m (fun rank => .error (e rank))) :
    Executes reply (fun rank => m rank >>= f rank) (fun rank => .error (e rank)) := by
  obtain ⟨calls, hm⟩ := hm
  exact ⟨calls ++ [], Runs.bind (f := fun rank => Program.continue (f rank)) hm (Runs.done _)⟩

/-- All ranks make a call that has a reply. -/
lemma runs_collective {c : ι → κ} {answer : ρ} (h : reply c = some answer) :
    Executes reply (fun rank => (collective (c rank) : Program κ ρ ε ρ)) (fun _ => .ok answer) :=
  ⟨[c], Runs.call h (Runs.done _)⟩

end Programs

/-! ## Exact reductions and broadcasts -/

/-- A reduction, or a broadcast from a root. -/
inductive Op
  | min
  | max
  | broadcast (root : ℤ)
  deriving DecidableEq

/-- A collective call of one rank: the operation and the buffer. -/
structure Call where
  op : Op
  values : List ℤ
  deriving DecidableEq

/-- There is a rank. -/
local instance (priority := high) neZeroRanks {n : ℕ} : NeZero (n + 1) := Nat.instNeZeroSucc

/-- The reply to matching calls of all ranks; calls that differ in the operation or in the length
of the buffer do not match, and a broadcast needs a root. -/
def exactReply {n : ℕ} (c : Fin (n + 1) → Call) : Option (List ℤ) :=
  if ∀ rank, (c rank).op = (c 0).op ∧ (c rank).values.length = (c 0).values.length then
    match (c 0).op with
    | .min => some (Spmd.reply .min (c 0).values.length fun rank => (c rank).values)
    | .max => some (Spmd.reply .max (c 0).values.length fun rank => (c rank).values)
    | .broadcast root =>
      if h : 0 ≤ root ∧ root.toNat < n + 1 then some (c ⟨root.toNat, h.2⟩).values else none
  else none

section Exact

variable {n : ℕ} {ε : Type}

/-- A program of a numbered rank. -/
abbrev Ranked (ε α : Type) : Type := Program Call (List ℤ) ε α

/-- `all_reduce_max`: the largest contribution of all ranks. -/
def allReduceMax (value : ℤ) : Ranked ε ℤ := do
  let reply ← collective ⟨.max, [value]⟩
  pure (reply.getD 0 0)

/-- `all_reduce_min`: the smallest contribution of all ranks. -/
def allReduceMin (value : ℤ) : Ranked ε ℤ := do
  let reply ← collective ⟨.min, [value]⟩
  pure (reply.getD 0 0)

/-- The greatest value of the ranks. -/
def greatest (values : Fin (n + 1) → ℤ) : ℤ := Spmd.ReduceOp.max.combine values

/-- The least value of the ranks. -/
def least (values : Fin (n + 1) → ℤ) : ℤ := Spmd.ReduceOp.min.combine values

/-- The maximum on all ranks. -/
theorem runs_allReduceMax (values : Fin (n + 1) → ℤ) :
    Executes exactReply (fun rank => (allReduceMax (values rank) : Ranked ε ℤ))
      (fun _ => .ok (greatest values)) := by
  have hreply : exactReply (fun rank => (⟨.max, [values rank]⟩ : Call)) =
      some [greatest values] := by
    simp [exactReply, Spmd.reply, greatest]
  exact Executes.andThen (a := fun _ => [greatest values]) (runs_collective hreply)
    (runs_pure fun _ => greatest values)

/-- The minimum on all ranks. -/
theorem runs_allReduceMin (values : Fin (n + 1) → ℤ) :
    Executes exactReply (fun rank => (allReduceMin (values rank) : Ranked ε ℤ))
      (fun _ => .ok (least values)) := by
  have hreply : exactReply (fun rank => (⟨.min, [values rank]⟩ : Call)) =
      some [least values] := by
    simp [exactReply, Spmd.reply, least]
  exact Executes.andThen (a := fun _ => [least values]) (runs_collective hreply)
    (runs_pure fun _ => least values)

/-- A broadcast of buffers of one length gives the buffer of the root to all ranks. -/
theorem runs_broadcast (root : Fin (n + 1)) (buffer : Fin (n + 1) → List ℤ)
    (hlength : ∀ rank, (buffer rank).length = (buffer 0).length) :
    Executes exactReply
      (fun rank => (collective ⟨.broadcast (root.val : ℤ), buffer rank⟩ : Ranked ε (List ℤ)))
      (fun _ => .ok (buffer root)) := by
  have hroot := root.isLt
  refine runs_collective ?_
  simp [exactReply, hlength, Nat.le_of_lt_succ hroot]

/-- `all_reduce_min_inplace` and `all_reduce_max_inplace` on the same values, compared. -/
def consensus (values : List ℤ) : Ranked ε Bool := do
  let minimum ← collective ⟨.min, values⟩
  let maximum ← collective ⟨.max, values⟩
  pure (minimum == maximum)

/-- Buffers of one length are compared exactly. -/
lemma runs_consensus (values : Fin (n + 1) → List ℤ)
    (hlength : ∀ rank, (values rank).length = (values 0).length) :
    Executes exactReply (fun rank => (consensus (values rank) : Ranked ε Bool))
      (fun _ => .ok (decide (∀ rank, values rank = values 0))) := by
  have hmin : exactReply (fun rank => (⟨.min, values rank⟩ : Call)) =
      some (Spmd.reply .min (values 0).length values) := by
    simp [exactReply, hlength]
  have hmax : exactReply (fun rank => (⟨.max, values rank⟩ : Call)) =
      some (Spmd.reply .max (values 0).length values) := by
    simp [exactReply, hlength]
  have hagree : (Spmd.reply .min (values 0).length values ==
      Spmd.reply .max (values 0).length values) = decide (∀ rank, values rank = values 0) := by
    rw [Bool.eq_iff_iff, beq_iff_eq, decide_eq_true_iff]
    exact Spmd.minimum_eq_maximum hlength
  refine Executes.andThen (runs_collective hmin) (Executes.andThen (runs_collective hmax) ?_)
  rw [hagree]
  exact runs_pure _

end Exact

/-! ## Reduced values -/

section Reduced

variable {n : ℕ}

/-- The greatest value is an upper bound. -/
lemma le_greatest (values : Fin (n + 1) → ℤ) (rank : Fin (n + 1)) :
    values rank ≤ greatest values := Spmd.le_maximum values rank

/-- The greatest value is that of some rank. -/
lemma exists_eq_greatest (values : Fin (n + 1) → ℤ) : ∃ rank, greatest values = values rank :=
  Spmd.exists_eq_maximum values

/-- The least value is a lower bound. -/
lemma least_le (values : Fin (n + 1) → ℤ) (rank : Fin (n + 1)) :
    least values ≤ values rank := Spmd.minimum_le values rank

/-- The least value is that of some rank. -/
lemma exists_eq_least (values : Fin (n + 1) → ℤ) : ∃ rank, least values = values rank :=
  Spmd.exists_eq_minimum values

/-- A flag of a condition. -/
def flag (c : Prop) [Decidable c] : ℤ := if c then 1 else 0

variable {c : Fin (n + 1) → Prop} [∀ rank, Decidable (c rank)]

/-- The maximum of flags is zero exactly if no rank raises its flag. -/
lemma greatest_flag_eq_zero_iff : (greatest fun rank => flag (c rank)) = 0 ↔ ∀ rank, ¬c rank := by
  constructor
  · intro h rank hc
    have hle := le_greatest (fun rank => flag (c rank)) rank
    rw [h, flag, if_pos hc] at hle
    omega
  · intro h
    obtain ⟨rank, hrank⟩ := exists_eq_greatest fun rank => flag (c rank)
    rw [hrank, flag, if_neg (h rank)]

/-- The minimum of flags is zero exactly if some rank does not raise its flag. -/
lemma least_flag_eq_zero_iff : (least fun rank => flag (c rank)) = 0 ↔ ∃ rank, ¬c rank := by
  constructor
  · intro h
    obtain ⟨rank, hrank⟩ := exists_eq_least fun rank => flag (c rank)
    refine ⟨rank, fun hc => ?_⟩
    rw [h, flag, if_pos hc] at hrank
    omega
  · rintro ⟨rank, hc⟩
    have hle : (least fun rank => flag (c rank)) ≤ flag (c rank) := least_le _ rank
    rw [flag, if_neg hc] at hle
    obtain ⟨rank', hrank'⟩ := exists_eq_least fun rank => flag (c rank)
    have hnonneg : 0 ≤ flag (c rank') := by
      unfold flag
      split_ifs <;> omega
    rw [hrank'] at hle ⊢
    omega

/-- Each rank that raises its flag contributes its number and each other one the number of ranks:
the minimum is the least rank that raises its flag. -/
lemma exists_root (h : ∃ rank, c rank) :
    ∃ root : Fin (n + 1), c root ∧
      (least fun rank : Fin (n + 1) => if c rank then (rank.val : ℤ) else ((n + 1 : ℕ) : ℤ)) =
        (root.val : ℤ) := by
  obtain ⟨rank, hc⟩ := h
  obtain ⟨root, hroot⟩ := exists_eq_least
    fun rank : Fin (n + 1) => if c rank then (rank.val : ℤ) else ((n + 1 : ℕ) : ℤ)
  have hle := least_le
    (fun rank : Fin (n + 1) => if c rank then (rank.val : ℤ) else ((n + 1 : ℕ) : ℤ)) rank
  by_cases hcroot : c root
  · exact ⟨root, hcroot, by rw [hroot, if_pos hcroot]⟩
  · rw [hroot, if_neg hcroot, if_pos hc] at hle
    have := rank.isLt
    omega

end Reduced

end Pops.Lockstep
