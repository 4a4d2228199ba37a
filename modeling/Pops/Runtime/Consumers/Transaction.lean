import Pops.Foundation.OrderedMap

/-!
# The consumer transaction

`ConsumerTransaction` publishes the side effects of an accepted step.  On construction it asks the
publisher to prepare one temporary for every effect of its plan; on acceptance it publishes them in
order; otherwise it discards them.  A failed call is handled by the failure action of its effect:
the run fails, the effect is tried again, or the sample is skipped and reported.

The publisher is code outside of the transaction: each of its answers is a function of the calls
made so far, which are kept in a log.  An answer may be an exception, also one that is no subclass
of `Exception`.

## Main definitions

* `Pops.Consumers.Publisher`, `Event` — the publisher and the log of its calls.
* `Pops.Consumers.Transaction` with `create`, `accept`, `reject`, `rollbackAccepted`, `seal` and
  `abort`.
* `Pops.Consumers.trace` — sequences of calls on a transaction.
-/

namespace Pops.Consumers

/-! ## Plans -/

/-- `str.isspace` of one character. -/
def isSpace (c : Char) : Bool :=
  let n := c.toNat
  (9 ≤ n && n ≤ 13) || (28 ≤ n && n ≤ 32) || n == 0x85 || n == 0xa0 || n == 0x1680 ||
    (0x2000 ≤ n && n ≤ 0x200a) || n == 0x2028 || n == 0x2029 || n == 0x202f || n == 0x205f ||
    n == 0x3000

/-- The text passes `_text`: it is not empty and `strip` does not change it. -/
def canonicalText (value : String) : Bool :=
  value != "" && !value.toList.head?.any isSpace && !value.toList.getLast?.any isSpace

/-- `ParallelMode`. -/
inductive ParallelMode
  | serial
  | root
  | perRank
  | collective
  deriving DecidableEq, Repr

/-- The failure actions; `Retry` asks for at least two attempts. -/
inductive FailureAction
  | failRun
  | retry (maxAttempts : ℕ) (h : 2 ≤ maxAttempts)
  | skipSampleReported
  deriving DecidableEq

/-- `type(action).__name__`. -/
def FailureAction.name : FailureAction → String
  | failRun => "FailRun"
  | retry _ _ => "Retry"
  | skipSampleReported => "SkipSampleReported"

/-- `ScheduleCursor`: the position of a consumer in its schedule. -/
structure ScheduleCursor where
  consumerId : String
  lastOccurrence : Option String
  committedSamples : ℕ
  deriving DecidableEq

/-- `ConsumerCursorSet`: the rows in the order of their consumers. -/
abbrev ConsumerCursorSet := List (String × ScheduleCursor)

/-- `ConsumerCursorSet.for_consumer`: the cursor of a consumer, which the set holds. -/
def ConsumerCursorSet.forConsumer (cursors : ConsumerCursorSet) (consumerId : String) :
    ScheduleCursor :=
  (OrderedMap.lookup cursors consumerId).getD ⟨consumerId, none, 0⟩

/-- `ConsumerCursorSet.replace`: the set with the cursor of one consumer replaced. -/
def ConsumerCursorSet.replace (cursors : ConsumerCursorSet) (cursor : ScheduleCursor) :
    ConsumerCursorSet :=
  OrderedMap.assign cursors cursor.consumerId cursor

/-- `AcceptedSideEffect`, with the identities of the effect and of its payload. -/
structure AcceptedSideEffect where
  identity : String
  consumerId : String
  payloadIdentity : String
  parallelMode : ParallelMode
  failureAction : FailureAction
  cursorBefore : ScheduleCursor
  cursorAfter : ScheduleCursor
  deriving DecidableEq

/-- `EffectPlan`: no payload stands in it twice. -/
structure EffectPlan where
  effects : List AcceptedSideEffect
  distinct : (effects.map AcceptedSideEffect.payloadIdentity).Nodup

/-! ## The publisher -/

/-- A raised exception: its class, its text, and whether its class is a subclass of `Exception`. -/
structure Raised where
  className : String
  text : String
  isException : Bool
  deriving DecidableEq

/-- An exception that the transaction itself raises. -/
def raised (className text : String) : Raised := ⟨className, text, true⟩

/-- `_reason`: the text of a failure in a report. -/
def reason : Option Raised → String
  | none => "consumer publication failed without diagnostic"
  | some error => error.className ++ ": " ++ error.text

/-- `PublicationReceipt`: the receipt of a published effect. -/
structure PublicationReceipt where
  effectIdentity : String
  payloadIdentity : String
  parallelMode : ParallelMode
  deriving DecidableEq

/-- `PreparedPublication`: the object and the identities it stands for. -/
structure PreparedPublication where
  handle : ℕ
  effectIdentity : String
  payloadIdentity : String
  deriving DecidableEq

/-- The answers of `prepare`; `other` is an object of another class. -/
inductive PrepareOutcome
  | returns (effectIdentity payloadIdentity : String)
  | other
  | raises (error : Raised)
  deriving DecidableEq

/-- The answers of `publish`; `other` is an object of another class. -/
inductive PublishOutcome
  | returns (receipt : PublicationReceipt)
  | other
  | raises (error : Raised)
  deriving DecidableEq

/-- The answers of the other methods; `other` is a value of another class than expected. -/
inductive CallOutcome
  | returns
  | other
  | raises (error : Raised)
  deriving DecidableEq

/-- The two ways to resolve a prepared object. -/
inductive Cleanup
  | discard
  | rollback
  deriving DecidableEq

/-- The beginning of the diagnostic of a failed cleanup. -/
def Cleanup.failure : Cleanup → String
  | discard => "discard failed: "
  | rollback => "publication rollback failed: "

/-- A call of the publisher or of one of its objects, with its answer. -/
inductive Event
  | prepare (handle : ℕ) (effect : AcceptedSideEffect) (outcome : PrepareOutcome)
  | publish (handle : ℕ) (effect : AcceptedSideEffect) (outcome : PublishOutcome)
  | cleanup (kind : Cleanup) (handle : ℕ) (outcome : CallOutcome)
  | recoveries (handle : ℕ) (outcome : CallOutcome)
  | finalize (handle : ℕ) (outcome : CallOutcome)
  deriving DecidableEq

/-- The publisher: its answers after the calls made so far. -/
structure Publisher where
  prepare : List Event → AcceptedSideEffect → PrepareOutcome
  publish : List Event → ℕ → PublishOutcome
  cleanup : List Event → Cleanup → ℕ → CallOutcome
  recoveries : List Event → ℕ → CallOutcome
  finalize : List Event → ℕ → CallOutcome

/-! ## Reports -/

/-- `SkippedSampleReport`: the report of a sample that was not published. -/
structure SkippedSampleReport where
  effectIdentity : String
  consumerId : String
  phase : String
  attempts : ℕ
  reason : String
  deriving DecidableEq

/-- `ConsumerTransactionReport`: the outcome of a transaction. -/
structure ConsumerTransactionReport where
  status : String
  cursors : ConsumerCursorSet
  stagedEffects : List String
  published : List PublicationReceipt
  skipped : List SkippedSampleReport
  rolledBackEffects : List String
  diagnostics : List String
  deriving DecidableEq

/-- What a call on a transaction raises: an exception that passes through it, or
`ConsumerPublicationError` with its report. -/
inductive Failure
  | passed (error : Raised)
  | publication (message : String) (report : ConsumerTransactionReport)
  deriving DecidableEq

/-- The constructor of `SkippedSampleReport`. -/
def skippedSampleReport (effect : AcceptedSideEffect) (phase : String) (attempts : ℕ)
    (reason : String) : Except Raised SkippedSampleReport :=
  if attempts < 1 then
    .error (raised "ValueError" "SkippedSampleReport.attempts must be positive")
  else if canonicalText reason = false then
    .error (raised "TypeError" "SkippedSampleReport.reason must be non-empty canonical text")
  else .ok ⟨effect.identity, effect.consumerId, phase, attempts, reason⟩

/-! ## The transaction -/

/-- `_state`. -/
inductive State
  | preparing
  | staged
  | accepted
  | rejected
  | failed
  | isSealed
  deriving DecidableEq, Repr

/-- A staged effect: its prepared object and the attempts made so far. -/
structure Staged where
  effect : AcceptedSideEffect
  prepared : PreparedPublication
  attempts : ℕ
  deriving DecidableEq

/-- A published effect. -/
structure Accepted where
  effect : AcceptedSideEffect
  prepared : PreparedPublication
  receipt : PublicationReceipt
  deriving DecidableEq

/-- The members of `ConsumerTransaction`, and the log of the calls of the publisher. -/
structure Transaction where
  plan : EffectPlan
  initialCursors : ConsumerCursorSet
  prepared : List Staged
  accepted : List Accepted
  cursorUpdates : List ScheduleCursor
  skipped : List SkippedSampleReport
  finalizePending : List Accepted
  state : State
  log : List Event

/-- `_attempt_limit`: the number of publication attempts that the failure action allows. -/
def attemptLimit (effect : AcceptedSideEffect) : ℕ :=
  match effect.failureAction with
  | .retry maxAttempts _ => maxAttempts
  | _ => 1

/-- The effect is tried again after a failure. -/
def retries (effect : AcceptedSideEffect) : Bool :=
  match effect.failureAction with
  | .retry _ _ => true
  | _ => false

section Calls

variable (publisher : Publisher)

/-- `_prepare_one`: at most `remaining` more attempts. -/
def prepareOne (effect : AcceptedSideEffect) :
    ℕ → ℕ → Option Raised → List Event →
      Except Raised (Option PreparedPublication × ℕ × Option Raised) × List Event
  | 0, attempts, lastError, log => (.ok (none, attempts, lastError), log)
  | remaining + 1, attempts, _, log =>
    let outcome := publisher.prepare log effect
    let handle := log.length
    let log := log ++ [.prepare handle effect outcome]
    match outcome with
    | .returns effectIdentity payloadIdentity =>
      if effectIdentity ≠ effect.identity ∨ payloadIdentity ≠ effect.payloadIdentity then
        prepareOne effect remaining (attempts + 1) (some (raised "ValueError"
          "prepared publication does not authenticate its exact effect payload")) log
      else
        (.ok (some ⟨handle, effectIdentity, payloadIdentity⟩, attempts + 1, none), log)
    | .other =>
      prepareOne effect remaining (attempts + 1) (some (raised "TypeError"
        "ConsumerPublisher.prepare must return PreparedPublication")) log
    | .raises error =>
      if error.isException = true then prepareOne effect remaining (attempts + 1) (some error) log
      else (.error error, log)

/-- `_retain_recoveries`: the failure it reports. -/
def retainRecoveries (prepared : PreparedPublication) (log : List Event) :
    Except Raised (Option String) × List Event :=
  let outcome := publisher.recoveries log prepared.handle
  let log := log ++ [.recoveries prepared.handle outcome]
  match outcome with
  | .returns => (.ok none, log)
  | .other => (.ok (some ("recovery ownership transfer failed: " ++ reason (some (raised "TypeError"
      "PreparedPublication.recoveries must return a tuple")))), log)
  | .raises error =>
    if error.isException = true then
      (.ok (some ("recovery ownership transfer failed: " ++ reason (some error))), log)
    else (.error error, log)

/-- The end of `_discard` and `_rollback`: the failure of the recoveries is added to the failure. -/
def finishCleanup (prepared : PreparedPublication) (failure : Option String) (log : List Event) :
    Except Raised (Option String) × List Event :=
  match retainRecoveries publisher prepared log with
  | (.error error, log) => (.error error, log)
  | (.ok none, log) => (.ok failure, log)
  | (.ok (some recovery), log) =>
    (.ok (some (match failure with
      | none => recovery
      | some failure => failure ++ "; " ++ recovery)), log)

/-- `_discard` and `_rollback`: the failure they report. -/
def cleanup (kind : Cleanup) (prepared : PreparedPublication) (log : List Event) :
    Except Raised (Option String) × List Event :=
  let outcome := publisher.cleanup log kind prepared.handle
  let log := log ++ [.cleanup kind prepared.handle outcome]
  match outcome with
  | .raises error =>
    if error.isException = true then
      finishCleanup publisher prepared (some (kind.failure ++ reason (some error))) log
    else (.error error, log)
  | _ => finishCleanup publisher prepared none log

/-- The loops of `_discard_staged` and `_rollback_accepted`: the effects that were rolled back, and
the diagnostics. -/
def cleanupAll (kind : Cleanup) :
    List (AcceptedSideEffect × PreparedPublication) → List Event →
      Except Raised (List String × List String) × List Event
  | [], log => (.ok ([], []), log)
  | (effect, prepared) :: rest, log =>
    match cleanup publisher kind prepared log with
    | (.error error, log) => (.error error, log)
    | (.ok failure, log) =>
      match cleanupAll kind rest log with
      | (.error error, log) => (.error error, log)
      | (.ok (rolledBack, diagnostics), log) =>
        match failure with
        | none => (.ok (effect.identity :: rolledBack, diagnostics), log)
        | some failure =>
          (.ok (rolledBack, (effect.consumerId ++ ": " ++ failure) :: diagnostics), log)

/-- `_discard_staged`: discard the temporaries, last one first, and collect the diagnostics. -/
def discardStaged (t : Transaction) :
    Except Raised (List String × List String) × Transaction :=
  match cleanupAll publisher .discard
      (t.prepared.reverse.map fun staged => (staged.effect, staged.prepared)) t.log with
  | (.error error, log) => (.error error, { t with log := log })
  | (.ok result, log) => (.ok result, { t with log := log, prepared := [] })

/-- `_rollback_accepted`: roll back the published objects, last one first, and collect the
diagnostics. -/
def rollbackAcceptedObjects (t : Transaction) :
    Except Raised (List String × List String) × Transaction :=
  match cleanupAll publisher .rollback
      (t.accepted.reverse.map fun accepted => (accepted.effect, accepted.prepared)) t.log with
  | (.error error, log) => (.error error, { t with log := log })
  | (.ok result, log) =>
    (.ok result, { t with log := log, accepted := [], cursorUpdates := [] })

/-- The tokens of the plan in a report. -/
def Transaction.stagedEffects (t : Transaction) : List String :=
  t.plan.effects.map AcceptedSideEffect.identity

/-- `raise self._failed(...)`: the staged objects are discarded and the failure is reported. -/
def raiseFailed (effect : AcceptedSideEffect) (error : Option Raised)
    (diagnostics rolledBack : List String) (t : Transaction) : Failure × Transaction :=
  match discardStaged publisher t with
  | (.error error, t) => (.passed error, t)
  | (.ok (stagedRollback, cleanupDiagnostics), t) =>
    (.publication
      ("consumer " ++ effect.consumerId ++ " failed under " ++ effect.failureAction.name ++ ": " ++
        reason error)
      ⟨"failed", t.initialCursors, t.stagedEffects, [], t.skipped, rolledBack ++ stagedRollback,
        diagnostics ++ cleanupDiagnostics ++ [reason error]⟩,
      { t with state := .failed })

/-- `_prepare_all`: prepare the effects in order of the plan. -/
def prepareAll : List AcceptedSideEffect → Transaction → Except Failure Unit × Transaction
  | [], t => (.ok (), t)
  | effect :: rest, t =>
    match prepareOne publisher effect (attemptLimit effect) 0 none t.log with
    | (.error error, log) => (.error (.passed error), { t with log := log })
    | (.ok (some prepared, attempts, _), log) =>
      prepareAll rest
        { t with log := log, prepared := t.prepared ++ [⟨effect, prepared, attempts⟩] }
    | (.ok (none, attempts, error), log) =>
      if effect.failureAction = .skipSampleReported then
        match skippedSampleReport effect "prepare" attempts (reason error) with
        | .error error => (.error (.passed error), { t with log := log })
        | .ok report => prepareAll rest { t with log := log, skipped := t.skipped ++ [report] }
      else
        let failed := raiseFailed publisher effect error [] [] { t with log := log }
        (.error failed.1, failed.2)

/-- The constructor. -/
def create (plan : EffectPlan) (cursors : ConsumerCursorSet) : Except Failure Unit × Transaction :=
  let t : Transaction := ⟨plan, cursors, [], [], [], [], [], .preparing, []⟩
  match plan.effects.find? fun effect =>
      decide (cursors.forConsumer effect.consumerId ≠ effect.cursorBefore) with
  | some effect =>
    (.error (.passed (raised "ValueError"
      ("EffectPlan cursor snapshot is stale for " ++ effect.consumerId))), t)
  | none =>
    match prepareAll publisher plan.effects t with
    | (.error failure, t) => (.error failure, t)
    | (.ok _, t) => (.ok (), { t with state := .staged })

/-- The end of a call that is allowed in one state only. -/
def alreadyResolved (text : String) : Failure := .passed (raised "RuntimeError" text)

/-- `reject`: discard every temporary and close the transaction. -/
def reject (t : Transaction) : Except Failure ConsumerTransactionReport × Transaction :=
  if t.state ≠ .staged then
    (.error (alreadyResolved "ConsumerTransaction is already resolved"), t)
  else
    match discardStaged publisher t with
    | (.error error, t) => (.error (.passed error), t)
    | (.ok (rolledBack, diagnostics), t) =>
      if diagnostics = [] then
        (.ok ⟨"rejected", t.initialCursors, t.stagedEffects, [], t.skipped, rolledBack, []⟩,
          { t with state := .rejected })
      else
        (.error (.publication "consumer rollback left unremoved temporaries"
          ⟨"failed", t.initialCursors, t.stagedEffects, [], t.skipped, rolledBack, diagnostics⟩),
          { t with state := .failed })

/-- The checks of `accept` on an answer of `publish`. -/
def checkReceipt (effect : AcceptedSideEffect) : PublishOutcome → Except Raised PublicationReceipt
  | .raises error => .error error
  | .other =>
    .error (raised "TypeError" "PreparedPublication.publish must return PublicationReceipt")
  | .returns receipt =>
    if receipt.effectIdentity ≠ effect.identity ∨
        receipt.payloadIdentity ≠ effect.payloadIdentity then
      .error (raised "ValueError"
        "PublicationReceipt does not authenticate its exact effect payload")
    else if receipt.parallelMode ≠ effect.parallelMode then
      .error (raised "ValueError"
        "PublicationReceipt parallel mode differs from its accepted target")
    else .ok receipt

/-- The failure of an effect inside of `accept`: everything published and everything pending is
undone. -/
def abandon (rest : List Staged) (effect : AcceptedSideEffect) (error : Option Raised)
    (diagnostics rolledBack : List String) (t : Transaction) : Failure × Transaction :=
  match rollbackAcceptedObjects publisher { t with prepared := t.prepared ++ rest } with
  | (.error error, t) => (.passed error, t)
  | (.ok (acceptedRollback, acceptedCleanup), t) =>
    raiseFailed publisher effect error (diagnostics ++ acceptedCleanup)
      (rolledBack ++ acceptedRollback) t

/-- What becomes of an effect of `accept` whose publication failed for good. -/
def settleFailure (rest : List Staged) (effect : AcceptedSideEffect) (attempts : ℕ)
    (error : Option Raised) (failure : Option String) (t : Transaction) :
    Except Failure (Option Accepted) × Transaction :=
  if effect.failureAction = .skipSampleReported then
    match skippedSampleReport effect "publish" attempts (reason error) with
    | .error error => (.error (.passed error), t)
    | .ok report =>
      let t := { t with skipped := t.skipped ++ [report] }
      match failure with
      | none => (.ok none, t)
      | some failure =>
        let abandoned := abandon publisher rest effect error [failure] [] t
        (.error abandoned.1, abandoned.2)
  else
    let rolledBack := if failure = none then [effect.identity] else []
    let abandoned := abandon publisher rest effect error failure.toList rolledBack t
    (.error abandoned.1, abandoned.2)

/-- One effect in the loop of `accept`, with the pending effects after it.  A new attempt puts the
replacement in the place of the object; as every attempt counts, no more than `remaining` of them
follow. -/
def publishEffect (rest : List Staged) (effect : AcceptedSideEffect) :
    ℕ → PreparedPublication → ℕ → Transaction →
      Except Failure (Option Accepted) × Transaction
  | remaining, prepared, attempts, t =>
    let outcome := publisher.publish t.log prepared.handle
    let log := t.log ++ [.publish prepared.handle effect outcome]
    match checkReceipt effect outcome with
    | .ok receipt => (.ok (some ⟨effect, prepared, receipt⟩), { t with log := log })
    | .error error =>
      if error.isException = false then (.error (.passed error), { t with log := log })
      else
        match cleanup publisher .rollback prepared log with
        | (.error error, log) => (.error (.passed error), { t with log := log })
        | (.ok failure, log) =>
          if failure = none ∧ retries effect = true ∧ attempts < attemptLimit effect then
            match prepareOne publisher effect (attemptLimit effect - attempts) attempts
              none log with
            | (.error error, log) => (.error (.passed error), { t with log := log })
            | (.ok (some replacement, attempts, _), log) =>
              match remaining with
              | 0 =>
                settleFailure publisher rest effect attempts (some error) failure { t with
                  log := log }
              | remaining + 1 =>
                publishEffect rest effect remaining replacement attempts { t with log := log }
            | (.ok (none, attempts, prepareError), log) =>
              settleFailure publisher rest effect attempts prepareError failure { t with
                log := log }
          else settleFailure publisher rest effect attempts (some error) failure { t with
            log := log }

/-- The loop of `accept`: the cursors and the receipts at its end. -/
def acceptLoop : List Staged → ConsumerCursorSet → List PublicationReceipt → Transaction →
    Except Failure (ConsumerCursorSet × List PublicationReceipt) × Transaction
  | [], cursors, published, t => (.ok (cursors, published), t)
  | staged :: rest, cursors, published, t =>
    match publishEffect publisher rest staged.effect
        (attemptLimit staged.effect - staged.attempts) staged.prepared staged.attempts t with
    | (.error failure, t) => (.error failure, t)
    | (.ok none, t) => acceptLoop rest cursors published t
    | (.ok (some accepted), t) =>
      acceptLoop rest (cursors.replace staged.effect.cursorAfter) (published ++ [accepted.receipt])
        { t with accepted := t.accepted ++ [accepted] }

/-- `accept`: publish the temporaries in order; a failure undoes what was published. -/
def accept (t : Transaction) : Except Failure ConsumerTransactionReport × Transaction :=
  if t.state ≠ .staged then
    (.error (alreadyResolved "ConsumerTransaction is already resolved"), t)
  else
    match acceptLoop publisher t.prepared t.initialCursors [] { t with prepared := [] } with
    | (.error failure, t) => (.error failure, t)
    | (.ok (cursors, published), t) =>
      (.ok ⟨"accepted", cursors, t.stagedEffects, published, t.skipped, [], []⟩,
        { t with
          state := .accepted
          cursorUpdates := t.accepted.map fun accepted => accepted.effect.cursorAfter })

/-- `rollback_accepted`: roll back an accepted publication. -/
def rollbackAccepted (t : Transaction) : Except Failure ConsumerTransactionReport × Transaction :=
  if t.state ≠ .accepted then
    (.error (alreadyResolved "ConsumerTransaction has no accepted publication to roll back"), t)
  else
    match rollbackAcceptedObjects publisher t with
    | (.error error, t) => (.error (.passed error), t)
    | (.ok (rolledBack, diagnostics), t) =>
      if diagnostics = [] then
        (.ok ⟨"rejected", t.initialCursors, t.stagedEffects, [], t.skipped, rolledBack, []⟩,
          { t with state := .rejected })
      else
        (.error (.publication "accepted consumer publication could not be compensated"
          ⟨"failed", t.initialCursors, t.stagedEffects, [], t.skipped, rolledBack, diagnostics⟩),
          { t with state := .failed })

/-- The failure of an answer of `finalize`; every exception is caught here. -/
def finalizeFailure : CallOutcome → Option Raised
  | .returns => none
  | .other => some (raised "TypeError" "PreparedPublication.finalize() must return None")
  | .raises error => some error

/-- The loop of `seal`: the failures, and the effects that are still to be finalized. -/
def finalizeAll : List Accepted → List String → List Accepted → List Event →
    Except Raised (List String × List Accepted) × List Event
  | [], failures, pending, log => (.ok (failures, pending), log)
  | accepted :: rest, failures, pending, log =>
    let outcome := publisher.finalize log accepted.prepared.handle
    let log := log ++ [.finalize accepted.prepared.handle outcome]
    let (failures, pending) :=
      match finalizeFailure outcome with
      | none => (failures, pending)
      | some error =>
        (failures ++ [accepted.effect.consumerId ++ ": " ++ reason (some error)],
          pending ++ [accepted])
    match retainRecoveries publisher accepted.prepared log with
    | (.error error, log) => (.error error, log)
    | (.ok none, log) => finalizeAll rest failures pending log
    | (.ok (some recovery), log) =>
      let kept := pending.getLast?.any fun last => last.prepared.handle == accepted.prepared.handle
      finalizeAll rest (failures ++ [accepted.effect.consumerId ++ ": " ++ recovery])
        (if kept then pending else pending ++ [accepted]) log

/-- `seal`: finalize the published objects and give up the right to roll back. -/
def sealTransaction (t : Transaction) : Except Failure (List String) × Transaction :=
  if t.state ≠ .accepted ∧ t.state ≠ .isSealed then
    (.error (alreadyResolved "only an accepted ConsumerTransaction can be sealed"), t)
  else
    let t :=
      if t.state = .accepted then
        { t with finalizePending := t.accepted, accepted := [], state := .isSealed }
      else t
    match finalizeAll publisher t.finalizePending [] [] t.log with
    | (.error error, log) => (.error (.passed error), { t with log := log })
    | (.ok (failures, pending), log) =>
      (.ok failures, { t with log := log, finalizePending := pending })

/-! ## Sequences of calls -/

/-- A call on a transaction. -/
inductive Operation
  | accept
  | reject
  | abort
  | rollbackAccepted
  | sealReceipt
  deriving DecidableEq

/-- The report of a call, where it returns one: `abort` has nothing to report about a resolved
transaction, and `seal` returns its failures instead. -/
def Operation.run (op : Operation) (t : Transaction) :
    Except Failure (Option ConsumerTransactionReport) × Transaction :=
  let reported (result : Except Failure ConsumerTransactionReport × Transaction) :
      Except Failure (Option ConsumerTransactionReport) × Transaction :=
    (result.1.map some, result.2)
  match op with
  | .accept => reported (Consumers.accept publisher t)
  | .reject => reported (Consumers.reject publisher t)
  | .rollbackAccepted => reported (Consumers.rollbackAccepted publisher t)
  | .sealReceipt => ((sealTransaction publisher t).1.map fun _ =>
      none, (sealTransaction publisher t).2)
  | .abort =>
    if t.state = .staged then reported (Consumers.reject publisher t)
    else if t.state = .accepted then reported (Consumers.rollbackAccepted publisher t)
    else (.ok none, t)

/-- One call of a run: the transaction before it, the call, its end and the transaction after it. -/
structure Entry where
  before : Transaction
  op : Operation
  result : Except Failure (Option ConsumerTransactionReport)
  after : Transaction

/-- The run of a sequence of calls. -/
def trace : Transaction → List Operation → List Entry
  | _, [] => []
  | t, op :: ops =>
    let outcome := op.run publisher t
    ⟨t, op, outcome.1, outcome.2⟩ :: trace outcome.2 ops

end Calls

end Pops.Consumers
