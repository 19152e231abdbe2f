import Fries.Lib.ErrorTree
import Fries.Lib.Trace
import Fries.Queue.Worker

/-! How a worker settles one delivery, step by step, and what its observer sees. -/
namespace Fries.Queue.Settlement

/-- The error of `RetryAfter`, which makes no other. -/
structure RetryAfterError where
  delay : Int
  nonneg : 0 ≤ delay

/-- The error of `DeadLetter`, which puts a reason in place of an empty one. -/
structure DeadLetterError where
  reason : String
  nonempty : reason ≠ ""

/-- What an error is itself, apart from the errors it unwraps to. -/
inductive Failure
  | discard
  | retryAfter (err : RetryAfterError)
  | deadLetter (err : DeadLetterError)
  | other (text : String)

abbrev Error := ErrorTree Failure

def defaultDeadLetterReason : String := "queue: dead letter requested"

def errDiscard : Error := .node .discard []

def retryAfter (delay : Int) : Error :=
  .node (.retryAfter ⟨if delay < 0 then 0 else delay, by split <;> omega⟩) []

def deadLetter (reason : String) : Error :=
  if h : reason = "" then .node (.deadLetter ⟨defaultDeadLetterReason, by decide⟩) []
  else .node (.deadLetter ⟨reason, h⟩) []

/-- `errors.Is` against `ErrDiscard`. -/
def isDiscard (err : Error) : Bool :=
  (err.asType fun
    | .discard => some ()
    | _ => none).isSome

def deadLetterReason (err : Error) : Option String :=
  (err.asType fun
    | .deadLetter target => some target
    | _ => none).map DeadLetterError.reason

def retryAfterDelay (err : Error) : Option Int :=
  (err.asType fun
    | .retryAfter target => some target
    | _ => none).map RetryAfterError.delay

/-- `Error()`, with the text of a duration. -/
def text (durationString : Int → String) (err : Error) : String :=
  match err.value with
  | .discard => "queue: discard task"
  | .retryAfter err => "queue: retry after " ++ durationString err.delay
  | .deadLetter err => "queue: dead letter: " ++ err.reason
  | .other text => text

/-- A context, as it was given or with a timeout. -/
inductive Context
  | given (id : Nat)
  | withTimeout (parent : Context) (timeout : Int)

/-- The kinds of events that `process` reports. -/
inductive EventKind
  | handlerStarted
  | handlerSucceeded
  | handlerFailed
  | taskAcked
  | taskRetried
  | taskDeadLettered
  | taskSettlementFailed
  deriving DecidableEq

inductive SettlementAction
  | ack
  | retry
  | deadLetter
  deriving DecidableEq

structure TaskInfo where
  id : String
  type : String
  queue : String
  attempt : Int
  deriving DecidableEq

structure Event where
  kind : EventKind
  queue : String
  consumerName : String
  task : TaskInfo
  settlement : Option SettlementAction := none
  delay : Int := 0
  reason : String := ""
  err : Option Error := none

/-- What a worker calls. Each of the three settlements is a call on the delivery. -/
inductive Command
  | observe (ctx : Context) (event : Event)
  | handle (ctx : Context) (task : Task)
  | retryIf (task : Task) (err : Error)
  | backoff (attempt : Int)
  | settle (ctx : Context) (call : Decision)

/-- Nothing is assumed of what a call returns. An observer may return a nil context. -/
abbrev Response : Command → Type
  | .observe .. => Option Context
  | .handle .. => Option Error
  | .retryIf .. => Bool
  | .backoff _ => Int
  | .settle .. => Option Error

abbrev Program := Prog Command Response

def issue (c : Command) : Program (Response c) := .call c .ret

/-- The configuration; `observer` tells whether there is one. -/
structure Worker where
  queue : String
  consumerName : String
  handlers : List String
  handlerTimeout : Int
  settlementTimeout : Int
  maxAttempts : Int
  observer : Bool
  one_le : 1 ≤ maxAttempts

def taskInfo (task : Task) : TaskInfo := ⟨task.id, task.type, task.queue, task.attempt⟩

namespace Worker

variable (w : Worker)

def event (kind : EventKind) (task : Task) : Event :=
  { kind := kind, queue := w.queue, consumerName := w.consumerName, task := taskInfo task }

def settlementFailedEvent (task : Task) (settlement : SettlementAction) (delay : Int)
    (reason : String) (err : Error) : Event :=
  { w.event .taskSettlementFailed task with
    settlement := some settlement, delay := delay, reason := reason, err := some err }

def observe (ctx : Context) (event : Event) : Program Context :=
  if !w.observer then return ctx
  else do
    match ← issue (.observe ctx event) with
    | none => return ctx
    | some observedCtx => return observedCtx

def withSettlementContext (ctx : Context) (fn : Context → Program (Option Error)) :
    Program (Option Error) :=
  if w.settlementTimeout ≤ 0 then fn ctx else fn (.withTimeout ctx w.settlementTimeout)

def handle (ctx : Context) (task : Task) : Program (Option Error) :=
  if w.handlerTimeout ≤ 0 then issue (.handle ctx task)
  else issue (.handle (.withTimeout ctx w.handlerTimeout) task)

def ack (ctx : Context) (task : Task) : Program (Option Error) := do
  match ← w.withSettlementContext ctx fun ctx => issue (.settle ctx .ack) with
  | some err =>
    let _ ← w.observe ctx (w.settlementFailedEvent task .ack 0 "" err)
    return some err
  | none =>
    let _ ← w.observe ctx (w.event .taskAcked task)
    return none

def retry (ctx : Context) (task : Task) (delay : Int) : Program (Option Error) := do
  match ← w.withSettlementContext ctx fun ctx => issue (.settle ctx (.retry delay)) with
  | some err =>
    let _ ← w.observe ctx (w.settlementFailedEvent task .retry delay "" err)
    return some err
  | none =>
    let event := { w.event .taskRetried task with settlement := some .retry, delay := delay }
    let _ ← w.observe ctx event
    return none

def deadLetter (ctx : Context) (task : Task) (reason : String) : Program (Option Error) := do
  match ← w.withSettlementContext ctx fun ctx => issue (.settle ctx (.deadLetter reason)) with
  | some err =>
    let _ ← w.observe ctx (w.settlementFailedEvent task .deadLetter 0 reason err)
    return some err
  | none =>
    let event :=
      { w.event .taskDeadLettered task with settlement := some .deadLetter, reason := reason }
    let _ ← w.observe ctx event
    return none

/-- What follows once a handler has returned an error and this was reported. -/
def failed (durationString : Int → String) (ctx : Context) (task : Task) (err : Error) :
    Program (Option Error) :=
  if isDiscard err then w.ack ctx task
  else match deadLetterReason err with
    | some reason => w.deadLetter ctx task reason
    | none =>
      if w.maxAttempts ≤ task.attempt then
        w.deadLetter ctx task (errRetryExhausted ++ ": " ++ text durationString err)
      else match retryAfterDelay err with
        | some delay => w.retry ctx task delay
        | none => do
          if !(← issue (.retryIf task err)) then w.deadLetter ctx task (text durationString err)
          else
            let delay ← issue (.backoff task.attempt)
            w.retry ctx task (max delay 0)

def process (durationString : Int → String) (ctx : Context) (task : Task) :
    Program (Option Error) :=
  if task.type ∉ w.handlers then w.deadLetter ctx task errHandlerNotFound
  else do
    let ctx ← w.observe ctx (w.event .handlerStarted task)
    match ← w.handle ctx task with
    | none =>
      let ctx ← w.observe ctx (w.event .handlerSucceeded task)
      w.ack ctx task
    | some err =>
      let ctx ← w.observe ctx { w.event .handlerFailed task with err := some err }
      w.failed durationString ctx task err

end Worker

end Fries.Queue.Settlement
