import Fries.Lib.Program
import Fries.Queue.Task

/-! The RabbitMQ queue as programs over a broker of which nothing is assumed. -/
namespace Fries.RabbitQueue

open Fries.Queue

/-- Errors. What a step of the broker reports is passed on. -/
inductive Error
  | ctx (cause : String)
  | broker (cause : String)
  | declare (name cause : String)
  | marshal (cause : String)
  | nilChannelOpener
  | nilChannel
  | publishNacked
  | publishConfirmClosed
  deriving DecidableEq

/-- A queue of the adapter; `opener` tells whether it was given one. -/
structure Queue where
  opener : Bool
  keyPrefix : String
  durable : Bool
  delayQueueTTL : Int
  publisherConfirm : Bool
  ttl_pos : 0 < delayQueueTTL

inductive Setting
  | withPrefix (keyPrefix : String)
  | withDurable (durable : Bool)
  | withDelayQueueTTL (ttl : Int)
  | withPublisherConfirm (confirm : Bool)

/-- `strings.TrimSuffix` of a dot. -/
def trimDot (s : String) : String :=
  match s.toList.reverse with
  | '.' :: rest => String.ofList rest.reverse
  | _ => s

def Setting.apply (q : Queue) : Setting → Queue
  | .withPrefix keyPrefix =>
    if keyPrefix ≠ "" then { q with keyPrefix := trimDot keyPrefix } else q
  | .withDurable durable => { q with durable := durable }
  | .withDelayQueueTTL ttl =>
    if h : 0 < ttl then { q with delayQueueTTL := ttl, ttl_pos := h } else q
  | .withPublisherConfirm confirm => { q with publisherConfirm := confirm }

def newQueue (opener : Bool) (options : List Setting) : Queue :=
  options.foldl Setting.apply ⟨opener, "", true, 3600 * second, true, by decide⟩

inductive Argument
  | int (n : Int)
  | text (s : String)
  deriving DecidableEq

/-- A message to publish. The content type and the persistent delivery mode are the same for
every message. -/
structure Publishing where
  headers : List (String × String)
  messageId : String
  timestamp : Int
  body : String
  deriving DecidableEq

/-- What the wait for the confirmation of a publish ends with. -/
inductive Confirmation
  | contextDone (cause : String)
  | closed
  | answered (ack : Bool)
  deriving DecidableEq

/-- The steps, those of the context and the clock included. -/
inductive Command
  | ctxErr
  | now
  | open
  | queueDeclare (name : String) (durable : Bool) (arguments : List (String × Argument))
  | confirm
  | notifyPublish
  | publishWithContext (exchange key : String) (message : Publishing)
  | confirmation
  | close
  | ack (tag : Nat)
  deriving DecidableEq

/-- A step that only reports an error returns `none` for a nil one. Opening returns whether
there is a channel. -/
abbrev Response : Command → Type
  | .now => Int
  | .open => Except String Bool
  | .notifyPublish => Unit
  | .confirmation => Confirmation
  | _ => Option String

abbrev Program := Prog Command Response

def issue (c : Command) : Program (Response c) := .call c .ret

/-- `if err := p; err != nil { return err }`, followed by `q`. -/
def check (p q : Program (Option Error)) : Program (Option Error) := do
  match ← p with
  | some err => return some err
  | none => q

def ctxErr : Program (Option Error) := Option.map .ctx <$> issue .ctxErr

def defaultExchange : String := ""

def deadReasonKey : String := "queue.dead_letter.reason"

def durationMillis (d : Int) : Int :=
  if d ≤ 0 then 0 else if d < millisecond then 1 else d.tdiv millisecond

def delayFromAvailableAt (now availableAt : Int) : Int :=
  if isZero availableAt ∨ ¬ now < availableAt then 0 else timeSub availableAt now

/-- `json.Marshal` of a task, with the text of its error. -/
abbrev Marshal := Envelope → Except String String

def publishingFromTask (marshal : Marshal) (task : Envelope) : Except Error Publishing :=
  match marshal task with
  | .error cause => .error (.marshal cause)
  | .ok data => .ok ⟨[], task.id, task.createdAt, data⟩

namespace Queue

variable (q : Queue)

def queueName (name : String) : String :=
  let name := if name = "" then defaultQueue else name
  let trimmed :=
    match name.toList with
    | '.' :: rest => String.ofList rest
    | _ => name
  if q.keyPrefix = "" then trimmed else q.keyPrefix ++ "." ++ trimmed

def readyQueueName (name : String) : String := q.queueName name

def delayQueueName (name : String) (delay : Int) : String :=
  q.queueName name ++ ".delay." ++ toString (durationMillis delay)

def deadLetterQueueName (name : String) : String := q.queueName name ++ ".dead"

/-- A declaration whose error names the queue. -/
def declareQueue (name : String) (arguments : List (String × Argument)) : Program (Option Error) :=
  Option.map (.declare name) <$> issue (.queueDeclare name q.durable arguments)

def ensureReadyQueue (name : String) : Program (Option Error) :=
  q.declareQueue (q.readyQueueName name) []

def ensureDeadLetterQueue (name : String) : Program (Option Error) :=
  q.declareQueue (q.deadLetterQueueName name) []

def ensureDelayQueue (name delayQueueName : String) (delay : Int) : Program (Option Error) :=
  let expires := wrap64 (delay + q.delayQueueTTL)
  q.declareQueue delayQueueName
    [("x-message-ttl", .int (durationMillis delay)), ("x-expires", .int (durationMillis expires)),
     ("x-dead-letter-exchange", .text defaultExchange),
     ("x-dead-letter-routing-key", .text (q.readyQueueName name))]

def openChannel : Program (Option Error) :=
  check ctxErr <|
    if ¬ q.opener then return some .nilChannelOpener
    else do
      match ← issue .open with
      | .error cause => return some (.broker cause)
      | .ok false => return some .nilChannel
      | .ok true => return none

/-- The channel is closed whatever `fn` returns; the error of `fn` comes first. -/
def withChannel (fn : Program (Option Error)) : Program (Option Error) :=
  check q.openChannel do
    let err ← fn
    let closeErr ← issue .close
    match err with
    | some err => return some err
    | none => return closeErr.map .broker

def publishWithContext (key : String) (msg : Publishing) : Program (Option Error) :=
  Option.map .broker <$> issue (.publishWithContext defaultExchange key msg)

def awaitConfirmation : Program (Option Error) := do
  match ← issue .confirmation with
  | .contextDone cause => return some (.ctx cause)
  | .closed => return some .publishConfirmClosed
  | .answered ack => return if ¬ ack then some .publishNacked else none

/-- Both callers publish to the default exchange. -/
def publish (key : String) (msg : Publishing) : Program (Option Error) :=
  if ¬ q.publisherConfirm then publishWithContext key msg
  else
    check (Option.map .broker <$> issue .confirm) do
      let _ ← issue .notifyPublish
      check (publishWithContext key msg) awaitConfirmation

def publishTask (marshal : Marshal) (task : Envelope) (delay : Int) : Program (Option Error) :=
  match publishingFromTask marshal task with
  | .error err => return some err
  | .ok msg =>
    q.withChannel <| check (q.ensureReadyQueue task.queue) <|
      if 0 < delay then
        let target := q.delayQueueName task.queue delay
        check (q.ensureDelayQueue task.queue target delay) (q.publish target msg)
      else q.publish (q.readyQueueName task.queue) msg

def enqueue (marshal : Marshal) (task : Option Envelope) : Program (Option Error) :=
  check ctxErr <|
    match task with
    | none => return none
    | some task => do
      let now ← issue .now
      q.publishTask marshal task.normalize (delayFromAvailableAt now task.availableAt)

end Queue

/-- A delivery. `task` is `none` for a nil delivery and for one without a task. -/
structure Delivery where
  queue : Queue
  task : Option Envelope
  tag : Nat

namespace Delivery

variable (d : Delivery) (marshal : Marshal)

def ack : Program (Option Error) :=
  check ctxErr <|
    match d.task with
    | none => return none
    | some _ => Option.map .broker <$> issue (.ack d.tag)

def retry (delay : Int) : Program (Option Error) :=
  check ctxErr <|
    match d.task with
    | none => return none
    | some task => do
      let now ← issue .now
      check (d.queue.publishTask marshal { task with availableAt := now + delay } delay) d.ack

def deadLetter (reason : String) : Program (Option Error) :=
  check ctxErr <|
    match d.task with
    | none => return none
    | some task =>
      let task := { task with metadata := setMetadata task.metadata deadReasonKey reason }
      match publishingFromTask marshal task with
      | .error err => return some err
      | .ok msg =>
        let msg := { msg with headers := [(deadReasonKey, reason)] }
        check
          (d.queue.withChannel <| check (d.queue.ensureDeadLetterQueue task.queue) <|
            d.queue.publish (d.queue.deadLetterQueueName task.queue) msg)
          d.ack

end Delivery

end Fries.RabbitQueue
