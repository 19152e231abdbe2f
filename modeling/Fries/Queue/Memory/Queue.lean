import Fries.Queue.Worker

/-!
The in-memory queue and the workers over it. What a method does under the queue's mutex is
one command.
-/
namespace Fries.MemoryQueue

open Fries.Queue

inductive CtxError
  | canceled
  | deadlineExceeded
  deriving DecidableEq

inductive Error
  | ctx (err : CtxError)
  | consumerClosed
  deriving DecidableEq

/-- The queue, the clock, and what was handed out so far: deliveries that are not settled, with
the thread that holds them, acknowledged ones, and all of them with the time they were made. -/
structure World where
  now : Int
  queues : String → List Task
  deadLetter : String → List Task
  inflight : List (Nat × Task)
  acked : List Task
  delivered : List (Task × Int)

def World.empty (now : Int) : World := ⟨now, fun _ => [], fun _ => [], [], [], []⟩

/-- Why a `Receive` that found nothing stops waiting. -/
inductive Wake
  | done (err : CtxError)
  | closed
  | again
  deriving DecidableEq

/-- `settles` names the delivery that a retried task came from. -/
inductive Command
  | now
  | next (name : String) (now : Int)
  | wait (delay : Int)
  | append (task : Task) (settles : Option Task)
  | ack (task : Task)
  | bury (task settles : Task)

abbrev Response : Command → Type
  | .now => Int
  | .next .. => Option Task × Int
  | .wait _ => Wake
  | .append .. => Unit
  | .ack _ => Unit
  | .bury .. => Unit

/-- The loop in `next`: the first task whose time has come, and the others; or how long to wait
for one. -/
def scan (now : Int) : Int → List Task → Option (Task × List Task) × Int
  | wait, [] => (none, wait)
  | wait, task :: rest =>
    if now < task.availableAt then
      let delay := timeSub task.availableAt now
      let wait := if wait = 0 ∨ delay < wait then delay else wait
      match scan now wait rest with
      | (some (found, others), wait) => (some (found, task :: others), wait)
      | (none, wait) => (none, wait)
    else (some (task, rest), 0)

def World.next (w : World) (thread : Nat) (name : String) (now : Int) :
    (Option Task × Int) × World :=
  match scan now 0 (w.queues name) with
  | (none, wait) => ((none, wait), w)
  | (some (task, others), _) =>
    let task := { task with attempt := task.attempt + 1 }
    ((some task, 0),
      { w with
        queues := Function.update w.queues name others
        inflight := (thread, task) :: w.inflight
        delivered := (task, w.now) :: w.delivered })

def World.settle (w : World) (thread : Nat) (task : Task) : World :=
  { w with inflight := w.inflight.erase (thread, task) }

def World.append (w : World) (task : Task) : World :=
  { w with queues := Function.update w.queues task.queue (w.queues task.queue ++ [task]) }

def World.bury (w : World) (task : Task) : World :=
  { w with deadLetter := Function.update w.deadLetter task.queue (w.deadLetter task.queue ++ [task]) }

/-- The label says how a wait ends. -/
def exec (thread : Nat) (wake : Wake) (w : World) : (c : Command) → Response c × World
  | .now => (w.now, w)
  | .next name now => w.next thread name now
  | .wait _ => (wake, w)
  | .append task none => ((), w.append task)
  | .append task (some settled) => ((), (w.append task).settle thread settled)
  | .ack task => ((), { w.settle thread task with acked := task :: w.acked })
  | .bury task settled => ((), (w.bury task).settle thread settled)

abbrev Program (α : Type) := Prog Command Response α

/-- A context is given by its error, if it has one. -/
def enqueue (ctx : Option CtxError) (task : Option Task) (settles : Option Task) :
    Program (Except Error Unit) :=
  match ctx with
  | some err => return .error (.ctx err)
  | none =>
    match task with
    | none => return .ok ()
    | some task =>
      .call (.append ⟨task.toEnvelope.normalize, task.origin⟩ settles) fun _ => return .ok ()

/-- A consumer is the name of its queue. -/
def newConsumer (ctx : Option CtxError) (config : ConsumerConfig) : Program (Except Error String) :=
  match ctx with
  | some err => return .error (.ctx err)
  | none => return .ok config.normalize.queue

def deadLetterReasonKey : String := "queue.dead_letter.reason"

section Delivery

variable (ctx : Option CtxError) (task : Task)

def ack : Program (Except Error Unit) :=
  match ctx with
  | some err => return .error (.ctx err)
  | none => .call (.ack task) fun _ => return .ok ()

def retry (delay : Int) : Program (Except Error Unit) :=
  match ctx with
  | some err => return .error (.ctx err)
  | none => .call .now fun now => enqueue ctx (some { task with availableAt := now + delay }) (some task)

def deadLetter (reason : String) : Program (Except Error Unit) :=
  match ctx with
  | some err => return .error (.ctx err)
  | none =>
    let buried := { task with metadata := setMetadata task.metadata deadLetterReasonKey reason }
    .call (.bury buried task) fun _ => return .ok ()

/-- A delivery whose settlement context is `ctx`. -/
def delivery : Queue.Delivery Command Response Error :=
  ⟨task, ack ctx task, retry ctx task, deadLetter ctx task⟩

end Delivery

/-- `Receive`, for as many waits as it is given; `none` stands for a call that is still waiting
after them. -/
def receive (ctx : Option CtxError) (name : String) :
    Nat → Program (Option (Except Error (Option (Queue.Delivery Command Response Error))))
  | 0 => return none
  | waits + 1 =>
    .call .now fun now => .call (.next name now) fun found =>
      match found with
      | (some task, _) => return some (.ok (some (delivery ctx task)))
      | (none, wait) =>
        .call (.wait wait) fun wake =>
          match wake with
          | .done err => return some (.error (.ctx err))
          | .closed => return some (.error .consumerClosed)
          | .again => receive ctx name waits

def stopErrors : StopErrors Error where
  isStop
    | .ctx _ => true
    | .consumerClosed => false
  isClosed
    | .ctx _ => false
    | .consumerClosed => true

/-- Producers enqueue tasks; worker loops, whose settlement contexts stay live, run some rounds
with some waits in each. All loops allow `limit` attempts. -/
inductive Call
  | enqueue (ctx : Option CtxError) (task : Option Envelope)
  | worker (ctx : Option CtxError) (config : WorkerConfig) (rounds waits : Nat)

inductive Outcome
  | enqueued (r : Except Error Unit)
  | stopped (r : Option (Except Error Unit))
  deriving DecidableEq

abbrev WorkerThread := Thread Call (Command ⊕ WorkerCommand) (Sum.elim Response WorkerResponse) Outcome

def start (limit : Int) (call : Call) (threads : List WorkerThread) :
    Option (WorkerProgram Command Response Outcome) :=
  match call with
  | .enqueue ctx task =>
    some (.enqueued <$> (MemoryQueue.enqueue ctx
      (task.map fun e => ⟨e, ⟨threads.length, e⟩⟩) none).lift)
  | .worker ctx config rounds waits =>
    if config.maxAttempts = limit then
      some (.stopped <$> loop stopErrors config (newConsumer ctx)
        (fun name => receive none name waits) rounds)
    else none

/-- The queue alone, with a clock that does not go back. -/
def service : Service World Wake Nat Unit Command Response Unit where
  exec := exec
  shift elapsed w := { w with now := w.now + elapsed }
  start _ _ := none

/-- Any number of producers and worker loops at once. -/
def workers (limit : Int) : Service (World × List HandlerEvent) (Wake × WorkerLabel) Nat Call
    (Command ⊕ WorkerCommand) (Sum.elim Response WorkerResponse) Outcome :=
  service.extend workerExec (start limit)

end Fries.MemoryQueue
