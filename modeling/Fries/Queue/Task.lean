import Fries.Go

/-! Tasks, which remember the `Enqueue` call they go back to; no code looks at that. -/
namespace Fries.Queue

def defaultQueue : String := "default"

/-- The fields of a task that are stored and delivered. -/
structure Envelope where
  id : String
  type : String
  queue : String
  payload : Bytes
  metadata : List (String × String)
  attempt : Int
  createdAt : Int
  availableAt : Int
  deriving DecidableEq, Repr

/-- The number of an `Enqueue` call and the envelope it was given. -/
structure Origin where
  call : Nat
  task : Envelope
  deriving DecidableEq, Repr

structure Task extends Envelope where
  origin : Origin
  deriving DecidableEq, Repr

def Envelope.normalize (e : Envelope) : Envelope :=
  if e.queue = "" then { e with queue := defaultQueue } else e

/-- An assignment to an entry of the metadata map. -/
def setMetadata (metadata : List (String × String)) (key value : String) : List (String × String) :=
  (key, value) :: metadata.filter fun e => e.1 ≠ key

theorem normalize_attempt (e : Envelope) : e.normalize.attempt = e.attempt := by
  unfold Envelope.normalize
  split <;> rfl

/-- The queue a task belongs to. -/
def Origin.queue (o : Origin) : String := o.task.normalize.queue

/-- `e` is the task that was enqueued, up to its attempts and its time. -/
def Origin.Copy (o : Origin) (e : Envelope) : Prop :=
  e = { o.task.normalize with attempt := e.attempt, availableAt := e.availableAt }

structure ConsumerConfig where
  queue : String
  name : String
  deriving DecidableEq, Repr

def ConsumerConfig.normalize (c : ConsumerConfig) : ConsumerConfig :=
  if c.queue = "" then { c with queue := defaultQueue } else c

theorem queue_ne_empty (o : Origin) : o.queue ≠ "" := by
  unfold Origin.queue Envelope.normalize
  split
  · simp [defaultQueue]
  · assumption

variable {o : Origin} {e : Envelope}

theorem copy_queue (h : o.Copy e) : e.queue = o.queue := by
  rw [h]
  rfl

theorem copy_normalize (h : o.Copy e) : e.normalize = e := by
  have hne : e.queue ≠ "" := copy_queue h ▸ queue_ne_empty o
  simp [Envelope.normalize, hne]

/-- Attempts and time are free in a copy. -/
theorem copy_update (h : o.Copy e) (attempt availableAt : Int) :
    o.Copy { e with attempt := attempt, availableAt := availableAt } := by
  rw [h]
  rfl

end Fries.Queue
