import Fries.Lib.Program
import Fries.Queue.Task

/-! The worker: it receives deliveries, runs handlers and settles by what they returned. -/
namespace Fries.Queue

open Service.Contract

def errHandlerNotFound : String := "queue: handler not found"

def errRetryExhausted : String := "queue: retry exhausted"

/-- What a worker finds in the error of a handler: whether it is `ErrDiscard`, the reason of a
`DeadLetter`, the delay of a `RetryAfter`, and its text. -/
structure HandlerError where
  discard : Bool
  deadLetter : Option String
  retryAfter : Option Int
  text : String
  deriving DecidableEq

/-- `WithMaxAttempts` ignores values below one. -/
structure WorkerConfig where
  queue : String
  consumerName : String
  maxAttempts : Int
  handlers : List String
  backoff : Int → Int
  retryIf : Task → HandlerError → Bool
  one_le : 1 ≤ maxAttempts

inductive Decision
  | ack
  | retry (delay : Int)
  | deadLetter (reason : String)
  deriving DecidableEq

/-- How `process` settles a delivery once the handler has returned. -/
def WorkerConfig.decide (c : WorkerConfig) (task : Task) : Option HandlerError → Decision
  | none => .ack
  | some err =>
    if err.discard then .ack
    else match err.deadLetter with
      | some reason => .deadLetter reason
      | none =>
        if task.attempt ≥ c.maxAttempts then .deadLetter (errRetryExhausted ++ ": " ++ err.text)
        else match err.retryAfter with
          | some delay => .retry delay
          | none =>
            if !c.retryIf task err then .deadLetter err.text
            else .retry (if c.backoff task.attempt < 0 then 0 else c.backoff task.attempt)

/-- A task is only tried again while attempts are left. -/
theorem decide_retry {c : WorkerConfig} {task : Task} {result : Option HandlerError} {delay : Int}
    (h : c.decide task result = .retry delay) : task.attempt < c.maxAttempts := by
  unfold WorkerConfig.decide at h
  split at h
  · cases h
  · split at h
    · cases h
    · split at h
      · cases h
      · split at h
        · cases h
        · omega

/-- A delivery as a queue hands it out. -/
structure Delivery (C : Type) (R : C → Type) (E : Type) where
  task : Task
  ack : Prog C R (Except E Unit)
  retry : Int → Prog C R (Except E Unit)
  deadLetter : String → Prog C R (Except E Unit)

/-- What a worker does besides the commands of its queue: it looks at the contexts it polls
and runs under, and it starts a handler and waits for it. -/
inductive WorkerCommand
  | polling
  | running
  | start (task : Task)
  | finish (task : Task)

abbrev WorkerResponse : WorkerCommand → Type
  | .polling => Bool
  | .running => Bool
  | .start _ => Unit
  | .finish _ => Option HandlerError

abbrev WorkerProgram (C : Type) (R : C → Type) (α : Type) :=
  Prog (C ⊕ WorkerCommand) (Sum.elim R WorkerResponse) α

section Process

variable {C : Type} {R : C → Type} {E : Type}

def polling : WorkerProgram C R Bool := .call (.inr .polling) .ret

def running : WorkerProgram C R Bool := .call (.inr .running) .ret

def handle (task : Task) : WorkerProgram C R (Option HandlerError) :=
  .call (.inr (.start task)) fun _ => .call (.inr (.finish task)) .ret

def settle (d : Delivery C R E) : Decision → WorkerProgram C R (Except E Unit)
  | .ack => d.ack.lift
  | .retry delay => (d.retry delay).lift
  | .deadLetter reason => (d.deadLetter reason).lift

def process (c : WorkerConfig) (d : Delivery C R E) : WorkerProgram C R (Except E Unit) :=
  if d.task.type ∈ c.handlers then do
    let result ← handle d.task
    settle d (c.decide d.task result)
  else (d.deadLetter errHandlerNotFound).lift

/-- How a queue's errors read to a worker: a context that ended, or a closed consumer. -/
structure StopErrors (E : Type) where
  isStop : E → Bool
  isClosed : E → Bool

/-- The rounds of a worker loop, as many as it is given; `none` stands for a loop that is still
going on after them. -/
def rounds (stop : StopErrors E) (c : WorkerConfig)
    (receive : Prog C R (Option (Except E (Option (Delivery C R E))))) :
    Nat → WorkerProgram C R (Option (Except E Unit))
  | 0 => return none
  | n + 1 => do
    if ← polling then return some (.ok ())
    match ← receive.lift with
    | none => return none
    | some (.error err) =>
      if stop.isStop err then return some (.ok ())
      else if stop.isClosed err then
        if ← polling then return some (.ok ()) else return some (.error err)
      else return some (.error err)
    | some (.ok none) => rounds stop c receive n
    | some (.ok (some delivery)) =>
      match ← process c delivery with
      | .ok () => rounds stop c receive n
      | .error err =>
        if (← running) && stop.isStop err then return some (.ok ()) else return some (.error err)

/-- A worker loop, from the creation of its consumer on. -/
def loop {κ : Type} (stop : StopErrors E) (c : WorkerConfig)
    (newConsumer : ConsumerConfig → Prog C R (Except E κ))
    (receive : κ → Prog C R (Option (Except E (Option (Delivery C R E))))) (n : Nat) :
    WorkerProgram C R (Option (Except E Unit)) := do
  match ← (newConsumer ⟨c.queue, c.consumerName⟩).lift with
  | .error err =>
    if stop.isStop err then return some (.ok ())
    else if stop.isClosed err then
      if ← polling then return some (.ok ()) else return some (.error err)
    else return some (.error err)
  | .ok consumer => rounds stop c (receive consumer) n

/-- Looking at a context does nothing that a contract would mind. -/
def Harmless {W ι ε κ α : Type}
    {S : Service W ι ε κ (C ⊕ WorkerCommand) (Sum.elim R WorkerResponse) α} (K : S.Contract)
    (i : Nat) : Prop :=
  ∀ c w label, c = .polling ∨ c = .running → K.Inv w → K.Issue i w (.inr c) ∧
    K.Inv (S.exec i label w (.inr c)).2 ∧ K.Guar i w (S.exec i label w (.inr c)).2

section Safe

variable {W ι ε κ α : Type}
  {S : Service W ι ε κ (C ⊕ WorkerCommand) (Sum.elim R WorkerResponse) α} {K : S.Contract} {i : Nat}
  {stop : StopErrors E} {c : WorkerConfig}
  {receive : Prog C R (Option (Except E (Option (Delivery C R E))))}
  {Got : Delivery C R E → W → Prop}

theorem safe_polling {β : Type} (hK : Harmless K i) {f : Bool → WorkerProgram C R β}
    {post : β → W → Prop} {w : W} (h : ∀ b w', K.Safe i post (f b) w') :
    K.Safe i post (polling >>= f) w ∧ K.Safe i post (running >>= f) w := by
  constructor
  · intro w' label _ hi _
    obtain ⟨hissue, hinv, hguar⟩ := hK .polling w' label (.inl rfl) hi
    exact ⟨hissue, hinv, hguar, h _ _⟩
  · intro w' label _ hi _
    obtain ⟨hissue, hinv, hguar⟩ := hK .running w' label (.inr rfl) hi
    exact ⟨hissue, hinv, hguar, h _ _⟩

/-- A worker is safe if what it receives can be processed. -/
theorem rounds_safe (hK : Harmless K i)
    (hreceive : ∀ w, K.Safe i (fun r w => ∀ d, r = some (.ok (some d)) → Got d w) receive.lift w)
    (hprocess : ∀ d w, Got d w → K.Safe i (fun _ _ => True) (process c d) w) (n : Nat) (w : W) :
    K.Safe i (fun _ _ => True) (rounds stop c receive n) w := by
  induction n generalizing w with
  | zero => trivial
  | succ n ih =>
    refine (safe_polling hK fun done w₁ => ?_).1
    split
    · trivial
    refine safe_bind (safe_weaken ?_ (hreceive w₁))
    intro r w₂ hr
    rcases r with _ | err | _ | d
    · trivial
    · simp only
      split
      · trivial
      · split
        · refine (safe_polling hK fun done w₃ => ?_).1
          split <;> trivial
        · trivial
    · exact ih w₂
    · refine safe_bind (safe_weaken ?_ (hprocess d w₂ (hr d rfl)))
      intro r w₃ _
      cases r with
      | ok u => exact ih w₃
      | error err =>
        refine (safe_polling hK fun done w₄ => ?_).2
        split <;> trivial

theorem loop_safe {κ' : Type} {newConsumer : ConsumerConfig → Prog C R (Except E κ')}
    {receive : κ' → Prog C R (Option (Except E (Option (Delivery C R E))))} (hK : Harmless K i)
    (hconsumer : ∀ w, K.Safe i (fun _ _ => True) (newConsumer ⟨c.queue, c.consumerName⟩).lift w)
    (hreceive : ∀ consumer w,
      K.Safe i (fun r w => ∀ d, r = some (.ok (some d)) → Got d w) (receive consumer).lift w)
    (hprocess : ∀ d w, Got d w → K.Safe i (fun _ _ => True) (process c d) w) (n : Nat) (w : W) :
    K.Safe i (fun _ _ => True) (loop stop c newConsumer receive n) w := by
  refine safe_bind (safe_weaken ?_ (hconsumer w))
  intro r w₁ _
  cases r with
  | ok consumer => exact rounds_safe hK (hreceive consumer) hprocess n w₁
  | error err =>
    simp only
    split
    · trivial
    · split
      · refine (safe_polling hK fun done w₂ => ?_).1
        split <;> trivial
      · trivial

end Safe

end Process

/-- A handler was started or came back. -/
structure HandlerEvent where
  task : Task
  started : Bool
  deriving DecidableEq

/-- The contexts and the results of handlers can be anything. -/
structure WorkerLabel where
  done : Bool
  result : Option HandlerError

def workerExec {W : Type} (_thread : Nat) (l : WorkerLabel) (_w : W) (handled : List HandlerEvent) :
    (c : WorkerCommand) → WorkerResponse c × List HandlerEvent
  | .polling => (l.done, handled)
  | .running => (l.done, handled)
  | .start task => ((), handled ++ [⟨task, true⟩])
  | .finish task => (l.result, handled ++ [⟨task, false⟩])

end Fries.Queue
