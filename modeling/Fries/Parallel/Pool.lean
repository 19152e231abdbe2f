import Fries.Lib.Channel

/-! The pool of workers. A task goes by its submitting call. -/
namespace Fries.Parallel.Pool

structure Config where
  workers : Nat
  queueSize : Nat
  workers_pos : 0 < workers

/-- The option `WithQueueSize`; a negative size keeps the default. -/
def withQueueSize (queueSize size : Int) : Int := if 0 ≤ size then size else queueSize

def newPoolConfig (workers : Int) (options : List Int) : Int :=
  options.foldl withQueueSize workers

/-- `NewPool`, which panics with a text if there are no workers. -/
def newPool (workers : Int) (options : List Int) : Except String Config :=
  if h : workers ≤ 0 then .error "parallel: worker count must be greater than zero"
  else .ok ⟨workers.toNat, (newPoolConfig workers options).toNat, by omega⟩

/-- Calls; a submitted task may be nil. -/
inductive Call
  | submit (task : Bool)
  | trySubmit (task : Bool)
  | execute (task : Bool)
  | wait (task : Nat)
  | shutdown
  deriving DecidableEq

/-- How a future was completed: with what the task returned, or with the cause its context was
canceled with. -/
inductive Completion (E : Type)
  | executed (err : Option E)
  | canceled (cause : String)
  deriving DecidableEq

/-- What a call returns: a future, an error, the result of a future, or nil from `Shutdown`. -/
inductive Outcome (E : Type)
  | accepted
  | nilTask
  | closed
  | full
  | canceled (cause : String)
  | result (completion : Completion E)
  | finished
  deriving DecidableEq

/-- The fields of the pool and the causes of the contexts; the futures that are complete, in the
order of their completion; and the tasks that were started and those that returned. -/
structure World (E : Type) where
  intake : Intake Nat
  workers : Nat
  done : Bool
  causes : Nat → Option String
  completions : List (Nat × Completion E)
  starts : List Nat
  returns : List (Nat × Option E)

/-- Where a call is. -/
inductive Point (E : Type)
  | start
  | join
  | sending
  | leaving (outcome : Outcome E)
  | waiting
  | returned (outcome : Outcome E)
  deriving DecidableEq

/-- Where a worker is. -/
inductive Phase (E : Type)
  | idle
  | receiving
  | holding (task : Nat)
  | running (task : Nat)
  | completing (task : Nat) (completion : Completion E)
  | exited
  deriving DecidableEq

/-- Where the goroutine is that `stop` starts. -/
inductive Closing
  | submitters
  | workers
  | finished
  deriving DecidableEq

inductive Local (E : Type)
  | caller (call : Call) (point : Point E)
  | worker (phase : Phase E)
  | closer (stage : Closing)
  | panicked
  deriving DecidableEq

/-- Which case of a select is taken, or what the task returns. -/
inductive Label (E : Type)
  | send
  | done
  | closing
  | returns (err : Option E)

/-- The context of a call is canceled. -/
structure Cancel where
  call : Nat
  cause : String

variable {E : Type}

/-- The result of a future, once it is complete. -/
def World.future (w : World E) (task : Nat) : Option (Completion E) := w.completions.lookup task

def World.submit (w : World E) (task : Nat) : World E := { w with intake := w.intake.send task }

/-- `stop`, with the goroutine it starts the first time. -/
def stop (w : World E) : World E × Option (Local E) :=
  if w.intake.closed then (w, none)
  else ({ w with intake := w.intake.stop }, some (.closer .submitters))

/-- `Future.Wait`: the result comes before the end of the context. -/
def wait (future : Option (Completion E)) (cause : Option String) : Option (Outcome E) :=
  match future with
  | some completion => some (.result completion)
  | none => cause.map .canceled

/-- One step of a call. -/
def callerStep (i : Nat) (label : Label E) (call : Call) (point : Point E) (w : World E) :
    Option (Progress (World E) (Local E)) :=
  let at_ (point : Point E) (w : World E) : Progress (World E) (Local E) :=
    ⟨.caller call point, w, none⟩
  match point with
  | .start =>
    match call with
    | .submit task | .trySubmit task | .execute task =>
      if ¬ task then some (at_ (.returned .nilTask) w)
      else
        match w.causes i with
        | some cause => some (at_ (.returned (.canceled cause)) w)
        | none => some (at_ .join w)
    | .wait _ => some (at_ .waiting w)
    | .shutdown => some ⟨.caller call .waiting, (stop w).1, (stop w).2⟩
  | .join =>
    if w.intake.closed then some (at_ (.returned .closed) w)
    else
      match call with
      | .trySubmit _ =>
        if w.intake.chan.closed then some ⟨.panicked, w, none⟩
        else if w.intake.chan.room then some (at_ (.returned .accepted) (w.submit i))
        else some (at_ (.returned .full) w)
      | _ => some (at_ .sending { w with intake := w.intake.join })
  | .sending =>
    match label with
    | .send =>
      if w.intake.chan.closed then some ⟨.panicked, w, none⟩
      else if w.intake.chan.room then some (at_ (.leaving .accepted) (w.submit i))
      else none
    | .closing => if w.intake.closed then some (at_ (.leaving .closed) w) else none
    | .done => (w.causes i).map fun cause => at_ (.leaving (.canceled cause)) w
    | .returns _ => none
  | .leaving outcome =>
    let w' := { w with intake := w.intake.leave }
    match call, outcome with
    | .execute _, .accepted => some (at_ .waiting w')
    | _, _ => some (at_ (.returned outcome) w')
  | .waiting =>
    match call with
    | .shutdown =>
      if w.done then some (at_ (.returned .finished) w)
      else (w.causes i).map fun cause => at_ (.returned (.canceled cause)) w
    | .wait task => (wait (w.future task) (w.causes i)).map fun o => at_ (.returned o) w
    | _ => (wait (w.future i) (w.causes i)).map fun o => at_ (.returned o) w
  | .returned _ => none

/-- One step of `work` and of `execute` in it. -/
def workerStep (label : Label E) (phase : Phase E) (w : World E) :
    Option (Progress (World E) (Local E)) :=
  let at_ (phase : Phase E) (w : World E) : Progress (World E) (Local E) :=
    ⟨.worker phase, w, none⟩
  let withChan (chan : Chan Nat) : World E := { w with intake := { w.intake with chan := chan } }
  match phase with
  | .idle => some (at_ .receiving (withChan w.intake.chan.await))
  | .receiving =>
    match w.intake.chan.receive with
    | some (task, chan) => some (at_ (.holding task) (withChan chan))
    | none =>
      if w.intake.chan.closed then
        some (at_ .exited { withChan w.intake.chan.quit with workers := w.workers - 1 })
      else none
  | .holding task =>
    match w.causes task with
    | some cause => some (at_ (.completing task (.canceled cause)) w)
    | none => some (at_ (.running task) { w with starts := w.starts ++ [task] })
  | .running task =>
    match label with
    | .returns err =>
      some (at_ (.completing task (.executed err)) { w with returns := w.returns ++ [(task, err)] })
    | _ => none
  | .completing task completion =>
    -- a future that is complete has closed its channel, and closing it again panics
    if (w.future task).isSome then some ⟨.panicked, w, none⟩
    else some (at_ .idle { w with completions := w.completions ++ [(task, completion)] })
  | .exited => none

def step (i : Nat) (label : Label E) (l : Local E) (w : World E) :
    Option (Progress (World E) (Local E)) :=
  match l with
  | .caller call point => callerStep i label call point w
  | .worker phase => workerStep label phase w
  | .closer .submitters =>
    if w.intake.submitters = 0 then
      if w.intake.chan.closed then some ⟨.panicked, w, none⟩
      else some ⟨.closer .workers, { w with intake := w.intake.close }, none⟩
    else none
  | .closer .workers =>
    if w.workers = 0 then
      if w.done then some ⟨.panicked, w, none⟩
      else some ⟨.closer .finished, { w with done := true }, none⟩
    else none
  | .closer .finished | .panicked => none

/-- A context keeps the cause it was canceled with first. -/
def shift (change : Cancel) (w : World E) : World E :=
  { w with
    causes := Function.update w.causes change.call
      (some ((w.causes change.call).getD change.cause)) }

def pool (E : Type) : System (World E) (Local E) (Label E) Cancel Call where
  enter call _ := .caller call .start
  step := step
  shift := shift

/-- A pool that `NewPool` has just returned; the first threads are its workers. -/
def initial (E : Type) (c : Config) : Crew (World E) (Local E) where
  world :=
    { intake := .make c.queueSize, workers := c.workers, done := false, causes := fun _ => none,
      completions := [], starts := [], returns := [] }
  threads := List.replicate c.workers (.worker .idle)

end Fries.Parallel.Pool
