import Fries.Go
import Fries.Lib.Channel

/-! The batcher: callers, one worker, and stoppers. Each section under the mutex is one step. -/
namespace Fries.Batcher

inductive OptionError
  | batchSize
  | flushInterval
  | queueSize
  deriving DecidableEq

structure Config where
  batchSize : Nat
  flushInterval : Int
  queueSize : Nat
  batchSize_pos : 0 < batchSize
  interval_pos : 0 < flushInterval

inductive Setting
  | withBatchSize (size : Int)
  | withFlushInterval (interval : Int)
  | withQueueSize (size : Int)

/-- The options as they were given, before they are checked. -/
structure Settings where
  batchSize : Int
  flushInterval : Int
  queueSize : Int

def Setting.apply (c : Settings) : Setting → Settings
  | .withBatchSize size => { c with batchSize := size }
  | .withFlushInterval interval => { c with flushInterval := interval }
  | .withQueueSize size => { c with queueSize := size }

def newConfig (options : List Setting) : Except OptionError Config :=
  let c := options.foldl Setting.apply ⟨100, second, 1000⟩
  if hsize : c.batchSize ≤ 0 then .error .batchSize
  else if hinterval : c.flushInterval ≤ 0 then .error .flushInterval
  else if c.queueSize < 0 then .error .queueSize
  else .ok ⟨c.batchSize.toNat, c.flushInterval, c.queueSize.toNat, by omega, by omega⟩

/-- An item or a flush barrier, with the call that submits it. -/
inductive Request (T : Type)
  | item (call : Nat) (value : T)
  | flush (call : Nat)
  deriving DecidableEq

def Request.call {T : Type} : Request T → Nat
  | .item call _ => call
  | .flush call => call

/-- Calls with whether their context is not nil. -/
inductive Call (T : Type)
  | add (ctx : Bool) (item : T)
  | tryAdd (item : T)
  | flush (ctx : Bool)
  | shutdown (ctx : Bool)
  deriving DecidableEq

/-- What a call returns: nil from `Add` and `TryAdd`, an error of the package, the cause of the
context, or the first error of the handler. -/
inductive Outcome (E : Type)
  | accepted
  | closed
  | full
  | invalidContext
  | canceled (cause : String)
  | result (err : Option E)
  deriving DecidableEq

/-- The fields of the batcher and of its worker; the causes of the contexts of the calls and of
the processing context; and the batches given to the handler, with the errors of those whose
callback has returned. -/
structure World (T E : Type) where
  intake : Intake (Request T)
  batch : List (Nat × T)
  ticking : Bool
  firstErr : Option E
  finished : Option (Option E)
  completions : Nat → Option (Option E)
  causes : Nat → Option String
  cancelled : Option String
  batches : List (List (Nat × T))
  results : List (Option E)

/-- Where a call is. -/
inductive Point (E : Type)
  | start
  | join
  | sending
  | leaving (outcome : Outcome E)
  | waiting
  | returned (outcome : Outcome E)
  deriving DecidableEq

/-- What the worker goes on with after a flush. -/
inductive Then
  | loop
  | complete (call : Nat)
  | finish
  deriving DecidableEq

/-- Where the worker is. -/
inductive Phase (E : Type)
  | select
  | receiving
  | flush (andThen : Then)
  | handling (andThen : Then)
  | notifying (err : Option E) (andThen : Then)
  | resume (andThen : Then)
  | exited
  deriving DecidableEq

/-- The goroutines: calls, with how much was accepted when they were made, the worker, and those
that close the queue and stop the batcher. -/
inductive Local (T E : Type)
  | caller (call : Call T) (before : Nat) (point : Point E)
  | worker (phase : Phase E)
  | closer (done : Bool)
  | watcher (done : Bool)
  | panicked
  deriving DecidableEq

/-- Which case of a select is taken, or what the handler returns. -/
inductive Label (E : Type)
  | send
  | done
  | closing
  | receive
  | tick
  | returns (err : Option E)

inductive Change
  | cancelCall (call : Nat) (cause : String)
  | cancel (cause : String)

section Step

variable {T E : Type}

/-- The request a call sends. -/
def Call.request (i : Nat) : Call T → Option (Request T)
  | .add _ item => some (.item i item)
  | .tryAdd item => some (.item i item)
  | .flush _ => some (.flush i)
  | .shutdown _ => none

def World.submit (w : World T E) (request : Request T) : World T E :=
  { w with intake := w.intake.send request }

/-- `stop`, with the goroutine it starts the first time. -/
def stop (w : World T E) : World T E × Option (Local T E) :=
  if w.intake.closed then (w, none)
  else ({ w with intake := w.intake.stop }, some (.closer false))

/-- `completion.wait`: a completed result comes before the end of the context. -/
def wait (completion : Option (Option E)) (cause : Option String) : Option (Outcome E) :=
  match completion with
  | some err => some (.result err)
  | none => cause.map .canceled

/-- One step of a call. -/
def callerStep (i : Nat) (label : Label E) (call : Call T) (before : Nat) (point : Point E)
    (w : World T E) : Option (Progress (World T E) (Local T E)) :=
  let at_ (point : Point E) (w : World T E) (started : Option (Local T E)) :
      Progress (World T E) (Local T E) := ⟨.caller call before point, w, started⟩
  match point with
  | .start =>
    match call with
    | .tryAdd item =>
      if w.intake.closed then some (at_ (.returned .closed) w none)
      else if w.intake.chan.closed then some ⟨.panicked, w, none⟩
      else if w.intake.chan.room then
        some (at_ (.returned .accepted) (w.submit (.item i item)) none)
      else some (at_ (.returned .full) w none)
    | .shutdown ctx =>
      if ¬ ctx then some (at_ (.returned .invalidContext) w none)
      else some (at_ .waiting (stop w).1 (stop w).2)
    | .add ctx _ | .flush ctx =>
      if ¬ ctx then some (at_ (.returned .invalidContext) w none)
      else
        match w.causes i with
        | some cause => some (at_ (.returned (.canceled cause)) w none)
        | none => some (at_ .join w none)
  | .join =>
    if w.intake.closed then some (at_ (.returned .closed) w none)
    else some (at_ .sending { w with intake := w.intake.join } none)
  | .sending =>
    match label with
    | .send =>
      match call.request i with
      | none => none
      | some request =>
        if w.intake.chan.closed then some ⟨.panicked, w, none⟩
        else if w.intake.chan.room then some (at_ (.leaving .accepted) (w.submit request) none)
        else none
    | .done => (w.causes i).map fun cause => at_ (.leaving (.canceled cause)) w none
    | .closing => if w.intake.closed then some (at_ (.leaving .closed) w none) else none
    | _ => none
  | .leaving outcome =>
    let w' := { w with intake := w.intake.leave }
    match call, outcome with
    | .flush _, .accepted => some (at_ .waiting w' none)
    | _, _ => some (at_ (.returned outcome) w' none)
  | .waiting =>
    match call with
    | .shutdown _ => (wait w.finished (w.causes i)).map fun o => at_ (.returned o) w none
    | _ => (wait (w.completions i) (w.causes i)).map fun o => at_ (.returned o) w none
  | .returned _ => none

/-- `accept`, up to the flush it may need. -/
def accept (size : Nat) (request : Request T) (w : World T E) : Phase E × World T E :=
  match request with
  | .flush call => (.flush (.complete call), w)
  | .item call value =>
    let w' := { w with batch := w.batch ++ [(call, value)],
                       ticking := w.batch.isEmpty || w.ticking }
    (if w'.batch.length = size then .flush .loop else .select, w')

/-- One step of the worker. -/
def workerStep (size : Nat) (label : Label E) (phase : Phase E) (w : World T E) :
    Option (Progress (World T E) (Local T E)) :=
  let at_ (phase : Phase E) (w : World T E) : Progress (World T E) (Local T E) :=
    ⟨.worker phase, w, none⟩
  let withChan (chan : Chan (Request T)) : World T E :=
    { w with intake := { w.intake with chan := chan } }
  match phase with
  | .select => some (at_ .receiving (withChan w.intake.chan.await))
  | .receiving =>
    match label with
    | .receive =>
      match w.intake.chan.receive with
      | some (request, chan) =>
        let next := accept size request (withChan chan)
        some (at_ next.1 next.2)
      | none =>
        if w.intake.chan.closed then some (at_ (.flush .finish) (withChan w.intake.chan.quit))
        else none
    | .tick =>
      if w.ticking ∧ w.intake.chan.room then some (at_ (.flush .loop) (withChan w.intake.chan.quit))
      else none
    | _ => none
  | .flush andThen =>
    if w.batch.isEmpty then some (at_ (.resume andThen) w)
    else
      some (at_ (.handling andThen)
        { w with batches := w.batches ++ [w.batch], batch := [], ticking := false })
  | .handling andThen =>
    match label with
    | .returns err =>
      some (at_ (.notifying err andThen) { w with firstErr := w.firstErr.or err })
    | _ => none
  | .notifying err andThen =>
    some (at_ (.resume andThen) { w with results := w.results ++ [err] })
  | .resume .loop => some (at_ .select w)
  | .resume (.complete call) =>
    if (w.completions call).isSome then some ⟨.panicked, w, none⟩
    else
      some (at_ .select
        { w with completions := Function.update w.completions call (some w.firstErr) })
  | .resume .finish => some (at_ .exited { w with finished := some w.firstErr })
  | .exited => none

def step (c : Config) (i : Nat) (label : Label E) (l : Local T E) (w : World T E) :
    Option (Progress (World T E) (Local T E)) :=
  match l with
  | .caller call before point => callerStep i label call before point w
  | .worker phase => workerStep c.batchSize label phase w
  | .closer false =>
    if w.intake.submitters = 0 then
      if w.intake.chan.closed then some ⟨.panicked, w, none⟩
      else some ⟨.closer true, { w with intake := w.intake.close }, none⟩
    else none
  | .watcher false =>
    if w.cancelled.isSome then some ⟨.watcher true, (stop w).1, (stop w).2⟩ else none
  | .closer true | .watcher true | .panicked => none

/-- A context keeps the cause it was canceled with first. -/
def shift (change : Change) (w : World T E) : World T E :=
  match change with
  | .cancelCall call cause =>
    { w with causes := Function.update w.causes call (some ((w.causes call).getD cause)) }
  | .cancel cause => { w with cancelled := some (w.cancelled.getD cause) }

end Step

variable {T E : Type}

def batcher (T E : Type) (c : Config) : System (World T E) (Local T E) (Label E) Change (Call T) where
  enter call w := .caller call w.intake.accepted.length .start
  step := step c
  shift := shift

/-- A batcher that `New` has just returned. -/
def initial (T E : Type) (c : Config) : Crew (World T E) (Local T E) where
  world :=
    { intake := .make c.queueSize, batch := [], ticking := false, firstErr := none,
      finished := none, completions := fun _ => none, causes := fun _ => none, cancelled := none,
      batches := [], results := [] }
  threads := [.worker .select, .watcher false]

end Fries.Batcher
