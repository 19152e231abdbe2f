import Fries.Lib.Schedule
import Fries.Queue.Worker

/-! Runs of a worker: `Run`, its loops, and `Stop`. What queue and handlers return is left open. -/
namespace Fries.Queue

/-- Whether a loop takes an error for its regular end, with `done` saying if the context it polls
under has ended. -/
def StopErrors.isNormalStopError {E : Type} (stop : StopErrors E) (done : Bool) (err : E) : Bool :=
  stop.isStop err || (stop.isClosed err && done)

namespace Run

/-- `WithConcurrency` ignores values below one. -/
abbrev Concurrency := { n : Nat // 0 < n }

def errAlreadyRunning : String := "queue: worker already running"

inductive RunError (E : Type)
  | worker (text : String)
  | queue (err : E)
  deriving DecidableEq

/-- How a loop ended: it saw that polling was over, it took an error for its regular end, where
`down` tells if the run had been shut down by then, or it returned an error. -/
inductive LoopEnd (E : Type)
  | stopped
  | excused (err : E) (down : Bool)
  | failed (err : E)
  deriving DecidableEq

/-- A run: whether it is registered, canceled, no longer polled, stopped and finished, and how many
loops are at work; and in order the errors met by loops, those sent to `errs`, and how loops
ended. -/
structure RunState (E : Type) where
  started : Bool
  canceled : Bool
  polled : Bool
  stopCalled : Bool
  finished : Bool
  active : Nat
  met : List E
  sent : List E
  ends : List (LoopEnd E)
  deriving DecidableEq

/-- The worker: the run that is registered, and all runs by the number of their call of `Run`. -/
structure World (E : Type) where
  current : Option Nat
  runs : Nat → RunState E

def World.change {E : Type} (w : World E) (r : Nat) (f : RunState E → RunState E) : World E :=
  { w with runs := fun r' => if r' = r then f (w.runs r') else w.runs r' }

inductive RunPhase (E : Type)
  | spawning (left : Nat)
  | selecting
  | draining
  | halting (err : E)
  | joining (err : E)
  | finishing (result : Option E)
  deriving DecidableEq

inductive LoopPhase (E : Type)
  | creating
  | classifying (err : E)
  | polling
  | receiving
  | processing
  | judging (err : E)
  | sending (err : E)
  | halting (err : E)
  | leaving (how : LoopEnd E)
  | gone
  deriving DecidableEq

inductive StopPhase
  | reading
  | halting (r : Nat)
  | awaiting (r : Nat)
  | returned (canceled : Bool)
  deriving DecidableEq

/-- A call of `Run` before `start` and after it, one of its loops, or a call of `Stop`. -/
inductive Local (E : Type)
  | calling
  | runner (r : Nat) (phase : RunPhase E)
  | returned (r : Nat) (result : Option (RunError E))
  | loop (r : Nat) (phase : LoopPhase E)
  | stopper (phase : StopPhase)
  deriving DecidableEq

inductive Call
  | run
  | stop

/-- What the queue returned, with `true` for a delivery that has a task, what `process` returned,
and which channel a `select` took. -/
inductive Label (E : Type)
  | step
  | created (err : Option E)
  | received (result : Except E Bool)
  | processed (err : Option E)
  | workersDone
  | errs
  | done
  | canceled

/-- A run's context is canceled, and then the context derived from it, in whichever way. -/
inductive Shift
  | cancel (r : Nat)
  | propagate (r : Nat)

section Steps

variable {E : Type}

def RunState.register (s : RunState E) : RunState E := { s with started := true }

def RunState.stop (s : RunState E) : RunState E := { s with polled := true }

def RunState.stopCall (s : RunState E) : RunState E :=
  { s with polled := true, stopCalled := true }

def RunState.close (s : RunState E) : RunState E := { s with polled := true, finished := true }

def RunState.cancel (s : RunState E) : RunState E := { s with canceled := true }

def RunState.propagate (s : RunState E) : RunState E :=
  { s with polled := s.polled || s.canceled }

def RunState.meet (err : E) (s : RunState E) : RunState E := { s with met := s.met ++ [err] }

def RunState.send (err : E) (s : RunState E) : RunState E := { s with sent := s.sent ++ [err] }

def RunState.enter (s : RunState E) : RunState E := { s with active := s.active + 1 }

def RunState.leave (how : LoopEnd E) (s : RunState E) : RunState E :=
  { s with active := s.active - 1, ends := s.ends ++ [how] }

def RunState.down (s : RunState E) : Bool := s.polled || s.canceled

/-- `start` and `finish`, under the mutex of the worker. -/
def World.start (w : World E) (r : Nat) : World E :=
  { w.change r .register with current := some r }

def World.finish (w : World E) (r : Nat) : World E :=
  { w.change r .close with current := if w.current = some r then none else w.current }

/-- `Run` once it is registered. The channel `errs` has room for one error of every loop, so a send
never blocks, and `Run` takes at most the first. `workersDone` is closed when no loop is left. -/
def stepRun (r : Nat) (label : Label E) (w : World E) :
    RunPhase E → Option (Progress (World E) (Local E))
  | .spawning (left + 1) =>
    some ⟨.runner r (.spawning left), w.change r .enter, some (.loop r .creating)⟩
  | .spawning 0 => some ⟨.runner r .selecting, w, none⟩
  | .selecting =>
    match label with
    | .workersDone =>
      if (w.runs r).active = 0 then some ⟨.runner r .draining, w, none⟩ else none
    | .errs => (w.runs r).sent.head?.map fun err => ⟨.runner r (.halting err), w, none⟩
    | _ => none
  | .draining => some ⟨.runner r (.finishing (w.runs r).sent.head?), w, none⟩
  | .halting err => some ⟨.runner r (.joining err), w.change r .stop, none⟩
  | .joining err =>
    if (w.runs r).active = 0 then some ⟨.runner r (.finishing (some err)), w, none⟩ else none
  | .finishing result => some ⟨.returned r (result.map .queue), w.finish r, none⟩

/-- A loop, and what `Run` does with its error: it sends it to `errs` before it stops the others. -/
def stepLoop (stop : StopErrors E) (r : Nat) (label : Label E) (w : World E) :
    LoopPhase E → Option (Progress (World E) (Local E))
  | .creating =>
    match label with
    | .created none => some ⟨.loop r .polling, w, none⟩
    | .created (some err) => some ⟨.loop r (.classifying err), w.change r (.meet err), none⟩
    | _ => none
  | .classifying err =>
    if stop.isNormalStopError (w.runs r).polled err then
      some ⟨.loop r (.leaving (.excused err (w.runs r).down)), w, none⟩
    else some ⟨.loop r (.sending err), w, none⟩
  | .polling =>
    if (w.runs r).polled then some ⟨.loop r (.leaving .stopped), w, none⟩
    else some ⟨.loop r .receiving, w, none⟩
  | .receiving =>
    match label with
    | .received (.error err) => some ⟨.loop r (.classifying err), w.change r (.meet err), none⟩
    | .received (.ok false) => some ⟨.loop r .polling, w, none⟩
    | .received (.ok true) => some ⟨.loop r .processing, w, none⟩
    | _ => none
  | .processing =>
    match label with
    | .processed none => some ⟨.loop r .polling, w, none⟩
    | .processed (some err) => some ⟨.loop r (.judging err), w.change r (.meet err), none⟩
    | _ => none
  | .judging err =>
    if (w.runs r).canceled && stop.isStop err then
      some ⟨.loop r (.leaving (.excused err (w.runs r).down)), w, none⟩
    else some ⟨.loop r (.sending err), w, none⟩
  | .sending err => some ⟨.loop r (.halting err), w.change r (.send err), none⟩
  | .halting err => some ⟨.loop r (.leaving (.failed err)), w.change r .stop, none⟩
  | .leaving how => some ⟨.loop r .gone, w.change r (.leave how), none⟩
  | .gone => none

/-- `Stop`: it stops the run it finds registered and waits for its end or for its own context. -/
def stepStop (label : Label E) (w : World E) : StopPhase → Option (Progress (World E) (Local E))
  | .reading =>
    match w.current with
    | none => some ⟨.stopper (.returned false), w, none⟩
    | some r => some ⟨.stopper (.halting r), w, none⟩
  | .halting r => some ⟨.stopper (.awaiting r), w.change r .stopCall, none⟩
  | .awaiting r =>
    match label with
    | .done => if (w.runs r).finished then some ⟨.stopper (.returned false), w, none⟩ else none
    | .canceled => some ⟨.stopper (.returned true), w, none⟩
    | _ => none
  | .returned _ => none

def step (c : Concurrency) (stop : StopErrors E) (i : Nat) (label : Label E) (l : Local E)
    (w : World E) : Option (Progress (World E) (Local E)) :=
  match l with
  | .calling =>
    match w.current with
    | some _ => some ⟨.returned i (some (.worker errAlreadyRunning)), w, none⟩
    | none => some ⟨.runner i (.spawning c.1), w.start i, none⟩
  | .runner r phase => stepRun r label w phase
  | .returned _ _ => none
  | .loop r phase => stepLoop stop r label w phase
  | .stopper phase => stepStop label w phase

def shift : Shift → World E → World E
  | .cancel r, w => w.change r .cancel
  | .propagate r, w => w.change r .propagate

/-- Any number of calls of `Run` and `Stop` on a worker, interleaved. -/
def worker (c : Concurrency) (stop : StopErrors E) :
    System (World E) (Local E) (Label E) Shift Call where
  enter call _ :=
    match call with
    | .run => .calling
    | .stop => .stopper .reading
  step := step c stop
  shift := shift

/-- A worker that was not used yet. -/
def idle : Crew (World E) (Local E) :=
  ⟨⟨none, fun _ => ⟨false, false, false, false, false, 0, [], [], []⟩⟩, []⟩

end Steps

end Run

end Fries.Queue
