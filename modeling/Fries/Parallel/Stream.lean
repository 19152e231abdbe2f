import Fries.Go
import Fries.Lib.Channel

/-! The stream of `MapStream`: its workers, the goroutine that ends it, and its callers. -/
namespace Fries.Parallel.Stream

inductive StreamError
  | invalidLimit (limit : Int)
  | nilFunc
  | nilInput
  | canceled (cause : String)
  deriving DecidableEq

/-- The number of workers, and the buffer of the input channel. -/
structure Config where
  limit : Nat
  inputCap : Nat
  limit_pos : 0 < limit

theorem limit_pos {limit : Int} (h : ¬ limit ≤ 0) : 0 < limit.toNat := by omega

/-- The checks of `MapStream`; the input is none if it is nil. -/
def newConfig (ctx : Ctx) (limit : Int) (input : Option Nat) (fn : Bool) :
    Except StreamError Config :=
  if h : limit ≤ 0 then .error (.invalidLimit limit)
  else if ¬ fn then .error .nilFunc
  else
    match input with
    | none => .error .nilInput
    | some inputCap =>
      match ctx.cause with
      | some cause => .error (.canceled cause)
      | none => .ok ⟨limit.toNat, inputCap, limit_pos h⟩

structure StreamResult (R E : Type) where
  index : Nat
  value : R
  err : Option E
  deriving DecidableEq

/-- A call of the function that has returned. -/
structure Applied (T R E : Type) where
  index : Nat
  input : T
  value : R
  err : Option E
  deriving DecidableEq

/-- The fields of the stream and of its input, and the causes of the contexts. The rest is history:
the values received, the calls of the function, and what became of each numbered value. -/
structure World (T R E : Type) where
  gate : Bool
  input : Chan T
  next : Nat
  results : Chan (StreamResult R E)
  workers : Nat
  err : Option String
  done : Bool
  cancelled : Option String
  causes : Nat → Option String
  received : List T
  applied : List (Applied T R E)
  ends : List (Nat × Option (StreamResult R E))

inductive Call
  | consume
  | close
  | wait
  deriving DecidableEq

/-- What a call returns. -/
inductive Outcome (R E : Type)
  | result (result : StreamResult R E)
  | drained
  | left
  | closed
  | waited (err : Option String)
  | canceled (cause : String)
  deriving DecidableEq

/-- Where a call is. -/
inductive Point (R E : Type)
  | start
  | waiting
  | returned (outcome : Outcome R E)
  deriving DecidableEq

/-- Where a worker is; the phases up to `release` belong to `receive`. -/
inductive Phase (T R E : Type)
  | acquire
  | gated
  | receiving
  | numbering (value : T)
  | release (received : Option (T × Nat))
  | check (value : T) (index : Nat)
  | calling (value : T) (index : Nat)
  | delivering (result : StreamResult R E)
  | exiting
  | exited
  deriving DecidableEq

/-- Where the goroutine is that ends the stream. -/
inductive Ending
  | workers
  | cancel
  | results
  | done
  | finished
  deriving DecidableEq

inductive Local (T R E : Type)
  | caller (call : Call) (point : Point R E)
  | worker (phase : Phase T R E)
  | ender (stage : Ending)
  | panicked
  deriving DecidableEq

/-- Which case of a select is taken, or what the function returns. -/
inductive Label (R E : Type)
  | send
  | receive
  | done
  | returns (value : R) (err : Option E)

/-- Contexts are canceled, and the producers send a value or close the input. -/
inductive Change (T : Type)
  | cancelCall (call : Nat) (cause : String)
  | cancel (cause : String)
  | provide (value : T)
  | closeInput

variable {T R E : Type}

/-- The results that were delivered. -/
def World.delivered (w : World T R E) : List (StreamResult R E) := w.ends.filterMap Prod.snd

/-- A worker gives up the value it has numbered. -/
def World.drop (w : World T R E) (index : Nat) : World T R E :=
  { w with ends := w.ends ++ [(index, none)] }

def World.cancel (w : World T R E) (cause : String) : World T R E :=
  { w with cancelled := some (w.cancelled.getD cause) }

/-- One step of a call. -/
def callerStep (i : Nat) (label : Label R E) (call : Call) (point : Point R E)
    (w : World T R E) : Option (Progress (World T R E) (Local T R E)) :=
  let at_ (point : Point R E) (w : World T R E) : Progress (World T R E) (Local T R E) :=
    ⟨.caller call point, w, none⟩
  match call, point with
  | _, .returned _ => none
  | .consume, .start => some (at_ .waiting { w with results := w.results.await })
  | .consume, .waiting =>
    match label with
    | .receive =>
      match w.results.receive with
      | some (result, results) =>
        some (at_ (.returned (.result result)) { w with results := results })
      | none =>
        if w.results.closed then
          some (at_ (.returned .drained) { w with results := w.results.quit })
        else none
    | .done =>
      -- a consumer may turn to something else as long as it was given nothing
      if w.results.room then some (at_ (.returned .left) { w with results := w.results.quit })
      else none
    | _ => none
  | .close, .start => some (at_ .waiting (w.cancel "context canceled"))
  | .close, .waiting => if w.done then some (at_ (.returned .closed) w) else none
  | .wait, .start => some (at_ .waiting w)
  | .wait, .waiting =>
    if w.done then some (at_ (.returned (.waited w.err)) w)
    else (w.causes i).map fun cause => at_ (.returned (.canceled cause)) w

/-- One step of a worker. -/
def workerStep (label : Label R E) (phase : Phase T R E) (w : World T R E) :
    Option (Progress (World T R E) (Local T R E)) :=
  let at_ (phase : Phase T R E) (w : World T R E) : Progress (World T R E) (Local T R E) :=
    ⟨.worker phase, w, none⟩
  match phase with
  | .acquire =>
    match label with
    | .send => if w.gate then none else some (at_ .gated { w with gate := true })
    | .done => if w.cancelled.isSome then some (at_ .exiting w) else none
    | _ => none
  | .gated =>
    if w.cancelled.isSome then some (at_ (.release none) w)
    else some (at_ .receiving { w with input := w.input.await })
  | .receiving =>
    match label with
    | .receive =>
      match w.input.receive with
      | some (value, input) =>
        some (at_ (.numbering value) { w with input := input, received := w.received ++ [value] })
      | none =>
        if w.input.closed then some (at_ (.release none) { w with input := w.input.quit }) else none
    | .done =>
      if w.cancelled.isSome ∧ w.input.room then
        some (at_ (.release none) { w with input := w.input.quit })
      else none
    | _ => none
  | .numbering value =>
    some (at_ (.release (some (value, w.next))) { w with next := w.next + 1 })
  | .release received =>
    let w' := { w with gate := false }
    match received with
    | none => some (at_ .exiting w')
    | some (value, index) => some (at_ (.check value index) w')
  | .check value index =>
    if w.cancelled.isSome then some (at_ .exiting (w.drop index))
    else some (at_ (.calling value index) w)
  | .calling value index =>
    match label with
    | .returns result err =>
      some (at_ (.delivering ⟨index, result, err⟩)
        { w with applied := w.applied ++ [⟨index, value, result, err⟩] })
    | _ => none
  | .delivering result =>
    match label with
    | .send =>
      if w.results.closed then some ⟨.panicked, w, none⟩
      else if w.results.room then
        some (at_ .acquire { w with
          results := w.results.send result, ends := w.ends ++ [(result.index, some result)] })
      else none
    | .done => if w.cancelled.isSome then some (at_ .exiting (w.drop result.index)) else none
    | _ => none
  | .exiting => some (at_ .exited { w with workers := w.workers - 1 })
  | .exited => none

/-- One step of the goroutine that ends the stream. -/
def enderStep (stage : Ending) (w : World T R E) :
    Option (Progress (World T R E) (Local T R E)) :=
  let at_ (stage : Ending) (w : World T R E) : Progress (World T R E) (Local T R E) :=
    ⟨.ender stage, w, none⟩
  match stage with
  | .workers => if w.workers = 0 then some (at_ .cancel { w with err := w.cancelled }) else none
  | .cancel => some (at_ .results (w.cancel "context canceled"))
  | .results =>
    if w.results.closed then some ⟨.panicked, w, none⟩
    else some (at_ .done { w with results := w.results.close })
  | .done =>
    if w.done then some ⟨.panicked, w, none⟩ else some (at_ .finished { w with done := true })
  | .finished => none

def step (i : Nat) (label : Label R E) (l : Local T R E) (w : World T R E) :
    Option (Progress (World T R E) (Local T R E)) :=
  match l with
  | .caller call point => callerStep i label call point w
  | .worker phase => workerStep label phase w
  | .ender stage => enderStep stage w
  | .panicked => none

/-- A context keeps its first cause; a producer's send waits for room in the channel. -/
def shift (change : Change T) (w : World T R E) : World T R E :=
  match change with
  | .cancelCall call cause =>
    { w with causes := Function.update w.causes call (some ((w.causes call).getD cause)) }
  | .cancel cause => w.cancel cause
  | .provide value =>
    if w.input.closed ∨ ¬ w.input.room then w else { w with input := w.input.send value }
  | .closeInput => { w with input := w.input.close }

def stream (T R E : Type) : System (World T R E) (Local T R E) (Label R E) (Change T) Call where
  enter call _ := .caller call .start
  step := step
  shift := shift

/-- A stream that `MapStream` has just returned; the first threads are its workers. -/
def initial (T R E : Type) (c : Config) : Crew (World T R E) (Local T R E) where
  world :=
    { gate := false, input := .make c.inputCap, next := 0, results := .make 0
      workers := c.limit, err := none, done := false, cancelled := none, causes := fun _ => none
      received := [], applied := [], ends := [] }
  threads := List.replicate c.limit (.worker .acquire) ++ [.ender .workers]

end Fries.Parallel.Stream
