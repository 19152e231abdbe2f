import Fries.Go
import Fries.Lib.Threads

/-! The debouncer: callers and one worker. Each section under the mutex is one step. -/
namespace Fries.Debounce

inductive OptionError
  | invalidContext
  | canceled (cause : String)
  | invalidDelay
  | nilHandler
  deriving DecidableEq

structure Config where
  delay : Int
  onError : Bool
  delay_pos : 0 < delay

/-- The checks of `New`. An option sets the callback, which may be nil; nil options are ignored. -/
def newConfig (ctx : Ctx) (delay : Int) (handler : Bool) (options : List (Option Bool)) :
    Except OptionError Config :=
  match ctx with
  | .nil => .error .invalidContext
  | .done cause => .error (.canceled cause)
  | .live =>
    if h : delay ≤ 0 then .error .invalidDelay
    else if ¬ handler then .error .nilHandler
    else .ok ⟨delay, options.foldl (fun set option => option.getD set) false, by omega⟩

/-- A value that was accepted: its place among the accepted values and the time of its trigger. -/
structure Item (T : Type) where
  seq : Nat
  value : T
  time : Int
  deriving DecidableEq

/-- What an invocation is completed with. -/
inductive Result (E : Type)
  | closed
  | handled (err : Option E)
  deriving DecidableEq

/-- An invocation; its value is none once `complete` has put the zero value there. -/
structure Invocation (T E : Type) where
  value : Option (Item T)
  due : Int
  result : Option (Result E)

/-- The fields of the debouncer, the invocations by the order they were made in, the clock, and
the causes of the contexts. The rest is history: the values accepted, selected, handed over,
finished, replaced, discarded and frozen. -/
structure World (T E : Type) where
  closed : Bool
  cancelled : Option String
  wake : Bool
  done : Bool
  made : Nat
  invocations : Nat → Invocation T E
  pending : Option Nat
  ready : Option Nat
  running : Option Nat
  clock : Int
  causes : Nat → Option String
  accepted : List (Item T)
  handed : List (Item T × Int)
  calls : List (Option (Item T) × Int)
  finished : List (Item T)
  replaced : List (Item T × Item T)
  discarded : List (Item T)
  frozen : List (Item T)

/-- Calls; a flush with whether its context is not nil. -/
inductive Call (T : Type)
  | trigger (value : T)
  | flush (ctx : Bool)
  | close
  deriving DecidableEq

/-- What a flush returns. -/
inductive Outcome (E : Type)
  | invalidContext
  | closed
  | canceled (cause : String)
  | result (err : Option E)
  deriving DecidableEq

/-- Where a flush is. -/
inductive Point (E : Type)
  | start
  | select
  | waiting (call : Nat) (retry : Bool)
  | recheck
  | returned (outcome : Outcome E)
  deriving DecidableEq

/-- Where the worker is. -/
inductive Phase (T E : Type)
  | next
  | waiting (tick : Option Int)
  | executing (call : Nat)
  | handling (call : Nat) (value : Option (Item T))
  | notifying (call : Nat) (value : Option (Item T)) (err : Option E)
  | completing (call : Nat) (err : Option E)
  | stopping
  | closing
  | exited
  deriving DecidableEq

/-- Where a close is. -/
inductive Closing
  | start
  | waiting
  | returned
  deriving DecidableEq

/-- The goroutines; a trigger that is over has been accepted or not, and a flush knows how many
values were accepted when it was called. -/
inductive Local (T E : Type)
  | trigger (value : T) (accepted : Option Bool)
  | flush (ctx : Bool) (before : Nat) (point : Point E)
  | close (stage : Closing)
  | worker (phase : Phase T E)
  | watcher (done : Bool)
  | panicked
  deriving DecidableEq

/-- Which case of a select is taken, or what the handler returns. -/
inductive Label (E : Type)
  | wake
  | tick
  | done
  | returns (err : Option E)

inductive Change
  | cancelCall (call : Nat) (cause : String)
  | cancel (cause : String)
  | advance (time : Nat)

section Step

variable {T E : Type}

def World.item (w : World T E) (call : Nat) : Option (Item T) := (w.invocations call).value

/-- The value in a slot, if there is one. -/
def World.slot (w : World T E) (slot : Option Nat) : List (Item T) :=
  (slot.bind w.item).toList

/-- The debouncer refuses triggers and flushes, and its worker goes no further. -/
def World.over (w : World T E) : Bool := w.closed || w.cancelled.isSome

/-- `Trigger` on a debouncer that is not over. -/
def World.trigger (delay : Int) (value : T) (w : World T E) : World T E :=
  let item : Item T := ⟨w.accepted.length, value, w.clock⟩
  let call := w.pending.getD w.made
  let old := if w.pending.isSome then w.invocations call else ⟨none, 0, none⟩
  { w with
    made := if w.pending.isSome then w.made else w.made + 1
    pending := some call
    invocations := Function.update w.invocations call
      { old with value := some item, due := w.clock + delay }
    wake := true
    accepted := w.accepted ++ [item]
    replaced := w.replaced ++ (w.slot w.pending).map fun old => (old, item) }

/-- `selectFlush` moves the pending invocation into the empty frozen slot. -/
def World.freeze (w : World T E) : World T E :=
  { w with
    ready := w.pending, pending := none, wake := true
    frozen := w.frozen ++ w.slot w.pending }

/-- What `selectFlush` returns: an error, or the invocation to wait for and whether to retry. -/
def selectFlush (w : World T E) : Option (Option Nat × Bool) × World T E :=
  if w.over then (none, w)
  else
    match w.ready, w.pending with
    | some call, pending => (some (some call, pending.isSome), w)
    | none, some call => (some (some call, false), w.freeze)
    | none, none => (some (w.running, false), w)

/-- `complete`, which panics if the invocation is complete. -/
def World.complete (call : Nat) (result : Result E) (w : World T E) : Option (World T E) :=
  if (w.invocations call).result.isSome then none
  else
    some { w with
      invocations := Function.update w.invocations call
        { w.invocations call with value := none, result := some result } }

/-- A slot is emptied by `stop`. -/
def World.discard (slot : Option Nat) (w : World T E) : Option (World T E) :=
  match slot with
  | none => some w
  | some call =>
    World.complete call .closed { w with discarded := w.discarded ++ (w.item call).toList }

def stop (w : World T E) : Option (World T E) :=
  if w.closed then some w
  else do
    let w := { w with closed := true, cancelled := some (w.cancelled.getD "context canceled") }
    let w ← w.discard w.pending
    let w ← World.discard w.ready { w with pending := none }
    some { w with ready := none, wake := true }

/-- The worker selects an invocation. -/
def World.take (call : Nat) (w : World T E) : World T E :=
  { w with
    running := some call
    handed := w.handed ++ (w.item call).toList.map fun item => (item, w.clock) }

/-- `next`, with where the worker goes on. -/
def next (w : World T E) : Phase T E × World T E :=
  if w.over then (.stopping, w)
  else
    match w.ready, w.pending with
    | some call, _ => (.executing call, { w.take call with ready := none })
    | none, none => (.waiting none, w)
    | none, some call =>
      let remaining := timeSub (w.invocations call).due w.clock
      if 0 < remaining then (.waiting (some (w.clock + remaining)), w)
      else (.executing call, { w.take call with pending := none })

/-- A step that calls `stop` on its way. -/
def stopping (l : Local T E) (w : World T E) : Progress (World T E) (Local T E) :=
  match stop w with
  | none => ⟨.panicked, w, none⟩
  | some w' => ⟨l, w', none⟩

/-- One step of a flush. -/
def flushStep (i : Nat) (ctx : Bool) (before : Nat) (point : Point E) (w : World T E) :
    Option (Progress (World T E) (Local T E)) :=
  let at_ (point : Point E) (w : World T E) : Progress (World T E) (Local T E) :=
    ⟨.flush ctx before point, w, none⟩
  match point with
  | .start =>
    if ¬ ctx then some (at_ (.returned .invalidContext) w)
    else
      match w.causes i with
      | some cause => some (at_ (.returned (.canceled cause)) w)
      | none => some (at_ .select w)
  | .select =>
    match selectFlush w with
    | (none, w') => some (at_ (.returned .closed) w')
    | (some (none, _), w') => some (at_ (.returned (.result none)) w')
    | (some (some call, retry), w') => some (at_ (.waiting call retry) w')
  | .waiting call retry =>
    -- a completed invocation comes before the end of the context
    match (w.invocations call).result with
    | none => (w.causes i).map fun cause => at_ (.returned (.canceled cause)) w
    | some result =>
      if retry then some (at_ .recheck w)
      else
        match result with
        | .closed => some (at_ (.returned .closed) w)
        | .handled err => some (at_ (.returned (.result err)) w)
  | .recheck =>
    match w.causes i with
    | some cause => some (at_ (.returned (.canceled cause)) w)
    | none => some (at_ .select w)
  | .returned _ => none

/-- One step of the worker. -/
def workerStep (c : Config) (label : Label E) (phase : Phase T E) (w : World T E) :
    Option (Progress (World T E) (Local T E)) :=
  let at_ (phase : Phase T E) (w : World T E) : Progress (World T E) (Local T E) :=
    ⟨.worker phase, w, none⟩
  match phase with
  | .next => some (at_ (next w).1 (next w).2)
  | .waiting tick =>
    match label with
    | .wake => if w.wake then some (at_ .next { w with wake := false }) else none
    | .tick =>
      match tick with
      | some time => if time ≤ w.clock then some (at_ .next w) else none
      | none => none
    | .done => if w.cancelled.isSome then some (stopping (.worker .next) w) else none
    | .returns _ => none
  | .executing call =>
    some (at_ (.handling call (w.item call))
      { w with calls := w.calls ++ [(w.item call, w.clock)] })
  | .handling call value =>
    match label with
    | .returns err =>
      if err.isSome ∧ c.onError then some (at_ (.notifying call value err) w)
      else some (at_ (.completing call err) { w with finished := w.finished ++ value.toList })
    | _ => none
  | .notifying call value err =>
    some (at_ (.completing call err) { w with finished := w.finished ++ value.toList })
  | .completing call err =>
    match w.complete call (.handled err) with
    | none => some ⟨.panicked, w, none⟩
    | some w' => some (at_ .next { w' with running := none })
  | .stopping => some (stopping (.worker .closing) w)
  | .closing =>
    if w.done then some ⟨.panicked, w, none⟩ else some (at_ .exited { w with done := true })
  | .exited => none

def step (c : Config) (i : Nat) (label : Label E) (l : Local T E) (w : World T E) :
    Option (Progress (World T E) (Local T E)) :=
  match l with
  | .trigger value none =>
    if w.over then some ⟨.trigger value (some false), w, none⟩
    else some ⟨.trigger value (some true), w.trigger c.delay value, none⟩
  | .flush ctx before point => flushStep i ctx before point w
  | .close .start => some (stopping (.close .waiting) w)
  | .close .waiting => if w.done then some ⟨.close .returned, w, none⟩ else none
  | .worker phase => workerStep c label phase w
  | .watcher false => if w.cancelled.isSome then some (stopping (.watcher true) w) else none
  | .trigger _ (some _) | .close .returned | .watcher true | .panicked => none

/-- A context keeps the cause it was canceled with first. -/
def shift (change : Change) (w : World T E) : World T E :=
  match change with
  | .cancelCall call cause =>
    { w with causes := Function.update w.causes call (some ((w.causes call).getD cause)) }
  | .cancel cause => { w with cancelled := some (w.cancelled.getD cause) }
  | .advance time => { w with clock := w.clock + time }

end Step

def debouncer (T E : Type) (c : Config) :
    System (World T E) (Local T E) (Label E) Change (Call T) where
  enter call w :=
    match call with
    | .trigger value => .trigger value none
    | .flush ctx => .flush ctx w.accepted.length .start
    | .close => .close .start
  step := step c
  shift := shift

/-- A debouncer that `New` has just returned. -/
def initial (T E : Type) (now : Int) : Crew (World T E) (Local T E) where
  world :=
    { closed := false, cancelled := none, wake := false, done := false, made := 0
      invocations := fun _ => ⟨none, 0, none⟩, pending := none, ready := none, running := none
      clock := now, causes := fun _ => none, accepted := [], handed := [], calls := []
      finished := [], replaced := [], discarded := [], frozen := [] }
  threads := [.worker .next, .watcher false]

end Fries.Debounce
