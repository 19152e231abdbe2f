import Fries.Go
import Fries.Lib.Threads

/-! Concurrent calls on a lifecycle `Runner`. A provider is its position in registration order. -/
namespace Fries.Lifecycle

/-- The providers, by the names of their types, and the timeout of `Run` and of a rollback. -/
structure Config where
  providers : List String
  shutdownTimeout : Int

inductive Setting
  | withProviders (providers : List (Option String))
  | withShutdownTimeout (timeout : Int)

def Setting.apply (c : Config) : Setting → Config
  | .withProviders providers => { c with providers := c.providers ++ providers.filterMap id }
  | .withShutdownTimeout timeout =>
    if 0 < timeout then { c with shutdownTimeout := timeout } else c

def defaultShutdownTimeout : Int := 5 * second

def newConfig (options : List (Option Setting)) : Config :=
  (options.filterMap id).foldl Setting.apply ⟨[], defaultShutdownTimeout⟩

def Config.typeName (c : Config) (i : Nat) : String := c.providers.getD i ""

/-- How contexts are made: `context.Background`, and a context that keeps only the values of
another and ends after a timeout. -/
structure Contexts (X : Type) where
  background : X
  withTimeout : X → Int → X

inductive RunnerState
  | new
  | starting
  | started
  | stopping
  | stopped
  deriving DecidableEq

inductive Failure (E : Type)
  | alreadyStarted
  | provider (phase : String) (type : String) (err : E)
  | nilContext (phase : String) (type : String)
  | handler (err : E)

/-- What a provider's method returns. -/
inductive Result (X E : Type)
  | fails (err : E)
  | nilContext
  | next (ctx : X)

variable {X E : Type}

def Result.error (phase type : String) : Result X E → Option (Err (Failure E))
  | .fails err => some (.of (.provider phase type err))
  | .nilContext => some (.of (.nilContext phase type))
  | .next _ => none

def Result.failed : Result X E → Bool
  | .next _ => false
  | _ => true

/-- The fields of the runner; a channel is none while it is nil, and then says whether it is
closed. The rest is history: the calls of the providers' methods and what they returned. -/
structure World (X E : Type) where
  state : RunnerState
  started : List Nat
  startDone : Option Bool
  stopDone : Option Bool
  shutdownErr : Option (Err (Failure E))
  bootCalls : List Nat
  boots : List (Nat × Result X E)
  stopCalls : List Nat
  stops : List (Nat × Result X E)

inductive Call (X : Type)
  | bootstrap (ctx : Option X)
  | shutdown (ctx : Option X)
  | run (ctx : Option X) (handler : Bool)

/-- For whom providers are shut down: for a `Bootstrap` that failed with an error, or for a
`Shutdown`, that of `Run` after the handler returned. -/
inductive Purpose (E : Type)
  | rollback (err : Err (Failure E))
  | shutdown (handled : Option (Err (Failure E)))

/-- Where a call is. A call returns with the state it found the runner in. -/
inductive Phase (X E : Type)
  | start
  | bootstrap (index : Nat) (ctx : X) (started : List Nat)
  | bootstrapping (index : Nat) (ctx : X) (started : List Nat)
  | bootstrapped (ctx : X) (started : List Nat)
  | handling (ctx : X)
  | observe (handled : Option (Err (Failure E))) (ctx : X)
  | awaitStart (handled : Option (Err (Failure E))) (ctx : X)
  | awaitStop (handled : Option (Err (Failure E))) (ctx : X)
  | shutdown (purpose : Purpose E) (ctx : X) (providers : List Nat) (errs : List (Err (Failure E)))
  | shuttingDown (purpose : Purpose E) (provider : Nat) (ctx : X) (providers : List Nat)
    (errs : List (Err (Failure E)))
  | shutDown (purpose : Purpose E) (ctx : X) (err : Option (Err (Failure E)))
  | returned (found : RunnerState) (ctx : Option X) (err : Option (Err (Failure E)))

/-- A call, with the state the runner was in when it was made. -/
inductive Local (X E : Type)
  | caller (call : Call X) (made : RunnerState) (phase : Phase X E)
  | panicked

/-- What a provider or the handler returns. -/
inductive Label (X E : Type)
  | step
  | returns (result : Result X E)
  | handled (err : Option E)

section Runner

variable (contexts : Contexts X) (c : Config)

def normalizeContext (ctx : Option X) : X := ctx.getD contexts.background

/-- How a call ends after `Bootstrap`. -/
def bootstrapReturns (call : Call X) (found : RunnerState) (ctx : X)
    (err : Option (Err (Failure E))) : Phase X E :=
  match call, err with
  | .run _ _, none => .handling ctx
  | .run _ _, some err => .returned found none (some err)
  | _, err => .returned found (some ctx) err

/-- How a call ends after `Shutdown`; a `Run` that gets there has found the runner new. -/
def shutdownReturns (call : Call X) (found : RunnerState) (handled : Option (Err (Failure E)))
    (ctx : X) (err : Option (Err (Failure E))) : Phase X E :=
  match call with
  | .run _ _ => .returned .new none (Err.join [handled, err])
  | _ => .returned found (some ctx) err

/-- `close`, which panics if the channel is nil or closed. -/
def closing (done : Option Bool) (n : Progress (World X E) (Local X E)) (w : World X E) :
    Progress (World X E) (Local X E) :=
  if done = some false then n else ⟨.panicked, w, none⟩

/-- One step of `Bootstrap`, and of `Run` up to its `Shutdown`. -/
def bootstrapStep (label : Label X E) (call : Call X) (made : RunnerState) (phase : Phase X E)
    (w : World X E) : Option (Progress (World X E) (Local X E)) :=
  let at_ (phase : Phase X E) (w : World X E) : Progress (World X E) (Local X E) :=
    ⟨.caller call made phase, w, none⟩
  match phase with
  | .start =>
    match call with
    | .bootstrap ctx | .run ctx _ =>
      let ctx := normalizeContext contexts ctx
      if w.state = .new then
        some (at_ (.bootstrap 0 ctx []) { w with state := .starting, startDone := some false })
      else some (at_ (bootstrapReturns call w.state ctx (some (.of .alreadyStarted))) w)
    | .shutdown ctx => some (at_ (.observe none (normalizeContext contexts ctx)) w)
  | .bootstrap index ctx started =>
    if index < c.providers.length then
      some (at_ (.bootstrapping index ctx started) { w with bootCalls := w.bootCalls ++ [index] })
    else some (at_ (.bootstrapped ctx started) w)
  | .bootstrapping index ctx started =>
    match label with
    | .returns result =>
      let w := { w with boots := w.boots ++ [(index, result)] }
      match result with
      | .next next => some (at_ (.bootstrap (index + 1) next (started ++ [index])) w)
      | result =>
        (result.error "bootstrap" (c.typeName index)).map fun err =>
          at_ (.shutdown (.rollback err) (contexts.withTimeout ctx c.shutdownTimeout)
            started.reverse []) w
    | _ => none
  | .bootstrapped ctx started =>
    some (closing w.startDone
      (at_ (bootstrapReturns call .new ctx none)
        { w with started := started, state := .started, startDone := some true }) w)
  | .handling ctx =>
    let ctx := contexts.withTimeout ctx c.shutdownTimeout
    match call, label with
    | .run _ true, .handled err => some (at_ (.observe (err.map fun err => .of (.handler err)) ctx) w)
    | .run _ true, _ => none
    | _, _ => some (at_ (.observe none ctx) w)
  | _ => none

/-- One step of `Shutdown`, and of the rollback of `Bootstrap`. -/
def shutdownStep (label : Label X E) (call : Call X) (made : RunnerState) (phase : Phase X E)
    (w : World X E) : Option (Progress (World X E) (Local X E)) :=
  let at_ (phase : Phase X E) (w : World X E) : Progress (World X E) (Local X E) :=
    ⟨.caller call made phase, w, none⟩
  match phase with
  | .observe handled ctx =>
    match w.state with
    | .new => some (at_ (shutdownReturns call .new handled ctx none) w)
    | .starting => some (at_ (.awaitStart handled ctx) w)
    | .started =>
      some (at_ (.shutdown (.shutdown handled) ctx w.started.reverse [])
        { w with state := .stopping, stopDone := some false })
    | .stopping => some (at_ (.awaitStop handled ctx) w)
    | .stopped => some (at_ (shutdownReturns call .stopped handled ctx w.shutdownErr) w)
  | .awaitStart handled ctx =>
    if w.startDone = some true then some (at_ (.observe handled ctx) w) else none
  | .awaitStop handled ctx =>
    if w.stopDone = some true then some (at_ (.observe handled ctx) w) else none
  | .shutdown purpose ctx [] errs => some (at_ (.shutDown purpose ctx (Err.join (errs.map some))) w)
  | .shutdown purpose ctx (provider :: providers) errs =>
    some (at_ (.shuttingDown purpose provider ctx providers errs)
      { w with stopCalls := w.stopCalls ++ [provider] })
  | .shuttingDown purpose provider ctx providers errs =>
    match label with
    | .returns result =>
      let errs := errs ++ (result.error "shutdown" (c.typeName provider)).toList
      let ctx := match result with
        | .next next => next
        | _ => ctx
      some (at_ (.shutdown purpose ctx providers errs)
        { w with stops := w.stops ++ [(provider, result)] })
    | _ => none
  | .shutDown (.rollback bootErr) ctx err =>
    some (closing w.startDone
      (at_ (bootstrapReturns call .new ctx (Err.join [some bootErr, err]))
        { w with state := .stopped, shutdownErr := err, startDone := some true }) w)
  | .shutDown (.shutdown handled) ctx err =>
    some (closing w.stopDone
      (at_ (shutdownReturns call .started handled ctx err)
        { w with started := [], shutdownErr := err, state := .stopped, stopDone := some true }) w)
  | _ => none

def step (label : Label X E) (l : Local X E) (w : World X E) :
    Option (Progress (World X E) (Local X E)) :=
  match l with
  | .caller call made phase =>
    match phase with
    | .start | .bootstrap .. | .bootstrapping .. | .bootstrapped .. | .handling .. =>
      bootstrapStep contexts c label call made phase w
    | _ => shutdownStep c label call made phase w
  | .panicked => none

def runner : System (World X E) (Local X E) (Label X E) Empty (Call X) where
  enter call w := .caller call w.state .start
  step _ := step contexts c
  shift change := nomatch change

end Runner

/-- A runner that `New` has just returned. -/
def initial (X E : Type) : Crew (World X E) (Local X E) where
  world :=
    { state := .new, started := [], startDone := none, stopDone := none, shutdownErr := none
      bootCalls := [], boots := [], stopCalls := [], stops := [] }
  threads := []

end Fries.Lifecycle
