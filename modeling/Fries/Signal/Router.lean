import Fries.Go
import Fries.Lib.Threads
import Mathlib.Data.List.Nodup

/-! A router of operating system signals. What is done under the mutex is one step. -/
namespace Fries.Signal

inductive RouterState
  | new
  | running
  | stopping
  | stopped
  deriving DecidableEq, Repr

inductive RouterError
  | alreadyStarted
  | registrationClosed
  | invalidHandler
  | invalidSignal (index : Option Nat)
  deriving DecidableEq, Repr

/-- What the errors say. -/
def RouterError.text : RouterError → String
  | .alreadyStarted => "signal: router already started or closed"
  | .registrationClosed => "signal: registration closed"
  | .invalidHandler => "signal: invalid handler"
  | .invalidSignal none => "signal: invalid signal"
  | .invalidSignal (some index) => "signal: invalid signal at index " ++ toString index

/-- The number of a registration, which is one less than its `id`, is its place in the list. Its
channel is kept by the router. -/
structure Registration (G H : Type) where
  handler : H
  signals : List G
  nodup : signals.Nodup

/-- A received signal and its number in the order of receipt. -/
abbrev Receipt (G : Type) := Nat × G

/-- The context of `Run` and the one the handlers get, the errors that came of contexts, and the
channel that the source sends to while it is subscribed. -/
structure Outside (G E : Type) where
  ctxErr : Option E
  canceled : Bool
  abortErr : Option E
  runErr : Option (Err E)
  subscribed : Bool
  capacity : Nat
  incoming : List G
  closed : Bool

/-- The router. `stop` and `done` count how often the channels were closed, `cancel` says whether
`Run` has set the function, and `working` are the registrations whose worker has not exited. The
rest is history: the signals received, taken by the workers, and handled. -/
structure World (G H E : Type) where
  state : RouterState
  registrations : List (Registration G H)
  stop : Nat
  done : Nat
  cancel : Bool
  pending : Nat → List (Receipt G)
  working : List Nat
  outside : Outside G E
  received : List G
  taken : Nat → List (Receipt G)
  calls : Nat → List (Receipt G)

/-- The registrations for each signal, both in the order in which they come up first. -/
abbrev Routes (G : Type) := List (G × List Nat)

/-- Where `Run` is after it has begun. -/
inductive RunPhase (G : Type)
  | spawning (next : Nat)
  | checking
  | polling
  | selecting
  | offering (receipt : Receipt G) (left : List Nat)
  | closing
  | unsubscribing
  | draining (next : Nat)
  | waiting
  | finishing

inductive WorkPhase (G : Type)
  | selecting
  | admitting (receipt : Receipt G)
  | handling (receipt : Receipt G)
  | leaving
  | gone

inductive StopPhase (E : Type)
  | beginning
  | checking
  | awaiting
  | aborting (err : E)
  | resulting
  | returned (err : Option (Err E))

inductive Local (G H E : Type)
  | registering (handler : Option H) (signals : List (Option G))
  | registered (err : Option RouterError)
  | calling
  | refused (err : RouterError)
  | starting
  | runner (routes : Routes G) (phase : RunPhase G)
  | canceling (err : Option (Err E))
  | ran (err : Option (Err E))
  | worker (registration : Nat) (phase : WorkPhase G)
  | stopper (phase : StopPhase E)

/-- A nil handler is `none`, and so is a signal that is nil or not comparable. -/
inductive Call (G H : Type)
  | register (handler : Option H) (signals : List (Option G))
  | run
  | shutdown

/-- Which channel a `select` took, that a handler returned or panicked, or that the context of a
`Shutdown` has ended. -/
inductive Label (E : Type)
  | step
  | ctxDone
  | stop
  | incoming
  | pending
  | handled
  | done
  | expired (err : E)

/-- The context of `Run` ends, the one derived from it does, and the source sends a signal or closes
its channel. -/
inductive Change (G E : Type)
  | cancel (err : E)
  | propagate
  | deliver (sig : G)
  | close

section Registering

variable {G H E : Type} [DecidableEq G]

abbrev Unique (G : Type) := { signals : List G // signals.Nodup }

def Unique.add (unique : Unique G) (sig : G) : Unique G :=
  if h : sig ∈ unique.1 then unique else ⟨unique.1.concat sig, unique.2.concat h⟩

/-- The loop of `Register`, or the index it fails at. -/
def uniqueSignals : List (Option G) → Nat → Unique G → Except Nat (Unique G)
  | [], _, unique => .ok unique
  | none :: _, index, _ => .error index
  | some sig :: rest, index, unique => uniqueSignals rest (index + 1) (unique.add sig)

def World.register (w : World G H E) (handler : Option H) (signals : List (Option G)) :
    World G H E × Option RouterError :=
  if w.state ≠ .new then (w, some .registrationClosed)
  else
    match handler with
    | none => (w, some .invalidHandler)
    | some handler =>
      if signals.length = 0 then (w, some (.invalidSignal none))
      else
        match uniqueSignals signals 0 ⟨[], List.nodup_nil⟩ with
        | .error index => (w, some (.invalidSignal (some index)))
        | .ok unique =>
          ({ w with registrations := w.registrations ++ [⟨handler, unique.1, unique.2⟩] }, none)

def Routes.add (routes : Routes G) (sig : G) (registration : Nat) : Routes G :=
  match routes with
  | [] => [(sig, [registration])]
  | (key, to_) :: rest =>
    if key = sig then (key, to_ ++ [registration]) :: rest
    else (key, to_) :: Routes.add rest sig registration

def Routes.lookup (routes : Routes G) (sig : G) : List Nat :=
  match routes with
  | [] => []
  | (key, to_) :: rest => if key = sig then to_ else Routes.lookup rest sig

/-- `routes`, from the registration with this number on. -/
def routesFrom : List (Registration G H) → Nat → Routes G → Routes G
  | [], _, routes => routes
  | reg :: rest, j, routes =>
    routesFrom rest (j + 1) (reg.signals.foldl (fun routes sig => routes.add sig j) routes)

def World.routes (w : World G H E) : Routes G := routesFrom w.registrations 0 []

end Registering

section Steps

variable {G H E : Type}

def World.beginShutdown (w : World G H E) : World G H E :=
  match w.state with
  | .new => { w with state := .stopped, stop := w.stop + 1, done := w.done + 1 }
  | .running => { w with state := .stopping, stop := w.stop + 1 }
  | .stopping | .stopped => w

/-- A channel of a registration has room for one signal. -/
def World.offer (w : World G H E) (j : Nat) (receipt : Receipt G) : World G H E :=
  if w.state ≠ .running ∨ w.outside.canceled = true then w
  else if (w.pending j).length < 1 then
    { w with pending := Function.update w.pending j (w.pending j ++ [receipt]) }
  else w

def World.drain (w : World G H E) (j : Nat) : World G H E :=
  { w with pending := Function.update w.pending j (w.pending j).tail }

def World.take (w : World G H E) (j : Nat) (receipt : Receipt G) (rest : List (Receipt G)) :
    World G H E :=
  { w with
    pending := Function.update w.pending j rest
    taken := Function.update w.taken j (w.taken j ++ [receipt]) }

def World.call (w : World G H E) (j : Nat) (receipt : Receipt G) : World G H E :=
  { w with calls := Function.update w.calls j (w.calls j ++ [receipt]) }

def World.finish (w : World G H E) : World G H E :=
  { w with
    state := .stopped
    done := w.done + 1
    outside := { w.outside with
      runErr := Err.join [w.outside.ctxErr.map .of, w.outside.abortErr.map .of] } }

/-- The function `cancel`. -/
def World.cancelHandlers (w : World G H E) : World G H E :=
  { w with outside := { w.outside with canceled := true } }

/-- `Run` once it has made its routes. -/
def stepRun [DecidableEq G] (routes : Routes G) (label : Label E) (w : World G H E) :
    RunPhase G → Option (Progress (World G H E) (Local G H E))
  | .spawning next =>
    if next < w.registrations.length then
      some ⟨.runner routes (.spawning (next + 1)), { w with working := w.working ++ [next] },
        some (.worker next .selecting)⟩
    else some ⟨.runner routes .checking, w, none⟩
  | .checking =>
    if w.outside.canceled then some ⟨.runner routes .closing, w, none⟩
    else some ⟨.runner routes .polling, w, none⟩
  | .polling =>
    if 0 < w.stop then some ⟨.runner routes .closing, w, none⟩
    else some ⟨.runner routes .selecting, w, none⟩
  | .selecting =>
    match label with
    | .ctxDone =>
      if w.outside.canceled then some ⟨.runner routes .closing, w, none⟩ else none
    | .stop => if 0 < w.stop then some ⟨.runner routes .closing, w, none⟩ else none
    | .incoming =>
      match w.outside.incoming with
      | sig :: rest =>
        some ⟨.runner routes (.offering (w.received.length, sig) (routes.lookup sig)),
          { w with
            received := w.received ++ [sig], outside := { w.outside with incoming := rest } }, none⟩
      | [] => if w.outside.closed then some ⟨.runner routes .closing, w, none⟩ else none
    | _ => none
  | .offering _ [] => some ⟨.runner routes .checking, w, none⟩
  | .offering receipt (j :: left) =>
    some ⟨.runner routes (.offering receipt left), w.offer j receipt, none⟩
  | .closing => some ⟨.runner routes .unsubscribing, w.beginShutdown, none⟩
  | .unsubscribing =>
    some ⟨.runner routes (.draining 0),
      { w with outside := { w.outside with subscribed := false } }, none⟩
  | .draining next =>
    if next < w.registrations.length then
      some ⟨.runner routes (.draining (next + 1)), w.drain next, none⟩
    else some ⟨.runner routes .waiting, w, none⟩
  | .waiting => if w.working = [] then some ⟨.runner routes .finishing, w, none⟩ else none
  | .finishing => some ⟨.canceling w.finish.outside.runErr, w.finish, none⟩

/-- The worker of a registration. -/
def stepWork (j : Nat) (label : Label E) (w : World G H E) :
    WorkPhase G → Option (Progress (World G H E) (Local G H E))
  | .selecting =>
    match label with
    | .stop => if 0 < w.stop then some ⟨.worker j .leaving, w, none⟩ else none
    | .pending =>
      match w.pending j with
      | receipt :: rest => some ⟨.worker j (.admitting receipt), w.take j receipt rest, none⟩
      | [] => none
    | _ => none
  | .admitting receipt =>
    if w.state = .running ∧ w.outside.canceled = false then
      some ⟨.worker j (.handling receipt), w.call j receipt, none⟩
    else some ⟨.worker j .leaving, w, none⟩
  | .handling _ =>
    match label with
    | .handled => some ⟨.worker j .selecting, w, none⟩
    | _ => none
  | .leaving => some ⟨.worker j .gone, { w with working := w.working.erase j }, none⟩
  | .gone => none

/-- A call of `Shutdown`. -/
def stepStop (label : Label E) (w : World G H E) :
    StopPhase E → Option (Progress (World G H E) (Local G H E))
  | .beginning => some ⟨.stopper .checking, w.beginShutdown, none⟩
  | .checking =>
    if 0 < w.done then some ⟨.stopper .resulting, w, none⟩ else some ⟨.stopper .awaiting, w, none⟩
  | .awaiting =>
    match label with
    | .done => if 0 < w.done then some ⟨.stopper .resulting, w, none⟩ else none
    | .expired err => some ⟨.stopper (.aborting err), w, none⟩
    | _ => none
  | .aborting err =>
    if w.state = .stopped then some ⟨.stopper (.returned w.outside.runErr), w, none⟩
    else
      some ⟨.stopper (.returned (some (.of err))),
        { w with outside := { w.outside with
          abortErr := some (w.outside.abortErr.getD err), canceled := true } }, none⟩
  | .resulting => some ⟨.stopper (.returned w.outside.runErr), w, none⟩
  | .returned _ => none

def step [DecidableEq G] (label : Label E) (l : Local G H E) (w : World G H E) :
    Option (Progress (World G H E) (Local G H E)) :=
  match l with
  | .registering handler signals =>
    some ⟨.registered (w.register handler signals).2, (w.register handler signals).1, none⟩
  | .calling =>
    if w.state ≠ .new then some ⟨.refused .alreadyStarted, w, none⟩
    else
      some ⟨.starting, { w with
        state := .running, cancel := true
        outside := { w.outside with canceled := w.outside.ctxErr.isSome } }, none⟩
  | .starting =>
    -- the source is only subscribed to if there is something to subscribe to
    some ⟨.runner w.routes (.spawning 0),
      { w with outside := { w.outside with
        subscribed := w.outside.ctxErr.isNone && decide (0 < w.routes.length)
        capacity := max 1 w.routes.length } }, none⟩
  | .runner routes phase => stepRun routes label w phase
  | .canceling err => some ⟨.ran err, w.cancelHandlers, none⟩
  | .worker j phase => stepWork j label w phase
  | .stopper phase => stepStop label w phase
  | .registered _ | .refused _ | .ran _ => none

def shift (change : Change G E) (w : World G H E) : World G H E :=
  { w with outside :=
      match change with
      | .cancel err => { w.outside with ctxErr := some (w.outside.ctxErr.getD err) }
      | .propagate =>
        { w.outside with
          canceled := w.outside.canceled || (w.cancel && w.outside.ctxErr.isSome) }
      | .deliver sig =>
        -- the source drops a signal rather than wait
        if w.outside.subscribed && decide (w.outside.incoming.length < w.outside.capacity) then
          { w.outside with incoming := w.outside.incoming ++ [sig] }
        else w.outside
      | .close => { w.outside with closed := true } }

def enter : Call G H → Local G H E
  | .register handler signals => .registering handler signals
  | .run => .calling
  | .shutdown => .stopper .beginning

def router [DecidableEq G] :
    System (World G H E) (Local G H E) (Label E) (Change G E) (Call G H) where
  enter call _ := enter call
  step _ := step
  shift := shift

end Steps

/-- `New`. -/
def newRouter (G H E : Type) : Crew (World G H E) (Local G H E) :=
  ⟨⟨.new, [], 0, 0, false, fun _ => [], [], ⟨none, false, none, none, false, 0, [], false⟩, [],
    fun _ => [], fun _ => []⟩, []⟩

end Fries.Signal
