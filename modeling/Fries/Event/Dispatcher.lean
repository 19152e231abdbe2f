import Fries.Go
import Fries.Lib.Threads

/-! One `Dispatch` to the handlers of a type, serially or by workers that claim their positions. -/
namespace Fries.Event

/-- `ErrInvalidContext`, `ErrNilEvent`, and all other errors. -/
inductive Failure (E : Type)
  | invalidContext
  | nilEvent
  | other (err : E)

abbrev Error (E : Type) := Err (Failure E)

structure DispatchConfig where
  concurrency : Nat
  continueOnError : Bool
  concurrency_pos : 0 < concurrency

inductive DispatchOption
  | withConcurrency (limit : Int)
  | continueOnError

theorem concurrency_pos {limit : Int} (h : 0 < limit) : 0 < limit.toNat := by omega

def DispatchOption.apply (c : DispatchConfig) : DispatchOption → DispatchConfig
  | .withConcurrency limit =>
    if h : 0 < limit then ⟨limit.toNat, c.continueOnError, concurrency_pos h⟩ else c
  | .continueOnError => { c with continueOnError := true }

def newDispatchConfig (options : List (Option DispatchOption)) : DispatchConfig :=
  (options.filterMap id).foldl DispatchOption.apply ⟨1, false, Nat.one_pos⟩

section Errors

variable {E : Type}

def compactErrors (errs : List (Option (Error E))) : List (Error E) := errs.filterMap id

/-- The cause is left out if one of the errors is it already, in the sense of `errors.Is`. -/
def appendContextCause (errorsIs : Error E → Error E → Bool) (errs : List (Option (Error E)))
    (cause : Option (Error E)) : List (Error E) :=
  match cause with
  | none => compactErrors errs
  | some cause =>
    if (compactErrors errs).any (errorsIs · cause) then compactErrors errs
    else compactErrors errs ++ [cause]

def joinErrors : List (Error E) → Option (Error E)
  | [] => none
  | [err] => some err
  | errs => Err.join (errs.map some)

end Errors

/-- The causes of the contexts of caller and handlers, and what the workers share. `next` is the
index claimed next, `nextIndex` plus one, and counts the handlers of a serial dispatch. The rest is
history: the handlers called, and what became of each index. -/
structure World (E : Type) where
  cause : Option (Error E)
  runCause : Option (Error E)
  next : Nat
  results : List (Option (Error E))
  firstError : Option (Error E)
  running : Nat
  calls : List Nat
  ends : List (Nat × Option (Option (Error E)))

/-- Where `Dispatch` is. -/
inductive Stage (E : Type)
  | start (nilContext nilEvent : Bool)
  | serial (errs : List (Error E))
  | serialCalling (index : Nat) (errs : List (Error E))
  | serialReturned (errs : List (Error E))
  | spawning (left : Nat)
  | waiting
  | returned (err : Option (Error E))

/-- Where a worker is. -/
inductive Phase (E : Type)
  | checking
  | claiming
  | claimed (index : Nat)
  | calling (index : Nat)
  | reporting (index : Nat) (err : Error E)
  | exiting
  | exited

inductive Local (E : Type)
  | dispatcher (stage : Stage E)
  | worker (phase : Phase E)

/-- What a handler returns. -/
inductive Label (E : Type)
  | step
  | returns (result : Option (Error E))

/-- The caller's context is canceled, and the other one learns of it. -/
inductive Change (E : Type)
  | cancel (cause : Error E)
  | propagate

section Dispatch

variable {E : Type} (errorsIs : Error E → Error E → Bool) (entries : Nat) (c : DispatchConfig)

/-- `Cause(runCtx) != nil`; only a dispatch that stops on errors has a context of its own. -/
def World.canceled (w : World E) : Bool :=
  if c.continueOnError then w.cause.isSome else w.runCause.isSome

/-- One step of `Dispatch`. -/
def dispatcherStep (label : Label E) (stage : Stage E) (w : World E) :
    Option (Progress (World E) (Local E)) :=
  let at_ (stage : Stage E) (w : World E) : Progress (World E) (Local E) :=
    ⟨.dispatcher stage, w, none⟩
  match stage with
  | .start nilContext nilEvent =>
    if nilContext then some (at_ (.returned (some (.of .invalidContext))) w)
    else if nilEvent then some (at_ (.returned (some (.of .nilEvent))) w)
    else if w.cause.isSome then some (at_ (.returned w.cause) w)
    else if entries = 0 then some (at_ (.returned none) w)
    else if c.concurrency = 1 ∨ entries = 1 then some (at_ (.serial []) w)
    else some (at_ (.spawning (min c.concurrency entries)) w)
  | .serial errs =>
    if w.next < entries then
      if w.cause.isSome then
        some (at_ (.returned (joinErrors (appendContextCause errorsIs (errs.map some) w.cause))) w)
      else
        some (at_ (.serialCalling w.next errs)
          { w with next := w.next + 1, calls := w.calls ++ [w.next] })
    else some (at_ (.returned (joinErrors errs)) w)
  | .serialCalling index errs =>
    match label with
    | .returns result =>
      let errs := errs ++ result.toList
      let w := { w with ends := w.ends ++ [(index, some result)] }
      if result.isSome ∧ c.continueOnError = false then
        some (at_ (.returned (joinErrors (appendContextCause errorsIs (errs.map some) w.cause))) w)
      else some (at_ (.serialReturned errs) w)
    | .step => none
  | .serialReturned errs =>
    if w.cause.isSome then
      some (at_ (.returned (joinErrors (appendContextCause errorsIs (errs.map some) w.cause))) w)
    else some (at_ (.serial errs) w)
  | .spawning 0 => some (at_ .waiting w)
  | .spawning (left + 1) =>
    some ⟨.dispatcher (.spawning left), { w with running := w.running + 1 }, some (.worker .checking)⟩
  | .waiting =>
    if w.running = 0 then
      let errs := if c.continueOnError then (compactErrors w.results).map some else [w.firstError]
      some (at_ (.returned (joinErrors (appendContextCause errorsIs errs w.cause))) w)
    else none
  | .returned _ => none

/-- One step of a worker. -/
def workerStep (label : Label E) (phase : Phase E) (w : World E) :
    Option (Progress (World E) (Local E)) :=
  let at_ (phase : Phase E) (w : World E) : Progress (World E) (Local E) :=
    ⟨.worker phase, w, none⟩
  match phase with
  | .checking => some (at_ (if w.canceled c then .exiting else .claiming) w)
  | .claiming => some (at_ (.claimed w.next) { w with next := w.next + 1 })
  | .claimed index =>
    if entries ≤ index ∨ w.canceled c = true then
      some (at_ .exiting { w with ends := w.ends ++ [(index, none)] })
    else some (at_ (.calling index) { w with calls := w.calls ++ [index] })
  | .calling index =>
    match label with
    | .returns none => some (at_ .checking { w with ends := w.ends ++ [(index, some none)] })
    | .returns (some err) =>
      if c.continueOnError then
        some (at_ .checking { w with
          results := w.results.set index (some err), ends := w.ends ++ [(index, some (some err))] })
      else some (at_ (.reporting index err) w)
    | .step => none
  | .reporting index err =>
    let w := { w with ends := w.ends ++ [(index, some (some err))] }
    -- only the first error gets into `firstOnce`
    if w.firstError.isSome then some (at_ .exiting w)
    else some (at_ .exiting { w with firstError := some err, runCause := some (w.runCause.getD err) })
  | .exiting => some (at_ .exited { w with running := w.running - 1 })
  | .exited => none

def step (label : Label E) (l : Local E) (w : World E) : Option (Progress (World E) (Local E)) :=
  match l with
  | .dispatcher stage => dispatcherStep errorsIs entries c label stage w
  | .worker phase => workerStep entries c label phase w

/-- A context keeps its first cause. -/
def shift (change : Change E) (w : World E) : World E :=
  match change with
  | .cancel cause => { w with cause := some (w.cause.getD cause) }
  | .propagate => { w with runCause := w.runCause <|> w.cause }

def dispatch : System (World E) (Local E) (Label E) (Change E) Empty where
  enter call := nomatch call
  step _ := step errorsIs entries c
  shift := shift

end Dispatch

/-- A call of `Dispatch`. -/
def initial (E : Type) (nilContext nilEvent : Bool) (entries : Nat) : Crew (World E) (Local E) where
  world :=
    { cause := none, runCause := none, next := 0, results := List.replicate entries none
      firstError := none, running := 0, calls := [], ends := [] }
  threads := [.dispatcher (.start nilContext nilEvent)]

end Fries.Event
