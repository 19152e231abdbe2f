import Fries.Lib.Threads
import Fries.Retry.Backoff
import Fries.Retry.Errors

/-! One call of `DoValue`, in a world that records executions, notifications and waits. -/
namespace Fries.Retry

variable {T E F C : Type}

def defaultMaxAttempts : Nat := 3
def defaultInitialDelay : Int := 100 * millisecond
def defaultMaximumDelay : Int := second

/-- The configuration. A function is given by the caller or is the default one; notifications can
be off. -/
structure Config (F : Type) where
  maxAttempts : Nat
  backoff : Option F
  retryIf : Option F
  notify : Option F
  maxAttempts_pos : 1 ≤ maxAttempts

inductive Opt (F : Type) where
  | withMaxAttempts (attempts : Int)
  | withBackoff (backoff : Option F)
  | withRetryIf (predicate : Option F)
  | withNotify (notify : Option F)

theorem toNat_pos {attempts : Int} (h : 1 ≤ attempts) : 1 ≤ attempts.toNat := by omega

def Opt.apply (c : Config F) : Opt F → Config F
  | .withMaxAttempts attempts =>
    if h : 1 ≤ attempts then
      { c with maxAttempts := attempts.toNat, maxAttempts_pos := toNat_pos h }
    else c
  | .withBackoff backoff => { c with backoff := backoff <|> c.backoff }
  | .withRetryIf predicate => { c with retryIf := predicate <|> c.retryIf }
  | .withNotify notify => { c with notify }

/-- Options that are nil are skipped. -/
def newConfig (options : List (Option (Opt F))) : Config F :=
  (options.filterMap id).foldl Opt.apply
    { maxAttempts := defaultMaxAttempts, backoff := none, retryIf := none, notify := none
      maxAttempts_pos := Nat.succ_pos 2 }

structure Event (E : Type) where
  attempt : Nat
  maxAttempts : Nat
  err : Err E
  delay : Int

/-- An execution of the operation: what it returned, the error of the context when it did, the
notifications about it, the wait after it, and the error of the context when that ended. -/
structure Execution (T E F C : Type) where
  value : T
  err : Option (Err E)
  canceled : Option C
  notified : List (F × Event E)
  wait : Option Int
  woke : Option C

/-- The error `DoValue` returns: that of the context or one of the operation. -/
inductive Failure (E C : Type) where
  | context (err : C)
  | operation (err : Err E)

/-- The state of the context, and what has happened: for each start of the operation the error of
the context then, and each execution that is over with what came after it. -/
structure World (T E F C : Type) where
  canceled : Option C
  starts : List (Option C)
  executions : List (Execution T E F C)

def World.record (w : World T E F C) (x : Execution T E F C) : World T E F C :=
  { w with executions := w.executions ++ [x] }

/-- An execution that has failed. -/
structure Failed (T E C : Type) where
  value : T
  err : Err E
  canceled : Option C

def Failed.ended (x : Failed T E C) : Execution T E F C :=
  ⟨x.value, some x.err, x.canceled, [], none, none⟩

def Failed.slept (x : Failed T E C) (notified : List (F × Event E)) (delay : Int)
    (woke : Option C) : Execution T E F C :=
  ⟨x.value, some x.err, x.canceled, notified, some delay, woke⟩

/-- Where the loop is. -/
inductive Phase (T E F C : Type) where
  | checking (attempt : Nat) (result : T)
  | executing (attempt : Nat)
  | failed (attempt : Nat) (x : Failed T E C)
  | deciding (attempt : Nat) (x : Failed T E C)
  | delaying (attempt : Nat) (x : Failed T E C)
  | notifying (attempt : Nat) (x : Failed T E C) (delay : Int)
  | waiting (attempt : Nat) (x : Failed T E C) (notified : List (F × Event E)) (delay : Int)
  | returned (value : T) (failure : Option (Failure E C))

/-- What a function of the caller answers, and which side of a `select` is taken. -/
inductive Label (T E : Type) where
  | step
  | operation (value : T) (err : Option (Err E))
  | predicate (answer : Bool)
  | backoff (delay : Int)
  | timer
  | done

section Loop

variable (isContext : E → Bool) (c : Config F)

def decided (answer : Bool) (attempt : Nat) (x : Failed T E C) (w : World T E F C) :
    Progress (World T E F C) (Phase T E F C) :=
  if answer then ⟨.delaying attempt x, w, none⟩
  else ⟨.returned x.value (some (.operation (inspectError x.err).cause)), w.record x.ended, none⟩

/-- The delay before the next attempt: an override goes before the backoff. -/
def nextDelay (err : Err E) (backoff : Int) : Int :=
  match (inspectError err).overrideDelay with
  | some delay => delay
  | none => max backoff 0

/-- The notification before a wait, if there is a function for it. -/
def notification (attempt : Nat) (err : Err E) (delay : Int) : List (F × Event E) :=
  c.notify.toList.map fun f => (f, ⟨attempt, c.maxAttempts, (inspectError err).cause, delay⟩)

def step (label : Label T E) (phase : Phase T E F C) (w : World T E F C) :
    Option (Progress (World T E F C) (Phase T E F C)) :=
  match phase with
  | .checking attempt result =>
    match w.canceled with
    | some err => some ⟨.returned result (some (.context err)), w, none⟩
    | none => some ⟨.executing attempt, { w with starts := w.starts ++ [w.canceled] }, none⟩
  | .executing attempt =>
    match label with
    | .operation value none =>
      some ⟨.returned value none, w.record ⟨value, none, w.canceled, [], none, none⟩, none⟩
    | .operation value (some err) => some ⟨.failed attempt ⟨value, err, w.canceled⟩, w, none⟩
    | _ => none
  | .failed attempt x =>
    match w.canceled with
    | some err => some ⟨.returned x.value (some (.context err)), w.record x.ended, none⟩
    | none =>
      if (inspectError x.err).permanent = true ∨ attempt = c.maxAttempts then
        some ⟨.returned x.value (some (.operation (inspectError x.err).cause)),
          w.record x.ended, none⟩
      else some ⟨.deciding attempt x, w, none⟩
  | .deciding attempt x =>
    match c.retryIf, label with
    | none, _ => some (decided (defaultRetryIf isContext (inspectError x.err).cause) attempt x w)
    | some _, .predicate answer => some (decided answer attempt x w)
    | some _, _ => none
  | .delaying attempt x =>
    match c.backoff, label with
    | none, _ =>
      -- No operation of the default strategy overflows on an attempt of 64 bits.
      let delay := Strategy.exponentialDelay defaultInitialDelay defaultMaximumDelay attempt
      some ⟨.notifying attempt x (nextDelay x.err (delay.getD 0)), w, none⟩
    | some _, .backoff delay => some ⟨.notifying attempt x (nextDelay x.err delay), w, none⟩
    | some _, _ => none
  | .notifying attempt x delay =>
    some ⟨.waiting attempt x (notification c attempt x.err delay) delay, w, none⟩
  | .waiting attempt x notified delay =>
    let slept := w.record (x.slept notified delay w.canceled)
    if delay = 0 then
      match w.canceled with
      | some err => some ⟨.returned x.value (some (.context err)), slept, none⟩
      | none => some ⟨.checking (attempt + 1) x.value, slept, none⟩
    else
      match label, w.canceled with
      | .done, some err => some ⟨.returned x.value (some (.context err)), slept, none⟩
      | .timer, _ => some ⟨.checking (attempt + 1) x.value, slept, none⟩
      | _, _ => none
  | .returned .. => none

/-- A call of `DoValue`. What else happens is that the context is canceled, which it is once. -/
def doValue : System (World T E F C) (Phase T E F C) (Label T E) C Empty where
  enter call := call.elim
  step _ := step isContext c
  shift err w := { w with canceled := some (w.canceled.getD err) }

end Loop

def initial (E F : Type) (canceled : Option C) (zero : T) :
    Crew (World T E F C) (Phase T E F C) where
  world := ⟨canceled, [], []⟩
  threads := [.checking 1 zero]

end Fries.Retry
