import Fries.Event.Dispatcher
import Fries.Lib.Slice

/-! The listeners of a dispatcher. Each section under the lock is one step. -/
namespace Fries.Event.Registry

/-- What a listener defines, and an entry once the middleware has wrapped its handler. -/
structure Definition (T H : Type) where
  typeOf : T
  handler : H

structure Registration (T : Type) where
  typeOf : T
  entry : Nat

/-- What has become of a subscription: its `Subscribe` has not returned, or it has no listeners, or
it can be canceled, or an `Unsubscribe` is about to remove it, or has done so. -/
inductive Life
  | storing
  | vacant
  | live
  | claimed
  | removed
  deriving DecidableEq, Repr

/-- The code has the flag `active` only; `life` is history. -/
structure Subscription (T : Type) where
  registrations : List (Registration T)
  active : Bool
  life : Life

/-- The entries and the subscriptions are in the order in which they were made. -/
structure World (T H : Type) where
  memory : Slice.Memory (Option Nat)
  listeners : T → Option Slice
  entries : List (Definition T H)
  subscriptions : List (Subscription T)

structure DispatchCall (T : Type) where
  nilContext : Bool
  nilEvent : Bool
  typeOf : T
  options : List (Option DispatchOption)

/-- A `Dispatch` that has its copy of the entries. The rest is history: what the copy held at the
time, and what was read from it whenever a handler was called. -/
structure Dispatching (T E : Type) where
  call : DispatchCall T
  entries : Slice
  crew : Crew (Event.World E) (Event.Local E)
  taken : List Nat
  called : List (Option Nat)

/-- Where a call is. -/
inductive Local (T H E : Type)
  | subscribing (listeners : List (Option (Definition T H)))
  | storing (subscription : Nat)
  | subscribed (subscription : Nat)
  | panicked
  | unsubscribing (subscription : Nat)
  | removing (subscription : Nat)
  | unsubscribed (subscription : Nat) (result : Bool)
  | dispatching (call : DispatchCall T) (cause : Option (Error E))
  | dispatched (err : Error E)
  | running (d : Dispatching T E)

/-- The room that the runtime leaves in new arrays, or what happens in a dispatch. -/
inductive Label (E : Type)
  | step (spare : Nat → Nat)
  | inner (action : Action (Event.Label E) (Event.Change E) Empty)

/-- A number that no subscription has is a nil subscription. -/
inductive Call (T H : Type)
  | subscribe (listeners : List (Option (Definition T H)))
  | unsubscribe (subscription : Nat)
  | dispatch (call : DispatchCall T)

section Model

variable {T H E : Type} [DecidableEq T]

def World.slice (w : World T H) (typeOf : T) : Slice := (w.listeners typeOf).getD ⟨none, 0⟩

/-- The entries in the list of an event type. -/
def World.listed (w : World T H) (typeOf : T) : List (Option Nat) :=
  Slice.read w.memory (w.slice typeOf)

/-- The first loop of `Subscribe`, which panics at a nil listener and at a nil handler. -/
def newEntries (middleware : H → Option H) (listeners : List (Option (Definition T H))) :
    Option (List (Definition T H)) :=
  listeners.mapM fun listener => do
    let definition ← listener
    let handler ← middleware definition.handler
    return ⟨definition.typeOf, handler⟩

/-- One round of the second loop of `Subscribe`. -/
def World.add (w : World T H) (entry : Definition T H) (spare : Nat) : World T H :=
  let appended := Slice.append w.memory (w.slice entry.typeOf) (some w.entries.length) spare
  { w with
    memory := appended.1
    listeners := Function.update w.listeners entry.typeOf (some appended.2)
    entries := w.entries ++ [entry] }

def World.addAll (spare : Nat → Nat) : List (Definition T H) → World T H → List (Registration T) →
    World T H × List (Registration T)
  | [], w, registrations => (w, registrations)
  | entry :: entries, w, registrations =>
    World.addAll spare entries (w.add entry (spare w.entries.length))
      (registrations ++ [⟨entry.typeOf, w.entries.length⟩])

/-- One round of the loop of `Unsubscribe`, and whether it found the entry. -/
def World.remove (w : World T H) (r : Registration T) : World T H × Bool :=
  let held := w.listed r.typeOf
  let found := decide (some r.entry ∈ held)
  let left :=
    if found then
      Slice.deleteAt none w.memory (w.slice r.typeOf) (held.idxOf (some r.entry))
    else (w.memory, w.slice r.typeOf)
  ({ w with
      memory := left.1
      listeners := Function.update w.listeners r.typeOf
        (if left.2.len = 0 then none else some left.2) }, found)

def World.removeAll : List (Registration T) → World T H → Bool → World T H × Bool
  | [], w, removed => (w, removed)
  | r :: registrations, w, removed =>
    World.removeAll registrations (w.remove r).1 (removed || (w.remove r).2)

def World.setSubscription (w : World T H) (k : Nat) (active : Bool) (life : Life) : World T H :=
  { w with
    subscriptions := w.subscriptions.modify k fun s => { s with active := active, life := life } }

def World.active (w : World T H) (k : Nat) : Bool :=
  (w.subscriptions[k]?.map Subscription.active).getD false

def World.life (w : World T H) (k : Nat) : Option Life := w.subscriptions[k]?.map Subscription.life

def World.registrations (w : World T H) (k : Nat) : List (Registration T) :=
  (w.subscriptions[k]?.map Subscription.registrations).getD []

def World.subscribe (w : World T H) (s : Subscription T) : World T H :=
  { w with subscriptions := w.subscriptions ++ [s] }

variable (middleware : H → Option H) (errorsIs : Error E → Error E → Bool)

/-- One more action in a dispatch. A handler that it calls is read from the copy. -/
def Dispatching.next (d : Dispatching T E) (memory : Slice.Memory (Option Nat))
    (action : Action (Event.Label E) (Event.Change E) Empty) : Dispatching T E :=
  let crew :=
    (dispatch errorsIs d.entries.len (newDispatchConfig d.call.options)).next d.crew action
  let calls := crew.world.calls.drop d.crew.world.calls.length
  { d with
    crew := crew
    called := d.called ++ calls.map fun i => ((Slice.read memory d.entries)[i]?).join }

/-- The copy of the entries that a dispatch works with. -/
def snapshot (call : DispatchCall T) (spare : Nat) (w : World T H) : World T H × Dispatching T E :=
  let copy := Slice.clone w.memory (w.slice call.typeOf) spare
  ({ w with memory := copy.1 },
    { call := call
      entries := copy.2
      crew := initial E false false copy.2.len
      taken := (Slice.read copy.1 copy.2).filterMap id
      called := [] })

def subscribeStep (listeners : List (Option (Definition T H))) (spare : Nat → Nat)
    (w : World T H) : Progress (World T H) (Local T H E) :=
  if listeners.length = 0 then
    ⟨.subscribed w.subscriptions.length, w.subscribe ⟨[], false, .vacant⟩, none⟩
  else
    match newEntries middleware listeners with
    | none => ⟨.panicked, w, none⟩
    | some entries =>
      let added := World.addAll spare entries w []
      ⟨.storing w.subscriptions.length, added.1.subscribe ⟨added.2, false, .storing⟩, none⟩

/-- The context is looked at before the copy is made; nothing else sees that these are two steps,
as what is in between touches the context or the listeners only. -/
def dispatchStep (call : DispatchCall T) (cause : Option (Error E)) (spare : Nat)
    (w : World T H) : Progress (World T H) (Local T H E) :=
  if call.nilContext then ⟨.dispatched (.of .invalidContext), w, none⟩
  else if call.nilEvent then ⟨.dispatched (.of .nilEvent), w, none⟩
  else
    match cause with
    | some cause => ⟨.dispatched cause, w, none⟩
    | none =>
      let taken := snapshot call spare w
      -- what is done about the number of entries
      ⟨.running (taken.2.next errorsIs taken.1.memory (.run 0 .step)), taken.1, none⟩

/-- One step of a call. -/
def step (label : Label E) (l : Local T H E) (w : World T H) :
    Option (Progress (World T H) (Local T H E)) :=
  match l, label with
  | .subscribing listeners, .step spare => some (subscribeStep middleware listeners spare w)
  | .storing k, .step _ => some ⟨.subscribed k, w.setSubscription k true .live, none⟩
  | .unsubscribing k, .step _ =>
    -- `CompareAndSwap(true, false)`
    if w.active k then some ⟨.removing k, w.setSubscription k false .claimed, none⟩
    else some ⟨.unsubscribed k false, w, none⟩
  | .removing k, .step _ =>
    let removed := World.removeAll (w.registrations k) w false
    some ⟨.unsubscribed k removed.2, removed.1.setSubscription k false .removed, none⟩
  | .dispatching call cause, .step spare => some (dispatchStep errorsIs call cause (spare 0) w)
  | .dispatching call cause, .inner (.shift (.cancel err)) =>
    some ⟨.dispatching call (some (cause.getD err)), w, none⟩
  | .running d, .inner action => some ⟨.running (d.next errorsIs w.memory action), w, none⟩
  | _, _ => none

def enter (call : Call T H) : Local T H E :=
  match call with
  | .subscribe listeners => .subscribing listeners
  | .unsubscribe k => .unsubscribing k
  | .dispatch call => .dispatching call none

def registry : System (World T H) (Local T H E) (Label E) Empty (Call T H) where
  enter call _ := enter call
  step _ := step middleware errorsIs
  shift change := nomatch change

/-- The entries of registrations for an event type, in their order. -/
def entriesOf (registrations : List (Registration T)) (typeOf : T) : List Nat :=
  (registrations.filter (·.typeOf = typeOf)).map Registration.entry

/-- The entries of an event type whose subscription has not been removed, in the order in which
they were subscribed. -/
def World.live (w : World T H) (typeOf : T) : List Nat :=
  w.subscriptions.flatMap fun s =>
    if s.life = .removed then [] else entriesOf s.registrations typeOf

end Model

/-- A new dispatcher. -/
def start (T H E : Type) : Crew (World T H) (Local T H E) := ⟨⟨[], fun _ => none, [], []⟩, []⟩

end Fries.Event.Registry
