import Fries.Queue.Redis.Server

/-! The Redis queue: its keys, `Enqueue`, `Receive` and the three settlements of a delivery. -/
namespace Fries.RedisQueue

open Fries.Queue Service.Contract

/-- A queue's configuration. -/
structure Queue where
  pre : String
  group : String
  consumer : String
  promoteSize : Nat
  claimMinIdle : Int
  deadLetterMaxLen : Int

def taskField : String := "task"

def deadReasonField : String := "reason"

namespace Queue

def streamKey (q : Queue) (name : String) : String := q.pre ++ ":" ++ name ++ ":stream"

def delayedKey (q : Queue) (name : String) : String := q.pre ++ ":" ++ name ++ ":delayed"

def deadLetterKey (q : Queue) (name : String) : String := q.pre ++ ":" ++ name ++ ":dead"

end Queue

inductive Error
  | noTask
  | consumerClosed
  | marshal
  | redis (err : RedisError)
  | malformed (id : Nat) (text : String)
  deriving DecidableEq

/-- A delivery; it is only made with a task and the id of its entry. -/
structure Delivery where
  task : Task
  streamID : Nat
  deriving DecidableEq

structure Consumer where
  name : String
  consumerName : String
  deriving DecidableEq

variable (codec : Codec) {count : Nat}

def marshal (task : Task) : Option Value :=
  (codec.marshal task.toEnvelope).map fun bytes => ⟨bytes, some task.origin⟩

def unmarshal (v : Value) : Option Task :=
  (codec.unmarshal v.bytes).map fun e => ⟨e, v.origin.getD ⟨0, e⟩⟩

/-- The `Err()` of a command. -/
def failed {α : Type} : Except RedisError α → Except Error Unit
  | .ok _ => .ok ()
  | .error err => .error (.redis err)

namespace Queue

variable (q : Queue)

def addToStream (name : String) (data : Value) : Program (Except Error Unit) := do
  let r ← Client.xadd (q.streamKey name) 0 [(taskField, data)]
  return failed r

def newDelayedEntry (data : Value) : Program (Except Error Value) := do
  let r ← Client.random
  match r with
  | .error err => return .error (.redis err)
  | .ok token =>
    let now ← Client.now
    match codec.marshalEntry (token ++ "-" ++ toString (unixNano now)) data.bytes with
    | none => return .error .marshal
    | some entry => return .ok ⟨entry, data.origin⟩

def enqueue (task : Option Task) : Program (Except Error Unit) :=
  match task with
  | none => return .ok ()
  | some task => do
    let task : Task := ⟨task.toEnvelope.normalize, task.origin⟩
    match marshal codec task with
    | none => return .error .marshal
    | some data =>
      let now ← Client.now
      if now < task.availableAt then
        match ← newDelayedEntry codec data with
        | .error err => return .error err
        | .ok entry =>
          let r ← Client.zadd (q.delayedKey task.queue) (unixNano task.availableAt) entry
          return failed r
      else q.addToStream task.queue data

def ensureGroup (name : String) : Program (Except Error Unit) := do
  let r ← Client.xgroupCreate (q.streamKey name) q.group
  match r with
  | .error .busyGroup => return .ok ()
  | r => return failed r

def newConsumer (ctx : Option RedisError) (config : ConsumerConfig) :
    Program (Except Error Consumer) :=
  match ctx with
  | some err => return .error (.redis err)
  | none => do
    let config := config.normalize
    let consumerName := if config.name = "" then q.consumer else config.name
    match ← q.ensureGroup config.queue with
    | .error err => return .error err
    | .ok () => return .ok ⟨config.queue, consumerName⟩

def promoteDue (name : String) : Program (Except Error Unit) := do
  let now ← Client.now
  let r ← Client.promote (q.delayedKey name) (q.streamKey name) (unixNano now) q.promoteSize taskField
  return failed r

end Queue

def attemptWithDeliveryCount (baseAttempt deliveryCount : Int) : Int :=
  let baseAttempt := if baseAttempt < 0 then 0 else baseAttempt
  if deliveryCount ≤ 0 then
    if baseAttempt = maxInt64 then maxInt64 else baseAttempt + 1
  else if baseAttempt ≥ maxInt64 then maxInt64
  else
    let maxRemaining := maxInt64 - baseAttempt
    if deliveryCount > maxRemaining then maxInt64 else baseAttempt + deliveryCount

theorem attempt_first (a : Int) :
    attemptWithDeliveryCount a 0 ≤ (if a < 0 then 0 else a) + 1 := by
  simp only [attemptWithDeliveryCount]
  generalize (if a < 0 then 0 else a) = base
  rw [if_pos (Int.le_refl 0)]
  split <;> omega

theorem attempt_count (a : Int) (hpos : 0 < count)
    (hfits : (if a < 0 then 0 else a) + count ≤ maxInt64) :
    attemptWithDeliveryCount a count = (if a < 0 then 0 else a) + count := by
  simp only [attemptWithDeliveryCount]
  generalize (if a < 0 then 0 else a) = base at hfits ⊢
  rw [if_neg (by omega), if_neg (by omega), if_neg (by omega)]

theorem attempt_le (a : Int) (hpos : 0 < count) :
    attemptWithDeliveryCount a count ≤ (if a < 0 then 0 else a) + count := by
  simp only [attemptWithDeliveryCount]
  generalize (if a < 0 then 0 else a) = base
  rw [if_neg (by omega)]
  split
  · omega
  · split <;> omega

def leaseFromMessageWithDeliveryCount (message : Entry) (deliveryCount : Int) :
    Except Error Delivery :=
  match message.fields.lookup taskField with
  | none =>
    .error (.malformed message.id
      ("queue/adapter/redis: message " ++ toString message.id ++ " missing \"task\" field"))
  | some data =>
    match unmarshal codec data with
    | none => .error (.malformed message.id "json: cannot unmarshal")
    | some task =>
      .ok ⟨{ task with attempt := attemptWithDeliveryCount task.attempt deliveryCount }, message.id⟩

def leaseFromMessage (message : Entry) : Except Error Delivery :=
  leaseFromMessageWithDeliveryCount codec message 0

namespace Queue

variable (q : Queue)

def deliveryCount (name : String) (messageID : Nat) : Program (Except Error Int) := do
  let r ← Client.xpendingId (q.streamKey name) q.group messageID
  match r with
  | .error .nil => return .ok 0
  | .error err => return .error (.redis err)
  | .ok [] => return .ok 0
  | .ok (p :: _) => return .ok p.count

def leaseFromClaimedMessage (name : String) (message : Entry) : Program (Except Error Delivery) := do
  match ← q.deliveryCount name message.id with
  | .error err => return .error err
  | .ok count => return leaseFromMessageWithDeliveryCount codec message count

/-- The messages of a claim, or nothing if there are none. -/
def leaseClaimed (name : String) : Except RedisError (List Entry) →
    Program (Except Error (Option Delivery))
  | .error .nil => return .ok none
  | .error err => return .error (.redis err)
  | .ok [] => return .ok none
  | .ok (message :: _) => do
    let r ← q.leaseFromClaimedMessage codec name message
    return r.map some

def claimPendingWithXClaim (name consumerName : String) (minIdle : Int) :
    Program (Except Error (Option Delivery)) := do
  let pending ← Client.xpendingIdle (q.streamKey name) q.group minIdle
  match pending with
  | .error .nil => return .ok none
  | .error err => return .error (.redis err)
  | .ok [] => return .ok none
  | .ok (p :: _) =>
    let messages ← Client.xclaim (q.streamKey name) q.group consumerName minIdle p.id
    q.leaseClaimed codec name messages

def claimPendingForConsumer (name consumerName : String) (minIdle : Int) :
    Program (Except Error (Option Delivery)) := do
  let messages ← Client.xautoclaim (q.streamKey name) q.group consumerName minIdle
  match messages with
  | .ok [] => q.claimPendingWithXClaim codec name consumerName minIdle
  | messages => q.leaseClaimed codec name messages

def ackMalformed (name : String) (messageID : Nat) : Program Unit := do
  let _ ← Client.xack (q.streamKey name) q.group messageID .malformed
  return ()

/-- A malformed message is acknowledged before its error is returned. -/
def reject {α : Type} (name : String) (err : Error) : Program (Except Error α) :=
  match err with
  | .malformed id text => do
    q.ackMalformed name id
    return .error (.malformed id text)
  | err => return .error err

/-- The group read at the end of `receiveForConsumer`. -/
def readNew (name consumerName : String) : Program (Except Error Delivery) := do
  let streams ← Client.xreadgroup (q.streamKey name) q.group consumerName
  match streams with
  | .error .nil => return .error .noTask
  | .error err => return .error (.redis err)
  | .ok [] => return .error .noTask
  | .ok (message :: _) =>
    match leaseFromMessage codec message with
    | .ok delivery => return .ok delivery
    | .error err => q.reject name err

def receiveForConsumer (name consumerName : String) : Program (Except Error Delivery) := do
  match ← q.promoteDue name with
  | .error err => return .error err
  | .ok () =>
    if 0 < q.claimMinIdle then
      match ← q.claimPendingForConsumer codec name consumerName q.claimMinIdle with
      | .error err => q.reject name err
      | .ok (some delivery) => return .ok delivery
      | .ok none => q.readNew codec name consumerName
    else q.readNew codec name consumerName

/-- `Consumer.Receive`, for as many rounds as it is given; `none` stands for a call that is
still waiting after them. -/
def receive (c : Consumer) : Nat → Program (Option (Except Error Delivery))
  | 0 => return none
  | rounds + 1 => do
    match ← q.receiveForConsumer codec c.name c.consumerName with
    | .error .noTask => receive c rounds
    | .error (.redis (.failure (.canceled true))) => return some (.error .consumerClosed)
    | r => return some r

end Queue

namespace Delivery

variable (q : Queue) (d : Delivery)

/-- `Ack`, called by the user or at the end of the two other settlements. -/
def ack (settlement : Settlement) : Program (Except Error Unit) := do
  let r ← Client.xack (q.streamKey d.task.queue) q.group d.streamID settlement
  return failed r

def retry (delay : Int) : Program (Except Error Unit) := do
  let now ← Client.now
  let task := { d.task with availableAt := now + delay }
  match ← q.enqueue codec (some task) with
  | .error err => return .error err
  | .ok () => d.ack q .retry

def deadLetter (reason : String) : Program (Except Error Unit) :=
  match marshal codec d.task with
  | none => return .error .marshal
  | some data => do
    let r ← Client.xadd (q.deadLetterKey d.task.queue) q.deadLetterMaxLen
      [(taskField, data), (deadReasonField, ⟨reason, none⟩)]
    match r with
    | .error err => return .error (.redis err)
    | .ok _ => d.ack q .deadLetter

end Delivery

/-! The commands of the calls that neither add to the delayed set nor read from a group, whatever
the responses are. -/
section Issued

variable {codec} {q : Queue} {P : Command → Prop}

theorem newConsumer_only (hgroup : ∀ name, P (.xgroupCreate (q.streamKey name) q.group))
    (ctx : Option RedisError) (config : ConsumerConfig) : (q.newConsumer ctx config).Only P := by
  cases ctx with
  | some err => trivial
  | none =>
    refine ⟨hgroup _, fun r => ?_⟩
    rcases r with err | u
    · cases err <;> trivial
    · trivial

variable {d : Delivery}

theorem ack_only {settlement : Settlement}
    (hack : P (.xack (q.streamKey d.task.queue) q.group d.streamID settlement)) :
    (d.ack q settlement).Only P :=
  ⟨hack, fun _ => trivial⟩

theorem deadLetter_only {reason : String}
    (hadd : ∀ fields, P (.xadd (q.deadLetterKey d.task.queue) q.deadLetterMaxLen fields))
    (hack : P (.xack (q.streamKey d.task.queue) q.group d.streamID .deadLetter)) :
    (d.deadLetter codec q reason).Only P := by
  unfold Delivery.deadLetter
  split
  · trivial
  · refine ⟨hadd _, fun r => ?_⟩
    cases r with
    | error err => trivial
    | ok id => exact ack_only hack

end Issued

/-- The calls of producers and consumers. A settlement names the call that received the
delivery. -/
inductive Call
  | enqueue (task : Option Envelope)
  | newConsumer (ctx : Option RedisError) (config : ConsumerConfig)
  | receive (consumer : Consumer) (rounds : Nat)
  | ack (received : Nat)
  | retry (received : Nat) (delay : Int)
  | deadLetter (received : Nat) (reason : String)
  deriving DecidableEq

inductive Outcome
  | enqueued (r : Except Error Unit)
  | consumer (r : Except Error Consumer)
  | received (r : Option (Except Error Delivery))
  | settled (r : Except Error Unit)
  deriving DecidableEq

/-- The delivery a call has returned. -/
def delivered (threads : List (Thread Call Command Response Outcome)) (i : Nat) : Option Delivery :=
  match threads[i]? with
  | some ⟨_, .ret (.received (some (.ok d)))⟩ => some d
  | _ => none

def start (q : Queue) (call : Call) (threads : List (Thread Call Command Response Outcome)) :
    Option (Program Outcome) :=
  match call with
  | .enqueue task =>
    some (.enqueued <$> q.enqueue codec (task.map fun e => ⟨e, ⟨threads.length, e⟩⟩))
  | .newConsumer ctx config => some (.consumer <$> q.newConsumer ctx config)
  | .receive consumer rounds => some (.received <$> q.receive codec consumer rounds)
  | .ack i => (delivered threads i).map fun d => .settled <$> d.ack q .ack
  | .retry i delay => (delivered threads i).map fun d => .settled <$> d.retry codec q delay
  | .deadLetter i reason =>
    (delivered threads i).map fun d => .settled <$> d.deadLetter codec q reason

/-- Any number of calls at once, on one server whose clock can be set to anything. -/
def service (q : Queue) : Service World Label Int Call Command Response Outcome where
  exec := exec codec
  shift := fun now w => { w with now := now }
  start := start codec q

/-! The safety of `Receive` from that of its parts, whatever is relied on and guaranteed. `Ready`
is what a thread knows as long as it has not leased a message. -/
section Receive

variable {codec} {q : Queue} {K : (service codec q).Contract} {i : Nat} {w : World}
  {post : Except Error Delivery → World → Prop}
  {lease : Except Error (Option Delivery) → World → Prop} {name consumer : String}
  (Ready : World → Prop)

theorem claimPendingForConsumer_of_parts (Seen : Entry → World → Prop) {minIdle : Int}
    (hauto : ∀ w, Ready w → K.Safe i
      (fun r w => Ready w ∧ ∀ message rest, r = .ok (message :: rest) → Seen message w)
      (Client.xautoclaim (q.streamKey name) q.group consumer minIdle) w)
    (hidle : ∀ w, Ready w → K.Safe i (fun _ w => Ready w)
      (Client.xpendingIdle (q.streamKey name) q.group minIdle) w)
    (hclaim : ∀ id w, Ready w → K.Safe i
      (fun r w => Ready w ∧ ∀ message rest, r = .ok (message :: rest) → Seen message w)
      (Client.xclaim (q.streamKey name) q.group consumer minIdle id) w)
    (hlease : ∀ r w, Ready w → (∀ message rest, r = .ok (message :: rest) → Seen message w) →
      K.Safe i lease (q.leaseClaimed codec name r) w)
    (hnone : ∀ w, Ready w → lease (.ok none) w)
    (hfailed : ∀ err w, Ready w → lease (.error (.redis err)) w) (hw : Ready w) :
    K.Safe i lease (q.claimPendingForConsumer codec name consumer minIdle) w := by
  refine safe_bind (safe_weaken ?_ (hauto w hw))
  rintro r w₁ ⟨hready, hseen⟩
  rcases r with err | _ | ⟨message, rest⟩
  · exact hlease _ w₁ hready hseen
  · refine safe_bind (safe_weaken ?_ (hidle w₁ hready))
    intro r w₂ hready₂
    rcases r with err | _ | ⟨p, rest⟩
    · cases err with
      | nil => exact hnone w₂ hready₂
      | busyGroup | noGroup | failure => exact hfailed _ w₂ hready₂
    · exact hnone w₂ hready₂
    · refine safe_bind (safe_weaken ?_ (hclaim p.id w₂ hready₂))
      rintro r w₃ ⟨hready₃, hseen₃⟩
      exact hlease r w₃ hready₃ hseen₃
  · exact hlease _ w₁ hready hseen

theorem receiveForConsumer_of_parts
    (hpromote : ∀ w, Ready w → K.Safe i (fun _ w => Ready w) (q.promoteDue name) w)
    (hclaim : ∀ w, Ready w →
      K.Safe i lease (q.claimPendingForConsumer codec name consumer q.claimMinIdle) w)
    (hread : ∀ w, Ready w → K.Safe i post (q.readNew codec name consumer) w)
    (hfailed : ∀ err w, Ready w → post (.error err) w)
    (hreject : ∀ err w, lease (.error err) w → K.Safe i post (q.reject name err) w)
    (hnone : ∀ w, lease (.ok none) w → Ready w)
    (hsome : ∀ d w, lease (.ok (some d)) w → post (.ok d) w) (hw : Ready w) :
    K.Safe i post (q.receiveForConsumer codec name consumer) w := by
  refine safe_bind (safe_weaken ?_ (hpromote w hw))
  intro r w₁ hready
  cases r with
  | error err => exact hfailed err w₁ hready
  | ok u =>
    simp only
    split
    · refine safe_bind (safe_weaken ?_ (hclaim w₁ hready))
      intro r w₂ hlease
      rcases r with err | _ | d
      · exact hreject err w₂ hlease
      · exact hread w₂ (hnone w₂ hlease)
      · exact hsome d w₂ hlease
    · exact hread w₁ hready

/-- A receive is safe if each of its rounds is, and a round without a task is ready for the
next. -/
theorem receive_of_round {Good : Delivery → World → Prop} {c : Consumer}
    (hround : ∀ w, Ready w →
      K.Safe i post (q.receiveForConsumer codec c.name c.consumerName) w)
    (hgood : ∀ d w, post (.ok d) w → Good d w) (hagain : ∀ w, post (.error .noTask) w → Ready w)
    (rounds : Nat) (hw : Ready w) :
    K.Safe i (fun r w => ∀ d, r = some (.ok d) → Good d w) (q.receive codec c rounds) w := by
  have hnone : ∀ (err : Error) (w : World) (d : Delivery),
      some (.error err : Except Error Delivery) = some (.ok d) → Good d w := by
    intro err w d hd
    cases hd
  induction rounds generalizing w with
  | zero =>
    intro d hd
    cases hd
  | succ rounds ih =>
    refine safe_bind (safe_weaken ?_ (hround w hw))
    intro r w₁ hr
    cases r with
    | ok d =>
      intro d' hd'
      obtain rfl : d = d' := Except.ok.inj (Option.some.inj hd')
      exact hgood d w₁ hr
    | error err =>
      cases err with
      | noTask => exact ih (hagain w₁ hr)
      | redis err =>
        cases err with
        | failure cause => rcases cause with ⟨_ | _⟩ | text <;> exact hnone _ w₁
        | nil | busyGroup | noGroup => exact hnone _ w₁
      | _ => exact hnone _ w₁

end Receive

end Fries.RedisQueue
