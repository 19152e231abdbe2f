import Fries.Queue.Redis.Ledger
import Fries.Queue.Worker

/-! Workers over the Redis queue: their limit of attempts holds for what they retry. -/
namespace Fries.RedisQueue

open Fries.Queue Service.Contract

section Model

variable (codec : Codec) (q : Queue)

def workerDelivery (d : Delivery) : Queue.Delivery Command Response Error :=
  ⟨d.task, d.ack q .ack, d.retry codec q, d.deadLetter codec q⟩

/-- `Receive` as a worker sees it. -/
def consume (waits : Nat) (c : Consumer) :
    Program (Option (Except Error (Option (Queue.Delivery Command Response Error)))) := do
  match ← q.receive codec c waits with
  | none => return none
  | some (.error err) => return some (.error err)
  | some (.ok d) => return some (.ok (some (workerDelivery codec q d)))

def stopErrors : StopErrors Error where
  isStop
    | .redis (.failure (.canceled _)) => true
    | _ => false
  isClosed
    | .consumerClosed => true
    | _ => false

inductive WorkerCall
  | enqueue (task : Option Envelope)
  | worker (ctx : Option RedisError) (config : WorkerConfig) (rounds waits : Nat)

inductive WorkerOutcome
  | enqueued (r : Except Error Unit)
  | stopped (r : Option (Except Error Unit))

abbrev WorkerThread :=
  Thread WorkerCall (Command ⊕ WorkerCommand) (Sum.elim Response WorkerResponse) WorkerOutcome

/-- All loops allow `limit` attempts. -/
def startWorker (limit : Int) (call : WorkerCall) (threads : List WorkerThread) :
    Option (WorkerProgram Command Response WorkerOutcome) :=
  match call with
  | .enqueue task =>
    some (.enqueued <$> (q.enqueue codec (task.map fun e => ⟨e, ⟨threads.length, e⟩⟩)).lift)
  | .worker ctx config rounds waits =>
    if config.maxAttempts = limit then
      some (.stopped <$> loop stopErrors config (q.newConsumer ctx) (consume codec q waits) rounds)
    else none

/-- Any number of producers and worker loops at once. -/
def workers (limit : Int) : Service (World × List HandlerEvent) (Label × WorkerLabel) Int WorkerCall
    (Command ⊕ WorkerCommand) (Sum.elim Response WorkerResponse) WorkerOutcome :=
  (service codec q).extend workerExec (startWorker codec q limit)

end Model

variable {codec : Codec} {q : Queue} {limit : Int} {i : Nat} {w w' : World} {name : String}
  {c : Command} {t : Task} {data : Value}

/-- The task an entry with these fields carries. -/
def taskOf (codec : Codec) (fields : List (String × Value)) : Option Task :=
  (fields.lookup taskField).bind (unmarshal codec)

/-- If the task was enqueued with `Attempt` 0, its stored attempts and `n` more are within the
limit. -/
def AtMost (codec : Codec) (limit : Int) (fields : List (String × Value)) (n : Nat) : Prop :=
  ∀ t, taskOf codec fields = some t → t.origin.task.attempt = 0 →
    (if t.attempt < 0 then 0 else t.attempt) + n ≤ limit

instance (fields : List (String × Value)) (n : Nat) : Decidable (AtMost codec limit fields n) :=
  inferInstanceAs (Decidable (∀ t, taskOf codec fields = some t → _))

/-- New entries leave an attempt, and only entries are claimed that do. -/
def limitRules (codec : Codec) (limit : Int) : Rules where
  add fields := AtMost codec limit fields 1
  claim s p := ∀ e ∈ s.entries, e.id = p.id → AtMost codec limit e.fields (p.count + 1)
  count _ _ := True

/-- Every entry leaves an attempt, and the counters are within the limit. -/
structure Ledger.Capped (codec : Codec) (limit : Int) (s : Ledger) : Prop where
  tidy : s.Tidy
  stored : ∀ e ∈ s.entries, AtMost codec limit e.fields 1
  counted : ∀ p ∈ s.pending, ∀ e ∈ s.entries, e.id = p.id → AtMost codec limit e.fields p.count

theorem capped_step {s s' : Ledger} (hs : s.Capped codec limit)
    (h : s.Step (limitRules codec limit) i s') : s'.Capped codec limit := by
  have htidy := Ledger.tidy_step hs.tidy h
  cases h with
  | stay => exact hs
  | append new last hsorted hnew hlast =>
    refine ⟨htidy, ?_, ?_⟩
    · exact List.forall_mem_append.mpr ⟨hs.stored, fun e he => (hnew e he).2.2⟩
    · intro p hp e he hid
      rcases List.mem_append.mp he with he | he
      · exact hs.counted p hp e he hid
      · have := hs.tidy.behind p hp
        have := hs.tidy.cursor
        have := (hnew e he).1
        omega
  | claim p consumer now hp hok =>
    refine ⟨htidy, hs.stored, ?_⟩
    intro r hr e he hid
    obtain ⟨r', hr', rfl⟩ := List.mem_map.mp hr
    rw [Ledger.claim_id] at hid
    split
    · rename_i heq
      obtain rfl := Ledger.record_eq hs.tidy hr' hp heq
      exact hok e he hid
    · exact hs.counted r' hr' e he hid
  | read e consumer now given he hnew hgiven =>
    refine ⟨htidy, hs.stored, ?_⟩
    intro p hp e' he' hid
    rcases List.mem_append.mp hp with hp | hp
    · exact hs.counted p hp e' he' hid
    · obtain rfl := List.mem_singleton.mp hp
      exact hs.stored e' he'
  | count p given => exact ⟨htidy, hs.stored, hs.counted⟩
  | ack id => exact ⟨htidy, hs.stored, fun p hp => hs.counted p (List.mem_of_mem_filter hp)⟩

/-- The record a claim picks, if any, leaves an attempt. -/
def ClaimBelow (codec : Codec) (limit : Int) (w : World) : Command → Prop
  | .xautoclaim key group _ minIdle =>
    ∀ p, ((((w.streams key).pending group).take 10).find? fun p => p.idleFor w.now minIdle) = some p →
      ∀ e ∈ (w.streams key).entries, e.id = p.id → AtMost codec limit e.fields (p.count + 1)
  | .xclaim key group _ minIdle id =>
    ∀ p, (((w.streams key).pending group).find? fun p => p.id = id ∧ p.idleFor w.now minIdle) = some p →
      ∀ e ∈ (w.streams key).entries, e.id = p.id → AtMost codec limit e.fields (p.count + 1)
  | _ => True

instance (w : World) : (c : Command) → Decidable (ClaimBelow codec limit w c)
  | .xautoclaim key group _ minIdle => inferInstanceAs (Decidable (∀ p,
      ((((w.streams key).pending group).take 10).find? fun p => p.idleFor w.now minIdle) = some p →
      ∀ e ∈ (w.streams key).entries, e.id = p.id → AtMost codec limit e.fields (p.count + 1)))
  | .xclaim key group _ minIdle id => inferInstanceAs (Decidable (∀ p,
      (((w.streams key).pending group).find? fun p => p.id = id ∧ p.idleFor w.now minIdle) = some p →
      ∀ e ∈ (w.streams key).entries, e.id = p.id → AtMost codec limit e.fields (p.count + 1)))
  | .now | .random | .zadd .. | .promote .. | .xadd .. | .xgroupCreate .. | .xpendingIdle ..
  | .xpendingId .. | .xreadgroup .. | .xack .. => .isTrue trivial

structure CapInv (codec : Codec) (q : Queue) (limit : Int) (w : World) : Prop where
  capped : ∀ name, (q.ledger w name).Capped codec limit
  delayed : ∀ key, ∀ m ∈ w.zsets key, AtMost codec limit [(taskField, m.2.payload codec)] 1

/-- The commands of producers and workers. -/
def Capping (codec : Codec) (q : Queue) (limit : Int) : Command → Prop
  | .xreadgroup key group _ | .xpendingId key group _ => (∃ name, key = q.streamKey name) ∧ group = q.group
  | c => Routine codec q (fun fields => AtMost codec limit fields 1) c

theorem capping_admitted (hc : Capping codec q limit c) (hw : CapInv codec q limit w)
    (hok : ClaimBelow codec limit w c) : Admitted (limitRules codec limit) codec q w c := by
  cases c with
  | zadd key score m => trivial
  | promote delayed stream due limit' field =>
    obtain ⟨name, rfl, rfl, rfl⟩ := hc
    exact ⟨name, rfl, rfl, fun m hm => hw.delayed _ m hm⟩
  | xautoclaim key group consumer minIdle | xclaim key group consumer minIdle id =>
    obtain ⟨⟨name, rfl⟩, rfl⟩ := hc
    exact ⟨name, rfl, rfl, hok⟩
  | xpendingId key group id =>
    obtain ⟨⟨name, rfl⟩, rfl⟩ := hc
    exact ⟨name, rfl, rfl, fun _ _ _ => trivial⟩
  | _ => exact hc

theorem apply_delayed (hc : Capping codec q limit c) (hw : CapInv codec q limit w) (l : Label) :
    ∀ key, ∀ m ∈ (apply codec i l w c).2.zsets key,
      AtMost codec limit [(taskField, m.2.payload codec)] 1 := by
  intro key p hp
  rcases apply_zsets codec i l w c with ⟨key', score, m, rfl⟩ | ⟨-, hzsets⟩
  · rcases mem_zadd hp with hold | ⟨-, -, hm | ⟨e, he, heq⟩⟩
    · exact hw.delayed key p hold
    · rw [hm]
      exact hc
    · rw [← heq]
      exact hw.delayed key' e he
  · exact hw.delayed key p (hzsets key p hp)

theorem exec_capped (hc : Capping codec q limit c) (hw : CapInv codec q limit w)
    (hok : ClaimBelow codec limit w c) (l : Label) :
    Moves (limitRules codec limit) q i w (exec codec i l w c).2 ∧
      CapInv codec q limit (exec codec i l w c).2 := by
  have hmoves : Moves (limitRules codec limit) q i w (exec codec i l w c).2 :=
    exec_moves (capping_admitted hc hw hok) l
  refine ⟨hmoves, fun name => capped_step (hw.capped name) (hmoves name), ?_⟩
  exact exec_world (P := fun w => ∀ key, ∀ m ∈ w.zsets key,
    AtMost codec limit [(taskField, m.2.payload codec)] 1) hw.delayed (apply_delayed hc hw l)

/-- Entries stay, and with them what is stored of their tasks. -/
def limits (codec : Codec) (q : Queue) (limit : Int) : (service codec q).Contract where
  Inv := CapInv codec q limit
  Rely _ w w' := ∀ name, ∀ e ∈ (q.ledger w name).entries, e ∈ (q.ledger w' name).entries
  Guar i w w' := Moves (limitRules codec limit) q i w w'
  Unused _ _ := True
  Ok _ w c := ClaimBelow codec limit w c
  Issue _ _ _ := True
  rely_refl _ _ _ _ h := h
  rely_trans _ _ _ _ h h' name e he := h' name e (h name e he)
  rely_of_guar _ _ _ _ _ _ h name := Ledger.step_entries (h name)
  inv_shift _ _ h := ⟨h.capped, h.delayed⟩
  rely_shift _ _ _ _ _ _ h := h
  unused_rely _ _ _ _ _ := trivial

section Rules

variable {α : Type} {post : α → World → Prop}

theorem safe_capping {c : Command} {k : Response c → Program α} (hc : Capping codec q limit c)
    (h : ∀ w' l, (limits codec q limit).Rely i w w' → CapInv codec q limit w' →
      (limits codec q limit).Rely i w' (exec codec i l w' c).2 →
        (limits codec q limit).Safe i post (k (exec codec i l w' c).1) (exec codec i l w' c).2) :
    (limits codec q limit).Safe i post (.call c k) w := by
  intro w' l hr hi hok
  obtain ⟨hmoves, hinv⟩ := exec_capped (i := i) hc hi hok l
  exact ⟨trivial, hinv, hmoves, h w' l hr hi fun name => Ledger.step_entries (hmoves name)⟩

end Rules

/-- The stored attempts of the task leave one more, if it was enqueued with `Attempt` 0. -/
def Again (limit : Int) (t : Task) : Prop :=
  t.origin.task.attempt = 0 → (if t.attempt < 0 then 0 else t.attempt) + 1 ≤ limit

theorem marshal_atMost (h : marshal codec t = some data) (ht : Again limit t) :
    AtMost codec limit [(taskField, data)] 1 := by
  obtain ⟨b, hb, rfl⟩ := Option.map_eq_some_iff.mp h
  intro t' ht'
  obtain rfl : t = t' := by
    simpa [taskOf, unmarshal, codec.unmarshal_marshal hb] using ht'
  exact ht

theorem routine_capping (h : Routine codec q (fun fields => AtMost codec limit fields 1) c) :
    Capping codec q limit c := by
  cases c <;> first | exact h | exact h.elim

theorem safe_routine {α : Type} {p : Program α}
    (hp : p.Only (Routine codec q fun fields => AtMost codec limit fields 1)) :
    (limits codec q limit).Safe i (fun _ _ => True) p w := by
  induction p generalizing w with
  | ret a => trivial
  | call c k ih => exact safe_capping (routine_capping hp.1) fun w' l _ _ _ => ih _ (hp.2 _)

theorem again_marshal (ht : Again limit t) {t' : Task} (horigin : t'.origin = t.origin)
    (hattempt : t'.attempt = t.attempt) (hdata : marshal codec t' = some data) :
    AtMost codec limit [(taskField, data)] 1 := by
  refine marshal_atMost hdata ?_
  intro ho
  rw [hattempt]
  exact ht (horigin ▸ ho)

section Receive

variable {message : Entry} {consumer : String}

/-- The delivery is within the limit, if its task was enqueued with `Attempt` 0. -/
def Within (limit : Int) (t : Task) : Prop := t.origin.task.attempt = 0 → t.attempt ≤ limit

theorem lease_within {count : Int} {n : Nat} {d : Delivery}
    (h : leaseFromMessageWithDeliveryCount codec message count = .ok d)
    (hm : AtMost codec limit message.fields n) (hn : count = 0 ∧ n = 1 ∨ count = n ∧ 0 < n) :
    Within limit d.task := by
  unfold leaseFromMessageWithDeliveryCount at h
  split at h
  · cases h
  · rename_i data hdata
    split at h <;> cases h
    rename_i t ht
    intro ho
    have hbound := hm t (by simp [taskOf, hdata, ht]) ho
    rcases hn with ⟨rfl, rfl⟩ | ⟨rfl, hpos⟩
    · exact Int.le_trans (attempt_first t.attempt) hbound
    · exact Int.le_trans (attempt_le t.attempt hpos) hbound

/-- The counter that is read belongs to a record of the entry. -/
theorem pending_mem {l : Label} {key group : String} {id : Nat} {p : Pending} {rest : List Pending}
    (h : (exec codec i l w (.xpendingId key group id)).1 = .ok (p :: rest)) :
    p ∈ (w.streams key).pending group ∧ p.id = id := by
  rw [exec_ok h (by intro cause hf; cases hf)] at h
  simp only [apply] at h
  split at h
  · cases h
  · rename_i g hg
    split at h
    · cases h
    · rename_i p' hfind
      obtain ⟨rfl, -⟩ : p' = p ∧ [] = rest := by simpa using h
      exact ⟨by simpa [Stream.pending, hg] using List.mem_of_find?_eq_some hfind,
        by simpa using List.find?_some hfind⟩

/-- An error is no delivery. -/
theorem error_ne {α β : Type} {f : β → α} {P : β → Prop} (err : Error) :
    ∀ b, (.error err : Except Error α) = .ok (f b) → P b := by
  intro b h
  cases h

theorem leaseClaimed_within (r : Except RedisError (List Entry))
    (hm : ∀ message rest, r = .ok (message :: rest) → message ∈ (q.ledger w name).entries) :
    (limits codec q limit).Safe i (fun r _ => ∀ d, r = .ok (some d) → Within limit d.task)
      (q.leaseClaimed codec name r) w := by
  have hempty : ∀ d, (.ok none : Except Error (Option Delivery)) = .ok (some d) →
      Within limit d.task := by
    intro d hd
    cases hd
  rcases r with err | _ | ⟨message, rest⟩
  · cases err <;> first | exact hempty | exact error_ne _
  · exact hempty
  refine safe_capping ⟨⟨name, rfl⟩, rfl⟩ fun w₁ l hr hi _ => ?_
  have hmem := hr name message (hm message rest rfl)
  have hstored := (hi.capped name).stored message hmem
  have hlease : ∀ {count : Int} {n : Nat}, AtMost codec limit message.fields n →
      (count = 0 ∧ n = 1 ∨ count = n ∧ 0 < n) → ∀ d,
        (leaseFromMessageWithDeliveryCount codec message count).map some = .ok (some d) →
          Within limit d.task := by
    intro count n hle hn d hd
    obtain ⟨d', hd', heq⟩ : ∃ d', leaseFromMessageWithDeliveryCount codec message count = .ok d' ∧
        d' = d := by
      cases hl : leaseFromMessageWithDeliveryCount codec message count with
      | error err =>
        rw [hl] at hd
        cases hd
      | ok d' =>
        rw [hl] at hd
        exact ⟨d', rfl, Option.some.inj (Except.ok.inj hd)⟩
    exact heq ▸ lease_within hd' hle hn
  rcases hp : (exec codec i l w₁ (.xpendingId (q.streamKey name) q.group message.id)).1 with
    err | _ | ⟨p, others⟩
  · cases err <;> first | exact error_ne _ | exact hlease hstored (.inl ⟨rfl, rfl⟩)
  · exact hlease hstored (.inl ⟨rfl, rfl⟩)
  · obtain ⟨hpm, hid⟩ := pending_mem hp
    exact hlease ((hi.capped name).counted p hpm message hmem hid.symm)
      (.inr ⟨rfl, (hi.capped name).tidy.counted p hpm⟩)

theorem claimPendingForConsumer_within (minIdle : Int) :
    (limits codec q limit).Safe i (fun r _ => ∀ d, r = .ok (some d) → Within limit d.task)
      (q.claimPendingForConsumer codec name consumer minIdle) w := by
  refine claimPendingForConsumer_of_parts (fun _ => True)
    (fun message w => message ∈ (q.ledger w name).entries) ?_ ?_ ?_
    (fun r w _ hmem => leaseClaimed_within r hmem) ?_ ?_ trivial
  · intro w _
    refine safe_capping ⟨⟨name, rfl⟩, rfl⟩ fun w₁ l _ _ hkept => ⟨trivial, ?_⟩
    exact fun message rest hm => hkept name message (messages_mem.1 _ hm)
  · intro w _
    exact safe_capping trivial fun _ _ _ _ _ => trivial
  · intro id w _
    refine safe_capping ⟨⟨name, rfl⟩, rfl⟩ fun w₁ l _ _ hkept => ⟨trivial, ?_⟩
    exact fun message rest hm => hkept name message (messages_mem.2.1 _ _ hm)
  · intro _ _ d hd
    cases hd
  · exact fun err _ _ => error_ne _

theorem readNew_within :
    (limits codec q limit).Safe i (fun r _ => ∀ d, r = .ok d → Within limit d.task)
      (q.readNew codec name consumer) w := by
  refine safe_capping ⟨⟨name, rfl⟩, rfl⟩ fun w₁ l _ hi _ => ?_
  rcases hm : (exec codec i l w₁ (.xreadgroup (q.streamKey name) q.group consumer)).1 with
    err | _ | ⟨message, rest⟩
  · cases err <;> exact error_ne _
  · exact error_ne _
  · have hstored := (hi.capped name).stored message (messages_mem.2.2 hm)
    cases hl : leaseFromMessage codec message with
    | ok d =>
      simp only [Prog.bind, hl]
      intro d' hd'
      obtain rfl : d = d' := Except.ok.inj hd'
      exact lease_within hl hstored (.inl ⟨rfl, rfl⟩)
    | error err =>
      simp only [Prog.bind, hl]
      cases err with
      | malformed id text => exact safe_capping ⟨⟨name, rfl⟩, rfl⟩ fun _ _ _ _ _ => error_ne _
      | _ => exact error_ne _

theorem receiveForConsumer_within :
    (limits codec q limit).Safe i (fun r _ => ∀ d, r = .ok d → Within limit d.task)
      (q.receiveForConsumer codec name consumer) w := by
  refine receiveForConsumer_of_parts (fun _ => True) ?_
    (fun _ _ => claimPendingForConsumer_within q.claimMinIdle) (fun _ _ => readNew_within)
    (fun err _ _ => error_ne err) ?_ (fun _ _ => trivial) ?_ trivial
  · intro w _
    refine safe_capping trivial fun w₁ l _ _ _ => ?_
    exact safe_capping ⟨name, rfl, rfl, rfl⟩ fun _ _ _ _ _ => trivial
  · intro err w _
    cases err with
    | malformed id text => exact safe_capping ⟨⟨name, rfl⟩, rfl⟩ fun _ _ _ _ _ => error_ne _
    | _ => exact error_ne _
  · intro d w hwithin d' hd'
    obtain rfl : d = d' := Except.ok.inj hd'
    exact hwithin d rfl

theorem receive_within (c : Consumer) (waits : Nat) :
    (limits codec q limit).Safe i (fun r _ => ∀ d, r = some (.ok d) → Within limit d.task)
      (q.receive codec c waits) w :=
  receive_of_round (fun _ => True) (fun _ _ => receiveForConsumer_within)
    (fun d _ hwithin => hwithin d rfl) (fun _ _ => trivial) waits trivial

end Receive

section Workers

/-- No handler of a task that was enqueued with `Attempt` 0 was started beyond the limit. -/
def StartsWithin (limit : Int) (handled : List HandlerEvent) : Prop :=
  ∀ e ∈ handled, e.started = true → e.task.origin.task.attempt = 0 → e.task.attempt ≤ limit

instance (limit : Int) (handled : List HandlerEvent) : Decidable (StartsWithin limit handled) := by
  unfold StartsWithin
  infer_instance

def workerLimits (codec : Codec) (q : Queue) (limit : Int) : (workers codec q limit).Contract :=
  (limits codec q limit).extend workerExec (startWorker codec q limit) (StartsWithin limit)

variable {s : World × List HandlerEvent}

theorem harmless (codec : Codec) (q : Queue) (limit : Int) (i : Nat) :
    Harmless (workerLimits codec q limit) i := by
  rintro c s l (rfl | rfl) hs <;> exact ⟨trivial, hs, moves_stay fun _ => rfl⟩

theorem startsWithin_append {handled : List HandlerEvent} {e : HandlerEvent}
    (h : StartsWithin limit handled) (he : e.started = true → Within limit e.task) :
    StartsWithin limit (handled ++ [e]) := by
  exact List.forall_mem_append.mpr ⟨h, List.forall_mem_singleton.mpr he⟩

theorem handle_safe {α : Type} {t : Task} {f : Option HandlerError → WorkerProgram Command Response α}
    {post : α → World × List HandlerEvent → Prop} (ht : Within limit t)
    (h : ∀ result s, (workerLimits codec q limit).Safe i post (f result) s) :
    (workerLimits codec q limit).Safe i post (handle t >>= f) s := by
  have hguar : ∀ w, (limits codec q limit).Guar i w w := fun w => moves_stay fun _ => rfl
  refine safe_extra hguar fun s₁ l₁ _ _ hs₁ => ?_
  refine ⟨startsWithin_append hs₁ fun _ => ht, ?_⟩
  refine safe_extra hguar fun s₂ l₂ _ _ hs₂ => ?_
  exact ⟨startsWithin_append hs₂ (fun hstart => by cases hstart), h _ _⟩

theorem settle_safe (c : WorkerConfig) (hc : c.maxAttempts = limit) (d : Delivery)
    (result : Option HandlerError) :
    (workerLimits codec q limit).Safe i (fun _ _ => True)
      (settle (workerDelivery codec q d) (c.decide d.task result)) s := by
  have hlimit := c.one_le
  cases hd : c.decide d.task result with
  | ack => exact safe_lift (safe_routine (ack_routine d .ack))
  | deadLetter reason => exact safe_lift (safe_routine (deadLetter_routine d reason))
  | retry delay =>
    have hleft := decide_retry hd
    have hagain : Again limit d.task := by
      intro _
      split <;> omega
    exact safe_lift (safe_routine
      (retry_routine d delay fun t data ho ha hdata => again_marshal hagain ho ha hdata))

theorem process_safe (c : WorkerConfig) (hc : c.maxAttempts = limit) {d : Delivery}
    (hd : Within limit d.task) :
    (workerLimits codec q limit).Safe i (fun _ _ => True)
      (process c (workerDelivery codec q d)) s := by
  unfold process
  split
  · exact handle_safe hd fun result s' => settle_safe c hc d result
  · exact safe_lift (safe_routine (deadLetter_routine d errHandlerNotFound))

theorem consume_safe (c : Consumer) (waits : Nat) :
    (workerLimits codec q limit).Safe i (fun r _ => ∀ d, r = some (.ok (some d)) →
      ∃ d', d = workerDelivery codec q d' ∧ Within limit d'.task)
      (consume codec q waits c).lift s := by
  have hconsume : (limits codec q limit).Safe i (fun r _ => ∀ d, r = some (.ok (some d)) →
      ∃ d', d = workerDelivery codec q d' ∧ Within limit d'.task) (consume codec q waits c) s.1 := by
    refine safe_bind (safe_weaken ?_ (receive_within c waits))
    intro r w hr
    rcases r with _ | err | d
    · intro d' hd'
      cases hd'
    · intro d' hd'
      cases hd'
    · intro d' hd'
      cases hd'
      exact ⟨d, rfl, hr d rfl⟩
  exact safe_lift hconsume

theorem startWorker_safe (hlimit : 1 ≤ limit)
    {p : Pool (World × List HandlerEvent) WorkerCall (Command ⊕ WorkerCommand)
      (Sum.elim Response WorkerResponse) WorkerOutcome}
    {call : WorkerCall} {prog : WorkerProgram Command Response WorkerOutcome}
    (h : startWorker codec q limit call p.threads = some prog) :
    (workerLimits codec q limit).Safe p.threads.length (fun _ _ => True) prog p.world := by
  cases call with
  | enqueue task =>
    obtain rfl := Option.some.inj h
    refine safe_map (safe_lift
      (safe_routine (enqueue_routine _ ?_)))
    intro t data ht hdata
    obtain ⟨e, -, rfl⟩ := Option.map_eq_some_iff.mp ht
    refine again_marshal (t := ⟨e, ⟨p.threads.length, e⟩⟩) ?_ ?_ ?_ hdata
    · intro ho
      have hzero : e.attempt = 0 := ho
      simp only [hzero]
      exact hlimit
    · rfl
    · exact normalize_attempt e
  | worker ctx config n waits =>
    simp only [startWorker] at h
    split at h
    · rename_i hc
      obtain rfl := Option.some.inj h
      refine safe_map (loop_safe (harmless codec q limit _)
        (fun _ => safe_lift (safe_routine (newConsumer_routine ctx _)))
        (fun c _ => consume_safe c waits) ?_ n _)
      rintro d s ⟨d', rfl, hd'⟩
      exact process_safe config hc hd'
    · cases h

theorem empty_capped (now : Int) : CapInv codec q limit (World.empty now) := by
  refine ⟨fun name => ⟨⟨?_, ?_, ?_, ?_, ?_, ?_⟩, ?_, ?_⟩, ?_⟩ <;>
    simp [World.empty, Queue.ledger, Stream.cursor, Stream.pending]

/-- At every claim, the entry that is claimed has an attempt left. -/
def BelowLimit (codec : Codec) (limit : Int) (_thread : Nat) (s : World × List HandlerEvent) :
    Command ⊕ WorkerCommand → Prop
  | .inl c => ClaimBelow codec limit s.1 c
  | .inr _ => True

instance (i : Nat) (s : World × List HandlerEvent) (c : Command ⊕ WorkerCommand) :
    Decidable (BelowLimit codec limit i s c) := by
  cases c <;> unfold BelowLimit <;> infer_instance

/-- In every run in which only entries with an attempt left are claimed, no handler is started
beyond the limit. -/
theorem starts_within_limit (hlimit : 1 ≤ limit) (codec : Codec) (q : Queue) (now : Int)
    (actions : List (Action (Label × WorkerLabel) Int WorkerCall))
    (h : (workers codec q limit).Meets (BelowLimit codec limit) ⟨(World.empty now, []), []⟩ actions) :
    StartsWithin limit
      ((workers codec q limit).run ⟨(World.empty now, []), []⟩ actions).world.2 := by
  have hok : BelowLimit codec limit = (workerLimits codec q limit).Ok := by
    funext i s c
    cases c <;> rfl
  have hinit : (workerLimits codec q limit).Inv (World.empty now, []) :=
    ⟨empty_capped now, fun e he => by cases he⟩
  have hpool := safePool_of_run (workerLimits codec q limit)
    (fun _ _ _ _ => True) (fun _ _ _ _ _ _ _ _ => trivial)
    (fun p call prog _ hs => startWorker_safe hlimit hs)
    (safePool_nil hinit fun _ => trivial) actions (hok ▸ h)
  exact hpool.inv.2

/-- A retried task, under a limit of two. -/
theorem starts_within_limit_retry :
    let e : Envelope := ⟨"1", "mail", "", [], [], 0, 0, 0⟩
    let stored : Envelope := { e with queue := "default" }
    let codec := Codec.ofTable [(stored, "json 0"), ({ stored with attempt := 1 }, "json 1")]
      (by decide)
    let q : Queue := ⟨"queue", "queue", "worker", 100, 1, 0⟩
    let c : WorkerConfig := ⟨"", "", 2, ["mail"], fun _ => 0, fun _ _ => true, by decide⟩
    let ok : Label × WorkerLabel := (⟨.none, "", 0⟩, ⟨false, none⟩)
    let failed : Label × WorkerLabel := (⟨.none, "", 0⟩, ⟨false, some ⟨false, none, none, "boom"⟩⟩)
    let actions : List (Action (Label × WorkerLabel) Int WorkerCall) :=
      [.spawn (.enqueue (some e)), .run 0 ok, .run 0 ok, .spawn (.worker none c 2 1)] ++
        List.replicate 8 (.run 1 ok) ++ [.run 1 failed] ++ List.replicate 11 (.run 1 ok)
    let handled := ((workers codec q 2).run ⟨(World.empty 0, []), []⟩ actions).world.2
    StartsWithin 2 handled ∧ handled.map (fun e => (e.started, e.task.attempt)) =
      [(true, 1), (false, 1), (true, 2)] := by
  intro e stored codec q c ok failed actions handled
  exact ⟨starts_within_limit (by decide) codec q 0 actions (by decide +kernel), by decide +kernel⟩

/-- A consumer that stops while the handler runs: another one claims the entry, and the handler
is started with `Attempt` 2 though one attempt is allowed. -/
theorem handler_started_beyond_limit :
    let e : Envelope := ⟨"1", "mail", "", [], [], 0, 0, 0⟩
    let codec := Codec.ofTable [({ e with queue := "default" }, "json")] (by decide)
    let q : Queue := ⟨"queue", "queue", "worker", 100, 1, 0⟩
    let c : WorkerConfig := ⟨"", "", 1, ["mail"], fun _ => 0, fun _ _ => true, by decide⟩
    let ok : Label × WorkerLabel := (⟨.none, "", 0⟩, ⟨false, none⟩)
    let actions : List (Action (Label × WorkerLabel) Int WorkerCall) :=
      [.spawn (.enqueue (some e)), .run 0 ok, .run 0 ok, .spawn (.worker none c 1 1)] ++
        List.replicate 8 (.run 1 ok) ++ [.shift 10, .spawn (.worker none c 1 1)] ++
        List.replicate 7 (.run 2 ok)
    ¬ StartsWithin 1 ((workers codec q 1).run ⟨(World.empty 0, []), []⟩ actions).world.2 := by
  decide +kernel

end Workers

end Fries.RedisQueue
