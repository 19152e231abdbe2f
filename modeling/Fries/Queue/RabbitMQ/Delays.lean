import Fries.Lib.Table
import Fries.Queue.RabbitMQ.Confirm
import Fries.Queue.RabbitMQ.Names

/-! The delay queues: every call declares the queue it publishes to. -/
namespace Fries.RabbitQueue

open Fries.Queue Prog Word

/-- What a queue is declared with: whether it is durable, and its arguments. -/
abbrev Declaration := Bool × List (String × Argument)

def Command.declaration : Command → Option (String × Declaration)
  | .queueDeclare name durable arguments => some (name, durable, arguments)
  | _ => none

def Declaration.number (d : Declaration) (key : String) : Option Int :=
  match d.2.lookup key with
  | some (.int n) => some n
  | _ => none

/-- How long a message stays in the queue, in milliseconds. -/
def Declaration.messageTTL (d : Declaration) : Option Int := d.number "x-message-ttl"

/-- How long the queue stays without use, in milliseconds. -/
def Declaration.expires (d : Declaration) : Option Int := d.number "x-expires"

def Queue.delayDeclaration (q : Queue) (name : String) (delay : Int) : Declaration :=
  (q.durable,
    [("x-message-ttl", .int (durationMillis delay)),
     ("x-expires", .int (durationMillis (wrap64 (delay + q.delayQueueTTL)))),
     ("x-dead-letter-exchange", .text defaultExchange),
     ("x-dead-letter-routing-key", .text (q.readyQueueName name))])

/-- The trace of a call at `now` that publishes a task of a logical queue, which is available from
`availableAt` on, with a delay. -/
inductive Delayed (q : Queue) (marshal : Marshal) (name : String) (now : Int) :
    Int → Int → Trace → Prop
  | enqueue (hname : task.normalize.queue = name) (h : Runs (q.enqueue marshal (some task)) t rest)
      (hnow : ⟨.now, now⟩ ∈ t) :
    Delayed q marshal name now task.availableAt (delayFromAvailableAt now task.availableAt) t
  | retry (hname : task.queue = name) (hdelay : Fits delay)
      (h : Runs ((⟨q, some task, tag⟩ : Delivery).retry marshal delay) t rest)
      (hnow : ⟨.now, now⟩ ∈ t) : Delayed q marshal name now (now + delay) delay t

variable {q : Queue} {marshal : Marshal} {name : String} {now availableAt delay d delay' : Int}
  {t : Trace}

/-- What a step may do in a call that publishes with a delay. -/
structure Queue.Sends (q : Queue) (name : String) (delay : Int) (c : Command) : Prop where
  declares : ∀ target d, c.declaration = some (target, d) →
    (target, d) = (q.readyQueueName name, q.durable, []) ∨
      0 < delay ∧ (target, d) = (q.delayQueueName name delay, q.delayDeclaration name delay)
  publishes : ∀ exchange key msg, c = .publishWithContext exchange key msg →
    key = q.target name delay

theorem sends_of_plain {c : Command} (hdeclares : c.declaration = none)
    (hpublishes : ∀ exchange key msg, c ≠ .publishWithContext exchange key msg) :
    q.Sends name delay c := by
  refine ⟨?_, ?_⟩
  · intro target d h
    rw [hdeclares] at h
    cases h
  · intro exchange key msg h
    exact absurd h (hpublishes exchange key msg)

theorem sends_channel (c : Command) (h : c.isChannel = true) :
    q.Sends name delay c ∧ c ≠ .now := by
  cases c with
  | now | queueDeclare | publishWithContext | ack => cases h
  | _ => exact ⟨sends_of_plain rfl (by simp), by simp⟩

theorem sends_declare {target : String} {arguments : List (String × Argument)}
    (h : (target, q.durable, arguments) = (q.readyQueueName name, q.durable, []) ∨
      0 < delay ∧ (target, q.durable, arguments) =
        (q.delayQueueName name delay, q.delayDeclaration name delay)) :
    (q.declareQueue target arguments).Only fun c => q.Sends name delay c ∧ c ≠ .now := by
  refine only_map _ (issue_only ⟨⟨?_, by simp⟩, by simp⟩)
  intro target' d hd
  cases hd
  exact h

theorem publishTask_sends (q : Queue) (marshal : Marshal) (task : Envelope) (delay : Int) :
    (q.publishTask marshal task delay).Only
      fun c => q.Sends task.queue delay c ∧ c ≠ .now := by
  refine publishTask_only sends_channel (sends_declare (.inl rfl)) ?_ ?_
  · intro hpos
    exact sends_declare (.inr ⟨hpos, rfl⟩)
  · intro msg
    refine ⟨⟨by simp [Command.declaration], ?_⟩, by simp⟩
    intro exchange key msg' h
    cases h
    rfl

theorem ack_sends (q : Queue) (name : String) (delay : Int) (d : Delivery) :
    d.ack.Only fun c => q.Sends name delay c ∧ c ≠ .now := by
  refine check_only (ctxErr_only (sends_channel _ rfl)) ?_
  split
  · trivial
  · exact only_map _ (issue_only ⟨sends_of_plain rfl (by simp), by simp⟩)

/-- After the check of its context, a call reads the clock once and goes on with the reading. -/
theorem runs_clock {P : Command → Prop} {f : Int → Program (Option Error)}
    {rest : Program (Option Error)} (h : Runs (check ctxErr (issue .now >>= f)) t rest)
    (hnow : ⟨.now, now⟩ ∈ t) (hclock : ∀ now, (f now).Only fun c => c ≠ .now)
    (hP : (f now).Only P) : ∀ e ∈ t, e.1 = .ctxErr ∨ e.1 = .now ∨ P e.1 := by
  obtain ⟨t₀, r, hend⟩ := runs_extend response_nonempty h
  have hctx : ∀ {u p}, Runs ctxErr u p → ∀ e ∈ u, e.1 = .ctxErr :=
    fun h => runs_only (ctxErr_only (P := fun c => c = .ctxErr) rfl) h
  rcases runs_check hend with ⟨err, -, hfail⟩ | ⟨t₁, t₂, ht, hpass, h₂⟩
  · intro e he
    exact .inl (hctx hfail e (List.mem_append_left t₀ he))
  · obtain ⟨now', t₃, rfl, h₃⟩ := runs_call h₂
    have hmem : ∀ e ∈ t, e ∈ t₁ ∨ e = ⟨.now, now'⟩ ∨ e ∈ t₃ := by
      intro e he
      have := List.mem_append_left t₀ he
      rw [ht] at this
      simpa using this
    have heq : now = now' := by
      rcases hmem _ hnow with hfirst | hread | hlast
      · cases hctx hpass _ hfirst
      · cases hread
        rfl
      · exact absurd rfl (runs_only (hclock now') h₃ _ hlast)
    subst heq
    intro e he
    rcases hmem e he with hfirst | rfl | hlast
    · exact .inl (hctx hpass e hfirst)
    · exact .inr (.inl rfl)
    · exact .inr (.inr (runs_only hP h₃ e hlast))

section

variable (h : Delayed q marshal name now availableAt delay t)

include h

/-- Every step of a call that publishes with a delay. -/
theorem delayed_sends : ∀ e ∈ t, q.Sends name delay e.1 := by
  have hstep : ∀ f : Int → Program (Option Error), ∀ rest,
      Runs (check ctxErr (issue .now >>= f)) t rest → ⟨.now, now⟩ ∈ t →
      (∀ now, (f now).Only fun c => c ≠ .now) → ((f now).Only fun c => q.Sends name delay c) →
      ∀ e ∈ t, q.Sends name delay e.1 := by
    intro f rest hrun hnow hclock hsends e he
    rcases runs_clock hrun hnow hclock hsends e he with hc | hc | hc
    · exact hc ▸ sends_of_plain rfl (by simp)
    · exact hc ▸ sends_of_plain rfl (by simp)
    · exact hc
  cases h with
  | enqueue hname h hnow =>
    subst hname
    exact hstep _ _ h hnow (fun now => only_mono (fun c hc => hc.2) (publishTask_sends ..))
      (only_mono (fun c hc => hc.1) (publishTask_sends ..))
  | retry hname hdelay h hnow =>
    subst hname
    refine hstep _ _ h hnow (fun now => ?_) ?_
    · exact check_only (only_mono (fun c hc => hc.2) (publishTask_sends ..))
        (only_mono (fun c hc => hc.2) (ack_sends q "" 0 _))
    · exact check_only (only_mono (fun c hc => hc.1) (publishTask_sends ..))
        (only_mono (fun c hc => hc.1) (ack_sends ..))

/-- A delay of a call is one of 64 bits, and it ends when the task is available or, if that is
too far away, before. -/
theorem delayed_ends (hpos : 0 < delay) :
    Fits delay ∧ (availableAt = now + delay ∨ delay = maxInt64 ∧ now + delay < availableAt) := by
  cases h with
  | enqueue hname h hnow =>
    unfold delayFromAvailableAt timeSub at *
    unfold Fits maxInt64
    unfold maxInt64 at *
    split at hpos
    · omega
    · rename_i hfuture
      rw [if_neg hfuture]
      split
      · exact ⟨by omega, .inr ⟨rfl, by omega⟩⟩
      · exact ⟨by omega, .inl (by omega)⟩
  | retry hname hdelay h hnow => exact ⟨hdelay, .inl rfl⟩

/-- The queue with a message TTL that a call declares is the delay queue of its delay. -/
theorem delayed_declares {e : (c : Command) × Response c} (he : e ∈ t) {target : String}
    {d : Declaration} {ttl : Int} (hd : e.1.declaration = some (target, d))
    (httl : d.messageTTL = some ttl) :
    0 < delay ∧ target = q.delayQueueName name delay ∧ d = q.delayDeclaration name delay ∧
      ttl = durationMillis delay := by
  rcases (delayed_sends h e he).declares target d hd with hready | ⟨hpos, hdelay⟩
  · cases hready
    cases httl
  · cases hdelay
    cases httl
    exact ⟨hpos, rfl, rfl, rfl⟩

end

theorem durationMillis_eq (h : 0 < d) : durationMillis d = max 1 (d / 1000000) := by
  have hms : millisecond = 1000000 := rfl
  unfold durationMillis
  rw [hms, if_neg (by omega)]
  split
  · omega
  · rw [Int.tdiv_eq_ediv_of_nonneg (by omega)]
    omega

/-- A retry with a delay up to the declaration of its delay queue. -/
def retryStart (delay : Int) : Trace :=
  [⟨.ctxErr, none⟩, ⟨.now, (5 : Int)⟩, ⟨.ctxErr, none⟩, ⟨.open, .ok true⟩,
   ⟨.queueDeclare "default" true [], none⟩,
   ⟨.queueDeclare ((newQueue true []).delayQueueName "default" delay) true
      ((newQueue true []).delayDeclaration "default" delay).2, none⟩]

theorem retryStart_delayed (hdelay : Fits delay) (hpos : 0 < delay) :
    Delayed (newQueue true []) (fun _ => .ok "body") "default" 5 (5 + delay) delay
      (retryStart delay) := by
  have hrun : ∃ rest, Runs ((⟨newQueue true [], some ⟨"id", "mail", "default", [], [], 1, 0, 0⟩,
      7⟩ : Delivery).retry (fun _ => .ok "body") delay) (retryStart delay) rest := by
    simp only [Delivery.retry, Queue.publishTask, publishingFromTask, if_pos hpos]
    exact ⟨_, .step _ (.step _ (.step _ (.step _ (.step _ (.step _ (.done _))))))⟩
  obtain ⟨rest, hrun⟩ := hrun
  exact .retry rfl hdelay hrun (by simp [retryStart])

theorem retryStart_declares (delay : Int) :
    ⟨.queueDeclare ((newQueue true []).delayQueueName "default" delay) true
      ((newQueue true []).delayDeclaration "default" delay).2, none⟩ ∈ retryStart delay := by
  simp [retryStart]

/-- A task that stays in the delay queue for exactly the declared message TTL is not back in the
ready queue before it is available exactly if the delay is whole milliseconds, or at most one. -/
theorem message_ttl_covers_delay (h : Delayed q marshal name now availableAt delay t)
    {e : (c : Command) × Response c} (he : e ∈ t) {target : String} {d : Declaration} {ttl : Int}
    (hd : e.1.declaration = some (target, d)) (httl : d.messageTTL = some ttl) :
    (∀ e ∈ t, ∀ exchange key msg, e.1 = .publishWithContext exchange key msg → key = target) ∧
    (delay ≤ ttl * millisecond ↔ delay ≤ millisecond ∨ millisecond ∣ delay) ∧
    ((∀ published, now ≤ published → availableAt ≤ published + ttl * millisecond) ↔
      delay ≤ millisecond ∨ millisecond ∣ delay) := by
  obtain ⟨hpos, rfl, -, rfl⟩ := delayed_declares h he hd httl
  obtain ⟨-, hends⟩ := delayed_ends h hpos
  have hms : millisecond = 1000000 := rfl
  have hcovers : delay ≤ durationMillis delay * millisecond ↔
      delay ≤ millisecond ∨ millisecond ∣ delay := by
    rw [durationMillis_eq hpos, hms]
    omega
  refine ⟨?_, hcovers, ?_⟩
  · intro e he exchange key msg hc
    rw [(delayed_sends h e he).publishes exchange key msg hc, Queue.target, if_pos hpos]
  · constructor
    · intro hreturn
      have := hreturn now (Int.le_refl now)
      exact hcovers.mp (by omega)
    · intro hwhole published hpublished
      have hle := hcovers.mpr hwhole
      rcases hends with rfl | ⟨rfl, -⟩
      · omega
      · exact absurd hwhole (by decide)

theorem message_ttl_covers_delay_second :
    second ≤ 1000 * millisecond ∧ 5 + second ≤ 7 + 1000 * millisecond := by
  obtain ⟨-, hcovers, hreturns⟩ := message_ttl_covers_delay
    (retryStart_delayed (by decide) (by decide)) (retryStart_declares second) rfl rfl
  exact ⟨hcovers.mpr (by decide), hreturns.mpr (by decide) 7 (by decide)⟩

/-- A delay of one and a half milliseconds is over after one. -/
theorem message_ttl_rounded_down :
    Delayed (newQueue true []) (fun _ => .ok "body") "default" 5 (5 + 1500000) 1500000
        (retryStart 1500000) ∧
      ((newQueue true []).delayDeclaration "default" 1500000).messageTTL = some 1 ∧
      5 + 1 * millisecond < 5 + 1500000 :=
  ⟨retryStart_delayed (by decide) (by decide), rfl, by decide⟩

/-- The queue expiry in milliseconds; a sum that overflows becomes none at all. -/
theorem expires_eq (hfits : Fits q.delayQueueTTL) (hpos : 0 < delay) (hdelay : Fits delay) :
    durationMillis (wrap64 (delay + q.delayQueueTTL)) =
      if maxInt64 < delay + q.delayQueueTTL then 0
      else max 1 ((delay + q.delayQueueTTL) / 1000000) := by
  have hsum := q.ttl_pos
  split
  · rename_i hoverflow
    exact if_pos (Int.le_of_lt (wrap64_neg hdelay hfits hoverflow))
  · rename_i hsmall
    have hsumFits : Fits (delay + q.delayQueueTTL) := by
      unfold Fits
      unfold maxInt64 at hsmall
      omega
    rw [wrap64_eq hsumFits, durationMillis_eq (by omega)]

/-- The delay queue outlives the message in it exactly if delay and lifetime can be added and reach
two milliseconds. -/
theorem delay_queue_outlives_message (httl : millisecond ≤ q.delayQueueTTL)
    (hfits : Fits q.delayQueueTTL) (h : Delayed q marshal name now availableAt delay t)
    {e : (c : Command) × Response c} (he : e ∈ t) {target : String} {d : Declaration} {ttl : Int}
    (hd : e.1.declaration = some (target, d)) (hmessage : d.messageTTL = some ttl) :
    ∃ expires, d.expires = some expires ∧ (0 < ttl ∧ 0 < expires ∧ ttl < expires ↔
      delay + q.delayQueueTTL ≤ maxInt64 ∧
        (millisecond ≤ delay ∨ 2 * millisecond ≤ delay + q.delayQueueTTL)) := by
  obtain ⟨hpos, -, rfl, rfl⟩ := delayed_declares h he hd hmessage
  obtain ⟨hdelay, -⟩ := delayed_ends h hpos
  refine ⟨durationMillis (wrap64 (delay + q.delayQueueTTL)), rfl, ?_⟩
  have hms : millisecond = 1000000 := rfl
  rw [hms] at httl ⊢
  rw [expires_eq hfits hpos hdelay, durationMillis_eq hpos]
  split <;> omega

theorem delay_queue_outlives_message_second :
    ∃ expires, ((newQueue true []).delayDeclaration "default" second).expires = some expires ∧
      0 < (1000 : Int) ∧ 0 < expires ∧ 1000 < expires := by
  obtain ⟨expires, hexpires, hiff⟩ := delay_queue_outlives_message (by decide) (by decide)
    (retryStart_delayed (by decide) (by decide)) (retryStart_declares second) rfl rfl
  exact ⟨expires, hexpires, hiff.mpr (by decide)⟩

/-- The longest delay leaves its queue no time at all. -/
theorem delay_queue_expires_at_once :
    Delayed (newQueue true []) (fun _ => .ok "body") "default" 5 (5 + maxInt64) maxInt64
        (retryStart maxInt64) ∧
      ((newQueue true []).delayDeclaration "default" maxInt64).messageTTL = some 9223372036854 ∧
      ((newQueue true []).delayDeclaration "default" maxInt64).expires = some 0 :=
  ⟨retryStart_delayed (by decide) (by decide), rfl, rfl⟩

/-- The queue expiries of two delays are rounded to the same number. -/
def SameExpiry (ttl delay delay' : Int) : Prop :=
  (maxInt64 < delay + ttl ∧ maxInt64 < delay' + ttl) ∨
    (delay + ttl ≤ maxInt64 ∧ delay' + ttl ≤ maxInt64 ∧
      ((delay + ttl) / millisecond = (delay' + ttl) / millisecond ∨
        (delay + ttl < 2 * millisecond ∧ delay' + ttl < 2 * millisecond)))

instance (ttl delay delay' : Int) : Decidable (SameExpiry ttl delay delay') :=
  inferInstanceAs (Decidable (_ ∨ _))

/-- A name tells the milliseconds of its delay. -/
theorem delayQueueName_injective (hpos : 0 < delay) (hpos' : 0 < delay')
    (h : q.delayQueueName name delay = q.delayQueueName name delay') :
    durationMillis delay = durationMillis delay' := by
  obtain ⟨before, hrole⟩ := roleQueue_eq q
  rw [delayQueueName_role, delayQueueName_role, hrole, hrole] at h
  obtain ⟨heq, -⟩ := suffix_injective (by simp) (by simp) h
  have hnat := Role.delay.inj heq
  rw [durationMillis_eq hpos, durationMillis_eq hpos'] at hnat ⊢
  omega

theorem delayDeclaration_eq_iff (hfits : Fits q.delayQueueTTL) (hpos : 0 < delay)
    (hdelay : Fits delay) (hpos' : 0 < delay') (hdelay' : Fits delay')
    (h : q.delayQueueName name delay = q.delayQueueName name delay') :
    q.delayDeclaration name delay = q.delayDeclaration name delay' ↔
      SameExpiry q.delayQueueTTL delay delay' := by
  have hms : millisecond = 1000000 := rfl
  have hsum := q.ttl_pos
  have hexpires : q.delayDeclaration name delay = q.delayDeclaration name delay' ↔
      durationMillis (wrap64 (delay + q.delayQueueTTL)) =
        durationMillis (wrap64 (delay' + q.delayQueueTTL)) := by
    simp [Queue.delayDeclaration, delayQueueName_injective hpos hpos' h]
  rw [hexpires, expires_eq hfits hpos hdelay, expires_eq hfits hpos' hdelay', SameExpiry, hms]
  split <;> split <;> omega

/-- The delay queues that are declared in a trace. -/
def delayQueues (t : Trace) : List (String × Declaration) :=
  t.filterMap fun e => e.1.declaration.filter fun p => p.2.messageTTL.isSome

theorem delayQueues_eq (h : Delayed q marshal name now availableAt delay t)
    {p : String × Declaration} (hp : p ∈ delayQueues t) :
    0 < delay ∧ p = (q.delayQueueName name delay, q.delayDeclaration name delay) := by
  obtain ⟨e, he, hp⟩ := List.mem_filterMap.mp hp
  obtain ⟨hd, hmessage⟩ := Option.filter_eq_some_iff.mp hp
  obtain ⟨ttl, httl⟩ := Option.isSome_iff_exists.mp hmessage
  obtain ⟨hpos, hname, hdecl, -⟩ := delayed_declares h he hd httl
  exact ⟨hpos, Prod.ext hname hdecl⟩

/-- Two delays of a logical queue with one delay queue declare it alike exactly if their expiries
are rounded alike; and a broker accepts a sequence of calls exactly if any two of them do. -/
theorem delay_queues_agree (q : Queue) (hfits : Fits q.delayQueueTTL) (name : String) :
    (∀ delay delay', 0 < delay → Fits delay → 0 < delay' → Fits delay' →
      q.delayQueueName name delay = q.delayQueueName name delay' →
      (q.delayDeclaration name delay = q.delayDeclaration name delay' ↔
        SameExpiry q.delayQueueTTL delay delay')) ∧
    ∀ calls : List (Int × Trace),
      (∀ c ∈ calls, delayQueues c.2 ≠ [] ∧
        ∃ marshal now availableAt, Delayed q marshal name now availableAt c.1 c.2) →
      ((Table.extend (fun _ => none) (calls.flatMap fun c => delayQueues c.2)).isSome = true ↔
        calls.Pairwise fun c c' =>
          q.delayQueueName name c.1 = q.delayQueueName name c'.1 →
            SameExpiry q.delayQueueTTL c.1 c'.1) := by
  refine ⟨fun delay delay' hpos hdelay hpos' hdelay' h =>
    delayDeclaration_eq_iff hfits hpos hdelay hpos' hdelay' h, ?_⟩
  intro calls hcalls
  have hmem : ∀ c ∈ calls, 0 < c.1 ∧ Fits c.1 ∧ ∀ p, p ∈ delayQueues c.2 ↔
      p = (q.delayQueueName name c.1, q.delayDeclaration name c.1) := by
    intro c hc
    obtain ⟨hne, marshal, now, availableAt, h⟩ := hcalls c hc
    obtain ⟨p, hp⟩ := List.exists_mem_of_ne_nil _ hne
    obtain ⟨hpos, rfl⟩ := delayQueues_eq h hp
    refine ⟨hpos, (delayed_ends h hpos).1, fun p' => ⟨fun hp' => (delayQueues_eq h hp').2, ?_⟩⟩
    rintro rfl
    exact hp
  have hself : ∀ c ∈ calls, (delayQueues c.2).Pairwise fun p p' => p.1 = p'.1 → p.2 = p'.2 := by
    intro c hc
    refine List.pairwise_of_forall_mem_list fun p hp p' hp' _ => ?_
    rw [((hmem c hc).2.2 p).mp hp, ((hmem c hc).2.2 p').mp hp']
  rw [Table.isSome_extend, List.pairwise_flatMap, and_iff_right (by simp), and_iff_right hself]
  refine List.Pairwise.iff_of_mem fun {c c'} hc hc' => ?_
  obtain ⟨hpos, hdelay, hqueue⟩ := hmem c hc
  obtain ⟨hpos', hdelay', hqueue'⟩ := hmem c' hc'
  simp only [hqueue, hqueue', forall_eq]
  exact forall_congr' fun h => delayDeclaration_eq_iff hfits hpos hdelay hpos' hdelay' h

theorem delay_queues_agree_half :
    (Table.extend (fun _ => none) ([500000, 700000].flatMap fun delay =>
      delayQueues (retryStart delay))).isSome = true := by
  have h := ((delay_queues_agree (newQueue true []) (by decide) "default").2
    [(500000, retryStart 500000), (700000, retryStart 700000)] ?_).mpr (by decide)
  · exact h
  · intro c hc
    rcases List.mem_pair.mp hc with rfl | rfl <;>
      exact ⟨by decide, _, _, _, retryStart_delayed (by decide) (by decide)⟩

/-- Half a millisecond and a whole one share a queue, which is declared in two ways. -/
theorem delay_queues_conflict :
    Delayed (newQueue true []) (fun _ => .ok "body") "default" 5 (5 + 500000) 500000
        (retryStart 500000) ∧
      Delayed (newQueue true []) (fun _ => .ok "body") "default" 5 (5 + 1000000) 1000000
        (retryStart 1000000) ∧
      delayQueues (retryStart 500000) =
        [("default.delay.1", (newQueue true []).delayDeclaration "default" 500000)] ∧
      delayQueues (retryStart 1000000) =
        [("default.delay.1", (newQueue true []).delayDeclaration "default" 1000000)] ∧
      ((newQueue true []).delayDeclaration "default" 500000).expires = some 3600000 ∧
      ((newQueue true []).delayDeclaration "default" 1000000).expires = some 3600001 ∧
      (Table.extend (fun _ => none)
        (delayQueues (retryStart 500000) ++ delayQueues (retryStart 1000000))).isSome = false :=
  ⟨retryStart_delayed (by decide) (by decide), retryStart_delayed (by decide) (by decide),
    by decide +kernel, by decide +kernel, rfl, rfl, by decide +kernel⟩

end Fries.RabbitQueue
