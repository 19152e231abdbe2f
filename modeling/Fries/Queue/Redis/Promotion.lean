import Fries.Queue.Redis.Shelf

/-! When delayed tasks are promoted: by the nanoseconds of Unix time in 64 bits. -/
namespace Fries.RedisQueue

open Fries.Queue Word Service.Contract

/-- The service with a clock that only advances. -/
def timely (codec : Codec) (q : Queue) : Service World Label Nat Call Command Response Outcome where
  exec := exec codec
  shift := fun elapsed w => { w with now := w.now + elapsed }
  start := start codec q

/-- The start of the year 2200. -/
def year2200 : Int := unixEpoch + 7258118400 * second

variable {codec : Codec} {q : Queue} {i : Nat} {w w' : World} {name : String} {c : Command}

/-- The score of a delayed entry is that of its task, which was to wait when it was added. -/
def Scored (codec : Codec) (score : Int) (member : Value) : Prop :=
  ∃ b e, codec.cjsonTask member.bytes = some b ∧ codec.unmarshal b = some e ∧
    score = unixNano e.availableAt ∧ unixEpoch < e.availableAt

structure Timed (codec : Codec) (w : World) : Prop where
  scored : ∀ key, ∀ p ∈ w.zsets key, Scored codec p.1 p.2
  begun : unixEpoch ≤ w.now

/-- What a command may do: add an entry with its score, and promote what is due by now. -/
def Command.Timely (codec : Codec) (w : World) : Command → Prop
  | .zadd _ score member => Scored codec score member
  | .promote _ _ due _ field =>
    field = taskField ∧ ∃ t, unixEpoch ≤ t ∧ t ≤ w.now ∧ due = unixNano t
  | _ => True

theorem apply_timed (hw : Timed codec w) (hc : c.Timely codec w) (l : Label) :
    Timed codec (apply codec i l w c).2 ∧ (apply codec i l w c).2.now = w.now := by
  rcases apply_zsets codec i l w c with ⟨key, score, m, rfl⟩ | ⟨hnow, hzsets⟩
  · refine ⟨⟨fun key' p hp => ?_, hw.begun⟩, rfl⟩
    rcases mem_zadd hp with hold | ⟨rfl, hbytes, -⟩
    · exact hw.scored key' p hold
    · have hscored : Scored codec p.1 m := hc
      simpa [Scored, hbytes] using hscored
  · exact ⟨⟨fun key p hp => hw.scored key p (hzsets key p hp), hnow ▸ hw.begun⟩, hnow⟩

theorem exec_timed (hw : Timed codec w) (hc : c.Timely codec w) (l : Label) :
    Timed codec (exec codec i l w c).2 ∧ (exec codec i l w c).2.now = w.now :=
  exec_world (P := fun w' => Timed codec w' ∧ w'.now = w.now) ⟨hw, rfl⟩ (apply_timed hw hc l)

/-- Threads rely on time passing, and on nothing else. -/
def clock (codec : Codec) (q : Queue) : (timely codec q).Contract where
  Inv := Timed codec
  Rely _ w w' := w.now ≤ w'.now
  Guar _ w w' := w.now ≤ w'.now
  Unused _ _ := True
  Ok _ _ _ := True
  Issue _ w c := c.Timely codec w
  rely_refl _ w := Int.le_refl w.now
  rely_trans _ _ _ _ := Int.le_trans
  rely_of_guar _ _ _ _ _ _ h := h
  inv_shift elapsed w h := ⟨h.scored, by
    have := h.begun
    simp only [timely]
    omega⟩
  rely_shift elapsed _ w _ := by
    simp only [timely]
    omega
  unused_rely _ _ _ h _ := h

section Calls

variable {α : Type} {post : α → World → Prop}

theorem clock_call {c : Command} {k : Response c → Program α}
    (h : ∀ w', w.now ≤ w'.now → Timed codec w' → c.Timely codec w' ∧
      ∀ l, (clock codec q).Safe i post (k (exec codec i l w' c).1) (exec codec i l w' c).2) :
    (clock codec q).Safe i post (.call c k) w := by
  intro w' l hr hi _
  obtain ⟨hc, hk⟩ := h w' hr hi
  obtain ⟨hinv, hnow⟩ := exec_timed hi hc l
  exact ⟨hc, hinv, Int.le_of_eq hnow.symm, hk l⟩

/-- A command that neither adds to the delayed set nor promotes. -/
def Command.Plain (c : Command) : Prop := ∀ codec w, c.Timely codec w

theorem clock_plain {p : Program α} (hp : p.Only Command.Plain) (hpost : ∀ a w, post a w) :
    (clock codec q).Safe i post p w := by
  induction p generalizing w with
  | ret a => exact hpost a w
  | call c k ih => exact clock_call fun w' _ _ => ⟨hp.1 codec w', fun l => ih _ (hp.2 _)⟩

theorem newDelayedEntry_clock (data : Value) :
    (clock codec q).Safe i (fun r _ => ∀ m, r = .ok m → codec.cjsonTask m.bytes = some data.bytes)
      (Queue.newDelayedEntry codec data) w := by
  refine clock_call fun w₁ _ _ => ⟨trivial, fun l => ?_⟩
  cases (exec codec i l w₁ .random).1 with
  | error err =>
    intro m hm
    cases hm
  | ok token =>
    refine clock_call fun w₂ _ _ => ⟨trivial, fun l₂ => ?_⟩
    rw [exec_now]
    cases hm : codec.marshalEntry (token ++ "-" ++ toString (unixNano w₂.now)) data.bytes with
    | none =>
      simp only [Prog.bind, hm]
      intro m h
      cases h
    | some entry =>
      simp only [Prog.bind, hm]
      intro m h
      obtain rfl : ⟨entry, data.origin⟩ = m := Except.ok.inj h
      exact codec.cjsonTask_entry hm

theorem enqueue_clock (task : Option Task) :
    (clock codec q).Safe i (fun _ _ => True) (q.enqueue codec task) w := by
  cases task with
  | none => trivial
  | some task =>
    simp only [Queue.enqueue]
    cases hdata : marshal codec ⟨task.toEnvelope.normalize, task.origin⟩ with
    | none => trivial
    | some data =>
      obtain ⟨b, hb, rfl⟩ := Option.map_eq_some_iff.mp hdata
      refine clock_call fun w₁ _ hw₁ => ⟨trivial, fun l => ?_⟩
      rw [exec_now]
      simp only [Prog.bind]
      split
      · rename_i hfuture
        refine safe_bind (safe_weaken ?_
          (newDelayedEntry_clock _))
        intro r w₂ hr
        cases r with
        | error err => trivial
        | ok m =>
          refine clock_call fun w₃ _ _ => ⟨⟨b, _, hr m rfl, codec.unmarshal_marshal hb, rfl, ?_⟩,
            fun _ => trivial⟩
          exact Int.lt_of_le_of_lt hw₁.begun hfuture
      · exact clock_call fun w₂ _ _ => ⟨trivial, fun _ => trivial⟩

theorem promoteDue_clock (name : String) :
    (clock codec q).Safe i (fun _ _ => True) (q.promoteDue name) w := by
  refine clock_call fun w₁ _ hw₁ => ⟨trivial, fun l => ?_⟩
  rw [exec_now]
  refine clock_call fun w₂ hlater _ => ⟨⟨rfl, w₁.now, hw₁.begun, hlater, rfl⟩, fun _ => trivial⟩

/-- What a claim or a group read is followed by is plain. -/
theorem reject_plain {α : Type} (q : Queue) (name : String) (err : Error) :
    (q.reject name err : Program (Except Error α)).Only Command.Plain := by
  cases err with
  | malformed id text => exact ⟨fun _ _ => trivial, fun _ => trivial⟩
  | _ => trivial

theorem leaseClaimed_plain (codec : Codec) (q : Queue) (name : String)
    (r : Except RedisError (List Entry)) : (q.leaseClaimed codec name r).Only Command.Plain := by
  rcases r with err | _ | ⟨message, rest⟩
  · cases err <;> trivial
  · trivial
  · refine ⟨fun _ _ => trivial, fun r => ?_⟩
    rcases r with err | _ | ⟨p, rest⟩
    · cases err <;> trivial
    · trivial
    · trivial

theorem claimPendingForConsumer_plain (codec : Codec) (q : Queue) (name consumer : String)
    (minIdle : Int) :
    (q.claimPendingForConsumer codec name consumer minIdle).Only Command.Plain := by
  refine ⟨fun _ _ => trivial, fun r => ?_⟩
  rcases r with err | _ | ⟨message, rest⟩
  · exact leaseClaimed_plain codec q name (.error err)
  · refine ⟨fun _ _ => trivial, fun r => ?_⟩
    rcases r with err | _ | ⟨p, rest⟩
    · cases err <;> trivial
    · trivial
    · exact ⟨fun _ _ => trivial, fun r => leaseClaimed_plain codec q name r⟩
  · exact leaseClaimed_plain codec q name (.ok (message :: rest))

theorem readNew_plain (codec : Codec) (q : Queue) (name consumer : String) :
    (q.readNew codec name consumer).Only Command.Plain := by
  refine ⟨fun _ _ => trivial, fun r => ?_⟩
  rcases r with err | _ | ⟨message, rest⟩
  · cases err <;> trivial
  · trivial
  · simp only [Prog.bind]
    split
    · trivial
    · exact reject_plain q name _

theorem receiveForConsumer_clock (name consumer : String) :
    (clock codec q).Safe i (fun _ _ => True) (q.receiveForConsumer codec name consumer) w := by
  refine safe_bind (safe_weaken ?_ (promoteDue_clock name))
  intro r w₁ _
  cases r with
  | error err => trivial
  | ok u =>
    refine clock_plain ?_ fun _ _ => trivial
    simp only
    split
    · refine Prog.only_bind (claimPendingForConsumer_plain codec q name consumer _) fun r => ?_
      rcases r with err | _ | d
      · exact reject_plain q name err
      · exact readNew_plain codec q name consumer
      · trivial
    · exact readNew_plain codec q name consumer

theorem receive_clock (c : Consumer) (rounds : Nat) :
    (clock codec q).Safe i (fun _ _ => True) (q.receive codec c rounds) w := by
  induction rounds generalizing w with
  | zero => trivial
  | succ rounds ih =>
    refine safe_bind (safe_weaken ?_
      (receiveForConsumer_clock c.name c.consumerName))
    intro r w₁ _
    split
    · exact ih
    · trivial
    · trivial

theorem newConsumer_plain (q : Queue) (ctx : Option RedisError) (config : ConsumerConfig) :
    (q.newConsumer ctx config).Only Command.Plain :=
  newConsumer_only (fun _ _ _ => trivial) ctx config

theorem ack_plain (q : Queue) (d : Delivery) (settlement : Settlement) :
    (d.ack q settlement).Only Command.Plain :=
  ack_only fun _ _ => trivial

theorem deadLetter_plain (codec : Codec) (q : Queue) (d : Delivery) (reason : String) :
    (d.deadLetter codec q reason).Only Command.Plain :=
  deadLetter_only (fun _ _ _ => trivial) fun _ _ => trivial

theorem retry_clock (d : Delivery) (delay : Int) :
    (clock codec q).Safe i (fun _ _ => True) (d.retry codec q delay) w := by
  refine clock_call fun w₁ _ _ => ⟨trivial, fun l => ?_⟩
  rw [exec_now]
  simp only [Prog.bind]
  refine safe_bind (safe_weaken ?_ (enqueue_clock _))
  intro r w₂ _
  cases r with
  | error err => trivial
  | ok u => exact clock_plain (ack_plain q d .retry) fun _ _ => trivial

/-- Every call starts safe. -/
theorem start_clock {threads : List (Thread Call Command Response Outcome)} {call : Call}
    {prog : Program Outcome} (h : start codec q call threads = some prog) :
    (clock codec q).Safe i (fun _ _ => True) prog w := by
  cases call with
  | enqueue task =>
    obtain rfl := Option.some.inj h
    exact safe_map (enqueue_clock _)
  | newConsumer ctx config =>
    obtain rfl := Option.some.inj h
    exact safe_map
      (clock_plain (newConsumer_plain q ctx config) fun _ _ => trivial)
  | receive consumer rounds =>
    obtain rfl := Option.some.inj h
    exact safe_map (receive_clock consumer rounds)
  | ack j =>
    obtain ⟨d, -, rfl⟩ := Option.map_eq_some_iff.mp h
    exact safe_map (clock_plain (ack_plain q d .ack) fun _ _ => trivial)
  | retry j delay =>
    obtain ⟨d, -, rfl⟩ := Option.map_eq_some_iff.mp h
    exact safe_map (retry_clock d delay)
  | deadLetter j reason =>
    obtain ⟨d, -, rfl⟩ := Option.map_eq_some_iff.mp h
    exact safe_map
      (clock_plain (deadLetter_plain codec q d reason) fun _ _ => trivial)

end Calls

/-- In every run the invariant holds and each command is issued as it may be. -/
theorem run_clock {begin : Int} (hbegin : unixEpoch ≤ begin)
    (actions : List (Action Label Nat Call)) :
    (clock codec q).SafePool (fun _ _ _ _ => True)
      ((timely codec q).run ⟨World.empty begin, []⟩ actions) := by
  have hempty : Timed codec (World.empty begin) := by
    refine ⟨?_, hbegin⟩
    intro key p hp
    cases hp
  exact safePool_of_run (clock codec q) (fun _ _ _ _ => True)
    (fun _ _ _ _ _ _ _ _ => trivial) (fun p call prog _ h => start_clock h)
    (safePool_nil hempty fun _ => trivial) actions
    (Service.meets_of_forall (fun _ _ _ => trivial) _ _)

/-- What a promotion puts into the stream was due. -/
theorem promote_entries {delayed stream field : String} {due : Int} {limit : Nat} {entry : Entry}
    (hnew : entry ∈ ((w.promote codec delayed stream due limit field).streams stream).entries)
    (hold : entry ∉ (w.streams stream).entries) :
    ∃ p ∈ w.zsets delayed, p.1 ≤ due ∧ entry.fields =
      [(field, ⟨(codec.cjsonTask p.2.bytes).getD p.2.bytes, p.2.origin⟩)] := by
  have hloop : ∀ (tasks : List Value) (w : World), entry ∉ (w.streams stream).entries →
      entry ∈ ((tasks.foldl (World.promoteOne codec delayed stream field) w).streams
        stream).entries →
      ∃ member ∈ tasks, entry.fields =
        [(field, ⟨(codec.cjsonTask member.bytes).getD member.bytes, member.origin⟩)] := by
    intro tasks
    induction tasks with
    | nil => exact fun w hold hnew => absurd hnew hold
    | cons member tasks ih =>
      intro w hold hnew
      by_cases hfirst : entry ∈
          ((w.promoteOne codec delayed stream field member).streams stream).entries
      · simp only [World.promoteOne, World.zrem, World.setZset, World.xadd, World.setStream,
          Function.update_self, Int.lt_irrefl, if_false, List.mem_append,
          List.mem_singleton] at hfirst
        rcases hfirst with hmem | rfl
        · exact absurd hmem hold
        · exact ⟨member, List.mem_cons_self, rfl⟩
      · obtain ⟨member', hmem, hfields⟩ := ih _ hfirst hnew
        exact ⟨member', List.mem_cons_of_mem member hmem, hfields⟩
  obtain ⟨member, hmem, hfields⟩ := hloop _ w hold hnew
  obtain ⟨p, hp, rfl⟩ := List.mem_map.mp hmem
  have hdue := List.mem_filter.mp (List.mem_of_mem_take hp)
  exact ⟨p, hdue.1, by simpa using hdue.2, hfields⟩

/-- Within 64 bits a score that is due belongs to a time that has come; beyond them the time of
a task is later than any clock shows. -/
theorem due_iff {availableAt t now : Int} (hscore : unixNano availableAt ≤ unixNano t)
    (hwaits : unixEpoch < availableAt) (hbegun : unixEpoch ≤ t) (hpast : t ≤ now)
    (hnow : now ≤ year2200) : availableAt ≤ now ↔ Fits (availableAt - unixEpoch) := by
  have hyear : year2200 = unixEpoch + 7258118400000000000 := by decide
  rw [hyear] at hnow
  unfold unixNano wrap64 at hscore
  unfold Fits
  generalize unixEpoch = epoch at *
  omega

/-- In every run, whatever is enqueued and with whichever delays deliveries are retried: a task
that is promoted has become available exactly if 64 bits hold the nanoseconds of its time. -/
theorem promoted_on_time (codec : Codec) (q : Queue) {begin : Int} (hbegin : unixEpoch ≤ begin)
    (actions : List (Action Label Nat Call)) {i : Nat} {l : Label} {delayed stream field : String}
    {due : Int} {limit : Nat} {entry : Entry} :
    let p := (timely codec q).run ⟨World.empty begin, []⟩ actions
    p.world.now ≤ year2200 → p.next i = some (.promote delayed stream due limit field) →
    entry ∈ (((timely codec q).step p (.run i l)).world.streams stream).entries →
    entry ∉ (p.world.streams stream).entries →
    ∃ e, entry.envelope codec = some e ∧
      (e.availableAt ≤ p.world.now ↔ Fits (e.availableAt - unixEpoch)) := by
  intro p hnow hnext hnew hold
  have hpool : (clock codec q).SafePool (fun _ _ _ _ => True) p := run_clock hbegin actions
  obtain ⟨call, k, hthread⟩ := next_eq_some.mp hnext
  -- The command was issued with a time that has passed.
  obtain ⟨⟨rfl, t, hbegun, hpast, rfl⟩, -⟩ :=
    hpool.safe i _ hthread p.world l (Int.le_refl _) hpool.inv trivial
  have hstep : ((timely codec q).step p (.run i l)).world =
      (exec codec i l p.world (.promote delayed stream (unixNano t) limit taskField)).2 := by
    simp only [Service.step, hthread]
    rfl
  rw [hstep] at hnew
  have hpromoted : entry ∈ ((p.world.promote codec delayed stream (unixNano t) limit
      taskField).streams stream).entries := by
    rcases exec_cases codec i l p.world
      (.promote delayed stream (unixNano t) limit taskField) with he | ⟨cause, r, -, he | he⟩
    · rwa [he] at hnew
    · rw [he] at hnew
      exact absurd hnew hold
    · rwa [he] at hnew
  obtain ⟨m, hm, hdue, hfields⟩ := promote_entries hpromoted hold
  obtain ⟨b, e, htask, he, hscore, hwaits⟩ := hpool.inv.scored delayed m hm
  refine ⟨e, ?_, due_iff (hscore ▸ hdue) hwaits hbegun hpast hnow⟩
  simp only [Entry.envelope, hfields, htask, Option.getD_some]
  exact he

/-- The encodings with finitely many delayed entries, each with its id, its task and itself. -/
def Codec.withEntries (codec : Codec) (entries : List (String × String × String))
    (h : ∀ x ∈ entries, (entries.find? fun y => y.2.2 = x.2.2) = some x) : Codec where
  marshal := codec.marshal
  unmarshal := codec.unmarshal
  unmarshal_marshal := codec.unmarshal_marshal
  marshalEntry id b := (entries.find? fun x => x.1 = id ∧ x.2.1 = b).map fun x => x.2.2
  cjsonTask m := (entries.find? fun x => x.2.2 = m).map fun x => x.2.1
  cjsonTask_entry := by
    intro id b m hm
    obtain ⟨x, hx, rfl⟩ := Option.map_eq_some_iff.mp hm
    have hfirst : x.1 = id ∧ x.2.1 = b := by simpa using List.find?_some hx
    rw [h x (List.mem_of_find?_eq_some hx)]
    exact congrArg some hfirst.2
  entry_id := by
    intro id id' b b' m hm hm'
    obtain ⟨x, hx, rfl⟩ := Option.map_eq_some_iff.mp hm
    obtain ⟨x', hx', heq⟩ := Option.map_eq_some_iff.mp hm'
    have hfirst : x.1 = id ∧ x.2.1 = b := by simpa using List.find?_some hx
    have hfirst' : x'.1 = id' ∧ x'.2.1 = b' := by simpa using List.find?_some hx'
    have hfind := h x' (List.mem_of_find?_eq_some hx')
    rw [heq, h x (List.mem_of_find?_eq_some hx)] at hfind
    obtain rfl := Option.some.inj hfind
    exact hfirst.1.symm.trans hfirst'.1

section Retried

/-- A moment in the year 2023. -/
def moment : Int := unixEpoch + 1700000000 * second

def mail : Envelope := ⟨"1", "mail", "default", [], [], 0, 0, 0⟩

/-- The encodings of a task, of its retry with a delay at the moment, and of the delayed entry. -/
def mailCodec (delay : Int) : Codec :=
  (Codec.ofTable [(mail, "json 0"), ({ mail with attempt := 1, availableAt := moment + delay },
    "json 1")] (by simp)).withEntries
    [("00000000000000000000000000000000-1700000000000000000", "json 1", "entry")] (by simp)

def mailQueue : Queue := ⟨"queue", "queue", "worker", 100, 0, 0⟩

/-- A task is enqueued, received and retried with a delay; after some time another call is about to
promote. -/
def retriedRun (delay : Int) (elapsed : Nat) : List (Action Label Nat Call) :=
  let ok : Label := ⟨.none, "00000000000000000000000000000000", 0⟩
  [.spawn (.enqueue (some mail)), .run 0 ok, .run 0 ok,
    .spawn (.newConsumer none ⟨"", ""⟩), .run 1 ok,
    .spawn (.receive ⟨"default", "worker"⟩ 1), .run 2 ok, .run 2 ok, .run 2 ok,
    .spawn (.retry 2 delay), .run 3 ok, .run 3 ok, .run 3 ok, .run 3 ok, .run 3 ok, .run 3 ok,
    .shift elapsed, .spawn (.receive ⟨"default", "worker"⟩ 1), .run 4 ok]

/-- The pool in which the call is about to promote. -/
def retriedPool (delay : Int) (elapsed : Nat) : Pool World Call Command Response Outcome :=
  (timely (mailCodec delay) mailQueue).run ⟨World.empty moment, []⟩ (retriedRun delay elapsed)

/-- The entries of the stream once the call has promoted. -/
def promotedEntries (delay : Int) (elapsed : Nat) : List Entry :=
  (((timely (mailCodec delay) mailQueue).step (retriedPool delay elapsed)
    (.run 4 ⟨.none, "", 0⟩)).world.streams "queue:default:stream").entries

/-- The entry of the retried task. -/
def retriedEntry : Entry := ⟨2, [(taskField, ⟨"json 1", some ⟨0, mail⟩⟩)]⟩

deriving instance DecidableEq for Command

/-- A retry after five seconds is promoted when they are over. -/
theorem promoted_on_time_retried :
    ∃ e, retriedEntry.envelope (mailCodec (5 * second)) = some e ∧
      (e.availableAt ≤ (retriedPool (5 * second) 5000000000).world.now ↔
        Fits (e.availableAt - unixEpoch)) :=
  promoted_on_time (mailCodec (5 * second)) mailQueue (by decide)
    (retriedRun (5 * second) 5000000000)
    (i := 4) (l := ⟨.none, "", 0⟩) (by decide +kernel)
    (show (retriedPool (5 * second) 5000000000).next 4 = some (.promote "queue:default:delayed"
      "queue:default:stream" 1700000005000000000 100 taskField) by decide +kernel)
    (show retriedEntry ∈ promotedEntries (5 * second) 5000000000 by decide +kernel)
    (by decide +kernel)

/-- A retry after the longest delay is promoted at once. -/
theorem promoted_too_early :
    retriedEntry ∉ ((retriedPool maxInt64 0).world.streams "queue:default:stream").entries ∧
      retriedEntry ∈ promotedEntries maxInt64 0 ∧
      retriedEntry.envelope (mailCodec maxInt64) =
        some { mail with attempt := 1, availableAt := moment + maxInt64 } ∧
      (retriedPool maxInt64 0).world.now < moment + maxInt64 := by
  decide +kernel

end Retried

end Fries.RedisQueue
