import Fries.Lib.Trace
import Fries.Queue.RabbitMQ.Queue

/-! A delivery is acknowledged only once the copy in its place is confirmed. -/
namespace Fries.RabbitQueue

open Fries.Queue Prog

/-- The steps of the broker with their outcomes, in order. -/
abbrev Trace := List ((c : Command) × Response c)

variable {q : Queue} {p p' : Program (Option Error)} {t : Trace} {r : Option Error} {key : String}
  {msg : Publishing} {marshal : Marshal} {delay : Int}

def Command.isAck : Command → Bool
  | .ack _ => true
  | _ => false

/-- A program that never acknowledges. -/
abbrev Quiet {α : Type} (p : Program α) : Prop := p.Only fun c => c.isAck = false

/-- The message was published to the queue `key` and positively confirmed. -/
def Confirmed (key : String) (msg : Publishing) (t : Trace) : Prop :=
  [⟨.publishWithContext defaultExchange key msg, none⟩, ⟨.confirmation, .answered true⟩] <:+: t

theorem confirmed_append (before after : Trace) (h : Confirmed key msg t) :
    Confirmed key msg (before ++ t ++ after) :=
  h.trans (List.infix_append before t after)

/-- The first of two checked programs fails, or the second one ends with the result. -/
theorem runs_check (h : Runs (check p p') t (.ret r)) :
    (∃ err, r = some err ∧ Runs p t (.ret (some err))) ∨
      ∃ t₁ t₂, t = t₁ ++ t₂ ∧ Runs p t₁ (.ret none) ∧ Runs p' t₂ (.ret r) := by
  obtain ⟨t₁, t₂, a, rfl, hp, hp'⟩ := runs_bind h
  cases a with
  | none => exact .inr ⟨t₁, t₂, rfl, hp, hp'⟩
  | some err =>
    obtain ⟨rfl, ⟨⟩⟩ := runs_ret hp'
    exact .inl ⟨err, rfl, by simpa using hp⟩

/-- Two checked programs that end without an error. -/
theorem runs_check_none (h : Runs (check p p') t (.ret none)) :
    ∃ t₁ t₂, t = t₁ ++ t₂ ∧ Runs p t₁ (.ret none) ∧ Runs p' t₂ (.ret none) := by
  rcases runs_check h with ⟨_, hr, -⟩ | h
  · cases hr
  · exact h

theorem withChannel_none (h : Runs (q.withChannel p) t (.ret none)) :
    ∃ before during after, t = before ++ during ++ after ∧ Runs p during (.ret none) := by
  obtain ⟨t₁, t₂, rfl, -, h₂⟩ := runs_check_none h
  obtain ⟨t₃, t₄, err, rfl, hp, hclose⟩ := runs_bind h₂
  obtain ⟨closeErr, t₅, rfl, hend⟩ := runs_call hclose
  cases err with
  | none => exact ⟨t₁, t₃, _, (List.append_assoc _ _ _).symm, hp⟩
  | some err =>
    obtain ⟨-, ⟨⟩⟩ := runs_ret hend

theorem awaitConfirmation_none (h : Runs Queue.awaitConfirmation t (.ret none)) :
    t = [⟨.confirmation, .answered true⟩] := by
  obtain ⟨c, t', rfl, hend⟩ := runs_call h
  cases c with
  | contextDone cause | closed => cases (runs_ret hend).2
  | answered ack =>
    obtain ⟨rfl, hr⟩ := runs_ret hend
    cases ack with
    | true => rfl
    | false => cases hr

theorem publishWithContext_none (h : Runs (Queue.publishWithContext key msg) t (.ret none)) :
    t = [⟨.publishWithContext defaultExchange key msg, none⟩] := by
  obtain ⟨err, t', rfl, hend⟩ := runs_call h
  obtain ⟨rfl, hr⟩ := runs_ret hend
  cases err with
  | none => rfl
  | some cause => cases hr

/-- With confirms on, a publish without an error was confirmed. -/
theorem publish_confirmed (hq : q.publisherConfirm = true)
    (h : Runs (q.publish key msg) t (.ret none)) : Confirmed key msg t := by
  simp only [Queue.publish, hq] at h
  obtain ⟨t₁, t₂, rfl, -, h₂⟩ := runs_check_none h
  obtain ⟨u, t₃, rfl, h₃⟩ := runs_call h₂
  obtain ⟨t₄, t₅, rfl, hpublish, hconfirm⟩ := runs_check_none h₃
  rw [publishWithContext_none hpublish, awaitConfirmation_none hconfirm]
  exact ⟨t₁ ++ [⟨.notifyPublish, u⟩], [], by simp⟩

/-- The queue a task goes to. -/
def Queue.target (q : Queue) (name : String) (delay : Int) : String :=
  if 0 < delay then q.delayQueueName name delay else q.readyQueueName name

theorem publishTask_confirmed {task : Envelope} (hq : q.publisherConfirm = true)
    (h : Runs (q.publishTask marshal task delay) t (.ret none)) :
    ∃ msg, publishingFromTask marshal task = .ok msg ∧
      Confirmed (q.target task.queue delay) msg t := by
  unfold Queue.publishTask at h
  cases hmsg : publishingFromTask marshal task with
  | error err =>
    rw [hmsg] at h
    obtain ⟨-, ⟨⟩⟩ := runs_ret h
  | ok msg =>
    rw [hmsg] at h
    refine ⟨msg, rfl, ?_⟩
    obtain ⟨before, during, after, rfl, hfn⟩ := withChannel_none h
    obtain ⟨t₁, t₂, rfl, -, h₂⟩ := runs_check_none hfn
    have hconfirmed : Confirmed (q.target task.queue delay) msg t₂ := by
      unfold Queue.target
      split at h₂
      · rename_i hdelay
        obtain ⟨t₃, t₄, rfl, -, h₄⟩ := runs_check_none h₂
        rw [if_pos hdelay]
        simpa using confirmed_append t₃ [] (publish_confirmed hq h₄)
      · rename_i hdelay
        rw [if_neg hdelay]
        exact publish_confirmed hq h₂
    simpa using confirmed_append (before ++ t₁) after hconfirmed

section

variable {P : Command → Prop}

/-- The steps that every use of a channel takes, whatever it declares and publishes. -/
def Command.isChannel : Command → Bool
  | .ctxErr | .open | .confirm | .notifyPublish | .confirmation | .close => true
  | _ => false

theorem check_only (hp : p.Only P) (hp' : p'.Only P) : (check p p').Only P := by
  refine only_bind hp fun err => ?_
  cases err with
  | none => exact hp'
  | some err => trivial

theorem issue_only {c : Command} (h : P c) : (issue c).Only P := ⟨h, fun _ => trivial⟩

theorem ctxErr_only (h : P .ctxErr) : ctxErr.Only P := only_map _ (issue_only h)

section

variable (hP : ∀ c, c.isChannel = true → P c)

include hP

theorem openChannel_only (q : Queue) : q.openChannel.Only P := by
  refine check_only (ctxErr_only (hP _ rfl)) ?_
  split
  · trivial
  · refine only_bind (issue_only (hP _ rfl)) fun opened => ?_
    rcases opened with cause | _ | _ <;> trivial

theorem withChannel_only (hp : p.Only P) : (q.withChannel p).Only P := by
  refine check_only (openChannel_only hP q) (only_bind hp fun err => ?_)
  refine only_bind (issue_only (hP _ rfl)) fun closeErr => ?_
  cases err <;> trivial

theorem publish_only (q : Queue) (h : P (.publishWithContext defaultExchange key msg)) :
    (q.publish key msg).Only P := by
  have hpublish : (Queue.publishWithContext key msg).Only P := only_map _ (issue_only h)
  have hawait : Queue.awaitConfirmation.Only P := by
    refine only_bind (issue_only (hP _ rfl)) fun c => ?_
    cases c <;> trivial
  unfold Queue.publish
  split
  · exact hpublish
  · exact check_only (only_map _ (issue_only (hP _ rfl)))
      (only_bind (issue_only (hP _ rfl)) fun _ => check_only hpublish hawait)

/-- A task is published to one queue, after the declarations this takes. -/
theorem publishTask_only {task : Envelope} {delay : Int}
    (hready : (q.ensureReadyQueue task.queue).Only P)
    (hdelay : 0 < delay → (q.ensureDelayQueue task.queue (q.delayQueueName task.queue delay) delay).Only P)
    (hpublish : ∀ msg, P (.publishWithContext defaultExchange (q.target task.queue delay) msg)) :
    (q.publishTask marshal task delay).Only P := by
  unfold Queue.target at hpublish
  unfold Queue.publishTask
  split
  · trivial
  · refine withChannel_only hP (check_only hready ?_)
    split
    · rename_i hpos
      simp only [if_pos hpos] at hpublish
      exact check_only (hdelay hpos) (publish_only hP q (hpublish _))
    · rename_i hpos
      simp only [if_neg hpos] at hpublish
      exact publish_only hP q (hpublish _)

end

end

theorem channel_quiet (c : Command) (h : c.isChannel = true) : c.isAck = false := by
  cases c with
  | ack tag => cases h
  | _ => rfl

theorem ctxErr_quiet : Quiet ctxErr := ctxErr_only rfl

theorem declareQueue_quiet (q : Queue) (name : String) (arguments : List (String × Argument)) :
    Quiet (q.declareQueue name arguments) :=
  only_map _ (issue_only rfl)

theorem publishTask_quiet (q : Queue) (marshal : Marshal) (task : Envelope) (delay : Int) :
    Quiet (q.publishTask marshal task delay) :=
  publishTask_only channel_quiet (declareQueue_quiet _ _ _) (fun _ => declareQueue_quiet _ _ _)
    fun _ => rfl

variable {copied : Trace → Prop} {d : Delivery} {task : Envelope} {tag : Nat} {s : Settlement}
  {pre : Trace}

/-- What the outcome of a settlement and its trace have to do with each other: one
acknowledgement at most, none before the copy was confirmed, and no error exactly if it
succeeded. -/
structure Disciplined (copied : Trace → Prop) (tag : Nat) (t : Trace) (r : Option Error) :
    Prop where
  once : (t.filter fun e => e.1.isAck).length ≤ 1
  after : ∀ before e rest, t = before ++ e :: rest → e.1.isAck = true → copied before
  success : r = none ↔ ⟨.ack tag, none⟩ ∈ t

/-- An acknowledgement comes after all of a trace without any. -/
theorem quiet_initial {before rest : Trace} {e : (c : Command) × Response c}
    (hpre : ∀ e ∈ pre, e.1.isAck = false) (h : pre ++ t = before ++ e :: rest)
    (he : e.1.isAck = true) : ∃ m, before = pre ++ m ∧ t = m ++ e :: rest := by
  rcases List.append_eq_append_iff.mp h with ⟨m, hbefore, ht⟩ | ⟨m, hpre', ht⟩
  · exact ⟨m, hbefore, ht⟩
  · cases m with
    | nil => exact ⟨[], by simpa using hpre'.symm, by simpa using ht.symm⟩
    | cons x m =>
      obtain ⟨rfl, -⟩ := List.cons.inj ht
      have hquiet := hpre e (by simp [hpre'])
      rw [he] at hquiet
      cases hquiet

theorem quiet_filter (h : ∀ e ∈ t, e.1.isAck = false) (rest : Trace) :
    ((t ++ rest).filter fun e => e.1.isAck) = rest.filter fun e => e.1.isAck := by
  simpa [List.filter_eq_nil_iff] using h

theorem quiet_not_mem {err : Option String} (h : ∀ e ∈ t, e.1.isAck = false) :
    (⟨.ack tag, err⟩ : (c : Command) × Response c) ∉ t := by
  intro hmem
  cases h _ hmem

/-- A step that reports an error is one exchange. -/
theorem runs_reported {c : Command} {report : Response c → Option Error}
    (h : Runs (report <$> issue c) t (.ret r)) : ∃ a, t = [⟨c, a⟩] ∧ r = report a := by
  obtain ⟨a, t', rfl, hend⟩ := runs_call h
  obtain ⟨rfl, ⟨⟩⟩ := runs_ret hend
  exact ⟨a, rfl, rfl⟩

theorem ack_runs (htask : d.task = some task) (h : Runs d.ack t (.ret r)) :
    (∃ cause, t = [⟨.ctxErr, some cause⟩] ∧ r = some (.ctx cause)) ∨
      ∃ err : Option String, t = [⟨.ctxErr, none⟩, ⟨.ack d.tag, err⟩] ∧ r = err.map .broker := by
  unfold Delivery.ack at h
  rw [htask] at h
  rcases runs_check h with ⟨err, rfl, hctx⟩ | ⟨t₁, t₂, rfl, hctx, hack⟩
  · obtain ⟨cause, rfl, hr⟩ := runs_reported hctx
    cases cause with
    | none => cases hr
    | some cause => exact .inl ⟨cause, rfl, hr⟩
  · obtain ⟨cause, rfl, hr⟩ := runs_reported hctx
    obtain ⟨err, rfl, rfl⟩ := runs_reported hack
    cases cause with
    | none => exact .inr ⟨err, rfl, rfl⟩
    | some cause => cases hr

/-- What was exchanged before, without an acknowledgement, changes nothing. -/
theorem disciplined_append (hcopied : ∀ before t, copied t → copied (before ++ t))
    (hpre : ∀ e ∈ pre, e.1.isAck = false) (h : Disciplined copied tag t r) :
    Disciplined copied tag (pre ++ t) r := by
  refine ⟨?_, ?_, ?_⟩
  · rw [quiet_filter hpre]
    exact h.once
  · intro before e rest ht he
    obtain ⟨m, rfl, hm⟩ := quiet_initial hpre ht he
    exact hcopied pre m (h.after m e rest hm he)
  · rw [h.success, List.mem_append, or_iff_right (quiet_not_mem hpre)]

/-- Without an acknowledgement there is an error. -/
theorem disciplined_quiet {err : Error} (h : ∀ e ∈ t, e.1.isAck = false) :
    Disciplined copied tag t (some err) := by
  refine ⟨?_, ?_, iff_of_false nofun (quiet_not_mem h)⟩
  · rw [← List.append_nil t, quiet_filter h]
    exact Nat.zero_le 1
  · intro before e rest ht he
    rw [h e (by simp [ht])] at he
    cases he

/-- A copy that is confirmed whenever its program ends without an error, then the
acknowledgement. -/
theorem disciplined_check (hcopied : ∀ t rest, copied t → copied (t ++ rest))
    (htask : d.task = some task) (hquiet : Quiet p)
    (hp : ∀ t, Runs p t (.ret none) → copied t) (h : Runs (check p d.ack) t (.ret r)) :
    Disciplined copied d.tag t r := by
  rcases runs_check h with ⟨err, rfl, hfail⟩ | ⟨t₁, t₂, rfl, hcopy, hack⟩
  · exact disciplined_quiet (runs_only hquiet hfail)
  · have hnone := runs_only hquiet hcopy
    have hafter : ∀ before e rest, t₁ ++ t₂ = before ++ e :: rest → e.1.isAck = true →
        copied before := by
      intro before e rest ht he
      obtain ⟨m, rfl, -⟩ := quiet_initial hnone ht he
      exact hcopied t₁ m (hp t₁ hcopy)
    refine ⟨?_, hafter, ?_⟩
    · rw [quiet_filter hnone]
      rcases ack_runs htask hack with ⟨cause, rfl, -⟩ | ⟨err, rfl, -⟩
      · exact Nat.zero_le 1
      · exact Nat.le_refl 1
    · rw [List.mem_append, or_iff_right (quiet_not_mem hnone)]
      rcases ack_runs htask hack with ⟨cause, rfl, rfl⟩ | ⟨err, rfl, rfl⟩
      · simp
      · cases err <;> simp

inductive Settlement
  | retry (delay : Int)
  | deadLetter (reason : String)

def Delivery.settle (d : Delivery) (marshal : Marshal) : Settlement → Program (Option Error)
  | .retry delay => d.retry marshal delay
  | .deadLetter reason => d.deadLetter marshal reason

/-- The message is the copy of the task that a settlement puts into the queue `key`. -/
def Copy (q : Queue) (marshal : Marshal) (task : Envelope) (key : String) (msg : Publishing) :
    Settlement → Prop
  | .retry delay => key = q.target task.queue delay ∧
    ∃ now, publishingFromTask marshal { task with availableAt := now + delay } = .ok msg
  | .deadLetter reason => key = q.deadLetterQueueName task.queue ∧
    ∃ plain, publishingFromTask marshal
        { task with metadata := setMetadata task.metadata deadReasonKey reason } = .ok plain ∧
      msg = { plain with headers := [(deadReasonKey, reason)] }

/-- The copy that takes the place of the delivery was confirmed. -/
def CopyConfirmed (q : Queue) (marshal : Marshal) (task : Envelope) (s : Settlement) (t : Trace) :
    Prop :=
  ∃ key msg, Copy q marshal task key msg s ∧ Confirmed key msg t

theorem copyConfirmed_append (before after : Trace) (h : CopyConfirmed q marshal task s t) :
    CopyConfirmed q marshal task s (before ++ t ++ after) := by
  obtain ⟨key, msg, hcopy, hconfirmed⟩ := h
  exact ⟨key, msg, hcopy, confirmed_append before after hconfirmed⟩

theorem copyConfirmed_before (before t : Trace) (h : CopyConfirmed q marshal task s t) :
    CopyConfirmed q marshal task s (before ++ t) := by
  simpa using copyConfirmed_append before [] h

theorem copyConfirmed_after (t after : Trace) (h : CopyConfirmed q marshal task s t) :
    CopyConfirmed q marshal task s (t ++ after) :=
  copyConfirmed_append [] after h

theorem retry_disciplined (hq : d.queue.publisherConfirm = true) (htask : d.task = some task)
    (h : Runs (d.retry marshal delay) t (.ret r)) :
    Disciplined (CopyConfirmed d.queue marshal task (.retry delay)) d.tag t r := by
  unfold Delivery.retry at h
  rw [htask] at h
  rcases runs_check h with ⟨err, rfl, hctx⟩ | ⟨t₁, t₂, rfl, hctx, h₂⟩
  · exact disciplined_quiet (runs_only ctxErr_quiet hctx)
  · refine disciplined_append copyConfirmed_before (runs_only ctxErr_quiet hctx) ?_
    obtain ⟨now, t₃, rfl, h₃⟩ := runs_call h₂
    have hnow : ∀ e ∈ ([⟨.now, now⟩] : Trace), e.1.isAck = false := by simp [Command.isAck]
    refine disciplined_append copyConfirmed_before hnow ?_
    refine disciplined_check copyConfirmed_after htask (publishTask_quiet _ _ _ _) ?_ h₃
    intro t ht
    obtain ⟨msg, hmsg, hconfirmed⟩ := publishTask_confirmed hq ht
    exact ⟨_, msg, ⟨rfl, now, hmsg⟩, hconfirmed⟩

theorem deadLetter_disciplined {reason : String} (hq : d.queue.publisherConfirm = true)
    (htask : d.task = some task) (h : Runs (d.deadLetter marshal reason) t (.ret r)) :
    Disciplined (CopyConfirmed d.queue marshal task (.deadLetter reason)) d.tag t r := by
  unfold Delivery.deadLetter at h
  rw [htask] at h
  rcases runs_check h with ⟨err, rfl, hctx⟩ | ⟨t₁, t₂, rfl, hctx, h₂⟩
  · exact disciplined_quiet (runs_only ctxErr_quiet hctx)
  · refine disciplined_append copyConfirmed_before (runs_only ctxErr_quiet hctx) ?_
    dsimp only at h₂
    split at h₂
    · obtain ⟨rfl, ⟨⟩⟩ := runs_ret h₂
      exact disciplined_quiet (by simp)
    · rename_i plain hplain
      refine disciplined_check copyConfirmed_after htask
        (withChannel_only channel_quiet
          (check_only (declareQueue_quiet _ _ _) (publish_only channel_quiet _ rfl))) ?_ h₂
      intro t ht
      obtain ⟨before, during, after, rfl, hfn⟩ := withChannel_none ht
      obtain ⟨t₃, t₄, rfl, -, h₄⟩ := runs_check_none hfn
      refine copyConfirmed_append before after (copyConfirmed_before t₃ t₄ ?_)
      exact ⟨_, _, ⟨rfl, plain, hplain, rfl⟩, publish_confirmed hq h₄⟩

theorem settle_disciplined (hq : d.queue.publisherConfirm = true) (htask : d.task = some task)
    (h : Runs (d.settle marshal s) t (.ret r)) :
    Disciplined (CopyConfirmed d.queue marshal task s) d.tag t r := by
  cases s with
  | retry delay => exact retry_disciplined hq htask h
  | deadLetter reason => exact deadLetter_disciplined hq htask h

theorem response_nonempty (c : Command) : Nonempty (Response c) := by
  cases c with
  | now => exact ⟨(0 : Int)⟩
  | «open» => exact ⟨.ok true⟩
  | notifyPublish => exact ⟨()⟩
  | confirmation => exact ⟨Confirmation.closed⟩
  | _ => exact ⟨none⟩

/-- The first part of a disciplined trace has at most one acknowledgement too, and none before
the copy was confirmed. -/
theorem disciplined_initial {after : Trace} (h : Disciplined copied tag (t ++ after) r) :
    (t.filter fun e => e.1.isAck).length ≤ 1 ∧
      ∀ before e rest, t = before ++ e :: rest → e.1.isAck = true → copied before := by
  refine ⟨?_, ?_⟩
  · have hle := h.once
    rw [List.filter_append, List.length_append] at hle
    omega
  · intro before e rest ht he
    exact h.after before e (rest ++ after) (by simp [ht]) he

/-- With publisher confirms on, a delivery is acknowledged at most once and only after its copy was
confirmed, and no call returns nil without a confirmation. -/
theorem settled_after_confirmation (q : Queue) (hq : q.publisherConfirm = true) (marshal : Marshal)
    (task : Envelope) :
    (∀ tag s t rest, Runs ((⟨q, some task, tag⟩ : Delivery).settle marshal s) t rest →
      (t.filter fun e => e.1.isAck).length ≤ 1 ∧
      (∀ before e after, t = before ++ e :: after → e.1.isAck = true →
        CopyConfirmed q marshal task s before) ∧
      ∀ r, rest = .ret r →
        (r = none ↔ CopyConfirmed q marshal task s t ∧ ⟨.ack tag, none⟩ ∈ t)) ∧
    ∀ t, Runs (q.enqueue marshal (some task)) t (.ret none) →
      ∃ now msg, publishingFromTask marshal task.normalize = .ok msg ∧
        Confirmed (q.target task.normalize.queue (delayFromAvailableAt now task.availableAt)) msg
          t := by
  refine ⟨?_, ?_⟩
  · intro tag s t rest h
    obtain ⟨t', r', hend⟩ := runs_extend response_nonempty h
    obtain ⟨honce, hafter⟩ := disciplined_initial (settle_disciplined hq rfl hend)
    refine ⟨honce, hafter, ?_⟩
    rintro r rfl
    rw [(settle_disciplined hq rfl h).success]
    refine ⟨fun hack => ⟨?_, hack⟩, fun hboth => hboth.2⟩
    obtain ⟨before, after, hsplit⟩ := List.append_of_mem hack
    rw [hsplit]
    exact copyConfirmed_after before _ (hafter before _ after hsplit rfl)
  · intro t h
    obtain ⟨t₁, t₂, rfl, -, h₂⟩ := runs_check_none h
    obtain ⟨now, t₃, rfl, h₃⟩ := runs_call h₂
    obtain ⟨msg, hmsg, hconfirmed⟩ := publishTask_confirmed hq h₃
    refine ⟨now, msg, hmsg, ?_⟩
    have happend := confirmed_append (t₁ ++ [⟨.now, now⟩]) [] hconfirmed
    rwa [List.append_nil, List.append_assoc] at happend

/-- A retry with a delay of two seconds in which every step succeeds. -/
def retried (body : String) : Trace :=
  [⟨.ctxErr, none⟩, ⟨.now, (5 : Int)⟩, ⟨.ctxErr, none⟩, ⟨.open, .ok true⟩,
   ⟨.queueDeclare "default" true [], none⟩,
   ⟨.queueDeclare "default.delay.2000" true
      [("x-message-ttl", .int 2000), ("x-expires", .int 3602000),
       ("x-dead-letter-exchange", .text ""), ("x-dead-letter-routing-key", .text "default")], none⟩,
   ⟨.confirm, none⟩, ⟨.notifyPublish, ()⟩,
   ⟨.publishWithContext "" "default.delay.2000" ⟨[], "id", 0, body⟩, none⟩,
   ⟨.confirmation, .answered true⟩, ⟨.close, none⟩, ⟨.ctxErr, none⟩, ⟨.ack 7, none⟩]

theorem settled_after_confirmation_retry :
    let task : Envelope := ⟨"id", "mail", "", [], [], 1, 0, 0⟩
    let marshal : Marshal := fun _ => .ok "body"
    Runs ((⟨newQueue true [], some task, 7⟩ : Delivery).retry marshal (2 * second)) (retried "body")
        (.ret none) ∧
      CopyConfirmed (newQueue true []) marshal task (.retry (2 * second)) (retried "body") := by
  have hruns : Runs ((⟨newQueue true [], some ⟨"id", "mail", "", [], [], 1, 0, 0⟩, 7⟩ :
      Delivery).retry (fun _ => .ok "body") (2 * second)) (retried "body") (.ret none) := by
    repeat' first | exact .done _ | apply Runs.step
  have h := (settled_after_confirmation (newQueue true []) rfl (fun _ => .ok "body")
    ⟨"id", "mail", "", [], [], 1, 0, 0⟩).1 7 (.retry (2 * second)) _ _ hruns
  exact ⟨hruns, ((h.2.2 none rfl).mp rfl).1⟩

end Fries.RabbitQueue
