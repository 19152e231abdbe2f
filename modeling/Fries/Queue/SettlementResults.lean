import Fries.Queue.Settlement

/-! Every delivery with a task is settled by exactly one call, which is reported. -/
namespace Fries.Queue.Settlement

open Prog

abbrev Trace := List ((c : Command) × Response c)

/-- What handlers returned in a trace. -/
def handled (t : Trace) : List (Option Error) :=
  t.filterMap fun
    | ⟨.handle .., result⟩ => some result
    | _ => none

/-- What the retry predicate answered. -/
def consulted (t : Trace) : List Bool :=
  t.filterMap fun
    | ⟨.retryIf .., answer⟩ => some answer
    | _ => none

/-- What the backoff answered. -/
def delays (t : Trace) : List Int :=
  t.filterMap fun
    | ⟨.backoff _, delay⟩ => some delay
    | _ => none

/-- The settlement calls with what they returned. -/
def settlements (t : Trace) : List (Decision × Option Error) :=
  t.filterMap fun
    | ⟨.settle _ decision, err⟩ => some (decision, err)
    | _ => none

/-- What was reported to the observer. -/
def events (t : Trace) : List Event :=
  t.filterMap fun
    | ⟨.observe _ event, _⟩ => some event
    | _ => none

/-- All that is asked of a trace. -/
structure Seen (t : Trace) (result : List (Option Error)) (answers : List Bool) (waits : List Int)
    (calls : List (Decision × Option Error)) (reports : List Event) : Prop where
  handled : handled t = result
  consulted : consulted t = answers
  delays : delays t = waits
  settlements : settlements t = calls
  events : events t = reports

variable {w : Worker} {durationString : Int → String} {ctx : Context} {task : Task} {t t' : Trace}
  {r : Option Error} {err : Error} {decision : Decision}

theorem seen_append {rs rs' as as' ws ws' cs cs' es es'} (h : Seen t rs as ws cs es)
    (h' : Seen t' rs' as' ws' cs' es') :
    Seen (t ++ t') (rs ++ rs') (as ++ as') (ws ++ ws') (cs ++ cs') (es ++ es') := by
  obtain ⟨rfl, rfl, rfl, rfl, rfl⟩ := h
  obtain ⟨rfl, rfl, rfl, rfl, rfl⟩ := h'
  exact ⟨List.filterMap_append, List.filterMap_append, List.filterMap_append,
    List.filterMap_append, List.filterMap_append⟩

/-- What the observer is told, if there is one. -/
def Worker.reports (w : Worker) (es : List Event) : List Event := if w.observer then es else []

theorem observe_seen {event : Event} {ctx' : Context}
    (h : Runs (w.observe ctx event) t (.ret ctx')) :
    Seen t [] [] [] [] (w.reports [event]) := by
  unfold Worker.observe at h
  unfold Worker.reports
  cases hw : w.observer with
  | false =>
    rw [hw] at h
    obtain ⟨rfl, -⟩ := runs_ret h
    exact ⟨rfl, rfl, rfl, rfl, rfl⟩
  | true =>
    rw [hw] at h
    obtain ⟨answer, t', rfl, hend⟩ := runs_call h
    cases answer <;>
    · obtain ⟨rfl, -⟩ := runs_ret hend
      exact ⟨rfl, rfl, rfl, rfl, rfl⟩

theorem handle_seen (h : Runs (w.handle ctx task) t (.ret r)) : Seen t [r] [] [] [] [] := by
  unfold Worker.handle at h
  split at h <;>
  · rw [runs_single h]
    exact ⟨rfl, rfl, rfl, rfl, rfl⟩

/-- The event that a settlement call and its outcome are reported with. -/
def Worker.settlementEvent (w : Worker) (task : Task) : Decision → Option Error → Event
  | .ack, none => w.event .taskAcked task
  | .retry delay, none =>
    { w.event .taskRetried task with settlement := some .retry, delay := delay }
  | .deadLetter reason, none =>
    { w.event .taskDeadLettered task with settlement := some .deadLetter, reason := reason }
  | .ack, some err => w.settlementFailedEvent task .ack 0 "" err
  | .retry delay, some err => w.settlementFailedEvent task .retry delay "" err
  | .deadLetter reason, some err => w.settlementFailedEvent task .deadLetter 0 reason err

/-- A settlement call, then the report of its outcome. -/
def Worker.settle (w : Worker) (ctx : Context) (task : Task) (call : Decision) :
    Program (Option Error) := do
  let r ← w.withSettlementContext ctx fun ctx => issue (.settle ctx call)
  let _ ← w.observe ctx (w.settlementEvent task call r)
  return r

theorem ack_eq (w : Worker) (ctx : Context) (task : Task) :
    w.ack ctx task = w.settle ctx task .ack := by
  unfold Worker.ack Worker.settle
  congr 1
  funext r
  cases r <;> rfl

theorem retry_eq (w : Worker) (ctx : Context) (task : Task) (delay : Int) :
    w.retry ctx task delay = w.settle ctx task (.retry delay) := by
  unfold Worker.retry Worker.settle
  congr 1
  funext r
  cases r <;> rfl

theorem deadLetter_eq (w : Worker) (ctx : Context) (task : Task) (reason : String) :
    w.deadLetter ctx task reason = w.settle ctx task (.deadLetter reason) := by
  unfold Worker.deadLetter Worker.settle
  congr 1
  funext r
  cases r <;> rfl

theorem settle_seen (h : Runs (w.settle ctx task decision) t (.ret r)) :
    Seen t [] [] [] [(decision, r)] (w.reports [w.settlementEvent task decision r]) := by
  obtain ⟨t₁, t₂, r', rfl, hcall, h₂⟩ := runs_bind h
  obtain ⟨t₃, t₄, ctx', rfl, hobserve, hend⟩ := runs_bind h₂
  obtain ⟨rfl, ⟨⟩⟩ := runs_ret hend
  have hsettle : Seen t₁ [] [] [] [(decision, r)] [] := by
    unfold Worker.withSettlementContext at hcall
    split at hcall <;>
    · rw [runs_single hcall]
      exact ⟨rfl, rfl, rfl, rfl, rfl⟩
  simpa using seen_append hsettle (observe_seen hobserve)

/-- How the result of a handler, the answers of the predicate and those of the backoff lead to a
decision, one rule for each way through `process`. -/
inductive Worker.Decides (w : Worker) (durationString : Int → String) (task : Task) :
    Option Error → List Bool → List Int → Decision → Prop
  | succeeded : w.Decides durationString task none [] [] .ack
  | discarded {err : Error} (hdiscard : isDiscard err = true) :
    w.Decides durationString task (some err) [] [] .ack
  | dead {err : Error} {reason : String} (hdiscard : isDiscard err = false)
    (hdead : deadLetterReason err = some reason) :
    w.Decides durationString task (some err) [] [] (.deadLetter reason)
  | exhausted {err : Error} (hdiscard : isDiscard err = false)
    (hdead : deadLetterReason err = none) (hlimit : w.maxAttempts ≤ task.attempt) :
    w.Decides durationString task (some err) [] []
      (.deadLetter (errRetryExhausted ++ ": " ++ text durationString err))
  | requested {err : Error} {delay : Int} (hdiscard : isDiscard err = false)
    (hdead : deadLetterReason err = none) (hlimit : task.attempt < w.maxAttempts)
    (hafter : retryAfterDelay err = some delay) :
    w.Decides durationString task (some err) [] [] (.retry delay)
  | refused {err : Error} (hdiscard : isDiscard err = false)
    (hdead : deadLetterReason err = none) (hlimit : task.attempt < w.maxAttempts)
    (hafter : retryAfterDelay err = none) :
    w.Decides durationString task (some err) [false] []
      (.deadLetter (text durationString err))
  | backedOff {err : Error} {delay : Int} (hdiscard : isDiscard err = false)
    (hdead : deadLetterReason err = none) (hlimit : task.attempt < w.maxAttempts)
    (hafter : retryAfterDelay err = none) :
    w.Decides durationString task (some err) [true] [delay] (.retry (max delay 0))

theorem failed_seen (h : Runs (w.failed durationString ctx task err) t (.ret r)) :
    ∃ answers waits decision, w.Decides durationString task (some err) answers waits decision ∧
      Seen t [] answers waits [(decision, r)] (w.reports [w.settlementEvent task decision r]) := by
  unfold Worker.failed at h
  simp only [ack_eq, retry_eq, deadLetter_eq] at h
  cases hdiscard : isDiscard err with
  | true =>
    rw [if_pos hdiscard] at h
    exact ⟨_, _, _, .discarded hdiscard, settle_seen h⟩
  | false =>
    rw [if_neg (by simp [hdiscard])] at h
    cases hdead : deadLetterReason err with
    | some reason =>
      rw [hdead] at h
      exact ⟨_, _, _, .dead hdiscard hdead, settle_seen h⟩
    | none =>
      rw [hdead] at h
      dsimp only at h
      by_cases hlimit : w.maxAttempts ≤ task.attempt
      · rw [if_pos hlimit] at h
        exact ⟨_, _, _, .exhausted hdiscard hdead hlimit, settle_seen h⟩
      · rw [if_neg hlimit] at h
        have hleft : task.attempt < w.maxAttempts := Int.lt_of_not_ge hlimit
        cases hafter : retryAfterDelay err with
        | some delay =>
          rw [hafter] at h
          exact ⟨_, _, _, .requested hdiscard hdead hleft hafter, settle_seen h⟩
        | none =>
          rw [hafter] at h
          obtain ⟨answer, t₁, rfl, h₁⟩ := runs_call h
          cases answer with
          | false =>
            have hseen := settle_seen h₁
            exact ⟨_, _, _, .refused hdiscard hdead hleft hafter,
              seen_append (t := [⟨.retryIf task err, false⟩]) ⟨rfl, rfl, rfl, rfl, rfl⟩ hseen⟩
          | true =>
            obtain ⟨delay, t₂, rfl, h₂⟩ := runs_call h₁
            have hseen := settle_seen h₂
            exact ⟨_, _, _, .backedOff hdiscard hdead hleft hafter,
              seen_append (t := [⟨.retryIf task err, true⟩, ⟨.backoff task.attempt, delay⟩])
                ⟨rfl, rfl, rfl, rfl, rfl⟩ hseen⟩

/-- What is reported of a handler once it has returned. -/
def Worker.finishedEvent (w : Worker) (task : Task) : Option Error → Event
  | none => w.event .handlerSucceeded task
  | some err => { w.event .handlerFailed task with err := some err }

/-- A delivery without a handler is dead-lettered; any other is settled as the handler's result
decides. -/
theorem process_seen (h : Runs (w.process durationString ctx task) t (.ret r)) :
    (task.type ∉ w.handlers ∧ Seen t [] [] [] [(.deadLetter errHandlerNotFound, r)]
      (w.reports [w.settlementEvent task (.deadLetter errHandlerNotFound) r])) ∨
    task.type ∈ w.handlers ∧ ∃ result answers waits decision,
      w.Decides durationString task result answers waits decision ∧
      Seen t [result] answers waits [(decision, r)]
        (w.reports [w.event .handlerStarted task, w.finishedEvent task result,
          w.settlementEvent task decision r]) := by
  have hreports : ∀ e e' e'', w.reports [e] ++ (w.reports [e'] ++ w.reports [e'']) =
      w.reports [e, e', e''] := by
    intro e e' e''
    unfold Worker.reports
    split <;> rfl
  unfold Worker.process at h
  by_cases htype : task.type ∈ w.handlers
  · rw [if_neg (not_not_intro htype)] at h
    refine .inr ⟨htype, ?_⟩
    obtain ⟨t₁, t₂, ctx₁, rfl, hstarted, h₂⟩ := runs_bind h
    obtain ⟨t₃, t₄, result, rfl, hhandle, h₄⟩ := runs_bind h₂
    have hbefore := seen_append (observe_seen hstarted) (handle_seen hhandle)
    cases result with
    | none =>
      obtain ⟨t₅, t₆, ctx₂, rfl, hfinished, h₆⟩ := runs_bind h₄
      rw [ack_eq] at h₆
      refine ⟨none, [], [], .ack, .succeeded, ?_⟩
      have hall := seen_append hbefore (seen_append (observe_seen hfinished) (settle_seen h₆))
      simp only [List.append_nil, List.nil_append, List.append_assoc, hreports] at hall ⊢
      exact hall
    | some err =>
      obtain ⟨t₅, t₆, ctx₂, rfl, hfinished, h₆⟩ := runs_bind h₄
      obtain ⟨answers, waits, decision, hdecides, hseen⟩ := failed_seen h₆
      refine ⟨some err, answers, waits, decision, hdecides, ?_⟩
      have hall := seen_append hbefore (seen_append (observe_seen hfinished) hseen)
      simp only [List.append_nil, List.nil_append, List.append_assoc, hreports] at hall ⊢
      exact hall
  · rw [if_pos htype, deadLetter_eq] at h
    exact .inl ⟨htype, settle_seen h⟩

theorem isDiscard_iff : isDiscard err = true ↔ .discard ∈ err.values := by
  unfold isDiscard
  rw [← not_iff_not, Bool.not_eq_true, Option.isSome_eq_false_iff, Option.isNone_iff_eq_none,
    ErrorTree.asType_eq_none fun _ => .discard]
  · exact forall_const Unit
  · intro a b
    cases a <;> simp

theorem deadLetterReason_eq_none :
    deadLetterReason err = none ↔ ∀ e, .deadLetter e ∉ err.values := by
  unfold deadLetterReason
  rw [Option.map_eq_none_iff, ErrorTree.asType_eq_none .deadLetter]
  intro a b
  cases a <;> simp

theorem retryAfterDelay_eq_none :
    retryAfterDelay err = none ↔ ∀ e, .retryAfter e ∉ err.values := by
  unfold retryAfterDelay
  rw [Option.map_eq_none_iff, ErrorTree.asType_eq_none .retryAfter]
  intro a b
  cases a <;> simp

/-- A reason is that of a marker in the tree. -/
theorem mem_of_deadLetterReason {reason : String} (h : deadLetterReason err = some reason) :
    ∃ e, .deadLetter e ∈ err.values ∧ e.reason = reason := by
  obtain ⟨e, he, rfl⟩ := Option.map_eq_some_iff.mp h
  obtain ⟨a, ha, htarget⟩ := ErrorTree.mem_of_asType he
  cases a with
  | deadLetter e' =>
    cases htarget
    exact ⟨e, ha, rfl⟩
  | _ => cases htarget

theorem retryAfterDelay_nonneg {delay : Int} (h : retryAfterDelay err = some delay) :
    0 ≤ delay := by
  obtain ⟨e, -, rfl⟩ := Option.map_eq_some_iff.mp h
  exact e.nonneg

/-- An event names a settlement call and its outcome: its kind is that of the call, or tells that
it failed, and then the call and the error are in the event too. -/
def Event.Names (event : Event) : Decision → Option Error → Prop
  | .ack, none => event.kind = .taskAcked
  | .retry delay, none => event.kind = .taskRetried ∧ event.delay = delay
  | .deadLetter reason, none => event.kind = .taskDeadLettered ∧ event.reason = reason
  | decision, some err =>
    event.kind = .taskSettlementFailed ∧ event.err = some err ∧
      match decision with
      | .ack => event.settlement = some .ack
      | .retry delay => event.settlement = some .retry ∧ event.delay = delay
      | .deadLetter reason => event.settlement = some .deadLetter ∧ event.reason = reason

theorem settlementEvent_names (w : Worker) (task : Task) (decision : Decision)
    (r : Option Error) : (w.settlementEvent task decision r).Names decision r := by
  cases decision <;> cases r <;> simp [Worker.settlementEvent, Worker.settlementFailedEvent,
    Worker.event, Event.Names]

/-- Whether an event is about a settlement. -/
def EventKind.isSettlement : EventKind → Bool
  | .taskAcked | .taskRetried | .taskDeadLettered | .taskSettlementFailed => true
  | _ => false

section Decides

variable {result : Option Error} {answers : List Bool} {waits : List Int}

/-- The order of the markers: discard before dead letter before the limit. -/
theorem decides_markers (h : w.Decides durationString task (some err) answers waits decision) :
    (.discard ∈ err.values → decision = .ack) ∧
    (.discard ∉ err.values → ∀ e, .deadLetter e ∈ err.values →
      ∃ e', .deadLetter e' ∈ err.values ∧ decision = .deadLetter e'.reason) ∧
    (.discard ∉ err.values → (∀ e, .deadLetter e ∉ err.values) → w.maxAttempts ≤ task.attempt →
      decision = .deadLetter (errRetryExhausted ++ ": " ++ text durationString err)) := by
  rw [← isDiscard_iff, Bool.not_eq_true, ← deadLetterReason_eq_none]
  -- Each rule says of all three conditions whether they hold.
  have hnone : deadLetterReason err = none → ∀ e, .deadLetter e ∉ err.values :=
    deadLetterReason_eq_none.mp
  cases h with
  | discarded hdiscard => simp [hdiscard]
  | dead hdiscard hdead =>
    obtain ⟨e, he, rfl⟩ := mem_of_deadLetterReason hdead
    refine ⟨by simp [hdiscard], fun _ _ _ => ⟨e, he, rfl⟩, by simp [hdead]⟩
  | exhausted hdiscard hdead hlimit =>
    exact ⟨by simp [hdiscard], fun _ e he => absurd he (hnone hdead e), fun _ _ _ => rfl⟩
  | requested hdiscard hdead hlimit | refused hdiscard hdead hlimit
  | backedOff hdiscard hdead hlimit =>
    exact ⟨by simp [hdiscard], fun _ e he => absurd he (hnone hdead e), by omega⟩

theorem decides_retry {delay : Int}
    (h : w.Decides durationString task result answers waits (.retry delay)) :
    task.attempt < w.maxAttempts ∧ 0 ≤ delay := by
  cases h with
  | requested hdiscard hdead hlimit hafter => exact ⟨hlimit, retryAfterDelay_nonneg hafter⟩
  | backedOff hdiscard hdead hlimit hafter => exact ⟨hlimit, Int.le_max_right _ _⟩

theorem decides_consulted (h : w.Decides durationString task result answers waits decision)
    (hanswers : answers ≠ []) : task.attempt < w.maxAttempts ∧
      ∃ err, result = some err ∧ ∀ e, .retryAfter e ∉ err.values := by
  cases h with
  | refused hdiscard hdead hlimit hafter | backedOff hdiscard hdead hlimit hafter =>
    exact ⟨hlimit, _, rfl, retryAfterDelay_eq_none.mp hafter⟩
  | _ => exact absurd rfl hanswers

/-- What the worker model without events reads off an error. -/
def view (durationString : Int → String) (err : Error) : HandlerError :=
  ⟨isDiscard err, deadLetterReason err, retryAfterDelay err, text durationString err⟩

attribute [local simp] WorkerConfig.decide

/-- The decision is that of the worker model without events, if the predicate and the backoff
answer as its configuration says. -/
theorem decides_eq_decide (h : w.Decides durationString task result answers waits decision)
    {c : WorkerConfig} (hmax : c.maxAttempts = w.maxAttempts)
    (hanswers : ∀ err, result = some err →
      ∀ answer ∈ answers, answer = c.retryIf task (view durationString err))
    (hwaits : ∀ delay ∈ waits, delay = c.backoff task.attempt) :
    decision = c.decide task (result.map (view durationString)) := by
  cases h with
  | succeeded => rfl
  | discarded hdiscard => simp [view, hdiscard]
  | dead hdiscard hdead => simp [view, hdiscard, hdead]
  | exhausted hdiscard hdead hlimit =>
    simp [view, hdiscard, hdead, hmax, hlimit]
  | requested hdiscard hdead hlimit hafter =>
    have hleft := Int.not_le.mpr hlimit
    simp [view, hdiscard, hdead, hmax, hleft, hafter]
  | refused hdiscard hdead hlimit hafter =>
    have hleft := Int.not_le.mpr hlimit
    have hanswer := hanswers _ rfl false (List.mem_singleton_self _)
    simp only [view, hdiscard, hdead, hafter] at hanswer
    simp [view, hdiscard, hdead, hmax, hleft, hafter, ← hanswer]
  | backedOff hdiscard hdead hlimit hafter =>
    have hleft := Int.not_le.mpr hlimit
    have hanswer := hanswers _ rfl true (List.mem_singleton_self _)
    have hwait := hwaits _ (List.mem_singleton_self _)
    simp only [view, hdiscard, hdead, hafter] at hanswer
    subst hwait
    simp [view, hdiscard, hdead, hmax, hleft, hafter, ← hanswer]
    omega

end Decides

/-- The last report is the only one about the settlement. -/
theorem settlement_reported (before : List Event)
    (hbefore : ∀ e ∈ before, e.kind.isSettlement = false)
    (hevents : events t = w.reports (before ++ [w.settlementEvent task decision r]))
    (hobserver : w.observer = true) :
    ∃ event, (events t).filter (fun e => e.kind.isSettlement) = [event] ∧
      event.Names decision r := by
  have hkind : (w.settlementEvent task decision r).kind.isSettlement = true := by
    cases decision <;> cases r <;> rfl
  refine ⟨w.settlementEvent task decision r, ?_, settlementEvent_names w task decision r⟩
  rw [hevents, Worker.reports, if_pos hobserver, List.filter_append,
    List.filter_eq_nil_iff.mpr fun e he => by simp [hbefore e he]]
  simp [hkind]

/-- For every result of the handler, `process` makes exactly one settlement call, which follows the
markers and the attempts left, returns its error, and reports it in one event. -/
theorem process_settles_once (h : Runs (w.process durationString ctx task) t (.ret r)) :
    ∃ decision, settlements t = [(decision, r)] ∧
      (task.type ∉ w.handlers → decision = .deadLetter errHandlerNotFound) ∧
      (task.type ∈ w.handlers → ∃ result, handled t = [result]) ∧
      (handled t = [none] → decision = .ack) ∧
      (∀ err, handled t = [some err] →
        (.discard ∈ err.values → decision = .ack) ∧
        (.discard ∉ err.values → ∀ e, .deadLetter e ∈ err.values →
          ∃ e', .deadLetter e' ∈ err.values ∧ decision = .deadLetter e'.reason) ∧
        (.discard ∉ err.values → (∀ e, .deadLetter e ∉ err.values) →
          w.maxAttempts ≤ task.attempt →
          decision = .deadLetter (errRetryExhausted ++ ": " ++ text durationString err))) ∧
      (∀ delay, decision = .retry delay → task.attempt < w.maxAttempts ∧ 0 ≤ delay) ∧
      (consulted t ≠ [] → task.attempt < w.maxAttempts ∧
        ∃ err, handled t = [some err] ∧ ∀ e, .retryAfter e ∉ err.values) ∧
      (w.observer = true → ∃ event,
        (events t).filter (fun e => e.kind.isSettlement) = [event] ∧ event.Names decision r) := by
  rcases process_seen h with
    ⟨htype, hseen⟩ | ⟨htype, result, answers, waits, decision, hdecides, hseen⟩
  · refine ⟨_, hseen.settlements, fun _ => rfl, fun hmem => absurd hmem htype, ?_, ?_, ?_, ?_, ?_⟩
    · simp [hseen.handled]
    · simp [hseen.handled]
    · simp
    · simp [hseen.consulted]
    · exact settlement_reported [] (by simp) hseen.events
  · rw [hseen.handled, hseen.consulted]
    refine ⟨decision, hseen.settlements, fun hnot => absurd htype hnot, fun _ => ⟨result, rfl⟩,
      ?_, ?_, ?_, ?_, ?_⟩
    · rintro hresult
      obtain rfl := List.singleton_inj.mp hresult
      cases hdecides
      rfl
    · intro err hresult
      obtain rfl := List.singleton_inj.mp hresult
      exact decides_markers hdecides
    · rintro delay rfl
      exact decides_retry hdecides
    · intro hanswers
      obtain ⟨hlimit, err, rfl, hnone⟩ := decides_consulted hdecides hanswers
      exact ⟨hlimit, err, rfl, hnone⟩
    · have hfinished : (w.finishedEvent task result).kind.isSettlement = false := by
        cases result <;> rfl
      refine settlement_reported [w.event .handlerStarted task, w.finishedEvent task result] ?_
        hseen.events
      intro e he
      rcases List.mem_pair.mp he with rfl | rfl
      · rfl
      · exact hfinished

/-- A worker without an observer that knows one type of tasks. -/
def mailer : Worker := ⟨"default", "worker", ["mail"], 0, 0, 3, false, by decide⟩

def mail : Task :=
  ⟨⟨"1", "mail", "default", [], [], 3, 0, 0⟩, ⟨0, ⟨"1", "mail", "default", [], [], 3, 0, 0⟩⟩⟩

/-- A retry is requested beside a wrapped request to discard. -/
def mixed : Error :=
  .node (.other "joined") [retryAfter 5, .node (.other "wrapped") [errDiscard]]

theorem process_settles_once_mixed :
    settlements [⟨.handle (.given 0) mail, some mixed⟩, ⟨.settle (.given 0) .ack, none⟩] =
      [(.ack, none)] := by
  have hrun : Runs (mailer.process toString (.given 0) mail)
      [⟨.handle (.given 0) mail, some mixed⟩, ⟨.settle (.given 0) .ack, none⟩] (.ret none) :=
    .step _ (.step _ (.done _))
  obtain ⟨decision, hsettled, -, -, -, hmarkers, -⟩ := process_settles_once hrun
  obtain rfl := (hmarkers mixed rfl).1 (by simp [mixed, errDiscard, retryAfter, ErrorTree.values,
    ErrorTree.valuesAll])
  exact hsettled

/-- Where events are left out, this is the worker that the whole queue is modelled with. -/
theorem process_decides (h : Runs (w.process durationString ctx task) t (.ret r))
    (htype : task.type ∈ w.handlers) {c : WorkerConfig} (hmax : c.maxAttempts = w.maxAttempts)
    (hanswers : ∀ err, handled t = [some err] →
      ∀ answer ∈ consulted t, answer = c.retryIf task (view durationString err))
    (hdelays : ∀ delay ∈ delays t, delay = c.backoff task.attempt) :
    ∃ result, handled t = [result] ∧
      settlements t = [(c.decide task (result.map (view durationString)), r)] := by
  rcases process_seen h with
    ⟨hnot, -⟩ | ⟨-, result, answers, waits, decision, hdecides, hseen⟩
  · exact absurd htype hnot
  · rw [hseen.handled, hseen.consulted] at hanswers
    rw [hseen.delays] at hdelays
    refine ⟨result, hseen.handled, ?_⟩
    rw [hseen.settlements, decides_eq_decide hdecides hmax ?_ hdelays]
    rintro err rfl
    exact hanswers err rfl

end Fries.Queue.Settlement
