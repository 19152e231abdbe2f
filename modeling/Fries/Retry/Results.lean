import Fries.Lib.Schedule
import Fries.Retry.DoValue

/-! What a call of `DoValue` has done when it returns, whatever it is answered. -/
namespace Fries.Retry

variable {T E F C : Type}

/-- The value of the last execution, zero if there was none. -/
def lastValue (zero : T) (w : World T E F C) : T :=
  (w.executions.getLast?.map Execution.value).getD zero

/-- Exactly one notification belongs to an execution if it was waited after it and a function is
set for it: the attempt, the limit, the error without markers at its root and the delay. -/
def Announced (c : Config F) (attempt : Nat) (x : Execution T E F C) : Prop :=
  match x.wait, c.notify with
  | some delay, some f =>
    ∃ err, x.err = some err ∧ x.notified = [(f, ⟨attempt, c.maxAttempts, err.peel, delay⟩)]
  | _, _ => x.notified = []

/-- What a call that has returned has done. -/
structure Account (c : Config F) (zero : T) (w : World T E F C) (value : T)
    (failure : Option (Failure E C)) : Prop where
  limit : w.executions.length ≤ c.maxAttempts
  /-- The context was not canceled when an execution started. -/
  starts : w.starts = List.replicate w.executions.length none
  value : value = lastValue zero w
  succeeded : failure = none ↔ ∃ x, w.executions.getLast? = some x ∧ x.err = none
  context : ∀ err, failure = some (.context err) → w.canceled = some err
  /-- An error of the operation is that of the last execution, without markers at its root. -/
  own : ∀ err, failure = some (.operation err) → err.isMarker = false ∧
    ∃ x e, w.executions.getLast? = some x ∧ x.err = some e ∧ err = (inspectError e).cause ∧
      (e.isMarker = false → err = e)
  /-- The error of the context takes precedence over that of an execution. -/
  canceled : ∀ x ∈ w.executions, x.err ≠ none → ∀ err,
    x.canceled = some err ∨ x.woke = some err → failure = some (.context err)
  /-- Nothing comes after an execution that fails with a permanent marker. -/
  permanent : ∀ (i : Nat) x err inner, w.executions[i]? = some x → x.err = some err →
    Err.Within (.permanent inner) err → i + 1 = w.executions.length ∧ x.wait = none
  waited : ∀ (i : Nat) x, w.executions[i]? = some x →
    (x.wait = none → i + 1 = w.executions.length) ∧ ∀ delay, x.wait = some delay → 0 ≤ delay
  notified : ∀ (i : Nat) x, w.executions[i]? = some x → Announced c (i + 1) x

/-- An execution after which the loop has gone on. -/
def Retried (c : Config F) (attempt : Nat) (x : Execution T E F C) : Prop :=
  ∃ (f : Failed T E C) (delay : Int) (woke : Option C), f.canceled = none ∧
    (inspectError f.err).permanent = false ∧ 0 ≤ delay ∧
    x = f.slept (notification c attempt f.err delay) delay woke

/-- The attempts before this one are over. -/
structure Tried (c : Config F) (w : World T E F C) (attempt : Nat) : Prop where
  number : w.executions.length + 1 = attempt
  le : attempt ≤ c.maxAttempts
  retried : ∀ (i : Nat) x, w.executions[i]? = some x → Retried c (i + 1) x

/-- This attempt has started, and its start found the context live. -/
structure Running (c : Config F) (w : World T E F C) (attempt : Nat) : Prop
    extends Tried c w attempt where
  starts : w.starts = List.replicate attempt none
  awake : ∀ x ∈ w.executions, x.woke = none

/-- The error of this attempt can be retried as far as it goes. -/
structure Retriable (c : Config F) (w : World T E F C) (attempt : Nat) (x : Failed T E C) : Prop
    extends Running c w attempt where
  live : x.canceled = none
  retriable : (inspectError x.err).permanent = false
  lt : attempt < c.maxAttempts

def At (c : Config F) (zero : T) : Phase T E F C → World T E F C → Prop
  | .checking attempt result, w =>
    Tried c w attempt ∧ w.starts = List.replicate w.executions.length none ∧
      (∀ x ∈ w.executions, ∀ err, x.woke = some err → w.canceled = some err) ∧
      result = lastValue zero w
  | .executing attempt, w => Running c w attempt
  | .failed attempt x, w =>
    Running c w attempt ∧ ∀ err, x.canceled = some err → w.canceled = some err
  | .deciding attempt x, w => Retriable c w attempt x
  | .delaying attempt x, w => Retriable c w attempt x
  | .notifying attempt x delay, w => Retriable c w attempt x ∧ 0 ≤ delay
  | .waiting attempt x notified delay, w =>
    Retriable c w attempt x ∧ 0 ≤ delay ∧ notified = notification c attempt x.err delay
  | .returned value failure, w => Account c zero w value failure

/-- What a step does. -/
inductive Moves (c : Config F) (w : World T E F C) : Phase T E F C → Phase T E F C →
    World T E F C → Prop
  | halt (hcanceled : w.canceled = some err) :
    Moves c w (.checking attempt result) (.returned result (some (.context err))) w
  | start (hcanceled : w.canceled = none) :
    Moves c w (.checking attempt result) (.executing attempt)
      { w with starts := w.starts ++ [w.canceled] }
  | succeed :
    Moves c w (.executing attempt) (.returned value none)
      (w.record ⟨value, none, w.canceled, [], none, none⟩)
  | fail : Moves c w (.executing attempt) (.failed attempt ⟨value, err, w.canceled⟩) w
  | cut (hcanceled : w.canceled = some err) :
    Moves c w (.failed attempt x) (.returned x.value (some (.context err))) (w.record x.ended)
  | stop (hcanceled : w.canceled = none) :
    Moves c w (.failed attempt x)
      (.returned x.value (some (.operation (inspectError x.err).cause))) (w.record x.ended)
  | ask (hcanceled : w.canceled = none) (hpermanent : (inspectError x.err).permanent = false)
      (hlimit : attempt ≠ c.maxAttempts) : Moves c w (.failed attempt x) (.deciding attempt x) w
  | refuse :
    Moves c w (.deciding attempt x)
      (.returned x.value (some (.operation (inspectError x.err).cause))) (w.record x.ended)
  | accept : Moves c w (.deciding attempt x) (.delaying attempt x) w
  | delay (hdelay : 0 ≤ delay) : Moves c w (.delaying attempt x) (.notifying attempt x delay) w
  | notify :
    Moves c w (.notifying attempt x delay)
      (.waiting attempt x (notification c attempt x.err delay) delay) w
  | wake :
    Moves c w (.waiting attempt x notified delay) (.checking (attempt + 1) x.value)
      (w.record (x.slept notified delay w.canceled))
  | interrupt (hcanceled : w.canceled = some err) :
    Moves c w (.waiting attempt x notified delay) (.returned x.value (some (.context err)))
      (w.record (x.slept notified delay w.canceled))

variable {isContext : E → Bool} {c : Config F} {zero value : T} {w w' : World T E F C}
  {phase phase' : Phase T E F C} {attempt : Nat} {x : Failed T E C}
  {failure : Option (Failure E C)} {delay : Int} {y : Execution T E F C} {err : C}

theorem nextDelay_nonneg (err : Err E) (backoff : Int) : 0 ≤ nextDelay err backoff := by
  unfold nextDelay
  split
  · exact Int.natCast_nonneg _
  · exact Int.le_max_right _ _

theorem decided_moves (answer : Bool) : ∃ phase' w', decided answer attempt x w =
    ⟨phase', w', none⟩ ∧ Moves c w (.deciding attempt x) phase' w' := by
  cases answer with
  | true => exact ⟨_, _, rfl, .accept⟩
  | false => exact ⟨_, _, rfl, .refuse⟩

theorem step_moves {label : Label T E} {n : Progress (World T E F C) (Phase T E F C)}
    (h : step isContext c label phase w = some n) :
    ∃ phase' w', n = ⟨phase', w', none⟩ ∧ Moves c w phase phase' w' := by
  cases phase with
  | checking attempt result =>
    simp only [step] at h
    split at h <;> cases h
    · rename_i hcanceled
      exact ⟨_, _, rfl, .halt hcanceled⟩
    · rename_i hcanceled
      exact ⟨_, _, rfl, .start hcanceled⟩
  | executing attempt =>
    cases label with
    | operation value err =>
      cases err with
      | none =>
        cases h
        exact ⟨_, _, rfl, .succeed⟩
      | some err =>
        cases h
        exact ⟨_, _, rfl, .fail⟩
    | _ => cases h
  | failed attempt x =>
    simp only [step] at h
    split at h
    · rename_i hcanceled
      cases h
      exact ⟨_, _, rfl, .cut hcanceled⟩
    · rename_i hcanceled
      split at h <;> cases h
      · exact ⟨_, _, rfl, .stop hcanceled⟩
      · rename_i hgo
        obtain ⟨hpermanent, hlimit⟩ := not_or.mp hgo
        exact ⟨_, _, rfl, .ask hcanceled (Bool.eq_false_iff.mpr hpermanent) hlimit⟩
  | deciding attempt x =>
    simp only [step] at h
    split at h <;> cases h <;> exact decided_moves _
  | delaying attempt x =>
    simp only [step] at h
    split at h <;> cases h <;> exact ⟨_, _, rfl, .delay (nextDelay_nonneg _ _)⟩
  | notifying attempt x delay =>
    cases h
    exact ⟨_, _, rfl, .notify⟩
  | waiting attempt x notified delay =>
    simp only [step] at h
    split at h <;> split at h <;> cases h
    · exact ⟨_, _, rfl, .interrupt (by assumption)⟩
    · exact ⟨_, _, rfl, .wake⟩
    · exact ⟨_, _, rfl, .interrupt (by assumption)⟩
    · exact ⟨_, _, rfl, .wake⟩
  | returned => cases h

theorem getLast_record (w : World T E F C) (y : Execution T E F C) :
    (w.record y).executions.getLast? = some y := List.getLast?_concat

/-- An execution of the extended record is an earlier one or the new one. -/
theorem mem_record {i : Nat} {z : Execution T E F C} (h : (w.record y).executions[i]? = some z) :
    w.executions[i]? = some z ∨ i = w.executions.length ∧ z = y := by
  simp only [World.record, List.getElem?_append] at h
  split at h
  · exact .inl h
  · rename_i hge
    rw [List.getElem?_singleton] at h
    split at h <;> cases h
    exact .inr ⟨by omega, rfl⟩

/-- What ends the call with an execution that is no longer retried. -/
structure Ends (c : Config F) (w : World T E F C) (attempt : Nat) (y : Execution T E F C)
    (failure : Option (Failure E C)) : Prop where
  succeeded : failure = none ↔ y.err = none
  context : ∀ err, failure = some (.context err) → w.canceled = some err
  own : ∀ err, failure = some (.operation err) → ∃ e, y.err = some e ∧ err = (inspectError e).cause
  canceled : y.err ≠ none → ∀ err, y.canceled = some err ∨ y.woke = some err →
    failure = some (.context err)
  permanent : ∀ err, y.err = some err → (inspectError err).permanent = true → y.wait = none
  waited : ∀ delay, y.wait = some delay → 0 ≤ delay
  notified : Announced c attempt y

theorem announced_slept (woke : Option C) :
    Announced c attempt (x.slept (notification c attempt x.err delay) delay woke) := by
  unfold Announced notification
  cases c.notify with
  | none => rfl
  | some f => exact ⟨x.err, rfl, rfl⟩

theorem not_permanent {err inner : Err E} (h : (inspectError err).permanent = false) :
    ¬ Err.Within (.permanent inner) err := by
  intro hin
  rw [(inspectError_permanent err).mpr ⟨inner, hin⟩] at h
  cases h

/-- The record of a call that ends with an execution. -/
theorem account_record (h : Running c w attempt) (hy : Ends c w attempt y failure) :
    Account c zero (w.record y) y.value failure := by
  have hlength : (w.record y).executions.length = attempt := by
    simp [World.record, h.number]
  refine {
    limit := hlength ▸ h.le
    starts := hlength.symm ▸ h.starts
    value := ?_
    succeeded := ?_
    context := hy.context
    own := ?_
    canceled := ?_
    permanent := ?_
    waited := ?_
    notified := ?_ }
  · rw [lastValue, getLast_record]
    rfl
  · rw [getLast_record, hy.succeeded]
    exact ⟨fun hnone => ⟨y, rfl, hnone⟩, fun ⟨z, hz, hnone⟩ => Option.some.inj hz ▸ hnone⟩
  · intro err herr
    obtain ⟨e, he, rfl⟩ := hy.own err herr
    exact ⟨Err.isMarker_peel e, y, e, getLast_record w y, he, rfl, Err.peel_of_not_isMarker⟩
  · intro z hz hfailed err herr
    rcases List.mem_append.mp hz with hold | hnew
    · obtain ⟨i, hi⟩ := List.mem_iff_getElem?.mp hold
      obtain ⟨f, delay, woke, hlive, -, -, rfl⟩ := h.retried i z hi
      have hawake := h.awake _ hold
      rcases herr with hcanceled | hwoke
      · cases hlive.symm.trans hcanceled
      · cases hawake.symm.trans hwoke
    · rw [List.mem_singleton.mp hnew] at hfailed herr
      exact hy.canceled hfailed err herr
  · intro i z err inner hz herr hin
    rcases mem_record hz with hold | ⟨rfl, rfl⟩
    · obtain ⟨f, delay, woke, -, hnot, -, rfl⟩ := h.retried i z hold
      cases herr
      exact absurd hin (not_permanent hnot)
    · exact ⟨by rw [hlength, h.number],
        hy.permanent err herr ((inspectError_permanent err).mpr ⟨inner, hin⟩)⟩
  · intro i z hz
    rcases mem_record hz with hold | ⟨rfl, rfl⟩
    · obtain ⟨f, delay, woke, -, -, hdelay, rfl⟩ := h.retried i z hold
      refine ⟨fun hnone => ?_, fun d hd => ?_⟩
      · cases hnone
      · cases hd
        exact hdelay
    · exact ⟨fun _ => by rw [hlength, h.number], hy.waited⟩
  · intro i z hz
    rcases mem_record hz with hold | ⟨rfl, rfl⟩
    · obtain ⟨f, delay, woke, -, -, -, rfl⟩ := h.retried i z hold
      exact announced_slept woke
    · rw [h.number]
      exact hy.notified

/-- The record of a call that ends before an attempt, after waiting for it. -/
theorem account_halt (h : At c zero (.checking attempt value) w)
    (hcanceled : w.canceled = some err) : Account c zero w value (some (.context err)) := by
  obtain ⟨htried, hstarts, hwoke, hvalue⟩ := h
  have hlast : ∀ y, w.executions.getLast? = some y → ∃ i, Retried c i y := by
    intro y hy
    obtain ⟨i, hi⟩ := List.mem_iff_getElem?.mp (List.mem_of_getLast? hy)
    exact ⟨i + 1, htried.retried i y hi⟩
  refine {
    limit := by have := htried.number; have := htried.le; omega
    starts := hstarts
    value := hvalue
    succeeded := ?_
    context := ?_
    own := ?_
    canceled := ?_
    permanent := ?_
    waited := ?_
    notified := ?_ }
  · constructor
    · intro hnone
      cases hnone
    · rintro ⟨y, hy, hnone⟩
      obtain ⟨i, f, delay, woke, -, -, -, rfl⟩ := hlast y hy
      cases hnone
  · intro err' herr
    cases herr
    exact hcanceled
  · intro err' herr
    cases herr
  · intro y hy _ err' herr
    obtain ⟨i, hi⟩ := List.mem_iff_getElem?.mp hy
    obtain ⟨f, delay, woke, hlive, -, -, rfl⟩ := htried.retried i y hi
    rcases herr with herr | herr
    · cases hlive.symm.trans herr
    · cases hcanceled.symm.trans (hwoke _ hy err' herr)
      rfl
  · intro i y err' inner hy herr hin
    obtain ⟨f, delay, woke, -, hnot, -, rfl⟩ := htried.retried i y hy
    cases herr
    exact absurd hin (not_permanent hnot)
  · intro i y hy
    obtain ⟨f, delay, woke, -, -, hdelay, rfl⟩ := htried.retried i y hy
    refine ⟨fun hnone => ?_, fun d hd => ?_⟩
    · cases hnone
    · cases hd
      exact hdelay
  · intro i y hy
    obtain ⟨f, delay, woke, -, -, -, rfl⟩ := htried.retried i y hy
    exact announced_slept woke

theorem live_of_seen (hseen : ∀ err, x.canceled = some err → w.canceled = some err)
    (hcanceled : w.canceled = none) : x.canceled = none := by
  refine Option.eq_none_iff_forall_ne_some.mpr fun err herr => ?_
  cases hcanceled.symm.trans (hseen err herr)

/-- A failed execution ends the call without a wait. -/
theorem ends_ended (hfailure : failure = some (.operation (inspectError x.err).cause) ∧
      x.canceled = none ∨ ∃ err, failure = some (.context err) ∧ w.canceled = some err)
    (hseen : ∀ err, x.canceled = some err → w.canceled = some err) :
    Ends c w attempt x.ended failure := by
  refine {
    succeeded := ?_
    context := ?_
    own := ?_
    canceled := ?_
    permanent := fun _ _ _ => rfl
    waited := fun delay hdelay => ?_
    notified := rfl }
  · rcases hfailure with ⟨rfl, -⟩ | ⟨err, rfl, -⟩ <;> simp [Failed.ended]
  · intro err herr
    rcases hfailure with ⟨rfl, -⟩ | ⟨err', rfl, hcanceled⟩
    · cases herr
    · cases herr
      exact hcanceled
  · intro err herr
    rcases hfailure with ⟨rfl, -⟩ | ⟨err', rfl, -⟩
    · cases herr
      exact ⟨x.err, rfl, rfl⟩
    · cases herr
  · rintro - err (herr | hwoke)
    · rcases hfailure with ⟨-, hlive⟩ | ⟨err', rfl, hcanceled⟩
      · cases hlive.symm.trans herr
      · cases hcanceled.symm.trans (hseen err herr)
        rfl
    · cases hwoke
  · cases hdelay

/-- A failed execution ends the call when the context is canceled during the wait. -/
theorem ends_slept (h : Retriable c w attempt x) (hdelay : 0 ≤ delay)
    (hcanceled : w.canceled = some err) :
    Ends c w attempt (x.slept (notification c attempt x.err delay) delay w.canceled)
      (some (.context err)) := by
  refine {
    succeeded := by simp [Failed.slept]
    context := fun err' herr => ?_
    own := fun err' herr => ?_
    canceled := ?_
    permanent := fun err' herr hpermanent => ?_
    waited := fun d hd => ?_
    notified := announced_slept _ }
  · cases herr
    exact hcanceled
  · cases herr
  · rintro - err' (herr | hwoke)
    · cases h.live.symm.trans herr
    · cases hcanceled.symm.trans hwoke
      rfl
  · cases herr
    cases h.retriable.symm.trans hpermanent
  · cases hd
    exact hdelay

/-- After a wait the next attempt is up. -/
theorem tried_wake {woke : Option C} (h : Retriable c w attempt x) (hdelay : 0 ≤ delay) :
    Tried c (w.record (x.slept (notification c attempt x.err delay) delay woke)) (attempt + 1) where
  number := by simp [World.record, h.number]
  le := h.lt
  retried := by
    intro i y hy
    rcases mem_record hy with hold | ⟨rfl, rfl⟩
    · exact h.retried i y hold
    · rw [h.number]
      exact ⟨x, delay, woke, h.live, h.retriable, hdelay, rfl⟩

theorem own_moves (hat : At c zero phase w) (h : Moves c w phase phase' w') :
    At c zero phase' w' := by
  cases h with
  | halt hcanceled => exact account_halt hat hcanceled
  | start hcanceled =>
    obtain ⟨htried, hstarts, hwoke, -⟩ := hat
    refine ⟨⟨htried.number, htried.le, htried.retried⟩, ?_, ?_⟩
    · show w.starts ++ [w.canceled] = _
      rw [hcanceled, hstarts, ← htried.number, List.replicate_succ']
    · intro y hy
      refine Option.eq_none_iff_forall_ne_some.mpr fun err herr => ?_
      cases hcanceled.symm.trans (hwoke y hy err herr)
  | succeed =>
    refine account_record hat {
      succeeded := by simp
      context := fun err herr => ?_
      own := fun err herr => ?_
      canceled := fun hfailed => absurd rfl hfailed
      permanent := fun _ _ _ => rfl
      waited := fun d hd => ?_
      notified := rfl }
    · cases herr
    · cases herr
    · cases hd
  | fail => exact ⟨hat, fun err herr => herr⟩
  | cut hcanceled => exact account_record hat.1 (ends_ended (.inr ⟨_, rfl, hcanceled⟩) hat.2)
  | stop hcanceled =>
    have hlive := live_of_seen hat.2 hcanceled
    exact account_record hat.1 (ends_ended (.inl ⟨rfl, hlive⟩) hat.2)
  | ask hcanceled hpermanent hlimit =>
    have hlive := live_of_seen hat.2 hcanceled
    exact ⟨hat.1, hlive, hpermanent, Nat.lt_of_le_of_ne hat.1.le hlimit⟩
  | refuse =>
    refine account_record hat.toRunning (ends_ended (.inl ⟨rfl, hat.live⟩) fun err herr => ?_)
    cases hat.live.symm.trans herr
  | accept => exact hat
  | delay hdelay => exact ⟨hat, hdelay⟩
  | notify => exact ⟨hat.1, hat.2, rfl⟩
  | wake =>
    obtain ⟨hretriable, hdelay, rfl⟩ := hat
    refine ⟨tried_wake hretriable hdelay, ?_, ?_, ?_⟩
    · show w.starts = _
      rw [hretriable.starts, ← hretriable.number]
      simp [World.record]
    · intro y hy err herr
      rcases List.mem_append.mp hy with hold | hnew
      · cases (hretriable.awake y hold).symm.trans herr
      · rw [List.mem_singleton.mp hnew] at herr
        exact herr
    · rw [lastValue, getLast_record]
      rfl
  | interrupt hcanceled =>
    obtain ⟨hretriable, hdelay, rfl⟩ := hat
    exact account_record hretriable.toRunning (ends_slept hretriable hdelay hcanceled)

/-- Canceling the context does not touch what is recorded. -/
theorem at_shift (err : C) (h : At c zero phase w) :
    At c zero phase { w with canceled := some (w.canceled.getD err) } := by
  have hkept : ∀ {err' : C}, w.canceled = some err' → some (w.canceled.getD err) = some err' := by
    intro err' herr
    rw [herr]
    rfl
  cases phase with
  | checking =>
    obtain ⟨htried, hstarts, hwoke, hvalue⟩ := h
    exact ⟨{ htried with }, hstarts, fun y hy err' herr => hkept (hwoke y hy err' herr), hvalue⟩
  | executing | deciding | delaying => exact { h with }
  | failed => exact ⟨{ h.1 with }, fun err' herr => hkept (h.2 err' herr)⟩
  | notifying | waiting => exact ⟨{ h.1 with }, h.2⟩
  | returned => exact { h with context := fun err' herr => hkept (h.context err' herr) }

/-- A bound on the steps that are left. -/
def Phase.left (c : Config F) : Phase T E F C → Nat
  | .checking attempt _ => 7 * (c.maxAttempts - attempt) + 7
  | .executing attempt => 7 * (c.maxAttempts - attempt) + 6
  | .failed attempt _ => 7 * (c.maxAttempts - attempt) + 5
  | .deciding attempt _ => 7 * (c.maxAttempts - attempt) + 4
  | .delaying attempt _ => 7 * (c.maxAttempts - attempt) + 3
  | .notifying attempt .. => 7 * (c.maxAttempts - attempt) + 2
  | .waiting attempt .. => 7 * (c.maxAttempts - attempt) + 1
  | .returned .. => 0

theorem left_moves (hat : At c zero phase w) (h : Moves c w phase phase' w') :
    phase'.left c < phase.left c := by
  cases h with
  | wake =>
    have hlt := hat.1.lt
    simp only [Phase.left]
    omega
  | _ =>
    simp only [Phase.left]
    omega

theorem enabled (zero : T) (hphase : ∀ value failure, phase ≠ .returned value failure) :
    ∃ label n, step isContext c label phase w = some n := by
  cases phase with
  | checking =>
    refine ⟨.step, ?_⟩
    simp only [step]
    split <;> exact ⟨_, rfl⟩
  | executing => exact ⟨.operation zero none, _, rfl⟩
  | failed =>
    refine ⟨.step, ?_⟩
    simp only [step]
    split
    · exact ⟨_, rfl⟩
    · split <;> exact ⟨_, rfl⟩
  | deciding =>
    refine ⟨.predicate true, ?_⟩
    cases hretryIf : c.retryIf <;> simp only [step, hretryIf] <;> exact ⟨_, rfl⟩
  | delaying =>
    refine ⟨.backoff 0, ?_⟩
    cases hbackoff : c.backoff <;> simp only [step, hbackoff] <;> exact ⟨_, rfl⟩
  | notifying => exact ⟨.step, _, rfl⟩
  | waiting =>
    refine ⟨.timer, ?_⟩
    simp only [step]
    split
    · split <;> exact ⟨_, rfl⟩
    · exact ⟨_, rfl⟩
  | returned value failure => exact absurd rfl (hphase value failure)

/-- There is one thread, the call. -/
def outline (isContext : E → Bool) (c : Config F) (zero : T) :
    (doValue isContext c : System (World T E F C) _ _ _ _).Outline where
  Inv _ := True
  At i phase w := i = 0 ∧ At c zero phase w
  Unused _ _ := True
  Counter := Unit
  weight _ _ := 1
  count _ _ := 1
  enter call := call.elim
  enter_weight _ call := call.elim
  own h _ hat _ := by
    obtain ⟨phase', w', rfl, hmoves⟩ := step_moves h
    exact ⟨trivial, hat.1, own_moves hat.2 hmoves⟩
  others _ _ hat _ hij hm := absurd (hat.1.trans hm.1.symm) hij
  unused _ _ _ _ _ _ := trivial
  starts h _ _ _ _ _ hm := by
    obtain ⟨phase', w', rfl, -⟩ := step_moves h
    cases hm
  counts h _ _ _ k := by
    obtain ⟨phase', w', rfl, -⟩ := step_moves h
    rfl
  shift_inv _ _ _ := trivial
  shift_at err _ _ _ _ hat := ⟨hat.1, at_shift err hat.2⟩
  shift_unused _ _ _ _ := trivial
  shift_count _ _ _ := rfl

theorem holds_initial (isContext : E → Bool) (c : Config F) (canceled : Option C) (zero : T) :
    (outline isContext c zero).Holds (initial E F canceled zero) := by
  refine ⟨trivial, ?_, fun _ _ => trivial, fun _ => rfl⟩
  intro i l hl
  cases i with
  | zero =>
    cases hl
    refine ⟨rfl, ⟨rfl, c.maxAttempts_pos, fun i y hy => ?_⟩, rfl, fun y hy => ?_, rfl⟩
    · cases hy
    · cases hy
  | succ i => cases hl

theorem starts_of_at (h : At c zero phase w) :
    ∃ n ≤ c.maxAttempts, w.starts = List.replicate n none := by
  cases phase with
  | checking =>
    have hnumber := h.1.number
    have hle := h.1.le
    exact ⟨_, by omega, h.2.1⟩
  | executing | deciding | delaying => exact ⟨_, h.le, h.starts⟩
  | failed | notifying | waiting => exact ⟨_, h.1.le, h.1.starts⟩
  | returned => exact ⟨_, h.limit, h.starts⟩

/-- Every configuration comes from options. -/
theorem newConfig_options (c : Config F) :
    newConfig [some (.withMaxAttempts c.maxAttempts), some (.withBackoff c.backoff),
      some (.withRetryIf c.retryIf), some (.withNotify c.notify)] = c := by
  have hpos : (1 : Int) ≤ c.maxAttempts := by exact_mod_cast c.maxAttempts_pos
  simp [newConfig, Opt.apply, hpos]

/-- The call returns if it is scheduled fairly. -/
theorem call_returns {canceled : Option C} {σ : Nat → Action (Label T E) C Empty}
    (hfair : (doValue isContext c).Fair (initial E F canceled zero) σ 0) :
    ∃ n value failure, ((doValue isContext c).after (initial E F canceled zero) σ n).threads[0]? =
      some (.returned value failure) := by
  let P (l : Phase T E F C) (_ : World T E F C) : Prop := ∀ value failure, l ≠ .returned value failure
  let Q (l : Phase T E F C) (_ : World T E F C) : Prop := ∃ value failure, l = .returned value failure
  have hPQ : ∀ l w, Q l w ∨ P l w := by
    intro l w
    cases l with
    | returned value failure => exact .inl ⟨value, failure, rfl⟩
    | _ => exact .inr fun _ _ h => by cases h
  have hfinal := System.Outline.eventually P Q (fun l _ => l.left c)
    (holds_initial isContext c canceled zero) hfair ?_ ?_ ?_ ?_ (n := 0) rfl ?_
  · obtain ⟨n, -, l, hl, value, failure, rfl⟩ := hfinal
    exact ⟨n, value, failure, hl⟩
  · intro l w _ _ hP
    exact enabled zero hP
  · intro label l w n hn _ hat _ _
    obtain ⟨phase', w', rfl, hmoves⟩ := step_moves hn
    exact (hPQ phase' w').imp id fun hP => ⟨hP, left_moves hat.2 hmoves⟩
  · intro i label m l w n _ _ _ _ hP
    exact .inr ⟨hP, Nat.le_refl _⟩
  · intro err l w hP
    exact ⟨hP, Nat.le_refl _⟩
  · intro value failure h
    cases h

/-- In every run the operation is started at most as often as the limit says, a call that has
returned has kept its account, and one that is scheduled fairly returns. -/
theorem do_value_accounts (isContext : E → Bool) (c : Config F) (canceled : Option C) (zero : T) :
    (∃ options, newConfig options = c) ∧
    (∀ actions : List (Action (Label T E) C Empty),
      let s := (doValue isContext c).run (initial E F canceled zero) actions
      (∃ n ≤ c.maxAttempts, s.world.starts = List.replicate n none) ∧
      ∀ value failure, s.threads[0]? = some (.returned value failure) →
        Account c zero s.world value failure) ∧
    ∀ σ : Nat → Action (Label T E) C Empty,
      (doValue isContext c).Fair (initial E F canceled zero) σ 0 →
      ∃ n value failure, ((doValue isContext c).after (initial E F canceled zero) σ n).threads[0]? =
        some (.returned value failure) := by
  refine ⟨⟨_, newConfig_options c⟩, ?_, fun σ hfair => call_returns hfair⟩
  intro actions s
  have hs : (outline isContext c zero).Holds s :=
    System.Outline.holds_run (holds_initial isContext c canceled zero) actions
  constructor
  · have hone : 0 < System.total (fun _ => 1) s.threads := hs.counted () ▸ Nat.one_pos
    obtain ⟨i, l, hl, -⟩ := System.exists_of_total_pos _ hone
    exact starts_of_at (hs.at_thread i l hl).2
  · intro value failure hreturned
    exact (hs.at_thread 0 _ hreturned).2

/-- The settings of the call below. -/
def thrice : Config String :=
  newConfig [some (.withMaxAttempts 3), none, some (.withBackoff (some "fixed")),
    some (.withRetryIf (some "always")), some (.withNotify (some "log"))]

/-- An error that asks for a delay of five. -/
def busy : Err String := .joined "both" [.plain "left", .after 5 (.plain "right")]

/-- An error with a marker at its root and a permanent one inside. -/
def fatal : Err String := .after 1 (.wrapped "outer" (.permanent (.plain "inner")))

/-- The operation fails, is retried after five, and fails permanently. -/
def retriedOnce : List (Action (Label Nat String) String Empty) :=
  [.run 0 .step, .run 0 (.operation 1 (some busy)), .run 0 .step, .run 0 (.predicate true),
    .run 0 (.backoff (-7)), .run 0 .step, .run 0 .timer, .run 0 .step,
    .run 0 (.operation 2 (some fatal)), .run 0 .step]

def retriedForever (n : Nat) : Action (Label Nat String) String Empty :=
  retriedOnce.getD n (.run 0 .step)

theorem retriedForever_fair :
    (doValue (fun _ => false) thrice).Fair (initial String String none 0) retriedForever 0 := by
  have hthreads : ((doValue (fun _ => false) thrice).run (initial String String none 0)
      retriedOnce).threads =
        [.returned 2 (some (.operation (.wrapped "outer" (.permanent (.plain "inner")))))] := rfl
  refine System.fair_getD ?_ 0
  rw [hthreads]
  intro l hl i label w
  rw [List.mem_singleton.mp hl]
  rfl

theorem do_value_accounts_permanent :
    Account thrice 0
      ((doValue (fun _ => false) thrice).run (initial String String none 0) retriedOnce).world 2
      (some (.operation (.wrapped "outer" (.permanent (.plain "inner"))))) ∧
    ∃ n value failure, ((doValue (fun _ => false) thrice).after (initial String String none 0)
      retriedForever n).threads[0]? = some (.returned value failure) := by
  obtain ⟨-, hruns, hreturns⟩ :=
    do_value_accounts (C := String) (E := String) (fun _ => false) thrice none (0 : Nat)
  exact ⟨(hruns retriedOnce).2 2 _ rfl, hreturns retriedForever retriedForever_fair⟩

end Fries.Retry
