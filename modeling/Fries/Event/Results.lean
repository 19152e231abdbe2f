import Fries.Event.Invariant
import Fries.Lib.Schedule

/-! What a dispatch returns in every schedule of its workers. -/
namespace Fries.Event

variable {E : Type} {errorsIs : Error E → Error E → Bool} {entries : Nat} {c : DispatchConfig}
  {w : World E} {stage : Stage E} {l : Local E} {n : Progress (World E) (Local E)}

/-- The steps a worker has left at most until it claims another index. -/
def Phase.left (entries : Nat) : Phase E → Nat
  | .checking => 6
  | .claiming => 5
  | .claimed index => if index < entries then 9 else 4
  | .calling _ => 8
  | .reporting .. => 7
  | .exiting => 1
  | .exited => 0

def Local.left (entries : Nat) (c : DispatchConfig) : Local E → Nat
  | .dispatcher stage => stage.left entries c
  | .worker phase => phase.left entries

/-- Every step brings the dispatch closer to its end. -/
theorem left_moves (h : Moves errorsIs entries c w l n) :
    n.state.left entries c + System.total (Local.left entries c) n.started.toList +
        5 * (entries - n.world.next) < l.left entries c + 5 * (entries - w.next) := by
  cases h with
  | stay _ _ _ hleft => exact Nat.add_lt_add_right hleft _
  | serialCall hlt =>
    simp only [Local.left, Stage.left, System.total, Option.toList_none]
    omega
  | claim | drop | call =>
    simp only [Local.left, Phase.left, System.total, Option.toList_none]
    split <;> omega
  | _ =>
    simp only [Local.left, Stage.left, Phase.left, System.total, Option.toList_none,
      Option.toList_some]
    omega

/-- A worker can step until it has exited. -/
theorem worker_enabled (errorsIs : Error E → Error E → Bool) (entries : Nat) (c : DispatchConfig)
    {phase : Phase E} (hactive : (Local.worker phase).active = true) (w : World E) :
    ∃ label n, step errorsIs entries c label (.worker phase) w = some n := by
  refine ⟨.returns none, Option.isSome_iff_exists.mp ?_⟩
  cases phase with
  | claimed index | reporting index err =>
    simp only [step, workerStep]
    split <;> rfl
  | exited => cases hactive
  | _ => rfl

/-- The dispatcher can step, except that it waits for the workers. -/
theorem dispatcher_enabled (errorsIs : Error E → Error E → Bool) (entries : Nat)
    (c : DispatchConfig) (hwait : stage = .waiting → w.running = 0)
    (hnot : ∀ err, stage ≠ .returned err) :
    ∃ label n, step errorsIs entries c label (.dispatcher stage) w = some n := by
  refine ⟨.returns none, Option.isSome_iff_exists.mp ?_⟩
  cases stage with
  | start nilContext nilEvent | serial errs =>
    simp only [step, dispatcherStep]
    repeat' split
    all_goals rfl
  | serialCalling index errs | serialReturned errs =>
    simp only [step, dispatcherStep]
    split <;> rfl
  | spawning left => cases left <;> rfl
  | waiting => simp [step, dispatcherStep, hwait rfl]
  | returned err => exact absurd rfl (hnot err)

theorem enabled_of_step {label : Label E} (e : Change E)
    (h : step errorsIs entries c label l w = some n) :
    ∃ label n, step errorsIs entries c label l (shift e w) = some n := by
  cases l with
  | worker phase =>
    exact worker_enabled errorsIs entries c (active_of_moves (workerStep_moves errorsIs h)) _
  | dispatcher stage =>
    refine dispatcher_enabled errorsIs entries c ?_ ?_
    · rintro rfl
      simp only [step, dispatcherStep] at h
      split at h
      · cases e <;> assumption
      · cases h
    · rintro err rfl
      cases h

/-- The dispatch has returned. -/
def Returned (s : Crew (World E) (Local E)) : Prop :=
  ∃ err, s.threads[0]? = some (.dispatcher (.returned err))

/-- As long as the dispatch has not returned, some thread can take a step. -/
theorem some_enabled {s : Crew (World E) (Local E)} (hs : (outline errorsIs entries c).Holds s)
    (hnot : ¬ Returned s) : ∃ i label, (dispatch errorsIs entries c).Steps s i label := by
  have hdispatcher : 1 = System.total (weight .dispatcher) s.threads := hs.counted .dispatcher
  obtain ⟨i, l, hl, hweight⟩ :=
    System.exists_of_total_pos (weight .dispatcher) (hdispatcher ▸ Nat.one_pos)
  cases l with
  | worker => cases hweight
  | dispatcher stage =>
    obtain rfl : i = 0 := (hs.at_thread i _ hl).1 stage rfl
    by_cases hwait : stage = .waiting → s.world.running = 0
    · have hopen : ∀ err, stage ≠ .returned err := by
        rintro err rfl
        exact hnot ⟨err, hl⟩
      obtain ⟨label, n, hn⟩ := dispatcher_enabled errorsIs entries c hwait hopen
      exact ⟨0, label, _, n, hl, hn⟩
    · have hpos : 0 < s.world.running := by
        have := (Classical.not_imp.mp hwait).2
        omega
      have hactive : s.world.running = System.total (weight .active) s.threads := hs.counted .active
      obtain ⟨j, m, hm, hweight'⟩ := System.exists_of_total_pos (weight .active) (hactive ▸ hpos)
      cases m with
      | dispatcher => cases hweight'
      | worker phase =>
        have hphase : (Local.worker phase).active = true := by
          cases phase <;> first | rfl | cases hweight'
        obtain ⟨label, n, hn⟩ := worker_enabled errorsIs entries c hphase s.world
        exact ⟨j, label, _, n, hm, hn⟩

/-- With fair scheduling the dispatch returns. -/
theorem dispatch_returns {σ : Nat → Action (Label E) (Change E) Empty}
    (hfair : ∀ i, (dispatch errorsIs entries c).Fair (initial E false false entries) σ i) (n : Nat) :
    ∃ m, n ≤ m ∧ Returned ((dispatch errorsIs entries c).after (initial E false false entries) σ m) :=
  System.Outline.terminates Returned (Local.left entries c) (fun w => 5 * (entries - w.next))
    (holds_initial errorsIs entries c) hfair Empty.elim
    (fun h hw hat _ => left_moves (step_moves hw hat.2 h))
    (fun e w => by cases e <;> exact Nat.le_refl _) (fun h => enabled_of_step _ h)
    (fun _ hs hnot => some_enabled hs hnot) n

/-- Every handler has returned, so every handler was called, and none twice. -/
theorem calls_perm (hw : Inv entries c w) (hall : ∀ i < entries, ∃ r, (i, some r) ∈ w.ends) :
    w.calls.Perm (List.range entries) := by
  rw [List.perm_ext_iff_of_nodup hw.once List.nodup_range]
  intro i
  rw [List.mem_range]
  constructor
  · intro hi
    exact (hw.called i hi).1
  · intro hi
    obtain ⟨r, hr⟩ := hall i hi
    exact hw.ended i r hr

theorem promise_run {actions : List (Action (Label E) (Change E) Empty)} {err : Option (Error E)}
    (herr : ((dispatch errorsIs entries c).run (initial E false false entries) actions).threads[0]? =
      some (.dispatcher (.returned err)))
    (hcause : ((dispatch errorsIs entries c).run (initial E false false entries)
      actions).world.cause = none) :
    Promise entries c
      ((dispatch errorsIs entries c).run (initial E false false entries) actions).world err :=
  ((System.Outline.holds_run (holds_initial errorsIs entries c) actions).at_thread 0 _ herr).2.2 hcause

/-- A dispatch with these errors returns nil, the one error or all of them joined. -/
def Joined (err : Option (Error E)) : List (Error E) → Prop
  | [] => err = none
  | [e] => err = some e
  | errs => err = some (.joined errs)

theorem joined_joinErrors (errs : List (Error E)) : Joined (joinErrors errs) errs := by
  rcases errs with - | ⟨e, - | ⟨e', errs⟩⟩
  · rfl
  · rfl
  · simp [Joined, joinErrors, Err.join]

/-- In every schedule each handler is called at most once. A dispatch that goes on after errors
calls each handler once and returns what a serial one does; one that stops on errors returns nil
exactly if each handler returned nil, and otherwise the error of a handler that was called. In
every schedule that is fair to its threads, a dispatch returns. -/
theorem dispatch_refines_serial (errorsIs : Error E → Error E → Bool) (entries : Nat)
    (c : DispatchConfig) :
    (∀ actions : List (Action (Label E) (Change E) Empty),
      let s := (dispatch errorsIs entries c).run (initial E false false entries) actions
      (s.world.calls.Nodup ∧ ∀ i ∈ s.world.calls, i < entries) ∧
      ∀ err, s.threads[0]? = some (.dispatcher (.returned err)) → s.world.cause = none →
        (c.continueOnError = true →
          s.world.calls.Perm (List.range entries) ∧
          Joined err ((List.range entries).filterMap (outcome s.world)) ∧
          ∀ (serial : DispatchConfig) (actions' : List (Action (Label E) (Change E) Empty)),
            serial.concurrency = 1 → serial.continueOnError = true →
            let s' := (dispatch errorsIs entries serial).run (initial E false false entries) actions'
            ∀ err', s'.threads[0]? = some (.dispatcher (.returned err')) → s'.world.cause = none →
              (∀ i < entries, outcome s'.world i = outcome s.world i) → err = err') ∧
        (c.continueOnError = false →
          (err = none ↔ s.world.calls.Perm (List.range entries) ∧
            ∀ i < entries, (i, some none) ∈ s.world.ends) ∧
          ∀ e, err = some e → ∃ i ∈ s.world.calls, (i, some (some e)) ∈ s.world.ends)) ∧
    ∀ σ : Nat → Action (Label E) (Change E) Empty,
      (∀ i, (dispatch errorsIs entries c).Fair (initial E false false entries) σ i) →
      ∀ n, ∃ m, n ≤ m ∧ ∃ err,
        ((dispatch errorsIs entries c).after (initial E false false entries) σ m).threads[0]? =
          some (.dispatcher (.returned err)) := by
  refine ⟨?_, fun σ hfair n => dispatch_returns hfair n⟩
  intro actions s
  have hs := System.Outline.holds_run (holds_initial errorsIs entries c) actions
  have hw : Inv entries c s.world := hs.inv
  refine ⟨⟨hw.once, fun i hi => (hw.called i hi).1⟩, ?_⟩
  intro err herr hcause
  have hpromise : Promise entries c s.world err := promise_run herr hcause
  constructor
  · intro hgo
    refine ⟨calls_perm hw (hpromise.all hgo), ?_, ?_⟩
    · rw [hpromise.collected hgo]
      exact joined_joinErrors _
    intro serial actions' _ hgo' s' err' herr' hcause' hsame
    have hpromise' : Promise entries serial s'.world err' := promise_run herr' hcause'
    rw [hpromise.collected hgo, hpromise'.collected hgo']
    refine congrArg joinErrors (List.filterMap_congr fun i hi => ?_)
    exact (hsame i (List.mem_range.mp hi)).symm
  · intro hstop
    constructor
    · constructor
      · intro hnone
        have hall := hpromise.passed hstop hnone
        exact ⟨calls_perm hw fun i hi => ⟨none, hall i hi⟩, hall⟩
      · rintro ⟨-, hall⟩
        cases herror : err with
        | none => rfl
        | some e =>
          obtain ⟨i, hi⟩ := hpromise.failed hstop e herror
          have hlt := (hw.called i (hw.ended i _ hi)).1
          cases (outcome_of_mem hw hi).symm.trans (outcome_of_mem hw (hall i hlt))
    · intro e he
      obtain ⟨i, hi⟩ := hpromise.failed hstop e he
      exact ⟨i, hw.ended i _ hi, hi⟩

def failure (text : String) : Error String := .of (.other text)

def collecting (concurrency : Int) : DispatchConfig :=
  newDispatchConfig [some (.withConcurrency concurrency), none, some .continueOnError]

def stopping : DispatchConfig := newDispatchConfig [some (.withConcurrency 2)]

/-- Dispatches to two handlers. -/
def dispatches (c : DispatchConfig) (actions : List (Action (Label String) (Change String) Empty)) :
    Crew (World String) (Local String) :=
  (dispatch (fun _ _ => false) 2 c).run (initial String false false 2) actions

/-- Two workers call the handlers, and the second one is the first to fail. -/
def crossed : List (Action (Label String) (Change String) Empty) :=
  [.run 0 .step, .run 0 .step, .run 0 .step, .run 0 .step, .run 1 .step, .run 1 .step, .run 1 .step,
    .run 2 .step, .run 2 .step, .run 2 .step, .run 2 (.returns (some (failure "second"))),
    .run 1 (.returns (some (failure "first")))]

/-- Both workers look for another handler and exit. -/
def collected : List (Action (Label String) (Change String) Empty) :=
  crossed ++ [.run 1 .step, .run 1 .step, .run 1 .step, .run 1 .step, .run 2 .step, .run 2 .step,
    .run 2 .step, .run 2 .step, .run 0 .step]

/-- Both workers report their error and exit. -/
def stopped : List (Action (Label String) (Change String) Empty) :=
  crossed ++ [.run 2 .step, .run 1 .step, .run 1 .step, .run 2 .step, .run 0 .step]

/-- A serial dispatch to the same handlers. -/
def oneByOne : List (Action (Label String) (Change String) Empty) :=
  [.run 0 .step, .run 0 .step, .run 0 (.returns (some (failure "first"))), .run 0 .step,
    .run 0 .step, .run 0 (.returns (some (failure "second"))), .run 0 .step, .run 0 .step]

def collectedForever (n : Nat) : Action (Label String) (Change String) Empty :=
  collected.getD n (.run 0 .step)

theorem collectedForever_fair (i : Nat) :
    (dispatch (fun _ _ => false) 2 (collecting 2)).Fair (initial String false false 2)
      collectedForever i := by
  have hthreads : ((dispatch (fun _ _ => false) 2 (collecting 2)).run
      (initial String false false 2) collected).threads =
        [.dispatcher (.returned (some (.joined [failure "first", failure "second"]))),
          .worker .exited, .worker .exited] := rfl
  refine System.fair_getD ?_ i
  rw [hthreads]
  intro l hl i label w
  simp only [List.mem_cons, List.not_mem_nil, or_false] at hl
  rcases hl with rfl | rfl | rfl <;> rfl

theorem dispatch_refines_serial_crossed :
    ((dispatches (collecting 2) collected).world.calls.Perm (List.range 2) ∧
      Joined (some (.joined [failure "first", failure "second"]))
        ((List.range 2).filterMap (outcome (dispatches (collecting 2) collected).world)) ∧
      (dispatches (collecting 1) oneByOne).threads[0]? =
        some (.dispatcher (.returned (some (.joined [failure "first", failure "second"]))))) ∧
    (∃ i ∈ (dispatches stopping stopped).world.calls,
      (i, some (some (failure "second"))) ∈ (dispatches stopping stopped).world.ends) ∧
    ∃ m, 0 ≤ m ∧ ∃ err, ((dispatch (fun _ _ => false) 2 (collecting 2)).after
      (initial String false false 2) collectedForever m).threads[0]? =
        some (.dispatcher (.returned err)) := by
  obtain ⟨hruns, hreturns⟩ := dispatch_refines_serial (fun _ _ => false) 2 (collecting 2)
  obtain ⟨hstopping, -⟩ := dispatch_refines_serial (fun _ _ => false) 2 stopping
  obtain ⟨hperm, hjoined, hserial⟩ := ((hruns collected).2
    (some (.joined [failure "first", failure "second"])) rfl rfl).1 rfl
  have houtcomes : ∀ i < 2, outcome (dispatches (collecting 1) oneByOne).world i =
      outcome (dispatches (collecting 2) collected).world i := by
    intro i hi
    match i with
    | 0 | 1 => rfl
  have hsame := hserial (collecting 1) oneByOne rfl rfl _ rfl rfl houtcomes
  refine ⟨⟨hperm, hjoined, congrArg (fun err => some (Local.dispatcher (.returned err))) hsame.symm⟩,
    ?_, hreturns collectedForever collectedForever_fair 0⟩
  exact (((hstopping stopped).2 (some (failure "second")) rfl rfl).2 rfl).2 _ rfl

end Fries.Event
