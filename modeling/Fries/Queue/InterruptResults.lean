import Fries.Queue.Interrupts
import Fries.Queue.RunSole

/-! The lifecycle of a worker over every run of calls, and its handlers' context. -/
namespace Fries.Queue.Run

/-- A run that is over stays over. -/
theorem finished_step {E : Type} {k : Concurrency} {stop : StopErrors E} {i : Nat} {w : World E}
    {l : Local E} {n : Progress (World E) (Local E)} (h : Moves k stop i w l n) {r : Nat}
    (hfinished : (w.runs r).finished = true) : (n.world.runs r).finished = true := by
  have hchange : ∀ {r' : Nat} {f : RunState E → RunState E},
      ((w.runs r').finished = true → (f (w.runs r')).finished = true) →
      ((w.change r' f).runs r).finished = true := by
    intro r' f hf
    exact change_all (P := fun _ s s' => s.finished = true → s'.finished = true) hf
      (fun _ _ => id) r hfinished
  cases h with
  | refuse | advance | go | look => exact hfinished
  | start => exact hchange (f := .register) id
  | finish => exact hchange (f := .close) fun _ => rfl
  | _ => exact hchange id

end Fries.Queue.Run

namespace Fries.Queue.Interrupts

open Run (Concurrency RunError LoopPhase RunPhase errAlreadyRunning)

variable {E : Type} {k : Concurrency} {stop : StopErrors E} {i r : Nat} {label : Run.Label E}
  {l l' : Local E} {w : World E} {n : Progress (World E) (Local E)} {cause : Cause E}
  {c : Crew (World E) (Local E)}

/-- What has happened if `interrupt` was called for a run: it was refused, its context has ended, a
loop has sent the error it failed with, the context of a `Stop` that found the run has ended, or all
is done but for `Run` to return. -/
def Caused (c : Crew (World E) (Local E)) (r : Nat) : Cause E → Prop
  | .refused => ∃ l, c.threads[r]? = some l ∧
    l.base = .returned r (some (.worker errAlreadyRunning))
  | .canceled => (c.world.base.runs r).canceled = true
  | .failed err => err ∈ (c.world.base.runs r).sent
  | .stopped i => ∃ l, c.threads[i]? = some l ∧ l.base = .stopper (.returned true) ∧
    l.found = some r
  | .done => ∃ l result, c.threads[r]? = some l ∧
    (l.base = .runner r (.finishing result) ∨ l.base = .returned r (result.map .queue))

/-- What a call knows of the run it found, and that it has no `interrupt` to call: a `Run` before
it is registered, and a `Stop` whose context has not ended. -/
def Found (l : Local E) (w : Run.World E) : Prop :=
  match l.base with
  | .calling => l.pending = none
  | .stopper .reading => l.pending = none ∧ l.found = none
  | .stopper (.halting r) | .stopper (.awaiting r) => l.pending = none ∧ l.found = some r
  | .stopper (.returned false) => l.pending = none ∧
    ∀ r, l.found = some r → (w.runs r).finished = true
  | _ => True

section Steps

/-- What an action can do to a run. -/
theorem kept_next (k : Concurrency) (stop : StopErrors E) (c : Crew (World E) (Local E))
    (a : Action (Run.Label E) Shift Run.Call) (r : Nat) :
    Run.Grows (c.world.base.runs r) (((worker k stop).next c a).world.base.runs r) ∧
      ((c.world.base.runs r).finished = true →
        (((worker k stop).next c a).world.base.runs r).finished = true) := by
  have hsame := (Run.works_refl (c.world.base.runs r)).toGrows
  have hnexts := (worker k stop).nexts_next c a
  generalize (worker k stop).next c a = c' at hnexts ⊢
  cases hnexts with
  | idle | spawn => exact ⟨hsame, id⟩
  | shift e =>
    cases e with
    | base e =>
      have hworks := Run.works_shift e c.world.base r
      exact ⟨hworks.toGrows, fun hfinished => hworks.same_finished.trans hfinished⟩
    | watch r' =>
      simp only [worker, shift]
      split_ifs <;> exact ⟨hsame, id⟩
  | step hl hn =>
    have hmoves := step_moves hn
    cases hmoves with
    | interrupt => exact ⟨hsame, id⟩
    | run _ hm =>
      have hrun := Run.step_moves hm
      exact ⟨Run.grows_step hrun r, Run.finished_step hrun⟩

theorem thread_moves (k : Concurrency) (stop : StopErrors E) (hl : c.threads[i]? = some l)
    (a : Action (Run.Label E) Shift Run.Call) :
    ∃ l', ((worker k stop).next c a).threads[i]? = some l' ∧
      (l' = l ∨ ∃ n, Moves k stop i c.world l n ∧ l' = n.state) := by
  obtain ⟨l', hl', hsame | ⟨label, n, hn, hstate⟩⟩ := System.thread_next (worker k stop) hl a
  · exact ⟨l', hl', .inl hsame⟩
  · exact ⟨l', hl', .inr ⟨n, step_moves hn, hstate⟩⟩

/-- A call that has returned does not go on. -/
theorem final_next (k : Concurrency) (stop : StopErrors E)
    (hfinal : ∀ label w, (Run.worker k stop).step i label l.base w = none)
    (hl : c.threads[i]? = some l) (a : Action (Run.Label E) Shift Run.Call) :
    ∃ l', ((worker k stop).next c a).threads[i]? = some l' ∧ l'.base = l.base ∧
      l'.found = l.found := by
  obtain ⟨l', hl', rfl | ⟨n, hmoves, rfl⟩⟩ := thread_moves k stop hl a
  · exact ⟨l', hl', rfl, rfl⟩
  · cases hmoves with
    | interrupt => exact ⟨_, hl', rfl, rfl⟩
    | run _ hm =>
      rw [hfinal] at hm
      cases hm

theorem final_run (hfinal : ∀ label w, (Run.worker k stop).step i label l.base w = none)
    (hl : c.threads[i]? = some l) (actions : List (Action (Run.Label E) Shift Run.Call)) :
    ∃ l', ((worker k stop).run c actions).threads[i]? = some l' ∧ l'.base = l.base ∧
      l'.found = l.found := by
  induction actions generalizing c l with
  | nil => exact ⟨l, hl, rfl, rfl⟩
  | cons a rest ih =>
    obtain ⟨l₁, hl₁, hbase, hfound⟩ := final_next k stop hfinal hl a
    obtain ⟨l₂, hl₂, hbase', hfound'⟩ := ih (hbase ▸ hfinal) hl₁
    exact ⟨l₂, hl₂, hbase'.trans hbase, hfound'.trans hfound⟩

theorem caused_next (a : Action (Run.Label E) Shift Run.Call) (h : Caused c r cause) :
    Caused ((worker k stop).next c a) r cause := by
  have hkept := kept_next k stop c a r
  cases cause with
  | canceled => exact hkept.1.canceled h
  | failed err => exact Run.mem_sent hkept.1 h
  | refused =>
    obtain ⟨l, hl, hbase⟩ := h
    obtain ⟨l', hl', hbase', -⟩ := final_next k stop (fun _ _ => by rw [hbase]; rfl) hl a
    exact ⟨l', hl', hbase'.trans hbase⟩
  | stopped i =>
    obtain ⟨l, hl, hbase, hfound⟩ := h
    obtain ⟨l', hl', hbase', hfound'⟩ := final_next k stop (fun _ _ => by rw [hbase]; rfl) hl a
    exact ⟨l', hl', hbase'.trans hbase, hfound'.trans hfound⟩
  | done =>
    obtain ⟨l, result, hl, hbase | hbase⟩ := h
    · obtain ⟨l', hl', rfl | ⟨n, hmoves, rfl⟩⟩ := thread_moves k stop hl a
      · exact ⟨l', result, hl', .inl hbase⟩
      · cases hmoves with
        | interrupt => exact ⟨_, result, hl', .inl hbase⟩
        | run _ hm =>
          rw [hbase] at hm
          cases hm
          exact ⟨_, result, hl', .inr rfl⟩
    · obtain ⟨l', hl', hbase', -⟩ := final_next k stop (fun _ _ => by rw [hbase]; rfl) hl a
      exact ⟨l', result, hl', .inr (hbase'.trans hbase)⟩

theorem found_mono {w' : Run.World E} (h : Found l w.base)
    (hfinished : ∀ r, (w.base.runs r).finished = true → (w'.runs r).finished = true) :
    Found l w' := by
  unfold Found at h ⊢
  split
  all_goals simp_all

theorem found_moves (h : Moves k stop i w l n) (hfound : Found l w.base) :
    Found n.state w.base := by
  obtain ⟨base, found, pending⟩ := l
  cases h with
  | interrupt =>
    unfold Found at hfound ⊢
    split
    all_goals simp_all
  | run _ hm =>
    cases base with
    | stopper phase =>
      cases phase with
      | reading =>
        obtain ⟨-, hnone⟩ : pending = none ∧ found = none := hfound
        simp only [Run.worker, Run.step, Run.stepStop] at hm
        split at hm <;> cases hm
        · subst hnone
          exact ⟨rfl, by simp [finds]⟩
        · exact ⟨rfl, rfl⟩
      | halting r =>
        cases hm
        exact ⟨rfl, hfound.2⟩
      | awaiting r =>
        obtain ⟨-, hsome⟩ : pending = none ∧ found = some r := hfound
        simp only [Run.worker, Run.step, Run.stepStop] at hm
        split at hm
        · split at hm <;> cases hm
          rename_i hfinished
          refine ⟨rfl, fun r' hr' => ?_⟩
          cases hsome.symm.trans hr'
          exact hfinished
        · cases hm
          trivial
        · cases hm
      | returned => cases hm
    | _ =>
      have hrun := Run.step_moves hm
      cases hrun <;> trivial

/-- What is started is a loop, which has no `interrupt` to call yet. -/
theorem started_moves (h : Moves k stop i w l n) (hstarted : n.started = some l') :
    l'.pending = none ∧ ∃ r phase, l'.base = .loop r phase := by
  cases h with
  | interrupt => cases hstarted
  | @run label m _ hm =>
    obtain ⟨base, hbase, rfl⟩ := Option.map_eq_some_iff.mp hstarted
    obtain ⟨lbase, found, pending⟩ := l
    have hrun := Run.step_moves hm
    cases hrun with
    | spawn =>
      cases hbase
      exact ⟨rfl, _, _, rfl⟩
    | _ => cases hbase

/-- Where a call of `interrupt` comes from. -/
theorem calls_cases {from_ to_ : Run.Local E} (h : calls i from_ to_ = some (r, cause)) :
    (from_ = .calling ∧ (∃ r' result, to_ = .returned r' result) ∧ r = i ∧ cause = .refused) ∨
      (∃ err, (from_ = .runner r (.halting err) ∨ from_ = .loop r (.halting err)) ∧
        cause = .failed err) ∨
      (∃ result, to_ = .runner r (.finishing result) ∧ cause = .done) ∨
      (from_ = .stopper (.awaiting r) ∧ to_ = .stopper (.returned true) ∧ cause = .stopped i) := by
  unfold calls at h
  split at h <;> cases h
  · exact .inl ⟨rfl, ⟨_, _, rfl⟩, rfl, rfl⟩
  · exact .inr (.inl ⟨_, .inl rfl, rfl⟩)
  · exact .inr (.inr (.inl ⟨_, rfl, rfl⟩))
  · exact .inr (.inl ⟨_, .inr rfl, rfl⟩)
  · exact .inr (.inr (.inr ⟨rfl, rfl, rfl⟩))

end Steps

/-- What holds of a worker between any two steps. -/
structure Settled (k : Concurrency) (stop : StopErrors E) (c : Crew (World E) (Local E)) :
    Prop where
  base : (Run.outline k stop).Holds (runs c)
  sole : (Run.sole k stop).Holds (runs c)
  logged : ∀ r, ∀ cause ∈ c.world.interrupts r, Caused c r cause
  pending : ∀ (i : Nat) l, c.threads[i]? = some l →
    ∀ r cause, l.pending = some (r, cause) → Caused c r cause
  found : ∀ (i : Nat) l, c.threads[i]? = some l → Found l c.world.base

/-- A call of `interrupt` that is to come has its cause. -/
theorem pending_run {m : Progress (Run.World E) (Run.Local E)} (h : Settled k stop c)
    (hl : c.threads[i]? = some l)
    (hm : (Run.worker k stop).step i label l.base c.world.base = some m)
    {a : Action (Run.Label E) Shift Run.Call}
    (hbase : (Run.outline k stop).Holds (runs ((worker k stop).next c a)))
    (hl' : ((worker k stop).next c a).threads[i]? = some l') (hstate : l'.base = m.state)
    (hkept : l'.found = finds m.state l.found)
    (hcalls : calls i l.base m.state = some (r, cause)) :
    Caused ((worker k stop).next c a) r cause := by
  have hat := h.base.at_thread i l.base (runs_threads hl)
  have hfound := h.found i l hl
  have hgrows := (kept_next k stop c a r).1
  rcases calls_cases hcalls with
    ⟨hcalling, ⟨r', result, hreturned⟩, rfl, rfl⟩ | ⟨err, hhalting | hhalting, rfl⟩ |
    ⟨result, hfinishing, rfl⟩ | ⟨hawaiting, hreturned, rfl⟩
  · rw [hcalling] at hm
    simp only [Run.worker, Run.step] at hm
    split at hm <;> cases hm
    · exact ⟨l', hl', hstate⟩
    · cases hreturned
  · rw [hhalting] at hat
    obtain ⟨-, -, -, -, hfirst⟩ := hat
    exact Run.mem_sent hgrows (List.mem_of_head? hfirst)
  · rw [hhalting] at hat
    exact Run.mem_sent hgrows hat.2.2
  · have hat' := hbase.at_thread i l'.base (runs_threads hl')
    rw [hstate, hfinishing] at hat'
    obtain ⟨rfl, -⟩ := hat'
    exact ⟨l', result, hl', .inl (hstate.trans hfinishing)⟩
  · refine ⟨l', hl', hstate.trans hreturned, ?_⟩
    simp only [Found, hawaiting] at hfound
    rw [hkept, hreturned]
    exact hfound.2

theorem runs_holds {W : (Run.worker k stop).Outline} (h : W.Holds (runs c))
    (a : Action (Run.Label E) Shift Run.Call) : W.Holds (runs ((worker k stop).next c a)) := by
  rcases runs_next k stop c a with hsame | ⟨b, hb⟩
  · rw [hsame]
    exact h
  · rw [hb]
    exact System.Outline.holds_next h b

theorem mem_interrupt {w : World E} {r' : Nat} {cause' : Cause E}
    (h : cause' ∈ (w.interrupt r cause).interrupts r') :
    cause' ∈ w.interrupts r' ∨ r' = r ∧ cause' = cause := by
  simp only [World.interrupt] at h
  split_ifs at h with hr
  · rcases List.mem_append.mp h with hold | hnew
    · exact .inl hold
    · exact .inr ⟨hr, List.mem_singleton.mp hnew⟩
  · exact .inl h

/-- A call of `interrupt` that an action makes has its cause. -/
theorem logged_next (h : Settled k stop c) (a : Action (Run.Label E) Shift Run.Call)
    (hmem : cause ∈ ((worker k stop).next c a).world.interrupts r) : Caused c r cause := by
  have hnexts := (worker k stop).nexts_next c a
  generalize (worker k stop).next c a = c' at hnexts hmem
  cases hnexts with
  | idle | spawn => exact h.logged r cause hmem
  | shift e =>
    cases e with
    | base e => exact h.logged r cause hmem
    | watch r' =>
      simp only [worker, shift] at hmem
      split_ifs at hmem with hcanceled
      · rcases mem_interrupt hmem with hold | ⟨rfl, rfl⟩
        · exact h.logged r cause hold
        · exact (Bool.and_eq_true_iff.mp hcanceled).2
      · exact h.logged r cause hmem
  | step hl hn =>
    have hmoves := step_moves hn
    cases hmoves with
    | run => exact h.logged r cause hmem
    | interrupt hpending =>
      rcases mem_interrupt hmem with hold | ⟨rfl, rfl⟩
      · exact h.logged r cause hold
      · exact h.pending _ _ hl _ _ hpending

theorem settled_next (h : Settled k stop c) (a : Action (Run.Label E) Shift Run.Call) :
    Settled k stop ((worker k stop).next c a) := by
  have hbase := runs_holds h.base a
  have hfinished : ∀ r, (c.world.base.runs r).finished = true →
      (((worker k stop).next c a).world.base.runs r).finished = true :=
    fun r => (kept_next k stop c a r).2
  refine ⟨hbase, runs_holds h.sole a, ?_, ?_, ?_⟩
  · intro r cause hmem
    exact caused_next a (logged_next h a hmem)
  · intro i l' hl' r cause hpending
    rcases System.thread_of_next _ hl' with
      hsame | ⟨l, label, n, hl, hn, rfl⟩ | ⟨call, rfl⟩ | ⟨j, l, label, n, hl, hn, hstarted⟩
    · exact caused_next a (h.pending i l' hsame r cause hpending)
    · have hmoves := step_moves hn
      cases hmoves with
      | interrupt => cases hpending
      | run _ hm => exact pending_run h hl hm hbase hl' rfl rfl hpending
    · cases hpending
    · obtain ⟨hnone, -⟩ := started_moves (step_moves hn) hstarted
      cases hnone.symm.trans hpending
  · intro i l' hl'
    rcases System.thread_of_next _ hl' with
      hsame | ⟨l, label, n, hl, hn, rfl⟩ | ⟨call, rfl⟩ | ⟨j, l, label, n, hl, hn, hstarted⟩
    · exact found_mono (h.found i l' hsame) hfinished
    · exact found_mono (found_moves (step_moves hn) (h.found i l hl)) hfinished
    · cases call with
      | run => rfl
      | stop => exact ⟨rfl, rfl⟩
    · obtain ⟨-, r, phase, hbase⟩ := started_moves (step_moves hn) hstarted
      simp only [Found, hbase]

theorem settled_run (h : Settled k stop c) (actions : List (Action (Run.Label E) Shift Run.Call)) :
    Settled k stop ((worker k stop).run c actions) := by
  induction actions generalizing c with
  | nil => exact h
  | cons a rest ih => exact ih (settled_next h a)

theorem settled_idle (k : Concurrency) (stop : StopErrors E) : Settled k stop idle :=
  ⟨Run.idle_holds k stop, Run.idle_sole k stop, fun _ _ hmem => absurd hmem List.not_mem_nil,
    fun _ _ hl => absurd hl (by simp [idle]), fun _ _ hl => absurd hl (by simp [idle])⟩

/-- A run is over: its `Run` has returned, or a `Stop` that found it has returned nil. -/
def Over (c : Crew (World E) (Local E)) (r : Nat) : Prop :=
  (∃ (i : Nat) (l : Local E) (result : Option E), c.threads[i]? = some l ∧
    l.base = .returned r (result.map .queue)) ∨
  ∃ (i : Nat) (l : Local E), c.threads[i]? = some l ∧ l.base = .stopper (.returned false) ∧
    l.found = some r

theorem over_run (h : Over c r) (actions : List (Action (Run.Label E) Shift Run.Call)) :
    Over ((worker k stop).run c actions) r := by
  rcases h with ⟨i, l, result, hl, hbase⟩ | ⟨i, l, hl, hbase, hfound⟩
  · obtain ⟨l', hl', hbase', -⟩ := final_run (k := k) (fun _ _ => by rw [hbase]; rfl) hl actions
    exact .inl ⟨i, l', result, hl', hbase'.trans hbase⟩
  · obtain ⟨l', hl', hbase', hfound'⟩ :=
      final_run (k := k) (fun _ _ => by rw [hbase]; rfl) hl actions
    exact .inr ⟨i, l', hl', hbase'.trans hbase, hfound'.trans hfound⟩

theorem idle_of_over (h : Settled k stop c) (hover : Over c r) :
    (c.world.base.runs r).active = 0 := by
  rcases hover with ⟨i, l, result, hl, hbase⟩ | ⟨i, l, hl, hbase, hfound⟩
  · have hat := h.base.at_thread i l.base (runs_threads hl)
    rw [hbase] at hat
    obtain ⟨-, ⟨hrefused, -⟩ | hdone⟩ := hat
    · cases result <;> cases hrefused
    · exact hdone.idle
  · have hat := h.found i l hl
    simp only [Found, hbase] at hat
    exact (h.base.inv.sound r).closed (hat.2 r hfound)

/-- The loops of a run that is over are gone. -/
theorem gone_of_over (h : Settled k stop c) (hover : Over c r) (hl : c.threads[i]? = some l)
    {phase : LoopPhase E} (hbase : l.base = .loop r phase) : phase = .gone := by
  have hweight := System.Outline.weight_le h.base (runs_threads hl) r
  have hidle : (Run.outline k stop).count r (runs c).world = 0 := idle_of_over h hover
  rw [hidle, hbase] at hweight
  have hactive : phase.active = false := by
    simpa [Run.outline, Run.weight] using hweight
  cases phase with
  | gone => rfl
  | _ => cases hactive

/-- A `Run` that finds another one registered fails, and has only its own contexts to end. -/
theorem refused_step (h : Settled k stop c) (hl : c.threads[i]? = some l)
    (hcalling : l.base = .calling) {j : Nat} (hj : c.threads[j]? = some l') {phase : RunPhase E}
    (hrunner : l'.base = .runner r phase) (hn : (worker k stop).step i label l c.world = some n) :
    n = ⟨⟨.returned i (some (.worker errAlreadyRunning)), l.found, some (i, .refused)⟩, c.world,
      none⟩ := by
  have hrunning := runs_threads hj
  rw [hrunner] at hrunning
  have hcurrent : c.world.base.current = some j := (h.sole.at_thread j _ hrunning r rfl).2
  have hpending := h.found i l hl
  simp only [Found, hcalling] at hpending
  simp only [worker, step, hpending, Run.step, hcalling, hcurrent, Option.map_some] at hn
  exact (Option.some.inj hn).symm

/-- A `Run` that finds none registered begins its run. -/
theorem started_step (h : Settled k stop c)
    (hfree : ∀ (i : Nat) (l : Local E) (r : Nat) (phase : RunPhase E), c.threads[i]? = some l →
      l.base ≠ .runner r phase) (hl : c.threads[i]? = some l) (hcalling : l.base = .calling)
    (label : Run.Label E) :
    ∃ n, (worker k stop).step i label l c.world = some n ∧
      n.state.base = .runner i (.spawning k.1) := by
  have hcurrent : c.world.base.current = none := by
    cases hr : c.world.base.current with
    | none => rfl
    | some r =>
      obtain ⟨phase, hthread⟩ := (Run.current_iff h.sole r).mp hr
      obtain ⟨l', hl', hbase⟩ : ∃ l', c.threads[r]? = some l' ∧ l'.base = .runner r phase := by
        simpa [runs] using hthread
      exact absurd hbase (hfree r l' r phase hl')
  have hpending := h.found i l hl
  simp only [Found, hcalling] at hpending
  simp only [worker, step, hpending, Run.step, hcalling, hcurrent, Option.map_some]
  exact ⟨_, rfl, rfl⟩

/-- A `Stop` whose context does not end calls no `interrupt`. -/
theorem stopper_step (h : Settled k stop c) (hl : c.threads[i]? = some l) {phase : Run.StopPhase}
    (hstopper : l.base = .stopper phase) (hn : (worker k stop).step i label l c.world = some n)
    (hreturned : n.state.base ≠ .stopper (.returned true)) :
    n.world.interrupts = c.world.interrupts ∧ n.state.pending = none := by
  have hfound := h.found i l hl
  have hmoves := step_moves hn
  cases hmoves with
  | interrupt hpending =>
    simp only at hreturned
    simp only [Found, hstopper] at hfound
    rw [hstopper] at hreturned
    cases phase with
    | reading | halting | awaiting => cases hfound.1.symm.trans hpending
    | returned canceled =>
      cases canceled with
      | false => cases hfound.1.symm.trans hpending
      | true => exact absurd rfl hreturned
  | @run _ m _ hm =>
    refine ⟨rfl, ?_⟩
    cases hcalls : calls i l.base m.state with
    | none => rfl
    | some call =>
      rcases calls_cases hcalls with ⟨hl', -⟩ | ⟨err, hl' | hl', -⟩ | ⟨result, hfinishing, -⟩ |
        ⟨-, hcanceled, -⟩
      · cases hstopper.symm.trans hl'
      · cases hstopper.symm.trans hl'
      · cases hstopper.symm.trans hl'
      · rw [hstopper] at hm
        have hrun := Run.step_moves hm
        cases hrun <;> cases hfinishing
      · exact absurd hcanceled hreturned

/-- Over every run one `Run` at most is active, nothing is left of one that is over, a live `Stop`
does not end the context of its handlers, and another `Run` can follow. -/
theorem worker_lifecycle (k : Concurrency) (stop : StopErrors E)
    (actions : List (Action (Run.Label E) Shift Run.Call)) :
    let S := worker k stop
    let c := S.run idle actions
    (∀ (i j : Nat) l l' r r' phase phase', c.threads[i]? = some l → c.threads[j]? = some l' →
      l.base = .runner r phase → l'.base = .runner r' phase' → i = j) ∧
    (∀ (i j : Nat) l l' r phase label n, c.threads[i]? = some l → l.base = .calling →
      c.threads[j]? = some l' → l'.base = .runner r phase → S.step i label l c.world = some n →
      i ≠ r ∧ n = ⟨⟨.returned i (some (.worker errAlreadyRunning)), l.found, some (i, .refused)⟩,
        c.world, none⟩) ∧
    (∀ r, Over c r → ∀ more (i : Nat) l phase, (S.run c more).threads[i]? = some l →
      l.base = .loop r phase → phase = .gone) ∧
    (∀ r, ∀ cause ∈ c.world.interrupts r, Caused c r cause) ∧
    (∀ (i : Nat) l phase label n, c.threads[i]? = some l → l.base = .stopper phase →
      S.step i label l c.world = some n → n.state.base ≠ .stopper (.returned true) →
      n.world.interrupts = c.world.interrupts ∧ n.state.pending = none) ∧
    ((∀ (i : Nat) l r phase, c.threads[i]? = some l → l.base ≠ .runner r phase) →
      ∀ (i : Nat) l label, c.threads[i]? = some l → l.base = .calling →
        ∃ n, S.step i label l c.world = some n ∧ n.state.base = .runner i (.spawning k.1)) := by
  intro S c
  have hsettled : Settled k stop c := settled_run (settled_idle k stop) actions
  refine ⟨?_, ?_, ?_, hsettled.logged, ?_, ?_⟩
  · intro i j l l' r r' phase phase' hl hl' hbase hbase'
    have hi := runs_threads hl
    have hj := runs_threads hl'
    rw [hbase] at hi
    rw [hbase'] at hj
    exact Run.runner_unique hsettled.sole hi hj
  · intro i j l l' r phase label n hl hcalling hl' hbase hn
    refine ⟨?_, refused_step hsettled hl hcalling hl' hbase hn⟩
    rintro rfl
    have hj := runs_threads hl'
    rw [hbase] at hj
    obtain ⟨rfl, -⟩ := hsettled.sole.at_thread j _ hj i rfl
    rw [hl] at hl'
    cases hl'
    cases hcalling.symm.trans hbase
  · intro r hover more i l phase hl hbase
    exact gone_of_over (settled_run hsettled more) (over_run hover more) hl hbase
  · intro i l phase label n hl hstopper hn hreturned
    exact stopper_step hsettled hl hstopper hn hreturned
  · intro hfree i l label hl hcalling
    exact started_step hsettled hfree hl hcalling label

/-- A run that is stopped while another `Run` is refused, and a `Run` after it. -/
def stoppedRun : List (Action (Run.Label Unit) Shift Run.Call) :=
  [.spawn .run, .run 0 .step, .run 0 .step, .spawn .run, .run 2 .step, .run 2 .step, .spawn .stop,
    .run 3 .step, .run 3 .step, .run 1 (.created none), .run 1 .step, .run 1 .step, .run 0 .step,
    .run 0 .workersDone, .run 0 .step, .run 0 .step, .run 0 .step, .run 3 .done, .spawn .run,
    .run 4 .step]

theorem worker_lifecycle_stopped :
    let S := worker ⟨1, Nat.one_pos⟩ (⟨fun _ => false, fun _ => false⟩ : StopErrors Unit)
    let c := S.run idle stoppedRun
    c.threads = [⟨.returned 0 none, none, none⟩, ⟨.loop 0 .gone, none, none⟩,
      ⟨.returned 2 (some (.worker errAlreadyRunning)), none, none⟩,
      ⟨.stopper (.returned false), some 0, none⟩, ⟨.runner 4 (.spawning 1), none, none⟩] ∧
    c.world.interrupts 0 = [.done] ∧
    ∀ more (i : Nat) l phase, (S.run c more).threads[i]? = some l → l.base = .loop 0 phase →
      phase = .gone := by
  intro S c
  have hthreads : c.threads = [⟨.returned 0 none, none, none⟩, ⟨.loop 0 .gone, none, none⟩,
      ⟨.returned 2 (some (.worker errAlreadyRunning)), none, none⟩,
      ⟨.stopper (.returned false), some 0, none⟩, ⟨.runner 4 (.spawning 1), none, none⟩] := by
    decide +kernel
  have hover : Over c 0 := .inr ⟨3, _, by rw [hthreads]; rfl, rfl, rfl⟩
  obtain ⟨-, -, hgone, -⟩ := worker_lifecycle ⟨1, Nat.one_pos⟩
    (⟨fun _ => false, fun _ => false⟩ : StopErrors Unit) stoppedRun
  exact ⟨hthreads, by decide +kernel, hgone 0 hover⟩

end Fries.Queue.Interrupts
