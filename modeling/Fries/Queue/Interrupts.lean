import Fries.Queue.RunInvariant

/-! The context of the handlers of a run, which only `interrupt` ends. -/
namespace Fries.Queue.Interrupts

open Run (Concurrency RunError LoopPhase RunPhase errAlreadyRunning)

/-- Who calls `interrupt`, and what for: a `Run` that is refused, what watches the context of the
run, a loop that failed or `Run` for it, the thread of a `Stop`, and `Run` when it is done. -/
inductive Cause (E : Type)
  | refused
  | canceled
  | failed (err : E)
  | stopped (thread : Nat)
  | done
  deriving DecidableEq

/-- The runs, and the calls of the `interrupt` of each; its context has ended with the first. -/
structure World (E : Type) where
  base : Run.World E
  interrupts : Nat → List (Cause E)

/-- A thread of a run, the run that it found if it is a `Stop`, and a call of `interrupt` that is to
come before anything else. -/
structure Local (E : Type) where
  base : Run.Local E
  found : Option Nat
  pending : Option (Nat × Cause E)
  deriving DecidableEq

inductive Shift
  | base (e : Run.Shift)
  | watch (r : Nat)

section Steps

variable {E : Type}

def World.interrupt (w : World E) (r : Nat) (cause : Cause E) : World E :=
  { w with interrupts := fun r' =>
      if r' = r then w.interrupts r' ++ [cause] else w.interrupts r' }

/-- The call of `interrupt` that follows a step from one place to another. -/
def calls (i : Nat) : Run.Local E → Run.Local E → Option (Nat × Cause E)
  | .calling, .returned _ _ => some (i, .refused)
  | .runner r (.halting err), _ => some (r, .failed err)
  | .runner _ _, .runner r (.finishing _) => some (r, .done)
  | .loop r (.halting err), _ => some (r, .failed err)
  | .stopper (.awaiting r), .stopper (.returned true) => some (r, .stopped i)
  | _, _ => none

def finds : Run.Local E → Option Nat → Option Nat
  | .stopper (.halting r), _ => some r
  | _, found => found

def step (k : Concurrency) (stop : StopErrors E) (i : Nat) (label : Run.Label E) (l : Local E)
    (w : World E) : Option (Progress (World E) (Local E)) :=
  match l.pending with
  | some (r, cause) => some ⟨{ l with pending := none }, w.interrupt r cause, none⟩
  | none =>
    (Run.step k stop i label l.base w.base).map fun n =>
      ⟨⟨n.state, finds n.state l.found, calls i l.base n.state⟩, { w with base := n.world },
        n.started.map fun m => ⟨m, none, none⟩⟩

/-- `AfterFunc` runs at some time after the context of the run is canceled. -/
def shift : Shift → World E → World E
  | .base e, w => { w with base := Run.shift e w.base }
  | .watch r, w =>
    if (w.base.runs r).started && (w.base.runs r).canceled then w.interrupt r .canceled else w

/-- Any number of calls of `Run` and `Stop` on a worker, interleaved. -/
def worker (k : Concurrency) (stop : StopErrors E) :
    System (World E) (Local E) (Run.Label E) Shift Run.Call where
  enter call w := ⟨(Run.worker k stop).enter call w.base, none, none⟩
  step := step k stop
  shift := shift

/-- A worker that was not used yet. -/
def idle : Crew (World E) (Local E) := ⟨⟨Run.idle.world, fun _ => []⟩, []⟩

end Steps

section Refinement

variable {E : Type} {k : Concurrency} {stop : StopErrors E} {i : Nat} {label : Run.Label E}
  {l : Local E} {w : World E} {n : Progress (World E) (Local E)}

/-- The runs without the context of the handlers. -/
def runs (c : Crew (World E) (Local E)) : Crew (Run.World E) (Run.Local E) :=
  ⟨c.world.base, c.threads.map Local.base⟩

theorem runs_threads {c : Crew (World E) (Local E)} (hl : c.threads[i]? = some l) :
    (runs c).threads[i]? = some l.base := by
  simp [runs, hl]

/-- What a step does: it is a call of `interrupt`, or a step of a run. -/
inductive Moves (k : Concurrency) (stop : StopErrors E) (i : Nat) (w : World E) (l : Local E) :
    Progress (World E) (Local E) → Prop
  | interrupt {r : Nat} {cause : Cause E} (hpending : l.pending = some (r, cause)) :
    Moves k stop i w l ⟨{ l with pending := none }, w.interrupt r cause, none⟩
  | run {label : Run.Label E} {n : Progress (Run.World E) (Run.Local E)}
      (hpending : l.pending = none) (hn : (Run.worker k stop).step i label l.base w.base = some n) :
    Moves k stop i w l ⟨⟨n.state, finds n.state l.found, calls i l.base n.state⟩,
      { w with base := n.world }, n.started.map fun m => ⟨m, none, none⟩⟩

theorem step_moves (h : (worker k stop).step i label l w = some n) : Moves k stop i w l n := by
  simp only [worker, step] at h
  split at h
  · rename_i r cause hpending
    cases h
    exact .interrupt hpending
  · rename_i hpending
    obtain ⟨m, hm, rfl⟩ := Option.map_eq_some_iff.mp h
    exact .run hpending hm

/-- Without the context of the handlers an action is one of the runs, or none. -/
theorem runs_next (k : Concurrency) (stop : StopErrors E) (c : Crew (World E) (Local E))
    (a : Action (Run.Label E) Shift Run.Call) :
    runs ((worker k stop).next c a) = runs c ∨
      ∃ b, runs ((worker k stop).next c a) = (Run.worker k stop).next (runs c) b := by
  have hnexts := (worker k stop).nexts_next c a
  generalize (worker k stop).next c a = c' at hnexts ⊢
  cases hnexts with
  | idle => exact .inl rfl
  | spawn call =>
    refine .inr ⟨.spawn call, ?_⟩
    simp [runs, System.next, worker]
  | shift e =>
    cases e with
    | base e => exact .inr ⟨.shift e, rfl⟩
    | watch r =>
      refine .inl ?_
      simp only [runs, worker, shift]
      split_ifs <;> rfl
  | @step i label l n hl hn =>
    have hmoves := step_moves hn
    cases hmoves with
    | interrupt =>
      refine .inl ?_
      have hsame : (c.threads.map Local.base).set i l.base = c.threads.map Local.base := by
        obtain ⟨hlt, hget⟩ := List.getElem?_eq_some_iff.mp (runs_threads hl)
        rw [← hget]
        exact List.set_getElem_self hlt
      simp only [runs, List.map_set, Option.toList_none, List.append_nil, hsame]
      rfl
    | @run label n _ hm =>
      refine .inr ⟨.run i label, ?_⟩
      have hbase := runs_threads hl
      have hstep : (Run.worker k stop).step i label l.base (runs c).world = some n := hm
      simp only [System.next, hbase, hstep]
      cases hstarted : n.started with
      | none | some m => simp [runs]

theorem runs_run (actions : List (Action (Run.Label E) Shift Run.Call)) :
    ∃ bs, runs ((worker k stop).run idle actions) = (Run.worker k stop).run Run.idle bs :=
  System.run_follows (Run.worker k stop) (worker k stop) runs (runs_next k stop) idle actions

end Refinement

end Fries.Queue.Interrupts
