import Fries.Signal.RouterInvariant

/-!
What every run of calls on a router keeps to, with any signals and cancellations.
-/
namespace Fries.Signal

variable {G H E : Type} {w w' : World G H E} {l l' : Local G H E}
  {n : Progress (World G H E) (Local G H E)} {c : Crew (World G H E) (Local G H E)} {i i' j : Nat}

/-- A call of `Run` or `Shutdown` that has begun. -/
def Local.begun : Local G H E → Bool
  | .starting | .runner .. | .canceling _ | .ran _ => true
  | .stopper .beginning => false
  | .stopper _ => true
  | _ => false

/-- The router has stopped, so no worker is left. -/
theorem works_of_stopped (hw : Inv w) (hcount : ∀ k, weight l k ≤ count w k)
    (hstopped : w.state = .stopped) : l.works = none := by
  have hidle : w.working = [] := hw.idle (by simp [Active, hstopped])
  cases hworks : l.works with
  | none => rfl
  | some j =>
    have hone := hcount (.worker j)
    rw [weight_worker hworks] at hone
    simp [count, hidle] at hone

/-- The states only go on, and no handler is called once the router has stopped. -/
structure Settles (w w' : World G H E) : Prop extends Later w w' where
  calls : w.state = .stopped → w'.calls = w.calls

theorem settles_trans (w₁ w₂ w₃ : World G H E) (h : Settles w₁ w₂) (h' : Settles w₂ w₃) :
    Settles w₁ w₃ := by
  refine ⟨⟨fun hbegun => ?_, fun hstopped => h'.stays (h.stays hstopped)⟩, fun hstopped => ?_⟩
  · obtain ⟨hbegun₂, hsame⟩ := h.begun hbegun
    obtain ⟨hbegun₃, hsame'⟩ := h'.begun hbegun₂
    exact ⟨hbegun₃, hsame'.trans hsame⟩
  · exact (h'.calls (h.stays hstopped)).trans (h.calls hstopped)

theorem closed_once (hw : Inv w) : w.stop ≤ 1 ∧ w.done ≤ 1 := by
  rw [hw.stop, hw.done]
  constructor <;> split <;> omega

/-- The calls of a handler are for signals of its registration that were received, each for another
one and in the order of receipt. -/
theorem calls_in_order (hw : Inv w) (j : Nat) :
    ((w.calls j).Pairwise fun x y => x.1 < y.1) ∧
      ∀ x ∈ w.calls j, w.received[x.1]? = some x.2 ∧ Subscribed w j x.2 := by
  have hsublist : (w.calls j).Sublist (w.given j) :=
    (hw.called j).trans (List.sublist_append_left _ _)
  exact ⟨(hw.queue j).sublist hsublist, fun x hx => hw.genuine j x (hsublist.subset hx)⟩

variable [DecidableEq G]

section

variable (h : (outline G H E).Holds c) (hl : c.threads[i]? = some l)

include h hl

theorem not_new_of_begun (hbegun : l.begun = true) : c.world.state ≠ .new := by
  have hat : At l c.world := h.at_thread i l hl
  cases l with
  | starting | runner => exact not_new hat.1
  | canceling | ran =>
    intro hnew
    cases hnew.symm.trans hat
  | stopper phase =>
    cases phase with
    | beginning => cases hbegun
    | _ => exact hat
  | _ => cases hbegun

theorem run_once (hl' : c.threads[i']? = some l') (hproceeds : l.proceeds = true)
    (hproceeds' : l'.proceeds = true) : i = i' :=
  System.Outline.thread_unique h (k := .run) (cancel_le c.world) hl hl'
    (congrArg Bool.toNat hproceeds) (congrArg Bool.toNat hproceeds')

theorem worker_once (hl' : c.threads[i']? = some l') (hworks : l.works = some j)
    (hworks' : l'.works = some j) : i = i' :=
  System.Outline.thread_unique h (k := .worker j) (List.nodup_iff_count_le_one.mp h.inv.sole j)
    hl hl' (weight_worker hworks) (weight_worker hworks')

end

theorem settles_moves (hw : Inv w) (hcount : ∀ k, weight l k ≤ count w k) (h : Moves w l n) :
    Settles w n.world := by
  refine ⟨later_moves h, fun hstopped => ?_⟩
  funext j
  refine (history_moves h ?_).2
  rw [works_of_stopped hw hcount hstopped]
  exact nofun

theorem settles_run (h : (outline G H E).Holds c)
    (actions : List (Action (Label E) (Change G E) (Call G H))) :
    Settles c.world (router.run c actions).world :=
  (System.Outline.later_run (K := fun _ _ => True)
    (fun _ => ⟨⟨fun hbegun => ⟨hbegun, rfl⟩, id⟩, fun _ => rfl⟩) settles_trans (fun _ => trivial)
    (fun _ _ _ _ _ => trivial)
    (fun hn hw _ hcount => ⟨settles_moves hw hcount (step_moves hn), trivial⟩)
    (fun _ _ => ⟨⟨fun hbegun => ⟨hbegun, rfl⟩, id⟩, fun _ => rfl⟩) h actions).1

theorem gone_of_stopped (h : (outline G H E).Holds c) (hstopped : c.world.state = .stopped)
    {phase : WorkPhase G} (hl : c.threads[i]? = some (.worker j phase)) : phase = .gone := by
  have hworks := works_of_stopped h.inv (System.Outline.weight_le h hl) hstopped
  cases phase with
  | gone => rfl
  | _ => cases hworks

/-- Over every run one `Run` at most proceeds, no channel is closed twice, and a registration
handles its signals one at a time in the order of receipt until the router has stopped. -/
theorem router_is_sound (actions : List (Action (Label E) (Change G E) (Call G H))) :
    let c := router.run (newRouter G H E) actions
    (∀ (i i' : Nat) l l', c.threads[i]? = some l → c.threads[i']? = some l' →
      l.proceeds = true → l'.proceeds = true → i = i') ∧
    (∀ (i : Nat) l, c.threads[i]? = some l → l.begun = true →
      ∀ more, (router.run c more).world.registrations = c.world.registrations) ∧
    c.world.stop ≤ 1 ∧ c.world.done ≤ 1 ∧
    (∀ (i i' j : Nat) x y, c.threads[i]? = some (.worker j (.handling x)) →
      c.threads[i']? = some (.worker j (.handling y)) → i = i') ∧
    (∀ j, (c.world.pending j).length ≤ 1) ∧
    (∀ (i j : Nat) x, c.threads[i]? = some (.worker j (.handling x)) →
      (c.world.calls j).getLast? = some x) ∧
    (∀ j, ((c.world.calls j).Pairwise fun x y => x.1 < y.1) ∧
      ∀ x ∈ c.world.calls j, c.world.received[x.1]? = some x.2 ∧ Subscribed c.world j x.2) ∧
    ((∃ (i : Nat) (err : Option (Err E)), c.threads[i]? = some (.ran err)) ∨
        c.world.state = .stopped →
      ∀ more, (router.run c more).world.calls = c.world.calls ∧
        ∀ (i j : Nat) phase, (router.run c more).threads[i]? = some (.worker j phase) →
          phase = .gone) := by
  intro c
  have hholds : (outline G H E).Holds c :=
    System.Outline.holds_run (newRouter_holds G H E) actions
  obtain ⟨hstop, hdone⟩ := closed_once hholds.inv
  refine ⟨?_, ?_, hstop, hdone, ?_, hholds.inv.room, ?_, calls_in_order hholds.inv, ?_⟩
  · intro i i' l l' hl hl' hproceeds hproceeds'
    exact run_once hholds hl hl' hproceeds hproceeds'
  · intro i l hl hbegun more
    exact ((settles_run hholds more).begun (not_new_of_begun hholds hl hbegun)).2
  · intro i i' j x y hx hy
    exact worker_once hholds hx hy rfl rfl
  · intro i j x hx
    exact hholds.at_thread i _ hx
  · intro hover more
    have hstopped : c.world.state = .stopped := by
      rcases hover with ⟨i, err, hran⟩ | hstopped
      · exact hholds.at_thread i _ hran
      · exact hstopped
    have hsettles := settles_run hholds more
    refine ⟨hsettles.calls hstopped, fun i j phase hl => ?_⟩
    exact gone_of_stopped (System.Outline.holds_run hholds more) (hsettles.stays hstopped) hl

/-- A handler for the signals 1 and 2 gets both, while a third one is dropped. -/
def twoSignals : List (Action (Label Unit) (Change Nat Unit) (Call Nat Unit)) :=
  let go (i : Nat) : Action (Label Unit) (Change Nat Unit) (Call Nat Unit) := .run i .step
  let receive : List (Action (Label Unit) (Change Nat Unit) (Call Nat Unit)) :=
    [go 1, go 1, .run 1 .incoming, go 1, go 1]
  [.spawn (.register (some ()) [some 1, some 2, some 1]), go 0, .spawn .run, go 1, go 1, go 1, go 1,
    .shift (.deliver 1), .shift (.deliver 2)] ++ receive ++ [.run 2 .pending, go 2] ++ receive ++
  [.shift (.deliver 1)] ++ receive ++ [.run 2 .handled, .run 2 .pending, go 2, .run 2 .handled,
    .spawn .shutdown, go 3, .run 2 .stop, go 2] ++ [go 1, go 1, go 1, go 1, go 1, go 1, go 1, go 1,
    go 1, go 1]

theorem router_is_sound_two_signals :
    let c := router.run (newRouter Nat Unit Unit) twoSignals
    c.world.state = .stopped ∧ c.world.received = [1, 2, 1] ∧
    c.world.calls 0 = [(0, 1), (1, 2)] ∧
    ∀ more, (router.run c more).world.calls = c.world.calls := by
  intro c
  have hstopped : c.world.state = .stopped := by decide +kernel
  obtain ⟨-, -, -, -, -, -, -, -, hover⟩ :=
    router_is_sound (G := Nat) (H := Unit) (E := Unit) twoSignals
  refine ⟨hstopped, by decide +kernel, by decide +kernel, fun more => ?_⟩
  exact (hover (.inr hstopped) more).1

end Fries.Signal
