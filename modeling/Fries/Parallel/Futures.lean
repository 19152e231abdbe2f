import Fries.Lib.Schedule
import Fries.Parallel.PoolOutline
import Mathlib.Data.List.Perm.Subperm

/-! What becomes of the tasks of a pool in every interleaving, and of their futures. -/
namespace Fries.Parallel.Pool

variable {E : Type} {w : World E} {i j t : Nat} {workers : Nat} {l : Local E} {phase : Phase E}
  {n : Progress (World E) (Local E)} {c : Config}

theorem completed_subperm (hw : Inv workers w) : (completed w).Subperm w.intake.accepted := by
  rw [List.subperm_ext_iff]
  intro t _
  have hbalance := hw.balance t
  omega

/-- When the pool is done, every accepted task has a complete future. -/
theorem completed_of_done (hpos : 0 < workers) (hw : Inv workers w) (hdone : w.done = true)
    (ht : t ∈ w.intake.accepted) : t ∈ completed w := by
  have hnone := hw.finished hdone
  have hempty : w.intake.chan.buf = [] := (hw.gone (by omega)).2
  have hidle : busy w = 0 := by
    have := hw.busy_le
    omega
  have hlength : w.intake.accepted.length ≤ (completed w).length := by
    rw [completed, List.length_map]
    simp only [busy, hempty, List.length_nil] at hidle
    omega
  exact ((completed_subperm hw).perm_of_length_le hlength).mem_iff.mpr ht

/-- The worker is in a task. -/
def Local.running : Local E → Bool
  | .worker (.running _) => true
  | _ => false

theorem running_le {s : Crew (World E) (Local E)} (hs : (outline E c).Holds s) :
    s.threads.countP Local.running ≤ c.workers := by
  have hweight : ∀ l : Local E, l.running = true → 1 ≤ weight .busy l := by
    intro l hl
    unfold Local.running at hl
    split at hl
    · exact Nat.le_refl 1
    · cases hl
  have hbusy : busy s.world = System.total (weight .busy) s.threads := hs.counted .busy
  calc s.threads.countP Local.running
      ≤ System.total (weight .busy) s.threads := System.countP_le_total hweight _
    _ = busy s.world := hbusy.symm
    _ ≤ s.world.workers := hs.inv.busy_le
    _ ≤ c.workers := hs.inv.workers_le

/-- The steps a worker still has before it can receive the next task. -/
def Phase.left : Phase E → Nat
  | .receiving | .exited => 0
  | .idle => 1
  | .completing .. => 2
  | .running _ => 3
  | .holding _ => 4

/-- A receive brings a queued task forward or takes it. -/
theorem idxOf_receive {chan : Chan Nat} {task : Nat} (hw : Inv workers w)
    (h : w.intake.chan.receive = some (task, chan)) (hstay : t ∈ chan.buf) :
    w.intake.chan.buf.idxOf t = chan.buf.idxOf t + 1 := by
  have hbuf := (Chan.receive_eq_some.mp h).1
  have hne : task ≠ t := by
    rintro rfl
    have hbalance := hw.balance task
    have hone := List.nodup_iff_count_le_one.mp hw.distinct task
    have hpos := List.count_pos_iff.mpr hstay
    rw [hbuf, List.count_cons_self] at hbalance
    omega
  rw [hbuf, List.idxOf_cons_ne _ hne]

theorem queued_moves (hw : Inv workers w) (h : Moves i w l n) (ht : t ∈ w.intake.chan.buf)
    (hstay : t ∈ n.world.intake.chan.buf) :
    n.world.intake.chan.buf.idxOf t ≤ w.intake.chan.buf.idxOf t := by
  cases h with
  | submit => exact Nat.le_of_eq (List.idxOf_append_of_mem ht)
  | receive h =>
    have := idxOf_receive hw h hstay
    dsimp only
    omega
  | _ => exact Nat.le_refl _

/-- Every step of a worker brings it closer to the next task, or the queue forward. -/
theorem worker_queued_moves (hw : Inv workers w) (h : Moves i w (.worker phase) n)
    (ht : t ∈ w.intake.chan.buf) (hstay : t ∈ n.world.intake.chan.buf) :
    ∃ phase', n.state = .worker phase' ∧
      5 * n.world.intake.chan.buf.idxOf t + phase'.left <
        5 * w.intake.chan.buf.idxOf t + phase.left := by
  cases h with
  | receive h =>
    have hidx := idxOf_receive hw h hstay
    refine ⟨_, rfl, ?_⟩
    simp only [Phase.left]
    omega
  | exit hempty =>
    rw [hempty] at ht
    cases ht
  | _ =>
    refine ⟨_, rfl, ?_⟩
    simp [Phase.left, Chan.await]

theorem accepted_moves (h : Moves i w l n) (ht : t ∈ w.intake.accepted) :
    t ∈ n.world.intake.accepted := by
  obtain ⟨more, haccepted, -⟩ := (spares_moves h (j := i + 1) (by omega)).accepted
  rw [haccepted]
  exact List.mem_append_left _ ht

/-- A worker is blocked only at an empty queue. -/
theorem worker_enabled (hexited : phase ≠ .exited)
    (hqueue : phase = .receiving → w.intake.chan.buf ≠ []) :
    ∃ n, (pool E).step i (.returns none) (.worker phase) w = some n := by
  suffices hstep : (workerStep (.returns none) phase w).isSome from
    Option.isSome_iff_exists.mp hstep
  cases phase with
  | idle | running => rfl
  | receiving =>
    cases hreceive : w.intake.chan.receive with
    | some r => simp [workerStep, hreceive]
    | none => exact absurd (Chan.receive_eq_none.mp hreceive) (hqueue rfl)
  | holding task => cases hcause : w.causes task <;> simp [workerStep, hcause]
  | completing task how =>
    simp only [workerStep]
    split <;> rfl
  | exited => exact absurd rfl hexited

/-- The steps a thread has before it can receive the next task. -/
def Local.left : Local E → Nat
  | .worker phase => phase.left
  | _ => 0

variable {σ : Nat → Action (Label E) Cancel Call} {m : Nat}

theorem worker_moves_worker (h : Moves i w (.worker phase) n) :
    ∃ phase', n.state = .worker phase' := by
  cases h <;> exact ⟨_, rfl⟩

/-- The first threads are workers all along. -/
theorem worker_after (hi : i < c.workers) (m : Nat) :
    ∃ phase, ((pool E).after (initial E c) σ m).threads[i]? = some (.worker phase) := by
  induction m with
  | zero => exact ⟨.idle, by simp [System.after, initial, hi]⟩
  | succ m ih =>
    obtain ⟨phase, hphase⟩ := ih
    have hs := System.Outline.holds_after (σ := σ) (holds_initial E c) m
    obtain ⟨l, hl, rfl | ⟨label, n, hn, rfl⟩⟩ := System.thread_next (pool E) hphase (σ m)
    · exact ⟨phase, hl⟩
    · have hmoves :=
        step_moves hs.inv (hs.at_thread i _ hphase) (System.Outline.weight_le hs hphase) hn
      obtain ⟨phase', hstate⟩ := worker_moves_worker hmoves
      exact ⟨phase', hstate ▸ hl⟩

/-- A queued task is taken: the first worker comes for it, if nobody else does. -/
theorem eventually_taken (hfair : (pool E).Fair (initial E c) σ 0)
    (haccepted : t ∈ ((pool E).after (initial E c) σ m).world.intake.accepted) :
    ∃ m', m ≤ m' ∧ t ∈ ((pool E).after (initial E c) σ m').world.intake.accepted ∧
      t ∉ ((pool E).after (initial E c) σ m').world.intake.chan.buf := by
  by_cases hbuf : t ∈ ((pool E).after (initial E c) σ m).world.intake.chan.buf
  · obtain ⟨phase, hworker⟩ := worker_after (E := E) (σ := σ) c.workers_pos m
    let P (l : Local E) (w : World E) : Prop :=
      (∃ phase, l = .worker phase) ∧ t ∈ w.intake.accepted ∧ t ∈ w.intake.chan.buf
    let Q (_ : Local E) (w : World E) : Prop := t ∈ w.intake.accepted ∧ t ∉ w.intake.chan.buf
    let rank (l : Local E) (w : World E) : Nat := 5 * w.intake.chan.buf.idxOf t + l.left
    refine (System.Outline.eventually P Q rank (holds_initial E c) hfair ?_ ?_ ?_ ?_ hworker
      ⟨⟨phase, rfl⟩, haccepted, hbuf⟩).imp ?_
    · rintro l w hw hat ⟨⟨phase, rfl⟩, -, hbuf⟩
      have hnonempty : w.intake.chan.buf ≠ [] := List.ne_nil_of_mem hbuf
      refine ⟨_, worker_enabled ?_ fun _ => hnonempty⟩
      rintro rfl
      exact hnonempty hat.2.2
    · rintro label l w n hn hw hat hcount ⟨⟨phase, rfl⟩, haccepted, hbuf⟩
      have hmoves := step_moves (l := .worker phase) hw hat hcount hn
      have haccepted' := accepted_moves hmoves haccepted
      by_cases hstay : t ∈ n.world.intake.chan.buf
      · obtain ⟨phase', hstate, hlt⟩ := worker_queued_moves hw hmoves hbuf hstay
        refine .inr ⟨⟨⟨phase', hstate⟩, haccepted', hstay⟩, ?_⟩
        simp only [rank, hstate]
        exact hlt
      · exact .inl ⟨haccepted', hstay⟩
    · rintro i label l' l w n hn hw hat hcount ⟨hworker, haccepted, hbuf⟩
      have hmoves := step_moves hw hat hcount hn
      have haccepted' := accepted_moves hmoves haccepted
      by_cases hstay : t ∈ n.world.intake.chan.buf
      · have hle := queued_moves hw hmoves hbuf hstay
        refine .inr ⟨⟨hworker, haccepted', hstay⟩, ?_⟩
        simp only [rank]
        omega
      · exact .inl ⟨haccepted', hstay⟩
    · intro e l w hP
      exact ⟨hP, Nat.le_refl _⟩
    · rintro m' ⟨hm', l, -, htaken⟩
      exact ⟨hm', htaken⟩
  · exact ⟨m, Nat.le_refl m, haccepted, hbuf⟩

/-- Every step of a worker that holds a task brings it closer to the end of the task. -/
theorem worker_held_moves (h : Moves i w (.worker phase) n) (ht : phase.task = some t) :
    t ∈ completed n.world ∨ ∃ phase', n.state = .worker phase' ∧ phase'.task = some t ∧
      phase'.left < phase.left := by
  cases h with
  | await | receive | exit => cases ht
  | skip | start | finishes => exact .inr ⟨_, rfl, ht, by simp [Phase.left]⟩
  | complete =>
    cases ht
    exact .inl (by simp [completed])

/-- A worker completes the task it holds. -/
theorem eventually_completed (hfair : (pool E).Fair (initial E c) σ j) {phase : Phase E}
    (hworker : ((pool E).after (initial E c) σ m).threads[j]? = some (.worker phase))
    (htask : phase.task = some t) :
    ∃ m', m ≤ m' ∧ t ∈ completed ((pool E).after (initial E c) σ m').world := by
  let P (l : Local E) (_ : World E) : Prop :=
    ∃ phase : Phase E, l = .worker phase ∧ phase.task = some t
  let rank (l : Local E) (_ : World E) : Nat := l.left
  let Q (_ : Local E) (w : World E) : Prop := t ∈ completed w
  refine (System.Outline.eventually P Q rank (holds_initial E c) hfair ?_ ?_ ?_ ?_ hworker
    ⟨phase, rfl, htask⟩).imp ?_
  · rintro l w hw hat ⟨phase, rfl, htask⟩
    refine ⟨_, worker_enabled ?_ ?_⟩
    · rintro rfl
      cases htask
    · rintro rfl
      cases htask
  · rintro label l w n hn hw hat hcount ⟨phase, rfl, htask⟩
    rcases worker_held_moves (step_moves hw hat hcount hn) htask with
      hdone | ⟨phase', hstate, htask', hlt⟩
    · exact .inl hdone
    · refine .inr ⟨⟨phase', hstate, htask'⟩, ?_⟩
      simp only [rank, hstate]
      exact hlt
  · intro i label l' l w n hn hw hat hcount hP
    exact .inr ⟨hP, Nat.le_refl _⟩
  · intro e l w hP
    exact ⟨hP, Nat.le_refl _⟩
  · rintro m' ⟨hm', l, -, hdone⟩
    exact ⟨hm', hdone⟩

/-- With fair workers every accepted task has its future completed. -/
theorem accepted_completed (hfair : ∀ i < c.workers, (pool E).Fair (initial E c) σ i)
    (ht : t ∈ ((pool E).after (initial E c) σ m).world.intake.accepted) :
    ∃ m', m ≤ m' ∧ t ∈ completed ((pool E).after (initial E c) σ m').world := by
  obtain ⟨m₁, hm₁, haccepted, hbuf⟩ := eventually_taken (hfair 0 c.workers_pos) ht
  by_cases hdone : t ∈ completed ((pool E).after (initial E c) σ m₁).world
  · exact ⟨m₁, hm₁, hdone⟩
  · have hs := System.Outline.holds_after (σ := σ) (holds_initial E c) m₁
    generalize hs₁ : (pool E).after (initial E c) σ m₁ = s at hs haccepted hbuf hdone
    have hheld : 0 < held s.world t := by
      have hpos := List.count_pos_iff.mpr haccepted
      rw [held, List.count_eq_zero_of_not_mem hbuf, List.count_eq_zero_of_not_mem hdone]
      omega
    have hcounted : held s.world t = System.total (weight (.holder t)) s.threads :=
      hs.counted (.holder t)
    obtain ⟨j, l, hl, hweight⟩ := System.exists_of_total_pos _ (hcounted ▸ hheld)
    obtain ⟨phase, rfl, htask⟩ : ∃ phase : Phase E, l = .worker phase ∧ phase.task = some t := by
      cases l with
      | worker phase =>
        refine ⟨phase, rfl, ?_⟩
        by_contra hne
        simp [weight, Phase.weight, hne] at hweight
      | caller | closer | panicked => cases hweight
    have hj : j < c.workers := (hs.at_thread j _ hl).1
    subst hs₁
    obtain ⟨m₂, hm₂, hcompleted⟩ := eventually_completed (hfair j hj) hl htask
    exact ⟨m₂, by omega, hcompleted⟩

/-- In every run a future is completed at most once, for an accepted task only, with the error of
its one execution or, unexecuted, with the cause of its context; no more tasks run at once than
there are workers; after `Shutdown` has returned nil all accepted tasks are complete; and nothing
panics. In every schedule that is fair to the workers, accepted tasks complete. -/
theorem futures_complete_once (c : Config) :
    (∀ actions : List (Action (Label E) Cancel Call),
      let s := (pool E).run (initial E c) actions
      ((completed s.world).Nodup ∧ ∀ t ∈ completed s.world, t ∈ s.world.intake.accepted) ∧
      (s.world.starts.Nodup ∧ (s.world.returns.map Prod.fst).Nodup) ∧
      (∀ t err, (t, .executed err) ∈ s.world.completions →
        t ∈ s.world.starts ∧ (t, err) ∈ s.world.returns) ∧
      (∀ t cause, (t, .canceled cause) ∈ s.world.completions →
        t ∉ s.world.starts ∧ s.world.causes t = some cause) ∧
      (∀ (i : Nat) (task : Bool) (call : Call) (outcome : Outcome E),
        s.threads[i]? = some (.caller call (.returned outcome)) →
        call = .submit task ∨ call = .trySubmit task →
        outcome = .accepted ∧ i ∈ s.world.intake.accepted ∨
          outcome ≠ .accepted ∧ i ∉ s.world.intake.accepted ∧ i ∉ s.world.starts) ∧
      s.threads.countP Local.running ≤ c.workers ∧
      (∀ (i t : Nat) (how : Completion E),
        s.threads[i]? = some (.caller (.wait t) (.returned (.result how))) →
        (t, how) ∈ s.world.completions) ∧
      (∀ i : Nat, s.threads[i]? = some (.caller .shutdown (.returned .finished)) →
        ∀ t ∈ s.world.intake.accepted, t ∈ completed s.world) ∧
      ∀ i : Nat, s.threads[i]? ≠ some .panicked) ∧
    ∀ σ : Nat → Action (Label E) Cancel Call,
      (∀ i < c.workers, (pool E).Fair (initial E c) σ i) →
      ∀ n, ∀ t ∈ ((pool E).after (initial E c) σ n).world.intake.accepted,
        ∃ m, n ≤ m ∧ t ∈ completed ((pool E).after (initial E c) σ m).world := by
  refine ⟨?_, fun σ hfair n t ht => accepted_completed hfair ht⟩
  intro actions s
  have hs := System.Outline.holds_run (holds_initial E c) actions
  have hw : Inv c.workers s.world := hs.inv
  have hsub := completed_subperm hw
  refine ⟨⟨?_, fun t ht => hsub.subset ht⟩, ⟨hw.started.1, hw.returned.1⟩, hw.executed, hw.canceled,
    ?_, running_le hs, fun i t how hi => hs.at_thread i _ hi, ?_, fun i hi => hs.at_thread i _ hi⟩
  · rw [List.nodup_iff_count_le_one]
    intro t
    have hone := List.nodup_iff_count_le_one.mp hw.distinct t
    have hbalance := hw.balance t
    omega
  · intro i task call outcome hi hcall
    have hpromise : Promise i call s.world outcome := hs.at_thread i _ hi
    have hrejected : i ∉ s.world.intake.accepted →
        i ∉ s.world.intake.accepted ∧ i ∉ s.world.starts :=
      fun hnew => ⟨hnew, fun hstarted => hnew (hw.started.2 i hstarted).1⟩
    cases outcome with
    | accepted => exact .inl ⟨rfl, hpromise⟩
    | result | finished =>
      rcases hcall with rfl | rfl <;> cases hpromise
    | _ =>
      refine .inr ⟨nofun, hrejected ?_⟩
      rcases hcall with rfl | rfl <;> exact hpromise
  · intro i hi t ht
    exact completed_of_done c.workers_pos hw (hs.at_thread i _ hi) ht

/-- A worker that is not blocked can take a step whatever its task returns. -/
theorem workerStep_label {label : Label E} (h : (workerStep label phase w).isSome) :
    (workerStep (.returns none) phase w).isSome := by
  cases phase with
  | running => rfl
  | _ => exact h

/-- A schedule that runs a worker forever in the end is fair to it. -/
theorem fair_of_tail (hi : i < c.workers) {k : Nat}
    (hσ : ∀ n, k ≤ n → σ n = .run i (.returns none)) : (pool E).Fair (initial E c) σ i := by
  intro n
  obtain ⟨phase, hworker⟩ := worker_after (E := E) (σ := σ) hi (n + k)
  refine ⟨n + k, Nat.le_add_right n k, ?_⟩
  by_cases hsome :
      (workerStep (.returns none) phase ((pool E).after (initial E c) σ (n + k)).world).isSome
  · obtain ⟨p, hp⟩ := Option.isSome_iff_exists.mp hsome
    exact .inl ⟨_, hσ _ (Nat.le_add_left k n), _, p, hworker, hp⟩
  · right
    rintro label ⟨l, p, hl, hp⟩
    rw [hworker] at hl
    cases hl
    exact hsome (workerStep_label (Option.isSome_iff_exists.mpr ⟨p, hp⟩))

/-- One task is submitted to a pool with one worker. -/
def submitted : List (Action (Label String) Cancel Call) :=
  [.spawn (.submit true), .run 1 .send, .run 1 .send, .run 1 .send, .run 1 .send]

/-- The pool is shut down while the task waits in the queue; the task fails. -/
def shutdown : List (Action (Label String) Cancel Call) :=
  submitted ++ [.spawn .shutdown, .run 2 .send, .run 3 .send, .run 0 .send, .run 0 .send,
    .run 0 .send, .run 0 (.returns (some "boom")), .run 0 .send, .run 0 .send, .run 0 .send,
    .run 3 .send, .run 2 .send]

def single : Config := ⟨1, 1, by decide⟩

def forever (n : Nat) : Action (Label String) Cancel Call :=
  submitted.getD n (.run 0 (.returns none))

theorem futures_complete_once_single :
    let s := (pool String).run (initial String single) shutdown
    (s.world.intake.accepted = [1] ∧ s.world.completions = [(1, .executed (some "boom"))] ∧
      1 ∈ completed s.world ∧ (1, some "boom") ∈ s.world.returns) ∧
    ∃ m, 1 ∈ completed ((pool String).after (initial String single) forever m).world := by
  obtain ⟨hruns, hfair⟩ := futures_complete_once (E := String) single
  obtain ⟨-, -, hexecuted, -, -, -, -, hshutdown, -⟩ := hruns shutdown
  have haccepted : ((pool String).run (initial String single) shutdown).world.intake.accepted =
      [1] := by decide +kernel
  have hcompletions : ((pool String).run (initial String single) shutdown).world.completions =
      [(1, .executed (some "boom"))] := by decide +kernel
  refine ⟨⟨haccepted, hcompletions, ?_, ?_⟩, ?_⟩
  · exact hshutdown 2 (by decide +kernel) 1 (by rw [haccepted]; exact List.mem_singleton.mpr rfl)
  · exact (hexecuted 1 (some "boom") (by rw [hcompletions]; exact List.mem_singleton.mpr rfl)).2
  · have hworkers : ∀ i < single.workers, (pool String).Fair (initial String single) forever i := by
      intro i hi
      obtain rfl : i = 0 := Nat.lt_one_iff.mp hi
      refine fair_of_tail (k := 5) hi fun n hn => ?_
      have hpast : submitted[n]? = none := List.getElem?_eq_none hn
      rw [forever, List.getD_eq_getElem?_getD, hpast]
      rfl
    obtain ⟨m, -, hm⟩ := hfair forever hworkers 5 1 (by decide +kernel)
    exact ⟨m, hm⟩

end Fries.Parallel.Pool
