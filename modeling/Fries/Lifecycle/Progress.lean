import Fries.Lib.Schedule
import Fries.Lifecycle.Invariant

/-! Every call on a runner returns if all calls are scheduled fairly. -/
namespace Fries.Lifecycle

variable {X E : Type} {contexts : Contexts X} {c : Config} {w w' : World X E} {call : Call X}
  {made : RunnerState} {phase phase' : Phase X E} {role : Role}
  {σ : Nat → Action (Label X E) Empty (Call X)} {i j m n : Nat}

attribute [local simp] RunnerState.rank

theorem rank_le_four (state : RunnerState) : state.rank ≤ 4 := by
  cases state <;> simp

theorem rank_inj {s s' : RunnerState} (h : s.rank = s'.rank) : s = s' := by
  cases s <;> cases s' <;> first | rfl | cases h

theorem left_of_role (hrole : phase.role = some role) :
    0 < phase.left c ∧ ¬ Waiting w phase := by
  cases phase with
  | bootstrap | bootstrapping | bootstrapped | shutdown | shuttingDown | shutDown =>
    exact ⟨Nat.succ_pos _, id⟩
  | _ => cases hrole

/-- A step takes the runner to another state, or the call closer to where it returns or waits. -/
theorem left_moves (hw : Inv c w) (hat : AtCaller c call made w phase)
    (hcount : ∀ k, weight k (.caller call made phase) ≤ count w k)
    (h : Moves c call made w phase phase' w') :
    w.state.rank < w'.state.rank ∨
      phase'.role = phase.role ∧ (Waiting w phase' ∨ phase'.left c < phase.left c) := by
  cases h with
  | stay hrole hrole' _ hleft => exact .inr ⟨hrole'.trans hrole.symm, hleft⟩
  | start hnew => exact .inl (by simp [hnew])
  | take hstarted => exact .inl (by simp [hstarted])
  | started | rollback =>
    have hstate : w.state = .starting := state_of_role hcount rfl
    exact .inl (by simp [hstate])
  | finish =>
    have hstate : w.state = .stopping := state_of_role hcount rfl
    exact .inl (by simp [hstate])
  | succeed =>
    obtain ⟨-, hcalls⟩ := hat.here
    have hle := hw.shape.called_le
    refine .inr ⟨rfl, .inr ?_⟩
    simp only [Phase.left, List.length_append, List.length_singleton]
    omega
  | fail =>
    refine .inr ⟨rfl, .inr ?_⟩
    simp only [Phase.left, List.length_reverse]
    omega
  | _ =>
    refine .inr ⟨rfl, .inr ?_⟩
    simp only [Phase.left, List.length_cons, List.length_nil]
    omega

/-- The call that has the runner for itself can always take a step. -/
theorem role_enabled (contexts : Contexts X) (call : Call X) (made : RunnerState)
    (hrole : phase.role = some role) (w : World X E) :
    ∃ label n, step contexts c label (.caller call made phase) w = some n := by
  refine ⟨.returns .nilContext, Option.isSome_iff_exists.mp ?_⟩
  cases phase with
  | bootstrap index ctx started =>
    simp only [step, bootstrapStep]
    split <;> rfl
  | bootstrapping | bootstrapped | shuttingDown => rfl
  | shutdown purpose ctx providers errs => cases providers <;> rfl
  | shutDown purpose ctx err => cases purpose <;> rfl
  | _ => cases hrole

/-- Another call that waits for nobody can take a step. -/
theorem free_enabled (contexts : Contexts X) (hw : Inv c w) (hat : AtCaller c call made w phase)
    (hrole : phase.role = none) (hnot : 0 < phase.left c) (hwait : ¬ Waiting w phase) :
    ∃ label n, step contexts c label (.caller call made phase) w = some n := by
  refine ⟨.handled none, Option.isSome_iff_exists.mp ?_⟩
  cases phase with
  | returned => exact absurd hnot (Nat.lt_irrefl 0)
  | start =>
    cases call with
    | shutdown => rfl
    | bootstrap | run =>
      simp only [step, bootstrapStep]
      split <;> rfl
  | handling ctx =>
    cases call with
    | run _ handler => cases handler <;> rfl
    | bootstrap | shutdown => rfl
  | observe handled ctx =>
    simp only [step, shutdownStep]
    split <;> rfl
  | awaitStart handled ctx =>
    have hclosed : w.startDone = some true := by
      refine hw.startDone ?_
      have hnew : w.state ≠ .new := hat.here.2
      have hstarting : w.state ≠ .starting := hwait
      cases hstate : w.state <;> simp_all
    simp [step, shutdownStep, hclosed]
  | awaitStop handled ctx =>
    have hclosed : w.stopDone = some true := by
      obtain ⟨hrank, hdone⟩ := hw.stopDone hat.here.2
      refine hdone (rank_eq_four.mp ?_)
      have hstopping : w.state ≠ .stopping := hwait
      cases hstate : w.state <;> simp_all
    simp [step, shutdownStep, hclosed]
  | _ => cases hrole

/-- The runner after the first actions of a schedule. -/
def moment (contexts : Contexts X) (c : Config) (σ : Nat → Action (Label X E) Empty (Call X))
    (n : Nat) : Crew (World X E) (Local X E) := (runner contexts c).after (initial X E) σ n

theorem holds_moment (contexts : Contexts X) (c : Config)
    (σ : Nat → Action (Label X E) Empty (Call X)) (n : Nat) :
    (outline E contexts c).Holds (moment contexts c σ n) :=
  System.Outline.holds_after (holds_initial E contexts c) n

/-- A call stays the call it is. -/
theorem call_later (hl : (moment contexts c σ n).threads[j]? = some (.caller call made phase))
    (hle : n ≤ m) :
    ∃ phase', (moment contexts c σ m).threads[j]? = some (.caller call made phase') := by
  obtain ⟨d, rfl⟩ := Nat.exists_eq_add_of_le hle
  clear hle
  induction d with
  | zero => exact ⟨phase, hl⟩
  | succ d ih =>
    obtain ⟨phase', hphase⟩ := ih
    have hs := holds_moment contexts c σ (n + d)
    obtain ⟨l, hl', rfl | ⟨label, p, hp, rfl⟩⟩ :=
      System.thread_next (runner contexts c) hphase (σ (n + d))
    · exact ⟨phase', hl'⟩
    · obtain ⟨call', made', phase₁, phase₂, w', heq, rfl, -⟩ :=
        step_moves hs.inv (hs.at_thread j _ hphase) (System.Outline.weight_le hs hphase) hp
      cases heq
      exact ⟨phase₂, hl'⟩

/-- A call that has not returned gets to where it returns or waits, or sees the runner go on. -/
theorem eventually_settles (hfair : (runner contexts c).Fair (initial X E) σ j)
    (hl : (moment contexts c σ n).threads[j]? = some (.caller call made phase))
    (hnot : 0 < phase.left c) (hwait : ¬ Waiting (moment contexts c σ n).world phase) :
    ∃ m, n ≤ m ∧
      ((moment contexts c σ n).world.state.rank < (moment contexts c σ m).world.state.rank ∨
      (moment contexts c σ m).world.state = (moment contexts c σ n).world.state ∧
      ∃ phase', (moment contexts c σ m).threads[j]? = some (.caller call made phase') ∧
        phase'.role = phase.role ∧
        (phase'.left c = 0 ∨ Waiting (moment contexts c σ m).world phase')) := by
  generalize hs₀ : (moment contexts c σ n).world.state = s₀
  generalize hr₀ : phase.role = r₀
  let P (l : Local X E) (w : World X E) : Prop := ∃ phase, l = .caller call made phase ∧
    phase.role = r₀ ∧ 0 < phase.left c ∧ ¬ Waiting w phase ∧ w.state = s₀
  let Q (l : Local X E) (w : World X E) : Prop := s₀.rank < w.state.rank ∨ w.state = s₀ ∧
    ∃ phase, l = .caller call made phase ∧ phase.role = r₀ ∧ (phase.left c = 0 ∨ Waiting w phase)
  let rank (l : Local X E) (_ : World X E) : Nat := l.left c
  -- what a step by any call does to the state
  have hstate : ∀ {w w' : World X E}, w.state = s₀ → Later w w' →
      s₀.rank < w'.state.rank ∨ w'.state = s₀ := by
    intro w w' hw hlater
    rcases Nat.lt_or_eq_of_le hlater.rank with hup | hsame
    · exact .inl (hw ▸ hup)
    · exact .inr ((rank_inj hsame.symm).trans hw)
  have hwaiting : ∀ {w w' : World X E} (phase : Phase X E), w'.state = w.state →
      (Waiting w' phase ↔ Waiting w phase) := by
    intro w w' phase hsame
    cases phase <;> simp only [Waiting, hsame]
  refine (System.Outline.eventually P Q rank (holds_initial E contexts c) hfair ?_ ?_ ?_ ?_ hl
    ⟨phase, rfl, hr₀, hnot, hwait, hs₀⟩).imp ?_
  · rintro l w hw hat ⟨phase, rfl, -, hnot, hwait, -⟩
    cases hrole : phase.role with
    | none => exact free_enabled contexts hw hat hrole hnot hwait
    | some role => exact role_enabled contexts call made hrole w
  · rintro label l w n hn hw hat hcount ⟨phase, rfl, hr₀, hnot, hwait, hs₀⟩
    obtain ⟨_, _, _, phase', w', heq, rfl, hmoves⟩ :=
      step_moves (l := .caller call made phase) hw hat hcount hn
    cases heq
    rcases hstate hs₀ (later_moves hmoves hcount) with hup | hsame
    · exact .inl (.inl hup)
    rcases left_moves hw hat hcount hmoves with hup | ⟨hrole, hleft⟩
    · exact .inl (.inl (hs₀ ▸ hup))
    have hwait' := hwaiting phase' (hsame.trans hs₀.symm)
    by_cases hstops : phase'.left c = 0 ∨ Waiting w' phase'
    · exact .inl (.inr ⟨hsame, phase', rfl, hrole.trans hr₀, hstops⟩)
    · obtain ⟨hpos, hnot'⟩ := not_or.mp hstops
      refine .inr ⟨⟨phase', rfl, hrole.trans hr₀, Nat.pos_of_ne_zero hpos, hnot', hsame⟩, ?_⟩
      exact hleft.resolve_left fun hwaits => hnot' (hwait'.mpr hwaits)
  · rintro i label l' l w n hn hw hat hcount ⟨phase, rfl, hr₀, hnot, hwait, hs₀⟩
    obtain ⟨_, _, _, phase', w', rfl, rfl, hmoves⟩ := step_moves (l := l') hw hat hcount hn
    rcases hstate hs₀ (later_moves hmoves hcount) with hup | hsame
    · exact .inl (.inl hup)
    · have hnot' := fun hwaits => hwait ((hwaiting phase (hsame.trans hs₀.symm)).mp hwaits)
      exact .inr ⟨⟨phase, rfl, hr₀, hnot, hnot', hsame⟩, Nat.le_refl _⟩
  · intro e
    cases e
  · rintro m ⟨hm, l, hl, hup | ⟨hsame, phase', rfl, hrole, hstops⟩⟩
    · exact ⟨hm, .inl hup⟩
    · exact ⟨hm, .inr ⟨hsame, phase', hl, hrole, hstops⟩⟩

section

variable (hfair : ∀ i, (runner contexts c).Fair (initial X E) σ i)

include hfair

/-- The call that has the runner for itself takes it on. -/
theorem role_advances (hl : (moment contexts c σ n).threads[j]? = some (.caller call made phase))
    (hrole : phase.role = some role) :
    ∃ m, n ≤ m ∧
      (moment contexts c σ n).world.state.rank < (moment contexts c σ m).world.state.rank := by
  obtain ⟨hpos, hnot⟩ := left_of_role (w := (moment contexts c σ n).world) (c := c) hrole
  obtain ⟨m, hm, hup | ⟨-, phase', -, hrole', hstops⟩⟩ := eventually_settles (hfair j) hl hpos hnot
  · exact ⟨m, hm, hup⟩
  · obtain ⟨hpos', hnot'⟩ := left_of_role (w := (moment contexts c σ m).world) (c := c)
      (hrole'.trans hrole)
    rcases hstops with hzero | hwaits
    · omega
    · exact absurd hwaits hnot'

/-- Somebody takes the runner on while a call waits. -/
theorem waiting_advances (hwait : Waiting (moment contexts c σ n).world phase) :
    ∃ m, n ≤ m ∧
      (moment contexts c σ n).world.state.rank < (moment contexts c σ m).world.state.rank := by
  have hs := holds_moment contexts c σ n
  obtain ⟨role, hstate⟩ : ∃ role : Role, (moment contexts c σ n).world.state = role.state := by
    cases phase with
    | awaitStart => exact ⟨.starter, hwait⟩
    | awaitStop => exact ⟨.stopper, hwait⟩
    | _ => exact hwait.elim
  have hcounted : count (moment contexts c σ n).world role =
      System.total (weight role) (moment contexts c σ n).threads := hs.counted role
  rw [count, if_pos hstate] at hcounted
  obtain ⟨i, l, hl, hweight⟩ :=
    System.exists_of_total_pos (weight role) (hcounted ▸ Nat.one_pos)
  cases l with
  | panicked => cases hweight
  | caller call' made' phase' =>
    have hrole : phase'.role = some role := by
      by_contra hne
      simp [weight, hne] at hweight
    exact role_advances hfair hl hrole

/-- With fair scheduling every call returns. -/
theorem call_returns (hl : (moment contexts c σ n).threads[j]? = some (.caller call made phase)) :
    ∃ m found ctx err, n ≤ m ∧
      (moment contexts c σ m).threads[j]? = some (.caller call made (.returned found ctx err)) := by
  -- induction on how far the runner can still go
  suffices hbound : ∀ k n phase, 4 - (moment contexts c σ n).world.state.rank < k →
      (moment contexts c σ n).threads[j]? = some (.caller call made phase) →
      ∃ m, n ≤ m ∧ ∃ phase', (moment contexts c σ m).threads[j]? =
        some (.caller call made phase') ∧ phase'.left c = 0 by
    obtain ⟨m, hm, phase', hl', hzero⟩ := hbound _ n phase (Nat.lt_succ_self _) hl
    cases phase' with
    | returned found ctx err => exact ⟨m, found, ctx, err, hm, hl'⟩
    | _ => exact absurd hzero (Nat.succ_ne_zero _)
  intro k
  induction k with
  | zero =>
    intro n phase hlt
    omega
  | succ k ih =>
    intro n phase hlt hl
    have hagain : ∀ m, n ≤ m →
        (moment contexts c σ n).world.state.rank < (moment contexts c σ m).world.state.rank →
        ∃ m, n ≤ m ∧ ∃ phase', (moment contexts c σ m).threads[j]? =
          some (.caller call made phase') ∧ phase'.left c = 0 := by
      intro m hm hup
      obtain ⟨phase', hl'⟩ := call_later hl hm
      have hle := rank_le_four (moment contexts c σ m).world.state
      obtain ⟨m', hm', hdone⟩ := ih m phase' (by omega) hl'
      exact ⟨m', Nat.le_trans hm hm', hdone⟩
    by_cases hzero : phase.left c = 0
    · exact ⟨n, Nat.le_refl n, phase, hl, hzero⟩
    by_cases hwait : Waiting (moment contexts c σ n).world phase
    · obtain ⟨m, hm, hup⟩ := waiting_advances hfair hwait
      exact hagain m hm hup
    obtain ⟨m, hm, hup | ⟨hsame, phase', hl', -, hzero' | hwait'⟩⟩ :=
      eventually_settles (hfair j) hl (Nat.pos_of_ne_zero hzero) hwait
    · exact hagain m hm hup
    · exact ⟨m, hm, phase', hl', hzero'⟩
    · obtain ⟨m', hm', hup⟩ := waiting_advances hfair hwait'
      exact hagain m' (Nat.le_trans hm hm') (hsame ▸ hup)

end

end Fries.Lifecycle
