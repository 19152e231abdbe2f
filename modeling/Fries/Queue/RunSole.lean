import Fries.Queue.RunInvariant

/-!
One run of a worker at a time: the call of `Run` that is in charge of the registered run.
-/
namespace Fries.Queue.Run

variable {E : Type} {k : Concurrency} {stop : StopErrors E} {w : World E} {l : Local E}
  {n : Progress (World E) (Local E)} {i r : Nat} {label : Label E}

/-- The run a call of `Run` is in charge of. -/
def Local.runs : Local E → Option Nat
  | .runner r _ => some r
  | _ => none

/-- What a step does to the registration of runs. -/
inductive Registers (k : Concurrency) (i : Nat) (w : World E) (l : Local E) :
    Progress (World E) (Local E) → Prop
  | start (hl : l = .calling) (hfree : w.current = none) :
    Registers k i w l ⟨.runner i (.spawning k.1), w.start i, none⟩
  | finish {r : Nat} {result : Option E} (hl : l = .runner r (.finishing result)) :
    Registers k i w l ⟨.returned r (result.map .queue), w.finish r, none⟩
  | keep {n : Progress (World E) (Local E)} (hcurrent : n.world.current = w.current)
      (hruns : n.state.runs = l.runs) (hstarted : ∀ m, n.started = some m → m.runs = none) :
    Registers k i w l n

theorem step_registers (h : (worker k stop).step i label l w = some n) : Registers k i w l n := by
  have hnone : ∀ m : Local E, none = some m → m.runs = none := by simp
  have hmoves := step_moves h
  cases hmoves with
  | refuse => exact .keep rfl rfl hnone
  | start =>
    refine .start rfl ?_
    simp only [worker, step] at h
    split at h
    · cases h
    · assumption
  | finish => exact .finish rfl
  | spawn =>
    refine .keep rfl rfl ?_
    rintro m ⟨rfl⟩
    rfl
  | _ => exact .keep rfl rfl hnone

theorem total_started (h : ∀ m, n.started = some m → m.runs = none) (r : Nat) :
    System.total (fun l => if l.runs = some r then 1 else 0) n.started.toList = 0 := by
  cases hs : n.started with
  | none => rfl
  | some m => simp [System.total, h m hs]

/-- The threads that are in charge of a run, and the run that is registered. -/
def sole (k : Concurrency) (stop : StopErrors E) : (worker k stop).Outline where
  Inv _ := True
  At i l w := ∀ r, l.runs = some r → r = i ∧ w.current = some i
  Unused _ _ := True
  Counter := Nat
  weight r l := if l.runs = some r then 1 else 0
  count r w := if w.current = some r then 1 else 0
  enter call _ _ r hr := by
    cases call with
    | run | stop => cases hr
  enter_weight _ call _ := by
    cases call with
    | run | stop => rfl
  own h _ hat _ := by
    refine ⟨trivial, ?_⟩
    intro r hr
    have hregisters := step_registers h
    cases hregisters with
    | start hl hfree =>
      cases hr
      exact ⟨rfl, rfl⟩
    | finish hl => cases hr
    | keep hcurrent hruns =>
      rw [hcurrent]
      exact hat r (hruns ▸ hr)
  others h _ hat _ hij hm := by
    intro r hr
    obtain ⟨rfl, hcurrent⟩ := hm r hr
    refine ⟨rfl, ?_⟩
    have hregisters := step_registers h
    cases hregisters with
    | start hl hfree =>
      rw [hfree] at hcurrent
      cases hcurrent
    | finish hl =>
      subst hl
      obtain ⟨-, hown⟩ := hat _ rfl
      exact absurd (Option.some.inj (hown.symm.trans hcurrent)) hij
    | keep hkept => rw [hkept, hcurrent]
  unused _ _ _ _ _ _ := trivial
  starts h _ _ _ _ _ hm := by
    intro r hr
    have hregisters := step_registers h
    cases hregisters with
    | start | finish => cases hm
    | keep _ _ hstarted =>
      rw [hstarted _ hm] at hr
      cases hr
  counts h _ hat _ r := by
    have hregisters := step_registers h
    cases hregisters with
    | start hl hfree =>
      subst hl
      simp [Local.runs, World.start, World.change, hfree, System.total]
    | finish hl =>
      subst hl
      obtain ⟨rfl, hcurrent⟩ := hat _ rfl
      simp [Local.runs, World.finish, World.change, hcurrent, System.total]
    | keep hcurrent hruns hstarted =>
      rw [hcurrent, hruns, total_started hstarted]
      rfl
  shift_inv _ _ _ := trivial
  shift_at e w i l _ hat := by
    cases e with
    | cancel | propagate => exact hat
  shift_unused _ _ _ _ := trivial
  shift_count e w r := by
    cases e with
    | cancel | propagate => rfl

theorem idle_sole (k : Concurrency) (stop : StopErrors E) : (sole k stop).Holds idle :=
  ⟨trivial, fun _ _ hl => absurd hl (by simp [idle]), fun _ _ => trivial, fun _ => rfl⟩

variable {c : Crew (World E) (Local E)}

/-- A run is registered as long as a call of `Run` is in charge of it. -/
theorem current_iff (h : (sole k stop).Holds c) (r : Nat) :
    c.world.current = some r ↔ ∃ phase, c.threads[r]? = some (.runner r phase) := by
  constructor
  · intro hcurrent
    have hcount : (sole k stop).count r c.world = 1 := if_pos hcurrent
    have hpos : 0 < System.total ((sole k stop).weight r) c.threads := by
      rw [← h.counted r, hcount]
      exact Nat.one_pos
    obtain ⟨i, l, hl, hweight⟩ := System.exists_of_total_pos _ hpos
    have hruns : l.runs = some r := by
      by_contra hne
      exact absurd hweight (by simp [sole, hne])
    obtain ⟨rfl, -⟩ := h.at_thread i l hl r hruns
    cases l with
    | runner r' phase =>
      cases hruns
      exact ⟨phase, hl⟩
    | _ => cases hruns
  · rintro ⟨phase, hthread⟩
    exact (h.at_thread r _ hthread r rfl).2

/-- Two calls of `Run` are not in charge of a run at the same time. -/
theorem runner_unique (h : (sole k stop).Holds c) {i j r r' : Nat} {phase phase' : RunPhase E}
    (hi : c.threads[i]? = some (.runner r phase)) (hj : c.threads[j]? = some (.runner r' phase')) :
    i = j := by
  obtain ⟨-, hcurrent⟩ := h.at_thread i _ hi r rfl
  obtain ⟨-, hcurrent'⟩ := h.at_thread j _ hj r' rfl
  exact Option.some.inj (hcurrent.symm.trans hcurrent')

end Fries.Queue.Run
