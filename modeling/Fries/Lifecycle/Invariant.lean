import Fries.Lifecycle.Outline

/-!
Every step keeps the invariant of the runner and what the other calls rely on.
-/
namespace Fries.Lifecycle

variable {X E : Type} {contexts : Contexts X} {c : Config} {w w' : World X E} {call call' : Call X}
  {made made' : RunnerState} {phase phase' : Phase X E} {l : Local X E} {index provider : Nat}
  {started providers : List Nat} {errs : List (Err (Failure E))} {result : Result X E} {role : Role}

attribute [local simp] RunnerState.rank weight

theorem booted_append (hboots : w'.boots = w.boots ++ [(index, result)]) :
    booted w' = booted w ++ if result.failed then [] else [index] := by
  unfold booted
  rw [hboots, List.filter_append, List.map_append]
  cases hfailed : result.failed <;> simp [hfailed]

/-- The first providers were bootstrapped, and another one is called. -/
theorem shape_call (hw : Shape c w) (hs : Starting w index started)
    (hcalls : w.bootCalls.length = index) (hlt : index < c.providers.length) :
    Shape c { w with bootCalls := w.bootCalls ++ [index] } := by
  have hlength : (w.bootCalls ++ [index]).length = index + 1 := by simp [hcalls]
  refine { hw with called := ?_, called_le := ?_, failed := ?_, ended := ?_ }
  · show w.bootCalls ++ [index] = List.range (w.bootCalls ++ [index]).length
    rw [hlength, List.range_succ, ← hcalls, ← hw.called]
  · show (w.bootCalls ++ [index]).length ≤ _
    omega
  · intro p hp hfailed
    rw [hs.well p hp] at hfailed
    cases hfailed
  · intro hstop
    exact absurd hs.idle.1 hstop

/-- The provider that was called returns. -/
theorem shape_return (hw : Shape c w) (hs : Starting w index started)
    (hcalls : w.bootCalls.length = index + 1) (result : Result X E) :
    Shape c { w with boots := w.boots ++ [(index, result)] } := by
  have hnone : w.stopCalls = [] := hs.idle.1
  refine { hw with returned := ?_, failed := ?_, reversed := ?_, ended := ?_ }
  · show (w.boots ++ [(index, result)]).map Prod.fst = List.range (w.boots ++ [_]).length
    rw [List.map_append, hw.returned, List.length_append, hs.boots]
    exact List.range_succ.symm
  · intro p hp hfailed
    rcases List.mem_append.mp hp with hp | hp
    · rw [hs.well p hp] at hfailed
      cases hfailed
    · rw [List.mem_singleton.mp hp]
      exact hcalls
  · show w.stopCalls <+: _
    rw [hnone]
    exact List.nil_prefix
  · intro hstop
    exact absurd hnone hstop

theorem shape_stop (hw : Shape c w) (hs : Stopping c w (provider :: providers) errs) :
    Shape c { w with stopCalls := w.stopCalls ++ [provider] } := by
  refine { hw with reversed := ?_, ended := fun _ => hs.ended }
  show w.stopCalls ++ [provider] <+: (booted w).reverse
  refine ⟨providers, ?_⟩
  rw [hs.left, List.append_assoc]
  rfl

/-- While a call has the runner for itself, it may change the history only. -/
theorem inv_of_role (hw : Inv c w) (hstate : w.state = role.state) (hshape : Shape c w')
    (hstate' : w'.state = w.state) (hstart : w'.startDone = w.startDone)
    (hstop : w'.stopDone = w.stopDone) : Inv c w' := by
  have hrole : ∀ state, w'.state = state → role.state = state := by
    intro state h
    rw [← h, hstate', hstate]
  refine ⟨hshape, ?_, ?_, ?_, ?_, ?_, ?_, ?_⟩
  · intro h
    cases role <;> cases hrole _ h
  · intro h
    rw [hstart]
    exact hw.starting (hstate'.symm.trans h)
  · intro h
    cases role <;> cases hrole _ h
  · intro h
    rw [hstop]
    exact hw.stopping (hstate'.symm.trans h)
  · intro h
    cases role <;> cases hrole _ h
  · rw [hstate', hstart]
    exact hw.startDone
  · rw [hstate', hstop]
    exact hw.stopDone

theorem stopDone_none (hw : Inv c w) (hrank : w.state.rank < 3) : w.stopDone = none := by
  by_contra hsome
  have hle := (hw.stopDone hsome).1
  omega

/-- The runner does not go back, and keeps the error of its shutdown. -/
structure Later (w w' : World X E) : Prop where
  rank : w.state.rank ≤ w'.state.rank
  err : w.state = .stopped → w'.shutdownErr = w.shutdownErr
  made : w.stopDone ≠ none → w'.stopDone ≠ none

theorem stopped_later (h : Later w w') (hstopped : w.state = .stopped) : w'.state = .stopped := by
  have hrank := h.rank
  rw [hstopped] at hrank
  exact rank_eq_four.mp hrank

theorem made_later (h : Later w w') (hnot : w.state ≠ .new) : w'.state ≠ .new := by
  intro hnew
  have hrank := h.rank
  rw [hnew] at hrank
  exact hnot (rank_eq_zero.mp (Nat.le_zero.mp hrank))

theorem stops_later (h : Later w w') (hstops : Stops w call) : Stops w' call := by
  cases call with
  | bootstrap | shutdown => exact hstops
  | run => exact Nat.le_trans hstops h.rank

theorem promise_later {found : RunnerState} {err : Option (Err (Failure E))} (h : Later w w')
    (hp : Promise w made found err call) : Promise w' made found err call := by
  cases call with
  | bootstrap =>
    rcases hp with ⟨hfound, hstopped⟩ | halready
    · exact .inl ⟨hfound, fun herr => stopped_later h (hstopped herr)⟩
    · exact .inr halready
  | run =>
    rcases hp with ⟨hfound, hstopped⟩ | halready
    · exact .inl ⟨hfound, stopped_later h hstopped⟩
    · exact .inr halready
  | shutdown =>
    rcases hp with hnoop | ⟨hfound, hstopped, herr⟩
    · exact .inl hnoop
    · exact .inr ⟨hfound, stopped_later h hstopped, herr.trans (h.err hstopped).symm⟩

/-- What a call relies on that does not have the runner for itself. -/
theorem here_later (h : Later w w') (hrole : phase.role = none) (hat : AtPhase c call made w phase) :
    AtPhase c call made w' phase := by
  cases phase with
  | start => trivial
  | handling | observe => exact stops_later h hat
  | awaitStart => exact ⟨stops_later h hat.1, made_later h hat.2⟩
  | awaitStop => exact ⟨stops_later h hat.1, h.made hat.2⟩
  | returned => exact promise_later h hat
  | _ => cases hrole

theorem fits_later (h : Later w w') (hfits : Fits w call role) : Fits w' call role := by
  cases role with
  | starter => exact hfits
  | stopper => exact stops_later h hfits

theorem weight_of_none (k : Role) (hnone : phase.role = none) :
    weight k (.caller call made phase) = 0 := by simp [hnone]

section

variable (h : Moves c call made w phase phase' w')

include h

theorem own_here (hw : Inv c w) (hat : AtCaller c call made w phase) :
    AtPhase c call made w' phase' := by
  cases h with
  | stay _ _ hat' => exact hat'
  | start hnew =>
    obtain ⟨hcalls, hboots, hstops⟩ := hw.new hnew
    refine ⟨⟨?_, ?_, ?_, hstops⟩, ?_⟩
    · show w.boots.length = 0
      rw [hboots]
      rfl
    · show ∀ p ∈ w.boots, _
      simp [hboots]
    · show [] = booted w
      rw [booted, hboots]
      rfl
    · show w.bootCalls.length = 0
      rw [hcalls]
      rfl
  | call hlt =>
    obtain ⟨hs, hcalls⟩ := hat.here
    refine ⟨{ hs with }, ?_⟩
    show (w.bootCalls ++ [_]).length = _
    simp [hcalls]
  | all hge =>
    obtain ⟨hs, hcalls⟩ := hat.here
    have hle := hw.shape.called_le
    have hboots := hs.boots
    exact ⟨⟨by omega, .inl (by omega)⟩, hs.started, hs.idle⟩
  | succeed =>
    obtain ⟨hs, hcalls⟩ := hat.here
    refine ⟨⟨?_, ?_, ?_, hs.idle⟩, hcalls⟩
    · show (w.boots ++ [_]).length = _
      simp [hs.boots]
    · exact List.forall_mem_append.mpr ⟨hs.well, List.forall_mem_singleton.mpr rfl⟩
    · rw [booted_append rfl, ← hs.started]
      rfl
  | fail hfailed =>
    obtain ⟨hs, hcalls⟩ := hat.here
    refine ⟨⟨⟨?_, ?_⟩, ?_, ?_⟩, ?_⟩
    · show w.bootCalls.length = (w.boots ++ [_]).length
      simp [hs.boots, hcalls]
    · exact .inr ⟨_, List.mem_concat_self, hfailed⟩
    · rw [booted_append rfl, hfailed, if_pos rfl, List.append_nil, ← hs.started]
      show _ = w.stopCalls ++ _
      rw [hs.idle.1]
      rfl
    · show [] = w.stops.filterMap _
      rw [hs.idle.2]
      rfl
    · show w.stops.map Prod.fst = w.stopCalls
      rw [hs.idle.1, hs.idle.2]
      rfl
  | started _ hat' | rollback _ hat' => exact hat' _ rfl
  | take hstarted =>
    obtain ⟨hover, hbooted, hcalls, hstops⟩ := hw.started hstarted
    refine ⟨⟨hover, ?_, ?_⟩, ?_⟩
    · show (booted w).reverse = w.stopCalls ++ w.started.reverse
      rw [hcalls, hbooted]
      rfl
    · show [] = w.stops.filterMap _
      rw [hstops]
      rfl
    · show w.stops.map Prod.fst = w.stopCalls
      rw [hcalls, hstops]
      rfl
  | stop =>
    obtain ⟨hs, hstops⟩ := hat.here
    refine ⟨⟨hs.ended, ?_, hs.errs⟩, ?_⟩
    · show (booted w).reverse = w.stopCalls ++ [_] ++ _
      rw [hs.left, List.append_cons]
    · show w.stopCalls ++ [_] = w.stops.map Prod.fst ++ [_]
      rw [hstops]
  | stopped =>
    obtain ⟨hs, hstops⟩ := hat.here
    refine ⟨⟨hs.ended, hs.left, ?_⟩, ?_⟩
    · show _ = (w.stops ++ [_]).filterMap _
      rw [List.filterMap_append, hs.errs]
      congr 1
    · show (w.stops ++ [_]).map Prod.fst = w.stopCalls
      rw [List.map_append, hstops]
      rfl
  | drain =>
    obtain ⟨hs, hstops⟩ := hat.here
    have hleft : w.stopCalls = (booted w).reverse := by rw [hs.left, List.append_nil]
    exact ⟨⟨hs.ended, hleft, hstops.trans hleft⟩, by rw [stopError, hs.errs]⟩
  | finish _ hat' => exact hat' _ rfl rfl

/-- A call that does not have the runner for itself leaves it alone while another one has. -/
theorem idle_moves {role : Role} (hrole : phase.role = none) (hstate : w.state = role.state) :
    w' = w := by
  cases h with
  | stay => rfl
  | start hnew => cases role <;> cases hstate.symm.trans hnew
  | take hstarted => cases role <;> cases hstate.symm.trans hstarted
  | _ => cases hrole

variable (hcount : ∀ k, weight k (.caller call made phase) ≤ count w k)

include hcount

theorem inv_moves (hw : Inv c w) (hat : AtCaller c call made w phase) : Inv c w' := by
  cases h with
  | stay | all | drain => exact hw
  | start hnew =>
    have hnone : w.stopDone = none := stopDone_none hw (by simp [hnew])
    exact ⟨{ hw.shape with }, by simp, fun _ => rfl, by simp, by simp, by simp,
      fun h => absurd h (by simp), fun hsome => absurd hnone hsome⟩
  | call hlt =>
    obtain ⟨hs, hcalls⟩ := hat.here
    exact inv_of_role hw (state_of_role hcount rfl) (shape_call hw.shape hs hcalls hlt) rfl rfl rfl
  | succeed | fail =>
    obtain ⟨hs, hcalls⟩ := hat.here
    exact inv_of_role hw (state_of_role hcount rfl) (shape_return hw.shape hs hcalls _) rfl rfl rfl
  | stop =>
    obtain ⟨hs, hstops⟩ := hat.here
    exact inv_of_role hw (state_of_role hcount rfl) (shape_stop hw.shape hs) rfl rfl rfl
  | stopped => exact inv_of_role hw (state_of_role hcount rfl) { hw.shape with } rfl rfl rfl
  | started =>
    have hstate : w.state = .starting := state_of_role hcount rfl
    have hnone : w.stopDone = none := stopDone_none hw (by simp [hstate])
    exact ⟨{ hw.shape with }, by simp, by simp, fun _ => hat.here, by simp, by simp, fun _ => rfl,
      fun hsome => absurd hnone hsome⟩
  | take hstarted =>
    exact ⟨{ hw.shape with }, by simp, by simp, by simp, fun _ => rfl, by simp,
      fun _ => hw.startDone (by simp [hstarted]),
      fun _ => ⟨Nat.le_refl 3, by simp⟩⟩
  | rollback =>
    have hstate : w.state = .starting := state_of_role hcount rfl
    have hnone : w.stopDone = none := stopDone_none hw (by simp [hstate])
    exact ⟨{ hw.shape with }, by simp, by simp, by simp, by simp, fun _ => hat.here, fun _ => rfl,
      fun hsome => absurd hnone hsome⟩
  | finish =>
    have hstate : w.state = .stopping := state_of_role hcount rfl
    exact ⟨{ hw.shape with }, by simp, by simp, by simp, by simp, fun _ => hat.here,
      fun _ => hw.startDone (by simp [hstate]),
      fun _ => ⟨by simp, fun _ => rfl⟩⟩

theorem later_moves : Later w w' := by
  cases h with
  | start hnew => exact ⟨by simp [hnew], fun _ => rfl, id⟩
  | take hstarted => exact ⟨by simp [hstarted], fun _ => rfl, by simp⟩
  | started =>
    have hstate : w.state = .starting := state_of_role hcount rfl
    exact ⟨by simp [hstate], fun _ => rfl, id⟩
  | rollback =>
    have hstate : w.state = .starting := state_of_role hcount rfl
    exact ⟨by simp [hstate], fun h => absurd (hstate.symm.trans h) (by simp), id⟩
  | finish =>
    have hstate : w.state = .stopping := state_of_role hcount rfl
    exact ⟨by simp [hstate], fun h => absurd (hstate.symm.trans h) (by simp), by simp⟩
  | _ => exact ⟨Nat.le_refl _, fun _ => rfl, id⟩

theorem others_moves (hboth : ∀ k, weight k (.caller call made phase) + weight k l ≤ count w k)
    (hat : At c l w) : At c l w' := by
  have hlater := later_moves h hcount
  cases l with
  | panicked => exact hat
  | caller call' made' other =>
    refine ⟨?_, fun hmade => made_later hlater (hat.since hmade),
      fun role hrole => fits_later hlater (hat.fits role hrole)⟩
    cases hrole : other.role with
    | none => exact here_later hlater hrole hat.here
    | some role =>
      have hother : ∀ k, weight k (.caller call' made' other) ≤ count w k :=
        fun k => Nat.le_trans (Nat.le_add_left _ _) (hboth k)
      have hstate : w.state = role.state := state_of_role hother hrole
      have hnone : phase.role = none := by
        cases hmine : phase.role with
        | none => rfl
        | some mine =>
          have hmine' : w.state = mine.state := state_of_role hcount hmine
          have hsame : mine = role := by
            cases mine <;> cases role <;> first | rfl | cases hmine'.symm.trans hstate
          have htwo := hboth role
          simp [count, hrole, hmine, hsame, hstate] at htwo
      rw [idle_moves h hnone hstate]
      exact hat.here

theorem own_moves (hw : Inv c w) (hat : AtCaller c call made w phase) :
    AtCaller c call made w' phase' := by
  have hlater := later_moves h hcount
  refine ⟨own_here h hw hat, fun hmade => made_later hlater (hat.since hmade), ?_⟩
  intro role hrole'
  cases h with
  | stay _ hnone | started hnone | rollback hnone | finish hnone =>
    rw [hnone] at hrole'
    cases hrole'
  | start _ hcall =>
    cases hrole'
    exact hcall
  | take _ hstops =>
    cases hrole'
    exact stops_later hlater hstops
  | _ => exact fits_later hlater (hat.fits role hrole')

theorem counts_moves (k : Role) :
    count w' k + weight k (.caller call made phase) =
      count w k + weight k (.caller call made phase') := by
  cases h with
  | stay hrole hrole' => rw [weight_of_none k hrole, weight_of_none k hrole']
  | start hnew => cases k <;> simp [count, hnew, Phase.role, Role.state]
  | take hstarted =>
    cases k <;> simp [count, hstarted, Phase.role, Purpose.role, Role.state]
  | started hnone =>
    have hstate : w.state = .starting := state_of_role hcount rfl
    rw [weight_of_none k hnone]
    cases k <;> simp [count, hstate, Phase.role, Role.state]
  | rollback hnone =>
    have hstate : w.state = .starting := state_of_role hcount rfl
    rw [weight_of_none k hnone]
    cases k <;> simp [count, hstate, Phase.role, Purpose.role, Role.state]
  | finish hnone =>
    have hstate : w.state = .stopping := state_of_role hcount rfl
    rw [weight_of_none k hnone]
    cases k <;> simp [count, hstate, Phase.role, Purpose.role, Role.state]
  | _ => rfl

end

/-- The proof outline of the runner. -/
def outline (E : Type) (contexts : Contexts X) (c : Config) :
    (runner (E := E) contexts c).Outline where
  Inv := Inv c
  At _ := At c
  Unused _ _ := True
  Counter := Role
  weight := weight
  count k w := count w k
  enter _ _ _ := ⟨trivial, id, nofun⟩
  enter_weight _ _ _ := rfl
  own h hw hat hcount := by
    obtain ⟨call, made, phase, phase', w', rfl, rfl, hmoves⟩ := step_moves hw hat hcount h
    exact ⟨inv_moves hmoves hcount hw hat, own_moves hmoves hcount hw hat⟩
  others h hw hat hboth _ hm := by
    have hcount := fun k => Nat.le_trans (Nat.le_add_right _ _) (hboth k)
    obtain ⟨call, made, phase, phase', w', rfl, rfl, hmoves⟩ := step_moves hw hat hcount h
    exact others_moves hmoves hcount hboth hm
  unused _ _ _ _ _ _ := trivial
  starts h hw hat hcount _ _ hm := by
    obtain ⟨call, made, phase, phase', w', rfl, rfl, -⟩ := step_moves hw hat hcount h
    cases hm
  counts h hw hat hcount k := by
    obtain ⟨call, made, phase, phase', w', rfl, rfl, hmoves⟩ := step_moves hw hat hcount h
    exact counts_moves hmoves hcount k
  shift_inv e := nomatch e
  shift_at e := nomatch e
  shift_unused e := nomatch e
  shift_count e := nomatch e

theorem holds_initial (E : Type) (contexts : Contexts X) (c : Config) :
    (outline E contexts c).Holds (initial X E) := by
  refine ⟨?_, ?_, fun _ _ => trivial, ?_⟩
  · exact {
      shape := ⟨rfl, Nat.zero_le _, rfl, fun p hp => absurd hp List.not_mem_nil, List.nil_prefix,
        fun hstops => absurd rfl hstops⟩
      new := fun _ => ⟨rfl, rfl, rfl, rfl⟩
      starting := nofun
      started := nofun
      stopping := nofun
      stopped := nofun
      startDone := fun hrank => absurd hrank (by simp [initial])
      stopDone := fun hsome => absurd rfl hsome }
  · intro i l hl
    simp [initial] at hl
  · intro k
    cases k <;> rfl

end Fries.Lifecycle
