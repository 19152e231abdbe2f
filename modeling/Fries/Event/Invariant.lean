import Fries.Event.Outline

/-! The proof outline of a dispatch: what each step keeps. -/
namespace Fries.Event

variable {E : Type} {errorsIs : Error E → Error E → Bool} {entries k : Nat} {c : DispatchConfig}
  {w w' : World E} {stage stage' : Stage E} {phase : Phase E} {l m : Local E}
  {n : Progress (World E) (Local E)} {errs : List (Error E)} {r : Option (Option (Error E))}

/-- What is never taken back. -/
structure Grows (c : DispatchConfig) (w w' : World E) : Prop where
  calls : ∀ i ∈ w.calls, i ∈ w'.calls
  next : w.next ≤ w'.next
  canceled : w.canceled c = true → w'.canceled c = true

theorem ended_grows (h : Grows c w w') (hended : Ended entries c w) : Ended entries c w' := by
  rcases hended with hcanceled | hlt
  · exact .inl (h.canceled hcanceled)
  · exact .inr (Nat.lt_of_lt_of_le hlt h.next)

theorem canceled_report (err : Error E) (hcanceled : w.canceled c = true) :
    World.canceled c { w with runCause := some (w.runCause.getD err) } = true := by
  cases hmode : c.continueOnError <;> simp_all [World.canceled]

theorem canceled_shift (e : Change E) (hcanceled : w.canceled c = true) :
    (shift e w).canceled c = true := by
  cases hmode : c.continueOnError <;> cases e <;> simp_all [World.canceled, shift]

theorem grows_moves (h : Moves errorsIs entries c w l n) : Grows c w n.world := by
  cases h with
  | serialCall => exact ⟨fun _ => List.mem_append_left _, Nat.le_succ _, id⟩
  | claim => exact ⟨fun _ => id, Nat.le_succ _, id⟩
  | call => exact ⟨fun _ => List.mem_append_left _, Nat.le_refl _, id⟩
  | report => exact ⟨fun _ => id, Nat.le_refl _, canceled_report _⟩
  | _ => exact ⟨fun _ => id, Nat.le_refl _, id⟩

/-- The thread has claimed the index. -/
theorem held_of_token (hcount : ∀ k, weight k l ≤ count w k) (htoken : l.token = some k) :
    0 < (custody w).held k :=
  Custody.held_of_weight htoken (hcount (.custody (.holder k)))

/-- What the handlers have returned when another one has come to its end. -/
theorem outcome_end (hw : Inv entries c w) (hheld : 0 < (custody w).held k)
    (hends : w'.ends = w.ends ++ [(k, r)]) (i : Nat) :
    outcome w' i = if i = k then r.join else outcome w i := by
  rw [outcome, hends, Custody.lookup_finish hw.wf hheld]
  split <;> rfl

theorem outcome_of_held (hw : Inv entries c w) (hheld : 0 < (custody w).held k) :
    outcome w k = none := by
  rw [outcome, Custody.lookup_of_held hw.wf hheld]
  rfl

/-- An index comes to its end. -/
theorem inv_end {results : List (Option (Error E))} {first run : Option (Error E)}
    (hw : Inv entries c w) (hheld : 0 < (custody w).held k) (hcall : ∀ x, r = some x → k ∈ w.calls)
    (hdrop : r = none → entries ≤ k ∨ w.canceled c = true)
    (hresults : ¬ Serial entries c → c.continueOnError = true →
      results = (List.range entries).map fun i => if i = k then r.join else outcome w i)
    (hfirst : w.firstError.isSome = true → first.isSome = true)
    (herror : ¬ Serial entries c → c.continueOnError = false → ∀ e, r = some (some e) →
      first.isSome = true)
    (horigin : ∀ e, first = some e → w.firstError = some e ∨ r = some (some e))
    (hreason : run.isSome = true → w.runCause.isSome = true ∨ first.isSome = true)
    (hcanceled : w.runCause.isSome = true → run.isSome = true)
    (hcancels : first.isSome = true → w.firstError.isSome = true ∨ run.isSome = true) :
    Inv entries c { w with
      ends := w.ends ++ [(k, r)], results := results, firstError := first, runCause := run } := by
  have hlive : w.canceled c = true → World.canceled c { w with
      ends := w.ends ++ [(k, r)], results := results, firstError := first, runCause := run }
      = true := by
    unfold World.canceled
    split
    · exact id
    · exact hcanceled
  refine {
    wf := Custody.numbered_finish_wf hw.wf hheld r
    busy_le := ?_
    once := hw.once
    called := hw.called
    ended := ?_, dropped := ?_, results := ?_, first := ?_, origin := ?_, reason := ?_
    cancels := fun hsome => (hcancels hsome).elim (fun h => hcanceled (hw.cancels h)) id }
  · intro hmany
    have hle := hw.busy_le hmany
    rw [custody, Custody.numbered_busy] at hle ⊢
    show w.next - (w.ends ++ [(k, r)]).length ≤ w.running
    rw [List.length_append]
    omega
  · intro i x hx
    rcases List.mem_append.mp hx with hx | hx
    · exact hw.ended i x hx
    · obtain ⟨rfl, hr⟩ : i = k ∧ some x = r := by simpa using hx
      exact hcall x hr.symm
  · intro i hi
    rcases List.mem_append.mp hi with hi | hi
    · exact (hw.dropped i hi).imp id hlive
    · obtain ⟨rfl, hr⟩ : i = k ∧ none = r := by simpa using hi
      exact (hdrop hr.symm).imp id hlive
  · intro hmany hmode
    refine (hresults hmany hmode).trans (List.map_congr_left fun i _ => ?_)
    exact (outcome_end hw hheld rfl i).symm
  · intro hmany hmode i e he
    rcases List.mem_append.mp he with he | he
    · exact hfirst (hw.first hmany hmode i e he)
    · obtain ⟨-, hr⟩ : i = k ∧ some (some e) = r := by simpa using he
      exact herror hmany hmode e hr.symm
  · intro e he
    rcases horigin e he with hold | rfl
    · obtain ⟨i, hi⟩ := hw.origin e hold
      exact ⟨i, List.mem_append_left _ hi⟩
    · exact ⟨k, List.mem_concat_self⟩
  · intro hrun
    rcases hreason hrun with hold | hsome
    · exact (hw.reason hold).imp id hfirst
    · exact .inr hsome

/-- An index comes to its end without an error, or with one that does not count. -/
theorem inv_end_same (hw : Inv entries c w) (hheld : 0 < (custody w).held k)
    (hcall : ∀ x, r = some x → k ∈ w.calls) (hdrop : r = none → entries ≤ k ∨ w.canceled c = true)
    (hquiet : ¬ Serial entries c → r.join = none ∨
      c.continueOnError = false ∧ w.firstError.isSome = true) :
    Inv entries c { w with ends := w.ends ++ [(k, r)] } := by
  refine inv_end hw hheld hcall hdrop ?_ id ?_ (fun e he => .inl he) .inl id .inl
  · intro hmany hmode
    rw [hw.results hmany hmode]
    refine List.map_congr_left fun i _ => ?_
    split
    · rename_i heq
      rcases hquiet hmany with hnone | ⟨hstop, -⟩
      · rw [heq, hnone, outcome_of_held hw hheld]
      · rw [hmode] at hstop
        cases hstop
    · rfl
  · rintro hmany hmode e rfl
    rcases hquiet hmany with hnone | ⟨-, hsome⟩
    · cases hnone
    · exact hsome

/-- The errors of the first handlers when the next one has come to its end. -/
theorem errorsOf_end (hw : Inv entries c w) (hheld : 0 < (custody w).held k)
    {r : Option (Error E)} (hends : w'.ends = w.ends ++ [(k, some r)]) :
    errorsOf w' (k + 1) = errorsOf w k ++ r.toList := by
  have hsame : (List.range k).filterMap (outcome w') = (List.range k).filterMap (outcome w) := by
    refine List.filterMap_congr fun i hi => ?_
    have hne : i ≠ k := Nat.ne_of_lt (List.mem_range.mp hi)
    rw [outcome_end hw hheld hends, if_neg hne]
  have hlast : outcome w' k = r := by
    rw [outcome_end hw hheld hends, if_pos rfl]
    rfl
  rw [errorsOf, List.range_succ, List.filterMap_append, hsame, errorsOf]
  congr 1
  rw [List.filterMap_cons, hlast]
  cases r <;> rfl

theorem serially_end {result : Option (Error E)} (hw : Inv entries c w)
    (hs : Serially entries c w k errs) (hnext : w.next = k + 1)
    (hheld : 0 < (custody w).held k) (hgo : result = none ∨ c.continueOnError = true) :
    Serially entries c { w with ends := w.ends ++ [(k, some result)] } w.next
      (errs ++ result.toList) := by
  refine { hs with ends := ?_, kept := ?_, collected := ?_, well := ?_ }
  · show (w.ends ++ [(k, some result)]).map Prod.fst = List.range w.next
    rw [List.map_append, hs.ends, hnext, List.range_succ]
    rfl
  · exact List.forall_mem_append.mpr ⟨hs.kept, List.forall_mem_singleton.mpr rfl⟩
  · rw [hs.collected, hnext]
    exact (errorsOf_end hw hheld rfl).symm
  · intro hstop
    rcases hgo with rfl | hgo
    · rw [hs.well hstop]
      rfl
    · rw [hstop] at hgo
      cases hgo

theorem active_of_moves (h : Moves errorsIs entries c w (.worker phase) n) :
    (Local.worker phase).active = true := by
  cases h <;> rfl

/-- While the dispatcher does not have workers, no other thread steps. -/
theorem not_idle (h : Moves errorsIs entries c w l n)
    (hboth : ∀ k, weight k l + weight k (.dispatcher stage) ≤ count w k) : 0 < w.running := by
  cases l with
  | dispatcher stage' => exact absurd (hboth .dispatcher) (by simp [weight, count])
  | worker phase =>
    have hle : (Local.worker phase).active.toNat + 0 ≤ w.running := hboth .active
    rw [active_of_moves h] at hle
    exact hle

theorem running_moves (hat : At entries c l w) (h : Moves errorsIs entries c w l n)
    (hboth : ∀ k, weight k l + weight k (.dispatcher stage) ≤ count w k) :
    n.world.running = w.running ∨ Ended entries c w := by
  cases l with
  | dispatcher stage' => exact absurd (hboth .dispatcher) (by simp [weight, count])
  | worker phase =>
    cases h with
    | exit => exact .inr hat.2
    | _ => exact .inl rfl

theorem others_moves (hw : Inv entries c w) (hat : At entries c l w)
    (h : Moves errorsIs entries c w l n)
    (hboth : ∀ k, weight k l + weight k m ≤ count w k) (hm : At entries c m w) :
    At entries c m n.world := by
  have hgrows := grows_moves h
  cases m with
  | dispatcher stage =>
    have hrunning := running_moves hat h hboth
    have hpos := not_idle h hboth
    cases stage with
    | start =>
      have hidle : w.running = 0 := hm.2.2.1
      omega
    | serial | serialReturned =>
      have hidle : w.running = 0 := hm.idle
      omega
    | serialCalling =>
      have hidle : w.running = 0 := hm.1.idle
      omega
    | returned =>
      have hidle : w.running = 0 := hm.1
      omega
    | spawning left | waiting =>
      obtain ⟨hmany, hentries, hended⟩ := hm
      refine ⟨hmany, hentries, fun hlt => ended_grows hgrows ?_⟩
      rcases hrunning with hsame | hdone
      · exact hended (by omega)
      · exact hdone
  | worker phase =>
    refine ⟨hm.1, ?_⟩
    cases phase with
    | checking | claiming => trivial
    | calling => exact hgrows.calls _ hm.2
    | reporting => exact ⟨hgrows.calls _ hm.2.1, hm.2.2⟩
    | exiting | exited => exact ended_grows hgrows hm.2
    | claimed index =>
      cases h with
      | serialCall => exact absurd hat.serial hm.1
      | call =>
        rename_i other hlt
        refine List.not_mem_append hm.2 fun hmem => ?_
        obtain rfl := List.mem_singleton.mp hmem
        exact Custody.holder_unique hw.wf (hboth (.custody (.holder index)))
      | _ => exact hm.2

/-- A worker has claimed an index or is free. -/
theorem weight_worker (phase : Phase E) :
    weight .active (.worker phase) =
      weight .free (.worker phase) + Custody.weight .busy (Local.worker phase).token := by
  cases phase <;> rfl

theorem worker_moves (h : Moves errorsIs entries c w (.worker phase) n) :
    (∃ phase', n.state = .worker phase') ∧ n.started = none := by
  cases h <;> exact ⟨⟨_, rfl⟩, rfl⟩

section

variable (hw : Inv entries c w) (hat : At entries c l w) (hcount : ∀ k, weight k l ≤ count w k)
  (h : Moves errorsIs entries c w l n)

include hw hat hcount h

end

section

variable (hw : Inv entries c w) (hat : At entries c l w) (hcount : ∀ k, weight k l ≤ count w k)
  (h : Moves errorsIs entries c w l n)

include hw hat hcount h

theorem inv_moves : Inv entries c n.world := by
  cases h with
  | serialCall hlt =>
    refine { hw with
      wf := Custody.numbered_take_wf hw.wf, busy_le := fun hmany => absurd hat.serial hmany
      once := ?_, called := ?_
      ended := fun i r hr => List.mem_append_left _ (hw.ended i r hr) }
    · have hnew : w.next ∉ w.calls := fun hmem => Nat.lt_irrefl _ (hw.called _ hmem).2
      exact List.concat_eq_append ▸ hw.once.concat hnew
    · exact List.forall_mem_append.mpr
        ⟨fun i hi => ⟨(hw.called i hi).1, Nat.lt_succ_of_lt (hw.called i hi).2⟩,
          List.forall_mem_singleton.mpr ⟨hlt, Nat.lt_succ_self _⟩⟩
  | serialReturn | serialFail =>
    refine inv_end_same hw (held_of_token hcount rfl) ?_ nofun fun hmany => absurd hat.1.serial hmany
    rintro x -
    rw [hat.1.calls, hat.2]
    exact List.mem_range.mpr (Nat.lt_succ_self _)
  | spawn =>
    refine { hw with busy_le := fun hmany => ?_ }
    exact Nat.le_succ_of_le (hw.busy_le hmany)
  | claim =>
    have hfree : 1 ≤ w.running - (custody w).busy := hcount .free
    refine { hw with
      wf := Custody.numbered_take_wf hw.wf, busy_le := fun hmany => ?_
      called := fun i hi => ⟨(hw.called i hi).1, Nat.lt_succ_of_lt (hw.called i hi).2⟩ }
    rw [custody, Custody.numbered_busy] at hfree ⊢
    show w.next + 1 - w.ends.length ≤ w.running
    omega
  | drop hends =>
    exact inv_end_same hw (held_of_token hcount rfl) nofun (fun _ => hends) fun _ => .inl rfl
  | call hlt =>
    have hheld := held_of_token hcount rfl
    refine { hw with
      once := ?_, called := ?_
      ended := fun i r hr => List.mem_append_left _ (hw.ended i r hr) }
    · exact List.concat_eq_append ▸ hw.once.concat hat.2
    · exact List.forall_mem_append.mpr
        ⟨hw.called, List.forall_mem_singleton.mpr ⟨hlt, Custody.lt_of_held hw.wf hheld⟩⟩
  | pass =>
    exact inv_end_same hw (held_of_token hcount rfl) (fun _ _ => hat.2) nofun fun _ => .inl rfl
  | store hgo =>
    refine inv_end hw (held_of_token hcount rfl) (fun _ _ => hat.2) nofun ?_ id ?_
      (fun e he => .inl he) .inl id .inl
    · intro hmany hmode
      rw [hw.results hmany hmode, Custody.set_table]
      rfl
    · intro _ hstop
      rw [hgo] at hstop
      cases hstop
  | late hfirst =>
    exact inv_end_same hw (held_of_token hcount rfl) (fun _ _ => hat.2.1) nofun
      fun _ => .inr ⟨hat.2.2, hfirst⟩
  | report hfirst =>
    refine inv_end hw (held_of_token hcount rfl) (fun _ _ => hat.2.1) nofun ?_ (fun _ => rfl)
      (fun _ _ _ _ => rfl) ?_ (fun _ => .inr rfl) (fun _ => rfl) (fun _ => .inr rfl)
    · intro _ hmode
      rw [hat.2.2] at hmode
      cases hmode
    · intro e he
      cases he
      exact .inr rfl
  | exit =>
    have hfree : 1 ≤ w.running - (custody w).busy := hcount .free
    refine { hw with busy_le := fun hmany => ?_ }
    show (custody w).busy ≤ w.running - 1
    omega
  | _ => exact hw

theorem own_moves : At entries c n.state n.world := by
  cases h with
  | stay _ _ hat' => exact hat'
  | serialCall hlt =>
    have hs : Serially entries c w w.next _ := hat
    refine ⟨{ hs with calls := ?_, within := hlt }, rfl⟩
    show w.calls ++ [w.next] = List.range (w.next + 1)
    rw [hs.calls, List.range_succ]
  | serialReturn hgo =>
    obtain ⟨hs, hnext⟩ := hat
    exact serially_end hw hs hnext (held_of_token hcount rfl) hgo
  | serialFail hstop =>
    rename_i index errs err
    obtain ⟨hs, hnext⟩ := hat
    refine ⟨hs.idle, fun hcause => ?_⟩
    have hresult : joinErrors (appendContextCause errorsIs ((errs ++ [err]).map some) w.cause) =
        some err := by
      have hcause' : w.cause = none := hcause
      rw [hcause', appendContextCause_none, hs.well hstop]
      rfl
    have hmode : c.continueOnError ≠ true := by simp [hstop]
    refine ⟨fun h => absurd h hmode, fun h => absurd h hmode, fun _ e he => ?_, fun _ hnone => ?_⟩
    · obtain rfl : err = e := Option.some.inj (hresult.symm.trans he)
      exact ⟨index, List.mem_concat_self⟩
    · cases hresult.symm.trans hnone
  | spawn =>
    obtain ⟨hmany, hpos, hended⟩ := hat
    refine ⟨hmany, hpos, fun hlt => hended ?_⟩
    dsimp only at hlt
    omega
  | check | pass | store => exact ⟨hat.1, trivial⟩
  | leave hcanceled => exact ⟨hat.1, .inl hcanceled⟩
  | claim => exact ⟨hat.1, fun hmem => absurd (hw.called _ hmem).2 (Nat.lt_irrefl _)⟩
  | drop hends =>
    have hlt := Custody.lt_of_held hw.wf (held_of_token hcount rfl)
    refine ⟨hat.1, ?_⟩
    rcases hends with hge | hcanceled
    · exact .inr (Nat.lt_of_le_of_lt hge hlt)
    · exact .inl hcanceled
  | call => exact ⟨hat.1, List.mem_concat_self⟩
  | fail hstop => exact ⟨hat.1, hat.2, hstop⟩
  | late hfirst =>
    refine ⟨hat.1, .inl ?_⟩
    simp [World.canceled, hat.2.2, hw.cancels hfirst]
  | report =>
    refine ⟨hat.1, .inl ?_⟩
    simp [World.canceled, hat.2.2]
  | exit => exact hat

omit hat in
theorem counts_custody (role : Custody.Role Nat) :
    (custody n.world).count role + Custody.weight role l.token =
      (custody w).count role + Custody.weight role n.state.token := by
  cases h with
  | stay htoken htoken' => rw [htoken, htoken']
  | spawn | check | leave | call | fail | exit => rfl
  | serialCall | claim => exact Custody.numbered_count_take hw.wf role
  | _ => exact Custody.numbered_count_finish hw.wf (held_of_token hcount rfl) _ role

omit hw hat in
theorem counts_active :
    n.world.running + weight .active l = w.running + weight .active n.state +
      System.total (weight .active) n.started.toList := by
  cases h with
  | exit =>
    have hpos : 1 ≤ w.running := hcount .active
    show w.running - 1 + 1 = w.running + 0 + 0
    omega
  | _ => rfl

theorem counts_free :
    count n.world .free + weight .free l =
      count w .free + weight .free n.state + System.total (weight .free) n.started.toList := by
  cases l with
  | worker phase =>
    obtain ⟨⟨phase', hstate⟩, hstarted⟩ := worker_moves h
    have hactive := counts_active hcount h
    have hbusy := counts_custody hw hcount h .busy
    have hle := hw.busy_le hat.1
    have hle' := (inv_moves hw hat hcount h).busy_le hat.1
    rw [hstate, hstarted, weight_worker, weight_worker] at hactive
    rw [hstate, hstarted]
    rw [hstate] at hbusy
    simp only [count, System.total, Option.toList_none, Custody.count] at hactive hbusy ⊢
    omega
  | dispatcher stage =>
    cases h with
    | stay => rfl
    | serialCall =>
      have hidle : w.running = 0 := hat.idle
      show w.running - _ + 0 = w.running - _ + 0 + 0
      omega
    | serialReturn | serialFail =>
      have hidle : w.running = 0 := hat.1.idle
      show w.running - _ + 0 = w.running - _ + 0 + 0
      omega
    | spawn =>
      have hle := hw.busy_le hat.1
      show w.running + 1 - (custody w).busy + 0 = w.running - (custody w).busy + 0 + 1
      omega

theorem counts_moves (k : Counter) :
    count n.world k + weight k l =
      count w k + weight k n.state + System.total (weight k) n.started.toList := by
  cases k with
  | dispatcher => cases h <;> rfl
  | active => exact counts_active hcount h
  | free => exact counts_free hw hat hcount h
  | custody role =>
    have hcustody := counts_custody hw hcount h role
    have hstarted : System.total (weight (.custody role)) n.started.toList = 0 := by
      cases h with
      | spawn => exact Custody.weight_none role
      | _ => rfl
    rw [hstarted]
    exact hcustody

end

theorem inv_shift (e : Change E) (hw : Inv entries c w) : Inv entries c (shift e w) := by
  have hcanceled : w.canceled c = true → (shift e w).canceled c = true := canceled_shift e
  cases e with
  | cancel cause =>
    exact { hw with
      dropped := fun i hi => (hw.dropped i hi).imp id hcanceled
      reason := fun _ => .inl rfl }
  | propagate =>
    refine { hw with
      dropped := fun i hi => (hw.dropped i hi).imp id hcanceled
      reason := ?_, cancels := ?_ }
    · intro hrun
      cases hold : w.runCause with
      | some cause => exact hw.reason (by rw [hold]; rfl)
      | none => exact .inl (by simpa [shift, hold] using hrun)
    · intro hfirst
      have hsome := hw.cancels hfirst
      simp [shift, hsome]

theorem grows_shift (e : Change E) : Grows c w (shift e w) := by
  refine ⟨?_, ?_, canceled_shift e⟩
  · cases e <;> exact fun _ => id
  · cases e <;> exact Nat.le_refl _

theorem at_shift (e : Change E) (hat : At entries c l w) : At entries c l (shift e w) := by
  have hgrows : Grows c w (shift e w) := grows_shift e
  cases l with
  | worker phase =>
    refine ⟨hat.1, ?_⟩
    cases phase with
    | exiting | exited => exact ended_grows hgrows hat.2
    | _ => cases e <;> exact hat.2
  | dispatcher stage =>
    cases stage with
    | start => cases e <;> exact hat
    | serial | serialReturned =>
      have hs : Serially entries c w w.next _ := hat
      cases e <;> exact { hs with }
    | serialCalling =>
      obtain ⟨hs, hnext⟩ := hat
      cases e <;> exact ⟨{ hs with }, hnext⟩
    | spawning | waiting =>
      obtain ⟨hmany, hpos, hended⟩ := hat
      cases e <;> exact ⟨hmany, hpos, fun hlt => ended_grows hgrows (hended hlt)⟩
    | returned err =>
      obtain ⟨hidle, hpromise⟩ := hat
      cases e with
      | cancel => exact ⟨hidle, nofun⟩
      | propagate => exact ⟨hidle, fun hcause => { hpromise hcause with }⟩

theorem dispatcher_moves (h : Moves errorsIs entries c w l n) (hstate : n.state = .dispatcher stage) :
    ∃ stage', l = .dispatcher stage' := by
  cases h <;> first | exact ⟨_, rfl⟩ | cases hstate

/-- The proof outline of a dispatch; the dispatcher is the first thread. -/
def outline (errorsIs : Error E → Error E → Bool) (entries : Nat) (c : DispatchConfig) :
    (dispatch errorsIs entries c).Outline where
  Inv := Inv entries c
  At i l w := (∀ stage, l = .dispatcher stage → i = 0) ∧ At entries c l w
  Unused _ _ := True
  Counter := Counter
  weight := weight
  count k w := count w k
  enter call := nomatch call
  enter_weight _ call := nomatch call
  own h hw hat hcount := by
    have hmoves := step_moves hw hat.2 h
    refine ⟨inv_moves hw hat.2 hcount hmoves, ?_, own_moves hw hat.2 hcount hmoves⟩
    intro stage hstage
    obtain ⟨stage', hl⟩ := dispatcher_moves hmoves hstage
    exact hat.1 stage' hl
  others h hw hat hboth _ hm :=
    ⟨hm.1, others_moves hw hat.2 (step_moves hw hat.2 h) hboth hm.2⟩
  unused _ _ _ _ _ _ := trivial
  starts h hw hat _ _ _ hm := by
    have hmoves := step_moves hw hat.2 h
    cases hmoves with
    | spawn =>
      cases hm
      exact ⟨nofun, hat.2.1, trivial⟩
    | _ => cases hm
  counts h hw hat hcount k := counts_moves hw hat.2 hcount (step_moves hw hat.2 h) k
  shift_inv e _ hw := inv_shift e hw
  shift_at e _ _ _ _ hat := ⟨hat.1, at_shift e hat.2⟩
  shift_unused _ _ _ _ := trivial
  shift_count e w k := by cases e <;> rfl

theorem holds_initial (errorsIs : Error E → Error E → Bool) (entries : Nat) (c : DispatchConfig) :
    (outline errorsIs entries c).Holds (initial E false false entries) := by
  refine ⟨?_, ?_, fun _ _ => trivial, ?_⟩
  · refine {
      wf := Custody.make_wf
      busy_le := fun _ => Nat.zero_le _
      once := List.nodup_nil
      called := fun i hi => absurd hi List.not_mem_nil
      ended := fun i r hr => absurd hr List.not_mem_nil
      dropped := fun i hi => absurd hi List.not_mem_nil
      results := fun _ _ => ?_
      first := fun _ _ i e he => absurd he List.not_mem_nil
      origin := nofun
      reason := nofun
      cancels := nofun }
    show List.replicate entries none = (List.range entries).map fun _ => none
    rw [List.map_const', List.length_range]
  · intro i l hl
    have hl' : l = .dispatcher (.start false false) := by
      simpa [initial] using List.mem_of_getElem? hl
    have hi : i < 1 := (List.getElem?_eq_some_iff.mp hl).1
    rw [hl']
    exact ⟨fun _ _ => Nat.lt_one_iff.mp hi, rfl, rfl, rfl, rfl, rfl, rfl⟩
  · intro k
    cases k with
    | dispatcher | active | free => rfl
    | custody role => cases role <;> rfl

end Fries.Event
