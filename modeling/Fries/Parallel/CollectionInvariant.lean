import Fries.Parallel.CollectionOutline

/-! The proof outline of a call over a list of values: what each step keeps. -/
namespace Fries.Parallel.Collection

variable {T R E : Type} {c : Config} {kind : Kind} {values : List T} {zero : R} {w w' : World T R E}
  {stage : Stage R E} {phase : Phase} {l m : Local R E} {n : Progress (World T R E) (Local R E)}
  {k : Nat} {r : Option (Result R E)}

@[simp] theorem fail_next (w : World T R E) (err : E) : (w.fail err).next = w.next := by
  unfold World.fail
  split <;> rfl

@[simp] theorem fail_active (w : World T R E) (err : E) : (w.fail err).active = w.active := by
  unfold World.fail
  split <;> rfl

@[simp] theorem fail_calls (w : World T R E) (err : E) : (w.fail err).calls = w.calls := by
  unfold World.fail
  split <;> rfl

theorem fail_err (w : World T R E) (err : E) : (w.fail err).err.isSome = true := by
  unfold World.fail
  split
  · assumption
  · rfl

theorem fail_groupCause (err : E) (h : w.groupCause.isSome = true) :
    (w.fail err).groupCause.isSome = true := by
  unfold World.fail
  split
  · exact h
  · rfl

/-- The first error is kept, and the context has been canceled with it. -/
theorem inv_fail (err : E) (hw : Inv kind values zero w) : Inv kind values zero (w.fail err) := by
  unfold World.fail
  split
  · exact hw
  · exact { hw with
      dropped := fun i hi => ⟨rfl, (hw.dropped i hi).2⟩
      failed := fun _ _ _ _ _ => rfl
      reason := fun _ => .inr rfl }

/-- What the calls have returned when another value has come to its end. -/
theorem outcome_end (hw : Inv kind values zero w) (hheld : 0 < (custody w).held k)
    (hends : w'.ends = w.ends ++ [(k, r)]) (i : Nat) :
    outcome w' i = if i = k then r else outcome w i := by
  rw [outcome, hends, Custody.lookup_finish hw.wf hheld]
  split <;> rfl

theorem outcome_of_held (hw : Inv kind values zero w) (hheld : 0 < (custody w).held k) :
    outcome w k = none := by
  rw [outcome, Custody.lookup_of_held hw.wf hheld]
  rfl

/-- A value comes to its end. -/
theorem inv_end {results : List (Result R E)} {completed : List Bool} (hw : Inv kind values zero w)
    (hheld : 0 < (custody w).held k) (hcall : ∀ x, r = some x → k ∈ w.calls.map Prod.fst)
    (hdrop : r = none → w.err.isSome = true ∧ k ∉ w.calls.map Prod.fst)
    (hfail : kind ≠ .mapResults → ∀ x, r = some x → x.err.isSome = true → w.err.isSome = true)
    (hresults : results = (List.range values.length).map fun i =>
      if i = k then stored kind zero r else stored kind zero (outcome w i))
    (hcompleted : kind = .mapResults → completed = (List.range values.length).map fun i =>
      if i = k then r.isSome else (outcome w i).isSome) :
    Inv kind values zero { w with
      ends := w.ends ++ [(k, r)], results := results, completed := completed } := by
  refine { hw with
    wf := Custody.numbered_finish_wf hw.wf hheld r
    busy_le := ?_, ended := ?_, dropped := ?_, failed := ?_, results := ?_, completed := ?_ }
  · have hle := hw.busy_le
    rw [custody, Custody.numbered_busy] at hle ⊢
    show w.next - (w.ends ++ [(k, r)]).length ≤ w.active
    rw [List.length_append]
    omega
  · intro i x hx
    rcases List.mem_append.mp hx with hx | hx
    · exact hw.ended i x hx
    · obtain ⟨rfl, hr⟩ : i = k ∧ some x = r := by simpa using hx
      exact hcall x hr.symm
  · intro i hi
    rcases List.mem_append.mp hi with hi | hi
    · exact hw.dropped i hi
    · obtain ⟨rfl, hr⟩ : i = k ∧ none = r := by simpa using hi
      exact hdrop hr.symm
  · intro hkind i x hx herr
    rcases List.mem_append.mp hx with hx | hx
    · exact hw.failed hkind i x hx herr
    · obtain ⟨-, hr⟩ : i = k ∧ some x = r := by simpa using hx
      exact hfail hkind x hr.symm herr
  · refine hresults.trans (List.map_congr_left fun i _ => ?_)
    have houtcome : outcome { w with ends := w.ends ++ [(k, r)] } i = _ :=
      outcome_end hw hheld rfl i
    exact (apply_ite (stored kind zero) _ _ _).symm.trans (congrArg (stored kind zero) houtcome.symm)
  · intro hkind
    refine (hcompleted hkind).trans (List.map_congr_left fun i _ => ?_)
    have houtcome : outcome { w with ends := w.ends ++ [(k, r)] } i = _ :=
      outcome_end hw hheld rfl i
    exact (apply_ite Option.isSome _ _ _).symm.trans (congrArg Option.isSome houtcome.symm)

/-- The results stay as they are where a value ends without one. -/
theorem results_kept (hw : Inv kind values zero w) (hheld : 0 < (custody w).held k)
    (hr : stored kind zero r = stored kind zero none) :
    w.results = (List.range values.length).map fun i =>
      if i = k then stored kind zero r else stored kind zero (outcome w i) := by
  refine hw.results.trans (List.map_congr_left fun i _ => ?_)
  split
  · rename_i heq
    rw [heq, hr, outcome_of_held hw hheld]
  · rfl

/-- A value is given up, or its call fails, and the error is recorded. -/
theorem inv_failed (err : E) (hw : Inv kind values zero w) (hheld : 0 < (custody w).held k)
    (hcall : ∀ x, r = some x → k ∈ w.calls.map Prod.fst)
    (hnot : r = none → k ∉ w.calls.map Prod.fst) (hr : stored kind zero r = stored kind zero none)
    (hdone : kind = .mapResults → r = none) :
    Inv kind values zero { w.fail err with ends := w.ends ++ [(k, r)] } := by
  have hw' := inv_fail err hw
  have hsame : (w.fail err).ends = w.ends := by
    unfold World.fail
    split <;> rfl
  have hheld' : 0 < (custody (w.fail err)).held k := by
    rw [custody, hsame, fail_next]
    exact hheld
  rw [← hsame]
  refine inv_end hw' hheld' ?_ (fun hnone => ⟨fail_err w err, ?_⟩) (fun _ _ _ _ => fail_err w err)
    (results_kept hw' hheld' hr) ?_
  · rw [fail_calls]
    exact hcall
  · rw [fail_calls]
    exact hnot hnone
  · intro hkind
    refine (hw'.completed hkind).trans (List.map_congr_left fun i _ => ?_)
    split
    · rename_i heq
      rw [heq, hdone hkind, outcome_of_held hw' hheld']
    · rfl

/-- The entry of a call that returned what counts as a result. -/
theorem stored_pass {result : Result R E} (hkind : kind ≠ .forEach)
    (hpass : kind ≠ .mapResults → result.err = none) : stored kind zero (some result) = result := by
  obtain ⟨value, err⟩ := result
  cases kind with
  | forEach => exact absurd rfl hkind
  | mapResults => rfl
  | map =>
    obtain rfl : err = none := hpass nofun
    rfl

theorem inv_moves (hw : Inv kind values zero w) (hat : At kind values l w)
    (hcount : ∀ k, weight k l ≤ count w k) (h : Moves c kind values w l n) :
    Inv kind values zero n.world := by
  cases h with
  | stay => exact hw
  | start =>
    refine { hw with reason := ?_ }
    exact fun hcause => .inl hcause
  | submit hlt =>
    refine { hw with
      wf := Custody.numbered_take_wf hw.wf, busy_le := ?_, within := hlt
      called := fun p hp => ⟨(hw.called p hp).1, Nat.lt_succ_of_lt (hw.called p hp).2⟩ }
    have hle := hw.busy_le
    have hlength := Custody.numbered_length hw.wf
    rw [custody, Custody.numbered_busy] at hle ⊢
    show w.next + 1 - w.ends.length ≤ w.active + 1
    omega
  | drop => exact inv_failed _ hw (held_of_token hcount rfl) nofun (fun _ => hat) rfl fun _ => rfl
  | call hvalue =>
    have hheld := held_of_token hcount rfl
    refine { hw with once := ?_, called := ?_, ended := ?_, dropped := ?_ }
    · rw [List.map_append]
      exact List.concat_eq_append ▸ hw.once.concat hat
    · exact List.forall_mem_append.mpr
        ⟨hw.called, List.forall_mem_singleton.mpr ⟨hvalue, Custody.lt_of_held hw.wf hheld⟩⟩
    · intro i r hr
      rw [List.map_append]
      exact List.mem_append_left _ (hw.ended i r hr)
    · -- the value that is called for has not come to its end
      intro i hi
      refine ⟨(hw.dropped i hi).1, fun hmem => ?_⟩
      rw [List.map_append] at hmem
      refine List.not_mem_append (hw.dropped i hi).2 (fun hnew => ?_) hmem
      obtain rfl := List.mem_singleton.mp hnew
      exact (Custody.of_held hw.wf hheld).2.1 (List.mem_map.mpr ⟨_, hi, rfl⟩)
  | fail hkind =>
    refine inv_failed _ hw (held_of_token hcount rfl) (fun _ _ => hat) nofun ?_
      fun hresults => absurd hresults hkind
    cases kind with
    | forEach | map => rfl
    | mapResults => exact absurd rfl hkind
  | pass hpass hresults hcompleted =>
    rename_i index result results completed
    have hheld := held_of_token hcount rfl
    refine inv_end hw hheld (fun _ _ => hat) nofun ?_ ?_ ?_
    · intro hkind x hx herr
      cases hx
      rw [hpass hkind] at herr
      cases herr
    · rcases hresults with ⟨rfl, rfl⟩ | ⟨hkind, rfl⟩
      · exact results_kept hw hheld rfl
      · rw [hw.results, Custody.set_table, stored_pass hkind hpass]
    · intro hkind
      rw [hcompleted hkind, hw.completed hkind, Custody.set_table]
      rfl
  | release =>
    have hfree : 1 ≤ w.active - (custody w).busy := hcount .free
    refine { hw with busy_le := ?_ }
    show (custody w).busy ≤ w.active - 1
    omega

theorem own_moves (h : Moves c kind values w l n) :
    At kind values n.state n.world := by
  cases h with
  | stay hat => exact hat
  | call => exact List.mem_map.mpr ⟨_, List.mem_concat_self, rfl⟩
  | _ => trivial

/-- What a function of the group leaves as it is for the caller. -/
structure Spares (w w' : World T R E) : Prop where
  next : w'.next = w.next
  cause : w'.cause = w.cause
  groupCause : w.groupCause.isSome = true → w'.groupCause.isSome = true

theorem fail_spares (err : E) (ends : List (Nat × Option (Result R E))) :
    Spares w { w.fail err with ends := ends } := by
  refine ⟨fail_next w err, ?_, fail_groupCause err⟩
  show (w.fail err).cause = w.cause
  unfold World.fail
  split <;> rfl

section

variable (h : Moves c kind values w (.task phase) n)

include h

theorem task_spares : Spares w n.world := by
  cases h with
  | drop | fail => exact fail_spares _ _
  | call | pass | release => exact ⟨rfl, rfl, id⟩

theorem active_of_moves : (Local.task phase : Local R E).active = true := by
  cases h <;> rfl

/-- While the group is idle only the caller steps. -/
theorem not_idle (hboth : ∀ k, weight k (.task phase : Local R E) + weight k m ≤ count w k) :
    0 < w.active := by
  have hle : (Local.task phase : Local R E).active.toNat + m.active.toNat ≤ w.active :=
    hboth .active
  rw [active_of_moves h] at hle
  exact Nat.lt_of_lt_of_le (Nat.lt_of_lt_of_le Nat.one_pos (Nat.le_add_right _ _)) hle

theorem main_others
    (hboth : ∀ k, weight k (.task phase : Local R E) + weight k (.main stage) ≤ count w k)
    (hm : AtStage kind values w stage) : AtStage kind values n.world stage := by
  have hspares := task_spares h
  have hpos := not_idle h hboth
  cases stage with
  | start | joined | returned =>
    have hidle : w.active = 0 := hm.1
    omega
  | scheduling => trivial
  | submitting =>
    show n.world.next < values.length
    rw [hspares.next]
    exact hm
  | waiting =>
    intro hlt
    rw [hspares.next] at hlt
    exact hspares.groupCause (hm hlt)

end

/-- The calls of the others stay, and no two functions are for the same value. -/
theorem task_others (hw : Inv kind values zero w) (h : Moves c kind values w l n)
    (hboth : ∀ k, weight k l + weight k (.task phase : Local R E) ≤ count w k)
    (hm : AtPhase w phase) :
    AtPhase n.world phase := by
  cases h with
  | drop | fail =>
    cases phase with
    | checking index | calling index =>
      simp only [AtPhase, fail_calls]
      exact hm
    | releasing | done => trivial
  | call =>
    cases phase with
    | checking index =>
      show index ∉ List.map Prod.fst (_ ++ _)
      rw [List.map_append]
      refine List.not_mem_append hm fun hmem => ?_
      obtain rfl := List.mem_singleton.mp hmem
      exact Custody.holder_unique hw.wf (hboth (.custody (.holder _)))
    | calling index =>
      show index ∈ List.map Prod.fst (_ ++ _)
      rw [List.map_append]
      exact List.mem_append_left _ hm
    | releasing | done => trivial
  | _ => cases phase <;> exact hm

theorem others_moves (hw : Inv kind values zero w) (h : Moves c kind values w l n)
    (hboth : ∀ k, weight k l + weight k m ≤ count w k) (hm : At kind values m w) :
    At kind values m n.world := by
  cases m with
  | panicked => exact hm
  | task phase => exact task_others hw h hboth hm
  | main stage =>
    cases l with
    | main stage' => exact absurd (hboth .main) (by simp [weight, count])
    | task phase => exact main_others h hboth hm
    | panicked => cases h

theorem counts_custody (hw : Inv kind values zero w) (hcount : ∀ k, weight k l ≤ count w k)
    (h : Moves c kind values w l n) (role : Custody.Role Nat) :
    (custody n.world).count role + weight (.custody role) l =
      (custody w).count role + weight (.custody role) n.state +
        System.total (weight (.custody role)) n.started.toList := by
  cases h with
  | submit =>
    -- the task that takes the number is a new thread
    have htake := Custody.numbered_count_take hw.wf role
    rw [Custody.weight_none] at htake
    show (Custody.numbered (w.next + 1) w.ends).count role + Custody.weight role none =
      (custody w).count role + Custody.weight role none + (Custody.weight role (some w.next) + 0)
    rw [Custody.weight_none]
    exact htake
  | drop | fail =>
    rw [custody, fail_next]
    exact Custody.numbered_count_finish hw.wf (held_of_token hcount rfl) _ role
  | pass => exact Custody.numbered_count_finish hw.wf (held_of_token hcount rfl) _ role
  | _ => rfl

theorem counts_active (hcount : ∀ k, weight k l ≤ count w k) (h : Moves c kind values w l n) :
    n.world.active + weight .active l =
      w.active + weight .active n.state + System.total (weight .active) n.started.toList := by
  cases h with
  | drop | fail =>
    rw [fail_active]
    rfl
  | release =>
    have hpos : 1 ≤ w.active := hcount .active
    show w.active - 1 + 1 = w.active + 0 + 0
    omega
  | _ => rfl

/-- A function of the group is for a value or free. -/
theorem weight_active (l : Local R E) :
    weight .active l = weight .free l + weight (.custody .busy) l := by
  cases l with
  | main | panicked => rfl
  | task phase => cases phase <;> rfl

theorem total_active (ls : List (Local R E)) :
    System.total (weight .active) ls =
      System.total (weight .free) ls + System.total (weight (.custody .busy)) ls := by
  induction ls with
  | nil => rfl
  | cons l rest ih =>
    simp only [System.total, ih, weight_active l]
    omega

theorem counts_moves (hw : Inv kind values zero w) (hat : At kind values l w)
    (hcount : ∀ k, weight k l ≤ count w k) (h : Moves c kind values w l n) (k : Counter) :
    count n.world k + weight k l =
      count w k + weight k n.state + System.total (weight k) n.started.toList := by
  cases k with
  | main => cases h <;> rfl
  | active => exact counts_active hcount h
  | custody role => exact counts_custody hw hcount h role
  | free =>
    have hactive := counts_active hcount h
    have hbusy := counts_custody hw hcount h .busy
    have hle := hw.busy_le
    have hle' := (inv_moves hw hat hcount h).busy_le
    rw [weight_active, weight_active, total_active] at hactive
    simp only [count, Custody.count] at hbusy ⊢
    omega

theorem inv_shift (e : Change E) (hw : Inv kind values zero w) :
    Inv kind values zero (shift e w) := by
  cases e with
  | cancel cause => exact { hw with reason := fun _ => .inl rfl }
  | propagate =>
    refine { hw with reason := ?_ }
    intro hgroup
    cases hold : w.groupCause with
    | some cause => exact hw.reason (by rw [hold]; rfl)
    | none => exact .inl (by simpa [shift, hold] using hgroup)

theorem at_shift (e : Change E) (hat : At kind values l w) : At kind values l (shift e w) := by
  cases l with
  | panicked => exact hat
  | task phase => cases phase <;> cases e <;> exact hat
  | main stage =>
    cases stage with
    | start | scheduling | submitting => cases e <;> exact hat
    | returned => cases e <;> cases kind <;> exact hat
    | waiting =>
      cases e with
      | cancel cause => exact hat
      | propagate => exact fun hlt => by simp [shift, hat hlt]
    | joined =>
      cases e with
      | cancel cause => exact ⟨hat.1, hat.2.1, fun _ => rfl⟩
      | propagate => exact hat

theorem main_moves (h : Moves c kind values w l n) (hstate : n.state = .main stage) :
    ∃ stage', l = .main stage' := by
  cases h <;> first | exact ⟨_, rfl⟩ | cases hstate

/-- The proof outline of a call; the caller is the first thread. -/
def outline (c : Config) (kind : Kind) (values : List T) (zero : R) :
    (collection c kind values : System (World T R E) _ _ _ _).Outline where
  Inv := Inv kind values zero
  At i l w := (∀ stage, l = .main stage → i = 0) ∧ At kind values l w
  Unused _ _ := True
  Counter := Counter
  weight := weight
  count k w := count w k
  enter call := call.elim
  enter_weight _ call := call.elim
  own h hw hat hcount := by
    have hmoves := step_moves hw hat.2 hcount h
    refine ⟨inv_moves hw hat.2 hcount hmoves, ?_, own_moves hmoves⟩
    intro stage hstage
    obtain ⟨stage', hl⟩ := main_moves hmoves hstage
    exact hat.1 stage' hl
  others h hw hat hboth _ hm := by
    have hcount := fun k => Nat.le_trans (Nat.le_add_right _ _) (hboth k)
    exact ⟨hm.1, others_moves hw (step_moves hw hat.2 hcount h) hboth hm.2⟩
  unused _ _ _ _ _ _ := trivial
  starts h hw hat hcount _ _ hm := by
    have hmoves := step_moves hw hat.2 hcount h
    cases hmoves with
    | submit =>
      cases hm
      refine ⟨by simp, fun hmem => ?_⟩
      obtain ⟨p, hp, heq⟩ := List.mem_map.mp hmem
      have hlt := (hw.called p hp).2
      omega
    | _ => cases hm
  counts h hw hat hcount k := counts_moves hw hat.2 hcount (step_moves hw hat.2 hcount h) k
  shift_inv e _ hw := inv_shift e hw
  shift_at e _ _ _ _ hat := ⟨hat.1, at_shift e hat.2⟩
  shift_unused _ _ _ _ := trivial
  shift_count e w k := by cases e <;> rfl

theorem holds_initial (E : Type) (c : Config) (kind : Kind) (values : List T) (zero : R) :
    (outline c kind values zero).Holds (initial values E zero) := by
  refine ⟨?_, ?_, fun _ _ => trivial, ?_⟩
  · refine {
      wf := Custody.make_wf
      busy_le := Nat.zero_le _
      within := Nat.zero_le _
      once := List.nodup_nil
      called := fun p hp => absurd hp List.not_mem_nil
      ended := fun i r hr => absurd hr List.not_mem_nil
      dropped := fun i hi => absurd hi List.not_mem_nil
      failed := fun _ i r hr => absurd hr List.not_mem_nil
      reason := nofun
      results := ?_
      completed := fun _ => ?_ }
    · show List.replicate values.length ⟨zero, none⟩ =
        (List.range values.length).map fun _ => stored kind zero none
      rw [List.map_const', List.length_range]
      cases kind <;> rfl
    · show List.replicate values.length false = (List.range values.length).map fun _ => false
      rw [List.map_const', List.length_range]
  · intro i l hl
    have hl' : l = .main .start := by simpa [initial] using List.mem_of_getElem? hl
    have hi : i < 1 := (List.getElem?_eq_some_iff.mp hl).1
    rw [hl']
    exact ⟨fun _ _ => Nat.lt_one_iff.mp hi, rfl, rfl, rfl⟩
  · intro k
    cases k with
    | main | active | free => rfl
    | custody role => cases role <;> rfl

theorem holds_run (c : Config) (kind : Kind) (values : List T) (zero : R)
    (actions : List (Action (Label R E) (Change E) Empty)) :
    (outline c kind values zero).Holds
      ((collection c kind values).run (initial values E zero) actions) :=
  System.Outline.holds_run (holds_initial E c kind values zero) actions

end Fries.Parallel.Collection
