import Fries.Queue.RunOutline

/-!
Every step of a worker keeps the outline of its runs.
-/
namespace Fries.Queue.Run

variable {E : Type} {c : Concurrency} {stop : StopErrors E} {s : RunState E} {w : World E}
  {l : Local E} {n : Progress (World E) (Local E)} {i j r : Nat} {err : E} {how : LoopEnd E}

section Changes

theorem works_stop (s : RunState E) : Works s s.stop :=
  ⟨grows_of_same id id (fun _ => rfl) id rfl rfl, rfl, rfl, rfl, fun h => ⟨rfl, h⟩⟩

theorem works_meet (s : RunState E) (err : E) : Works s (s.meet err) :=
  ⟨⟨id, id, id, id, fun _ h => List.mem_append_left _ h, [], (List.append_nil _).symm⟩, rfl, rfl,
    rfl, fun h => ⟨rfl, h⟩⟩

theorem works_send (hactive : 0 < s.active) (err : E) : Works s (s.send err) :=
  ⟨⟨id, id, id, id, fun _ h => h, [err], rfl⟩, rfl, rfl, rfl,
    fun h => absurd h (Nat.ne_of_gt hactive)⟩

theorem works_leave (hactive : 0 < s.active) (how : LoopEnd E) : Works s (s.leave how) := by
  refine ⟨grows_of_same id id id id rfl rfl, rfl, rfl, ?_, fun h => absurd h (Nat.ne_of_gt hactive)⟩
  simp only [RunState.leave, List.length_append, List.length_singleton]
  omega

theorem works_stopCall (s : RunState E) : Works s s.stopCall :=
  ⟨grows_of_same id id (fun _ => rfl) (fun _ => rfl) rfl rfl, rfl, rfl, rfl, fun h => ⟨rfl, h⟩⟩

theorem works_cancel (s : RunState E) : Works s s.cancel :=
  ⟨grows_of_same id (fun _ => rfl) id id rfl rfl, rfl, rfl, rfl, fun h => ⟨rfl, h⟩⟩

theorem works_propagate (s : RunState E) : Works s s.propagate :=
  ⟨grows_of_same id id (fun h => by simp [RunState.propagate, h]) id rfl rfl, rfl, rfl, rfl,
    fun h => ⟨rfl, h⟩⟩

section

variable (hs : Sound s)

include hs

theorem sound_stop (hshut : Shut s) : Sound s.stop :=
  sound_flags hs (works_stop s).toGrows (fun _ => .inl hshut) rfl rfl rfl rfl rfl rfl

theorem sound_stopCall : Sound s.stopCall :=
  sound_flags hs (works_stopCall s).toGrows (fun _ => .inl (.inr (.inl rfl))) rfl rfl rfl rfl rfl
    rfl

theorem sound_cancel : Sound s.cancel :=
  sound_flags hs (works_cancel s).toGrows (fun _ => .inl (.inl rfl)) rfl rfl rfl rfl rfl rfl

theorem sound_propagate : Sound s.propagate := by
  refine sound_flags hs (works_propagate s).toGrows ?_ rfl rfl rfl rfl rfl rfl
  intro h
  simp only [RunState.propagate, Bool.or_eq_true] at h
  rcases h with hpolled | hcanceled
  · exact hs.cause hpolled
  · exact .inl (.inl hcanceled)

theorem sound_start : Sound s.register :=
  ⟨hs.cause, fun h => absurd h (by simp [RunState.register]), hs.closed, hs.known, hs.justified⟩

theorem sound_close (hstarted : s.started = true) (hidle : s.active = 0) : Sound s.close :=
  ⟨fun _ => .inr rfl, fun h => absurd (hstarted.symm.trans h) (by simp), fun _ => hidle, hs.known,
    hs.justified⟩

theorem sound_enter (hstarted : s.started = true) (hgoing : s.finished = false) : Sound s.enter :=
  ⟨hs.cause, fun h => absurd (hstarted.symm.trans h) (by simp),
    fun h => absurd (hgoing.symm.trans h) (by simp), hs.known, hs.justified⟩

theorem sound_meet (err : E) : Sound (s.meet err) :=
  ⟨hs.cause, hs.fresh, hs.closed, fun e h => List.mem_append_left _ (hs.known e h), hs.justified⟩

theorem sound_send (hstarted : s.started = true) (hactive : 0 < s.active) (hmet : err ∈ s.met) :
    Sound (s.send err) := by
  have hgrows := (works_send hactive err).toGrows
  refine ⟨fun h => (hs.cause h).imp_left (shut_mono hgrows), ?_, hs.closed, ?_, ?_⟩
  · intro h
    cases hstarted.symm.trans h
  · exact List.forall_mem_append.mpr ⟨hs.known, List.forall_mem_singleton.mpr hmet⟩
  · intro how hhow
    exact justified_mono hgrows (hs.justified how hhow)

theorem sound_leave (hstarted : s.started = true) (hhow : Justified s how) :
    Sound (s.leave how) := by
  refine ⟨hs.cause, ?_, ?_, hs.known, ?_⟩
  · intro h
    cases hstarted.symm.trans h
  · intro h
    have hidle := hs.closed h
    simp only [RunState.leave]
    omega
  · exact List.forall_mem_append.mpr ⟨hs.justified, List.forall_mem_singleton.mpr hhow⟩

end

end Changes

section Effects

/-- A loop that is not gone is counted by its run. -/
theorem active_of_loop {phase : LoopPhase E}
    (hcount : ∀ k, weight k (.loop r phase) ≤ (w.runs k).active) (hphase : phase.active = true) :
    0 < (w.runs r).active := by
  have hr : 1 ≤ (w.runs r).active := by simpa [weight, hphase] using hcount r
  exact hr

theorem grows_step (h : Moves c stop i w l n) (r' : Nat) : Grows (w.runs r') (n.world.runs r') := by
  have hsame : ∀ r', Grows (w.runs r') (w.runs r') := fun r' => (works_refl (w.runs r')).toGrows
  have hchange : ∀ {r : Nat} {f : RunState E → RunState E}, Grows (w.runs r) (f (w.runs r)) →
      Grows (w.runs r') ((w.change r f).runs r') := by
    intro r f hf
    exact change_all (P := fun _ => Grows) hf (fun r' _ => hsame r') r'
  cases h with
  | start => exact hchange (f := .register) (grows_of_same (fun _ => rfl) id id id rfl rfl)
  | spawn | leave => exact hchange (grows_of_same id id id id rfl rfl)
  | halt | stopAll => exact hchange (works_stop _).toGrows
  | finish => exact hchange (f := .close) (grows_of_same id id (fun _ => rfl) id rfl rfl)
  | meet => exact hchange (works_meet _ _).toGrows
  | send => exact hchange ⟨id, id, id, id, fun _ h => h, [_], rfl⟩
  | stop => exact hchange (works_stopCall _).toGrows
  | _ => exact hsame r'

section

variable (h : Moves c stop i w l n) (hat : At c i l w)
  (hcount : ∀ k, weight k l ≤ (w.runs k).active) (hij : i ≠ j)

include h hat hcount hij

/-- A thread leaves the runs of other threads to them. -/
theorem works_step : Works (w.runs j) (n.world.runs j) := by
  have hsame : ∀ r', Works (w.runs r') (w.runs r') := fun r' => works_refl (w.runs r')
  have hchange : ∀ {r : Nat} {f : RunState E → RunState E}, Works (w.runs r) (f (w.runs r)) →
      Works (w.runs j) ((w.change r f).runs j) := by
    intro r f hf
    exact change_all (P := fun _ => Works) hf (fun r' _ => hsame r') j
  have hown : ∀ f : RunState E → RunState E, Works (w.runs j) ((w.change i f).runs j) := by
    intro f
    rw [change_other w f (Ne.symm hij)]
    exact hsame j
  cases h with
  | start => exact hown .register
  | spawn | halt =>
    obtain ⟨rfl, -⟩ := hat
    exact hown _
  | finish =>
    obtain ⟨rfl, -⟩ := hat
    exact hown .close
  | meet => exact hchange (works_meet _ _)
  | send => exact hchange (works_send (active_of_loop hcount rfl) _)
  | stopAll => exact hchange (works_stop _)
  | leave => exact hchange (works_leave (active_of_loop hcount rfl) _)
  | stop => exact hchange (works_stopCall _)
  | _ => exact hsame j

/-- No step but the start of its run registers a run. -/
theorem fresh_step (hfresh : (w.runs j).started = false) : (n.world.runs j).started = false :=
  (works_step h hat hcount hij).same_started.trans hfresh

end

end Effects

section Own

variable {phase : LoopPhase E}

theorem going_of_loop (hw : Inv w) (hcount : ∀ k, weight k (.loop r phase) ≤ (w.runs k).active)
    (hphase : phase.active = true) : (w.runs r).finished = false := by
  have hactive := active_of_loop hcount hphase
  cases hfinished : (w.runs r).finished with
  | false => rfl
  | true =>
    have hidle := (hw.sound r).closed hfinished
    omega

theorem inv_start (hw : Inv w) (i : Nat) : Inv (w.start i) := by
  have hchange : Inv (w.change i .register) :=
    inv_change hw (sound_start (hw.sound i)) fun _ => rfl
  refine ⟨hchange.sound, ?_⟩
  intro r hr
  cases hr
  exact congrArg RunState.started (change_self w i .register)

theorem inv_finish (hw : Inv w) (hstarted : (w.runs r).started = true)
    (hidle : (w.runs r).active = 0) : Inv (w.finish r) := by
  have hchange : Inv (w.change r .close) :=
    inv_change hw (sound_close (hw.sound r) hstarted hidle) id
  refine ⟨hchange.sound, ?_⟩
  intro r' hr'
  simp only [World.finish] at hr'
  split at hr'
  · cases hr'
  · exact hchange.current r' hr'

theorem inv_step (h : Moves c stop i w l n) (hw : Inv w) (hat : At c i l w)
    (hcount : ∀ k, weight k l ≤ (w.runs k).active) : Inv n.world := by
  cases h with
  | start => exact inv_start hw i
  | spawn =>
    obtain ⟨rfl, hstarted, hgoing, -⟩ := hat
    exact inv_change hw (sound_enter (hw.sound _) hstarted hgoing) id
  | halt =>
    obtain ⟨rfl, -, -, -, hfirst⟩ := hat
    refine inv_change hw (sound_stop (hw.sound _) (.inr (.inr ?_))) id
    rintro hnil
    rw [hnil] at hfirst
    cases hfirst
  | finish => exact inv_finish hw hat.2.1 hat.2.2.2.1
  | meet => exact inv_change hw (sound_meet (hw.sound _) _) id
  | send =>
    exact inv_change hw
      (sound_send (hw.sound _) hat.2.1 (active_of_loop hcount rfl) hat.2.2) id
  | stopAll =>
    exact inv_change hw (sound_stop (hw.sound _) (.inr (.inr (List.ne_nil_of_mem hat.2.2)))) id
  | leave => exact inv_change hw (sound_leave (hw.sound _) hat.2.1 hat.2.2) id
  | stop => exact inv_change hw (sound_stopCall (hw.sound _)) id
  | _ => exact hw

theorem ne_of_started (hfresh : (w.runs i).started = false) (hstarted : (w.runs r).started = true) :
    i ≠ r := by
  rintro rfl
  cases hfresh.symm.trans hstarted

variable {f : RunState E → RunState E}

/-- A loop that changes its run is where it says. -/
theorem at_loop (hfresh : (w.runs i).started = false) (hstarted : (w.runs r).started = true)
    (hf : (f (w.runs r)).started = (w.runs r).started) (hat : AtLoop (f (w.runs r)) phase) :
    At c i (.loop r phase) (w.change r f) := by
  refine ⟨?_, ?_, ?_⟩
  · rw [change_other w f (ne_of_started hfresh hstarted)]
    exact hfresh
  · rw [change_self]
    exact hf.trans hstarted
  · rw [change_self]
    exact hat

theorem at_runner {phase : RunPhase E} (hstarted : (f (w.runs i)).started = true)
    (hgoing : (f (w.runs i)).finished = false) (hat : AtRunner c (f (w.runs i)) phase) :
    At c i (.runner i phase) (w.change i f) := by
  simp only [At, change_self, true_and]
  exact ⟨hstarted, hgoing, hat⟩

theorem at_step (h : Moves c stop i w l n) (hw : Inv w) (hat : At c i l w)
    (hcount : ∀ k, weight k l ≤ (w.runs k).active) : At c i n.state n.world := by
  cases h with
  | refuse => exact ⟨rfl, .inl ⟨rfl, hat⟩⟩
  | start =>
    obtain ⟨hactive, hends, -, hgoing⟩ := (hw.sound i).fresh hat
    refine at_runner (f := .register) rfl hgoing ?_
    simp only [AtRunner, RunState.register, hactive, hends, List.length_nil]
    omega
  | spawn =>
    obtain ⟨rfl, hstarted, hgoing, hphase⟩ := hat
    refine at_runner hstarted hgoing ?_
    simp only [AtRunner, RunState.enter] at hphase ⊢
    omega
  | advance hphase =>
    obtain ⟨rfl, hstarted, hgoing, hbefore⟩ := hat
    exact ⟨rfl, hstarted, hgoing, hphase hbefore⟩
  | halt =>
    obtain ⟨rfl, hstarted, hgoing, hall, hfirst⟩ := hat
    exact at_runner hstarted hgoing ⟨hall, hfirst, rfl⟩
  | finish =>
    obtain ⟨rfl, hstarted, -, hidle, hall, rfl⟩ := hat
    refine ⟨rfl, .inr ?_⟩
    rename_i r
    have hself : (w.finish r).runs r = (w.runs r).close := change_self w r .close
    rw [hself]
    exact ⟨hstarted, rfl, hidle, hall, rfl⟩
  | go hphase _ hmove =>
    obtain ⟨hfresh, hstarted, hbefore⟩ := hat
    exact ⟨hfresh, hstarted, hmove (hw.sound _) (going_of_loop hw hcount hphase) hbefore⟩
  | meet hphase hphase' =>
    obtain ⟨hfresh, hstarted, -⟩ := hat
    refine at_loop hfresh hstarted rfl ?_
    rcases hphase' with rfl | rfl <;> exact List.mem_concat_self
  | send => exact at_loop hat.1 hat.2.1 rfl List.mem_concat_self
  | stopAll => exact at_loop hat.1 hat.2.1 rfl hat.2.2
  | leave => exact at_loop hat.1 hat.2.1 rfl trivial
  | look hmove => exact ⟨hat.1, hmove hw hat.2⟩
  | stop =>
    obtain ⟨hfresh, hstarted⟩ := hat
    refine ⟨?_, ?_⟩
    · rw [change_other w _ (ne_of_started hfresh hstarted)]
      exact hfresh
    · simp only [AtStopper, change_self]
      exact hstarted

end Own

section Counts

theorem active_change {f : RunState E → RunState E} (hf : (f (w.runs r)).active = (w.runs r).active)
    (k : Nat) : ((w.change r f).runs k).active = (w.runs k).active :=
  change_all (P := fun _ s s' => s'.active = s.active) hf (fun _ _ => rfl) k

theorem weight_loop {phase phase' : LoopPhase E} (hactive : phase.active = true)
    (hactive' : phase'.active = true) (k : Nat) :
    weight k (.loop r phase) = weight k (.loop r phase') := by
  simp only [weight, hactive, hactive']

theorem counts_step (h : Moves c stop i w l n) (hcount : ∀ k, weight k l ≤ (w.runs k).active)
    (k : Nat) :
    (n.world.runs k).active + weight k l =
      (w.runs k).active + weight k n.state + System.total (weight k) n.started.toList := by
  cases h with
  | refuse | advance | look => rfl
  | start => exact active_change (f := .register) rfl k
  | finish => exact active_change (f := .close) rfl k
  | halt | stop => exact active_change rfl k
  | go hactive hactive' =>
    rw [weight_loop hactive hactive' k]
    rfl
  | meet hactive hphase' =>
    rename_i phase' r phase err hleft
    have hactive' : phase'.active = true := by
      rcases hphase' with rfl | rfl <;> rfl
    rw [active_change rfl k, weight_loop hactive hactive' k]
    rfl
  | send | stopAll =>
    rw [active_change rfl k]
    rfl
  | spawn =>
    rename_i r left
    by_cases hk : k = r
    · subst hk
      rw [change_self]
      simp [RunState.enter, weight, System.total, LoopPhase.active]
    · rw [change_other w _ hk]
      simp [weight, System.total, Ne.symm hk]
  | leave =>
    rename_i r how
    have hactive := active_of_loop hcount rfl
    by_cases hk : k = r
    · subst hk
      rw [change_self]
      simp only [RunState.leave, weight, if_true, LoopPhase.active, Bool.toNat_true,
        Bool.toNat_false, Option.toList_none, System.total]
      omega
    · rw [change_other w _ hk]
      simp [weight, System.total, Ne.symm hk]

end Counts

theorem works_shift (e : Shift) (w : World E) (k : Nat) :
    Works (w.runs k) ((shift e w).runs k) := by
  have hsame : ∀ r', Works (w.runs r') (w.runs r') := fun r' => works_refl (w.runs r')
  cases e with
  | cancel r => exact change_all (P := fun _ => Works) (works_cancel _) (fun r' _ => hsame r') k
  | propagate r =>
    exact change_all (P := fun _ => Works) (works_propagate _) (fun r' _ => hsame r') k

theorem inv_shift (e : Shift) (hw : Inv w) : Inv (shift e w) := by
  cases e with
  | cancel r => exact inv_change hw (sound_cancel (hw.sound r)) id
  | propagate r => exact inv_change hw (sound_propagate (hw.sound r)) id

theorem active_shift (e : Shift) (w : World E) (k : Nat) :
    ((shift e w).runs k).active = (w.runs k).active := by
  cases e with
  | cancel r | propagate r => exact active_change rfl k

def outline (c : Concurrency) (stop : StopErrors E) : (worker c stop).Outline where
  Inv := Inv
  At := At c
  Unused i w := (w.runs i).started = false
  Counter := Nat
  weight := weight
  count k w := (w.runs k).active
  enter call _ hunused := by
    cases call with
    | run => exact hunused
    | stop => exact ⟨hunused, trivial⟩
  enter_weight _ call _ := by
    cases call with
    | run | stop => rfl
  own h hw hat hcount :=
    ⟨inv_step (step_moves h) hw hat hcount, at_step (step_moves h) hw hat hcount⟩
  others h hw hat hcount hij hj := by
    have hmoves := step_moves h
    refine at_mono (grows_step hmoves) (works_step hmoves hat ?_ hij) hj
    exact fun k => Nat.le_trans (Nat.le_add_right _ _) (hcount k)
  unused h _ hat hcount hij hj := fresh_step (step_moves h) hat hcount hij hj
  starts h hw hat hcount hij hj hstarted := by
    have hmoves := step_moves h
    have hfresh := fresh_step hmoves hat hcount hij hj
    cases hmoves with
    | spawn =>
      cases hstarted
      obtain ⟨rfl, hregistered, -⟩ := hat
      refine ⟨hfresh, ?_, trivial⟩
      rw [change_self]
      exact hregistered
    | _ => cases hstarted
  counts h _ _ hcount := counts_step (step_moves h) hcount
  shift_inv e _ hw := inv_shift e hw
  shift_at e w _ _ _ hat := at_mono (fun r => (works_shift e w r).toGrows) (works_shift e w _) hat
  shift_unused e w i hfresh := (works_shift e w i).same_started.trans hfresh
  shift_count e w k := active_shift e w k

theorem idle_holds (c : Concurrency) (stop : StopErrors E) : (outline c stop).Holds idle := by
  refine ⟨⟨?_, ?_⟩, ?_, fun _ _ => rfl, fun _ => rfl⟩
  · intro r
    refine ⟨?_, fun _ => ⟨rfl, rfl, rfl, rfl⟩, fun _ => rfl, ?_, ?_⟩
    · intro h
      cases h
    · intro err h
      cases h
    · intro how h
      cases h
  · intro r h
    cases h
  · intro i l h
    cases h

end Fries.Queue.Run
