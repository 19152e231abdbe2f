import Fries.Queue.Run

/-! What holds of the runs of a worker between any two steps, and why they end. -/
namespace Fries.Queue.Run

variable {E : Type}

/-- A run is being shut down: from outside, or for an error. -/
def Shut (s : RunState E) : Prop := s.canceled = true ∨ s.stopCalled = true ∨ s.sent ≠ []

/-- Why a loop may have ended the way it did. -/
def Justified (s : RunState E) : LoopEnd E → Prop
  | .stopped => Shut s
  | .excused _ down => down = true → Shut s
  | .failed err => err ∈ s.sent

structure Sound (s : RunState E) : Prop where
  cause : s.polled = true → Shut s ∨ s.finished = true
  fresh : s.started = false → s.active = 0 ∧ s.ends = [] ∧ s.sent = [] ∧ s.finished = false
  closed : s.finished = true → s.active = 0
  known : ∀ err ∈ s.sent, err ∈ s.met
  justified : ∀ how ∈ s.ends, Justified s how

structure Inv (w : World E) : Prop where
  sound : ∀ r, Sound (w.runs r)
  current : ∀ r, w.current = some r → (w.runs r).started = true

def AtRunner (c : Concurrency) (s : RunState E) : RunPhase E → Prop
  | .spawning left => s.active + s.ends.length + left = c.1
  | .selecting => s.active + s.ends.length = c.1
  | .draining => s.active = 0 ∧ s.ends.length = c.1
  | .halting err => s.active + s.ends.length = c.1 ∧ s.sent.head? = some err
  | .joining err => s.active + s.ends.length = c.1 ∧ s.sent.head? = some err ∧ s.polled = true
  | .finishing result => s.active = 0 ∧ s.ends.length = c.1 ∧ s.sent.head? = result

/-- What a run that is over returned: all its loops have ended, and the result is the first error
they sent. -/
structure Done (c : Concurrency) (s : RunState E) (result : Option (RunError E)) : Prop where
  started : s.started = true
  polled : s.polled = true
  idle : s.active = 0
  all : s.ends.length = c.1
  first : result = s.sent.head?.map .queue

def AtLoop (s : RunState E) : LoopPhase E → Prop
  | .classifying err | .judging err | .sending err => err ∈ s.met
  | .halting err => err ∈ s.sent
  | .leaving how => Justified s how
  | .creating | .polling | .receiving | .processing | .gone => True

def AtStopper (w : World E) : StopPhase → Prop
  | .halting r | .awaiting r => (w.runs r).started = true
  | .reading | .returned _ => True

/-- Only the thread of a call of `Run` can have a run of its own number. -/
def At (c : Concurrency) (i : Nat) (l : Local E) (w : World E) : Prop :=
  match l with
  | .calling => (w.runs i).started = false
  | .runner r phase => r = i ∧ (w.runs r).started = true ∧ (w.runs r).finished = false ∧
    AtRunner c (w.runs r) phase
  | .returned r result => r = i ∧ (result = some (.worker errAlreadyRunning) ∧
    (w.runs r).started = false ∨ Done c (w.runs r) result)
  | .loop r phase => (w.runs i).started = false ∧ (w.runs r).started = true ∧
    AtLoop (w.runs r) phase
  | .stopper phase => (w.runs i).started = false ∧ AtStopper w phase

def LoopPhase.active : LoopPhase E → Bool
  | .gone => false
  | _ => true

/-- Loops are counted by their run. -/
def weight (r : Nat) : Local E → Nat
  | .loop r' phase => if r' = r then phase.active.toNat else 0
  | _ => 0

/-- The steps a call of `Run` has left at most, those of loops it has yet to start included. -/
def RunPhase.left : RunPhase E → Nat
  | .spawning k => 6 * k + 5
  | .selecting => 4
  | .halting _ => 3
  | .draining | .joining _ => 2
  | .finishing _ => 1

/-- The steps a loop has left at most once polling is over. -/
def LoopPhase.left : LoopPhase E → Nat
  | .receiving => 6
  | .creating | .processing => 5
  | .classifying _ | .judging _ => 4
  | .sending _ => 3
  | .polling | .halting _ => 2
  | .leaving _ => 1
  | .gone => 0

attribute [local simp] LoopPhase.left RunPhase.left

/-- What a step does. -/
inductive Moves (c : Concurrency) (stop : StopErrors E) (i : Nat) (w : World E) :
    Local E → Progress (World E) (Local E) → Prop
  | refuse : Moves c stop i w .calling ⟨.returned i (some (.worker errAlreadyRunning)), w, none⟩
  | start : Moves c stop i w .calling ⟨.runner i (.spawning c.1), w.start i, none⟩
  | spawn :
    Moves c stop i w (.runner r (.spawning (k + 1)))
      ⟨.runner r (.spawning k), w.change r .enter, some (.loop r .creating)⟩
  | advance (hat : AtRunner c (w.runs r) phase → AtRunner c (w.runs r) phase')
      (hleft : phase'.left < phase.left) :
    Moves c stop i w (.runner r phase) ⟨.runner r phase', w, none⟩
  | halt :
    Moves c stop i w (.runner r (.halting err))
      ⟨.runner r (.joining err), w.change r .stop, none⟩
  | finish :
    Moves c stop i w (.runner r (.finishing result))
      ⟨.returned r (result.map .queue), w.finish r, none⟩
  | go (hactive : phase.active = true) (hactive' : phase'.active = true)
      (hat : Sound (w.runs r) → (w.runs r).finished = false → AtLoop (w.runs r) phase →
        AtLoop (w.runs r) phase')
      (hleft : (w.runs r).polled = true → phase'.left < phase.left)
      (hforeign : ∀ err, phase' = .leaving (.excused err false) →
        phase = .classifying err ∧ stop.isStop err = true ∧ (w.runs r).polled = false) :
    Moves c stop i w (.loop r phase) ⟨.loop r phase', w, none⟩
  | meet (hactive : phase.active = true)
      (hphase' : phase' = .classifying err ∨ phase' = .judging err)
      (hleft : phase'.left < phase.left) :
    Moves c stop i w (.loop r phase) ⟨.loop r phase', w.change r (.meet err), none⟩
  | send :
    Moves c stop i w (.loop r (.sending err))
      ⟨.loop r (.halting err), w.change r (.send err), none⟩
  | stopAll :
    Moves c stop i w (.loop r (.halting err))
      ⟨.loop r (.leaving (.failed err)), w.change r .stop, none⟩
  | leave : Moves c stop i w (.loop r (.leaving how)) ⟨.loop r .gone, w.change r (.leave how), none⟩
  | look (hat : Inv w → AtStopper w phase → AtStopper w phase') :
    Moves c stop i w (.stopper phase) ⟨.stopper phase', w, none⟩
  | stop :
    Moves c stop i w (.stopper (.halting r))
      ⟨.stopper (.awaiting r), w.change r .stopCall, none⟩

variable {c : Concurrency} {stop : StopErrors E} {s s' : RunState E} {w w' : World E}
  {l : Local E} {n : Progress (World E) (Local E)} {i j r : Nat} {err : E} {how : LoopEnd E}
  {label : Label E} {phase : RunPhase E} {f : RunState E → RunState E}

theorem down_shut (hs : Sound s) (hgoing : s.finished = false) (hdown : s.down = true) :
    Shut s := by
  simp only [RunState.down, Bool.or_eq_true] at hdown
  rcases hdown with hpolled | hcanceled
  · rcases hs.cause hpolled with hshut | hfinished
    · exact hshut
    · rw [hgoing] at hfinished
      cases hfinished
  · exact .inl hcanceled

theorem runner_moves (h : stepRun r label w phase = some n) :
    Moves c stop i w (.runner r phase) n := by
  cases phase with
  | spawning left =>
    cases left with
    | zero =>
      cases h
      exact .advance id (by simp)
    | succ left =>
      cases h
      exact .spawn
  | selecting =>
    simp only [stepRun] at h
    split at h
    · split at h <;> cases h
      rename_i hidle
      refine .advance ?_ (by simp)
      intro hat
      simp only [AtRunner] at hat ⊢
      omega
    · rw [Option.map_eq_some_iff] at h
      obtain ⟨err, herr, rfl⟩ := h
      exact .advance (fun hat => ⟨hat, herr⟩) (by simp)
    · cases h
  | draining =>
    cases h
    exact .advance (fun hat => ⟨hat.1, hat.2, rfl⟩) (by simp)
  | halting err =>
    cases h
    exact .halt
  | joining err =>
    simp only [stepRun] at h
    split at h <;> cases h
    rename_i hidle
    refine .advance ?_ (by simp)
    rintro ⟨hall, hfirst, -⟩
    exact ⟨hidle, by omega, hfirst⟩
  | finishing result =>
    cases h
    exact .finish

theorem loop_moves {phase : LoopPhase E} (h : stepLoop stop r label w phase = some n) :
    Moves c stop i w (.loop r phase) n := by
  cases phase with
  | creating =>
    simp only [stepLoop] at h
    split at h <;> cases h
    · exact .go rfl rfl (fun _ _ _ => trivial) (by simp) (by simp)
    · exact .meet rfl (.inl rfl) (by simp)
  | classifying err =>
    simp only [stepLoop] at h
    split at h <;> cases h
    · rename_i hnormal
      refine .go rfl rfl (fun hs hgoing _ => down_shut hs hgoing) (by simp) ?_
      intro err' herr'
      simp only [LoopPhase.leaving.injEq, LoopEnd.excused.injEq, RunState.down,
        Bool.or_eq_false_iff] at herr'
      obtain ⟨rfl, hpolled, -⟩ := herr'
      refine ⟨rfl, ?_, hpolled⟩
      simpa [StopErrors.isNormalStopError, hpolled] using hnormal
    · exact .go rfl rfl (fun _ _ hat => hat) (by simp) (by simp)
  | polling =>
    simp only [stepLoop] at h
    split at h <;> cases h
    · rename_i hpolled
      refine .go rfl rfl ?_ (by simp) (by simp)
      intro hs hgoing _
      exact down_shut hs hgoing (by simp [RunState.down, hpolled])
    · rename_i hpolled
      exact .go rfl rfl (fun _ _ _ => trivial) (fun hp => absurd hp hpolled) (by simp)
  | receiving =>
    simp only [stepLoop] at h
    split at h <;> cases h
    · exact .meet rfl (.inl rfl) (by simp)
    · exact .go rfl rfl (fun _ _ _ => trivial) (by simp) (by simp)
    · exact .go rfl rfl (fun _ _ _ => trivial) (by simp) (by simp)
  | processing =>
    simp only [stepLoop] at h
    split at h <;> cases h
    · exact .go rfl rfl (fun _ _ _ => trivial) (by simp) (by simp)
    · exact .meet rfl (.inr rfl) (by simp)
  | judging err =>
    simp only [stepLoop] at h
    split at h <;> cases h
    · rename_i hcanceled
      refine .go rfl rfl (fun hs hgoing _ => down_shut hs hgoing) (by simp) ?_
      -- here the context of the run is canceled
      intro err' herr'
      simp only [Bool.and_eq_true] at hcanceled
      simp [RunState.down, hcanceled.1] at herr'
    · exact .go rfl rfl (fun _ _ hat => hat) (by simp) (by simp)
  | sending err =>
    cases h
    exact .send
  | halting err =>
    cases h
    exact .stopAll
  | leaving how =>
    cases h
    exact .leave
  | gone => cases h

theorem stopper_moves {phase : StopPhase} (h : stepStop label w phase = some n) :
    Moves c stop i w (.stopper phase) n := by
  cases phase with
  | reading =>
    simp only [stepStop] at h
    split at h <;> cases h
    · exact .look fun _ _ => trivial
    · rename_i r hr
      exact .look fun hw _ => hw.current r hr
  | halting r =>
    cases h
    exact .stop
  | awaiting r =>
    simp only [stepStop] at h
    split at h
    · split at h <;> cases h
      exact .look fun _ _ => trivial
    · cases h
      exact .look fun _ _ => trivial
    · cases h
  | returned canceled => cases h

theorem step_moves (h : (worker c stop).step i label l w = some n) : Moves c stop i w l n := by
  cases l with
  | calling =>
    simp only [worker, step] at h
    split at h <;> cases h
    · exact .refuse
    · exact .start
  | runner r phase => exact runner_moves h
  | returned r result => cases h
  | loop r phase => exact loop_moves h
  | stopper phase => exact stopper_moves h

/-- What anybody's step can do to a run. -/
structure Grows (s s' : RunState E) : Prop where
  started : s.started = true → s'.started = true
  canceled : s.canceled = true → s'.canceled = true
  polled : s.polled = true → s'.polled = true
  stopCalled : s.stopCalled = true → s'.stopCalled = true
  met : ∀ err ∈ s.met, err ∈ s'.met
  sent : ∃ more, s'.sent = s.sent ++ more

/-- What those can do to a run that do not call `Run` for it. -/
structure Works (s s' : RunState E) : Prop extends Grows s s' where
  same_started : s'.started = s.started
  same_finished : s'.finished = s.finished
  loops : s'.active + s'.ends.length = s.active + s.ends.length
  idle : s.active = 0 → s'.sent = s.sent ∧ s'.active = 0

theorem grows_of_same (hstarted : s.started = true → s'.started = true)
    (hcanceled : s.canceled = true → s'.canceled = true)
    (hpolled : s.polled = true → s'.polled = true)
    (hstop : s.stopCalled = true → s'.stopCalled = true)
    (hmet : s'.met = s.met) (hsent : s'.sent = s.sent) : Grows s s' :=
  ⟨hstarted, hcanceled, hpolled, hstop, fun _ h => hmet ▸ h, [], by rw [hsent, List.append_nil]⟩

theorem works_refl (s : RunState E) : Works s s :=
  ⟨grows_of_same id id id id rfl rfl, rfl, rfl, rfl, fun h => ⟨rfl, h⟩⟩

theorem mem_sent (h : Grows s s') (herr : err ∈ s.sent) : err ∈ s'.sent := by
  obtain ⟨more, hmore⟩ := h.sent
  rw [hmore]
  exact List.mem_append_left more herr

theorem shut_mono (h : Grows s s') (hshut : Shut s) : Shut s' := by
  rcases hshut with hcanceled | hstop | hsent
  · exact .inl (h.canceled hcanceled)
  · exact .inr (.inl (h.stopCalled hstop))
  · obtain ⟨err, herr⟩ := List.exists_mem_of_ne_nil _ hsent
    exact .inr (.inr (List.ne_nil_of_mem (mem_sent h herr)))

theorem justified_mono (h : Grows s s') (hhow : Justified s how) : Justified s' how := by
  cases how with
  | stopped => exact shut_mono h hhow
  | excused err down => exact fun hdown => shut_mono h (hhow hdown)
  | failed err => exact mem_sent h hhow

theorem head_mono (h : Grows s s') (hfirst : s.sent.head? = some err) :
    s'.sent.head? = some err := by
  obtain ⟨more, hmore⟩ := h.sent
  rw [hmore, List.head?_append, hfirst]
  rfl

theorem atLoop_mono (h : Grows s s') {phase : LoopPhase E} (hat : AtLoop s phase) :
    AtLoop s' phase := by
  cases phase with
  | classifying err | judging err | sending err => exact h.met err hat
  | halting err => exact mem_sent h hat
  | leaving how => exact justified_mono h hat
  | _ => trivial

theorem atRunner_works (h : Works s s') (hat : AtRunner c s phase) : AtRunner c s' phase := by
  have hloops := h.loops
  cases phase with
  | spawning left | selecting =>
    simp only [AtRunner] at hat ⊢
    omega
  | draining =>
    obtain ⟨hidle, hall⟩ := hat
    have hidle' := (h.idle hidle).2
    exact ⟨hidle', by omega⟩
  | halting err => exact ⟨hloops.trans hat.1, head_mono h.toGrows hat.2⟩
  | joining err => exact ⟨hloops.trans hat.1, head_mono h.toGrows hat.2.1, h.polled hat.2.2⟩
  | finishing result =>
    obtain ⟨hidle, hall, hfirst⟩ := hat
    obtain ⟨hsent, hidle'⟩ := h.idle hidle
    exact ⟨hidle', by omega, by rw [hsent, hfirst]⟩

theorem done_works (h : Works s s') {result : Option (RunError E)} (hdone : Done c s result) :
    Done c s' result := by
  obtain ⟨hsent, hidle⟩ := h.idle hdone.idle
  have hloops := h.loops
  have hall := hdone.all
  have hbefore := hdone.idle
  exact ⟨h.started hdone.started, h.polled hdone.polled, hidle, by omega,
    by rw [hsent, hdone.first]⟩

/-- Where a thread is does not depend on what others do, as long as they leave its own run to it. -/
theorem at_mono (hgrows : ∀ r, Grows (w.runs r) (w'.runs r)) (hown : Works (w.runs j) (w'.runs j))
    (hat : At c j l w) : At c j l w' := by
  cases l with
  | calling => exact hown.same_started.trans hat
  | runner r phase =>
    obtain ⟨rfl, hstarted, hgoing, hphase⟩ := hat
    exact ⟨rfl, hown.started hstarted, hown.same_finished.trans hgoing, atRunner_works hown hphase⟩
  | returned r result =>
    obtain ⟨rfl, ⟨hrefused, hstarted⟩ | hdone⟩ := hat
    · exact ⟨rfl, .inl ⟨hrefused, hown.same_started.trans hstarted⟩⟩
    · exact ⟨rfl, .inr (done_works hown hdone)⟩
  | loop r phase =>
    obtain ⟨hfresh, hstarted, hphase⟩ := hat
    exact ⟨hown.same_started.trans hfresh, (hgrows r).started hstarted,
      atLoop_mono (hgrows r) hphase⟩
  | stopper phase =>
    refine ⟨hown.same_started.trans hat.1, ?_⟩
    cases phase with
    | halting r | awaiting r => exact (hgrows r).started hat.2
    | reading | returned => trivial

theorem change_self (w : World E) (r : Nat) (f : RunState E → RunState E) :
    (w.change r f).runs r = f (w.runs r) := by
  simp [World.change]

theorem change_other (w : World E) {r r' : Nat} (f : RunState E → RunState E) (h : r' ≠ r) :
    (w.change r f).runs r' = w.runs r' := by
  simp [World.change, h]

/-- What holds of the run that changes and of all others before holds of all runs after. -/
theorem change_all {P : Nat → RunState E → RunState E → Prop}
    (hself : P r (w.runs r) (f (w.runs r))) (hother : ∀ r', r' ≠ r → P r' (w.runs r') (w.runs r'))
    (r' : Nat) : P r' (w.runs r') ((w.change r f).runs r') := by
  by_cases h : r' = r
  · subst h
    rw [change_self]
    exact hself
  · rw [change_other w f h]
    exact hother r' h

theorem inv_change (hw : Inv w) (hf : Sound (f (w.runs r)))
    (hstarted : (w.runs r).started = true → (f (w.runs r)).started = true) :
    Inv (w.change r f) := by
  refine ⟨?_, ?_⟩
  · exact change_all (P := fun _ _ s => Sound s) hf fun r' _ => hw.sound r'
  · intro r' hr'
    exact change_all (P := fun _ s s' => s.started = true → s'.started = true) hstarted
      (fun _ _ => id) r' (hw.current r' hr')

/-- The changes that leave a run's books alone. -/
theorem sound_flags (hs : Sound s) (hgrows : Grows s s')
    (hcause : s'.polled = true → Shut s' ∨ s'.finished = true) (hstarted : s'.started = s.started)
    (hfinished : s'.finished = s.finished) (hactive : s'.active = s.active)
    (hmet : s'.met = s.met) (hsent : s'.sent = s.sent) (hends : s'.ends = s.ends) : Sound s' := by
  refine ⟨hcause, ?_, ?_, ?_, ?_⟩
  · rw [hstarted, hactive, hends, hsent, hfinished]
    exact hs.fresh
  · rw [hfinished, hactive]
    exact hs.closed
  · rw [hmet, hsent]
    exact hs.known
  · rw [hends]
    exact fun how hhow => justified_mono hgrows (hs.justified how hhow)

end Fries.Queue.Run
