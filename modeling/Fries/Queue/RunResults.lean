import Fries.Queue.RunInvariant

/-! What `Run` returns: nil, or the first error that a loop sent to it. -/
namespace Fries.Queue.Run

open Fries.System

variable {E : Type} {c : Concurrency} {stop : StopErrors E} {s : RunState E} {w w' : World E}
  {l : Local E} {n p : Progress (World E) (Local E)} {i j k r : Nat} {err : E} {errs : List E}
  {crew : Crew (World E) (Local E)} {phase : RunPhase E} {label : Label E}
  {σ : Nat → Action (Label E) Shift Call}

section Account

/-- The queue reports an ended context only if the one it was given has ended. -/
def Faithful (stop : StopErrors E) (l : Local E) (w : World E) : Prop :=
  match l with
  | .loop r (.classifying err) => stop.isStop err = true → (w.runs r).polled = true
  | _ => True

/-- The books of a run that returned: nil only after a cancellation or a call of `Stop`, else the
first error sent; all loops have ended, and an error was passed over only after a shutdown. -/
structure Account (c : Concurrency) (s : RunState E) (result : Option (RunError E)) : Prop where
  quiet : result = none → s.canceled = true ∨ s.stopCalled = true
  first : result = s.sent.head?.map .queue
  all : s.ends.length = c.1
  failed : ∀ err, .failed err ∈ s.ends → err ∈ s.sent
  excused : ∀ err down, .excused err down ∈ s.ends → down = true ∧ Shut s
  met : ∀ err ∈ s.sent, err ∈ s.met

/-- No loop of the run passed over an error before the run was shut down. -/
def Clean (s : RunState E) : Prop := ∀ err, .excused err false ∉ s.ends

theorem account_done {result : Option (RunError E)} (hs : Sound s) (hdone : Done c s result)
    (hclean : Clean s) : Account c s result := by
  have hexcused : ∀ err down, .excused err down ∈ s.ends → down = true ∧ Shut s := by
    intro err down hmem
    cases down with
    | false => exact absurd hmem (hclean err)
    | true => exact ⟨rfl, hs.justified _ hmem rfl⟩
  refine ⟨?_, hdone.first, hdone.all, fun err => hs.justified (.failed err), hexcused, hs.known⟩
  intro hnone
  have hsent : s.sent = [] := by
    have hfirst := hdone.first
    rw [hnone] at hfirst
    simpa using hfirst.symm
  -- some loop ended, and not because of an error
  obtain ⟨how, hhow⟩ : ∃ how, how ∈ s.ends := by
    refine List.exists_mem_of_length_pos ?_
    rw [hdone.all]
    exact c.2
  have hshut : Shut s := by
    cases how with
    | stopped => exact hs.justified _ hhow
    | excused err down => exact (hexcused err down hhow).2
    | failed err =>
      have herr : err ∈ s.sent := hs.justified _ hhow
      rw [hsent] at herr
      cases herr
  rcases hshut with hcanceled | hstop | hne
  · exact .inl hcanceled
  · exact .inr hstop
  · exact absurd hsent hne

theorem clean_change {f : RunState E → RunState E} (hw : ∀ r, Clean (w.runs r))
    (hf : (f (w.runs r)).ends = (w.runs r).ends) (k : Nat) : Clean ((w.change r f).runs k) := by
  refine change_all (P := fun _ _ s => Clean s) ?_ (fun r' _ => hw r') k
  unfold Clean
  rw [hf]
  exact hw r

/-- Where the queue is faithful no loop is about to pass over an error it should return. -/
theorem clean_step (h : Moves c stop i w l n) (hok : Faithful stop l w)
    (hl : ∀ r err, l ≠ .loop r (.leaving (.excused err false))) (hw : ∀ r, Clean (w.runs r)) :
    (∀ r err, n.state ≠ .loop r (.leaving (.excused err false))) ∧
      (∀ r, Clean (n.world.runs r)) ∧
      ∀ m, n.started = some m → ∀ r err, m ≠ .loop r (.leaving (.excused err false)) := by
  cases h with
  | refuse | advance | look => exact ⟨by simp, hw, by simp⟩
  | start => exact ⟨by simp, clean_change (f := .register) hw rfl, by simp⟩
  | finish => exact ⟨by simp, clean_change (f := .close) hw rfl, by simp⟩
  | spawn => exact ⟨by simp, clean_change hw rfl, by simp⟩
  | meet _ hphase' =>
    refine ⟨?_, clean_change hw rfl, by simp⟩
    rcases hphase' with rfl | rfl <;> simp
  | go _ _ _ _ hforeign =>
    refine ⟨?_, hw, by simp⟩
    intro r err hstate
    simp only [Local.loop.injEq] at hstate
    obtain ⟨rfl, hphase'⟩ := hstate
    obtain ⟨rfl, hstop, hpolled⟩ := hforeign err hphase'
    cases hpolled.symm.trans (hok hstop)
  | leave =>
    rename_i r how
    refine ⟨by simp, ?_, by simp⟩
    intro k
    refine change_all (P := fun _ _ s => Clean s) ?_ (fun r' _ => hw r') k
    intro err hmem
    rcases List.mem_append.mp hmem with hold | hnew
    · exact hw r err hold
    · rw [← List.mem_singleton.mp hnew] at hl
      exact hl r err rfl
  | _ => exact ⟨by simp, clean_change hw rfl, by simp⟩

theorem clean_shift (e : Shift) (hw : ∀ r, Clean (w.runs r)) (k : Nat) :
    Clean ((shift e w).runs k) := by
  cases e with
  | cancel r | propagate r => exact clean_change hw rfl k

theorem clean_run {actions : List (Action (Label E) Shift Call)}
    (h : (worker c stop).Meets (Faithful stop) idle actions) (r : Nat) :
    Clean (((worker c stop).run idle actions).world.runs r) := by
  refine (kept_of_meets (K := fun l => ∀ r err, l ≠ .loop r (.leaving (.excused err false)))
    (I := fun w => ∀ r, Clean (w.runs r)) ?_ ?_ ?_ h (by simp [idle]) (by simp [idle, Clean])).2 r
  · intro call _
    cases call with
    | run | stop => simp [worker]
  · intro i label l w n hn hok hl hw
    exact clean_step (step_moves hn) hok hl hw
  · intro e w hw
    exact clean_shift e hw

end Account

section Progress

/-- The steps the threads of a run have left at most once polling is over. -/
def left (r : Nat) : Local E → Nat
  | .runner r' phase => if r' = r then phase.left else 0
  | .loop r' phase => if r' = r then phase.left else 0
  | _ => 0

theorem left_step (h : Moves c stop i w l n) (hat : At c i l w)
    (hstarted : (w.runs r).started = true) (hpolled : (w.runs r).polled = true) :
    left r n.state + total (left r) n.started.toList ≤ left r l ∧
      (0 < left r l → left r n.state + total (left r) n.started.toList < left r l) := by
  -- a thread of another run has nothing left of this one
  have hsplit : ∀ {r' before after : Nat}, (r' = r → after < before) →
      (if r' = r then after else 0) ≤ (if r' = r then before else 0) ∧
      (0 < (if r' = r then before else 0) →
        (if r' = r then after else 0) < (if r' = r then before else 0)) := by
    intro r' before after hlt
    by_cases hr : r' = r
    · have hlt' := hlt hr
      simp only [if_pos hr]
      omega
    · simp [hr]
  cases h with
  | refuse | look | stop | finish => simp [left, total]
  | start => simp [left, total, ne_of_started hat hstarted]
  | spawn =>
    rename_i r' k
    by_cases hr : r' = r
    · simp only [left, if_pos hr, Option.toList_some, total, RunPhase.left, LoopPhase.left]
      omega
    · simp [left, hr, total]
  | advance _ hleft | meet _ _ hleft => exact hsplit fun _ => hleft
  | halt => exact hsplit fun _ => by simp [RunPhase.left]
  | go _ _ _ hleft => exact hsplit fun hr => hleft (hr ▸ hpolled)
  | send | stopAll | leave => exact hsplit fun _ => by simp [LoopPhase.left]

theorem loop_enabled (w : World E) {phase : LoopPhase E} (h : phase.active = true) :
    ∃ label p, stepLoop stop r label w phase = some p := by
  cases phase with
  | creating => exact ⟨.created none, _, rfl⟩
  | receiving => exact ⟨.received (.ok false), _, rfl⟩
  | processing => exact ⟨.processed none, _, rfl⟩
  | classifying err | judging err | polling =>
    refine ⟨.step, ?_⟩
    simp only [stepLoop]
    split <;> exact ⟨_, rfl⟩
  | sending err | halting err | leaving how => exact ⟨.step, _, rfl⟩
  | gone => cases h

/-- `Run` is only blocked while loops are at work. -/
theorem runner_enabled (h : (w.runs r).active = 0) :
    ∃ label p, stepRun r label w phase = some p := by
  cases phase with
  | spawning k =>
    cases k with
    | zero | succ => exact ⟨.step, _, rfl⟩
  | selecting => exact ⟨.workersDone, _, if_pos h⟩
  | joining err => exact ⟨.step, _, if_pos h⟩
  | draining | halting err | finishing result => exact ⟨.step, _, rfl⟩

theorem runner_stays (hworks : Works (w.runs r) (w'.runs r))
    (h : stepRun r label w phase = some p) : ∃ label p, stepRun r label w' phase = some p := by
  cases phase with
  | spawning k =>
    cases k with
    | zero | succ => exact ⟨.step, _, rfl⟩
  | draining | halting err | finishing result => exact ⟨.step, _, rfl⟩
  | selecting =>
    simp only [stepRun] at h
    split at h
    · split at h
      · rename_i hidle
        exact runner_enabled (hworks.idle hidle).2
      · cases h
    · rw [Option.map_eq_some_iff] at h
      obtain ⟨err, herr, -⟩ := h
      refine ⟨.errs, ⟨.runner r (.halting err), w', none⟩, ?_⟩
      simp only [stepRun, head_mono hworks.toGrows herr, Option.map_some]
    · cases h
  | joining err =>
    simp only [stepRun] at h
    split at h
    · rename_i hidle
      exact runner_enabled (hworks.idle hidle).2
    · cases h

theorem step_stays (hworks : ∀ r phase, l = .runner r phase → Works (w.runs r) (w'.runs r))
    (h : step c stop i label l w = some p) : ∃ label p, step c stop i label l w' = some p := by
  cases l with
  | calling =>
    simp only [step]
    split <;> exact ⟨.step, _, rfl⟩
  | runner r phase => exact runner_stays (hworks r phase rfl) h
  | returned r result => cases h
  | loop r phase =>
    refine loop_enabled w' ?_
    cases phase with
    | gone => cases h
    | _ => rfl
  | stopper phase =>
    cases phase with
    | reading =>
      simp only [step, stepStop]
      split <;> exact ⟨.step, _, rfl⟩
    | halting r => exact ⟨.step, _, rfl⟩
    | awaiting r => exact ⟨.canceled, _, rfl⟩
    | returned canceled => cases h

theorem RunPhase.left_pos (phase : RunPhase E) : 0 < phase.left := by
  cases phase with
  | _ => simp [RunPhase.left]

theorem LoopPhase.left_pos {phase : LoopPhase E} (h : phase.active = true) : 0 < phase.left := by
  cases phase with
  | gone => cases h
  | _ => simp [LoopPhase.left]

/-- The thread that has the number of a registered run is the one that waits for it. -/
theorem left_pos_of_started (hat : At c r l w) (hstarted : (w.runs r).started = true)
    (h : step c stop r label l w = some n) : 0 < left r l := by
  cases l with
  | runner r' phase =>
    obtain ⟨rfl, -⟩ := hat
    simpa [left] using phase.left_pos
  | returned r' result => cases h
  | calling => cases hat.symm.trans hstarted
  | loop r' phase | stopper phase => cases hat.1.symm.trans hstarted

theorem enter_left (call : Call) (w : World E) : left r ((worker c stop).enter call w) = 0 := by
  cases call with
  | run | stop => rfl

/-- The thread of a call of `Run` whose run was registered. -/
theorem runner_of_started (h : (outline c stop).Holds crew)
    (hstarted : (crew.world.runs r).started = true) :
    (∃ phase, crew.threads[r]? = some (.runner r phase)) ∨
      ∃ result, crew.threads[r]? = some (.returned r result) ∧
        Done c (crew.world.runs r) result := by
  cases hl : crew.threads[r]? with
  | none =>
    have hfresh : (crew.world.runs r).started = false :=
      h.unused r (by simpa using hl)
    cases hfresh.symm.trans hstarted
  | some l =>
    have hat : At c r l crew.world := h.at_thread r l hl
    cases l with
    | runner r' phase =>
      obtain ⟨rfl, -⟩ := hat
      exact .inl ⟨phase, rfl⟩
    | returned r' result =>
      obtain ⟨rfl, ⟨-, hfresh⟩ | hdone⟩ := hat
      · cases hfresh.symm.trans hstarted
      · exact .inr ⟨result, rfl, hdone⟩
    | calling => cases hat.symm.trans hstarted
    | loop r' phase | stopper phase => cases hat.1.symm.trans hstarted

/-- A run that is registered, polls no more and has been sent some errors. -/
structure Ending (r : Nat) (errs : List E) (w : World E) : Prop where
  started : (w.runs r).started = true
  polled : (w.runs r).polled = true
  sent : ∀ err ∈ errs, err ∈ (w.runs r).sent

theorem ending_mono (hgrows : Grows (w.runs r) (w'.runs r)) (h : Ending r errs w) :
    Ending r errs w' :=
  ⟨hgrows.started h.started, hgrows.polled h.polled, fun err herr =>
    mem_sent hgrows (h.sent err herr)⟩

/-- Some thread of a run that did not return yet can go on. -/
theorem ending_live (h : (outline c stop).Holds crew)
    (hrunner : crew.threads[r]? = some (.runner r phase)) :
    ∃ i l label p, crew.threads[i]? = some l ∧ 0 < left r l ∧
      (worker c stop).step i label l crew.world = some p := by
  by_cases hidle : (crew.world.runs r).active = 0
  · obtain ⟨label, p, hp⟩ : ∃ label p, stepRun r label crew.world phase = some p :=
      runner_enabled hidle
    exact ⟨r, _, label, p, hrunner, by simpa [left] using phase.left_pos, hp⟩
  · -- a loop is at work
    have hcount : 0 < total (weight r) crew.threads := by
      have hcounted : (crew.world.runs r).active = total (weight r) crew.threads := h.counted r
      omega
    obtain ⟨i, l, hl, hpos⟩ := exists_of_total_pos _ hcount
    cases l with
    | loop r' phase =>
      by_cases hr : r' = r
      · subst hr
        have hactive : phase.active = true := by
          cases hphase : phase.active with
          | true => rfl
          | false => simp [weight, hphase] at hpos
        obtain ⟨label, p, hp⟩ := loop_enabled crew.world hactive
        exact ⟨i, _, label, p, hl, by simpa [left] using LoopPhase.left_pos hactive, hp⟩
      · simp [weight, hr] at hpos
    | _ => simp [weight] at hpos

/-- A run that polls no more returns. -/
theorem run_returns (hfair : ∀ i, (worker c stop).Fair idle σ i)
    (h : Ending r errs ((worker c stop).after idle σ k).world) :
    ∃ m, k ≤ m ∧ Ending r errs ((worker c stop).after idle σ m).world ∧
      ∃ result, ((worker c stop).after idle σ m).threads[r]? = some (.returned r result) := by
  let done (crew : Crew (World E) (Local E)) : Prop :=
    Ending r errs crew.world ∧ ∃ result, crew.threads[r]? = some (.returned r result)
  refine Outline.drains (Ending r errs) done (fun l => 0 < left r l) (left r) (fun _ => 0)
    (idle_holds c stop) hfair ?_ ?_ enter_left ?_ ?_ (fun _ _ => Nat.le_refl 0) ?_ ?_ h
  · intro i label l w p hp _ _ hending
    exact ending_mono (grows_step (step_moves hp) r) hending
  · intro e w hending
    exact ending_mono (works_shift e w r).toGrows hending
  · intro i label l w p hp _ hat _ hending hmine
    exact (left_step (step_moves hp) hat hending.started hending.polled).2 hmine
  · intro i label l w p hp _ hat hcount hending hmine
    refine ⟨(left_step (step_moves hp) hat hending.started hending.polled).1, ?_⟩
    rintro j m hm hij ⟨label', p', hp'⟩
    refine step_stays ?_ hp'
    rintro r' phase rfl
    refine works_step (step_moves hp) hat hcount ?_
    rintro rfl
    have hr : i = r := by
      by_contra hne
      simp [left, hne] at hm
    subst hr
    exact hmine (left_pos_of_started hat hending.started hp)
  · intro e i label l w p hp
    exact step_stays (fun r' _ _ => works_shift e w r') hp
  · intro crew hholds hending hdone
    rcases runner_of_started hholds hending.started with ⟨phase, hphase⟩ | ⟨result, hresult, -⟩
    · exact ending_live hholds hphase
    · exact absurd ⟨hending, result, hresult⟩ hdone

/-- An error that a loop is about to send is sent. -/
theorem error_sent (hfair : (worker c stop).Fair idle σ j)
    (h : ((worker c stop).after idle σ k).threads[j]? = some (.loop r (.sending err))) :
    ∃ m, k ≤ m ∧ err ∈ (((worker c stop).after idle σ m).world.runs r).sent := by
  suffices hsent : ∃ m, k ≤ m ∧ ∃ l, ((worker c stop).after idle σ m).threads[j]? = some l ∧
      err ∈ (((worker c stop).after idle σ m).world.runs r).sent by
    obtain ⟨m, hm, -, -, hsent⟩ := hsent
    exact ⟨m, hm, hsent⟩
  refine Outline.eventually (fun l _ => l = .loop r (.sending err))
    (fun _ w => err ∈ (w.runs r).sent) (fun _ _ => 0) (idle_holds c stop) hfair ?_ ?_ ?_ ?_ h rfl
  · rintro l w _ _ rfl
    exact ⟨.step, _, rfl⟩
  · rintro label l w n hn _ _ _ rfl
    cases hn
    refine .inl ?_
    rw [change_self]
    exact List.mem_append_right _ (List.mem_singleton_self err)
  · rintro i label m l w n hn _ _ _ hl
    exact .inr ⟨hl, Nat.le_refl 0⟩
  · rintro e l w hl
    exact ⟨hl, Nat.le_refl 0⟩

/-- `Run` has yet to find out about an error that was sent. -/
def Unaware (r : Nat) (err : E) (l : Local E) (w : World E) : Prop :=
  (w.runs r).started = true ∧ err ∈ (w.runs r).sent ∧
    ∃ phase, l = .runner r phase ∧ ∀ e, phase ≠ .joining e

theorem unaware_enabled (h : Unaware r err l w) : ∃ label p, step c stop i label l w = some p := by
  obtain ⟨-, hsent, phase, rfl, hphase⟩ := h
  cases phase with
  | spawning k =>
    cases k with
    | zero | succ => exact ⟨.step, _, rfl⟩
  | draining | halting e | finishing result => exact ⟨.step, _, rfl⟩
  | joining e => exact absurd rfl (hphase e)
  | selecting =>
    cases hall : (w.runs r).sent with
    | nil =>
      rw [hall] at hsent
      cases hsent
    | cons first rest =>
      refine ⟨.errs, ⟨.runner r (.halting first), w, none⟩, ?_⟩
      simp [step, stepRun, hall]

theorem unaware_step (hmoves : Moves c stop i w l n) (hat : At c i n.state n.world)
    (h : Unaware r err l w) :
    Ending r [err] n.world ∨ Unaware r err n.state n.world ∧ left r n.state < left r l := by
  obtain ⟨hstarted, hsent, phase, rfl, hphase⟩ := h
  have hgrows := grows_step hmoves r
  have hstarted' := hgrows.started hstarted
  have hsent' := mem_sent hgrows hsent
  have hending : (n.world.runs r).polled = true → Ending r [err] n.world := by
    intro hpolled
    refine ⟨hstarted', hpolled, ?_⟩
    intro e he
    rw [List.mem_singleton.mp he]
    exact hsent'
  cases hmoves with
  | spawn =>
    refine .inr ⟨⟨hstarted', hsent', _, rfl, by simp⟩, ?_⟩
    simp [left, RunPhase.left]
  | advance hmove hleft =>
    rename_i phase'
    cases phase' with
    | joining e => exact .inl (hending hat.2.2.2.2.2)
    | _ =>
      refine .inr ⟨⟨hstarted', hsent', _, rfl, by simp⟩, ?_⟩
      simpa [left] using hleft
  | halt => exact .inl (hending (congrArg RunState.polled (change_self w r .stop)))
  | finish => exact .inl (hending (congrArg RunState.polled (change_self w r .close)))

theorem unaware_mono (hgrows : Grows (w.runs r) (w'.runs r)) (h : Unaware r err l w) :
    Unaware r err l w' :=
  ⟨hgrows.started h.1, mem_sent hgrows h.2.1, h.2.2⟩

/-- Once an error was sent, the loops of the run are stopped. -/
theorem error_stops (hfair : ∀ i, (worker c stop).Fair idle σ i)
    (h : err ∈ (((worker c stop).after idle σ k).world.runs r).sent) :
    ∃ m, k ≤ m ∧ Ending r [err] ((worker c stop).after idle σ m).world := by
  have hholds := Outline.holds_after (σ := σ) (idle_holds c stop) k
  have hstarted : (((worker c stop).after idle σ k).world.runs r).started = true := by
    cases hfresh : (((worker c stop).after idle σ k).world.runs r).started with
    | true => rfl
    | false =>
      rw [((hholds.inv.sound r).fresh hfresh).2.2.1] at h
      cases h
  have hnow : (((worker c stop).after idle σ k).world.runs r).polled = true →
      ∃ m, k ≤ m ∧ Ending r [err] ((worker c stop).after idle σ m).world := by
    intro hpolled
    exact ⟨k, Nat.le_refl k, hstarted, hpolled, by simpa using h⟩
  rcases runner_of_started hholds hstarted with ⟨phase, hphase⟩ | ⟨result, -, hdone⟩
  · by_cases hjoining : ∃ e, phase = .joining e
    · obtain ⟨e, rfl⟩ := hjoining
      exact hnow (hholds.at_thread r _ hphase).2.2.2.2.2
    · suffices hends : ∃ m, k ≤ m ∧ ∃ l,
          ((worker c stop).after idle σ m).threads[r]? = some l ∧
            Ending r [err] ((worker c stop).after idle σ m).world by
        obtain ⟨m, hm, -, -, hending⟩ := hends
        exact ⟨m, hm, hending⟩
      refine Outline.eventually (Unaware r err) (fun _ w => Ending r [err] w) (fun l _ => left r l)
        (idle_holds c stop) (hfair r) (fun _ _ _ _ => unaware_enabled) ?_ ?_ ?_ hphase
        ⟨hstarted, h, phase, rfl, fun e he => hjoining ⟨e, he⟩⟩
      · intro label l w n hn hinv hat hcount hunaware
        exact unaware_step (step_moves hn) ((outline c stop).own hn hinv hat hcount).2 hunaware
      · intro i label m l w n hn _ _ _ hunaware
        exact .inr ⟨unaware_mono (grows_step (step_moves hn) r) hunaware, Nat.le_refl _⟩
      · intro e l w hunaware
        exact ⟨unaware_mono (works_shift e w r).toGrows hunaware, Nat.le_refl _⟩
  · exact hnow hdone.polled

end Progress

section Results

/-- Every run of a worker over a faithful queue keeps its books, and in a fair schedule an error
that a loop returns ends the run it belongs to: its `Run` returns the first such error. -/
theorem run_accounts (c : Concurrency) (stop : StopErrors E) :
    (∀ actions, (worker c stop).Meets (Faithful stop) idle actions → ∀ r result,
      ((worker c stop).run idle actions).threads[r]? = some (.returned r result) →
      result = some (.worker errAlreadyRunning) ∨
        Account c (((worker c stop).run idle actions).world.runs r) result) ∧
    ∀ σ, (∀ i, (worker c stop).Fair idle σ i) → ∀ (k j r : Nat) (err : E),
      ((worker c stop).after idle σ k).threads[j]? = some (.loop r (.sending err)) →
      ∃ m first, k ≤ m ∧
        ((worker c stop).after idle σ m).threads[r]? = some (.returned r (some (.queue first))) ∧
        (((worker c stop).after idle σ m).world.runs r).sent.head? = some first ∧
        err ∈ (((worker c stop).after idle σ m).world.runs r).sent := by
  refine ⟨?_, ?_⟩
  · intro actions hmeets r result hresult
    have hholds := Outline.holds_run (idle_holds c stop) actions
    obtain ⟨-, ⟨hrefused, -⟩ | hdone⟩ := hholds.at_thread r _ hresult
    · exact .inl hrefused
    · exact .inr (account_done (hholds.inv.sound r) hdone (clean_run hmeets r))
  · intro σ hfair k j r err hj
    obtain ⟨k₁, hk₁, hsent⟩ := error_sent (hfair j) hj
    obtain ⟨k₂, hk₂, hending⟩ := error_stops hfair hsent
    obtain ⟨m, hm, hending', result, hresult⟩ := run_returns hfair hending
    have hholds := Outline.holds_after (σ := σ) (idle_holds c stop) m
    have herr := hending'.sent err (List.mem_singleton_self err)
    obtain ⟨-, ⟨-, hfresh⟩ | hdone⟩ := hholds.at_thread r _ hresult
    · cases hfresh.symm.trans hending'.started
    · obtain ⟨first, hfirst⟩ := Option.ne_none_iff_exists'.mp
        (mt List.head?_eq_none_iff.mp (List.ne_nil_of_mem herr))
      refine ⟨m, first, by omega, ?_, hfirst, herr⟩
      rw [hresult, hdone.first, hfirst]
      rfl

/-- The errors of a queue: a context that ended, a closed consumer, or anything else. -/
inductive QueueError
  | canceled
  | closed
  | other (text : String)
  deriving DecidableEq

def queueErrors : StopErrors QueueError where
  isStop err := err = .canceled
  isClosed err := err = .closed

/-- A worker with one loop, whose first receive fails. -/
def receiveFails (err : QueueError) : List (Action (Label QueueError) Shift Call) :=
  [.spawn .run, .run 0 .step, .run 0 .step, .run 0 .step, .run 1 (.created none), .run 1 .step,
    .run 1 (.received (.error err)), .run 1 .step]

/-- A receive that reports a canceled context while the context of the run goes on: `Run` returns
nil, although nobody canceled it and nobody called `Stop`. -/
theorem run_nil_unasked : ∃ (c : Concurrency) (stop : StopErrors QueueError)
    (actions : List (Action (Label QueueError) Shift Call)) (r : Nat) (err : QueueError),
    let crew := (worker c stop).run idle actions
    crew.threads[r]? = some (.returned r none) ∧ (crew.world.runs r).met = [err] ∧
      (crew.world.runs r).canceled = false ∧ (crew.world.runs r).stopCalled = false :=
  ⟨⟨1, Nat.one_pos⟩, queueErrors,
    receiveFails .canceled ++ [.run 1 .step, .run 0 .workersDone, .run 0 .step, .run 0 .step],
    0, .canceled, rfl, rfl, rfl, rfl⟩

/-- A receive fails, and the loop and `Run` go on to their ends. -/
def refused : List (Action (Label QueueError) Shift Call) :=
  receiveFails (.other "refused") ++ [.run 1 .step, .run 0 .errs, .run 1 .step, .run 1 .step,
    .run 0 .step, .run 0 .step, .run 0 .step]

theorem refused_fair (i : Nat) : (worker ⟨1, Nat.one_pos⟩ queueErrors).Fair idle
    (fun n => refused.getD n (.run 0 .step)) i := by
  have hthreads : ((worker ⟨1, Nat.one_pos⟩ queueErrors).run idle refused).threads =
      [.returned 0 (some (.queue (.other "refused"))), .loop 0 .gone] := rfl
  refine fair_getD ?_ i
  rw [hthreads]
  intro l hl i label w
  simp only [List.mem_cons, List.not_mem_nil, or_false] at hl
  rcases hl with rfl | rfl
  · rfl
  · rfl

theorem run_accounts_refused :
    Account ⟨1, Nat.one_pos⟩
      (((worker ⟨1, Nat.one_pos⟩ queueErrors).run idle refused).world.runs 0)
      (some (.queue (.other "refused"))) ∧
    ∃ m first, 8 ≤ m ∧ ((worker ⟨1, Nat.one_pos⟩ queueErrors).after idle
      (fun n => refused.getD n (.run 0 .step)) m).threads[0]? =
        some (.returned 0 (some (.queue first))) := by
  obtain ⟨haccounts, hreturns⟩ := run_accounts ⟨1, Nat.one_pos⟩ queueErrors
  refine ⟨?_, ?_⟩
  · have hmeets : (worker ⟨1, Nat.one_pos⟩ queueErrors).Meets (Faithful queueErrors) idle
        refused := by
      refine ⟨?_, ?_, ?_, ?_, ?_, ?_, ?_, ?_, ?_, ?_, ?_, ?_, ?_, ?_, ?_, trivial⟩ <;>
        rintro i label l ha hl <;> cases ha <;> cases hl <;>
          first | trivial | exact fun h => absurd h (by decide)
    rcases haccounts refused hmeets 0 _ rfl with hrefused | haccount
    · cases hrefused
    · exact haccount
  · obtain ⟨m, first, hm, hresult, -⟩ :=
      hreturns _ refused_fair 8 1 0 (.other "refused") rfl
    exact ⟨m, first, hm, hresult⟩

end Results

end Fries.Queue.Run
