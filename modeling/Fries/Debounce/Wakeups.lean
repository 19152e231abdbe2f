import Fries.Debounce.Invariant

/-! The slots of the debouncer and the wakeups of its worker. -/
namespace Fries.Debounce

variable {T E : Type} {c : Config} {w : World T E} {i : Nat} {l : Local T E} {label : Label E}
  {tick : Option Int} {n : Progress (World T E) (Local T E)} {s : Crew (World T E) (Local T E)}

/-- The invocation is in a slot. -/
def Held (w : World T E) (id : Nat) : Prop :=
  w.pending = some id ∨ w.ready = some id ∨ w.running = some id

/-- Nothing is frozen, and the timer is set for the time the pending invocation is due. -/
def Armed (tick : Option Int) (w : World T E) : Prop :=
  w.ready = none ∧ ∀ id, w.pending = some id → tick = some (w.invocations id).due

/-- Invocations that are not complete are in a slot, and none is due later than the delay. -/
structure Tracked (delay : Int) (w : World T E) : Prop where
  due : ∀ id, w.pending = some id → (w.invocations id).due ≤ w.clock + delay
  held : ∀ id, id < w.made → (w.invocations id).result = none → Held w id
  unmade : ∀ id, w.made ≤ id → (w.invocations id).result = none

/-- What a step of a goroutine leaves of the invocations. A result stays; a new one is that of an
invocation `stop` discards or of the one whose handler has returned; and once the debouncer is
closed no slot is filled. -/
structure Ends (w : World T E) (l : Local T E) (w' : World T E) : Prop where
  kept : ∀ id r, (w.invocations id).result = some r → (w'.invocations id).result = some r
  ended : ∀ id r, (w'.invocations id).result = some r → (w.invocations id).result = some r ∨
    r = .closed ∧ (w.pending = some id ∨ w.ready = some id) ∨
    ∃ err, r = .handled err ∧ w.running = some id ∧ l = .worker (.completing id err)
  unfilled : w.closed = true → w'.closed = true ∧ w'.pending = none ∧ w'.ready = none ∧
    (w'.running = w.running ∨ w'.running = none)

/-- A step that does not touch the invocations. -/
theorem ends_same {w' : World T E} (hinvocations : w'.invocations = w.invocations)
    (hunfilled : w.closed = true → w'.closed = true ∧ w'.pending = none ∧ w'.ready = none ∧
      (w'.running = w.running ∨ w'.running = none)) : Ends w l w' := by
  refine ⟨?_, ?_, hunfilled⟩
  · intro id r h
    rw [hinvocations]
    exact h
  · intro id r h
    rw [hinvocations] at h
    exact .inl h

/-- What is in a slot is not complete. -/
theorem open_of_held {id : Nat} (hw : Slots c.delay w) (h : Held w id) :
    id < w.made ∧ (w.invocations id).result = none := by
  rcases h with hp | hr | hr
  · obtain ⟨hmade, -, -, x, hx⟩ := hw.pending id hp
    exact ⟨hmade, by rw [hx]⟩
  · obtain ⟨hmade, -, x, due, hx, -⟩ := hw.ready id hr
    exact ⟨hmade, by rw [hx]⟩
  · obtain ⟨hmade, x, due, hx, -⟩ := hw.running id hr
    exact ⟨hmade, by rw [hx]⟩

/-- The invocation a trigger writes to is not complete. -/
theorem target_open (hw : Slots c.delay w) (ht : Tracked c.delay w) :
    (w.invocations (target w)).result = none := by
  obtain ⟨-, -, hp | ⟨-, hmade⟩⟩ := target_spec hw
  · exact (open_of_held hw (.inl hp)).2
  · exact ht.unmade _ (Nat.le_of_eq hmade.symm)

theorem tracked_trigger (value : T) (hw : Slots c.delay w) (ht : Tracked c.delay w) :
    Tracked c.delay (w.trigger c.delay value) := by
  obtain ⟨hmade, hlt⟩ := trigger_made value hw
  obtain ⟨-, -, htarget⟩ := target_spec hw
  refine ⟨?_, ?_, ?_⟩
  · intro id hid
    obtain rfl : target w = id := Option.some.inj hid
    rw [trigger_target hw]
    exact Int.le_refl _
  · intro id hid hresult
    by_cases hnew : id = target w
    · exact .inl (congrArg some hnew.symm)
    · rw [trigger_other hnew] at hresult
      have hid' : id < if w.pending.isSome then w.made else w.made + 1 := hid
      rcases htarget with hp | ⟨hp, heq⟩
      · simp only [hp, Option.isSome_some, if_true] at hid'
        refine .inr ((ht.held id hid' hresult).resolve_left fun hp' => hnew ?_)
        exact (Option.some.inj (hp.symm.trans hp')).symm
      · simp only [hp, Option.isSome_none, Bool.false_eq_true, if_false] at hid'
        refine .inr ((ht.held id (by omega) hresult).resolve_left ?_)
        rw [hp]
        nofun
  · intro id hid
    rw [trigger_other (by omega)]
    exact ht.unmade id (Nat.le_trans hmade hid)

theorem tracked_moves (hw : Inv c.delay w) (hat : At l w) (ht : Tracked c.delay w)
    (h : Moves c w l n) : Tracked c.delay n.world := by
  cases h with
  | trigger => exact tracked_trigger _ hw.slots ht
  | freeze hopen hready hpending =>
    refine ⟨nofun, ?_, ht.unmade⟩
    intro id hid hresult
    rcases ht.held id hid hresult with hp | hr | hr
    · exact .inr (.inl hp)
    · rw [hready] at hr
      cases hr
    · exact .inr (.inr hr)
  | stop hl hopen hw' =>
    obtain ⟨cancelled, invocations, hothers, hended⟩ := hw'
    refine ⟨nofun, ?_, ?_⟩
    · intro id hid hresult
      have hout : ¬ (w.pending = some id ∨ w.ready = some id) := by
        intro hslot
        cases (hended id hslot).symm.trans hresult
      obtain ⟨hp, hr⟩ := not_or.mp hout
      have hold : (w.invocations id).result = none := hothers id hp hr ▸ hresult
      exact .inr (.inr (((ht.held id hid hold).resolve_left hp).resolve_left hr))
    · intro id hid
      have hout : ¬ Held w id := fun h => absurd (open_of_held hw.slots h).1 (Nat.not_lt.mpr hid)
      have hsame := hothers id (fun hp => hout (.inl hp)) fun hr => hout (.inr (.inl hr))
      exact (congrArg Invocation.result hsame).trans (ht.unmade id hid)
  | takeReady hopen hready =>
    have hrunning : w.running = none := hat.2.1
    refine ⟨ht.due, ?_, ht.unmade⟩
    intro id hid hresult
    rcases ht.held id hid hresult with hp | hr | hr
    · exact .inl hp
    · exact .inr (.inr (hready.symm.trans hr))
    · rw [hrunning] at hr
      cases hr
  | takePending hopen hready hpending hdue =>
    have hrunning : w.running = none := hat.2.1
    refine ⟨nofun, ?_, ht.unmade⟩
    intro id hid hresult
    rcases ht.held id hid hresult with hp | hr | hr
    · exact .inr (.inr (hpending.symm.trans hp))
    · exact .inr (.inl hr)
    · rw [hrunning] at hr
      cases hr
  | complete =>
    rename_i call err
    obtain ⟨hmade, -⟩ := open_of_held hw.slots (.inr (.inr hat.2.1))
    refine ⟨?_, ?_, ?_⟩
    · intro id hid
      have hne : id ≠ call := fun heq => (hw.slots.pending id hid).2.2.1 (heq ▸ hat.2.1)
      simpa [hne] using ht.due id hid
    · intro id hid hresult
      have hne : id ≠ call := by
        rintro rfl
        simp at hresult
      rcases ht.held id hid (by simpa [hne] using hresult) with hp | hr | hr
      · exact .inl hp
      · exact .inr (.inl hr)
      · exact absurd (Option.some.inj (hr.symm.trans hat.2.1)) hne
    · intro id hid
      have hne : id ≠ call := by
        rintro rfl
        exact absurd hmade (Nat.not_lt.mpr hid)
      simpa [hne] using ht.unmade id hid
  | _ => exact ⟨ht.due, ht.held, ht.unmade⟩

theorem ends_moves (hw : Inv c.delay w) (hat : At l w) (ht : Tracked c.delay w)
    (h : Moves c w l n) : Ends w l n.world := by
  have hcleared := hw.cleared
  have hopened : w.over = false → ¬ w.closed = true := by
    intro hover
    simp [(over_eq_false.mp hover).1]
  cases h with
  | freeze hopen | takeReady hopen | takePending hopen =>
    exact ends_same rfl fun hc => absurd hc (hopened hopen)
  | trigger hopen =>
    refine ⟨?_, ?_, fun hc => absurd hc (hopened hopen)⟩
    · intro id r hr
      by_cases hnew : id = target w
      · subst hnew
        rw [target_open hw.slots ht] at hr
        cases hr
      · rwa [trigger_other hnew]
    · intro id r hr
      by_cases hnew : id = target w
      · subst hnew
        rw [trigger_target hw.slots] at hr
        cases hr
      · exact .inl (by rwa [trigger_other hnew] at hr)
  | stop hl hopen hw' =>
    obtain ⟨cancelled, invocations, hothers, hended⟩ := hw'
    refine ⟨?_, ?_, fun hc => absurd hc (by simp [hopen])⟩
    · intro id r hr
      have hout : ¬ Held w id := by
        intro hheld
        rw [(open_of_held hw.slots hheld).2] at hr
        cases hr
      have hsame := hothers id (fun hp => hout (.inl hp)) fun hr => hout (.inr (.inl hr))
      exact (congrArg Invocation.result hsame).trans hr
    · intro id r hr
      by_cases hslot : w.pending = some id ∨ w.ready = some id
      · exact .inr (.inl ⟨Option.some.inj (hr.symm.trans (hended id hslot)), hslot⟩)
      · obtain ⟨hp, hready⟩ := not_or.mp hslot
        exact .inl ((congrArg Invocation.result (hothers id hp hready)).symm.trans hr)
  | complete =>
    rename_i call err
    have hcall := (open_of_held hw.slots (.inr (.inr hat.2.1))).2
    refine ⟨?_, ?_, fun hc => ⟨hc, (hcleared hc).1, (hcleared hc).2, .inr rfl⟩⟩
    · intro id r hr
      have hne : id ≠ call := by
        rintro rfl
        rw [hcall] at hr
        cases hr
      simpa [hne] using hr
    · intro id r hr
      by_cases heq : id = call
      · subst heq
        obtain rfl : Result.handled err = r := by simpa using hr
        exact .inr (.inr ⟨err, rfl, hat.2.1, rfl⟩)
      · exact .inl (by simpa [heq] using hr)
  | _ => exact ends_same rfl fun hc => ⟨hc, (hcleared hc).1, (hcleared hc).2, .inl rfl⟩

/-- A worker that `next` lets wait has its timer set for what is pending. -/
theorem next_armed (hdelay : c.delay ≤ maxInt64) (ht : Tracked c.delay w)
    (h : (next w).1 = .waiting tick) : Armed tick (next w).2 := by
  unfold next at h ⊢
  cases hover : w.over with
  | true => simp [hover] at h
  | false =>
    cases hr : w.ready with
    | some call => simp [hover, hr] at h
    | none =>
      cases hp : w.pending with
      | none => exact ⟨hr, fun id hid => by simp [hp] at hid⟩
      | some call =>
        simp only [hover, hr, hp, Bool.false_eq_true, if_false] at h ⊢
        split at h <;> cases h
        rename_i hpos
        rw [if_pos hpos]
        refine ⟨hr, fun id hid => ?_⟩
        obtain rfl : call = id := Option.some.inj (hp.symm.trans hid)
        have hdue := ht.due call hp
        rw [timeSub_pos] at hpos
        have hexact : timeSub (w.invocations call).due w.clock =
            (w.invocations call).due - w.clock := by
          unfold timeSub maxInt64 at *
          rw [if_neg (by omega), if_neg (by omega)]
        show some (w.clock + timeSub _ _) = some (w.invocations call).due
        rw [hexact]
        exact congrArg some (by omega)

/-- The worker comes to wait by `next` alone. -/
theorem waiting_of_step (hw : Inv c.delay w) (hat : At l w) (h : step c i label l w = some n)
    (hn : n.state = .worker (.waiting tick)) :
    n.world = (next w).2 ∧ (next w).1 = .waiting tick := by
  cases step_moves hw hat h with
  | work =>
    rename_i phase' phase hat'
    have hstep : workerStep c label phase w = some ⟨.worker phase', w, none⟩ := h
    cases hn
    unfold workerStep stopping at hstep
    cases phase with
    | next =>
      obtain ⟨hstate, hworld⟩ : (next w).1 = .waiting tick ∧ (next w).2 = w := by simpa using hstep
      exact ⟨hworld.symm, hstate⟩
    | executing | notifying | exited => cases hstep
    | _ =>
      dsimp only at hstep
      (repeat' split at hstep) <;> cases hstep
  | stay hl | stop hl => cases hl <;> cases hn
  | _ => cases hn

/-- What the worker needs to know of a step of another goroutine wakes it. -/
theorem armed_moves (h : Moves c w l n) (hl : weight l = 0)
    (ha : w.wake = false → w.over = false → Armed tick w) :
    n.world.wake = false → n.world.over = false → Armed tick n.world := by
  cases h with
  | refuse | flush | stay | closed => exact ha
  | trigger | freeze => nofun
  | stop _ _ hw' =>
    obtain ⟨cancelled, invocations⟩ := hw'
    nofun
  | _ => cases hl

/-- The invocations are tracked, and a worker that waits without being woken has set its timer. -/
structure Aware (delay : Int) (s : Crew (World T E) (Local T E)) : Prop where
  tracked : Tracked delay s.world
  armed : ∀ (i : Nat) tick, s.threads[i]? = some (.worker (.waiting tick)) →
    s.world.wake = false → s.world.over = false → Armed tick s.world

theorem aware_shift (e : Change) (h : Aware c.delay s) :
    Aware c.delay { s with world := shift e s.world } := by
  obtain ⟨⟨hdue, hheld, hunmade⟩, harmed⟩ := h
  cases e with
  | cancelCall call cause => exact ⟨⟨hdue, hheld, hunmade⟩, harmed⟩
  | cancel cause =>
    refine ⟨⟨hdue, hheld, hunmade⟩, fun i tick _ _ hover => ?_⟩
    simp [World.over, shift] at hover
  | advance time =>
    refine ⟨⟨?_, hheld, hunmade⟩, harmed⟩
    intro id hid
    have hle := hdue id hid
    show (s.world.invocations id).due ≤ s.world.clock + time + c.delay
    omega

theorem aware_step (hdelay : c.delay ≤ maxInt64) (hs : (outline T E c).Holds s)
    (h : Aware c.delay s) (hl : s.threads[i]? = some l) (hn : step c i label l s.world = some n) :
    Aware c.delay ⟨n.world, s.threads.set i n.state ++ n.started.toList⟩ := by
  have hat : At l s.world := hs.at_thread i l hl
  have hmoves := step_moves hs.inv hat hn
  have hstarted := (weight_moves hmoves).2
  refine ⟨tracked_moves hs.inv hat h.tracked hmoves, ?_⟩
  intro j tick hj
  simp only [hstarted, Option.toList_none, List.append_nil] at hj
  by_cases hij : i = j
  · subst hij
    have hlt : i < s.threads.length := (List.getElem?_eq_some_iff.mp hl).1
    obtain ⟨hworld, hwait⟩ := waiting_of_step hs.inv hat hn (by simpa [hlt] using hj)
    intro _ _
    rw [hworld]
    exact next_armed hdelay h.tracked hwait
  · have hold : s.threads[j]? = some (.worker (.waiting tick)) := by simpa [hij] using hj
    have hone : weight l + 1 ≤ System.total weight s.threads :=
      System.add_le_total weight hij hl hold
    have hcount : 1 = System.total weight s.threads := hs.counted ()
    exact armed_moves hmoves (by omega) (h.armed j tick hold)

theorem aware_next (hdelay : c.delay ≤ maxInt64) (hs : (outline T E c).Holds s)
    (h : Aware c.delay s) (a : Action (Label E) Change (Call T)) :
    Aware c.delay ((debouncer T E c).next s a) := by
  have hnexts := (debouncer T E c).nexts_next s a
  generalize (debouncer T E c).next s a = s' at hnexts ⊢
  cases hnexts with
  | idle => exact h
  | shift e => exact aware_shift e h
  | step hl hn => exact aware_step hdelay hs h hl hn
  | spawn call =>
    refine ⟨h.tracked, ?_⟩
    intro i tick hi
    rw [List.getElem?_append] at hi
    split at hi
    · exact h.armed i tick hi
    · have hnew := List.mem_of_getElem? hi
      cases call <;> simp [debouncer] at hnew

/-- What the slots hold, and what a waiting worker waits for. -/
structure Sound (s : Crew (World T E) (Local T E)) : Prop where
  distinct : (∀ id, s.world.pending = some id →
      s.world.ready ≠ some id ∧ s.world.running ≠ some id) ∧
    ∀ id, s.world.ready = some id → s.world.running ≠ some id
  once : ∀ i : Nat, s.threads[i]? ≠ some .panicked
  complete : ∀ id, id < s.world.made →
    ((s.world.invocations id).result ≠ none ↔ ¬ Held s.world id)
  cleared : s.world.closed = true → s.world.pending = none ∧ s.world.ready = none
  armed : ∀ (i : Nat) tick, s.threads[i]? = some (.worker (.waiting tick)) →
    s.world.wake = false → s.world.over = false → Armed tick s.world

theorem sound_of_aware (hs : (outline T E c).Holds s) (h : Aware c.delay s) : Sound s where
  distinct := by
    have hw : Inv c.delay s.world := hs.inv
    exact ⟨fun id hp => ⟨(hw.slots.pending id hp).2.1, (hw.slots.pending id hp).2.2.1⟩,
      fun id hr => (hw.slots.ready id hr).2.1⟩
  once i hi := hs.at_thread i _ hi
  complete id hid := by
    have hw : Inv c.delay s.world := hs.inv
    exact ⟨fun hr hheld => hr (open_of_held hw.slots hheld).2,
      fun hheld hr => hheld (h.tracked.held id hid hr)⟩
  cleared := hs.inv.cleared
  armed := h.armed

/-- In every reachable state no invocation is in two slots, none is completed twice, and an idle
worker will be woken for what is pending. A delay is a `time.Duration`. -/
theorem slots_are_sound (c : Config) (hdelay : c.delay ≤ maxInt64) (now : Int)
    (actions : List (Action (Label E) Change (Call T))) :
    let s := (debouncer T E c).run (initial T E now) actions
    Sound s ∧ ∀ (i : Nat) label l n, s.threads[i]? = some l →
      (debouncer T E c).step i label l s.world = some n → Ends s.world l n.world := by
  intro s
  have hs := System.Outline.holds_run (holds_initial T E c now) actions
  have haware : Aware c.delay s := by
    refine System.Outline.relates_run (O := outline T E c)
      (fun s s' => Aware c.delay s → Aware c.delay s') (fun _ h => h)
      (fun _ _ _ h h' => h' ∘ h) (fun s a hs h => aware_next hdelay hs h a)
      (holds_initial T E c now) actions ?_
    refine ⟨⟨nofun, nofun, fun _ _ => rfl⟩, ?_⟩
    intro i tick hi
    rcases i with _ | _ | i <;> cases hi
  refine ⟨sound_of_aware hs haware, ?_⟩
  intro i label l n hl hn
  have hat : At l s.world := hs.at_thread i l hl
  exact ends_moves hs.inv hat haware.tracked (step_moves hs.inv hat hn)

/-- A trigger wakes the worker, which then waits for the delay to be over. -/
theorem slots_are_sound_triggered :
    let s := (debouncer Nat String ⟨5, true, by decide⟩).run (initial Nat String 0)
      [.run 0 .wake, .spawn (.trigger 7), .run 2 .wake, .run 0 .wake, .run 0 .wake]
    s.threads[0]? = some (.worker (.waiting (some 5))) ∧ Armed (some 5) s.world := by
  intro s
  have hwaits : s.threads[0]? = some (.worker (.waiting (some 5))) := by decide
  exact ⟨hwaits, (slots_are_sound _ (by decide) 0 _).1.armed 0 _ hwaits (by decide) (by decide)⟩

end Fries.Debounce
