import Fries.Signal.RouterOutline

/-!
Every step of a router keeps its outline.
-/
namespace Fries.Signal

variable {G H E : Type} {w w' : World G H E} {l m : Local G H E}
  {n : Progress (World G H E) (Local G H E)} {j : Nat}

theorem given_take {receipt : Receipt G} {rest : List (Receipt G)}
    (hpending : w.pending j = receipt :: rest) (j' : Nat) :
    (w.take j receipt rest).given j' = w.given j' := by
  by_cases hj : j' = j
  · subst hj
    simp [World.given, World.take, hpending]
  · simp [World.given, World.take, hj]

theorem given_offer (receipt : Receipt G) (j' : Nat) :
    World.given { w with pending := Function.update w.pending j (w.pending j ++ [receipt]) } j' =
      if j' = j then w.given j ++ [receipt] else w.given j' := by
  by_cases hj : j' = j
  · subst hj
    simp [World.given]
  · simp [World.given, hj]

theorem given_drain (j' : Nat) : ((w.drain j).given j').Sublist (w.given j') := by
  by_cases hj : j' = j
  · subst hj
    simp only [World.given, World.drain, Function.update_self]
    exact (List.Sublist.refl _).append (List.tail_sublist _)
  · simp [World.given, World.drain, hj]

theorem room_update (hw : Inv w) {waiting : List (Receipt G)} (h : waiting.length ≤ 1) :
    ∀ j', (Function.update w.pending j waiting j').length ≤ 1 :=
  (Function.forall_update_iff w.pending fun _ waiting => waiting.length ≤ 1).mpr
    ⟨h, fun j' _ => hw.room j'⟩

/-- What is given to a registration can become less. -/
theorem inv_given (hw : Inv w) (hstate : w'.state = w.state) (hstop : w'.stop = w.stop)
    (hdone : w'.done = w.done) (hcancel : w'.cancel = w.cancel) (hworking : w'.working = w.working)
    (hregistrations : w'.registrations = w.registrations) (hreceived : w'.received = w.received)
    (hgiven : ∀ j, (w'.given j).Sublist (w.given j)) (hroom : ∀ j, (w'.pending j).length ≤ 1)
    (hcalled : ∀ j, (w'.calls j).Sublist (w'.taken j)) : Inv w' := by
  refine ⟨?_, ?_, ?_, ?_, ?_, ?_, hroom, ?_, ?_, hcalled⟩
  · rw [hstop, hstate, hw.stop]
  · rw [hdone, hstate, hw.done]
  · rw [Active, hstate, hcancel]
    exact hw.began
  · rw [hstate, hcancel]
    exact hw.fresh
  · rw [Active, hstate, hworking]
    exact hw.idle
  · rw [hworking]
    exact hw.sole
  · intro j
    exact (hw.queue j).sublist (hgiven j)
  · intro j x hx
    rw [hreceived, Subscribed, hregistrations]
    exact hw.genuine j x ((hgiven j).subset hx)

theorem inv_beginShutdown (hw : Inv w) : Inv w.beginShutdown := by
  have hstop := hw.stop
  have hdone := hw.done
  cases hstate : w.state with
  | new =>
    have hidle : w.working = [] := hw.idle (by simp [Active, hstate])
    simp only [World.beginShutdown, hstate]
    refine { hw with stop := ?_, done := ?_, began := ?_, fresh := nofun, idle := fun _ => hidle }
    · simp [hstop, hstate]
    · simp [hdone, hstate]
    · rintro (h | h) <;> cases h
  | running =>
    have hcancel : w.cancel = true := hw.began (.inl hstate)
    simp only [World.beginShutdown, hstate]
    refine { hw with stop := ?_, done := ?_, began := fun _ => hcancel, fresh := nofun, idle := ?_ }
    · simp [hstop, hstate]
    · simp [hdone, hstate]
    · exact fun h => absurd (.inr rfl) h
  | stopping | stopped =>
    simp only [World.beginShutdown, hstate]
    exact hw

/-- What others than its `Run` can do to a router that runs. -/
structure Aside (w w' : World G H E) : Prop where
  active : Active w'
  stopping : w.state = .stopping → w'.state = .stopping
  registrations : w'.registrations = w.registrations
  received : w'.received = w.received
  working : ∀ j ∈ w'.working, j ∈ w.working
  given : ∀ j, w'.given j = w.given j

theorem aside_beginShutdown (hactive : Active w) : Aside w w.beginShutdown := by
  rcases hactive with hrunning | hstopping
  · simp only [World.beginShutdown, hrunning]
    exact ⟨.inr rfl, fun _ => rfl, rfl, rfl, fun _ => id, fun _ => rfl⟩
  · simp only [World.beginShutdown, hstopping]
    exact ⟨.inr hstopping, fun _ => hstopping, rfl, rfl, fun _ => id, fun _ => rfl⟩

theorem not_new (hactive : Active w) : w.state ≠ .new := by
  intro hnew
  rcases hactive with h | h <;> cases hnew.symm.trans h

theorem atRun_aside {phase : RunPhase G} (h : Aside w w') (hat : AtRun w phase) :
    AtRun w' phase := by
  cases phase with
  | spawning next => exact fun j hj => hat j (h.working j hj)
  | offering receipt left =>
    obtain ⟨hlength, hreceived, hnodup, hleft⟩ := hat
    refine ⟨?_, ?_, hnodup, ?_⟩
    · rw [h.received]
      exact hlength
    · rw [h.received]
      exact hreceived
    · intro j hj
      rw [Subscribed, h.registrations, h.given j]
      exact hleft j hj
  | unsubscribing | draining | waiting => exact h.stopping hat
  | finishing =>
    refine ⟨h.stopping hat.1, List.eq_nil_iff_forall_not_mem.mpr fun j hj => ?_⟩
    have hmem := h.working j hj
    rw [hat.2] at hmem
    cases hmem
  | _ => trivial

/-- The state of a router only goes on, and its registrations change only while it is new. -/
structure Later (w w' : World G H E) : Prop where
  begun : w.state ≠ .new → w'.state ≠ .new ∧ w'.registrations = w.registrations
  stays : w.state = .stopped → w'.state = .stopped

theorem later_beginShutdown (w : World G H E) : Later w w.beginShutdown := by
  unfold World.beginShutdown
  split
  · rename_i hnew
    exact ⟨fun h => absurd hnew h, fun _ => rfl⟩
  · rename_i hrunning
    refine ⟨fun _ => ⟨nofun, rfl⟩, fun h => ?_⟩
    cases hrunning.symm.trans h
  · exact ⟨fun h => ⟨h, rfl⟩, id⟩
  · exact ⟨fun h => ⟨h, rfl⟩, id⟩

theorem cancel_le (w : World G H E) : count w .run ≤ 1 := Bool.toNat_le _

variable [DecidableEq G]

theorem inv_moves (hw : Inv w) (hat : At l w) (h : Moves w l n) : Inv n.world := by
  cases h with
  | quiet outside => exact { hw with }
  | register hnew =>
    refine { hw with genuine := ?_ }
    intro j x hx
    obtain ⟨hreceived, reg, hreg, hsig⟩ := hw.genuine j x hx
    refine ⟨hreceived, reg, ?_, hsig⟩
    rw [List.getElem?_append_left (List.getElem?_eq_some_iff.mp hreg).1, hreg]
  | start hnew =>
    have hstop := hw.stop
    have hdone := hw.done
    refine { hw with
      stop := ?_, done := ?_, began := fun _ => rfl, fresh := nofun
      idle := fun h => absurd (.inl rfl) h }
    · simp [hstop, hnew]
    · simp [hdone, hnew]
  | @spawn routes next =>
    obtain ⟨hactive, -, hnext⟩ := hat
    refine { hw with idle := fun h => absurd hactive h, sole := ?_ }
    rw [← List.concat_eq_append]
    exact hw.sole.concat fun hmem => Nat.lt_irrefl _ (hnext _ hmem)
  | receive =>
    refine { hw with genuine := ?_ }
    intro j x hx
    obtain ⟨hreceived, hsubscribed⟩ := hw.genuine j x hx
    refine ⟨?_, hsubscribed⟩
    rw [List.getElem?_append_left (List.getElem?_eq_some_iff.mp hreceived).1, hreceived]
  | @offer routes receipt j left hroom =>
    obtain ⟨-, -, -, hreceived, -, hleft⟩ := hat
    obtain ⟨hsubscribed, hlast⟩ := hleft j List.mem_cons_self
    refine { hw with room := ?_, queue := ?_, genuine := ?_ }
    · refine room_update hw ?_
      rw [List.length_append, List.length_singleton]
      omega
    · intro j'
      rw [given_offer]
      split_ifs
      · refine List.pairwise_append.mpr ⟨hw.queue j, List.pairwise_singleton _ _, ?_⟩
        intro x hx y hy
        rw [List.mem_singleton.mp hy]
        exact hlast x hx
      · exact hw.queue j'
    · intro j' x hx
      rw [given_offer] at hx
      split_ifs at hx with hj
      · subst hj
        rcases List.mem_append.mp hx with hold | hnew
        · exact hw.genuine j' x hold
        · rw [List.mem_singleton.mp hnew]
          exact ⟨hreceived, hsubscribed⟩
      · exact hw.genuine j' x hx
  | close | shutdown => exact inv_beginShutdown hw
  | @drain routes next =>
    refine inv_given hw rfl rfl rfl rfl rfl rfl rfl (fun j => given_drain j) ?_ hw.called
    exact room_update hw (Nat.le_trans (List.tail_sublist _).length_le (hw.room next))
  | finish =>
    obtain ⟨-, -, hstopping, hidle⟩ := hat
    have hstop := hw.stop
    have hdone := hw.done
    refine { hw with stop := ?_, done := ?_, began := ?_, fresh := nofun, idle := fun _ => hidle }
    · simp [World.finish, hstop, hstopping]
    · simp [World.finish, hdone, hstopping]
    · rintro (h | h) <;> cases h
  | @take j receipt rest hpending =>
    refine inv_given hw rfl rfl rfl rfl rfl rfl rfl
      (fun j' => by rw [given_take hpending]) ?_ ?_
    · refine room_update hw ?_
      have hroom := hw.room j
      rw [hpending] at hroom
      exact Nat.le_trans (Nat.le_succ _) hroom
    · refine (Function.forall_update_iff w.taken fun j' taken => (w.calls j').Sublist taken).mpr
        ⟨?_, fun j' _ => hw.called j'⟩
      exact (hw.called j).trans (List.sublist_append_left _ _)
  | @call j receipt =>
    obtain ⟨before, htaken, hcalls⟩ := hat
    refine { hw with called := ?_ }
    refine (Function.forall_update_iff w.calls fun j' calls => calls.Sublist (w.taken j')).mpr
      ⟨?_, fun j' _ => hw.called j'⟩
    rw [htaken]
    exact hcalls.append (List.Sublist.refl _)
  | leave =>
    refine { hw with idle := ?_, sole := hw.sole.erase _ }
    intro h
    rw [hw.idle h]
    rfl

theorem aside_moves (h : Moves w l n) (hl : l.proceeds = false) (hactive : Active w) :
    Aside w n.world := by
  have hsame : ∀ j, w.given j = w.given j := fun _ => rfl
  cases h with
  | quiet | call => exact ⟨hactive, id, rfl, rfl, fun _ => id, hsame⟩
  | register hnew | start hnew => exact absurd hnew (not_new hactive)
  | take hpending => exact ⟨hactive, id, rfl, rfl, fun _ => id, given_take hpending⟩
  | leave => exact ⟨hactive, id, rfl, rfl, fun _ => List.mem_of_mem_erase, hsame⟩
  | shutdown => exact aside_beginShutdown hactive
  | _ => cases hl

theorem later_moves (h : Moves w l n) : Later w n.world := by
  cases h with
  | register hnew | start hnew =>
    refine ⟨fun h => absurd hnew h, fun h => ?_⟩
    cases hnew.symm.trans h
  | close | shutdown => exact later_beginShutdown w
  | finish => exact ⟨fun _ => ⟨nofun, rfl⟩, fun _ => rfl⟩
  | _ => exact ⟨fun h => ⟨h, rfl⟩, id⟩

/-- Only its worker adds to what a registration has taken and to the calls of its handler. -/
theorem history_moves (h : Moves w l n) (hj : l.works ≠ some j) :
    n.world.taken j = w.taken j ∧ n.world.calls j = w.calls j := by
  cases h with
  | close | shutdown =>
    unfold World.beginShutdown
    split <;> exact ⟨rfl, rfl⟩
  | @take j' =>
    have hne : j ≠ j' := fun heq => hj (heq ▸ rfl)
    exact ⟨Function.update_of_ne hne _ _, rfl⟩
  | @call j' =>
    have hne : j ≠ j' := fun heq => hj (heq ▸ rfl)
    exact ⟨rfl, Function.update_of_ne hne _ _⟩
  | _ => exact ⟨rfl, rfl⟩

theorem others_moves (hw : Inv w) (h : Moves w l n)
    (hboth : ∀ k, weight l k + weight m k ≤ count w k) (hm : At m w) : At m n.world := by
  have hlater := later_moves h
  -- one call of `Run` at most goes on
  have halone : m.proceeds = true → l.proceeds = false := by
    intro hproceeds
    have hrun := Nat.le_trans (hboth .run) (cancel_le w)
    simp only [weight, hproceeds, Bool.toNat_true] at hrun
    cases hl : l.proceeds with
    | false => rfl
    | true => simp [hl] at hrun
  cases m with
  | starting =>
    have haside := aside_moves h (halone rfl) hm.1
    refine ⟨haside.active, List.eq_nil_iff_forall_not_mem.mpr fun j hj => ?_⟩
    have hmem := haside.working j hj
    rw [hm.2] at hmem
    cases hmem
  | runner routes phase =>
    obtain ⟨hactive, hroutes, hphase⟩ := hm
    have haside := aside_moves h (halone rfl) hactive
    refine ⟨haside.active, ?_, atRun_aside haside hphase⟩
    rw [World.routes, haside.registrations]
    exact hroutes
  | canceling | ran => exact hlater.stays hm
  | worker j phase =>
    -- and one worker of each registration
    have hother : Local.works (.worker j phase : Local G H E) = some j → l.works ≠ some j := by
      intro hm' hl
      have hworker := hboth (.worker j)
      rw [weight_worker hl, weight_worker hm'] at hworker
      have hone : count w (.worker j) ≤ 1 := List.nodup_iff_count_le_one.mp hw.sole j
      omega
    cases phase with
    | admitting receipt =>
      obtain ⟨before, htaken, hcalls⟩ := hm
      obtain ⟨htaken', hcalls'⟩ := history_moves h (hother rfl)
      refine ⟨before, htaken'.trans htaken, ?_⟩
      rw [hcalls']
      exact hcalls
    | handling receipt =>
      obtain ⟨-, hcalls'⟩ := history_moves h (hother rfl)
      show (n.world.calls j).getLast? = some receipt
      rw [hcalls']
      exact hm
    | selecting | leaving | gone => trivial
  | stopper phase =>
    cases phase with
    | beginning => trivial
    | _ => exact (hlater.begun hm).1
  | _ => trivial

theorem own_moves (hw : Inv w) (hat : At l w) (h : Moves w l n) : At n.state n.world := by
  cases h with
  | quiet outside _ _ hnext => exact hnext hw hat
  | register => trivial
  | start hnew => exact ⟨.inl rfl, hw.idle fun hactive => not_new hactive hnew⟩
  | @spawn routes next =>
    obtain ⟨hactive, hroutes, hnext⟩ := hat
    refine ⟨hactive, hroutes, ?_⟩
    exact List.forall_mem_append.mpr
      ⟨fun j hold => Nat.lt_succ_of_lt (hnext j hold),
        List.forall_mem_singleton.mpr (Nat.lt_succ_self next)⟩
  | @receive routes sig outside =>
    obtain ⟨hactive, hroutes, -⟩ := hat
    subst hroutes
    refine ⟨hactive, rfl, ?_, ?_, nodup_routes w sig, ?_⟩
    · simp
    · simp
    · intro j hj
      refine ⟨subscribed_of_routes hj, fun x hx => ?_⟩
      obtain ⟨hreceived, -⟩ := hw.genuine j x hx
      exact (List.getElem?_eq_some_iff.mp hreceived).1
  | @offer routes receipt j left hroom =>
    obtain ⟨hactive, hroutes, hlength, hreceived, hnodup, hleft⟩ := hat
    obtain ⟨hj, hrest⟩ := List.nodup_cons.mp hnodup
    refine ⟨hactive, hroutes, hlength, hreceived, hrest, ?_⟩
    intro j' hj'
    have hne : j' ≠ j := fun heq => hj (heq ▸ hj')
    obtain ⟨hsubscribed, hlast⟩ := hleft j' (List.mem_cons_of_mem _ hj')
    refine ⟨hsubscribed, ?_⟩
    rw [given_offer, if_neg hne]
    exact hlast
  | close =>
    obtain ⟨hactive, hroutes, -⟩ := hat
    have haside := aside_beginShutdown hactive
    refine ⟨haside.active, ?_, ?_⟩
    · rw [World.routes, haside.registrations]
      exact hroutes
    · rcases hactive with hrunning | hstopping
      · simp [AtRun, World.beginShutdown, hrunning]
      · exact haside.stopping hstopping
  | drain => exact hat
  | finish => rfl
  | @take j receipt rest hpending =>
    refine ⟨w.taken j, ?_, hw.called j⟩
    simp only [World.take, Function.update_self]
  | @call j receipt =>
    show (Function.update w.calls j (w.calls j ++ [receipt]) j).getLast? = some receipt
    rw [Function.update_self, List.getLast?_concat]
  | leave => trivial
  | shutdown =>
    show w.beginShutdown.state ≠ .new
    cases hstate : w.state with
    | _ => simp [World.beginShutdown, hstate]

theorem counts_moves (hw : Inv w) (hcount : ∀ k, weight l k ≤ count w k) (h : Moves w l n)
    (k : Counter) :
    count n.world k + weight l k =
      count w k + weight n.state k + System.total (weight · k) n.started.toList := by
  cases h with
  | quiet outside hproceeds hworks =>
    cases k with
    | run => simp [count, weight, hproceeds, System.total]
    | worker j => simp [count, weight, hworks, System.total]
  | start hnew =>
    cases k with
    | run => simp [count, weight, Local.proceeds, hw.fresh hnew, System.total]
    | worker j => rfl
  | spawn =>
    cases k with
    | run => rfl
    | worker j =>
      simp only [count, weight, Local.works, List.count_append, List.count_singleton, System.total,
        Option.toList_some, reduceCtorEq, if_false, Option.some.injEq, beq_iff_eq, Nat.add_zero]
  | close | shutdown =>
    unfold World.beginShutdown
    cases k with
    | run | worker j => split <;> rfl
  | @leave j =>
    cases k with
    | run => rfl
    | worker j' =>
      by_cases hj : j' = j
      · subst hj
        have hone := hcount (.worker j')
        rw [weight_worker rfl] at hone ⊢
        simp only [count, weight, Local.works, List.count_erase_self, System.total,
          Option.toList_none, reduceCtorEq, if_false] at hone ⊢
        omega
      · simp [count, weight, Local.works, List.count_erase_of_ne hj, Ne.symm hj, System.total]
  | _ =>
    cases k with
    | run | worker => rfl

/-- The proof outline of a router. -/
def outline (G H E : Type) [DecidableEq G] : (router (G := G) (H := H) (E := E)).Outline where
  Inv := Inv
  At _ := At
  Unused _ _ := True
  Counter := Counter
  weight k l := weight l k
  count k w := count w k
  enter call _ _ := by
    cases call with
    | register | run | shutdown => trivial
  enter_weight k call _ := by
    cases call with
    | register | run | shutdown =>
      cases k with
      | run | worker => rfl
  own h hw hat _ := ⟨inv_moves hw hat (step_moves h), own_moves hw hat (step_moves h)⟩
  others h hw _ hboth _ hm := others_moves hw (step_moves h) hboth hm
  unused _ _ _ _ _ _ := trivial
  starts h hw hat _ _ _ hm := by
    have hmoves := step_moves h
    cases hmoves with
    | spawn =>
      cases hm
      trivial
    | _ => cases hm
  counts h hw _ hcount k := counts_moves hw hcount (step_moves h) k
  shift_inv e _ hw := { hw with }
  shift_at e w i l _ hat := by
    cases l with
    | worker j phase | stopper phase =>
      cases phase with
      | _ => exact hat
    | runner routes phase =>
      obtain ⟨hactive, hroutes, hphase⟩ := hat
      refine ⟨hactive, hroutes, ?_⟩
      cases phase <;> exact hphase
    | _ => exact hat
  shift_unused _ _ _ _ := trivial
  shift_count e w k := by
    cases k with
    | run | worker => rfl

theorem newRouter_holds (G H E : Type) [DecidableEq G] :
    (outline G H E).Holds (newRouter G H E) := by
  refine ⟨?_, fun _ _ hl => absurd hl (by simp [newRouter]), fun _ _ => trivial, ?_⟩
  · refine ⟨rfl, rfl, ?_, fun _ => rfl, fun _ => rfl, List.nodup_nil, fun _ => Nat.zero_le _,
      fun _ => List.Pairwise.nil, fun _ _ hx => absurd hx List.not_mem_nil,
      fun _ => List.Sublist.refl _⟩
    rintro (h | h) <;> cases h
  · intro k
    cases k with
    | run | worker => rfl

end Fries.Signal
