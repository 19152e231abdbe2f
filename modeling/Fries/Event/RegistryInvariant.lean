import Fries.Event.RegistryLists
import Fries.Event.Invariant
import Mathlib.Data.List.Flatten

/-! The proof outline of a dispatcher: its lists, its changes and what was copied. -/
namespace Fries.Event.Registry

variable {T H E : Type} {middleware : H → Option H}
  {errorsIs : Error E → Error E → Bool} {w w' : World T H} {s : Subscription T} {t : T} {k : Nat}
  {active : Bool} {life old : Life} {l l' : Local T H E} {d : Dispatching T E}

/-- A call has this subscription in its hands, or has removed it. -/
def Life.owned : Life → Bool
  | .storing | .claimed | .removed => true
  | .vacant | .live => false

def holding (k : Nat) (life : Life) : Option (Nat × Life) :=
  if life.owned then some (k, life) else none

def Local.holds : Local T H E → Option (Nat × Life)
  | .storing k => some (k, .storing)
  | .removing k => some (k, .claimed)
  | .unsubscribed k true => some (k, .removed)
  | _ => none

def tally (c : Nat × Life) (holds : Option (Nat × Life)) : Nat := if holds = some c then 1 else 0

def count (c : Nat × Life) (w : World T H) : Nat :=
  tally c ((w.life c.1).bind (holding c.1))

theorem tally_of_ne {c : Nat × Life} (hk : c.1 ≠ k) : tally c (holding k life) = 0 := by
  refine if_neg fun heq => ?_
  unfold holding at heq
  split_ifs at heq
  exact hk (congrArg Prod.fst (Option.some.inj heq)).symm

theorem life_of_holds (hcount : tally (k, life) (some (k, life)) ≤ count (k, life) w) :
    ∃ s, w.subscriptions[k]? = some s ∧ s.life = life := by
  have hsome : (w.life k).bind (holding k) = some (k, life) := by
    by_contra hne
    simp [count, tally, hne] at hcount
  obtain ⟨life', hlife', hholding⟩ := Option.bind_eq_some_iff.mp hsome
  obtain ⟨s, hs, rfl⟩ := Option.map_eq_some_iff.mp hlife'
  refine ⟨s, hs, ?_⟩
  unfold holding at hholding
  split_ifs at hholding
  exact congrArg Prod.snd (Option.some.inj hholding)

theorem count_set (h : w.subscriptions[k]? = some s) (active : Bool) (life : Life)
    (c : Nat × Life) :
    count c (w.setSubscription k active life) + tally c (holding k s.life) =
      count c w + tally c (holding k life) := by
  by_cases hk : c.1 = k
  · have hnew : (w.setSubscription k active life).life k = some life := by
      simp [World.life, World.setSubscription, h]
    have hold : w.life k = some s.life := by simp [World.life, h]
    simp only [count, hk, hnew, hold, Option.bind_some]
    omega
  · have hsame : (w.setSubscription k active life).life c.1 = w.life c.1 := by
      simp only [World.life, World.setSubscription]
      rw [List.getElem?_modify_ne _ _ (Ne.symm hk)]
    rw [tally_of_ne hk, tally_of_ne hk]
    simp only [count, hsame]

theorem count_subscribe (c : Nat × Life) :
    count c (w.subscribe s) = count c w + tally c (holding w.subscriptions.length s.life) := by
  simp only [count, World.life, World.subscribe]
  by_cases hk : c.1 = w.subscriptions.length
  · rw [hk]
    simp [tally]
  · have hsame : (w.subscriptions ++ [s])[c.1]? = w.subscriptions[c.1]? := by
      rcases Nat.lt_or_ge c.1 w.subscriptions.length with hlt | hge
      · exact List.getElem?_append_left hlt
      · rw [List.getElem?_eq_none hge, List.getElem?_eq_none]
        simp only [List.length_append, List.length_singleton]
        omega
    rw [tally_of_ne hk, hsame, Nat.add_zero]

theorem registrations_eq (h : w.subscriptions[k]? = some s) :
    w.registrations k = s.registrations := by
  simp [World.registrations, h]

theorem count_congr (hsubs : w'.subscriptions = w.subscriptions) (c : Nat × Life) :
    count c w' = count c w := by
  simp only [count, World.life, hsubs]

/-- A subscription with those before and after it, which stay when it changes. -/
theorem subscriptions_split (h : w.subscriptions[k]? = some s) : ∃ before after,
    w.subscriptions = before ++ s :: after ∧ ∀ active life,
      (w.setSubscription k active life).subscriptions =
        before ++ { s with active := active, life := life } :: after := by
  obtain ⟨hlt, rfl⟩ := List.getElem?_eq_some_iff.mp h
  refine ⟨w.subscriptions.take k, w.subscriptions.drop (k + 1), ?_, ?_⟩
  · rw [← List.drop_eq_getElem_cons hlt, List.take_append_drop]
  · intro active life
    exact List.modify_eq_take_cons_drop hlt

/-- What is taken out of the middle of a list without repetitions. -/
theorem diff_middle {before own after : List Nat} (h : (before ++ (own ++ after)).Nodup) :
    (before ++ (own ++ after)).diff own = before ++ after := by
  obtain ⟨-, hrest, hbefore⟩ := List.nodup_append.mp h
  obtain ⟨-, -, hafter⟩ := List.nodup_append.mp hrest
  rw [h.sdiff_eq_filter, List.filter_append, List.filter_append]
  have hkept : before.filter (· ∉ own) = before := by
    refine List.filter_eq_self.mpr fun a ha => decide_eq_true fun hown => ?_
    exact hbefore a ha a (List.mem_append_left _ hown) rfl
  have hgone : own.filter (· ∉ own) = [] := by
    refine List.filter_eq_nil_iff.mpr fun a ha => ?_
    simpa using ha
  have hlast : after.filter (· ∉ own) = after := by
    refine List.filter_eq_self.mpr fun a ha => decide_eq_true fun hown => ?_
    exact hafter a hown a ha rfl
  rw [hkept, hgone, hlast, List.nil_append]

/-- What a dispatch has copied, and that it has called handlers of its copy. -/
structure Snapshot (errorsIs : Error E → Error E → Bool) (d : Dispatching T E) (w : World T H) :
    Prop where
  copied : Copied w d.entries d.taken
  nodup : d.taken.Nodup
  reached : ∃ actions, d.crew =
    (dispatch errorsIs d.entries.len (newDispatchConfig d.call.options)).run
      (initial E false false d.entries.len) actions
  called : d.called = d.crew.world.calls.map (d.taken[·]?)

/-- Handlers that were called stay called, in the same order. -/
theorem calls_grow {entries : Nat} {c : DispatchConfig}
    {crew : Crew (Event.World E) (Event.Local E)}
    (h : (outline errorsIs entries c).Holds crew)
    (action : Action (Event.Label E) (Event.Change E) Empty) :
    crew.world.calls <+: ((dispatch errorsIs entries c).next crew action).world.calls := by
  rcases System.Outline.world_next h action with
    hsame | ⟨i, l, label, n, hn, hat, -, hworld⟩ | ⟨e, hworld⟩
  · rw [hsame]
  · rw [hworld]
    have hmoves := step_moves h.inv hat.2 hn
    cases hmoves with
    | serialCall | call => exact List.prefix_append ..
    | _ => exact List.prefix_refl _
  · rw [hworld]
    cases e <;> exact List.prefix_refl _

theorem Snapshot.next (h : Snapshot errorsIs d w)
    (action : Action (Event.Label E) (Event.Change E) Empty) :
    Snapshot errorsIs (d.next errorsIs w.memory action) w := by
  obtain ⟨actions, hreached⟩ := h.reached
  refine ⟨h.copied, h.nodup, ⟨actions ++ [action], ?_⟩, ?_⟩
  · show System.next _ d.crew action = _
    rw [hreached]
    exact (System.run_append _ _ actions [action]).symm
  · have hholds := System.Outline.holds_run
      (holds_initial errorsIs d.entries.len (newDispatchConfig d.call.options)) actions
    rw [← hreached] at hholds
    obtain ⟨new, hnew⟩ := calls_grow hholds action
    simp only [Dispatching.next, h.called, ← hnew, List.drop_left, List.map_append,
      h.copied.holds.read_eq]
    refine congrArg _ (List.map_congr_left fun i _ => ?_)
    rw [List.getElem?_map]
    cases d.taken[i]? <;> rfl

theorem length_newEntries {listeners : List (Option (Definition T H))}
    {entries : List (Definition T H)} (h : newEntries middleware listeners = some entries) :
    entries.length = listeners.length := by
  induction listeners generalizing entries with
  | nil =>
    cases h
    rfl
  | cons listener listeners ih =>
    rw [newEntries, List.mapM_cons] at h
    obtain ⟨entry, -, hmore⟩ := Option.bind_eq_some_iff.mp h
    obtain ⟨rest, hrest, hcons⟩ := Option.bind_eq_some_iff.mp hmore
    cases hcons
    exact congrArg (· + 1) (ih hrest)

variable [DecidableEq T]

structure Inv (w : World T H) : Prop where
  listed : Listed w w.live
  numbered : (w.subscriptions.flatMap Subscription.registrations).map Registration.entry =
    List.range w.entries.length
  active : ∀ s ∈ w.subscriptions, s.active = true ↔ s.life = .live
  owns : ∀ s ∈ w.subscriptions, s.life = .vacant ∨ s.registrations ≠ []

theorem live_subscribe (hlife : s.life ≠ .removed) :
    (w.subscribe s).live t = w.live t ++ entriesOf s.registrations t := by
  simp [World.live, World.subscribe, hlife]

theorem live_set (h : w.subscriptions[k]? = some s) (hold : s.life ≠ .removed)
    (hnew : life ≠ .removed) : (w.setSubscription k active life).live t = w.live t := by
  obtain ⟨before, after, hsplit, hset⟩ := subscriptions_split h
  simp only [World.live, hset, hsplit, List.flatMap_append, List.flatMap_cons, if_neg hold,
    if_neg hnew]

theorem live_sublist (w : World T H) (t : T) :
    (w.live t).Sublist
      ((w.subscriptions.flatMap Subscription.registrations).map Registration.entry) := by
  rw [List.map_flatMap]
  refine List.Sublist.flatMap_right _ fun s _ => ?_
  split_ifs
  · exact List.nil_sublist _
  · exact List.filter_sublist.map _

theorem Inv.nodup_live (hw : Inv w) (t : T) : (w.live t).Nodup := by
  refine (live_sublist w t).nodup ?_
  rw [hw.numbered]
  exact List.nodup_range

/-- A removed subscription takes its own entries with it and no others. -/
theorem live_remove (hw : Inv w) (h : w.subscriptions[k]? = some s) (hold : s.life ≠ .removed)
    (active : Bool) (t : T) : (w.setSubscription k active .removed).live t =
      (w.live t).diff (entriesOf s.registrations t) := by
  have hnodup := hw.nodup_live t
  obtain ⟨before, after, hsplit, hset⟩ := subscriptions_split h
  simp only [World.live, hset, hsplit, List.flatMap_append, List.flatMap_cons, if_neg hold,
    if_true, List.nil_append] at hnodup ⊢
  exact (diff_middle hnodup).symm

theorem entries_live (h : w.subscriptions[k]? = some s) (hold : s.life ≠ .removed)
    {r : Registration T} (hr : r ∈ s.registrations) : r.entry ∈ w.live r.typeOf := by
  refine List.mem_flatMap.mpr ⟨s, List.mem_of_getElem? h, ?_⟩
  rw [if_neg hold]
  exact List.mem_map.mpr ⟨r, List.mem_filter.mpr ⟨hr, decide_eq_true rfl⟩, rfl⟩

/-- A change of a subscription keeps the invariant if it accounts for the lists and the flag. -/
theorem inv_set (hw : Inv w) (h : w.subscriptions[k]? = some s) (hlife : s.life ≠ .vacant)
    (hactive : active = true ↔ life = .live) (hsubs : w'.subscriptions = w.subscriptions)
    (hentries : w'.entries = w.entries)
    (hlisted : Listed w' (w'.setSubscription k active life).live) :
    Inv (w'.setSubscription k active life) := by
  obtain ⟨before, after, hsplit, hset⟩ := subscriptions_split (w := w') (hsubs ▸ h)
  rw [hsubs] at hsplit
  have hmem : ∀ s' ∈ (w'.setSubscription k active life).subscriptions,
      s' ∈ w.subscriptions ∨ s' = { s with active := active, life := life } := by
    intro s' hs'
    rw [hset] at hs'
    rw [hsplit]
    simp only [List.mem_append, List.mem_cons] at hs' ⊢
    tauto
  refine ⟨⟨hlisted.holds, hlisted.apart⟩, ?_, ?_, ?_⟩
  · have hnumbered := hw.numbered
    rw [hsplit] at hnumbered
    rw [hset]
    simp only [List.flatMap_append, List.flatMap_cons] at hnumbered ⊢
    exact hnumbered.trans (by rw [← hentries]; rfl)
  · intro s' hs'
    rcases hmem s' hs' with hold | rfl
    · exact hw.active s' hold
    · exact hactive
  · intro s' hs'
    rcases hmem s' hs' with hold | rfl
    · exact hw.owns s' hold
    · exact .inr ((hw.owns s (List.mem_of_getElem? h)).resolve_left hlife)

theorem inv_subscribe (hw : Inv w) (hlife : s.life ≠ .removed)
    (hactive : s.active = true ↔ s.life = .live) (howns : s.life = .vacant ∨ s.registrations ≠ [])
    (hsubs : w'.subscriptions = w.subscriptions)
    (hnumbers : List.range w.entries.length ++ s.registrations.map Registration.entry =
      List.range w'.entries.length)
    (hlisted : Listed w' fun t => w.live t ++ entriesOf s.registrations t) :
    Inv (w'.subscribe s) := by
  have hlive : ∀ t, w.live t ++ entriesOf s.registrations t = (w'.subscribe s).live t := by
    intro t
    rw [live_subscribe hlife]
    simp only [World.live, hsubs]
  have hmem : ∀ s' ∈ (w'.subscribe s).subscriptions, s' ∈ w.subscriptions ∨ s' = s := by
    intro s' hs'
    rw [← hsubs]
    simpa [World.subscribe] using hs'
  refine ⟨⟨(hlisted.congr hlive).holds, hlisted.apart⟩, ?_, ?_, ?_⟩
  · simp only [World.subscribe, hsubs, List.flatMap_append, List.map_append, hw.numbered]
    simpa using hnumbers
  · intro s' hs'
    rcases hmem s' hs' with hold | rfl
    · exact hw.active s' hold
    · exact hactive
  · intro s' hs'
    rcases hmem s' hs' with hold | rfl
    · exact hw.owns s' hold
    · exact howns

theorem taken_snapshot (hw : Inv w) (call : DispatchCall T) (spare : Nat) :
    (snapshot (E := E) call spare w).2.taken = w.live call.typeOf := by
  have hholds : Slice.Holds (Slice.clone w.memory (w.slice call.typeOf) spare).1 _ _ :=
    Slice.holds_clone (hw.listed.holds call.typeOf)
  simp [snapshot, hholds.read_eq, List.filterMap_map]

theorem snapshot_copied (hw : Inv w) (call : DispatchCall T) (spare : Nat) :
    Snapshot errorsIs (snapshot call spare w).2 (snapshot (E := E) call spare w).1 := by
  have htaken := taken_snapshot (E := E) hw call spare
  refine ⟨⟨?_, ?_⟩, ?_, ⟨[], rfl⟩, rfl⟩
  · rw [htaken]
    exact Slice.holds_clone (hw.listed.holds call.typeOf)
  · intro t a ha hat
    have hlt := (hw.listed.holds t).array_lt ha
    have hge := Slice.clone_since w.memory (w.slice call.typeOf) spare a hat
    omega
  · rw [htaken]
    exact hw.nodup_live call.typeOf

/-- What a step does. -/
inductive Moves (middleware : H → Option H) (errorsIs : Error E → Error E → Bool) (w : World T H) :
    Local T H E → Local T H E → World T H → Prop
  | stay {l l' : Local T H E} (hl : l.holds = none) (hl' : l'.holds = none)
      (hidle : ∀ d, l' ≠ .running d) : Moves middleware errorsIs w l l' w
  | vacant {listeners : List (Option (Definition T H))} :
    Moves middleware errorsIs w (.subscribing listeners) (.subscribed w.subscriptions.length)
      (w.subscribe ⟨[], false, .vacant⟩)
  | register {listeners : List (Option (Definition T H))} {entries : List (Definition T H)}
      {spare : Nat → Nat} (hentries : newEntries middleware listeners = some entries)
      (hne : entries ≠ []) :
    Moves middleware errorsIs w (.subscribing listeners) (.storing w.subscriptions.length)
      ((World.addAll spare entries w []).1.subscribe
        ⟨(World.addAll spare entries w []).2, false, .storing⟩)
  | store {k : Nat} :
    Moves middleware errorsIs w (.storing k) (.subscribed k) (w.setSubscription k true .live)
  | claim {k : Nat} (hactive : w.active k = true) :
    Moves middleware errorsIs w (.unsubscribing k) (.removing k)
      (w.setSubscription k false .claimed)
  | remove {k : Nat} :
    Moves middleware errorsIs w (.removing k)
      (.unsubscribed k (World.removeAll (w.registrations k) w false).2)
      ((World.removeAll (w.registrations k) w false).1.setSubscription k false .removed)
  | take {call : DispatchCall T} {spare : Nat} :
    Moves middleware errorsIs w (.dispatching call none)
      (.running ((snapshot call spare w).2.next errorsIs (snapshot (E := E) call spare w).1.memory
        (.run 0 .step))) (snapshot (E := E) call spare w).1
  | inner {d : Dispatching T E} (action : Action (Event.Label E) (Event.Change E) Empty) :
    Moves middleware errorsIs w (.running d) (.running (d.next errorsIs w.memory action)) w

theorem subscribeStep_moves (listeners : List (Option (Definition T H))) (spare : Nat → Nat) :
    Moves middleware errorsIs w (.subscribing listeners)
      (subscribeStep (E := E) middleware listeners spare w).state
      (subscribeStep (E := E) middleware listeners spare w).world ∧
    (subscribeStep (E := E) middleware listeners spare w).started = none := by
  unfold subscribeStep
  split
  · exact ⟨.vacant, rfl⟩
  · rename_i hlen
    split
    · exact ⟨.stay rfl rfl nofun, rfl⟩
    · rename_i entries hentries
      refine ⟨.register hentries ?_, rfl⟩
      rintro rfl
      exact hlen (length_newEntries hentries).symm

theorem dispatchStep_moves (call : DispatchCall T) (cause : Option (Error E)) (spare : Nat) :
    Moves middleware errorsIs w (.dispatching call cause)
      (dispatchStep errorsIs call cause spare w).state
      (dispatchStep errorsIs call cause spare w).world ∧
    (dispatchStep errorsIs call cause spare w).started = none := by
  unfold dispatchStep
  split
  · exact ⟨.stay rfl rfl nofun, rfl⟩
  split
  · exact ⟨.stay rfl rfl nofun, rfl⟩
  split
  · exact ⟨.stay rfl rfl nofun, rfl⟩
  · exact ⟨.take, rfl⟩

theorem step_moves {label : Label E} {n : Progress (World T H) (Local T H E)}
    (h : step middleware errorsIs label l w = some n) :
    Moves middleware errorsIs w l n.state n.world ∧ n.started = none := by
  unfold step at h
  split at h
  · cases h
    exact subscribeStep_moves ..
  · cases h
    exact ⟨.store, rfl⟩
  · split at h <;> cases h
    · rename_i hactive
      exact ⟨.claim hactive, rfl⟩
    · exact ⟨.stay rfl rfl nofun, rfl⟩
  · cases h
    exact ⟨.remove, rfl⟩
  · cases h
    exact dispatchStep_moves ..
  · cases h
    exact ⟨.stay rfl rfl nofun, rfl⟩
  · cases h
    exact ⟨.inner _, rfl⟩
  · cases h

theorem life_of_active (hw : Inv w) (hactive : w.active k = true) :
    ∃ s, w.subscriptions[k]? = some s ∧ s.life = .live := by
  cases hs : w.subscriptions[k]? with
  | none => simp [World.active, hs] at hactive
  | some s =>
    have hs' : s.active = true := by simpa [World.active, hs] using hactive
    exact ⟨s, rfl, (hw.active s (List.mem_of_getElem? hs)).mp hs'⟩

/-- An `Unsubscribe` that has claimed its subscription finds an entry to remove. -/
theorem removeAll_claimed (hw : Inv w) (hs : w.subscriptions[k]? = some s)
    (hlife : s.life = .claimed) : (World.removeAll (w.registrations k) w false).2 = true := by
  have howns : s.registrations ≠ [] :=
    (hw.owns s (List.mem_of_getElem? hs)).resolve_left (by simp [hlife])
  rw [registrations_eq hs]
  obtain ⟨r, rest, hcons⟩ := List.exists_cons_of_ne_nil howns
  have hlive : r.entry ∈ w.live r.typeOf :=
    entries_live hs (by simp [hlife]) (by simp [hcons])
  rw [hcons]
  exact removeAll_found hw.listed hlive

theorem live_removeAll (hw : Inv w) (hs : w.subscriptions[k]? = some s) (hlife : s.life ≠ .removed)
    (t : T) :
    ((World.removeAll (w.registrations k) w false).1.setSubscription k false .removed).live t =
      (w.live t).diff (entriesOf (w.registrations k) t) := by
  rw [registrations_eq hs, ← live_remove hw hs hlife false]
  simp only [World.live, World.setSubscription, removeAll_same.2]

theorem inv_moves (hw : Inv w) (hcount : ∀ c, tally c l.holds ≤ count c w)
    (h : Moves middleware errorsIs w l l' w') : Inv w' := by
  cases h with
  | stay | inner => exact hw
  | vacant =>
    refine inv_subscribe hw nofun (by simp) (.inl rfl) rfl (by simp) ?_
    exact hw.listed.congr fun t => (List.append_nil _).symm
  | @register listeners entries spare hentries hne =>
    have hregistrations : (World.addAll spare entries w []).2 =
        registrationsOf entries w.entries.length := addAll_registrations
    refine inv_subscribe hw nofun (by simp) (.inr ?_) addAll_same.2 ?_ ?_
    · rw [hregistrations]
      obtain ⟨entry, rest, rfl⟩ := List.exists_cons_of_ne_nil hne
      exact List.cons_ne_nil _ _
    · rw [hregistrations, map_registrationsOf, addAll_same.1, List.length_append,
        List.range_eq_range', List.range_eq_range', ← List.range'_append_1, Nat.zero_add]
    · rw [hregistrations]
      exact listed_addAll hw.listed
  | @store k =>
    obtain ⟨s, hs, hlife⟩ := life_of_holds (hcount (k, .storing))
    have hlive : ∀ t, (w.setSubscription k true .live).live t = w.live t :=
      fun t => live_set hs (by simp [hlife]) (by decide)
    exact inv_set hw hs (by simp [hlife]) (by simp) rfl rfl
      (hw.listed.congr fun t => (hlive t).symm)
  | @claim k hactive =>
    obtain ⟨s, hs, hlife⟩ := life_of_active hw hactive
    have hlive : ∀ t, (w.setSubscription k false .claimed).live t = w.live t :=
      fun t => live_set hs (by simp [hlife]) (by decide)
    exact inv_set hw hs (by simp [hlife]) (by simp) rfl rfl
      (hw.listed.congr fun t => (hlive t).symm)
  | @remove k =>
    obtain ⟨s, hs, hlife⟩ := life_of_holds (hcount (k, .claimed))
    have hlive := live_removeAll hw hs (by simp [hlife])
    exact inv_set hw hs (by simp [hlife]) (by simp) removeAll_same.2 removeAll_same.1
      ((listed_removeAll hw.listed).congr fun t => (hlive t).symm)
  | @take call spare =>
    have hlisted : Listed (snapshot (E := E) call spare w).1 w.live :=
      hw.listed.grows (Slice.clone_grows ..) rfl
    exact { hw with listed := hlisted }

theorem copied_moves {slice : Slice} {taken : List Nat} (h : Moves middleware errorsIs w l l' w')
    (hcopied : Copied w slice taken) : Copied w' slice taken := by
  cases h with
  | stay | inner => exact hcopied
  | vacant | store | claim => exact hcopied.grows (List.prefix_refl _) rfl
  | register => exact hcopied.addAll.grows (List.prefix_refl _) rfl
  | remove => exact hcopied.removeAll.grows (List.prefix_refl _) rfl
  | take => exact hcopied.grows (Slice.clone_grows ..) rfl

theorem own_moves (hw : Inv w) (h : Moves middleware errorsIs w l l' w')
    (hat : ∀ d, l = .running d → Snapshot errorsIs d w) :
    ∀ d, l' = .running d → Snapshot errorsIs d w' := by
  intro d hd
  cases h with
  | stay _ _ hidle => exact absurd hd (hidle d)
  | take =>
    cases hd
    exact (snapshot_copied hw _ _).next _
  | inner action =>
    cases hd
    exact (hat _ rfl).next action
  | _ => cases hd

theorem counts_moves (hw : Inv w) (hcount : ∀ c, tally c l.holds ≤ count c w)
    (h : Moves middleware errorsIs w l l' w') (c : Nat × Life) :
    count c w' + tally c l.holds = count c w + tally c l'.holds := by
  cases h with
  | stay hl hl' => rw [hl, hl']
  | inner => rfl
  | vacant =>
    rw [count_subscribe]
    rfl
  | register =>
    rw [count_subscribe, count_congr addAll_same.2, addAll_same.2]
    rfl
  | @store k =>
    obtain ⟨s, hs, hlife⟩ := life_of_holds (hcount (k, .storing))
    have hset := count_set hs true .live c
    rw [hlife] at hset
    exact hset
  | @claim k hactive =>
    obtain ⟨s, hs, hlife⟩ := life_of_active hw hactive
    have hset := count_set hs false .claimed c
    rw [hlife] at hset
    exact hset
  | @remove k =>
    obtain ⟨s, hs, hlife⟩ := life_of_holds (hcount (k, .claimed))
    rw [removeAll_claimed hw hs hlife]
    have hs' : (World.removeAll (w.registrations k) w false).1.subscriptions[k]? = some s := by
      rw [removeAll_same.2]
      exact hs
    have hset := count_set hs' false .removed c
    rw [hlife, count_congr (w := w) removeAll_same.2] at hset
    exact hset
  | take => rfl

/-- The proof outline of a dispatcher. -/
def outline (middleware : H → Option H) (errorsIs : Error E → Error E → Bool) :
    (registry (T := T) middleware errorsIs).Outline where
  Inv := Inv
  At _ l w := ∀ d, l = .running d → Snapshot errorsIs d w
  Unused _ _ := True
  Counter := Nat × Life
  weight c l := tally c l.holds
  count := count
  enter call _ _ d hd := by cases call <;> cases hd
  enter_weight c call _ := by cases call <;> rfl
  own h hw hat hcount :=
    ⟨inv_moves hw hcount (step_moves h).1, own_moves hw (step_moves h).1 hat⟩
  others h _ _ _ _ hm d hd :=
    { hm d hd with copied := copied_moves (step_moves h).1 (hm d hd).copied }
  unused _ _ _ _ _ _ := trivial
  starts h _ _ _ _ _ hm := by
    rw [(step_moves h).2] at hm
    cases hm
  counts h hw _ hcount c := by
    rw [(step_moves h).2]
    exact counts_moves hw hcount (step_moves h).1 c
  shift_inv e := nomatch e
  shift_at e := nomatch e
  shift_unused e := nomatch e
  shift_count e := nomatch e

theorem inv_start : Inv (start T H E).world := by
  refine ⟨⟨fun t => ?_, fun t u _ => nofun⟩, rfl, nofun, nofun⟩
  exact Slice.holds_nil _

theorem holds_start (middleware : H → Option H) (errorsIs : Error E → Error E → Bool) :
    (outline middleware errorsIs).Holds (start T H E) :=
  ⟨inv_start, fun _ _ hl => absurd hl (by simp [start]), fun _ _ => trivial, fun _ => rfl⟩

/-- A run of calls on a new dispatcher. -/
theorem registry_holds (middleware : H → Option H) (errorsIs : Error E → Error E → Bool)
    (actions : List (Action (Label E) Empty (Call T H))) :
    (outline middleware errorsIs).Holds
      ((registry middleware errorsIs).run (start T H E) actions) :=
  System.Outline.holds_run (holds_start middleware errorsIs) actions

end Fries.Event.Registry
