import Fries.Event.RegistryInvariant

/-! What the calls on a dispatcher do to its lists and to one another, in every run. -/
namespace Fries.Event.Registry

variable {T H E : Type} {middleware : H → Option H} {errorsIs : Error E → Error E → Bool}
  {w w' : World T H} {t : T} {k : Nat} {l l' : Local T H E} {d : Dispatching T E}
  {s : Subscription T}

/-- A dispatch calls indices of its copy, each at most once. -/
theorem calls_of_snapshot (h : Snapshot errorsIs d w) :
    d.crew.world.calls.Nodup ∧ ∀ i ∈ d.crew.world.calls, i < d.taken.length := by
  obtain ⟨actions, hreached⟩ := h.reached
  have hinv := (System.Outline.holds_run
    (holds_initial errorsIs d.entries.len (newDispatchConfig d.call.options)) actions).inv
  rw [← hreached] at hinv
  have hlen : d.entries.len = d.taken.length := by simpa using h.copied.holds.len_eq
  exact ⟨hinv.once, fun i hi => hlen ▸ (hinv.called i hi).1⟩

theorem called_once (h : Snapshot errorsIs d w) : d.called.Nodup := by
  obtain ⟨honce, hlt⟩ := calls_of_snapshot h
  rw [h.called]
  refine honce.map_on fun i hi j _ heq => ?_
  exact (List.getElem?_inj (hlt i hi) h.nodup).mp heq

theorem called_taken (h : Snapshot errorsIs d w) :
    ∀ entry ∈ d.called, ∃ e ∈ d.taken, entry = some e := by
  intro entry hentry
  rw [h.called] at hentry
  obtain ⟨i, hi, rfl⟩ := List.mem_map.mp hentry
  have hlt := (calls_of_snapshot h).2 i hi
  exact ⟨d.taken[i], List.getElem_mem hlt, List.getElem?_eq_getElem hlt⟩

/-- What is registered for a subscription is never changed, and it stays removed. -/
def Later (w w' : World T H) : Prop :=
  ∀ (k : Nat) (s : Subscription T), w.subscriptions[k]? = some s →
    ∃ s', w'.subscriptions[k]? = some s' ∧ s'.registrations = s.registrations ∧
      (s.life = .removed → s'.life = .removed)

theorem later_refl (w : World T H) : Later w w := fun _ s hs => ⟨s, hs, rfl, id⟩

theorem later_trans (w₁ w₂ w₃ : World T H) (h : Later w₁ w₂) (h' : Later w₂ w₃) : Later w₁ w₃ := by
  intro k s hs
  obtain ⟨s₂, hs₂, hregistrations, hlife⟩ := h k s hs
  obtain ⟨s₃, hs₃, hregistrations', hlife'⟩ := h' k s₂ hs₂
  exact ⟨s₃, hs₃, hregistrations'.trans hregistrations, hlife' ∘ hlife⟩

theorem later_subscribe (hsubs : w'.subscriptions = w.subscriptions) :
    Later w (w'.subscribe s) := by
  intro k s' hs'
  refine ⟨s', ?_, rfl, id⟩
  simp only [World.subscribe, hsubs]
  rw [List.getElem?_append_left (List.getElem?_eq_some_iff.mp hs').1, hs']

theorem later_set {active : Bool} {life : Life} (hs : w.subscriptions[k]? = some s)
    (hold : s.life ≠ .removed) (hsubs : w'.subscriptions = w.subscriptions) :
    Later w (w'.setSubscription k active life) := by
  intro k' s' hs'
  simp only [World.setSubscription, hsubs, List.getElem?_modify, hs']
  by_cases hk : k = k'
  · subst hk
    obtain rfl : s = s' := Option.some.inj (hs.symm.trans hs')
    exact ⟨_, rfl, by simp, fun hlife => absurd hlife hold⟩
  · exact ⟨s', by simp [hk], rfl, id⟩

variable [DecidableEq T]

/-- What a step of a call, from one place in it to another, does to the lists. -/
inductive Effect (middleware : H → Option H) (w w' : World T H) :
    Local T H E → Local T H E → Prop
  | unchanged {l l' : Local T H E} (hremoving : ∀ k, l ≠ .removing k)
      (hstoring : ∀ k, l' ≠ .storing k) (hlisted : ∀ t, w'.listed t = w.listed t) :
    Effect middleware w w' l l'
  | subscribes {listeners : List (Option (Definition T H))} {entries : List (Definition T H)}
      (hnew : newEntries middleware listeners = some entries)
      (hentries : w'.entries = w.entries ++ entries)
      (hregistrations : w'.registrations w.subscriptions.length =
        registrationsOf entries w.entries.length)
      (hlisted : ∀ t, w'.listed t = w.listed t ++
        (entriesOf (registrationsOf entries w.entries.length) t).map some) :
    Effect middleware w w' (.subscribing listeners) (.storing w.subscriptions.length)
  | unsubscribes {k : Nat} (howns : w.registrations k ≠ [])
      (hfound : ∀ r ∈ w.registrations k, some r.entry ∈ w.listed r.typeOf)
      (hlisted : ∀ t, w'.listed t =
        (w.listed t).filter (· ∉ (entriesOf (w.registrations k) t).map some)) :
    Effect middleware w w' (.removing k) (.unsubscribed k true)

theorem listed_of_live (hw : Inv w) (hw' : Inv w') (h : ∀ t, w'.live t = w.live t) (t : T) :
    w'.listed t = w.listed t := by
  rw [listed_eq hw.listed, listed_eq hw'.listed, h]

theorem effect_moves (hw : Inv w) (hcount : ∀ c, tally c l.holds ≤ count c w)
    (h : Moves middleware errorsIs w l l' w') : Effect middleware w w' l l' := by
  have hw' := inv_moves hw hcount h
  cases h with
  | stay hl hl' =>
    refine .unchanged ?_ ?_ fun t => rfl
    · rintro k rfl
      cases hl
    · rintro k rfl
      cases hl'
  | inner => exact .unchanged nofun nofun fun t => rfl
  | take => exact .unchanged nofun nofun (listed_of_live hw hw' fun t => rfl)
  | vacant =>
    refine .unchanged nofun nofun (listed_of_live hw hw' fun t => ?_)
    rw [live_subscribe (by simp)]
    exact List.append_nil _
  | @store k =>
    obtain ⟨s, hs, hlife⟩ := life_of_holds (hcount (k, .storing))
    exact .unchanged nofun nofun
      (listed_of_live hw hw' fun t => live_set hs (by simp [hlife]) (by decide))
  | @claim k hactive =>
    obtain ⟨s, hs, hlife⟩ := life_of_active hw hactive
    exact .unchanged nofun nofun
      (listed_of_live hw hw' fun t => live_set hs (by simp [hlife]) (by decide))
  | @register listeners entries spare hnew hne =>
    have hregistrations : (World.addAll spare entries w []).2 =
        registrationsOf entries w.entries.length := addAll_registrations
    refine .subscribes hnew addAll_same.1 ?_ ?_
    · simp [World.registrations, World.subscribe, addAll_same.2, hregistrations]
    · intro t
      rw [listed_eq hw.listed, listed_eq hw'.listed, live_subscribe (by simp), hregistrations,
        List.map_append]
      simp only [World.live, addAll_same.2]
  | @remove k =>
    obtain ⟨s, hs, hlife⟩ := life_of_holds (hcount (k, .claimed))
    have hold : s.life ≠ .removed := by simp [hlife]
    rw [removeAll_claimed hw hs hlife]
    refine .unsubscribes ?_ ?_ ?_
    · rw [registrations_eq hs]
      exact (hw.owns s (List.mem_of_getElem? hs)).resolve_left (by simp [hlife])
    · intro r hr
      rw [listed_eq hw.listed]
      exact List.mem_map_of_mem (entries_live hs hold (registrations_eq hs ▸ hr))
    · intro t
      rw [listed_eq hw.listed, listed_eq hw'.listed, live_removeAll hw hs hold,
        (hw.nodup_live t).sdiff_eq_filter, List.filter_map]
      refine congrArg _ (List.filter_congr fun e _ => ?_)
      exact decide_eq_decide.mpr (not_congr (by simp))

theorem later_moves (hw : Inv w) (hcount : ∀ c, tally c l.holds ≤ count c w)
    (h : Moves middleware errorsIs w l l' w') : Later w w' := by
  cases h with
  | stay | inner | take => exact later_refl w
  | vacant => exact later_subscribe rfl
  | register => exact later_subscribe addAll_same.2
  | @store k =>
    obtain ⟨s, hs, hlife⟩ := life_of_holds (hcount (k, .storing))
    exact later_set hs (by simp [hlife]) rfl
  | @claim k hactive =>
    obtain ⟨s, hs, hlife⟩ := life_of_active hw hactive
    exact later_set hs (by simp [hlife]) rfl
  | @remove k =>
    obtain ⟨s, hs, hlife⟩ := life_of_holds (hcount (k, .claimed))
    exact later_set hs (by simp [hlife]) removeAll_same.2

variable {c : Crew (World T H) (Local T H E)} {i j : Nat}

theorem later_run (h : (outline middleware errorsIs).Holds c)
    (actions : List (Action (Label E) Empty (Call T H))) :
    Later c.world ((registry middleware errorsIs).run c actions).world :=
  (System.Outline.later_run later_refl later_trans (K := fun _ _ => True) (fun _ => trivial)
    (fun _ _ _ _ _ => trivial)
    (fun hn hw _ hcount => ⟨later_moves hw hcount (step_moves hn).1, trivial⟩)
    (fun e => e.elim) h actions).1

/-- The entries of a removed subscription are in no list. -/
theorem not_live_of_removed (hw : Inv w) (hs : w.subscriptions[k]? = some s)
    (hlife : s.life = .removed) {r : Registration T} (hr : r ∈ s.registrations) (t : T) :
    r.entry ∉ w.live t := by
  obtain ⟨before, after, hsplit, -⟩ := subscriptions_split hs
  have hnodup : ((w.subscriptions.flatMap Subscription.registrations).map
      Registration.entry).Nodup := hw.numbered ▸ List.nodup_range
  rw [hsplit] at hnodup
  simp only [List.flatMap_append, List.flatMap_cons, List.map_append] at hnodup
  obtain ⟨-, hrest, hbefore⟩ := List.nodup_append.mp hnodup
  obtain ⟨-, -, hafter⟩ := List.nodup_append.mp hrest
  have hown : r.entry ∈ s.registrations.map Registration.entry := List.mem_map_of_mem hr
  -- a live entry belongs to another subscription, before or after this one
  have hother : ∀ subs : List (Subscription T),
      r.entry ∈ (subs.flatMap fun s => if s.life = .removed then [] else
        entriesOf s.registrations t) →
      r.entry ∈ (subs.flatMap Subscription.registrations).map Registration.entry := by
    intro subs hmem
    exact (live_sublist (H := H) ⟨w.memory, w.listeners, [], subs⟩ t).subset hmem
  intro hmem
  simp only [World.live, hsplit, List.flatMap_append, List.flatMap_cons, hlife, if_true,
    List.nil_append, List.mem_append] at hmem
  rcases hmem with hmem | hmem
  · exact hbefore _ (hother before hmem) _ (List.mem_append_left _ hown) rfl
  · exact hafter _ hown _ (hother after hmem) rfl

/-- A dispatch has copied what its list held at some time during its call. -/
theorem taken_was_live (actions : List (Action (Label E) Empty (Call T H)))
    (hd : ((registry middleware errorsIs).run (start T H E) actions).threads[i]? =
      some (.running d)) : ∃ before after, actions = before ++ after ∧
      ((registry middleware errorsIs).run (start T H E) before).threads[i]? =
        some (.dispatching d.call none) ∧ d.taken =
        ((registry middleware errorsIs).run (start T H E) before).world.live d.call.typeOf := by
  -- from the last action back: it has made the copy, or the copy is older
  induction actions using List.reverseRecOn generalizing d with
  | nil => simp [System.run, start] at hd
  | append_singleton actions a ih =>
    have holds := registry_holds (T := T) middleware errorsIs actions
    rw [System.run_append] at hd
    have hold : ∀ d', ((registry middleware errorsIs).run (start T H E) actions).threads[i]? =
        some (.running d') → d'.call = d.call → d'.taken = d.taken →
        ∃ before after, actions ++ [a] = before ++ after ∧
          ((registry middleware errorsIs).run (start T H E) before).threads[i]? =
            some (.dispatching d.call none) ∧
          d.taken =
            ((registry middleware errorsIs).run (start T H E) before).world.live d.call.typeOf := by
      intro d' hd' hcall htaken
      obtain ⟨before, after, rfl, hthread, hlive⟩ := ih hd'
      rw [hcall, htaken] at hlive
      rw [hcall] at hthread
      exact ⟨before, after ++ [a], List.append_assoc .., hthread, hlive⟩
    rcases System.thread_of_next _ hd with
      hsame | ⟨l, label, n, hl, hn, hstate⟩ | ⟨call, hcall⟩ | ⟨j, l, label, n, hl, hn, hstarted⟩
    · exact hold d hsame rfl rfl
    · have hmoves := (step_moves hn).1
      rw [← hstate] at hmoves
      generalize n.world = w' at hmoves
      cases hmoves with
      | stay _ _ hidle => exact absurd rfl (hidle d)
      | inner => exact hold _ hl rfl rfl
      | take => exact ⟨actions, [a], rfl, hl, taken_snapshot (E := E) holds.inv _ _⟩
    · cases call <;> cases hcall
    · rw [(step_moves hn).2] at hstarted
      cases hstarted

theorem life_of_unsubscribed (h : (outline middleware errorsIs).Holds c)
    (hi : c.threads[i]? = some (.unsubscribed k true)) :
    ∃ s, c.world.subscriptions[k]? = some s ∧ s.life = .removed :=
  life_of_holds (System.Outline.weight_le h hi (k, .removed))

/-- One call of `Unsubscribe` at most has removed a subscription. -/
theorem unsubscribed_once (h : (outline middleware errorsIs).Holds c)
    (hi : c.threads[i]? = some (.unsubscribed k true))
    (hj : c.threads[j]? = some (.unsubscribed k true)) : i = j := by
  have hone : count (k, .removed) c.world ≤ 1 := by
    unfold count tally
    split <;> omega
  have hweight : (outline middleware errorsIs).weight (k, .removed)
      (.unsubscribed k true : Local T H E) = 1 := by
    simp [outline, Local.holds, tally]
  exact System.Outline.thread_unique h hone hi hj hweight hweight

theorem removed_iff (h : (outline middleware errorsIs).Holds c) (k : Nat) :
    c.world.life k = some .removed ↔ ∃ i : Nat, c.threads[i]? = some (.unsubscribed k true) := by
  constructor
  · intro hlife
    have hcount : count (k, .removed) c.world = 1 := by
      simp [count, hlife, holding, Life.owned, tally]
    have hpos :
        0 < System.total ((outline middleware errorsIs).weight (k, .removed)) c.threads := by
      have hcounted := h.counted (k, .removed)
      have hsame : (outline middleware errorsIs).count (k, .removed) c.world = 1 := hcount
      omega
    obtain ⟨i, l, hl, hweight⟩ := System.exists_of_total_pos _ hpos
    refine ⟨i, ?_⟩
    have hholds : l.holds = some (k, .removed) := by
      by_contra hne
      simp [outline, tally, hne] at hweight
    rw [hl]
    unfold Local.holds at hholds
    split at hholds <;> cases hholds
    rfl
  · rintro ⟨i, hi⟩
    obtain ⟨s, hs, hlife⟩ := life_of_unsubscribed h hi
    simp [World.life, hs, hlife]

/-- A dispatch that began after a subscription was removed has not copied its entries. -/
theorem not_taken_of_unsubscribed (before after : List (Action (Label E) Empty (Call T H)))
    (hi : ((registry middleware errorsIs).run (start T H E) before).threads[i]? =
      some (.unsubscribed k true))
    (hj : ((registry middleware errorsIs).run (start T H E) before).threads.length ≤ j)
    (hd : ((registry middleware errorsIs).run (start T H E) (before ++ after)).threads[j]? =
      some (.running d)) :
    ∀ r ∈ ((registry middleware errorsIs).run (start T H E) before).world.registrations k,
      r.entry ∉ d.taken := by
  intro r hr
  obtain ⟨early, late, hsplit, hthread, htaken⟩ := taken_was_live _ hd
  obtain ⟨s, hs, hlife⟩ := life_of_unsubscribed (registry_holds middleware errorsIs before) hi
  have hlt := (List.getElem?_eq_some_iff.mp hthread).1
  -- the copy was not made before: the call was not there
  obtain ⟨middle, rfl⟩ : ∃ middle, early = before ++ middle := by
    rcases List.append_eq_append_iff.mp hsplit with ⟨middle, rfl, -⟩ | ⟨middle, rfl, -⟩
    · exact ⟨middle, rfl⟩
    · rw [System.run_append] at hj
      have hgrows := System.length_run (registry middleware errorsIs)
        ((registry middleware errorsIs).run (start T H E) early) middle
      omega
  rw [System.run_append] at htaken
  have hholds := registry_holds (T := T) middleware errorsIs before
  obtain ⟨s', hs', hregistrations, hlife'⟩ := later_run hholds middle k s hs
  have hr' : r ∈ s'.registrations := by
    rw [hregistrations, ← registrations_eq hs]
    exact hr
  rw [htaken]
  exact not_live_of_removed (System.Outline.holds_run hholds middle).inv hs' (hlife' hlife) hr' _

/-- Over every run the list of an event type is what the subscriptions that have not been removed
registered for it, and a dispatch calls entries of its copy, each at most once. -/
theorem listeners_are_exact (middleware : H → Option H) (errorsIs : Error E → Error E → Bool)
    (actions : List (Action (Label E) Empty (Call T H))) :
    let S := registry (T := T) middleware errorsIs
    let c := S.run (start T H E) actions
    (∀ t, c.world.listed t = (c.world.live t).map some) ∧
    (∀ k, c.world.life k = some .removed ↔ ∃ i : Nat, c.threads[i]? = some (.unsubscribed k true)) ∧
    (∀ k (i j : Nat), c.threads[i]? = some (.unsubscribed k true) →
      c.threads[j]? = some (.unsubscribed k true) → i = j) ∧
    (∀ (i : Nat) label l n, c.threads[i]? = some l → S.step i label l c.world = some n →
      Effect middleware c.world n.world l n.state) ∧
    (∀ more k, k < c.world.subscriptions.length →
      (S.run c more).world.registrations k = c.world.registrations k) ∧
    (∀ (i : Nat) d, c.threads[i]? = some (.running d) →
      d.called.Nodup ∧ (∀ entry ∈ d.called, ∃ e ∈ d.taken, entry = some e) ∧
      ∃ before after, actions = before ++ after ∧
        (S.run (start T H E) before).threads[i]? = some (.dispatching d.call none) ∧
        d.taken = (S.run (start T H E) before).world.live d.call.typeOf) ∧
    ∀ more (i j k : Nat) d, c.threads[i]? = some (.unsubscribed k true) → c.threads.length ≤ j →
      (S.run c more).threads[j]? = some (.running d) →
      ∀ r ∈ c.world.registrations k, some r.entry ∉ d.called := by
  intro S c
  have hholds := registry_holds (T := T) middleware errorsIs actions
  refine ⟨listed_eq hholds.inv.listed, removed_iff hholds, fun k i j => unsubscribed_once hholds,
    ?_, ?_, ?_, ?_⟩
  · intro i label l n hl hn
    exact effect_moves hholds.inv (System.Outline.weight_le hholds hl) (step_moves hn).1
  · intro more k hk
    obtain ⟨s, hs⟩ : ∃ s, c.world.subscriptions[k]? = some s := ⟨_, List.getElem?_eq_getElem hk⟩
    obtain ⟨s', hs', hregistrations, -⟩ := later_run hholds more k s hs
    rw [registrations_eq hs', registrations_eq hs]
    exact hregistrations
  · intro i d hd
    have hsnapshot : Snapshot errorsIs d c.world := hholds.at_thread i _ hd d rfl
    exact ⟨called_once hsnapshot, called_taken hsnapshot, taken_was_live actions hd⟩
  · intro more i j k d hi hj hd r hr hcalled
    have hrun := System.run_append S (start T H E) actions more
    have hsnapshot : Snapshot errorsIs d (S.run c more).world :=
      (System.Outline.holds_run hholds more).at_thread j _ hd d rfl
    obtain ⟨e, he, heq⟩ := called_taken hsnapshot _ hcalled
    cases heq
    refine not_taken_of_unsubscribed actions more hi hj ?_ r hr he
    rw [System.run_append]
    exact hd

/-- One listener is subscribed twice by one call and once by another; the first is canceled. -/
def canceledTwice : List (Action (Label Unit) Empty (Call Unit Unit)) :=
  let listener : Option (Definition Unit Unit) := some ⟨(), ()⟩
  let go (i : Nat) : Action (Label Unit) Empty (Call Unit Unit) := .run i (.step fun _ => 2)
  [.spawn (.subscribe [listener, listener]), go 0, go 0, .spawn (.subscribe [listener]), go 1, go 1,
    .spawn (.unsubscribe 0), go 2, go 2]

def dispatchedLater : List (Action (Label Unit) Empty (Call Unit Unit)) :=
  [.spawn (.dispatch ⟨false, false, (), []⟩), .run 3 (.step fun _ => 0),
    .run 3 (.inner (.run 0 .step))]

/-- The entries that a dispatch has called. -/
def Local.called : Local T H E → Option (List (Option Nat))
  | .running d => some d.called
  | _ => none

theorem listeners_are_exact_canceled :
    let S := registry (T := Unit) (H := Unit) (E := Unit) some fun _ _ => false
    let c := S.run (start Unit Unit Unit) canceledTwice
    c.world.listed () = [some 2] ∧ c.world.life 0 = some .removed ∧
    (S.run c dispatchedLater).threads[3]?.bind Local.called = some [some 2] ∧
    ∀ d, (S.run c dispatchedLater).threads[3]? = some (.running d) →
      ∀ r ∈ c.world.registrations 0, some r.entry ∉ d.called := by
  intro S c
  obtain ⟨-, hremoved, -, -, -, -, hlater⟩ :=
    listeners_are_exact (T := Unit) (H := Unit) (E := Unit) some (fun _ _ => false) canceledTwice
  have hlife : c.world.life 0 = some .removed := by decide +kernel
  have hlength : c.threads.length ≤ 3 := by decide +kernel
  refine ⟨by decide +kernel, hlife, by decide +kernel, ?_⟩
  intro d hd
  obtain ⟨i, hi⟩ := (hremoved 0).mp hlife
  exact hlater dispatchedLater i 3 0 d hi hlength hd

end Fries.Event.Registry
