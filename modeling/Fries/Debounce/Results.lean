import Fries.Debounce.Invariant

/-! What callers of the debouncer can rely on in every interleaving. -/
namespace Fries.Debounce

variable {T E : Type} {c : Config} {s : Crew (World T E) (Local T E)}

/-- The thread is in a handler call. -/
def Local.handling : Local T E → Bool
  | .worker (.handling _ _) => true
  | _ => false

theorem handling_le (hs : (outline T E c).Holds s) : s.threads.countP Local.handling ≤ 1 := by
  have hweight : ∀ l : Local T E, l.handling = true → 1 ≤ weight l := by
    intro l hl
    unfold Local.handling at hl
    split at hl
    · exact Nat.le_refl 1
    · cases hl
  have hone : 1 = System.total weight s.threads := hs.counted ()
  rw [hone]
  exact System.countP_le_total hweight _

/-- In every run handler calls do not overlap, the worker selects accepted values in acceptance
order, none twice and none too early, and no accepted value gets lost. -/
theorem values_handed_in_order (c : Config) (now : Int)
    (actions : List (Action (Label E) Change (Call T))) :
    let s := (debouncer T E c).run (initial T E now) actions
    s.threads.countP Local.handling ≤ 1 ∧
    s.world.accepted.map Item.seq = List.range s.world.accepted.length ∧
    ((selected s.world).Sublist s.world.accepted ∧ (selected s.world).Nodup) ∧
    (s.world.calls.map Prod.fst <+: (selected s.world).map some ∧
      (selected s.world).length ≤ s.world.calls.length + 1) ∧
    (∀ x ∈ s.world.accepted, x ∈ selected s.world ∨ x ∈ s.world.slot s.world.pending ∨
      x ∈ s.world.slot s.world.ready ∨
      (x ∉ selected s.world ∧
        ∃ y ∈ s.world.accepted, x.seq < y.seq ∧ (x, y) ∈ s.world.replaced) ∨
      s.world.closed = true ∧ x ∈ s.world.discarded) ∧
    (∀ x t, (x, t) ∈ s.world.handed → x ∉ s.world.frozen → x.time + c.delay ≤ t) ∧
    (∀ x t, (some x, t) ∈ s.world.calls → x ∉ s.world.frozen → x.time + c.delay ≤ t) ∧
    (∀ (i : Nat) (value : T), s.threads[i]? = some (.trigger value (some true)) →
      ∃ x ∈ s.world.accepted, x.value = value) ∧
    ∀ i : Nat, s.threads[i]? ≠ some .panicked := by
  intro s
  have hs := System.Outline.holds_run (holds_initial T E c now) actions
  have hw : Inv c.delay s.world := hs.inv
  have hsub : (selected s.world).Sublist s.world.accepted :=
    (List.sublist_append_left _ _).trans hw.order
  have hnodup : s.world.accepted.Nodup := by
    refine List.Nodup.of_map Item.seq ?_
    rw [hw.numbered]
    exact List.nodup_range
  refine ⟨handling_le hs, hw.numbered, ⟨hsub, hnodup.sublist hsub⟩, ⟨hw.called, ?_⟩, ?_,
    fun x t hx hnot => (hw.timely (x, t) hx).2 hnot, hw.calledTimely,
    fun i value hi => hs.at_thread i _ hi rfl, fun i hi => hs.at_thread i _ hi⟩
  · rw [selected_length]
    exact hw.calling
  · intro x hx
    rcases hw.placed x hx with hline | ⟨y, hy⟩ | hdiscarded
    · rcases List.mem_append.mp hline with hselected | hwaiting
      · exact .inl hselected
      · rcases List.mem_append.mp hwaiting with hready | hpending
        · exact .inr (.inr (.inl hready))
        · exact .inr (.inl hpending)
    · obtain ⟨hmem, hseq, hnot⟩ := hw.replaced _ hy
      dsimp only at hmem hseq hnot
      refine .inr (.inr (.inr (.inl ⟨?_, y, hmem, by omega, hy⟩)))
      exact fun hselected => hnot (List.mem_append_left _ hselected)
    · refine .inr (.inr (.inr (.inr ⟨?_, hdiscarded⟩)))
      cases hclosed : s.world.closed with
      | true => rfl
      | false =>
        rw [hw.kept hclosed] at hdiscarded
        cases hdiscarded

/-- Two triggers, of which the second replaces the first. -/
def triggered : List (Action (Label String) Change (Call Nat)) :=
  [.spawn (.trigger 7), .run 2 .wake, .spawn (.trigger 8), .run 3 .wake]

/-- The worker waits for the delay and calls the handler. -/
def delayed : List (Action (Label String) Change (Call Nat)) :=
  triggered ++ [.run 0 .wake, .shift (.advance 5), .run 0 .tick, .run 0 .wake, .run 0 .wake]

def short : Config := ⟨5, true, by decide⟩

theorem values_handed_in_order_delayed :
    let s := (debouncer Nat String short).run (initial Nat String 0) delayed
    s.world.accepted = [⟨0, 7, 0⟩, ⟨1, 8, 0⟩] ∧ s.world.calls = [(some ⟨1, 8, 0⟩, 5)] ∧
      s.world.replaced = [(⟨0, 7, 0⟩, ⟨1, 8, 0⟩)] ∧ (selected s.world).Sublist s.world.accepted ∧
      (0 : Int) + short.delay ≤ 5 := by
  obtain ⟨-, -, ⟨hsub, -⟩, -, -, -, htimes, -⟩ :=
    values_handed_in_order (E := String) (T := Nat) short 0 delayed
  have hcalls : ((debouncer Nat String short).run (initial Nat String 0) delayed).world.calls =
      [(some ⟨1, 8, 0⟩, 5)] := by decide +kernel
  refine ⟨by decide +kernel, hcalls, by decide +kernel, hsub, ?_⟩
  exact htimes ⟨1, 8, 0⟩ 5 (hcalls ▸ List.mem_singleton.mpr rfl) (by decide +kernel)

/-- The thread is the same flush. -/
def SameFlush (l l' : Local T E) : Prop :=
  ∀ ctx before point, l = .flush ctx before point → ∃ point', l' = .flush ctx before point'

/-- Later on at least as much was accepted, and every flush is still the same one. -/
theorem later_run (hs : (outline T E c).Holds s)
    (actions : List (Action (Label E) Change (Call T))) :
    s.world.accepted <+: ((debouncer T E c).run s actions).world.accepted ∧
      ∀ (i : Nat) (l : Local T E), s.threads[i]? = some l →
        ∃ l', ((debouncer T E c).run s actions).threads[i]? = some l' ∧ SameFlush l l' := by
  refine System.Outline.later_run (R := fun w w' => w.accepted <+: w'.accepted) (K := SameFlush)
    (fun _ => List.prefix_rfl) (fun _ _ _ => List.IsPrefix.trans)
    (fun _ _ _ point h => ⟨point, h⟩) ?_ ?_ (fun e _ => (grows_shift e).accepted) hs actions
  · intro l₁ l₂ l₃ h₁ h₂ ctx before point hl
    obtain ⟨point', hl'⟩ := h₁ ctx before point hl
    exact h₂ ctx before point' hl'
  · intro i label l w n hn hw hat _
    have hmoves := step_moves hw hat hn
    refine ⟨(grows_moves hmoves).accepted, ?_⟩
    rintro ctx before point rfl
    cases hmoves with
    | flush | freeze => exact ⟨_, rfl⟩
    | stay h | stop h => cases h

/-- When a flush returns nil or the error of a handler, every value that was accepted before the
call is settled: its handler call and callback are over, or it was replaced by a value that is
settled. -/
theorem flush_settles (c : Config) (now : Int)
    (earlier later : List (Action (Label E) Change (Call T))) (ctx : Bool) :
    let s₀ := (debouncer T E c).run (initial T E now) earlier
    let s := (debouncer T E c).run (initial T E now) (earlier ++ .spawn (.flush ctx) :: later)
    ∀ (before : Nat) (err : Option E),
      s.threads[s₀.threads.length]? = some (.flush ctx before (.returned (.result err))) →
      ∀ x ∈ s₀.world.accepted, Settled s.world x := by
  intro s₀ s before err hi x hx
  have hs₀ := System.Outline.holds_run (holds_initial T E c now) earlier
  obtain ⟨-, hsettled⟩ : AtFlush before s.world (.returned (.result err)) :=
    (System.Outline.holds_run (holds_initial T E c now) _).at_thread _ _ hi
  have hlater := later_run (System.Outline.holds_next hs₀ (.spawn (.flush ctx))) later
  rw [show (debouncer T E c).run ((debouncer T E c).next s₀ (.spawn (.flush ctx))) later = s from
    (System.run_append _ _ earlier (.spawn (.flush ctx) :: later)).symm] at hlater
  have henter : ((debouncer T E c).next s₀ (.spawn (.flush ctx))).threads[s₀.threads.length]? =
      some (.flush ctx s₀.world.accepted.length .start) :=
    List.getElem?_concat_length
  obtain ⟨l, hl, hsame⟩ := hlater.2 _ _ henter
  obtain ⟨point, rfl⟩ := hsame _ _ _ rfl
  rw [hi] at hl
  cases hl
  exact hsettled x (hlater.1.subset hx) (seq_lt hs₀.inv hx)

/-- The flush freezes the second value, whose handler fails. -/
def flushed : List (Action (Label String) Change (Call Nat)) :=
  [.run 4 .wake, .run 4 .wake, .run 0 .wake, .run 0 .wake, .run 0 (.returns (some "boom")),
   .run 0 .wake, .run 0 .wake, .run 4 .wake]

theorem flush_settles_replaced :
    let s := (debouncer Nat String short).run (initial Nat String 0)
      (triggered ++ .spawn (.flush true) :: flushed)
    s.threads[4]? = some (.flush true 2 (.returned (.result (some "boom")))) ∧
      Settled s.world ⟨0, 7, 0⟩ ∧ Settled s.world ⟨1, 8, 0⟩ := by
  have hreturned : ((debouncer Nat String short).run (initial Nat String 0)
      (triggered ++ .spawn (.flush true) :: flushed)).threads[4]? =
        some (.flush true 2 (.returned (.result (some "boom")))) := by decide +kernel
  have hsettled := flush_settles short 0 triggered flushed true 2 (some "boom") hreturned
  exact ⟨hreturned, hsettled _ (by decide +kernel), hsettled _ (by decide +kernel)⟩

/-- A flush without a context returns an error of its own and settles nothing. -/
theorem flush_unsettled_nil :
    let s₀ := (debouncer Nat String short).run (initial Nat String 0) triggered
    let s := (debouncer Nat String short).run (initial Nat String 0)
      (triggered ++ [.spawn (.flush false), .run 4 .wake])
    s.threads[4]? = some (.flush false 2 (.returned .invalidContext)) ∧
      ⟨1, 8, 0⟩ ∈ s₀.world.accepted ∧ ¬ Settled s.world ⟨1, 8, 0⟩ := by
  refine ⟨by decide +kernel, by decide +kernel, ?_⟩
  have hfinished : ((debouncer Nat String short).run (initial Nat String 0)
      (triggered ++ [.spawn (.flush false), .run 4 .wake])).world.finished = [] := by
    decide +kernel
  have hreplaced : ((debouncer Nat String short).run (initial Nat String 0)
      (triggered ++ [.spawn (.flush false), .run 4 .wake])).world.replaced =
        [(⟨0, 7, 0⟩, ⟨1, 8, 0⟩)] := by decide +kernel
  intro hsettled
  cases hsettled with
  | finished h =>
    rw [hfinished] at h
    cases h
  | replaced h =>
    rw [hreplaced] at h
    simp at h

end Fries.Debounce
