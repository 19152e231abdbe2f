import Fries.Batcher.Outline

/-! What callers of the batcher can rely on in every interleaving. -/
namespace Fries.Batcher

variable {T E : Type} {w : World T E} {i : Nat}

/-- What was handed to the handler was accepted. -/
theorem sent_of_handled {size : Nat} (hw : Inv size w) {b : List (Nat × T)} (hb : b ∈ w.batches)
    {x : Nat × T} (hx : x ∈ b) : Sent x.1 w := by
  have hmem : x ∈ items w.intake.accepted := by
    rw [hw.order, List.mem_append, List.mem_append]
    exact .inl (.inl (List.mem_flatten.mpr ⟨b, hb, hx⟩))
  obtain ⟨r, hr, hitem⟩ := List.mem_filterMap.mp hmem
  cases r with
  | flush call => cases hitem
  | item call value =>
    cases hitem
    exact ⟨_, hr, rfl⟩

theorem items_calls (requests : List (Request T)) :
    ((items requests).map Prod.fst).Sublist (requests.map Request.call) := by
  induction requests with
  | nil => exact List.Sublist.refl _
  | cons r rest ih =>
    cases r with
    | item call value => exact ih.cons_cons call
    | flush call => exact ih.cons call

/-- In every run the batches are the accepted items in acceptance order, as far as they have come,
and all of them once `Shutdown` has returned the handler's result. No goroutine panics. -/
theorem batches_follow_acceptance (c : Config) (actions : List (Action (Label E) Change (Call T))) :
    let s := (batcher T E c).run (initial T E c) actions
    s.world.batches.flatten <+: items s.world.intake.accepted ∧
    (∀ b ∈ s.world.batches, b ≠ [] ∧ b.length ≤ c.batchSize) ∧
    ((items s.world.intake.accepted).map Prod.fst).Nodup ∧
    (∀ (i : Nat) (call : Call T) (before : Nat) (outcome : Outcome E),
      s.threads[i]? = some (.caller call before (.returned outcome)) →
      ∀ ctx item, call = .add ctx item ∨ call = .tryAdd item →
      (outcome = .accepted → (i, item) ∈ items s.world.intake.accepted) ∧
      (outcome ≠ .accepted → ∀ b ∈ s.world.batches, ∀ x ∈ b, x.1 ≠ i)) ∧
    (∀ (i : Nat) (ctx : Bool) (before : Nat) (err : Option E),
      s.threads[i]? = some (.caller (.shutdown ctx) before (.returned (.result err))) →
      s.world.batches.flatten = items s.world.intake.accepted ∧
        s.world.results.length = s.world.batches.length) ∧
    ∀ i : Nat, s.threads[i]? ≠ some .panicked := by
  intro s
  have hs := holds_run T E c actions
  have hw : Inv c.batchSize s.world := hs.inv
  refine ⟨?_, hw.sizes, hw.distinct.sublist (items_calls _), ?_, ?_, ?_⟩
  · rw [hw.order, List.append_assoc]
    exact List.prefix_append _ _
  · intro i call before outcome hi ctx item hcall
    have hpromise : Promise i call before s.world outcome := hs.at_thread i _ hi
    constructor
    · rintro rfl
      have hrequest : call.request i = some (.item i item) := by rcases hcall with rfl | rfl <;> rfl
      exact List.mem_filterMap.mpr ⟨_, hpromise _ hrequest, rfl⟩
    · rintro houtcome b hb x hx rfl
      have hsent := sent_of_handled hw hb hx
      cases outcome with
      | accepted => exact houtcome rfl
      | result err => rcases hcall with rfl | rfl <;> exact hpromise
      | _ => rcases hcall with rfl | rfl <;> exact hpromise hsent
  · intro i ctx before err hi
    obtain ⟨-, hall, hover, -⟩ := hw.drained err (hs.at_thread i _ hi)
    exact ⟨hall, hover⟩
  · intro i hi
    exact hs.at_thread i _ hi

/-- One item is added and the batcher shut down; the handler of its batch fails. -/
def drain : List (Action (Label String) Change (Call Nat)) :=
  [.run 0 .receive, .spawn (.add true 7), .run 2 .send, .run 2 .send, .run 2 .send, .run 2 .send,
   .run 0 .receive, .spawn (.shutdown true), .run 3 .send, .run 4 .send, .run 0 .receive,
   .run 0 .receive, .run 0 .receive, .run 0 (.returns (some "boom")), .run 0 .receive,
   .run 0 .receive, .run 3 .done]

def pairs : Config := ⟨2, second, 1, by decide, by decide⟩

theorem batches_follow_acceptance_drain :
    let s := (batcher Nat String pairs).run (initial Nat String pairs) drain
    s.threads[3]? = some (.caller (.shutdown true) 1 (.returned (.result (some "boom")))) ∧
      s.world.batches = [[(2, 7)]] ∧ s.world.batches.flatten = items s.world.intake.accepted := by
  have hreturned : ((batcher Nat String pairs).run (initial Nat String pairs) drain).threads[3]? =
      some (.caller (.shutdown true) 1 (.returned (.result (some "boom")))) := by decide +kernel
  refine ⟨hreturned, by decide +kernel, ?_⟩
  exact ((batches_follow_acceptance pairs drain).2.2.2.2.1 3 true 1 (some "boom") hreturned).1

/-- The thread is the same call. -/
def SameCall (l l' : Local T E) : Prop :=
  ∀ call before point, l = .caller call before point → ∃ point', l' = .caller call before point'

/-- Later on at least as much was accepted, and every call is still the same one. -/
theorem later_run {c : Config} {s : Crew (World T E) (Local T E)} (hs : (outline T E c).Holds s)
    (actions : List (Action (Label E) Change (Call T))) :
    s.world.intake.accepted <+: ((batcher T E c).run s actions).world.intake.accepted ∧
      ∀ (i : Nat) (l : Local T E), s.threads[i]? = some l →
        ∃ l', ((batcher T E c).run s actions).threads[i]? = some l' ∧ SameCall l l' := by
  refine System.Outline.later_run (R := fun w w' => w.intake.accepted <+: w'.intake.accepted)
    (K := SameCall)
    (fun _ => List.prefix_rfl) (fun _ _ _ => List.IsPrefix.trans)
    (fun _ _ _ point h => ⟨point, h⟩) ?_ ?_ ?_ hs actions
  · intro l₁ l₂ l₃ h₁ h₂ call before point hl
    obtain ⟨point', hl'⟩ := h₁ call before point hl
    exact h₂ call before point' hl'
  · intro i label l w n hn hw hat hcount
    have hmoves := step_moves hw hat hcount hn
    constructor
    · obtain ⟨more, haccepted, -⟩ := (moves_spares (j := i + 1) hmoves (by omega)).accepted
      exact ⟨more, haccepted.symm⟩
    · rintro call before point rfl
      cases hmoves with
      | caller h =>
        obtain ⟨point', hstate, -⟩ := h
        exact ⟨point', hstate⟩
  · intro e w
    cases e <;> exact List.prefix_rfl

/-- When a flush returns the result of its barrier, there are batches, all of them over, of exactly
the items accepted before the barrier, and the result is the first error of these. -/
theorem flush_reports_first_error (c : Config)
    (earlier later : List (Action (Label E) Change (Call T))) (ctx : Bool) :
    let s₀ := (batcher T E c).run (initial T E c) earlier
    let s := (batcher T E c).run (initial T E c) (earlier ++ .spawn (.flush ctx) :: later)
    let i := s₀.threads.length
    ∀ (before : Nat) (err : Option E),
      s.threads[i]? = some (.caller (.flush ctx) before (.returned (.result err))) →
      ∃ pre post n, s.world.intake.accepted = pre ++ .flush i :: post ∧
        s₀.world.intake.accepted <+: pre ∧ n ≤ s.world.results.length ∧
        (s.world.batches.take n).flatten = items pre ∧
        err = firstError (s.world.results.take n) := by
  intro s₀ s i before err hi
  have hs₀ : (outline T E c).Holds s₀ := holds_run T E c earlier
  obtain ⟨pre, post, n, hsplit, hbefore, hrest⟩ : Flushed i before err s.world :=
    (holds_run T E c _).at_thread i _ hi
  have hlater := later_run (System.Outline.holds_next hs₀ (.spawn (.flush ctx))) later
  rw [show (batcher T E c).run ((batcher T E c).next s₀ (.spawn (.flush ctx))) later = s from
    (System.run_append _ _ earlier (.spawn (.flush ctx) :: later)).symm] at hlater
  have henter : ((batcher T E c).next s₀ (.spawn (.flush ctx))).threads[i]? =
      some (.caller (.flush ctx) s₀.world.intake.accepted.length .start) :=
    List.getElem?_concat_length
  obtain ⟨l, hl, hsame⟩ := hlater.2 i _ henter
  obtain ⟨point, rfl⟩ := hsame _ _ _ rfl
  rw [hi] at hl
  cases hl
  refine ⟨pre, post, n, hsplit, ?_, hrest⟩
  exact List.prefix_of_prefix_length_le hlater.1 (hsplit ▸ List.prefix_append _ _) hbefore

/-- An item is accepted into a queue without a buffer, and then a flush finds it in the batch. -/
def added : List (Action (Label String) Change (Call Nat)) :=
  [.run 0 .receive, .spawn (.add true 7), .run 2 .send, .run 2 .send, .run 2 .send, .run 0 .receive,
   .run 2 .send]

def flushed : List (Action (Label String) Change (Call Nat)) :=
  [.run 3 .send, .run 3 .send, .run 0 .receive, .run 3 .send, .run 3 .send, .run 0 .receive,
   .run 0 .receive, .run 0 (.returns (some "boom")), .run 0 .receive, .run 0 .receive, .run 3 .done]

def unbuffered : Config := ⟨2, second, 0, by decide, by decide⟩

theorem flush_reports_first_error_added :
    let s := (batcher Nat String unbuffered).run (initial Nat String unbuffered)
      (added ++ .spawn (.flush true) :: flushed)
    s.threads[3]? = some (.caller (.flush true) 1 (.returned (.result (some "boom")))) ∧
      ∃ pre post n, s.world.intake.accepted = pre ++ .flush 3 :: post ∧
        [.item 2 7] <+: pre ∧ n ≤ s.world.results.length ∧
        (s.world.batches.take n).flatten = items pre ∧
        some "boom" = firstError (s.world.results.take n) := by
  have hreturned : ((batcher Nat String unbuffered).run (initial Nat String unbuffered)
      (added ++ .spawn (.flush true) :: flushed)).threads[3]? =
        some (.caller (.flush true) 1 (.returned (.result (some "boom")))) := by decide +kernel
  exact ⟨hreturned,
    flush_reports_first_error unbuffered added flushed true 1 (some "boom") hreturned⟩

end Fries.Batcher
