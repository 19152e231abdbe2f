import Fries.Parallel.StreamInvariant

/-!
What a stream delivers in every interleaving of its workers and consumers.
-/
namespace Fries.Parallel.Stream

variable {T R E : Type} {w : World T R E} {limit : Nat}

theorem mem_delivered {r : StreamResult R E} :
    r ∈ w.delivered ↔ ∃ n, (n, some r) ∈ w.ends := by
  rw [World.delivered, List.mem_filterMap]
  constructor
  · rintro ⟨⟨n, result⟩, hmem, rfl⟩
    exact ⟨n, hmem⟩
  · rintro ⟨n, hmem⟩
    exact ⟨(n, some r), hmem, rfl⟩

/-- The indices of the results are the numbers of the values that came to their end with one. -/
theorem indices_sublist {ends : List (Nat × Option (StreamResult R E))}
    (hindex : ∀ n r, (n, some r) ∈ ends → r.index = n) :
    ((ends.filterMap Prod.snd).map StreamResult.index).Sublist (ends.map Prod.fst) := by
  induction ends with
  | nil => exact List.Sublist.refl _
  | cons e ends ih =>
    have hrest := ih fun n r hmem => hindex n r (List.mem_cons_of_mem _ hmem)
    obtain ⟨n, result⟩ := e
    cases result with
    | none => exact hrest.cons n
    | some r =>
      obtain rfl := hindex n r List.mem_cons_self
      exact hrest.cons_cons r.index

theorem indices_nodup (hw : Inv limit w) : (w.delivered.map StreamResult.index).Nodup :=
  (Custody.ended_nodup hw.wf).sublist (indices_sublist fun n r hmem => (hw.results n r hmem).1)

/-- The worker has a value in flight. -/
def Local.flying : Local T R E → Bool
  | .worker phase => phase.flying
  | _ => false

theorem flying_le {c : Config} {s : Crew (World T R E) (Local T R E)}
    (hs : (outline T R E c).Holds s) : s.threads.countP Local.flying ≤ c.limit := by
  have hweight : ∀ l : Local T R E, l.flying = true → 1 ≤ weight .active l := by
    intro l hl
    cases l with
    | worker phase => cases phase <;> first | exact Nat.le_refl 1 | cases hl
    | caller | ender | panicked => cases hl
  have hactive : s.world.workers = System.total (weight .active) s.threads := hs.counted .active
  calc s.threads.countP Local.flying
      ≤ System.total (weight .active) s.threads := System.countP_le_total hweight _
    _ = s.world.workers := hactive.symm
    _ ≤ c.limit := hs.inv.workers_le

/-- In every run each delivered result carries what the function returned for the value with its
index, and all values have theirs when `Wait` returns nil. Nothing panics. -/
theorem results_delivered_once (c : Config)
    (actions : List (Action (Label R E) (Change T) Call)) :
    let s := (stream T R E).run (initial T R E c) actions
    (s.world.delivered.map StreamResult.index).Nodup ∧
    (∀ r ∈ s.world.delivered, ∃ v, s.world.received[r.index]? = some v ∧
      ⟨r.index, v, r.value, r.err⟩ ∈ s.world.applied) ∧
    (s.threads.countP Local.flying ≤ c.limit ∧
      s.world.received.length ≤ s.world.ends.length + c.limit) ∧
    (∀ (i : Nat) (r : StreamResult R E),
      s.threads[i]? = some (.caller .consume (.returned (.result r))) → r ∈ s.world.delivered) ∧
    (∀ i : Nat, s.threads[i]? = some (.caller .wait (.returned (.waited none))) →
      s.world.input.closed = true ∧
        (s.world.delivered.map StreamResult.index).Perm (List.range s.world.received.length)) ∧
    ∀ i : Nat, s.threads[i]? ≠ some .panicked := by
  intro s
  have hs := System.Outline.holds_run (holds_initial T R E c) actions
  have hw : Inv c.limit s.world := hs.inv
  refine ⟨indices_nodup hw, ?_, ⟨flying_le hs, ?_⟩, fun i r hi => hs.at_thread i _ hi, ?_,
    fun i hi => hs.at_thread i _ hi⟩
  · intro r hr
    obtain ⟨n, hmem⟩ := mem_delivered.mp hr
    exact (hw.results n r hmem).2
  · have hflight := hw.flight_le
    have hworkers := hw.workers_le
    omega
  · intro i hi
    obtain ⟨hdone, herr⟩ : s.world.done = true ∧ s.world.err = none := hs.at_thread i _ hi
    exact (hw.finished hdone).2 herr

def single : Config := ⟨1, 0, Nat.one_pos⟩

/-- One value goes through a stream with one worker, the input is closed and the stream waited
for. -/
def drained : List (Action (Label Nat String) (Change Nat) Call) :=
  [.run 0 .send, .run 0 .send, .shift (.provide 7), .run 0 .receive, .run 0 .send, .run 0 .send,
    .run 0 .send, .run 0 (.returns 70 none), .spawn .consume, .run 2 .receive, .run 0 .send,
    .run 2 .receive, .shift .closeInput, .run 0 .send, .run 0 .send, .run 0 .receive, .run 0 .send,
    .run 0 .send, .run 1 .send, .run 1 .send, .run 1 .send, .run 1 .send, .spawn .wait,
    .run 3 .receive, .run 3 .receive]

theorem results_delivered_once_drained :
    let s := (stream Nat Nat String).run (initial Nat Nat String single) drained
    s.world.received = [7] ∧ s.world.delivered = [⟨0, 70, none⟩] ∧
      (s.world.delivered.map StreamResult.index).Perm (List.range 1) ∧
      ∃ v, s.world.received[0]? = some v ∧ ⟨0, v, 70, none⟩ ∈ s.world.applied := by
  obtain ⟨-, hcomputed, -, hconsumed, hwaited, -⟩ := results_delivered_once single drained
  refine ⟨by decide +kernel, by decide +kernel, ?_, ?_⟩
  · exact (hwaited 3 (by decide +kernel)).2
  · exact hcomputed ⟨0, 70, none⟩ (hconsumed 2 _ (by decide +kernel))

end Fries.Parallel.Stream
