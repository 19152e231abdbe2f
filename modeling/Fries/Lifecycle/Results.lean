import Fries.Lifecycle.Progress
import Mathlib.Data.List.Nodup

/-! What a runner does and what its calls return, in every interleaving. -/
namespace Fries.Lifecycle

variable {X E : Type} {c : Config} {w : World X E}

theorem booted_sublist (hw : Shape c w) : (booted w).Sublist (List.range w.boots.length) := by
  rw [← hw.returned]
  exact List.filter_sublist.map Prod.fst

theorem stopCalls_nodup (hw : Shape c w) : w.stopCalls.Nodup := by
  have hbooted : (booted w).Nodup := List.nodup_range.sublist (booted_sublist hw)
  exact (List.nodup_reverse.mpr hbooted).sublist hw.reversed.sublist

/-- In every run providers are bootstrapped in order, at most once, and none after a failure;
those that were bootstrapped are shut down in reverse order, at most once, after bootstrapping has
ended, and all of them when a call that must shut down has returned, with their errors joined.
Nothing panics, and in every schedule that is fair to the calls, every call returns. -/
theorem providers_shut_down_once (contexts : Contexts X) (c : Config) :
    (∀ actions : List (Action (Label X E) Empty (Call X)),
      let s := (runner contexts c).run (initial X E) actions
      (∃ k ≤ c.providers.length, s.world.bootCalls = List.range k) ∧
      (∀ i r, (i, r) ∈ s.world.boots → r.failed = true → s.world.bootCalls = List.range (i + 1)) ∧
      (s.world.stopCalls <+: (booted s.world).reverse ∧ s.world.stopCalls.Nodup) ∧
      (s.world.stopCalls ≠ [] → Over c s.world) ∧
      (∀ (i : Nat) (call : Call X) (made found : RunnerState) (ctx : Option X)
        (err : Option (Err (Failure E))),
        s.threads[i]? = some (.caller call made (.returned found ctx err)) →
        match call with
        | .bootstrap _ =>
          found = .new ∧ (err ≠ none → Complete c s.world) ∨
            found ≠ .new ∧ err = some (.of .alreadyStarted)
        | .run _ _ =>
          found = .new ∧ Complete c s.world ∨ found ≠ .new ∧ err = some (.of .alreadyStarted)
        | .shutdown _ =>
          found = .new ∧ made = .new ∧ err = none ∨
            found ≠ .new ∧ Complete c s.world ∧ err = stopError c s.world) ∧
      (s.world.state = .new → s.world.bootCalls = [] ∧ s.world.stopCalls = []) ∧
      ∀ i : Nat, s.threads[i]? ≠ some .panicked) ∧
    ∀ σ : Nat → Action (Label X E) Empty (Call X),
      (∀ i, (runner contexts c).Fair (initial X E) σ i) →
      ∀ (n i : Nat) (call : Call X) (made : RunnerState) (phase : Phase X E),
        ((runner contexts c).after (initial X E) σ n).threads[i]? =
          some (.caller call made phase) →
        ∃ m found ctx err, n ≤ m ∧ ((runner contexts c).after (initial X E) σ m).threads[i]? =
          some (.caller call made (.returned found ctx err)) := by
  refine ⟨?_, fun σ hfair n i call made phase hi => call_returns hfair hi⟩
  intro actions s
  have hs := System.Outline.holds_run (holds_initial E contexts c) actions
  have hw : Inv c s.world := hs.inv
  refine ⟨⟨_, hw.shape.called_le, hw.shape.called⟩, ?_,
    ⟨hw.shape.reversed, stopCalls_nodup hw.shape⟩, hw.shape.ended, ?_, ?_,
    fun i hi => hs.at_thread i _ hi⟩
  · intro i r hmem hfailed
    rw [hw.shape.called, hw.shape.failed (i, r) hmem hfailed]
  · intro i call made found ctx err hi
    have hat : AtCaller c call made s.world (.returned found ctx err) := hs.at_thread i _ hi
    have hpromise : Promise s.world made found err call := hat.here
    cases call with
    | bootstrap =>
      rcases hpromise with ⟨hfound, hstopped⟩ | halready
      · exact .inl ⟨hfound, fun herr => (hw.stopped (hstopped herr)).1⟩
      · exact .inr halready
    | run =>
      rcases hpromise with ⟨hfound, hstopped⟩ | halready
      · exact .inl ⟨hfound, (hw.stopped hstopped).1⟩
      · exact .inr halready
    | shutdown =>
      rcases hpromise with hnoop | ⟨hfound, hstopped, herr⟩
      · exact .inl hnoop
      · obtain ⟨hcomplete, hjoined⟩ := hw.stopped hstopped
        exact .inr ⟨hfound, hcomplete, herr.trans hjoined⟩
  · intro hnew
    obtain ⟨hcalls, -, hstops, -⟩ := hw.new hnew
    exact ⟨hcalls, hstops⟩

def numbers : Contexts Nat := ⟨0, fun ctx _ => ctx⟩

def pair : Config := newConfig [some (.withProviders [some "A", none, some "B"])]

/-- The second provider fails to start while a `Shutdown` waits, and the first one to stop. -/
def rolledBack : List (Action (Label Nat String) Empty (Call Nat)) :=
  [.spawn (.bootstrap none), .run 0 .step, .spawn (.shutdown none), .run 1 .step, .run 1 .step,
    .run 0 .step, .run 0 (.returns (.next 1)), .run 0 .step, .run 0 (.returns (.fails "boom")),
    .run 0 .step, .run 0 (.returns .nilContext), .run 0 .step, .run 0 .step, .run 1 .step,
    .run 1 .step]

def rolledBackForever (n : Nat) : Action (Label Nat String) Empty (Call Nat) :=
  rolledBack.getD n (.run 0 .step)

theorem rolledBackForever_fair (i : Nat) :
    (runner numbers pair).Fair (initial Nat String) rolledBackForever i := by
  have hthreads : ((runner numbers pair).run (initial Nat String) rolledBack).threads =
      [.caller (.bootstrap none) .new (.returned .new (some 1) (some (.joined
          [.of (.provider "bootstrap" "B" "boom"), .joined [.of (.nilContext "shutdown" "A")]]))),
        .caller (.shutdown none) .starting (.returned .stopped (some 0)
          (some (.joined [.of (.nilContext "shutdown" "A")])))] := rfl
  refine System.fair_getD ?_ i
  rw [hthreads]
  intro l hl i label w
  simp only [List.mem_cons, List.not_mem_nil, or_false] at hl
  rcases hl with rfl | rfl
  · rfl
  · rfl

theorem providers_shut_down_once_rolledBack :
    let s := (runner numbers pair).run (initial Nat String) rolledBack
    ((∃ k ≤ 2, s.world.bootCalls = List.range k) ∧ s.world.bootCalls = [0, 1] ∧
      Complete pair s.world ∧ s.world.stops = [(0, .nilContext)] ∧
      some (Err.joined [.of (.nilContext "shutdown" "A")]) = stopError pair s.world) ∧
    ∃ m found ctx err, 5 ≤ m ∧ ((runner numbers pair).after (initial Nat String)
      rolledBackForever m).threads[1]? =
        some (.caller (.shutdown none) .starting (.returned found ctx err)) := by
  obtain ⟨hruns, hreturns⟩ := providers_shut_down_once (E := String) numbers pair
  obtain ⟨hcalls, -, -, -, hreturned, -⟩ := hruns rolledBack
  have hlate := hreturned 1 (.shutdown none) .starting .stopped (some 0)
    (some (.joined [.of (.nilContext "shutdown" "A")])) rfl
  refine ⟨?_, hreturns rolledBackForever rolledBackForever_fair 5 1 _ _ (.awaitStart none 0) rfl⟩
  rcases hlate with ⟨hfound, -⟩ | ⟨-, hcomplete, herr⟩
  · cases hfound
  · exact ⟨hcalls, rfl, hcomplete, rfl, herr⟩

end Fries.Lifecycle
