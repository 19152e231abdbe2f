import Fries.Idempotency.Memory
import Fries.Idempotency.Ownership

/-! Exclusive execution on the in-memory store, for any number of interleaved clients. -/
namespace Fries.Idempotency

variable {last now : Int} {s s' : Memory.Store} {l : Ledger} {h : List (Event Call Reply)}

/-- The store and the table hold the same claims from `last` on. -/
structure Refines (last : Int) (s : Memory.Store) (l : Ledger) : Prop where
  nonneg : 0 ≤ last
  wf : s.Wf
  live : s.claims.live last = l.live last

theorem refines_step (call : Call) (hR : Refines last s l) (hnow : last ≤ now) :
    (memory.step s now call).1 = (ledger.step l now call).1 ∧
      Refines now (memory.step s now call).2 (ledger.step l now call).2 := by
  have h0 : 0 ≤ now := hR.nonneg.trans hnow
  obtain ⟨hreply, hwf, hlive⟩ := Memory.step_refines hR.wf h0 call
  obtain ⟨hreply', hlive'⟩ := Ledger.step_congr (Keyspace.live_congr hnow hR.live) call
  exact ⟨hreply.trans hreply', h0, hwf, hlive.trans hlive'⟩

/-- Every history of the store is a history of the table of claims. -/
theorem memory_run_refines (hr : memory.Run 0 last s h) :
    ∃ l, ledger.Run 0 last l h ∧ Refines last s l :=
  Machine.run_of_simulation (R := Refines)
    ⟨le_rfl, Memory.new_wf, rfl⟩
    refines_step hr

/-- The two stores hold the same unexpired records. -/
def SameLive (now : Int) (s s' : Memory.Store) : Prop :=
  ∀ key r, now < r.expiresAt →
    (s'.records.lookup key = some r ↔ s.records.lookup key = some r)

theorem sameLive_cleanup (hs : s.Wf) : SameLive now s (s.cleanup now) := by
  intro key r hr
  simp [Memory.cleanup_lookup hs now key, Option.filter_eq_some_iff, hr]

/-- The outcome of settling a claim: success for its owner, and otherwise only a sweep. -/
def OwnerOnly (s : Memory.Store) (now : Int) (key token : String)
    (out : Except Error Unit × Memory.Store) : Prop :=
  (out.1 = .ok () ↔ ∃ f, s.claims.owned now key token = some f) ∧
    (out.1 ≠ .ok () → out = (.error .claimLost, s.cleanup now))

/-- The test that `Complete` and `Abort` make before they write. -/
theorem ownerOnly_test (hs : s.Wf) (now : Int) (key token : String)
    (next : Memory.Record → Memory.Store) :
    OwnerOnly s now key token (match (s.cleanup now).records.lookup key with
      | none => (.error .claimLost, s.cleanup now)
      | some current =>
        if current.status ≠ .inProgress ∨ current.token ≠ token then
          (.error .claimLost, s.cleanup now)
        else (.ok (), next current)) := by
  simp only [OwnerOnly, Memory.owned_claims hs now]
  cases (s.cleanup now).records.lookup key with
  | none => simp
  | some current =>
    by_cases hlost : current.status ≠ .inProgress ∨ current.token ≠ token
    · simp [hlost]
    · simp [if_neg hlost]

theorem complete_ownerOnly (hs : s.Wf) (now : Int) (r : CompleteRequest) :
    OwnerOnly s now r.key r.token (s.complete .live now r) := ownerOnly_test hs now r.key r.token _

theorem abort_ownerOnly (hs : s.Wf) (now : Int) (r : AbortRequest) :
    OwnerOnly s now r.key r.token (s.abort .live now r) := ownerOnly_test hs now r.key r.token _

theorem begin_of_done (hs : s.Wf) (h0 : 0 ≤ now) {f : String} {result : Bytes} {deadline : Int}
    {key : String} (hd : s.claims.live now key = some (.done f result, deadline))
    (r : BeginRequest) (hk : r.key = key) :
    (s.begin .live now r).1 =
      if r.fingerprint ≠ "" ∧ r.fingerprint ≠ f then .error .keyConflict
      else .ok ⟨.completed, result⟩ := by
  have hreply := (Memory.step_refines hs h0 (.begin .live r)).1
  simp only [Memory.Store.step, Prod.map, Ledger.step, validateContext, Reply.begin.injEq] at hreply
  rw [hreply, Ledger.begin_of_live (hk ▸ hd)]
  rfl

/-- At every instant from the last call on a key has at most one owner, only its owner can settle
it, and a completed key keeps its result, and the fingerprint it was acquired with, until that has
expired. -/
theorem memory_claims_exclusive {C : Type} {token : C → String}
    (distinct : Function.Injective token) (hr : memory.Run 0 last s h) (hnow : last ≤ now) :
    (∀ key c c', Owns h key (token c) now → Owns h key (token c') now → c = c') ∧
    (∀ c r, r.token = token c →
      ((s.complete .live now r).1 = .ok () ↔ Owns h r.key (token c) now) ∧
      (¬ Owns h r.key (token c) now → (s.complete .live now r).1 = .error .claimLost ∧
        SameLive now s (s.complete .live now r).2)) ∧
    (∀ c r, r.token = token c →
      ((s.abort .live now r).1 = .ok () ↔ Owns h r.key (token c) now) ∧
      (¬ Owns h r.key (token c) now → (s.abort .live now r).1 = .error .claimLost ∧
        SameLive now s (s.abort .live now r).2)) ∧
    (∀ key result, (∃ e ∈ h, Completes key result now e) →
      (∃ f, fingerprint key h = some f ∧ ∀ r, r.key = key → (s.begin .live now r).1 =
        if r.fingerprint ≠ "" ∧ r.fingerprint ≠ f then .error .keyConflict
        else .ok ⟨.completed, result⟩) ∧
      (∀ r, r.key = key → (s.complete .live now r).1 = .error .claimLost) ∧
      (∀ r, r.key = key → (s.abort .live now r).1 = .error .claimLost)) := by
  obtain ⟨l, hl, hR⟩ := memory_run_refines hr
  have hlive : s.claims.live now = l.live now := Keyspace.live_congr hnow hR.live
  -- ownership by history is ownership in the swept store
  have howns : ∀ key token, Owns h key token now ↔
      ∃ f, s.claims.owned now key token = some f := by
    intro key token
    rw [owns_iff_owned hl hnow, Ledger.owned_congr hlive]
  have hsettle : ∀ key token out, OwnerOnly s now key token out →
      (out.1 = .ok () ↔ Owns h key token now) ∧
      (¬ Owns h key token now → out.1 = .error .claimLost ∧ SameLive now s out.2) := by
    rintro key token out ⟨hiff, helse⟩
    rw [← howns] at hiff
    refine ⟨hiff, fun hn => ?_⟩
    rw [helse (fun hok => hn (hiff.mp hok))]
    exact ⟨rfl, sameLive_cleanup hR.wf⟩
  refine ⟨?_, ?_, ?_, ?_⟩
  · intro key c c' hc hc'
    obtain ⟨f, hf⟩ := (howns _ _).mp hc
    obtain ⟨f', hf'⟩ := (howns _ _).mp hc'
    obtain ⟨d, hd⟩ := Ledger.owned_eq_some.mp hf
    obtain ⟨d', hd'⟩ := Ledger.owned_eq_some.mp hf'
    apply distinct
    simp_all
  · intro c r ht
    exact ht ▸ hsettle _ _ _ (complete_ownerOnly hR.wf now r)
  · intro c r ht
    exact ht ▸ hsettle _ _ _ (abort_ownerOnly hR.wf now r)
  · rintro key result ⟨e, he, hc⟩
    obtain ⟨f, d, hd⟩ := completes_live hl hnow he hc
    have hf := fingerprint_of_claim hl (Keyspace.live_eq_some.mp hd).1
    rw [← hlive] at hd
    have hlost : ∀ token, ¬ Owns h key token now := by
      intro token hown
      obtain ⟨g, hg⟩ := (howns _ _).mp hown
      exact ne_of_done hg hd rfl
    refine ⟨⟨f, hf, begin_of_done hR.wf (hR.nonneg.trans hnow) hd⟩, ?_, ?_⟩
    · rintro r rfl
      exact ((hsettle _ _ _ (complete_ownerOnly hR.wf now r)).2 (hlost _)).1
    · rintro r rfl
      exact ((hsettle _ _ _ (abort_ownerOnly hR.wf now r)).2 (hlost _)).1

/-- Two clients on one key: while the first holds it, the second cannot complete it. -/
theorem memory_claims_exclusive_second_client :
    ((memory.step Memory.new 1 (.begin .live ⟨"order", "first", "", 10, by decide⟩)).2.complete
      .live 5 ⟨"order", "second", [], 10, by decide⟩).1 = .error .claimLost := by
  let token : Bool → String := fun c => if c then "first" else "second"
  have distinct : Function.Injective token := by rintro (_ | _) (_ | _) <;> decide
  have hrun := Machine.Run.call (M := memory) .init 1
    (.begin .live ⟨"order", "first", "", 10, by decide⟩) (by decide : (0 : Int) ≤ 1)
  obtain ⟨hone, hcomplete, -⟩ := memory_claims_exclusive distinct hrun (by decide : (1 : Int) ≤ 5)
  have hfirst : Owns ([] ++ [⟨1, .begin .live ⟨"order", "first", "", 10, by decide⟩,
      (memory.step memory.init 1 (.begin .live ⟨"order", "first", "", 10, by decide⟩)).1⟩])
      "order" "first" 5 := owns_append.mpr (.inl ⟨rfl, rfl, by decide⟩)
  exact ((hcomplete false ⟨"order", "second", [], 10, by decide⟩ rfl).2
    (fun hsecond => absurd (hone "order" true false hfirst hsecond) (by decide))).1

/-- What the store answers about a key, it answers without the other keys as well. -/
theorem memory_claims_isolated {requests : List (Int × Call)} (ordered : Machine.Ordered 0 requests)
    (key : String) : (memory.history memory.init requests).filter (·.request.key = key) =
      memory.history memory.init (requests.filter (·.2.key = key)) :=
  Machine.history_isolated (R := Refines) ledger_local ⟨le_rfl, Memory.new_wf, rfl⟩ refines_step
    ordered key

theorem memory_claims_isolated_two :
    let r key : BeginRequest := ⟨key, "first", "", 10, by decide⟩
    (memory.history memory.init [(1, .begin .live (r "a")), (2, .begin .live (r "b"))]).filter
      (·.request.key = "b") = memory.history memory.init [(2, .begin .live (r "b"))] :=
  memory_claims_isolated (by decide) "b"

end Fries.Idempotency
