import Fries.Idempotency.Ledger
import Mathlib.Data.List.AList

/-! The in-memory store, whose expired records are swept when a call finds them due. -/
namespace Fries.Idempotency.Memory

structure Record where
  status : BeginStatus
  token : String
  fingerprint : String
  data : Bytes
  expiresAt : Int
  deriving DecidableEq, Repr

structure Store where
  records : AList fun _ : String => Record
  nextCleanup : Int

def new : Store := ⟨∅, 0⟩

def Store.scheduleCleanup (s : Store) (expiresAt : Int) : Store :=
  if isZero s.nextCleanup ∨ expiresAt < s.nextCleanup then { s with nextCleanup := expiresAt }
  else s

/-- The body of the loop in `cleanup`. -/
def Store.visit (now : Int) (s : Store) (e : Sigma fun _ : String => Record) : Store :=
  if ¬ now < e.2.expiresAt then { s with records := s.records.erase e.1 }
  else s.scheduleCleanup e.2.expiresAt

def Store.cleanup (s : Store) (now : Int) : Store :=
  if isZero s.nextCleanup ∨ now < s.nextCleanup then s
  else s.records.entries.foldl (visit now) { s with nextCleanup := 0 }

def Store.begin (s : Store) (ctx : Ctx) (now : Int) (request : BeginRequest) :
    Except Error BeginResult × Store :=
  match validateContext ctx with
  | some err => (.error err, s)
  | none =>
    let s := s.cleanup now
    match s.records.lookup request.key with
    | none =>
      let current : Record :=
        { status := .inProgress
          token := request.token
          fingerprint := request.fingerprint
          data := []
          expiresAt := now + request.ttl }
      (.ok ⟨.acquired, []⟩,
        { s with records := s.records.insert request.key current }.scheduleCleanup
          current.expiresAt)
    | some current =>
      if request.fingerprint ≠ "" ∧ request.fingerprint ≠ current.fingerprint then
        (.error .keyConflict, s)
      else (.ok ⟨current.status, current.data⟩, s)

def Store.complete (s : Store) (ctx : Ctx) (now : Int) (request : CompleteRequest) :
    Except Error Unit × Store :=
  match validateContext ctx with
  | some err => (.error err, s)
  | none =>
    let s := s.cleanup now
    match s.records.lookup request.key with
    | none => (.error .claimLost, s)
    | some current =>
      if current.status ≠ .inProgress ∨ current.token ≠ request.token then (.error .claimLost, s)
      else
        let current : Record :=
          { current with
            status := .completed
            token := ""
            data := request.result
            expiresAt := now + request.ttl }
        (.ok (),
          { s with records := s.records.insert request.key current }.scheduleCleanup
            current.expiresAt)

def Store.abort (s : Store) (ctx : Ctx) (now : Int) (request : AbortRequest) :
    Except Error Unit × Store :=
  match validateContext ctx with
  | some err => (.error err, s)
  | none =>
    let s := s.cleanup now
    match s.records.lookup request.key with
    | none => (.error .claimLost, s)
    | some current =>
      if current.status ≠ .inProgress ∨ current.token ≠ request.token then (.error .claimLost, s)
      else (.ok (), { s with records := s.records.erase request.key })

def Store.step (s : Store) (now : Int) : Call → Reply × Store
  | .begin ctx request => ((s.begin ctx now request).map .begin id)
  | .complete ctx request => ((s.complete ctx now request).map .complete id)
  | .abort ctx request => ((s.abort ctx now request).map .abort id)

end Fries.Idempotency.Memory

namespace Fries.Idempotency

def memory : Machine Memory.Store Call Reply := ⟨Memory.new, Memory.Store.step⟩

namespace Memory

variable {s : Store} {now : Int} {key : String} {r : Record}

/-- A record is in one of the two shapes the store writes. -/
def Record.Shaped (r : Record) : Prop :=
  (r.status = .inProgress ∧ r.data = []) ∨ (r.status = .completed ∧ r.token = "")

/-- The sweep is due no later than the first expiry, and expiries lie after the zero time. -/
structure Store.Wf (s : Store) : Prop where
  nonneg : 0 ≤ s.nextCleanup
  due : ∀ {key r}, s.records.lookup key = some r →
    0 < s.nextCleanup ∧ s.nextCleanup ≤ r.expiresAt
  shaped : ∀ {key r}, s.records.lookup key = some r → r.Shaped

def Record.claim (r : Record) : Claim :=
  if r.status = .completed then .done r.fingerprint r.data else .held r.token r.fingerprint

/-- The table of claims a store stands for, expired ones included. -/
def Store.claims (s : Store) : Ledger :=
  fun key => (s.records.lookup key).map fun r => (r.claim, r.expiresAt)

theorem new_wf : new.Wf := ⟨by simp [new], by simp [new], by simp [new]⟩

@[simp] theorem scheduleCleanup_records (s : Store) (expiresAt : Int) :
    (s.scheduleCleanup expiresAt).records = s.records := by
  unfold Store.scheduleCleanup
  split <;> rfl

/-- The new schedule covers both the new expiry and everything it covered before. -/
theorem scheduleCleanup_due (s : Store) {expiresAt : Int} (h : 0 < expiresAt) (hs : 0 ≤ s.nextCleanup) :
    0 < (s.scheduleCleanup expiresAt).nextCleanup ∧
      (s.scheduleCleanup expiresAt).nextCleanup ≤ expiresAt ∧
      (0 < s.nextCleanup → (s.scheduleCleanup expiresAt).nextCleanup ≤ s.nextCleanup) := by
  unfold Store.scheduleCleanup isZero
  split <;> simp_all <;> omega

section Sweep

variable {l : List (Sigma fun _ : String => Record)}

/-- The loop removes exactly the visited records that have expired. -/
theorem foldl_visit_lookup (s : Store) : (l.foldl (Store.visit now) s).records.lookup key =
    if ∃ e ∈ l, e.1 = key ∧ e.2.expiresAt ≤ now then none else s.records.lookup key := by
  induction l generalizing s with
  | nil => simp
  | cons e l ih =>
    rw [List.foldl_cons, ih]
    by_cases hl : ∃ e ∈ l, e.1 = key ∧ e.2.expiresAt ≤ now
    · obtain ⟨f, hf, hk⟩ := hl
      rw [if_pos ⟨f, hf, hk⟩, if_pos ⟨f, List.mem_cons_of_mem e hf, hk⟩]
    · rw [if_neg hl]
      by_cases he : e.1 = key ∧ e.2.expiresAt ≤ now
      · obtain ⟨rfl, hle⟩ := he
        rw [if_pos ⟨e, List.mem_cons_self, rfl, hle⟩]
        simp [Store.visit, hle]
      · rw [if_neg (by simpa using ⟨by simpa using he, by simpa using hl⟩)]
        unfold Store.visit
        split
        · have hne : key ≠ e.1 := fun h => he ⟨h.symm, by omega⟩
          simp [AList.lookup_erase_ne hne]
        · simp

/-- The loop schedules the first expiry among the visited records it keeps. -/
theorem foldl_visit_due (now : Int) (s : Store) (hs : 0 ≤ s.nextCleanup)
    (hl : ∀ e ∈ l, 0 < e.2.expiresAt) :
    0 ≤ (l.foldl (Store.visit now) s).nextCleanup ∧
    (0 < s.nextCleanup → 0 < (l.foldl (Store.visit now) s).nextCleanup ∧
      (l.foldl (Store.visit now) s).nextCleanup ≤ s.nextCleanup) ∧
    ∀ e ∈ l, now < e.2.expiresAt → 0 < (l.foldl (Store.visit now) s).nextCleanup ∧
      (l.foldl (Store.visit now) s).nextCleanup ≤ e.2.expiresAt := by
  induction l generalizing s with
  | nil => simpa using hs
  | cons e l ih =>
    have hrest : ∀ f ∈ l, 0 < f.2.expiresAt := fun f hf => hl f (List.mem_cons_of_mem e hf)
    rw [List.foldl_cons]
    by_cases he : now < e.2.expiresAt
    · -- a kept record first lowers the schedule to its own expiry
      have hv : Store.visit now s e = s.scheduleCleanup e.2.expiresAt := by
        simp [Store.visit, he]
      obtain ⟨hpos, hle, hmono⟩ := scheduleCleanup_due s (hl e List.mem_cons_self) hs
      obtain ⟨h0, h1, h2⟩ := ih (s.scheduleCleanup e.2.expiresAt) (by omega) hrest
      rw [hv]
      refine ⟨h0, fun hp => ?_, fun f hf hlt => ?_⟩
      · have := h1 hpos
        have := hmono hp
        omega
      · rcases List.mem_cons.mp hf with rfl | hf
        · have := h1 hpos
          omega
        · exact h2 f hf hlt
    · have hv : Store.visit now s e = { s with records := s.records.erase e.1 } := by
        simp [Store.visit, he]
      obtain ⟨h0, h1, h2⟩ := ih { s with records := s.records.erase e.1 } hs hrest
      rw [hv]
      refine ⟨h0, h1, fun f hf hlt => ?_⟩
      rcases List.mem_cons.mp hf with rfl | hf
      · exact absurd hlt he
      · exact h2 f hf hlt

end Sweep

/-- After `cleanup` exactly the unexpired records are left, swept or not. -/
theorem cleanup_lookup (hs : s.Wf) (now : Int) (key : String) : (s.cleanup now).records.lookup key =
    (s.records.lookup key).filter fun r => now < r.expiresAt := by
  unfold Store.cleanup
  split
  · rename_i hskip
    cases hk : s.records.lookup key with
    | none => rfl
    | some r =>
      have hd := hs.due hk
      have hlt : now < r.expiresAt := by
        simp only [isZero, beq_iff_eq] at hskip
        omega
      simp [Option.filter, hlt]
  · rw [foldl_visit_lookup]
    cases hk : s.records.lookup key with
    | none => simp
    | some r =>
      have hmem : (⟨key, r⟩ : Sigma fun _ : String => Record) ∈ s.records.entries :=
        AList.mem_lookup_iff.mp hk
      by_cases hr : r.expiresAt ≤ now
      · rw [if_pos ⟨_, hmem, rfl, hr⟩]
        simp [Option.filter, show ¬ now < r.expiresAt by omega]
      · rw [if_neg]
        · simp [Option.filter, show now < r.expiresAt by omega]
        · rintro ⟨⟨k, r'⟩, he, hke, hexp⟩
          obtain rfl : k = key := hke
          have hr' := AList.mem_lookup_iff.mpr he
          rw [hk, Option.mem_some_iff] at hr'
          subst hr'
          exact hr hexp

theorem cleanup_wf (hs : s.Wf) (now : Int) : (s.cleanup now).Wf := by
  have hsub : ∀ {key r}, (s.cleanup now).records.lookup key = some r →
      s.records.lookup key = some r ∧ now < r.expiresAt := by
    intro key r h
    simpa [cleanup_lookup hs now, Option.filter_eq_some_iff] using h
  have hpos : ∀ e ∈ s.records.entries, 0 < e.2.expiresAt := by
    intro e he
    have := hs.due (AList.mem_lookup_iff.mpr he)
    omega
  have hfold := foldl_visit_due now { s with nextCleanup := 0 } (by simp) hpos
  refine ⟨?_, fun {key r} h => ?_, fun h => hs.shaped (hsub h).1⟩
  · unfold Store.cleanup
    split
    · exact hs.nonneg
    · exact hfold.1
  · obtain ⟨hk, hlt⟩ := hsub h
    unfold Store.cleanup
    split
    · exact hs.due hk
    · exact hfold.2.2 _ (AList.mem_lookup_iff.mp hk) hlt

theorem cleanup_claims (hs : s.Wf) (now : Int) : (s.cleanup now).claims = s.claims.live now := by
  funext key
  simp only [Store.claims, Keyspace.live, cleanup_lookup hs now]
  cases s.records.lookup key with
  | none => rfl
  | some r => by_cases h : now < r.expiresAt <;> simp [Option.filter, h]

/-- Storing a shaped record that expires after the zero time keeps the schedule. -/
theorem insert_wf (hs : s.Wf) (hr : r.Shaped) (hpos : 0 < r.expiresAt) :
    ({ s with records := s.records.insert key r }.scheduleCleanup r.expiresAt).Wf := by
  obtain ⟨h0, hle, hmono⟩ := scheduleCleanup_due { s with records := s.records.insert key r } hpos
    hs.nonneg
  refine ⟨by omega, fun {key' r'} h => ?_, fun {key' r'} h => ?_⟩ <;>
    rw [scheduleCleanup_records] at h <;>
    by_cases hk : key' = key
  · subst hk
    obtain rfl : r = r' := by simpa using h
    exact ⟨h0, hle⟩
  · rw [AList.lookup_insert_ne hk] at h
    have := hs.due h
    exact ⟨h0, (hmono this.1).trans this.2⟩
  · subst hk
    obtain rfl : r = r' := by simpa using h
    exact hr
  · rw [AList.lookup_insert_ne hk] at h
    exact hs.shaped h

theorem erase_wf (hs : s.Wf) : ({ s with records := s.records.erase key } : Store).Wf := by
  have hsub : ∀ {key' r}, (s.records.erase key).lookup key' = some r →
      s.records.lookup key' = some r := by
    intro key' r h
    by_cases hk : key' = key
    · subst hk
      simp at h
    · rwa [AList.lookup_erase_ne hk] at h
  exact ⟨hs.nonneg, fun h => hs.due (hsub h), fun h => hs.shaped (hsub h)⟩

theorem insert_claims (s : Store) (r : Record) (expiresAt : Int) :
    ({ s with records := s.records.insert key r }.scheduleCleanup expiresAt).claims =
      Function.update s.claims key (some (r.claim, r.expiresAt)) := by
  funext key'
  by_cases hk : key' = key
  · subst hk
    simp [Store.claims]
  · simp [Store.claims, hk, AList.lookup_insert_ne hk]

theorem erase_claims (s : Store) : ({ s with records := s.records.erase key } : Store).claims =
    Function.update s.claims key none := by
  funext key'
  by_cases hk : key' = key
  · subst hk
    simp [Store.claims]
  · simp [Store.claims, hk, AList.lookup_erase_ne hk]

theorem claims_eq_some {e : Claim × Int} (h : s.claims key = some e) :
    ∃ r, s.records.lookup key = some r ∧ e = (r.claim, r.expiresAt) := by
  obtain ⟨r, hr, he⟩ := Option.map_eq_some_iff.mp h
  exact ⟨r, hr, he.symm⟩

theorem report_claim (h : r.Shaped) : r.claim.report = ⟨r.status, r.data⟩ := by
  rcases h with ⟨hs, hd⟩ | ⟨hs, -⟩ <;> simp [Record.claim, Claim.report, *]

theorem claim_fingerprint (r : Record) : r.claim.fingerprint = r.fingerprint := by
  unfold Record.claim
  split <;> rfl

/-- The owner test of `Complete` and `Abort`, against the swept store. -/
theorem owned_claims (hs : s.Wf) (now : Int) (key token : String) : s.claims.owned now key token =
    match (s.cleanup now).records.lookup key with
    | none => none
    | some r => if r.status ≠ .inProgress ∨ r.token ≠ token then none else some r.fingerprint := by
  simp only [Ledger.owned, ← cleanup_claims hs now, Store.claims]
  cases hk : (s.cleanup now).records.lookup key with
  | none => rfl
  | some r =>
    rcases (cleanup_wf hs now).shaped hk with ⟨h, -⟩ | ⟨h, -⟩ <;> simp [Record.claim, h]

/-- One call on the store answers as the table of its claims does, and leaves the store
of the table's next state, apart from claims that have expired. -/
theorem step_refines (hs : s.Wf) (h0 : 0 ≤ now) (call : Call) :
    (s.step now call).1 = (s.claims.step now call).1 ∧ (s.step now call).2.Wf ∧
      (s.step now call).2.claims.live now = (s.claims.step now call).2.live now := by
  have hw := cleanup_wf hs now
  have hc := cleanup_claims hs now
  have hlive : (s.cleanup now).claims.live now = s.claims.live now := by
    rw [hc, Keyspace.live_live le_rfl]
  cases call with
  | begin ctx r =>
    simp only [Store.step, Store.begin, Ledger.step, Prod.map]
    cases validateContext ctx with
    | some err => exact ⟨rfl, hs, rfl⟩
    | none =>
      simp only [Ledger.begin, ← hc, Store.claims]
      cases hk : (s.cleanup now).records.lookup r.key with
      | none =>
        refine ⟨rfl, insert_wf hw (.inl ⟨rfl, rfl⟩) (by have := r.ttl_pos; simp; omega), ?_⟩
        have hlt : now < now + r.ttl := by have := r.ttl_pos; omega
        rw [id, insert_claims, Keyspace.live_put hlt, hlive, Option.map_none, Keyspace.live_put hlt]
        rfl
      | some current =>
        have hf := claim_fingerprint current
        have hr := report_claim (hw.shaped hk)
        simp only [Option.map_some, hf, hr]
        split <;> exact ⟨rfl, hw, hlive⟩
  | complete ctx r =>
    simp only [Store.step, Store.complete, Ledger.step, Prod.map]
    cases validateContext ctx with
    | some err => exact ⟨rfl, hs, rfl⟩
    | none =>
      simp only [Ledger.complete, owned_claims hs now]
      cases hk : (s.cleanup now).records.lookup r.key with
      | none => exact ⟨rfl, hw, hlive⟩
      | some current =>
        by_cases hlost : current.status ≠ .inProgress ∨ current.token ≠ r.token
        · simp only [if_pos hlost]
          exact ⟨trivial, hw, hlive⟩
        · have hlt : now < now + r.ttl := by have := r.ttl_pos; omega
          simp only [if_neg hlost]
          refine ⟨trivial, insert_wf hw (.inr ⟨rfl, rfl⟩) (by simp; omega), ?_⟩
          rw [id, insert_claims, Keyspace.live_put hlt, hlive, Keyspace.live_put hlt]
          rfl
  | abort ctx r =>
    simp only [Store.step, Store.abort, Ledger.step, Prod.map]
    cases validateContext ctx with
    | some err => exact ⟨rfl, hs, rfl⟩
    | none =>
      simp only [Ledger.abort, owned_claims hs now]
      cases hk : (s.cleanup now).records.lookup r.key with
      | none => exact ⟨rfl, hw, hlive⟩
      | some current =>
        by_cases hlost : current.status ≠ .inProgress ∨ current.token ≠ r.token
        · simp only [if_pos hlost]
          exact ⟨trivial, hw, hlive⟩
        · simp only [if_neg hlost]
          refine ⟨trivial, erase_wf hw, ?_⟩
          rw [id, erase_claims, Keyspace.live_del, hlive, Keyspace.live_del]

end Memory

end Fries.Idempotency
