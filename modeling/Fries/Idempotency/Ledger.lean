import Fries.Idempotency.Store
import Fries.Lib.Keyspace

/-! The purpose of an idempotency store: a table of claims without the expired ones. -/
namespace Fries.Idempotency

/-- A key is either held by a token or carries the result of its one execution. -/
inductive Claim
  | held (token fingerprint : String)
  | done (fingerprint : String) (result : Bytes)
  deriving DecidableEq

def Claim.fingerprint : Claim → String
  | .held _ fingerprint | .done fingerprint _ => fingerprint

/-- What a second caller is told about a claim. -/
def Claim.report : Claim → BeginResult
  | .held _ _ => ⟨.inProgress, []⟩
  | .done _ result => ⟨.completed, result⟩

abbrev Ledger := Keyspace String Claim

namespace Ledger

variable {l l' : Ledger} {now : Int} {key token : String}

def begin (l : Ledger) (now : Int) (r : BeginRequest) : Except Error BeginResult × Ledger :=
  match l.live now r.key with
  | none =>
    (.ok ⟨.acquired, []⟩,
      Function.update l r.key (some (.held r.token r.fingerprint, now + r.ttl)))
  | some (c, _) =>
    if r.fingerprint ≠ "" ∧ r.fingerprint ≠ c.fingerprint then (.error .keyConflict, l)
    else (.ok c.report, l)

/-- The claim `token` may still settle, by its fingerprint. -/
def owned (l : Ledger) (now : Int) (key token : String) : Option String :=
  match l.live now key with
  | some (.held owner fingerprint, _) => if owner = token then some fingerprint else none
  | _ => none

def complete (l : Ledger) (now : Int) (r : CompleteRequest) : Except Error Unit × Ledger :=
  match l.owned now r.key r.token with
  | none => (.error .claimLost, l)
  | some fingerprint =>
    (.ok (), Function.update l r.key (some (.done fingerprint r.result, now + r.ttl)))

def abort (l : Ledger) (now : Int) (r : AbortRequest) : Except Error Unit × Ledger :=
  match l.owned now r.key r.token with
  | none => (.error .claimLost, l)
  | some _ => (.ok (), Function.update l r.key none)

def step (l : Ledger) (now : Int) : Call → Reply × Ledger
  | .begin ctx r =>
    match validateContext ctx with
    | some err => (.begin (.error err), l)
    | none => (.begin (l.begin now r).1, (l.begin now r).2)
  | .complete ctx r =>
    match validateContext ctx with
    | some err => (.complete (.error err), l)
    | none => (.complete (l.complete now r).1, (l.complete now r).2)
  | .abort ctx r =>
    match validateContext ctx with
    | some err => (.abort (.error err), l)
    | none => (.abort (l.abort now r).1, (l.abort now r).2)

theorem owned_eq_some {fingerprint : String} : l.owned now key token = some fingerprint ↔
    ∃ deadline, l.live now key = some (.held token fingerprint, deadline) := by
  unfold owned
  split
  · rename_i owner f deadline h
    by_cases ho : owner = token <;> simp [h, ho]
  · rename_i h
    simp only [reduceCtorEq, false_iff]
    rintro ⟨deadline, hd⟩
    exact h _ _ _ hd

theorem owned_congr (h : l.live now = l'.live now) : l.owned now key token =
    l'.owned now key token := by
  simp only [owned, h]

/-- A second caller is refused or told about the claim, and changes nothing. -/
theorem begin_of_live {r : BeginRequest} {c : Claim} {deadline : Int}
    (h : l.live now r.key = some (c, deadline)) :
    l.begin now r = (if r.fingerprint ≠ "" ∧ r.fingerprint ≠ c.fingerprint then
      .error .keyConflict else .ok c.report, l) := by
  simp only [begin, h]
  split <;> rfl

/-- Two tables with the same unexpired claims answer alike and stay alike. -/
theorem step_congr (h : l.live now = l'.live now) (call : Call) :
    (l.step now call).1 = (l'.step now call).1 ∧
      (l.step now call).2.live now = (l'.step now call).2.live now := by
  cases call with
  | begin ctx r =>
    simp only [step]
    cases validateContext ctx with
    | some err => exact ⟨rfl, h⟩
    | none =>
      simp only [begin, h]
      split
      · refine ⟨rfl, ?_⟩
        simp only [Keyspace.live_put (show now < now + r.ttl by have := r.ttl_pos; omega), h]
      · split <;> exact ⟨rfl, h⟩
  | complete ctx r =>
    simp only [step]
    cases validateContext ctx with
    | some err => exact ⟨rfl, h⟩
    | none =>
      simp only [complete, owned_congr h]
      split
      · exact ⟨rfl, h⟩
      · refine ⟨rfl, ?_⟩
        simp only [Keyspace.live_put (show now < now + r.ttl by have := r.ttl_pos; omega), h]
  | abort ctx r =>
    simp only [step]
    cases validateContext ctx with
    | some err => exact ⟨rfl, h⟩
    | none =>
      simp only [abort, owned_congr h]
      split
      · exact ⟨rfl, h⟩
      · exact ⟨rfl, by simp only [Keyspace.live_del, h]⟩

end Ledger

def ledger : Machine Ledger Call Reply := ⟨fun _ => none, Ledger.step⟩

def Call.key : Call → String
  | .begin _ r => r.key
  | .complete _ r => r.key
  | .abort _ r => r.key

theorem ledger_local : ledger.Local Call.key := by
  intro l now call
  have howned : ∀ key token, Ledger.owned (fun _ => l key) now key token =
      Ledger.owned l now key token := fun _ _ => rfl
  cases call with
  | begin ctx r =>
    simp only [ledger, Ledger.step, Call.key, Ledger.begin, Keyspace.live]
    cases validateContext ctx with
    | some err => simp
    | none =>
      cases (l r.key).filter fun e => now < e.2 with
      | none => simp
      | some e =>
        by_cases hf : r.fingerprint ≠ "" ∧ r.fingerprint ≠ e.1.fingerprint <;> simp [hf]
  | complete ctx r =>
    simp only [ledger, Ledger.step, Call.key, Ledger.complete, howned]
    cases validateContext ctx with
    | some err => simp
    | none => cases Ledger.owned l now r.key r.token <;> simp
  | abort ctx r =>
    simp only [ledger, Ledger.step, Call.key, Ledger.abort, howned]
    cases validateContext ctx with
    | some err => simp
    | none => cases Ledger.owned l now r.key r.token <;> simp

end Fries.Idempotency
