import Fries.RateLimit.Equivalence

/-! The limiter: the checks in front of a store, which apply one limit to all keys. -/
namespace Fries.RateLimit

/-- `New` returns no limiter for an invalid limit. -/
structure Limiter where
  limit : Limit
  valid : validateLimit limit = .ok ()

namespace Limiter

inductive Failure
  | context (err : Error)
  | invalidKey
  | invalidCost
  | take (key : String) (err : Error)
  | reset (key : String) (err : Error)
  deriving DecidableEq

inductive Request
  | allowN (ctx : Ctx) (key : String) (cost : Int)
  | reset (ctx : Ctx) (key : String)

def Request.allow (ctx : Ctx) (key : String) : Request := .allowN ctx key 1

variable {σ : Type} (l : Limiter)

/-- The call on the store that a request leads to once it has passed all checks. -/
def check : Request → Except Failure Call
  | .allowN ctx key cost =>
    match validateContext ctx with
    | some err => .error (.context err)
    | none =>
      if key = "" then .error .invalidKey
      else if h : cost < 1 ∨ cost > l.limit.burst then .error .invalidCost
      else .ok (.take ctx ⟨key, l.limit, cost, l.valid, by omega, by omega⟩)
  | .reset ctx key =>
    match validateContext ctx with
    | some err => .error (.context err)
    | none => if key = "" then .error .invalidKey else .ok (.reset ctx key)

/-- What is returned for the answer of the store; a reset returns no decision. -/
def result (key : String) : Reply → Except Failure (Option Decision)
  | .take (.error err) => .error (.take key err)
  | .take (.ok decision) => .ok (some { decision with limit := l.limit })
  | .reset (.error err) => .error (.reset key err)
  | .reset (.ok ()) => .ok none

def serve (store : Machine σ Call Reply) :
    Machine σ Request (Except Failure (Option Decision)) where
  init := store.init
  step s now request :=
    match l.check request with
    | .error err => (.error err, s)
    | .ok call => (store.step s now call).map (l.result call.key) id

end Limiter

variable {last now : Int} {s : Memory.Store} {readable : Int → Int → Bool} {keyPrefix : String}
  {db : Redis.Db}

theorem simulates_later (hR : Simulates keyPrefix last s db) (hle : last ≤ now) :
    Simulates keyPrefix now s db :=
  ⟨⟨hR.consistent, Arrivals.level_congr (unixMicro_mono hle) hR.level⟩, hR.timely,
    Arrivals.bounded_later hR.bounded (unixMicro_mono hle)⟩

/-- Whatever a limiter is asked, valid or not, it answers alike over both stores. -/
theorem limiters_answer_alike (l : Limiter) (hr : Redis.Expires readable) (keyPrefix : String)
    (start : Int) {requests : List (Int × Limiter.Request)}
    (ordered : Machine.Ordered start requests) :
    (l.serve memory).replies memory.init requests =
      (l.serve (redis readable keyPrefix)).replies (fun _ => none) requests := by
  apply Machine.replies_of_simulation (R := Simulates keyPrefix) ?_ ?_ ordered
  · intro last s db now request hR hle
    simp only [Limiter.serve]
    cases l.check request with
    | error err => exact ⟨rfl, simulates_later hR hle⟩
    | ok call =>
      obtain ⟨hreply, hnext⟩ := simulates_step hr call hR hle
      exact ⟨congrArg (l.result call.key) hreply, hnext⟩
  · exact simulates_empty keyPrefix start

theorem limiters_answer_alike_invalid :
    let l : Limiter := ⟨⟨1000, second, 2⟩, by decide⟩
    (l.serve (redis (fun _ _ => true) "p:")).replies (fun _ => none)
        [(0, .allow .live ""), (1, .allowN .live "k" 3), (2, .allow .live "k")] =
      [.error .invalidKey, .error .invalidCost,
        .ok (some ⟨⟨1000, second, 2⟩, true, 1, 0, millisecond⟩)] := by
  intro l
  exact (limiters_answer_alike l (fun _ => rfl) "p:" 0 (by decide)).symm.trans (by decide)

end Fries.RateLimit
