import Fries.Idempotency.Executor
import Fries.Lib.Trace

/-! An acquired claim is completed or aborted exactly once, unless encoding the result fails. -/
namespace Fries.Idempotency.Execution

open Prog

variable {𝒯 : Types} {T : Ty 𝒯}

abbrev Trace (T : Ty 𝒯) := List ((c : Command T) × Response c)

/-- An attempt to complete a claim with a result, or to abort it without one. -/
structure Final where
  ctx : Context
  key : String
  token : String
  result : Option Bytes
  err : Option Error

/-- The tokens of the claims that were acquired. -/
def acquired (t : Trace T) : List String :=
  t.filterMap fun
    | ⟨.begin _ r, .ok result⟩ => if result.status = beginAcquired then some r.token else none
    | _ => none

/-- The results of completed keys that were found. -/
def replays (t : Trace T) : List Bytes :=
  t.filterMap fun
    | ⟨.begin .., .ok result⟩ =>
      if result.status = beginCompleted then some result.result else none
    | _ => none

/-- The errors that handlers returned. -/
def handled (t : Trace T) : List (Option Error) :=
  t.filterMap fun
    | ⟨.handler _, err⟩ => some err
    | ⟨.valueHandler _, result⟩ => some result.2
    | _ => none

/-- The failed encodings. -/
def unencoded (t : Trace T) : List Error :=
  t.filterMap fun
    | ⟨.marshal _, .error err⟩ => some err
    | _ => none

def finals (t : Trace T) : List Final :=
  t.filterMap fun
    | ⟨.complete ctx r, err⟩ => some ⟨ctx, r.key, r.token, some r.result, err⟩
    | ⟨.abort ctx r, err⟩ => some ⟨ctx, r.key, r.token, none, err⟩
    | _ => none

/-- All that is asked of a trace. -/
structure Seen (t : Trace T) (tokens : List String) (found : List Bytes)
    (errs : List (Option Error)) (failures : List Error) (settled : List Final) : Prop where
  acquired : acquired t = tokens
  replays : replays t = found
  handled : handled t = errs
  unencoded : unencoded t = failures
  finals : finals t = settled

theorem seen_append {t t' : Trace T} {as as' rs rs' hs hs' us us' fs fs'}
    (h : Seen t as rs hs us fs) (h' : Seen t' as' rs' hs' us' fs') :
    Seen (t ++ t') (as ++ as') (rs ++ rs') (hs ++ hs') (us ++ us') (fs ++ fs') := by
  obtain ⟨rfl, rfl, rfl, rfl, rfl⟩ := h
  obtain ⟨rfl, rfl, rfl, rfl, rfl⟩ := h'
  exact ⟨List.filterMap_append, List.filterMap_append, List.filterMap_append,
    List.filterMap_append, List.filterMap_append⟩

variable {e : Executor} {ctx : Context} {key : String} {options : List ExecuteSetting}
  {t t' : Trace T} {claim : Claim} {r : Option Error}

variable {caller : Option Context} {handler : Bool} {err : Option Error} {data : Bytes}
  {result : Result T}

section Claimed

variable {t₁ t₂ t₃ : Trace T} (hkey : claim.key = key) (hseen : Seen t₁ [claim.token] [] [] [] [])

include hseen hkey

end Claimed

end Fries.Idempotency.Execution
