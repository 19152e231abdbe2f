import Fries.Idempotency.Store
import Fries.Lib.ErrorTree
import Fries.Lib.Program

/-! The executor as a program: it claims a key, runs a handler and settles the claim. -/
namespace Fries.Idempotency.Execution

/-- The types of values: some that are no pointers, with their zero values, and pointers. -/
structure Types where
  Base : Type
  Value : Base → Type
  zero : (b : Base) → Value b

inductive Ty (𝒯 : Types)
  | base (b : 𝒯.Base)
  | pointer (elem : Ty 𝒯)

variable {𝒯 : Types}

/-- A pointer is nil or points to a value. -/
abbrev Val : Ty 𝒯 → Type
  | .base b => 𝒯.Value b
  | .pointer elem => Option (Val elem)

def zero : (T : Ty 𝒯) → Val T
  | .base b => 𝒯.zero b
  | .pointer _ => none

/-- What an error is itself: one of the package with its text, one that `errors.Join` made, or one
from outside. -/
inductive Failure
  | own (text : String)
  | joined
  | other (text : String)

abbrev Error := ErrorTree Failure

def errInvalidContext : Error := .node (.own "idempotency: invalid context") []

def errInvalidKey : Error := .node (.own "idempotency: invalid key") []

def errInProgress : Error := .node (.own "idempotency: operation in progress") []

/-- `fmt.Errorf` with a wrapped error at the end. -/
def wrap (text : String) (err : Error) : Error := .node (.own text) [err]

/-- `errors.Join` of an error and one that may be nil. -/
def join (err : Error) (other : Option Error) : Error := .node .joined (err :: other.toList)

/-- A context: the caller's, or one made from another. -/
inductive Context
  | caller (id : Nat)
  | withoutCancel (parent : Context)
  | withTimeout (parent : Context) (timeout : Int)

def beginAcquired : UInt8 := 1

def beginInProgress : UInt8 := 2

def beginCompleted : UInt8 := 3

/-- What a store says about a key; other numbers than the three are possible. -/
structure Begun where
  status : UInt8
  result : Bytes

/-- The steps of the executor, for values of one type. -/
inductive Command (T : Ty 𝒯)
  | cause (ctx : Context)
  | random
  | begin (ctx : Context) (request : BeginRequest)
  | handler (ctx : Context)
  | valueHandler (ctx : Context)
  | marshal (value : Val T)
  | unmarshal (S : Ty 𝒯) (data : Bytes) (destination : Val S)
  | complete (ctx : Context) (request : CompleteRequest)
  | abort (ctx : Context) (request : AbortRequest)

/-- The random source gives the hexadecimal text of its bytes, a decoder the value it leaves in
its destination. -/
abbrev Response {T : Ty 𝒯} : Command T → Type
  | .cause _ => Option Error
  | .random => Except Error String
  | .begin .. => Except Error Begun
  | .handler _ => Option Error
  | .valueHandler _ => Val T × Option Error
  | .marshal _ => Except Error Bytes
  | .unmarshal S .. => Except Error (Val S)
  | .complete .. => Option Error
  | .abort .. => Option Error

abbrev Program (T : Ty 𝒯) := Prog (Command T) Response

def issue {T : Ty 𝒯} (c : Command T) : Program T (Response c) := .call c .ret

/-- The configuration, which ignores times that are not positive. -/
structure Executor where
  executionTTL : Int := 30 * second
  resultTTL : Int := 24 * 3600 * second
  finalizationTimeout : Int := 5 * second
  execution_pos : 0 < executionTTL := by decide
  result_pos : 0 < resultTTL := by decide
  finalization_pos : 0 < finalizationTimeout := by decide

inductive Setting
  | withFinalizationTimeout (timeout : Int)
  | withExecutionTTL (ttl : Int)
  | withResultTTL (ttl : Int)

def Setting.apply (c : Executor) : Setting → Executor
  | .withFinalizationTimeout timeout =>
    if h : 0 < timeout then { c with finalizationTimeout := timeout, finalization_pos := h } else c
  | .withExecutionTTL ttl =>
    if h : 0 < ttl then { c with executionTTL := ttl, execution_pos := h } else c
  | .withResultTTL ttl => if h : 0 < ttl then { c with resultTTL := ttl, result_pos := h } else c

def new (options : List Setting) : Executor := options.foldl Setting.apply {}

structure ExecuteConfig where
  executionTTL : Int
  resultTTL : Int
  fingerprint : String
  execution_pos : 0 < executionTTL
  result_pos : 0 < resultTTL

inductive ExecuteSetting
  | withExecutionTTL (ttl : Int)
  | withResultTTL (ttl : Int)
  | withFingerprint (fingerprint : String)

def ExecuteSetting.apply (c : ExecuteConfig) : ExecuteSetting → ExecuteConfig
  | .withExecutionTTL ttl =>
    if h : 0 < ttl then { c with executionTTL := ttl, execution_pos := h } else c
  | .withResultTTL ttl => if h : 0 < ttl then { c with resultTTL := ttl, result_pos := h } else c
  | .withFingerprint fingerprint => { c with fingerprint := fingerprint }

def newExecuteConfig (e : Executor) (options : List ExecuteSetting) : ExecuteConfig :=
  options.foldl ExecuteSetting.apply
    ⟨e.executionTTL, e.resultTTL, "", e.execution_pos, e.result_pos⟩

structure Claim where
  key : String
  token : String
  resultTTL : Int
  ttl_pos : 0 < resultTTL

/-- What `begin` returns without an error. -/
inductive BeginResult
  | claimed (claim : Claim)
  | replayed (result : Bytes)

/-- What a call ends with. -/
inductive Outcome (α : Type)
  | panicked (text : String)
  | returned (result : α)

structure Result (T : Ty 𝒯) where
  value : Val T
  replayed : Bool

def newToken {T : Ty 𝒯} : Program T (Except Error String) := do
  match ← issue .random with
  | .error err => return .error (wrap "idempotency: generate token" err)
  | .ok token => return .ok token

def validateExecution (ctx : Option Context) (key : String) : Except Error Context :=
  match ctx with
  | none => .error errInvalidContext
  | some ctx => if key = "" then .error errInvalidKey else .ok ctx

namespace Executor

variable {T : Ty 𝒯} (e : Executor)

def finalizationContext (ctx : Context) : Context :=
  .withTimeout (.withoutCancel ctx) e.finalizationTimeout

def complete (claim : Claim) (ctx : Context) (result : Bytes) : Program T (Option Error) :=
  issue (.complete (e.finalizationContext ctx)
    ⟨claim.key, claim.token, result, claim.resultTTL, claim.ttl_pos⟩)

def abort (claim : Claim) (ctx : Context) : Program T (Option Error) :=
  issue (.abort (e.finalizationContext ctx) ⟨claim.key, claim.token⟩)

def begin (ctx : Context) (key : String) (options : List ExecuteSetting) :
    Program T (Except Error BeginResult) := do
  match ← issue (.cause ctx) with
  | some err => return .error err
  | none =>
    let execution := newExecuteConfig e options
    match ← newToken with
    | .error err => return .error err
    | .ok token =>
      let currentClaim : Claim := ⟨key, token, execution.resultTTL, execution.result_pos⟩
      match ← issue (.begin ctx ⟨key, token, execution.fingerprint, execution.executionTTL,
        execution.execution_pos⟩) with
      | .error err => return .error err
      | .ok result =>
        match ← issue (.cause ctx) with
        | some err =>
          if result.status = beginAcquired then
            let abortErr ← e.abort currentClaim ctx
            return .error (join err abortErr)
          else return .error err
        | none =>
          if result.status = beginAcquired then return .ok (.claimed currentClaim)
          else if result.status = beginInProgress then return .error errInProgress
          else if result.status = beginCompleted then return .ok (.replayed result.result)
          else return .error (.node (.own ("idempotency: invalid begin status " ++
            toString result.status.toNat)) [])

end Executor

/-- A pointer is decoded into a new value for it to point to. -/
def decodeValue {T : Ty 𝒯} (data : Bytes) : Program T (Except Error (Val T)) :=
  match T with
  | .base b => issue (.unmarshal (.base b) data (zero (.base b)))
  | .pointer elem => do
    match ← issue (.unmarshal elem data (zero elem)) with
    | .error err => return .error err
    | .ok destination => return .ok (some destination)

/-- `DoValue`. `executor` is `none` for nil, and `handler` tells whether there is one. -/
def doValue {T : Ty 𝒯} (ctx : Option Context) (executor : Option Executor) (key : String)
    (handler : Bool) (options : List ExecuteSetting) :
    Program T (Outcome (Result T × Option Error)) :=
  match executor with
  | none => return .panicked "idempotency: nil executor"
  | some e =>
    match validateExecution ctx key with
    | .error err => return .returned (⟨zero T, false⟩, some err)
    | .ok ctx =>
      if !handler then return .panicked "idempotency: nil value handler"
      else do
        match ← e.begin ctx key options with
        | .error err => return .returned (⟨zero T, false⟩, some err)
        | .ok (.replayed data) =>
          match ← decodeValue data with
          | .error err =>
            return .returned (⟨zero T, true⟩, some (wrap "idempotency: decode result" err))
          | .ok value => return .returned (⟨value, true⟩, none)
        | .ok (.claimed claim) =>
          let (value, err) ← issue (.valueHandler ctx)
          match err with
          | some err =>
            let abortErr ← e.abort claim ctx
            return .returned (⟨value, false⟩, some (join err abortErr))
          | none =>
            match ← issue (.marshal value) with
            | .error err =>
              return .returned (⟨value, false⟩, some (wrap "idempotency: encode result" err))
            | .ok encoded =>
              let err ← e.complete claim ctx encoded
              return .returned (⟨value, false⟩, err)

end Fries.Idempotency.Execution
