import Fries.Go
import Fries.Lib.Machine

/-! The contract of an idempotency store: requests, results and errors. -/
namespace Fries.Idempotency

inductive BeginStatus
  | acquired
  | inProgress
  | completed
  deriving DecidableEq, Repr

/-- The contract requires a positive time to live. -/
structure BeginRequest where
  key : String
  token : String
  fingerprint : String
  ttl : Int
  ttl_pos : 0 < ttl

structure BeginResult where
  status : BeginStatus
  result : Bytes
  deriving DecidableEq, Repr

structure CompleteRequest where
  key : String
  token : String
  result : Bytes
  ttl : Int
  ttl_pos : 0 < ttl

structure AbortRequest where
  key : String
  token : String

/-- The sentinel errors of the package, a context's cause, and the failures the Redis
store reports about the reply of a script. -/
inductive Error
  | invalidContext
  | keyConflict
  | claimLost
  | cause (text : String)
  | scriptReply (script key : String)
  | scriptStatus (key : String)
  | scriptStatusCode (key : String) (code : Int)
  | scriptResult (key : String)
  deriving DecidableEq, Repr

inductive Call
  | begin (ctx : Ctx) (request : BeginRequest)
  | complete (ctx : Ctx) (request : CompleteRequest)
  | abort (ctx : Ctx) (request : AbortRequest)

inductive Reply
  | begin (result : Except Error BeginResult)
  | complete (result : Except Error Unit)
  | abort (result : Except Error Unit)
  deriving DecidableEq

/-- Both stores refuse a nil context and one that is already done. -/
def validateContext : Ctx → Option Error
  | .nil => some .invalidContext
  | .live => none
  | .done cause => some (.cause cause)

end Fries.Idempotency
