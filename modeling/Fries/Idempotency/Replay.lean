import Fries.Idempotency.Finalization

/-! A replay returns what the first execution returned, unless that is a nil pointer. -/
namespace Fries.Idempotency.Execution

open Prog

variable {𝒯 : Types} {T : Ty 𝒯}

/-- A codec writes a nil pointer as null, and null leaves a fresh destination as it is. -/
structure Codec (𝒯 : Types) where
  marshal : (T : Ty 𝒯) → Val T → Except Error Bytes
  unmarshal : (T : Ty 𝒯) → Bytes → Val T → Except Error (Val T)
  null : Bytes
  marshal_nil : ∀ elem, marshal (.pointer elem) none = .ok null
  unmarshal_null : ∀ T, unmarshal T null (zero T) = .ok (zero T)

variable {key : String} {t t' : Trace T} {result : Result T} {err : Option Error} {c : Codec 𝒯}
  {data encoded : Bytes} {value : Val T}

end Fries.Idempotency.Execution
