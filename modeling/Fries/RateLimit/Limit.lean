import Fries.Go
import Fries.Lib.Machine

/-! Limits, requests and decisions of the rate limiter. -/
namespace Fries.RateLimit

structure Limit where
  rate : Int
  period : Int
  burst : Int
  deriving DecidableEq, Repr

def divideRoundUp (value divisor : Int) : Int :=
  let result := value.tdiv divisor
  if value.tmod divisor ≠ 0 then result + 1 else result

/-- The five ways a limit is refused, all of them `ErrInvalidLimit`. -/
inductive LimitError
  | rate
  | period
  | burst
  | interval
  | overflow
  deriving DecidableEq, Repr

def validateLimit (limit : Limit) : Except LimitError Unit :=
  if limit.rate ≤ 0 then .error .rate
  else if limit.period ≤ 0 then .error .period
  else if limit.burst ≤ 0 then .error .burst
  else if limit.rate > limit.period.tdiv microsecond then .error .interval
  else
    let intervalNanos := divideRoundUp limit.period limit.rate
    let interval := divideRoundUp intervalNanos microsecond
    if limit.burst > maxInt64.tdiv interval ∨
        interval * limit.burst > maxInt64.tdiv microsecond then .error .overflow
    else .ok ()

/-- Microseconds between two units; each of the two stores carries a copy of this function. -/
def emissionInterval (limit : Limit) : Int :=
  let interval := limit.period.tdiv limit.rate
  let interval := if limit.period.tmod limit.rate ≠ 0 then interval + 1 else interval
  let result := interval.tdiv microsecond
  if interval.tmod microsecond ≠ 0 then result + 1 else result

/-- Callers of a store provide a valid limit and a cost between one and the burst. -/
structure TakeRequest where
  key : String
  limit : Limit
  cost : Int
  valid : validateLimit limit = .ok ()
  cost_pos : 1 ≤ cost
  cost_le : cost ≤ limit.burst

structure Decision where
  limit : Limit
  allowed : Bool
  remaining : Int
  retryAfter : Int
  resetAfter : Int
  deriving DecidableEq, Repr

/-- What `parseDecision` finds wrong with a script's reply. -/
inductive ScriptError
  | length (length : Nat)
  | type (index : Nat) (name : String)
  | allowed (value : Int)
  | values (values : List Int)
  deriving DecidableEq, Repr

inductive Error
  | invalidContext
  | cause (text : String)
  | take (key : String) (err : ScriptError)
  deriving DecidableEq, Repr

inductive Call
  | take (ctx : Ctx) (request : TakeRequest)
  | reset (ctx : Ctx) (key : String)

inductive Reply
  | take (decision : Except Error Decision)
  | reset (result : Except Error Unit)
  deriving DecidableEq

def validateContext : Ctx → Option Error
  | .nil => some .invalidContext
  | ctx => ctx.cause.map .cause

variable {limit : Limit} {divisor value : Int}

theorem divideRoundUp_eq (hv : 0 ≤ value) : divideRoundUp value divisor =
      if value % divisor ≠ 0 then value / divisor + 1 else value / divisor := by
  simp only [divideRoundUp, Int.tdiv_eq_ediv_of_nonneg hv, Int.tmod_eq_emod_of_nonneg hv]

theorem divideRoundUp_pos (hv : 0 < value) (hd : 0 < divisor) :
    0 < divideRoundUp value divisor := by
  rw [divideRoundUp_eq hv.le]
  have hq : 0 ≤ value / divisor := Int.ediv_nonneg hv.le hd.le
  split
  · omega
  · rename_i hmod
    have hdiv := Int.mul_ediv_add_emod value divisor
    rcases hq.lt_or_eq with h | h
    · exact h
    · rw [← h] at hdiv
      omega

/-- What every check of `validateLimit` leaves behind. -/
structure Limit.Valid (limit : Limit) : Prop where
  rate_pos : 0 < limit.rate
  period_pos : 0 < limit.period
  burst_pos : 0 < limit.burst
  interval_pos : 0 < emissionInterval limit
  window : emissionInterval limit * limit.burst ≤ maxInt64.tdiv microsecond

theorem valid_of_validateLimit (h : validateLimit limit = .ok ()) : limit.Valid := by
  unfold validateLimit at h
  split at h
  · cases h
  rename_i hr
  split at h
  · cases h
  rename_i hp
  split at h
  · cases h
  rename_i hb
  split at h
  · cases h
  simp only [ite_eq_right_iff, reduceCtorEq, imp_false, not_or] at h
  have hpos := divideRoundUp_pos (divideRoundUp_pos (Int.not_le.mp hp) (Int.not_le.mp hr))
    (show 0 < microsecond by decide)
  exact ⟨Int.not_le.mp hr, Int.not_le.mp hp, Int.not_le.mp hb, hpos, Int.not_lt.mp h.2⟩

end Fries.RateLimit
