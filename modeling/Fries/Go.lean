import Fries.Lib.Word

/-! Parts of Go's library. Times are nanoseconds since the zero `time.Time`. -/
namespace Fries

def microsecond : Int := 1000

def millisecond : Int := 1000 * microsecond

def second : Int := 1000 * millisecond

/-- The zero `time.Time` stands for an unset instant. -/
def isZero (t : Int) : Bool := t == 0

/-- The instant Unix time counts from. -/
def unixEpoch : Int := 62135596800 * second

/-- `Time.UnixMicro`, which drops the part below a microsecond. -/
def unixMicro (t : Int) : Int := (t - unixEpoch) / microsecond

/-- The value a 64-bit signed integer wraps around to. -/
def wrap64 (x : Int) : Int :=
  (x + 9223372036854775808) % 18446744073709551616 - 9223372036854775808

/-- `Time.UnixNano`, whose 64 bits wrap around. -/
def unixNano (t : Int) : Int := wrap64 (t - unixEpoch)

/-- `Time.Unix`, the seconds since Unix time began. -/
def unix (t : Int) : Int := wrap64 (t / second - 62135596800)

/-- `time.Unix` without nanoseconds. The seconds since the zero `time.Time` wrap around. -/
def unixTime (seconds : Int) : Int := wrap64 (seconds + 62135596800) * second

def maxInt64 : Int := 9223372036854775807

variable {x : Int}

theorem wrap64_eq (h : Word.Fits x) : wrap64 x = x := by
  unfold Word.Fits at h
  unfold wrap64
  omega

/-- A sum of two numbers that is too large is negative. -/
theorem wrap64_neg {y : Int} (hx : Word.Fits x) (hy : Word.Fits y) (h : maxInt64 < x + y) :
    wrap64 (x + y) < 0 := by
  unfold Word.Fits at hx hy
  unfold maxInt64 at h
  unfold wrap64
  omega

/-- `Time.Sub`, which stops at the longest durations. -/
def timeSub (t u : Int) : Int :=
  if maxInt64 < t - u then maxInt64 else if t - u < -maxInt64 - 1 then -maxInt64 - 1 else t - u

/-- The time from one instant to another is positive exactly if that is later. -/
theorem timeSub_pos {t u : Int} : 0 < timeSub t u ↔ u < t := by
  unfold timeSub maxInt64
  split
  · omega
  · split <;> omega

/-- What a call sees of the context it is given. -/
inductive Ctx
  | nil
  | live
  | done (cause : String)
  deriving DecidableEq, Repr

/-- `context.Cause`. -/
def Ctx.cause : Ctx → Option String
  | .done cause => some cause
  | _ => none

/-- An error: one of a package's own, or the one `errors.Join` makes of several. -/
inductive Err (E : Type)
  | of (err : E)
  | joined (errs : List (Err E))

/-- `errors.Join`, which leaves out nil errors and is nil if there are no others. -/
def Err.join {E : Type} (errs : List (Option (Err E))) : Option (Err E) :=
  match errs.filterMap id with
  | [] => none
  | errs => some (.joined errs)

abbrev Bytes := List UInt8

theorem bind_ok {ε α β : Type} {x : Except ε α} {f : α → Except ε β} {b : β} :
    (x >>= f) = .ok b ↔ ∃ a, x = .ok a ∧ f a = .ok b := by
  cases x with
  | error e | ok a => simp [bind, Except.bind]

end Fries
