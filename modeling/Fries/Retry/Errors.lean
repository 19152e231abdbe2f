import Fries.Lib.ErrorTree

/-! The errors of a retried operation, with markers anywhere in them. -/
namespace Fries.Retry

/-- An error by how it unwraps: not at all, to one error, or to several. The markers are the two
that the package puts around an error; the delay of one is never negative. -/
inductive Err (E : Type) where
  | plain (e : E)
  | wrapped (e : E) (err : Err E)
  | joined (e : E) (errs : List (Err E))
  | permanent (err : Err E)
  | after (delay : Nat) (err : Err E)

namespace Err

variable {E A : Type} {err : Err E}

mutual

/-- An error with the errors it unwraps to. -/
def tree : Err E → ErrorTree (Err E)
  | .plain e => .node (.plain e) []
  | .wrapped e err => .node (.wrapped e err) [tree err]
  | .joined e errs => .node (.joined e errs) (trees errs)
  | .permanent err => .node (.permanent err) [tree err]
  | .after delay err => .node (.after delay err) [tree err]

def trees : List (Err E) → List (ErrorTree (Err E))
  | [] => []
  | err :: errs => tree err :: trees errs

end

/-- `errors.AsType`: the first error of the tree, in depth-first order, of the wanted type. -/
def asType (target : Err E → Option A) (err : Err E) : Option A := err.tree.asType target

def permanentError : Err E → Option Unit
  | .permanent _ => some ()
  | _ => none

def afterError : Err E → Option Nat
  | .after delay _ => some delay
  | _ => none

/-- The error is one of the two markers. -/
def isMarker : Err E → Bool
  | .permanent _ | .after .. => true
  | _ => false

/-- `errors.Is` against `context.Canceled` or `context.DeadlineExceeded`, for what an error
carries itself. -/
def ofContext (isContext : E → Bool) : Err E → Option Unit
  | .plain e | .wrapped e _ | .joined e _ => if isContext e then some () else none
  | _ => none

/-- The loop of `inspectError` that takes markers off the root. -/
def peel : Err E → Err E
  | .permanent err => peel err
  | .after _ err => peel err
  | err => err

/-- One error is another or occurs below it. -/
def Within (x err : Err E) : Prop := x ∈ err.tree.values

theorem isMarker_peel (err : Err E) : err.peel.isMarker = false := by
  induction err using peel.induct with
  | case1 err ih => exact ih
  | case2 delay err ih => exact ih
  | case3 err hpermanent hafter =>
    rw [peel.eq_3 err hpermanent hafter]
    cases err with
    | permanent err => exact absurd rfl (hpermanent err)
    | after delay err => exact absurd rfl (hafter delay err)
    | plain | wrapped | joined => rfl

theorem peel_of_not_isMarker (h : err.isMarker = false) : err.peel = err := by
  cases err with
  | permanent | after => cases h
  | plain | wrapped | joined => rfl

/-- The search finds something exactly if an error of the wanted type occurs in the tree. -/
theorem asType_isSome (target : Err E → Option A) (err : Err E) :
    (asType target err).isSome = true ↔ ∃ x, Within x err ∧ (target x).isSome = true := by
  rw [asType, ErrorTree.asType_eq, List.findSome?_isSome_iff]
  rfl

end Err

variable {E : Type}

/-- What the loop reads off an error: the error without markers at its root, whether it is
permanent, and the delay it asks for. -/
structure ErrorInfo (E : Type) where
  cause : Err E
  permanent : Bool
  overrideDelay : Option Nat

def inspectError (err : Err E) : ErrorInfo E where
  cause := err.peel
  permanent := (Err.asType Err.permanentError err).isSome
  overrideDelay := Err.asType Err.afterError err

/-- An error is permanent exactly if a permanent marker occurs anywhere in it. -/
theorem inspectError_permanent (err : Err E) :
    (inspectError err).permanent = true ↔ ∃ inner, Err.Within (.permanent inner) err := by
  rw [inspectError, Err.asType_isSome]
  constructor
  · rintro ⟨x, hx, h⟩
    cases x with
    | permanent inner => exact ⟨inner, hx⟩
    | _ => cases h
  · rintro ⟨inner, hx⟩
    exact ⟨_, hx, rfl⟩

def defaultRetryIf (isContext : E → Bool) (err : Err E) : Bool :=
  (Err.asType (Err.ofContext isContext) err).isNone

end Fries.Retry
