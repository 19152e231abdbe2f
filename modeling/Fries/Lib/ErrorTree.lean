import Mathlib.Data.List.Basic

/-! Errors as trees of the errors they unwrap to, searched depth first. -/
namespace Fries

inductive ErrorTree (A : Type)
  | node (value : A) (unwrapped : List (ErrorTree A))

namespace ErrorTree

variable {A B : Type}

/-- The value at the root. -/
def value : ErrorTree A → A
  | .node a _ => a

mutual

/-- `errors.AsType`: the first value of the wanted type. -/
def asType (target : A → Option B) : ErrorTree A → Option B
  | .node a errs => (target a).or (asTypeAny target errs)

def asTypeAny (target : A → Option B) : List (ErrorTree A) → Option B
  | [] => none
  | err :: errs => (asType target err).or (asTypeAny target errs)

end

mutual

/-- All values of a tree, in the order of a search. -/
def values : ErrorTree A → List A
  | .node a errs => a :: valuesAll errs

def valuesAll : List (ErrorTree A) → List A
  | [] => []
  | err :: errs => values err ++ valuesAll errs

end

mutual

theorem asType_eq (target : A → Option B) :
    ∀ err, asType target err = err.values.findSome? target
  | .node a errs => by
    rw [asType, values, List.findSome?_cons, asTypeAny_eq target errs]
    cases target a <;> rfl

theorem asTypeAny_eq (target : A → Option B) :
    ∀ errs, asTypeAny target errs = (valuesAll errs).findSome? target
  | [] => rfl
  | err :: errs => by
    rw [asTypeAny, valuesAll, List.findSome?_append, asType_eq target err,
      asTypeAny_eq target errs]

end

mutual

/-- An error and all the errors below it. -/
def parts : ErrorTree A → List (ErrorTree A)
  | .node a errs => .node a errs :: partsAll errs

def partsAll : List (ErrorTree A) → List (ErrorTree A)
  | [] => []
  | err :: errs => parts err ++ partsAll errs

end

variable {target : A → Option B} {err : ErrorTree A}

/-- A search for the values of one kind finds nothing if there is none in the tree. -/
theorem asType_eq_none (kind : B → A) (hkind : ∀ a b, target a = some b ↔ a = kind b) :
    asType target err = none ↔ ∀ b, kind b ∉ err.values := by
  rw [asType_eq, List.findSome?_eq_none_iff]
  constructor
  · intro hall b hmem
    have hfound := (hkind (kind b) b).mpr rfl
    rw [hall _ hmem] at hfound
    cases hfound
  · intro hnot a ha
    cases hb : target a with
    | none => rfl
    | some b => exact absurd ((hkind a b).mp hb ▸ ha) (hnot b)

theorem mem_of_asType {b : B} (h : asType target err = some b) :
    ∃ a ∈ err.values, target a = some b := by
  rw [asType_eq] at h
  exact List.exists_of_findSome?_eq_some h

end ErrorTree

end Fries
