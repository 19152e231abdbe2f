import Mathlib.Data.List.Basic

/-! The part of `log/slog` that decides which leaf attributes a handler emits, in which groups. -/
namespace Fries.Slog

/-- A value that is not a group may be nil. -/
inductive Value (L : Type)
  | any (v : Option L)
  | group (attrs : List (String × Value L))
  | logValuer (resolved : Value L)

abbrev Attr (L : Type) := String × Value L

/-- Time, level, message and source position of a record are `info`. -/
structure Record (I L : Type) where
  info : I
  attrs : List (Attr L)

structure Leaf (L : Type) where
  path : List String
  key : String
  value : Option L
  deriving DecidableEq, Repr

section Attributes

variable {I L : Type}

def Value.isEmptyGroup : Value L → Bool
  | .group [] => true
  | _ => false

def dropEmptyGroups (attrs : List (Attr L)) : List (Attr L) :=
  attrs.filter fun a => !a.2.isEmptyGroup

def groupValue (attrs : List (Attr L)) : Value L := .group (dropEmptyGroups attrs)

def Record.addAttrs (r : Record I L) (attrs : List (Attr L)) : Record I L :=
  { r with attrs := r.attrs ++ dropEmptyGroups attrs }

mutual

/-- What a handler emits for an attribute: nothing for the zero attribute, the attributes of a group
under its key, or without one if the key is empty. -/
def Value.leaves (path : List String) (key : String) : Value L → List (Leaf L)
  | .any v => if key = "" ∧ v.isNone then [] else [⟨path, key, v⟩]
  | .group attrs => leavesAll (if key = "" then path else path ++ [key]) attrs
  | .logValuer resolved => resolved.leaves path key

def leavesAll (path : List String) : List (Attr L) → List (Leaf L)
  | [] => []
  | (key, value) :: attrs => value.leaves path key ++ leavesAll path attrs

end

theorem leavesAll_append (path : List String) (before after : List (Attr L)) :
    leavesAll path (before ++ after) = leavesAll path before ++ leavesAll path after := by
  induction before with
  | nil => rfl
  | cons a before ih => rw [List.cons_append, leavesAll, leavesAll, ih, List.append_assoc]

theorem leaves_of_isEmptyGroup {v : Value L} (h : v.isEmptyGroup = true) (path : List String)
    (key : String) : v.leaves path key = [] := by
  cases v with
  | group attrs =>
    cases attrs with
    | nil => rfl
    | cons => cases h
  | any | logValuer => cases h

/-- Groups without attributes are dropped in several places, which nobody can see. -/
theorem leavesAll_dropEmptyGroups (path : List String) (attrs : List (Attr L)) :
    leavesAll path (dropEmptyGroups attrs) = leavesAll path attrs := by
  induction attrs with
  | nil => rfl
  | cons a attrs ih =>
    obtain ⟨key, value⟩ := a
    by_cases hempty : value.isEmptyGroup = true
    · rw [dropEmptyGroups, List.filter_cons_of_neg (by simp [hempty]), leavesAll,
        leaves_of_isEmptyGroup hempty, List.nil_append]
      exact ih
    · rw [dropEmptyGroups, List.filter_cons_of_pos (by simp [hempty]), leavesAll, leavesAll]
      exact congrArg _ ih

theorem leavesAll_groupValue (path : List String) {name : String} (hname : name ≠ "")
    (attrs : List (Attr L)) :
    (groupValue attrs).leaves path name = leavesAll (path ++ [name]) attrs := by
  rw [groupValue, Value.leaves, if_neg hname, leavesAll_dropEmptyGroups]

end Attributes

/-- A plain handler: the groups that are open, and what was bound to it. -/
structure Handler (L : Type) where
  path : List String
  bound : List (Leaf L)

namespace Handler

variable {I L : Type}

def withAttrs (h : Handler L) (attrs : List (Attr L)) : Handler L :=
  { h with bound := h.bound ++ leavesAll h.path attrs }

def withGroup (h : Handler L) (name : String) : Handler L :=
  if name = "" then h else { h with path := h.path ++ [name] }

/-- What is emitted for a record. -/
def handle (h : Handler L) (r : Record I L) : I × List (Leaf L) :=
  (r.info, h.bound ++ leavesAll h.path r.attrs)

end Handler

/-- A call that derives a handler. -/
inductive Derivation (L : Type)
  | withAttrs (attrs : List (Attr L))
  | withGroup (name : String)

def Handler.derive {L : Type} (h : Handler L) : Derivation L → Handler L
  | .withAttrs attrs => h.withAttrs attrs
  | .withGroup name => h.withGroup name

end Fries.Slog
