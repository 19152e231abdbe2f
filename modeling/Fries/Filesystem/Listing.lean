import Mathlib.Data.String.Basic

/-!
What listings of all drivers have in common: their options, entries sorted by path, and pages.
-/
namespace Fries.Filesystem

inductive EntryKind
  | unknown
  | file
  | directory
  deriving DecidableEq, Repr

/-- An `Entry` that a listing returns, with the fields that listings fill. -/
structure FileEntry where
  path : String
  kind : EntryKind
  size : Int
  lastModified : Int
  deriving DecidableEq, Repr

def defaultListLimit : Int := 1000

def maxListLimit : Int := 1000

structure ListOptions where
  recursive : Bool
  limit : Int
  cursor : String

def ListOptions.normalize (o : ListOptions) : ListOptions :=
  if o.limit < 1 then { o with limit := defaultListLimit }
  else if o.limit > maxListLimit then { o with limit := maxListLimit }
  else o

structure ListPage where
  entries : List FileEntry
  nextCursor : String
  deriving DecidableEq, Repr

def Sorted (entries : List FileEntry) : Prop := entries.Pairwise fun a b => a.path < b.path

def sortByPath (entries : List FileEntry) : List FileEntry :=
  entries.mergeSort fun a b => a.path ≤ b.path

variable {entries : List FileEntry}

theorem mem_sortByPath {e : FileEntry} : e ∈ sortByPath entries ↔ e ∈ entries :=
  List.mem_mergeSort

theorem sorted_sortByPath (hnodup : (entries.map FileEntry.path).Nodup) :
    Sorted (sortByPath entries) := by
  have hle : (sortByPath entries).Pairwise fun a b => a.path ≤ b.path := by
    refine (List.pairwise_mergeSort (fun a b c hab hbc => ?_) (fun a b => ?_) entries).imp
      fun h => of_decide_eq_true h
    · exact decide_eq_true ((of_decide_eq_true hab).trans (of_decide_eq_true hbc))
    · rw [Bool.or_eq_true, decide_eq_true_iff, decide_eq_true_iff]
      exact le_total ..
  have hne : (sortByPath entries).Pairwise fun a b => a.path ≠ b.path :=
    List.pairwise_map.mp
      (((List.mergeSort_perm entries _).map FileEntry.path).nodup_iff.mpr hnodup)
  exact hle.imp₂ (fun a b hle hne => lt_of_le_of_ne hle hne) hne

theorem normalize_limit (o : ListOptions) :
    ∃ limit : Nat, 0 < limit ∧ o.normalize.limit = limit := by
  have hmax : maxListLimit = 1000 := rfl
  unfold ListOptions.normalize
  split_ifs
  · exact ⟨1000, by omega, rfl⟩
  · exact ⟨1000, by omega, rfl⟩
  · exact ⟨o.limit.toNat, by omega, by omega⟩

theorem normalize_cursor (o : ListOptions) : o.normalize.cursor = o.cursor := by
  unfold ListOptions.normalize
  split_ifs <;> rfl

theorem normalize_recursive (o : ListOptions) : o.normalize.recursive = o.recursive := by
  unfold ListOptions.normalize
  split_ifs <;> rfl

end Fries.Filesystem
