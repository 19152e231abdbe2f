import Mathlib.Data.String.Basic

/-!
Logical paths, and the keys they become in an object store under a root prefix.
-/
namespace Fries.Filesystem

/-- The elements of a path between slashes. -/
def elements (path : String) : List (List Char) := path.toList.splitOn '/'

/-- `fs.ValidPath` without backslashes. -/
def validPath (path : String) : Bool :=
  (path == "." || (elements path).all fun e => e != [] && e != ['.'] && e != ['.', '.']) &&
    !path.toList.contains '\\'

def validFilePath (path : String) : Bool := validPath path && path != "."

structure PathPrefixer where
  root : String

/-- The key of a path. -/
def PathPrefixer.key (p : PathPrefixer) (path : String) : String :=
  if path = "." then p.root else if p.root = "" then path else p.root ++ "/" ++ path

/-- Different files have different keys. -/
theorem key_injective (p : PathPrefixer) {src dst : String} (hsrc : src ≠ ".") (hdst : dst ≠ ".")
    (h : p.key src = p.key dst) : src = dst := by
  simp only [PathPrefixer.key, if_neg hsrc, if_neg hdst] at h
  split at h
  · exact h
  · have hlist := congrArg String.toList h
    simp only [String.toList_append, List.append_cancel_left_eq] at hlist
    exact String.toList_injective hlist

end Fries.Filesystem
