import Fries.Go
import Mathlib.Logic.Function.Basic

/-! The repository, which copies and moves files over any storage driver. -/
namespace Fries.Filesystem

/-- An operation of a backend: its result, and the state it leaves. -/
abbrev Operation (σ E α : Type) := σ → Except E α × σ

/-- The next operation is only tried if the first one succeeds. -/
def andThen {σ E α β : Type} (op : Operation σ E α) (next : α → Operation σ E β) :
    Operation σ E β := fun s =>
  match op s with
  | (.error err, s) => (.error err, s)
  | (.ok a, s) => next a s

theorem andThen_ok {σ E α β : Type} {op : Operation σ E α} {next : α → Operation σ E β} {s s' : σ}
    {b : β} (h : andThen op next s = (.ok b, s')) :
    ∃ a s₁, op s = (.ok a, s₁) ∧ next a s₁ = (.ok b, s') := by
  unfold andThen at h
  split at h
  · cases h
  · rename_i a s₁ hop
    exact ⟨a, s₁, hop, h⟩

structure File where
  content : Bytes
  contentType : String
  metadata : List (String × String)
  deriving DecidableEq

/-- What `Stat` tells of a file; the fields no operation here reads are left out. -/
structure Entry where
  size : Int
  contentType : String
  metadata : List (String × String)

structure PutOptions where
  contentLength : Option Int
  contentType : String
  metadata : List (String × String)

/-- A storage driver, with the optional operations `Copy` and `Move`. -/
structure Driver (σ E : Type) where
  openFile : String → Operation σ E Bytes
  put : String → Bytes → PutOptions → Operation σ E Unit
  delete : String → Operation σ E Unit
  stat : String → Operation σ E Entry
  copier : Option (String → String → Operation σ E Unit)
  mover : Option (String → String → Operation σ E Unit)

/-- `Repository.Copy`. -/
def copy {σ E : Type} (d : Driver σ E) (src dst : String) : Operation σ E Unit :=
  match d.copier with
  | some copy => copy src dst
  | none =>
    andThen (d.stat src) fun entry =>
      andThen (d.openFile src) fun content =>
        d.put dst content ⟨some entry.size, entry.contentType, entry.metadata⟩

/-- `Repository.Move`. -/
def move {σ E : Type} (d : Driver σ E) (src dst : String) : Operation σ E Unit :=
  match d.mover with
  | some move => move src dst
  | none => andThen (copy d src dst) fun _ => d.delete src

section Maps

variable {K : Type} [DecidableEq K] {files files' : K → Option File} {src dst : K}

/-- The file at `src` is copied to `dst`. -/
def Copied (files files' : K → Option File) (src dst : K) : Prop :=
  ∃ file new, files src = some file ∧ new.content = file.content ∧
    files' = Function.update files dst (some new)

/-- What a move is for: the content is at `dst`, `src` is gone unless it is `dst`, and all other
files are as before. -/
structure Moved (files files' : K → Option File) (src dst : K) : Prop where
  arrived : ∃ file new, files src = some file ∧ files' dst = some new ∧ new.content = file.content
  gone : src ≠ dst → files' src = none
  others : ∀ k, k ≠ src → k ≠ dst → files' k = files k

/-- A copy and a delete are a move, except of a file onto itself. -/
theorem moved_iff_ne {copied : K → Option File} (h : Copied files copied src dst) :
    Moved files (Function.update copied src none) src dst ↔ src ≠ dst := by
  constructor
  · rintro ⟨⟨_, new, -, harrived, -⟩, -, -⟩ rfl
    rw [Function.update_self] at harrived
    cases harrived
  · intro hne
    obtain ⟨file, new, hsrc, hcontent, rfl⟩ := h
    refine ⟨⟨file, new, hsrc, ?_, hcontent⟩, fun _ => Function.update_self .., ?_⟩
    · rw [Function.update_of_ne hne.symm, Function.update_self]
    · intro k hk hk'
      rw [Function.update_of_ne hk, Function.update_of_ne hk']

end Maps

/-- A driver that holds files like a map, as far as its successful operations show. -/
structure KeyValue {σ E : Type} (d : Driver σ E) (view : σ → String → Option File) : Prop where
  openFile : ∀ {path s content s'}, d.openFile path s = (.ok content, s') →
    (∃ file, view s path = some file ∧ file.content = content) ∧ view s' = view s
  put : ∀ {path content options s s'}, d.put path content options s = (.ok (), s') →
    ∃ file, file.content = content ∧ view s' = Function.update (view s) path (some file)
  delete : ∀ {path s s'}, d.delete path s = (.ok (), s') →
    view s' = Function.update (view s) path none
  stat : ∀ {path s entry s'}, d.stat path s = (.ok entry, s') → view s' = view s
  copier : ∀ {copy src dst s s'}, d.copier = some copy → copy src dst s = (.ok (), s') →
    Copied (view s) (view s') src dst

variable {σ E : Type} {d : Driver σ E} {view : σ → String → Option File} {src dst : String}
  {s s' : σ}

theorem copied_of_copy (hd : KeyValue d view) (h : copy d src dst s = (.ok (), s')) :
    Copied (view s) (view s') src dst := by
  cases hcopier : d.copier with
  | some native =>
    simp only [copy, hcopier] at h
    exact hd.copier hcopier h
  | none =>
    simp only [copy, hcopier] at h
    obtain ⟨entry, s₁, hstat, h⟩ := andThen_ok h
    obtain ⟨content, s₂, hopen, hput⟩ := andThen_ok h
    have hview := hd.stat hstat
    obtain ⟨⟨file, hsrc, hcontent⟩, hview'⟩ := hd.openFile hopen
    obtain ⟨new, hnew, hput⟩ := hd.put hput
    refine ⟨file, new, ?_, hnew.trans hcontent.symm, ?_⟩
    · rw [← hview]
      exact hsrc
    · rw [hput, hview', hview]

/-- A move over a driver without one of its own leaves the file at `dst` only, if `dst` is another
path. -/
theorem move_moved_iff (hd : KeyValue d view) (hmover : d.mover = none)
    (h : move d src dst s = (.ok (), s')) : Moved (view s) (view s') src dst ↔ src ≠ dst := by
  rw [move, hmover] at h
  obtain ⟨_, s₁, hcopy, hdelete⟩ := andThen_ok h
  rw [hd.delete hdelete]
  exact moved_iff_ne (copied_of_copy hd hcopy)

end Fries.Filesystem
