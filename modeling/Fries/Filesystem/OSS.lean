import Fries.Filesystem.Paths
import Fries.Filesystem.Repository

/-!
The object storage driver, in which a move is a copy on the server followed by a delete.
-/
namespace Fries.Filesystem

/-- What a request to the object store can fail with. -/
inductive ServiceError (E : Type)
  | notFound
  | other (err : E)

inductive Cause (E : Type)
  | invalidPath
  | notFound
  | service (err : E)

/-- `fs.PathError`. -/
structure PathError (E : Type) where
  op : String
  path : String
  err : Cause E

/-- The requests of an object store the driver makes for a move. -/
structure Client (σ E : Type) where
  copyObject : (bucket dst src : String) → Operation σ (ServiceError E) Unit
  deleteObject : (bucket key : String) → Operation σ (ServiceError E) Unit

structure Storage (σ E : Type) where
  client : Client σ E
  bucket : String
  prefixer : PathPrefixer

variable {σ E : Type}

def wrapPathError (op path : String) : ServiceError E → PathError E
  | .notFound => ⟨op, path, .notFound⟩
  | .other err => ⟨op, path, .service err⟩

def validateFilePath (path : String) : Operation σ (PathError E) Unit := fun s =>
  if validFilePath path then (.ok (), s) else (.error ⟨"validate", path, .invalidPath⟩, s)

/-- A request whose errors name the operation and its path. -/
def request (op path : String) (r : Operation σ (ServiceError E) Unit) :
    Operation σ (PathError E) Unit := fun s =>
  match r s with
  | (.error err, s) => (.error (wrapPathError op path err), s)
  | (.ok (), s) => (.ok (), s)

def Storage.copy (f : Storage σ E) (src dst : String) : Operation σ (PathError E) Unit :=
  andThen (validateFilePath src) fun _ =>
    andThen (validateFilePath dst) fun _ =>
      request "copy" src (f.client.copyObject f.bucket (f.prefixer.key dst) (f.prefixer.key src))

def Storage.delete (f : Storage σ E) (path : String) : Operation σ (PathError E) Unit :=
  andThen (validateFilePath path) fun _ =>
    request "delete" path (f.client.deleteObject f.bucket (f.prefixer.key path))

def Storage.move (f : Storage σ E) (src dst : String) : Operation σ (PathError E) Unit :=
  andThen (f.copy src dst) fun _ => f.delete src

/-- An object store that copies and deletes single objects like a map. -/
structure ObjectStore (client : Client σ E) (view : σ → String × String → Option File) : Prop where
  copyObject : ∀ {bucket dst src s s'}, client.copyObject bucket dst src s = (.ok (), s') →
    Copied (view s) (view s') (bucket, src) (bucket, dst)
  deleteObject : ∀ {bucket key s s'}, client.deleteObject bucket key s = (.ok (), s') →
    view s' = Function.update (view s) (bucket, key) none

variable {f : Storage σ E} {view : σ → String × String → Option File} {src dst path : String}
  {s s' : σ}

theorem request_ok {op : String} {r : Operation σ (ServiceError E) Unit}
    (h : request op path r s = (.ok (), s')) : r s = (.ok (), s') := by
  unfold request at h
  split at h <;> cases h
  assumption

theorem validate_ok {u : Unit} (h : (validateFilePath path : Operation σ (PathError E) Unit) s =
    (.ok u, s')) : path ≠ "." ∧ s' = s := by
  unfold validateFilePath at h
  split at h <;> cases h
  rename_i hvalid
  simp only [validFilePath, Bool.and_eq_true, bne_iff_ne] at hvalid
  exact ⟨hvalid.2, rfl⟩

theorem copied_of_storage_copy (hc : ObjectStore f.client view)
    (h : f.copy src dst s = (.ok (), s')) : src ≠ "." ∧ dst ≠ "." ∧
      Copied (view s) (view s') (f.bucket, f.prefixer.key src) (f.bucket, f.prefixer.key dst) := by
  obtain ⟨_, s₁, hvalid, hrest⟩ := andThen_ok h
  obtain ⟨_, s₂, hvalid', hcopy⟩ := andThen_ok hrest
  obtain ⟨hsrc, rfl⟩ := validate_ok hvalid
  obtain ⟨hdst, rfl⟩ := validate_ok hvalid'
  exact ⟨hsrc, hdst, hc.copyObject (request_ok hcopy)⟩

/-- A move in the object store leaves the object at the key of `dst` only, if `dst` is another
path. -/
theorem storage_move_moved_iff (hc : ObjectStore f.client view)
    (h : f.move src dst s = (.ok (), s')) : Moved (view s) (view s')
      (f.bucket, f.prefixer.key src) (f.bucket, f.prefixer.key dst) ↔ src ≠ dst := by
  obtain ⟨_, s₁, hcopy, hdelete⟩ := andThen_ok h
  obtain ⟨hsrc, hdst, hcopied⟩ := copied_of_storage_copy hc hcopy
  obtain ⟨_, s₂, hvalid, hrequest⟩ := andThen_ok hdelete
  obtain ⟨-, rfl⟩ := validate_ok hvalid
  rw [hc.deleteObject (request_ok hrequest), moved_iff_ne hcopied]
  refine not_congr ⟨fun heq => ?_, fun heq => heq ▸ rfl⟩
  exact key_injective f.prefixer hsrc hdst (Prod.ext_iff.mp heq).2

/-- A move that returns nil leaves the content of `src` at `dst`, nothing at another `src`, and
everything else as it was, exactly if the two paths differ. -/
theorem move_keeps_content (src dst : String) :
    (∀ {σ E : Type} (d : Driver σ E) (view : σ → String → Option File) (s s' : σ),
      KeyValue d view → d.mover = none → move d src dst s = (.ok (), s') →
      (Moved (view s) (view s') src dst ↔ src ≠ dst)) ∧
    ∀ {σ E : Type} (f : Storage σ E) (view : σ → String × String → Option File) (s s' : σ),
      ObjectStore f.client view → f.move src dst s = (.ok (), s') →
      (Moved (view s) (view s') (f.bucket, f.prefixer.key src) (f.bucket, f.prefixer.key dst) ↔
        src ≠ dst) :=
  ⟨fun _ _ _ _ hd hmover h => move_moved_iff hd hmover h,
    fun _ _ _ _ hc h => storage_move_moved_iff hc h⟩

/-- A driver that is a map. -/
def mapDriver : Driver (String → Option File) String where
  openFile path s :=
    match s path with
    | some file => (.ok file.content, s)
    | none => (.error "not found", s)
  put path content options s := (.ok (),
    Function.update s path (some ⟨content, options.contentType, options.metadata⟩))
  delete path s := (.ok (), Function.update s path none)
  stat path s :=
    match s path with
    | some file => (.ok ⟨file.content.length, file.contentType, file.metadata⟩, s)
    | none => (.error "not found", s)
  copier := none
  mover := none

/-- An object store that is a map. -/
def mapStorage : Storage (String × String → Option File) String where
  client :=
    { copyObject := fun bucket dst src s =>
        match s (bucket, src) with
        | some file => (.ok (), Function.update s (bucket, dst) (some file))
        | none => (.error .notFound, s)
      deleteObject := fun bucket key s => (.ok (), Function.update s (bucket, key) none) }
  bucket := "files"
  prefixer := ⟨"root"⟩

def letter : File := ⟨[104, 105], "text/plain", []⟩

def letters : String → Option File := Function.update (fun _ => none) "a.txt" (some letter)

def objects : String × String → Option File :=
  Function.update (fun _ => none) ("files", "root/a.txt") (some letter)

/-- A file that is moved onto itself is lost. -/
theorem move_onto_itself :
    (∃ s', move mapDriver "a.txt" "a.txt" letters = (.ok (), s') ∧
      letters "a.txt" = some letter ∧ s' "a.txt" = none) ∧
    ∃ s', mapStorage.move "a.txt" "a.txt" objects = (.ok (), s') ∧
      objects ("files", "root/a.txt") = some letter ∧ s' ("files", "root/a.txt") = none :=
  ⟨⟨_, rfl, rfl, rfl⟩, _, rfl, rfl, rfl⟩

theorem mapDriver_keyValue : KeyValue mapDriver id where
  openFile h := by
    simp only [mapDriver] at h
    split at h <;> cases h
    rename_i file hfile
    exact ⟨⟨file, hfile, rfl⟩, rfl⟩
  put h := by
    cases h
    exact ⟨_, rfl, rfl⟩
  delete h := by
    cases h
    rfl
  stat h := by
    simp only [mapDriver] at h
    split at h <;> cases h
    rfl
  copier h := nomatch h

theorem mapStorage_objectStore : ObjectStore mapStorage.client id where
  copyObject h := by
    simp only [mapStorage] at h
    split at h <;> cases h
    rename_i file hfile
    exact ⟨file, file, hfile, rfl, rfl⟩
  deleteObject h := by
    cases h
    rfl

theorem move_keeps_content_letter :
    (∃ s', move mapDriver "a.txt" "b.txt" letters = (.ok (), s') ∧
      Moved letters s' "a.txt" "b.txt") ∧
    ∃ s', mapStorage.move "a.txt" "b.txt" objects = (.ok (), s') ∧
      Moved objects s' ("files", mapStorage.prefixer.key "a.txt")
        ("files", mapStorage.prefixer.key "b.txt") := by
  obtain ⟨hrepository, hstorage⟩ := move_keeps_content "a.txt" "b.txt"
  have hne : "a.txt" ≠ "b.txt" := by decide
  exact ⟨⟨_, rfl, (hrepository mapDriver id letters _ mapDriver_keyValue rfl rfl).mpr hne⟩,
    _, rfl, (hstorage mapStorage id objects _ mapStorage_objectStore rfl).mpr hne⟩

end Fries.Filesystem
