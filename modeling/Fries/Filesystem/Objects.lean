import Fries.Filesystem.Listing
import Fries.Filesystem.OSS

/-! Listing objects with the S3 and OSS drivers: keys below the root become paths of files. -/
namespace Fries.Filesystem

section Keys

/-- `strings.CutPrefix`. -/
def cutPrefix (text start : String) : Option String :=
  if start.toList <+: text.toList then
    some (String.ofList (text.toList.drop start.toList.length))
  else none

def trimPrefix (text start : String) : String := (cutPrefix text start).getD text

def hasSuffix (text suffix : String) : Bool := suffix.toList <:+ text.toList

def trimSuffix (text suffix : String) : String :=
  if hasSuffix text suffix then
    String.ofList (text.toList.take (text.toList.length - suffix.toList.length))
  else text

/-- `strings.Trim(text, "/")`. -/
def trimSlashes (text : String) : String :=
  String.ofList (((text.toList.dropWhile (· == '/')).reverse.dropWhile (· == '/')).reverse)

def newPathPrefixer (root : String) : PathPrefixer := ⟨trimSlashes root⟩

/-- The path of a key below the root. -/
def PathPrefixer.strip (p : PathPrefixer) (key : String) : Option String :=
  let key := trimPrefix key "/"
  if p.root = "" then
    if key = "" then some "." else some key
  else if key = p.root then some "."
  else cutPrefix key (p.root ++ "/")

def directoryPrefix (key : String) : String :=
  if key = "" then "" else trimSuffix key "/" ++ "/"

variable {text start : String}

theorem cutPrefix_eq_some_iff {rest : String} :
    cutPrefix text start = some rest ↔ text = start ++ rest := by
  unfold cutPrefix
  constructor
  · intro h
    split_ifs at h with hpre
    obtain ⟨tail, htail⟩ := hpre
    rw [← htail, List.drop_left] at h
    rw [← Option.some.inj h, ← String.toList_inj, String.toList_append, String.toList_ofList, htail]
  · rintro rfl
    simp

/-- A text that begins with a slash. -/
def Rooted (text : String) : Prop := text.toList.head? = some '/'

theorem rooted_iff : Rooted text ↔ ∃ rest, text = "/" ++ rest := by
  constructor
  · intro h
    obtain ⟨tail, htail⟩ : ∃ tail, text.toList = '/' :: tail := by
      cases hlist : text.toList with
      | nil => simp [Rooted, hlist] at h
      | cons c tail =>
        obtain rfl : c = '/' := by simpa [Rooted, hlist] using h
        exact ⟨tail, rfl⟩
    exact ⟨String.ofList tail, by rw [← String.toList_inj, htail]; simp⟩
  · rintro ⟨rest, rfl⟩
    simp [Rooted]

theorem rooted_of_starts (hstart : start ≠ "") (h : start.toList <+: text.toList) :
    Rooted start ↔ Rooted text := by
  obtain ⟨tail, htail⟩ := h
  have hne : start.toList ≠ [] := fun hnil => hstart (String.toList_eq_nil_iff.mp hnil)
  rw [Rooted, Rooted, ← htail, List.head?_append_of_ne_nil _ hne]

variable {path : String}

theorem nil_not_mem_elements (h : validPath path = true) : [] ∉ elements path := by
  intro hnil
  simp only [validPath, Bool.and_eq_true, Bool.or_eq_true, beq_iff_eq, List.all_eq_true] at h
  rcases h.1 with rfl | hall
  · have hdot : elements "." = [['.']] := by decide
    simp [hdot] at hnil
  · have hne := hall [] hnil
    simp at hne

theorem elements_slash (before after : String) :
    elements (before ++ "/" ++ after) = elements before ++ elements after := by
  have htext : (before ++ "/" ++ after).toList = before.toList ++ '/' :: after.toList := by simp
  rw [elements, htext]
  exact List.splitOnP_append_cons _ _ rfl

theorem valid_not_rooted (h : validPath path = true) : ¬ Rooted path := by
  rw [rooted_iff]
  rintro ⟨rest, rfl⟩
  have helements := elements_slash "" rest
  rw [String.empty_append] at helements
  exact nil_not_mem_elements h (by rw [helements]; simp [elements])

theorem valid_not_hasSuffix (h : validPath path = true) : hasSuffix path "/" = false := by
  rw [Bool.eq_false_iff]
  intro hsuffix
  obtain ⟨before, hbefore⟩ := of_decide_eq_true hsuffix
  have hpath : path = String.ofList before ++ "/" ++ "" := by
    rw [← String.toList_inj, ← hbefore]
    simp
  rw [hpath] at h
  exact nil_not_mem_elements h (by rw [elements_slash]; simp [elements])

theorem trimSlashes_not_rooted (text : String) : ¬ Rooted (trimSlashes text) := by
  intro h
  let front := text.toList.dropWhile (· == '/')
  have htext : (trimSlashes text).toList = (front.reverse.dropWhile (· == '/')).reverse :=
    String.toList_ofList
  have hpre : (trimSlashes text).toList <+: front := by
    rw [htext, ← List.reverse_suffix, List.reverse_reverse]
    exact List.dropWhile_suffix _
  have hhead : front.head? = some '/' := by
    obtain ⟨tail, htail⟩ := hpre
    rw [← htail, List.head?_append, h]
    rfl
  have hnot := List.head?_dropWhile_not (· == '/') text.toList
  rw [hhead] at hnot
  cases hnot

theorem prefix_directoryPrefix (key : String) :
    key.toList <+: (directoryPrefix key).toList := by
  unfold directoryPrefix trimSuffix
  split_ifs with hempty hsuffix
  · subst hempty
    exact List.prefix_refl _
  · obtain ⟨before, hbefore⟩ := of_decide_eq_true hsuffix
    have hslash : "/".toList = ['/'] := rfl
    rw [← hbefore]
    simp [hslash]
  · simp

end Keys

section Model

/-- An object in a listing. -/
structure Object where
  key : Option String
  size : Option Int
  lastModified : Option Int

/-- `dereference`. -/
def Object.name (object : Object) : String := object.key.getD ""

/-- The path under which an object is listed, if it is the path of a file. -/
def PathPrefixer.entryPath (p : PathPrefixer) (key : String) : Option String :=
  if hasSuffix key "/" then none
  else
    match p.strip key with
    | none => none
    | some path => if path == "." || !validPath path then none else some path

def Object.entry (object : Object) (path : String) : FileEntry :=
  ⟨path, .file, object.size.getD 0, object.lastModified.getD 0⟩

/-- The map `byPath` after some objects, as its entries in any order. -/
def byPath (p : PathPrefixer) : List Object → List FileEntry → List FileEntry
  | [], found => found
  | object :: contents, found =>
    match p.entryPath object.name with
    | none => byPath p contents found
    | some path =>
      byPath p contents (found.filter (fun e => e.path ≠ path) ++ [object.entry path])

def PathPrefixer.entries (p : PathPrefixer) (contents : List Object) : List FileEntry :=
  sortByPath (byPath p contents [])

structure ListInput where
  bucket : String
  keyPrefix : String
  delimiter : Option String
  continuationToken : Option String
  maxKeys : Int

structure ListOutput where
  contents : List Object
  nextContinuationToken : Option String

structure ObjectFilesystem (E : Type) where
  listObjectsV2 : ListInput → Except (ServiceError E) ListOutput
  bucket : String
  prefixer : PathPrefixer

def ObjectFilesystem.listInput {E : Type} (f : ObjectFilesystem E) (path : String)
    (options : ListOptions) : ListInput where
  bucket := f.bucket
  keyPrefix := directoryPrefix (f.prefixer.key path)
  delimiter := if options.recursive then none else some "/"
  continuationToken := if options.cursor = "" then none else some options.cursor
  maxKeys := options.limit

/-- `ListFiles` of both drivers. -/
def ObjectFilesystem.listFiles {E : Type} (f : ObjectFilesystem E) (path : String)
    (options : ListOptions) : Except (PathError E) ListPage :=
  let options := options.normalize
  if !validPath path then .error ⟨"validate", path, .invalidPath⟩
  else
    match f.listObjectsV2 (f.listInput path options) with
    | .error err => .error (wrapPathError "list" path err)
    | .ok output =>
      .ok ⟨f.prefixer.entries output.contents, output.nextContinuationToken.getD ""⟩

end Model

section Maps

variable {p : PathPrefixer} {contents : List Object}

theorem mem_byPath : ∀ {found : List FileEntry} {e : FileEntry},
    e ∈ byPath p contents found → e ∈ found ∨
      ∃ object ∈ contents, p.entryPath object.name = some e.path ∧ e = object.entry e.path := by
  induction contents with
  | nil => exact fun h => .inl h
  | cons object contents ih =>
    intro found e h
    rw [byPath] at h
    split at h
    · rcases ih h with hfound | ⟨o, ho, hpath⟩
      · exact .inl hfound
      · exact .inr ⟨o, .tail _ ho, hpath⟩
    · rename_i path hpath
      rcases ih h with hfound | ⟨o, ho, hentry⟩
      · rcases List.mem_append.mp hfound with hold | hnew
        · exact .inl (List.mem_filter.mp hold).1
        · obtain rfl := List.mem_singleton.mp hnew
          exact .inr ⟨object, .head _, hpath, rfl⟩
      · exact .inr ⟨o, .tail _ ho, hentry⟩

theorem byPath_keeps : ∀ {found : List FileEntry} {path : String},
    path ∈ found.map FileEntry.path → path ∈ (byPath p contents found).map FileEntry.path := by
  induction contents with
  | nil => exact fun h => h
  | cons object contents ih =>
    intro found path h
    rw [byPath]
    split
    · exact ih h
    · rename_i path' hpath
      refine ih ?_
      by_cases heq : path = path'
      · simp [heq, Object.entry]
      · obtain ⟨e, he, rfl⟩ := List.mem_map.mp h
        refine List.mem_map_of_mem (List.mem_append_left _ (List.mem_filter.mpr ⟨he, ?_⟩))
        simpa using heq

theorem byPath_has : ∀ {found : List FileEntry} {object : Object}
    {path : String}, object ∈ contents → p.entryPath object.name = some path →
      path ∈ (byPath p contents found).map FileEntry.path := by
  induction contents with
  | nil => exact fun h => nomatch h
  | cons first contents ih =>
    intro found object path hobject hpath
    rw [byPath]
    rcases List.mem_cons.mp hobject with rfl | hobject
    · rw [hpath]
      exact byPath_keeps (by simp [Object.entry])
    · split <;> exact ih hobject hpath

theorem byPath_nodup : ∀ {found : List FileEntry},
    (found.map FileEntry.path).Nodup → ((byPath p contents found).map FileEntry.path).Nodup := by
  induction contents with
  | nil => exact fun h => h
  | cons object contents ih =>
    intro found h
    rw [byPath]
    split
    · exact ih h
    · rename_i path hpath
      refine ih ?_
      rw [List.map_append, List.nodup_append]
      refine ⟨h.sublist (List.filter_sublist.map _), by simp, fun a ha b hb => ?_⟩
      obtain ⟨e, he, rfl⟩ := List.mem_map.mp ha
      obtain rfl : b = path := by simpa [Object.entry] using hb
      simpa using (List.mem_filter.mp he).2

end Maps

section Strips

variable {p : PathPrefixer} {key path : String}

theorem entryPath_eq_some_iff : p.entryPath key = some path ↔
    hasSuffix key "/" = false ∧ p.strip key = some path ∧ validFilePath path = true := by
  unfold PathPrefixer.entryPath
  constructor
  · intro h
    split_ifs at h with hsuffix
    split at h
    · cases h
    · rename_i hstrip
      split_ifs at h with hinvalid
      cases h
      refine ⟨by simpa using hsuffix, hstrip, ?_⟩
      simpa [validFilePath, and_comm] using hinvalid
  · rintro ⟨hsuffix, hstrip, hvalid⟩
    have hfile : ¬ (path == "." || !validPath path) = true := by
      simpa [validFilePath, and_comm] using hvalid
    simp only [hsuffix, hstrip, if_neg hfile, Bool.false_eq_true, if_false]

theorem validFilePath_iff : validFilePath path = true ↔ validPath path = true ∧ path ≠ "." := by
  simp [validFilePath]

theorem trimPrefix_of_not_rooted (h : ¬ Rooted key) : trimPrefix key "/" = key := by
  unfold trimPrefix
  cases hcut : cutPrefix key "/" with
  | none => rfl
  | some rest => exact absurd (rooted_iff.mpr ⟨rest, cutPrefix_eq_some_iff.mp hcut⟩) h

theorem trimPrefix_slash (rest : String) : trimPrefix ("/" ++ rest) "/" = rest := by
  rw [trimPrefix, cutPrefix_eq_some_iff.mpr rfl]
  rfl

/-- Without a slash at its start a key is the key of the path that is left of it. -/
theorem key_of_strip (hkey : ¬ Rooted key) (hpath : path ≠ ".") (h : p.strip key = some path) :
    key = p.key path := by
  simp only [PathPrefixer.strip, trimPrefix_of_not_rooted hkey] at h
  rw [PathPrefixer.key, if_neg hpath]
  by_cases hroot : p.root = ""
  · rw [if_pos hroot] at h ⊢
    split_ifs at h
    · exact absurd (Option.some.inj h).symm hpath
    · exact Option.some.inj h
  · rw [if_neg hroot] at h ⊢
    split_ifs at h
    · exact absurd (Option.some.inj h).symm hpath
    · exact cutPrefix_eq_some_iff.mp h

theorem validFilePath_ne_empty (h : validFilePath path = true) : path ≠ "" := by
  rintro rfl
  cases h

/-- Under an empty root a path is its own key. -/
theorem entryPath_self (hroot : p.root = "") (hpath : validFilePath path = true) :
    p.entryPath path = some path := by
  have hvalid := (validFilePath_iff.mp hpath).1
  refine entryPath_eq_some_iff.mpr ⟨valid_not_hasSuffix hvalid, ?_, hpath⟩
  simp only [PathPrefixer.strip, trimPrefix_of_not_rooted (valid_not_rooted hvalid), if_pos hroot,
    if_neg (validFilePath_ne_empty hpath)]

/-- Under an empty root a slash before a path is dropped. -/
theorem entryPath_slash (hroot : p.root = "") (hpath : validFilePath path = true) :
    p.entryPath ("/" ++ path) = some path := by
  have hne := validFilePath_ne_empty hpath
  refine entryPath_eq_some_iff.mpr ⟨?_, ?_, hpath⟩
  · have hsuffix := valid_not_hasSuffix (validFilePath_iff.mp hpath).1
    rw [hasSuffix, decide_eq_false_iff_not] at hsuffix ⊢
    intro h
    rw [String.toList_append] at h
    rcases List.suffix_cons_iff.mp h with hwhole | hrest
    · exact hne (String.toList_eq_nil_iff.mp (List.cons.inj hwhole).2.symm)
    · exact hsuffix hrest
  · simp only [PathPrefixer.strip, trimPrefix_slash, if_pos hroot, if_neg hne]

/-- A key that begins with a slash can only be listed under an empty root. -/
theorem root_of_rooted {root : String}
    (hkey : (directoryPrefix ((newPathPrefixer root).key path)).toList <+: key.toList)
    (hrooted : Rooted key) : (newPathPrefixer root).root = "" := by
  have hroot : ¬ Rooted (newPathPrefixer root).root := trimSlashes_not_rooted root
  by_contra hne
  have hpre : (newPathPrefixer root).root.toList <+: ((newPathPrefixer root).key path).toList := by
    rw [PathPrefixer.key, if_neg hne]
    split_ifs
    · exact List.prefix_refl _
    · simp [List.append_assoc]
  exact hroot ((rooted_of_starts hne
    ((hpre.trans (prefix_directoryPrefix _)).trans hkey)).mpr hrooted)

end Strips

section Results

/-- Entries of files in order, each the entry of the listed object that its path stands for, and no
two objects under one path. -/
structure Faithful (p : PathPrefixer) (contents : List Object) (entries : List FileEntry) :
    Prop where
  sorted : Sorted entries
  refers : ∀ e ∈ entries, validFilePath e.path = true ∧
    ∃ object ∈ contents, object.name = p.key e.path ∧ e = object.entry e.path
  separate : ∀ object ∈ contents, ∀ object' ∈ contents, ∀ path,
    p.entryPath object.name = some path → p.entryPath object'.name = some path →
      object.name = object'.name

variable {contents : List Object}

theorem entries_faithful {p : PathPrefixer}
    (h : ∀ object ∈ contents, ∀ path, p.entryPath object.name = some path →
      object.name = p.key path) : Faithful p contents (p.entries contents) where
  sorted := sorted_sortByPath (byPath_nodup List.nodup_nil)
  refers e he := by
    rcases mem_byPath (mem_sortByPath.mp he) with hnone | ⟨object, hobject, hpath, hentry⟩
    · cases hnone
    · obtain ⟨-, -, hvalid⟩ := entryPath_eq_some_iff.mp hpath
      exact ⟨hvalid, object, hobject, h object hobject _ hpath, hentry⟩
  separate object hobject object' hobject' path hpath hpath' :=
    (h object hobject path hpath).trans (h object' hobject' path hpath').symm

/-- What the S3 and the OSS driver list are the paths of the objects listed, in order and each once,
exactly if no listed key is a slash and the path of a file. -/
theorem listed_files_open {E : Type} (f : ObjectFilesystem E) (root path : String)
    (options : ListOptions) (output : ListOutput) (hprefixer : f.prefixer = newPathPrefixer root)
    (hpath : validPath path = true)
    (houtput : f.listObjectsV2 (f.listInput path options.normalize) = .ok output)
    (hkeys : ∀ object ∈ output.contents,
      (f.listInput path options.normalize).keyPrefix.toList <+: object.name.toList) :
    ∃ page, f.listFiles path options = .ok page ∧
      (Faithful f.prefixer output.contents page.entries ↔
        ∀ object ∈ output.contents, ∀ file, validFilePath file = true →
          object.name ≠ "/" ++ file) := by
  refine ⟨_, by simp only [ObjectFilesystem.listFiles, hpath, houtput]; rfl, ?_⟩
  have hempty : ∀ object ∈ output.contents, Rooted object.name → f.prefixer.root = "" := by
    intro object hobject hrooted
    have hkey := hkeys object hobject
    rw [ObjectFilesystem.listInput, hprefixer] at hkey
    rw [hprefixer]
    exact root_of_rooted hkey hrooted
  constructor
  · intro hfaithful object hobject file hfile heq
    have hroot := hempty object hobject (rooted_iff.mpr ⟨file, heq⟩)
    have hslash : f.prefixer.entryPath object.name = some file :=
      heq ▸ entryPath_slash hroot hfile
    -- the entry under that path has to be the one of another object, with the path for its key
    have hlisted : file ∈ (f.prefixer.entries output.contents).map FileEntry.path := by
      obtain ⟨e, he, hpath⟩ := List.mem_map.mp (byPath_has hobject hslash)
      exact List.mem_map.mpr ⟨e, mem_sortByPath.mpr he, hpath⟩
    obtain ⟨e, he, rfl⟩ := List.mem_map.mp hlisted
    obtain ⟨-, object', hobject', hname, -⟩ := hfaithful.refers e he
    rw [PathPrefixer.key, if_neg (validFilePath_iff.mp hfile).2, if_pos hroot] at hname
    have hself : f.prefixer.entryPath object'.name = some e.path := by
      rw [hname]
      exact entryPath_self hroot hfile
    have hsame := hfaithful.separate object hobject object' hobject' e.path hslash hself
    rw [heq, hname] at hsame
    have hlen := congrArg String.length hsame
    rw [String.length_append] at hlen
    simp at hlen
  · intro hnone
    refine entries_faithful fun object hobject file hfile => ?_
    obtain ⟨-, hstrip, hvalid⟩ := entryPath_eq_some_iff.mp hfile
    have hdot := (validFilePath_iff.mp hvalid).2
    by_cases hrooted : Rooted object.name
    · obtain ⟨rest, hrest⟩ := rooted_iff.mp hrooted
      simp only [PathPrefixer.strip, hrest, trimPrefix_slash,
        if_pos (hempty object hobject hrooted)] at hstrip
      split_ifs at hstrip
      · exact absurd (Option.some.inj hstrip).symm hdot
      · exact absurd (Option.some.inj hstrip ▸ hrest) (hnone object hobject file hvalid)
    · exact key_of_strip hrooted hdot hstrip

/-- A bucket that answers every listing with the same objects. -/
def fixedBucket (root : String) (contents : List Object) : ObjectFilesystem Empty where
  listObjectsV2 _ := .ok ⟨contents, none⟩
  bucket := "files"
  prefixer := newPathPrefixer root

theorem fixedBucket_listFiles {root path : String} (hpath : validPath path = true) {e : FileEntry}
    (h : byPath (newPathPrefixer root) contents [] = [e]) (options : ListOptions) :
    (fixedBucket root contents).listFiles path options = .ok ⟨[e], ""⟩ := by
  have hentries : (newPathPrefixer root).entries contents = [e] := by
    rw [PathPrefixer.entries, h]
    exact List.mergeSort_singleton e
  simp only [ObjectFilesystem.listFiles, fixedBucket, hpath, hentries]
  rfl

/-- A file and the marker of its directory, under a root. -/
theorem listed_files_open_marker :
    let contents : List Object := [⟨some "r/d/a", some 3, none⟩, ⟨some "r/d/", some 0, none⟩]
    ∃ page, (fixedBucket "/r/" contents).listFiles "d" ⟨false, 0, ""⟩ = .ok page ∧
      Faithful (newPathPrefixer "/r/") contents page.entries := by
  intro contents
  have hkeys : ∀ object ∈ contents,
      (directoryPrefix ((newPathPrefixer "/r/").key "d")).toList <+: object.name.toList := by
    decide
  obtain ⟨page, hpage, hiff⟩ := listed_files_open (fixedBucket "/r/" contents) "/r/" "d"
    ⟨false, 0, ""⟩ ⟨contents, none⟩ rfl (by decide) rfl hkeys
  refine ⟨page, hpage, hiff.mpr fun object hobject file _ heq => ?_⟩
  have hroot : ∀ object ∈ contents, ¬ Rooted object.name := by
    unfold Rooted
    decide
  exact hroot object hobject (rooted_iff.mpr ⟨file, heq⟩)

/-- Listed recursively without a root, the objects `/a` and `a` are both listed as `a`, and `/a`
alone is listed under the key of an object that is not there. -/
theorem slash_is_dropped :
    let both : List Object := [⟨some "a", some 1, none⟩, ⟨some "/a", some 2, none⟩]
    let alone : List Object := [⟨some "/a", some 2, none⟩]
    (fixedBucket "" both).listFiles "." ⟨true, 0, ""⟩ = .ok ⟨[⟨"a", .file, 2, 0⟩], ""⟩ ∧
    (newPathPrefixer "").entryPath "a" = (newPathPrefixer "").entryPath "/a" ∧
    (fixedBucket "" alone).listFiles "." ⟨true, 0, ""⟩ = .ok ⟨[⟨"a", .file, 2, 0⟩], ""⟩ ∧
    (newPathPrefixer "").key "a" ∉ alone.map Object.name :=
  ⟨fixedBucket_listFiles (by decide) (by decide) _, by decide,
    fixedBucket_listFiles (by decide) (by decide) _, by decide⟩

end Results

end Fries.Filesystem
