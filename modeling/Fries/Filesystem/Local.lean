import Fries.Filesystem.Listing
import Fries.Filesystem.Paths
import Fries.Go
import Fries.Lib.Search
import Mathlib.Data.List.Nodup

/-! Listing files in a local directory, which is a tree read whole. Paths are UTF-8. -/
namespace Fries.Filesystem.Local

section Model

structure FileInfo where
  size : Int
  modTime : Int
  deriving DecidableEq, Repr

/-- A regular file or a link to one, a directory with what is in it, or something that is left out
of listings, such as a link to a directory or to nothing. -/
inductive Node
  | file (info : FileInfo)
  | dir (children : List (String × Node))
  | other

/-- Names in a directory are single elements, so `path.Join` only puts a slash between. -/
def logicalJoin (directory name : String) : String :=
  if directory = "." then name else directory ++ "/" ++ name

def entryFromInfo (path : String) (info : FileInfo) : FileEntry :=
  ⟨path, .file, info.size, info.modTime⟩

mutual

/-- `fs.WalkDir` with the function of `listEntries`. -/
def walkDir (path : String) : Node → List FileEntry
  | .file info => [entryFromInfo path info]
  | .dir children => walkAll path children
  | .other => []

def walkAll (path : String) : List (String × Node) → List FileEntry
  | [] => []
  | (name, node) :: children => walkDir (logicalJoin path name) node ++ walkAll path children

end

def listEntries (root : String) (recursive : Bool) : Option Node → List FileEntry
  | some (.dir children) =>
    if !recursive then
      children.filterMap fun (name, node) =>
        match node with
        | .file info => some (entryFromInfo (logicalJoin root name) info)
        | _ => none
    else walkAll root children
  | _ => []

def paginate (entries : List FileEntry) (options : ListOptions) : ListPage :=
  let start := search entries.length fun i => entries[i]?.any fun e => options.cursor < e.path
  let stop :=
    if options.limit > 0 ∧ start + options.limit < entries.length then start + options.limit.toNat
    else entries.length
  { entries := (entries.take stop).drop start
    nextCursor :=
      if stop < entries.length ∧ stop > start then (entries[stop - 1]?.map FileEntry.path).getD ""
      else "" }

/-- `ErrNotExist`, or another error of the operating system. -/
inductive SystemError (E : Type)
  | notExist
  | other (err : E)

inductive Cause (E : Type)
  | invalidPath
  | notFound
  | system (err : E)

inductive Failure (E : Type)
  | context (cause : String)
  | path (op path : String) (err : Cause E)

def wrapPathError {E : Type} (op path : String) : SystemError E → Failure E
  | .notExist => .path op path .notFound
  | .other err => .path op path (.system err)

/-- `ListFiles`, with what opening the root and reading the tree below `path` gives. -/
def listFiles {E : Type} (ctx : Ctx) (disk : Except (SystemError E) (Option Node)) (path : String)
    (options : ListOptions) : Except (Failure E) ListPage :=
  let options := options.normalize
  match ctx.cause with
  | some cause => .error (.context cause)
  | none =>
    if !validPath path then .error (.path "validate" path .invalidPath)
    else
      match disk with
      | .error err => .error (wrapPathError "list" path err)
      | .ok found =>
        .ok (paginate (sortByPath (listEntries path options.recursive found)) options)

end Model

section Trees

/-- An element of a path. -/
def ValidName (name : String) : Prop := name ≠ "" ∧ name ≠ "." ∧ '/' ∉ name.toList

/-- Names are elements of paths, and different within a directory. -/
inductive Node.WellFormed : Node → Prop
  | file (info : FileInfo) : WellFormed (.file info)
  | dir {children : List (String × Node)} : (children.map Prod.fst).Nodup →
    (∀ child ∈ children, ValidName child.1) → (∀ child ∈ children, WellFormed child.2) →
    WellFormed (.dir children)
  | other : WellFormed .other

/-- The file that names lead to, one directory after the other. -/
def Node.fileAt : List String → Node → Option FileInfo
  | [], .file info => some info
  | name :: names, .dir children =>
    match children.lookup name with
    | some node => fileAt names node
    | none => none
  | _, _ => none

/-- A file is below `root`, directly so unless directories are searched too. -/
def Present (root : String) (recursive : Bool) (found : Option Node) (path : String) : Prop :=
  ∃ node names info, found = some node ∧ node.fileAt names = some info ∧ names ≠ [] ∧
    (recursive = true ∨ names.length = 1) ∧ path = names.foldl logicalJoin root

mutual

/-- The files of a tree with the names that lead to them. -/
def Node.files : Node → List (List String × FileInfo)
  | .file info => [([], info)]
  | .dir children => filesBelow children
  | .other => []

def filesBelow : List (String × Node) → List (List String × FileInfo)
  | [] => []
  | (name, node) :: children =>
    (Node.files node).map (fun file => (name :: file.1, file.2)) ++ filesBelow children

end

variable {children : List (String × Node)} {root path : String} {info : FileInfo} {node : Node}

theorem filesBelow_eq (children : List (String × Node)) : filesBelow children =
    children.flatMap fun child => child.2.files.map fun file => (child.1 :: file.1, file.2) := by
  induction children with
  | nil => rfl
  | cons child children ih => rw [filesBelow, ih, List.flatMap_cons]

theorem mem_filesBelow {names : List String} : (names, info) ∈ filesBelow children ↔
      ∃ name node rest, (name, node) ∈ children ∧ (rest, info) ∈ node.files ∧
        names = name :: rest := by
  rw [filesBelow_eq]
  simp only [List.mem_flatMap, List.mem_map, Prod.exists, Prod.mk.injEq]
  constructor
  · rintro ⟨name, node, hchild, rest, _, hrest, rfl, rfl⟩
    exact ⟨name, node, rest, hchild, hrest, rfl⟩
  · rintro ⟨name, node, rest, hchild, hrest, rfl⟩
    exact ⟨name, node, hchild, rest, info, hrest, rfl, rfl⟩

theorem walkAll_eq (children : List (String × Node)) (path : String) : walkAll path children =
    children.flatMap fun child => walkDir (logicalJoin path child.1) child.2 := by
  induction children with
  | nil => rfl
  | cons child children ih => rw [walkAll, ih, List.flatMap_cons]

/-- The entry of a file of a tree. -/
def fileEntry (path : String) (file : List String × FileInfo) : FileEntry :=
  entryFromInfo (file.1.foldl logicalJoin path) file.2

theorem walkDir_eq (h : node.WellFormed) :
    ∀ path, walkDir path node = node.files.map (fileEntry path) := by
  induction h with
  | file info | other => exact fun _ => rfl
  | @dir children _ _ _ ih =>
    intro path
    rw [walkDir, Node.files, walkAll_eq, filesBelow_eq, List.map_flatMap]
    refine List.flatMap_congr fun child hchild => ?_
    rw [ih child hchild, List.map_map]
    rfl

theorem lookup_eq_some_iff (hnodup : (children.map Prod.fst).Nodup) {name : String} :
    children.lookup name = some node ↔ (name, node) ∈ children := by
  induction children with
  | nil => simp
  | cons child children ih =>
    obtain ⟨first, node'⟩ := child
    simp only [List.map_cons, List.nodup_cons] at hnodup
    by_cases hname : name = first
    · subst hname
      have hrest : (name, node) ∉ children := fun hmem =>
        hnodup.1 (List.mem_map_of_mem (f := Prod.fst) hmem)
      simp [hrest, eq_comm]
    · have hbeq : (name == first) = false := by simpa using hname
      rw [List.lookup_cons, hbeq, ih hnodup.2]
      simp [hname]

/-- The files of a tree are the ones that names lead to. -/
theorem mem_files_iff (h : node.WellFormed) :
    ∀ {names : List String}, (names, info) ∈ node.files ↔ node.fileAt names = some info := by
  induction h with
  | file _ =>
    intro names
    cases names <;> simp [Node.files, Node.fileAt, eq_comm]
  | other =>
    intro names
    cases names <;> simp [Node.files, Node.fileAt]
  | @dir children hnodup _ _ ih =>
    intro names
    rw [Node.files, mem_filesBelow]
    cases names with
    | nil => simp [Node.fileAt]
    | cons name names =>
      rw [Node.fileAt]
      constructor
      · rintro ⟨_, node, _, hchild, hrest, heq⟩
        obtain ⟨rfl, rfl⟩ := List.cons.inj heq
        rw [(lookup_eq_some_iff hnodup).mpr hchild]
        exact (ih _ hchild).mp hrest
      · intro hfile
        split at hfile
        · rename_i node hlookup
          have hchild := (lookup_eq_some_iff hnodup).mp hlookup
          exact ⟨name, node, names, hchild, (ih _ hchild).mpr hfile, rfl⟩
        · cases hfile

theorem files_names_nodup (h : node.WellFormed) : (node.files.map Prod.fst).Nodup := by
  induction h with
  | file _ | other => simp [Node.files]
  | @dir children hnodup _ _ ih =>
    have hnames : (Node.dir children).files.map Prod.fst =
        children.flatMap fun child => (child.2.files.map Prod.fst).map (child.1 :: ·) := by
      rw [Node.files, filesBelow_eq, List.map_flatMap]
      refine List.flatMap_congr fun child _ => ?_
      rw [List.map_map, List.map_map]
      rfl
    rw [hnames, List.nodup_flatMap]
    refine ⟨fun child hchild => (ih child hchild).map fun _ _ heq => (List.cons.inj heq).2, ?_⟩
    -- files of different children differ in the first name
    refine (List.pairwise_map.mp hnodup).imp fun {a b} hne => ?_
    intro names ha hb
    obtain ⟨_, -, rfl⟩ := List.mem_map.mp ha
    obtain ⟨_, -, heq⟩ := List.mem_map.mp hb
    exact hne (List.cons.inj heq).1.symm

theorem valid_of_mem_files (h : node.WellFormed) :
    ∀ {names : List String}, (names, info) ∈ node.files → ∀ name ∈ names, ValidName name := by
  induction h with
  | file _ =>
    intro names hfile
    simp_all [Node.files]
  | other =>
    intro names hfile
    cases hfile
  | @dir children _ hvalid _ ih =>
    intro names hfile
    obtain ⟨name, node, rest, hchild, hrest, rfl⟩ := mem_filesBelow.mp hfile
    intro n hn
    rcases List.mem_cons.mp hn with rfl | hn
    · exact hvalid _ hchild
    · exact ih _ hchild hrest n hn

end Trees

section Joins

variable {root : String} {names names' : List String}

/-- Names with a slash before each. -/
def slashed (names : List String) : List Char := names.flatMap fun name => '/' :: name.toList

theorem takeWhile_slashed {l : List Char} (h : '/' ∉ l) (names : List String) :
    (l ++ slashed names).takeWhile (· ≠ '/') = l := by
  rw [List.takeWhile_append_of_pos fun c hc => by simpa using fun heq : c = '/' => h (heq ▸ hc)]
  cases names <;> simp [slashed]

theorem slashed_inj (h : ∀ name ∈ names, '/' ∉ name.toList) :
    ∀ {names' : List String}, (∀ name ∈ names', '/' ∉ name.toList) →
      slashed names = slashed names' → names = names' := by
  induction names with
  | nil =>
    intro names' _ heq
    cases names' with
    | nil => rfl
    | cons => cases heq
  | cons name names ih =>
    intro names' h' heq
    cases names' with
    | nil => cases heq
    | cons name' names' =>
      have htail : name.toList ++ slashed names = name'.toList ++ slashed names' :=
        (List.cons.inj heq).2
      have hname : name.toList = name'.toList := by
        rw [← takeWhile_slashed (h name (.head _)) names, htail,
          takeWhile_slashed (h' name' (.head _)) names']
      rw [hname, List.append_cancel_left_eq] at htail
      rw [String.toList_injective hname, ih (fun n hn => h n (.tail _ hn))
        (fun n hn => h' n (.tail _ hn)) htail]

theorem foldl_join (names : List String) : ∀ {root : String}, root ≠ "." →
    (names.foldl logicalJoin root).toList = root.toList ++ slashed names := by
  induction names with
  | nil => simp [slashed]
  | cons name names ih =>
    intro root hroot
    have hjoin : logicalJoin root name = root ++ "/" ++ name := if_neg hroot
    have hne : root ++ "/" ++ name ≠ "." := by
      intro heq
      have hmem : '/' ∈ (root ++ "/" ++ name).toList := by simp
      rw [heq] at hmem
      simp at hmem
    rw [List.foldl_cons, hjoin, ih hne]
    simp [slashed]

/-- The text of a path is the names with slashes, after a root other than `.`. -/
theorem slash_foldl_join (hnames : names ≠ []) (h : ∀ name ∈ names, ValidName name) :
    '/' :: (names.foldl logicalJoin root).toList =
      (if root = "." then [] else '/' :: root.toList) ++ slashed names := by
  by_cases hroot : root = "."
  · subst hroot
    cases names with
    | nil => exact absurd rfl hnames
    | cons name names =>
      rw [List.foldl_cons, show logicalJoin "." name = name from rfl,
        foldl_join names (h name (.head _)).2.1]
      simp [slashed]
  · rw [foldl_join names hroot, if_neg hroot]
    rfl

theorem foldl_join_inj (hnames : names ≠ []) (hnames' : names' ≠ [])
    (h : ∀ name ∈ names, ValidName name) (h' : ∀ name ∈ names', ValidName name)
    (heq : names.foldl logicalJoin root = names'.foldl logicalJoin root) : names = names' := by
  have htext : '/' :: (names.foldl logicalJoin root).toList = _ := slash_foldl_join hnames h
  rw [heq, slash_foldl_join hnames' h', List.append_cancel_left_eq] at htext
  exact (slashed_inj (fun name hname => (h' name hname).2.2) (fun name hname => (h name hname).2.2)
    htext).symm

theorem foldl_join_ne_empty (hnames : names ≠ []) (h : ∀ name ∈ names, ValidName name) :
    names.foldl logicalJoin root ≠ "" := by
  intro heq
  have htext : '/' :: (names.foldl logicalJoin root).toList = _ := slash_foldl_join hnames h
  cases names with
  | nil => exact hnames rfl
  | cons name names =>
    have hname : name.toList ≠ [] := fun hnil =>
      (h name (.head _)).1 (String.toList_eq_nil_iff.mp hnil)
    have hlen := congrArg List.length htext
    have hpos := List.length_pos_iff.mpr hname
    simp only [heq, slashed, List.flatMap_cons, List.length_append, List.length_cons,
      String.toList_empty, List.length_nil] at hlen
    omega

end Joins

section Entries

variable {root : String} {recursive : Bool} {found : Option Node}

/-- The files that a listing is about. -/
def listed (recursive : Bool) (found : Option Node) : List (List String × FileInfo) :=
  (found.elim [] Node.files).filter fun file =>
    file.1 ≠ [] ∧ (recursive = true ∨ file.1.length = 1)

theorem filesBelow_ne_nil {children : List (String × Node)} :
    ∀ file ∈ filesBelow children, file.1 ≠ [] := by
  intro file hfile
  obtain ⟨name, _, rest, -, -, hnames⟩ := mem_filesBelow.mp hfile
  simp [hnames]

/-- The entries that are made when directories are not searched. -/
theorem direct_entries (root : String) (children : List (String × Node)) :
    children.filterMap (fun (name, node) =>
      match node with
      | .file info => some (entryFromInfo (logicalJoin root name) info)
      | _ => none) =
    ((filesBelow children).filter fun file => file.1.length = 1).map (fileEntry root) := by
  induction children with
  | nil => rfl
  | cons child children ih =>
    obtain ⟨name, node⟩ := child
    rw [filesBelow, List.filter_append, List.map_append, ← ih, List.filterMap_cons]
    cases node with
    | file info => rfl
    | other => rfl
    | dir grandchildren =>
      have hdeep : ((Node.dir grandchildren).files.map fun file => (name :: file.1, file.2)).filter
          (fun file => file.1.length = 1) = [] := by
        rw [List.filter_eq_nil_iff]
        intro file hfile
        obtain ⟨deeper, hdeeper, rfl⟩ := List.mem_map.mp hfile
        have hne := filesBelow_ne_nil deeper hdeeper
        simpa using hne
      rw [hdeep]
      rfl

section

variable (h : ∀ node ∈ found, node.WellFormed)

include h

theorem listEntries_eq :
    listEntries root recursive found = (listed recursive found).map (fileEntry root) := by
  cases found with
  | none => rfl
  | some node =>
    cases node with
    | file info => simp [listEntries, listed, Node.files]
    | other => rfl
    | dir children =>
      have hne : ∀ file ∈ filesBelow children, file.1 ≠ [] := filesBelow_ne_nil
      cases recursive with
      | false =>
        change children.filterMap _ = _
        rw [direct_entries, listed]
        refine congrArg _ (List.filter_congr fun file hfile => ?_)
        simp [hne file hfile]
      | true =>
        have hall : listed true (some (.dir children)) = filesBelow children := by
          refine List.filter_eq_self.mpr fun file hfile => ?_
          simp [hne file hfile]
        rw [hall]
        exact walkDir_eq (h _ rfl) root

theorem mem_listEntries_iff {path : String} :
    path ∈ (listEntries root recursive found).map FileEntry.path ↔
      Present root recursive found path := by
  rw [listEntries_eq h]
  simp only [List.map_map, List.mem_map, listed, List.mem_filter, Prod.exists]
  constructor
  · rintro ⟨names, info, ⟨hfile, hnames⟩, rfl⟩
    cases found with
    | none => cases hfile
    | some node =>
      obtain ⟨hne, hdepth⟩ := of_decide_eq_true hnames
      exact ⟨node, names, info, rfl, (mem_files_iff (h node rfl)).mp hfile, hne, hdepth, rfl⟩
  · rintro ⟨node, names, info, rfl, hfile, hne, hdepth, rfl⟩
    exact ⟨names, info, ⟨(mem_files_iff (h node rfl)).mpr hfile, decide_eq_true ⟨hne, hdepth⟩⟩, rfl⟩

theorem listed_names {file : List String × FileInfo} (hfile : file ∈ listed recursive found) :
    file.1 ≠ [] ∧ ∀ name ∈ file.1, ValidName name := by
  obtain ⟨hmem, hnames⟩ := List.mem_filter.mp hfile
  cases found with
  | none => cases hmem
  | some node => exact ⟨(of_decide_eq_true hnames).1, valid_of_mem_files (h node rfl) hmem⟩

theorem listEntries_ne_empty : ∀ e ∈ listEntries root recursive found, e.path ≠ "" := by
  rw [listEntries_eq h]
  intro e he
  obtain ⟨file, hfile, rfl⟩ := List.mem_map.mp he
  obtain ⟨hne, hvalid⟩ := listed_names h hfile
  exact foldl_join_ne_empty hne hvalid

theorem listEntries_nodup : ((listEntries root recursive found).map FileEntry.path).Nodup := by
  have hnames : ((listed recursive found).map Prod.fst).Nodup := by
    cases found with
    | none => exact List.nodup_nil
    | some node => exact (files_names_nodup (h node rfl)).sublist (List.filter_sublist.map _)
  rw [listEntries_eq h, List.map_map]
  change ((listed recursive found).map ((·.foldl logicalJoin root) ∘ Prod.fst)).Nodup
  rw [← List.map_map]
  refine hnames.map_on fun names hmem names' hmem' heq => ?_
  obtain ⟨file, hfile, rfl⟩ := List.mem_map.mp hmem
  obtain ⟨file', hfile', rfl⟩ := List.mem_map.mp hmem'
  obtain ⟨hne, hvalid⟩ := listed_names h hfile
  obtain ⟨hne', hvalid'⟩ := listed_names h hfile'
  exact foldl_join_inj hne hne' hvalid hvalid' heq

end

end Entries

end Fries.Filesystem.Local
