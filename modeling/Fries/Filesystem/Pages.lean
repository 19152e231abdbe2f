import Fries.Filesystem.Local
import Mathlib.Data.Finset.Card

/-! Listing a local directory page by page while its content changes. -/
namespace Fries.Filesystem.Local

section Pages

variable {entries : List FileEntry} {options : ListOptions} {limit : Nat}

/-- The entries after the cursor. -/
def after (cursor : String) (entries : List FileEntry) : List FileEntry :=
  entries.filter fun e => cursor < e.path

theorem drop_after (h : Sorted entries) (cursor : String) :
    entries.drop (search entries.length fun i => entries[i]?.any fun e => cursor < e.path) =
      after cursor entries := by
  refine drop_search (h.imp fun {a b} hab ha => ?_)
  exact decide_eq_true ((of_decide_eq_true ha).trans hab)

/-- A page is as many entries after the cursor as fit, and the next cursor the last of them if there
are more. -/
theorem paginate_eq (h : Sorted entries) (hpos : 0 < limit) (hlimit : options.limit = limit) :
    paginate entries options =
      { entries := (after options.cursor entries).take limit
        nextCursor :=
          if limit < (after options.cursor entries).length then
            ((after options.cursor entries)[limit - 1]?.map FileEntry.path).getD ""
          else "" } := by
  rw [← drop_after h options.cursor, paginate, hlimit]
  generalize
    (search entries.length fun i => entries[i]?.any fun e => options.cursor < e.path) = start
  simp only [List.length_drop, List.getElem?_drop, Int.toNat_natCast]
  by_cases hmore : start + limit < entries.length
  · have hfits : (limit : Int) > 0 ∧ (start : Int) + limit < entries.length := by omega
    have hnext : start + limit < entries.length ∧ start + limit > start := by omega
    have hrest : limit < entries.length - start := by omega
    have hindex : start + limit - 1 = start + (limit - 1) := by omega
    rw [if_pos hfits, if_pos hnext, if_pos hrest, hindex, List.drop_take,
      Nat.add_sub_cancel_left]
  · have hfits : ¬ ((limit : Int) > 0 ∧ (start : Int) + limit < entries.length) := by omega
    have hrest : ¬ limit < entries.length - start := by omega
    have hall : (entries.drop start).take limit = entries.drop start :=
      List.take_of_length_le (by rw [List.length_drop]; omega)
    rw [if_neg hfits, if_neg hrest, hall, List.take_length, if_neg (by omega)]

/-- What a page says of the files after a cursor: up to its next cursor, or all if there is none,
its entries are the files that are there. -/
structure PageOf (cursor : String) (there : String → Prop) (page : ListPage) : Prop where
  sorted : (page.entries.map FileEntry.path).Pairwise (· < ·)
  beyond : ∀ path ∈ page.entries.map FileEntry.path, cursor < path
  present : ∀ path ∈ page.entries.map FileEntry.path, there path
  complete : ∀ path, there path → cursor < path → page.nextCursor = "" ∨ path ≤ page.nextCursor →
    path ∈ page.entries.map FileEntry.path
  last : page.nextCursor ≠ "" → page.nextCursor ∈ page.entries.map FileEntry.path
  upTo : page.nextCursor ≠ "" → ∀ path ∈ page.entries.map FileEntry.path, path ≤ page.nextCursor

theorem sorted_le (h : Sorted entries) {i j : Nat} (hij : i ≤ j) (hj : j < entries.length) :
    entries[i].path ≤ entries[j].path := by
  rcases Nat.lt_or_eq_of_le hij with hlt | rfl
  · exact (List.pairwise_iff_getElem.mp h i j (by omega) hj hlt).le
  · exact le_rfl

theorem paginate_pageOf (h : Sorted entries) (hne : ∀ e ∈ entries, e.path ≠ "") (hpos : 0 < limit)
    (hlimit : options.limit = limit) :
    PageOf options.cursor (· ∈ entries.map FileEntry.path) (paginate entries options) := by
  rw [paginate_eq h hpos hlimit]
  have hsorted : Sorted (after options.cursor entries) := h.filter _
  have hmem : ∀ e, e ∈ after options.cursor entries ↔ e ∈ entries ∧ options.cursor < e.path := by
    intro e
    rw [after, List.mem_filter, decide_eq_true_iff]
  generalize after options.cursor entries = rest at hsorted hmem
  have hpaths : ∀ path ∈ (rest.take limit).map FileEntry.path,
      options.cursor < path ∧ path ∈ entries.map FileEntry.path := by
    intro path hpath
    obtain ⟨e, he, rfl⟩ := List.mem_map.mp hpath
    obtain ⟨hentry, hafter⟩ := (hmem e).mp (List.mem_of_mem_take he)
    exact ⟨hafter, List.mem_map_of_mem hentry⟩
  have hrest : ∀ path ∈ entries.map FileEntry.path, options.cursor < path →
      ∃ e ∈ rest, e.path = path := by
    intro path hpath hafter
    obtain ⟨e, he, rfl⟩ := List.mem_map.mp hpath
    exact ⟨e, (hmem e).mpr ⟨he, hafter⟩, rfl⟩
  have hsub : ((rest.take limit).map FileEntry.path).Pairwise (· < ·) :=
    List.pairwise_map.mpr (hsorted.sublist (List.take_sublist ..))
  by_cases hmore : limit < rest.length
  · have hlast : rest[limit - 1]? = some rest[limit - 1] := List.getElem?_eq_getElem (by omega)
    simp only [if_pos hmore, hlast, Option.map_some, Option.getD_some]
    have hnext : rest[limit - 1].path ≠ "" :=
      hne _ ((hmem _).mp (List.getElem_mem (by omega))).1
    refine ⟨hsub, fun path hpath => (hpaths path hpath).1, fun path hpath => (hpaths path hpath).2,
      fun path hpath hafter hle => ?_, fun _ => ?_, fun _ path hpath => ?_⟩
    · obtain ⟨e, he, rfl⟩ := hrest path hpath hafter
      obtain ⟨i, hi, rfl⟩ := List.mem_iff_getElem.mp he
      -- a later entry would have a path after the next cursor
      have hlt : i < limit := by
        by_contra hge
        have hafter' := List.pairwise_iff_getElem.mp hsorted (limit - 1) i (by omega) hi (by omega)
        exact absurd (hle.resolve_left hnext) (not_le.mpr hafter')
      exact List.mem_map_of_mem (List.mem_take_iff_getElem.mpr ⟨i, by omega, rfl⟩)
    · exact List.mem_map_of_mem (List.mem_take_iff_getElem.mpr ⟨limit - 1, by omega, rfl⟩)
    · obtain ⟨e, he, rfl⟩ := List.mem_map.mp hpath
      obtain ⟨i, hi, rfl⟩ := List.mem_take_iff_getElem.mp he
      exact sorted_le hsorted (by omega) (by omega)
  · have hall : rest.take limit = rest := List.take_of_length_le (by omega)
    simp only [if_neg hmore]
    refine ⟨hsub, fun path hpath => (hpaths path hpath).1, fun path hpath => (hpaths path hpath).2,
      fun path hpath hafter _ => ?_, fun hnext => absurd rfl hnext, fun hnext => absurd rfl hnext⟩
    obtain ⟨e, he, rfl⟩ := hrest path hpath hafter
    rw [hall]
    exact List.mem_map_of_mem he

end Pages

section Listings

/-- A listing in several requests: the limit of each, and what is below the path when it is made. -/
structure Listing where
  path : String
  recursive : Bool
  limit : Nat → Int
  found : Nat → Option Node
  valid : validPath path = true
  wellFormed : ∀ n, ∀ node ∈ found n, node.WellFormed

variable {E : Type} (l : Listing)

def Listing.request (n : Nat) (cursor : String) : Except (Failure E) ListPage :=
  listFiles .live (.ok (l.found n)) l.path ⟨l.recursive, l.limit n, cursor⟩

/-- The pages from request `n` on, for at most `fuel` requests. -/
def Listing.follow : Nat → Nat → String → Option (Except (Failure E) (List ListPage))
  | 0, _, _ => none
  | fuel + 1, n, cursor =>
    match l.request n cursor with
    | .error err => some (.error err)
    | .ok page =>
      if page.nextCursor = "" then some (.ok [page])
      else
        match Listing.follow fuel (n + 1) page.nextCursor with
        | some (.ok pages) => some (.ok (page :: pages))
        | result => result

/-- A file is there when request `n` is made. -/
def Listing.Present (n : Nat) (path : String) : Prop :=
  Local.Present l.path l.recursive (l.found n) path

def paths (pages : List ListPage) : List String :=
  pages.flatMap fun page => page.entries.map FileEntry.path

theorem request_pageOf (n : Nat) (cursor : String) :
    ∃ page, (l.request n cursor : Except (Failure E) ListPage) = .ok page ∧
      PageOf cursor (l.Present n) page := by
  let o : ListOptions := ⟨l.recursive, l.limit n, cursor⟩
  let found := listEntries l.path l.recursive (l.found n)
  let entries := sortByPath found
  have hrequest : (l.request n cursor : Except (Failure E) ListPage) =
      .ok (paginate entries o.normalize) := by
    simp only [Listing.request, listFiles, Ctx.cause, l.valid, normalize_recursive]
    rfl
  refine ⟨_, hrequest, ?_⟩
  obtain ⟨limit, hpos, hlimit⟩ := normalize_limit o
  have hwf := l.wellFormed n
  have hsorted : Sorted entries := sorted_sortByPath (listEntries_nodup hwf)
  have hne : ∀ e ∈ entries, e.path ≠ "" := fun e he =>
    listEntries_ne_empty hwf e (mem_sortByPath.mp he)
  have hpage := paginate_pageOf hsorted hne hpos hlimit
  have hthere : (· ∈ entries.map FileEntry.path) = l.Present n := by
    funext path
    refine propext (Iff.trans ?_ (mem_listEntries_iff hwf))
    simp only [List.mem_map, entries, mem_sortByPath, found]
  rw [normalize_cursor] at hpage
  rw [← hthere]
  exact hpage

theorem empty_lt_of_present {l : Listing} {n : Nat} {path : String} (h : l.Present n path) :
    "" < path := by
  obtain ⟨e, he, rfl⟩ := List.mem_map.mp ((mem_listEntries_iff (l.wellFormed n)).mpr h)
  have hne := listEntries_ne_empty (l.wellFormed n) e he
  rw [String.lt_iff_toList_lt]
  cases htext : e.path.toList with
  | nil => exact absurd (String.toList_eq_nil_iff.mp htext) hne
  | cons => exact List.nil_lt_cons ..

/-- What the pages from request `n` on say of the files after a cursor. -/
structure PagesOf (n : Nat) (cursor : String) (pages : List ListPage) : Prop where
  sorted : (paths pages).Pairwise (· < ·)
  beyond : ∀ path ∈ paths pages, cursor < path
  present : ∀ i page, pages[i]? = some page → ∀ e ∈ page.entries, l.Present (n + i) e.path
  complete : ∀ path, cursor < path → (∀ i < pages.length, l.Present (n + i) path) →
    path ∈ paths pages
  nonempty : ∀ i page, i + 1 < pages.length → pages[i]? = some page → page.entries ≠ []
  ends : ∃ page, pages.getLast? = some page ∧ page.nextCursor = ""

variable {l} {n : Nat} {cursor : String} {page : ListPage} {pages : List ListPage}

theorem pagesOf_last (h : PageOf cursor (l.Present n) page) (hlast : page.nextCursor = "") :
    PagesOf l n cursor [page] where
  sorted := by simpa [paths] using h.sorted
  beyond := by simpa [paths] using h.beyond
  present i page' hpage := by
    cases i with
    | zero =>
      cases hpage
      exact fun e he => h.present _ (List.mem_map_of_mem he)
    | succ => cases hpage
  complete path hafter hthere := by
    have hmem := h.complete path (hthere 0 (by simp)) hafter (.inl hlast)
    simpa [paths] using hmem
  nonempty i page' hi := by simp at hi
  ends := ⟨page, rfl, hlast⟩

theorem pagesOf_cons (h : PageOf cursor (l.Present n) page) (hmore : page.nextCursor ≠ "")
    (hrest : PagesOf l (n + 1) page.nextCursor pages) : PagesOf l n cursor (page :: pages) where
  sorted := by
    rw [paths, List.flatMap_cons, List.pairwise_append]
    refine ⟨h.sorted, hrest.sorted, fun a ha b hb => ?_⟩
    exact (h.upTo hmore a ha).trans_lt (hrest.beyond b hb)
  beyond path hpath := by
    rw [paths, List.flatMap_cons] at hpath
    rcases List.mem_append.mp hpath with hpath | hpath
    · exact h.beyond path hpath
    · exact (h.beyond _ (h.last hmore)).trans (hrest.beyond path hpath)
  present i page' hpage := by
    cases i with
    | zero =>
      cases hpage
      exact fun e he => h.present _ (List.mem_map_of_mem he)
    | succ i =>
      have hlater := hrest.present i page' hpage
      rwa [Nat.add_right_comm, Nat.add_assoc] at hlater
  complete path hafter hthere := by
    rw [paths, List.flatMap_cons, List.mem_append]
    -- up to the next cursor the file is on this page, after it on a later one
    rcases le_or_gt path page.nextCursor with hle | hgt
    · exact .inl (h.complete path (hthere 0 (by simp)) hafter (.inr hle))
    · refine .inr (hrest.complete path hgt fun i hi => ?_)
      have hlater := hthere (i + 1) (by simpa using hi)
      rwa [Nat.add_right_comm, Nat.add_assoc]
  nonempty i page' hi hpage := by
    cases i with
    | zero =>
      cases hpage
      intro hnil
      have hmem := h.last hmore
      rw [hnil] at hmem
      cases hmem
    | succ i => exact hrest.nonempty i page' (by simpa using hi) hpage
  ends := by
    obtain ⟨last, hlast, hend⟩ := hrest.ends
    refine ⟨last, ?_, hend⟩
    rw [List.getLast?_cons, hlast]
    rfl

/-- As many requests as there are files that may come, and one more, are enough. -/
theorem follow_pagesOf {all : Finset String} (hall : ∀ n path, l.Present n path → path ∈ all)
    {fuel : Nat} : ∀ {n : Nat} {cursor : String}, (all.filter (cursor < ·)).card < fuel →
      ∃ pages, (l.follow fuel n cursor : Option (Except (Failure E) (List ListPage))) =
        some (.ok pages) ∧ PagesOf l n cursor pages := by
  induction fuel with
  | zero =>
    intro n cursor hcard
    exact absurd hcard (Nat.not_lt_zero _)
  | succ fuel ih =>
    intro n cursor hcard
    obtain ⟨page, hrequest, hpage⟩ := request_pageOf l n cursor (E := E)
    by_cases hlast : page.nextCursor = ""
    · refine ⟨[page], ?_, pagesOf_last hpage hlast⟩
      simp only [Listing.follow, hrequest, if_pos hlast]
    · have hnext := hpage.last hlast
      have hsmaller : all.filter (page.nextCursor < ·) ⊂ all.filter (cursor < ·) := by
        refine Finset.ssubset_iff_of_subset (fun path hpath => ?_) |>.mpr
          ⟨page.nextCursor, ?_, ?_⟩
        · obtain ⟨hmem, hlt⟩ := Finset.mem_filter.mp hpath
          exact Finset.mem_filter.mpr ⟨hmem, (hpage.beyond _ hnext).trans hlt⟩
        · exact Finset.mem_filter.mpr ⟨hall n _ (hpage.present _ hnext), hpage.beyond _ hnext⟩
        · exact fun hmem => lt_irrefl _ (Finset.mem_filter.mp hmem).2
      have hcard' := Finset.card_lt_card hsmaller
      have hfuel : (all.filter (page.nextCursor < ·)).card < fuel := by omega
      obtain ⟨pages, hfollow, hpages⟩ := ih (n := n + 1) hfuel
      exact ⟨page :: pages, by simp only [Listing.follow, hrequest, if_neg hlast, hfollow],
        pagesOf_cons hpage hlast hpages⟩

end Listings

/-- A listing that follows the cursors while files come and go ends, its pages increase strictly,
and a file that stays is returned once. -/
theorem listing_is_complete {E : Type} (l : Listing) (all : Finset String)
    (hall : ∀ n path, l.Present n path → path ∈ all) :
    ∃ pages, (l.follow (all.card + 1) 0 "" : Option (Except (Failure E) (List ListPage))) =
        some (.ok pages) ∧
      (∃ page, pages.getLast? = some page ∧ page.nextCursor = "") ∧
      (paths pages).Pairwise (· < ·) ∧
      (∀ path, (∀ i < pages.length, l.Present i path) → (paths pages).count path = 1) ∧
      (∀ i page, pages[i]? = some page → ∀ e ∈ page.entries, l.Present i e.path) ∧
      ∀ i page, i + 1 < pages.length → pages[i]? = some page → page.entries ≠ [] := by
  have hfuel : (all.filter ("" < ·)).card < all.card + 1 :=
    Nat.lt_succ_of_le (Finset.card_filter_le ..)
  obtain ⟨pages, hfollow, hpages⟩ := follow_pagesOf hall hfuel (n := 0) (E := E)
  refine ⟨pages, hfollow, hpages.ends, hpages.sorted, fun path hthere => ?_, ?_, hpages.nonempty⟩
  · have hpos : 0 < pages.length := by
      obtain ⟨page, hlast, -⟩ := hpages.ends
      exact List.length_pos_iff.mpr fun hnil => by simp [hnil] at hlast
    have hmem := hpages.complete path (empty_lt_of_present (hthere 0 hpos)) (by simpa using hthere)
    exact List.count_eq_one_of_mem (hpages.sorted.imp ne_of_lt) hmem
  · intro i page hpage e he
    have hpresent := hpages.present i page hpage e he
    rwa [Nat.zero_add] at hpresent

/-- Two files, and the first of them gone and another one in a directory after the first page. -/
def changing (n : Nat) : List (String × Node) :=
  if n = 0 then [("a", .file ⟨1, 0⟩), ("b", .file ⟨2, 0⟩)]
  else [("b", .file ⟨2, 0⟩), ("c", .dir [("d", .file ⟨3, 0⟩)])]

theorem changing_wellFormed (n : Nat) : (Node.dir (changing n)).WellFormed := by
  have hname : ∀ name ∈ ["a", "b", "c", "d"], ValidName name := by simp [ValidName]
  have hlast : (Node.dir [("d", .file ⟨3, 0⟩)]).WellFormed :=
    .dir (by simp) (by simp [hname]) (by simp [Node.WellFormed.file])
  unfold changing
  split_ifs
  · exact .dir (by simp) (by simp [hname]) (by simp [Node.WellFormed.file])
  · exact .dir (by simp) (by simp [hname]) (by simp [Node.WellFormed.file, hlast])

def changingListing : Listing where
  path := "."
  recursive := true
  limit _ := 1
  found n := some (.dir (changing n))
  valid := by decide
  wellFormed n node h := Option.some.inj h ▸ changing_wellFormed n

theorem changing_present {n : Nat} {path : String} (h : changingListing.Present n path) :
    path ∈ ({"a", "b", "c/d"} : Finset String) := by
  have hmem : path ∈ (listEntries "." true (some (.dir (changing n)))).map FileEntry.path :=
    (mem_listEntries_iff (changingListing.wellFormed n)).mpr h
  have hpaths : ∀ p ∈ (listEntries "." true (some (.dir (changing n)))).map FileEntry.path,
      p ∈ ["a", "b", "c/d"] := by
    unfold changing
    split_ifs
    · change ∀ p ∈ ["a", "b"], p ∈ ["a", "b", "c/d"]
      simp
    · change ∀ p ∈ ["b", "c/d"], p ∈ ["a", "b", "c/d"]
      simp
  simpa using hpaths path hmem

/-- The file `b` stays and is listed once. -/
theorem listing_is_complete_changing :
    ∃ pages, (changingListing.follow 4 0 "" : Option (Except (Failure Empty) (List ListPage))) =
        some (.ok pages) ∧ (paths pages).count "b" = 1 := by
  obtain ⟨pages, hfollow, -, -, hcount, -, -⟩ :=
    listing_is_complete changingListing {"a", "b", "c/d"} fun _ _ h => changing_present h
  refine ⟨pages, hfollow, hcount "b" fun i _ => ?_⟩
  refine ⟨_, ["b"], ⟨2, 0⟩, rfl, ?_, by simp, .inl rfl, rfl⟩
  unfold changing
  split_ifs <;> rfl

end Fries.Filesystem.Local
