import Fries.Log.Enrich

/-! An enriching handler emits what a plain one emits, and its dynamic attributes. -/
namespace Fries.Enrich

open Fries.Slog

section Groups

variable {C I L : Type} {groups : List (String × List (Attr L))} {next plain : Slog.Handler L}

/-- What is bound in groups that are nested in each other. -/
def boundLeaves (path : List String) : List (String × List (Attr L)) → List (Leaf L)
  | [] => []
  | (name, attrs) :: groups =>
    leavesAll (path ++ [name]) attrs ++ boundLeaves (path ++ [name]) groups

theorem boundLeaves_append (before after : List (String × List (Attr L))) :
    ∀ path, boundLeaves path (before ++ after) =
      boundLeaves path before ++ boundLeaves (path ++ before.map Prod.fst) after := by
  induction before with
  | nil => simp [boundLeaves]
  | cons g before ih =>
    intro path
    obtain ⟨name, attrs⟩ := g
    rw [List.cons_append, boundLeaves, boundLeaves, ih, List.map_cons, List.append_assoc,
      List.append_assoc]
    rfl

theorem groupAttr_cons (record attrs : List (Attr L)) (name : String)
    (g : String × List (Attr L)) (groups : List (String × List (Attr L))) :
    groupAttr record ((name, attrs) :: g :: groups) =
      match groupAttr record (g :: groups) with
      | none => if attrs.length = 0 then none else some (name, groupValue attrs)
      | some child => some (name, groupValue (attrs ++ [child])) :=
  rfl

/-- One tree with everything bound in groups and the record's own attributes. -/
theorem leaves_groupAttr (record : List (Attr L)) (hnames : ∀ g ∈ groups, g.1 ≠ "")
    (hne : groups ≠ []) : ∀ path, leavesAll path (groupAttr record groups).toList =
      boundLeaves path groups ++ leavesAll (path ++ groups.map Prod.fst) record := by
  induction groups with
  | nil => exact absurd rfl hne
  | cons g groups ih =>
    intro path
    obtain ⟨name, attrs⟩ := g
    have hname : name ≠ "" := hnames (name, attrs) (.head _)
    cases groups with
    | nil =>
      rw [groupAttr]
      split_ifs with hsize
      · obtain ⟨rfl, rfl⟩ : attrs = [] ∧ record = [] := by
          simpa [← List.length_eq_zero_iff] using hsize
        rfl
      · simp only [Option.toList_some, leavesAll, leavesAll_groupValue path hname, leavesAll_append,
          boundLeaves, List.append_nil, List.map_cons, List.map_nil]
    | cons g' groups =>
      have hrest := ih (fun g hg => hnames g (.tail _ hg)) (by simp) (path ++ [name])
      have hpath : path ++ (name :: (g' :: groups).map Prod.fst) =
          path ++ [name] ++ (g' :: groups).map Prod.fst := by simp
      rw [List.map_cons, hpath, boundLeaves, List.append_assoc, ← hrest, groupAttr_cons]
      cases groupAttr record (g' :: groups) with
      | none =>
        simp only
        split_ifs with hsize
        · obtain rfl : attrs = [] := List.length_eq_zero_iff.mp hsize
          rfl
        · simp only [Option.toList_some, leavesAll, leavesAll_groupValue path hname,
            List.append_nil, Option.toList_none]
      | some child =>
        simp only [Option.toList_some, leavesAll, leavesAll_groupValue path hname, leavesAll_append,
          List.append_nil]

/-- A plain handler and the parts of an enriching one that was derived in the same way. -/
structure Alike (plain next : Slog.Handler L) (groups : List (String × List (Attr L))) : Prop where
  ungrouped : next.path = []
  names : ∀ g ∈ groups, g.1 ≠ ""
  path : plain.path = groups.map Prod.fst
  bound : plain.bound = next.bound ++ boundLeaves [] groups

theorem Alike.derive (h : Alike plain next groups) (d : Derivation L) :
    Alike (plain.derive d) (deriveGroups next groups d).1 (deriveGroups next groups d).2 := by
  cases d with
  | withAttrs attrs =>
    simp only [deriveGroups, Slog.Handler.derive, Slog.Handler.withAttrs]
    by_cases hattrs : attrs = []
    · simp only [hattrs, leavesAll, List.append_nil]
      exact { h with }
    · rw [if_neg hattrs]
      rcases List.eq_nil_or_concat groups with rfl | ⟨init, ⟨name, bound⟩, hconcat⟩
      · refine ⟨h.ungrouped, h.names, h.path, ?_⟩
        simp [h.bound, h.path, h.ungrouped, boundLeaves]
      · rw [List.concat_eq_append] at hconcat
        subst hconcat
        simp only [List.getLast?_concat, List.dropLast_concat]
        refine ⟨h.ungrouped, ?_, ?_, ?_⟩
        · exact List.forall_mem_append.mpr
            ⟨fun g hg => h.names g (List.mem_append_left _ hg),
              List.forall_mem_singleton.mpr (h.names (name, bound) (by simp))⟩
        · simpa using h.path
        · simp [h.bound, h.path, boundLeaves_append, boundLeaves, leavesAll_append]
  | withGroup name =>
    simp only [deriveGroups, Slog.Handler.derive, Slog.Handler.withGroup]
    split_ifs with hname
    · exact h
    · refine ⟨h.ungrouped, ?_, by simp [h.path], ?_⟩
      · exact List.forall_mem_append.mpr ⟨h.names, List.forall_mem_singleton.mpr hname⟩
      · simp [h.bound, boundLeaves_append, boundLeaves, leavesAll]

/-- The wrapped handler and the groups after a chain of derivations. -/
def deriveAll (next : Slog.Handler L) (groups : List (String × List (Attr L)))
    (chain : List (Derivation L)) : Slog.Handler L × List (String × List (Attr L)) :=
  chain.foldl (fun state d => deriveGroups state.1 state.2 d) (next, groups)

theorem Alike.deriveAll (chain : List (Derivation L)) :
    ∀ {plain next : Slog.Handler L} {groups : List (String × List (Attr L))},
      Alike plain next groups → Alike (chain.foldl Slog.Handler.derive plain)
        (Enrich.deriveAll next groups chain).1 (Enrich.deriveAll next groups chain).2 := by
  induction chain with
  | nil => exact fun h => h
  | cons d chain ih => exact fun h => ih (h.derive d)

/-- The attributes that a chain binds before it opens a group. -/
def rootAttrs : List (Derivation L) → List (Attr L)
  | [] => []
  | .withAttrs attrs :: chain => attrs ++ rootAttrs chain
  | .withGroup name :: chain => if name = "" then rootAttrs chain else []

/-- Only the attributes before the first group are passed to the wrapped handler. -/
theorem deriveAll_bound (chain : List (Derivation L)) :
    ∀ {next : Slog.Handler L} {groups : List (String × List (Attr L))}, next.path = [] →
      (deriveAll next groups chain).1.bound =
        next.bound ++ if groups = [] then leavesAll [] (rootAttrs chain) else [] := by
  induction chain with
  | nil => simp [deriveAll, rootAttrs, leavesAll]
  | cons d chain ih =>
    intro next groups hpath
    change (deriveAll (deriveGroups next groups d).1 (deriveGroups next groups d).2
      chain).1.bound = _
    cases d with
    | withAttrs attrs =>
      by_cases hattrs : attrs = []
      · subst hattrs
        simp only [deriveGroups, if_true, ih hpath, rootAttrs, List.nil_append]
      · simp only [deriveGroups, if_neg hattrs]
        rcases List.eq_nil_or_concat groups with rfl | ⟨init, ⟨name, bound⟩, hconcat⟩
        · have hpath' : (next.withAttrs attrs).path = [] := hpath
          rw [List.getLast?_nil, ih hpath']
          simp [Slog.Handler.withAttrs, hpath, rootAttrs, leavesAll_append]
        · rw [List.concat_eq_append] at hconcat
          subst hconcat
          simp [ih hpath]
    | withGroup name =>
      by_cases hname : name = ""
      · simp only [deriveGroups, if_pos hname, ih hpath, rootAttrs]
      · simp only [deriveGroups, if_neg hname, ih hpath, rootAttrs]
        simp [leavesAll]

end Groups

section Families

variable {C I L : Type}

/-- Handlers that were derived from one another, each with the calls that led to it. -/
structure Family (C L : Type) where
  memory : Memory L
  handlers : List (Handler C L × List (Derivation L))

/-- A call on one of the handlers, with the room that new arrays get. -/
structure Call (L : Type) where
  handler : Nat
  derivation : Derivation L
  spare : Nat × Nat

def Family.call (f : Family C L) (call : Call L) : Family C L :=
  match f.handlers[call.handler]? with
  | none => f
  | some (h, chain) =>
    let (h', m) := h.derive call.spare f.memory call.derivation
    ⟨m, f.handlers ++ [(h', chain ++ [call.derivation])]⟩

def Family.calls (f : Family C L) (calls : List (Call L)) : Family C L := calls.foldl Family.call f

def newFamily (base : Slog.Handler L) (opts : List (Opt C L)) : Family C L :=
  ⟨⟨[], []⟩, [(newHandler base opts, [])]⟩

/-- Every handler holds what its own chain of calls says. -/
def Family.Sound (base : Slog.Handler L) (opts : List (Opt C L)) (f : Family C L) : Prop :=
  ∀ p ∈ f.handlers, p.1.config = newConfig opts ∧ p.1.next = (deriveAll base [] p.2).1 ∧
    p.1.Holds f.memory (deriveAll base [] p.2).2

variable {base : Slog.Handler L} {opts : List (Opt C L)} {f : Family C L}

theorem deriveAll_concat (chain : List (Derivation L)) (d : Derivation L) :
    deriveAll base [] (chain ++ [d]) =
      deriveGroups (deriveAll base [] chain).1 (deriveAll base [] chain).2 d := by
  simp [deriveAll]

theorem newFamily_sound : (newFamily base opts).Sound base opts := by
  intro p hp
  obtain rfl := List.mem_singleton.mp hp
  exact ⟨rfl, rfl, [], Slice.holds_nil _, .nil⟩

/-- A call keeps every handler and what it holds. -/
theorem call_sound (hmode : (newConfig opts).currentGroup = false) (hf : f.Sound base opts)
    (call : Call L) : (f.call call).Sound base opts ∧ f.memory.Grows (f.call call).memory ∧
      f.handlers <+: (f.call call).handlers := by
  unfold Family.call
  split
  · exact ⟨hf, .refl _, List.prefix_refl _⟩
  · rename_i h chain hget
    obtain ⟨hconfig, hnext, hholds⟩ := hf _ (List.mem_of_getElem? hget)
    have hderived := derive_derived hholds (hconfig ▸ hmode) call.spare call.derivation
    refine ⟨fun p hp => ?_, hderived.grows, List.prefix_append ..⟩
    rcases List.mem_append.mp hp with hold | hnew
    · obtain ⟨hconfig', hnext', hholds'⟩ := hf p hold
      exact ⟨hconfig', hnext', hholds'.mono hderived.grows⟩
    · obtain rfl := List.mem_singleton.mp hnew
      simp only [deriveAll_concat, ← hnext]
      exact ⟨hderived.config.trans hconfig, hderived.next, hderived.holds⟩

theorem calls_sound (hmode : (newConfig opts).currentGroup = false) (calls : List (Call L)) :
    ∀ {f : Family C L}, f.Sound base opts → (f.calls calls).Sound base opts ∧
      f.memory.Grows (f.calls calls).memory ∧ f.handlers <+: (f.calls calls).handlers := by
  induction calls with
  | nil => exact fun hf => ⟨hf, .refl _, List.prefix_refl _⟩
  | cons call calls ih =>
    intro f hf
    obtain ⟨hsound, hgrows, hkeeps⟩ := call_sound hmode hf call
    obtain ⟨hsound', hgrows', hkeeps'⟩ := ih hsound
    exact ⟨hsound', hgrows.trans hgrows', hkeeps.trans hkeeps'⟩

/-- What a handler that holds some groups emits. -/
theorem handle_of_holds {h : Handler C L} {m : Memory L} {groups : List (String × List (Attr L))}
    {plain : Slog.Handler L} (hh : h.Holds m groups) (halike : Alike plain h.next groups) (ctx : C)
    (record : Record I L) :
    ∃ rest, plain.handle record = (record.info, h.next.bound ++ rest) ∧
      h.handle m ctx record =
        (record.info, h.next.bound ++ (leavesAll [] (h.config.dynamic ctx) ++ rest)) := by
  refine ⟨boundLeaves [] groups ++ leavesAll (groups.map Prod.fst) record.attrs, ?_, ?_⟩
  · rw [Slog.Handler.handle, halike.bound, halike.path, List.append_assoc]
  · -- without sources and groups the record is passed on as it is, which makes no difference
    have hemit : ∀ attrs, h.next.handle ((⟨record.info, []⟩ : Record I L).addAttrs attrs) =
        (record.info, h.next.bound ++ leavesAll [] attrs) := by
      intro attrs
      simp only [Slog.Handler.handle, Record.addAttrs, halike.ungrouped, List.nil_append,
        leavesAll_dropEmptyGroups]
    have hlen := hh.len_eq
    rcases List.eq_nil_or_concat groups with rfl | ⟨init, g, hconcat⟩
    · have hzero : h.groups.len = 0 := hlen
      unfold Handler.handle
      split_ifs with hnone
      · have hsources : h.config.sources = [] := List.length_eq_zero_iff.mp hnone.1
        simp [Slog.Handler.handle, halike.ungrouped, Config.dynamic, hsources, leavesAll,
          boundLeaves]
      · rw [hemit, leavesAll_append]
        rfl
    · have hne : groups ≠ [] := by simp [hconcat]
      have hlen' : h.groups.len ≠ 0 := fun hzero => hne (List.length_eq_zero_iff.mp (hlen ▸ hzero))
      have htree := leaves_groupAttr record.attrs halike.names hne []
      unfold Handler.handle
      rw [if_neg fun hnone => hlen' hnone.2, if_neg hlen', hh.view_eq, hemit, leavesAll_append,
        htree]
      rfl

/-- The attributes that an option adds in a context. A nil callback adds none, nor does a value that
is an empty group. -/
def Opt.attrs (ctx : C) : Opt C L → List (Attr L)
  | .withValue key (some valuer) => dropEmptyGroups [(key, valuer ctx)]
  | .withExtractors extractors => extractors.flatMap fun extractor => extractor.elim [] (· ctx)
  | _ => []

theorem dynamic_apply (c : Config C L) (o : Opt C L) (ctx : C) :
    (o.apply c).dynamic ctx = c.dynamic ctx ++ o.attrs ctx := by
  cases o with
  | withCurrentGroup => exact (List.append_nil _).symm
  | withValue key valuer =>
    cases valuer with
    | none => exact (List.append_nil _).symm
    | some valuer =>
      by_cases hempty : (valuer ctx).isEmptyGroup = true <;>
        simp [Opt.apply, Config.dynamic, Opt.attrs, Source.attrs, dropEmptyGroups, hempty]
  | withExtractors extractors =>
    simp only [Opt.apply, Config.dynamic, Opt.attrs, List.flatMap_append]
    congr 1
    induction extractors with
    | nil => rfl
    | cons extractor extractors ih => cases extractor <;> simp [ih, Source.attrs]

/-- The sources of the options are read in the order of the options. -/
theorem dynamic_newConfig (opts : List (Opt C L)) (ctx : C) :
    (newConfig opts).dynamic ctx = opts.flatMap (Opt.attrs ctx) := by
  have hfold : ∀ c : Config C L,
      (opts.foldl Opt.apply c).dynamic ctx = c.dynamic ctx ++ opts.flatMap (Opt.attrs ctx) := by
    induction opts with
    | nil => exact fun c => (List.append_nil _).symm
    | cons o opts ih =>
      intro c
      rw [List.foldl_cons, ih, dynamic_apply, List.flatMap_cons, List.append_assoc]
  exact hfold _

end Families

/-- In the default mode a derived handler emits what a plain one derived alike emits, and dynamic
attributes at the root. Later calls change nothing of that. -/
theorem enriched_matches_plain {C I L : Type} (base : Slog.Handler L) (opts : List (Opt C L))
    (hbase : base.path = []) (hmode : (newConfig opts).currentGroup = false)
    (calls : List (Call L)) (i : Nat) (h : Handler C L) (chain : List (Derivation L))
    (hh : ((newFamily base opts).calls calls).handlers[i]? = some (h, chain)) (ctx : C)
    (record : Record I L) :
    (∃ rest, (chain.foldl Slog.Handler.derive base).handle record =
        (record.info, base.bound ++ leavesAll [] (rootAttrs chain) ++ rest) ∧
      h.handle ((newFamily base opts).calls calls).memory ctx record =
        (record.info, base.bound ++ leavesAll [] (rootAttrs chain) ++
          (leavesAll [] (opts.flatMap (Opt.attrs ctx)) ++ rest))) ∧
    ∀ later, ((newFamily base opts).calls (calls ++ later)).handlers[i]? = some (h, chain) ∧
      h.handle ((newFamily base opts).calls (calls ++ later)).memory ctx record =
        h.handle ((newFamily base opts).calls calls).memory ctx record := by
  obtain ⟨hsound, -, -⟩ := calls_sound hmode calls newFamily_sound (f := newFamily base opts)
  obtain ⟨hconfig, hnext, hholds⟩ := hsound _ (List.mem_of_getElem? hh)
  simp only at hconfig hnext hholds
  constructor
  · have halike : Alike (chain.foldl Slog.Handler.derive base) h.next (deriveAll base [] chain).2 :=
      hnext ▸ Alike.deriveAll chain ⟨hbase, by simp, hbase, by simp [boundLeaves]⟩
    have hbound : h.next.bound = base.bound ++ leavesAll [] (rootAttrs chain) := by
      rw [hnext, deriveAll_bound chain hbase, if_pos rfl]
    obtain ⟨rest, hplain, hwrapped⟩ := handle_of_holds hholds halike ctx record
    exact ⟨rest, hbound ▸ hplain, by rw [hwrapped, hbound, hconfig, dynamic_newConfig]⟩
  · intro later
    have hlater : (newFamily base opts).calls (calls ++ later) =
        ((newFamily base opts).calls calls).calls later := List.foldl_append
    obtain ⟨-, hgrows, hkeeps⟩ := calls_sound hmode later hsound
    rw [hlater]
    refine ⟨?_, ?_⟩
    · obtain ⟨tail, htail⟩ := hkeeps
      rw [← htail, List.getElem?_append_left (List.getElem?_eq_some_iff.mp hh).1, hh]
    · simp only [Handler.handle, (hholds.mono hgrows).view_eq, hholds.view_eq]

def text (key value : String) : Attr String := (key, .any (some value))

/-- An attribute at the root, a group, and an attribute in it. -/
def bindings : List (Call String) :=
  [⟨0, .withAttrs [text "a" "1"], (0, 3)⟩, ⟨1, .withGroup "g", (2, 5)⟩,
    ⟨2, .withAttrs [text "b" "2"], (4, 4)⟩]

/-- A sibling that binds another attribute in the same group does not show. -/
theorem enriched_matches_plain_sibling :
    let opts : List (Opt String String) := [.withValue "id" (some fun id => .any (some id)),
      .withExtractors [none, some fun id => [text "copy" id]]]
    let family := newFamily ⟨[], []⟩ opts
    let record : Record Unit String := ⟨(), [text "r" "3"]⟩
    let emitted : List (Leaf String) :=
      [⟨[], "a", some "1"⟩, ⟨[], "id", some "7"⟩, ⟨[], "copy", some "7"⟩, ⟨["g"], "b", some "2"⟩,
        ⟨["g"], "r", some "3"⟩]
    ∃ h chain, (family.calls bindings).handlers[3]? = some (h, chain) ∧
      h.handle (family.calls bindings).memory "7" record = ((), emitted) ∧
      h.handle (family.calls (bindings ++ [⟨2, .withAttrs [text "c" "4"], (4, 4)⟩])).memory "7"
        record = ((), emitted) := by
  intro opts family record emitted
  refine ⟨_, _, rfl, by decide +kernel, ?_⟩
  obtain ⟨-, hlater⟩ := enriched_matches_plain ⟨[], []⟩ opts rfl rfl bindings 3 _ _ rfl "7" record
  rw [(hlater [⟨2, .withAttrs [text "c" "4"], (4, 4)⟩]).2]
  decide +kernel

end Fries.Enrich
