import Fries.Lib.Slice
import Fries.Log.Slog
import Mathlib.Data.List.Forall2

/-! The `slog` handler that adds attributes from the context. Its groups are slices. -/
namespace Fries.Enrich

open Fries.Slog

section Config

variable {C L : Type}

/-- A registered callback. -/
inductive Source (C L : Type)
  | value (key : String) (valuer : C → Value L)
  | extract (extractor : C → List (Attr L))

structure Config (C L : Type) where
  sources : List (Source C L)
  currentGroup : Bool

/-- Callbacks may be nil. -/
inductive Opt (C L : Type)
  | withValue (key : String) (value : Option (C → Value L))
  | withExtractors (extractors : List (Option (C → List (Attr L))))
  | withCurrentGroup

def Opt.apply (c : Config C L) : Opt C L → Config C L
  | .withValue _ none => c
  | .withValue key (some valuer) => { c with sources := c.sources ++ [.value key valuer] }
  | .withExtractors extractors =>
    { c with sources := c.sources ++ extractors.filterMap fun e => e.map .extract }
  | .withCurrentGroup => { c with currentGroup := true }

def newConfig (opts : List (Opt C L)) : Config C L := opts.foldl Opt.apply ⟨[], false⟩

/-- The attributes of a source, except that a value that is an empty group is left out. -/
def Source.attrs (ctx : C) : Source C L → List (Attr L)
  | .extract extractor => extractor ctx
  | .value key valuer => if (valuer ctx).isEmptyGroup then [] else [(key, valuer ctx)]

/-- The dynamic attributes of a log call. -/
def Config.dynamic (c : Config C L) (ctx : C) : List (Attr L) :=
  c.sources.flatMap (Source.attrs ctx)

end Config

section Model

structure Group where
  name : String
  attrs : Slice

structure Memory (L : Type) where
  groups : Slice.Memory Group
  attrs : Slice.Memory (Attr L)

structure Handler (C L : Type) where
  next : Slog.Handler L
  config : Config C L
  groups : Slice

variable {C I L : Type}

def newHandler (next : Slog.Handler L) (opts : List (Opt C L)) : Handler C L :=
  ⟨next, newConfig opts, ⟨none, 0⟩⟩

/-- The groups of a handler, as they are in memory. -/
def Handler.view (h : Handler C L) (m : Memory L) : List (String × List (Attr L)) :=
  (Slice.read m.groups h.groups).map fun g => (g.name, Slice.read m.attrs g.attrs)

/-- `groupAttr`. The loop goes backward, so what it has when it comes to a group is made from the
groups after it; `none` is the zero attribute, which is not a group. -/
def groupAttr (record : List (Attr L)) : List (String × List (Attr L)) → Option (Attr L)
  | [] => none
  | [(name, attrs)] =>
    if attrs.length + record.length = 0 then none
    else some (name, groupValue (attrs ++ record))
  | (name, attrs) :: groups =>
    match groupAttr record groups with
    | none => if attrs.length = 0 then none else some (name, groupValue attrs)
    | some child => some (name, groupValue (attrs ++ [child]))

/-- `Handle`: what the wrapped handler emits. -/
def Handler.handle (h : Handler C L) (m : Memory L) (ctx : C) (record : Record I L) :
    I × List (Leaf L) :=
  if h.config.sources.length = 0 ∧ h.groups.len = 0 then h.next.handle record
  else
    let attrs := h.config.dynamic ctx ++
      if h.groups.len = 0 then record.attrs else (groupAttr record.attrs (h.view m)).toList
    h.next.handle ((⟨record.info, []⟩ : Record I L).addAttrs attrs)

/-- `WithAttrs`; `spare` is the room that the runtime leaves in the arrays it makes. -/
def Handler.withAttrs (h : Handler C L) (attrs : List (Attr L)) (spare : Nat × Nat) (m : Memory L) :
    Handler C L × Memory L :=
  if attrs.length = 0 then (h, m)
  else if h.groups.len = 0 then ({ h with next := h.next.withAttrs attrs }, m)
  else
    let (groups, s) := Slice.clone m.groups h.groups spare.1
    match (Slice.read groups s)[s.len - 1]? with
    | none => (h, m)
    | some last =>
      let (attrs, concat) := Slice.alloc m.attrs (Slice.read m.attrs last.attrs ++ attrs) spare.2
      ({ h with groups := s },
        ⟨Slice.set groups s (s.len - 1) { last with attrs := concat }, attrs⟩)

/-- `WithGroup`. -/
def Handler.withGroup (h : Handler C L) (name : String) (spare : Nat × Nat) (m : Memory L) :
    Handler C L × Memory L :=
  if name = "" then (h, m)
  else if h.config.currentGroup then ({ h with next := h.next.withGroup name }, m)
  else
    let (groups, s) := Slice.clone m.groups h.groups spare.1
    let (groups, s) := Slice.append groups s ⟨name, ⟨none, 0⟩⟩ spare.2
    ({ h with groups := s }, { m with groups := groups })

def Handler.derive (h : Handler C L) (spare : Nat × Nat) (m : Memory L) :
    Derivation L → Handler C L × Memory L
  | .withAttrs attrs => h.withAttrs attrs spare m
  | .withGroup name => h.withGroup name spare m

end Model

section Memory

variable {C L : Type} {m m' : Memory L} {h : Handler C L} {groups : List (String × List (Attr L))}

/-- More arrays were made and the ones that were there are as they were. -/
structure Memory.Grows (m m' : Memory L) : Prop where
  groups : m.groups <+: m'.groups
  attrs : m.attrs <+: m'.attrs

theorem Memory.Grows.refl (m : Memory L) : m.Grows m := ⟨List.prefix_refl _, List.prefix_refl _⟩

theorem Memory.Grows.trans {m'' : Memory L} (h : m.Grows m') (h' : m'.Grows m'') : m.Grows m'' :=
  ⟨h.groups.trans h'.groups, h.attrs.trans h'.attrs⟩

/-- A group holds a name and attributes. -/
def Group.Holds (m : Slice.Memory (Attr L)) (g : Group) (p : String × List (Attr L)) : Prop :=
  g.name = p.1 ∧ Slice.Holds m g.attrs p.2

/-- A handler holds groups with their attributes. -/
def Handler.Holds (m : Memory L) (h : Handler C L) (groups : List (String × List (Attr L))) :
    Prop :=
  ∃ l, Slice.Holds m.groups h.groups l ∧ List.Forall₂ (Group.Holds m.attrs) l groups

theorem Handler.Holds.mono (hh : h.Holds m groups) (hm : m.Grows m') : h.Holds m' groups := by
  obtain ⟨l, hl, hgroups⟩ := hh
  exact ⟨l, hl.mono hm.groups, hgroups.imp fun _ _ hg => ⟨hg.1, hg.2.mono hm.attrs⟩⟩

theorem Handler.Holds.view_eq (hh : h.Holds m groups) : h.view m = groups := by
  obtain ⟨l, hl, hgroups⟩ := hh
  rw [Handler.view, hl.read_eq]
  clear hl
  induction hgroups with
  | nil => rfl
  | cons hg _ ih => rw [List.map_cons, ih, hg.1, hg.2.read_eq]

theorem Handler.Holds.len_eq (hh : h.Holds m groups) : h.groups.len = groups.length := by
  obtain ⟨l, hl, hgroups⟩ := hh
  rw [hl.len_eq, hgroups.length_eq]

theorem holds_concat {attrs : Slice.Memory (Attr L)} {l : List Group}
    {init : List (String × List (Attr L))} {p : String × List (Attr L)}
    (h : List.Forall₂ (Group.Holds attrs) l (init ++ [p])) :
    ∃ front last, l = front ++ [last] ∧ List.Forall₂ (Group.Holds attrs) front init ∧
      last.Holds attrs p := by
  have hfront := List.forall₂_take_append l init [p] h
  have hlast := List.forall₂_drop_append l init [p] h
  generalize hdrop : l.drop init.length = rest at hlast
  cases hlast with
  | cons hp hnil =>
    cases hnil
    refine ⟨_, _, ?_, hfront, hp⟩
    rw [← hdrop, List.take_append_drop]

/-- The wrapped handler and the groups of a derived handler, by those of the one it came from. -/
def deriveGroups (next : Slog.Handler L) (groups : List (String × List (Attr L))) :
    Derivation L → Slog.Handler L × List (String × List (Attr L))
  | .withAttrs attrs =>
    if attrs = [] then (next, groups)
    else
      match groups.getLast? with
      | none => (next.withAttrs attrs, groups)
      | some (name, bound) => (next, groups.dropLast ++ [(name, bound ++ attrs)])
  | .withGroup name => if name = "" then (next, groups) else (next, groups ++ [(name, [])])

/-- Deriving a handler makes new arrays and writes to none of the others. -/
structure Derived (h h' : Handler C L) (m m' : Memory L)
    (result : Slog.Handler L × List (String × List (Attr L))) : Prop where
  config : h'.config = h.config
  grows : m.Grows m'
  next : h'.next = result.1
  holds : h'.Holds m' result.2

theorem withAttrs_derived (hh : h.Holds m groups) (attrs : List (Attr L)) (spare : Nat × Nat) :
    Derived h (h.withAttrs attrs spare m).1 m (h.withAttrs attrs spare m).2
      (deriveGroups h.next groups (.withAttrs attrs)) := by
  have hlen := hh.len_eq
  unfold Handler.withAttrs deriveGroups
  by_cases hattrs : attrs = []
  · simp only [hattrs, List.length_nil, if_true]
    exact ⟨rfl, .refl m, rfl, hh⟩
  · have hpos : attrs.length ≠ 0 := fun hzero => hattrs (List.length_eq_zero_iff.mp hzero)
    simp only [if_neg hattrs, if_neg hpos]
    rcases List.eq_nil_or_concat groups with rfl | ⟨init, ⟨name, bound⟩, hconcat⟩
    · have hzero : h.groups.len = 0 := hlen
      simp only [if_pos hzero]
      exact ⟨rfl, .refl m, rfl, hh⟩
    · rw [List.concat_eq_append] at hconcat
      subst hconcat
      obtain ⟨l, hl, hgroups⟩ := hh
      obtain ⟨front, last, rfl, hfront, hlast⟩ := holds_concat hgroups
      have hne : h.groups.len ≠ 0 := by
        rw [hlen]
        simp
      have hclone : Slice.Holds (Slice.clone m.groups h.groups spare.1).1
          (Slice.clone m.groups h.groups spare.1).2 (front ++ [last]) := Slice.holds_clone hl
      have hindex : (Slice.clone m.groups h.groups spare.1).2.len - 1 = front.length := by
        rw [hclone.len_eq]
        simp
      have hread : (Slice.read (Slice.clone m.groups h.groups spare.1).1
          (Slice.clone m.groups h.groups spare.1).2)[front.length]? = some last := by
        rw [hclone.read_eq]
        simp
      have hset := Slice.holds_set (i := front.length)
        (x := ⟨last.name, (Slice.alloc m.attrs (bound ++ attrs) spare.2).2⟩) hclone (by simp)
      simp only [if_neg hne, hindex, hread, hlast.2.read_eq, List.getLast?_concat]
      refine ⟨rfl, ⟨?_, Slice.alloc_grows ..⟩, rfl, _, hset, ?_⟩
      · exact Slice.set_grows (Slice.clone_grows ..) (Slice.clone_since _ _ _)
      · rw [List.dropLast_concat, List.set_append_right _ _ (Nat.le_refl _), Nat.sub_self]
        refine List.rel_append ?_ (.cons ⟨hlast.1, Slice.holds_alloc ..⟩ .nil)
        exact hfront.imp fun _ _ hg => ⟨hg.1, hg.2.mono (Slice.alloc_grows ..)⟩

theorem withGroup_derived (hh : h.Holds m groups) (hmode : h.config.currentGroup = false)
    (name : String) (spare : Nat × Nat) :
    Derived h (h.withGroup name spare m).1 m (h.withGroup name spare m).2
      (deriveGroups h.next groups (.withGroup name)) := by
  unfold Handler.withGroup deriveGroups
  by_cases hname : name = ""
  · simp only [if_pos hname]
    exact ⟨rfl, .refl m, rfl, hh⟩
  · simp only [if_neg hname, hmode, Bool.false_eq_true, if_false]
    obtain ⟨l, hl, hgroups⟩ := hh
    have hclone : Slice.Holds (Slice.clone m.groups h.groups spare.1).1
        (Slice.clone m.groups h.groups spare.1).2 l := Slice.holds_clone hl
    refine ⟨rfl, ⟨?_, List.prefix_refl _⟩, rfl, _, Slice.holds_append hclone, ?_⟩
    · exact Slice.append_grows (Slice.clone_grows ..) (Slice.clone_since _ _ _)
    · exact List.rel_append hgroups (.cons ⟨rfl, Slice.holds_nil _⟩ .nil)

theorem derive_derived (hh : h.Holds m groups) (hmode : h.config.currentGroup = false)
    (spare : Nat × Nat) (d : Derivation L) :
    Derived h (h.derive spare m d).1 m (h.derive spare m d).2 (deriveGroups h.next groups d) := by
  cases d with
  | withAttrs attrs => exact withAttrs_derived hh attrs spare
  | withGroup name => exact withGroup_derived hh hmode name spare

end Memory

end Fries.Enrich
