import Fries.Event.Registry
import Mathlib.Data.List.Nodup

/-! What subscribing and unsubscribing do to the lists, each in an array of its own. -/
namespace Fries.Event.Registry

variable {T H : Type} {w w' : World T H} {held : T → List Nat}
  {s : Slice} {taken : List Nat} {t : T}

/-- The lists of the event types hold these entries, each in an array of its own. -/
structure Listed (w : World T H) (held : T → List Nat) : Prop where
  holds : ∀ t, Slice.Holds w.memory (w.slice t) ((held t).map some)
  apart : ∀ t u, t ≠ u → Slice.Apart (w.slice t) (w.slice u)

/-- A slice that shares its array with no list, and what it holds. -/
structure Copied (w : World T H) (s : Slice) (taken : List Nat) : Prop where
  holds : Slice.Holds w.memory s (taken.map some)
  apart : ∀ t, Slice.Apart (w.slice t) s

/-- Only the list of one event type is written to. -/
structure Replaces (w w' : World T H) (t : T) : Prop where
  slices : ∀ u, u ≠ t → w'.slice u = w.slice u
  others : ∀ s l, Slice.Holds w.memory s l → Slice.Apart (w.slice t) s →
    Slice.Holds w'.memory s l ∧ Slice.Apart (w'.slice t) s

theorem Listed.congr {held' : T → List Nat} (h : Listed w held) (heq : ∀ t, held t = held' t) :
    Listed w held' :=
  funext heq ▸ h

theorem listed_eq (h : Listed w held) (t : T) : w.listed t = (held t).map some :=
  (h.holds t).read_eq

/-- More arrays change nothing. -/
theorem Listed.grows (h : Listed w held) (hmemory : w.memory <+: w'.memory)
    (hlisteners : w'.listeners = w.listeners) : Listed w' held := by
  constructor
  · intro t
    simp only [World.slice, hlisteners]
    exact (h.holds t).mono hmemory
  · intro t u
    simp only [World.slice, hlisteners]
    exact h.apart t u

theorem Copied.grows (h : Copied w s taken) (hmemory : w.memory <+: w'.memory)
    (hlisteners : w'.listeners = w.listeners) : Copied w' s taken := by
  refine ⟨h.holds.mono hmemory, fun t => ?_⟩
  simp only [World.slice, hlisteners]
  exact h.apart t

/-- The registrations of the entries that get the numbers from `n` on. -/
def registrationsOf : List (Definition T H) → Nat → List (Registration T)
  | [], _ => []
  | entry :: entries, n => ⟨entry.typeOf, n⟩ :: registrationsOf entries (n + 1)

theorem map_registrationsOf (entries : List (Definition T H)) (n : Nat) :
    (registrationsOf entries n).map Registration.entry = List.range' n entries.length := by
  induction entries generalizing n with
  | nil => rfl
  | cons entry entries ih =>
    simp only [registrationsOf, List.map_cons, ih, List.length_cons, List.range'_succ]

variable [DecidableEq T]

theorem Listed.replaces {l : List Nat} (h : Listed w held) (hr : Replaces w w' t)
    (hown : Slice.Holds w'.memory (w'.slice t) (l.map some)) :
    Listed w' (Function.update held t l) := by
  have hother : ∀ u, u ≠ t → Slice.Holds w'.memory (w'.slice u) ((held u).map some) ∧
      Slice.Apart (w'.slice t) (w'.slice u) := by
    intro u hu
    rw [hr.slices u hu]
    exact hr.others _ _ (h.holds u) (h.apart t u hu.symm)
  constructor
  · intro u
    by_cases hu : u = t
    · subst hu
      rw [Function.update_self]
      exact hown
    · rw [Function.update_of_ne hu]
      exact (hother u hu).1
  · intro u v huv
    by_cases hu : u = t
    · subst hu
      exact (hother v huv.symm).2
    · by_cases hv : v = t
      · subst hv
        exact fun a ha hau => (hother u hu).2 a hau ha
      · rw [hr.slices u hu, hr.slices v hv]
        exact h.apart u v huv

theorem Copied.replaces (h : Copied w s taken) (hr : Replaces w w' t) : Copied w' s taken := by
  obtain ⟨hholds, hapart⟩ := hr.others _ _ h.holds (h.apart t)
  refine ⟨hholds, fun u => ?_⟩
  by_cases hu : u = t
  · subst hu
    exact hapart
  · rw [hr.slices u hu]
    exact h.apart u

section Lists

variable {entry : Definition T H} {entries : List (Definition T H)} {spare : Nat}
  {spares : Nat → Nat} {r : Registration T} {registrations : List (Registration T)}
  {removed : Bool}

theorem replaces_add : Replaces w (w.add entry spare) entry.typeOf := by
  refine ⟨?_, ?_⟩
  · intro u hu
    simp only [World.slice, World.add, Function.update_of_ne hu]
  · intro s l hholds hapart
    simp only [World.slice, World.add, Function.update_self]
    exact ⟨hholds.append hapart, hapart.append hholds⟩

theorem listed_add (h : Listed w held) : Listed (w.add entry spare)
    (Function.update held entry.typeOf (held entry.typeOf ++ [w.entries.length])) := by
  refine h.replaces replaces_add ?_
  simp only [World.slice, World.add, Function.update_self, List.map_append]
  exact Slice.holds_append (h.holds entry.typeOf)

theorem entriesOf_cons (r : Registration T) (registrations : List (Registration T)) (t : T) :
    entriesOf (r :: registrations) t =
      if r.typeOf = t then r.entry :: entriesOf registrations t else entriesOf registrations t := by
  simp only [entriesOf, List.filter_cons, decide_eq_true_eq]
  split <;> rfl

theorem addAll_registrations :
    (World.addAll spares entries w registrations).2 =
      registrations ++ registrationsOf entries w.entries.length := by
  induction entries generalizing w registrations with
  | nil => exact (List.append_nil registrations).symm
  | cons entry entries ih => simp [World.addAll, ih, registrationsOf, World.add]

theorem addAll_same :
    (World.addAll spares entries w registrations).1.entries = w.entries ++ entries ∧
    (World.addAll spares entries w registrations).1.subscriptions = w.subscriptions := by
  induction entries generalizing w registrations with
  | nil => exact ⟨(List.append_nil _).symm, rfl⟩
  | cons entry entries ih =>
    rw [World.addAll]
    refine ⟨ih.1.trans ?_, ih.2⟩
    simp only [World.add, List.append_assoc, List.singleton_append]

theorem listed_addAll (h : Listed w held) :
    Listed (World.addAll spares entries w registrations).1
      fun t => held t ++ entriesOf (registrationsOf entries w.entries.length) t := by
  induction entries generalizing w held registrations with
  | nil =>
    simp only [World.addAll, registrationsOf, entriesOf, List.filter_nil, List.map_nil,
      List.append_nil]
    exact h
  | cons entry entries ih =>
    rw [World.addAll]
    refine (ih (listed_add h)).congr fun t => ?_
    simp only [registrationsOf, entriesOf_cons, World.add, List.length_append,
      List.length_singleton]
    by_cases ht : t = entry.typeOf
    · subst ht
      simp
    · rw [Function.update_of_ne ht, if_neg (Ne.symm ht)]

theorem Copied.addAll (h : Copied w s taken) :
    Copied (World.addAll spares entries w registrations).1 s taken := by
  induction entries generalizing w registrations with
  | nil => exact h
  | cons entry entries ih => exact ih (h.replaces replaces_add)

theorem slice_remove (u : T) : (w.remove r).1.slice u =
    if u = r.typeOf then
      let left := if some r.entry ∈ w.listed r.typeOf then
          Slice.deleteAt none w.memory (w.slice r.typeOf)
            ((w.listed r.typeOf).idxOf (some r.entry))
        else (w.memory, w.slice r.typeOf)
      if left.2.len = 0 then ⟨none, 0⟩ else left.2
    else w.slice u := by
  by_cases hu : u = r.typeOf
  · subst hu
    simp only [World.slice, World.remove, Function.update_self, decide_eq_true_eq, if_true]
    split_ifs <;> rfl
  · simp only [World.slice, World.remove, Function.update_of_ne hu, if_neg hu]

theorem trim_apart {s' : Slice} (h : Slice.Apart s s') :
    Slice.Apart (if s.len = 0 then ⟨none, 0⟩ else s) s' := by
  split_ifs
  · exact nofun
  · exact h

theorem replaces_remove : Replaces w (w.remove r).1 r.typeOf := by
  refine ⟨fun u hu => by rw [slice_remove, if_neg hu], ?_⟩
  intro s l hholds hapart
  rw [slice_remove, if_pos rfl]
  simp only [World.remove, decide_eq_true_eq]
  by_cases hfound : some r.entry ∈ w.listed r.typeOf
  · simp only [if_pos hfound]
    refine ⟨hholds.deleteAt hapart, trim_apart ?_⟩
    intro a ha
    exact hapart a (Slice.deleteAt_array ▸ ha)
  · simp only [if_neg hfound]
    exact ⟨hholds, trim_apart hapart⟩

theorem listed_remove (h : Listed w held) : Listed (w.remove r).1
    (Function.update held r.typeOf ((held r.typeOf).erase r.entry)) := by
  refine h.replaces replaces_remove ?_
  have hown := h.holds r.typeOf
  rw [slice_remove, if_pos rfl]
  simp only [World.remove, decide_eq_true_eq, listed_eq h]
  by_cases hfound : some r.entry ∈ (held r.typeOf).map some
  · simp only [if_pos hfound]
    refine Slice.Holds.trim ?_
    rw [List.map_erase fun _ _ => Option.some.inj, ← List.eraseIdx_idxOf_eq_erase]
    exact Slice.holds_deleteAt hown (List.idxOf_lt_length_of_mem hfound)
  · simp only [if_neg hfound]
    have hnot : r.entry ∉ held r.typeOf := by simpa using hfound
    rw [List.erase_of_not_mem hnot]
    exact hown.trim

theorem listed_removeAll (h : Listed w held) :
    Listed (World.removeAll registrations w removed).1
      fun t => (held t).diff (entriesOf registrations t) := by
  induction registrations generalizing w held removed with
  | nil => exact h
  | cons r registrations ih =>
    rw [World.removeAll]
    refine (ih (listed_remove h)).congr fun t => ?_
    rw [entriesOf_cons]
    by_cases ht : t = r.typeOf
    · subst ht
      rw [if_pos rfl, List.diff_cons, Function.update_self]
    · rw [if_neg (Ne.symm ht), Function.update_of_ne ht]

theorem removeAll_of_removed : (World.removeAll registrations w true).2 = true := by
  induction registrations generalizing w with
  | nil => rfl
  | cons r registrations ih => simpa [World.removeAll] using ih

theorem removeAll_found (h : Listed w held) (hr : r.entry ∈ held r.typeOf) :
    (World.removeAll (r :: registrations) w false).2 = true := by
  have hfound : (w.remove r).2 = true := by simpa [World.remove, listed_eq h] using hr
  rw [World.removeAll, hfound]
  exact removeAll_of_removed

theorem removeAll_same : (World.removeAll registrations w removed).1.entries = w.entries ∧
    (World.removeAll registrations w removed).1.subscriptions = w.subscriptions := by
  induction registrations generalizing w removed with
  | nil => exact ⟨rfl, rfl⟩
  | cons r registrations ih => exact ih (w := (w.remove r).1)

theorem Copied.removeAll (h : Copied w s taken) :
    Copied (World.removeAll registrations w removed).1 s taken := by
  induction registrations generalizing w removed with
  | nil => exact h
  | cons r registrations ih => exact ih (h.replaces replaces_remove)

end Lists

end Fries.Event.Registry
