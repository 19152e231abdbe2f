import Mathlib.Data.List.Infix

/-! Slices of Go that begin at the start of their array, which several of them may share. -/
namespace Fries

/-- A slice without an array is nil. -/
structure Slice where
  array : Option Nat
  len : Nat
  deriving DecidableEq, Repr

namespace Slice

structure Block (α : Type) where
  cells : List α
  cap : Nat

/-- The arrays that were made, in order. -/
abbrev Memory (α : Type) := List (Block α)

variable {α : Type}

def read (m : Memory α) (s : Slice) : List α :=
  match s.array with
  | none => []
  | some a => ((m[a]?.map Block.cells).getD []).take s.len

/-- A new array with some cells, and with room for more. -/
def alloc (m : Memory α) (cells : List α) (spare : Nat) : Memory α × Slice :=
  (m ++ [⟨cells, cells.length + spare⟩], ⟨some m.length, cells.length⟩)

/-- `slices.Clone`. -/
def clone (m : Memory α) (s : Slice) (spare : Nat) : Memory α × Slice :=
  if s.len = 0 then (m, ⟨none, 0⟩) else alloc m (read m s) spare

/-- The cells of an array are written. -/
def update (m : Memory α) (a : Nat) (f : List α → List α) : Memory α :=
  m.modify a fun b => { b with cells := f b.cells }

def set (m : Memory α) (s : Slice) (i : Nat) (x : α) : Memory α :=
  match s.array with
  | none => m
  | some a => update m a fun cells => cells.set i x

/-- `append(s, x)`, which writes into the array if there is room. -/
def append (m : Memory α) (s : Slice) (x : α) (spare : Nat) : Memory α × Slice :=
  match s.array with
  | none => alloc m [x] spare
  | some a =>
    if s.len < (m[a]?.map Block.cap).getD 0 then
      (update m a fun cells => cells.take s.len ++ x :: cells.drop (s.len + 1),
        ⟨some a, s.len + 1⟩)
    else alloc m (read m s ++ [x]) spare

/-- `slices.Delete(s, i, i+1)`, which moves what follows and clears the cell that is left over. -/
def deleteAt (zero : α) (m : Memory α) (s : Slice) (i : Nat) : Memory α × Slice :=
  match s.array with
  | none => (m, s)
  | some a =>
    (update m a fun cells => (cells.take s.len).eraseIdx i ++ zero :: cells.drop s.len,
      ⟨some a, s.len - 1⟩)

/-- A slice holds a list. -/
def Holds (m : Memory α) (s : Slice) (l : List α) : Prop :=
  match s.array with
  | none => s.len = 0 ∧ l = []
  | some a => ∃ b, m[a]? = some b ∧ s.len = l.length ∧ l <+: b.cells ∧ b.cells.length ≤ b.cap

/-- The slice is nil, or its array is not one of the first `n`. -/
def Since (n : Nat) (s : Slice) : Prop := ∀ a ∈ s.array, n ≤ a

/-- Two slices have different arrays, or have none. -/
def Apart (s t : Slice) : Prop := ∀ a ∈ s.array, a ∉ t.array

variable {m m' m₀ : Memory α} {s t : Slice} {l k : List α} {x zero : α} {i spare a : Nat}

theorem holds_nil (m : Memory α) : Holds m ⟨none, 0⟩ [] := ⟨rfl, rfl⟩

theorem Holds.len_eq (h : Holds m s l) : s.len = l.length := by
  unfold Holds at h
  split at h
  · rw [h.1, h.2]
    rfl
  · exact h.choose_spec.2.1

theorem Holds.read_eq (h : Holds m s l) : read m s = l := by
  obtain ⟨array, len⟩ := s
  cases array with
  | none => exact h.2.symm
  | some a =>
    obtain ⟨b, hb, hlen, ⟨tail, htail⟩, -⟩ := h
    simp only at hlen
    simp only [read, hb, Option.map_some, Option.getD_some, hlen, ← htail, List.take_left]

theorem Holds.array_lt (h : Holds m s l) (ha : a ∈ s.array) : a < m.length := by
  obtain ⟨array, len⟩ := s
  cases ha
  obtain ⟨b, hb, -⟩ := h
  exact (List.getElem?_eq_some_iff.mp hb).1

/-- A slice without elements may as well be nil. -/
theorem Holds.trim (h : Holds m s l) : Holds m (if s.len = 0 then ⟨none, 0⟩ else s) l := by
  split_ifs with hlen
  · obtain rfl : l = [] := List.length_eq_zero_iff.mp (h.len_eq.symm.trans hlen)
    exact holds_nil m
  · exact h

/-- What is in an array stays when more arrays are made. -/
theorem Holds.mono (h : Holds m s l) (hm : m <+: m') : Holds m' s l := by
  obtain ⟨array, len⟩ := s
  cases array with
  | none => exact h
  | some a =>
    obtain ⟨b, hb, hrest⟩ := h
    obtain ⟨tail, rfl⟩ := hm
    exact ⟨b, by rw [List.getElem?_append_left (List.getElem?_eq_some_iff.mp hb).1, hb], hrest⟩

theorem alloc_grows (m : Memory α) (cells : List α) (spare : Nat) : m <+: (alloc m cells spare).1 :=
  List.prefix_append ..

theorem holds_alloc (m : Memory α) (cells : List α) (spare : Nat) :
    Holds (alloc m cells spare).1 (alloc m cells spare).2 cells :=
  ⟨⟨cells, cells.length + spare⟩, by simp [alloc], rfl, List.prefix_refl _, Nat.le_add_right ..⟩

theorem clone_grows (m : Memory α) (s : Slice) (spare : Nat) : m <+: (clone m s spare).1 := by
  unfold clone
  split_ifs
  · exact List.prefix_refl m
  · exact alloc_grows ..

theorem holds_clone (h : Holds m s l) : Holds (clone m s spare).1 (clone m s spare).2 l := by
  unfold clone
  split_ifs with hlen
  · obtain rfl : l = [] := List.length_eq_zero_iff.mp (h.len_eq.symm.trans hlen)
    exact holds_nil m
  · rw [h.read_eq]
    exact holds_alloc ..

theorem clone_since (m : Memory α) (s : Slice) (spare : Nat) :
    Since m.length (clone m s spare).2 := by
  unfold clone
  split_ifs
  · exact fun a ha => nomatch ha
  · intro a ha
    exact (Option.some.inj ha).le

section Updates

variable {f : List α → List α}

theorem update_grows (hm : m₀ <+: m) (ha : m₀.length ≤ a) : m₀ <+: update m a f := by
  rw [List.prefix_iff_getElem?] at hm ⊢
  intro i hi
  rw [update, List.getElem?_modify_ne _ _ (by omega), hm i hi]

/-- Writing to one array leaves the slices of others alone. -/
theorem Holds.update (h : Holds m s l) (ha : a ∉ s.array) : Holds (update m a f) s l := by
  obtain ⟨array, len⟩ := s
  cases array with
  | none => exact h
  | some a' =>
    obtain ⟨b, hb, hrest⟩ := h
    have hne : a ≠ a' := fun heq => ha (heq ▸ rfl)
    exact ⟨b, by rw [Slice.update, List.getElem?_modify_ne _ _ hne, hb], hrest⟩

theorem update_getElem? {b : Block α} (hb : m[a]? = some b) :
    (update m a f)[a]? = some { b with cells := f b.cells } := by
  rw [update, List.getElem?_modify_eq, hb]
  rfl

end Updates

theorem set_grows (hm : m₀ <+: m) (hs : Since m₀.length s) : m₀ <+: set m s i x := by
  unfold set
  split
  · exact hm
  · exact update_grows hm (hs _ ‹_›)

theorem holds_set (h : Holds m s l) (hi : i < l.length) : Holds (set m s i x) s (l.set i x) := by
  obtain ⟨array, len⟩ := s
  cases array with
  | none =>
    obtain ⟨hlen, rfl⟩ := h
    exact absurd hi (Nat.not_lt_zero i)
  | some a =>
    obtain ⟨b, hb, hlen, ⟨tail, htail⟩, hcap⟩ := h
    have hb' : (update m a fun cells => cells.set i x)[a]? =
        some { b with cells := b.cells.set i x } := update_getElem? hb
    refine ⟨_, hb', by rw [List.length_set, hlen], ⟨tail, ?_⟩, by simpa using hcap⟩
    rw [← htail, List.set_append_left _ _ hi]

theorem append_grows (hm : m₀ <+: m) (hs : Since m₀.length s) :
    m₀ <+: (append m s x spare).1 := by
  unfold append
  split
  · exact hm.trans (alloc_grows ..)
  · rename_i a ha
    split_ifs
    · simp only
      exact update_grows hm (hs a ha)
    · exact hm.trans (alloc_grows ..)

theorem holds_append (h : Holds m s l) :
    Holds (append m s x spare).1 (append m s x spare).2 (l ++ [x]) := by
  have hread := h.read_eq
  obtain ⟨array, len⟩ := s
  cases array with
  | none =>
    obtain ⟨-, rfl⟩ := h
    exact holds_alloc ..
  | some a =>
    obtain ⟨b, hb, hlen, ⟨tail, htail⟩, hcap⟩ := h
    simp only [append, hb, Option.map_some, Option.getD_some]
    simp only at hlen
    split_ifs with hroom
    · have hb' : (update m a fun cells => cells.take len ++ x :: cells.drop (len + 1))[a]? =
          some { b with cells := b.cells.take len ++ x :: b.cells.drop (len + 1) } :=
        update_getElem? hb
      refine ⟨_, hb', by simp [hlen], ?_, ?_⟩
      · simp [← htail, hlen]
      · have hcells : b.cells.length = l.length + tail.length := by rw [← htail, List.length_append]
        simp only [List.length_append, List.length_take, List.length_cons, List.length_drop]
        omega
    · rw [hread]
      exact holds_alloc ..

/-- An append does not change what slices of other arrays hold. -/
theorem Holds.append (h : Holds m t k) (hs : Apart s t) : Holds (append m s x spare).1 t k := by
  unfold Slice.append
  split
  · exact h.mono (alloc_grows ..)
  · rename_i a ha
    split_ifs
    · simp only
      exact h.update (hs a ha)
    · exact h.mono (alloc_grows ..)

theorem append_array : (append m s x spare).2.array = s.array ∨
    (append m s x spare).2.array = some m.length := by
  unfold append
  split
  · exact .inr rfl
  · rename_i a ha
    split_ifs
    · exact .inl ha.symm
    · exact .inr rfl

/-- What is appended to goes to its own array or to a new one. -/
theorem Apart.append (hs : Apart s t) (h : Holds m t k) : Apart (append m s x spare).2 t := by
  intro a ha hat
  rcases append_array (m := m) (s := s) (x := x) with hsame | hnew
  · exact hs a (hsame ▸ ha) hat
  · rw [hnew] at ha
    cases ha
    exact absurd (h.array_lt hat) (Nat.lt_irrefl _)

/-- Without one of its elements, what a slice holds fits into its array. -/
theorem Holds.erase {f : List α → List α} {len : Nat} (h : Holds m ⟨some a, len⟩ l)
    (hi : i < l.length) (hf : ∀ tail, ∃ last, f (l ++ tail) = l.eraseIdx i ++ last :: tail) :
    Holds (Slice.update m a f) ⟨some a, len - 1⟩ (l.eraseIdx i) := by
  obtain ⟨b, hb, hlen, ⟨tail, htail⟩, hcap⟩ := h
  obtain ⟨last, hlast⟩ := hf tail
  rw [htail] at hlast
  have hcells : b.cells.length = l.length + tail.length := by rw [← htail, List.length_append]
  refine ⟨_, update_getElem? hb, ?_, ?_, ?_⟩
  · rw [List.length_eraseIdx_of_lt hi]
    exact congrArg (· - 1) hlen
  · rw [hlast]
    exact List.prefix_append ..
  · simp only [hlast, List.length_append, List.length_eraseIdx_of_lt hi, List.length_cons]
    omega

theorem holds_deleteAt (h : Holds m s l) (hi : i < l.length) :
    Holds (deleteAt zero m s i).1 (deleteAt zero m s i).2 (l.eraseIdx i) := by
  have hlen := h.len_eq
  obtain ⟨array, len⟩ := s
  cases array with
  | none =>
    obtain ⟨-, rfl⟩ := h
    exact absurd hi (Nat.not_lt_zero i)
  | some a =>
    simp only [deleteAt]
    refine h.erase hi fun tail => ⟨zero, ?_⟩
    simp only at hlen
    rw [hlen, List.take_left, List.drop_left]

/-- A deletion does not change what slices of other arrays hold. -/
theorem Holds.deleteAt (h : Holds m t k) (hs : Apart s t) : Holds (deleteAt zero m s i).1 t k := by
  unfold Slice.deleteAt
  split
  · exact h
  · rename_i a ha
    simp only
    exact h.update (hs a ha)

theorem deleteAt_array : (deleteAt zero m s i).2.array = s.array := by
  unfold deleteAt
  split
  · rfl
  · exact Eq.symm ‹_›

end Slice

end Fries
