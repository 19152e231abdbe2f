import Mathlib.Data.List.Nodup
import Mathlib.Data.List.Perm.Subperm

/-! Things taken and ended by threads, each once, and held by one busy thread in between. -/
namespace Fries

structure Custody (α : Type) where
  taken : List α
  ended : List α

namespace Custody

variable {α : Type} {c : Custody α} {s t : α}

def take (c : Custody α) (t : α) : Custody α := { c with taken := c.taken ++ [t] }

def finish (c : Custody α) (t : α) : Custody α := { c with ended := c.ended ++ [t] }

/-- Nothing is taken twice, and what has ended was taken. -/
structure Wf (c : Custody α) : Prop where
  distinct : c.taken.Nodup
  ended : c.ended.Subperm c.taken

theorem make_wf : (⟨[], []⟩ : Custody α).Wf := ⟨List.nodup_nil, List.Subperm.refl _⟩

theorem ended_nodup (hc : c.Wf) : c.ended.Nodup := by
  obtain ⟨l, hperm, hsub⟩ := hc.ended
  exact hperm.nodup_iff.mp (hc.distinct.sublist hsub)

theorem take_wf (hc : c.Wf) (ht : t ∉ c.taken) : (c.take t).Wf := by
  refine ⟨?_, hc.ended.trans (List.sublist_append_left _ _).subperm⟩
  exact List.nodup_append.mpr ⟨hc.distinct, List.nodup_singleton t,
    fun a ha b hb heq => ht (List.mem_singleton.mp hb ▸ heq ▸ ha)⟩

/-- How many threads hold something. -/
def busy (c : Custody α) : Nat := c.taken.length - c.ended.length

/-- When nobody is busy, everything that was taken has ended. -/
theorem perm_of_idle (hc : c.Wf) (hidle : c.busy = 0) : c.ended.Perm c.taken := by
  refine hc.ended.perm_of_length_le ?_
  unfold busy at hidle
  omega

variable [DecidableEq α]

/-- How many threads hold the thing. -/
def held (c : Custody α) (t : α) : Nat := c.taken.count t - c.ended.count t

theorem balance (hc : c.Wf) (t : α) : c.ended.count t ≤ c.taken.count t :=
  hc.ended.count_le t

theorem of_held (hc : c.Wf) (ht : 0 < c.held t) :
    t ∈ c.taken ∧ t ∉ c.ended ∧ c.held t = 1 := by
  have hone := List.nodup_iff_count_le_one.mp hc.distinct t
  unfold held at ht ⊢
  refine ⟨List.count_pos_iff.mp (by omega), ?_, by omega⟩
  exact fun hmem => absurd (List.count_pos_iff.mpr hmem) (by omega)

theorem finish_wf (hc : c.Wf) (ht : 0 < c.held t) : (c.finish t).Wf := by
  refine ⟨hc.distinct, ?_⟩
  rw [List.subperm_ext_iff]
  intro s _
  have hbalance := balance hc s
  show (c.ended ++ [t]).count s ≤ c.taken.count s
  rw [List.count_append, List.count_singleton]
  split
  · rename_i heq
    obtain rfl : t = s := by simpa using heq
    unfold held at ht
    omega
  · omega

/-- What threads are counted in: those that hold anything, and those that hold one thing. -/
inductive Role (α : Type)
  | busy
  | holder (t : α)

/-- How a thread counts, by what it holds. -/
def weight : Role α → Option α → Nat
  | .busy, token => if token.isSome then 1 else 0
  | .holder t, token => if token = some t then 1 else 0

def count (c : Custody α) : Role α → Nat
  | .busy => c.busy
  | .holder t => c.held t

@[simp] theorem weight_none (k : Role α) : weight k none = 0 := by cases k <;> rfl

@[simp] theorem weight_holder (t : α) : weight (.holder t) (some t) = 1 := by simp [weight]

theorem held_of_weight {token : Option α} {n : Nat} (htoken : token = some t)
    (h : weight (.holder t) token ≤ n) : 0 < n := by
  rw [htoken, weight_holder] at h
  exact h

/-- No two threads hold the same thing. -/
theorem holder_unique (hc : c.Wf)
    (h : weight (.holder t) (some t) + weight (.holder t) (some t) ≤ c.count (.holder t)) :
    False := by
  have hone := List.nodup_iff_count_le_one.mp hc.distinct t
  rw [weight_holder, count, held] at h
  omega

theorem count_take (hc : c.Wf) (k : Role α) :
    (c.take t).count k = c.count k + weight k (some t) := by
  cases k with
  | busy =>
    have hlength := hc.ended.length_le
    show (c.taken ++ [t]).length - c.ended.length = c.taken.length - c.ended.length + 1
    rw [List.length_append, List.length_singleton]
    omega
  | holder s =>
    have hbalance := balance hc s
    show (c.taken ++ [t]).count s - c.ended.count s =
      c.taken.count s - c.ended.count s + if some t = some s then 1 else 0
    rw [List.count_append, List.count_singleton]
    by_cases hts : t = s
    · simp only [hts, beq_self_eq_true, if_true]
      omega
    · simp [hts]

theorem count_finish (hc : c.Wf) (ht : 0 < c.held t) (k : Role α) :
    (c.finish t).count k + weight k (some t) = c.count k := by
  cases k with
  | busy =>
    have hlength := (finish_wf hc ht).ended.length_le
    show c.taken.length - (c.ended ++ [t]).length + 1 = c.taken.length - c.ended.length
    simp only [finish, List.length_append, List.length_singleton] at hlength ⊢
    omega
  | holder s =>
    show c.taken.count s - (c.ended ++ [t]).count s + (if some t = some s then 1 else 0) =
      c.taken.count s - c.ended.count s
    rw [List.count_append, List.count_singleton]
    by_cases hts : t = s
    · subst hts
      unfold held at ht
      simp only [beq_self_eq_true, if_true]
      omega
    · simp [hts]

/-! ### Numbered things

What is taken is the next number, and it ends with an entry that says how. -/

variable {β : Type} {next k : Nat} {a : β} {ends : List (Nat × β)}

def numbered (next : Nat) (ends : List (Nat × β)) : Custody Nat :=
  ⟨List.range next, ends.map Prod.fst⟩

theorem numbered_take : numbered (next + 1) ends = (numbered next ends).take next := by
  simp [numbered, take, List.range_succ]

theorem numbered_finish (k : Nat) (a : β) :
    numbered next (ends ++ [(k, a)]) = (numbered next ends).finish k := by
  simp [numbered, finish]

theorem numbered_take_wf (hc : (numbered next ends).Wf) : (numbered (next + 1) ends).Wf := by
  rw [numbered_take]
  exact take_wf hc (by simp [numbered])

theorem numbered_finish_wf (hc : (numbered next ends).Wf) (ht : 0 < (numbered next ends).held k)
    (a : β) : (numbered next (ends ++ [(k, a)])).Wf := by
  rw [numbered_finish]
  exact finish_wf hc ht

/-- The thread that takes the next number holds it. -/
theorem numbered_count_take (hc : (numbered next ends).Wf) (role : Role Nat) :
    (numbered (next + 1) ends).count role + weight role none =
      (numbered next ends).count role + weight role (some next) := by
  rw [numbered_take, weight_none]
  exact count_take hc role

/-- The thread that ends a number holds none. -/
theorem numbered_count_finish (hc : (numbered next ends).Wf)
    (ht : 0 < (numbered next ends).held k) (a : β) (role : Role Nat) :
    (numbered next (ends ++ [(k, a)])).count role + weight role (some k) =
      (numbered next ends).count role + weight role none := by
  rw [numbered_finish, weight_none]
  exact count_finish hc ht role

theorem numbered_busy : (numbered next ends).busy = next - ends.length := by
  simp [numbered, busy]

theorem numbered_length (hc : (numbered next ends).Wf) : ends.length ≤ next := by
  have hlength := hc.ended.length_le
  simpa [numbered] using hlength

section

variable (hc : (numbered next ends).Wf) (ht : 0 < (numbered next ends).held k)

include hc ht

theorem length_lt_of_held (a : β) : ends.length < next := by
  have hlength := numbered_length (numbered_finish_wf hc ht a)
  rw [List.length_append, List.length_singleton] at hlength
  omega

theorem lt_of_held : k < next := List.mem_range.mp (of_held hc ht).1

theorem lookup_of_held : ends.lookup k = none := by
  rw [List.lookup_eq_none_iff]
  intro p hp
  have hne : p.1 ≠ k := fun heq => (of_held hc ht).2.1 (List.mem_map.mpr ⟨p, hp, heq⟩)
  simpa using hne.symm

/-- The entry of a number that ends is the new one, and the others keep theirs. -/
theorem lookup_finish (a : β) (j : Nat) :
    (ends ++ [(k, a)]).lookup j = if j = k then some a else ends.lookup j := by
  rw [List.lookup_append]
  by_cases hj : j = k
  · subst hj
    simp [lookup_of_held hc ht]
  · have hfalse : (j == k) = false := by simpa using hj
    simp [List.lookup_cons, hfalse, hj]

end

/-- Writing one place of a table. -/
theorem set_table {γ : Type} (f : Nat → γ) (x : γ) (size k : Nat) :
    ((List.range size).map f).set k x = (List.range size).map fun i => if i = k then x else f i := by
  refine List.ext_getElem? fun i => ?_
  rw [List.getElem?_set]
  by_cases hik : k = i
  · subst hik
    by_cases hlt : k < size <;> simp [hlt]
  · have hki : i ≠ k := fun h => hik h.symm
    by_cases hlt : i < size <;> simp [hlt, hik, hki]

theorem lookup_of_mem (hc : (numbered next ends).Wf) (hmem : (k, a) ∈ ends) :
    ends.lookup k = some a := by
  have hnodup : (ends.map Prod.fst).Nodup := ended_nodup hc
  clear hc
  induction ends with
  | nil => cases hmem
  | cons p rest ih =>
    obtain ⟨hnew, hrest⟩ := List.nodup_cons.mp hnodup
    rcases List.mem_cons.mp hmem with rfl | hin
    · exact List.lookup_cons_self
    · have hne : k ≠ p.1 := fun heq => hnew (heq ▸ List.mem_map.mpr ⟨_, hin, rfl⟩)
      obtain ⟨m, b⟩ := p
      have hfalse : (k == m) = false := by simpa using hne
      rw [List.lookup_cons, hfalse]
      exact ih hin hrest

/-- When nobody is busy, every number that was taken has an entry. -/
theorem ended_of_idle (hc : (numbered next ends).Wf) (hidle : (numbered next ends).busy = 0)
    (hk : k < next) : ∃ a, (k, a) ∈ ends := by
  have hmem : k ∈ ends.map Prod.fst :=
    (perm_of_idle hc hidle).mem_iff.mpr (List.mem_range.mpr hk)
  obtain ⟨⟨m, a⟩, hp, rfl⟩ := List.mem_map.mp hmem
  exact ⟨a, hp⟩

end Custody

end Fries
