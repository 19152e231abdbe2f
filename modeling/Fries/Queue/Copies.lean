import Mathlib.Data.List.Basic
import Mathlib.Order.Basic

/-! Copies of the tasks of a queue. A task is kept while its latest copy is live. -/
namespace Fries

structure Copies (O : Type) where
  delayed : O → Prop
  stream : List (Nat × O)
  last : Nat
  live : Nat → Prop
  dead : O → Prop
  acked : O → Prop

namespace Copies

variable {O : Type} {s s' s'' : Copies O} {o : O} {id : Nat}

/-- There is a copy later than the entry `id`, in the stream or on its way there. -/
def After (s : Copies O) (o : O) (id : Nat) : Prop :=
  s.delayed o ∨ ∃ id', (id', o) ∈ s.stream ∧ id < id'

def Present (s : Copies O) (o : O) : Prop := s.delayed o ∨ ∃ id, (id, o) ∈ s.stream

def Kept (s : Copies O) (o : O) : Prop :=
  s.acked o ∨ s.dead o ∨ s.delayed o ∨
    ∃ id, (id, o) ∈ s.stream ∧ s.live id ∧ ∀ id', (id', o) ∈ s.stream → id' ≤ id

structure Sound (s : Copies O) : Prop where
  bounded : ∀ x ∈ s.stream, x.1 ≤ s.last
  unique : ∀ {id o o'}, (id, o) ∈ s.stream → (id, o') ∈ s.stream → o = o'
  kept : ∀ o, s.Present o → s.Kept o

/-- What stays true of the copies. -/
structure Later (s s' : Copies O) : Prop where
  stream : ∀ x ∈ s.stream, x ∈ s'.stream
  last : s.last ≤ s'.last
  dead : ∀ o, s.dead o → s'.dead o
  acked : ∀ o, s.acked o → s'.acked o
  after : ∀ o id, id ≤ s.last → s.After o id → s'.After o id

/-- All that happens to copies: more places, a new last entry that may replace delayed
copies of its task, or an entry retired for a reason. -/
inductive Step (s s' : Copies O) : Prop
  | grow (stream : s'.stream = s.stream) (last : s'.last = s.last)
      (delayed : ∀ o, s.delayed o → s'.delayed o)
      (live : ∀ id o, (id, o) ∈ s.stream → s.live id → s'.live id)
      (dead : ∀ o, s.dead o → s'.dead o) (acked : ∀ o, s.acked o → s'.acked o)
  | append (o : O) (stream : s'.stream = s.stream ++ [(s.last + 1, o)])
      (last : s'.last = s.last + 1) (delayed : ∀ o', s.delayed o' → s'.delayed o' ∨ o' = o)
      (new : s'.live (s.last + 1)) (live : ∀ id o, (id, o) ∈ s.stream → s.live id → s'.live id)
      (dead : ∀ o, s.dead o → s'.dead o) (acked : ∀ o, s.acked o → s'.acked o)
  | retire (id : Nat) (o : O) (mem : (id, o) ∈ s.stream)
      (why : s'.acked o ∨ s.dead o ∨ s.After o id)
      (stream : s'.stream = s.stream) (last : s'.last = s.last)
      (delayed : ∀ o, s.delayed o → s'.delayed o)
      (live : ∀ id' o, (id', o) ∈ s.stream → id' ≠ id → s.live id' → s'.live id')
      (dead : ∀ o, s.dead o → s'.dead o) (acked : ∀ o, s.acked o → s'.acked o)

theorem later_refl (s : Copies O) : Later s s :=
  ⟨fun _ h => h, Nat.le_refl _, fun _ h => h, fun _ h => h, fun _ _ _ h => h⟩

theorem later_trans (h : Later s s') (h' : Later s' s'') : Later s s'' where
  stream x hx := h'.stream x (h.stream x hx)
  last := Nat.le_trans h.last h'.last
  dead o ho := h'.dead o (h.dead o ho)
  acked o ho := h'.acked o (h.acked o ho)
  after o id hid ho := h'.after o id (Nat.le_trans hid h.last) (h.after o id hid ho)

theorem present_of_after (h : s.After o id) : s.Present o := by
  rcases h with hd | ⟨id', hm, -⟩
  · exact .inl hd
  · exact .inr ⟨id', hm⟩

theorem step_later (h : Step s s') : Later s s' := by
  cases h with
  | grow stream last delayed live dead acked | retire _ _ _ _ stream last delayed _ dead acked =>
    refine ⟨fun x hx => stream ▸ hx, Nat.le_of_eq last.symm, dead, acked, ?_⟩
    intro o id _ ha
    rcases ha with hd | ⟨id', hm, hlt⟩
    · exact .inl (delayed o hd)
    · exact .inr ⟨id', stream ▸ hm, hlt⟩
  | append new stream last delayed _ live dead acked =>
    refine ⟨fun x hx => stream ▸ List.mem_append_left _ hx, by omega, dead, acked, ?_⟩
    intro o id hid ha
    rcases ha with hd | ⟨id', hm, hlt⟩
    · rcases delayed o hd with hd' | rfl
      · exact .inl hd'
      · exact .inr ⟨s.last + 1, stream ▸ by simp, by omega⟩
    · exact .inr ⟨id', stream ▸ List.mem_append_left _ hm, hlt⟩

theorem step_bounded (h : Step s s') (hs : s.Sound) : ∀ x ∈ s'.stream, x.1 ≤ s'.last := by
  intro x hx
  cases h with
  | grow stream last | retire _ _ _ _ stream last =>
    rw [stream] at hx
    exact last ▸ hs.bounded x hx
  | append o stream last =>
    rw [stream] at hx
    rcases List.mem_append.mp hx with hx | hx
    · have := hs.bounded x hx
      omega
    · simp_all

theorem step_unique (h : Step s s') (hs : s.Sound) {id : Nat} {o o' : O}
    (ho : (id, o) ∈ s'.stream) (ho' : (id, o') ∈ s'.stream) : o = o' := by
  cases h with
  | grow stream | retire _ _ _ _ stream => exact hs.unique (stream ▸ ho) (stream ▸ ho')
  | append new stream =>
    rw [stream] at ho ho'
    simp only [List.mem_append, List.mem_singleton, Prod.mk.injEq] at ho ho'
    rcases ho with ho | ⟨rfl, rfl⟩ <;> rcases ho' with ho' | ⟨hid, rfl⟩
    · exact hs.unique ho ho'
    · have := hs.bounded _ ho
      simp only at this
      omega
    · have := hs.bounded _ ho'
      simp only at this
      omega
    · rfl

/-- No step loses a task: an entry is only retired once it is acknowledged, given up on, or
followed by a later copy. -/
theorem step_kept (h : Step s s') (hs : s.Sound) (hp : s'.Present o) : s'.Kept o := by
  rcases hp with hd | ⟨id, hm⟩
  · exact .inr (.inr (.inl hd))
  cases h with
  | grow stream last delayed live dead acked =>
    rcases hs.kept o (.inr ⟨id, stream ▸ hm⟩) with ha | hd | hd | ⟨top, ht, hl, hmax⟩
    · exact .inl (acked o ha)
    · exact .inr (.inl (dead o hd))
    · exact .inr (.inr (.inl (delayed o hd)))
    · exact .inr (.inr (.inr ⟨top, stream ▸ ht, live top o ht hl, fun id' h => hmax id' (stream ▸ h)⟩))
  | append new stream last delayed hnew live dead acked =>
    rw [stream] at hm
    by_cases ho : o = new
    · subst o
      refine .inr (.inr (.inr ⟨s.last + 1, stream ▸ by simp, hnew, ?_⟩))
      intro id' h
      rw [stream] at h
      rcases List.mem_append.mp h with h | h
      · have := hs.bounded _ h
        simp only at this
        omega
      · simp_all
    · have hold : ∀ id', (id', o) ∈ s'.stream → (id', o) ∈ s.stream := by
        intro id' h
        rw [stream] at h
        simpa [ho] using h
      rcases hs.kept o (.inr ⟨id, hold id (stream ▸ hm)⟩) with ha | hd | hd | ⟨top, ht, hl, hmax⟩
      · exact .inl (acked o ha)
      · exact .inr (.inl (dead o hd))
      · rcases delayed o hd with hd | he
        · exact .inr (.inr (.inl hd))
        · exact absurd he ho
      · exact .inr (.inr (.inr ⟨top, stream ▸ List.mem_append_left _ ht, live top o ht hl,
          fun id' h => hmax id' (hold id' h)⟩))
  | retire gone owner mem why stream last delayed live dead acked =>
    rcases hs.kept o (.inr ⟨id, stream ▸ hm⟩) with ha | hd | hd | ⟨top, ht, hl, hmax⟩
    · exact .inl (acked o ha)
    · exact .inr (.inl (dead o hd))
    · exact .inr (.inr (.inl (delayed o hd)))
    · by_cases htop : top = gone
      · subst top
        obtain rfl := hs.unique ht mem
        -- the retired entry was the latest copy, so something else accounts for the task
        rcases why with ha | hd | hd | ⟨id', hm', hlt⟩
        · exact .inl ha
        · exact .inr (.inl (dead o hd))
        · exact .inr (.inr (.inl (delayed o hd)))
        · have := hmax id' hm'
          omega
      · exact .inr (.inr (.inr ⟨top, stream ▸ ht, live top o ht htop hl,
          fun id' h => hmax id' (stream ▸ h)⟩))

theorem step_sound (h : Step s s') (hs : s.Sound) : s'.Sound :=
  ⟨step_bounded h hs, step_unique h hs, fun _ => step_kept h hs⟩

end Copies

end Fries
