import Mathlib.Order.Lattice
import Mathlib.Tactic.Order

/-! Half-open intervals. A canonical list of them is determined by the points it covers. -/
namespace Fries

structure Span (τ : Type) [LinearOrder τ] where
  start : τ
  stop : τ
  le : start ≤ stop
  deriving DecidableEq

namespace Span

variable {τ : Type} [LinearOrder τ] {p q : Span τ} {l m : List (Span τ)} {t : τ}

def Contains (p : Span τ) (t : τ) : Prop := p.start ≤ t ∧ t < p.stop

instance (p : Span τ) (t : τ) : Decidable (p.Contains t) := inferInstanceAs (Decidable (_ ∧ _))

def Covered (l : List (Span τ)) (t : τ) : Prop := ∃ p ∈ l, p.Contains t

instance (l : List (Span τ)) (t : τ) : Decidable (Covered l t) :=
  inferInstanceAs (Decidable (∃ p ∈ l, p.Contains t))

@[simp] theorem covered_nil : ¬ Covered ([] : List (Span τ)) t := by simp [Covered]

@[simp] theorem covered_cons : Covered (p :: l) t ↔ p.Contains t ∨ Covered l t := by
  simp [Covered]

@[simp] theorem covered_append : Covered (l ++ m) t ↔ Covered l t ∨ Covered m t := by
  simp [Covered, or_and_right, exists_or]

theorem covered_perm (h : l.Perm m) : Covered l t ↔ Covered m t := by
  simp [Covered, h.mem_iff]

structure Canonical (l : List (Span τ)) : Prop where
  proper : ∀ p ∈ l, p.start < p.stop
  apart : l.Pairwise fun p q => p.stop < q.start

theorem canonical_nil : Canonical ([] : List (Span τ)) := ⟨nofun, .nil⟩

theorem canonical_cons : Canonical (p :: l) ↔
    p.start < p.stop ∧ (∀ q ∈ l, p.stop < q.start) ∧ Canonical l := by
  constructor
  · intro h
    obtain ⟨hfirst, hrest⟩ := List.pairwise_cons.mp h.apart
    exact ⟨h.proper p (List.mem_cons_self ..), hfirst,
      fun q hq => h.proper q (List.mem_cons_of_mem p hq), hrest⟩
  · rintro ⟨hp, hfirst, hl⟩
    refine ⟨?_, List.pairwise_cons.mpr ⟨hfirst, hl.apart⟩⟩
    intro q hq
    rcases List.mem_cons.mp hq with rfl | hq
    · exact hp
    · exact hl.proper q hq

/-- A list that ends before the next interval can be continued by it. -/
theorem canonical_concat (hl : Canonical l) (hp : p.start < p.stop)
    (hlast : ∀ q ∈ l, q.stop < p.start) : Canonical (l ++ [p]) := by
  refine ⟨?_, List.pairwise_append.mpr ⟨hl.apart, List.pairwise_singleton _ p, ?_⟩⟩
  · exact List.forall_mem_append.mpr ⟨hl.proper, fun q hq => List.mem_singleton.mp hq ▸ hp⟩
  · intro q hq r hr
    exact List.mem_singleton.mp hr ▸ hlast q hq

section

variable (h : Canonical (p :: l))

include h

/-- Nothing after the first interval touches it. -/
theorem stop_lt_of_covered (ht : Covered l t) : p.stop < t := by
  obtain ⟨q, hq, hqt⟩ := ht
  exact lt_of_lt_of_le ((canonical_cons.mp h).2.1 q hq) hqt.1

theorem start_le_of_covered (ht : Covered (p :: l) t) : p.start ≤ t := by
  rcases covered_cons.mp ht with hp | hl
  · exact hp.1
  · exact p.le.trans (stop_lt_of_covered h hl).le

theorem not_covered_stop : ¬ Covered (p :: l) p.stop := by
  intro ht
  rcases covered_cons.mp ht with hp | hl
  · exact lt_irrefl _ hp.2
  · exact lt_irrefl _ (stop_lt_of_covered h hl)

theorem covered_tail : Covered l t ↔ Covered (p :: l) t ∧ ¬ p.Contains t := by
  constructor
  · intro hl
    refine ⟨covered_cons.mpr (.inr hl), fun hp => ?_⟩
    exact lt_asymm hp.2 (stop_lt_of_covered h hl)
  · rintro ⟨ht, hnot⟩
    exact (covered_cons.mp ht).resolve_left hnot

theorem covered_start : Covered (p :: l) p.start :=
  covered_cons.mpr (.inl ⟨le_refl _, (canonical_cons.mp h).1⟩)

end

/-- The first interval does not reach further than the points covered. -/
theorem stop_le_of_covers (hq : Canonical (q :: m))
    (hstart : p.start = q.start) (h : ∀ t, Covered (p :: l) t ↔ Covered (q :: m) t) :
    p.stop ≤ q.stop := by
  by_contra hlt
  have hq' := (canonical_cons.mp hq).1
  refine not_covered_stop hq ((h q.stop).mp (covered_cons.mpr (.inl ⟨?_, not_le.mp hlt⟩)))
  exact hstart ▸ hq'.le

/-- Canonical lists that cover the same points are equal. -/
theorem canonical_ext (hl : Canonical l) (hm : Canonical m)
    (h : ∀ t, Covered l t ↔ Covered m t) : l = m := by
  induction l generalizing m with
  | nil =>
    cases m with
    | nil => rfl
    | cons q m => exact absurd ((h q.start).mpr (covered_start hm)) covered_nil
  | cons p l ih =>
    cases m with
    | nil => exact absurd ((h p.start).mp (covered_start hl)) covered_nil
    | cons q m =>
      have hstart : p.start = q.start := le_antisymm
        (start_le_of_covered hl ((h q.start).mpr (covered_start hm)))
        (start_le_of_covered hm ((h p.start).mp (covered_start hl)))
      have hstop : p.stop = q.stop := le_antisymm (stop_le_of_covers hm hstart h)
        (stop_le_of_covers hl hstart.symm fun t => (h t).symm)
      have hpq : p = q := by
        obtain ⟨start, stop, hle⟩ := p
        obtain ⟨start', stop', hle'⟩ := q
        obtain rfl : start = start' := hstart
        obtain rfl : stop = stop' := hstop
        rfl
      subst hpq
      have htail : l = m := by
        refine ih (canonical_cons.mp hl).2.2 (canonical_cons.mp hm).2.2 fun t => ?_
        rw [covered_tail hl, covered_tail hm, h t]
      rw [htail]

/-- A canonical list covers no point twice. -/
theorem countP_contains (hl : Canonical l) (t : τ) :
    l.countP (fun p => decide (p.Contains t)) = if Covered l t then 1 else 0 := by
  induction l with
  | nil => simp
  | cons p l ih =>
    have hrest := ih (canonical_cons.mp hl).2.2
    rw [List.countP_cons, hrest]
    by_cases hp : p.Contains t
    · have hnot : ¬ Covered l t := fun ht => ((covered_tail hl).mp ht).2 hp
      simp [hp, hnot]
    · simp [hp]

/-! ### The union of intervals in order -/

/-- Goes through intervals in the order of their starts and joins those that overlap or touch. -/
def glue (p : Span τ) : List (Span τ) → List (Span τ)
  | [] => [p]
  | q :: rest =>
    if p.stop < q.start then p :: glue q rest
    else if h : p.stop < q.stop then glue ⟨p.start, q.stop, p.le.trans h.le⟩ rest
    else glue p rest

/-- What the first two intervals are joined to starts where the first does. -/
theorem sorted_join (hsorted : (p :: q :: l).Pairwise fun p q => p.start ≤ q.start) {r : Span τ}
    (hr : r.start = p.start) : (r :: l).Pairwise fun p q => p.start ≤ q.start := by
  obtain ⟨hp, hrest⟩ := List.pairwise_cons.mp hsorted
  refine List.pairwise_cons.mpr ⟨?_, (List.pairwise_cons.mp hrest).2⟩
  intro s hs
  rw [hr]
  exact hp s (List.mem_cons_of_mem q hs)

theorem start_le_of_mem_glue (hsorted : (p :: l).Pairwise fun p q => p.start ≤ q.start) :
    ∀ q ∈ glue p l, p.start ≤ q.start := by
  induction l generalizing p with
  | nil =>
    intro q hq
    exact (List.mem_singleton.mp hq) ▸ le_refl _
  | cons r rest ih =>
    obtain ⟨hp, hrest⟩ := List.pairwise_cons.mp hsorted
    unfold glue
    split
    · intro q hq
      rcases List.mem_cons.mp hq with rfl | hq
      · exact le_refl _
      · exact (hp r List.mem_cons_self).trans (ih hrest q hq)
    · split <;> exact ih (sorted_join hsorted rfl)

theorem canonical_glue (hproper : ∀ q ∈ p :: l, q.start < q.stop)
    (hsorted : (p :: l).Pairwise fun p q => p.start ≤ q.start) : Canonical (glue p l) := by
  induction l generalizing p with
  | nil => exact ⟨hproper, List.pairwise_singleton _ p⟩
  | cons q rest ih =>
    have hrest := (List.pairwise_cons.mp hsorted).2
    obtain ⟨hhead, hnext⟩ := List.forall_mem_cons.mp hproper
    have hproper' := (List.forall_mem_cons.mp hnext).2
    unfold glue
    split
    · rename_i hgap
      refine canonical_cons.mpr ⟨hhead, ?_, ih hnext hrest⟩
      intro r hr
      exact lt_of_lt_of_le hgap (start_le_of_mem_glue hrest r hr)
    · split
      · rename_i hlonger
        exact ih (List.forall_mem_cons.mpr ⟨hhead.trans hlonger, hproper'⟩)
          (sorted_join hsorted rfl)
      · exact ih (List.forall_mem_cons.mpr ⟨hhead, hproper'⟩) (sorted_join hsorted rfl)

/-- Joining intervals in order covers the same points. -/
theorem covered_glue (hsorted : (p :: l).Pairwise fun p q => p.start ≤ q.start) :
    Covered (glue p l) t ↔ Covered (p :: l) t := by
  induction l generalizing p with
  | nil => rfl
  | cons q rest ih =>
    obtain ⟨hp, hrest⟩ := List.pairwise_cons.mp hsorted
    have hstart := hp q List.mem_cons_self
    unfold glue
    split
    · rw [covered_cons, ih hrest, covered_cons (p := p)]
    · rename_i htouch
      split
      · rename_i hlonger
        have hjoined : Covered (glue ⟨p.start, q.stop, p.le.trans hlonger.le⟩ rest) t ↔ _ :=
          ih (sorted_join hsorted rfl)
        rw [hjoined]
        simp only [covered_cons, Contains, ← or_assoc]
        refine or_congr_left ?_
        constructor
        · rintro ⟨hle, hlt⟩
          by_cases hin : t < p.stop
          · exact .inl ⟨hle, hin⟩
          · exact .inr ⟨by order, hlt⟩
        · rintro (⟨hle, hlt⟩ | ⟨hle, hlt⟩)
          · exact ⟨hle, hlt.trans hlonger⟩
          · exact ⟨hstart.trans hle, hlt⟩
      · rename_i hshorter
        rw [ih (sorted_join hsorted rfl)]
        simp only [covered_cons, Contains, ← or_assoc]
        refine or_congr_left ⟨.inl, ?_⟩
        rintro (hin | ⟨hle, hlt⟩)
        · exact hin
        · exact ⟨hstart.trans hle, by order⟩

end Span

end Fries
