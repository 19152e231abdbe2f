import Fries.Time.Subtract
import Mathlib.Order.Bounds.Basic

/-! The gaps between periods. -/
namespace Fries.Time

variable {p q : Period} {t : Int} {rest periods : List Period}

/-- The loop of `Gaps`: the periods between neighbours of a list whose members do not touch. -/
def between : (l : List Period) → l.Pairwise (fun p q => p.stop < q.start) → List Period
  | [], _ => []
  | [_], _ => []
  | p :: q :: rest, h =>
    ⟨p.stop, q.start, ((List.pairwise_cons.mp h).1 q List.mem_cons_self).le⟩ ::
      between (q :: rest) (List.pairwise_cons.mp h).2

def gaps (periods : List Period) : List Period :=
  if (merge periods).length < 2 then [] else between (merge periods) (canonical_merge periods).apart

section

variable (h : Span.Canonical (p :: rest))

include h

/-- Gaps start behind the first period. -/
theorem stop_le_of_mem_between : ∀ gap ∈ between (p :: rest) h.apart, p.stop ≤ gap.start := by
  induction rest generalizing p with
  | nil =>
    intro gap hgap
    cases hgap
  | cons q rest ih =>
    obtain ⟨-, hfirst, hrest⟩ := Span.canonical_cons.mp h
    intro gap hgap
    rcases List.mem_cons.mp hgap with rfl | hgap
    · exact le_rfl
    · have hlt := hfirst q List.mem_cons_self
      have hle := ih hrest gap hgap
      have hq := q.le
      omega

theorem canonical_between : Span.Canonical (between (p :: rest) h.apart) := by
  induction rest generalizing p with
  | nil => exact Span.canonical_nil
  | cons q rest ih =>
    obtain ⟨-, hfirst, hrest⟩ := Span.canonical_cons.mp h
    refine Span.canonical_cons.mpr ⟨hfirst q List.mem_cons_self, ?_, ih hrest⟩
    intro gap hgap
    have hle := stop_le_of_mem_between hrest gap hgap
    have hproper := (Span.canonical_cons.mp hrest).1
    exact lt_of_lt_of_le hproper hle

/-- No period ends behind the last one. -/
theorem stop_le_last : p.stop ≤ ((p :: rest).getLast (List.cons_ne_nil p rest)).stop := by
  induction rest generalizing p with
  | nil => exact le_rfl
  | cons q rest ih =>
    obtain ⟨-, hfirst, hrest⟩ := Span.canonical_cons.mp h
    have hlt := hfirst q List.mem_cons_self
    have hle := ih hrest
    have hq := q.le
    rw [List.getLast_cons (List.cons_ne_nil q rest)]
    omega

theorem lt_last_of_covered (ht : Span.Covered (p :: rest) t) :
    t < ((p :: rest).getLast (List.cons_ne_nil p rest)).stop := by
  induction rest generalizing p with
  | nil =>
    rcases Span.covered_cons.mp ht with hin | hnil
    · exact hin.2
    · exact absurd hnil Span.covered_nil
  | cons q rest ih =>
    rcases Span.covered_cons.mp ht with hin | hcovered
    · exact lt_of_lt_of_le hin.2 (stop_le_last h)
    · rw [List.getLast_cons (List.cons_ne_nil q rest)]
      exact ih (Span.canonical_cons.mp h).2.2 hcovered

/-- The gaps and the periods cover what lies from the first period to the last, each point one of
them. -/
theorem covered_between :
    Span.Covered (between (p :: rest) h.apart) t ↔
      (p.start ≤ t ∧ t < ((p :: rest).getLast (List.cons_ne_nil p rest)).stop) ∧
        ¬ Span.Covered (p :: rest) t := by
  induction rest generalizing p with
  | nil =>
    simp only [between, Span.covered_nil, List.getLast_singleton, Span.covered_cons, or_false,
      Span.Contains, false_iff]
    exact fun hin => hin.2 hin.1
  | cons q rest ih =>
    obtain ⟨hproper, hfirst, hrest⟩ := Span.canonical_cons.mp h
    have hgap := hfirst q List.mem_cons_self
    have hlast := stop_le_last hrest
    have hq := (Span.canonical_cons.mp hrest).1
    have hbehind : Span.Covered (q :: rest) t → q.start ≤ t := Span.start_le_of_covered hrest
    rw [between, Span.covered_cons, ih hrest, List.getLast_cons (List.cons_ne_nil q rest),
      Span.covered_cons (p := p)]
    simp only [Span.Contains]
    by_cases hcovered : Span.Covered (q :: rest) t
    · have := hbehind hcovered
      simp only [hcovered, not_true_eq_false, and_false, or_false, or_true, iff_false]
      omega
    · simp only [hcovered, not_false_eq_true, and_true, or_false]
      omega

end

theorem gaps_eq_between (h : merge periods = p :: rest) (hcanonical : Span.Canonical (p :: rest)) :
    gaps periods = between (p :: rest) hcanonical.apart := by
  unfold gaps
  simp only [h]
  split
  · rename_i hshort
    cases rest with
    | nil => rfl
    | cons q rest =>
      simp only [List.length_cons] at hshort
      omega
  · rfl

/-- Where the periods that are not empty start. -/
def starts (periods : List Period) : Set Int := {t | ∃ p ∈ periods, isEmpty p = false ∧ p.start = t}

def stops (periods : List Period) : Set Int := {t | ∃ p ∈ periods, isEmpty p = false ∧ p.stop = t}

theorem isLeast_starts (h : merge periods = p :: rest) : IsLeast (starts periods) p.start := by
  have hcanonical : Span.Canonical (p :: rest) := h ▸ canonical_merge periods
  have hlower : p.start ∈ lowerBounds (starts periods) := by
    rintro t ⟨q, hq, hproper, rfl⟩
    refine Span.start_le_of_covered hcanonical ?_
    rw [← h, covered_merge]
    exact ⟨q, hq, le_rfl, isEmpty_eq_false.mp hproper⟩
  obtain ⟨q, hq, hin⟩ : Span.Covered periods p.start := by
    rw [← covered_merge, h]
    exact Span.covered_start hcanonical
  have hproper : isEmpty q = false := isEmpty_eq_false.mpr (lt_of_le_of_lt hin.1 hin.2)
  exact ⟨⟨q, hq, hproper, le_antisymm hin.1 (hlower ⟨q, hq, hproper, rfl⟩)⟩, hlower⟩

theorem isGreatest_stops (h : merge periods = p :: rest) :
    IsGreatest (stops periods) ((p :: rest).getLast (List.cons_ne_nil p rest)).stop := by
  have hcanonical : Span.Canonical (p :: rest) := h ▸ canonical_merge periods
  have hmem := List.getLast_mem (List.cons_ne_nil p rest)
  have hupper : ((p :: rest).getLast (List.cons_ne_nil p rest)).stop ∈
      upperBounds (stops periods) := by
    rintro t ⟨q, hq, hproper, rfl⟩
    have hlt := isEmpty_eq_false.mp hproper
    have hcovered : Span.Covered (p :: rest) (q.stop - 1) := by
      rw [← h, covered_merge]
      exact ⟨q, hq, by simp only [Span.Contains]; omega⟩
    have := lt_last_of_covered hcanonical hcovered
    omega
  generalize (p :: rest).getLast (List.cons_ne_nil p rest) = last at hmem hupper ⊢
  have hlast := hcanonical.proper last hmem
  obtain ⟨q, hq, hin⟩ : Span.Covered periods (last.stop - 1) := by
    rw [← covered_merge, h]
    exact ⟨last, hmem, by simp only [Span.Contains]; omega⟩
  simp only [Span.Contains] at hin
  have hproper : isEmpty q = false := isEmpty_eq_false.mpr (by omega)
  have hle := hupper ⟨q, hq, hproper, rfl⟩
  exact ⟨⟨q, hq, hproper, by omega⟩, hupper⟩

/-- The gaps of periods that are not all empty are what is left of their hull without them, and with
the merged periods they contain every instant of the hull once. -/
theorem gaps_fill_hull (periods : List Period) (hmerge : merge periods ≠ []) :
    ∃ hull : Period, IsLeast (starts periods) hull.start ∧ IsGreatest (stops periods) hull.stop ∧
      gaps periods = subtract hull periods ∧
      (∀ p ∈ gaps periods ++ merge periods, isEmpty p = false) ∧
      ∀ t, (gaps periods ++ merge periods).countP (contains · t) =
        if contains hull t then 1 else 0 := by
  obtain ⟨p, rest, h⟩ := List.exists_cons_of_ne_nil hmerge
  have hcanonical : Span.Canonical (p :: rest) := h ▸ canonical_merge periods
  let hull : Period := ⟨p.start, ((p :: rest).getLast (List.cons_ne_nil p rest)).stop,
    p.le.trans (stop_le_last hcanonical)⟩
  have hgaps : Span.Canonical (gaps periods) := by
    rw [gaps_eq_between h hcanonical]
    exact canonical_between hcanonical
  have hcovered : ∀ t, Span.Covered (gaps periods) t ↔
      hull.Contains t ∧ ¬ Span.Covered (merge periods) t := by
    intro t
    rw [gaps_eq_between h hcanonical, h]
    exact covered_between hcanonical
  have hstart : IsLeast (starts periods) p.start := isLeast_starts h
  refine ⟨hull, hstart, isGreatest_stops h, ?_, ?_, ?_⟩
  · refine Span.canonical_ext hgaps (canonical_subtract hull periods) fun t => ?_
    rw [hcovered, covered_subtract, covered_merge]
  · intro q hq
    rcases List.mem_append.mp hq with hq | hq
    · exact isEmpty_eq_false.mpr (hgaps.proper q hq)
    · exact isEmpty_eq_false.mpr ((canonical_merge periods).proper q hq)
  · intro t
    have hinside : Span.Covered (merge periods) t → hull.Contains t := by
      intro ht
      rw [h] at ht
      have hfirst : p.start ≤ t := Span.start_le_of_covered hcanonical ht
      exact ⟨hfirst, lt_last_of_covered hcanonical ht⟩
    rw [List.countP_append, countP_contains hgaps, countP_contains (canonical_merge periods)]
    simp only [contains_iff, hcovered]
    by_cases hin : hull.Contains t <;> by_cases hcut : Span.Covered (merge periods) t
    · simp [hin, hcut]
    · simp [hin, hcut]
    · exact absurd (hinside hcut) hin
    · simp [hin, hcut]

/-- Periods that overlap, touch and are empty, out of order. -/
theorem gaps_fill_hull_unordered :
    let periods : List Period := [⟨7, 9, by decide⟩, ⟨0, 2, by decide⟩, ⟨12, 12, by decide⟩,
      ⟨1, 3, by decide⟩, ⟨9, 10, by decide⟩]
    gaps periods = subtract ⟨0, 10, by decide⟩ periods ∧
      (gaps periods ++ merge periods).countP (contains · 5) = 1 := by
  intro periods
  have hmerge : merge periods ≠ [] := by
    intro hnil
    have hcovered : Span.Covered (merge periods) 0 :=
      (covered_merge periods).mpr ⟨⟨0, 2, by decide⟩, by decide, by decide⟩
    rw [hnil] at hcovered
    exact Span.covered_nil hcovered
  obtain ⟨hull, hleast, hgreatest, hgaps, -, hcount⟩ := gaps_fill_hull periods hmerge
  have hstart : hull.start = 0 := by
    refine hleast.unique ⟨⟨⟨0, 2, by decide⟩, by decide, by decide, rfl⟩, ?_⟩
    rintro t ⟨p, hp, hproper, rfl⟩
    revert p
    decide
  have hstop : hull.stop = 10 := by
    refine hgreatest.unique ⟨⟨⟨9, 10, by decide⟩, by decide, by decide, rfl⟩, ?_⟩
    rintro t ⟨p, hp, hproper, rfl⟩
    revert p
    decide
  have hhull : hull = ⟨0, 10, by decide⟩ := by
    obtain ⟨start, stop, hle⟩ := hull
    cases hstart
    cases hstop
    rfl
  subst hhull
  exact ⟨hgaps, hcount 5⟩

end Fries.Time
