import Fries.Time.Period

/-! What is left of a period when others are cut out of it. -/
namespace Fries.Time

variable {p q cut : Period} {t cursor : Int} {cuts result : List Period}

def overlaps (p other : Period) : Bool :=
  !isEmpty p && !isEmpty other && decide (p.start < other.stop) && decide (other.start < p.stop)

theorem overlaps_iff : overlaps p q = true ↔
    (p.start < p.stop ∧ q.start < q.stop) ∧ p.start < q.stop ∧ q.start < p.stop := by
  simp [overlaps, isEmpty_eq_false, and_assoc]

theorem intersect_le (h : overlaps p q = true) :
    (if p.start < q.start then q.start else p.start) ≤
      if q.stop < p.stop then q.stop else p.stop := by
  rw [overlaps_iff] at h
  split <;> split <;> omega

/-- The zero value that comes with a false in the source is left out. -/
def intersect (p other : Period) : Option Period :=
  if h : overlaps p other = true then
    some ⟨if p.start < other.start then other.start else p.start,
      if other.stop < p.stop then other.stop else p.stop, intersect_le h⟩
  else none

/-- The loop of `Subtract`: the cursor stands where what is left of the period begins, which is
before its end. -/
def sweep (p : Period) : List Period → (cursor : Int) → cursor < p.stop → List Period → List Period
  | [], cursor, h, result => result ++ [⟨cursor, p.stop, h.le⟩]
  | cut :: cuts, cursor, h, result =>
    if ¬ cursor < cut.stop then sweep p cuts cursor h result
    else if ¬ cut.start < p.stop then result ++ [⟨cursor, p.stop, h.le⟩]
    else
      let result := if h : cursor < cut.start then result ++ [⟨cursor, cut.start, h.le⟩] else result
      if h : cut.stop < p.stop then sweep p cuts cut.stop h result else result

theorem start_lt_stop (h : ¬ isEmpty p = true) : p.start < p.stop :=
  isEmpty_eq_false.mp (Bool.eq_false_iff.mpr h)

def subtract (p : Period) (others : List Period) : List Period :=
  if h : isEmpty p = true then [] else sweep p (merge others) p.start (start_lt_stop h) []

/-- What the loop has found when the cursor stands at an instant: canonical periods before it. -/
structure Swept (result : List Period) (cursor : Int) : Prop where
  canonical : Span.Canonical result
  before : ∀ q ∈ result, q.stop < cursor

theorem swept_push (hr : Swept result cursor) {stop : Int} (h : cursor < stop) :
    Span.Canonical (result ++ [⟨cursor, stop, Int.le_of_lt h⟩]) :=
  Span.canonical_concat hr.canonical h hr.before

/-- The loop goes on behind a cut that it has not passed. -/
theorem swept_cut (hr : Swept result cursor) (hproper : cut.start < cut.stop)
    (hpast : cursor < cut.stop) :
    Swept
      (if h : cursor < cut.start then result ++ [⟨cursor, cut.start, Int.le_of_lt h⟩] else result)
      cut.stop := by
  split
  · rename_i hgap
    refine ⟨swept_push hr hgap, fun q hq => ?_⟩
    rcases List.mem_append.mp hq with hq | hq
    · exact (hr.before q hq).trans hpast
    · rw [List.mem_singleton.mp hq]
      exact hproper
  · exact ⟨hr.canonical, fun q hq => (hr.before q hq).trans hpast⟩

theorem canonical_sweep (hcuts : Span.Canonical cuts) (h : cursor < p.stop)
    (hr : Swept result cursor) : Span.Canonical (sweep p cuts cursor h result) := by
  induction cuts generalizing cursor result with
  | nil => exact swept_push hr h
  | cons cut cuts ih =>
    obtain ⟨hproper, -, hrest⟩ := Span.canonical_cons.mp hcuts
    unfold sweep
    split
    · exact ih hrest h hr
    · rename_i hpast
      split
      · exact swept_push hr h
      · have hnext := swept_cut hr hproper (not_not.mp hpast)
        dsimp only
        split
        · exact ih hrest _ hnext
        · exact hnext.canonical

/-- The instants the loop adds: those from the cursor to the end of the period that no cut
contains. -/
theorem covered_sweep (hcuts : Span.Canonical cuts) (h : cursor < p.stop) :
    Span.Covered (sweep p cuts cursor h result) t ↔
      Span.Covered result t ∨ (cursor ≤ t ∧ t < p.stop) ∧ ¬ Span.Covered cuts t := by
  induction cuts generalizing cursor result with
  | nil => simp [sweep, Span.Contains]
  | cons cut cuts ih =>
    obtain ⟨hproper, hgap, hrest⟩ := Span.canonical_cons.mp hcuts
    have hafter : Span.Covered cuts t → cut.stop < t := Span.stop_lt_of_covered hcuts
    unfold sweep
    split
    · -- the cut ends at or before the cursor
      rename_i hbefore
      rw [ih hrest h]
      simp only [Span.covered_cons, Span.Contains]
      refine or_congr_right (and_congr_right fun hin => not_congr ?_)
      exact ⟨.inr, fun hcut => hcut.resolve_left (by omega)⟩
    · rename_i hpast
      split
      · -- this cut and all others start behind the period
        rename_i hbehind
        simp only [Span.covered_append, Span.covered_cons, Span.covered_nil, Span.Contains, or_false]
        refine or_congr_right ⟨fun hin => ⟨hin, ?_⟩, fun hin => hin.1⟩
        rintro (hcut | hcut)
        · omega
        · have := hafter hcut
          omega
      · rename_i hreach
        have hfound : Span.Covered (if h : cursor < cut.start then
            result ++ [⟨cursor, cut.start, h.le⟩] else result) t ↔
              Span.Covered result t ∨ cursor ≤ t ∧ t < cut.start := by
          split
          · simp [Span.Contains]
          · refine ⟨.inl, fun hin => hin.resolve_right (by omega)⟩
        dsimp only
        split
        · rw [ih hrest, hfound]
          simp only [Span.covered_cons, Span.Contains]
          by_cases hcovered : Span.Covered cuts t
          · have := hafter hcovered
            simp only [hcovered, not_true_eq_false, and_false, or_false, or_true]
            refine ⟨fun hin => hin.resolve_right (by omega), .inl⟩
          · simp only [hcovered, not_false_eq_true, and_true, or_false, or_assoc]
            refine or_congr_right ?_
            omega
        · -- the cut reaches the end of the period
          rw [hfound]
          simp only [Span.covered_cons, Span.Contains]
          refine or_congr_right ⟨fun hin => ⟨by omega, ?_⟩, fun hin => ?_⟩
          · rintro (hcut | hcut)
            · omega
            · have := hafter hcut
              omega
          · have hnot := not_or.mp hin.2
            omega

theorem canonical_subtract (p : Period) (others : List Period) :
    Span.Canonical (subtract p others) := by
  unfold subtract
  split
  · exact Span.canonical_nil
  · exact canonical_sweep (canonical_merge others) _ ⟨Span.canonical_nil, nofun⟩

theorem covered_subtract (p : Period) (others : List Period) :
    Span.Covered (subtract p others) t ↔ p.Contains t ∧ ¬ Span.Covered others t := by
  unfold subtract
  split
  · rename_i hempty
    have hsame : p.start = p.stop := by simpa [isEmpty] using hempty
    refine ⟨fun hnil => absurd hnil Span.covered_nil, fun hin => ?_⟩
    obtain ⟨hle, hlt⟩ := hin.1
    omega
  · rw [covered_sweep (canonical_merge others), covered_merge]
    simp [Span.Contains]

theorem intersect_contains (h : intersect p q = some cut) :
    cut.Contains t ↔ p.Contains t ∧ q.Contains t := by
  unfold intersect at h
  split at h <;> cases h
  simp only [Span.Contains]
  split <;> split <;> omega

theorem covered_intersections (p : Period) (others : List Period) :
    Span.Covered (others.filterMap (intersect p)) t ↔ p.Contains t ∧ Span.Covered others t := by
  constructor
  · rintro ⟨cut, hcut, ht⟩
    obtain ⟨q, hq, hsome⟩ := List.mem_filterMap.mp hcut
    obtain ⟨hp, hqt⟩ := (intersect_contains hsome).mp ht
    exact ⟨hp, q, hq, hqt⟩
  · rintro ⟨hp, q, hq, hqt⟩
    have hoverlaps : overlaps p q = true := by
      simp only [Span.Contains] at hp hqt
      rw [overlaps_iff]
      omega
    have hsome : intersect p q = some _ := dif_pos hoverlaps
    exact ⟨_, List.mem_filterMap.mpr ⟨q, hq, hsome⟩, (intersect_contains hsome).mpr ⟨hp, hqt⟩⟩

theorem countP_contains {l : List Period} (h : Span.Canonical l) (t : Int) :
    l.countP (contains · t) = if Span.Covered l t then 1 else 0 := by
  have hcontains : (fun q : Period => contains q t) = fun q => decide (q.Contains t) := by
    funext q
    rw [Bool.eq_iff_iff, contains_iff, decide_eq_true_iff]
  rw [hcontains, Span.countP_contains h]

/-- `Subtract` returns periods that are not empty, in order and apart, with exactly the instants of
the period that no cut contains. -/
theorem subtract_is_difference (p : Period) (others : List Period) :
    (∀ q ∈ subtract p others, isEmpty q = false) ∧
    (subtract p others).Pairwise (fun a b => a.stop < b.start) ∧
    (∀ t, (∃ q ∈ subtract p others, contains q t = true) ↔
      contains p t = true ∧ ¬ ∃ cut ∈ others, contains cut t = true) ∧
    ∀ t, (subtract p others ++ merge (others.filterMap (intersect p))).countP (contains · t) =
      if contains p t then 1 else 0 := by
  have hcanonical := canonical_subtract p others
  refine ⟨fun q hq => isEmpty_eq_false.mpr (hcanonical.proper q hq), hcanonical.apart, ?_, ?_⟩
  · intro t
    simp only [contains_iff]
    exact covered_subtract p others
  · intro t
    rw [List.countP_append, countP_contains hcanonical, countP_contains (canonical_merge _)]
    simp only [covered_subtract, covered_merge, covered_intersections, contains_iff]
    by_cases hp : p.Contains t <;> by_cases hcut : Span.Covered others t <;> simp [hp, hcut]

end Fries.Time
