import Fries.Go
import Fries.Lib.Intervals

/-! Periods of time, half-open, and their union, which is joined in place. -/
namespace Fries.Time

/-- A period; its endpoints are instants, without a location or a monotonic reading. -/
abbrev Period := Span Int

variable {p q : Period} {t : Int} {periods others : List Period}

/-- The zero value. -/
def zero : Period := ⟨0, 0, le_refl 0⟩

inductive Error
  | invalidRange
  deriving DecidableEq

def new (start stop : Int) : Except Error Period :=
  if h : stop < start then .error .invalidRange else .ok ⟨start, stop, not_lt.mp h⟩

def isEmpty (p : Period) : Bool := p.start == p.stop

def contains (p : Period) (t : Int) : Bool := !decide (t < p.start) && decide (t < p.stop)

theorem isEmpty_eq_false : isEmpty p = false ↔ p.start < p.stop := by
  have hle := p.le
  simp only [isEmpty, beq_eq_false_iff_ne]
  omega

theorem contains_iff : contains p t = true ↔ p.Contains t := by
  simp [contains, Span.Contains]

/-- The order `Merge` sorts by: first the starts, then the ends. -/
def sortsBefore (a b : Period) : Bool :=
  if a.start ≠ b.start then decide (a.start < b.start) else decide (a.stop ≤ b.stop)

/-- The loop of `Merge` over a sorted slice, with `left` periods to read from `index` on. -/
def compact : Nat → List Period → Nat → Nat → List Period × Nat
  | 0, result, last, _ => (result, last)
  | left + 1, result, last, index =>
    match result[index]?, result[last]? with
    | some p, some q =>
      if q.stop < p.start then compact left (result.set (last + 1) p) (last + 1) (index + 1)
      else if h : q.stop < p.stop then
        compact left (result.set last ⟨q.start, p.stop, q.le.trans h.le⟩) last (index + 1)
      else compact left result last (index + 1)
    | _, _ => (result, last)

def merge (periods : List Period) : List Period :=
  let result := periods.filter fun p => !isEmpty p
  if result.length = 0 then []
  else
    let sorted := result.mergeSort sortsBefore
    let written := compact (sorted.length - 1) sorted 0 1
    written.1.take (written.2 + 1)

/-- In place, the loop keeps what it has joined, the period it is at, periods it has read before
and the ones it has yet to read; it leaves what joining a list leaves. -/
theorem compact_eq_glue (done read : List Period) (p : Period) (rest : List Period) :
    let written := compact rest.length (done ++ p :: (read ++ rest)) done.length
      (done.length + 1 + read.length)
    written.1.take (written.2 + 1) = done ++ p.glue rest := by
  induction rest generalizing done read p with
  | nil =>
    show (done ++ p :: (read ++ [])).take (done.length + 1) = done ++ [p]
    rw [List.take_length_add_append, List.take_succ_cons, List.take_zero]
  | cons q rest ih =>
    have hindex : (done ++ p :: (read ++ q :: rest))[done.length + 1 + read.length]? = some q := by
      rw [List.getElem?_append_right (by omega)]
      have hoffset : done.length + 1 + read.length - done.length = read.length + 1 := by omega
      rw [hoffset, List.getElem?_cons_succ, List.getElem?_append_right (Nat.le_refl _)]
      simp
    have hlast : (done ++ p :: (read ++ q :: rest))[done.length]? = some p := by simp
    simp only [List.length_cons, compact, hindex, hlast]
    unfold Span.glue
    split
    · -- the next period starts a new one, over the first of those that were read before
      obtain ⟨read', hread⟩ : ∃ read', (read ++ q :: rest).set 0 q = q :: (read' ++ rest) ∧
          read'.length = read.length := by
        cases read with
        | nil => exact ⟨[], rfl, rfl⟩
        | cons r read => exact ⟨read ++ [q], by simp, by simp⟩
      have hset : (done ++ p :: (read ++ q :: rest)).set (done.length + 1) q =
          (done ++ [p]) ++ q :: (read' ++ rest) := by
        rw [List.set_append_right _ _ (Nat.le_add_right _ 1), Nat.add_sub_cancel_left,
          List.set_cons_succ, hread.1]
        simp
      have hnext := ih (done ++ [p]) read' q
      rw [List.length_append, List.length_singleton, hread.2] at hnext
      rw [hset, Nat.add_right_comm (done.length + 1) read.length 1, hnext]
      simp
    · have hcount : done.length + 1 + read.length + 1 = done.length + 1 + (read ++ [q]).length := by
        simp [Nat.add_assoc]
      split
      · rename_i hlonger
        have hset : (done ++ p :: (read ++ q :: rest)).set done.length
            ⟨p.start, q.stop, p.le.trans hlonger.le⟩ =
              done ++ ⟨p.start, q.stop, p.le.trans hlonger.le⟩ :: ((read ++ [q]) ++ rest) := by
          simp
        rw [hset, hcount]
        exact ih done (read ++ [q]) _
      · have hsame : read ++ q :: rest = (read ++ [q]) ++ rest := by simp
        rw [hsame, hcount]
        exact ih done (read ++ [q]) p

theorem sortsBefore_iff : sortsBefore p q = true ↔
    p.start < q.start ∨ p.start = q.start ∧ p.stop ≤ q.stop := by
  unfold sortsBefore
  split
  · rename_i hne
    simp [hne]
  · rename_i heq
    simp [not_not.mp heq]

theorem sortsBefore_trans (a b c : Period) (hab : sortsBefore a b = true)
    (hbc : sortsBefore b c = true) : sortsBefore a c = true := by
  rw [sortsBefore_iff] at *
  omega

theorem sortsBefore_total (a b : Period) : (sortsBefore a b || sortsBefore b a) = true := by
  rw [Bool.or_eq_true, sortsBefore_iff, sortsBefore_iff]
  omega

theorem start_le_of_sortsBefore (h : sortsBefore p q = true) : p.start ≤ q.start := by
  rw [sortsBefore_iff] at h
  omega

/-- What `Merge` returns: the periods that are not empty, in the order of their starts, joined. -/
theorem merge_eq_glue (periods : List Period) :
    merge periods = [] ∧ (∀ p ∈ periods, isEmpty p = true) ∨
    ∃ p rest, merge periods = p.glue rest ∧ (p :: rest).Perm (periods.filter fun p => !isEmpty p) ∧
      (p :: rest).Pairwise fun p q => p.start ≤ q.start := by
  by_cases hempty : (periods.filter fun p => !isEmpty p).length = 0
  · refine .inl ⟨if_pos hempty, fun p hp => ?_⟩
    have hnil := List.filter_eq_nil_iff.mp (List.length_eq_zero_iff.mp hempty) p hp
    simpa using hnil
  · have hmerge : merge periods = _ := if_neg hempty
    have hperm := List.mergeSort_perm (periods.filter fun p => !isEmpty p) sortsBefore
    have hsorted := List.pairwise_mergeSort sortsBefore_trans sortsBefore_total
      (periods.filter fun p => !isEmpty p)
    generalize (periods.filter fun p => !isEmpty p).mergeSort sortsBefore = sorted
      at hmerge hperm hsorted
    cases sorted with
    | nil => exact absurd hperm.length_eq.symm hempty
    | cons p rest =>
      refine .inr ⟨p, rest, ?_, hperm, hsorted.imp start_le_of_sortsBefore⟩
      exact hmerge.trans (compact_eq_glue [] [] p rest)

theorem covered_filter : Span.Covered (periods.filter fun p => !isEmpty p) t ↔
    Span.Covered periods t := by
  constructor
  · rintro ⟨p, hp, hpt⟩
    exact ⟨p, (List.mem_filter.mp hp).1, hpt⟩
  · rintro ⟨p, hp, hpt⟩
    refine ⟨p, List.mem_filter.mpr ⟨hp, ?_⟩, hpt⟩
    have hproper : isEmpty p = false := isEmpty_eq_false.mpr (lt_of_le_of_lt hpt.1 hpt.2)
    simp [hproper]

theorem canonical_merge (periods : List Period) : Span.Canonical (merge periods) := by
  rcases merge_eq_glue periods with ⟨hnil, -⟩ | ⟨p, rest, hglue, hperm, hsorted⟩
  · rw [hnil]
    exact Span.canonical_nil
  · rw [hglue]
    refine Span.canonical_glue (fun q hq => ?_) hsorted
    have hmem := List.mem_filter.mp (hperm.mem_iff.mp hq)
    exact isEmpty_eq_false.mp (by simpa using hmem.2)

theorem covered_merge (periods : List Period) :
    Span.Covered (merge periods) t ↔ Span.Covered periods t := by
  rcases merge_eq_glue periods with ⟨hnil, hempty⟩ | ⟨p, rest, hglue, hperm, hsorted⟩
  · have hnone : (periods.filter fun p => !isEmpty p) = [] := by
      rw [List.filter_eq_nil_iff]
      intro p hp
      simp [hempty p hp]
    rw [hnil, ← @covered_filter t periods, hnone]
  · rw [hglue, Span.covered_glue hsorted, Span.covered_perm hperm, covered_filter]

/-- `Merge` returns periods that are not empty, in order and apart, which contain exactly the
instants its arguments contain and depend on nothing else. -/
theorem merge_is_canonical (periods : List Period) :
    (∀ p ∈ merge periods, isEmpty p = false) ∧
    (merge periods).Pairwise (fun p q => p.stop < q.start) ∧
    (∀ t, (∃ p ∈ merge periods, contains p t = true) ↔ ∃ p ∈ periods, contains p t = true) ∧
    ∀ others : List Period,
      (∀ t, (∃ p ∈ periods, contains p t = true) ↔ ∃ p ∈ others, contains p t = true) →
      merge periods = merge others := by
  have hcanonical := canonical_merge periods
  refine ⟨fun p hp => isEmpty_eq_false.mpr (hcanonical.proper p hp), hcanonical.apart, ?_, ?_⟩
  · intro t
    simp only [contains_iff]
    exact covered_merge periods
  · intro others hsame
    refine Span.canonical_ext hcanonical (canonical_merge others) fun t => ?_
    rw [covered_merge, covered_merge]
    have hpoint := hsame t
    simp only [contains_iff] at hpoint
    exact hpoint

/-- Periods that overlap and touch, in two orders, with an empty one and a duplicate. -/
theorem merge_is_canonical_reordered :
    merge [⟨5, 9, by decide⟩, ⟨0, 3, by decide⟩, ⟨3, 4, by decide⟩] =
      merge [⟨3, 4, by decide⟩, ⟨7, 7, by decide⟩, ⟨0, 3, by decide⟩, ⟨5, 9, by decide⟩,
        ⟨3, 4, by decide⟩] := by
  refine (merge_is_canonical _).2.2.2 _ fun t => ?_
  simp only [List.mem_cons, List.not_mem_nil, or_false, exists_eq_or_imp, exists_eq_left,
    contains_iff, Span.Contains]
  omega

end Fries.Time
