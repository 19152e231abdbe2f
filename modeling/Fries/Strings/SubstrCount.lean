import Fries.Go
import Mathlib.Data.List.Basic

/-! `SubstrCount`, with 64-bit numbers that wrap around. -/
namespace Fries.Strings

open Word

/-- The bytes from `low` up to `high`; `none` if the slice expression panics. -/
def slice (s : Bytes) (low high : Int) : Option Bytes :=
  if 0 ≤ low ∧ low ≤ high ∧ high ≤ s.length then
    some ((s.drop low.toNat).take (high - low).toNat)
  else none

/-- `SubstrCount` over any `strings.Count`; `none` if it panics. -/
def substrCount (count : Bytes → Bytes → Int) (haystack needle : Bytes) (offset : Int)
    (lengths : List Int) : Option Int :=
  if offset < 0 ∨ (haystack.length : Int) ≤ offset then some 0
  else
    match lengths with
    | length :: _ =>
      if length < 0 then some 0
      else do
        let substr ← slice haystack offset (min (wrap64 (offset + length)) haystack.length)
        return count substr needle
    | [] => do
      let substr ← slice haystack offset haystack.length
      return count substr needle

/-- The part of the haystack that starts at `offset`, of `length` bytes or up to the end. -/
def part (haystack : Bytes) (offset : Int) : Option Int → Bytes
  | some length => (haystack.drop offset.toNat).take length.toNat
  | none => haystack.drop offset.toNat

/-- The number of needles in the part, and 0 if there is no such part. -/
def countIn (count : Bytes → Bytes → Int) (haystack needle : Bytes) (offset : Int)
    (length : Option Int) : Int :=
  if (0 ≤ offset ∧ offset < haystack.length) ∧ ∀ l ∈ length, 0 ≤ l then
    count (part haystack offset length) needle
  else 0

variable {count : Bytes → Bytes → Int} {haystack needle : Bytes} {offset length : Int}

/-- A slice up to an end past the haystack's own is the rest of the haystack. -/
theorem slice_min (hlow : 0 ≤ offset) (hhigh : offset ≤ haystack.length) (hlength : 0 ≤ length) :
    slice haystack offset (min (offset + length) haystack.length) =
      some (part haystack offset (some length)) := by
  rw [slice, if_pos ⟨hlow, by omega, by omega⟩, part]
  congr 1
  apply List.take_eq_take_iff.mpr
  rw [List.length_drop]
  omega

theorem slice_rest (hlow : 0 ≤ offset) (hhigh : offset ≤ haystack.length) :
    slice haystack offset haystack.length = some (part haystack offset none) := by
  rw [slice, if_pos ⟨hlow, hhigh, le_rfl⟩, part, List.take_of_length_le]
  rw [List.length_drop]
  omega

/-- Outside the haystack nothing is counted. -/
theorem substrCount_outside (lengths : List Int)
    (h : ¬ (0 ≤ offset ∧ offset < haystack.length)) :
    substrCount count haystack needle offset lengths =
      some (countIn count haystack needle offset lengths.head?) := by
  unfold substrCount
  rw [if_pos (by omega), countIn, if_neg fun hin => h hin.1]

/-- A window whose end does not wrap around is counted in. -/
theorem substrCount_window (lengths : List Int) (hlow : 0 ≤ offset)
    (hhigh : offset < haystack.length)
    (hend : ∀ length ∈ lengths.head?, offset + length ≤ maxInt64) :
    substrCount count haystack needle offset lengths =
      some (countIn count haystack needle offset lengths.head?) := by
  have hle : offset ≤ haystack.length := Int.le_of_lt hhigh
  unfold substrCount
  rw [if_neg (by omega)]
  cases lengths with
  | nil =>
    have hin : (0 ≤ offset ∧ offset < haystack.length) ∧ ∀ l ∈ (none : Option Int), 0 ≤ l :=
      ⟨⟨hlow, hhigh⟩, by simp⟩
    rw [List.head?_nil, countIn, if_pos hin]
    simp only [slice_rest hlow hle, Option.bind_eq_bind, Option.bind_some, Option.pure_def]
  | cons length rest =>
    have hsum := hend length rfl
    rw [List.head?_cons, countIn]
    by_cases hneg : length < 0
    · have hout : ¬ ((0 ≤ offset ∧ offset < haystack.length) ∧ ∀ l ∈ some length, 0 ≤ l) := by
        intro hin
        have := hin.2 length rfl
        omega
      simp only [if_pos hneg, if_neg hout]
    · have hnonneg : 0 ≤ length := by omega
      have hfits : Fits (offset + length) := ⟨by omega, hsum⟩
      have hin : (0 ≤ offset ∧ offset < haystack.length) ∧ ∀ l ∈ some length, 0 ≤ l :=
        ⟨⟨hlow, hhigh⟩, by simpa using hnonneg⟩
      simp only [if_neg hneg, wrap64_eq hfits, slice_min hlow hle hnonneg, if_pos hin,
        Option.bind_eq_bind, Option.bind_some, Option.pure_def]

/-- A window whose end wraps around ends before it starts. -/
theorem substrCount_wraps (rest : List Int) (hword : Fits offset) (hlength : Fits length)
    (hlow : 0 ≤ offset) (hhigh : offset < haystack.length) (hend : maxInt64 < offset + length) :
    substrCount count haystack needle offset (length :: rest) = none := by
  have hneg := wrap64_neg hword hlength hend
  have hle : offset ≤ maxInt64 := hword.2
  rw [substrCount, if_neg (by omega)]
  simp only [if_neg (show ¬ length < 0 by omega)]
  rw [slice, if_neg (by omega)]
  rfl

/-- The needles of the part are counted without a panic, exactly if the end of the part is a 64-bit
number or there is no such part. -/
theorem substrCount_counts_part (count : Bytes → Bytes → Int) (haystack needle : Bytes)
    (lengths : List Int) (hword : Fits offset) (hwords : ∀ length ∈ lengths, Fits length) :
    substrCount count haystack needle offset lengths =
        some (countIn count haystack needle offset lengths.head?) ↔
      (0 ≤ offset → offset < haystack.length →
        ∀ length ∈ lengths.head?, offset + length ≤ maxInt64) := by
  by_cases hin : 0 ≤ offset ∧ offset < haystack.length
  · by_cases hend : ∀ length ∈ lengths.head?, offset + length ≤ maxInt64
    · exact iff_of_true (substrCount_window lengths hin.1 hin.2 hend) fun _ _ => hend
    · refine iff_of_false ?_ fun h => hend (h hin.1 hin.2)
      cases lengths with
      | nil => simp at hend
      | cons length rest =>
        have hlength : Fits length := hwords length List.mem_cons_self
        have hlong : maxInt64 < offset + length := by simpa using hend
        rw [substrCount_wraps rest hword hlength hin.1 hin.2 hlong]
        simp
  · exact iff_of_true (substrCount_outside lengths hin) fun hlow hhigh => absurd ⟨hlow, hhigh⟩ hin

/-- Three bytes from the second on, of four. -/
theorem substrCount_counts_three :
    substrCount (fun s c => s.countP (· ∈ c)) [97, 98, 97, 98] [98] 1 [3] = some 2 :=
  (substrCount_counts_part _ _ _ _ (by decide) (by decide)).mpr (by decide)

/-- The largest length, from the second byte on, panics. -/
theorem substrCount_panics :
    substrCount (fun s c => s.countP (· ∈ c)) [97, 98] [98] 1 [maxInt64] = none ∧
      countIn (fun s c => s.countP (· ∈ c)) [97, 98] [98] 1 (some maxInt64) = 1 := by
  decide

end Fries.Strings
