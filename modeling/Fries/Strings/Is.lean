import Fries.Go
import Fries.Lib.Wildcard

/-! `Is`, which matches a value against a pattern and goes back to the last wildcard only. -/
namespace Fries.Strings

open Wildcard

/-- The byte of the wildcard. -/
def star : UInt8 := 42

/-- The variables of the first loop. `starIndex` is `none` for -1. -/
structure Cursor where
  patternIndex : Nat
  valueIndex : Nat
  starIndex : Option Nat
  matchIndex : Nat
  deriving DecidableEq

/-- The second loop, for as many turns as it is given. -/
def skipStars (pattern : Bytes) : Nat → Nat → Nat
  | 0, patternIndex => patternIndex
  | turns + 1, patternIndex =>
    if pattern[patternIndex]? = some star then skipStars pattern turns (patternIndex + 1)
    else patternIndex

/-- A turn of the first loop, and what follows once the value is used up. -/
def turn (pattern value : Bytes) (s : Cursor) : Cursor ⊕ Bool :=
  match value[s.valueIndex]? with
  | none => .inr (skipStars pattern pattern.length s.patternIndex == pattern.length)
  | some v =>
    if pattern[s.patternIndex]? = some star then
      .inl { s with
        starIndex := some s.patternIndex
        matchIndex := s.valueIndex
        patternIndex := s.patternIndex + 1 }
    else if pattern[s.patternIndex]? = some v then
      .inl { s with patternIndex := s.patternIndex + 1, valueIndex := s.valueIndex + 1 }
    else
      match s.starIndex with
      | none => .inr false
      | some starIndex =>
        .inl { s with
          patternIndex := starIndex + 1
          matchIndex := s.matchIndex + 1
          valueIndex := s.matchIndex + 1 }

/-- The first loop, for as many turns as it is given; `none` if it is not over after them. -/
def loop (pattern value : Bytes) : Nat → Cursor → Option Bool
  | 0, _ => none
  | turns + 1, s =>
    match turn pattern value s with
    | .inl s => loop pattern value turns s
    | .inr r => some r

def is (pattern value : Bytes) (turns : Nat) : Option Bool :=
  if pattern = value then some true else loop pattern value turns ⟨0, 0, none, 0⟩

variable {pattern value l : Bytes} {s s' : Cursor} {i turns : Nat} {b : UInt8}

theorem drop_of_some (h : l[i]? = some b) : l.drop i = b :: l.drop (i + 1) := by
  obtain ⟨hlt, rfl⟩ := List.getElem?_eq_some_iff.mp h
  exact List.drop_eq_getElem_cons hlt

theorem drop_of_none (h : l[i]? = none) : l.drop i = [] :=
  List.drop_eq_nil_iff.mpr (List.getElem?_eq_none_iff.mp h)

/-- The second loop reaches the end of the pattern if only wildcards are left. -/
theorem skipStars_eq_length (hi : i ≤ pattern.length) (hturns : pattern.length - i ≤ turns) :
    skipStars pattern turns i = pattern.length ↔ ∀ c ∈ pattern.drop i, c = star := by
  induction turns generalizing i with
  | zero =>
    have : i = pattern.length := by omega
    subst this
    simp [skipStars]
  | succ turns ih =>
    unfold skipStars
    split
    · rename_i hstar
      have hlt := (List.getElem?_eq_some_iff.mp hstar).1
      rw [ih (by omega) (by omega), drop_of_some hstar]
      simp
    · rename_i hother
      cases hc : pattern[i]? with
      | none =>
        have := List.getElem?_eq_none_iff.mp hc
        rw [drop_of_none hc]
        simp
        omega
      | some c =>
        have hlt := (List.getElem?_eq_some_iff.mp hc).1
        rw [drop_of_some hc]
        refine iff_of_false (by omega) ?_
        intro hall
        exact hother (hc.trans (congrArg some (hall c List.mem_cons_self)))

/-- What is left to find: a match from here on, or one where the last wildcard takes more. -/
def Cursor.Left (pattern value : Bytes) (s : Cursor) : Prop :=
  Matches star (pattern.drop s.patternIndex) (value.drop s.valueIndex) ∨
    ∃ i, s.starIndex = some i ∧ ∃ k, s.matchIndex < k ∧
      Matches star (pattern.drop (i + 1)) (value.drop k)

/-- Since the last wildcard, a segment without another one has matched. -/
structure Good (pattern value : Bytes) (s : Cursor) : Prop where
  left : Matches star pattern value ↔ s.Left pattern value
  within : s.patternIndex ≤ pattern.length
  segment : ∀ i, s.starIndex = some i → ∃ seg, star ∉ seg ∧
    pattern.drop (i + 1) = seg ++ pattern.drop s.patternIndex ∧
    value.drop s.matchIndex = seg ++ value.drop s.valueIndex
  ahead : ∀ i, s.starIndex = some i → i < s.patternIndex ∧ s.matchIndex ≤ s.valueIndex

theorem good_start (pattern value : Bytes) : Good pattern value ⟨0, 0, none, 0⟩ := by
  refine ⟨?_, Nat.zero_le _, ?_, ?_⟩
  · simp [Cursor.Left]
  · intro i hi
    cases hi
  · intro i hi
    cases hi

/-- If the last wildcard takes more, what comes after its segment starts later, or not earlier. -/
theorem later_segment (hs : Good pattern value s) {k : Nat} (hi : s.starIndex = some i)
    (hk : s.matchIndex < k) (h : Matches star (pattern.drop (i + 1)) (value.drop k)) :
    ∃ rest, rest <:+ value.drop s.valueIndex ∧ Matches star (pattern.drop s.patternIndex) rest := by
  obtain ⟨seg, hseg, hpattern, hvalue⟩ := hs.segment i hi
  rw [hpattern, matches_segment_iff hseg] at h
  obtain ⟨rest, hrest, h⟩ := h
  refine ⟨rest, ?_, h⟩
  have hsuffix : value.drop k <:+ value.drop s.matchIndex := by
    obtain ⟨d, rfl⟩ := Nat.exists_eq_add_of_lt hk
    rw [show s.matchIndex + d + 1 = s.matchIndex + (d + 1) by omega, ← List.drop_drop]
    exact List.drop_suffix _ _
  have hlong : rest <:+ seg ++ value.drop s.valueIndex := by
    rw [← hvalue]
    exact (List.suffix_append seg rest).trans (hrest ▸ hsuffix)
  have hlength := hsuffix.length_le
  rw [hrest, hvalue, List.length_append, List.length_append] at hlength
  exact List.suffix_of_suffix_length_le hlong (List.suffix_append _ _) (by omega)

theorem suffix_drop_iff {rest : Bytes} :
    rest <:+ l.drop i ↔ rest = l.drop i ∨ ∃ k, i < k ∧ rest = l.drop k := by
  constructor
  · intro h
    rcases Nat.eq_zero_or_pos ((l.drop i).length - rest.length) with hzero | hpos
    · exact .inl (h.eq_of_length_le (by omega))
    · refine .inr ⟨i + ((l.drop i).length - rest.length), by omega, ?_⟩
      rw [← List.drop_drop]
      exact List.suffix_iff_eq_drop.mp h
  · rintro (rfl | ⟨k, hk, rfl⟩)
    · exact List.suffix_refl _
    · obtain ⟨d, rfl⟩ := Nat.exists_eq_add_of_le (Nat.le_of_lt hk)
      rw [← List.drop_drop]
      exact List.drop_suffix _ _

/-- A new wildcard takes nothing at first; the one before it is done with. -/
theorem good_star (hs : Good pattern value s) (hstar : pattern[s.patternIndex]? = some star) :
    Good pattern value
      ⟨s.patternIndex + 1, s.valueIndex, some s.patternIndex, s.valueIndex⟩ := by
  have hdrop := drop_of_some hstar
  have hlt := (List.getElem?_eq_some_iff.mp hstar).1
  have hnext : Matches star (pattern.drop s.patternIndex) (value.drop s.valueIndex) ↔
      Cursor.Left pattern value
        ⟨s.patternIndex + 1, s.valueIndex, some s.patternIndex, s.valueIndex⟩ := by
    rw [hdrop, matches_star_iff]
    simp only [Cursor.Left, suffix_drop_iff]
    constructor
    · rintro ⟨rest, rfl | ⟨k, hk, rfl⟩, h⟩
      · exact .inl h
      · exact .inr ⟨_, rfl, k, hk, h⟩
    · rintro (h | ⟨i, hi, k, hk, h⟩)
      · exact ⟨_, .inl rfl, h⟩
      · cases hi
        exact ⟨_, .inr ⟨k, hk, rfl⟩, h⟩
  refine ⟨?_, hlt, ?_, ?_⟩
  · rw [hs.left, ← hnext]
    constructor
    · rintro (h | ⟨i, hi, k, hk, h⟩)
      · exact h
      · obtain ⟨rest, hsuffix, h⟩ := later_segment hs hi hk h
        rw [hdrop] at h ⊢
        exact matches_star_mono hsuffix h
    · exact .inl
  · intro i hi
    cases hi
    exact ⟨[], by simp, by simp, by simp⟩
  · intro i hi
    cases hi
    exact ⟨Nat.lt_succ_self _, Nat.le_refl _⟩

/-- A byte that matches itself makes the segment longer. -/
theorem good_literal (hs : Good pattern value s) (hvalue : value[s.valueIndex]? = some b)
    (hpattern : pattern[s.patternIndex]? = some b) (hb : b ≠ star) :
    Good pattern value
      { s with patternIndex := s.patternIndex + 1, valueIndex := s.valueIndex + 1 } := by
  have hdrop := drop_of_some hpattern
  have hdrop' := drop_of_some hvalue
  refine ⟨?_, (List.getElem?_eq_some_iff.mp hpattern).1, ?_, ?_⟩
  · rw [hs.left]
    simp [Cursor.Left, hdrop, hdrop', matches_literal_iff hb]
  · intro i hi
    obtain ⟨seg, hseg, hp, hv⟩ := hs.segment i hi
    exact ⟨seg ++ [b], by simp [hseg, Ne.symm hb], by simp [hp, hdrop], by simp [hv, hdrop']⟩
  · intro i hi
    obtain ⟨hlt, hle⟩ := hs.ahead i hi
    exact ⟨Nat.lt_succ_of_lt hlt, Nat.le_succ_of_le hle⟩

/-- There is no match from a byte on that has no counterpart. -/
theorem not_matches_here (hvalue : value[s.valueIndex]? = some b)
    (hstar : pattern[s.patternIndex]? ≠ some star) (hother : pattern[s.patternIndex]? ≠ some b) :
    ¬ Matches star (pattern.drop s.patternIndex) (value.drop s.valueIndex) := by
  rw [drop_of_some hvalue]
  cases hc : pattern[s.patternIndex]? with
  | none =>
    rw [drop_of_none hc, matches_nil_iff]
    simp
  | some c =>
    rw [hc] at hstar hother
    rw [drop_of_some hc, matches_literal_iff (by simpa using hstar)]
    rintro ⟨rest, heq, -⟩
    exact hother (congrArg some (List.cons.inj heq).1.symm)

/-- Otherwise the last wildcard takes one byte more. -/
theorem good_again (hs : Good pattern value s) (hi : s.starIndex = some i)
    (hnot : ¬ Matches star (pattern.drop s.patternIndex) (value.drop s.valueIndex)) :
    Good pattern value
      { s with
        patternIndex := i + 1
        matchIndex := s.matchIndex + 1
        valueIndex := s.matchIndex + 1 } := by
  obtain ⟨hlt, -⟩ := hs.ahead i hi
  refine ⟨?_, Nat.succ_le_of_lt (Nat.lt_of_lt_of_le hlt hs.within), ?_, ?_⟩
  · rw [hs.left]
    simp only [Cursor.Left, hi, hnot, false_or, Option.some.injEq, exists_eq_left']
    constructor
    · rintro ⟨k, hk, h⟩
      rcases Nat.lt_or_eq_of_le (Nat.succ_le_of_lt hk) with hlater | rfl
      · exact .inr ⟨k, hlater, h⟩
      · exact .inl h
    · rintro (h | ⟨k, hk, h⟩)
      · exact ⟨_, Nat.lt_succ_self _, h⟩
      · exact ⟨k, by omega, h⟩
  · intro i' hi'
    obtain rfl : i = i' := Option.some.inj (hi.symm.trans hi')
    exact ⟨[], by simp, by simp, by simp⟩
  · intro i' hi'
    obtain rfl : i = i' := Option.some.inj (hi.symm.trans hi')
    exact ⟨Nat.lt_succ_self _, Nat.le_refl _⟩

/-- At the end of the value only wildcards may be left. -/
theorem good_end (hs : Good pattern value s) (hvalue : value[s.valueIndex]? = none) :
    Matches star pattern value ↔ ∀ c ∈ pattern.drop s.patternIndex, c = star := by
  have hdrop := drop_of_none hvalue
  rw [hs.left, ← matches_empty_iff]
  constructor
  · rintro (h | ⟨i, hi, k, hk, h⟩)
    · rwa [hdrop] at h
    · obtain ⟨rest, hsuffix, h⟩ := later_segment hs hi hk h
      rw [hdrop, List.suffix_nil] at hsuffix
      rwa [hsuffix] at h
  · intro h
    exact .inl (hdrop ▸ h)

/-- How many wildcards, how many values for the last one and how many bytes are still to be
tried. Each turn lowers the first of these numbers that it changes. -/
def Cursor.remaining (pattern value : Bytes) (s : Cursor) : Nat × Nat × Nat :=
  (match s.starIndex with
    | none => pattern.length + 1
    | some i => pattern.length - i, value.length - s.matchIndex, value.length - s.valueIndex)

theorem turn_spec (hs : Good pattern value s) :
    (∃ s', turn pattern value s = .inl s' ∧ Good pattern value s' ∧
      Prod.Lex (· < ·) (Prod.Lex (· < ·) (· < ·)) (s'.remaining pattern value)
        (s.remaining pattern value)) ∨
    ∃ r, turn pattern value s = .inr r ∧ (r = true ↔ Matches star pattern value) := by
  unfold turn
  cases hvalue : value[s.valueIndex]? with
  | none =>
    refine .inr ⟨_, rfl, ?_⟩
    rw [beq_iff_eq, skipStars_eq_length hs.within (by omega), good_end hs hvalue]
  | some b =>
    have hlt := (List.getElem?_eq_some_iff.mp hvalue).1
    simp only
    split
    · rename_i hstar
      have hwithin := (List.getElem?_eq_some_iff.mp hstar).1
      refine .inl ⟨_, rfl, good_star hs hstar, .left _ _ ?_⟩
      cases hi : s.starIndex with
      | none =>
        simp only
        omega
      | some i =>
        have := (hs.ahead i hi).1
        simp only
        omega
    · rename_i hstar
      split
      · rename_i hb
        have hliteral : b ≠ star := fun h => hstar (h ▸ hb)
        refine .inl ⟨_, rfl, good_literal hs hvalue hb hliteral, .right _ (.right _ ?_)⟩
        simp only
        omega
      · rename_i hb
        have hnot := not_matches_here hvalue hstar hb
        cases hi : s.starIndex with
        | none =>
          refine .inr ⟨false, rfl, ?_⟩
          rw [hs.left]
          simp [Cursor.Left, hi, hnot]
        | some i =>
          have hle := (hs.ahead i hi).2
          refine .inl ⟨_, rfl, hi ▸ good_again hs hi hnot, ?_⟩
          simp only [Cursor.remaining, hi]
          exact .right _ (.left _ _ (by omega))

theorem loop_mono {more : Nat} {r : Bool} (h : loop pattern value turns s = some r) :
    loop pattern value (turns + more) s = some r := by
  induction turns generalizing s with
  | zero => cases h
  | succ turns ih =>
    rw [Nat.succ_add, loop]
    rw [loop] at h
    split at h
    · rename_i s' hturn
      exact ih h
    · exact h

/-- The loop ends with the answer. -/
theorem loop_ends (s : Cursor) (hs : Good pattern value s) :
    ∃ turns r, loop pattern value turns s = some r ∧ (r = true ↔ Matches star pattern value) := by
  rcases turn_spec hs with ⟨s', hturn, hs', hless⟩ | ⟨r, hturn, hr⟩
  · obtain ⟨turns, r, hloop, hr⟩ := loop_ends s' hs'
    exact ⟨turns + 1, r, by rw [loop, hturn]; exact hloop, hr⟩
  · exact ⟨1, r, by rw [loop, hturn], hr⟩
termination_by s.remaining pattern value
decreasing_by exact hless

/-- The bytes of a text. -/
def bytes (text : String) : Bytes := text.toList.flatMap String.utf8EncodeChar

theorem utf8_decides (c d : Char) (x y : Bytes)
    (h : String.utf8EncodeChar c ++ x = String.utf8EncodeChar d ++ y) : c = d ∧ x = y := by
  have hbytes := congrArg List.toByteArray h
  rw [List.toByteArray_append, List.toByteArray_append] at hbytes
  have hdecode := congrArg (fun b => ByteArray.utf8DecodeChar? b 0) hbytes
  simp only [ByteArray.utf8DecodeChar?_utf8EncodeChar_append] at hdecode
  obtain rfl := Option.some.inj hdecode
  exact ⟨rfl, List.append_cancel_left h⟩

/-- UTF-8 as an encoding of characters. -/
theorem utf8_encoding :
    Encoding '*' String.utf8EncodeChar star UInt8.IsUTF8FirstByte := by
  have hstarts : ∀ c : Char, ∃ b rest, String.utf8EncodeChar c = b :: rest ∧
      b.IsUTF8FirstByte ∧ ∀ b' ∈ rest, ¬ b'.IsUTF8FirstByte := by
    intro c
    have hfirst := @UInt8.isUTF8FirstByte_getElem_utf8EncodeChar c
    have hlength : 0 < (String.utf8EncodeChar c).length := by
      rw [String.length_utf8EncodeChar]
      exact c.utf8Size_pos
    cases hcode : String.utf8EncodeChar c with
    | nil => simp [hcode] at hlength
    | cons b rest =>
      simp only [hcode] at hfirst
      refine ⟨b, rest, rfl, (@hfirst 0 (by simp)).mpr rfl, ?_⟩
      intro b' hb' hb
      obtain ⟨i, hi, rfl⟩ := List.getElem_of_mem hb'
      have := (@hfirst (i + 1) (by simpa using hi)).mp hb
      omega
  refine ⟨rfl, ?_, utf8_decides, hstarts⟩
  intro c hc hmem
  obtain ⟨b, rest, hcode, -, hrest⟩ := hstarts c
  rw [hcode] at hmem
  rcases List.mem_cons.mp hmem with rfl | hmem
  · exact hc (utf8_decides c '*' [] rest (by rw [hcode, List.append_nil]; rfl)).1
  · exact hrest star hmem (by decide)

/-- For every pattern and value `Is` ends, and returns whether the value matches: byte by byte, and
for texts also character by character. -/
theorem is_terminates_iff_matches :
    (∀ pattern value : Bytes, ∃ bound r,
      (∀ turns, bound ≤ turns → is pattern value turns = some r) ∧
        (r = true ↔ Matches star pattern value)) ∧
    ∀ pattern value : String, ∃ bound r,
      (∀ turns, bound ≤ turns → is (bytes pattern) (bytes value) turns = some r) ∧
        (r = true ↔ Matches '*' pattern.toList value.toList) := by
  have hbytes : ∀ pattern value : Bytes, ∃ bound r,
      (∀ turns, bound ≤ turns → is pattern value turns = some r) ∧
        (r = true ↔ Matches star pattern value) := by
    intro pattern value
    by_cases heq : pattern = value
    · subst heq
      exact ⟨0, true, fun turns _ => if_pos rfl, by simp [matches_self]⟩
    · obtain ⟨bound, r, hloop, hr⟩ := loop_ends _ (good_start pattern value)
      refine ⟨bound, r, ?_, hr⟩
      intro turns hturns
      obtain ⟨more, rfl⟩ := Nat.exists_eq_add_of_le hturns
      rw [is, if_neg heq]
      exact loop_mono hloop
  refine ⟨hbytes, ?_⟩
  intro pattern value
  obtain ⟨bound, r, hends, hr⟩ := hbytes (bytes pattern) (bytes value)
  exact ⟨bound, r, hends, hr.trans (matches_encoded_iff utf8_encoding)⟩

example : is (bytes "*.example.com") (bytes "www.example.com") 50 = some true ∧
    is (bytes "*.example.com") (bytes "example.com") 50 = some false := by
  decide +kernel

end Fries.Strings
