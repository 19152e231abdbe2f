import Mathlib.Data.List.Infix

/-! Patterns with one wildcard, which stands for any sequence of symbols. -/
namespace Fries.Wildcard

variable {α : Type} {star c : α} {pattern value seg : List α}

/-- The value is split so that each symbol other than the wildcard matches itself, and each
wildcard the symbols it takes. -/
inductive Matches (star : α) : List α → List α → Prop
  | nil : Matches star [] []
  | literal {c : α} {pattern value : List α} (hc : c ≠ star) (h : Matches star pattern value) :
    Matches star (c :: pattern) (c :: value)
  | star (taken : List α) {pattern value : List α} (h : Matches star pattern value) :
    Matches star (star :: pattern) (taken ++ value)

theorem matches_nil_iff : Matches star [] value ↔ value = [] := by
  constructor
  · intro h
    cases h
    rfl
  · rintro rfl
    exact .nil

theorem matches_literal_iff (hc : c ≠ star) :
    Matches star (c :: pattern) value ↔ ∃ rest, value = c :: rest ∧ Matches star pattern rest := by
  constructor
  · intro h
    cases h with
    | literal _ h => exact ⟨_, rfl, h⟩
    | star => exact absurd rfl hc
  · rintro ⟨rest, rfl, h⟩
    exact .literal hc h

theorem matches_star_iff :
    Matches star (star :: pattern) value ↔ ∃ rest, rest <:+ value ∧ Matches star pattern rest := by
  constructor
  · intro h
    cases h with
    | literal hc _ => exact absurd rfl hc
    | star taken h => exact ⟨_, ⟨taken, rfl⟩, h⟩
  · rintro ⟨rest, ⟨taken, rfl⟩, h⟩
    exact .star taken h

/-- A wildcard can take more. -/
theorem matches_star_mono {value' : List α} (hsuffix : value <:+ value')
    (h : Matches star (star :: pattern) value) : Matches star (star :: pattern) value' := by
  obtain ⟨rest, hrest, h⟩ := matches_star_iff.mp h
  exact matches_star_iff.mpr ⟨rest, hrest.trans hsuffix, h⟩

/-- A segment without wildcards matches itself and nothing else. -/
theorem matches_segment_iff (hseg : star ∉ seg) :
    Matches star (seg ++ pattern) value ↔
      ∃ rest, value = seg ++ rest ∧ Matches star pattern rest := by
  induction seg generalizing value with
  | nil => simp
  | cons c seg ih =>
    have hc : c ≠ star := fun h => hseg (h ▸ List.mem_cons_self)
    rw [List.cons_append, matches_literal_iff hc]
    simp only [ih fun h => hseg (List.mem_cons_of_mem c h)]
    constructor
    · rintro ⟨rest, rfl, rest', rfl, h⟩
      exact ⟨rest', rfl, h⟩
    · rintro ⟨rest, rfl, h⟩
      exact ⟨seg ++ rest, rfl, rest, rfl, h⟩

/-- Wildcards alone match nothing at all. -/
theorem matches_empty_iff : Matches star pattern [] ↔ ∀ c ∈ pattern, c = star := by
  induction pattern with
  | nil => simp [matches_nil_iff]
  | cons c pattern ih =>
    by_cases hc : c = star
    · subst hc
      simp [matches_star_iff, ih]
    · simp [matches_literal_iff hc, hc]

/-- A pattern matches itself. -/
theorem matches_self (pattern : List α) : Matches star pattern pattern := by
  induction pattern with
  | nil => exact .nil
  | cons c pattern ih =>
    by_cases hc : c = star
    · subst hc
      exact .star [c] ih
    · exact .literal hc ih

section Encoded

variable {β : Type} {encode : α → List β} {mark : β} {first : β → Prop}

/-- What is known of an encoding: the wildcard is a symbol of its own, no other symbol contains
it, a beginning decides a symbol, and only the first part of a symbol looks like one. -/
structure Encoding (star : α) (encode : α → List β) (mark : β) (first : β → Prop) : Prop where
  wildcard : encode star = [mark]
  plain : ∀ c, c ≠ star → mark ∉ encode c
  decides : ∀ c d x y, encode c ++ x = encode d ++ y → c = d ∧ x = y
  starts : ∀ c, ∃ b rest, encode c = b :: rest ∧ first b ∧ ∀ b' ∈ rest, ¬ first b'

variable (he : Encoding star encode mark first)

include he

/-- What follows a place where a symbol seems to start is made of symbols. -/
theorem suffix_of_first {b : β} {rest : List β} (hb : first b)
    (h : b :: rest <:+ value.flatMap encode) :
    ∃ value', value' <:+ value ∧ b :: rest = value'.flatMap encode := by
  induction value with
  | nil =>
    obtain ⟨before, h⟩ := h
    simp at h
  | cons c value ih =>
    obtain ⟨before, h⟩ := h
    rw [List.flatMap_cons] at h
    rcases List.append_eq_append_iff.mp h with ⟨m, hc, hrest⟩ | ⟨m, -, hrest⟩
    · obtain ⟨b₀, tail, hcode, -, htail⟩ := he.starts c
      cases m with
      | nil => exact ⟨value, List.suffix_cons c value, hrest⟩
      | cons x m =>
        obtain ⟨rfl, -⟩ := List.cons.inj hrest
        cases before with
        | nil => exact ⟨c :: value, List.suffix_refl _, h⟩
        | cons y before =>
          -- The place is inside of a symbol, where none seems to start.
          obtain ⟨-, rfl⟩ := List.cons.inj (hcode.symm.trans hc)
          exact absurd hb (htail b (by simp))
    · obtain ⟨value', hsuffix, heq⟩ := ih ⟨m, hrest.symm⟩
      exact ⟨value', hsuffix.trans (List.suffix_cons c value), heq⟩

theorem flatMap_eq_nil (h : value.flatMap encode = []) : value = [] := by
  cases value with
  | nil => rfl
  | cons c value =>
    obtain ⟨b, rest, hcode, -⟩ := he.starts c
    simp [hcode] at h

theorem matches_of_encoded :
    ∀ value, Matches mark (pattern.flatMap encode) (value.flatMap encode) →
      Matches star pattern value := by
  induction pattern with
  | nil =>
    intro value h
    rw [flatMap_eq_nil he (matches_nil_iff.mp h)]
    exact .nil
  | cons c pattern ih =>
    intro value h
    by_cases hc : c = star
    · subst hc
      rw [List.flatMap_cons, he.wildcard, List.singleton_append] at h
      obtain ⟨rest, hsuffix, hrest⟩ := matches_star_iff.mp h
      -- The wildcard may end inside of a symbol only if another one follows.
      cases pattern with
      | nil =>
        rw [← List.append_nil value]
        exact .star value .nil
      | cons d pattern =>
        by_cases hd : d = c
        · subst hd
          rw [List.flatMap_cons, he.wildcard, List.singleton_append] at hrest ih
          exact .star [] (ih value (matches_star_mono hsuffix hrest))
        · obtain ⟨b, tail, hcode, hb, -⟩ := he.starts d
          have hsegment := hrest
          rw [List.flatMap_cons, matches_segment_iff (he.plain d hd)] at hsegment
          obtain ⟨rest', rfl, -⟩ := hsegment
          rw [hcode, List.cons_append] at hsuffix
          obtain ⟨value', hvalue, heq⟩ := suffix_of_first he hb hsuffix
          rw [hcode, List.cons_append, heq] at hrest
          exact matches_star_iff.mpr ⟨value', hvalue, ih value' hrest⟩
    · rw [List.flatMap_cons, matches_segment_iff (he.plain c hc)] at h
      obtain ⟨rest, hvalue, hrest⟩ := h
      cases value with
      | nil =>
        obtain ⟨b, tail, hcode, -⟩ := he.starts c
        simp [hcode] at hvalue
      | cons d value =>
        obtain ⟨rfl, rfl⟩ := he.decides d c _ _ hvalue
        exact .literal hc (ih value hrest)

theorem matches_encoded (h : Matches star pattern value) :
    Matches mark (pattern.flatMap encode) (value.flatMap encode) := by
  induction h with
  | nil => exact .nil
  | literal hc h ih =>
    rw [List.flatMap_cons, List.flatMap_cons]
    exact (matches_segment_iff (he.plain _ hc)).mpr ⟨_, rfl, ih⟩
  | star taken h ih =>
    rw [List.flatMap_cons, he.wildcard, List.flatMap_append]
    exact .star _ ih

/-- Matching can be decided on the encoded texts. -/
theorem matches_encoded_iff :
    Matches mark (pattern.flatMap encode) (value.flatMap encode) ↔ Matches star pattern value :=
  ⟨matches_of_encoded he value, matches_encoded he⟩

end Encoded

end Fries.Wildcard
