import Mathlib.Logic.Function.Basic

/-!
Tables that are filled entry by entry, as functions from keys.
-/
namespace Fries.Table

variable {K V : Type} [DecidableEq K] {m : K → Option V}

/-- The table after the entries were written to it in order. -/
def fill : (K → Option V) → List (K × V) → K → Option V
  | m, [] => m
  | m, p :: entries => fill (Function.update m p.1 (some p.2)) entries

theorem mem_of_fill {entries : List (K × V)} {k : K} {v : V} (h : fill m entries k = some v) :
    (k, v) ∈ entries ∨ m k = some v := by
  induction entries generalizing m with
  | nil => exact .inr h
  | cons p entries ih =>
    rcases ih h with hmem | hold
    · exact .inl (List.mem_cons_of_mem p hmem)
    · by_cases heq : k = p.1
      · subst heq
        rw [Function.update_self] at hold
        cases hold
        exact .inl List.mem_cons_self
      · rw [Function.update_of_ne heq] at hold
        exact .inr hold

theorem isSome_fill (m : K → Option V) (entries : List (K × V)) (k : K) :
    (fill m entries k).isSome = true ↔ k ∈ entries.map Prod.fst ∨ (m k).isSome = true := by
  induction entries generalizing m with
  | nil => simp [fill]
  | cons p entries ih =>
    rw [fill, ih, List.map_cons, List.mem_cons]
    by_cases heq : k = p.1 <;> simp [heq]

/-- The table once the entries were added in order; nothing if one of them has another value
under a key that is taken. -/
def extend [DecidableEq V] : (K → Option V) → List (K × V) → Option (K → Option V)
  | m, [] => some m
  | m, p :: entries =>
    match m p.1 with
    | none => extend (Function.update m p.1 (some p.2)) entries
    | some v => if v = p.2 then extend m entries else none

variable [DecidableEq V]

/-- Entries can be added if they agree with the table and with each other. -/
theorem isSome_extend (m : K → Option V) (entries : List (K × V)) :
    (extend m entries).isSome = true ↔ (∀ p ∈ entries, ∀ v, m p.1 = some v → v = p.2) ∧
      entries.Pairwise fun p p' => p.1 = p'.1 → p.2 = p'.2 := by
  induction entries generalizing m with
  | nil => simp [extend]
  | cons p entries ih =>
    rw [extend, List.forall_mem_cons, List.pairwise_cons]
    split
    · rename_i hnone
      -- The new entry only matters for later ones with its key.
      have hstep : ∀ p' : K × V,
          (∀ v, Function.update m p.1 (some p.2) p'.1 = some v → v = p'.2) ↔
            (∀ v, m p'.1 = some v → v = p'.2) ∧ (p.1 = p'.1 → p.2 = p'.2) := by
        intro p'
        by_cases hkey : p'.1 = p.1
        · simp [hkey, hnone]
        · simp [hkey, Ne.symm hkey]
      simp only [ih, hstep, hnone]
      grind
    · rename_i v hsome
      split
      · rename_i heq
        subst heq
        rw [ih]
        grind
      · rename_i hne
        simp [hsome, hne]

end Fries.Table
