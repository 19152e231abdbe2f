import Mathlib.Data.List.Basic

/-!
Binary search for the first index at which a predicate holds.
-/
namespace Fries

/-- The loop of `sort.Search`, for at most `fuel` rounds. -/
def searchLoop (f : Nat → Bool) : Nat → Nat → Nat → Nat
  | 0, i, _ => i
  | fuel + 1, i, j =>
    if i < j then
      let h := (i + j) / 2
      if f h then searchLoop f fuel i h else searchLoop f fuel (h + 1) j
    else i

/-- `sort.Search`. Every round at least halves the interval, so there are fewer than `n`. -/
def search (n : Nat) (f : Nat → Bool) : Nat := searchLoop f n 0 n

/-- An index that divides those below `n` into where a predicate fails and where it holds. -/
structure Divides (n : Nat) (f : Nat → Bool) (r : Nat) : Prop where
  le : r ≤ n
  before : ∀ k < r, f k = false
  after : ∀ k < n, r ≤ k → f k = true

variable {n : Nat} {f : Nat → Bool}

theorem searchLoop_divides (hmono : ∀ k < n, ∀ i ≤ k, f i = true → f k = true) {fuel : Nat} :
    ∀ {i j : Nat}, j - i ≤ fuel → i ≤ j → j ≤ n → (∀ k < i, f k = false) →
      (∀ k < n, j ≤ k → f k = true) → Divides n f (searchLoop f fuel i j) := by
  induction fuel with
  | zero =>
    intro i j hfuel hij hjn hbefore hafter
    obtain rfl : i = j := by omega
    exact ⟨hjn, hbefore, hafter⟩
  | succ fuel ih =>
    intro i j hfuel hij hjn hbefore hafter
    rw [searchLoop]
    split_ifs with hlt
    · -- the midpoint becomes the new end on the side that it decides
      by_cases hmid : f ((i + j) / 2) = true
      · simp only [hmid, if_true]
        refine ih (by omega) (by omega) (by omega) hbefore fun k hk hle => ?_
        exact hmono k hk _ hle hmid
      · simp only [hmid]
        refine ih (by omega) (by omega) hjn (fun k hk => ?_) hafter
        by_contra hne
        exact hmid (hmono _ (by omega) k (by omega) (by simpa using hne))
    · obtain rfl : i = j := by omega
      exact ⟨hjn, hbefore, hafter⟩

theorem search_divides (hmono : ∀ k < n, ∀ i ≤ k, f i = true → f k = true) :
    Divides n f (search n f) :=
  searchLoop_divides hmono (by omega) (by omega) (by omega) (fun k hk => absurd hk (by omega))
    fun k hk hle => absurd hk (by omega)

/-- In a list that a predicate divides, what is left from the found index on is where it holds. -/
theorem drop_search {α : Type} {p : α → Bool} {l : List α}
    (hmono : l.Pairwise fun a b => p a = true → p b = true) :
    l.drop (search l.length fun i => l[i]?.any p) = l.filter p := by
  have hdiv : Divides l.length (fun i => l[i]?.any p) (search l.length fun i => l[i]?.any p) := by
    refine search_divides fun k hk i hik hi => ?_
    rcases Nat.lt_or_eq_of_le hik with hlt | rfl
    · have hpair := List.pairwise_iff_getElem.mp hmono i k (by omega) hk hlt
      have hi' : p l[i] = true := by simpa [List.getElem?_eq_getElem (by omega : i < l.length)] using hi
      simpa [List.getElem?_eq_getElem hk] using hpair hi'
    · exact hi
  generalize (search l.length fun i => l[i]?.any p) = r at hdiv ⊢
  have hbefore : (l.take r).filter p = [] := by
    rw [List.filter_eq_nil_iff]
    intro a ha
    obtain ⟨i, hi, rfl⟩ := List.mem_iff_getElem.mp ha
    have hlt : i < l.length := by simp at hi; omega
    have hfalse := hdiv.before i (by simp at hi; omega)
    simpa [List.getElem?_eq_getElem hlt] using hfalse
  have hafter : (l.drop r).filter p = l.drop r := by
    rw [List.filter_eq_self]
    intro a ha
    obtain ⟨i, hi, rfl⟩ := List.mem_iff_getElem.mp ha
    have hlt : r + i < l.length := by simp at hi; omega
    have htrue := hdiv.after (r + i) hlt (by omega)
    simpa [List.getElem?_eq_getElem hlt] using htrue
  calc l.drop r = (l.take r).filter p ++ (l.drop r).filter p := by rw [hbefore, hafter]; rfl
    _ = l.filter p := by rw [← List.filter_append, List.take_append_drop]

end Fries
