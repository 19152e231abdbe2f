import Mathlib.Logic.Function.Basic
import Mathlib.Data.Int.Order.Basic

/-! Tables whose entries carry the instant they expire. -/
namespace Fries

/-- Values with the instant from which they no longer count. -/
abbrev Keyspace (K V : Type) := K → Option (V × Int)

namespace Keyspace

variable {K V : Type} {ks ks' : Keyspace K V} {k j : K} {v : V} {now later deadline : Int}

/-- The entries that have not expired. -/
def live (now : Int) (ks : Keyspace K V) : Keyspace K V :=
  fun k => (ks k).filter fun e => now < e.2

theorem live_eq_some {e : V × Int} : live now ks k = some e ↔ ks k = some e ∧ now < e.2 := by
  simp [live, Option.filter_eq_some_iff]

/-- What has expired earlier stays expired. -/
theorem live_live (h : now ≤ later) : live later (live now ks) = live later ks := by
  funext k
  simp only [live]
  cases hk : ks k with
  | none => rfl
  | some e =>
    by_cases he : now < e.2
    · simp [Option.filter, he]
    · simp [Option.filter, he, show ¬ later < e.2 by omega]

theorem live_congr (h : now ≤ later) (he : live now ks = live now ks') :
    live later ks = live later ks' := by
  rw [← live_live h, he, live_live h]

/-- No entry expires exactly at `now`. -/
def Off (now : Int) (ks : Keyspace K V) : Prop := ∀ k e, ks k = some e → e.2 ≠ now

/-- Tables alike from `now` on expire at the same later instants. -/
theorem off_congr (h : now < later) (he : live now ks = live now ks') (hs : Off later ks) :
    Off later ks' := by
  intro k e hk hlater
  have hlive : live now ks k = some e := by
    rw [he]
    exact live_eq_some.mpr ⟨hk, by omega⟩
  exact hs k e (live_eq_some.mp hlive).1 hlater

variable [DecidableEq K]

theorem live_update (e : Option (V × Int)) : live now (Function.update ks k e) =
    Function.update (live now ks) k (e.filter fun e => now < e.2) := by
  funext j
  by_cases hj : j = k
  · subst j
    simp [live]
  · simp [live, hj]

theorem live_put (h : now < deadline) :
    live now (Function.update ks k (some (v, deadline))) =
      Function.update (live now ks) k (some (v, deadline)) := by
  rw [live_update]
  simp [Option.filter, h]

theorem live_del : live now (Function.update ks k none) = Function.update (live now ks) k none :=
  live_update none

theorem off_update {e : Option (V × Int)} (hs : Off now ks) (he : ∀ f, e = some f → f.2 ≠ now) :
    Off now (Function.update ks k e) := by
  intro j f hf
  by_cases hj : j = k
  · subst j
    exact he f (by simpa using hf)
  · exact hs j f (by simpa [hj] using hf)

theorem off_put (hs : Off now ks) (h : deadline ≠ now) :
    Off now (Function.update ks k (some (v, deadline))) := by
  refine off_update hs ?_
  rintro e ⟨⟩
  exact h

end Keyspace

end Fries
