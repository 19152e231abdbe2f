import Fries.Lib.Program

/-! Traces of programs: their commands in order, each with the response it got. -/
namespace Fries.Prog

variable {C α β : Type} {R : C → Type} {p q : Prog C R α} {f : α → Prog C R β}
  {t : List ((c : C) × R c)} {a : α} {c : C} {b : β}

/-- After the trace, `q` is left to do. -/
inductive Runs : Prog C R α → List ((c : C) × R c) → Prog C R α → Prop
  | done (p : Prog C R α) : Runs p [] p
  | step {c : C} {k : R c → Prog C R α} (r : R c) {t : List ((c : C) × R c)} {q : Prog C R α}
    (h : Runs (k r) t q) : Runs (call c k) (⟨c, r⟩ :: t) q

theorem runs_ret {b : α} (h : Runs (ret a) t (ret b)) : t = [] ∧ a = b := by
  cases h
  exact ⟨rfl, rfl⟩

theorem runs_call {k : R c → Prog C R α} (h : Runs (call c k) t (ret a)) :
    ∃ r t', t = ⟨c, r⟩ :: t' ∧ Runs (k r) t' (ret a) := by
  cases h with
  | step r h => exact ⟨r, _, rfl, h⟩

/-- A sequence that is over has a trace of each part. -/
theorem runs_bind (h : Runs (p >>= f) t (ret b)) :
    ∃ t₁ t₂ a, t = t₁ ++ t₂ ∧ Runs p t₁ (ret a) ∧ Runs (f a) t₂ (ret b) := by
  induction p generalizing t with
  | ret a => exact ⟨[], t, a, rfl, .done _, h⟩
  | call c k ih =>
    obtain ⟨r, t', rfl, h'⟩ := runs_call h
    obtain ⟨t₁, t₂, a, rfl, hp, hf⟩ := ih r h'
    exact ⟨⟨c, r⟩ :: t₁, t₂, a, rfl, .step r hp, hf⟩

theorem runs_single {r : R c} (h : Runs (call c ret) t (ret r)) : t = [⟨c, r⟩] := by
  obtain ⟨r', t', rfl, hend⟩ := runs_call h
  obtain ⟨rfl, rfl⟩ := runs_ret hend
  rfl

theorem runs_only {P : C → Prop} (hp : p.Only P) (h : Runs p t q) : ∀ e ∈ t, P e.1 := by
  induction h with
  | done => simp
  | step r _ ih =>
    intro e he
    rcases List.mem_cons.mp he with rfl | he
    · exact hp.1
    · exact ih (hp.2 r) e he

/-- A program that always gets some response can be run to its end. -/
theorem runs_extend (hR : ∀ c, Nonempty (R c)) (h : Runs p t q) :
    ∃ t' a, Runs p (t ++ t') (ret a) := by
  induction h with
  | done p =>
    induction p with
    | ret a => exact ⟨[], a, .done _⟩
    | call c k ih =>
      obtain ⟨r⟩ := hR c
      obtain ⟨t', a, h⟩ := ih r
      exact ⟨⟨c, r⟩ :: t', a, .step r h⟩
  | step r _ ih =>
    obtain ⟨t', a, h⟩ := ih
    exact ⟨t', a, .step r h⟩

end Fries.Prog
