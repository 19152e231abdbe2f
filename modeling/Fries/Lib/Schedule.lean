import Fries.Lib.Threads

/-! Infinite schedules of a system of threads, and fairness. -/
namespace Fries.System

variable {W L ι ε κ : Type} {S : System W L ι ε κ} {c : Crew W L} {σ : Nat → Action ι ε κ}
  {i j : Nat} {label : ι}

/-- The state after the first `n` actions of a schedule. -/
def after (S : System W L ι ε κ) (c : Crew W L) (σ : Nat → Action ι ε κ) : Nat → Crew W L
  | 0 => c
  | n + 1 => S.next (S.after c σ n) (σ n)

theorem after_eq_run (n : Nat) : S.after c σ n = S.run c ((List.range n).map σ) := by
  induction n with
  | zero => rfl
  | succ n ih =>
    rw [List.range_succ, List.map_append, run_append, ← ih]
    rfl

theorem Outline.holds_after {O : S.Outline} (h : O.Holds c) (n : Nat) :
    O.Holds (S.after c σ n) := by
  rw [after_eq_run]
  exact Outline.holds_run h _

/-- The thread takes a step with this label. -/
def Steps (S : System W L ι ε κ) (c : Crew W L) (i : Nat) (label : ι) : Prop :=
  ∃ l n, c.threads[i]? = some l ∧ S.step i label l c.world = some n

/-- Weak fairness: from any moment on, the thread is scheduled for a step it can take or is
blocked at some point. -/
def Fair (S : System W L ι ε κ) (c : Crew W L) (σ : Nat → Action ι ε κ) (i : Nat) : Prop :=
  ∀ n, ∃ m, n ≤ m ∧ ((∃ label, σ m = .run i label ∧ S.Steps (S.after c σ m) i label) ∨
    ∀ label, ¬ S.Steps (S.after c σ m) i label)

/-- A schedule that goes on with a thread is fair if by then no thread can take a step. -/
theorem fair_of_halted {k : Nat} (hσ : ∀ n, k ≤ n → σ n = .run j label)
    (hhalted : ∀ i l label, (S.after c σ k).threads[i]? = some l →
      S.step i label l (S.after c σ k).world = none) : S.Fair c σ i := by
  have hstays : ∀ d, S.after c σ (k + d) = S.after c σ k := by
    intro d
    induction d with
    | zero => rfl
    | succ d ih =>
      have hnext : S.after c σ (k + d + 1) = S.next (S.after c σ k) (.run j label) := by
        rw [← ih, ← hσ (k + d) (Nat.le_add_right k d)]
        rfl
      rw [← Nat.add_assoc, hnext, next]
      split
      · rfl
      · rename_i l hl
        rw [hhalted j l label hl]
  intro n
  refine ⟨k + n, Nat.le_add_left n k, .inr ?_⟩
  rintro label ⟨l, p, hl, hp⟩
  rw [hstays] at hl hp
  cases (hhalted i l label hl).symm.trans hp

/-- The schedule that follows a list of actions and goes on with a thread is fair if after the list
no thread can ever take a step. -/
theorem fair_getD {actions : List (Action ι ε κ)}
    (hhalted : ∀ l ∈ (S.run c actions).threads, ∀ i label w, S.step i label l w = none) (i : Nat) :
    S.Fair c (fun n => actions.getD n (.run j label)) i := by
  have hrun : S.after c (fun n => actions.getD n (.run j label)) actions.length =
      S.run c actions := by
    rw [after_eq_run]
    congr 1
    refine List.ext_getElem? fun n => ?_
    by_cases hn : n < actions.length
    · simp [hn, List.getD_eq_getElem?_getD]
    · simp [hn]
  have hσ : ∀ n, actions.length ≤ n → actions.getD n (.run j label) = .run j label := by
    intro n hn
    simp [List.getD_eq_getElem?_getD, List.getElem?_eq_none hn]
  refine fair_of_halted hσ ?_
  rw [hrun]
  intro i l label hl
  exact hhalted l (List.mem_of_getElem? hl) i label _

variable {P Q : Crew W L → Prop} {rank : Crew W L → Nat} {n : Nat}

/-- What is kept until `Q` holds is kept up to any later moment, or `Q` held before. -/
theorem kept_until
    (hkeep : ∀ c a, P c → Q (S.next c a) ∨ P (S.next c a) ∧ rank (S.next c a) ≤ rank c)
    (hn : P (S.after c σ n)) (d : Nat) : (∃ m, n ≤ m ∧ Q (S.after c σ m)) ∨
      P (S.after c σ (n + d)) ∧ rank (S.after c σ (n + d)) ≤ rank (S.after c σ n) := by
  induction d with
  | zero => exact .inr ⟨hn, Nat.le_refl _⟩
  | succ d ih =>
    rcases ih with hq | ⟨hp, hle⟩
    · exact .inl hq
    · rcases hkeep _ (σ (n + d)) hp with hq | ⟨hp', hle'⟩
      · exact .inl ⟨n + d + 1, by omega, hq⟩
      · exact .inr ⟨hp', Nat.le_trans hle' hle⟩

/-- While `P` holds a fair thread is not blocked, brings a rank down with each of its steps,
and nobody raises the rank: then `Q` holds in the end. -/
theorem eventually_of_fair (rank : Crew W L → Nat) (hfair : S.Fair c σ i)
    (henabled : ∀ c, P c → ∃ label, S.Steps c i label)
    (hkeep : ∀ c a, P c → Q (S.next c a) ∨ P (S.next c a) ∧ rank (S.next c a) ≤ rank c)
    (hown : ∀ c label, P c → S.Steps c i label → Q (S.next c (.run i label)) ∨
      P (S.next c (.run i label)) ∧ rank (S.next c (.run i label)) < rank c)
    (hn : P (S.after c σ n)) : ∃ m, n ≤ m ∧ Q (S.after c σ m) := by
  -- induction on a bound of the rank: the next step of the thread brings it down
  suffices hbound : ∀ k n, P (S.after c σ n) → rank (S.after c σ n) < k →
      ∃ m, n ≤ m ∧ Q (S.after c σ m) from hbound _ n hn (Nat.lt_succ_self _)
  intro k
  induction k with
  | zero =>
    intro n _ hlt
    omega
  | succ k ih =>
    intro n hn hlt
    obtain ⟨m, hm, hnext⟩ := hfair n
    obtain ⟨d, rfl⟩ := Nat.exists_eq_add_of_le hm
    rcases kept_until hkeep hn d with hq | ⟨hp, hle⟩
    · exact hq
    · rcases hnext with ⟨label, hlabel, hsteps⟩ | hblocked
      · have hafter : S.after c σ (n + d + 1) = S.next (S.after c σ (n + d)) (.run i label) :=
          congrArg (S.next _) hlabel
        rcases hown _ label hp hsteps with hq | ⟨hp', hlt'⟩
        · exact ⟨n + d + 1, by omega, hafter ▸ hq⟩
        · rw [← hafter] at hp' hlt'
          obtain ⟨m, hm, hq⟩ := ih (n + d + 1) hp' (by omega)
          exact ⟨m, by omega, hq⟩
      · obtain ⟨label, hsteps⟩ := henabled _ hp
        exact absurd hsteps (hblocked label)

namespace Outline

variable {O : S.Outline} {l : L}

/-- Where thread `j` is, with a rank of its local state and the world. -/
def rankOf (j : Nat) (rank : L → W → Nat) (c : Crew W L) : Nat :=
  match c.threads[j]? with
  | some l => rank l c.world
  | none => 0

theorem rankOf_eq {rank : L → W → Nat} (hl : c.threads[j]? = some l) :
    rankOf j rank c = rank l c.world := by
  simp [rankOf, hl]

/-- The rule for one fair thread: while `P` holds of it, it is not blocked and its steps bring
the rank down, and what the others do neither raises the rank nor ends `P` before `Q` holds. -/
theorem eventually (P Q : L → W → Prop) (rank : L → W → Nat) (hinit : O.Holds c)
    (hfair : S.Fair c σ j)
    (henabled : ∀ l w, O.Inv w → O.At j l w → P l w → ∃ label n, S.step j label l w = some n)
    (hown : ∀ {label l w n}, S.step j label l w = some n → O.Inv w → O.At j l w →
      (∀ k, O.weight k l ≤ O.count k w) → P l w →
      Q n.state n.world ∨ P n.state n.world ∧ rank n.state n.world < rank l w)
    (hothers : ∀ {i label m l w n}, S.step i label m w = some n → O.Inv w → O.At i m w →
      (∀ k, O.weight k m ≤ O.count k w) → P l w →
      Q l n.world ∨ P l n.world ∧ rank l n.world ≤ rank l w)
    (hshift : ∀ e l w, P l w → P l (S.shift e w) ∧ rank l (S.shift e w) ≤ rank l w)
    (hl : (S.after c σ n).threads[j]? = some l) (hP : P l (S.after c σ n).world) :
    ∃ m, n ≤ m ∧ ∃ l, (S.after c σ m).threads[j]? = some l ∧ Q l (S.after c σ m).world := by
  let P' (c : Crew W L) : Prop := O.Holds c ∧ ∃ l, c.threads[j]? = some l ∧ P l c.world
  let Q' (c : Crew W L) : Prop := ∃ l, c.threads[j]? = some l ∧ Q l c.world
  have hsame : ∀ {c c' : Crew W L} {l : L}, O.Holds c' → c.threads[j]? = some l →
      c'.threads[j]? = some l → P l c'.world ∧ rank l c'.world ≤ rank l c.world →
      P' c' ∧ rankOf j rank c' ≤ rankOf j rank c := by
    rintro c c' l hholds hl hl' ⟨hP, hle⟩
    rw [rankOf_eq hl, rankOf_eq hl']
    exact ⟨⟨hholds, l, hl', hP⟩, hle⟩
  have hstep : ∀ c label, P' c → S.Steps c j label → Q' (S.next c (.run j label)) ∨
      P' (S.next c (.run j label)) ∧
        rankOf j rank (S.next c (.run j label)) < rankOf j rank c := by
    rintro c label ⟨hholds, l, hl, hP⟩ ⟨l', n, hl', hn⟩
    rw [hl] at hl'
    cases hl'
    have hnext : S.next c (.run j label) =
        ⟨n.world, c.threads.set j n.state ++ n.started.toList⟩ := by
      simp only [next, hl, hn]
    have hthread := threads_step (i := j) (l := n.state) hl n.started.toList
    rw [if_pos rfl] at hthread
    rcases hown hn hholds.inv (hholds.at_thread j l hl) (weight_le hholds hl) hP with
      hq | ⟨hP', hlt⟩
    · exact .inl (hnext ▸ ⟨n.state, hthread, hq⟩)
    · rw [hnext, rankOf_eq hl, rankOf_eq hthread]
      exact .inr ⟨⟨holds_step hholds hl hn, n.state, hthread, hP'⟩, hlt⟩
  refine eventually_of_fair (P := P') (Q := Q') (rankOf j rank) hfair ?_ ?_ hstep
    ⟨holds_after hinit n, l, hl, hP⟩
  · rintro c ⟨hholds, l, hl, hP⟩
    obtain ⟨label, n, hn⟩ := henabled l c.world hholds.inv (hholds.at_thread j l hl) hP
    exact ⟨label, l, n, hl, hn⟩
  · rintro c a hc
    obtain ⟨hholds, l, hl, hP⟩ := hc
    have hholds' := holds_next hholds a
    have hnexts := S.nexts_next c a
    generalize hc' : S.next c a = c' at hholds' hnexts ⊢
    cases hnexts with
    | spawn call =>
      refine .inr (hsame hholds' hl ?_ ⟨hP, Nat.le_refl _⟩)
      rw [List.getElem?_append_left (List.getElem?_eq_some_iff.mp hl).1]
      exact hl
    | shift e => exact .inr (hsame hholds' hl hl (hshift e l c.world hP))
    | idle => exact .inr ⟨⟨hholds, l, hl, hP⟩, Nat.le_refl _⟩
    | step hm hn =>
      rename_i i label m n
      by_cases hij : i = j
      · subst hij
        rcases hstep c label ⟨hholds, l, hl, hP⟩ ⟨m, n, hm, hn⟩ with hq | ⟨hP', hlt⟩
        · exact .inl (hc' ▸ hq)
        · exact .inr (hc' ▸ ⟨hP', Nat.le_of_lt hlt⟩)
      · have hthread := threads_step (i := i) (l := n.state) hl n.started.toList
        rw [if_neg hij] at hthread
        rcases hothers hn hholds.inv (hholds.at_thread i m hm) (weight_le hholds hm) hP with
          hq | hkept
        · exact .inl ⟨l, hthread, hq⟩
        · exact .inr (hsame hholds' hl hthread hkept)

/-- The rule for a part of the threads: while `P` holds, each step of theirs brings a measure down,
nothing else raises it or blocks one of them, and one of them can take a step. Then it is done in
the end. -/
theorem drains (P : W → Prop) (done : Crew W L → Prop) (mine : L → Prop) (left : L → Nat)
    (work : W → Nat) (hinit : O.Holds c) (hfair : ∀ i, S.Fair c σ i)
    (hkeep : ∀ {i label l w n}, S.step i label l w = some n → O.Inv w → O.At i l w → P w →
      P n.world) (hkeep_shift : ∀ e w, P w → P (S.shift e w))
    (hcall : ∀ call w, left (S.enter call w) = 0)
    (hmine : ∀ {i label l w n}, S.step i label l w = some n → O.Inv w → O.At i l w →
      (∀ k, O.weight k l ≤ O.count k w) → P w → mine l →
      left n.state + total left n.started.toList + work n.world < left l + work w)
    (hothers : ∀ {i label l w n}, S.step i label l w = some n → O.Inv w → O.At i l w →
      (∀ k, O.weight k l ≤ O.count k w) → P w → ¬ mine l →
      left n.state + total left n.started.toList + work n.world ≤ left l + work w ∧
      ∀ {j m}, mine m → i ≠ j → (∃ label p, S.step j label m w = some p) →
        ∃ label p, S.step j label m n.world = some p) (hshift : ∀ e w, work (S.shift e w) ≤ work w)
    (hopen : ∀ {e i label l w n}, S.step i label l w = some n →
      ∃ label n, S.step i label l (S.shift e w) = some n)
    (hlive : ∀ c, O.Holds c → P c.world → ¬ done c →
      ∃ i l label n, c.threads[i]? = some l ∧ mine l ∧ S.step i label l c.world = some n)
    (hn : P (S.after c σ n).world) : ∃ m, n ≤ m ∧ done (S.after c σ m) := by
  let measure (c : Crew W L) : Nat := total left c.threads + work c.world
  have hafter : ∀ {c : Crew W L} {i : Nat} {l : L} {p : Progress W L}, c.threads[i]? = some l →
      measure ⟨p.world, c.threads.set i p.state ++ p.started.toList⟩ + left l + work c.world =
        measure c + (left p.state + total left p.started.toList + work p.world) := by
    intro c i l p hl
    have hset := total_set left hl p.state
    simp only [measure, total_append]
    omega
  -- a thread of the part that can step still can after any action, unless the measure is down
  have hnext : ∀ c a i l, O.Holds c → P c.world → c.threads[i]? = some l → mine l →
      (∃ label p, S.step i label l c.world = some p) →
      P (S.next c a).world ∧ (measure (S.next c a) < measure c ∨
        measure (S.next c a) ≤ measure c ∧ (S.next c a).threads[i]? = some l ∧
        ∃ label p, S.step i label l (S.next c a).world = some p) := by
    intro c a i l hholds hP hl hi henabled
    have hnexts := S.nexts_next c a
    generalize S.next c a = c' at hnexts ⊢
    cases hnexts with
    | spawn call =>
      refine ⟨hP, .inr ⟨?_, ?_, henabled⟩⟩
      · simp only [measure, total_append, total, hcall]
        omega
      · rw [List.getElem?_append_left (List.getElem?_eq_some_iff.mp hl).1]
        exact hl
    | shift e =>
      obtain ⟨label, p, hp⟩ := henabled
      exact ⟨hkeep_shift e _ hP, .inr ⟨Nat.add_le_add_left (hshift e _) _, hl, hopen hp⟩⟩
    | idle => exact ⟨hP, .inr ⟨Nat.le_refl _, hl, henabled⟩⟩
    | step hm hp =>
      rename_i j label m p
      have hat := hholds.at_thread j m hm
      have hcount := weight_le hholds hm
      have hmeasure := hafter (p := p) hm
      refine ⟨hkeep hp hholds.inv hat hP, ?_⟩
      by_cases hj : mine m
      · have hless := hmine hp hholds.inv hat hcount hP hj
        exact .inl (by omega)
      · obtain ⟨hle, hstays⟩ := hothers hp hholds.inv hat hcount hP hj
        have hij : j ≠ i := by
          rintro rfl
          rw [hl] at hm
          cases hm
          exact hj hi
        refine .inr ⟨by omega, ?_, hstays hi hij henabled⟩
        have hthread := threads_step (i := j) (l := p.state) hl p.started.toList
        rwa [if_neg hij] at hthread
  -- induction on a bound of the measure: whoever can step now does, or somebody else has before
  suffices hbound : ∀ k n, P (S.after c σ n).world → measure (S.after c σ n) < k →
      ∃ m, n ≤ m ∧ done (S.after c σ m) from hbound _ n hn (Nat.lt_succ_self _)
  intro k
  induction k with
  | zero =>
    intro n _ hlt
    omega
  | succ k ih =>
    intro n hP hlt
    by_cases hdone : done (S.after c σ n)
    · exact ⟨n, Nat.le_refl n, hdone⟩
    obtain ⟨i, l, label, p, hl, hi, hp⟩ := hlive _ (holds_after hinit n) hP hdone
    let P' (c : Crew W L) : Prop := O.Holds c ∧ P c.world ∧ measure c < k + 1 ∧
      c.threads[i]? = some l ∧ ∃ label p, S.step i label l c.world = some p
    let Q (c : Crew W L) : Prop := P c.world ∧ measure c < k
    obtain ⟨m, hm, hPm, hless⟩ : ∃ m, n ≤ m ∧ Q (S.after c σ m) := by
      refine eventually_of_fair (P := P') (Q := Q) (fun _ => 0) (hfair i) ?_ ?_ ?_
        ⟨holds_after hinit n, hP, hlt, hl, label, p, hp⟩
      · rintro c ⟨-, -, -, hl, label, p, hp⟩
        exact ⟨label, l, p, hl, hp⟩
      · rintro c a ⟨hholds, hP, hlt, hl, henabled⟩
        obtain ⟨hP', hless | ⟨hle, hl', henabled'⟩⟩ := hnext c a i l hholds hP hl hi henabled
        · exact .inl ⟨hP', by omega⟩
        · exact .inr ⟨⟨holds_next hholds a, hP', by omega, hl', henabled'⟩, Nat.le_refl _⟩
      · rintro c label ⟨hholds, hP, hlt, hl, -⟩ ⟨l', p, hl', hp⟩
        rw [hl] at hl'
        cases hl'
        have hat := hholds.at_thread i l hl
        have hless := hmine hp hholds.inv hat (weight_le hholds hl) hP hi
        have hmeasure := hafter (p := p) hl
        have hstep : S.next c (.run i label) =
            ⟨p.world, c.threads.set i p.state ++ p.started.toList⟩ := by
          simp only [next, hl, hp]
        refine .inl ⟨?_, ?_⟩
        · rw [hstep]
          exact hkeep hp hholds.inv hat hP
        · rw [hstep]
          omega
    obtain ⟨m', hm', hdone'⟩ := ih m hPm hless
    exact ⟨m', Nat.le_trans hm hm', hdone'⟩

/-- The rule for a system that nobody calls any more: every step brings a measure down, nothing
else raises it or blocks a thread, and some thread can take a step. Then it is done in the end. -/
theorem terminates (done : Crew W L → Prop) (left : L → Nat) (work : W → Nat) (hinit : O.Holds c)
    (hfair : ∀ i, S.Fair c σ i) (hcall : κ → False)
    (hstep : ∀ {i label l w n}, S.step i label l w = some n → O.Inv w → O.At i l w →
      (∀ k, O.weight k l ≤ O.count k w) →
      left n.state + total left n.started.toList + work n.world < left l + work w)
    (hshift : ∀ e w, work (S.shift e w) ≤ work w)
    (hopen : ∀ {e i label l w n}, S.step i label l w = some n →
      ∃ label n, S.step i label l (S.shift e w) = some n)
    (hlive : ∀ c, O.Holds c → ¬ done c → ∃ i label, S.Steps c i label) (n : Nat) :
    ∃ m, n ≤ m ∧ done (S.after c σ m) := by
  refine drains (fun _ => True) done (fun _ => True) left work hinit hfair
    (fun _ _ _ _ => trivial) (fun _ _ _ => trivial) (fun call => (hcall call).elim)
    (fun h hinv hat hcount _ _ => hstep h hinv hat hcount)
    (fun _ _ _ _ _ hnot => absurd trivial hnot) hshift hopen ?_ trivial
  intro c hholds _ hdone
  obtain ⟨i, label, l, n, hl, hn⟩ := hlive c hholds hdone
  exact ⟨i, l, label, n, hl, trivial, hn⟩

end Outline

end Fries.System
