import Fries.Lib.Program

/-! Threads with a local state each over a shared world, and proof outlines for them. -/
namespace Fries

/-- What a step leaves: the thread's local state, the world, and a thread it started. -/
structure Progress (W L : Type) where
  state : L
  world : W
  started : Option L

/-- How calls enter, how a thread steps (`none` if it is blocked), and what else can happen to
the world. -/
structure System (W L ι ε κ : Type) where
  enter : κ → W → L
  step : Nat → ι → L → W → Option (Progress W L)
  shift : ε → W → W

structure Crew (W L : Type) where
  world : W
  threads : List L

namespace System

variable {W L ι ε κ : Type} {ls : List L} {i j : Nat} {l m : L} {c : Crew W L}
  {actions : List (Action ι ε κ)}

def next (S : System W L ι ε κ) (c : Crew W L) : Action ι ε κ → Crew W L
  | .spawn call => { c with threads := c.threads ++ [S.enter call c.world] }
  | .run i label =>
    match c.threads[i]? with
    | none => c
    | some l =>
      match S.step i label l c.world with
      | none => c
      | some n => ⟨n.world, c.threads.set i n.state ++ n.started.toList⟩
  | .shift change => { c with world := S.shift change c.world }

def run (S : System W L ι ε κ) (c : Crew W L) (actions : List (Action ι ε κ)) : Crew W L :=
  actions.foldl S.next c

/-- What an action does. -/
inductive Nexts (S : System W L ι ε κ) (c : Crew W L) : Action ι ε κ → Crew W L → Prop
  | spawn (call : κ) :
    Nexts S c (.spawn call) { c with threads := c.threads ++ [S.enter call c.world] }
  | shift (e : ε) : Nexts S c (.shift e) { c with world := S.shift e c.world }
  | idle (i : Nat) (label : ι) (h : ∀ l, c.threads[i]? = some l → S.step i label l c.world = none) :
    Nexts S c (.run i label) c
  | step {i : Nat} {label : ι} {l : L} {n : Progress W L} (hl : c.threads[i]? = some l)
      (hn : S.step i label l c.world = some n) :
    Nexts S c (.run i label) ⟨n.world, c.threads.set i n.state ++ n.started.toList⟩

theorem nexts_next (S : System W L ι ε κ) (c : Crew W L) (a : Action ι ε κ) :
    S.Nexts c a (S.next c a) := by
  cases a with
  | spawn call => exact .spawn call
  | shift e => exact .shift e
  | run i label =>
    simp only [next]
    split
    · rename_i hnone
      exact .idle i label (by simp [hnone])
    · rename_i l hl
      split
      · rename_i hblocked
        refine .idle i label ?_
        intro l' hl'
        rw [hl] at hl'
        cases hl'
        exact hblocked
      · rename_i n hn
        exact .step hl hn

/-- A step leaves the other threads where they are. -/
theorem threads_step (hj : ls[j]? = some m) (more : List L) :
    (ls.set i l ++ more)[j]? = some (if i = j then l else m) := by
  have hlt : j < ls.length := (List.getElem?_eq_some_iff.mp hj).1
  rw [List.getElem?_append_left (by simpa using hlt), List.getElem?_set]
  split
  · rename_i hij
    subst hij
    simp [hlt]
  · exact hj

/-- A thread stays where it is unless it steps itself. -/
theorem thread_next (S : System W L ι ε κ) (hl : c.threads[i]? = some l) (a : Action ι ε κ) :
    ∃ l', (S.next c a).threads[i]? = some l' ∧
      (l' = l ∨ ∃ label n, S.step i label l c.world = some n ∧ l' = n.state) := by
  have hlt : i < c.threads.length := (List.getElem?_eq_some_iff.mp hl).1
  have hnexts := S.nexts_next c a
  generalize S.next c a = c' at hnexts ⊢
  cases hnexts with
  | shift | idle => exact ⟨l, hl, .inl rfl⟩
  | spawn =>
    refine ⟨l, ?_, .inl rfl⟩
    rw [List.getElem?_append_left hlt]
    exact hl
  | step hm hn =>
    rename_i j label m n
    refine ⟨_, threads_step hl _, ?_⟩
    split
    · rename_i hji
      subst hji
      rw [hl] at hm
      cases hm
      exact .inr ⟨label, n, hn, rfl⟩
    · exact .inl rfl

/-- Where a thread was before an action: it has not stepped, or it has, or it was started. -/
theorem thread_of_next (S : System W L ι ε κ) {a : Action ι ε κ} {l' : L}
    (h : (S.next c a).threads[i]? = some l') : c.threads[i]? = some l' ∨
      (∃ l label n, c.threads[i]? = some l ∧ S.step i label l c.world = some n ∧ l' = n.state) ∨
      (∃ call, l' = S.enter call c.world) ∨
      ∃ j l label n, c.threads[j]? = some l ∧ S.step j label l c.world = some n ∧
        n.started = some l' := by
  have hnexts := S.nexts_next c a
  generalize S.next c a = c' at h hnexts
  cases hnexts with
  | shift | idle => exact .inl h
  | spawn call =>
    dsimp only at h
    rw [List.getElem?_append] at h
    split at h
    · exact .inl h
    · exact .inr (.inr (.inl ⟨call, by simpa using List.mem_of_getElem? h⟩))
  | step hl hn =>
    rename_i j label l n
    dsimp only at h
    rw [List.getElem?_append] at h
    split at h
    · by_cases hji : j = i
      · subst hji
        have hlt : j < c.threads.length := (List.getElem?_eq_some_iff.mp hl).1
        obtain rfl : n.state = l' := by simpa [hlt] using h
        exact .inr (.inl ⟨l, label, n, hl, hn, rfl⟩)
      · exact .inl (by simpa [hji] using h)
    · exact .inr (.inr (.inr ⟨j, l, label, n, hl, hn, by simpa using List.mem_of_getElem? h⟩))

theorem length_next (S : System W L ι ε κ) (c : Crew W L) (a : Action ι ε κ) :
    c.threads.length ≤ (S.next c a).threads.length := by
  have hnexts := S.nexts_next c a
  generalize S.next c a = c' at hnexts ⊢
  cases hnexts with
  | shift | idle => exact Nat.le_refl _
  | spawn | step => simp

theorem length_run (S : System W L ι ε κ) (c : Crew W L) (actions : List (Action ι ε κ)) :
    c.threads.length ≤ (S.run c actions).threads.length := by
  induction actions generalizing c with
  | nil => exact Nat.le_refl _
  | cons a rest ih => exact Nat.le_trans (S.length_next c a) (ih _)

/-- The sum of a weight over all threads. -/
def total (f : L → Nat) : List L → Nat
  | [] => 0
  | l :: rest => f l + total f rest

theorem total_append (f : L → Nat) (ls ls' : List L) :
    total f (ls ++ ls') = total f ls + total f ls' := by
  induction ls with
  | nil => simp [total]
  | cons l rest ih =>
    simp only [List.cons_append, total, ih]
    omega

theorem total_replicate (f : L → Nat) (n : Nat) (l : L) :
    total f (List.replicate n l) = n * f l := by
  induction n with
  | zero => simp [total]
  | succ n ih =>
    simp only [List.replicate_succ, total, ih]
    rw [Nat.succ_mul]
    omega

/-- A weight that is at least one where `p` holds counts what `p` holds of. -/
theorem countP_le_total {f : L → Nat} {p : L → Bool} (hp : ∀ l, p l = true → 1 ≤ f l)
    (ls : List L) : ls.countP p ≤ total f ls := by
  induction ls with
  | nil => simp [total]
  | cons l rest ih =>
    rw [List.countP_cons]
    simp only [total]
    split
    · rename_i hl
      have hone := hp l hl
      omega
    · omega

/-- A thread that carries weight, if there is any. -/
theorem exists_of_total_pos (f : L → Nat) (h : 0 < total f ls) :
    ∃ (i : Nat) (l : L), ls[i]? = some l ∧ 0 < f l := by
  induction ls with
  | nil => simp [total] at h
  | cons l rest ih =>
    by_cases hl : 0 < f l
    · exact ⟨0, l, rfl, hl⟩
    · simp only [total] at h
      obtain ⟨i, m, hm, hpos⟩ := ih (by omega)
      exact ⟨i + 1, m, hm, hpos⟩

theorem total_eraseIdx (f : L → Nat) (h : ls[i]? = some l) :
    total f ls = f l + total f (ls.eraseIdx i) := by
  induction ls generalizing i with
  | nil => simp at h
  | cons m rest ih =>
    cases i with
    | zero =>
      obtain rfl : m = l := by simpa using h
      rfl
    | succ i =>
      have hrest := ih (i := i) (by simpa using h)
      simp only [List.eraseIdx_cons_succ, total]
      omega

theorem total_set (f : L → Nat) (h : ls[i]? = some l) (l' : L) :
    total f (ls.set i l') + f l = total f ls + f l' := by
  have hlt : i < ls.length := (List.getElem?_eq_some_iff.mp h).1
  have hset : (ls.set i l')[i]? = some l' := by simp [hlt]
  rw [total_eraseIdx f h, total_eraseIdx f hset, List.eraseIdx_set_eq]
  omega

theorem le_total (f : L → Nat) (h : ls[i]? = some l) : f l ≤ total f ls := by
  rw [total_eraseIdx f h]
  exact Nat.le_add_right _ _

theorem add_le_total (f : L → Nat) (hij : i ≠ j) (hi : ls[i]? = some l) (hj : ls[j]? = some m) :
    f l + f m ≤ total f ls := by
  have hm : m ∈ ls.eraseIdx i := List.mem_eraseIdx_iff_getElem?.mpr ⟨j, Ne.symm hij, hj⟩
  obtain ⟨k, hk⟩ := List.mem_iff_getElem?.mp hm
  rw [total_eraseIdx f hi]
  exact Nat.add_le_add_left (le_total f hk) _

/-- A proof outline: an invariant of the world, an assertion for each local state, what holds
of the numbers no thread has yet, and counters in the world that agree with the weights of the
threads. -/
structure Outline (S : System W L ι ε κ) where
  Inv : W → Prop
  At : Nat → L → W → Prop
  Unused : Nat → W → Prop
  Counter : Type
  weight : Counter → L → Nat
  count : Counter → W → Nat
  enter : ∀ {i w} call, Inv w → Unused i w → At i (S.enter call w) w
  enter_weight : ∀ k call w, weight k (S.enter call w) = 0
  own : ∀ {i a l w n}, S.step i a l w = some n → Inv w → At i l w →
    (∀ k, weight k l ≤ count k w) → Inv n.world ∧ At i n.state n.world
  others : ∀ {i a l w n j m}, S.step i a l w = some n → Inv w → At i l w →
    (∀ k, weight k l + weight k m ≤ count k w) → i ≠ j → At j m w → At j m n.world
  unused : ∀ {i a l w n j}, S.step i a l w = some n → Inv w → At i l w →
    (∀ k, weight k l ≤ count k w) → i ≠ j → Unused j w → Unused j n.world
  starts : ∀ {i a l w n j m}, S.step i a l w = some n → Inv w → At i l w →
    (∀ k, weight k l ≤ count k w) → i ≠ j → Unused j w → n.started = some m → At j m n.world
  counts : ∀ {i a l w n}, S.step i a l w = some n → Inv w → At i l w →
    (∀ k, weight k l ≤ count k w) → ∀ k,
      count k n.world + weight k l =
        count k w + weight k n.state + total (weight k) n.started.toList
  shift_inv : ∀ e w, Inv w → Inv (S.shift e w)
  shift_at : ∀ e w i l, Inv w → At i l w → At i l (S.shift e w)
  shift_unused : ∀ e w i, Unused i w → Unused i (S.shift e w)
  shift_count : ∀ e w k, count k (S.shift e w) = count k w

namespace Outline

variable {S : System W L ι ε κ}

/-- The outline describes the state of all threads. -/
structure Holds (O : S.Outline) (c : Crew W L) : Prop where
  inv : O.Inv c.world
  at_thread : ∀ i l, c.threads[i]? = some l → O.At i l c.world
  unused : ∀ i, c.threads.length ≤ i → O.Unused i c.world
  counted : ∀ k, O.count k c.world = total (O.weight k) c.threads

variable {O : S.Outline}

section

variable (h : O.Holds c)

include h

theorem weight_le (hl : c.threads[i]? = some l) (k : O.Counter) :
    O.weight k l ≤ O.count k c.world := by
  rw [h.counted k]
  exact le_total (O.weight k) hl

theorem holds_spawn (call : κ) :
    O.Holds { c with threads := c.threads ++ [S.enter call c.world] } := by
  refine ⟨h.inv, ?_, ?_, ?_⟩
  · intro i l hl
    dsimp only at hl ⊢
    rw [List.getElem?_append] at hl
    split at hl
    · exact h.at_thread i l hl
    · rename_i hge
      obtain rfl : l = S.enter call c.world := by simpa using List.mem_of_getElem? hl
      exact O.enter call h.inv (h.unused i (by omega))
  · intro i hi
    simp only [List.length_append, List.length_singleton] at hi
    exact h.unused i (by omega)
  · intro k
    simp only [total_append, total, O.enter_weight]
    exact h.counted k

theorem holds_step {label : ι} {n : Progress W L} (hl : c.threads[i]? = some l)
    (hn : S.step i label l c.world = some n) :
    O.Holds ⟨n.world, c.threads.set i n.state ++ n.started.toList⟩ := by
  have hat := h.at_thread i l hl
  have hweight := weight_le h hl
  obtain ⟨hinv, hown⟩ := O.own hn h.inv hat hweight
  have hlt : i < c.threads.length := (List.getElem?_eq_some_iff.mp hl).1
  refine ⟨hinv, ?_, ?_, ?_⟩
  · intro j m hj
    dsimp only at hj ⊢
    rw [List.getElem?_append, List.length_set] at hj
    split at hj
    · by_cases hij : i = j
      · subst hij
        obtain rfl : n.state = m := by simpa [hlt] using hj
        exact hown
      · have hm : c.threads[j]? = some m := by simpa [hij] using hj
        have hboth : ∀ k, O.weight k l + O.weight k m ≤ O.count k c.world :=
          fun k => h.counted k ▸ add_le_total (O.weight k) hij hl hm
        exact O.others hn h.inv hat hboth hij (h.at_thread j m hm)
    · rename_i hge
      cases hs : n.started with
      | none => simp [hs] at hj
      | some m' =>
        obtain rfl : m = m' := by
          rw [hs] at hj
          simpa using List.mem_of_getElem? hj
        exact O.starts hn h.inv hat hweight (by omega) (h.unused j (by omega)) hs
  · intro j hj
    simp only [List.length_append, List.length_set] at hj
    exact O.unused hn h.inv hat hweight (by omega) (h.unused j (by omega))
  · intro k
    have hcount := O.counts hn h.inv hat hweight k
    have hset := total_set (O.weight k) hl n.state
    have hold := h.counted k
    rw [total_append]
    dsimp only
    omega

theorem holds_shift (e : ε) : O.Holds { c with world := S.shift e c.world } := by
  refine ⟨O.shift_inv e _ h.inv, ?_, ?_, ?_⟩
  · intro i l hl
    exact O.shift_at e _ i l h.inv (h.at_thread i l hl)
  · intro i hi
    exact O.shift_unused e _ i (h.unused i hi)
  · intro k
    exact (O.shift_count e c.world k).trans (h.counted k)

theorem holds_next (a : Action ι ε κ) : O.Holds (S.next c a) := by
  have hnexts := S.nexts_next c a
  generalize S.next c a = c' at hnexts ⊢
  cases hnexts with
  | spawn call => exact holds_spawn h call
  | shift e => exact holds_shift h e
  | idle => exact h
  | step hl hn => exact holds_step h hl hn

/-- An outline that holds at the start holds along every run. -/
theorem holds_run (actions : List (Action ι ε κ)) : O.Holds (S.run c actions) := by
  induction actions generalizing c with
  | nil => exact h
  | cons a rest ih => exact ih (holds_next h a)

/-- A counter that does not exceed one has one thread at most. -/
theorem thread_unique {k : O.Counter} (hone : O.count k c.world ≤ 1) {j : Nat} {m : L}
    (hl : c.threads[i]? = some l) (hm : c.threads[j]? = some m) (hweight : O.weight k l = 1)
    (hweight' : O.weight k m = 1) : i = j := by
  by_contra hne
  have htwo := add_le_total (O.weight k) hne hl hm
  rw [← h.counted k] at htwo
  omega

/-- What an action does to the world. -/
theorem world_next (a : Action ι ε κ) :
    (S.next c a).world = c.world ∨
      (∃ i l label n, S.step i label l c.world = some n ∧ O.At i l c.world ∧
        (∀ k, O.weight k l ≤ O.count k c.world) ∧ (S.next c a).world = n.world) ∨
      ∃ e, (S.next c a).world = S.shift e c.world := by
  have hnexts := S.nexts_next c a
  generalize S.next c a = c' at hnexts ⊢
  cases hnexts with
  | spawn | idle => exact .inl rfl
  | shift e => exact .inr (.inr ⟨e, rfl⟩)
  | step hl hn => exact .inr (.inl ⟨_, _, _, _, hn, h.at_thread _ _ hl, weight_le h hl, rfl⟩)

end

/-- What every step from a described state satisfies, whole runs do. -/
theorem relates_run (Rel : Crew W L → Crew W L → Prop) (hrefl : ∀ c, Rel c c)
    (htrans : ∀ c₁ c₂ c₃, Rel c₁ c₂ → Rel c₂ c₃ → Rel c₁ c₃)
    (hnext : ∀ c a, O.Holds c → Rel c (S.next c a)) (h : O.Holds c)
    (actions : List (Action ι ε κ)) : Rel c (S.run c actions) := by
  induction actions generalizing c with
  | nil => exact hrefl c
  | cons a rest ih => exact htrans _ _ _ (hnext c a h) (ih (holds_next h a))

/-- A relation between worlds and one between the local states of a thread that every step
respects, related to themselves and in a row, hold between the ends of a run. -/
theorem later_run {R : W → W → Prop} {K : L → L → Prop} (hR : ∀ w, R w w)
    (hRtrans : ∀ w₁ w₂ w₃, R w₁ w₂ → R w₂ w₃ → R w₁ w₃) (hK : ∀ l, K l l)
    (hKtrans : ∀ l₁ l₂ l₃, K l₁ l₂ → K l₂ l₃ → K l₁ l₃)
    (hstep : ∀ {i label l w n}, S.step i label l w = some n → O.Inv w → O.At i l w →
      (∀ k, O.weight k l ≤ O.count k w) → R w n.world ∧ K l n.state)
    (hshift : ∀ e w, R w (S.shift e w)) (h : O.Holds c) (actions : List (Action ι ε κ)) :
    R c.world (S.run c actions).world ∧ ∀ (i : Nat) (l : L), c.threads[i]? = some l →
      ∃ l', (S.run c actions).threads[i]? = some l' ∧ K l l' := by
  refine relates_run (fun c c' => R c.world c'.world ∧ ∀ (i : Nat) (l : L),
    c.threads[i]? = some l → ∃ l', c'.threads[i]? = some l' ∧ K l l') ?_ ?_ ?_ h actions
  · intro c
    exact ⟨hR _, fun i l hl => ⟨l, hl, hK l⟩⟩
  · intro c₁ c₂ c₃ h₁ h₂
    refine ⟨hRtrans _ _ _ h₁.1 h₂.1, fun i l hl => ?_⟩
    obtain ⟨l', hl', hll'⟩ := h₁.2 i l hl
    obtain ⟨l'', hl'', hl'l''⟩ := h₂.2 i l' hl'
    exact ⟨l'', hl'', hKtrans _ _ _ hll' hl'l''⟩
  · intro c a h
    constructor
    · rcases world_next h a with hsame | ⟨i, l, label, n, hn, hat, hcount, hworld⟩ | ⟨e, hworld⟩
      · exact hsame.symm ▸ hR _
      · exact hworld.symm ▸ (hstep hn h.inv hat hcount).1
      · exact hworld.symm ▸ hshift e _
    · intro i l hl
      obtain ⟨l', hl', rfl | ⟨label, n, hn, rfl⟩⟩ := thread_next S hl a
      · exact ⟨l', hl', hK l'⟩
      · exact ⟨n.state, hl', (hstep hn h.inv (h.at_thread i l hl) (weight_le h hl)).2⟩

end Outline

/-- Every thread that an action lets go on meets a condition on where it is. -/
def Meets (S : System W L ι ε κ) (ok : L → W → Prop) : Crew W L → List (Action ι ε κ) → Prop
  | _, [] => True
  | c, a :: rest =>
    (∀ i label l, a = .run i label → c.threads[i]? = some l → ok l c.world) ∧
      S.Meets ok (S.next c a) rest

/-- What steps that meet a condition keep of every thread and of the world, runs that meet it
keep. -/
theorem kept_of_meets {S : System W L ι ε κ} {ok : L → W → Prop} {K : L → Prop} {I : W → Prop}
    (henter : ∀ call w, K (S.enter call w))
    (hstep : ∀ {i label l w n}, S.step i label l w = some n → ok l w → K l → I w →
      K n.state ∧ I n.world ∧ ∀ m, n.started = some m → K m) (hshift : ∀ e w, I w → I (S.shift e w))
    (h : S.Meets ok c actions) (hthreads : ∀ l ∈ c.threads, K l) (hworld : I c.world) :
    (∀ l ∈ (S.run c actions).threads, K l) ∧ I (S.run c actions).world := by
  induction actions generalizing c with
  | nil => exact ⟨hthreads, hworld⟩
  | cons a rest ih =>
    obtain ⟨hok, hrest⟩ := h
    suffices hnext : (∀ l ∈ (S.next c a).threads, K l) ∧ I (S.next c a).world from
      ih hrest hnext.1 hnext.2
    have hnexts := S.nexts_next c a
    generalize S.next c a = c' at hnexts ⊢
    cases hnexts with
    | spawn call =>
      refine ⟨?_, hworld⟩
      exact List.forall_mem_append.mpr ⟨hthreads, List.forall_mem_singleton.mpr (henter call _)⟩
    | shift e => exact ⟨hthreads, hshift e _ hworld⟩
    | idle => exact ⟨hthreads, hworld⟩
    | step hl hn =>
      rename_i i label l n
      obtain ⟨hstate, hworld', hstarted⟩ :=
        hstep hn (hok i label l rfl hl) (hthreads l (List.mem_of_getElem? hl)) hworld
      refine ⟨?_, hworld'⟩
      intro m hm
      rcases List.mem_append.mp hm with hset | hnew
      · rcases List.mem_or_eq_of_mem_set hset with hold | rfl
        · exact hthreads m hold
        · exact hstate
      · exact hstarted m (by simpa using hnew)

/-- The system in which threads that do not meet a condition are blocked. -/
def restrict (S : System W L ι ε κ) (ok : L → W → Prop) [∀ l w, Decidable (ok l w)] :
    System W L ι ε κ :=
  { S with step := fun i label l w => if ok l w then S.step i label l w else none }

/-- A run that meets a condition is a run of the system restricted to it. -/
theorem run_restrict (S : System W L ι ε κ) (ok : L → W → Prop) [∀ l w, Decidable (ok l w)]
    (h : S.Meets ok c actions) : (S.restrict ok).run c actions = S.run c actions := by
  induction actions generalizing c with
  | nil => rfl
  | cons a rest ih =>
    have hnext : (S.restrict ok).next c a = S.next c a := by
      cases a with
      | spawn | shift => rfl
      | run i label =>
        simp only [next]
        split
        · rfl
        · rename_i l hl
          simp only [restrict, if_pos (h.1 i label l rfl hl)]
    show (S.restrict ok).run ((S.restrict ok).next c a) rest = S.run (S.next c a) rest
    rw [hnext]
    exact ih h.2

theorem run_append (S : System W L ι ε κ) (c : Crew W L) (before after : List (Action ι ε κ)) :
    S.run c (before ++ after) = S.run (S.run c before) after :=
  List.foldl_append

/-- If every action of one system is, seen through a map, an action of another or none, then so is
every run. -/
theorem run_follows {W' L' ι' ε' κ' : Type} (S : System W L ι ε κ) (S' : System W' L' ι' ε' κ')
    (f : Crew W' L' → Crew W L)
    (hnext : ∀ c a, f (S'.next c a) = f c ∨ ∃ b, f (S'.next c a) = S.next (f c) b)
    (c : Crew W' L') (actions : List (Action ι' ε' κ')) :
    ∃ bs, f (S'.run c actions) = S.run (f c) bs := by
  induction actions generalizing c with
  | nil => exact ⟨[], rfl⟩
  | cons a rest ih =>
    obtain ⟨bs, hbs⟩ := ih (S'.next c a)
    rcases hnext c a with hsame | ⟨b, hb⟩
    · exact ⟨bs, hbs.trans (by rw [hsame])⟩
    · exact ⟨b :: bs, hbs.trans (by rw [hb]; rfl)⟩

end System

end Fries
