import Mathlib.Data.List.Basic

/-! Pools of programs over a shared world, reasoned about one thread at a time. -/
namespace Fries

/-- A program that goes on with the response to each command it issues. -/
inductive Prog (C : Type) (R : C → Type) (α : Type)
  | ret (a : α)
  | call (c : C) (k : R c → Prog C R α)

namespace Prog

variable {C α β : Type} {R : C → Type} {P : C → Prop} {p : Prog C R α}

def bind : Prog C R α → (α → Prog C R β) → Prog C R β
  | ret a, f => f a
  | call c k, f => call c fun r => (k r).bind f

instance : Monad (Prog C R) where
  pure := ret
  bind := bind

@[simp] theorem pure_eq (a : α) : (pure a : Prog C R α) = ret a := rfl

/-- Whatever the responses, the program issues commands of one kind only. -/
def Only (P : C → Prop) : Prog C R α → Prop
  | ret _ => True
  | call c k => P c ∧ ∀ r, (k r).Only P

theorem only_bind {f : α → Prog C R β} (hp : p.Only P) (hf : ∀ a, (f a).Only P) :
    (p >>= f).Only P := by
  induction p with
  | ret a => exact hf a
  | call c k ih => exact ⟨hp.1, fun r => ih r (hp.2 r)⟩

theorem only_mono {Q : C → Prop} (h : ∀ c, P c → Q c) (hp : p.Only P) : p.Only Q := by
  induction p with
  | ret a => trivial
  | call c k ih => exact ⟨h c hp.1, fun r => ih r (hp.2 r)⟩

/-- The same program where there are more commands. -/
def lift {D : Type} {R' : D → Type} : Prog C R α → Prog (C ⊕ D) (Sum.elim R R') α
  | ret a => ret a
  | call c k => call (.inl c) fun r => (k r).lift

theorem only_map (f : α → β) (hp : p.Only P) : (f <$> p).Only P :=
  only_bind hp fun _ => trivial

/-- What can be left of a program once some of its commands were answered. -/
inductive Rest (p : Prog C R α) : Prog C R α → Prop
  | all : p.Rest p
  | answered {c : C} {k : R c → Prog C R α} (r : R c) (h : p.Rest (call c k)) : p.Rest (k r)

/-- A program of one command is still to issue it or is over. -/
theorem rest_single {c : C} {f : R c → α} {q : Prog C R α}
    (h : (call c fun r => ret (f r)).Rest q) :
    (q = call c fun r => ret (f r)) ∨ ∃ r, q = ret (f r) := by
  induction h with
  | all => exact .inl rfl
  | answered r _ ih =>
    rcases ih with hall | ⟨r', hret⟩
    · obtain ⟨rfl, hk⟩ := Prog.call.inj hall
      cases hk
      exact .inr ⟨r, rfl⟩
    · cases hret

end Prog

/-- A call and what is left to do of it. -/
structure Thread (κ C : Type) (R : C → Type) (α : Type) where
  call : κ
  prog : Prog C R α

structure Pool (W κ C : Type) (R : C → Type) (α : Type) where
  world : W
  threads : List (Thread κ C R α)

/-- A call that is over, with its result. -/
def Pool.returned {W κ C : Type} {R : C → Type} {α : Type} (p : Pool W κ C R α) (i : Nat) :
    Option (κ × α) :=
  match p.threads[i]? with
  | some ⟨call, .ret a⟩ => some (call, a)
  | _ => none

variable {C W α κ : Type} {i : Nat} {R : C → Type} {call : κ}

theorem returned_eq_some {p : Pool W κ C R α} {a : α} :
    p.returned i = some (call, a) ↔ p.threads[i]? = some ⟨call, .ret a⟩ := by
  unfold Pool.returned
  split
  · rename_i h
    simp [h]
  · rename_i h
    constructor
    · intro h'
      cases h'
    · intro h'
      exact absurd h' (h call a)

/-- The command a call issues next. -/
def Pool.next {W κ C : Type} {R : C → Type} {α : Type} (p : Pool W κ C R α) (i : Nat) : Option C :=
  match p.threads[i]? with
  | some ⟨_, .call c _⟩ => some c
  | _ => none

theorem next_eq_some {p : Pool W κ C R α} {c : C} :
    p.next i = some c ↔ ∃ call k, p.threads[i]? = some ⟨call, .call c k⟩ := by
  unfold Pool.next
  split
  · rename_i call c' k h
    rw [h]
    constructor
    · intro hc
      cases hc
      exact ⟨call, k, rfl⟩
    · rintro ⟨call', k', hthread⟩
      cases hthread
      rfl
  · rename_i hnone
    constructor
    · intro hc
      cases hc
    · rintro ⟨call, k, hthread⟩
      exact absurd hthread (hnone call c k)

/-- A call that is not over. -/
def Pool.pending {W κ C : Type} {R : C → Type} {α : Type} (p : Pool W κ C R α) (i : Nat) :
    Option κ :=
  match p.threads[i]? with
  | some ⟨call, .call _ _⟩ => some call
  | _ => none

theorem pending_eq_some {p : Pool W κ C R α} :
    p.pending i = some call ↔ ∃ c k, p.threads[i]? = some ⟨call, .call c k⟩ := by
  unfold Pool.pending
  split
  · rename_i call' c k h
    constructor
    · intro h'
      cases h'
      exact ⟨c, k, h⟩
    · rintro ⟨c', k', h'⟩
      rw [h] at h'
      cases h'
      rfl
  · rename_i h
    constructor
    · intro h'
      cases h'
    · rintro ⟨c, k, h'⟩
      exact absurd h' (h call c k)

/-- How the world answers a command of the thread with a given number, how it changes by
itself, and which program a call starts. What is not determined is left to the label. -/
structure Service (W ι ε κ C : Type) (R : C → Type) (α : Type) where
  exec : Nat → ι → W → (c : C) → R c × W
  shift : ε → W → W
  start : κ → List (Thread κ C R α) → Option (Prog C R α)

/-- A service with more commands, which have their own data and only read the world. -/
def Service.extend {W ι ε κ C : Type} {R : C → Type} {α : Type} (S : Service W ι ε κ C R α)
    {V ι' κ' D : Type} {R' : D → Type} {α' : Type} (exec : Nat → ι' → W → V → (d : D) → R' d × V)
    (start : κ' → List (Thread κ' (C ⊕ D) (Sum.elim R R') α') →
      Option (Prog (C ⊕ D) (Sum.elim R R') α')) :
    Service (W × V) (ι × ι') ε κ' (C ⊕ D) (Sum.elim R R') α' where
  exec i l w c :=
    match c with
    | .inl c => ((S.exec i l.1 w.1 c).1, ((S.exec i l.1 w.1 c).2, w.2))
    | .inr d => ((exec i l.2 w.1 w.2 d).1, (w.1, (exec i l.2 w.1 w.2 d).2))
  shift e w := (S.shift e w.1, w.2)
  start := start

inductive Action (ι ε κ : Type)
  | spawn (call : κ)
  | run (thread : Nat) (label : ι)
  | shift (change : ε)

namespace Service

variable {ι ε β : Type} {S : Service W ι ε κ C R α} {p : Pool W κ C R α} {ok : Nat → W → C → Prop}

def step (S : Service W ι ε κ C R α) (p : Pool W κ C R α) : Action ι ε κ → Pool W κ C R α
  | .spawn call =>
    match S.start call p.threads with
    | some prog => { p with threads := p.threads ++ [⟨call, prog⟩] }
    | none => p
  | .run i label =>
    match p.threads[i]? with
    | some ⟨call, .call c k⟩ =>
      let r := S.exec i label p.world c
      ⟨r.2, p.threads.set i ⟨call, k r.1⟩⟩
    | _ => p
  | .shift change => { p with world := S.shift change p.world }

def run (S : Service W ι ε κ C R α) (p : Pool W κ C R α) (actions : List (Action ι ε κ)) :
    Pool W κ C R α := actions.foldl S.step p

/-- Every command is issued in a world where `ok` holds of it. -/
def Meets (S : Service W ι ε κ C R α) (ok : Nat → W → C → Prop) :
    Pool W κ C R α → List (Action ι ε κ) → Prop
  | _, [] => True
  | p, .run i label :: rest =>
    (∀ c, p.next i = some c → ok i p.world c) ∧ S.Meets ok (S.step p (.run i label)) rest
  | p, a :: rest => S.Meets ok (S.step p a) rest

theorem meets_of_forall (hok : ∀ i w c, ok i w c) (p : Pool W κ C R α)
    (actions : List (Action ι ε κ)) : S.Meets ok p actions := by
  induction actions generalizing p with
  | nil => trivial
  | cons a rest ih =>
    cases a with
    | spawn call => exact ih _
    | run i label => exact ⟨fun _ _ => hok _ _ _, ih _⟩
    | shift e => exact ih _

instance decidableMeets (S : Service W ι ε κ C R α) (ok : Nat → W → C → Prop)
    [∀ i w c, Decidable (ok i w c)] :
    ∀ (p : Pool W κ C R α) (actions : List (Action ι ε κ)), Decidable (S.Meets ok p actions)
  | _, [] => .isTrue trivial
  | p, .spawn call :: rest => decidableMeets S ok (S.step p (.spawn call)) rest
  | p, .shift e :: rest => decidableMeets S ok (S.step p (.shift e)) rest
  | p, .run i label :: rest =>
    have := decidableMeets S ok (S.step p (.run i label)) rest
    inferInstanceAs (Decidable ((∀ c, p.next i = some c → ok i p.world c) ∧ _))

theorem meets_append {before after : List (Action ι ε κ)} (h : S.Meets ok p (before ++ after)) :
    S.Meets ok p before ∧ S.Meets ok (S.run p before) after := by
  induction before generalizing p with
  | nil => exact ⟨trivial, h⟩
  | cons a rest ih =>
    cases a with
    | spawn call => exact ih h
    | run i label => exact ⟨⟨h.1, (ih h.2).1⟩, (ih h.2).2⟩
    | shift e => exact ih h

/-- A call returns with the response to its last command, or at once. -/
theorem step_returned {a : Action ι ε κ} {i : Nat} {call : κ} {r : α}
    (hbefore : p.returned i = none) (hafter : (S.step p a).returned i = some (call, r)) :
    (∃ label c k, a = .run i label ∧ p.threads[i]? = some ⟨call, .call c k⟩ ∧
      k (S.exec i label p.world c).1 = .ret r) ∨
    a = .spawn call ∧ i = p.threads.length ∧ S.start call p.threads = some (.ret r) := by
  have hthread := returned_eq_some.mp hafter
  have hnot : p.threads[i]? ≠ some ⟨call, .ret r⟩ := by
    intro h
    rw [returned_eq_some.mpr h] at hbefore
    cases hbefore
  cases a with
  | shift e => exact absurd hthread hnot
  | spawn call' =>
    simp only [step] at hthread
    split at hthread
    · rename_i prog hprog
      rcases Nat.lt_trichotomy i p.threads.length with hlt | rfl | hgt
      · rw [List.getElem?_append_left hlt] at hthread
        exact absurd hthread hnot
      · obtain ⟨rfl, rfl⟩ : call' = call ∧ prog = .ret r := by simpa using hthread
        exact .inr ⟨rfl, rfl, hprog⟩
      · have hlt := (List.getElem?_eq_some_iff.mp hthread).1
        simp only [List.length_append, List.length_singleton] at hlt
        omega
    · exact absurd hthread hnot
  | run j label =>
    simp only [step] at hthread
    split at hthread
    · rename_i call' c k hj
      by_cases hij : j = i
      · subst j
        have hlt : i < p.threads.length := (List.getElem?_eq_some_iff.mp hj).1
        obtain ⟨rfl, hret⟩ : call' = call ∧ k (S.exec i label p.world c).1 = .ret r := by
          simpa [hlt] using hthread
        exact .inl ⟨label, c, k, rfl, hj, hret⟩
      · exact absurd (by simpa [hij] using hthread) hnot
    · exact absurd hthread hnot

/-- Every thread is on its way through the program its call started. -/
def Faithful (S : Service W ι ε κ C R α) (p : Pool W κ C R α) : Prop :=
  ∀ (i : Nat) (t : Thread κ C R α), p.threads[i]? = some t →
    ∃ threads prog, S.start t.call threads = some prog ∧ prog.Rest t.prog

theorem faithful_step (hp : S.Faithful p) (a : Action ι ε κ) : S.Faithful (S.step p a) := by
  intro i t ht
  cases a with
  | shift e => exact hp i t ht
  | spawn call =>
    simp only [step] at ht
    split at ht
    · rename_i prog hprog
      rw [List.getElem?_append] at ht
      split at ht
      · exact hp i t ht
      · obtain rfl : t = ⟨call, prog⟩ := by simpa using List.mem_of_getElem? ht
        exact ⟨p.threads, prog, hprog, .all⟩
    · exact hp i t ht
  | run j label =>
    simp only [step] at ht
    split at ht
    · rename_i call c k hj
      rw [List.getElem?_set] at ht
      split at ht
      · split at ht <;> cases ht
        obtain ⟨threads, prog, hstart, hrest⟩ := hp j _ hj
        exact ⟨threads, prog, hstart, hrest.answered _⟩
      · exact hp i t ht
    · exact hp i t ht

theorem faithful_run (hp : S.Faithful p) (actions : List (Action ι ε κ)) :
    S.Faithful (S.run p actions) := by
  induction actions generalizing p with
  | nil => exact hp
  | cons a rest ih => exact ih (faithful_step hp a)

/-- What a proof about threads fixes: an invariant of the world, what each thread assumes of the
others and owes them, what holds before it starts, and what is assumed and shown per command. -/
structure Contract (S : Service W ι ε κ C R α) where
  Inv : W → Prop
  Rely : Nat → W → W → Prop
  Guar : Nat → W → W → Prop
  Unused : Nat → W → Prop
  Ok : Nat → W → C → Prop
  Issue : Nat → W → C → Prop
  rely_refl : ∀ i w, Rely i w w
  rely_trans : ∀ i w₁ w₂ w₃, Rely i w₁ w₂ → Rely i w₂ w₃ → Rely i w₁ w₃
  rely_of_guar : ∀ i j w w', i ≠ j → Inv w → Guar j w w' → Rely i w w'
  inv_shift : ∀ e w, Inv w → Inv (S.shift e w)
  rely_shift : ∀ e i w, Inv w → Rely i w (S.shift e w)
  unused_rely : ∀ i w w', Unused i w → Rely i w w' → Unused i w'

namespace Contract

variable (K : S.Contract)

/-- Whatever the other threads do in between, every command of the program keeps the
invariant and the guarantee, and `post` holds at the end. -/
def Safe (i : Nat) (post : β → W → Prop) : Prog C R β → W → Prop
  | .ret b, w => post b w
  | .call c k, w => ∀ w' label, K.Rely i w w' → K.Inv w' → K.Ok i w' c →
      K.Issue i w' c ∧ K.Inv (S.exec i label w' c).2 ∧ K.Guar i w' (S.exec i label w' c).2 ∧
        Safe i post (k (S.exec i label w' c).1) (S.exec i label w' c).2

variable {K} {w w' : W} {post : β → W → Prop} {p : Prog C R β} {γ : Type}

/-- What a thread knows of the end of its program outlives the steps of the others. -/
def Stable (K : S.Contract) (i : Nat) (post : β → W → Prop) : Prop :=
  ∀ b w w', post b w → K.Rely i w w' → K.Inv w' → post b w'

theorem safe_stable (hpost : K.Stable i post) (h : K.Safe i post p w) (hr : K.Rely i w w')
    (hi : K.Inv w') : K.Safe i post p w' := by
  cases p with
  | ret b => exact hpost b w w' h hr hi
  | call c k => exact fun w'' label hr' => h w'' label (K.rely_trans i w w' w'' hr hr')

theorem safe_weaken {post' : β → W → Prop} (hpost : ∀ b w, post b w → post' b w)
    (h : K.Safe i post p w) : K.Safe i post' p w := by
  induction p generalizing w with
  | ret b => exact hpost b w h
  | call c k ih =>
    intro w' label hr hi hok
    obtain ⟨hissue, hinv, hguar, hsafe⟩ := h w' label hr hi hok
    exact ⟨hissue, hinv, hguar, ih _ hsafe⟩

/-- Sequencing: the second program starts from what the first one ends with. -/
theorem safe_bind {f : β → Prog C R γ} {post' : γ → W → Prop}
    (h : K.Safe i (fun b => K.Safe i post' (f b)) p w) : K.Safe i post' (p >>= f) w := by
  induction p generalizing w with
  | ret b => exact h
  | call c k ih =>
    intro w' label hr hi hok
    obtain ⟨hissue, hinv, hguar, hsafe⟩ := h w' label hr hi hok
    exact ⟨hissue, hinv, hguar, ih _ hsafe⟩

theorem safe_map {f : β → γ} {post' : γ → W → Prop} (h : K.Safe i (fun b => post' (f b)) p w) :
    K.Safe i post' (f <$> p) w :=
  safe_bind h

/-- What neither the thread nor the others can undo still holds at the end. -/
theorem safe_frame {F : W → Prop} (hrely : ∀ w w', F w → K.Rely i w w' → F w')
    (hguar : ∀ w w', F w → K.Guar i w w' → F w') (hF : F w) (h : K.Safe i post p w) :
    K.Safe i (fun b w' => post b w' ∧ F w') p w := by
  induction p generalizing w with
  | ret b => exact ⟨h, hF⟩
  | call c k ih =>
    intro w' label hr hi hok
    obtain ⟨hissue, hinv, hg, hsafe⟩ := h w' label hr hi hok
    exact ⟨hissue, hinv, hg, ih _ (hguar _ _ (hrely _ _ hF hr) hg) hsafe⟩

section Extend

variable {V ι' κ' D α' : Type} {R' : D → Type} {ext : Nat → ι' → W → V → (d : D) → R' d × V}
  {start : κ' → List (Thread κ' (C ⊕ D) (Sum.elim R R') α') → Option (Prog (C ⊕ D) (Sum.elim R R')
    α')} {J : V → Prop}

/-- The contract of a service for one with more commands, whose data keep `J`. -/
def extend (K : S.Contract) (ext : Nat → ι' → W → V → (d : D) → R' d × V)
    (start : κ' → List (Thread κ' (C ⊕ D) (Sum.elim R R') α') →
      Option (Prog (C ⊕ D) (Sum.elim R R') α')) (J : V → Prop) :
    (S.extend ext start).Contract where
  Inv w := K.Inv w.1 ∧ J w.2
  Rely i w w' := K.Rely i w.1 w'.1
  Guar i w w' := K.Guar i w.1 w'.1
  Unused i w := K.Unused i w.1
  Ok i w
    | .inl c => K.Ok i w.1 c
    | .inr _ => True
  Issue i w
    | .inl c => K.Issue i w.1 c
    | .inr _ => True
  rely_refl i w := K.rely_refl i w.1
  rely_trans i w₁ w₂ w₃ := K.rely_trans i w₁.1 w₂.1 w₃.1
  rely_of_guar i j w w' hij hi := K.rely_of_guar i j w.1 w'.1 hij hi.1
  inv_shift e w hi := ⟨K.inv_shift e w.1 hi.1, hi.2⟩
  rely_shift e i w hi := K.rely_shift e i w.1 hi.1
  unused_rely i w w' := K.unused_rely i w.1 w'.1

/-- A safe program stays safe where there are more commands. -/
theorem safe_lift {p : Prog C R β} {w : W × V} (h : K.Safe i post p w.1) :
    (K.extend ext start J).Safe i (fun b w' => post b w'.1) p.lift w := by
  induction p generalizing w with
  | ret b => exact h
  | call c k ih =>
    intro w' l hr hi hok
    obtain ⟨hissue, hinv, hguar, hsafe⟩ := h w'.1 l.1 hr hi.1 hok
    exact ⟨hissue, ⟨hinv, hi.2⟩, hguar, ih _ hsafe⟩

/-- A command of the extension keeps the world. -/
theorem safe_extra {d : D} {k : R' d → Prog (C ⊕ D) (Sum.elim R R') β} {w : W × V}
    {post : β → W × V → Prop} (hguar : ∀ w, K.Guar i w w)
    (h : ∀ (w' : W × V) l, K.Rely i w.1 w'.1 → K.Inv w'.1 → J w'.2 → J (ext i l w'.1 w'.2 d).2 ∧
      (K.extend ext start J).Safe i post (k (ext i l w'.1 w'.2 d).1)
        (w'.1, (ext i l w'.1 w'.2 d).2)) :
    (K.extend ext start J).Safe i post (.call (.inr d) k) w := by
  intro w' l hr hi _
  obtain ⟨hj, hk⟩ := h w' l.2 hr hi.1 hi.2
  exact ⟨trivial, ⟨hi.1, hj⟩, hguar w'.1, hk⟩

end Extend

/-- Every thread of a pool is safe for the postcondition of its call. -/
structure SafePool (K : S.Contract) (post : κ → Nat → α → W → Prop) (p : Pool W κ C R α) :
    Prop where
  inv : K.Inv p.world
  unused : ∀ i, p.threads.length ≤ i → K.Unused i p.world
  safe : ∀ i t, p.threads[i]? = some t → K.Safe i (post t.call i) t.prog p.world

variable {post : κ → Nat → α → W → Prop} {p : Pool W κ C R α}

theorem safePool_shift (hpost : ∀ call i, K.Stable i (post call i)) (hp : K.SafePool post p)
    (e : ε) : K.SafePool post (S.step p (.shift e)) := by
  have hinv := K.inv_shift e p.world hp.inv
  refine ⟨hinv, fun i hi => K.unused_rely i _ _ (hp.unused i hi) (K.rely_shift e i _ hp.inv), ?_⟩
  intro i t ht
  exact safe_stable (hpost _ _) (hp.safe i t ht) (K.rely_shift e i p.world hp.inv) hinv

theorem safePool_run (hpost : ∀ call i, K.Stable i (post call i)) (hp : K.SafePool post p)
    (i : Nat) (label : ι)
    (hok : ∀ c, p.next i = some c → K.Ok i p.world c) :
    K.SafePool post (S.step p (.run i label)) := by
  simp only [step]
  split
  · rename_i call c k hi
    obtain ⟨-, hinv, hguar, hsafe⟩ :=
      hp.safe i _ hi p.world label (K.rely_refl i _) hp.inv (hok c (by simp [Pool.next, hi]))
    have hlt : i < p.threads.length := (List.getElem?_eq_some_iff.mp hi).1
    have hrely : ∀ j, j ≠ i → K.Rely j p.world (S.exec i label p.world c).2 :=
      fun j hji => K.rely_of_guar j i _ _ hji hp.inv hguar
    refine ⟨hinv, ?_, ?_⟩
    · intro j hj
      have hj' : p.threads.length ≤ j := by simpa using hj
      exact K.unused_rely j _ _ (hp.unused j hj') (hrely j (by omega))
    intro j t hj
    by_cases hji : j = i
    · subst j
      obtain rfl : ⟨call, k (S.exec i label p.world c).1⟩ = t := by simpa [hlt] using hj
      exact hsafe
    · have hj' : p.threads[j]? = some t := by simpa [Ne.symm hji] using hj
      exact safe_stable (hpost _ _) (hp.safe j t hj') (hrely j hji) hinv
  · exact hp

theorem safePool_spawn (hp : K.SafePool post p) (call : κ)
    (hstart : ∀ prog, S.start call p.threads = some prog →
      K.Safe p.threads.length (post call p.threads.length) prog p.world) :
    K.SafePool post (S.step p (.spawn call)) := by
  simp only [step]
  split
  · rename_i prog hprog
    refine ⟨hp.inv, fun i hi => hp.unused i (Nat.le_of_succ_le (by simpa using hi)), ?_⟩
    intro j t hj
    rcases Nat.lt_trichotomy j p.threads.length with hlt | rfl | hgt
    · exact hp.safe j t (by rwa [List.getElem?_append_left hlt] at hj)
    · obtain rfl : ⟨call, prog⟩ = t := by simpa using hj
      exact hstart prog hprog
    · have hlt := (List.getElem?_eq_some_iff.mp hj).1
      simp only [List.length_append, List.length_singleton] at hlt
      omega
  · exact hp

/-- Threads that start safe stay safe, however they are interleaved. -/
theorem safePool_of_run (K : S.Contract) (post : κ → Nat → α → W → Prop)
    (hpost : ∀ call i, K.Stable i (post call i))
    (hstart : ∀ p call prog, K.SafePool post p → S.start call p.threads = some prog →
      K.Safe p.threads.length (post call p.threads.length) prog p.world)
    (hp : K.SafePool post p) (actions : List (Action ι ε κ)) (hok : S.Meets K.Ok p actions) :
    K.SafePool post (S.run p actions) := by
  induction actions generalizing p with
  | nil => exact hp
  | cons a rest ih =>
    cases a with
    | spawn call => exact ih (safePool_spawn hp call fun prog h => hstart p call prog hp h) hok
    | run i label => exact ih (safePool_run hpost hp i label hok.1) hok.2
    | shift e => exact ih (safePool_shift hpost hp e) hok

/-- An empty pool is safe. -/
theorem safePool_nil (hw : K.Inv w) (hunused : ∀ i, K.Unused i w) : K.SafePool post ⟨w, []⟩ := by
  refine ⟨hw, fun i _ => hunused i, ?_⟩
  intro i t ht
  simp at ht

end Contract

end Service

end Fries
