import Mathlib.Data.List.Chain

/-! Components that answer one timed request after another, and their histories. -/
namespace Fries

/-- A component answering each request from its state and the clock reading it is made at. -/
structure Machine (σ ι ο : Type) where
  init : σ
  step : σ → Int → ι → ο × σ

/-- One answered request. -/
structure Event (ι ο : Type) where
  now : Int
  request : ι
  reply : ο

namespace Machine

variable {σ τ ι ο : Type} {M : Machine σ ι ο} {N : Machine τ ι ο} {s : σ} {last start : Int}
  {h : List (Event ι ο)} {R : Int → σ → τ → Prop} {G : σ → Int → ι → Prop}

/-- The histories at non-decreasing clock readings, none of them before `start`. -/
inductive Run (M : Machine σ ι ο) (start : Int) : Int → σ → List (Event ι ο) → Prop
  | init : Run M start start M.init []
  | call {last : Int} {s : σ} {h : List (Event ι ο)} (run : Run M start last s h)
      (now : Int) (request : ι) (later : last ≤ now) :
      Run M start now (M.step s now request).2
        (h ++ [⟨now, request, (M.step s now request).1⟩])

/-- The answers to a list of requests, made one after the other. -/
def replies (M : Machine σ ι ο) : σ → List (Int × ι) → List ο
  | _, [] => []
  | s, (now, request) :: rest =>
    (M.step s now request).1 :: M.replies (M.step s now request).2 rest

/-- The state after a list of requests, made one after the other. -/
def after (M : Machine σ ι ο) : σ → List (Int × ι) → σ
  | s, [] => s
  | s, (now, request) :: rest => M.after (M.step s now request).2 rest

/-- The events of a list of requests, made one after the other. -/
def history (M : Machine σ ι ο) : σ → List (Int × ι) → List (Event ι ο)
  | _, [] => []
  | s, (now, request) :: rest =>
    ⟨now, request, (M.step s now request).1⟩ :: M.history (M.step s now request).2 rest

/-- No reading lies before `last` or before the one of an earlier request. -/
def Ordered (last : Int) (requests : List (Int × ι)) : Prop :=
  List.IsChain (· ≤ ·) (last :: requests.map Prod.fst)

/-- Every request satisfies `guard` in the state it meets. -/
def Admits (M : Machine σ ι ο) (guard : σ → Int → ι → Prop) : σ → List (Int × ι) → Prop
  | _, [] => True
  | s, (now, request) :: rest =>
    guard s now request ∧ M.Admits guard (M.step s now request).2 rest

instance (last : Int) (requests : List (Int × ι)) : Decidable (Ordered last requests) :=
  inferInstanceAs (Decidable (List.IsChain _ _))

instance decidableAdmits (M : Machine σ ι ο) (guard : σ → Int → ι → Prop)
    [∀ s now request, Decidable (guard s now request)] :
    (s : σ) → (requests : List (Int × ι)) → Decidable (M.Admits guard s requests)
  | _, [] => isTrue trivial
  | s, (now, request) :: rest =>
    have := decidableAdmits M guard (M.step s now request).2 rest
    inferInstanceAs (Decidable (guard s now request ∧ M.Admits guard (M.step s now request).2 rest))

/-- What every request keeps, at whatever time, a list of them keeps. -/
theorem after_keeps {P : σ → Prop} (hstep : ∀ s now request, P s → P (M.step s now request).2)
    (hs : P s) (requests : List (Int × ι)) : P (M.after s requests) := by
  induction requests generalizing s with
  | nil => exact hs
  | cons r rest ih => exact ih (hstep s r.1 r.2 hs)

theorem ordered_cons {now : Int} {request : ι} {rest : List (Int × ι)} :
    Ordered last ((now, request) :: rest) ↔ last ≤ now ∧ Ordered now rest := by
  simp [Ordered]

theorem start_le_of_run (hr : M.Run start last s h) : start ≤ last := by
  induction hr with
  | init => exact Int.le_refl _
  | call run now request later ih => exact Int.le_trans ih later

theorem run_history (hr : M.Run start last s h) (requests : List (Int × ι))
    (ho : Ordered last requests) :
    ∃ last' s', M.Run start last' s' (h ++ M.history s requests) := by
  induction requests generalizing last s h with
  | nil => exact ⟨last, s, by simpa [history] using hr⟩
  | cons q rest ih =>
    obtain ⟨now, request⟩ := q
    obtain ⟨hle, hrest⟩ := ordered_cons.mp ho
    obtain ⟨last', s', hr'⟩ := ih (hr.call now request hle) hrest
    exact ⟨last', s', by simpa [history] using hr'⟩

/-- Related states answer alike as long as every admissible step keeps them related. -/
theorem replies_eq
    (hstep : ∀ {last s t now} (request : ι), R last s t → last ≤ now → G s now request →
      (M.step s now request).1 = (N.step t now request).1 ∧
        R now (M.step s now request).2 (N.step t now request).2) {t : τ} (hR : R last s t)
    {requests : List (Int × ι)} (ho : Ordered last requests) (ha : M.Admits G s requests) :
    M.replies s requests = N.replies t requests := by
  induction requests generalizing last s t with
  | nil => rfl
  | cons q rest ih =>
    obtain ⟨now, request⟩ := q
    obtain ⟨hle, hrest⟩ := ordered_cons.mp ho
    obtain ⟨hreply, hnext⟩ := hstep request hR hle ha.1
    simp only [replies, hreply, ih hnext hrest ha.2]

theorem admits_of_forall (hG : ∀ s now request, G s now request) (s : σ)
    (requests : List (Int × ι)) : M.Admits G s requests := by
  induction requests generalizing s with
  | nil => trivial
  | cons q rest ih => exact ⟨hG _ _ _, ih _⟩

/-- A simulation carries histories over: the simulating machine has the same one. -/
theorem run_of_simulation (hinit : R start M.init N.init)
    (hstep : ∀ {last s t now} (request : ι), R last s t → last ≤ now →
      (M.step s now request).1 = (N.step t now request).1 ∧
        R now (M.step s now request).2 (N.step t now request).2) (hr : M.Run start last s h) :
    ∃ t, N.Run start last t h ∧ R last s t := by
  induction hr with
  | init => exact ⟨N.init, .init, hinit⟩
  | call run now request later ih =>
    obtain ⟨t, ht, hR⟩ := ih
    obtain ⟨hreply, hnext⟩ := hstep request hR later
    exact ⟨_, hreply ▸ ht.call now request later, hnext⟩

/-- So they do without a guard. -/
theorem replies_of_simulation
    (hstep : ∀ {last s t now} (request : ι), R last s t → last ≤ now →
      (M.step s now request).1 = (N.step t now request).1 ∧
        R now (M.step s now request).2 (N.step t now request).2) {t : τ} (hR : R last s t)
    {requests : List (Int × ι)} (ho : Ordered last requests) :
    M.replies s requests = N.replies t requests :=
  replies_eq (G := fun _ _ _ => True) (fun request hR hle _ => hstep request hR hle) hR ho
    (admits_of_forall (fun _ _ _ => trivial) s requests)

theorem history_eq_zipWith (s : σ) (requests : List (Int × ι)) : M.history s requests =
    List.zipWith (fun q reply => ⟨q.1, q.2, reply⟩) requests (M.replies s requests) := by
  induction requests generalizing s with
  | nil => rfl
  | cons q rest ih => simp [history, replies, ih]

theorem ordered_filter {requests : List (Int × ι)} (ho : Ordered last requests)
    (p : Int × ι → Bool) : Ordered last (requests.filter p) := by
  rw [Ordered, List.isChain_iff_pairwise] at ho ⊢
  exact ho.sublist ((List.filter_sublist.map Prod.fst).cons_cons last)

section Local

variable {κ α : Type} [DecidableEq κ] {T : Machine (κ → Option α) ι ο} {key : ι → κ}

/-- Every request reads and writes the entry of its own key only. -/
def Local (T : Machine (κ → Option α) ι ο) (key : ι → κ) : Prop :=
  ∀ t now request, T.step t now request =
    ((T.step (fun _ => t (key request)) now request).1, Function.update t (key request)
      ((T.step (fun _ => t (key request)) now request).2 (key request)))

/-- What is asked about a key is answered as if nothing else were asked. -/
theorem history_local (hl : T.Local key) (k : κ) {t t' : κ → Option α} (hk : t k = t' k)
    (requests : List (Int × ι)) : (T.history t requests).filter (key ·.request = k) =
      T.history t' (requests.filter (key ·.2 = k)) := by
  induction requests generalizing t t' with
  | nil => rfl
  | cons q rest ih =>
    obtain ⟨now, request⟩ := q
    by_cases hr : key request = k
    · subst hr
      have hreply : (T.step t now request).1 = (T.step t' now request).1 := by
        rw [hl t, hl t', hk]
      have hnext : (T.step t now request).2 (key request) =
          (T.step t' now request).2 (key request) := by
        rw [hl t, hl t', hk]
        simp
      simp [history, hreply, ih hnext]
    · have hkeep : (T.step t now request).2 k = t' k := by
        rw [hl t, ← hk]
        exact Function.update_of_ne (Ne.symm hr) _ _
      simp [history, hr, ih hkeep]

/-- So it is for every machine that such a table simulates. -/
theorem history_isolated {R : Int → σ → (κ → Option α) → Prop} (hl : T.Local key)
    (hinit : R start M.init T.init)
    (hstep : ∀ {last s t now} (request : ι), R last s t → last ≤ now →
      (M.step s now request).1 = (T.step t now request).1 ∧
        R now (M.step s now request).2 (T.step t now request).2)
    {requests : List (Int × ι)} (ho : Ordered start requests) (k : κ) :
    (M.history M.init requests).filter (key ·.request = k) =
      M.history M.init (requests.filter (key ·.2 = k)) := by
  have hhistory : ∀ {rs}, Ordered start rs → M.history M.init rs = T.history T.init rs := by
    intro rs hrs
    rw [history_eq_zipWith, history_eq_zipWith, replies_of_simulation hstep hinit hrs]
  rw [hhistory ho, hhistory (ordered_filter ho _), history_local hl k rfl]

end Local

end Machine

end Fries
