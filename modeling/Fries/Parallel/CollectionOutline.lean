import Fries.Lib.Custody
import Fries.Parallel.Collection

/-! What holds of a call over a list of values between any two steps. -/
namespace Fries.Parallel.Collection

variable {T R E : Type}

/-- The values that were handed to the group, in the custody of its functions. -/
def custody (w : World T R E) : Custody Nat := .numbered w.next w.ends

/-- What the call for a value returned, if there was one and it has ended. -/
def outcome (w : World T R E) (i : Nat) : Option (Result R E) := (w.ends.lookup i).join

/-- The entry of a value in the results. -/
def stored (kind : Kind) (zero : R) (r : Option (Result R E)) : Result R E :=
  match kind, r with
  | .map, some ⟨value, none⟩ => ⟨value, none⟩
  | .mapResults, some result => result
  | _, _ => ⟨zero, none⟩

structure Inv (kind : Kind) (values : List T) (zero : R) (w : World T R E) : Prop where
  wf : (custody w).Wf
  busy_le : (custody w).busy ≤ w.active
  within : w.next ≤ values.length
  once : (w.calls.map Prod.fst).Nodup
  called : ∀ p ∈ w.calls, values[p.1]? = some p.2 ∧ p.1 < w.next
  ended : ∀ i r, (i, some r) ∈ w.ends → i ∈ w.calls.map Prod.fst
  dropped : ∀ i, (i, none) ∈ w.ends → w.err.isSome = true ∧ i ∉ w.calls.map Prod.fst
  failed : kind ≠ .mapResults → ∀ i r, (i, some r) ∈ w.ends → r.err.isSome = true →
    w.err.isSome = true
  reason : w.groupCause.isSome = true → w.cause.isSome = true ∨ w.err.isSome = true
  results : w.results = (List.range values.length).map fun i => stored kind zero (outcome w i)
  completed : kind = .mapResults →
    w.completed = (List.range values.length).map fun i => (outcome w i).isSome

def AtStage (kind : Kind) (values : List T) (w : World T R E) : Stage R E → Prop
  | .start => w.active = 0 ∧ w.next = 0 ∧ w.err = none
  | .scheduling => True
  | .submitting => w.next < values.length
  | .waiting => w.next < values.length → w.groupCause.isSome = true
  | .joined => w.active = 0 ∧ w.err = none ∧ (w.next < values.length → w.cause.isSome = true)
  | .returned results err => w.active = 0 ∧ w.returns kind err = .returned results err ∧
    (err = none → w.err = none ∧ w.next = values.length)

def AtPhase (w : World T R E) : Phase → Prop
  | .checking index => index ∉ w.calls.map Prod.fst
  | .calling index => index ∈ w.calls.map Prod.fst
  | .releasing | .done => True

def At (kind : Kind) (values : List T) (l : Local R E) (w : World T R E) : Prop :=
  match l with
  | .main stage => AtStage kind values w stage
  | .task phase => AtPhase w phase
  | .panicked => False

/-- The value a function of the group is for, until it has come to its end. -/
def Local.token : Local R E → Option Nat
  | .task (.checking index) | .task (.calling index) => some index
  | _ => none

def Local.active : Local R E → Bool
  | .task .done => false
  | .task _ => true
  | _ => false

/-- What threads are counted in: the caller, the functions of the group, and those of them that
have come to their end or have not. -/
inductive Counter
  | main
  | active
  | free
  | custody (role : Custody.Role Nat)

def weight (k : Counter) (l : Local R E) : Nat :=
  match k with
  | .main =>
    match l with
    | .main _ => 1
    | _ => 0
  | .active => l.active.toNat
  | .free => (l.active && l.token.isNone).toNat
  | .custody role => Custody.weight role l.token

def count (w : World T R E) : Counter → Nat
  | .main => 1
  | .active => w.active
  | .free => w.active - (custody w).busy
  | .custody role => (custody w).count role

/-- The steps a caller has left at most, apart from those for the values. -/
def Stage.left : Stage R E → Nat
  | .start => 5
  | .scheduling => 4
  | .submitting => 3
  | .waiting => 2
  | .joined => 1
  | .returned .. => 0

attribute [local simp] Stage.left

/-- What a step does. -/
inductive Moves (c : Config) (kind : Kind) (values : List T) (w : World T R E) :
    Local R E → Progress (World T R E) (Local R E) → Prop
  | stay (hat : AtStage kind values w stage') (hleft : stage'.left < stage.left) :
    Moves c kind values w (.main stage) ⟨.main stage', w, none⟩
  | start : Moves c kind values w (.main .start)
      ⟨.main .scheduling, { w with groupCause := w.cause }, none⟩
  | submit (hlt : w.next < values.length) (hfree : w.active < c.limit) :
    Moves c kind values w (.main .submitting)
      ⟨.main .scheduling, { w with active := w.active + 1, next := w.next + 1 },
        some (.task (.checking w.next))⟩
  | drop :
    Moves c kind values w (.task (.checking index))
      ⟨.task .releasing, { w.fail cause with ends := w.ends ++ [(index, none)] }, none⟩
  | call (hvalue : values[index]? = some value) :
    Moves c kind values w (.task (.checking index))
      ⟨.task (.calling index), { w with calls := w.calls ++ [(index, value)] }, none⟩
  | fail (hkind : kind ≠ .mapResults) :
    Moves c kind values w (.task (.calling index))
      ⟨.task .releasing, { w.fail err with ends := w.ends ++ [(index, some ⟨value, some err⟩)] },
        none⟩
  | pass (hpass : kind ≠ .mapResults → result.err = none)
      (hresults : kind = .forEach ∧ results = w.results ∨
        kind ≠ .forEach ∧ results = w.results.set index result)
      (hcompleted : kind = .mapResults → completed = w.completed.set index true) :
    Moves c kind values w (.task (.calling index))
      ⟨.task .releasing, { w with
        results := results, completed := completed, ends := w.ends ++ [(index, some result)] }, none⟩
  | release : Moves c kind values w (.task .releasing)
      ⟨.task .done, { w with active := w.active - 1 }, none⟩

variable {c : Config} {kind : Kind} {values : List T} {zero : R} {w : World T R E}
  {stage : Stage R E} {phase : Phase} {l : Local R E} {n : Progress (World T R E) (Local R E)}
  {label : Label R E}

theorem fail_ends (w : World T R E) (ends : List (Nat × Option (Result R E))) (err : E) :
    World.fail { w with ends := ends } err = { w.fail err with ends := ends } := by
  unfold World.fail
  dsimp only
  split <;> rfl

/-- A call returns. -/
theorem finish_moves (index : Nat) (result : Result R E) :
    Moves c kind values w (.task (.calling index))
      ⟨.task .releasing, w.finish kind index result, none⟩ := by
  obtain ⟨value, err⟩ := result
  cases kind with
  | mapResults => exact .pass (fun h => absurd rfl h) (.inr ⟨nofun, rfl⟩) (fun _ => rfl)
  | forEach =>
    cases err with
    | none => exact .pass (fun _ => rfl) (.inl ⟨rfl, rfl⟩) nofun
    | some err =>
      simp only [World.finish, fail_ends]
      exact .fail nofun
  | map =>
    cases err with
    | none => exact .pass (fun _ => rfl) (.inr ⟨nofun, rfl⟩) nofun
    | some err =>
      simp only [World.finish, fail_ends]
      exact .fail nofun

/-- The caller returns with this error. -/
theorem returns_moves {err : Option E} (hleft : 0 < stage.left) (hidle : w.active = 0)
    (hdone : err = none → w.err = none ∧ w.next = values.length) :
    Moves c kind values w (.main stage) ⟨.main (w.returns kind err), w, none⟩ := by
  cases kind <;> exact .stay ⟨hidle, rfl, hdone⟩ hleft

theorem mainStep_moves (hw : Inv kind values zero w) (hat : AtStage kind values w stage)
    (h : mainStep c kind values stage w = some n) : Moves c kind values w (.main stage) n := by
  cases stage with
  | start =>
    obtain ⟨hidle, hnext, herr⟩ := hat
    simp only [mainStep] at h
    split at h <;> cases h
    · rename_i hempty
      exact returns_moves (by simp) hidle fun _ => ⟨herr, by omega⟩
    · exact .start
  | scheduling =>
    simp only [mainStep] at h
    split at h <;> cases h
    · rename_i hmore
      exact .stay hmore.1 (by simp)
    · rename_i hstop
      refine .stay (fun hlt => ?_) (by simp)
      cases hcause : w.groupCause with
      | none => exact absurd ⟨hlt, hcause⟩ hstop
      | some cause => rfl
  | submitting =>
    simp only [mainStep] at h
    split at h <;> cases h
    exact .submit hat ‹_›
  | waiting =>
    simp only [mainStep] at h
    split at h
    · rename_i hidle
      split at h <;> cases h
      · rename_i herr
        refine returns_moves (by simp) hidle fun hnone => ?_
        rw [hnone] at herr
        cases herr
      · rename_i herr
        refine .stay ⟨hidle, by simpa using herr, fun hlt => ?_⟩ (by simp)
        exact (hw.reason (hat hlt)).resolve_right herr
    · cases h
  | joined =>
    obtain ⟨hidle, herr, hcause⟩ := hat
    simp only [mainStep] at h
    split at h <;> cases h
    · rename_i hlt
      refine returns_moves (by simp) hidle fun hnone => ?_
      have hsome := hcause hlt
      rw [hnone] at hsome
      cases hsome
    · have hle := hw.within
      exact returns_moves (by simp) hidle fun _ => ⟨herr, by omega⟩
  | returned => cases h

/-- The thread is for this value, which has not come to its end. -/
theorem held_of_token {k : Nat} (hcount : ∀ k, weight k l ≤ count w k) (htoken : l.token = some k) :
    0 < (custody w).held k :=
  Custody.held_of_weight htoken (hcount (.custody (.holder k)))

theorem taskStep_moves (c : Config) (hw : Inv kind values zero w)
    (hcount : ∀ k, weight k (.task phase : Local R E) ≤ count w k)
    (h : taskStep kind values label phase w = some n) : Moves c kind values w (.task phase) n := by
  cases phase with
  | checking index =>
    simp only [taskStep, fail_ends] at h
    split at h
    · cases h
      exact .drop
    · split at h <;> cases h
      · exact .call ‹_›
      · -- the index is in range
        rename_i hpast
        have hlt := Custody.lt_of_held hw.wf (held_of_token hcount rfl)
        have hge := List.getElem?_eq_none_iff.mp hpast
        have hle := hw.within
        omega
  | calling index =>
    cases label with
    | step => cases h
    | returns result =>
      cases h
      exact finish_moves index result
  | releasing =>
    cases h
    exact .release
  | done => cases h

theorem step_moves (hw : Inv kind values zero w) (hat : At kind values l w)
    (hcount : ∀ k, weight k l ≤ count w k) (h : step c kind values label l w = some n) :
    Moves c kind values w l n := by
  cases l with
  | main stage => exact mainStep_moves hw hat h
  | task phase => exact taskStep_moves c hw hcount h
  | panicked => cases h

end Fries.Parallel.Collection
