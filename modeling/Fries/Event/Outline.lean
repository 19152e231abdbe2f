import Fries.Event.Dispatcher
import Fries.Lib.Custody

/-! What holds of a dispatch between any two steps, and of every index. -/
namespace Fries.Event

variable {E : Type}

/-- The claimed indices in the custody of the workers. -/
def custody (w : World E) : Custody Nat := .numbered w.next w.ends

/-- The error the handler returned, if it was called and did. -/
def outcome (w : World E) (i : Nat) : Option (Error E) := (w.ends.lookup i).join.join

/-- The errors of the first handlers, in registration order. -/
def errorsOf (w : World E) (k : Nat) : List (Error E) := (List.range k).filterMap (outcome w)

section

variable (entries : Nat) (c : DispatchConfig) (w : World E)

/-- The dispatch is serial. -/
def Serial : Prop := c.concurrency = 1 ∨ entries = 1

/-- Workers may stop. -/
def Ended : Prop := w.canceled c = true ∨ entries < w.next

structure Inv : Prop where
  wf : (custody w).Wf
  busy_le : ¬ Serial entries c → (custody w).busy ≤ w.running
  once : w.calls.Nodup
  called : ∀ i ∈ w.calls, i < entries ∧ i < w.next
  ended : ∀ i r, (i, some r) ∈ w.ends → i ∈ w.calls
  dropped : ∀ i, (i, none) ∈ w.ends → entries ≤ i ∨ w.canceled c = true
  results : ¬ Serial entries c → c.continueOnError = true →
    w.results = (List.range entries).map (outcome w)
  first : ¬ Serial entries c → c.continueOnError = false →
    ∀ i e, (i, some (some e)) ∈ w.ends → w.firstError.isSome = true
  origin : ∀ e, w.firstError = some e → ∃ i, (i, some (some e)) ∈ w.ends
  reason : w.runCause.isSome = true → w.cause.isSome = true ∨ w.firstError.isSome = true
  cancels : w.firstError.isSome = true → w.runCause.isSome = true

/-- What a dispatch has brought about when it returns without having been canceled. -/
structure Promise (err : Option (Error E)) : Prop where
  all : c.continueOnError = true → ∀ i < entries, ∃ r, (i, some r) ∈ w.ends
  collected : c.continueOnError = true → err = joinErrors (errorsOf w entries)
  failed : c.continueOnError = false → ∀ e, err = some e → ∃ i, (i, some (some e)) ∈ w.ends
  passed : c.continueOnError = false → err = none → ∀ i < entries, (i, some none) ∈ w.ends

/-- A serial dispatch is done with the first handlers and has collected their errors. -/
structure Serially (done : Nat) (errs : List (Error E)) : Prop where
  serial : Serial entries c
  idle : w.running = 0
  calls : w.calls = List.range w.next
  ends : w.ends.map Prod.fst = List.range done
  kept : ∀ p ∈ w.ends, p.2.isSome = true
  collected : errs = errorsOf w done
  well : c.continueOnError = false → errs = []
  within : w.next ≤ entries

def AtStage : Stage E → Prop
  | .start nilContext nilEvent => nilContext = false ∧ nilEvent = false ∧
    w.running = 0 ∧ w.next = 0 ∧ w.calls = [] ∧ w.ends = []
  | .serial errs | .serialReturned errs => Serially entries c w w.next errs
  | .serialCalling index errs => Serially entries c w index errs ∧ w.next = index + 1
  | .spawning left => ¬ Serial entries c ∧ 0 < entries ∧
    (w.running + left < min c.concurrency entries → Ended entries c w)
  | .waiting => ¬ Serial entries c ∧ 0 < entries ∧
    (w.running < min c.concurrency entries → Ended entries c w)
  | .returned err => w.running = 0 ∧ (w.cause = none → Promise entries c w err)

def AtPhase : Phase E → Prop
  | .checking | .claiming => True
  | .claimed index => index ∉ w.calls
  | .calling index => index ∈ w.calls
  | .reporting index _ => index ∈ w.calls ∧ c.continueOnError = false
  | .exiting | .exited => Ended entries c w

def At (l : Local E) (w : World E) : Prop :=
  match l with
  | .dispatcher stage => AtStage entries c w stage
  | .worker phase => ¬ Serial entries c ∧ AtPhase entries c w phase

end

/-- The index a thread has claimed. -/
def Local.token : Local E → Option Nat
  | .dispatcher (.serialCalling index _) => some index
  | .worker (.claimed index) | .worker (.calling index) | .worker (.reporting index _) => some index
  | _ => none

/-- What threads are counted in: the dispatcher, the workers, those without an index and those
that have claimed one. -/
inductive Counter
  | dispatcher
  | active
  | free
  | custody (role : Custody.Role Nat)

def Local.active : Local E → Bool
  | .dispatcher _ | .worker .exited => false
  | .worker _ => true

def weight (k : Counter) (l : Local E) : Nat :=
  match k with
  | .dispatcher =>
    match l with
    | .dispatcher _ => 1
    | .worker _ => 0
  | .active => l.active.toNat
  | .free => (l.active && l.token.isNone).toNat
  | .custody role => Custody.weight role l.token

def count (w : World E) : Counter → Nat
  | .dispatcher => 1
  | .active => w.running
  | .free => w.running - (custody w).busy
  | .custody role => (custody w).count role

/-- The steps a dispatcher has left at most, apart from those for the handlers. -/
def Stage.left (entries : Nat) (c : DispatchConfig) : Stage E → Nat
  | .start .. => 8 * min c.concurrency entries + 5
  | .serial _ => 4
  | .serialCalling .. => 8
  | .serialReturned _ => 6
  | .spawning left => 8 * left + 3
  | .waiting => 2
  | .returned _ => 0

attribute [local simp] Stage.left

/-- What a step does. -/
inductive Moves (errorsIs : Error E → Error E → Bool) (entries : Nat) (c : DispatchConfig)
    (w : World E) : Local E → Progress (World E) (Local E) → Prop
  | stay (htoken : (Local.dispatcher stage).token = none)
      (htoken' : (Local.dispatcher stage').token = none) (hat : AtStage entries c w stage')
      (hleft : stage'.left entries c < stage.left entries c) :
    Moves errorsIs entries c w (.dispatcher stage) ⟨.dispatcher stage', w, none⟩
  | serialCall (hlt : w.next < entries) :
    Moves errorsIs entries c w (.dispatcher (.serial errs))
      ⟨.dispatcher (.serialCalling w.next errs),
        { w with next := w.next + 1, calls := w.calls ++ [w.next] }, none⟩
  | serialReturn (hgo : result = none ∨ c.continueOnError = true) :
    Moves errorsIs entries c w (.dispatcher (.serialCalling index errs))
      ⟨.dispatcher (.serialReturned (errs ++ result.toList)),
        { w with ends := w.ends ++ [(index, some result)] }, none⟩
  | serialFail (hstop : c.continueOnError = false) :
    Moves errorsIs entries c w (.dispatcher (.serialCalling index errs))
      ⟨.dispatcher (.returned (joinErrors
          (appendContextCause errorsIs ((errs ++ [err]).map some) w.cause))),
        { w with ends := w.ends ++ [(index, some (some err))] }, none⟩
  | spawn :
    Moves errorsIs entries c w (.dispatcher (.spawning (left + 1)))
      ⟨.dispatcher (.spawning left), { w with running := w.running + 1 }, some (.worker .checking)⟩
  | check : Moves errorsIs entries c w (.worker .checking) ⟨.worker .claiming, w, none⟩
  | leave (hcanceled : w.canceled c = true) :
    Moves errorsIs entries c w (.worker .checking) ⟨.worker .exiting, w, none⟩
  | claim : Moves errorsIs entries c w (.worker .claiming)
      ⟨.worker (.claimed w.next), { w with next := w.next + 1 }, none⟩
  | drop (hends : entries ≤ index ∨ w.canceled c = true) :
    Moves errorsIs entries c w (.worker (.claimed index))
      ⟨.worker .exiting, { w with ends := w.ends ++ [(index, none)] }, none⟩
  | call (hlt : index < entries) :
    Moves errorsIs entries c w (.worker (.claimed index))
      ⟨.worker (.calling index), { w with calls := w.calls ++ [index] }, none⟩
  | pass :
    Moves errorsIs entries c w (.worker (.calling index))
      ⟨.worker .checking, { w with ends := w.ends ++ [(index, some none)] }, none⟩
  | store (hgo : c.continueOnError = true) :
    Moves errorsIs entries c w (.worker (.calling index))
      ⟨.worker .checking, { w with
        results := w.results.set index (some err), ends := w.ends ++ [(index, some (some err))] },
        none⟩
  | fail (hstop : c.continueOnError = false) :
    Moves errorsIs entries c w (.worker (.calling index)) ⟨.worker (.reporting index err), w, none⟩
  | late (hfirst : w.firstError.isSome = true) :
    Moves errorsIs entries c w (.worker (.reporting index err))
      ⟨.worker .exiting, { w with ends := w.ends ++ [(index, some (some err))] }, none⟩
  | report (hfirst : w.firstError = none) :
    Moves errorsIs entries c w (.worker (.reporting index err))
      ⟨.worker .exiting, { w with
        ends := w.ends ++ [(index, some (some err))], firstError := some err
        runCause := some (w.runCause.getD err) }, none⟩
  | exit : Moves errorsIs entries c w (.worker .exiting)
      ⟨.worker .exited, { w with running := w.running - 1 }, none⟩

variable {errorsIs : Error E → Error E → Bool} {entries : Nat} {c : DispatchConfig}
  {w w' : World E} {stage stage' : Stage E} {phase : Phase E} {l : Local E}
  {n : Progress (World E) (Local E)} {errs : List (Error E)} {err : Option (Error E)}
  {label : Label E}

theorem appendContextCause_none (errs : List (Error E)) :
    appendContextCause errorsIs (errs.map some) none = errs := by
  simp [appendContextCause, compactErrors]

/-- The results of the workers, without the nils. -/
theorem compactErrors_outcomes (w : World E) :
    compactErrors ((List.range entries).map (outcome w)) = errorsOf w entries := by
  simp [compactErrors, errorsOf, List.filterMap_map]

section

variable (hw : Inv entries c w) {i : Nat}

include hw

/-- A handler that was not given up has come to its end with what it returned. -/
theorem returned_of_idle (hidle : (custody w).busy = 0) (hended : Ended entries c w)
    (hlive : w.canceled c = false) (hi : i < entries) : ∃ r, (i, some r) ∈ w.ends := by
  have hlt : entries < w.next := by
    rcases hended with hcanceled | hlt
    · rw [hlive] at hcanceled
      cases hcanceled
    · exact hlt
  obtain ⟨a, ha⟩ := Custody.ended_of_idle hw.wf hidle (Nat.lt_trans hi hlt)
  cases a with
  | some r => exact ⟨r, ha⟩
  | none =>
    rcases hw.dropped i ha with hge | hcanceled
    · omega
    · rw [hlive] at hcanceled
      cases hcanceled

theorem idle_of_joined (hmany : ¬ Serial entries c) (hnone : w.running = 0) :
    (custody w).busy = 0 := by
  have hle := hw.busy_le hmany
  omega

/-- All workers have exited. -/
theorem promise_of_joined (hmany : ¬ Serial entries c) (hpos : 0 < entries) (hnone : w.running = 0)
    (hended : w.running < min c.concurrency entries → Ended entries c w) (hcause : w.cause = none) :
    Promise entries c w (joinErrors (appendContextCause errorsIs
      (if c.continueOnError then (compactErrors w.results).map some else [w.firstError]) w.cause)) := by
  have hidle := idle_of_joined hw hmany hnone
  have hdone : Ended entries c w := by
    refine hended ?_
    have := c.concurrency_pos
    omega
  rw [hcause]
  cases hmode : c.continueOnError with
  | true =>
    have hlive : w.canceled c = false := by simp [World.canceled, hmode, hcause]
    have hmode' : c.continueOnError ≠ false := by simp [hmode]
    refine ⟨fun _ i hi => returned_of_idle hw hidle hdone hlive hi, fun _ => ?_,
      fun h => absurd h hmode', fun h => absurd h hmode'⟩
    rw [if_pos rfl, appendContextCause_none, hw.results hmany hmode, compactErrors_outcomes]
  | false =>
    have hresult : joinErrors (appendContextCause errorsIs [w.firstError] none) = w.firstError := by
      cases w.firstError <;> rfl
    have hmode' : c.continueOnError ≠ true := by simp [hmode]
    rw [if_neg Bool.false_ne_true, hresult]
    refine ⟨fun h => absurd h hmode', fun h => absurd h hmode', fun _ e he => hw.origin e he,
      fun _ hfirst i hi => ?_⟩
    have hlive : w.canceled c = false := by
      cases hrun : w.runCause with
      | none => simp [World.canceled, hmode, hrun]
      | some cause => simpa [hcause, hfirst] using hw.reason (by simp [hrun])
    obtain ⟨r, hr⟩ := returned_of_idle hw hidle hdone hlive hi
    cases r with
    | none => exact hr
    | some e => simpa [hfirst] using hw.first hmany hmode i e hr

theorem outcome_of_mem {r : Option (Error E)} (hr : (i, some r) ∈ w.ends) : outcome w i = r := by
  rw [outcome, Custody.lookup_of_mem hw.wf hr]
  rfl

/-- The loop of a serial dispatch is done. -/
theorem promise_of_serial (hs : Serially entries c w entries errs) :
    Promise entries c w (joinErrors errs) := by
  have hall : ∀ i < entries, ∃ r, (i, some r) ∈ w.ends := by
    intro i hi
    have hmem : i ∈ w.ends.map Prod.fst := hs.ends ▸ List.mem_range.mpr hi
    obtain ⟨⟨k, a⟩, hp, rfl⟩ := List.mem_map.mp hmem
    obtain ⟨r, hr⟩ := Option.isSome_iff_exists.mp (hs.kept _ hp)
    exact ⟨r, by rw [← hr]; exact hp⟩
  refine ⟨fun _ => hall, fun _ => by rw [hs.collected], ?_, ?_⟩
  · intro hstop e he
    rw [hs.well hstop] at he
    cases he
  · intro hstop _ i hi
    obtain ⟨r, hr⟩ := hall i hi
    have hnone : ∀ k ∈ List.range entries, outcome w k = none := by
      rw [← List.filterMap_eq_nil_iff]
      exact hs.collected.symm.trans (hs.well hstop)
    have hrnone : r = none := (outcome_of_mem hw hr).symm.trans (hnone i (List.mem_range.mpr hi))
    exact hrnone ▸ hr

theorem dispatcherStep_moves {label : Label E} (hat : AtStage entries c w stage)
    (h : dispatcherStep errorsIs entries c label stage w = some n) :
    Moves errorsIs entries c w (.dispatcher stage) n := by
  cases stage with
  | start nilContext nilEvent =>
    obtain ⟨rfl, rfl, hidle, hnext, hcalls, hends⟩ := hat
    simp only [dispatcherStep, Bool.false_eq_true, if_false] at h
    split at h
    · rename_i hcause
      cases h
      refine .stay rfl rfl ⟨hidle, fun hnone => ?_⟩ (by simp)
      rw [hnone] at hcause
      cases hcause
    split at h
    · rename_i hzero
      cases h
      refine .stay rfl rfl ⟨hidle, fun _ => ?_⟩ (by simp)
      subst hzero
      exact ⟨fun _ i hi => absurd hi (Nat.not_lt_zero i), fun _ => rfl, nofun,
        fun _ _ i hi => absurd hi (Nat.not_lt_zero i)⟩
    rename_i hpos
    split at h <;> cases h
    · rename_i hserial
      refine .stay rfl rfl ⟨hserial, hidle, ?_, ?_, ?_, ?_, fun _ => rfl, by omega⟩
        (by simp only [Stage.left]; omega)
      · rw [hcalls, hnext]
        rfl
      · rw [hends, hnext]
        rfl
      · rw [hends]
        nofun
      · rw [hnext]
        rfl
    · rename_i hmany
      exact .stay rfl rfl ⟨hmany, by omega, fun hlt => by omega⟩ (by simp only [Stage.left]; omega)
  | serial errs =>
    simp only [dispatcherStep] at h
    split at h
    · rename_i hlt
      split at h <;> cases h
      · rename_i hcause
        refine .stay rfl rfl ⟨hat.idle, fun hnone => ?_⟩ (by simp)
        rw [hnone] at hcause
        cases hcause
      · exact .serialCall hlt
    · rename_i hge
      cases h
      have hnext : w.next = entries := Nat.le_antisymm hat.within (Nat.le_of_not_lt hge)
      exact .stay rfl rfl ⟨hat.idle, fun _ => promise_of_serial hw (hnext ▸ hat)⟩
        (by simp)
  | serialCalling index errs =>
    cases label with
    | step => cases h
    | returns result =>
      simp only [dispatcherStep] at h
      split at h
      · rename_i hfail
        cases result with
        | none => cases hfail.1
        | some err =>
          cases h
          exact .serialFail hfail.2
      · rename_i hgo
        cases h
        refine .serialReturn ?_
        cases result with
        | none => exact .inl rfl
        | some err => exact .inr (by simpa using hgo)
  | serialReturned errs =>
    simp only [dispatcherStep] at h
    split at h <;> cases h
    · rename_i hcause
      refine .stay rfl rfl ⟨hat.idle, fun hnone => ?_⟩ (by simp)
      rw [hnone] at hcause
      cases hcause
    · exact .stay rfl rfl hat (by simp)
  | spawning left =>
    cases left with
    | zero =>
      cases h
      exact .stay rfl rfl hat (by simp)
    | succ left =>
      cases h
      exact .spawn
  | waiting =>
    obtain ⟨hmany, hpos, hended⟩ := hat
    simp only [dispatcherStep] at h
    split at h <;> cases h
    rename_i hnone
    exact .stay rfl rfl
      ⟨hnone, fun hcause => promise_of_joined hw hmany hpos hnone hended hcause⟩
      (by simp)
  | returned => cases h

end

theorem workerStep_moves (errorsIs : Error E → Error E → Bool)
    (h : workerStep entries c label phase w = some n) :
    Moves errorsIs entries c w (.worker phase) n := by
  cases phase with
  | checking =>
    cases h
    split
    · exact .leave ‹_›
    · exact .check
  | claiming =>
    cases h
    exact .claim
  | claimed index =>
    simp only [workerStep] at h
    split at h <;> cases h
    · exact .drop ‹_›
    · rename_i hgo
      exact .call (by omega)
  | calling index =>
    cases label with
    | step => cases h
    | returns result =>
      cases result with
      | none =>
        cases h
        exact .pass
      | some err =>
        simp only [workerStep] at h
        split at h <;> cases h
        · exact .store ‹_›
        · exact .fail (by simpa using ‹¬ c.continueOnError = true›)
  | reporting index err =>
    simp only [workerStep] at h
    split at h <;> cases h
    · exact .late ‹_›
    · exact .report (by simpa using ‹¬ w.firstError.isSome = true›)
  | exiting =>
    cases h
    exact .exit
  | exited => cases h

theorem step_moves (hw : Inv entries c w) (hat : At entries c l w)
    (h : step errorsIs entries c label l w = some n) : Moves errorsIs entries c w l n := by
  cases l with
  | dispatcher stage => exact dispatcherStep_moves hw hat h
  | worker phase => exact workerStep_moves errorsIs h

end Fries.Event
