import Fries.Lifecycle.Runner

/-! What holds of a runner between any two steps, and what each call can rely on. -/
namespace Fries.Lifecycle

variable {X E : Type}

/-- The providers that were bootstrapped successfully, in order. -/
def booted (w : World X E) : List Nat := (w.boots.filter fun p => ! p.2.failed).map Prod.fst

/-- Bootstrapping has ended: nothing is called any more, and all providers were or one failed. -/
def Over (c : Config) (w : World X E) : Prop :=
  w.bootCalls.length = w.boots.length ∧
    (w.boots.length = c.providers.length ∨ ∃ p ∈ w.boots, p.2.failed = true)

/-- Every provider that was bootstrapped successfully was shut down, the last one first. -/
def Complete (c : Config) (w : World X E) : Prop :=
  Over c w ∧ w.stopCalls = (booted w).reverse ∧ w.stops.map Prod.fst = (booted w).reverse

/-- The errors of the providers that failed to shut down, in the order of their calls. -/
def stopErrors (c : Config) (w : World X E) : List (Err (Failure E)) :=
  w.stops.filterMap fun p => p.2.error "shutdown" (c.typeName p.1)

/-- The error of the shutdown. -/
def stopError (c : Config) (w : World X E) : Option (Err (Failure E)) :=
  Err.join ((stopErrors c w).map some)

/-- The calls of the providers' methods. -/
structure Shape (c : Config) (w : World X E) : Prop where
  called : w.bootCalls = List.range w.bootCalls.length
  called_le : w.bootCalls.length ≤ c.providers.length
  returned : w.boots.map Prod.fst = List.range w.boots.length
  failed : ∀ p ∈ w.boots, p.2.failed = true → w.bootCalls.length = p.1 + 1
  reversed : w.stopCalls <+: (booted w).reverse
  ended : w.stopCalls ≠ [] → Over c w

/-- Bootstrapping has ended well, and nothing was shut down yet. -/
def Started (c : Config) (w : World X E) (started : List Nat) : Prop :=
  Over c w ∧ started = booted w ∧ w.stopCalls = [] ∧ w.stops = []

/-- The first providers are bootstrapped. -/
structure Starting (w : World X E) (index : Nat) (started : List Nat) : Prop where
  boots : w.boots.length = index
  well : ∀ p ∈ w.boots, p.2.failed = false
  started : started = booted w
  idle : w.stopCalls = [] ∧ w.stops = []

/-- Providers are shut down, and these are left. -/
structure Stopping (c : Config) (w : World X E) (providers : List Nat)
    (errs : List (Err (Failure E))) : Prop where
  ended : Over c w
  left : (booted w).reverse = w.stopCalls ++ providers
  errs : errs = stopErrors c w

/-- The states in the order in which a runner goes through them. -/
def RunnerState.rank : RunnerState → Nat
  | .new => 0
  | .starting => 1
  | .started => 2
  | .stopping => 3
  | .stopped => 4

theorem rank_eq_zero {state : RunnerState} : state.rank = 0 ↔ state = .new := by
  cases state <;> simp [RunnerState.rank]

theorem rank_eq_four {state : RunnerState} : 4 ≤ state.rank ↔ state = .stopped := by
  cases state <;> simp [RunnerState.rank]

structure Inv (c : Config) (w : World X E) : Prop where
  shape : Shape c w
  new : w.state = .new → w.bootCalls = [] ∧ w.boots = [] ∧ w.stopCalls = [] ∧ w.stops = []
  starting : w.state = .starting → w.startDone = some false
  started : w.state = .started → Started c w w.started
  stopping : w.state = .stopping → w.stopDone = some false
  stopped : w.state = .stopped → Complete c w ∧ w.shutdownErr = stopError c w
  startDone : 2 ≤ w.state.rank → w.startDone = some true
  stopDone : w.stopDone ≠ none → 3 ≤ w.state.rank ∧ (w.state = .stopped → w.stopDone = some true)

/-- The two calls that have the runner for themselves: the one that starts it, up to the end of
its rollback, and the one that stops it. -/
inductive Role
  | starter
  | stopper
  deriving DecidableEq

def Role.state : Role → RunnerState
  | .starter => .starting
  | .stopper => .stopping

def Purpose.role : Purpose E → Role
  | .rollback _ => .starter
  | .shutdown _ => .stopper

def Phase.role : Phase X E → Option Role
  | .bootstrap .. | .bootstrapping .. | .bootstrapped .. => some .starter
  | .shutdown purpose .. | .shuttingDown purpose .. | .shutDown purpose .. => some purpose.role
  | _ => none

/-- A `Run` shuts down a runner that has started. -/
def Stops (w : World X E) : Call X → Prop
  | .bootstrap _ => False
  | .shutdown _ => True
  | .run _ _ => 2 ≤ w.state.rank

def Fits (w : World X E) (call : Call X) : Role → Prop
  | .starter => ∀ ctx, call ≠ .shutdown ctx
  | .stopper => Stops w call

/-- What a call has brought about when it returns. -/
def Promise (w : World X E) (made found : RunnerState) (err : Option (Err (Failure E))) :
    Call X → Prop
  | .bootstrap _ => found = .new ∧ (err ≠ none → w.state = .stopped) ∨
    found ≠ .new ∧ err = some (.of .alreadyStarted)
  | .run _ _ => found = .new ∧ w.state = .stopped ∨
    found ≠ .new ∧ err = some (.of .alreadyStarted)
  | .shutdown _ => found = .new ∧ made = .new ∧ err = none ∨
    found ≠ .new ∧ w.state = .stopped ∧ err = w.shutdownErr

def AtPhase (c : Config) (call : Call X) (made : RunnerState) (w : World X E) :
    Phase X E → Prop
  | .start => True
  | .bootstrap index _ started => Starting w index started ∧ w.bootCalls.length = index
  | .bootstrapping index _ started => Starting w index started ∧ w.bootCalls.length = index + 1
  | .bootstrapped _ started => Started c w started
  | .handling _ | .observe .. => Stops w call
  | .awaitStart .. => Stops w call ∧ w.state ≠ .new
  | .awaitStop .. => Stops w call ∧ w.stopDone ≠ none
  | .shutdown _ _ providers errs => Stopping c w providers errs ∧ w.stops.map Prod.fst = w.stopCalls
  | .shuttingDown _ provider _ providers errs =>
    Stopping c w providers errs ∧ w.stopCalls = w.stops.map Prod.fst ++ [provider]
  | .shutDown _ _ err => Complete c w ∧ err = stopError c w
  | .returned found _ err => Promise w made found err call

structure AtCaller (c : Config) (call : Call X) (made : RunnerState) (w : World X E)
    (phase : Phase X E) : Prop where
  here : AtPhase c call made w phase
  since : made ≠ .new → w.state ≠ .new
  fits : ∀ role, phase.role = some role → Fits w call role

def At (c : Config) (l : Local X E) (w : World X E) : Prop :=
  match l with
  | .caller call made phase => AtCaller c call made w phase
  | .panicked => False

def weight (role : Role) : Local X E → Nat
  | .caller _ _ phase => if phase.role = some role then 1 else 0
  | .panicked => 0

def count (w : World X E) (role : Role) : Nat := if w.state = role.state then 1 else 0

/-- The call waits for another one. -/
def Waiting (w : World X E) : Phase X E → Prop
  | .awaitStart .. => w.state = .starting
  | .awaitStop .. => w.state = .stopping
  | _ => False

/-- How many steps are left at most, until the call returns, waits or has done its part. -/
def Phase.left (c : Config) : Phase X E → Nat
  | .returned .. => 0
  | .observe .. => 1
  | .awaitStart .. | .awaitStop .. => 2
  | .start | .handling _ => 3
  | .bootstrap index _ started => 4 * (c.providers.length - index) + 2 * started.length + 8
  | .bootstrapping index _ started => 4 * (c.providers.length - index) + 2 * started.length + 7
  | .bootstrapped .. => 1
  | .shutdown _ _ providers _ => 2 * providers.length + 3
  | .shuttingDown _ _ _ providers _ => 2 * providers.length + 4
  | .shutDown .. => 2

def Local.left (c : Config) : Local X E → Nat
  | .caller _ _ phase => phase.left c
  | .panicked => 0

/-- What a step does. -/
inductive Moves (c : Config) (call : Call X) (made : RunnerState) (w : World X E) :
    Phase X E → Phase X E → World X E → Prop
  | stay (hrole : phase.role = none) (hrole' : phase'.role = none)
      (hat : AtPhase c call made w phase')
      (hleft : Waiting w phase' ∨ phase'.left c < phase.left c) : Moves c call made w phase phase' w
  | start (hnew : w.state = .new) (hcall : ∀ ctx, call ≠ .shutdown ctx) :
    Moves c call made w .start (.bootstrap 0 ctx [])
      { w with state := .starting, startDone := some false }
  | call (hlt : index < c.providers.length) :
    Moves c call made w (.bootstrap index ctx started) (.bootstrapping index ctx started)
      { w with bootCalls := w.bootCalls ++ [index] }
  | all (hge : c.providers.length ≤ index) :
    Moves c call made w (.bootstrap index ctx started) (.bootstrapped ctx started) w
  | succeed :
    Moves c call made w (.bootstrapping index ctx started)
      (.bootstrap (index + 1) next (started ++ [index]))
      { w with boots := w.boots ++ [(index, .next next)] }
  | fail (hfailed : result.failed = true) :
    Moves c call made w (.bootstrapping index ctx started)
      (.shutdown (.rollback err) ctx' started.reverse [])
      { w with boots := w.boots ++ [(index, result)] }
  | started (hrole : phase'.role = none)
      (hat : ∀ w' : World X E, w'.state = .started → AtPhase c call made w' phase') :
    Moves c call made w (.bootstrapped ctx started) phase'
      { w with started := started, state := .started, startDone := some true }
  | take (hstarted : w.state = .started) (hstops : Stops w call) :
    Moves c call made w (.observe handled ctx)
      (.shutdown (.shutdown handled) ctx w.started.reverse [])
      { w with state := .stopping, stopDone := some false }
  | stop :
    Moves c call made w (.shutdown purpose ctx (provider :: providers) errs)
      (.shuttingDown purpose provider ctx providers errs)
      { w with stopCalls := w.stopCalls ++ [provider] }
  | stopped :
    Moves c call made w (.shuttingDown purpose provider ctx providers errs)
      (.shutdown purpose ctx' providers
        (errs ++ (result.error "shutdown" (c.typeName provider)).toList))
      { w with stops := w.stops ++ [(provider, result)] }
  | drain :
    Moves c call made w (.shutdown purpose ctx [] errs)
      (.shutDown purpose ctx (Err.join (errs.map some))) w
  | rollback (hrole : phase'.role = none)
      (hat : ∀ w' : World X E, w'.state = .stopped → AtPhase c call made w' phase') :
    Moves c call made w (.shutDown (.rollback bootErr) ctx err) phase'
      { w with state := .stopped, shutdownErr := err, startDone := some true }
  | finish (hrole : phase'.role = none)
      (hat : ∀ w' : World X E, w'.state = .stopped → w'.shutdownErr = err →
        AtPhase c call made w' phase') :
    Moves c call made w (.shutDown (.shutdown handled) ctx err) phase'
      { w with started := [], shutdownErr := err, state := .stopped, stopDone := some true }

variable {contexts : Contexts X} {c : Config} {w w' : World X E} {call : Call X}
  {made found : RunnerState} {phase phase' : Phase X E} {l : Local X E}
  {n : Progress (World X E) (Local X E)}

theorem state_of_role {role : Role} (hcount : ∀ k, weight k (.caller call made phase) ≤ count w k)
    (hrole : phase.role = some role) : w.state = role.state := by
  have hpos := hcount role
  by_contra hne
  simp [weight, count, hrole, hne] at hpos

theorem already_moves (ctx : X) (hcall : ∀ ctx, call ≠ .shutdown ctx) (hfound : found ≠ .new) :
    Moves c call made w .start (bootstrapReturns call found ctx (some (.of .alreadyStarted)))
      w := by
  cases call with
  | bootstrap | run => exact .stay rfl rfl (.inr ⟨hfound, rfl⟩) (.inr (Nat.succ_pos 2))
  | shutdown ctx => exact absurd rfl (hcall ctx)

theorem promise_started (E : Type) (c : Config) (made : RunnerState) (ctx : X)
    (hcall : ∀ ctx, call ≠ .shutdown ctx) :
    (bootstrapReturns (E := E) call .new ctx none).role = none ∧
      ∀ w' : World X E, w'.state = .started →
        AtPhase c call made w' (bootstrapReturns call .new ctx none) := by
  cases call with
  | bootstrap => exact ⟨rfl, fun _ _ => .inl ⟨rfl, fun herr => absurd rfl herr⟩⟩
  | run => exact ⟨rfl, fun w' hstate => by simp [AtPhase, bootstrapReturns, Stops, hstate,
      RunnerState.rank]⟩
  | shutdown ctx => exact absurd rfl (hcall ctx)

theorem promise_rollback (c : Config) (made : RunnerState) (ctx : X) (bootErr : Err (Failure E))
    (err : Option (Err (Failure E))) (hcall : ∀ ctx, call ≠ .shutdown ctx) :
    (bootstrapReturns call .new ctx (Err.join [some bootErr, err])).role = none ∧
      ∀ w' : World X E, w'.state = .stopped →
        AtPhase c call made w' (bootstrapReturns call .new ctx (Err.join [some bootErr, err])) := by
  cases call with
  | bootstrap => exact ⟨rfl, fun _ hstate => .inl ⟨rfl, fun _ => hstate⟩⟩
  | run =>
    obtain ⟨joined, hjoined⟩ : ∃ joined, Err.join [some bootErr, err] = some joined := by
      cases err <;> exact ⟨_, rfl⟩
    rw [hjoined]
    exact ⟨rfl, fun _ hstate => .inl ⟨rfl, hstate⟩⟩
  | shutdown ctx => exact absurd rfl (hcall ctx)

theorem promise_finish (c : Config) (made : RunnerState) (hfound : found ≠ .new)
    (handled : Option (Err (Failure E))) (ctx : X) (err : Option (Err (Failure E)))
    (hcall : ∀ ctx, call ≠ .bootstrap ctx) :
    (shutdownReturns call found handled ctx err).role = none ∧
      (shutdownReturns call found handled ctx err).left c = 0 ∧
      ∀ w' : World X E, w'.state = .stopped → w'.shutdownErr = err →
        AtPhase c call made w' (shutdownReturns call found handled ctx err) := by
  cases call with
  | bootstrap ctx => exact absurd rfl (hcall ctx)
  | run => exact ⟨rfl, rfl, fun _ hstate _ => .inl ⟨rfl, hstate⟩⟩
  | shutdown => exact ⟨rfl, rfl, fun _ hstate herr => .inr ⟨hfound, hstate, herr.symm⟩⟩

theorem not_bootstrap (h : Stops w call) (ctx : Option X) : call ≠ .bootstrap ctx := by
  rintro rfl
  exact h

section

variable (label : Label X E) (hw : Inv c w) (hat : AtCaller c call made w phase)
  (hcount : ∀ k, weight k (.caller call made phase) ≤ count w k)

include hw hat hcount

theorem bootstrapStep_moves (contexts : Contexts X)
    (h : bootstrapStep contexts c label call made phase w = some n) :
    ∃ phase' w', n = ⟨.caller call made phase', w', none⟩ ∧ Moves c call made w phase phase' w' := by
  cases phase with
  | start =>
    cases call with
    | shutdown ctx =>
      cases h
      exact ⟨_, _, rfl, .stay rfl rfl trivial (.inr (by simp [Phase.left]))⟩
    | bootstrap ctx | run ctx =>
      simp only [bootstrapStep] at h
      split at h <;> cases h
      · exact ⟨_, _, rfl, .start ‹_› (by simp)⟩
      · exact ⟨_, _, rfl, already_moves (normalizeContext contexts ctx) (by simp) ‹_›⟩
  | bootstrap index ctx started =>
    simp only [bootstrapStep] at h
    split at h <;> cases h
    · exact ⟨_, _, rfl, .call ‹_›⟩
    · exact ⟨_, _, rfl, .all (Nat.le_of_not_lt ‹_›)⟩
  | bootstrapping index ctx started =>
    cases label with
    | step | handled => cases h
    | returns result =>
      cases result with
      | next => cases h; exact ⟨_, _, rfl, .succeed⟩
      | fails | nilContext => cases h; exact ⟨_, _, rfl, .fail rfl⟩
  | bootstrapped ctx started =>
    have hopen := hw.starting (state_of_role hcount rfl)
    have hcall : ∀ ctx, call ≠ .shutdown ctx := hat.fits .starter rfl
    obtain ⟨hrole, hat'⟩ := promise_started E c made ctx hcall
    simp only [bootstrapStep, closing, hopen, if_true] at h
    cases h
    exact ⟨_, _, rfl, .started hrole hat'⟩
  | handling ctx =>
    have hstops : Stops w call := hat.here
    simp only [bootstrapStep] at h
    split at h <;> cases h <;>
      exact ⟨_, _, rfl, .stay rfl rfl hstops (.inr (by simp [Phase.left]))⟩
  | _ => cases h

theorem shutdownStep_moves (h : shutdownStep c label call made phase w = some n) :
    ∃ phase' w', n = ⟨.caller call made phase', w', none⟩ ∧ Moves c call made w phase phase' w' := by
  cases phase with
  | observe handled ctx =>
    have hstops : Stops w call := hat.here
    simp only [shutdownStep] at h
    split at h <;> cases h
    · rename_i hnew
      refine ⟨_, _, rfl, .stay rfl ?_ ?_ (.inr ?_)⟩
      · cases call <;> rfl
      rotate_left
      · cases call <;> simp [shutdownReturns, Phase.left]
      · cases call with
        | bootstrap => exact hstops.elim
        | run => simp [Stops, hnew, RunnerState.rank] at hstops
        | shutdown => exact .inl ⟨rfl, by_contra fun hmade => hat.since hmade hnew, rfl⟩
    · rename_i hstarting
      exact ⟨_, _, rfl, .stay rfl rfl ⟨hstops, by simp [hstarting]⟩ (.inl hstarting)⟩
    · exact ⟨_, _, rfl, .take ‹_› hstops⟩
    · rename_i hstopping
      exact ⟨_, _, rfl, .stay rfl rfl ⟨hstops, by simp [hw.stopping hstopping]⟩
        (.inl hstopping)⟩
    · have hfound : RunnerState.stopped ≠ .new := by simp
      obtain ⟨hrole, hleft, hat'⟩ := promise_finish c made hfound handled ctx w.shutdownErr
        (not_bootstrap hstops)
      exact ⟨_, _, rfl, .stay rfl hrole (hat' w ‹_› rfl) (.inr (hleft.symm ▸ Nat.succ_pos 0))⟩
  | awaitStart handled ctx | awaitStop handled ctx =>
    have hstops : Stops w call := hat.here.1
    simp only [shutdownStep] at h
    split at h <;> cases h
    exact ⟨_, _, rfl, .stay rfl rfl hstops (.inr (by simp [Phase.left]))⟩
  | shutdown purpose ctx providers errs =>
    cases providers with
    | nil => cases h; exact ⟨_, _, rfl, .drain⟩
    | cons => cases h; exact ⟨_, _, rfl, .stop⟩
  | shuttingDown purpose provider ctx providers errs =>
    cases label with
    | step | handled => cases h
    | returns result => cases h; exact ⟨_, _, rfl, .stopped⟩
  | shutDown purpose ctx err =>
    cases purpose with
    | rollback bootErr =>
      have hopen := hw.starting (state_of_role hcount rfl)
      have hcall : ∀ ctx, call ≠ .shutdown ctx := hat.fits .starter rfl
      obtain ⟨hrole, hat'⟩ := promise_rollback c made ctx bootErr err hcall
      simp only [shutdownStep, closing, hopen, if_true] at h
      cases h
      exact ⟨_, _, rfl, .rollback hrole hat'⟩
    | shutdown handled =>
      have hopen := hw.stopping (state_of_role hcount rfl)
      have hstops : Stops w call := hat.fits .stopper rfl
      have hfound : RunnerState.started ≠ .new := by simp
      obtain ⟨hrole, -, hat'⟩ := promise_finish c made hfound handled ctx err
        (not_bootstrap hstops)
      simp only [shutdownStep, closing, hopen, if_true] at h
      cases h
      exact ⟨_, _, rfl, .finish hrole hat'⟩
  | _ => cases h

end

theorem step_moves {label : Label X E} (hw : Inv c w) (hat : At c l w)
    (hcount : ∀ k, weight k l ≤ count w k) (h : step contexts c label l w = some n) :
    ∃ call made phase phase' w', l = .caller call made phase ∧
      n = ⟨.caller call made phase', w', none⟩ ∧ Moves c call made w phase phase' w' := by
  cases l with
  | panicked => cases h
  | caller call made phase =>
    have hmoves : ∃ phase' w', n = ⟨.caller call made phase', w', none⟩ ∧
        Moves c call made w phase phase' w' := by
      cases phase with
      | start | bootstrap | bootstrapping | bootstrapped | handling =>
        exact bootstrapStep_moves label hw hat hcount contexts h
      | _ => exact shutdownStep_moves label hw hat hcount h
    obtain ⟨phase', w', hn, hmoves⟩ := hmoves
    exact ⟨call, made, phase, phase', w', rfl, hn, hmoves⟩

end Fries.Lifecycle
