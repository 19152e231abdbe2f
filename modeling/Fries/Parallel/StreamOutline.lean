import Fries.Lib.Custody
import Fries.Parallel.Stream

/-! What holds of the stream between any two steps, and of every received value. -/
namespace Fries.Parallel.Stream

variable {T R E : Type} {w w' : World T R E} {i j : Nat}

/-- The numbered values in the custody of the workers. -/
def custody (w : World T R E) : Custody Nat := .numbered w.next w.ends

/-- Workers may stop. -/
def Ended (w : World T R E) : Prop :=
  w.cancelled.isSome ∨ w.input.closed = true ∧ w.input.buf = []

/-- Every value that was received has its result delivered, and there are no more values. -/
def Complete (w : World T R E) : Prop :=
  w.input.closed = true ∧
    (w.delivered.map StreamResult.index).Perm (List.range w.received.length)

/-- The result is what the function returned for the value with this number. -/
def Computed (w : World T R E) (r : StreamResult R E) : Prop :=
  ∃ v, w.received[r.index]? = some v ∧ ⟨r.index, v, r.value, r.err⟩ ∈ w.applied

structure Inv (limit : Nat) (w : World T R E) : Prop where
  numbered : w.gate = false → w.next = w.received.length
  next_le : w.next ≤ w.received.length
  wf : (custody w).Wf
  flight_le : w.received.length ≤ w.ends.length + w.workers
  gate_le : w.gate.toNat ≤ w.workers
  workers_le : w.workers ≤ limit
  exited : w.workers < limit → Ended w
  results : ∀ n r, (n, some r) ∈ w.ends → r.index = n ∧ Computed w r
  dropped : ∀ n, (n, none) ∈ w.ends → w.cancelled.isSome
  closing : w.results.closed = true → w.workers = 0
  buffered : ∀ r ∈ w.results.buf, r ∈ w.delivered
  finished : w.done = true → w.workers = 0 ∧ (w.err = none → Complete w)

def AtCaller (w : World T R E) : Point R E → Prop
  | .returned (.result r) => r ∈ w.delivered
  | .returned (.waited err) => w.done = true ∧ w.err = err
  | _ => True

def AtWorker (w : World T R E) : Phase T R E → Prop
  | .acquire | .exited => True
  | .gated | .receiving => w.next = w.received.length
  | .numbering v => w.received.length = w.next + 1 ∧ w.received[w.next]? = some v
  | .release none => w.next = w.received.length ∧ Ended w
  | .release (some (v, n)) => w.next = w.received.length ∧ w.received[n]? = some v
  | .check v n | .calling v n => w.received[n]? = some v
  | .delivering r => Computed w r
  | .exiting => Ended w

def AtEnder (w : World T R E) : Ending → Prop
  | .workers => w.results.closed = false ∧ w.done = false
  | .cancel | .results => w.results.closed = false ∧ w.done = false ∧ w.workers = 0 ∧
    (w.err = none → Complete w)
  | .done => w.done = false ∧ w.workers = 0 ∧ (w.err = none → Complete w)
  | .finished => True

def At (l : Local T R E) (w : World T R E) : Prop :=
  match l with
  | .caller _ point => AtCaller w point
  | .worker phase => AtWorker w phase
  | .ender stage => AtEnder w stage
  | .panicked => False

/-- The number a worker holds. -/
def Phase.token : Phase T R E → Option Nat
  | .release (some (_, n)) | .check _ n | .calling _ n => some n
  | .delivering r => some r.index
  | _ => none

/-- The worker has its turn at the input. -/
def Phase.inGate : Phase T R E → Bool
  | .gated | .receiving | .numbering _ | .release _ => true
  | _ => false

/-- The worker has a value in flight. -/
def Phase.flying : Phase T R E → Bool
  | .numbering _ | .release (some _) | .check .. | .calling .. | .delivering _ => true
  | _ => false

def Phase.active : Phase T R E → Bool
  | .exited => false
  | _ => true

/-- What threads are counted in: the workers, those at the input and the others, those without a
value, those with a numbered one, and the goroutine that ends the stream. -/
inductive Counter
  | active
  | gate
  | outside
  | idle
  | custody (role : Custody.Role Nat)
  | ender

def weight (k : Counter) : Local T R E → Nat
  | .worker phase =>
    match k with
    | .active => phase.active.toNat
    | .gate => phase.inGate.toNat
    | .outside => (phase.active && ! phase.inGate).toNat
    | .idle => (phase.active && ! phase.flying).toNat
    | .custody role => Custody.weight role phase.token
    | .ender => 0
  | .ender _ =>
    match k with
    | .ender => 1
    | _ => 0
  | .caller .. | .panicked => 0

def count (w : World T R E) : Counter → Nat
  | .active => w.workers
  | .gate => w.gate.toNat
  | .outside => w.workers - w.gate.toNat
  | .idle => w.workers - (w.received.length - w.ends.length)
  | .custody role => (custody w).count role
  | .ender => 1

/-- What a step does. -/
inductive Moves (w : World T R E) : Local T R E → Progress (World T R E) (Local T R E) → Prop
  | stay (hat : AtCaller w point') : Moves w (.caller call point) ⟨.caller call point', w, none⟩
  | consume :
    Moves w (.caller call point)
      ⟨.caller call .waiting, { w with results := w.results.await }, none⟩
  | take (h : w.results.receive = some (r, results)) :
    Moves w (.caller call point)
      ⟨.caller call (.returned (.result r)), { w with results := results }, none⟩
  | leave (houtcome : outcome = .drained ∨ outcome = .left) :
    Moves w (.caller call point)
      ⟨.caller call (.returned outcome), { w with results := w.results.quit }, none⟩
  | close : Moves w (.caller call point) ⟨.caller call .waiting, w.cancel "context canceled", none⟩
  | acquire (hgate : w.gate = false) :
    Moves w (.worker .acquire) ⟨.worker .gated, { w with gate := true }, none⟩
  | abandon (hended : Ended w) : Moves w (.worker .acquire) ⟨.worker .exiting, w, none⟩
  | pass (hended : Ended w) : Moves w (.worker .gated) ⟨.worker (.release none), w, none⟩
  | await :
    Moves w (.worker .gated) ⟨.worker .receiving, { w with input := w.input.await }, none⟩
  | receive (h : w.input.receive = some (value, input)) :
    Moves w (.worker .receiving)
      ⟨.worker (.numbering value),
        { w with input := input, received := w.received ++ [value] }, none⟩
  | quit (hended : Ended w) :
    Moves w (.worker .receiving)
      ⟨.worker (.release none), { w with input := w.input.quit }, none⟩
  | number :
    Moves w (.worker (.numbering value))
      ⟨.worker (.release (some (value, w.next))), { w with next := w.next + 1 }, none⟩
  | release (hphase : phase = (received.elim .exiting fun p => .check p.1 p.2)) :
    Moves w (.worker (.release received)) ⟨.worker phase, { w with gate := false }, none⟩
  | call : Moves w (.worker (.check value n)) ⟨.worker (.calling value n), w, none⟩
  | apply :
    Moves w (.worker (.calling value n))
      ⟨.worker (.delivering ⟨n, result, err⟩),
        { w with applied := w.applied ++ [⟨n, value, result, err⟩] }, none⟩
  | drop (htoken : phase.token = some n) (hgate : phase.inGate = false)
      (hcancelled : w.cancelled.isSome) : Moves w (.worker phase) ⟨.worker .exiting, w.drop n, none⟩
  | deliver (hopen : w.results.closed = false) :
    Moves w (.worker (.delivering r))
      ⟨.worker .acquire,
        { w with results := w.results.send r, ends := w.ends ++ [(r.index, some r)] }, none⟩
  | exit : Moves w (.worker .exiting) ⟨.worker .exited, { w with workers := w.workers - 1 }, none⟩
  | status (hnone : w.workers = 0) :
    Moves w (.ender .workers) ⟨.ender .cancel, { w with err := w.cancelled }, none⟩
  | cancel : Moves w (.ender .cancel) ⟨.ender .results, w.cancel "context canceled", none⟩
  | closeResults :
    Moves w (.ender .results) ⟨.ender .done, { w with results := w.results.close }, none⟩
  | finish : Moves w (.ender .done) ⟨.ender .finished, { w with done := true }, none⟩

variable {limit : Nat} {label : Label R E} {phase : Phase T R E} {l m : Local T R E}
  {n : Progress (World T R E) (Local T R E)}

theorem caller_moves {call : Call} {point : Point R E}
    (h : callerStep i label call point w = some n) : Moves w (.caller call point) n := by
  unfold callerStep at h
  cases point with
  | returned o => cases call <;> cases h
  | start =>
    cases call with
    | consume =>
      cases h
      exact .consume
    | close =>
      cases h
      exact .close
    | wait =>
      cases h
      exact .stay trivial
  | waiting =>
    cases call with
    | consume =>
      cases label with
      | send | returns => cases h
      | receive =>
        dsimp only at h
        split at h
        · rename_i r results hreceive
          cases h
          exact .take hreceive
        · split at h <;> cases h
          exact .leave (.inl rfl)
      | done =>
        dsimp only at h
        split at h <;> cases h
        exact .leave (.inr rfl)
    | close =>
      dsimp only at h
      split at h <;> cases h
      exact .stay trivial
    | wait =>
      dsimp only at h
      split at h
      · rename_i hdone
        cases h
        exact .stay ⟨hdone, rfl⟩
      · obtain ⟨cause, -, rfl⟩ := Option.map_eq_some_iff.mp h
        exact .stay trivial

theorem worker_moves (hw : Inv limit w) (hactive : phase.active = true → 0 < w.workers)
    (h : workerStep label phase w = some n) : Moves w (.worker phase) n := by
  unfold workerStep at h
  cases phase with
  | exited => cases h
  | acquire =>
    cases label with
    | send =>
      dsimp only at h
      split at h <;> cases h
      rename_i hgate
      exact .acquire (by simpa using hgate)
    | done =>
      dsimp only at h
      split at h <;> cases h
      rename_i hcancelled
      exact .abandon (.inl hcancelled)
    | receive | returns => cases h
  | gated =>
    dsimp only at h
    split at h <;> cases h
    · rename_i hcancelled
      exact .pass (.inl hcancelled)
    · exact .await
  | receiving =>
    cases label with
    | receive =>
      dsimp only at h
      split at h
      · rename_i value input hreceive
        cases h
        exact .receive hreceive
      · rename_i hnone
        split at h <;> cases h
        rename_i hclosed
        exact .quit (.inr ⟨hclosed, Chan.receive_eq_none.mp hnone⟩)
    | done =>
      dsimp only at h
      split at h <;> cases h
      rename_i hcancelled
      exact .quit (.inl hcancelled.1)
    | send | returns => cases h
  | numbering value =>
    cases h
    exact .number
  | release received =>
    cases received with
    | none | some p =>
      cases h
      exact .release rfl
  | check value n =>
    dsimp only at h
    split at h <;> cases h
    · rename_i hcancelled
      exact .drop rfl rfl hcancelled
    · exact .call
  | calling value n =>
    cases label with
    | returns result err =>
      cases h
      exact .apply
    | send | receive | done => cases h
  | delivering r =>
    have hopen : w.results.closed = false := by
      cases hclosed : w.results.closed with
      | false => rfl
      | true =>
        have hnone := hw.closing hclosed
        have hpos := hactive rfl
        omega
    cases label with
    | send =>
      dsimp only at h
      rw [if_neg (by simp [hopen])] at h
      split at h <;> cases h
      exact .deliver hopen
    | done =>
      dsimp only at h
      split at h <;> cases h
      rename_i hcancelled
      exact .drop rfl rfl hcancelled
    | receive | returns => cases h
  | exiting =>
    cases h
    exact .exit

theorem ender_moves {stage : Ending} (hat : AtEnder w stage) (h : enderStep stage w = some n) :
    Moves w (.ender stage) n := by
  unfold enderStep at h
  cases stage with
  | workers =>
    dsimp only at h
    split at h <;> cases h
    rename_i hnone
    exact .status hnone
  | cancel =>
    cases h
    exact .cancel
  | results =>
    dsimp only at h
    rw [if_neg (by simp [hat.1])] at h
    cases h
    exact .closeResults
  | done =>
    dsimp only at h
    rw [if_neg (by simp [hat.1])] at h
    cases h
    exact .finish
  | finished => cases h

theorem step_moves (hw : Inv limit w) (hat : At l w) (hcount : ∀ k, weight k l ≤ count w k)
    (h : step i label l w = some n) : Moves w l n := by
  unfold step at h
  cases l with
  | caller call point => exact caller_moves h
  | worker phase =>
    refine worker_moves hw ?_ h
    intro hactive
    have hle : phase.active.toNat ≤ w.workers := hcount .active
    rw [hactive] at hle
    exact hle
  | ender stage => exact ender_moves hat h
  | panicked => cases h

end Fries.Parallel.Stream
