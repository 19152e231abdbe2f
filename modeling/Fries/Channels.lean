import Fries.Batcher.Outline
import Fries.Parallel.PoolOutline

/-! The channels of a batcher and of a pool: none is closed twice or used after that. -/
namespace Fries

/-- The queue of requests or of tasks; the channels that tell that it is closing and that it is
over; and those of a flush and of a future. -/
inductive Channel
  | queue
  | closing
  | finished
  | completion (call : Nat)

namespace Batcher

variable {T E : Type} {c : Config} {i : Nat} {w : World T E} {label : Label E} {call : Call T}
  {before : Nat} {point : Point E} {l : Local T E} {n : Progress (World T E) (Local T E)}

/-- What a goroutine attempts on channels; a select attempts to send whichever case it takes. -/
def operations (l : Local T E) (w : World T E) : List (Op Channel) :=
  match l with
  | .caller (.tryAdd _) _ .start => if w.intake.closed then [] else [.send .queue]
  | .caller (.shutdown true) _ .start | .watcher false =>
    if w.intake.closed then [] else [.close .closing]
  | .caller _ _ .sending => [.send .queue]
  | .worker (.resume (.complete call)) => [.close (.completion call)]
  | .worker (.resume .finish) => [.close .finished]
  | .closer false => [.close .queue]
  | _ => []

def Closed (w : World T E) : Channel → Prop
  | .queue => w.intake.chan.closed = true
  | .closing => w.intake.closed = true
  | .finished => w.finished ≠ none
  | .completion call => w.completions call ≠ none

attribute [local simp] operations Closed Op.chan accept World.submit Intake.send Intake.join
  Intake.leave Intake.stop Intake.close Chan.send Chan.close Chan.await Chan.quit

theorem closed_stop (ch : Channel) :
    Closed (stop w).1 ch ↔
      Closed w ch ∨ .close ch ∈ if w.intake.closed then [] else [Op.close .closing] := by
  unfold stop
  split
  · simp
  · cases ch <;> simp

theorem closed_caller (h : callerStep i label call before point w = some n) (ch : Channel) :
    Closed n.world ch ↔ Closed w ch ∨ .close ch ∈ operations (.caller call before point) w := by
  unfold callerStep at h
  cases point with
  | start =>
    cases call with
    | tryAdd item =>
      dsimp only at h
      (repeat' split at h) <;> cases h <;> cases ch <;> simp_all
    | shutdown ctx =>
      cases ctx <;> cases h
      · simp
      · exact closed_stop ch
    | add | flush =>
      dsimp only at h
      (repeat' split at h) <;> cases h <;> simp
  | join =>
    dsimp only at h
    split at h <;> cases h <;> cases ch <;> simp
  | sending =>
    cases label with
    | send =>
      dsimp only at h
      (repeat' split at h) <;> cases h <;> cases ch <;> simp
    | done =>
      obtain ⟨cause, -, rfl⟩ := Option.map_eq_some_iff.mp h
      simp
    | closing =>
      dsimp only at h
      split at h <;> cases h
      simp
    | receive | tick | returns => cases h
  | leaving o =>
    dsimp only at h
    split at h <;> cases h <;> cases ch <;> simp
  | waiting =>
    dsimp only at h
    split at h <;> obtain ⟨o, -, rfl⟩ := Option.map_eq_some_iff.mp h <;> simp
  | returned o => cases h

theorem closed_worker {size : Nat} {phase : Phase E} (h : workerStep size label phase w = some n)
    (ch : Channel) :
    Closed n.world ch ↔ Closed w ch ∨ .close ch ∈ operations (.worker phase) w := by
  unfold workerStep at h
  cases phase with
  | select =>
    cases h
    cases ch <;> simp
  | receiving =>
    cases label with
    | receive =>
      dsimp only at h
      split at h
      · rename_i r chan hreceive
        cases h
        have hclosed : chan.closed = w.intake.chan.closed := by
          rw [(Chan.receive_eq_some.mp hreceive).2]
        cases r <;> cases ch <;> simp [hclosed]
      · split at h <;> cases h
        cases ch <;> simp
    | tick =>
      dsimp only at h
      split at h <;> cases h
      cases ch <;> simp
    | _ => cases h
  | flush andThen =>
    dsimp only at h
    split at h <;> cases h <;> cases ch <;> simp
  | handling andThen =>
    cases label with
    | returns err =>
      cases h
      cases ch <;> simp
    | _ => cases h
  | notifying err andThen =>
    cases h
    cases ch <;> simp
  | resume andThen =>
    cases andThen with
    | loop =>
      cases h
      simp
    | complete call =>
      dsimp only at h
      split at h <;> cases h
      · rename_i hdone
        have hclosed : Closed w (.completion call) := Option.isSome_iff_ne_none.mp hdone
        simp only [operations, List.mem_singleton, Op.close.injEq]
        exact (or_iff_left_of_imp fun hch => hch ▸ hclosed).symm
      · cases ch with
        | queue | closing | finished => simp
        | completion call' => by_cases hcall : call' = call <;> simp [hcall]
    | finish =>
      cases h
      cases ch <;> simp
  | exited => cases h

theorem closed_step (h : step c i label l w = some n) (ch : Channel) :
    Closed n.world ch ↔ Closed w ch ∨ .close ch ∈ operations l w := by
  unfold step at h
  cases l with
  | caller call before point => exact closed_caller h ch
  | worker phase => exact closed_worker h ch
  | closer done =>
    cases done with
    | true => cases h
    | false =>
      dsimp only at h
      (repeat' split at h) <;> cases h <;> cases ch <;> simp_all
  | watcher done =>
    cases done with
    | true => cases h
    | false =>
      dsimp only at h
      split at h <;> cases h
      exact closed_stop ch
  | panicked => cases h

/-- The batcher keeps to the rules of channels. -/
theorem tidy (T E : Type) (c : Config) : (outline T E c).Tidy operations Closed where
  opened := by
    intro i l w hw hat hcount
    unfold operations
    split
    · split
      · simp
      · rename_i hopen
        simp [Intake.open_of_not_closed hw.wf (by simpa using hopen)]
    · split <;> simp_all
    · split <;> simp_all
    · simp [Intake.open_of_submitter hw.wf (hcount .submitter)]
    · simp [hat.2.2.2]
    · simp [hat.1.2.2]
    · simp [hat.2]
    · simp
  step := closed_step
  shift e w ch := by cases e <;> cases ch <;> rfl

end Batcher

namespace Parallel.Pool

variable {E : Type} {i : Nat} {w : World E} {label : Label E} {l : Local E}
  {n : Progress (World E) (Local E)}

/-- What a goroutine attempts on channels; a select attempts to send whichever case it takes. -/
def operations (l : Local E) (w : World E) : List (Op Channel) :=
  match l with
  | .caller (.trySubmit _) .join => if w.intake.closed then [] else [.send .queue]
  | .caller .shutdown .start => if w.intake.closed then [] else [.close .closing]
  | .caller _ .sending => [.send .queue]
  | .worker (.completing task _) => [.close (.completion task)]
  | .closer .submitters => [.close .queue]
  | .closer .workers => [.close .finished]
  | _ => []

def Closed (w : World E) : Channel → Prop
  | .queue => w.intake.chan.closed = true
  | .closing => w.intake.closed = true
  | .finished => w.done = true
  | .completion task => task ∈ completed w

attribute [local simp] operations Closed Op.chan completed World.submit Intake.send Intake.join
  Intake.leave Intake.stop Intake.close Chan.send Chan.close Chan.await Chan.quit

theorem closed_caller {call : Call} {point : Point E} (h : callerStep i label call point w = some n)
    (ch : Channel) :
    Closed n.world ch ↔ Closed w ch ∨ .close ch ∈ operations (.caller call point) w := by
  unfold callerStep at h
  cases point with
  | start =>
    cases call with
    | submit | trySubmit | execute =>
      dsimp only at h
      (repeat' split at h) <;> cases h <;> simp
    | wait task =>
      cases h
      simp
    | shutdown =>
      cases h
      unfold stop
      split
      · simp [*]
      · cases ch <;> simp [*]
  | join =>
    dsimp only at h
    cases call <;> (repeat' split at h) <;> cases h <;> cases ch <;> simp_all
  | sending =>
    cases label with
    | send =>
      dsimp only at h
      (repeat' split at h) <;> cases h <;> cases ch <;> simp
    | done =>
      obtain ⟨cause, -, rfl⟩ := Option.map_eq_some_iff.mp h
      simp
    | closing =>
      dsimp only at h
      split at h <;> cases h
      simp
    | returns => cases h
  | leaving o =>
    dsimp only at h
    split at h <;> cases h <;> cases ch <;> simp
  | waiting =>
    dsimp only at h
    (repeat' split at h) <;> first
      | (cases h; simp)
      | (obtain ⟨o, -, rfl⟩ := Option.map_eq_some_iff.mp h; simp)
  | returned o => cases h

theorem closed_worker {phase : Phase E} (h : workerStep label phase w = some n) (ch : Channel) :
    Closed n.world ch ↔ Closed w ch ∨ .close ch ∈ operations (.worker phase) w := by
  unfold workerStep at h
  cases phase with
  | idle =>
    cases h
    cases ch <;> simp
  | receiving =>
    dsimp only at h
    split at h
    · rename_i task chan hreceive
      cases h
      have hclosed : chan.closed = w.intake.chan.closed := by
        rw [(Chan.receive_eq_some.mp hreceive).2]
      cases ch <;> simp [hclosed]
    · split at h <;> cases h
      cases ch <;> simp
  | holding task =>
    dsimp only at h
    split at h <;> cases h <;> cases ch <;> simp
  | running task =>
    cases label with
    | returns err =>
      cases h
      cases ch <;> simp
    | send | done | closing => cases h
  | completing task how =>
    dsimp only at h
    split at h <;> cases h
    · rename_i hdone
      have hclosed : Closed w (.completion task) := future_isSome_iff.mp hdone
      simp only [operations, List.mem_singleton, Op.close.injEq]
      exact (or_iff_left_of_imp fun hch => hch ▸ hclosed).symm
    · cases ch <;> simp
  | exited => cases h

theorem closed_step (h : step i label l w = some n) (ch : Channel) :
    Closed n.world ch ↔ Closed w ch ∨ .close ch ∈ operations l w := by
  unfold step at h
  cases l with
  | caller call point => exact closed_caller h ch
  | worker phase => exact closed_worker h ch
  | closer stage =>
    cases stage <;> dsimp only at h <;> (repeat' split at h) <;> cases h <;> cases ch <;> simp_all
  | panicked => cases h

/-- The pool keeps to the rules of channels. -/
theorem tidy (E : Type) (c : Config) : (outline E c).Tidy operations Closed where
  opened := by
    intro i l w hw hat hcount
    unfold operations
    split
    · split
      · simp
      · rename_i hopen
        simp [Intake.open_of_not_closed hw.wf (by simpa using hopen)]
    · split <;> simp_all
    · simp [Intake.open_of_submitter hw.wf (hcount .submitter)]
    · rename_i task how
      simp [-completed, (of_held hw (held_of_task hcount rfl)).2.2.1]
    · simp [hat.2.1]
    · simp [show w.done = false from hat]
    · simp
  step := closed_step
  shift _ _ ch := by cases ch <;> rfl

end Parallel.Pool

end Fries
