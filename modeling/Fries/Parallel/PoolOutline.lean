import Fries.Parallel.Pool
import Mathlib.Data.List.Nodup

/-! What holds of the pool between any two steps, and of every accepted task. -/
namespace Fries.Parallel.Pool

variable {E : Type} {w w' : World E} {i j t : Nat}

/-- The tasks whose futures are complete. -/
def completed (w : World E) : List Nat := w.completions.map Prod.fst

theorem future_isSome_iff : (w.future t).isSome ↔ t ∈ completed w := by
  rw [← not_iff_not, Option.not_isSome_iff_eq_none, World.future, List.lookup_eq_none_iff]
  simp only [completed, List.mem_map, not_exists, not_and, bne_iff_ne, ne_eq]
  exact ⟨fun h p hp he => h p hp he.symm, fun h p hp he => h p hp he.symm⟩

theorem mem_of_future {how : Completion E} (h : w.future t = some how) :
    (t, how) ∈ w.completions := by
  obtain ⟨l, l', hsplit, -⟩ := List.lookup_eq_some_iff.mp h
  simp [hsplit]

/-- How often workers hold a task: it was accepted, has left the queue, and its future is not
complete. -/
def held (w : World E) (t : Nat) : Nat :=
  w.intake.accepted.count t - (w.intake.chan.buf.count t + (completed w).count t)

/-- The number of tasks workers hold. -/
def busy (w : World E) : Nat :=
  w.intake.accepted.length - (w.intake.chan.buf.length + w.completions.length)

structure Inv (workers : Nat) (w : World E) : Prop where
  wf : w.intake.Wf
  distinct : w.intake.accepted.Nodup
  balance : ∀ t,
    w.intake.chan.buf.count t + (completed w).count t ≤ w.intake.accepted.count t
  lengths : w.intake.chan.buf.length + w.completions.length ≤ w.intake.accepted.length
  busy_le : busy w ≤ w.workers
  workers_le : w.workers ≤ workers
  gone : w.workers < workers → w.intake.chan.closed = true ∧ w.intake.chan.buf = []
  finished : w.done = true → w.workers = 0
  started : w.starts.Nodup ∧ ∀ t ∈ w.starts, t ∈ w.intake.accepted ∧ t ∉ w.intake.chan.buf
  returned : (w.returns.map Prod.fst).Nodup ∧ ∀ t ∈ w.returns.map Prod.fst, t ∈ w.starts
  executed : ∀ t err, (t, .executed err) ∈ w.completions → t ∈ w.starts ∧ (t, err) ∈ w.returns
  canceled : ∀ t cause, (t, .canceled cause) ∈ w.completions →
    t ∉ w.starts ∧ w.causes t = some cause

/-- The outcomes of a call whose task was not accepted. -/
def Rejects : Outcome E → Prop
  | .nilTask | .closed | .full | .canceled _ => True
  | .accepted | .result _ | .finished => False

/-- What the outcome of a call says. -/
def Promise (i : Nat) (call : Call) (w : World E) : Outcome E → Prop
  | .accepted => i ∈ w.intake.accepted
  | .result how =>
    match call with
    | .wait task => (task, how) ∈ w.completions
    | .execute _ => (i, how) ∈ w.completions
    | _ => False
  | .finished =>
    match call with
    | .shutdown => w.done = true
    | _ => False
  | .nilTask | .closed | .full | .canceled _ =>
    match call with
    | .submit _ | .trySubmit _ => i ∉ w.intake.accepted
    | _ => True

def AtCaller (i : Nat) (call : Call) (w : World E) : Point E → Prop
  | .start | .join | .sending => i ∉ w.intake.accepted
  | .leaving outcome => outcome = .accepted ∧ i ∈ w.intake.accepted ∨
    Rejects outcome ∧ i ∉ w.intake.accepted
  | .waiting =>
    match call with
    | .submit _ | .trySubmit _ => False
    | _ => True
  | .returned outcome => Promise i call w outcome

def AtWorker (w : World E) : Phase E → Prop
  | .idle | .receiving => True
  | .holding task => task ∉ w.starts
  | .running task => task ∈ w.starts ∧ task ∉ w.returns.map Prod.fst
  | .completing task (.executed err) => task ∈ w.starts ∧ (task, err) ∈ w.returns
  | .completing task (.canceled cause) => task ∉ w.starts ∧ w.causes task = some cause
  | .exited => w.intake.chan.closed = true ∧ w.intake.chan.buf = []

def At (workers i : Nat) (l : Local E) (w : World E) : Prop :=
  match l with
  | .caller call point => AtCaller i call w point
  | .worker phase => i < workers ∧ AtWorker w phase
  | .closer .submitters => w.intake.closed = true ∧ w.intake.chan.closed = false ∧ w.done = false
  | .closer .workers => w.done = false
  | .closer .finished => True
  | .panicked => False

/-- The task a worker holds. -/
def Phase.task : Phase E → Option Nat
  | .holding task | .running task | .completing task _ => some task
  | .idle | .receiving | .exited => none

/-- Whether a call is counted among the submitters. -/
def inside : Point E → Nat
  | .sending | .leaving _ => 1
  | _ => 0

/-- The roles threads are counted in; a busy worker holds a task, a free one can receive. -/
inductive Counter
  | submitter
  | closer
  | active
  | busy
  | free
  | holder (task : Nat)

def Phase.weight : Counter → Phase E → Nat
  | .active, .exited => 0
  | .active, _ => 1
  | .busy, phase => if phase.task.isSome then 1 else 0
  | .free, .idle | .free, .receiving => 1
  | .holder t, phase => if phase.task = some t then 1 else 0
  | _, _ => 0

def weight (k : Counter) : Local E → Nat
  | .caller _ point =>
    match k with
    | .submitter => inside point
    | _ => 0
  | .closer _ =>
    match k with
    | .closer => 1
    | _ => 0
  | .worker phase => phase.weight k
  | .panicked => 0

def count (w : World E) : Counter → Nat
  | .submitter => w.intake.submitters
  | .closer => if w.intake.closed then 1 else 0
  | .active => w.workers
  | .busy => busy w
  | .free => w.workers - busy w
  | .holder t => held w t

/-- What a step of thread `i` does. -/
inductive Moves (i : Nat) (w : World E) : Local E → Progress (World E) (Local E) → Prop
  | stay (hinside : inside point = inside point') (hat : AtCaller i call w point') :
    Moves i w (.caller call point) ⟨.caller call point', w, none⟩
  | join (hopen : w.intake.closed = false) (hnew : i ∉ w.intake.accepted) :
    Moves i w (.caller call .join)
      ⟨.caller call .sending, { w with intake := w.intake.join }, none⟩
  | submit (hinside : inside point = inside point') (hnew : i ∉ w.intake.accepted)
      (hopen : w.intake.chan.closed = false) (hat : AtCaller i call (w.submit i) point') :
    Moves i w (.caller call point) ⟨.caller call point', w.submit i, none⟩
  | leave (hinside : inside point' = 0)
      (hat : AtCaller i call { w with intake := w.intake.leave } point') :
    Moves i w (.caller call (.leaving outcome))
      ⟨.caller call point', { w with intake := w.intake.leave }, none⟩
  | stop (hopen : w.intake.closed = false) (hchan : w.intake.chan.closed = false) :
    Moves i w (.caller .shutdown .start)
      ⟨.caller .shutdown .waiting, { w with intake := w.intake.stop },
        some (.closer .submitters)⟩
  | close (hstopped : w.intake.closed = true) (hnone : w.intake.submitters = 0) :
    Moves i w (.closer .submitters)
      ⟨.closer .workers, { w with intake := w.intake.close }, none⟩
  | finish (hnone : w.workers = 0) :
    Moves i w (.closer .workers) ⟨.closer .finished, { w with done := true }, none⟩
  | await :
    Moves i w (.worker .idle)
      ⟨.worker .receiving, { w with intake := { w.intake with chan := w.intake.chan.await } }, none⟩
  | receive (h : w.intake.chan.receive = some (task, chan)) :
    Moves i w (.worker .receiving)
      ⟨.worker (.holding task), { w with intake := { w.intake with chan := chan } }, none⟩
  | exit (hempty : w.intake.chan.buf = []) (hclosed : w.intake.chan.closed = true) :
    Moves i w (.worker .receiving)
      ⟨.worker .exited, { w with intake := { w.intake with chan := w.intake.chan.quit },
                                 workers := w.workers - 1 }, none⟩
  | skip (h : w.causes task = some cause) :
    Moves i w (.worker (.holding task)) ⟨.worker (.completing task (.canceled cause)), w, none⟩
  | start :
    Moves i w (.worker (.holding task))
      ⟨.worker (.running task), { w with starts := w.starts ++ [task] }, none⟩
  | finishes :
    Moves i w (.worker (.running task))
      ⟨.worker (.completing task (.executed err)),
        { w with returns := w.returns ++ [(task, err)] }, none⟩
  | complete (hnew : task ∉ completed w) :
    Moves i w (.worker (.completing task how))
      ⟨.worker .idle, { w with completions := w.completions ++ [(task, how)] }, none⟩

variable {workers : Nat} {label : Label E} {call : Call} {point : Point E} {phase : Phase E}
  {l m : Local E} {n : Progress (World E) (Local E)} {o : Outcome E} {chan : Chan Nat}

theorem returned_rejected (ho : Rejects o) (hnew : i ∉ w.intake.accepted) :
    AtCaller i call w (.returned o) := by
  cases o with
  | accepted | result | finished => cases ho
  | _ =>
    cases call with
    | submit | trySubmit => exact hnew
    | execute | wait | shutdown => trivial

section

variable (hw : Inv workers w) (hat : i ∉ w.intake.accepted)

include hw hat

theorem start_moves (h : callerStep i label call .start w = some n) :
    Moves i w (.caller call .start) n := by
  unfold callerStep at h
  cases call with
  | submit task | trySubmit task | execute task =>
    dsimp only at h
    split at h
    · cases h
      exact .stay rfl (returned_rejected trivial hat)
    · split at h <;> cases h
      · exact .stay rfl (returned_rejected trivial hat)
      · exact .stay rfl hat
  | wait task =>
    cases h
    exact .stay rfl trivial
  | shutdown =>
    simp only [stop, Option.some.injEq] at h
    split at h <;> cases h
    · exact .stay rfl trivial
    · rename_i hopen
      have hclosed : w.intake.closed = false := by simpa using hopen
      exact .stop hclosed (Intake.open_of_not_closed hw.wf hclosed)

theorem join_moves (h : callerStep i label call .join w = some n) :
    Moves i w (.caller call .join) n := by
  unfold callerStep at h
  dsimp only at h
  split at h
  · cases h
    exact .stay rfl (returned_rejected trivial hat)
  · rename_i hopen
    have hclosed : w.intake.closed = false := by simpa using hopen
    have hchan := Intake.open_of_not_closed hw.wf hclosed
    cases call with
    | trySubmit task =>
      dsimp only at h
      rw [if_neg (by simp [hchan])] at h
      split at h <;> cases h
      · exact .submit rfl hat hchan List.mem_concat_self
      · exact .stay rfl (returned_rejected trivial hat)
    | _ =>
      cases h
      exact .join hclosed hat

theorem sending_moves (hcount : 0 < w.intake.submitters)
    (h : callerStep i label call .sending w = some n) : Moves i w (.caller call .sending) n := by
  have hchan := Intake.open_of_submitter hw.wf hcount
  unfold callerStep at h
  cases label with
  | returns => cases h
  | send =>
    dsimp only at h
    rw [if_neg (by simp [hchan])] at h
    split at h <;> cases h
    exact .submit rfl hat hchan (.inl ⟨rfl, List.mem_concat_self⟩)
  | closing =>
    dsimp only at h
    split at h <;> cases h
    exact .stay rfl (.inr ⟨trivial, hat⟩)
  | done =>
    dsimp only at h
    obtain ⟨cause, -, rfl⟩ := Option.map_eq_some_iff.mp h
    exact .stay rfl (.inr ⟨trivial, hat⟩)

end

theorem leaving_moves (hat : AtCaller i call w (.leaving o))
    (h : callerStep i label call (.leaving o) w = some n) :
    Moves i w (.caller call (.leaving o)) n := by
  unfold callerStep at h
  dsimp only at h
  split at h <;> cases h
  · exact .leave rfl trivial
  · refine .leave rfl ?_
    rcases hat with ⟨rfl, hmem⟩ | ⟨ho, hnew⟩
    · exact hmem
    · exact returned_rejected ho hnew

/-- What `Future.Wait` returns is the result of the future or the cause of the context. -/
theorem wait_returned {future : Option (Completion E)} {cause : Option String}
    (h : (wait future cause).map (fun o => ⟨.caller call (.returned o), w, none⟩) = some n)
    (hfuture : ∀ how, future = some how → Promise i call w (.result how))
    (hcause : ∀ cause, Promise i call w (.canceled cause)) :
    Moves i w (.caller call .waiting) n := by
  obtain ⟨o, ho, rfl⟩ := Option.map_eq_some_iff.mp h
  refine .stay rfl ?_
  cases future with
  | some how =>
    cases ho
    exact hfuture how rfl
  | none =>
    obtain ⟨cause', -, rfl⟩ := Option.map_eq_some_iff.mp ho
    exact hcause cause'

theorem waiting_moves (hat : AtCaller i call w .waiting)
    (h : callerStep i label call .waiting w = some n) :
    Moves i w (.caller call .waiting) n := by
  cases call with
  | submit | trySubmit => cases hat
  | execute task | wait task => exact wait_returned h (fun _ => mem_of_future) fun _ => trivial
  | shutdown =>
    unfold callerStep at h
    dsimp only at h
    split at h
    · rename_i hdone
      cases h
      exact .stay rfl hdone
    · obtain ⟨cause, -, rfl⟩ := Option.map_eq_some_iff.mp h
      exact .stay rfl trivial

/-- A task that a worker holds was accepted, has left the queue, and is not complete. -/
theorem of_held (hw : Inv workers w) (ht : 0 < held w t) :
    t ∈ w.intake.accepted ∧ t ∉ w.intake.chan.buf ∧ t ∉ completed w ∧ held w t = 1 := by
  have hone := List.nodup_iff_count_le_one.mp hw.distinct t
  unfold held at ht ⊢
  refine ⟨List.count_pos_iff.mp (by omega), ?_, ?_, by omega⟩
  · exact fun hmem => absurd (List.count_pos_iff.mpr hmem) (by omega)
  · exact fun hmem => absurd (List.count_pos_iff.mpr hmem) (by omega)

theorem held_of_task (hcount : ∀ k, weight k (.worker phase) ≤ count w k)
    (ht : phase.task = some t) : 0 < held w t := by
  have hle : phase.weight (.holder t) ≤ held w t := hcount (.holder t)
  simp only [Phase.weight, ht, if_true] at hle
  exact hle

theorem worker_moves (hw : Inv workers w) (hheld : ∀ t, phase.task = some t → 0 < held w t)
    (h : workerStep label phase w = some n) : Moves i w (.worker phase) n := by
  unfold workerStep at h
  cases phase with
  | exited => cases h
  | idle =>
    cases h
    exact .await
  | receiving =>
    dsimp only at h
    split at h
    · rename_i task chan hreceive
      cases h
      exact .receive hreceive
    · rename_i hnone
      split at h <;> cases h
      rename_i hclosed
      exact .exit (Chan.receive_eq_none.mp hnone) hclosed
  | holding task =>
    dsimp only at h
    split at h <;> cases h
    · rename_i cause hcause
      exact .skip hcause
    · exact .start
  | running task =>
    cases label with
    | returns err =>
      cases h
      exact .finishes
    | send | done | closing => cases h
  | completing task how =>
    have hnew := (of_held hw (hheld task rfl)).2.2.1
    dsimp only at h
    rw [if_neg (by rwa [future_isSome_iff])] at h
    cases h
    exact .complete hnew

theorem step_moves (hw : Inv workers w) (hat : At workers i l w)
    (hcount : ∀ k, weight k l ≤ count w k) (h : step i label l w = some n) : Moves i w l n := by
  unfold step at h
  cases l with
  | caller call point =>
    cases point with
    | start => exact start_moves hw hat h
    | join => exact join_moves hw hat h
    | sending => exact sending_moves hw hat (hcount .submitter) h
    | leaving o => exact leaving_moves hat h
    | waiting => exact waiting_moves hat h
    | returned o => cases h
  | worker phase => exact worker_moves hw (fun _ => held_of_task hcount) h
  | panicked => cases h
  | closer stage =>
    cases stage with
    | finished => cases h
    | submitters =>
      dsimp only at h
      split at h
      · rename_i hnone
        rw [if_neg (by simp [hat.2.1])] at h
        cases h
        exact .close hat.1 hnone
      · cases h
    | workers =>
      have hdone : w.done = false := hat
      dsimp only at h
      split at h
      · rename_i hnone
        rw [if_neg (by simp [hdone])] at h
        cases h
        exact .finish hnone
      · cases h

theorem busy_submit : busy (w.submit i) = busy w := by
  show (w.intake.accepted ++ [i]).length -
    ((w.intake.chan.buf ++ [i]).length + w.completions.length) = busy w
  rw [List.length_append, List.length_append, busy]
  omega

theorem held_submit : held (w.submit i) t = held w t := by
  show (w.intake.accepted ++ [i]).count t -
    ((w.intake.chan.buf ++ [i]).count t + (completed w).count t) = held w t
  rw [List.count_append, List.count_append, held]
  omega

theorem busy_receive (hw : Inv workers w) (h : w.intake.chan.receive = some (t, chan)) :
    busy { w with intake := { w.intake with chan := chan } } = busy w + 1 := by
  have hlengths := hw.lengths
  unfold busy
  rw [(Chan.receive_eq_some.mp h).1, List.length_cons] at hlengths ⊢
  show w.intake.accepted.length - (chan.buf.length + w.completions.length) = _
  omega

theorem held_receive (hw : Inv workers w) (h : w.intake.chan.receive = some (i, chan)) (t : Nat) :
    held { w with intake := { w.intake with chan := chan } } t =
      held w t + if i = t then 1 else 0 := by
  have hbalance := hw.balance t
  unfold held
  rw [(Chan.receive_eq_some.mp h).1, List.count_cons] at hbalance ⊢
  show w.intake.accepted.count t - (chan.buf.count t + (completed w).count t) = _
  by_cases hit : i = t
  · simp only [hit, beq_self_eq_true, if_true] at hbalance ⊢
    omega
  · simp only [hit, if_false, beq_iff_eq] at hbalance ⊢
    omega

theorem busy_complete (t : Nat) (how : Completion E) (hbusy : 0 < busy w) :
    busy { w with completions := w.completions ++ [(t, how)] } + 1 = busy w := by
  unfold busy at hbusy ⊢
  show w.intake.accepted.length -
    (w.intake.chan.buf.length + (w.completions ++ [(t, how)]).length) + 1 = _
  rw [List.length_append, List.length_singleton]
  omega

theorem held_complete (how : Completion E) (hheld : 0 < held w i) (t : Nat) :
    held { w with completions := w.completions ++ [(i, how)] } t + (if i = t then 1 else 0) =
      held w t := by
  have hfst : completed { w with completions := w.completions ++ [(i, how)] } =
      completed w ++ [i] := by simp [completed]
  unfold held at hheld ⊢
  rw [hfst, List.count_append, List.count_singleton]
  dsimp only
  by_cases hit : i = t
  · subst hit
    simp only [beq_self_eq_true, if_true]
    omega
  · simp [hit]

section

variable (hw : Inv workers w)

include hw

theorem inv_submit (hnew : i ∉ w.intake.accepted) (hopen : w.intake.chan.closed = false) :
    Inv workers (w.submit i) := by
  have hactive : ¬ w.workers < workers := by
    intro hlt
    have hclosed := (hw.gone hlt).1
    rw [hopen] at hclosed
    cases hclosed
  have haccepted : (w.submit i).intake.accepted = w.intake.accepted ++ [i] := rfl
  have hbuf : (w.submit i).intake.chan.buf = w.intake.chan.buf ++ [i] := rfl
  refine { hw with
    wf := Intake.send_wf hw.wf i
    distinct := ?_, balance := ?_, lengths := ?_, busy_le := ?_
    gone := fun hlt => absurd hlt hactive
    started := ⟨hw.started.1, ?_⟩ }
  · rw [haccepted]
    exact List.concat_eq_append ▸ hw.distinct.concat hnew
  · intro t
    have hbalance := hw.balance t
    rw [haccepted, hbuf, List.count_append, List.count_append]
    show _ + (completed w).count t ≤ _
    omega
  · have hlengths := hw.lengths
    rw [haccepted, hbuf, List.length_append, List.length_append]
    show _ + w.completions.length ≤ _
    omega
  · rw [busy_submit]
    exact hw.busy_le
  · intro t ht
    obtain ⟨hmem, hbuf⟩ := hw.started.2 t ht
    refine ⟨List.mem_append_left _ hmem, ?_⟩
    intro hmem'
    rcases List.mem_append.mp hmem' with hmem' | hmem'
    · exact hbuf hmem'
    · exact hnew (List.mem_singleton.mp hmem' ▸ hmem)

theorem inv_receive {chan : Chan Nat} (hfree : busy w < w.workers)
    (h : w.intake.chan.receive = some (t, chan)) :
    Inv workers { w with intake := { w.intake with chan := chan } } := by
  obtain ⟨hbuf, hchan⟩ := Chan.receive_eq_some.mp h
  have hclosed : chan.closed = w.intake.chan.closed := by rw [hchan]
  refine { hw with
    wf := fun hc => hw.wf (hclosed ▸ hc)
    balance := ?_, lengths := ?_, busy_le := ?_, gone := ?_
    started := ⟨hw.started.1, ?_⟩ }
  · intro t'
    have hbalance := hw.balance t'
    rw [hbuf, List.count_cons] at hbalance
    show chan.buf.count t' + (completed w).count t' ≤ w.intake.accepted.count t'
    omega
  · have hlengths := hw.lengths
    rw [hbuf, List.length_cons] at hlengths
    show chan.buf.length + w.completions.length ≤ w.intake.accepted.length
    omega
  · rw [busy_receive hw h]
    exact hfree
  · intro hlt
    have hempty := (hw.gone hlt).2
    rw [hbuf] at hempty
    cases hempty
  · intro t' ht'
    obtain ⟨hmem, hnot⟩ := hw.started.2 t' ht'
    rw [hbuf] at hnot
    exact ⟨hmem, fun hmem' => hnot (List.mem_cons_of_mem _ hmem')⟩

theorem inv_exit (hfree : busy w < w.workers) (hempty : w.intake.chan.buf = [])
    (hclosed : w.intake.chan.closed = true) :
    Inv workers { w with intake := { w.intake with chan := w.intake.chan.quit },
                         workers := w.workers - 1 } := by
  refine { hw with
    busy_le := ?_
    workers_le := Nat.le_trans (Nat.sub_le _ _) hw.workers_le
    gone := fun _ => ⟨hclosed, hempty⟩
    finished := ?_ }
  · show busy w ≤ w.workers - 1
    omega
  · intro hdone
    have hnone := hw.finished hdone
    show w.workers - 1 = 0
    omega

theorem inv_start (hheld : 0 < held w t) (hnew : t ∉ w.starts) :
    Inv workers { w with starts := w.starts ++ [t] } := by
  obtain ⟨haccepted, hbuf, hcompleted, -⟩ := of_held hw hheld
  refine { hw with
    started := ⟨?_, ?_⟩
    returned := ⟨hw.returned.1, fun t' ht' => List.mem_append_left _ (hw.returned.2 t' ht')⟩
    executed := fun t' err h =>
      ⟨List.mem_append_left _ (hw.executed t' err h).1, (hw.executed t' err h).2⟩
    canceled := ?_ }
  · exact List.concat_eq_append ▸ hw.started.1.concat hnew
  · exact List.forall_mem_append.mpr
      ⟨hw.started.2, List.forall_mem_singleton.mpr ⟨haccepted, hbuf⟩⟩
  · intro t' cause h
    obtain ⟨hnot, hcause⟩ := hw.canceled t' cause h
    refine ⟨?_, hcause⟩
    intro ht'
    rcases List.mem_append.mp ht' with ht' | ht'
    · exact hnot ht'
    · obtain rfl := List.mem_singleton.mp ht'
      exact hcompleted (List.mem_map.mpr ⟨_, h, rfl⟩)

theorem inv_return {err : Option E} (hat : t ∈ w.starts ∧ t ∉ w.returns.map Prod.fst) :
    Inv workers { w with returns := w.returns ++ [(t, err)] } := by
  have hfst : (w.returns ++ [(t, err)]).map Prod.fst = w.returns.map Prod.fst ++ [t] := by simp
  refine { hw with
    returned := ⟨?_, ?_⟩
    executed := fun t' err h =>
      ⟨(hw.executed t' err h).1, List.mem_append_left _ (hw.executed t' err h).2⟩ }
  · show ((w.returns ++ [(t, err)]).map Prod.fst).Nodup
    rw [hfst]
    exact List.concat_eq_append ▸ hw.returned.1.concat hat.2
  · show ∀ t' ∈ (w.returns ++ [(t, err)]).map Prod.fst, _
    rw [hfst]
    exact List.forall_mem_append.mpr ⟨hw.returned.2, List.forall_mem_singleton.mpr hat.1⟩

theorem inv_complete {how : Completion E} (hheld : 0 < held w t) (hbusy : 0 < busy w)
    (hat : AtWorker w (.completing t how)) :
    Inv workers { w with completions := w.completions ++ [(t, how)] } := by
  have hfst : completed { w with completions := w.completions ++ [(t, how)] } =
      completed w ++ [t] := by simp [completed]
  have hlength : (w.completions ++ [(t, how)]).length = w.completions.length + 1 := by simp
  refine { hw with balance := ?_, lengths := ?_, busy_le := ?_, executed := ?_, canceled := ?_ }
  · intro t'
    have hbalance := hw.balance t'
    rw [hfst, List.count_append, List.count_singleton]
    show w.intake.chan.buf.count t' + _ ≤ w.intake.accepted.count t'
    split
    · rename_i heq
      obtain rfl : t = t' := by simpa using heq
      unfold held at hheld
      omega
    · omega
  · have hlengths := hw.lengths
    unfold busy at hbusy
    show w.intake.chan.buf.length + (w.completions ++ [(t, how)]).length ≤ w.intake.accepted.length
    omega
  · have hone := busy_complete t how hbusy
    have hle := hw.busy_le
    dsimp only at hone ⊢
    omega
  · intro t' err h
    rcases List.mem_append.mp h with h | h
    · exact hw.executed t' err h
    · obtain ⟨rfl, rfl⟩ : t' = t ∧ .executed err = how := by simpa using h
      exact hat
  · intro t' cause h
    rcases List.mem_append.mp h with h | h
    · exact hw.canceled t' cause h
    · obtain ⟨rfl, rfl⟩ : t' = t ∧ .canceled cause = how := by simpa using h
      exact hat

theorem inv_moves (hat : At workers i l w) (hcount : ∀ k, weight k l ≤ count w k)
    (h : Moves i w l n) : Inv workers n.world := by
  cases h with
  | stay | skip => exact hw
  | join hopen => exact { hw with wf := Intake.join_wf hw.wf hopen }
  | submit _ hnew hopen => exact inv_submit hw hnew hopen
  | leave => exact { hw with wf := Intake.leave_wf hw.wf }
  | stop => exact { hw with wf := Intake.stop_wf hw.wf }
  | close hstopped hnone =>
    exact { hw with
      wf := Intake.close_wf hstopped hnone
      gone := fun hlt => ⟨rfl, (hw.gone hlt).2⟩ }
  | finish hnone => exact { hw with finished := fun _ => hnone }
  | await => exact { hw with }
  | receive h =>
    have hfree : 1 ≤ w.workers - busy w := hcount .free
    exact inv_receive hw (by omega) h
  | exit hempty hclosed =>
    have hfree : 1 ≤ w.workers - busy w := hcount .free
    exact inv_exit hw (by omega) hempty hclosed
  | start => exact inv_start hw (held_of_task hcount rfl) hat.2
  | finishes => exact inv_return hw hat.2
  | complete => exact inv_complete hw (held_of_task hcount rfl) (hcount .busy) hat.2

theorem own_moves (hat : At workers i l w) (h : Moves i w l n) : At workers i n.state n.world := by
  cases h with
  | stay _ hat' | leave _ hat' | submit _ _ _ hat' => exact hat'
  | join _ hnew => exact hnew
  | stop | finish => trivial
  | close => exact hat.2.2
  | await | complete => exact ⟨hat.1, trivial⟩
  | receive h =>
    refine ⟨hat.1, ?_⟩
    intro hstarted
    have hbuf := (Chan.receive_eq_some.mp h).1
    exact (hw.started.2 _ hstarted).2 (hbuf ▸ List.mem_cons_self)
  | exit hempty hclosed => exact ⟨hat.1, hclosed, hempty⟩
  | skip hcause => exact ⟨hat.1, hat.2, hcause⟩
  | start =>
    refine ⟨hat.1, List.mem_concat_self, ?_⟩
    intro hreturned
    exact hat.2 (hw.returned.2 _ hreturned)
  | finishes => exact ⟨hat.1, hat.2.1, List.mem_concat_self⟩

end

/-- What a step of another thread leaves to thread `j`. -/
structure Spares (j : Nat) (w w' : World E) : Prop where
  accepted : ∃ more, w'.intake.accepted = w.intake.accepted ++ more ∧ j ∉ more
  completions : w.completions <+: w'.completions
  done : w.done = true → w'.done = true

theorem spares_moves (h : Moves i w l n) (hij : i ≠ j) : Spares j w n.world := by
  have hsame : Spares j w w := ⟨⟨[], (List.append_nil _).symm, by simp⟩, List.prefix_rfl, id⟩
  cases h with
  | submit => exact { hsame with accepted := ⟨[i], rfl, by simpa using hij.symm⟩ }
  | finish => exact { hsame with done := fun _ => rfl }
  | complete => exact { hsame with completions := List.prefix_append _ _ }
  | _ => exact { hsame with }

theorem caller_of_spares (h : Spares i w w') (hat : AtCaller i call w point) :
    AtCaller i call w' point := by
  obtain ⟨⟨more, haccepted, hmore⟩, hcompletions, hdone⟩ := h
  have hold : i ∈ w.intake.accepted → i ∈ w'.intake.accepted := by
    intro hmem
    rw [haccepted]
    exact List.mem_append_left _ hmem
  have hnew : i ∉ w.intake.accepted → i ∉ w'.intake.accepted := by
    intro hnot hmem
    rw [haccepted] at hmem
    exact (List.mem_append.mp hmem).elim hnot hmore
  cases point with
  | start | join | sending => exact hnew hat
  | leaving o =>
    rcases hat with ⟨ho, hmem⟩ | ⟨ho, hnot⟩
    · exact .inl ⟨ho, hold hmem⟩
    · exact .inr ⟨ho, hnew hnot⟩
  | waiting => exact hat
  | returned o =>
    cases o with
    | accepted => exact hold hat
    | result how =>
      cases call with
      | wait | execute => exact hcompletions.subset hat
      | submit | trySubmit | shutdown => cases hat
    | finished =>
      cases call with
      | shutdown => exact hdone hat
      | _ => cases hat
    | _ =>
      cases call with
      | submit | trySubmit => exact hnew hat
      | execute | wait | shutdown => trivial

/-- What a step leaves of the history of a task. -/
structure Ignores (t : Nat) (w w' : World E) : Prop where
  starts : t ∈ w'.starts ↔ t ∈ w.starts
  returns : ∀ err, (t, err) ∈ w'.returns ↔ (t, err) ∈ w.returns
  causes : w'.causes = w.causes

theorem ignores_moves (h : Moves i w l n) (hl : weight (.holder t) l = 0) :
    Ignores t w n.world := by
  cases h with
  | start =>
    rename_i task
    have hne : t ≠ task := by
      rintro rfl
      simp [weight, Phase.weight, Phase.task] at hl
    exact ⟨by simp [hne], fun _ => Iff.rfl, rfl⟩
  | finishes =>
    rename_i task err
    have hne : t ≠ task := by
      rintro rfl
      simp [weight, Phase.weight, Phase.task] at hl
    exact ⟨Iff.rfl, by simp [hne], rfl⟩
  | _ => exact ⟨Iff.rfl, fun _ => Iff.rfl, rfl⟩

/-- Nothing is sent once the channel is closed. -/
theorem drained_moves (h : Moves i w l n)
    (hw : w.intake.chan.closed = true ∧ w.intake.chan.buf = []) :
    n.world.intake.chan.closed = true ∧ n.world.intake.chan.buf = [] := by
  cases h with
  | close => exact ⟨rfl, hw.2⟩
  | submit _ _ hopen =>
    rw [hw.1] at hopen
    cases hopen
  | receive h =>
    have hbuf := (Chan.receive_eq_some.mp h).1
    rw [hw.2] at hbuf
    cases hbuf
  | _ => exact hw

/-- A step of a thread that does not hold the task of a worker spares what the worker knows. -/
theorem worker_moves_others (h : Moves i w l n)
    (hother : ∀ t, phase.task = some t → weight (.holder t) l = 0) (hat : AtWorker w phase) :
    AtWorker n.world phase := by
  cases phase with
  | idle | receiving => trivial
  | exited => exact drained_moves h hat
  | holding task =>
    have hignores := ignores_moves h (hother task rfl)
    exact fun hmem => hat (hignores.starts.mp hmem)
  | running task =>
    have hignores := ignores_moves h (hother task rfl)
    refine ⟨hignores.starts.mpr hat.1, ?_⟩
    intro hmem
    obtain ⟨⟨t, err⟩, hreturn, rfl⟩ := List.mem_map.mp hmem
    exact hat.2 (List.mem_map.mpr ⟨_, (hignores.returns err).mp hreturn, rfl⟩)
  | completing task how =>
    have hignores := ignores_moves h (hother task rfl)
    cases how with
    | executed err => exact ⟨hignores.starts.mpr hat.1, (hignores.returns err).mpr hat.2⟩
    | canceled cause =>
      refine ⟨fun hmem => hat.1 (hignores.starts.mp hmem), ?_⟩
      rw [hignores.causes]
      exact hat.2

/-- What concerns the goroutine that closes the pool is left to it. -/
theorem closing_moves (h : Moves i w l n) (hl : weight .closer l = 0) :
    n.world.intake.chan.closed = w.intake.chan.closed ∧ n.world.done = w.done ∧
      (w.intake.closed = true → n.world.intake.closed = true) := by
  cases h with
  | close | finish => cases hl
  | stop => exact ⟨rfl, rfl, fun _ => rfl⟩
  | receive h =>
    have hchan := (Chan.receive_eq_some.mp h).2
    refine ⟨?_, rfl, id⟩
    dsimp only
    rw [hchan]
  | _ => exact ⟨rfl, rfl, id⟩

theorem others_moves (hw : Inv workers w) (h : Moves i w l n)
    (hboth : ∀ k, weight k l + weight k m ≤ count w k) (hij : i ≠ j) (hm : At workers j m w) :
    At workers j m n.world := by
  cases m with
  | caller call point => exact caller_of_spares (spares_moves h hij) hm
  | worker phase =>
    refine ⟨hm.1, worker_moves_others h ?_ hm.2⟩
    intro t ht
    have hle : weight (.holder t) l + phase.weight (.holder t) ≤ held w t := hboth (.holder t)
    simp only [Phase.weight, ht, if_true] at hle
    have hone := (of_held hw (Nat.lt_of_lt_of_le (Nat.succ_pos _) hle)).2.2.2
    omega
  | closer stage =>
    have hle : weight .closer l + 1 ≤ count w .closer := hboth .closer
    have hone : count w .closer ≤ 1 := by
      simp only [count]
      split <;> omega
    obtain ⟨hchan, hdone, hclosed⟩ := closing_moves h (by omega)
    cases stage with
    | finished => trivial
    | workers => exact hdone.trans hm
    | submitters => exact ⟨hclosed hm.1, hchan.trans hm.2.1, hdone.trans hm.2.2⟩
  | panicked => cases hm

theorem counts_moves (hw : Inv workers w) (hcount : ∀ k, weight k l ≤ count w k)
    (h : Moves i w l n) (k : Counter) :
    count n.world k + weight k l =
      count w k + weight k n.state + System.total (weight k) n.started.toList := by
  have hk := hcount k
  cases h with
  | stay hinside =>
    cases k with
    | submitter => exact congrArg (w.intake.submitters + ·) hinside
    | _ => rfl
  | submit hinside =>
    cases k with
    | submitter => exact congrArg (w.intake.submitters + ·) hinside
    | busy => exact congrArg (· + 0) busy_submit
    | free => exact congrArg (w.workers - · + 0) busy_submit
    | holder t => exact congrArg (· + 0) held_submit
    | closer | active => rfl
  | leave hinside =>
    cases k with
    | submitter =>
      have hpos : 1 ≤ w.intake.submitters := hk
      show w.intake.submitters - 1 + 1 = w.intake.submitters + inside _
      omega
    | _ => rfl
  | stop hopen =>
    cases k with
    | closer => simp [count, weight, hopen, Intake.stop, System.total]
    | _ => rfl
  | receive h =>
    have hbusy := busy_receive hw h
    have hfree : 1 ≤ w.workers - busy w := hcount .free
    cases k with
    | busy => exact congrArg (· + 0) hbusy
    | free =>
      show w.workers - busy _ + 1 = w.workers - busy w + 0 + 0
      rw [hbusy]
      omega
    | holder t =>
      rename_i task chan
      show held _ t + 0 = held w t + (if some task = some t then 1 else 0) + 0
      rw [held_receive hw h t]
      simp
    | submitter | closer | active => rfl
  | exit hempty hclosed =>
    have hfree : 1 ≤ w.workers - busy w := hcount .free
    cases k with
    | active =>
      show w.workers - 1 + 1 = w.workers + 0 + 0
      omega
    | free =>
      show w.workers - 1 - busy w + 1 = w.workers - busy w + 0 + 0
      omega
    | _ => rfl
  | complete =>
    rename_i task how hnew
    have hpos : 1 ≤ busy w := hcount .busy
    have hbusy := busy_complete task how hpos
    have hle := hw.busy_le
    cases k with
    | busy => exact hbusy
    | free =>
      show w.workers - busy { w with completions := w.completions ++ [(task, how)] } + 0 =
        w.workers - busy w + 1 + 0
      omega
    | holder t =>
      have hone := held_complete how (held_of_task hcount rfl) t
      show held _ t + (if some task = some t then 1 else 0) = held w t + 0 + 0
      simp only [Option.some.injEq]
      exact hone
    | submitter | closer | active => rfl
  | _ => cases k <;> rfl

theorem starts_moves (hpos : 0 < workers) (hw : Inv workers w) (h : Moves i w l n)
    (hm : n.started = some m) : At workers j m n.world := by
  cases h with
  | stop hopen hchan =>
    cases hm
    refine ⟨rfl, hchan, ?_⟩
    -- a pool that is done has closed its channel
    cases hdone : w.done with
    | false => rfl
    | true =>
      have hclosed := (hw.gone (by rw [hw.finished hdone]; exact hpos)).1
      rw [hchan] at hclosed
      cases hclosed
  | _ => cases hm

theorem unused_moves (h : Moves i w l n) (hij : i ≠ j) (hj : j ∉ w.intake.accepted) :
    j ∉ n.world.intake.accepted := by
  obtain ⟨more, haccepted, hmore⟩ := (spares_moves h hij).accepted
  rw [haccepted, List.mem_append]
  exact fun hmem => hmem.elim hj hmore

theorem shift_cause (e : Cancel) {cause : String} (h : w.causes t = some cause) :
    (shift e w).causes t = some cause := by
  show Function.update w.causes e.call _ t = _
  rw [Function.update_apply]
  split
  · rename_i heq
    subst heq
    rw [h]
    rfl
  · exact h

theorem inv_shift (e : Cancel) (hw : Inv workers w) : Inv workers (shift e w) := by
  refine { hw with canceled := ?_ }
  intro t cause h
  obtain ⟨hnot, hcause⟩ := hw.canceled t cause h
  exact ⟨hnot, shift_cause e hcause⟩

theorem at_shift (e : Cancel) (hat : At workers i l w) : At workers i l (shift e w) := by
  cases l with
  | caller call point => exact hat
  | worker phase =>
    cases phase with
    | completing task how =>
      cases how with
      | executed err => exact hat
      | canceled cause => exact ⟨hat.1, hat.2.1, shift_cause e hat.2.2⟩
    | _ => exact hat
  | closer stage => cases stage <;> exact hat
  | panicked => cases hat

/-- The proof outline of the pool. -/
def outline (E : Type) (c : Config) : (pool E).Outline where
  Inv := Inv c.workers
  At := At c.workers
  Unused i w := i ∉ w.intake.accepted
  Counter := Counter
  weight := weight
  count k w := count w k
  enter _ _ hunused := hunused
  enter_weight k _ _ := by cases k <;> rfl
  own h hw hat hcount :=
    have hmoves := step_moves hw hat hcount h
    ⟨inv_moves hw hat hcount hmoves, own_moves hw hat hmoves⟩
  others h hw hat hboth hij hm :=
    others_moves hw (step_moves hw hat (fun k => Nat.le_trans (Nat.le_add_right _ _) (hboth k)) h)
      hboth hij hm
  unused h hw hat hcount hij hj := unused_moves (step_moves hw hat hcount h) hij hj
  starts h hw hat hcount _ _ hm :=
    starts_moves c.workers_pos hw (step_moves hw hat hcount h) hm
  counts h hw hat hcount k := counts_moves hw hcount (step_moves hw hat hcount h) k
  shift_inv e _ hw := inv_shift e hw
  shift_at e _ _ _ _ hat := at_shift e hat
  shift_unused _ _ _ hunused := hunused
  shift_count _ _ k := by cases k <;> rfl

theorem holds_initial (E : Type) (c : Config) : (outline E c).Holds (initial E c) := by
  refine ⟨?_, ?_, fun i _ => List.not_mem_nil, ?_⟩
  · exact {
      wf := Intake.make_wf c.queueSize
      distinct := List.nodup_nil
      balance := fun _ => Nat.le_refl _
      lengths := Nat.le_refl _
      busy_le := Nat.zero_le _
      workers_le := Nat.le_refl _
      gone := fun hlt => absurd hlt (Nat.lt_irrefl _)
      finished := nofun
      started := ⟨List.nodup_nil, nofun⟩
      returned := ⟨List.nodup_nil, nofun⟩
      executed := nofun
      canceled := nofun }
  · intro i l hl
    simp only [initial, List.getElem?_replicate] at hl
    split at hl <;> cases hl
    rename_i hi
    exact ⟨hi, trivial⟩
  · intro k
    have htotal := System.total_replicate (weight k) c.workers (.worker .idle : Local E)
    refine Eq.trans ?_ htotal.symm
    cases k with
    | active | free => exact (Nat.mul_one _).symm
    | _ => exact (Nat.mul_zero _).symm

end Fries.Parallel.Pool
