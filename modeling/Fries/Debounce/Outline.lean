import Fries.Debounce.Debouncer
import Mathlib.Data.List.Nodup

/-! What holds of the debouncer between any two steps, and of every triggered value. -/
namespace Fries.Debounce

variable {T E : Type}

/-- The values the worker has selected. -/
def selected (w : World T E) : List (Item T) := w.handed.map Prod.fst

/-- The values that were selected or can still be, in this order. -/
def line (w : World T E) : List (Item T) := selected w ++ (w.slot w.ready ++ w.slot w.pending)

/-- Handling the value is over, or the value was replaced by one of which this is true. -/
inductive Settled (w : World T E) : Item T → Prop
  | finished {x : Item T} (h : x ∈ w.finished) : Settled w x
  | replaced {x y : Item T} (h : (x, y) ∈ w.replaced) (hy : Settled w y) : Settled w x

/-- The slots hold different invocations that are not complete. -/
structure Slots (delay : Int) (w : World T E) : Prop where
  pending : ∀ id, w.pending = some id → id < w.made ∧ w.ready ≠ some id ∧ w.running ≠ some id ∧
    ∃ x, w.invocations id = ⟨some x, x.time + delay, none⟩
  ready : ∀ id, w.ready = some id → id < w.made ∧ w.running ≠ some id ∧
    ∃ x due, w.invocations id = ⟨some x, due, none⟩ ∧ x ∈ w.frozen
  running : ∀ id, w.running = some id → id < w.made ∧
    ∃ x due, w.invocations id = ⟨some x, due, none⟩ ∧ (selected w).getLast? = some x

structure Inv (delay : Int) (w : World T E) : Prop where
  slots : Slots delay w
  numbered : w.accepted.map Item.seq = List.range w.accepted.length
  order : (line w).Sublist w.accepted
  latest : w.closed = false → (line w).getLast? = w.accepted.getLast?
  placed : ∀ x ∈ w.accepted, x ∈ line w ∨ (∃ y, (x, y) ∈ w.replaced) ∨ x ∈ w.discarded
  replaced : ∀ p ∈ w.replaced, p.2 ∈ w.accepted ∧ p.2.seq = p.1.seq + 1 ∧ p.1 ∉ line w
  kept : w.closed = false → w.discarded = []
  cleared : w.closed = true → w.pending = none ∧ w.ready = none
  discarded : ∀ x ∈ w.discarded, ∀ y ∈ selected w, y.seq < x.seq
  timely : ∀ p ∈ w.handed, p.2 ≤ w.clock ∧ (p.1 ∉ w.frozen → p.1.time + delay ≤ p.2)
  called : w.calls.map Prod.fst <+: (selected w).map some
  calling : w.handed.length ≤ w.calls.length + 1
  calledTimely : ∀ x t, (some x, t) ∈ w.calls → x ∉ w.frozen → x.time + delay ≤ t
  finished : w.finished <+: selected w
  idle : w.running = none → w.finished = selected w

/-- What the worker knows, by where it is: what is running, and how many handler calls were made
and are over. -/
def AtWorker (w : World T E) : Phase T E → Prop
  | .next | .waiting _ | .stopping | .closing =>
    w.done = false ∧ w.running = none ∧ w.calls.length = w.handed.length
  | .executing call =>
    w.done = false ∧ w.running = some call ∧ w.calls.length + 1 = w.handed.length ∧
      w.finished.length + 1 = w.handed.length
  | .handling call value | .notifying call value _ =>
    w.done = false ∧ w.running = some call ∧ w.calls.length = w.handed.length ∧
      w.finished.length + 1 = w.handed.length ∧ value = w.item call
  | .completing call _ =>
    w.done = false ∧ w.running = some call ∧ w.calls.length = w.handed.length ∧
      w.finished = selected w
  | .exited => True

/-- The invocation, which has the value `y`, is to run or over. -/
structure Watch (call : Nat) (y : Item T) (w : World T E) : Prop where
  made : call < w.made
  state : w.item call = some y ∧ (w.invocations call).result = none ∧
      (w.ready = some call ∨ w.running = some call) ∨
    (w.invocations call).result = some .closed ∨
    (w.invocations call).result.isSome ∧ y ∈ w.finished

def AtFlush (before : Nat) (w : World T E) : Point E → Prop
  | .start | .select | .recheck | .waiting _ true => before ≤ w.accepted.length
  | .waiting call false => before ≤ w.accepted.length ∧
    ∃ y ∈ w.accepted, before ≤ y.seq + 1 ∧ Watch call y w
  | .returned (.result _) => before ≤ w.accepted.length ∧
    ∀ x ∈ w.accepted, x.seq < before → Settled w x
  | .returned _ => True

def At (l : Local T E) (w : World T E) : Prop :=
  match l with
  | .flush _ before point => AtFlush before w point
  | .worker phase => AtWorker w phase
  | .trigger value accepted => accepted = some true → ∃ x ∈ w.accepted, x.value = value
  | .close _ | .watcher _ => True
  | .panicked => False

/-- What `stop` leaves of an open debouncer. -/
inductive Stopped (w : World T E) : World T E → Prop
  | intro (cancelled : Option String) (invocations : Nat → Invocation T E)
      (others : ∀ id, w.pending ≠ some id → w.ready ≠ some id → invocations id = w.invocations id)
      (ended : ∀ id, w.pending = some id ∨ w.ready = some id →
        (invocations id).result = some .closed) :
    Stopped w { w with
      closed := true, cancelled := cancelled, wake := true, pending := none, ready := none
      invocations := invocations
      discarded := w.discarded ++ w.slot w.pending ++ w.slot w.ready }

/-- Where a goroutine goes after it has called `stop`. -/
inductive Stops : Local T E → Local T E → Prop
  | close : Stops (.close .start) (.close .waiting)
  | watcher : Stops (.watcher false) (.watcher true)
  | waiting {tick : Option Int} : Stops (.worker (.waiting tick)) (.worker .next)
  | stopping : Stops (.worker .stopping) (.worker .closing)

/-- What a step does. -/
inductive Moves (c : Config) (w : World T E) : Local T E → Progress (World T E) (Local T E) → Prop
  | refuse : Moves c w (.trigger value none) ⟨.trigger value (some false), w, none⟩
  | trigger (hopen : w.over = false) :
    Moves c w (.trigger value none) ⟨.trigger value (some true), w.trigger c.delay value, none⟩
  | flush (hat : AtFlush before w point') :
    Moves c w (.flush ctx before point) ⟨.flush ctx before point', w, none⟩
  | freeze (hopen : w.over = false) (hready : w.ready = none) (hpending : w.pending = some call) :
    Moves c w (.flush ctx before .select) ⟨.flush ctx before (.waiting call false), w.freeze, none⟩
  | stay (hl : Stops l l') : Moves c w l ⟨l', w, none⟩
  | stop (hl : Stops l l') (hopen : w.closed = false) (hw' : Stopped w w') :
    Moves c w l ⟨l', w', none⟩
  | closed : Moves c w (.close .waiting) ⟨.close .returned, w, none⟩
  | work (hat : AtWorker w phase') : Moves c w (.worker phase) ⟨.worker phase', w, none⟩
  | wake : Moves c w (.worker (.waiting tick)) ⟨.worker .next, { w with wake := false }, none⟩
  | takeReady (hopen : w.over = false) (hready : w.ready = some call) :
    Moves c w (.worker .next) ⟨.worker (.executing call), { w.take call with ready := none }, none⟩
  | takePending (hopen : w.over = false) (hready : w.ready = none)
      (hpending : w.pending = some call) (hdue : (w.invocations call).due ≤ w.clock) :
    Moves c w (.worker .next)
      ⟨.worker (.executing call), { w.take call with pending := none }, none⟩
  | call :
    Moves c w (.worker (.executing call))
      ⟨.worker (.handling call (w.item call)),
        { w with calls := w.calls ++ [(w.item call, w.clock)] }, none⟩
  | finish (hat : AtWorker w (.handling call value)) :
    Moves c w (.worker phase)
      ⟨.worker (.completing call err), { w with finished := w.finished ++ value.toList }, none⟩
  | complete :
    Moves c w (.worker (.completing call err))
      ⟨.worker .next,
        { w with
          running := none
          invocations := Function.update w.invocations call
            { w.invocations call with value := none, result := some (.handled err) } }, none⟩
  | exit : Moves c w (.worker .closing) ⟨.worker .exited, { w with done := true }, none⟩

variable {c : Config} {w w' : World T E} {i j id : Nat} {x y : Item T}

variable {delay : Int} {before : Nat} {point : Point E} {phase : Phase T E} {l l' m : Local T E}
  {label : Label E} {n : Progress (World T E) (Local T E)} {ctx : Bool}

/-- What emptying a slot does. -/
theorem discard_spec (slot : Option Nat) (w : World T E)
    (hslot : ∀ id, slot = some id → (w.invocations id).result = none) :
    ∃ calls, w.discard slot =
        some { w with invocations := calls, discarded := w.discarded ++ w.slot slot } ∧
      (∀ id, slot ≠ some id → calls id = w.invocations id) ∧
      ∀ id, slot = some id → (calls id).result = some .closed := by
  cases slot with
  | none => exact ⟨w.invocations, by simp [World.discard, World.slot], fun _ _ => rfl, nofun⟩
  | some id =>
    refine ⟨Function.update w.invocations id
      { w.invocations id with value := none, result := some .closed }, ?_, ?_, ?_⟩
    · simp [World.discard, World.complete, World.slot, hslot id rfl]
    · intro id' hne
      exact Function.update_of_ne (fun heq => hne (congrArg some heq.symm)) _ _
    · rintro id' heq
      cases heq
      simp

theorem stop_stopped (hw : Slots delay w) (hopen : w.closed = false) :
    ∃ w', stop w = some w' ∧ Stopped w w' := by
  let w₀ := { w with closed := true, cancelled := some (w.cancelled.getD "context canceled") }
  obtain ⟨calls, hpending, hothers, hended⟩ := discard_spec w.pending w₀ (by
    intro id hid
    obtain ⟨-, -, -, x, hx⟩ := hw.pending id hid
    simp [w₀, hx])
  have hready : ∀ id, w.ready = some id → calls id = w.invocations id :=
    fun id hr => hothers id fun hp => (hw.pending id hp).2.1 hr
  let w₁ := { w₀ with
    invocations := calls, discarded := w.discarded ++ w.slot w.pending, pending := none }
  have hslot : w₁.slot w.ready = w.slot w.ready := by
    cases hr : w.ready with
    | none => rfl
    | some id => simp [World.slot, World.item, w₁, hready id hr]
  obtain ⟨calls', hdiscard, hothers', hended'⟩ := discard_spec w.ready w₁ (by
    intro id hid
    obtain ⟨-, -, x, due, hx, -⟩ := hw.ready id hid
    simp [w₁, hready id hid, hx])
  rw [hslot] at hdiscard
  refine ⟨_, ?_, .intro w₀.cancelled calls' ?_ ?_⟩
  · unfold stop
    rw [if_neg (by simp [hopen])]
    show ((w₀.discard w.pending).bind fun w => (World.discard w.ready { w with pending := none }).bind
      fun w => some { w with ready := none, wake := true }) = _
    rw [hpending]
    show ((w₁.discard w.ready).bind fun w => some { w with ready := none, wake := true }) = _
    rw [hdiscard]
    rfl
  · intro id hp hr
    exact (hothers' id hr).trans (hothers id hp)
  · rintro id (hp | hr)
    · exact (congrArg _ (hothers' id (hw.pending id hp).2.1)).trans (hended id hp)
    · exact hended' id hr

theorem accepted_sorted (hw : Inv delay w) :
    w.accepted.Pairwise fun x y => x.seq < y.seq := by
  have hrange : (w.accepted.map Item.seq).Pairwise (· < ·) := by
    rw [hw.numbered]
    exact List.pairwise_lt_range
  exact List.pairwise_map.mp hrange

theorem line_sorted (hw : Inv delay w) : (line w).Pairwise fun x y => x.seq < y.seq :=
  (accepted_sorted hw).sublist hw.order

theorem seq_lt (hw : Inv delay w) (hx : x ∈ w.accepted) : x.seq < w.accepted.length := by
  have hmem : x.seq ∈ w.accepted.map Item.seq := List.mem_map.mpr ⟨x, hx, rfl⟩
  rw [hw.numbered] at hmem
  exact List.mem_range.mp hmem

theorem eq_of_seq (hw : Inv delay w) (hx : x ∈ w.accepted) (hy : y ∈ w.accepted)
    (h : x.seq = y.seq) : x = y := by
  have hnodup : (w.accepted.map Item.seq).Nodup := by
    rw [hw.numbered]
    exact List.nodup_range
  exact List.inj_on_of_nodup_map hnodup hx hy h

/-- The last accepted value has the highest number. -/
theorem seq_last (hw : Inv delay w) (hx : w.accepted.getLast? = some x) :
    x ∈ w.accepted ∧ x.seq + 1 = w.accepted.length := by
  refine ⟨List.mem_of_getLast? hx, ?_⟩
  have hlast : (w.accepted.map Item.seq).getLast? = some x.seq := by
    rw [List.getLast?_map, hx]
    rfl
  rw [hw.numbered, List.getLast?_range] at hlast
  split at hlast
  · cases hlast
  · rename_i hne
    have hpred : w.accepted.length - 1 = x.seq := Option.some.inj hlast
    omega

/-- With a value all earlier ones are settled. -/
theorem settled_of_finished (hw : Inv delay w) (hy : y ∈ w.finished) (hx : x ∈ w.accepted)
    (hle : x.seq ≤ y.seq) : Settled w x := by
  have hselected : y ∈ selected w := hw.finished.subset hy
  -- a replaced value is settled with the next one, so the induction goes up to `y`
  obtain ⟨d, hd⟩ := Nat.exists_eq_add_of_le hle
  induction d generalizing x with
  | zero =>
    have haccepted : y ∈ w.accepted := hw.order.subset (List.mem_append_left _ hselected)
    obtain rfl := eq_of_seq hw haccepted hx hd
    exact .finished hy
  | succ d ih =>
    rcases hw.placed x hx with hline | ⟨z, hz⟩ | hdiscarded
    · obtain ⟨rest, hrest⟩ := hw.finished
      have hsorted := line_sorted hw
      rw [line, ← hrest, List.append_assoc] at hline hsorted
      rcases List.mem_append.mp hline with hfinished | hlater
      · exact .finished hfinished
      · have hlt := (List.pairwise_append.mp hsorted).2.2 y hy x hlater
        omega
    · obtain ⟨hmem, hseq, -⟩ := hw.replaced _ hz
      dsimp only at hmem hseq
      exact .replaced hz (ih hmem (by omega) (by omega))
    · have hlt := hw.discarded x hdiscarded y hselected
      omega

section

variable (hw : Inv delay w) (hopen : w.closed = false)

include hw hopen

/-- The last value in line is the last accepted one. -/
theorem line_last (hx : (line w).getLast? = some x) :
    x ∈ w.accepted ∧ x.seq + 1 = w.accepted.length :=
  seq_last hw ((hw.latest hopen).symm.trans hx)

/-- An idle debouncer has settled everything. -/
theorem settled_of_idle (hr : w.ready = none) (hp : w.pending = none) (hidle : w.running = none)
    (hx : x ∈ w.accepted) : Settled w x := by
  have hline : line w = w.finished := by
    rw [line, hr, hp, hw.idle hidle]
    exact List.append_nil _
  cases hlast : w.accepted.getLast? with
  | none =>
    rw [List.getLast?_eq_none_iff.mp hlast] at hx
    cases hx
  | some y =>
    have hy := (hw.latest hopen).trans hlast
    rw [hline] at hy
    have hlt := seq_lt hw hx
    have hseq := (seq_last hw hlast).2
    exact settled_of_finished hw (List.mem_of_getLast? hy) hx (by omega)

theorem watch_ready (hr : w.ready = some id) (hp : w.pending = none)
    (hbefore : before ≤ w.accepted.length) : AtFlush before w (.waiting id false) := by
  obtain ⟨hmade, -, x, due, hx, -⟩ := hw.slots.ready id hr
  have hitem : w.item id = some x := congrArg Invocation.value hx
  have hlast : (line w).getLast? = some x := by
    simp [line, World.slot, hr, hp, hitem]
  obtain ⟨hmem, hseq⟩ := line_last hw hopen hlast
  exact ⟨hbefore, x, hmem, by omega, hmade, .inl ⟨hitem, by rw [hx], .inl hr⟩⟩

theorem watch_running (hr : w.ready = none) (hp : w.pending = none) (hrunning : w.running = some id)
    (hbefore : before ≤ w.accepted.length) : AtFlush before w (.waiting id false) := by
  obtain ⟨hmade, x, due, hx, hselected⟩ := hw.slots.running id hrunning
  have hitem : w.item id = some x := congrArg Invocation.value hx
  have hlast : (line w).getLast? = some x := by
    simpa [line, World.slot, hr, hp] using hselected
  obtain ⟨hmem, hseq⟩ := line_last hw hopen hlast
  exact ⟨hbefore, x, hmem, by omega, hmade, .inl ⟨hitem, by rw [hx], .inr hrunning⟩⟩

end

theorem over_eq_false : w.over = false ↔ w.closed = false ∧ w.cancelled = none := by
  simp [World.over]

theorem select_moves (hw : Inv delay w) (hat : before ≤ w.accepted.length)
    (h : flushStep i ctx before .select w = some n) : Moves c w (.flush ctx before .select) n := by
  unfold flushStep selectFlush at h
  cases hover : w.over with
  | true =>
    simp only [hover, if_true, Option.some.injEq] at h
    subst h
    exact .flush trivial
  | false =>
    have hopen := (over_eq_false.mp hover).1
    cases hr : w.ready with
    | some call =>
      simp only [hover, hr] at h
      cases h
      cases hp : w.pending with
      | none => exact .flush (watch_ready hw hopen hr hp hat)
      | some call' => exact .flush hat
    | none =>
      cases hp : w.pending with
      | some call =>
        simp only [hover, hr, hp] at h
        cases h
        exact .freeze hover hr hp
      | none =>
        cases hrunning : w.running with
        | some call =>
          simp only [hover, hr, hp, hrunning] at h
          cases h
          exact .flush (watch_running hw hopen hr hp hrunning hat)
        | none =>
          simp only [hover, hr, hp, hrunning] at h
          cases h
          exact .flush ⟨hat, fun x hx _ => settled_of_idle hw hopen hr hp hrunning hx⟩

theorem waiting_moves {retry : Bool} {call : Nat} (hw : Inv delay w)
    (hat : AtFlush before w (.waiting call retry))
    (h : flushStep i ctx before (.waiting call retry) w = some n) :
    Moves c w (.flush ctx before (.waiting call retry)) n := by
  unfold flushStep at h
  cases hresult : (w.invocations call).result with
  | none =>
    simp only [hresult] at h
    obtain ⟨cause, -, rfl⟩ := Option.map_eq_some_iff.mp h
    exact .flush trivial
  | some result =>
    cases retry with
    | true =>
      simp only [hresult, if_true] at h
      cases h
      exact .flush hat
    | false =>
      obtain ⟨hbefore, y, hy, hle, hwatch⟩ := hat
      cases result with
      | closed =>
        simp only [hresult] at h
        cases h
        exact .flush trivial
      | handled err =>
        simp only [hresult] at h
        cases h
        refine .flush ⟨hbefore, fun x hx hlt => ?_⟩
        rcases hwatch.state with ⟨-, hnone, -⟩ | hclosed | ⟨-, hfinished⟩
        · rw [hresult] at hnone
          cases hnone
        · rw [hresult] at hclosed
          cases hclosed
        · exact settled_of_finished hw hfinished hx (by omega)

theorem flush_moves (hw : Inv delay w) (hat : AtFlush before w point)
    (h : flushStep i ctx before point w = some n) : Moves c w (.flush ctx before point) n := by
  cases point with
  | start =>
    unfold flushStep at h
    dsimp only at h
    split at h
    · cases h
      exact .flush trivial
    · split at h <;> cases h
      · exact .flush trivial
      · exact .flush hat
  | select => exact select_moves hw hat h
  | waiting call retry => exact waiting_moves hw hat h
  | recheck =>
    unfold flushStep at h
    dsimp only at h
    split at h <;> cases h
    · exact .flush trivial
    · exact .flush hat
  | returned o => cases h

theorem next_moves (hat : AtWorker w .next) :
    Moves c w (.worker .next) ⟨.worker (next w).1, (next w).2, none⟩ := by
  unfold next
  cases hover : w.over with
  | true => exact .work hat
  | false =>
    cases hr : w.ready with
    | some call => exact .takeReady hover hr
    | none =>
      cases hp : w.pending with
      | none => exact .work hat
      | some call =>
        simp only [Bool.false_eq_true, if_false]
        split
        · exact .work hat
        · rename_i hdue
          rw [timeSub_pos] at hdue
          exact .takePending hover hr hp (by omega)

theorem stopping_moves (hw : Slots delay w) (hl : Stops l l') : Moves c w l (stopping l' w) := by
  unfold stopping
  cases hclosed : w.closed with
  | true =>
    have hsame : stop w = some w := by simp [stop, hclosed]
    rw [hsame]
    exact .stay hl
  | false =>
    obtain ⟨w', hw', hstopped⟩ := stop_stopped hw hclosed
    rw [hw']
    exact .stop hl hclosed hstopped

theorem worker_moves (hw : Inv delay w) (hat : AtWorker w phase)
    (h : workerStep c label phase w = some n) : Moves c w (.worker phase) n := by
  unfold workerStep at h
  cases phase with
  | next =>
    cases h
    exact next_moves hat
  | waiting tick =>
    cases label with
    | wake =>
      dsimp only at h
      split at h <;> cases h
      exact .wake
    | tick =>
      cases tick with
      | none => cases h
      | some time =>
        dsimp only at h
        split at h <;> cases h
        exact .work hat
    | done =>
      dsimp only at h
      split at h <;> cases h
      exact stopping_moves hw.slots .waiting
    | returns => cases h
  | executing call =>
    cases h
    exact .call
  | handling call value =>
    cases label with
    | returns err =>
      dsimp only at h
      split at h <;> cases h
      · exact .work hat
      · exact .finish hat
    | wake | tick | done => cases h
  | notifying call value err =>
    cases h
    exact .finish hat
  | completing call err =>
    obtain ⟨-, x, due, hx, -⟩ := hw.slots.running call hat.2.1
    have hresult : (w.invocations call).result = none := by rw [hx]
    simp only [World.complete, hresult] at h
    cases h
    exact .complete
  | stopping =>
    cases h
    exact stopping_moves hw.slots .stopping
  | closing =>
    dsimp only at h
    rw [if_neg (by simp [hat.1])] at h
    cases h
    exact .exit
  | exited => cases h

theorem step_moves (hw : Inv delay w) (hat : At l w) (h : step c i label l w = some n) :
    Moves c w l n := by
  unfold step at h
  cases l with
  | trigger value accepted =>
    cases accepted with
    | some b => cases h
    | none =>
      dsimp only at h
      split at h <;> cases h
      · exact .refuse
      · rename_i hover
        exact .trigger (by simpa using hover)
  | flush ctx before point => exact flush_moves hw hat h
  | close stage =>
    cases stage with
    | start =>
      cases h
      exact stopping_moves hw.slots .close
    | waiting =>
      dsimp only at h
      split at h <;> cases h
      exact .closed
    | returned => cases h
  | worker phase => exact worker_moves hw hat h
  | watcher done =>
    cases done with
    | true => cases h
    | false =>
      dsimp only at h
      split at h <;> cases h
      exact stopping_moves hw.slots .watcher
  | panicked => cases h

end Fries.Debounce
