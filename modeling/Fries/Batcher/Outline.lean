import Fries.Batcher.Batcher
import Mathlib.Data.List.Nodup

/-! What holds of the batcher between any two steps, and of every accepted value. -/
namespace Fries.Batcher

variable {T E : Type} {c : Config} {w w' : World T E} {i j before size : Nat} {err : Option E}
  {o : Outcome E} {call : Call T} {andThen : Then} {phase : Phase E}

/-- The items among requests, with the calls that submitted them. -/
def items (requests : List (Request T)) : List (Nat × T) :=
  requests.filterMap fun
    | .item call value => some (call, value)
    | .flush _ => none

theorem items_append (l l' : List (Request T)) : items (l ++ l') = items l ++ items l' :=
  List.filterMap_append

@[simp] theorem items_item (call : Nat) (value : T) (l : List (Request T)) :
    items (.item call value :: l) = (call, value) :: items l := rfl

@[simp] theorem items_flush (call : Nat) (l : List (Request T)) :
    items (.flush call :: l) = items l := rfl

@[simp] theorem items_nil : items ([] : List (Request T)) = [] := rfl

def firstError (results : List (Option E)) : Option E := results.findSome? id

theorem firstError_append (results : List (Option E)) (err : Option E) :
    firstError (results ++ [err]) = (firstError results).or err := by
  simp [firstError, List.findSome?_append]

/-- The call has sent its request. -/
def Sent (i : Nat) (w : World T E) : Prop := ∃ r ∈ w.intake.accepted, r.call = i

/-- The barrier of a flush was accepted after the first `before` requests. -/
def Placed (i before : Nat) (w : World T E) : Prop :=
  ∃ pre post, w.intake.accepted = pre ++ .flush i :: post ∧ before ≤ pre.length

/-- The batches up to the barrier of the flush are over, and `err` is their first error. -/
def Flushed (i before : Nat) (err : Option E) (w : World T E) : Prop :=
  ∃ pre post n, w.intake.accepted = pre ++ .flush i :: post ∧ before ≤ pre.length ∧
    n ≤ w.results.length ∧ (w.batches.take n).flatten = items pre ∧
    err = firstError (w.results.take n)

/-- Everything ever accepted was handled, and `err` is the first error. -/
def Drained (err : Option E) (w : World T E) : Prop :=
  w.intake.chan.closed = true ∧ w.batches.flatten = items w.intake.accepted ∧
    w.results.length = w.batches.length ∧ err = firstError w.results

structure Inv (size : Nat) (w : World T E) : Prop where
  wf : w.intake.Wf
  order : items w.intake.accepted = w.batches.flatten ++ w.batch ++ items w.intake.chan.buf
  queued : ∃ taken, w.intake.accepted = taken ++ w.intake.chan.buf
  distinct : (w.intake.accepted.map Request.call).Nodup
  sizes : ∀ b ∈ w.batches, b ≠ [] ∧ b.length ≤ size
  small : w.batch.length ≤ size
  paired : w.results.length ≤ w.batches.length
  completed : ∀ i err, w.completions i = some err →
    Flushed i 0 err w ∧ .flush i ∉ w.intake.chan.buf
  drained : ∀ err, w.finished = some err → Drained err w

/-- No handler call is open, and `firstErr` is up to date. -/
def Calm (w : World T E) : Prop :=
  w.results.length = w.batches.length ∧ w.firstErr = firstError w.results ∧ w.finished = none

/-- The handler has the last batch, whose error is not among the results yet. -/
def Busy (results : List (Option E)) (w : World T E) : Prop :=
  w.results.length + 1 = w.batches.length ∧ w.firstErr = firstError results ∧ w.finished = none ∧
    w.batch = []

/-- What the worker knows of the request it will go on with. -/
def Pending (w : World T E) : Then → Prop
  | .loop => True
  | .complete call => (∃ pre, w.intake.accepted = pre ++ .flush call :: w.intake.chan.buf) ∧
    w.completions call = none
  | .finish => w.intake.chan.closed = true ∧ w.intake.chan.buf = []

def AtWorker (size : Nat) (w : World T E) : Phase E → Prop
  | .select | .receiving => Calm w ∧ w.batch.length < size
  | .flush andThen => Calm w ∧ Pending w andThen
  | .handling andThen => Busy w.results w ∧ Pending w andThen
  | .notifying err andThen => Busy (w.results ++ [err]) w ∧ Pending w andThen
  | .resume andThen => Calm w ∧ w.batch = [] ∧ Pending w andThen
  | .exited => w.finished ≠ none

/-- What the outcome of a call says. -/
def Promise (i : Nat) (call : Call T) (before : Nat) (w : World T E) : Outcome E → Prop
  | .accepted => ∀ request, call.request i = some request → request ∈ w.intake.accepted
  | .result err =>
    match call with
    | .shutdown _ => w.finished = some err
    | .flush _ => Flushed i before err w
    | _ => False
  | _ =>
    match call with
    | .add .. | .tryAdd _ => ¬ Sent i w
    | _ => True

def AtCaller (i : Nat) (call : Call T) (before : Nat) (w : World T E) : Point E → Prop
  | .start | .join | .sending => ¬ Sent i w ∧ before ≤ w.intake.accepted.length
  | .leaving outcome => Promise i call before w outcome ∧
    (outcome = .accepted → ∀ ctx, call = .flush ctx → Placed i before w)
  | .waiting => (∃ ctx, call = .flush ctx ∧ Placed i before w) ∨ ∃ ctx, call = .shutdown ctx
  | .returned outcome => Promise i call before w outcome

def At (size i : Nat) (l : Local T E) (w : World T E) : Prop :=
  match l with
  | .caller call before point => AtCaller i call before w point
  | .worker phase => AtWorker size w phase
  | .closer false => w.intake.closed = true ∧ w.intake.chan.closed = false
  | .closer true | .watcher _ => True
  | .panicked => False

/-- What the goroutines other than the worker do, `i` being the one that steps. -/
inductive Outside (i : Nat) (w : World T E) : World T E → Prop
  | idle : Outside i w w
  | join (h : w.intake.closed = false) : Outside i w { w with intake := w.intake.join }
  | leave : Outside i w { w with intake := w.intake.leave }
  | submit (r : Request T) (call : r.call = i) (open_ : w.intake.chan.closed = false)
      (fresh : ¬ Sent i w) : Outside i w (w.submit r)
  | stop : Outside i w { w with intake := w.intake.stop }
  | close (stopped : w.intake.closed = true) (none_ : w.intake.submitters = 0) :
    Outside i w { w with intake := w.intake.close }

/-- What a step of another goroutine leaves to the call with number `j`. -/
structure Spares (j : Nat) (w w' : World T E) : Prop where
  accepted : ∃ more, w'.intake.accepted = w.intake.accepted ++ more ∧ ∀ r ∈ more, r.call ≠ j
  batches : w.batches <+: w'.batches
  results : w.results <+: w'.results
  finished : ∀ err, w.finished = some err → w'.finished = some err

theorem sent_of_spares (h : Spares j w w') (hs : Sent j w') : Sent j w := by
  obtain ⟨more, haccepted, hmore⟩ := h.accepted
  obtain ⟨r, hr, hcall⟩ := hs
  rw [haccepted] at hr
  rcases List.mem_append.mp hr with hr | hr
  · exact ⟨r, hr, hcall⟩
  · exact absurd hcall (hmore r hr)

theorem placed_of_spares (h : Spares j w w') (hp : Placed i before w) : Placed i before w' := by
  obtain ⟨more, haccepted, -⟩ := h.accepted
  obtain ⟨pre, post, hsplit, hle⟩ := hp
  exact ⟨pre, post ++ more, by simp [haccepted, hsplit], hle⟩

theorem flushed_of_spares (h : Spares j w w') (hf : Flushed i before err w)
    (hle : w.results.length ≤ w.batches.length) : Flushed i before err w' := by
  obtain ⟨more, haccepted, -⟩ := h.accepted
  obtain ⟨pre, post, n, hsplit, hbefore, hn, hitems, herr⟩ := hf
  obtain ⟨batches, hbatches⟩ := h.batches
  obtain ⟨results, hresults⟩ := h.results
  refine ⟨pre, post ++ more, n, by simp [haccepted, hsplit], hbefore, ?_, ?_, ?_⟩
  · rw [← hresults, List.length_append]
    omega
  · rw [← hbatches, List.take_append_of_le_length (by omega)]
    exact hitems
  · rw [← hresults, List.take_append_of_le_length hn]
    exact herr

theorem promise_of_spares (h : Spares i w w') (hle : w.results.length ≤ w.batches.length)
    (hp : Promise i call before w o) : Promise i call before w' o := by
  cases o with
  | accepted =>
    intro request hrequest
    obtain ⟨more, haccepted, -⟩ := h.accepted
    rw [haccepted]
    exact List.mem_append_left more (hp request hrequest)
  | result err =>
    cases call with
    | shutdown ctx => exact h.finished err hp
    | flush ctx => exact flushed_of_spares h hp hle
    | add | tryAdd => exact hp
  | _ =>
    cases call with
    | add | tryAdd => exact fun hs => hp (sent_of_spares h hs)
    | flush | shutdown => trivial

/-- The assertions of a call outlive the steps of the others. -/
theorem caller_of_spares {point : Point E} (h : Spares i w w')
    (hle : w.results.length ≤ w.batches.length) (hp : AtCaller i call before w point) :
    AtCaller i call before w' point := by
  have hstart : ¬ Sent i w ∧ before ≤ w.intake.accepted.length →
      ¬ Sent i w' ∧ before ≤ w'.intake.accepted.length := by
    rintro ⟨hsent, hbefore⟩
    obtain ⟨more, haccepted, -⟩ := h.accepted
    refine ⟨fun hs => hsent (sent_of_spares h hs), ?_⟩
    rw [haccepted, List.length_append]
    omega
  cases point with
  | start | join | sending => exact hstart hp
  | leaving o =>
    exact ⟨promise_of_spares h hle hp.1,
      fun ho ctx hcall => placed_of_spares h (hp.2 ho ctx hcall)⟩
  | waiting =>
    rcases hp with ⟨ctx, hcall, hplaced⟩ | hshutdown
    · exact .inl ⟨ctx, hcall, placed_of_spares h hplaced⟩
    · exact .inr hshutdown
  | returned o => exact promise_of_spares h hle hp

theorem spares_outside (h : Outside i w w') (hij : i ≠ j) : Spares j w w' := by
  cases h with
  | submit r call open_ fresh =>
    refine ⟨⟨[r], rfl, ?_⟩, List.prefix_rfl, List.prefix_rfl, fun _ h => h⟩
    intro r' hr'
    obtain rfl := List.mem_singleton.mp hr'
    exact fun hj => hij (call.symm.trans hj)
  | _ =>
    exact ⟨⟨[], by simp [Intake.join, Intake.leave, Intake.stop, Intake.close], by simp⟩,
      List.prefix_rfl, List.prefix_rfl, fun _ h => h⟩

theorem inv_submit {r : Request T} (hw : Inv size w) (hopen : w.intake.chan.closed = false)
    (hfresh : ¬ Sent r.call w) : Inv size (w.submit r) := by
  refine ⟨Intake.send_wf hw.wf r, ?_, ?_, ?_, hw.sizes, hw.small, hw.paired, ?_, ?_⟩
  · show items (w.intake.accepted ++ [r]) =
      w.batches.flatten ++ w.batch ++ items (w.intake.chan.buf ++ [r])
    rw [items_append, items_append, hw.order, List.append_assoc]
  · obtain ⟨taken, htaken⟩ := hw.queued
    refine ⟨taken, ?_⟩
    show w.intake.accepted ++ [r] = taken ++ (w.intake.chan.buf ++ [r])
    rw [htaken, List.append_assoc]
  · show ((w.intake.accepted ++ [r]).map Request.call).Nodup
    rw [List.map_append, List.nodup_append]
    refine ⟨hw.distinct, by simp, ?_⟩
    intro call hcall call' hcall' heq
    obtain ⟨r', hr', hr'call⟩ := List.mem_map.mp hcall
    obtain rfl : call' = r.call := by simpa using hcall'
    exact hfresh ⟨r', hr', hr'call.trans heq⟩
  · intro i err hi
    obtain ⟨hflushed, hnot⟩ := hw.completed i err hi
    obtain ⟨pre, post, n, hsplit, hbefore, hn, hitems, herr⟩ := hflushed
    refine ⟨⟨pre, post ++ [r], n, ?_, hbefore, hn, hitems, herr⟩, ?_⟩
    · show w.intake.accepted ++ [r] = _
      rw [hsplit]
      simp
    · intro hmem
      rcases List.mem_append.mp hmem with hmem | hmem
      · exact hnot hmem
      · obtain rfl := List.mem_singleton.mp hmem
        exact hfresh ⟨.flush i, by simp [hsplit], rfl⟩
  · intro err hfinished
    have hclosed := (hw.drained err hfinished).1
    rw [hopen] at hclosed
    cases hclosed

theorem inv_outside (hw : Inv size w) (h : Outside i w w') : Inv size w' := by
  cases h with
  | idle => exact hw
  | join h => exact { hw with wf := Intake.join_wf hw.wf h }
  | leave => exact { hw with wf := Intake.leave_wf hw.wf }
  | submit r call open_ fresh => exact inv_submit hw open_ (call ▸ fresh)
  | stop => exact { hw with wf := Intake.stop_wf hw.wf }
  | close stopped none_ =>
    exact { hw with
      wf := Intake.close_wf stopped none_
      drained := fun err h => ⟨rfl, (hw.drained err h).2⟩ }

theorem pending_outside (h : Outside i w w') (hp : Pending w andThen) : Pending w' andThen := by
  cases andThen with
  | loop => trivial
  | complete call =>
    obtain ⟨⟨pre, hpre⟩, hnone⟩ := hp
    cases h with
    | submit r =>
      refine ⟨⟨pre, ?_⟩, hnone⟩
      show w.intake.accepted ++ [r] = pre ++ .flush call :: (w.intake.chan.buf ++ [r])
      rw [hpre]
      simp
    | _ => exact ⟨⟨pre, hpre⟩, hnone⟩
  | finish =>
    cases h with
    | close => exact ⟨rfl, hp.2⟩
    | submit r call open_ =>
      rw [hp.1] at open_
      cases open_
    | _ => exact hp

theorem outside_intake (h : Outside i w w') : ∃ q, w' = { w with intake := q } := by
  cases h <;> exact ⟨_, rfl⟩

theorem worker_outside (h : Outside i w w') (hp : AtWorker size w phase) :
    AtWorker size w' phase := by
  have hpending : ∀ andThen, Pending w andThen → Pending w' andThen :=
    fun _ => pending_outside h
  obtain ⟨q, rfl⟩ := outside_intake h
  cases phase with
  | select | receiving | exited => exact hp
  | flush andThen | handling andThen | notifying err andThen => exact ⟨hp.1, hpending andThen hp.2⟩
  | resume andThen => exact ⟨hp.1, hp.2.1, hpending andThen hp.2.2⟩

/-- Whether a call is counted among the submitters. -/
def inside : Point E → Nat
  | .sending | .leaving _ => 1
  | _ => 0

/-- The goroutine that closes the queue is started by the step that stops the intake. -/
structure Stops (w : World T E) (n : Progress (World T E) (Local T E)) : Prop where
  chan : n.world.intake.chan.closed = w.intake.chan.closed
  started : n.started = none ∧ n.world.intake.closed = w.intake.closed ∨
    n.started = some (.closer false) ∧ w.intake.closed = false ∧
      n.world.intake.closed = true ∧ w.intake.chan.closed = false

/-- What a step of a call does. -/
def CallerMoves (i : Nat) (call : Call T) (before : Nat) (point : Point E) (w : World T E)
    (n : Progress (World T E) (Local T E)) : Prop :=
  ∃ point', n.state = .caller call before point' ∧ AtCaller i call before n.world point' ∧
    Outside i w n.world ∧
    n.world.intake.submitters + inside point = w.intake.submitters + inside point' ∧ Stops w n

variable {label : Label E} {point : Point E} {n : Progress (World T E) (Local T E)}
  {l m : Local T E}

/-- The outcomes of a call whose request was not accepted. -/
def Rejects : Outcome E → Prop
  | .closed | .full | .invalidContext | .canceled _ => True
  | .accepted | .result _ => False

theorem returned_rejected (hsent : ¬ Sent i w) (ho : Rejects o) :
    AtCaller i call before w (.returned o) := by
  cases o with
  | accepted => cases ho
  | result => cases ho
  | _ =>
    cases call with
    | add | tryAdd => exact hsent
    | flush | shutdown => trivial

theorem leaving_rejected (hsent : ¬ Sent i w) (ho : Rejects o) :
    AtCaller i call before w (.leaving o) := by
  refine ⟨returned_rejected hsent ho, ?_⟩
  rintro rfl
  cases ho

/-- A step that only goes to another point. -/
theorem moves_idle {point' : Point E} (hinside : inside point = inside point')
    (hat : AtCaller i call before w point') :
    CallerMoves i call before point w ⟨.caller call before point', w, none⟩ :=
  ⟨point', rfl, hat, .idle, by simp [hinside], rfl, .inl ⟨rfl, rfl⟩⟩

theorem stop_outside (hw : Inv size w) (l : Local T E) :
    Outside i w (stop w).1 ∧ (stop w).1.intake.submitters = w.intake.submitters ∧
      Stops w ⟨l, (stop w).1, (stop w).2⟩ := by
  unfold stop
  split
  · exact ⟨.idle, rfl, rfl, .inl ⟨rfl, rfl⟩⟩
  · rename_i hopen
    have hclosed : w.intake.closed = false := by simpa using hopen
    have hchan := Intake.open_of_not_closed hw.wf hclosed
    exact ⟨.stop, rfl, rfl, .inr ⟨rfl, hclosed, rfl, hchan⟩⟩

theorem promise_submit (before : Nat) {r : Request T} (h : call.request i = some r) :
    Promise i call before (w.submit r) .accepted := by
  intro request hrequest
  cases h.symm.trans hrequest
  exact List.mem_append_right _ (List.mem_singleton_self r)

theorem start_moves (hw : Inv size w) (hat : AtCaller i call before w .start)
    (h : callerStep i label call before .start w = some n) :
    CallerMoves i call before .start w n := by
  unfold callerStep at h
  cases call with
  | tryAdd item =>
    dsimp only at h
    split at h
    · cases h
      exact moves_idle rfl (returned_rejected hat.1 trivial)
    · rename_i hopen
      have hchan := Intake.open_of_not_closed hw.wf (by simpa using hopen)
      rw [if_neg (by simp [hchan])] at h
      split at h <;> cases h
      · exact ⟨.returned .accepted, rfl, promise_submit before rfl,
          .submit (.item i item) rfl hchan hat.1, rfl, rfl, .inl ⟨rfl, rfl⟩⟩
      · exact moves_idle rfl (returned_rejected hat.1 trivial)
  | shutdown ctx =>
    dsimp only at h
    split at h <;> cases h
    · exact moves_idle rfl trivial
    · obtain ⟨houtside, hsubmitters, hstops⟩ :=
        stop_outside hw (.caller (.shutdown ctx) before .waiting)
      exact ⟨.waiting, rfl, .inr ⟨ctx, rfl⟩, houtside, hsubmitters, hstops⟩
  | add ctx item | flush ctx =>
    dsimp only at h
    split at h
    · cases h
      exact moves_idle rfl (returned_rejected hat.1 trivial)
    · split at h <;> cases h
      · exact moves_idle rfl (returned_rejected hat.1 trivial)
      · exact moves_idle rfl hat

theorem join_moves (hat : AtCaller i call before w .join)
    (h : callerStep i label call before .join w = some n) :
    CallerMoves i call before .join w n := by
  unfold callerStep at h
  dsimp only at h
  split at h <;> cases h
  · exact moves_idle rfl (returned_rejected hat.1 trivial)
  · rename_i hopen
    exact ⟨.sending, rfl, hat, .join (by simpa using hopen), rfl, rfl, .inl ⟨rfl, rfl⟩⟩

theorem sending_moves (hw : Inv size w) (hat : AtCaller i call before w .sending)
    (hcount : 0 < w.intake.submitters) (h : callerStep i label call before .sending w = some n) :
    CallerMoves i call before .sending w n := by
  have hchan := Intake.open_of_submitter hw.wf hcount
  unfold callerStep at h
  cases label with
  | receive | tick | returns => cases h
  | done =>
    dsimp only at h
    obtain ⟨cause, -, rfl⟩ := Option.map_eq_some_iff.mp h
    exact moves_idle rfl (leaving_rejected hat.1 trivial)
  | closing =>
    dsimp only at h
    split at h <;> cases h
    exact moves_idle rfl (leaving_rejected hat.1 trivial)
  | send =>
    dsimp only at h
    split at h
    · cases h
    · rename_i r hr
      rw [if_neg (by simp [hchan])] at h
      split at h <;> cases h
      have hcall : r.call = i := by
        cases call <;> cases hr <;> rfl
      refine ⟨.leaving .accepted, rfl, ⟨promise_submit before hr, ?_⟩, .submit r hcall hchan hat.1,
        rfl, rfl, .inl ⟨rfl, rfl⟩⟩
      rintro - ctx rfl
      cases hr
      exact ⟨w.intake.accepted, [], rfl, hat.2⟩

theorem leaving_moves (hat : AtCaller i call before w (.leaving o))
    (hcount : 0 < w.intake.submitters)
    (h : callerStep i label call before (.leaving o) w = some n) :
    CallerMoves i call before (.leaving o) w n := by
  have hsub : w.intake.leave.submitters + 1 = w.intake.submitters := by
    show w.intake.submitters - 1 + 1 = w.intake.submitters
    omega
  unfold callerStep at h
  dsimp only at h
  split at h <;> cases h
  · rename_i _ _ ctx
    exact ⟨.waiting, rfl, .inl ⟨ctx, rfl, hat.2 rfl ctx rfl⟩, .leave, hsub, rfl, .inl ⟨rfl, rfl⟩⟩
  · refine ⟨.returned o, rfl, ?_, .leave, hsub, rfl, .inl ⟨rfl, rfl⟩⟩
    exact hat.1

/-- The barrier of a flush is in one place, so what its completion says is about it. -/
theorem flushed_before (hw : Inv size w) (hp : Placed i before w) (hf : Flushed i 0 err w) :
    Flushed i before err w := by
  obtain ⟨pre, post, hsplit, hbefore⟩ := hp
  obtain ⟨pre', post', n, hsplit', -, hrest⟩ := hf
  have hnot : .flush i ∉ pre ++ post := by
    have hdistinct := List.Nodup.of_map _ hw.distinct
    rw [hsplit, List.nodup_middle] at hdistinct
    exact (List.nodup_cons.mp hdistinct).1
  rw [List.mem_append, not_or] at hnot
  obtain ⟨hpre, -⟩ :=
    (List.append_cons_inj_of_notMem hnot.1 hnot.2).mp (hsplit.symm.trans hsplit')
  exact ⟨pre', post', n, hsplit', hpre ▸ hbefore, hrest⟩

theorem waiting_moves (hw : Inv size w) (hat : AtCaller i call before w .waiting)
    (h : callerStep i label call before .waiting w = some n) :
    CallerMoves i call before .waiting w n := by
  have hwait : ∀ {completion : Option (Option E)} {o : Outcome E},
      wait completion (w.causes i) = some o →
      (∃ err, completion = some err ∧ o = .result err) ∨ ∃ cause, o = .canceled cause := by
    intro completion o ho
    unfold wait at ho
    split at ho
    · rename_i err
      exact .inl ⟨err, rfl, (Option.some.inj ho).symm⟩
    · obtain ⟨cause, -, rfl⟩ := Option.map_eq_some_iff.mp ho
      exact .inr ⟨cause, rfl⟩
  unfold callerStep at h
  rcases hat with ⟨ctx, rfl, hplaced⟩ | ⟨ctx, rfl⟩
  · obtain ⟨o, ho, rfl⟩ := Option.map_eq_some_iff.mp h
    refine moves_idle rfl ?_
    rcases hwait ho with ⟨err, hdone, rfl⟩ | ⟨cause, rfl⟩
    · exact flushed_before hw hplaced (hw.completed i err hdone).1
    · trivial
  · obtain ⟨o, ho, rfl⟩ := Option.map_eq_some_iff.mp h
    refine moves_idle rfl ?_
    rcases hwait ho with ⟨err, hdone, rfl⟩ | ⟨cause, rfl⟩
    · exact hdone
    · trivial

theorem callerStep_moves (hw : Inv size w) (hat : AtCaller i call before w point)
    (hcount : inside point ≤ w.intake.submitters)
    (h : callerStep i label call before point w = some n) :
    CallerMoves i call before point w n := by
  cases point with
  | start => exact start_moves hw hat h
  | join => exact join_moves hat h
  | sending => exact sending_moves hw hat hcount h
  | leaving o => exact leaving_moves hat hcount h
  | waiting => exact waiting_moves hw hat h
  | returned o => cases h

/-- A step of the worker leaves the intake as it is for the submitters. -/
structure Kept (w w' : World T E) : Prop where
  accepted : w'.intake.accepted = w.intake.accepted
  closed : w'.intake.closed = w.intake.closed
  submitters : w'.intake.submitters = w.intake.submitters
  chan_closed : w'.intake.chan.closed = w.intake.chan.closed
  batches : w.batches <+: w'.batches
  results : w.results <+: w'.results

theorem kept_rfl (w : World T E) : Kept w w :=
  ⟨rfl, rfl, rfl, rfl, List.prefix_rfl, List.prefix_rfl⟩

theorem drained_of_none (h : w.finished = none) (err : Option E) (hdone : w.finished = some err) :
    Drained err w' := by
  rw [h] at hdone
  cases hdone

/-- What a step of the worker does. -/
def WorkerMoves (size : Nat) (w : World T E) (n : Progress (World T E) (Local T E)) : Prop :=
  ∃ phase, n.state = .worker phase ∧ n.started = none ∧ w.finished = none ∧ Inv size n.world ∧
    AtWorker size n.world phase ∧ Kept w n.world

theorem spares_kept (h : Kept w w') (hfinished : w.finished = none) : Spares j w w' := by
  refine ⟨⟨[], by simp [h.accepted], by simp⟩, h.batches, h.results, ?_⟩
  intro err hdone
  rw [hfinished] at hdone
  cases hdone

section

variable (hw : Inv size w)

include hw

theorem completed_kept (h : Kept w w') (hfinished : w.finished = none)
    (hbuf : ∀ r ∈ w'.intake.chan.buf, r ∈ w.intake.chan.buf) :
    ∀ i err, w.completions i = some err → Flushed i 0 err w' ∧ .flush i ∉ w'.intake.chan.buf := by
  intro i err hi
  obtain ⟨hflushed, hnot⟩ := hw.completed i err hi
  refine ⟨?_, fun hmem => hnot (hbuf _ hmem)⟩
  exact flushed_of_spares (spares_kept (j := i) h hfinished) hflushed hw.paired

/-- Waiting at the channel and leaving it is nobody else's concern. -/
theorem inv_waiting (k : Nat) :
    Inv size { w with intake := { w.intake with chan := { w.intake.chan with waiting := k } } } :=
  { hw with }

theorem accept_moves {r : Request T} {rest : List (Request T)} {k : Nat} (hcalm : Calm w)
    (hsmall : w.batch.length < size) (hbuf : w.intake.chan.buf = r :: rest) :
    let w₁ := { w with intake := { w.intake with
      chan := { w.intake.chan with buf := rest, waiting := k } } }
    WorkerMoves size w ⟨.worker (accept size r w₁).1, (accept size r w₁).2, none⟩ := by
  intro w₁
  obtain ⟨taken, htaken⟩ := hw.queued
  rw [hbuf] at htaken
  have hqueued : ∃ taken, w.intake.accepted = taken ++ rest := ⟨taken ++ [r], by simp [htaken]⟩
  have hkept : Kept w w₁ := { kept_rfl w with }
  have hcompleted := completed_kept hw hkept hcalm.2.2 (fun x hx => by
    rw [hbuf]
    exact List.mem_cons_of_mem r hx)
  have horder := hw.order
  rw [hbuf] at horder
  cases r with
  | flush call =>
    refine ⟨.flush (.complete call), rfl, rfl, hcalm.2.2, ?_, ⟨hcalm, ⟨taken, htaken⟩, ?_⟩, hkept⟩
    · exact { hw with order := horder, queued := hqueued, completed := hcompleted }
    · cases hdone : w.completions call with
      | none => exact hdone
      | some err =>
        have hnot := (hw.completed call err hdone).2
        rw [hbuf] at hnot
        exact absurd List.mem_cons_self hnot
  | item call value =>
    have hlength : (w.batch ++ [(call, value)]).length = w.batch.length + 1 := by simp
    refine ⟨(accept size (.item call value) w₁).1, rfl, rfl, hcalm.2.2, ?_, ?_, { hkept with }⟩
    · refine { hw with order := ?_, queued := hqueued, small := ?_, completed := hcompleted }
      · show items w.intake.accepted =
          w.batches.flatten ++ (w.batch ++ [(call, value)]) ++ items rest
        rw [horder, items_item]
        simp
      · show (w.batch ++ [(call, value)]).length ≤ size
        omega
    · dsimp only [accept]
      split
      · exact ⟨hcalm, trivial⟩
      · rename_i hfull
        refine ⟨hcalm, ?_⟩
        show (w.batch ++ [(call, value)]).length < size
        have : (w.batch ++ [(call, value)]).length ≠ size := hfull
        omega

theorem receiving_moves (hat : AtWorker size w .receiving)
    (h : workerStep size label .receiving w = some n) : WorkerMoves size w n := by
  obtain ⟨hcalm, hsmall⟩ := hat
  have hquit : ∀ andThen, Pending w andThen →
      WorkerMoves size w ⟨.worker (.flush andThen),
        { w with intake := { w.intake with chan := w.intake.chan.quit } }, none⟩ := by
    intro andThen hpending
    refine ⟨.flush andThen, rfl, rfl, hcalm.2.2, inv_waiting hw _, ⟨hcalm, ?_⟩,
      { kept_rfl w with }⟩
    cases andThen <;> exact hpending
  unfold workerStep at h
  cases label with
  | tick =>
    dsimp only at h
    split at h <;> cases h
    exact hquit .loop trivial
  | receive =>
    dsimp only at h
    split at h
    · rename_i r chan hreceive
      cases h
      obtain ⟨hbuf, hchan⟩ := Chan.receive_eq_some.mp hreceive
      rw [hchan]
      exact accept_moves hw hcalm hsmall hbuf
    · rename_i hreceive
      split at h <;> cases h
      rename_i hclosed
      refine hquit .finish ⟨hclosed, ?_⟩
      unfold Chan.receive at hreceive
      split at hreceive
      · assumption
      · cases hreceive
  | _ => cases h

theorem flush_moves (hat : AtWorker size w (.flush andThen))
    (h : workerStep size label (.flush andThen) w = some n) : WorkerMoves size w n := by
  obtain ⟨hcalm, hpending⟩ := hat
  unfold workerStep at h
  dsimp only at h
  split at h <;> cases h
  · rename_i hempty
    exact ⟨.resume andThen, rfl, rfl, hcalm.2.2, hw, ⟨hcalm, by simpa using hempty, hpending⟩,
      kept_rfl w⟩
  · rename_i hfull
    have hkept : Kept w { w with batches := w.batches ++ [w.batch], batch := [],
                                 ticking := false } :=
      { kept_rfl w with batches := List.prefix_append _ _ }
    have hcompleted := completed_kept hw hkept hcalm.2.2 (fun _ h => h)
    refine ⟨.handling andThen, rfl, rfl, hcalm.2.2, ?_, ⟨⟨?_, hcalm.2.1, hcalm.2.2, rfl⟩, ?_⟩,
      hkept⟩
    · refine { hw with
        order := ?_, sizes := ?_, small := Nat.zero_le _, paired := ?_, completed := hcompleted
        drained := drained_of_none hcalm.2.2 }
      · show items w.intake.accepted =
          (w.batches ++ [w.batch]).flatten ++ [] ++ items w.intake.chan.buf
        rw [hw.order]
        simp
      · exact List.forall_mem_append.mpr
          ⟨hw.sizes, List.forall_mem_singleton.mpr ⟨by simpa using hfull, hw.small⟩⟩
      · have hpaired := hw.paired
        simp only [List.length_append, List.length_singleton]
        omega
    · have hlength := hcalm.1
      simp only [List.length_append, List.length_singleton]
      omega
    · cases andThen <;> exact hpending

theorem handling_moves (hat : AtWorker size w (.handling andThen))
    (h : workerStep size label (.handling andThen) w = some n) : WorkerMoves size w n := by
  obtain ⟨⟨hlength, hfirst, hfinished, hbatch⟩, hpending⟩ := hat
  unfold workerStep at h
  cases label with
  | returns err =>
    cases h
    refine ⟨.notifying err andThen, rfl, rfl, hfinished, ?_, ⟨⟨hlength, ?_, hfinished, hbatch⟩, ?_⟩,
      { kept_rfl w with }⟩
    · exact { hw with }
    · show w.firstErr.or err = firstError (w.results ++ [err])
      rw [firstError_append, hfirst]
    · cases andThen <;> exact hpending
  | _ => cases h

theorem notifying_moves (hat : AtWorker size w (.notifying err andThen))
    (h : workerStep size label (.notifying err andThen) w = some n) : WorkerMoves size w n := by
  obtain ⟨⟨hlength, hfirst, hfinished, hbatch⟩, hpending⟩ := hat
  unfold workerStep at h
  cases h
  have hkept : Kept w { w with results := w.results ++ [err] } :=
    { kept_rfl w with results := List.prefix_append _ _ }
  have hcompleted := completed_kept hw hkept hfinished (fun _ h => h)
  have hcount : (w.results ++ [err]).length = w.batches.length := by
    simpa using hlength
  refine ⟨.resume andThen, rfl, rfl, hfinished, ?_, ⟨⟨hcount, hfirst, hfinished⟩, hbatch, ?_⟩,
    hkept⟩
  · exact { hw with
      paired := Nat.le_of_eq hcount, completed := hcompleted, drained := drained_of_none hfinished }
  · cases andThen <;> exact hpending

/-- The barrier the worker has come to has every batch before it behind it. -/
theorem barrier_flushed {call : Nat} (hcalm : Calm w) (hbatch : w.batch = [])
    (hpending : Pending w (.complete call)) :
    Flushed call 0 w.firstErr w ∧ .flush call ∉ w.intake.chan.buf := by
  obtain ⟨⟨pre, hpre⟩, -⟩ := hpending
  have hitems : w.batches.flatten = items pre := by
    have horder := hw.order
    rw [hpre, items_append, items_flush, hbatch, List.append_nil] at horder
    exact (List.append_cancel_right horder).symm
  refine ⟨⟨pre, _, w.results.length, hpre, Nat.zero_le _, Nat.le_refl _, ?_, ?_⟩, ?_⟩
  · rw [hcalm.1, List.take_length]
    exact hitems
  · rw [List.take_length]
    exact hcalm.2.1
  · have hdistinct := List.Nodup.of_map _ hw.distinct
    rw [hpre, List.nodup_middle] at hdistinct
    exact fun hmem => (List.nodup_cons.mp hdistinct).1 (List.mem_append_right _ hmem)

end

theorem resume_moves (hpos : 0 < size) (hw : Inv size w) (hat : AtWorker size w (.resume andThen))
    (h : workerStep size label (.resume andThen) w = some n) : WorkerMoves size w n := by
  obtain ⟨hcalm, hbatch, hpending⟩ := hat
  have hsmall : w.batch.length < size := by simpa [hbatch] using hpos
  unfold workerStep at h
  cases andThen with
  | loop =>
    cases h
    exact ⟨.select, rfl, rfl, hcalm.2.2, hw, ⟨hcalm, hsmall⟩, kept_rfl w⟩
  | complete call =>
    dsimp only at h
    rw [if_neg (by simp [hpending.2])] at h
    cases h
    have hflushed := barrier_flushed hw hcalm hbatch hpending
    refine ⟨.select, rfl, rfl, hcalm.2.2, { hw with completed := ?_ }, ⟨hcalm, hsmall⟩,
      { kept_rfl w with }⟩
    intro i err hi
    by_cases hcall : i = call
    · subst hcall
      obtain rfl : w.firstErr = err := by simpa using hi
      exact hflushed
    · exact hw.completed i err (by simpa [hcall] using hi)
  | finish =>
    cases h
    refine ⟨.exited, rfl, rfl, hcalm.2.2, { hw with drained := ?_ }, nofun, { kept_rfl w with }⟩
    intro err hdone
    obtain rfl : w.firstErr = err := by simpa using hdone
    refine ⟨hpending.1, ?_, hcalm.1, hcalm.2.1⟩
    show w.batches.flatten = items w.intake.accepted
    rw [hw.order, hbatch, hpending.2]
    simp

theorem workerStep_moves (hpos : 0 < size) (hw : Inv size w) (hat : AtWorker size w phase)
    (h : workerStep size label phase w = some n) : WorkerMoves size w n := by
  cases phase with
  | select =>
    cases h
    exact ⟨.receiving, rfl, rfl, hat.1.2.2, inv_waiting hw _, hat, { kept_rfl w with }⟩
  | receiving => exact receiving_moves hw hat h
  | flush andThen => exact flush_moves hw hat h
  | handling andThen => exact handling_moves hw hat h
  | notifying err andThen => exact notifying_moves hw hat h
  | resume andThen => exact resume_moves hpos hw hat h
  | exited => cases h

/-- The goroutines that are counted: submitters, the worker, and the one that closes the queue. -/
inductive Role
  | submitter
  | worker
  | closer

def weight : Role → Local T E → Nat
  | .submitter, .caller _ _ point => inside point
  | .worker, .worker _ => 1
  | .closer, .closer _ => 1
  | _, _ => 0

def count (w : World T E) : Role → Nat
  | .submitter => w.intake.submitters
  | .worker => 1
  | .closer => if w.intake.closed then 1 else 0

/-- What a step of any goroutine does. -/
inductive Moves (size i : Nat) (w : World T E) : Local T E → Progress (World T E) (Local T E) → Prop
  | caller {call : Call T} {before : Nat} {point : Point E} {n : Progress (World T E) (Local T E)}
      (h : CallerMoves i call before point w n) : Moves size i w (.caller call before point) n
  | worker {phase : Phase E} {n : Progress (World T E) (Local T E)} (h : WorkerMoves size w n) :
    Moves size i w (.worker phase) n
  | close (h : Outside i w { w with intake := w.intake.close }) :
    Moves size i w (.closer false) ⟨.closer true, { w with intake := w.intake.close }, none⟩
  | watch {n : Progress (World T E) (Local T E)} (hstate : n.state = .watcher true)
      (houtside : Outside i w n.world)
      (hsubmitters : n.world.intake.submitters = w.intake.submitters) (hstops : Stops w n) :
    Moves size i w (.watcher false) n

theorem step_moves (hw : Inv c.batchSize w) (hat : At c.batchSize i l w)
    (hcount : ∀ k, weight k l ≤ count w k) (h : step c i label l w = some n) :
    Moves c.batchSize i w l n := by
  unfold step at h
  cases l with
  | caller call before point => exact .caller (callerStep_moves hw hat (hcount .submitter) h)
  | worker phase => exact .worker (workerStep_moves c.batchSize_pos hw hat h)
  | panicked => cases h
  | closer done =>
    cases done with
    | true => cases h
    | false =>
      dsimp only at h
      split at h
      · rename_i hnone
        rw [if_neg (by simp [hat.2])] at h
        cases h
        exact .close (.close hat.1 hnone)
      · cases h
  | watcher done =>
    cases done with
    | true => cases h
    | false =>
      dsimp only at h
      split at h <;> cases h
      obtain ⟨houtside, hsubmitters, hstops⟩ := stop_outside hw (.watcher true)
      exact .watch rfl houtside hsubmitters hstops

theorem moves_spares (h : Moves size i w l n) (hij : i ≠ j) : Spares j w n.world := by
  cases h with
  | caller h =>
    obtain ⟨_, -, -, houtside, -⟩ := h
    exact spares_outside houtside hij
  | worker h =>
    obtain ⟨_, -, -, hfinished, -, -, hkept⟩ := h
    exact spares_kept hkept hfinished
  | close h => exact spares_outside h hij
  | watch _ houtside => exact spares_outside houtside hij

theorem moves_outside (h : Moves size i w l n) (hl : weight .worker l = 0) :
    Outside i w n.world := by
  cases h with
  | caller h =>
    obtain ⟨_, -, -, houtside, -⟩ := h
    exact houtside
  | worker h => cases hl
  | close h => exact h
  | watch _ houtside => exact houtside

/-- Only the goroutine that closes the queue closes it, and the intake stays stopped. -/
theorem moves_chan (h : Moves size i w l n) (hl : weight .closer l = 0) :
    n.world.intake.chan.closed = w.intake.chan.closed ∧
      (w.intake.closed = true → n.world.intake.closed = true) := by
  have hstops : ∀ {n : Progress (World T E) (Local T E)}, Stops w n →
      n.world.intake.chan.closed = w.intake.chan.closed ∧
        (w.intake.closed = true → n.world.intake.closed = true) := by
    rintro n ⟨hchan, ⟨-, hclosed⟩ | ⟨-, -, hclosed, -⟩⟩
    · exact ⟨hchan, fun h => hclosed.trans h⟩
    · exact ⟨hchan, fun _ => hclosed⟩
  cases h with
  | caller h =>
    obtain ⟨_, -, -, -, -, h⟩ := h
    exact hstops h
  | worker h =>
    obtain ⟨_, -, -, -, -, -, hkept⟩ := h
    exact ⟨hkept.chan_closed, fun h => hkept.closed.trans h⟩
  | close h => cases hl
  | watch _ _ _ h => exact hstops h

theorem moves_others (hw : Inv size w) (h : Moves size i w l n)
    (hboth : ∀ k, weight k l + weight k m ≤ count w k) (hij : i ≠ j) (hm : At size j m w) :
    At size j m n.world := by
  cases m with
  | caller call before point => exact caller_of_spares (moves_spares h hij) hw.paired hm
  | worker phase =>
    refine worker_outside (moves_outside h ?_) hm
    have hone : weight .worker l + 1 ≤ 1 := hboth .worker
    omega
  | closer done =>
    cases done with
    | true => trivial
    | false =>
      have hone : weight .closer l + 1 ≤ count w .closer := hboth .closer
      have hcount : count w .closer ≤ 1 := by
        simp only [count]
        split <;> omega
      obtain ⟨hchan, hclosed⟩ := moves_chan h (by omega)
      exact ⟨hclosed hm.1, hchan.trans hm.2⟩
  | watcher done => trivial
  | panicked => cases hm

theorem moves_own (hw : Inv size w) (h : Moves size i w l n) :
    Inv size n.world ∧ At size i n.state n.world := by
  cases h with
  | caller h =>
    obtain ⟨point', hstate, hat, houtside, -⟩ := h
    rw [hstate]
    exact ⟨inv_outside hw houtside, hat⟩
  | worker h =>
    obtain ⟨phase', hstate, -, -, hinv, hat, -⟩ := h
    rw [hstate]
    exact ⟨hinv, hat⟩
  | close h => exact ⟨inv_outside hw h, trivial⟩
  | watch hstate houtside =>
    rw [hstate]
    exact ⟨inv_outside hw houtside, trivial⟩

/-- A step that may stop the intake is counted by its submitters. -/
theorem stops_counts {l' : Local T E} (h : Stops w n)
    (hsubmitters : n.world.intake.submitters + weight .submitter l =
      w.intake.submitters + weight .submitter l')
    (hrest : ∀ k, k ≠ .submitter → weight k l = weight k l') (k : Role) :
    count n.world k + weight k l =
      count w k + weight k l' + System.total (weight k) n.started.toList := by
  obtain ⟨-, ⟨hnone, hclosed⟩ | ⟨hsome, hopen, hclosed, -⟩⟩ := h
  · rw [hnone]
    cases k with
    | submitter => exact hsubmitters
    | worker | closer => simp [hrest, count, hclosed, System.total]
  · rw [hsome]
    cases k with
    | submitter => exact hsubmitters
    | worker => exact congrArg (1 + ·) (hrest .worker (by simp))
    | closer =>
      simp only [count, hclosed, hopen, hrest .closer (by simp)]
      exact Nat.add_right_comm 0 1 _

theorem moves_counts (h : Moves size i w l n) (k : Role) : count n.world k + weight k l =
      count w k + weight k n.state + System.total (weight k) n.started.toList := by
  cases h with
  | caller h =>
    obtain ⟨point', hstate, -, -, hsubmitters, hstops⟩ := h
    rw [hstate]
    refine stops_counts hstops ?_ (by rintro (_ | _ | _) <;> simp [weight]) k
    exact hsubmitters
  | worker h =>
    obtain ⟨phase', hstate, hstarted, -, -, -, hkept⟩ := h
    rw [hstate, hstarted]
    cases k with
    | submitter => exact congrArg (· + 0) hkept.submitters
    | worker => rfl
    | closer => simp [count, hkept.closed, weight, System.total]
  | close h => cases k <;> rfl
  | watch hstate _ hsubmitters hstops =>
    rw [hstate]
    refine stops_counts hstops ?_ (by rintro (_ | _ | _) <;> simp [weight]) k
    exact hsubmitters

theorem moves_starts (h : Moves size i w l n) (hm : n.started = some m) : At size j m n.world := by
  have hstops : ∀ {n : Progress (World T E) (Local T E)}, Stops w n → n.started = some m →
      At size j m n.world := by
    rintro n ⟨hchan, ⟨hnone, -⟩ | ⟨hsome, -, hclosed, hopen⟩⟩ hm
    · rw [hnone] at hm
      cases hm
    · rw [hsome] at hm
      cases hm
      exact ⟨hclosed, hchan.trans hopen⟩
  cases h with
  | caller h =>
    obtain ⟨_, -, -, -, -, h⟩ := h
    exact hstops h hm
  | worker h =>
    obtain ⟨_, -, hnone, -⟩ := h
    rw [hnone] at hm
    cases hm
  | close h => cases hm
  | watch _ _ _ h => exact hstops h hm

/-- The proof outline of the batcher. -/
def outline (T E : Type) (c : Config) : (batcher T E c).Outline where
  Inv := Inv c.batchSize
  At := At c.batchSize
  Unused i w := ¬ Sent i w
  Counter := Role
  weight := weight
  count k w := count w k
  enter _ _ hunused := ⟨hunused, Nat.le_refl _⟩
  enter_weight k _ _ := by cases k <;> rfl
  own h hw hat hcount := moves_own hw (step_moves hw hat hcount h)
  others h hw hat hboth hij hm :=
    moves_others hw (step_moves hw hat (fun k => Nat.le_of_add_right_le (hboth k)) h) hboth hij hm
  unused h hw hat hcount hij hunused hsent :=
    hunused (sent_of_spares (moves_spares (step_moves hw hat hcount h) hij) hsent)
  starts h hw hat hcount _ _ hm := moves_starts (step_moves hw hat hcount h) hm
  counts h hw hat hcount k := moves_counts (step_moves hw hat hcount h) k
  shift_inv e w hw := by
    cases e <;> exact { hw with }
  shift_at e w i l _ hat := by
    cases e <;> exact hat
  shift_unused e w i h := by
    cases e <;> exact h
  shift_count e w k := by
    cases e <;> rfl

theorem holds_run (T E : Type) (c : Config) (actions : List (Action (Label E) Change (Call T))) :
    (outline T E c).Holds ((batcher T E c).run (initial T E c) actions) := by
  refine System.Outline.holds_run ?_ actions
  refine ⟨?_, ?_, ?_, ?_⟩
  · refine ⟨Intake.make_wf _, rfl, ⟨[], rfl⟩, List.nodup_nil, ?_, Nat.zero_le _, Nat.le_refl _,
      ?_, ?_⟩
    · intro b hb
      cases hb
    · intro i err h
      cases h
    · intro err h
      cases h
  · intro i l hl
    match i, hl with
    | 0, hl =>
      cases hl
      exact ⟨⟨rfl, rfl, rfl⟩, c.batchSize_pos⟩
    | 1, hl =>
      cases hl
      trivial
  · rintro i - ⟨r, hr, -⟩
    cases hr
  · intro k
    cases k <;> rfl

end Fries.Batcher
