import Fries.Parallel.StreamOutline

/-! The proof outline of the stream: what each step keeps. -/
namespace Fries.Parallel.Stream

variable {T R E : Type} {w w' : World T R E} {i j limit k : Nat} {phase : Phase T R E}
  {l m : Local T R E} {n : Progress (World T R E) (Local T R E)} {r : StreamResult R E}

/-- What is never taken back. -/
structure Grows (w w' : World T R E) : Prop where
  received : w.received <+: w'.received
  applied : w.applied <+: w'.applied
  ends : w.ends <+: w'.ends
  ended : Ended w → Ended w'

theorem grows_refl (w : World T R E) : Grows w w :=
  ⟨List.prefix_rfl, List.prefix_rfl, List.prefix_rfl, id⟩

theorem grows_moves (h : Moves w l n) : Grows w n.world := by
  cases h with
  | close | cancel => exact ⟨List.prefix_rfl, List.prefix_rfl, List.prefix_rfl, fun _ => .inl rfl⟩
  | apply => exact ⟨List.prefix_rfl, List.prefix_append _ _, List.prefix_rfl, id⟩
  | drop | deliver => exact ⟨List.prefix_rfl, List.prefix_rfl, List.prefix_append _ _, id⟩
  | receive h =>
    refine ⟨List.prefix_append _ _, List.prefix_rfl, List.prefix_rfl, ?_⟩
    rintro (hcancelled | ⟨-, hempty⟩)
    · exact .inl hcancelled
    · rw [(Chan.receive_eq_some.mp h).1] at hempty
      cases hempty
  | _ => exact ⟨List.prefix_rfl, List.prefix_rfl, List.prefix_rfl, id⟩

theorem received_grows {v : T} (h : Grows w w') (hv : w.received[k]? = some v) :
    w'.received[k]? = some v := by
  obtain ⟨more, hmore⟩ := h.received
  rw [← hmore, List.getElem?_append_left (List.getElem?_eq_some_iff.mp hv).1]
  exact hv

theorem computed_grows (h : Grows w w') (hr : Computed w r) : Computed w' r := by
  obtain ⟨v, hv, happlied⟩ := hr
  exact ⟨v, received_grows h hv, h.applied.subset happlied⟩

theorem delivered_grows (h : Grows w w') (hr : r ∈ w.delivered) : r ∈ w'.delivered := by
  obtain ⟨p, hp, hpr⟩ := List.mem_filterMap.mp hr
  exact List.mem_filterMap.mpr ⟨p, h.ends.subset hp, hpr⟩

/-- A step of a worker that holds a number. -/
theorem held_of_token (hcount : ∀ k, weight k (.worker phase) ≤ count w k)
    (htoken : phase.token = some k) : 0 < (custody w).held k :=
  Custody.held_of_weight htoken (hcount (.custody (.holder k)))

theorem active_of_token (htoken : phase.token = some k) :
    phase.active = true ∧ phase.flying = true := by
  cases phase with
  | check | calling | delivering => exact ⟨rfl, rfl⟩
  | release received =>
    cases received with
    | none => cases htoken
    | some p => exact ⟨rfl, rfl⟩
  | _ => cases htoken

theorem workers_pos (hcount : ∀ k, weight k (.worker phase) ≤ count w k)
    (hactive : phase.active = true) : 0 < w.workers := by
  have hle : phase.active.toNat ≤ w.workers := hcount .active
  rw [hactive] at hle
  exact hle

/-- A stream with an active worker is not over. -/
theorem not_done (hw : Inv limit w) (hpos : 0 < w.workers) : ¬ w.done = true := by
  intro hdone
  have hnone := (hw.finished hdone).1
  omega

/-- When a numbered value has come to its end. -/
theorem inv_end (result : Option (StreamResult R E)) (hw : Inv limit w)
    (hheld : 0 < (custody w).held k) (hpos : 0 < w.workers)
    (hresult : ∀ r, result = some r → r.index = k ∧ Computed w r)
    (hdropped : result = none → w.cancelled.isSome) :
    Inv limit { w with ends := w.ends ++ [(k, result)] } := by
  have hgrows : Grows w { w with ends := w.ends ++ [(k, result)] } :=
    ⟨List.prefix_rfl, List.prefix_rfl, List.prefix_append _ _, id⟩
  have hopen := not_done hw hpos
  refine { hw with
    wf := ?_, flight_le := ?_, results := ?_, dropped := ?_
    buffered := fun r hr => delivered_grows hgrows (hw.buffered r hr)
    finished := fun hdone => absurd hdone hopen }
  · exact Custody.numbered_finish_wf hw.wf hheld result
  · have hle := hw.flight_le
    show w.received.length ≤ (w.ends ++ [(k, result)]).length + w.workers
    rw [List.length_append]
    omega
  · intro m r hr
    rcases List.mem_append.mp hr with hr | hr
    · obtain ⟨hindex, hcomputed⟩ := hw.results m r hr
      exact ⟨hindex, computed_grows hgrows hcomputed⟩
    · obtain ⟨rfl, hsome⟩ : m = k ∧ some r = result := by simpa using hr
      obtain ⟨hindex, hcomputed⟩ := hresult r hsome.symm
      exact ⟨hindex, computed_grows hgrows hcomputed⟩
  · intro m hm
    rcases List.mem_append.mp hm with hm | hm
    · exact hw.dropped m hm
    · obtain ⟨-, hnone⟩ : m = k ∧ none = result := by simpa using hm
      exact hdropped hnone.symm

theorem inv_receive {value : T} {input : Chan T} (hw : Inv limit w) (hgate : w.gate = true)
    (hidle : 0 < w.workers - (w.received.length - w.ends.length))
    (h : w.input.receive = some (value, input)) :
    Inv limit { w with input := input, received := w.received ++ [value] } := by
  have hgrows : Grows w { w with input := input, received := w.received ++ [value] } :=
    grows_moves (.receive h)
  have hopen := not_done hw (by omega)
  have hlength : (w.received ++ [value]).length = w.received.length + 1 := by simp
  refine { hw with
    numbered := fun hopen => absurd (hgate.symm.trans hopen) nofun
    next_le := Nat.le_trans hw.next_le hgrows.received.length_le
    flight_le := ?_
    exited := fun hlt => hgrows.ended (hw.exited hlt)
    results := fun k r hr =>
      ⟨(hw.results k r hr).1, computed_grows hgrows (hw.results k r hr).2⟩
    finished := fun hdone => absurd hdone hopen }
  show (w.received ++ [value]).length ≤ w.ends.length + w.workers
  omega

theorem inv_number (hw : Inv limit w) (hgate : w.gate = true)
    (hnext : w.received.length = w.next + 1) : Inv limit { w with next := w.next + 1 } := by
  exact { hw with
    numbered := fun hopen => absurd (hgate.symm.trans hopen) nofun
    next_le := Nat.le_of_eq hnext.symm
    wf := Custody.numbered_take_wf hw.wf }

theorem inv_cancel {cause : String} (hw : Inv limit w) : Inv limit (w.cancel cause) :=
  { hw with
    exited := fun _ => .inl rfl
    dropped := fun _ _ => rfl }

theorem inv_exit (hw : Inv limit w) (hended : Ended w)
    (hidle : 0 < w.workers - (w.received.length - w.ends.length))
    (houtside : 0 < w.workers - w.gate.toNat) : Inv limit { w with workers := w.workers - 1 } := by
  refine { hw with
    flight_le := ?_, gate_le := ?_
    workers_le := Nat.le_trans (Nat.sub_le _ _) hw.workers_le
    exited := fun _ => hended
    closing := ?_, finished := ?_ }
  · have hle := hw.flight_le
    show w.received.length ≤ w.ends.length + (w.workers - 1)
    omega
  · show w.gate.toNat ≤ w.workers - 1
    omega
  · intro hclosed
    have hnone := hw.closing hclosed
    omega
  · intro hdone
    have hnone := (hw.finished hdone).1
    omega

theorem inv_moves (hw : Inv limit w) (hat : At l w) (hcount : ∀ k, weight k l ≤ count w k)
    (h : Moves w l n) : Inv limit n.world := by
  have hgrows := grows_moves h
  cases h with
  | consume | leave | await | quit => exact { hw with }
  | take h =>
    obtain ⟨hbuf, hresults⟩ := Chan.receive_eq_some.mp h
    refine { hw with closing := ?_, buffered := ?_ }
    · intro hclosed
      rw [hresults] at hclosed
      exact hw.closing hclosed
    · intro r hr
      refine hw.buffered r ?_
      rw [hbuf]
      exact List.mem_cons_of_mem _ hr
  | close | cancel => exact inv_cancel hw
  | acquire hgate =>
    have houtside : 1 ≤ w.workers - w.gate.toNat := hcount .outside
    refine { hw with numbered := nofun, gate_le := ?_ }
    show 1 ≤ w.workers
    omega
  | receive h =>
    have hgate : 1 ≤ w.gate.toNat := hcount .gate
    refine inv_receive hw ?_ (hcount .idle) h
    cases hg : w.gate with
    | true => rfl
    | false =>
      rw [hg] at hgate
      cases hgate
  | number =>
    have hgate : 1 ≤ w.gate.toNat := hcount .gate
    refine inv_number hw ?_ hat.1
    cases hg : w.gate with
    | true => rfl
    | false =>
      rw [hg] at hgate
      cases hgate
  | release =>
    rename_i phase received hphase
    refine { hw with numbered := fun _ => ?_, gate_le := Nat.zero_le _ }
    cases received with
    | none | some p => exact hat.1
  | apply =>
    exact { hw with
      results := fun k r hr =>
        ⟨(hw.results k r hr).1, computed_grows hgrows (hw.results k r hr).2⟩ }
  | drop htoken _ hcancelled =>
    exact inv_end none hw (held_of_token hcount htoken) (workers_pos hcount (active_of_token htoken).1)
      nofun fun _ => hcancelled
  | deliver =>
    rename_i r hopen
    have hpos := workers_pos hcount rfl
    have hend := inv_end (some r) hw (held_of_token hcount rfl) hpos
      (fun r' hr' => by cases hr'; exact ⟨rfl, hat⟩) nofun
    refine { hend with buffered := ?_ }
    exact List.forall_mem_append.mpr
      ⟨hend.buffered,
        List.forall_mem_singleton.mpr (List.mem_filterMap.mpr ⟨_, List.mem_concat_self, rfl⟩)⟩
  | exit => exact inv_exit hw hat (hcount .idle) (hcount .outside)
  | status => exact { hw with finished := fun hdone => absurd (hat.2.symm.trans hdone) nofun }
  | closeResults =>
    obtain ⟨-, -, hnone, -⟩ := hat
    exact { hw with closing := fun _ => hnone }
  | finish =>
    obtain ⟨-, hnone, hcomplete⟩ := hat
    exact { hw with finished := fun _ => ⟨hnone, hcomplete⟩ }
  | _ => exact hw

theorem indices_of_results {ends : List (Nat × Option (StreamResult R E))}
    (h : ∀ p ∈ ends, ∃ r, p.2 = some r ∧ r.index = p.1) :
    (ends.filterMap Prod.snd).map StreamResult.index = ends.map Prod.fst := by
  induction ends with
  | nil => rfl
  | cons p rest ih =>
    obtain ⟨r, hr, hindex⟩ := h p List.mem_cons_self
    rw [List.filterMap_cons_some hr, List.map_cons, List.map_cons, hindex,
      ih fun q hq => h q (List.mem_cons_of_mem _ hq)]

/-- A stream without workers that was not canceled is complete. -/
theorem complete_of_idle (hlimit : 0 < limit) (hw : Inv limit w) (hnone : w.workers = 0)
    (hcancelled : w.cancelled = none) : Complete w := by
  constructor
  · rcases hw.exited (by omega) with hsome | ⟨hclosed, -⟩
    · rw [hcancelled] at hsome
      cases hsome
    · exact hclosed
  · have hgate : w.gate = false := by
      have hle := hw.gate_le
      rw [hnone] at hle
      cases hg : w.gate with
      | false => rfl
      | true =>
        rw [hg] at hle
        cases hle
    have hbusy : (custody w).busy = 0 := by
      have hflight := hw.flight_le
      have hnext := hw.next_le
      rw [custody, Custody.numbered_busy]
      omega
    have hall : ∀ p ∈ w.ends, ∃ r, p.2 = some r ∧ r.index = p.1 := by
      rintro ⟨k, result⟩ hp
      cases result with
      | some r => exact ⟨r, rfl, (hw.results k r hp).1⟩
      | none =>
        have hsome := hw.dropped k hp
        rw [hcancelled] at hsome
        cases hsome
    rw [World.delivered, indices_of_results hall, ← hw.numbered hgate]
    exact Custody.perm_of_idle hw.wf hbusy

theorem own_moves (hlimit : 0 < limit) (hw : Inv limit w) (hat : At l w) (h : Moves w l n) :
    At n.state n.world := by
  cases h with
  | stay hat' => exact hat'
  | take h =>
    refine hw.buffered _ ?_
    rw [(Chan.receive_eq_some.mp h).1]
    exact List.mem_cons_self
  | leave houtcome => rcases houtcome with rfl | rfl <;> trivial
  | acquire hgate => exact hw.numbered hgate
  | abandon hended => exact hended
  | pass hended | quit hended => exact ⟨hat, hended⟩
  | await | call | cancel => exact hat
  | receive h =>
    have hnext : w.next = w.received.length := hat
    refine ⟨?_, ?_⟩
    · simp [hnext]
    · simp [hnext]
  | number => exact ⟨hat.1.symm, hat.2⟩
  | release hphase =>
    rename_i phase received
    cases received with
    | none | some p =>
      subst hphase
      exact hat.2
  | apply => exact ⟨_, hat, List.mem_concat_self⟩
  | drop _ _ hcancelled => exact .inl hcancelled
  | status hnone => exact ⟨hat.1, hat.2, hnone, complete_of_idle hlimit hw hnone⟩
  | closeResults => exact hat.2
  | _ => trivial

/-- Only a worker at the input changes how far the numbering has come. -/
theorem numbering_moves (h : Moves w l n) (hl : weight .gate l = 0) :
    n.world.next = w.next ∧ n.world.received = w.received := by
  cases h with
  | receive | number => cases hl
  | _ => exact ⟨rfl, rfl⟩

theorem worker_of_grows (hgrows : Grows w w')
    (hsame : phase.inGate = true → w'.next = w.next ∧ w'.received = w.received)
    (hat : AtWorker w phase) : AtWorker w' phase := by
  cases phase with
  | acquire | exited => trivial
  | gated | receiving =>
    obtain ⟨hnext, hreceived⟩ := hsame rfl
    show w'.next = w'.received.length
    rw [hnext, hreceived]
    exact hat
  | numbering v =>
    obtain ⟨hnext, hreceived⟩ := hsame rfl
    show w'.received.length = w'.next + 1 ∧ w'.received[w'.next]? = some v
    rw [hnext, hreceived]
    exact hat
  | release received =>
    obtain ⟨hnext, hreceived⟩ := hsame rfl
    have hlength : w.next = w.received.length → w'.next = w'.received.length := by
      rw [hnext, hreceived]
      exact id
    cases received with
    | none => exact ⟨hlength hat.1, hgrows.ended hat.2⟩
    | some p => exact ⟨hlength hat.1, received_grows hgrows hat.2⟩
  | check v k | calling v k => exact received_grows hgrows hat
  | delivering r => exact computed_grows hgrows hat
  | exiting => exact hgrows.ended hat

/-- Nothing is delivered or lost after the last worker. -/
theorem complete_moves (h : Moves w l n) (hl : weight .active l = 0) (hw : Complete w) :
    Complete n.world := by
  cases h with
  | stay | consume | take | leave | close | status | cancel | closeResults | finish => exact hw
  | release => cases hl
  | drop htoken =>
    rw [weight, (active_of_token htoken).1] at hl
    cases hl
  | _ => cases hl

theorem workers_moves (h : Moves w l n) (hl : weight .active l = 0) :
    n.world.workers = w.workers := by
  cases h with
  | exit => cases hl
  | _ => rfl

/-- What concerns the end of the stream is left to one goroutine. -/
theorem ending_moves (h : Moves w l n) (hl : weight .ender l = 0) :
    n.world.results.closed = w.results.closed ∧ n.world.done = w.done ∧ n.world.err = w.err := by
  cases h with
  | status | cancel | closeResults | finish => cases hl
  | take h =>
    refine ⟨?_, rfl, rfl⟩
    rw [(Chan.receive_eq_some.mp h).2]
  | _ => exact ⟨rfl, rfl, rfl⟩

theorem ender_of_same {stage : Ending} (hclosed : w'.results.closed = w.results.closed)
    (hdone : w'.done = w.done) (herr : w'.err = w.err)
    (hlast : w.workers = 0 → w'.workers = 0 ∧ (Complete w → Complete w')) (hat : AtEnder w stage) :
    AtEnder w' stage := by
  have hover : w.workers = 0 ∧ (w.err = none → Complete w) →
      w'.workers = 0 ∧ (w'.err = none → Complete w') := by
    rintro ⟨hnone, hcomplete⟩
    rw [herr]
    exact ⟨(hlast hnone).1, fun hnil => (hlast hnone).2 (hcomplete hnil)⟩
  cases stage with
  | workers => exact ⟨hclosed.trans hat.1, hdone.trans hat.2⟩
  | cancel | results => exact ⟨hclosed.trans hat.1, hdone.trans hat.2.1, hover hat.2.2⟩
  | done => exact ⟨hdone.trans hat.1, hover hat.2⟩
  | finished => trivial

/-- The status of a stream that is over does not change. -/
theorem status_moves (h : Moves w l n) (hat : At l w) (hdone : w.done = true) :
    n.world.done = true ∧ n.world.err = w.err := by
  cases h with
  | status => exact absurd (hat.2.symm.trans hdone) nofun
  | finish => exact ⟨rfl, rfl⟩
  | _ => exact ⟨hdone, rfl⟩

theorem caller_of_grows {point : Point R E} (h : Grows w w')
    (hstatus : w.done = true → w'.done = true ∧ w'.err = w.err) (hat : AtCaller w point) :
    AtCaller w' point := by
  cases point with
  | start | waiting => trivial
  | returned o =>
    cases o with
    | result r => exact delivered_grows h hat
    | waited err =>
      obtain ⟨hdone, herr⟩ := hstatus hat.1
      exact ⟨hdone, herr.trans hat.2⟩
    | _ => trivial

theorem others_moves (hat : At l w) (h : Moves w l n)
    (hboth : ∀ k, weight k l + weight k m ≤ count w k) (hm : At m w) : At m n.world := by
  have hgrows := grows_moves h
  cases m with
  | caller call point => exact caller_of_grows hgrows (status_moves h hat) hm
  | worker phase =>
    refine worker_of_grows hgrows (fun hgate => numbering_moves h ?_) hm
    have hle : weight .gate l + phase.inGate.toNat ≤ w.gate.toNat := hboth .gate
    have hone := Bool.toNat_le w.gate
    rw [hgate] at hle
    simp only [Bool.toNat_true] at hle
    omega
  | ender stage =>
    have hone : weight .ender l + 1 ≤ 1 := hboth .ender
    have hactive : weight .active l ≤ w.workers :=
      Nat.le_trans (Nat.le_add_right _ _) (hboth .active)
    obtain ⟨hclosed, hdone, herr⟩ := ending_moves h (by omega)
    refine ender_of_same hclosed hdone herr (fun hnone => ?_) hm
    have hzero : weight .active l = 0 := by omega
    exact ⟨(workers_moves h hzero).trans hnone, complete_moves h hzero⟩
  | panicked => cases hm

theorem flight_pos (hw : Inv limit w) (hheld : 0 < (custody w).held k) :
    0 < w.received.length - w.ends.length := by
  have hlength := Custody.length_lt_of_held hw.wf hheld none
  have hnext := hw.next_le
  omega

theorem idle_end (result : Option (StreamResult R E)) (hw : Inv limit w)
    (hheld : 0 < (custody w).held k) :
    w.workers - (w.received.length - (w.ends ++ [(k, result)]).length) + 0 =
      w.workers - (w.received.length - w.ends.length) + 1 + 0 := by
  have hpos := flight_pos hw hheld
  have hle := hw.flight_le
  rw [List.length_append, List.length_singleton]
  omega

theorem counts_moves (hw : Inv limit w) (hcount : ∀ k, weight k l ≤ count w k)
    (h : Moves w l n) (k : Counter) :
    count n.world k + weight k l =
      count w k + weight k n.state + System.total (weight k) n.started.toList := by
  have hk := hcount k
  cases h with
  | acquire hgate =>
    cases k with
    | gate =>
      show 1 + 0 = w.gate.toNat + 1 + 0
      rw [hgate]
      rfl
    | outside =>
      have hpos : 1 ≤ w.workers - w.gate.toNat := hk
      show w.workers - 1 + 1 = w.workers - w.gate.toNat + 0 + 0
      rw [hgate] at hpos ⊢
      simp only [Bool.toNat_false] at hpos ⊢
      omega
    | _ => rfl
  | receive =>
    rename_i value input h
    cases k with
    | idle =>
      have hpos : 1 ≤ w.workers - (w.received.length - w.ends.length) := hk
      have hends : w.ends.length ≤ w.received.length := by
        have hlength := Custody.numbered_length hw.wf
        have hnext := hw.next_le
        omega
      show w.workers - ((w.received ++ [value]).length - w.ends.length) + 1 =
        w.workers - (w.received.length - w.ends.length) + 0 + 0
      rw [List.length_append, List.length_singleton]
      omega
    | _ => rfl
  | number =>
    cases k with
    | custody role => exact Custody.numbered_count_take hw.wf role
    | _ => rfl
  | release hphase =>
    rename_i phase received
    have hgate : 1 ≤ w.gate.toNat := hcount .gate
    have hone := Bool.toNat_le w.gate
    have hle := hw.gate_le
    obtain ⟨htoken, hin, hactive, hflying⟩ :
        phase.token = (Phase.release received : Phase T R E).token ∧ phase.inGate = false ∧
        phase.active = true ∧ phase.flying = (Phase.release received : Phase T R E).flying := by
      subst hphase
      cases received <;> exact ⟨rfl, rfl, rfl, rfl⟩
    cases k with
    | gate =>
      simp only [count, weight, hin]
      show 0 + 1 = w.gate.toNat + 0 + 0
      omega
    | outside =>
      simp only [count, weight, hin, hactive]
      show w.workers - 0 + 0 = w.workers - w.gate.toNat + 1 + 0
      omega
    | active =>
      simp only [weight, hactive]
      rfl
    | idle =>
      simp only [weight, hactive, hflying]
      rfl
    | custody role =>
      simp only [weight, htoken]
      rfl
    | ender => rfl
  | drop htoken hgate =>
    have hheld := held_of_token hcount htoken
    obtain ⟨hactive, hflying⟩ := active_of_token htoken
    cases k with
    | active =>
      simp only [weight, hactive]
      rfl
    | gate =>
      simp only [weight, hgate]
      rfl
    | outside =>
      simp only [weight, hgate, hactive]
      rfl
    | idle =>
      simp only [weight, hflying, hactive]
      exact idle_end none hw hheld
    | custody role =>
      simp only [weight, htoken]
      exact Custody.numbered_count_finish hw.wf hheld none role
    | ender => rfl
  | deliver =>
    rename_i r hopen
    have hheld := held_of_token (k := r.index) hcount rfl
    cases k with
    | idle => exact idle_end (some r) hw hheld
    | custody role => exact Custody.numbered_count_finish hw.wf hheld (some r) role
    | _ => rfl
  | exit =>
    have hidle : 1 ≤ w.workers - (w.received.length - w.ends.length) := hcount .idle
    have houtside : 1 ≤ w.workers - w.gate.toNat := hcount .outside
    cases k with
    | active =>
      show w.workers - 1 + 1 = w.workers + 0 + 0
      omega
    | outside =>
      show w.workers - 1 - w.gate.toNat + 1 = w.workers - w.gate.toNat + 0 + 0
      omega
    | idle =>
      show w.workers - 1 - (w.received.length - w.ends.length) + 1 =
        w.workers - (w.received.length - w.ends.length) + 0 + 0
      omega
    | gate | custody | ender => rfl
  | _ => cases k <;> rfl

theorem grows_shift (e : Change T) : Grows w (shift e w) := by
  cases e with
  | cancelCall => exact ⟨List.prefix_rfl, List.prefix_rfl, List.prefix_rfl, id⟩
  | cancel => exact ⟨List.prefix_rfl, List.prefix_rfl, List.prefix_rfl, fun _ => .inl rfl⟩
  | closeInput =>
    refine ⟨List.prefix_rfl, List.prefix_rfl, List.prefix_rfl, ?_⟩
    rintro (hcancelled | ⟨-, hempty⟩)
    · exact .inl hcancelled
    · exact .inr ⟨rfl, hempty⟩
  | provide value =>
    simp only [shift]
    split
    · exact grows_refl w
    · rename_i hroom
      refine ⟨List.prefix_rfl, List.prefix_rfl, List.prefix_rfl, ?_⟩
      rintro (hcancelled | ⟨hclosed, -⟩)
      · exact .inl hcancelled
      · exact absurd (.inl hclosed) hroom

theorem inv_shift (e : Change T) (hw : Inv limit w) : Inv limit (shift e w) := by
  have hgrows : Grows w (shift e w) := grows_shift e
  cases e with
  | cancelCall => exact { hw with }
  | cancel => exact inv_cancel hw
  | closeInput =>
    exact { hw with
      exited := fun hlt => hgrows.ended (hw.exited hlt)
      finished := fun hdone =>
        ⟨(hw.finished hdone).1, fun hnil => ⟨rfl, ((hw.finished hdone).2 hnil).2⟩⟩ }
  | provide value =>
    simp only [shift] at hgrows ⊢
    split
    · exact hw
    · rename_i hroom
      rw [if_neg hroom] at hgrows
      exact { hw with exited := fun hlt => hgrows.ended (hw.exited hlt) }

/-- The environment changes nothing but the input, the causes and the cancellation. -/
theorem shift_same (e : Change T) (w : World T R E) :
    ((shift e w).next = w.next ∧ (shift e w).workers = w.workers ∧ (shift e w).gate = w.gate) ∧
      ((shift e w).received = w.received ∧ (shift e w).ends = w.ends) ∧
      (shift e w).results = w.results ∧ (shift e w).done = w.done ∧ (shift e w).err = w.err ∧
      (w.input.closed = true → (shift e w).input.closed = true) := by
  cases e with
  | cancelCall | cancel => exact ⟨⟨rfl, rfl, rfl⟩, ⟨rfl, rfl⟩, rfl, rfl, rfl, id⟩
  | closeInput => exact ⟨⟨rfl, rfl, rfl⟩, ⟨rfl, rfl⟩, rfl, rfl, rfl, fun _ => rfl⟩
  | provide value =>
    simp only [shift]
    split <;> exact ⟨⟨rfl, rfl, rfl⟩, ⟨rfl, rfl⟩, rfl, rfl, rfl, id⟩

theorem at_shift (e : Change T) (hat : At l w) : At l (shift e w) := by
  have hgrows : Grows w (shift e w) := grows_shift e
  obtain ⟨⟨hnext, hworkers, -⟩, ⟨hreceived, hends⟩, hresults, hdone, herr, hclosed⟩ :=
    shift_same e w
  cases l with
  | caller call point => exact caller_of_grows hgrows (fun hd => ⟨hdone.trans hd, herr⟩) hat
  | worker phase => exact worker_of_grows hgrows (fun _ => ⟨hnext, hreceived⟩) hat
  | ender stage =>
    refine ender_of_same (congrArg Chan.closed hresults) hdone herr (fun hnone => ?_) hat
    refine ⟨hworkers.trans hnone, fun hcomplete => ⟨hclosed hcomplete.1, ?_⟩⟩
    rw [World.delivered, hends, hreceived]
    exact hcomplete.2
  | panicked => cases hat

theorem count_shift (e : Change T) (w : World T R E) (k : Counter) :
    count (shift e w) k = count w k := by
  obtain ⟨⟨hnext, hworkers, hgate⟩, ⟨hreceived, hends⟩, -⟩ := shift_same e w
  cases k <;> simp only [count, custody, hnext, hworkers, hgate, hends, hreceived]

/-- The proof outline of the stream. -/
def outline (T R E : Type) (c : Config) : (stream T R E).Outline where
  Inv := Inv c.limit
  At _ := At
  Unused _ _ := True
  Counter := Counter
  weight := weight
  count k w := count w k
  enter _ _ _ := trivial
  enter_weight k _ _ := by cases k <;> rfl
  own h hw hat hcount :=
    have hmoves := step_moves hw hat hcount h
    ⟨inv_moves hw hat hcount hmoves, own_moves c.limit_pos hw hat hmoves⟩
  others h hw hat hboth _ hm :=
    others_moves hat (step_moves hw hat (fun k => Nat.le_trans (Nat.le_add_right _ _) (hboth k)) h)
      hboth hm
  unused _ _ _ _ _ _ := trivial
  starts h hw hat hcount _ _ hm := by
    cases step_moves hw hat hcount h <;> cases hm
  counts h hw hat hcount k := counts_moves hw hcount (step_moves hw hat hcount h) k
  shift_inv e _ hw := inv_shift e hw
  shift_at e _ _ _ _ hat := at_shift e hat
  shift_unused _ _ _ _ := trivial
  shift_count e w k := count_shift e w k

theorem holds_initial (T R E : Type) (c : Config) :
    (outline T R E c).Holds (initial T R E c) := by
  refine ⟨?_, ?_, fun _ _ => trivial, ?_⟩
  · exact {
      numbered := fun _ => rfl
      next_le := Nat.le_refl _
      wf := Custody.make_wf
      flight_le := Nat.zero_le _
      gate_le := Nat.zero_le _
      workers_le := Nat.le_refl _
      exited := fun hlt => absurd hlt (Nat.lt_irrefl _)
      results := nofun
      dropped := nofun
      closing := nofun
      buffered := nofun
      finished := nofun }
  · intro i l hl
    rcases List.mem_append.mp (List.mem_of_getElem? hl) with hl | hl
    · rw [List.eq_of_mem_replicate hl]
      trivial
    · rw [List.mem_singleton.mp hl]
      exact ⟨rfl, rfl⟩
  · intro k
    have htotal := System.total_replicate (weight k) c.limit (.worker .acquire : Local T R E)
    show _ = System.total (weight k) (List.replicate c.limit _ ++ [_])
    rw [System.total_append, htotal]
    cases k with
    | active | outside | idle => exact (Nat.mul_one c.limit).symm
    | gate => exact (Nat.mul_zero c.limit).symm
    | ender => exact (congrArg (· + 1) (Nat.mul_zero c.limit)).symm
    | custody role =>
      show (custody _).count role = c.limit * Custody.weight role none + 0
      rw [Custody.weight_none, Nat.mul_zero]
      cases role <;> rfl

end Fries.Parallel.Stream
