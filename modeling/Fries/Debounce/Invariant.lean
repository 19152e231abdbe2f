import Fries.Debounce.Outline

/-! The proof outline of the debouncer: what each step keeps. -/
namespace Fries.Debounce

variable {T E : Type} {c : Config} {w w' : World T E} {i j id : Nat} {x y : Item T}
  {delay : Int} {before : Nat} {point : Point E} {phase : Phase T E} {l l' m : Local T E}
  {n : Progress (World T E) (Local T E)}

theorem slot_congr {slot : Option Nat}
    (h : ∀ id, slot = some id → w'.invocations id = w.invocations id) :
    w'.slot slot = w.slot slot := by
  cases slot with
  | none => rfl
  | some id => simp [World.slot, World.item, h id rfl]

/-- The invocation a trigger writes to. -/
def target (w : World T E) : Nat := w.pending.getD w.made

theorem target_spec (hw : Slots delay w) :
    w.ready ≠ some (target w) ∧ w.running ≠ some (target w) ∧
      (w.pending = some (target w) ∨ w.pending = none ∧ target w = w.made) := by
  cases hp : w.pending with
  | some id =>
    obtain ⟨-, hready, hrunning, -⟩ := hw.pending id hp
    simp only [target, hp, Option.getD_some]
    exact ⟨hready, hrunning, .inl trivial⟩
  | none =>
    simp only [target, hp, Option.getD_none]
    refine ⟨fun hr => ?_, fun hr => ?_, .inr ⟨trivial, trivial⟩⟩
    · exact Nat.lt_irrefl _ (hw.ready _ hr).1
    · exact Nat.lt_irrefl _ (hw.running _ hr).1

variable {value : T} {call : Nat} {pending ready : Option Nat} {err : Option E}

theorem trigger_other (h : id ≠ target w) :
    (w.trigger delay value).invocations id = w.invocations id :=
  Function.update_of_ne h _ _

theorem trigger_target (hw : Slots delay w) :
    (w.trigger delay value).invocations (target w) =
      ⟨some ⟨w.accepted.length, value, w.clock⟩, w.clock + delay, none⟩ := by
  refine (Function.update_self _ _ _).trans ?_
  cases hp : w.pending with
  | some id =>
    obtain ⟨-, -, -, x, hx⟩ := hw.pending id hp
    simp [hx]
  | none => simp

theorem trigger_made (value : T) (hw : Slots delay w) :
    w.made ≤ (w.trigger delay value).made ∧ target w < (w.trigger delay value).made := by
  show w.made ≤ (if w.pending.isSome then w.made else w.made + 1) ∧
    target w < if w.pending.isSome then w.made else w.made + 1
  cases hp : w.pending with
  | some id => simpa [target, hp] using (hw.pending id hp).1
  | none => simp [target, hp]

theorem slots_trigger (hw : Slots delay w) : Slots delay (w.trigger delay value) := by
  obtain ⟨hready, hrunning, -⟩ := target_spec hw
  obtain ⟨hmade, htarget⟩ := trigger_made value hw
  have hother : ∀ {id}, w.ready = some id ∨ w.running = some id →
      (w.trigger delay value).invocations id = w.invocations id := by
    rintro id hid
    refine trigger_other ?_
    rintro rfl
    exact hid.elim hready hrunning
  refine ⟨?_, ?_, ?_⟩
  · intro id hid
    obtain rfl : target w = id := Option.some.inj hid
    exact ⟨htarget, hready, hrunning, _, trigger_target hw⟩
  · intro id hid
    obtain ⟨hlt, hapart, x, due, hx, hfrozen⟩ := hw.ready id hid
    exact ⟨Nat.lt_of_lt_of_le hlt hmade, hapart, x, due, (hother (.inl hid)).trans hx, hfrozen⟩
  · intro id hid
    obtain ⟨hlt, x, due, hx, hlast⟩ := hw.running id hid
    exact ⟨Nat.lt_of_lt_of_le hlt hmade, x, due, (hother (.inr hid)).trans hx, hlast⟩

/-- A trigger puts its value at the end of the line, in the place of the pending one. -/
theorem line_trigger (value : T) (hw : Slots delay w) :
    line (w.trigger delay value) =
      selected w ++ w.slot w.ready ++ [⟨w.accepted.length, value, w.clock⟩] := by
  have hready : (w.trigger delay value).slot w.ready = w.slot w.ready := by
    refine slot_congr fun id hid => trigger_other ?_
    rintro rfl
    exact (target_spec hw).1 hid
  have hpending : (w.trigger delay value).slot (some (target w)) =
      [⟨w.accepted.length, value, w.clock⟩] := by
    simp [World.slot, World.item, trigger_target hw]
  show selected w ++ ((w.trigger delay value).slot w.ready ++
    (w.trigger delay value).slot (some (target w))) = _
  rw [hready, hpending, List.append_assoc]

theorem slot_of_pending (hw : Slots delay w) (hp : w.pending = some id) :
    ∃ x, w.slot w.pending = [x] ∧ w.item id = some x ∧ (w.invocations id).due = x.time + delay := by
  obtain ⟨-, -, -, x, hx⟩ := hw.pending id hp
  exact ⟨x, by simp [World.slot, World.item, hp, hx], by simp [World.item, hx], by rw [hx]⟩

/-- The pending value is the last one accepted, and stands after all that were selected. -/
theorem pending_last (hw : Inv delay w) (hopen : w.closed = false) (hx : x ∈ w.slot w.pending) :
    x.seq + 1 = w.accepted.length ∧ x ∉ selected w ++ w.slot w.ready := by
  cases hpending : w.pending with
  | none =>
    rw [hpending] at hx
    cases hx
  | some id =>
    obtain ⟨y, hy, -⟩ := slot_of_pending hw.slots hpending
    rw [hy] at hx
    obtain rfl := List.mem_singleton.mp hx
    have hline : line w = selected w ++ w.slot w.ready ++ [x] := by
      rw [line, hy, List.append_assoc]
    have hlast : (line w).getLast? = some x := by rw [hline, List.getLast?_concat]
    refine ⟨(line_last hw hopen hlast).2, fun hmem => ?_⟩
    have hsorted := line_sorted hw
    rw [hline] at hsorted
    have hlt := (List.pairwise_append.mp hsorted).2.2 x hmem x (List.mem_singleton.mpr rfl)
    exact Nat.lt_irrefl _ hlt

theorem replaced_trigger (hw : Inv delay w) (hopen : w.closed = false) (p : Item T × Item T)
    (hp : p ∈ (w.trigger delay value).replaced) :
    p.2 ∈ (w.trigger delay value).accepted ∧ p.2.seq = p.1.seq + 1 ∧
      p.1 ∉ line (w.trigger delay value) := by
  rw [line_trigger value hw.slots, List.mem_append, List.mem_singleton]
  rcases List.mem_append.mp hp with hp | hp
  · obtain ⟨hmem, hseq, hnot⟩ := hw.replaced p hp
    refine ⟨List.mem_append_left _ hmem, hseq, ?_⟩
    rintro (hin | hnew)
    · refine hnot ?_
      rw [line, ← List.append_assoc]
      exact List.mem_append_left _ hin
    · have hlt := seq_lt hw hmem
      rw [hseq, hnew] at hlt
      exact absurd hlt (Nat.not_succ_lt_self)
  · obtain ⟨x, hx, rfl⟩ := List.mem_map.mp hp
    obtain ⟨hseq, hnot⟩ := pending_last hw hopen hx
    refine ⟨List.mem_concat_self, hseq.symm, ?_⟩
    rintro (hin | hnew)
    · exact hnot hin
    · have heq : x.seq = w.accepted.length := congrArg Item.seq hnew
      omega

theorem inv_trigger (hw : Inv delay w) (hopen : w.closed = false) :
    Inv delay (w.trigger delay value) := by
  have hline := line_trigger value hw.slots
  have hsub : (selected w ++ w.slot w.ready).Sublist w.accepted := by
    refine List.Sublist.trans ?_ hw.order
    rw [line, ← List.append_assoc]
    exact List.sublist_append_left _ _
  refine { hw with
    slots := slots_trigger hw.slots
    numbered := ?_, order := ?_, latest := ?_, placed := ?_
    replaced := replaced_trigger hw hopen
    cleared := fun hclosed => absurd (hopen.symm.trans hclosed) Bool.false_ne_true }
  · show (w.accepted ++ [_]).map Item.seq = List.range (w.accepted ++ [_]).length
    rw [List.map_append, List.length_append, hw.numbered]
    exact List.range_succ.symm
  · rw [hline]
    exact hsub.append (List.Sublist.refl _)
  · intro _
    rw [hline]
    show _ = (w.accepted ++ [_]).getLast?
    simp
  · intro x hx
    rw [hline]
    rcases List.mem_append.mp hx with hx | hx
    · rcases hw.placed x hx with hmem | ⟨y, hy⟩ | hdiscarded
      · rw [line, ← List.append_assoc] at hmem
        rcases List.mem_append.mp hmem with hmem | hpending
        · exact .inl (List.mem_append_left _ hmem)
        · refine .inr (.inl ⟨_, List.mem_append_right _ (List.mem_map.mpr ⟨x, hpending, rfl⟩)⟩)
      · exact .inr (.inl ⟨y, List.mem_append_left _ hy⟩)
      · exact .inr (.inr hdiscarded)
    · exact .inl (List.mem_append_right _ hx)

theorem slots_freeze (hw : Slots delay w) : Slots delay w.freeze := by
  refine ⟨nofun, ?_, hw.running⟩
  intro id hid
  obtain ⟨hlt, -, hapart, x, hx⟩ := hw.pending id hid
  refine ⟨hlt, hapart, x, _, hx, List.mem_append_right _ ?_⟩
  have hp : w.pending = some id := hid
  simp [World.slot, World.item, hp, hx]

theorem inv_freeze (hw : Inv delay w) (hready : w.ready = none) (hopen : w.closed = false) :
    Inv delay w.freeze := by
  have hline : line w.freeze = line w := by
    show selected w ++ (w.slot w.pending ++ []) = _
    rw [line, hready, List.append_nil]
    rfl
  have hfrozen : ∀ {x : Item T}, x ∉ w.freeze.frozen → x ∉ w.frozen :=
    fun hx hmem => hx (List.mem_append_left _ hmem)
  exact { hw with
    slots := slots_freeze hw.slots
    order := hline ▸ hw.order
    latest := hline ▸ hw.latest
    placed := hline ▸ hw.placed
    replaced := hline ▸ hw.replaced
    cleared := fun hclosed => absurd (hopen.symm.trans hclosed) Bool.false_ne_true
    timely := fun p hp => ⟨(hw.timely p hp).1, fun hx => (hw.timely p hp).2 (hfrozen hx)⟩
    calledTimely := fun x t hx hnot => hw.calledTimely x t hx (hfrozen hnot) }

theorem inv_stopped (hw : Inv delay w) (h : Stopped w w') : Inv delay w' := by
  obtain ⟨cancelled, invocations, hothers, -⟩ := h
  have hline : selected w ++ [] = selected w := List.append_nil _
  have hslots : ∀ {x : Item T}, x ∈ w.discarded ++ w.slot w.pending ++ w.slot w.ready ↔
      x ∈ w.discarded ∨ x ∈ w.slot w.ready ++ w.slot w.pending := by
    intro x
    rw [List.append_assoc, List.mem_append, List.mem_append, List.mem_append]
    exact or_congr_right or_comm
  refine { hw with
    slots := ⟨nofun, nofun, ?_⟩
    order := ?_, latest := nofun, placed := ?_, replaced := ?_
    kept := nofun
    cleared := fun _ => ⟨rfl, rfl⟩
    discarded := ?_ }
  · intro id hid
    obtain ⟨hlt, x, due, hx, hlast⟩ := hw.slots.running id hid
    have hsame := hothers id (fun hp => (hw.slots.pending id hp).2.2.1 hid)
      (fun hr => (hw.slots.ready id hr).2.1 hid)
    exact ⟨hlt, x, due, hsame.trans hx, hlast⟩
  · show (selected w ++ []).Sublist w.accepted
    rw [hline]
    exact (List.sublist_append_left _ _).trans hw.order
  · intro x hx
    show x ∈ selected w ++ [] ∨ (∃ y, (x, y) ∈ w.replaced) ∨
      x ∈ w.discarded ++ w.slot w.pending ++ w.slot w.ready
    rw [hline, hslots]
    rcases hw.placed x hx with hmem | hreplaced | hdiscarded
    · rcases List.mem_append.mp hmem with hselected | hwaiting
      · exact .inl hselected
      · exact .inr (.inr (.inr hwaiting))
    · exact .inr (.inl hreplaced)
    · exact .inr (.inr (.inl hdiscarded))
  · intro p hp
    obtain ⟨hmem, hseq, hnot⟩ := hw.replaced p hp
    refine ⟨hmem, hseq, ?_⟩
    show p.1 ∉ selected w ++ []
    rw [hline]
    exact fun hin => hnot (List.mem_append_left _ hin)
  · intro x hx y hy
    rcases hslots.mp hx with hx | hx
    · exact hw.discarded x hx y hy
    · exact (List.pairwise_append.mp (line_sorted hw)).2.2 y hy x hx

/-- A selected invocation leaves its slot for the end of the selected values. -/
theorem selected_take (h : w.item id = some x) : selected (w.take id) = selected w ++ [x] := by
  simp [selected, World.take, h]

theorem selected_take_last (h : w.item id = some x) :
    (selected (w.take id)).getLast? = some x := by
  rw [selected_take h, List.getLast?_concat]

/-- The invariant when the worker selects the invocation that is next in line. -/
theorem inv_take (hw : Inv delay w) (hopen : w.closed = false) (hitem : w.item id = some x)
    (hslots : Slots delay { w.take id with ready := ready, pending := pending })
    (hline : line { w.take id with ready := ready, pending := pending } = line w)
    (hcalls : w.calls.length = w.handed.length)
    (hdue : x ∉ w.frozen → x.time + delay ≤ w.clock) :
    Inv delay { w.take id with ready := ready, pending := pending } := by
  have hselected := selected_take hitem
  have hhanded : (w.take id).handed = w.handed ++ [(x, w.clock)] := by
    simp [World.take, hitem]
  refine { hw with
    slots := hslots
    order := hline ▸ hw.order
    latest := hline ▸ hw.latest
    placed := hline ▸ hw.placed
    replaced := hline ▸ hw.replaced
    cleared := fun hclosed => absurd (hopen.symm.trans hclosed) Bool.false_ne_true
    discarded := ?_, timely := ?_, called := ?_, calling := ?_
    finished := ?_, idle := nofun }
  · intro x hx
    have hnone : x ∈ w.discarded := hx
    rw [hw.kept hopen] at hnone
    cases hnone
  · intro p hp
    have hmem : p ∈ w.handed ++ [(x, w.clock)] := hhanded ▸ hp
    rcases List.mem_append.mp hmem with hmem | hmem
    · exact hw.timely p hmem
    · obtain rfl := List.mem_singleton.mp hmem
      exact ⟨Int.le_refl _, hdue⟩
  · show w.calls.map Prod.fst <+: (selected (w.take id)).map some
    rw [hselected, List.map_append]
    exact hw.called.trans (List.prefix_append _ _)
  · show (w.take id).handed.length ≤ w.calls.length + 1
    rw [hhanded, List.length_append, hcalls]
    exact Nat.le_refl _
  · show w.finished <+: selected (w.take id)
    rw [hselected]
    exact hw.finished.trans (List.prefix_append _ _)

theorem inv_takeReady (hw : Inv delay w) (hat : AtWorker w .next) (hopen : w.closed = false)
    (hready : w.ready = some id) :
    Inv delay { w.take id with ready := none } := by
  obtain ⟨hlt, -, x, due, hx, hfrozen⟩ := hw.slots.ready id hready
  have hitem : w.item id = some x := congrArg Invocation.value hx
  refine inv_take hw hopen hitem ⟨?_, nofun, ?_⟩ ?_ hat.2.2 fun hnot => absurd hfrozen hnot
  · intro id' hid'
    obtain ⟨hlt', hne, -, hvalue⟩ := hw.slots.pending id' hid'
    exact ⟨hlt', nofun, fun heq => hne (hready.trans heq), hvalue⟩
  · intro id' hid'
    cases hid'
    exact ⟨hlt, x, due, hx, selected_take_last hitem⟩
  · show selected (w.take id) ++ ([] ++ w.slot w.pending) = line w
    rw [selected_take hitem, line]
    simp [World.slot, hready, hitem]

theorem inv_takePending (hw : Inv delay w) (hat : AtWorker w .next) (hopen : w.closed = false)
    (hready : w.ready = none) (hpending : w.pending = some id)
    (hdue : (w.invocations id).due ≤ w.clock) :
    Inv delay { w.take id with pending := none } := by
  obtain ⟨hlt, -, -, x, hx⟩ := hw.slots.pending id hpending
  have hitem : w.item id = some x := congrArg Invocation.value hx
  rw [hx] at hdue
  refine inv_take hw hopen hitem ⟨nofun, ?_, ?_⟩ ?_ hat.2.2 fun _ => hdue
  · intro id' hid'
    have hsome : w.ready = some id' := hid'
    rw [hready] at hsome
    cases hsome
  · intro id' hid'
    cases hid'
    exact ⟨hlt, x, _, hx, selected_take_last hitem⟩
  · show selected (w.take id) ++ (w.slot w.ready ++ []) = line w
    rw [selected_take hitem, line]
    simp [World.slot, hready, hpending, hitem]

/-- A list that lacks one element of another one it starts. -/
theorem eq_append_of_prefix {α : Type} {l l' : List α} {a : α} (h : l <+: l')
    (hlength : l.length + 1 = l'.length) (hlast : l'.getLast? = some a) : l' = l ++ [a] := by
  obtain ⟨rest, rfl⟩ := h
  obtain ⟨b, rfl⟩ := List.length_eq_one_iff.mp (by simpa using hlength.symm : rest.length = 1)
  simp at hlast
  rw [hlast]

theorem selected_length : (selected w).length = w.handed.length := List.length_map _

theorem inv_call (hw : Inv delay w) (hat : AtWorker w (.executing id)) :
    Inv delay { w with calls := w.calls ++ [(w.item id, w.clock)] } := by
  obtain ⟨-, hrunning, hcalls, -⟩ := hat
  obtain ⟨-, x, due, hx, hlast⟩ := hw.slots.running id hrunning
  have hitem : w.item id = some x := congrArg Invocation.value hx
  refine { hw with slots := { hw.slots with }, called := ?_, calling := ?_, calledTimely := ?_ }
  · have hall : (selected w).map some = w.calls.map Prod.fst ++ [some x] := by
      refine eq_append_of_prefix hw.called ?_ ?_
      · simp [selected_length, hcalls]
      · rw [List.getLast?_map, hlast]
        rfl
    show (w.calls ++ [(w.item id, w.clock)]).map Prod.fst <+: _
    rw [show selected { w with calls := w.calls ++ [(w.item id, w.clock)] } = selected w from rfl,
      hall, hitem, List.map_append]
    exact List.prefix_refl _
  · show w.handed.length ≤ (w.calls ++ [(w.item id, w.clock)]).length + 1
    rw [List.length_append]
    have := hw.calling
    omega
  · intro y t hy hnot
    rcases List.mem_append.mp hy with hy | hy
    · exact hw.calledTimely y t hy hnot
    · rw [hitem] at hy
      obtain ⟨rfl, rfl⟩ : y = x ∧ t = w.clock := by simpa using hy
      obtain ⟨⟨z, s⟩, hz, rfl⟩ := List.mem_map.mp (List.mem_of_getLast? hlast)
      obtain ⟨hle, hdue⟩ := hw.timely _ hz
      exact Int.le_trans (hdue hnot) hle

theorem finished_eq (hw : Inv delay w) {value : Option (Item T)}
    (hat : AtWorker w (.handling id value)) : w.finished ++ value.toList = selected w := by
  obtain ⟨-, hrunning, -, hfinished, rfl⟩ := hat
  obtain ⟨-, x, due, hx, hlast⟩ := hw.slots.running id hrunning
  have hitem : w.item id = some x := congrArg Invocation.value hx
  rw [hitem, eq_append_of_prefix hw.finished (by rw [selected_length, hfinished]) hlast]
  rfl

theorem inv_finish (hw : Inv delay w) {value : Option (Item T)}
    (hat : AtWorker w (.handling id value)) :
    Inv delay { w with finished := w.finished ++ value.toList } := by
  have hall := finished_eq hw hat
  refine { hw with slots := { hw.slots with }, finished := ?_, idle := ?_ }
  · exact hall ▸ List.prefix_refl _
  · exact fun _ => hall

/-- The running invocation gets its result. -/
def World.answer (w : World T E) (id : Nat) (err : Option E) : World T E :=
  { w with
    running := none
    invocations := Function.update w.invocations id
      { w.invocations id with value := none, result := some (.handled err) } }

theorem inv_complete (hw : Inv delay w) (hat : AtWorker w (.completing id err)) :
    Inv delay (w.answer id err) := by
  obtain ⟨-, hrunning, -, hfinished⟩ := hat
  have hother : ∀ {id'}, w.pending = some id' ∨ w.ready = some id' →
      (w.answer id err).invocations id' = w.invocations id' := by
    rintro id' hid'
    refine Function.update_of_ne ?_ _ _
    rintro rfl
    rcases hid' with hp | hr
    · exact (hw.slots.pending _ hp).2.2.1 hrunning
    · exact (hw.slots.ready _ hr).2.1 hrunning
  have hline : line (w.answer id err) = line w := by
    show selected w ++ ((w.answer id err).slot w.ready ++ (w.answer id err).slot w.pending) = _
    rw [slot_congr fun _ hr => hother (.inr hr), slot_congr fun _ hp => hother (.inl hp), line]
  refine { hw with
    slots := ⟨?_, ?_, by rintro _ ⟨⟩⟩
    order := hline ▸ hw.order
    latest := hline ▸ hw.latest
    placed := hline ▸ hw.placed
    replaced := hline ▸ hw.replaced
    idle := fun _ => hfinished }
  · intro id' hp
    obtain ⟨hlt, hne, -, x, hx⟩ := hw.slots.pending id' hp
    exact ⟨hlt, hne, by rintro ⟨⟩, x, (hother (.inl hp)).trans hx⟩
  · intro id' hr
    obtain ⟨hlt, -, x, due, hx, hfrozen⟩ := hw.slots.ready id' hr
    exact ⟨hlt, by rintro ⟨⟩, x, due, (hother (.inr hr)).trans hx, hfrozen⟩

theorem inv_moves (hw : Inv c.delay w) (hat : At l w) (h : Moves c w l n) :
    Inv c.delay n.world := by
  cases h with
  | trigger hopen => exact inv_trigger hw (over_eq_false.mp hopen).1
  | freeze hopen hready => exact inv_freeze hw hready (over_eq_false.mp hopen).1
  | stop _ _ hw' => exact inv_stopped hw hw'
  | wake | exit => exact { hw with slots := { hw.slots with } }
  | takeReady hopen hready => exact inv_takeReady hw hat (over_eq_false.mp hopen).1 hready
  | takePending hopen hready hpending hdue =>
    exact inv_takePending hw hat (over_eq_false.mp hopen).1 hready hpending hdue
  | call => exact inv_call hw hat
  | finish hat' => exact inv_finish hw hat'
  | complete => exact inv_complete hw hat
  | _ => exact hw

/-- What is never taken back. -/
structure Grows (w w' : World T E) : Prop where
  accepted : w.accepted <+: w'.accepted
  finished : w.finished <+: w'.finished
  replaced : w.replaced <+: w'.replaced

theorem grows_moves (h : Moves c w l n) : Grows w n.world := by
  cases h with
  | stop _ _ hw' =>
    obtain ⟨cancelled, invocations, -, -⟩ := hw'
    exact ⟨List.prefix_refl _, List.prefix_refl _, List.prefix_refl _⟩
  | trigger => exact ⟨List.prefix_append _ _, List.prefix_refl _, List.prefix_append _ _⟩
  | finish => exact ⟨List.prefix_refl _, List.prefix_append _ _, List.prefix_refl _⟩
  | _ => exact ⟨List.prefix_refl _, List.prefix_refl _, List.prefix_refl _⟩

theorem settled_grows (h : Grows w w') (hx : Settled w x) : Settled w' x := by
  induction hx with
  | finished hmem => exact .finished (h.finished.subset hmem)
  | replaced hmem _ ih => exact .replaced (h.replaced.subset hmem) ih

theorem trigger_grows {accepted : Option Bool} (h : Grows w w')
    (hat : At (.trigger value accepted) w) : At (.trigger value accepted) w' := by
  intro haccepted
  obtain ⟨x, hx, hvalue⟩ := hat haccepted
  exact ⟨x, h.accepted.subset hx, hvalue⟩

/-- An invocation that is neither pending nor new keeps its state in a trigger. -/
theorem watch_trigger (hw : Slots delay w) (h : Watch call y w) :
    Watch call y (w.trigger delay value) := by
  obtain ⟨hready, hrunning, htarget⟩ := target_spec hw
  obtain ⟨hmade, hstate⟩ := h
  have hne : call ≠ target w := by
    rintro rfl
    rcases htarget with hp | ⟨-, heq⟩
    · obtain ⟨-, -, -, x, hx⟩ := hw.pending _ hp
      rw [hx] at hstate
      rcases hstate with ⟨-, -, hr | hr⟩ | hclosed | ⟨hsome, -⟩
      · exact hready hr
      · exact hrunning hr
      · cases hclosed
      · cases hsome
    · omega
  refine ⟨Nat.lt_of_lt_of_le hmade (trigger_made value hw).1, ?_⟩
  rw [World.item, trigger_other hne]
  exact hstate

theorem watch_stopped (h : Watch call y w) (hw' : Stopped w w') : Watch call y w' := by
  obtain ⟨hmade, hstate⟩ := h
  obtain ⟨cancelled, invocations, hothers, hended⟩ := hw'
  refine ⟨hmade, ?_⟩
  by_cases hslot : w.pending = some call ∨ w.ready = some call
  · exact .inr (.inl (hended call hslot))
  · have hsame : invocations call = w.invocations call :=
      hothers call (fun hp => hslot (.inl hp)) (fun hr => hslot (.inr hr))
    show (invocations call).value = some y ∧ (invocations call).result = none ∧
        (none = some call ∨ w.running = some call) ∨
      (invocations call).result = some .closed ∨ (invocations call).result.isSome ∧ y ∈ w.finished
    rw [hsame]
    rcases hstate with ⟨hitem, hnone, hr | hr⟩ | hrest
    · exact absurd (.inr hr) hslot
    · exact .inl ⟨hitem, hnone, .inr hr⟩
    · exact .inr hrest

theorem watch_complete (hw : Inv delay w) (hat : AtWorker w (.completing id err))
    (h : Watch call y w) : Watch call y (w.answer id err) := by
  obtain ⟨-, hrunning, -, hfinished⟩ := hat
  obtain ⟨-, x, due, hx, hlast⟩ := hw.slots.running id hrunning
  obtain ⟨hmade, hstate⟩ := h
  refine ⟨hmade, ?_⟩
  simp only [World.answer, World.item]
  by_cases hid : call = id
  · subst hid
    rw [Function.update_self]
    refine .inr (.inr ⟨rfl, ?_⟩)
    rw [World.item, hx] at hstate
    rcases hstate with ⟨hy, -⟩ | hclosed | ⟨hsome, -⟩
    · cases hy
      rw [hfinished]
      exact List.mem_of_getLast? hlast
    · cases hclosed
    · cases hsome
  · rw [Function.update_of_ne hid]
    rcases hstate with ⟨hitem, hnone, hr | hr⟩ | hrest
    · exact .inl ⟨hitem, hnone, .inl hr⟩
    · exact absurd (Option.some.inj (hr.symm.trans hrunning)) hid
    · exact .inr hrest

/-- An invocation a flush waits for gets to its end. -/
theorem watch_moves (hw : Inv c.delay w) (hat : At l w) (h : Moves c w l n)
    (hwatch : Watch call y w) : Watch call y n.world := by
  obtain ⟨hmade, hstate⟩ := hwatch
  cases h with
  | trigger => exact watch_trigger hw.slots ⟨hmade, hstate⟩
  | freeze hopen hready =>
    refine ⟨hmade, ?_⟩
    rcases hstate with ⟨hitem, hnone, hr | hr⟩ | hrest
    · rw [hready] at hr
      cases hr
    · exact .inl ⟨hitem, hnone, .inr hr⟩
    · exact .inr hrest
  | stop _ _ hw' => exact watch_stopped ⟨hmade, hstate⟩ hw'
  | takeReady hopen hready =>
    refine ⟨hmade, ?_⟩
    rcases hstate with ⟨hitem, hnone, hr | hr⟩ | hrest
    · exact .inl ⟨hitem, hnone, .inr (hready.symm.trans hr)⟩
    · exact absurd (hat.2.1.symm.trans hr) nofun
    · exact .inr hrest
  | takePending hopen hready =>
    refine ⟨hmade, ?_⟩
    rcases hstate with ⟨hitem, hnone, hr | hr⟩ | hrest
    · rw [hready] at hr
      cases hr
    · exact absurd (hat.2.1.symm.trans hr) nofun
    · exact .inr hrest
  | finish =>
    refine ⟨hmade, ?_⟩
    rcases hstate with hrunning | hclosed | ⟨hsome, hmem⟩
    · exact .inl hrunning
    · exact .inr (.inl hclosed)
    · exact .inr (.inr ⟨hsome, List.mem_append_left _ hmem⟩)
  | complete => exact watch_complete hw hat ⟨hmade, hstate⟩
  | _ => exact ⟨hmade, hstate⟩

/-- Values accepted later have higher numbers. -/
theorem old_of_seq (hw : Inv delay w) (hw' : Inv delay w') (h : w.accepted <+: w'.accepted)
    (hx : x ∈ w'.accepted) (hlt : x.seq < w.accepted.length) : x ∈ w.accepted := by
  obtain ⟨more, hmore⟩ := h
  have hsorted := accepted_sorted hw'
  rw [← hmore] at hx hsorted
  rcases List.mem_append.mp hx with hx | hx
  · exact hx
  · cases hlast : w.accepted.getLast? with
    | none =>
      rw [List.getLast?_eq_none_iff.mp hlast] at hlt
      exact absurd hlt (Nat.not_lt_zero _)
    | some y =>
      obtain ⟨hy, hseq⟩ := seq_last hw hlast
      have := (List.pairwise_append.mp hsorted).2.2 y hy x hx
      omega

theorem flush_grows (hgrows : Grows w w')
    (hwatch : ∀ call y, Watch call y w → Watch call y w')
    (hold : ∀ x ∈ w'.accepted, x.seq < w.accepted.length → x ∈ w.accepted)
    (hflush : AtFlush before w point) : AtFlush before w' point := by
  have hle : before ≤ w.accepted.length → before ≤ w'.accepted.length :=
    fun hle => Nat.le_trans hle hgrows.accepted.length_le
  cases point with
  | start | select | recheck => exact hle hflush
  | waiting call retry =>
    cases retry with
    | true => exact hle hflush
    | false =>
      obtain ⟨hbefore, y, hy, hseq, hstate⟩ := hflush
      exact ⟨hle hbefore, y, hgrows.accepted.subset hy, hseq, hwatch call y hstate⟩
  | returned o =>
    cases o with
    | result err =>
      obtain ⟨hbefore, hsettled⟩ := hflush
      refine ⟨hle hbefore, fun x hx hlt => ?_⟩
      exact settled_grows hgrows (hsettled x (hold x hx (by omega)) hlt)
    | invalidContext | closed | canceled => trivial

theorem flush_of_moves (hw : Inv c.delay w) (hat : At l w) (h : Moves c w l n)
    (hflush : AtFlush before w point) : AtFlush before n.world point := by
  have hgrows := grows_moves h
  refine flush_grows hgrows (fun call y => watch_moves hw hat h) ?_ hflush
  exact fun x hx hlt => old_of_seq hw (inv_moves hw hat h) hgrows.accepted hx hlt

theorem stops_worker (hl : Stops l l') (hat : At l w) (hw' : Stopped w w' ∨ w' = w) : At l' w' := by
  have hsame : w'.done = w.done ∧ w'.running = w.running ∧ w'.calls = w.calls ∧
      w'.handed = w.handed := by
    rcases hw' with ⟨cancelled, invocations, -, -⟩ | rfl <;> exact ⟨rfl, rfl, rfl, rfl⟩
  obtain ⟨hdone, hrunning, hcalls, hhanded⟩ := hsame
  cases hl with
  | close | watcher => trivial
  | waiting | stopping =>
    show w'.done = false ∧ w'.running = none ∧ w'.calls.length = w'.handed.length
    rw [hdone, hrunning, hcalls, hhanded]
    exact hat

theorem executing_of_take (hw : Inv delay w) (hat : AtWorker w .next) (hitem : w.item id = some x) :
    AtWorker { w.take id with ready := ready, pending := pending } (.executing id) := by
  obtain ⟨hdone, hidle, hcalls⟩ := hat
  have hhanded : (w.take id).handed.length = w.handed.length + 1 := by simp [World.take, hitem]
  have hfinished : w.finished.length = w.handed.length := by rw [hw.idle hidle, selected_length]
  refine ⟨hdone, rfl, ?_, ?_⟩
  · exact (congrArg (· + 1) hcalls).trans hhanded.symm
  · exact (congrArg (· + 1) hfinished).trans hhanded.symm

theorem own_moves (hw : Inv c.delay w) (hat : At l w) (h : Moves c w l n) :
    At n.state n.world := by
  cases h with
  | refuse => rintro ⟨⟩
  | trigger => exact fun _ => ⟨_, List.mem_append_right _ (List.mem_singleton_self _), rfl⟩
  | flush hat' => exact hat'
  | work hat' => exact hat'
  | freeze hopen hready hpending =>
    have hopen := (over_eq_false.mp hopen).1
    exact watch_ready (inv_freeze hw hready hopen) hopen hpending rfl hat
  | stay hl => exact stops_worker hl hat (.inr rfl)
  | stop hl _ hw' => exact stops_worker hl hat (.inl hw')
  | wake => exact hat
  | takeReady hopen hready =>
    obtain ⟨-, -, x, due, hx, -⟩ := hw.slots.ready _ hready
    exact executing_of_take hw hat (congrArg Invocation.value hx)
  | takePending hopen hready hpending =>
    obtain ⟨-, -, -, x, hx⟩ := hw.slots.pending _ hpending
    exact executing_of_take hw hat (congrArg Invocation.value hx)
  | call =>
    obtain ⟨hdone, hrunning, hcalls, hfinished⟩ := hat
    refine ⟨hdone, hrunning, ?_, hfinished, rfl⟩
    simpa using hcalls
  | finish hat' => exact ⟨hat'.1, hat'.2.1, hat'.2.2.1, finished_eq hw hat'⟩
  | complete =>
    obtain ⟨hdone, hrunning, hcalls, -⟩ := hat
    exact ⟨hdone, rfl, hcalls⟩
  | _ => trivial

/-- There is one worker. -/
def weight : Local T E → Nat
  | .worker _ => 1
  | _ => 0

/-- What the steps of the others leave to the worker. -/
structure Spares (w w' : World T E) : Prop where
  done : w'.done = w.done
  running : w'.running = w.running
  calls : w'.calls = w.calls
  handed : w'.handed = w.handed
  finished : w'.finished = w.finished
  item : ∀ id, w.running = some id → w'.item id = w.item id

theorem spares_stopped (hw : Slots delay w) (hw' : Stopped w w') : Spares w w' := by
  obtain ⟨cancelled, invocations, hothers, -⟩ := hw'
  refine ⟨rfl, rfl, rfl, rfl, rfl, fun id hid => congrArg Invocation.value (hothers id ?_ ?_)⟩
  · exact fun hp => (hw.pending id hp).2.2.1 hid
  · exact fun hr => (hw.ready id hr).2.1 hid

theorem spares_moves (hw : Inv c.delay w) (h : Moves c w l n) (hl : weight l = 0) :
    Spares w n.world := by
  cases h with
  | refuse | flush | stay | closed | freeze => exact ⟨rfl, rfl, rfl, rfl, rfl, fun _ _ => rfl⟩
  | trigger =>
    refine ⟨rfl, rfl, rfl, rfl, rfl, fun id hid => congrArg Invocation.value (trigger_other ?_)⟩
    rintro rfl
    exact (target_spec hw.slots).2.1 hid
  | stop _ _ hw' => exact spares_stopped hw.slots hw'
  | _ => cases hl

theorem worker_of_spares (h : Spares w w') (hat : AtWorker w phase) : AtWorker w' phase := by
  obtain ⟨hdone, hrunning, hcalls, hhanded, hfinished, hitem⟩ := h
  cases phase with
  | executing call =>
    obtain ⟨h₁, h₂, h₃, h₄⟩ := hat
    exact ⟨hdone.trans h₁, hrunning.trans h₂, by rw [hcalls, hhanded, h₃],
      by rw [hfinished, hhanded, h₄]⟩
  | handling call value | notifying call value err =>
    obtain ⟨h₁, h₂, h₃, h₄, h₅⟩ := hat
    exact ⟨hdone.trans h₁, hrunning.trans h₂, by rw [hcalls, hhanded, h₃],
      by rw [hfinished, hhanded, h₄], h₅.trans (hitem call h₂).symm⟩
  | completing call err =>
    obtain ⟨h₁, h₂, h₃, h₄⟩ := hat
    exact ⟨hdone.trans h₁, hrunning.trans h₂, by rw [hcalls, hhanded, h₃],
      by rw [hfinished, h₄, selected, selected, hhanded]⟩
  | exited => trivial
  | _ =>
    obtain ⟨h₁, h₂, h₃⟩ := hat
    exact ⟨hdone.trans h₁, hrunning.trans h₂, by rw [hcalls, hhanded, h₃]⟩

theorem others_moves (hw : Inv c.delay w) (hat : At l w) (h : Moves c w l n)
    (hboth : weight l + weight m ≤ 1) (hm : At m w) : At m n.world := by
  cases m with
  | flush ctx before point => exact flush_of_moves hw hat h hm
  | worker phase =>
    have hone : weight l + 1 ≤ 1 := hboth
    exact worker_of_spares (spares_moves hw h (by omega)) hm
  | trigger value accepted => exact trigger_grows (grows_moves h) hm
  | close | watcher => trivial
  | panicked => cases hm

theorem weight_moves (h : Moves c w l n) : weight n.state = weight l ∧ n.started = none := by
  cases h with
  | stay hl | stop hl => cases hl <;> exact ⟨rfl, rfl⟩
  | _ => exact ⟨rfl, rfl⟩

theorem inv_shift (e : Change) (hw : Inv delay w) : Inv delay (shift e w) := by
  cases e with
  | cancelCall | cancel => exact { hw with slots := { hw.slots with } }
  | advance time =>
    refine { hw with slots := { hw.slots with }, timely := fun p hp => ?_ }
    obtain ⟨hle, hdue⟩ := hw.timely p hp
    refine ⟨?_, hdue⟩
    show p.2 ≤ w.clock + time
    omega

theorem grows_shift (e : Change) : Grows w (shift e w) := by
  cases e <;> exact ⟨List.prefix_refl _, List.prefix_refl _, List.prefix_refl _⟩

theorem flush_shift (e : Change) (hat : AtFlush before w point) :
    AtFlush before (shift e w) point := by
  refine flush_grows (grows_shift e) ?_ ?_ hat
  · intro call y hwatch
    cases e <;> exact ⟨hwatch.made, hwatch.state⟩
  · intro x hx _
    cases e <;> exact hx

theorem at_shift (e : Change) (hat : At l w) : At l (shift e w) := by
  cases l with
  | flush ctx before point => exact flush_shift e hat
  | worker phase =>
    refine worker_of_spares ?_ hat
    cases e <;> exact ⟨rfl, rfl, rfl, rfl, rfl, fun _ _ => rfl⟩
  | trigger value accepted => exact trigger_grows (grows_shift e) hat
  | close | watcher => trivial
  | panicked => cases hat

/-- The proof outline of the debouncer. -/
def outline (T E : Type) (c : Config) : (debouncer T E c).Outline where
  Inv := Inv c.delay
  At _ := At
  Unused _ _ := True
  Counter := Unit
  weight _ := weight
  count _ _ := 1
  enter call _ _ := by
    cases call with
    | flush ctx => exact Nat.le_refl _
    | trigger value => rintro ⟨⟩
    | close => trivial
  enter_weight _ call _ := by cases call <;> rfl
  own h hw hat _ :=
    have hmoves := step_moves hw hat h
    ⟨inv_moves hw hat hmoves, own_moves hw hat hmoves⟩
  others h hw hat hboth _ hm := others_moves hw hat (step_moves hw hat h) (hboth ()) hm
  unused _ _ _ _ _ _ := trivial
  starts h hw hat _ _ _ hm := by
    rw [(weight_moves (step_moves hw hat h)).2] at hm
    cases hm
  counts h hw hat _ _ := by
    obtain ⟨hweight, hnone⟩ := weight_moves (step_moves hw hat h)
    rw [hweight, hnone]
    rfl
  shift_inv e _ hw := inv_shift e hw
  shift_at e _ _ _ _ hat := at_shift e hat
  shift_unused _ _ _ _ := trivial
  shift_count _ _ _ := rfl

theorem holds_initial (T E : Type) (c : Config) (now : Int) :
    (outline T E c).Holds (initial T E now) := by
  refine ⟨?_, ?_, fun _ _ => trivial, fun _ => rfl⟩
  · exact {
      slots := ⟨nofun, nofun, nofun⟩
      numbered := rfl
      order := List.Sublist.refl _
      latest := fun _ => rfl
      placed := nofun
      replaced := nofun
      kept := fun _ => rfl
      cleared := nofun
      discarded := nofun
      timely := nofun
      called := List.prefix_refl _
      calling := Nat.zero_le _
      calledTimely := nofun
      finished := List.prefix_refl _
      idle := fun _ => rfl }
  · intro i l hl
    rcases i with _ | _ | i
    · cases hl
      exact ⟨rfl, rfl, rfl⟩
    · cases hl
      trivial
    · cases hl

end Fries.Debounce
