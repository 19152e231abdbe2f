import Fries.Queue.Memory.Queue
import Mathlib.Data.List.Perm.Basic

/-! Where a task is, and what its handler has seen. -/
namespace Fries.MemoryQueue

open Fries.Queue

/-- How many of the places that a task can be in have it. -/
def World.tally (w : World) (o : Origin) : Nat :=
  (w.queues o.queue).countP (fun t => t.origin = o) +
    w.inflight.countP (fun x => x.2.origin = o) +
    w.acked.countP (fun t => t.origin = o) +
    (w.deadLetter o.queue).countP (fun t => t.origin = o)

attribute [local simp] World.tally World.settle World.append

/-- The starts and returns of the handler of a task, with the attempts it saw. -/
def trace (handled : List HandlerEvent) (o : Origin) : List (Bool × Int) :=
  (handled.filter fun e => e.task.origin = o).map fun e => (e.started, e.task.attempt)

/-- The handler starts and returns with the attempt after `base`, then with the next one, and
so on, for `n` events in all. -/
def inOrder (base : Int) (n : Nat) : List (Bool × Int) :=
  (List.range n).map fun k => (k % 2 == 0, base + (k / 2 : Nat) + 1)

theorem inOrder_start (base : Int) (k : Nat) :
    inOrder base (2 * k + 1) = inOrder base (2 * k) ++ [(true, base + k + 1)] := by
  simp [inOrder, List.range_succ]

theorem inOrder_finish (base : Int) (k : Nat) :
    inOrder base (2 * k + 2) = inOrder base (2 * k + 1) ++ [(false, base + k + 1)] := by
  have hmod : (2 * k + 1) % 2 = 1 := by omega
  have hdiv : (2 * (k : Int) + 1) / 2 = k := by omega
  simp [inOrder, List.range_succ, hmod, hdiv]

theorem trace_append (handled : List HandlerEvent) (e : HandlerEvent) (o : Origin) :
    trace (handled ++ [e]) o =
      trace handled o ++ if e.task.origin = o then [(e.started, e.task.attempt)] else [] := by
  by_cases h : e.task.origin = o <;> simp [trace, h]

section Tally

variable {w : World} {o : Origin} {task : Task} {thread : Nat} {delay now : Int}
  {others : List Task}

theorem scan_perm {wait : Int} {tasks : List Task}
    (h : scan now wait tasks = (some (task, others), delay)) :
    tasks.Perm (task :: others) ∧ task.availableAt ≤ now := by
  induction tasks generalizing wait others delay with
  | nil => cases h
  | cons first rest ih =>
    simp only [scan] at h
    split at h
    · split at h
      · rename_i found others' wait' hrest
        obtain ⟨⟨rfl, rfl⟩, -⟩ : (found = task ∧ first :: others' = others) ∧ _ := by simpa using h
        obtain ⟨hperm, htime⟩ := ih hrest
        exact ⟨(hperm.cons first).trans (List.Perm.swap _ _ _), htime⟩
      · cases h
    · obtain ⟨⟨rfl, rfl⟩, -⟩ : (first = task ∧ rest = others) ∧ _ := by simpa using h
      exact ⟨List.Perm.refl _, by omega⟩

theorem tally_append (w : World) (o : Origin) (hq : task.queue = task.origin.queue) :
    (w.append task).tally o = w.tally o + if task.origin = o then 1 else 0 := by
  by_cases ho : task.origin = o
  · subst o
    simp [hq]
    omega
  · by_cases hname : o.queue = task.queue <;> simp [hname, ho]

theorem tally_bury (w : World) (o : Origin) (hq : task.queue = task.origin.queue) :
    (w.bury task).tally o = w.tally o + if task.origin = o then 1 else 0 := by
  by_cases ho : task.origin = o
  · subst o
    simp [World.bury, hq]
    omega
  · by_cases hname : o.queue = task.queue <;> simp [World.bury, hname, ho]

theorem tally_settle (h : (thread, task) ∈ w.inflight) :
    (w.settle thread task).tally o + (if task.origin = o then 1 else 0) = w.tally o := by
  have hcount := (List.perm_cons_erase h).countP_eq fun x => x.2.origin = o
  by_cases ho : task.origin = o
  · simp [ho] at hcount
    simp [ho, hcount]
    omega
  · simp [ho] at hcount
    simp [ho, hcount]

theorem tally_next {name : String}
    (hscan : scan now 0 (w.queues name) = (some (task, others), delay))
    (horigin : task.origin.queue = name) (thread : Nat) {taken : Task}
    (htaken : taken.origin = task.origin) (delivered : List (Task × Int)) (o : Origin) :
    ({ w with
        queues := Function.update w.queues name others
        inflight := (thread, taken) :: w.inflight
        delivered := delivered } : World).tally o = w.tally o := by
  have hcount := (scan_perm hscan).1.countP_eq fun t => t.origin = o
  by_cases ho : task.origin = o
  · subst o
    simp [horigin, htaken] at hcount ⊢
    omega
  · by_cases hname : o.queue = name
    · simp [ho] at hcount
      simp [htaken, ho, hname, hcount]
    · simp [htaken, ho, hname]

theorem inflight_pos {x : Nat × Task} (h : x ∈ w.inflight) :
    0 < w.inflight.countP fun y => y.2.origin = x.2.origin :=
  List.countP_pos_iff.mpr ⟨x, h, by simp⟩

end Tally

theorem eq_of_countP_le_one {α : Type} {p : α → Bool} {l : List α} (h : l.countP p ≤ 1) {a b : α}
    (ha : a ∈ l) (hb : b ∈ l) (hpa : p a) (hpb : p b) : a = b := by
  rw [List.countP_eq_length_filter] at h
  have ha' : a ∈ l.filter p := List.mem_filter.mpr ⟨ha, hpa⟩
  have hb' : b ∈ l.filter p := List.mem_filter.mpr ⟨hb, hpb⟩
  match l.filter p, h, ha', hb' with
  | [c], _, ha', hb' => exact (List.mem_singleton.mp ha').trans (List.mem_singleton.mp hb').symm

/-- The waiting task was tried some number of times, in order, and may be tried again. -/
def Waits (limit : Int) (handled : List HandlerEvent) (t : Task) : Prop :=
  ∃ k : Nat, t.attempt = t.origin.task.attempt + k ∧
    trace handled t.origin = inOrder t.origin.task.attempt (2 * k) ∧ (k = 0 ∨ t.attempt < limit)

/-- The handler of the delivered task is to be started, runs, or has returned, for `phase` 0, 1
or 2. -/
def InPhase (handled : List HandlerEvent) (t : Task) (phase : Nat) : Prop :=
  ∃ k : Nat, t.attempt = t.origin.task.attempt + k + 1 ∧
    trace handled t.origin = inOrder t.origin.task.attempt (2 * k + phase)

/-- The handler of the task was started in order, and not too often. -/
def Handled (limit : Int) (handled : List HandlerEvent) (o : Origin) : Prop :=
  ∃ n : Nat, trace handled o = inOrder o.task.attempt n ∧
    (n ≤ 2 ∨ o.task.attempt + ((n + 1) / 2 : Nat) ≤ limit)

structure Inv (limit : Int) (s : World × List HandlerEvent) : Prop where
  placed : ∀ name, ∀ t ∈ s.1.queues name, t.queue = name ∧ t.origin.queue = name
  buried : ∀ name, ∀ t ∈ s.1.deadLetter name, t.origin.queue = name
  carried : ∀ x ∈ s.1.inflight, x.2.queue = x.2.origin.queue
  single : ∀ o, s.1.tally o ≤ 1
  waits : ∀ name, ∀ t ∈ s.1.queues name, Waits limit s.2 t
  held : ∀ x ∈ s.1.inflight, (∃ phase ≤ 2, InPhase s.2 x.2 phase) ∧
    (x.2.attempt ≤ x.2.origin.task.attempt + 1 ∨ x.2.attempt ≤ limit)
  handled : ∀ o, Handled limit s.2 o
  absent : ∀ o, s.1.tally o = 0 → trace s.2 o = []
  timely : ∀ d ∈ s.1.delivered, d.1.availableAt ≤ d.2

/-- What the others leave to thread `i`: the deliveries it holds, and the tasks it enqueues. -/
structure Rely (i : Nat) (s s' : World × List HandlerEvent) : Prop where
  now : s.1.now ≤ s'.1.now
  mine : ∀ t, (i, t) ∈ s.1.inflight →
    (i, t) ∈ s'.1.inflight ∧ trace s'.2 t.origin = trace s.2 t.origin
  own : ∀ o, o.call = i → s'.1.tally o = s.1.tally o

/-- What every command of thread `i` has to do. -/
def Keeps (limit : Int) (i : Nat) (s s' : World × List HandlerEvent) : Prop :=
  Inv limit s' ∧ ∀ j, j ≠ i → Rely j s s'

section Commands

variable {limit : Int} {s s' : World × List HandlerEvent} {i phase : Nat} {t : Task}
  {x : Nat × Task} {handled : List HandlerEvent}

theorem rely_refl (i : Nat) (s : World × List HandlerEvent) : Rely i s s :=
  ⟨Int.le_refl _, fun _ h => ⟨h, rfl⟩, fun _ _ => rfl⟩

theorem rely_trans {s'' : World × List HandlerEvent} (h : Rely i s s') (h' : Rely i s' s'') :
    Rely i s s'' := by
  refine ⟨Int.le_trans h.now h'.now, ?_, fun o ho => (h'.own o ho).trans (h.own o ho)⟩
  intro t ht
  obtain ⟨ht', htrace⟩ := h.mine t ht
  obtain ⟨ht'', htrace'⟩ := h'.mine t ht'
  exact ⟨ht'', htrace'.trans htrace⟩

theorem keeps_refl (hs : Inv limit s) : Keeps limit i s s := ⟨hs, fun j _ => rely_refl j s⟩

/-- Only one delivery of a task is in flight. -/
theorem held_eq (hs : Inv limit s) {y : Nat × Task} (hx : x ∈ s.1.inflight) (hy : y ∈ s.1.inflight)
    (ho : x.2.origin = y.2.origin) : x = y := by
  have hle : s.1.inflight.countP (fun z => z.2.origin = y.2.origin) ≤ 1 := by
    have := hs.single y.2.origin
    unfold World.tally at this
    omega
  exact eq_of_countP_le_one hle hx hy (by simpa using ho) (by simp)

theorem held_tally (hx : x ∈ s.1.inflight) : s.1.tally x.2.origin ≠ 0 := by
  have := inflight_pos hx
  unfold World.tally
  omega

/-- A task in flight does not wait. -/
theorem held_not_waiting (hs : Inv limit s) (hx : x ∈ s.1.inflight) {name : String}
    (ht : t ∈ s.1.queues name) : t.origin ≠ x.2.origin := by
  intro ho
  obtain ⟨-, hname⟩ := hs.placed name t ht
  have hwait : 0 < (s.1.queues x.2.origin.queue).countP fun t' => t'.origin = x.2.origin :=
    List.countP_pos_iff.mpr ⟨t, by rwa [← ho, hname], by simpa using ho⟩
  have hheld := inflight_pos hx
  have hone := hs.single x.2.origin
  unfold World.tally at hone
  omega

theorem next_keeps (hs : Inv limit s) (name : String) {now : Int} (hnow : now ≤ s.1.now) :
    Keeps limit i s ((s.1.next i name now).2, s.2) := by
  unfold World.next
  split
  · exact keeps_refl hs
  rename_i task others delay hscan
  obtain ⟨hperm, htime⟩ := scan_perm hscan
  have hmem : ∀ t, t = task ∨ t ∈ others → t ∈ s.1.queues name :=
    fun t ht => hperm.mem_iff.mpr (List.mem_cons.mpr ht)
  obtain ⟨hqueue, horigin⟩ := hs.placed name task (hmem task (.inl rfl))
  obtain ⟨k, hk, htrace, hlimit⟩ := hs.waits name task (hmem task (.inl rfl))
  let taken : Task := { task with attempt := task.attempt + 1 }
  have htally := tally_next hscan horigin i (show taken.origin = task.origin from rfl)
    ((taken, s.1.now) :: s.1.delivered)
  have hsub : ∀ n, ∀ t ∈ Function.update s.1.queues name others n, t ∈ s.1.queues n := by
    intro n t ht
    by_cases hn : n = name
    · subst n
      exact hmem t (.inr (by simpa using ht))
    · simpa [hn] using ht
  refine ⟨⟨fun n t ht => hs.placed n t (hsub n t ht), hs.buried, ?_, fun o => htally o ▸ hs.single o,
    fun n t ht => hs.waits n t (hsub n t ht), ?_, hs.handled,
    fun o ho => hs.absent o (htally o ▸ ho), ?_⟩, ?_⟩
  · intro x hx
    rcases List.mem_cons.mp hx with rfl | hx
    · exact hqueue.trans horigin.symm
    · exact hs.carried x hx
  · intro x hx
    rcases List.mem_cons.mp hx with rfl | hx
    · refine ⟨⟨0, by omega, k, by simp only; omega, htrace⟩, ?_⟩
      rcases hlimit with rfl | hlt
      · exact .inl (by simp only; omega)
      · exact .inr (by simp only; omega)
    · exact hs.held x hx
  · intro d hd
    rcases List.mem_cons.mp hd with rfl | hd
    · exact Int.le_trans htime hnow
    · exact hs.timely d hd
  · intro j hj
    exact ⟨Int.le_refl _, fun t ht => ⟨List.mem_cons_of_mem _ ht, rfl⟩, fun o _ => htally o⟩

theorem append_keeps (hs : Inv limit s) (hcall : t.origin.call = i) (hnew : s.1.tally t.origin = 0)
    (hattempt : t.attempt = t.origin.task.attempt) (hqueue : t.queue = t.origin.queue) :
    Keeps limit i s (s.1.append t, s.2) := by
  have htally := fun o => tally_append s.1 o hqueue
  have hmem : ∀ n, ∀ t' ∈ (s.1.append t).queues n, t' ∈ s.1.queues n ∨ t' = t ∧ n = t.queue := by
    intro n t' ht'
    by_cases hn : n = t.queue
    · simpa [hn] using ht'
    · exact .inl (by simpa [hn] using ht')
  refine ⟨⟨?_, hs.buried, hs.carried, ?_, ?_, hs.held, hs.handled, ?_, hs.timely⟩, ?_⟩
  · intro n t' ht'
    rcases hmem n t' ht' with hold | ⟨rfl, rfl⟩
    · exact hs.placed n t' hold
    · exact ⟨rfl, hqueue.symm⟩
  · intro o
    rw [htally]
    split
    · rename_i ho
      have hzero : s.1.tally o = 0 := ho ▸ hnew
      omega
    · exact hs.single o
  · intro n t' ht'
    rcases hmem n t' ht' with hold | ⟨rfl, -⟩
    · exact hs.waits n t' hold
    · exact ⟨0, by omega, hs.absent _ hnew, .inl rfl⟩
  · intro o ho
    rw [htally] at ho
    exact hs.absent o (by omega)
  · intro j hj
    refine ⟨Int.le_refl _, fun t' ht' => ⟨ht', rfl⟩, ?_⟩
    intro o ho
    have hne : t.origin ≠ o := fun h => hj (by rw [← ho, ← h, hcall])
    rw [htally, if_neg hne]
    rfl

/-- The delivery `d` of thread `i` goes to another place. -/
theorem settle_keeps (hs : Inv limit s) {d : Task} {w' : World}
    (hnow : w'.now = s.1.now) (hinflight : w'.inflight = s.1.inflight.erase (i, d))
    (hdelivered : w'.delivered = s.1.delivered) (htally : ∀ o, w'.tally o = s.1.tally o)
    (hqueues : ∀ n, ∀ t ∈ w'.queues n, t ∈ s.1.queues n ∨
      t.queue = n ∧ t.origin.queue = n ∧ Waits limit s.2 t)
    (hdead : ∀ n, ∀ t ∈ w'.deadLetter n, t ∈ s.1.deadLetter n ∨ t.origin.queue = n) :
    Keeps limit i s (w', s.2) := by
  have hsub : ∀ x ∈ w'.inflight, x ∈ s.1.inflight :=
    fun x hx => List.mem_of_mem_erase (hinflight ▸ hx)
  refine ⟨⟨?_, ?_, fun x hx => hs.carried x (hsub x hx), fun o => htally o ▸ hs.single o, ?_,
    fun x hx => hs.held x (hsub x hx), hs.handled, fun o ho => hs.absent o (htally o ▸ ho),
    fun x hx => hs.timely x (hdelivered ▸ hx)⟩, ?_⟩
  · intro n t ht
    rcases hqueues n t ht with hold | ⟨hq, ho, -⟩
    · exact hs.placed n t hold
    · exact ⟨hq, ho⟩
  · intro n t ht
    rcases hdead n t ht with hold | ho
    · exact hs.buried n t hold
    · exact ho
  · intro n t ht
    rcases hqueues n t ht with hold | ⟨-, -, hw⟩
    · exact hs.waits n t hold
    · exact hw
  · intro j hj
    refine ⟨Int.le_of_eq hnow.symm, ?_, fun o _ => htally o⟩
    intro t ht
    have hne : (j, t) ≠ (i, d) := fun h => hj (Prod.mk.inj h).1
    exact ⟨hinflight ▸ (List.mem_erase_of_ne hne).mpr ht, rfl⟩

section

variable (hs : Inv limit s) (ht : (i, t) ∈ s.1.inflight) {t' : Task}

include hs ht

theorem ack_keeps : Keeps limit i s ({ s.1.settle i t with acked := t :: s.1.acked }, s.2) := by
  refine settle_keeps (d := t) hs rfl rfl rfl ?_ (fun _ _ h => .inl h) (fun _ _ h => .inl h)
  intro o
  have hsettle := tally_settle (o := o) ht
  by_cases ho : t.origin = o
  · simp [ho] at hsettle ⊢
    omega
  · simp [ho] at hsettle ⊢
    omega

/-- A delivery goes back to its queue with a new time. -/
theorem retry_keeps (hphase : InPhase s.2 t 2) (hlimit : t.attempt < limit)
    (hqueue : t'.queue = t.queue) (horigin : t'.origin = t.origin)
    (hattempt : t'.attempt = t.attempt) : Keeps limit i s ((s.1.append t').settle i t, s.2) := by
  have hhome : t'.queue = t'.origin.queue := by
    rw [hqueue, horigin]
    exact hs.carried _ ht
  refine settle_keeps (d := t) hs rfl rfl rfl ?_ ?_ (fun _ _ h => .inl h)
  · intro o
    have hsettle := tally_settle (w := s.1.append t') (o := o) ht
    rw [tally_append s.1 o hhome, horigin] at hsettle
    omega
  · intro n x hx
    by_cases hn : n = t'.queue
    · have hx' : x ∈ s.1.queues n ∨ x = t' := by simpa [hn] using hx
      rcases hx' with hold | rfl
      · exact .inl hold
      · obtain ⟨k, hk, htrace⟩ := hphase
        refine .inr ⟨hn.symm, hhome.symm.trans hn.symm, k + 1, ?_, ?_, .inr (hattempt ▸ hlimit)⟩
        · rw [hattempt, hk, horigin]
          push_cast
          omega
        · rw [horigin]
          exact htrace
    · exact .inl (by simpa [hn] using hx)

theorem bury_keeps (hqueue : t'.queue = t.queue) (horigin : t'.origin = t.origin) :
    Keeps limit i s ((s.1.bury t').settle i t, s.2) := by
  have hhome : t'.queue = t'.origin.queue := by
    rw [hqueue, horigin]
    exact hs.carried _ ht
  refine settle_keeps (d := t) hs rfl rfl rfl ?_ (fun _ _ h => .inl h) ?_
  · intro o
    have hsettle := tally_settle (w := s.1.bury t') (o := o) ht
    rw [tally_bury s.1 o hhome, horigin] at hsettle
    omega
  · intro n x hx
    by_cases hn : n = t'.queue
    · have hx' : x ∈ s.1.deadLetter n ∨ x = t' := by simpa [World.bury, hn] using hx
      rcases hx' with hold | rfl
      · exact .inl hold
      · exact .inr (hhome.symm.trans hn.symm)
    · exact .inl (by simpa [World.bury, hn] using hx)

end

theorem inPhase_bound (hphase : InPhase handled t phase) (hle : phase ≤ 2)
    (hbound : t.attempt ≤ t.origin.task.attempt + 1 ∨ t.attempt ≤ limit) :
    Handled limit handled t.origin := by
  obtain ⟨k, hk, htrace⟩ := hphase
  refine ⟨2 * k + phase, htrace, ?_⟩
  rcases hbound with h | h
  · exact .inl (by omega)
  · refine .inr ?_
    have : (2 * k + phase + 1) / 2 ≤ k + 1 := by omega
    omega

/-- The handler of a delivery is started or comes back. -/
theorem event_keeps (hs : Inv limit s) (ht : (i, t) ∈ s.1.inflight) {started : Bool}
    (hnext : InPhase (s.2 ++ [⟨t, started⟩]) t (phase + 1)) (hphase : phase + 1 ≤ 2) :
    Keeps limit i s (s.1, s.2 ++ [⟨t, started⟩]) := by
  have hother : ∀ o, t.origin ≠ o → trace (s.2 ++ [⟨t, started⟩]) o = trace s.2 o := by
    intro o ho
    rw [trace_append, if_neg ho, List.append_nil]
  have hheld : ∀ x ∈ s.1.inflight, x = (i, t) ∨ t.origin ≠ x.2.origin := by
    intro x hx
    by_cases ho : t.origin = x.2.origin
    · exact .inl (held_eq hs hx ht ho.symm)
    · exact .inr ho
  refine ⟨⟨hs.placed, hs.buried, hs.carried, hs.single, ?_, ?_, ?_, ?_, hs.timely⟩, ?_⟩
  · intro n t' ht'
    obtain ⟨k, hk, htrace, hlimit⟩ := hs.waits n t' ht'
    have hne := held_not_waiting hs ht ht'
    exact ⟨k, hk, by rw [hother _ (Ne.symm hne)]; exact htrace, hlimit⟩
  · intro x hx
    obtain ⟨hold, hbound⟩ := hs.held x hx
    refine ⟨?_, hbound⟩
    rcases hheld x hx with rfl | hne
    · exact ⟨phase + 1, hphase, hnext⟩
    · obtain ⟨p, hp, k, hk, htrace⟩ := hold
      exact ⟨p, hp, k, hk, by rw [hother _ hne]; exact htrace⟩
  · intro o
    by_cases ho : t.origin = o
    · subst o
      exact inPhase_bound hnext hphase (hs.held _ ht).2
    · obtain ⟨n, htrace, hn⟩ := hs.handled o
      exact ⟨n, by rw [hother _ ho]; exact htrace, hn⟩
  · intro o ho
    rw [hother o (fun h => held_tally ht (h ▸ ho))]
    exact hs.absent o ho
  · intro j hj
    refine ⟨Int.le_refl _, ?_, fun _ _ => rfl⟩
    intro t' ht'
    refine ⟨ht', hother _ ?_⟩
    rcases hheld _ ht' with h | hne
    · exact absurd (Prod.mk.inj h).1 hj
    · exact hne

theorem inPhase_start (h : InPhase handled t 0) : InPhase (handled ++ [⟨t, true⟩]) t 1 := by
  obtain ⟨k, hk, htrace⟩ := h
  refine ⟨k, hk, ?_⟩
  rw [trace_append, if_pos rfl, htrace, inOrder_start, hk]
  rfl

theorem inPhase_finish (h : InPhase handled t 1) : InPhase (handled ++ [⟨t, false⟩]) t 2 := by
  obtain ⟨k, hk, htrace⟩ := h
  refine ⟨k, hk, ?_⟩
  rw [trace_append, if_pos rfl, htrace, inOrder_finish, hk]

end Commands

end Fries.MemoryQueue
