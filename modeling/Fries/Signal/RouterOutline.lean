import Fries.Signal.Router

/-! What holds of a router between any two steps: its channels, threads and signals. -/
namespace Fries.Signal

variable {G H E : Type} {w w' : World G H E} {l m : Local G H E}
  {n : Progress (World G H E) (Local G H E)} {j : Nat} {sig : G} {routes : Routes G}

/-- The registration is for the signal. -/
def Subscribed (w : World G H E) (j : Nat) (sig : G) : Prop :=
  ∃ reg, w.registrations[j]? = some reg ∧ sig ∈ reg.signals

section Routing

variable [DecidableEq G]

theorem lookup_add (routes : Routes G) (key : G) (j : Nat) (sig : G) :
    (routes.add key j).lookup sig =
      if key = sig then routes.lookup sig ++ [j] else routes.lookup sig := by
  induction routes with
  | nil => simp [Routes.add, Routes.lookup]
  | cons route rest ih =>
    obtain ⟨key', to_⟩ := route
    by_cases hkey : key' = key
    · subst hkey
      by_cases hsig : key' = sig <;> simp [Routes.add, Routes.lookup, hsig]
    · by_cases hsig : key' = sig
      · subst hsig
        simp [Routes.add, Routes.lookup, hkey, Ne.symm hkey]
      · simp [Routes.add, Routes.lookup, hkey, hsig, ih]

theorem lookup_foldl (signals : List G) (hnodup : signals.Nodup) (routes : Routes G) (j : Nat)
    (sig : G) :
    (signals.foldl (fun routes key => routes.add key j) routes).lookup sig =
      routes.lookup sig ++ if sig ∈ signals then [j] else [] := by
  induction signals generalizing routes with
  | nil => simp
  | cons key rest ih =>
    obtain ⟨hkey, hrest⟩ := List.nodup_cons.mp hnodup
    rw [List.foldl_cons, ih hrest, lookup_add]
    by_cases hsig : key = sig
    · subst hsig
      simp [hkey]
    · simp [hsig, Ne.symm hsig]

theorem lookup_routesFrom (regs : List (Registration G H)) (j : Nat) (routes : Routes G) (sig : G) :
    (routesFrom regs j routes).lookup sig =
      routes.lookup sig ++
        ((regs.zipIdx j).filter fun reg => decide (sig ∈ reg.1.signals)).map Prod.snd := by
  induction regs generalizing j routes with
  | nil => simp [routesFrom]
  | cons reg rest ih =>
    rw [routesFrom, ih, lookup_foldl _ reg.nodup, List.zipIdx_cons, List.filter_cons]
    by_cases hsig : sig ∈ reg.signals <;> simp [hsig]

theorem nodup_routes (w : World G H E) (sig : G) : (w.routes.lookup sig).Nodup := by
  rw [World.routes, lookup_routesFrom, Routes.lookup, List.nil_append]
  refine (List.filter_sublist.map _).nodup ?_
  rw [List.zipIdx_map_snd]
  exact List.nodup_range'

theorem subscribed_of_routes (h : j ∈ w.routes.lookup sig) : Subscribed w j sig := by
  rw [World.routes, lookup_routesFrom, Routes.lookup, List.nil_append] at h
  obtain ⟨⟨reg, j'⟩, hmem, rfl⟩ := List.mem_map.mp h
  obtain ⟨hreg, hsig⟩ := List.mem_filter.mp hmem
  exact ⟨reg, List.mem_zipIdx_iff_getElem?.mp hreg, of_decide_eq_true hsig⟩

end Routing

/-- `Run` is between its beginning and its end. -/
def Active (w : World G H E) : Prop := w.state = .running ∨ w.state = .stopping

/-- What a registration has been given, in order. -/
def World.given (w : World G H E) (j : Nat) : List (Receipt G) := w.taken j ++ w.pending j

structure Inv (w : World G H E) : Prop where
  stop : w.stop = if w.state = .new ∨ w.state = .running then 0 else 1
  done : w.done = if w.state = .stopped then 1 else 0
  began : Active w → w.cancel = true
  fresh : w.state = .new → w.cancel = false
  idle : ¬ Active w → w.working = []
  sole : w.working.Nodup
  room : ∀ j, (w.pending j).length ≤ 1
  queue : ∀ j, (w.given j).Pairwise fun x y => x.1 < y.1
  genuine : ∀ j, ∀ x ∈ w.given j, w.received[x.1]? = some x.2 ∧ Subscribed w j x.2
  called : ∀ j, (w.calls j).Sublist (w.taken j)

def AtRun (w : World G H E) : RunPhase G → Prop
  | .spawning next => ∀ j ∈ w.working, j < next
  | .offering receipt left => receipt.1 + 1 = w.received.length ∧
    w.received[receipt.1]? = some receipt.2 ∧ left.Nodup ∧
    ∀ j ∈ left, Subscribed w j receipt.2 ∧ ∀ x ∈ w.given j, x.1 < receipt.1
  | .unsubscribing | .draining _ | .waiting => w.state = .stopping
  | .finishing => w.state = .stopping ∧ w.working = []
  | .checking | .polling | .selecting | .closing => True

def At [DecidableEq G] (l : Local G H E) (w : World G H E) : Prop :=
  match l with
  | .starting => Active w ∧ w.working = []
  | .runner routes phase => Active w ∧ routes = w.routes ∧ AtRun w phase
  | .canceling _ | .ran _ => w.state = .stopped
  | .worker j (.admitting receipt) =>
    ∃ before, w.taken j = before ++ [receipt] ∧ (w.calls j).Sublist before
  | .worker j (.handling receipt) => (w.calls j).getLast? = some receipt
  | .stopper .beginning | .registering .. | .registered _ | .calling | .refused _ | .worker .. =>
    True
  | .stopper _ => w.state ≠ .new

/-- A call of `Run` that was not refused. -/
def Local.proceeds : Local G H E → Bool
  | .starting | .runner .. | .canceling _ | .ran _ => true
  | _ => false

/-- The registration that a thread is the worker of. -/
def Local.works : Local G H E → Option Nat
  | .worker _ .gone => none
  | .worker j _ => some j
  | _ => none

inductive Counter
  | run
  | worker (j : Nat)

def weight (l : Local G H E) : Counter → Nat
  | .run => l.proceeds.toNat
  | .worker j => if l.works = some j then 1 else 0

theorem weight_worker (h : l.works = some j) : weight l (.worker j) = 1 := if_pos h

def count (w : World G H E) : Counter → Nat
  | .run => w.cancel.toNat
  | .worker j => w.working.count j

/-- What a step does. -/
inductive Moves [DecidableEq G] (w : World G H E) :
    Local G H E → Progress (World G H E) (Local G H E) → Prop
  | quiet {l l' : Local G H E} (outside : Outside G E) (hproceeds : l'.proceeds = l.proceeds)
      (hworks : l'.works = l.works)
      (hat : Inv w → At l w → At l' { w with outside := outside }) :
    Moves w l ⟨l', { w with outside := outside }, none⟩
  | register {handler : Option H} {signals : List (Option G)} {reg : Registration G H}
      (hnew : w.state = .new) :
    Moves w (.registering handler signals)
      ⟨.registered none, { w with registrations := w.registrations ++ [reg] }, none⟩
  | start {outside : Outside G E} (hnew : w.state = .new) :
    Moves w .calling
      ⟨.starting, { w with state := .running, cancel := true, outside := outside }, none⟩
  | spawn {routes : Routes G} {next : Nat} :
    Moves w (.runner routes (.spawning next))
      ⟨.runner routes (.spawning (next + 1)), { w with working := w.working ++ [next] },
        some (.worker next .selecting)⟩
  | receive {routes : Routes G} {sig : G} {outside : Outside G E} :
    Moves w (.runner routes .selecting)
      ⟨.runner routes (.offering (w.received.length, sig) (routes.lookup sig)),
        { w with received := w.received ++ [sig], outside := outside }, none⟩
  | offer {routes : Routes G} {receipt : Receipt G} {j : Nat} {left : List Nat}
      (hroom : (w.pending j).length < 1) :
    Moves w (.runner routes (.offering receipt (j :: left)))
      ⟨.runner routes (.offering receipt left),
        { w with pending := Function.update w.pending j (w.pending j ++ [receipt]) }, none⟩
  | close {routes : Routes G} :
    Moves w (.runner routes .closing) ⟨.runner routes .unsubscribing, w.beginShutdown, none⟩
  | drain {routes : Routes G} {next : Nat} :
    Moves w (.runner routes (.draining next))
      ⟨.runner routes (.draining (next + 1)), w.drain next, none⟩
  | finish {routes : Routes G} {err : Option (Err E)} :
    Moves w (.runner routes .finishing) ⟨.canceling err, w.finish, none⟩
  | take {j : Nat} {receipt : Receipt G} {rest : List (Receipt G)}
      (hpending : w.pending j = receipt :: rest) :
    Moves w (.worker j .selecting) ⟨.worker j (.admitting receipt), w.take j receipt rest, none⟩
  | call {j : Nat} {receipt : Receipt G} :
    Moves w (.worker j (.admitting receipt)) ⟨.worker j (.handling receipt), w.call j receipt, none⟩
  | leave {j : Nat} :
    Moves w (.worker j .leaving)
      ⟨.worker j .gone, { w with working := w.working.erase j }, none⟩
  | shutdown : Moves w (.stopper .beginning) ⟨.stopper .checking, w.beginShutdown, none⟩

section Inversion

variable [DecidableEq G] {label : Label E} {phase : RunPhase G}

/-- The world stays as it is. -/
theorem Moves.stay {l l' : Local G H E} (hproceeds : l'.proceeds = l.proceeds)
    (hworks : l'.works = l.works) (hat : Inv w → At l w → At l' w) :
    Moves w l ⟨l', w, none⟩ :=
  .quiet w.outside hproceeds hworks hat

/-- `Run` goes on from one place to another. -/
theorem Moves.proceed {phase' : RunPhase G} (h : AtRun w phase → AtRun w phase') :
    Moves w (.runner routes phase) ⟨.runner routes phase', w, none⟩ :=
  .stay rfl rfl fun _ hat => ⟨hat.1, hat.2.1, h hat.2.2⟩

theorem register_moves (handler : Option H) (signals : List (Option G)) :
    Moves w (.registering handler signals)
      ⟨.registered (w.register handler signals).2, (w.register handler signals).1, none⟩ := by
  have hstay : ∀ err, Moves w (.registering handler signals) ⟨.registered err, w, none⟩ :=
    fun err => .stay rfl rfl fun _ _ => trivial
  unfold World.register
  split
  · exact hstay _
  · rename_i hnew
    split
    · exact hstay _
    · split
      · exact hstay _
      · split
        · exact hstay _
        · exact .register (not_not.mp hnew)

theorem run_moves (h : stepRun routes label w phase = some n) :
    Moves w (.runner routes phase) n := by
  cases phase with
  | spawning next =>
    simp only [stepRun] at h
    split at h <;> cases h
    · exact .spawn
    · exact .proceed fun _ => trivial
  | checking | polling =>
    simp only [stepRun] at h
    split at h <;> cases h <;> exact .proceed fun _ => trivial
  | selecting =>
    have hclosing : Moves w (.runner routes .selecting) ⟨.runner routes .closing, w, none⟩ :=
      .proceed fun _ => trivial
    simp only [stepRun] at h
    split at h
    · split at h <;> cases h
      exact hclosing
    · split at h <;> cases h
      exact hclosing
    · split at h
      · cases h
        exact .receive
      · split at h <;> cases h
        exact hclosing
    · cases h
  | offering receipt left =>
    cases left with
    | nil =>
      cases h
      exact .proceed fun _ => trivial
    | cons j left =>
      cases h
      -- without room the signal is dropped, as it is once the router stops
      have hdropped : Moves w (.runner routes (.offering receipt (j :: left)))
          ⟨.runner routes (.offering receipt left), w, none⟩ := by
        refine .proceed fun hphase => ?_
        obtain ⟨hlast, hreceived, hnodup, hleft⟩ := hphase
        exact ⟨hlast, hreceived, (List.nodup_cons.mp hnodup).2,
          fun j' hj' => hleft j' (List.mem_cons_of_mem _ hj')⟩
      unfold World.offer
      split
      · exact hdropped
      · split
        · rename_i hroom
          exact .offer hroom
        · exact hdropped
  | closing =>
    cases h
    exact .close
  | unsubscribing =>
    cases h
    exact .quiet _ rfl rfl fun _ hat => hat
  | draining next =>
    simp only [stepRun] at h
    split at h <;> cases h
    · exact .drain
    · exact .proceed fun hstopping => hstopping
  | waiting =>
    simp only [stepRun] at h
    split at h <;> cases h
    rename_i hidle
    exact .proceed fun hstopping => ⟨hstopping, hidle⟩
  | finishing =>
    cases h
    exact .finish

theorem work_moves {phase : WorkPhase G} (h : stepWork j label w phase = some n) :
    Moves w (.worker j phase) n := by
  cases phase with
  | selecting =>
    simp only [stepWork] at h
    split at h
    · split at h <;> cases h
      exact .stay rfl rfl fun _ _ => trivial
    · split at h <;> cases h
      rename_i receipt rest hpending
      exact .take hpending
    · cases h
  | admitting receipt =>
    simp only [stepWork] at h
    split at h <;> cases h
    · exact .call
    · exact .stay rfl rfl fun _ _ => trivial
  | handling receipt =>
    simp only [stepWork] at h
    split at h <;> cases h
    exact .stay rfl rfl fun _ _ => trivial
  | leaving =>
    cases h
    exact .leave
  | gone => cases h

theorem stop_moves {phase : StopPhase E} (h : stepStop label w phase = some n) :
    Moves w (.stopper phase) n := by
  cases phase with
  | beginning =>
    cases h
    exact .shutdown
  | checking =>
    simp only [stepStop] at h
    split at h <;> cases h <;> exact .stay rfl rfl fun _ hat => hat
  | awaiting =>
    simp only [stepStop] at h
    split at h
    · split at h <;> cases h
      exact .stay rfl rfl fun _ hat => hat
    · cases h
      exact .stay rfl rfl fun _ hat => hat
    · cases h
  | aborting err =>
    simp only [stepStop] at h
    split at h <;> cases h
    · exact .stay rfl rfl fun _ hat => hat
    · exact .quiet _ rfl rfl fun _ hat => hat
  | resulting =>
    cases h
    exact .stay rfl rfl fun _ hat => hat
  | returned err => cases h

theorem step_moves (h : step label l w = some n) : Moves w l n := by
  cases l with
  | registering handler signals =>
    cases h
    exact register_moves handler signals
  | calling =>
    simp only [step] at h
    split at h <;> cases h
    · exact .stay rfl rfl fun _ _ => trivial
    · rename_i hnew
      exact .start (not_not.mp hnew)
  | starting =>
    cases h
    refine .quiet _ rfl rfl fun _ hat => ?_
    obtain ⟨hactive, hidle⟩ := hat
    refine ⟨hactive, rfl, ?_⟩
    intro j hj
    rw [show w.working = [] from hidle] at hj
    cases hj
  | runner routes phase => exact run_moves h
  | canceling err =>
    cases h
    exact .quiet _ rfl rfl fun _ hat => hat
  | worker j phase => exact work_moves h
  | stopper phase => exact stop_moves h
  | registered | refused | ran => cases h

end Inversion

end Fries.Signal
