import Fries.Locker.Redis

/-! Mutual exclusion of the Redis lock, whatever the interleaving. -/
namespace Fries.Locker

open Service.Contract

variable {R : Redis} {w w' : World} {key token : String} {deadline : Int}

theorem stored_eq_some : R.stored w key = some token ↔
    ∃ deadline, w.keys key = some (token, deadline) ∧ R.fresh w.now deadline = true := by
  unfold Redis.stored
  split
  · rename_i t d h
    simp only [h, Option.some.injEq, Prod.mk.injEq]
    constructor
    · intro hif
      split at hif
      · exact ⟨d, ⟨Option.some.inj hif, rfl⟩, ‹_›⟩
      · cases hif
    · rintro ⟨_, ⟨rfl, rfl⟩, hfresh⟩
      simp [hfresh]
  · rename_i h
    simp [h]

/-- A key that reads as absent was never set or its time has elapsed. -/
theorem deadline_le_of_absent (habsent : R.stored w key = none)
    (hkey : w.keys key = some (token, deadline)) : deadline ≤ w.now := by
  by_contra hlt
  have hfresh := R.fresh_of_lt w.now deadline (by omega)
  rw [stored_eq_some.mpr ⟨deadline, hkey, hfresh⟩] at habsent
  cases habsent

theorem stored_unique {token' : String} (hstored : R.stored w key = some token)
    (hkey : w.keys key = some (token', deadline)) : token = token' := by
  obtain ⟨d, hkey', -⟩ := stored_eq_some.mp hstored
  rw [hkey] at hkey'
  cases hkey'
  rfl

/-- When the token expires that was granted until `deadline`, after the events since. -/
def expiry (key token : String) (deadline : Int) : List Event → Int
  | [] => deadline
  | .refreshed k t d :: older =>
    if k = key ∧ t = token then d else expiry key token deadline older
  | .acquired .. :: older => expiry key token deadline older
  | .released .. :: older => expiry key token deadline older

/-- A granted token that was not released is in its key, or its time has elapsed. -/
def Accounted (w : World) : Prop :=
  ∀ newer older key token start deadline,
    w.log = newer ++ .acquired key token start deadline :: older →
    .released key token ∉ newer →
    w.keys key = some (token, expiry key token deadline newer) ∨
      expiry key token deadline newer ≤ w.now

/-- Between two grants of a lock the first was released, or its time had elapsed by the second. -/
def Apart (log : List Event) : Prop :=
  ∀ newer between older key token start deadline token' start' deadline',
    log = newer ++ .acquired key token' start' deadline' ::
      (between ++ .acquired key token start deadline :: older) →
    .released key token ∈ between ∨ expiry key token deadline between ≤ start'

/-- What a command can do to the server. -/
inductive Move (R : Redis) (w : World) : World → Prop
  | idle : Move R w w
  | acquire (key token : String) (deadline : Int) (absent : R.stored w key = none) :
    Move R w
      { w with keys := Function.update w.keys key (some (token, deadline)),
               log := .acquired key token w.now deadline :: w.log }
  | release (key token : String) (owned : R.stored w key = some token) :
    Move R w
      { w with keys := Function.update w.keys key none, log := .released key token :: w.log }
  | refresh (key token : String) (deadline : Int) (owned : R.stored w key = some token) :
    Move R w
      { w with keys := Function.update w.keys key (some (token, deadline)),
               log := .refreshed key token deadline :: w.log }

theorem setNX_moves (w : World) (key token : String) (ttl : Int) :
    Move R w (R.setNX w key token ttl).2 := by
  unfold Redis.setNX
  split
  · exact .idle
  · exact .acquire key token _ ‹_›

theorem releaseScript_moves (w : World) (key token : String) :
    Move R w (R.releaseScript w key token).2 := by
  unfold Redis.releaseScript
  split
  · exact .release key token ‹_›
  · exact .idle

theorem refreshScript_moves (w : World) (key token : String) (ttl : Int) :
    Move R w (R.refreshScript w key token ttl).2 := by
  unfold Redis.refreshScript
  split
  · exact .refresh key token _ ‹_›
  · exact .idle

theorem sent_moves {α : Type} {r : α × World} (fault : Option Fault) (h : Move R w r.2) :
    Move R w (Redis.sent fault w r).2 := by
  unfold Redis.sent
  split
  · exact h
  · dsimp only
    split
    · exact h
    · exact .idle

theorem exec_moves (i : Nat) (label : Label) (w : World) (c : Command) :
    Move R w (R.exec i label w c).2 := by
  cases c with
  | newString | int64N n | wait duration => exact .idle
  | setNX key token ttl => exact sent_moves _ (setNX_moves w key token ttl)
  | releaseScript key token => exact sent_moves _ (releaseScript_moves w key token)
  | refreshScript key token ttl => exact sent_moves _ (refreshScript_moves w key token ttl)

theorem move_log (h : Move R w w') : ∀ e ∈ w.log, e ∈ w'.log := by
  intro e he
  cases h with
  | idle => exact he
  | acquire | release | refresh => exact List.mem_cons_of_mem _ he

theorem accounted_move (hw : Accounted w) (h : Move R w w') : Accounted w' := by
  intro newer older key token start deadline hlog hkept
  cases h with
  | idle => exact hw newer older key token start deadline hlog hkept
  | acquire k t d absent =>
    cases newer with
    | nil =>
      cases hlog
      left
      simp [expiry]
    | cons e newer =>
      obtain ⟨rfl, hold⟩ := List.cons.inj hlog
      simp only [expiry]
      rcases hw newer older key token start deadline hold (List.not_mem_of_not_mem_cons hkept)
        with hkey | hpast
      · by_cases hk : key = k
        · subst k
          exact .inr (deadline_le_of_absent absent hkey)
        · left
          simpa [hk] using hkey
      · exact .inr hpast
  | release k t owned =>
    cases newer with
    | nil => cases hlog
    | cons e newer =>
      obtain ⟨rfl, hold⟩ := List.cons.inj hlog
      simp only [expiry]
      rcases hw newer older key token start deadline hold (List.not_mem_of_not_mem_cons hkept)
        with hkey | hpast
      · left
        -- A key that held this token would make this grant the released one.
        have hk : key ≠ k := by
          rintro rfl
          obtain rfl := stored_unique owned hkey
          exact hkept List.mem_cons_self
        simpa [hk] using hkey
      · exact .inr hpast
  | refresh k t d owned =>
    cases newer with
    | nil => cases hlog
    | cons e newer =>
      obtain ⟨rfl, hold⟩ := List.cons.inj hlog
      by_cases hsame : k = key ∧ t = token
      · obtain ⟨rfl, rfl⟩ := hsame
        left
        simp [expiry]
      simp only [expiry, hsame, if_false]
      rcases hw newer older key token start deadline hold (List.not_mem_of_not_mem_cons hkept)
        with hkey | hpast
      · left
        have hk : key ≠ k := by
          rintro rfl
          exact hsame ⟨rfl, stored_unique owned hkey⟩
        simpa [hk] using hkey
      · exact .inr hpast

theorem apart_move (hw : Accounted w) (hapart : Apart w.log) (h : Move R w w') :
    Apart w'.log := by
  intro newer between older key token start deadline token' start' deadline' hlog
  cases newer with
  | cons e newer =>
    cases h with
    | idle => exact hapart (e :: newer) between older _ _ _ _ _ _ _ hlog
    | acquire | release | refresh =>
      exact hapart newer between older _ _ _ _ _ _ _ (List.cons.inj hlog).2
  | nil =>
    cases h with
    | idle => exact hapart [] between older _ _ _ _ _ _ _ hlog
    | release | refresh => cases hlog
    | acquire k t d absent =>
      obtain ⟨he, hold⟩ := List.cons.inj hlog
      cases he
      by_cases hm : .released key token ∈ between
      · exact .inl hm
      · right
        rcases hw between older key token start deadline hold hm with hkey | hpast
        · exact deadline_le_of_absent absent hkey
        · exact hpast

/-- The lock's contract: the log only grows. -/
def contract (R : Redis) : (clients R).Contract where
  Inv w := Accounted w ∧ Apart w.log
  Rely _ w w' := ∀ e ∈ w.log, e ∈ w'.log
  Guar _ w w' := ∀ e ∈ w.log, e ∈ w'.log
  Unused _ _ := True
  Ok _ _ _ := True
  Issue _ _ _ := True
  rely_refl _ _ _ he := he
  rely_trans _ _ _ _ h h' e he := h' e (h e he)
  rely_of_guar _ _ _ _ _ _ h := h
  inv_shift elapsed w hw := by
    refine ⟨?_, hw.2⟩
    intro newer older key token start deadline hlog hkept
    rcases hw.1 newer older key token start deadline hlog hkept with hkey | hpast
    · exact .inl hkey
    · refine .inr (Int.le_trans hpast ?_)
      show w.now ≤ w.now + (elapsed : Int)
      omega
  rely_shift _ _ _ _ _ he := he
  unused_rely _ _ _ _ _ := trivial

variable {β : Type} {i : Nat} {post : β → World → Prop} {label : Label} {call : Call}
  {lease : Lease} {event : Event}

/-- A command is safe when what follows it is safe with every response. -/
theorem safe_issue {c : Command} {k : Response c → Program β}
    (h : ∀ w' label, (contract R).Safe i post (k (R.exec i label w' c).1) (R.exec i label w' c).2) :
    (contract R).Safe i post (.call c k) w := by
  intro w' label _ hinv _
  have hmove : Move R w' (R.exec i label w' c).2 := exec_moves i label w' c
  exact ⟨trivial, ⟨accounted_move hinv.1 hmove, apart_move hinv.1 hinv.2 hmove⟩, move_log hmove,
    h w' label⟩

/-- A lease of the lock was granted, until the lock's time to live after it. -/
def Obtained (l : Lock) (r : Except Error Lease) (w : World) : Prop :=
  ∀ lease, r = .ok lease → lease.key = l.key ∧
    ∃ start, .acquired lease.key lease.token start (start + milliseconds l.ttl) ∈ w.log

theorem setNX_granted {ttl : Int} (h : (R.exec i label w (.setNX key token ttl)).1 = .ok true) :
    ∃ start, .acquired key token start (start + milliseconds ttl) ∈
      (R.exec i label w (.setNX key token ttl)).2.log := by
  simp only [Redis.exec, Redis.sent, Redis.setNX] at h ⊢
  cases hfault : label.fault with
  | some fault => simp [hfault] at h
  | none =>
    cases hstored : R.stored w key with
    | some t => simp [hfault, hstored] at h
    | none => exact ⟨w.now, List.mem_cons_self⟩

theorem tryAcquireWith_safe (l : Lock) (token : String) (w : World) :
    (contract R).Safe i (Obtained l) (l.tryAcquireWith token) w := by
  refine safe_issue fun w' label => ?_
  simp only [Prog.pure_eq, Prog.bind]
  cases hreply : (R.exec i label w' (.setNX l.key token l.ttl)).1 with
  | error err => exact fun _ h => by cases h
  | ok acquired =>
    cases acquired with
    | false => exact fun _ h => by cases h
    | true =>
      intro lease h
      cases h
      exact ⟨rfl, setNX_granted hreply⟩

theorem tryAcquire_safe (l : Lock) (ctx : Ctx) (w : World) :
    (contract R).Safe i (Obtained l) (l.tryAcquire ctx) w := by
  unfold Lock.tryAcquire
  split
  · exact fun _ h => by cases h
  · exact safe_issue fun w' label => tryAcquireWith_safe l _ _

theorem waitInterval_safe (l : Lock) (w : World) :
    (contract R).Safe i (fun _ _ => True) l.waitInterval w := by
  unfold Lock.waitInterval
  dsimp only
  split
  · trivial
  · exact safe_issue fun w' label => trivial

theorem rounds_safe (l : Lock) (token : String) (n : Nat) (w : World) :
    (contract R).Safe i (fun r w => ∀ r', r = some r' → Obtained l r' w) (l.rounds token n) w := by
  induction n generalizing w with
  | zero => exact fun _ h => by cases h
  | succ n ih =>
    refine safe_bind (safe_weaken ?_
      (tryAcquireWith_safe l token w))
    intro r w₁ hr
    cases r with
    | ok lease =>
      intro r' h
      cases h
      exact hr
    | error err =>
      dsimp only
      split
      · intro r' h lease h'
        cases h
        cases h'
      · refine safe_bind (safe_weaken ?_
          (waitInterval_safe l w₁))
        intro duration w₂ _
        refine safe_issue fun w₃ label => ?_
        simp only [Redis.exec, Prog.bind]
        cases label.ended with
        | none => exact ih w₃
        | some cause =>
          intro r' h lease h'
          cases h
          cases h'

theorem acquire_safe (l : Lock) (ctx : Ctx) (n : Nat) (w : World) :
    (contract R).Safe i (fun r w => ∀ r', r = some r' → Obtained l r' w) (l.acquire ctx n) w := by
  unfold Lock.acquire
  split
  · intro r' h lease h'
    cases h
    cases h'
  · exact safe_issue fun w' label => rounds_safe l _ n _

/-- What a call promises when it returns: a lease it acquired was granted. -/
def promise : Call → Nat → Result → World → Prop
  | .tryAcquire _ l, _, .leased r, w | .acquire _ l _, _, .leased r, w => Obtained l r w
  | _, _, _, _ => True

theorem promise_stable (call : Call) (i : Nat) : (contract R).Stable i (promise call i) := by
  intro r w w' h hr _
  have hobtained : ∀ l r, Obtained l r w → Obtained l r w' := by
    intro l r h lease hok
    obtain ⟨hkey, start, hmem⟩ := h lease hok
    exact ⟨hkey, start, hr _ hmem⟩
  cases call <;> cases r <;> first | trivial | exact hobtained _ _ h

theorem release_safe (l : Lease) (ctx : Ctx) (w : World) :
    (contract R).Safe i (fun _ _ => True) (l.release ctx) w := by
  unfold Lease.release
  split
  · trivial
  · exact safe_issue fun w' label => trivial

theorem refresh_safe (l : Lease) (ctx : Ctx) (ttl : Int) (w : World) :
    (contract R).Safe i (fun _ _ => True) (l.refresh ctx ttl) w := by
  unfold Lease.refresh
  split
  · trivial
  · split
    · trivial
    · exact safe_issue fun w' label => trivial

theorem program_safe (call : Call) (w : World) :
    (contract R).Safe i (promise call i) call.program w := by
  cases call with
  | tryAcquire ctx lock => exact safe_map (tryAcquire_safe lock ctx w)
  | acquire ctx lock n =>
    refine safe_map (safe_weaken ?_ (acquire_safe lock ctx n w))
    intro r w' h
    cases r with
    | none => trivial
    | some r => exact h r rfl
  | restore lock token => trivial
  | release ctx lease => exact safe_map (release_safe lease ctx w)
  | refresh ctx lease ttl => exact safe_map (refresh_safe lease ctx ttl w)

theorem safe_run (R : Redis) (now : Int) (actions : List (Action Label Nat Call)) :
    (contract R).SafePool promise ((clients R).run (initial now) actions) := by
  refine safePool_of_run (contract R) promise promise_stable ?_ ?_ actions
    (Service.meets_of_forall (fun _ _ _ => trivial) _ actions)
  · intro p call prog _ hstart
    cases hstart
    exact program_safe call p.world
  · refine safePool_nil ⟨?_, ?_⟩ fun _ => trivial
    · intro newer older key token start deadline hlog
      simp at hlog
    · intro newer between older key token start deadline token' start' deadline' hlog
      simp at hlog

/-- The lease that `Release` or `Refresh` is called on with a live context and a positive
duration, and the event of its success. -/
def Call.settles (now : Int) : Call → Option (Lease × Event)
  | .release .live lease => some (lease, .released lease.key lease.token)
  | .refresh .live lease ttl =>
    if 0 < ttl then some (lease, .refreshed lease.key lease.token (now + milliseconds ttl))
    else none
  | _ => none

/-- A call that settles a lease is one command whose reply says whether its event happened. -/
theorem settles_program {now : Int} (h : call.settles now = some (lease, event)) :
    ∃ (c : Command) (f : Response c → Result), call.program = .call c (fun r => .ret (f r)) ∧
      ∀ i (label : Label) w, label.fault = none → w.now = now →
        if R.stored w lease.key = some lease.token then
          f (R.exec i label w c).1 = .settled (.ok ()) ∧ (R.exec i label w c).2.log = event :: w.log
        else f (R.exec i label w c).1 = .settled (.error .leaseLost) ∧
            (R.exec i label w c).2 = w := by
  cases call with
  | tryAcquire | acquire | restore => cases h
  | release ctx l =>
    cases ctx with
    | nil | done => cases h
    | live =>
      cases h
      refine ⟨.releaseScript lease.key lease.token,
        fun r => .settled (settled "release" lease.key r), rfl, ?_⟩
      intro i label w hfault hnow
      simp only [Redis.exec, Redis.sent, hfault, Redis.releaseScript]
      split <;> exact ⟨rfl, rfl⟩
  | refresh ctx l ttl =>
    cases ctx with
    | nil | done => cases h
    | live =>
      simp only [Call.settles] at h
      split at h <;> cases h
      rename_i httl
      have hnot : ¬ ttl ≤ 0 := by omega
      refine ⟨.refreshScript lease.key lease.token (milliseconds ttl),
        fun r => .settled (settled "refresh" lease.key r), ?_, ?_⟩
      · simp only [Call.program, Lease.refresh, validateContext, hnot, if_false]
        rfl
      · intro i label w hfault hnow
        subst hnow
        simp only [Redis.exec, Redis.sent, hfault, Redis.refreshScript]
        split <;> exact ⟨rfl, rfl⟩

/-- The one step of a call that settles a lease. -/
theorem settles_step {p : Pool World Call Command Response Result} (hp : (clients R).Faithful p)
    (hcall : p.pending i = some call) (h : call.settles p.world.now = some (lease, event))
    (hfault : label.fault = none) : if R.stored p.world lease.key = some lease.token then
      ((clients R).step p (.run i label)).returned i = some (call, .settled (.ok ())) ∧
        ((clients R).step p (.run i label)).world.log = event :: p.world.log else
      ((clients R).step p (.run i label)).returned i = some (call, .settled (.error .leaseLost)) ∧
        ((clients R).step p (.run i label)).world = p.world := by
  obtain ⟨c, k, hthread⟩ := pending_eq_some.mp hcall
  obtain ⟨_, prog, hstart, hrest⟩ := hp i _ hthread
  obtain rfl : call.program = prog := Option.some.inj hstart
  obtain ⟨c', f, hprogram, hexec⟩ := settles_program (R := R) h
  rw [hprogram] at hrest
  rcases Prog.rest_single hrest with hall | ⟨r, hret⟩
  · cases hall
    have hlt : i < p.threads.length := (List.getElem?_eq_some_iff.mp hthread).1
    have hstep : (clients R).step p (.run i label) =
        ⟨(R.exec i label p.world c).2,
          p.threads.set i ⟨call, .ret (f (R.exec i label p.world c).1)⟩⟩ := by
      simp only [Service.step, hthread]
      rfl
    have hreturned : ((clients R).step p (.run i label)).returned i =
        some (call, f (R.exec i label p.world c).1) := by
      rw [returned_eq_some, hstep]
      simp [hlt]
    have hw := hexec i label p.world hfault rfl
    rw [hreturned, hstep]
    split at hw
    · rename_i howned
      rw [if_pos howned, hw.1]
      exact ⟨rfl, hw.2⟩
    · rename_i hlost
      rw [if_neg hlost, hw.1]
      exact ⟨rfl, hw.2⟩
  · cases hret

/-- In every interleaving a key holds at most one token, only this token can be released or
refreshed, and a lock is granted again only after its release or expiry, which its time to live or
that of the last refresh sets. -/
theorem lock_exclusive (R : Redis) (now : Int) (actions : List (Action Label Nat Call)) :
    let p := (clients R).run (initial now) actions
    (∀ key token token', R.stored p.world key = some token → R.stored p.world key = some token' →
      token = token') ∧
    (∀ i label call lease event, p.pending i = some call →
      call.settles p.world.now = some (lease, event) → label.fault = none →
      let p' := (clients R).step p (.run i label)
      if R.stored p.world lease.key = some lease.token then
        p'.returned i = some (call, .settled (.ok ())) ∧ p'.world.log = event :: p.world.log
      else
        p'.returned i = some (call, .settled (.error .leaseLost)) ∧ p'.world = p.world) ∧
    (∀ i call r, p.returned i = some (call, r) → promise call i r p.world) ∧
    Apart p.world.log := by
  have hsafe := safe_run R now actions
  have hfaithful : (clients R).Faithful ((clients R).run (initial now) actions) := by
    refine Service.faithful_run ?_ actions
    intro i t ht
    simp [initial] at ht
  refine ⟨?_, ?_, ?_, hsafe.inv.2⟩
  · intro key token token' h h'
    exact Option.some.inj (h.symm.trans h')
  · intro i label call lease event hcall h hfault
    exact settles_step hfaithful hcall h hfault
  · intro i call r h
    exact hsafe.safe i _ (returned_eq_some.mp h)

/-- A server that drops a key at the instant it expires. -/
def strict : Redis where
  fresh now deadline := decide (now < deadline)
  fresh_of_lt _ _ h := decide_eq_true h

/-- Two clients of one lock. The first refreshes its lease, which then expires while the second
waits; its late release finds the second token stored. -/
def handover : List (Action Label Nat Call) :=
  let label (token : String) : Label := ⟨none, token, 0, none⟩
  let lock : Lock := ⟨newConfig [.withWaitInterval millisecond millisecond], "job", 5 * millisecond⟩
  [.spawn (.tryAcquire .live lock), .run 0 (label "a"), .run 0 (label ""),
   .spawn (.refresh .live ⟨"locker:job", "a"⟩ (3 * millisecond)), .shift 1, .run 1 (label ""),
   .spawn (.acquire .live lock 2), .run 2 (label "b"), .run 2 (label ""), .run 2 (label ""),
   .shift 3, .run 2 (label ""), .spawn (.release .live ⟨"locker:job", "a"⟩)]

theorem lock_exclusive_handover :
    let p := (clients strict).run (initial 0) handover
    let lease : Lease := ⟨"locker:job", "a"⟩
    p.world.log = [.acquired "locker:job" "b" 4 9, .refreshed "locker:job" "a" 4,
      .acquired "locker:job" "a" 0 5] ∧
    Apart p.world.log ∧ strict.stored p.world "locker:job" = some "b" ∧
    ((clients strict).step p (.run 3 ⟨none, "", 0, none⟩)).returned 3 =
      some (.release .live lease, .settled (.error .leaseLost)) := by
  obtain ⟨-, hsettles, -, hapart⟩ := lock_exclusive strict 0 handover
  have hlost := hsettles 3 ⟨none, "", 0, none⟩ (.release .live ⟨"locker:job", "a"⟩) _ _
    (by decide +kernel) rfl rfl
  rw [if_neg (by decide +kernel)] at hlost
  exact ⟨by decide +kernel, hapart, by decide +kernel, hlost.1⟩

end Fries.Locker
