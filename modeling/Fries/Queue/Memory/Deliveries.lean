import Fries.Queue.Memory.Places

/-! Producers and worker loops over the in-memory queue, in every interleaving. -/
namespace Fries.MemoryQueue

open Fries.Queue Service.Contract

variable {limit : Int} {s s' : World × List HandlerEvent} {i phase : Nat} {t : Task}
  {p : Pool (World × List HandlerEvent) Call (Command ⊕ WorkerCommand) (Sum.elim Response
    WorkerResponse) Outcome}

def contract (limit : Int) : (workers limit).Contract where
  Inv := Inv limit
  Rely := Rely
  Guar i s s' := ∀ j, j ≠ i → Rely j s s'
  Unused i s := ∀ o, o.call = i → s.1.tally o = 0
  Ok _ _ _ := True
  Issue _ _ _ := True
  rely_refl := rely_refl
  rely_trans _ _ _ _ := rely_trans
  rely_of_guar _ _ _ _ hij _ h := h _ hij
  inv_shift _ _ h := { h with }
  rely_shift elapsed _ _ _ := ⟨Int.le_add_of_nonneg_right (Int.natCast_nonneg elapsed),
    fun _ h => ⟨h, rfl⟩, fun _ _ => rfl⟩
  unused_rely i s s' h hr := by
    intro o ho
    exact (Rely.own hr o ho).trans (h o ho)

/-- Thread `i` holds a delivery whose handler is in some phase. -/
def Holds (i : Nat) (t : Task) (phase : Nat) (s : World × List HandlerEvent) : Prop :=
  (i, t) ∈ s.1.inflight ∧ InPhase s.2 t phase

theorem holds_rely (h : Holds i t phase s) (hr : Rely i s s') : Holds i t phase s' := by
  obtain ⟨hmem, k, hk, htrace⟩ := h
  obtain ⟨hmem', htrace'⟩ := hr.mine t hmem
  exact ⟨hmem', k, hk, htrace'.trans htrace⟩

section Rules

variable {α : Type} {post : α → World × List HandlerEvent → Prop}

theorem safe_queue {c : Command} {k : Response c → WorkerProgram Command Response α}
    (h : ∀ s', Rely i s s' → Inv limit s' → ∀ wake,
      Keeps limit i s' ((exec i wake s'.1 c).2, s'.2) ∧
        (contract limit).Safe i post (k (exec i wake s'.1 c).1) ((exec i wake s'.1 c).2, s'.2)) :
    (contract limit).Safe i post (.call (.inl c) k) s := by
  intro s' l hr hi _
  obtain ⟨hkeeps, hk⟩ := h s' hr hi l.1
  exact ⟨trivial, hkeeps.1, hkeeps.2, hk⟩

theorem safe_worker {c : WorkerCommand} {k : WorkerResponse c → WorkerProgram Command Response α}
    (h : ∀ s', Rely i s s' → Inv limit s' → ∀ l,
      Keeps limit i s' (s'.1, (workerExec i l s'.1 s'.2 c).2) ∧
        (contract limit).Safe i post (k (workerExec i l s'.1 s'.2 c).1)
          (s'.1, (workerExec i l s'.1 s'.2 c).2)) :
    (contract limit).Safe i post (.call (.inr c) k) s := by
  intro s' l hr hi _
  obtain ⟨hkeeps, hk⟩ := h s' hr hi l.2
  exact ⟨trivial, hkeeps.1, hkeeps.2, hk⟩

end Rules

theorem ack_safe (h : Holds i t phase s) :
    (contract limit).Safe i (fun _ _ => True) (delivery none t).ack.lift s := by
  refine safe_queue fun s₁ hr hi _ => ⟨?_, trivial⟩
  exact ack_keeps hi (holds_rely h hr).1

theorem retry_safe (h : Holds i t 2 s) (hlimit : t.attempt < limit) (delay : Int) :
    (contract limit).Safe i (fun _ _ => True) ((delivery none t).retry delay).lift s := by
  refine safe_queue fun s₁ hr₁ hi₁ _ => ⟨keeps_refl hi₁, ?_⟩
  refine safe_queue fun s₂ hr₂ hi₂ _ => ⟨?_, trivial⟩
  have hh := holds_rely (holds_rely h hr₁) hr₂
  have hqueue : t.queue ≠ "" := by
    rw [hi₂.carried _ hh.1]
    exact queue_ne_empty _
  refine retry_keeps hi₂ hh.1 hh.2 hlimit ?_ ?_ ?_ <;>
    simp [exec, Envelope.normalize, hqueue]

theorem deadLetter_safe (h : Holds i t phase s) (reason : String) :
    (contract limit).Safe i (fun _ _ => True) ((delivery none t).deadLetter reason).lift s := by
  refine safe_queue fun s₁ hr hi _ => ⟨?_, trivial⟩
  exact bury_keeps hi (holds_rely h hr).1 rfl rfl

theorem settle_safe (c : WorkerConfig) (hc : c.maxAttempts = limit) (h : Holds i t 2 s)
    (result : Option HandlerError) :
    (contract limit).Safe i (fun _ _ => True) (settle (delivery none t) (c.decide t result)) s := by
  cases hd : c.decide t result with
  | ack => exact ack_safe h
  | retry delay => exact retry_safe h (hc ▸ decide_retry hd) delay
  | deadLetter reason => exact deadLetter_safe h reason

theorem process_safe (c : WorkerConfig) (hc : c.maxAttempts = limit) (h : Holds i t 0 s) :
    (contract limit).Safe i (fun _ _ => True) (process c (delivery none t)) s := by
  unfold process
  split
  · refine safe_worker fun s₁ hr₁ hi₁ l => ?_
    have h₁ := holds_rely h hr₁
    have hstart : Holds i t 1 (s₁.1, s₁.2 ++ [⟨t, true⟩]) := ⟨h₁.1, inPhase_start h₁.2⟩
    refine ⟨event_keeps hi₁ h₁.1 hstart.2 (by omega), ?_⟩
    refine safe_worker fun s₂ hr₂ hi₂ l₂ => ?_
    have h₂ := holds_rely hstart hr₂
    have hfinish : Holds i t 2 (s₂.1, s₂.2 ++ [⟨t, false⟩]) := ⟨h₂.1, inPhase_finish h₂.2⟩
    exact ⟨event_keeps hi₂ h₂.1 hfinish.2 (by omega), settle_safe c hc hfinish _⟩
  · exact deadLetter_safe h errHandlerNotFound

/-- A task that is taken was waiting, so its handler is to be started. -/
theorem next_holds (hs : Inv limit s) {name : String} {now wait : Int}
    (h : (s.1.next i name now).1 = (some t, wait)) : Holds i t 0 ((s.1.next i name now).2, s.2) := by
  unfold World.next at h ⊢
  split at h
  · cases h
  · rename_i task others delay hscan
    obtain ⟨rfl, -⟩ : { task with attempt := task.attempt + 1 } = t ∧ _ := by simpa using h
    obtain ⟨k, hk, htrace, -⟩ :=
      hs.waits name task ((scan_perm hscan).1.mem_iff.mpr List.mem_cons_self)
    exact ⟨List.mem_cons_self, k, by simp only; omega, htrace⟩

/-- What a thread receives it holds. -/
theorem receive_safe (name : String) (waits : Nat) :
    (contract limit).Safe i (fun r s => ∀ d, r = some (.ok (some d)) →
      ∃ t, d = delivery none t ∧ Holds i t 0 s) (receive none name waits).lift s := by
  induction waits generalizing s with
  | zero =>
    intro d hd
    cases hd
  | succ waits ih =>
    refine safe_queue fun s₁ _ hi₁ _ => ⟨keeps_refl hi₁, ?_⟩
    refine safe_queue fun s₂ hr₂ hi₂ _ => ⟨next_keeps hi₂ name hr₂.now, ?_⟩
    simp only [exec]
    rcases hfound : (s₂.1.next i name s₁.1.now).1 with ⟨_ | task, wait⟩
    · refine safe_queue fun s₃ _ hi₃ wake => ⟨keeps_refl hi₃, ?_⟩
      cases wake with
      | done err | closed =>
        intro d hd
        cases hd
      | again => exact ih
    · intro d hd
      obtain rfl : delivery none task = d := by simpa using hd
      exact ⟨task, rfl, next_holds hi₂ hfound⟩

theorem harmless (limit : Int) (i : Nat) : Harmless (contract limit) i := by
  rintro c s l (rfl | rfl) hs <;> exact ⟨trivial, hs, fun j _ => rely_refl j s⟩

/-- A task whose `Enqueue` returned nil is in one place. -/
theorem enqueue_safe (ctx : Option CtxError) (e : Envelope) (hnew : s.1.tally ⟨i, e⟩ = 0) :
    (contract limit).Safe i (fun r s => r = .ok () → s.1.tally ⟨i, e⟩ = 1)
      (enqueue ctx (some ⟨e, ⟨i, e⟩⟩) none).lift s := by
  cases ctx with
  | some err =>
    intro h
    cases h
  | none =>
    refine safe_queue fun s₁ hr hi _ => ?_
    have hnew₁ : s₁.1.tally ⟨i, e⟩ = 0 := (hr.own _ rfl).trans hnew
    refine ⟨append_keeps hi rfl hnew₁ (normalize_attempt e) rfl, ?_⟩
    intro _
    let task : Task := ⟨e.normalize, ⟨i, e⟩⟩
    have htally := tally_append s₁.1 ⟨i, e⟩ (show task.queue = task.origin.queue from rfl)
    rw [hnew₁, if_pos rfl] at htally
    exact htally

def Returned (call : Call) (i : Nat) : Outcome → World × List HandlerEvent → Prop
  | .enqueued (.ok ()), s => ∀ ctx e, call = .enqueue ctx (some e) → s.1.tally ⟨i, e⟩ = 1
  | _, _ => True

theorem returned_stable (call : Call) (i : Nat) : (contract limit).Stable i (Returned call i) := by
  intro r s s' h hr _
  rcases r with (err | u) | r
  · trivial
  · exact fun ctx e hc => (Rely.own hr _ rfl).trans (h ctx e hc)
  · trivial

theorem start_safe {call : Call} {prog : WorkerProgram Command Response Outcome}
    (h : start limit call p.threads = some prog)
    (hunused : ∀ o, o.call = p.threads.length → p.world.1.tally o = 0) :
    (contract limit).Safe p.threads.length (Returned call p.threads.length) prog p.world := by
  cases call with
  | enqueue ctx task =>
    obtain rfl := Option.some.inj h
    apply safe_map
    cases task with
    | none =>
      cases ctx with
      | some err => trivial
      | none =>
        intro ctx e he
        cases he
    | some e =>
      refine safe_weaken ?_ (enqueue_safe ctx e (hunused _ rfl))
      intro r s hr
      cases r with
      | error err => trivial
      | ok u =>
        intro ctx' e' he'
        obtain ⟨-, rfl⟩ : ctx = ctx' ∧ e = e' := by simpa using he'
        exact hr rfl
  | worker ctx config n waits =>
    simp only [start] at h
    split at h
    · rename_i hc
      obtain rfl := Option.some.inj h
      refine safe_map (safe_weaken (fun _ _ _ => trivial)
        (loop_safe (harmless limit _) (fun _ => by cases ctx <;> trivial)
          (fun name _ => receive_safe name waits) ?_ n _))
      rintro d s ⟨t, rfl, hheld⟩
      exact process_safe config hc hheld
    · cases h

theorem empty_inv (limit now : Int) : Inv limit (World.empty now, []) := by
  refine ⟨?_, ?_, ?_, ?_, ?_, ?_, fun o => ⟨0, rfl, .inl (by omega)⟩, fun _ _ => rfl, ?_⟩ <;>
    simp [World.empty, World.tally]

/-- The task of an `Enqueue` that returned nil. -/
def accepted (p : Pool (World × List HandlerEvent) Call (Command ⊕ WorkerCommand)
    (Sum.elim Response WorkerResponse) Outcome) (i : Nat) : Option Envelope :=
  match p.threads[i]? with
  | some ⟨.enqueue _ (some e), .ret (.enqueued (.ok ()))⟩ => some e
  | _ => none

end Fries.MemoryQueue
