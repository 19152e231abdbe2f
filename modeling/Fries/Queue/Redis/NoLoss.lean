import Fries.Queue.Redis.Commands

/-! No task is lost: it is somewhere until a delivery of it is acknowledged. -/
namespace Fries.RedisQueue

open Fries.Queue Service.Contract

variable {codec : Codec} {q : Queue} {i j id : Nat} {w w' w'' : World} {name t : String}
  {o : Origin} {l : Label} {data m : Value} {task : Task}

abbrev Queue.copies (q : Queue) (w : World) (name : String) : Copies Origin :=
  (q.shelf w name).copies q.group w.acked

section Rules

variable {α : Type} {post : α → World → Prop}

theorem safe_call {c : Command} {k : Response c → Program α}
    (h : ∀ w', Rely codec q i w w' → Inv codec q w' → Allowed codec q i w' c ∧
      ∀ l, Later q w' (exec codec i l w' c).2 →
        (contract codec q).Safe i post (k (exec codec i l w' c).1) (exec codec i l w' c).2) :
    (contract codec q).Safe i post (.call c k) w := by
  intro w' l hr hi _
  obtain ⟨hc, hk⟩ := h w' hr hi
  obtain ⟨hinv, hguar⟩ := exec_keeps hi hc l
  exact ⟨trivial, hinv, hguar, hk l hguar.later⟩

/-- Sequencing, with a fact that later worlds keep. -/
theorem safe_seq {β : Type} {p : Program α} {f : α → Program β} {post' : β → World → Prop}
    {F : World → Prop} (hF : ∀ w w', F w → Later q w w' → F w') (hw : F w)
    (hp : (contract codec q).Safe i post p w)
    (hf : ∀ a w, post a w → F w → (contract codec q).Safe i post' (f a) w) :
    (contract codec q).Safe i post' (p >>= f) w := by
  have hrely : ∀ w w', F w → (contract codec q).Rely i w w' → F w' :=
    fun w w' h hr => hF w w' h (Rely.later hr)
  have hguar : ∀ w w', F w → (contract codec q).Guar i w w' → F w' :=
    fun w w' h hg => hF w w' h (Guar.later hg)
  have hframe := safe_frame hrely hguar hw hp
  exact safe_bind
    (safe_weaken (fun a w h => hf a w h.1 h.2) hframe)

end Rules

/-- The member is ready to be added by thread `i`. -/
def Ready (codec : Codec) (q : Queue) (i : Nat) (w : World) (m : Value) (o : Origin) : Prop :=
  m.Delays codec o ∧ ∃ t, m.Uses codec t ∧ (t, i) ∈ w.tokens ∧ Unused codec q w o.queue t

theorem unused_rely (h : Unused codec q w name t) (ht : (t, i) ∈ w.tokens)
    (hr : Rely codec q i w w') : Unused codec q w' name t := by
  intro e he hu
  obtain ⟨e', he', heq⟩ := hr.mine t ht name e he hu
  exact h e' he' (heq ▸ hu)

theorem ready_rely (h : Ready codec q i w m o) (hr : Rely codec q i w w') :
    Ready codec q i w' m o := by
  obtain ⟨hd, t, hu, ht, hnew⟩ := h
  exact ⟨hd, t, hu, hr.later.tokens _ ht, unused_rely hnew ht hr⟩

/-- A drawn token is the thread's own and new. -/
theorem random_ok (hw : Inv codec q w) (h : (exec codec i l w .random).1 = .ok t) :
    t.length = 32 ∧ (t, i) ∈ (exec codec i l w .random).2.tokens ∧
      ∀ name, Unused codec q (exec codec i l w .random).2 name t := by
  have he := exec_ok h (by intro err hf; cases hf)
  rw [he] at h ⊢
  simp only [apply] at h ⊢
  split at h
  · rename_i hnew
    obtain rfl : l.token = t := by simpa using h
    rw [if_pos hnew]
    refine ⟨hnew.1, List.mem_cons_self, ?_⟩
    intro name e hmem hu
    obtain ⟨t', ht', hu'⟩ := hw.drawn name e hmem
    exact hnew.2 (List.mem_map.mpr ⟨t', ht', token_eq hu' hu⟩)
  · cases h

theorem newDelayedEntry_safe (hd : data.Holds codec o) :
    (contract codec q).Safe i (fun r w => ∀ m, r = .ok m → Ready codec q i w m o)
      (Queue.newDelayedEntry codec data) w := by
  refine safe_call fun w₁ _ hi => ⟨trivial, fun l _ => ?_⟩
  cases hr : (exec codec i l w₁ .random).1 with
  | error err =>
    intro m hm
    cases hm
  | ok t =>
    obtain ⟨hlen, ht, hnew⟩ := random_ok hi hr
    refine safe_call fun w₂ hr₂ _ => ⟨trivial, fun l₂ _ => ?_⟩
    rw [exec_now]
    cases hm : codec.marshalEntry (t ++ "-" ++ toString (unixNano w₂.now)) data.bytes with
    | none =>
      simp only [Prog.bind, hm]
      intro m h
      cases h
    | some entry =>
      simp only [Prog.bind, hm]
      intro m h
      obtain rfl : ⟨entry, data.origin⟩ = m := Except.ok.inj h
      obtain ⟨ho, e, he, hcopy⟩ := hd
      exact ⟨⟨ho, data.bytes, e, codec.cjsonTask_entry hm, he, hcopy⟩, t, ⟨hlen, _, _, hm⟩,
        hr₂.later.tokens _ ht, unused_rely (hnew o.queue) ht hr₂⟩

/-- Some copy of the task comes after the entry `id`. -/
def Copied (q : Queue) (w : World) (o : Origin) (id : Nat) : Prop :=
  id ≤ (q.copies w o.queue).last ∧ (q.copies w o.queue).After o id

theorem copied_later (h : Copied q w o id) (hl : Later q w w') : Copied q w' o id :=
  ⟨Nat.le_trans h.1 (hl.copies _).last, (hl.copies _).after o id h.1 h.2⟩

theorem zadd_ok {score : Int} (hm : Ready codec q i w m o) (hid : id ≤ (q.copies w o.queue).last)
    (h : (exec codec i l w (.zadd (q.delayedKey o.queue) score m)).1 = .ok ()) :
    Copied q (exec codec i l w (.zadd (q.delayedKey o.queue) score m)).2 o id := by
  obtain ⟨hd, t, hu, -, hnew⟩ := hm
  have he := exec_ok h (by intro err hf; cases hf)
  have hw' : (exec codec i l w (.zadd (q.delayedKey o.queue) score m)).2 =
      w.setZset (q.delayedKey o.queue) (zinsert (score, m) (q.shelf w o.queue).zset) := by
    rw [he]
    exact zadd_eq (unused_bytes hu hnew) score
  rw [hw']
  have hshelf := (shelf_setZset q w o.queue o.queue
    (zinsert (score, m) (q.shelf w o.queue).zset)).trans (if_pos rfl)
  simp only [Copied, Queue.copies, hshelf]
  exact ⟨hid, .inl ⟨(score, m), mem_zinsert.mpr (.inl rfl), hd.1⟩⟩

theorem exec_xadd {key : String} {fields : List (String × Value)} {n : Nat}
    (h : (exec codec i l w (.xadd key 0 fields)).1 = .ok n) :
    (exec codec i l w (.xadd key 0 fields)).2 = w.setStream key
      { w.streams key with
        entries := (w.streams key).entries ++ [⟨(w.streams key).lastId + 1, fields⟩]
        lastId := (w.streams key).lastId + 1 } := by
  rw [exec_ok h (by intro err hf; cases hf)]
  rfl

theorem xadd_ok {fields : List (String × Value)} {n : Nat}
    (hf : (⟨0, fields⟩ : Entry).Holds codec o) (hid : id ≤ (q.copies w o.queue).last)
    (h : (exec codec i l w (.xadd (q.streamKey o.queue) 0 fields)).1 = .ok n) :
    Copied q (exec codec i l w (.xadd (q.streamKey o.queue) 0 fields)).2 o id := by
  rw [exec_xadd h]
  have hnew : (⟨(w.streams (q.streamKey o.queue)).lastId + 1, fields⟩ : Entry).Holds codec o := hf
  simp only [Copied, Queue.copies, shelf_setStream, if_true]
  refine ⟨Nat.le_succ_of_le hid, .inr ⟨(w.streams (q.streamKey o.queue)).lastId + 1, ?_, ?_⟩⟩
  · exact mem_copies_stream.mpr ⟨_, List.mem_concat_self, rfl,
      origin_of_holds hnew⟩
  · exact Nat.lt_succ_of_le hid

theorem marshal_holds (h : marshal codec task = some data) (hc : o.Copy task.toEnvelope)
    (ho : task.origin = o) : data.Holds codec o := by
  obtain ⟨b, hb, rfl⟩ := Option.map_eq_some_iff.mp h
  exact ⟨congrArg some ho, task.toEnvelope, codec.unmarshal_marshal hb, hc⟩

/-- A task whose `Enqueue` returned nil has a copy after every entry there was before. -/
theorem enqueue_safe (ho : task.origin = o) (hc : o.Copy task.toEnvelope.normalize)
    (hid : id ≤ (q.copies w o.queue).last) :
    (contract codec q).Safe i (fun r w' => r = .ok () → Copied q w' o id)
      (q.enqueue codec (some task)) w := by
  simp only [Queue.enqueue]
  cases hdata : marshal codec ⟨task.toEnvelope.normalize, task.origin⟩ with
  | none =>
    simp only
    intro h
    cases h
  | some data =>
    have hd : data.Holds codec o := marshal_holds hdata hc ho
    have hq : task.toEnvelope.normalize.queue = o.queue := copy_queue hc
    simp only [hq]
    refine safe_call fun w₁ hr₁ _ => ⟨trivial, fun l _ => ?_⟩
    have hid₁ := Nat.le_trans hid (hr₁.later.copies o.queue).last
    rw [exec_now]
    simp only [Prog.bind]
    split
    · -- the delayed set
      refine safe_seq (F := fun w => id ≤ (q.copies w o.queue).last)
        (fun w w' h hl => Nat.le_trans h (hl.copies o.queue).last) hid₁ (newDelayedEntry_safe hd) ?_
      intro r w₂ hready hid₂
      cases r with
      | error err =>
        intro h
        cases h
      | ok m =>
        refine safe_call fun w₃ hr₃ _ => ?_
        have hready₃ := ready_rely (hready m rfl) hr₃
        have hid₃ := Nat.le_trans hid₂ (hr₃.later.copies o.queue).last
        obtain ⟨hd₃, t, hu, ht, hnew⟩ := hready₃
        refine ⟨⟨o, t, rfl, hd₃, hu, ht, hnew⟩, fun l₃ _ => ?_⟩
        intro h
        cases hz : (exec codec i l₃ w₃
            (.zadd (q.delayedKey o.queue) (unixNano task.toEnvelope.normalize.availableAt) m)).1 with
        | error err =>
          rw [hz] at h
          cases h
        | ok u => exact zadd_ok ⟨hd₃, t, hu, ht, hnew⟩ hid₃ hz
    · -- the stream
      refine safe_call fun w₂ hr₂ _ => ⟨⟨o, .inl rfl, rfl, ⟨data, rfl, hd⟩⟩, fun l₂ _ => ?_⟩
      have hid₂ := Nat.le_trans hid₁ (hr₂.later.copies o.queue).last
      intro h
      cases hx : (exec codec i l₂ w₂ (.xadd (q.streamKey o.queue) 0 [(taskField, data)])).1 with
      | error err =>
        rw [hx] at h
        cases h
      | ok n => exact xadd_ok ⟨data, rfl, hd⟩ hid₂ hx

section Settle

variable {d : Delivery} {settlement : Settlement}

/-- A delivery carries a copy of its task and the id of an entry of that task. -/
def Handed (q : Queue) (w : World) (d : Delivery) : Prop :=
  d.task.origin.Copy d.task.toEnvelope ∧
    (d.streamID, d.task.origin) ∈ (q.copies w d.task.origin.queue).stream

theorem handed_later (h : Handed q w d) (hl : Later q w w') : Handed q w' d :=
  ⟨h.1, (hl.copies _).stream _ h.2⟩

/-- The task of the delivery is accounted for without its entry. -/
def Settled (q : Queue) (settlement : Settlement) (w : World) (d : Delivery) : Prop :=
  settlement = .ack ∨ (q.copies w d.task.origin.queue).dead d.task.origin ∨
    Copied q w d.task.origin d.streamID

theorem settled_later (h : Settled q settlement w d) (hl : Later q w w') :
    Settled q settlement w' d := by
  rcases h with h | h | h
  · exact .inl h
  · exact .inr (.inl ((hl.copies _).dead _ h))
  · exact .inr (.inr (copied_later h hl))

theorem ack_safe (hd : Handed q w d) (hs : Settled q settlement w d) :
    (contract codec q).Safe i (fun _ _ => True) (d.ack q settlement) w := by
  refine safe_call fun w₁ hr _ => ⟨?_, fun l _ => trivial⟩
  obtain ⟨hcopy, hmem⟩ := handed_later hd hr.later
  obtain ⟨e, he, hid, ho⟩ := mem_copies_stream.mp hmem
  have hwhy : settlement = .ack ∨ (q.copies w₁ d.task.origin.queue).dead d.task.origin ∨
      (q.copies w₁ d.task.origin.queue).After d.task.origin d.streamID := by
    rcases settled_later hs hr.later with h | h | h
    · exact .inl h
    · exact .inr (.inl h)
    · exact .inr (.inr h.2)
  exact ⟨d.task.origin, e, by rw [copy_queue hcopy], rfl, he, hid, ho, hwhy⟩

theorem retry_safe (hd : Handed q w d) (delay : Int) :
    (contract codec q).Safe i (fun _ _ => True) (d.retry codec q delay) w := by
  refine safe_call fun w₁ hr hi => ⟨trivial, fun l _ => ?_⟩
  rw [exec_now]
  simp only [Prog.bind]
  have hd₁ := handed_later hd hr.later
  have hid : d.streamID ≤ (q.copies w₁ d.task.origin.queue).last :=
    (hi.good _).sound.bounded _ hd₁.2
  have hcopy : d.task.origin.Copy
      ({ d.task.toEnvelope with availableAt := w₁.now + delay } : Envelope).normalize := by
    have := copy_update hd₁.1 d.task.attempt (w₁.now + delay)
    rw [copy_normalize this]
    exact this
  refine safe_seq (F := fun w => Handed q w d) (fun _ _ => handed_later) hd₁
    (enqueue_safe rfl hcopy hid) ?_
  intro r w₂ hcopied hd₂
  cases r with
  | error err => trivial
  | ok u => exact ack_safe hd₂ (.inr (.inr (hcopied rfl)))

theorem xaddDead_ok {l : Label} {fields : List (String × Value)} {n : Nat}
    (hf : (⟨0, fields⟩ : Entry).Holds codec o)
    (h : (exec codec i l w (.xadd (q.deadLetterKey o.queue) 0 fields)).1 = .ok n) :
    (q.copies (exec codec i l w (.xadd (q.deadLetterKey o.queue) 0 fields)).2 o.queue).dead o := by
  have hnew : (⟨(w.streams (q.deadLetterKey o.queue)).lastId + 1, fields⟩ : Entry).Holds codec o := hf
  rw [exec_xadd h]
  simp only [Queue.copies, shelf_setDead, if_true]
  exact ⟨_, List.mem_concat_self, origin_of_holds hnew⟩

theorem deadLetter_safe (hmax : q.deadLetterMaxLen = 0) (hd : Handed q w d) (reason : String) :
    (contract codec q).Safe i (fun _ _ => True) (d.deadLetter codec q reason) w := by
  simp only [Delivery.deadLetter, hmax]
  cases hdata : marshal codec d.task with
  | none => trivial
  | some data =>
    have hholds : (⟨0, [(taskField, data), (deadReasonField, ⟨reason, none⟩)]⟩ : Entry).Holds codec
        d.task.origin := ⟨data, rfl, marshal_holds hdata hd.1 rfl⟩
    simp only [copy_queue hd.1]
    refine safe_call fun w₁ hr _ => ⟨⟨d.task.origin, .inr rfl, rfl, hholds⟩, fun l hl => ?_⟩
    cases hx : (exec codec i l w₁ (.xadd (q.deadLetterKey d.task.origin.queue) 0
        [(taskField, data), (deadReasonField, ⟨reason, none⟩)])).1 with
    | error err => trivial
    | ok n =>
      exact ack_safe (handed_later (handed_later hd hr.later) hl) (.inr (.inl (xaddDead_ok hholds hx)))

end Settle

section Receive

variable {message : Entry} {consumer : String}

/-- The message is an entry of the stream with a copy of a task of this queue. -/
def Known (codec : Codec) (q : Queue) (w : World) (name : String) (message : Entry) : Prop :=
  ∃ o, message.Holds codec o ∧ o.queue = name ∧ (message.id, o) ∈ (q.copies w name).stream

theorem known_of_mem (hw : Inv codec q w) (hm : message ∈ (w.streams (q.streamKey name)).entries) :
    Known codec q w name message := by
  obtain ⟨o, ho, hq⟩ := (hw.good name).wf.streamed message hm
  exact ⟨o, ho, hq, mem_copies_stream.mpr ⟨message, hm, rfl, origin_of_holds ho⟩⟩

theorem known_later (h : Known codec q w name message) (hl : Later q w w') :
    Known codec q w' name message := by
  obtain ⟨o, ho, hq, hm⟩ := h
  exact ⟨o, ho, hq, (hl.copies name).stream _ hm⟩

/-- A known message is well formed, and its lease carries its task. -/
theorem lease_ok (h : Known codec q w name message) (count : Int) :
    ∃ d, leaseFromMessageWithDeliveryCount codec message count = .ok d ∧ Handed q w d := by
  obtain ⟨o, ⟨v, hv, ho, e, he, hcopy⟩, rfl, hm⟩ := h
  refine ⟨⟨⟨{ e with attempt := attemptWithDeliveryCount e.attempt count }, o⟩, message.id⟩, ?_, ?_⟩
  · simp only [leaseFromMessageWithDeliveryCount, hv, unmarshal, he, ho, Option.map_some,
      Option.getD_some]
  · exact ⟨copy_update hcopy _ e.availableAt, hm⟩

/-- A message is never found malformed, and what is leased was handed out. -/
def Leased (q : Queue) (w : World) (r : Except Error (Option Delivery)) : Prop :=
  (∀ d, r = .ok (some d) → Handed q w d) ∧ ∀ id text, r ≠ .error (.malformed id text)

theorem leased_none : Leased q w (.ok none) := by
  refine ⟨?_, ?_⟩
  · intro d hd
    cases hd
  · intro id text he
    cases he

theorem leased_redis (err : RedisError) : Leased q w (.error (.redis err)) := by
  refine ⟨?_, ?_⟩
  · intro d hd
    cases hd
  · intro id text he
    cases he

theorem leased_message (h : Known codec q w name message) (count : Int) :
    Leased q w ((leaseFromMessageWithDeliveryCount codec message count).map some) := by
  obtain ⟨d, hd, hh⟩ := lease_ok h count
  rw [hd]
  refine ⟨?_, ?_⟩
  · intro d' hd'
    obtain rfl : d = d' := Option.some.inj (Except.ok.inj hd')
    exact hh
  · intro id text he
    cases he

theorem leaseClaimed_safe (r : Except RedisError (List Entry))
    (hk : ∀ message rest, r = .ok (message :: rest) → Known codec q w name message) :
    (contract codec q).Safe i (fun r w => Leased q w r) (q.leaseClaimed codec name r) w := by
  rcases r with err | _ | ⟨message, rest⟩
  · cases err <;> first | exact leased_none | exact leased_redis _
  · exact leased_none
  refine safe_call fun w₁ hr _ => ⟨trivial, fun l hl => ?_⟩
  have hknown := known_later (known_later (hk message rest rfl) hr.later) hl
  rcases hp : (exec codec i l w₁ (.xpendingId (q.streamKey name) q.group message.id)).1 with
    err | _ | ⟨p, rest⟩
  · cases err <;> first | exact leased_redis _ | exact leased_message hknown 0
  · exact leased_message hknown 0
  · exact leased_message hknown p.count

theorem claimPendingForConsumer_safe (minIdle : Int) :
    (contract codec q).Safe i (fun r w => Leased q w r)
      (q.claimPendingForConsumer codec name consumer minIdle) w := by
  refine claimPendingForConsumer_of_parts (fun _ => True)
    (fun message w => Known codec q w name message) ?_ ?_ ?_ ?_ (fun _ _ => leased_none)
    (fun err _ _ => leased_redis err) trivial
  · intro w _
    refine safe_call fun w₁ _ hi => ⟨⟨⟨name, rfl⟩, rfl⟩, fun l hl => ⟨trivial, ?_⟩⟩
    intro message rest hm
    exact known_later (known_of_mem hi (messages_mem.1 _ hm)) hl
  · intro w _
    exact safe_call fun w₁ _ _ => ⟨trivial, fun l _ => trivial⟩
  · intro id w _
    refine safe_call fun w₁ _ hi => ⟨⟨⟨name, rfl⟩, rfl⟩, fun l hl => ⟨trivial, ?_⟩⟩
    intro message rest hm
    exact known_later (known_of_mem hi (messages_mem.2.1 _ _ hm)) hl
  · intro r w _ hknown
    exact leaseClaimed_safe r hknown

/-- A delivery that is returned was handed out. -/
def Received (q : Queue) (w : World) (r : Except Error Delivery) : Prop :=
  ∀ d, r = .ok d → Handed q w d

theorem received_error (err : Error) : Received q w (.error err) := by
  intro d hd
  cases hd

theorem readNew_safe :
    (contract codec q).Safe i (fun r w => Received q w r) (q.readNew codec name consumer) w := by
  refine safe_call fun w₁ _ hi => ⟨⟨⟨name, rfl⟩, rfl⟩, fun l hl => ?_⟩
  rcases hm : (exec codec i l w₁ (.xreadgroup (q.streamKey name) q.group consumer)).1 with
    err | _ | ⟨message, rest⟩
  · cases err <;> exact received_error _
  · exact received_error _
  · have hknown := known_later (known_of_mem hi (messages_mem.2.2 hm)) hl
    obtain ⟨d, hd, hh⟩ := lease_ok hknown 0
    have hlease : leaseFromMessage codec message = .ok d := hd
    simp only [Prog.bind, hlease]
    intro d' hd'
    obtain rfl : d = d' := Except.ok.inj hd'
    exact hh

theorem receiveForConsumer_safe :
    (contract codec q).Safe i (fun r w => Received q w r)
      (q.receiveForConsumer codec name consumer) w := by
  refine receiveForConsumer_of_parts (fun _ => True) ?_
    (fun w _ => claimPendingForConsumer_safe q.claimMinIdle) (fun w _ => readNew_safe)
    (fun err w _ => received_error err) ?_ (fun _ _ => trivial) ?_ trivial
  · intro w _
    refine safe_call fun w₁ _ _ => ⟨trivial, fun l _ => ?_⟩
    exact safe_call fun w₂ _ _ => ⟨⟨name, rfl, rfl, rfl⟩, fun l₂ _ => trivial⟩
  · intro err w hleased
    cases err with
    | malformed id text => exact absurd rfl (hleased.2 id text)
    | _ => exact received_error _
  · intro d w hleased d' hd'
    obtain rfl : d = d' := Except.ok.inj hd'
    exact hleased.1 d rfl

theorem receive_safe (c : Consumer) (rounds : Nat) :
    (contract codec q).Safe i (fun r w => ∀ d, r = some (.ok d) → Handed q w d)
      (q.receive codec c rounds) w :=
  receive_of_round (fun _ => True) (fun _ _ => receiveForConsumer_safe) (fun d _ hr => hr d rfl)
    (fun _ _ => trivial) rounds trivial

end Receive

/-- What holds when a call has returned. -/
def Returned (q : Queue) (call : Call) (i : Nat) : Outcome → World → Prop
  | .enqueued r, w => ∀ e, call = .enqueue (some e) → r = .ok () → Copied q w ⟨i, e⟩ 0
  | .received r, w => ∀ d, r = some (.ok d) → Handed q w d
  | _, _ => True

theorem returned_stable (call : Call) (i : Nat) :
    (contract codec q).Stable i (Returned q call i) := by
  intro r w w' h hr _
  have hl : Later q w w' := Rely.later hr
  cases r with
  | enqueued r => exact fun e hc hok => copied_later (h e hc hok) hl
  | received r => exact fun d hd => handed_later (h d hd) hl
  | consumer r => trivial
  | settled r => trivial

theorem newConsumer_safe (ctx : Option RedisError) (config : ConsumerConfig) :
    (contract codec q).Safe i (fun _ _ => True) (q.newConsumer ctx config) w := by
  cases ctx with
  | some err => trivial
  | none =>
    refine safe_call fun w₁ _ _ => ⟨⟨⟨_, rfl⟩, rfl⟩, fun l _ => ?_⟩
    rcases (exec codec i l w₁ (.xgroupCreate (q.streamKey config.normalize.queue) q.group)).1 with
      err | u
    · cases err <;> trivial
    · trivial

/-- Every call starts safe. -/
theorem start_safe (hmax : q.deadLetterMaxLen = 0)
    {p : Pool World Call Command Response Outcome} (hp : (contract codec q).SafePool (Returned q) p)
    {call : Call} {prog : Program Outcome} (h : start codec q call p.threads = some prog) :
    (contract codec q).Safe p.threads.length (Returned q call p.threads.length) prog p.world := by
  have hdel : ∀ {j d}, delivered p.threads j = some d → Handed q p.world d := by
    intro j d hd
    unfold delivered at hd
    split at hd
    · rename_i call' d' hj
      obtain rfl : d' = d := Option.some.inj hd
      exact hp.safe j _ hj d' rfl
    · cases hd
  cases call with
  | enqueue task =>
    obtain rfl := Option.some.inj h
    apply safe_map
    cases task with
    | none =>
      intro e he
      cases he
    | some e =>
      refine safe_weaken ?_
        (enqueue_safe (o := ⟨p.threads.length, e⟩) rfl ?_ (Nat.zero_le _))
      · intro r w hr e' he' hok
        obtain rfl : e = e' := by simpa using he'
        exact hr hok
      · rfl
  | newConsumer ctx config =>
    obtain rfl := Option.some.inj h
    exact safe_map (newConsumer_safe ctx config)
  | receive consumer rounds =>
    obtain rfl := Option.some.inj h
    apply safe_map
    exact receive_safe consumer rounds
  | ack j =>
    obtain ⟨d, hd, rfl⟩ := Option.map_eq_some_iff.mp h
    exact safe_map (ack_safe (hdel hd) (.inl rfl))
  | retry j delay =>
    obtain ⟨d, hd, rfl⟩ := Option.map_eq_some_iff.mp h
    exact safe_map (retry_safe (hdel hd) delay)
  | deadLetter j reason =>
    obtain ⟨d, hd, rfl⟩ := Option.map_eq_some_iff.mp h
    exact safe_map (deadLetter_safe hmax (hdel hd) reason)

/-- A copy of the task waits for its time, lies in the stream beyond the group's cursor or in
its pending list, or is dead-lettered, in the places of the task's own queue. -/
def Found (codec : Codec) (q : Queue) (w : World) (o : Origin) : Prop :=
  (∃ m ∈ w.zsets (q.delayedKey o.queue), m.2.Delays codec o) ∨
    (∃ e ∈ (w.streams (q.streamKey o.queue)).entries, e.Holds codec o ∧
      (w.streams (q.streamKey o.queue)).cursor q.group < e.id) ∨
    (∃ e ∈ (w.streams (q.streamKey o.queue)).entries, e.Holds codec o ∧
      ∃ p ∈ (w.streams (q.streamKey o.queue)).pending q.group, p.id = e.id) ∨
    ∃ e ∈ (w.streams (q.deadLetterKey o.queue)).entries, e.Holds codec o

theorem holds_of_origin {e : Entry} (h : ∃ o', e.Holds codec o') (ho : e.origin = some o) :
    e.Holds codec o := by
  obtain ⟨o', ho'⟩ := h
  obtain rfl : o' = o := Option.some.inj ((origin_of_holds ho').symm.trans ho)
  exact ho'

theorem found_of_kept (hw : Inv codec q w) (h : (q.copies w o.queue).Kept o) :
    o ∈ w.acked ∨ Found codec q w o := by
  have hgood := hw.good o.queue
  rcases h with ha | ⟨e, he, ho⟩ | ⟨m, hm, ho⟩ | ⟨id, hmem, hlive, -⟩
  · exact .inl ha
  · exact .inr (.inr (.inr (.inr ⟨e, he, holds_of_origin (hgood.wf.buried e he) ho⟩)))
  · obtain ⟨o', hd, -⟩ := hgood.wf.waiting m hm
    obtain rfl : o' = o := Option.some.inj (hd.1.symm.trans ho)
    exact .inr (.inl ⟨m, hm, hd⟩)
  · obtain ⟨e, he, rfl, ho⟩ := mem_copies_stream.mp hmem
    obtain ⟨o', ho', -⟩ := hgood.wf.streamed e he
    have hholds := holds_of_origin ⟨o', ho'⟩ ho
    rcases hlive with hl | hl
    · exact .inr (.inr (.inl ⟨e, he, hholds, hl⟩))
    · exact .inr (.inr (.inr (.inl ⟨e, he, hholds, hl⟩)))

theorem empty_inv (now : Int) : Inv codec q (World.empty now) := by
  refine ⟨fun name => ⟨⟨?_, ?_, ?_, ?_, ?_, ?_⟩, ⟨?_, ?_, ?_⟩⟩, ?_, ?_⟩ <;>
    simp [World.empty, Queue.shelf, Stream.cursor, Shelf.copies, Copies.Present]

/-- However producers, consumers and failures interleave: a task whose `Enqueue` returned nil
is found, unless a delivery of it was settled by `Ack`. -/
theorem enqueued_task_found (codec : Codec) (hmax : q.deadLetterMaxLen = 0) (now : Int)
    (actions : List (Action Label Int Call)) {i : Nat} {e : Envelope}
    (h : ((service codec q).run ⟨World.empty now, []⟩ actions).returned i =
      some (.enqueue (some e), .enqueued (.ok ()))) :
    let w := ((service codec q).run ⟨World.empty now, []⟩ actions).world
    ⟨i, e⟩ ∈ w.acked ∨ Found codec q w ⟨i, e⟩ := by
  intro w
  have hpool := safePool_of_run (contract codec q) (Returned q) returned_stable
    (fun p call prog hp hs => start_safe hmax hp hs)
    (safePool_nil (empty_inv now) fun _ => trivial) actions
    (Service.meets_of_forall (fun _ _ _ => trivial) _ _)
  have hcopied : Copied q w ⟨i, e⟩ 0 := hpool.safe i _ (returned_eq_some.mp h) e rfl rfl
  exact found_of_kept hpool.inv
    ((hpool.inv.good _).sound.kept _ (Copies.present_of_after hcopied.2))

/-- A consumer that stops halfway through dead-lettering. -/
theorem enqueued_task_found_after_crash :
    let e : Envelope := ⟨"1", "mail", "", [], [], 0, 0, 0⟩
    let table := [({ e with queue := "default" }, "json 0"),
      ({ e with queue := "default", attempt := 1 }, "json 1")]
    let codec := Codec.ofTable table (by decide)
    let q : Queue := ⟨"queue", "queue", "worker", 100, 0, 0⟩
    let ok : Label := ⟨.none, "", 0⟩
    let actions : List (Action Label Int Call) :=
      [.spawn (.enqueue (some e)), .run 0 ok, .run 0 ok,
        .spawn (.newConsumer none ⟨"", ""⟩), .run 1 ok,
        .spawn (.receive ⟨"default", "worker"⟩ 1), .run 2 ok, .run 2 ok, .run 2 ok,
        .spawn (.deadLetter 2 "no"), .run 3 ok]
    let w := ((service codec q).run ⟨World.empty 0, []⟩ actions).world
    (⟨0, e⟩ ∈ w.acked ∨ Found codec q w ⟨0, e⟩) ∧ ⟨0, e⟩ ∉ w.acked := by
  intro e table codec q ok actions w
  exact ⟨enqueued_task_found codec rfl 0 actions (by decide +kernel), by decide +kernel⟩

end Fries.RedisQueue
