import Fries.Queue.Redis.Ledger

/-! The `Attempt`s of the deliveries of one entry rise, unless a count is read too late. -/
namespace Fries.RedisQueue

open Fries.Queue Service.Contract

/-- A thread that has no count yet may only read the counter of a record it holds itself. -/
def attemptRules (i : Nat) : Rules where
  add _ := True
  claim _ _ := True
  count s p := p.holder = i ∧ ∀ g ∈ s.grants, g.thread ≠ i

namespace Ledger

variable {i j count id : Nat} {s s' s'' : Ledger} {given : List Grant} {g : Grant} {R : Rules}

/-- The counts given out for an entry rise, up to its counter; whoever has the counter's value
holds the entry. -/
structure Rising (s : Ledger) : Prop where
  tidy : s.Tidy
  read : ∀ g ∈ s.grants, g.id ≤ s.cursor
  positive : ∀ g ∈ s.grants, 0 < g.count
  below : ∀ p ∈ s.pending, ∀ g ∈ s.grants, g.id = p.id → g.count < p.count ∨
    g.count = p.count ∧ g.thread = p.holder
  rising : s.grants.Pairwise fun g g' => g.id = g'.id → g.count < g'.count

theorem gives_mem (h : Gives i id count given) (hg : g ∈ given) :
    g.id = id ∧ g.thread = i ∧ g.count = count := by
  rcases h with rfl | ⟨key, rfl⟩
  · simp at hg
  · obtain rfl := List.mem_singleton.mp hg
    exact ⟨rfl, rfl, rfl⟩

theorem gives_pairwise (h : Gives i id count given) (r : Grant → Grant → Prop) :
    given.Pairwise r := by
  rcases h with rfl | ⟨key, rfl⟩
  · exact .nil
  · exact List.pairwise_singleton _ _

/-- A count above all counts of its entry can be given out. -/
theorem rising_give (hs : s.Rising) (hgiven : Gives i id count given)
    (habove : ∀ g ∈ s.grants, g.id = id → g.count < count) :
    (s.grants ++ given).Pairwise fun g g' => g.id = g'.id → g.count < g'.count := by
  refine List.pairwise_append.mpr ⟨hs.rising, gives_pairwise hgiven _, ?_⟩
  intro g hg g' hg' hid
  obtain ⟨hid', -, hcount⟩ := gives_mem hgiven hg'
  rw [hcount]
  exact habove g hg (hid.trans hid')

theorem rising_read (hs : s.Rising) {e : Entry} {consumer : String} {now : Int} (he : e ∈ s.entries)
    (hnew : s.cursor < e.id) (hgiven : Gives i e.id 1 given) :
    ({ s with
        cursor := e.id
        pending := s.pending ++ [⟨e.id, consumer, now, 1, i⟩]
        grants := s.grants ++ given } : Ledger).Rising := by
  -- no count was given out for an entry beyond the cursor
  have hnone : ∀ g ∈ s.grants, g.id ≠ e.id := by
    intro g hg hid
    have := hs.read g hg
    omega
  refine ⟨tidy_read hs.tidy he hnew rfl Nat.one_pos given, ?_, ?_, ?_,
    rising_give hs hgiven fun g hg hid => absurd hid (hnone g hg)⟩
  · intro g hg
    rcases List.mem_append.mp hg with hg | hg
    · exact Nat.le_of_lt (Nat.lt_of_le_of_lt (hs.read g hg) hnew)
    · exact Nat.le_of_eq (gives_mem hgiven hg).1
  · intro g hg
    rcases List.mem_append.mp hg with hg | hg
    · exact hs.positive g hg
    · rw [(gives_mem hgiven hg).2.2]
      exact Nat.one_pos
  · intro p hp g hg hid
    rcases List.mem_append.mp hp with hp | hp <;> rcases List.mem_append.mp hg with hg | hg
    · exact hs.below p hp g hg hid
    · have := hs.tidy.behind p hp
      have := (gives_mem hgiven hg).1
      omega
    · obtain rfl := List.mem_singleton.mp hp
      exact absurd hid (hnone g hg)
    · obtain rfl := List.mem_singleton.mp hp
      obtain ⟨-, hthread, hcount⟩ := gives_mem hgiven hg
      exact .inr ⟨hcount, hthread⟩

theorem rising_count (hs : s.Rising) {p : Pending} (hp : p ∈ s.pending) (hheld : p.holder = i)
    (hfresh : ∀ g ∈ s.grants, g.thread ≠ i) (hgiven : Gives i p.id p.count given) :
    ({ s with grants := s.grants ++ given } : Ledger).Rising := by
  have habove : ∀ g ∈ s.grants, g.id = p.id → g.count < p.count := by
    intro g hg hid
    rcases hs.below p hp g hg hid with hlt | ⟨-, hthread⟩
    · exact hlt
    · exact absurd (hthread.trans hheld) (hfresh g hg)
  refine ⟨{ hs.tidy with }, ?_, ?_, ?_, rising_give hs hgiven habove⟩
  · intro g hg
    rcases List.mem_append.mp hg with hg | hg
    · exact hs.read g hg
    · rw [(gives_mem hgiven hg).1]
      exact hs.tidy.behind p hp
  · intro g hg
    rcases List.mem_append.mp hg with hg | hg
    · exact hs.positive g hg
    · rw [(gives_mem hgiven hg).2.2]
      exact hs.tidy.counted p hp
  · intro p' hp' g hg hid
    rcases List.mem_append.mp hg with hg | hg
    · exact hs.below p' hp' g hg hid
    · obtain ⟨hid', hthread, hcount⟩ := gives_mem hgiven hg
      obtain rfl := record_eq hs.tidy hp' hp (hid.symm.trans hid')
      exact .inr ⟨hcount, hthread.trans hheld.symm⟩

theorem rising_step (hs : s.Rising) (h : Step (attemptRules i) i s s') : s'.Rising := by
  have htidy := tidy_step hs.tidy h
  cases h with
  | stay => exact hs
  | append new last => exact { hs with tidy := htidy }
  | claim p consumer now =>
    refine ⟨htidy, hs.read, hs.positive, ?_, hs.rising⟩
    intro r hr g hg hid
    obtain ⟨r', hr', rfl⟩ := List.mem_map.mp hr
    rw [claim_id] at hid
    have hbelow := hs.below r' hr' g hg hid
    split
    · -- the counter went up
      refine .inl (Nat.lt_succ_of_le ?_)
      rcases hbelow with hlt | ⟨heq, -⟩
      · exact Nat.le_of_lt hlt
      · exact Nat.le_of_eq heq
    · exact hbelow
  | read e consumer now given he hnew hgiven => exact rising_read hs he hnew hgiven
  | count p given hp hok hgiven => exact rising_count hs hp hok.1 hok.2 hgiven
  | ack id =>
    exact ⟨htidy, hs.read, hs.positive, fun p hp => hs.below p (List.mem_of_mem_filter hp), hs.rising⟩

/-- What the others leave to thread `i`: entries and counts stay, and no new count is its own. -/
structure Rely (i : Nat) (s s' : Ledger) : Prop where
  entries : ∀ e ∈ s.entries, e ∈ s'.entries
  grants : ∀ g ∈ s.grants, g ∈ s'.grants
  mine : ∀ g ∈ s'.grants, g.thread = i → g ∈ s.grants

theorem ledger_rely_refl (s : Ledger) : s.Rely i s :=
  ⟨fun _ h => h, fun _ h => h, fun _ h _ => h⟩

theorem ledger_rely_trans (h : s.Rely i s') (h' : s'.Rely i s'') : s.Rely i s'' :=
  ⟨fun e he => h'.entries e (h.entries e he), fun g hg => h'.grants g (h.grants g hg),
    fun g hg hi => h.mine g (h'.mine g hg hi) hi⟩

/-- A step gives counts to its own thread only. -/
theorem step_mine (h : Step R j s s') (hg : g ∈ s'.grants) : g ∈ s.grants ∨ g.thread = j := by
  cases h with
  | read e consumer now given he hnew hgiven | count p given hp hok hgiven =>
    rcases List.mem_append.mp hg with hg | hg
    · exact .inl hg
    · exact .inr (gives_mem hgiven hg).2.1
  | _ => exact .inl hg

theorem rely_of_step (hij : i ≠ j) (h : Step R j s s') : s.Rely i s' := by
  refine ⟨step_entries h, (step_grants h).subset, ?_⟩
  intro g hg hi
  rcases step_mine h hg with hg | hj
  · exact hg
  · exact absurd (hi.symm.trans hj) hij

end Ledger

variable {codec : Codec} {q : Queue} {i j : Nat} {w w' : World} {name : String} {c : Command}

/-- The attempts an entry was stored with. -/
def Entry.base (codec : Codec) (e : Entry) : Int :=
  let attempt := ((e.envelope codec).map Envelope.attempt).getD 0
  if attempt < 0 then 0 else attempt

/-- A counter is only read while this thread's claim is the last thing that happened to the
entry, and its value fits in an `int` together with the stored attempts. -/
def OwnCount (codec : Codec) (i : Nat) (w : World) : Command → Prop
  | .xpendingId key group id => ∃ p ∈ (w.streams key).pending group, p.id = id ∧ p.holder = i ∧
      ∀ e ∈ (w.streams key).entries, e.id = id → e.base codec + p.count ≤ maxInt64
  | _ => True

instance (codec : Codec) (i : Nat) (w : World) (c : Command) : Decidable (OwnCount codec i w c) := by
  cases c <;> unfold OwnCount <;> infer_instance

/-- Thread `i` was given no count yet. -/
def Fresh (q : Queue) (i : Nat) (w : World) : Prop :=
  ∀ name, ∀ g ∈ (q.ledger w name).grants, g.thread ≠ i

theorem fresh_rely (h : Fresh q i w)
    (hr : ∀ name, (q.ledger w name).Rely i (q.ledger w' name)) : Fresh q i w' := by
  intro name g hg hi
  exact h name g ((hr name).mine g hg hi) hi

def attempts (codec : Codec) (q : Queue) : (service codec q).Contract where
  Inv w := ∀ name, (q.ledger w name).Rising
  Rely i w w' := ∀ name, (q.ledger w name).Rely i (q.ledger w' name)
  Guar i w w' := Moves (attemptRules i) q i w w'
  Unused := Fresh q
  Ok := OwnCount codec
  Issue i w _ := Fresh q i w
  rely_refl _ _ _ := Ledger.ledger_rely_refl _
  rely_trans _ _ _ _ h h' name := Ledger.ledger_rely_trans (h name) (h' name)
  rely_of_guar _ _ _ _ hij _ h name := Ledger.rely_of_step hij (h name)
  inv_shift _ _ h := h
  rely_shift _ _ _ _ _ := Ledger.ledger_rely_refl _
  unused_rely _ _ _ := fresh_rely

/-- The commands that give out no count are always admitted. -/
abbrev Plain (codec : Codec) (q : Queue) : Command → Prop := Routine codec q fun _ => True

theorem plain_admitted (hc : Plain codec q c) : Admitted (attemptRules i) codec q w c := by
  cases c with
  | promote delayed stream due limit field =>
    obtain ⟨name, hd, hs, -⟩ := hc
    exact ⟨name, hd, hs, fun _ _ => trivial⟩
  | xadd key maxLen fields => exact hc
  | xautoclaim key group consumer minIdle | xclaim key group consumer minIdle id =>
    obtain ⟨⟨name, hk⟩, hg⟩ := hc
    exact ⟨name, hk, hg, fun _ _ => trivial⟩
  | xpendingId key group id | xreadgroup key group consumer => exact hc.elim
  | _ => exact hc

theorem promoteAll_grants (delayed stream field : String) (members : List Value) (w : World) :
    (members.foldl (World.promoteOne codec delayed stream field) w).grants = w.grants := by
  induction members generalizing w with
  | nil => rfl
  | cons m rest ih => exact ih _

theorem apply_grants (hc : Plain codec q c) (l : Label) :
    (apply codec i l w c).2.grants = w.grants := by
  cases c with
  | promote delayed stream due limit field => exact promoteAll_grants delayed stream field _ w
  | xack key group id settlement =>
    obtain ⟨streams, acked, hack⟩ := ack_frame w key group id settlement
    simp only [apply, hack]
  | xreadgroup key group consumer | xpendingId key group id => exact hc.elim
  | xautoclaim key group consumer minIdle | xclaim key group consumer minIdle id =>
    simp only [apply]
    split
    · rfl
    · obtain ⟨streams, hclaim⟩ := claimFirst_frame w key group consumer i _
      rw [hclaim]
  | random | xgroupCreate key group | xpendingIdle key group idle =>
    simp only [apply]
    split <;> rfl
  | _ => rfl

theorem fresh_of_grants (h : Fresh q i w) (hg : w'.grants = w.grants) : Fresh q i w' := by
  intro name g hmem
  have hmem' : g ∈ (q.ledger w name).grants := by
    simpa [Queue.ledger, hg] using hmem
  exact h name g hmem'

theorem exec_fresh (hc : Plain codec q c) (l : Label) (h : Fresh q i w) :
    Fresh q i (exec codec i l w c).2 :=
  exec_world h (fresh_of_grants h (apply_grants hc l))

section Rules

variable {α : Type} {post : α → World → Prop} {k : Response c → Program α}

theorem inv_moves (hi : (attempts codec q).Inv w) (h : Moves (attemptRules i) q i w w') :
    (attempts codec q).Inv w' :=
  fun name => Ledger.rising_step (hi name) (h name)

theorem safe_admitted (hw : Fresh q i w)
    (h : ∀ w' l, (attempts codec q).Rely i w w' → Fresh q i w' → (attempts codec q).Inv w' →
      OwnCount codec i w' c → Admitted (attemptRules i) codec q w' c ∧
        (attempts codec q).Safe i post (k (exec codec i l w' c).1) (exec codec i l w' c).2) :
    (attempts codec q).Safe i post (.call c k) w := by
  intro w' l hr hi hok
  have hfresh := fresh_rely hw hr
  obtain ⟨hc, hk⟩ := h w' l hr hfresh hi hok
  have hmoves : Moves (attemptRules i) q i w' (exec codec i l w' c).2 := exec_moves hc l
  exact ⟨hfresh, inv_moves hi hmoves, hmoves, hk⟩

/-- A command that gives out no count; the entries of the streams stay. -/
theorem safe_plain (hc : Plain codec q c) (hw : Fresh q i w)
    (h : ∀ w' l, Fresh q i (exec codec i l w' c).2 → (∀ name, ∀ e ∈ (q.ledger w' name).entries,
        e ∈ (q.ledger (exec codec i l w' c).2 name).entries) →
      (attempts codec q).Safe i post (k (exec codec i l w' c).1) (exec codec i l w' c).2) :
    (attempts codec q).Safe i post (.call c k) w := by
  refine safe_admitted hw fun w' l _ hfresh _ _ => ⟨plain_admitted hc, ?_⟩
  have hmoves : Moves (attemptRules i) q i w' (exec codec i l w' c).2 :=
    exec_moves (plain_admitted hc) l
  exact h w' l (exec_fresh hc l hfresh) fun name => Ledger.step_entries (hmoves name)

theorem safe_only {p : Program α} (hp : p.Only (Plain codec q)) (hw : Fresh q i w) :
    (attempts codec q).Safe i (fun _ w => Fresh q i w) p w := by
  induction p generalizing w with
  | ret a => exact hw
  | call c k ih => exact safe_plain hp.1 hw fun w' l hfresh _ => ih _ (hp.2 _) hfresh

end Rules

section Receive

variable {message : Entry} {consumer : String}

/-- The delivery carries the stored attempts and a count its thread was given for its entry;
only the first count may exceed what an `int` holds. -/
def Counted (codec : Codec) (q : Queue) (i : Nat) (w : World) (name : String) (d : Delivery) : Prop :=
  ∃ e ∈ (q.ledger w name).entries, e.id = d.streamID ∧
    ∃ g ∈ (q.ledger w name).grants, g.id = e.id ∧ g.thread = i ∧
      d.task.attempt ≤ e.base codec + g.count ∧
        (1 < g.count → d.task.attempt = e.base codec + g.count)

theorem counted_rely {d : Delivery} (h : Counted codec q i w name d)
    (hr : (attempts codec q).Rely i w w') : Counted codec q i w' name d := by
  obtain ⟨e, he, hid, g, hg, hrest⟩ := h
  exact ⟨e, (hr name).entries e he, hid, g, (hr name).grants g hg, hrest⟩

/-- A message is leased if it can be decoded, and found malformed otherwise. -/
theorem lease_cases (message : Entry) (count : Int) :
    (∃ d a, leaseFromMessageWithDeliveryCount codec message count = .ok d ∧
      codec.decodes message = true ∧ d.streamID = message.id ∧
        message.base codec = (if a < 0 then 0 else a) ∧
          d.task.attempt = attemptWithDeliveryCount a count) ∨
    ∃ text, leaseFromMessageWithDeliveryCount codec message count =
      .error (.malformed message.id text) ∧ codec.decodes message = false := by
  simp only [leaseFromMessageWithDeliveryCount]
  cases hv : message.fields.lookup taskField with
  | none =>
    have hv' : message.fields.lookup "task" = none := hv
    exact .inr ⟨_, rfl, by simp [Codec.decodes, Entry.envelope, hv']⟩
  | some v =>
    have hv' : message.fields.lookup "task" = some v := hv
    simp only [unmarshal]
    cases he : codec.unmarshal v.bytes with
    | none => exact .inr ⟨_, rfl, by simp [Codec.decodes, Entry.envelope, hv', he]⟩
    | some e =>
      refine .inl ⟨_, e.attempt, rfl, ?_, rfl, ?_, rfl⟩
      · simp [Codec.decodes, Entry.envelope, hv', he]
      · simp [Entry.base, Entry.envelope, hv', he]

/-- Reading the counter of a record the thread holds. -/
theorem count_cases {l : Label} {id : Nat} (hw : (q.ledger w name).Tidy)
    (hok : OwnCount codec i w (.xpendingId (q.streamKey name) q.group id)) :
    (∃ cause, (exec codec i l w (.xpendingId (q.streamKey name) q.group id)).1 =
      .error (.failure cause)) ∨
    ∃ p ∈ (q.ledger w name).pending, p.id = id ∧
      (∀ e ∈ (q.ledger w name).entries, e.id = id → e.base codec + p.count ≤ maxInt64) ∧
      exec codec i l w (.xpendingId (q.streamKey name) q.group id) = (.ok [p],
        w.grant codec (q.streamKey name) ((w.streams (q.streamKey name)).find id) i p.count) := by
  obtain ⟨p, hp, rfl, -, hfits⟩ := hok
  have happly : apply codec i l w (.xpendingId (q.streamKey name) q.group p.id) = (.ok [p],
      w.grant codec (q.streamKey name) ((w.streams (q.streamKey name)).find p.id) i p.count) := by
    simp only [apply]
    cases hg : (w.streams (q.streamKey name)).groups q.group with
    | none => simp [Stream.pending, hg] at hp
    | some g =>
      have hp' : p ∈ g.pending := by simpa [Stream.pending, hg] using hp
      cases hfind : g.pending.find? (fun r => r.id = p.id) with
      | none => simpa using List.find?_eq_none.mp hfind p hp'
      | some r =>
        have hr : r ∈ (q.ledger w name).pending :=
          (ledger_of_group hg).2 ▸ List.mem_of_find?_eq_some hfind
        have hid : r.id = p.id := by simpa using List.find?_some hfind
        obtain rfl := Ledger.record_eq hw hr hp hid
        simp only [hfind]
  rcases exec_cases codec i l w (.xpendingId (q.streamKey name) q.group p.id) with
    he | ⟨cause, r, hf, he | he⟩
  · exact .inr ⟨p, hp, rfl, hfits, he.trans happly⟩
  · rw [he]
    exact .inl ⟨cause, (Option.some.inj hf).symm⟩
  · rw [he]
    exact .inl ⟨cause, (Option.some.inj hf).symm⟩

/-- Leasing a message with the count that was just given out for it, if it can be decoded. -/
theorem lease_counted (hm : message ∈ (q.ledger w name).entries) (hfresh : Fresh q i w)
    {count : Int} {n : Nat} (hn : count = 0 ∧ n = 1 ∨
      count = n ∧ 0 < n ∧ message.base codec + n ≤ maxInt64) :
    let w' := w.grant codec (q.streamKey name) [message] i n
    (∃ d, leaseFromMessageWithDeliveryCount codec message count = .ok d ∧
      Counted codec q i w' name d) ∨
    ∃ text, leaseFromMessageWithDeliveryCount codec message count =
      .error (.malformed message.id text) ∧ Fresh q i w' := by
  intro w'
  rcases lease_cases message count with ⟨d, a, hd, hdec, hid, hbase, ha⟩ | ⟨text, ht, hdec⟩
  · have hledger : q.ledger w' name = _ := ledger_grant q w name name codec [message] i n
    rw [if_pos rfl] at hledger
    refine .inl ⟨d, hd, message, by rw [hledger]; exact hm, hid.symm,
      ⟨q.streamKey name, message.id, i, n⟩, by rw [hledger]; simp [hdec], rfl, rfl, ?_⟩
    rw [ha, hbase]
    rcases hn with ⟨rfl, rfl⟩ | ⟨rfl, hpos, hfits⟩
    · exact ⟨attempt_first a, fun h => absurd h (Nat.lt_irrefl 1)⟩
    · rw [hbase] at hfits
      rw [attempt_count a hpos hfits]
      exact ⟨Int.le_refl _, fun _ => rfl⟩
  · exact .inr ⟨text, ht, fresh_of_grants hfresh (by simp [w', World.grant, hdec])⟩

/-- What a claim returns; without a delivery the thread has no count, unless Redis failed. -/
def Leases (codec : Codec) (q : Queue) (i : Nat) (name : String) :
    Except Error (Option Delivery) → World → Prop
  | .ok (some d), w => Counted codec q i w name d
  | .ok none, w => Fresh q i w
  | .error (.redis _), _ => True
  | .error _, w => Fresh q i w

theorem leaseClaimed_counted (r : Except RedisError (List Entry)) (hw : Fresh q i w)
    (hm : ∀ message rest, r = .ok (message :: rest) → message ∈ (q.ledger w name).entries) :
    (attempts codec q).Safe i (Leases codec q i name) (q.leaseClaimed codec name r) w := by
  rcases r with err | _ | ⟨message, rest⟩
  · cases err <;> first | exact hw | trivial
  · exact hw
  refine safe_admitted hw fun w₁ l hr hfresh hi hok => ⟨⟨name, rfl, rfl, ?_⟩, ?_⟩
  · intro p hp hid
    obtain ⟨p', hp', hid', hheld, -⟩ := hok
    obtain rfl := Ledger.record_eq (hi name).tidy hp hp' (hid.trans hid'.symm)
    exact ⟨hheld, hfresh name⟩
  have hmem := (hr name).entries message (hm message rest rfl)
  rcases count_cases (l := l) (hi name).tidy hok with ⟨cause, hf⟩ | ⟨p, hp, -, hfits, he⟩
  · rw [hf]
    trivial
  · rw [he, find_eq (hi name).tidy.sorted hmem]
    rcases lease_counted hmem hfresh (.inr ⟨rfl, (hi name).tidy.counted p hp,
      hfits message hmem rfl⟩) with ⟨d, hd, hc⟩ | ⟨text, ht, hfresh'⟩
    · simp only [Prog.pure_eq, Prog.bind, hd]
      exact hc
    · simp only [Prog.pure_eq, Prog.bind, ht]
      exact hfresh'

theorem claimPendingForConsumer_counted (minIdle : Int) (hw : Fresh q i w) :
    (attempts codec q).Safe i (Leases codec q i name)
      (q.claimPendingForConsumer codec name consumer minIdle) w := by
  refine claimPendingForConsumer_of_parts (Fresh q i)
    (fun message w => message ∈ (q.ledger w name).entries) ?_ ?_ ?_
    (fun r w hfresh hmem => leaseClaimed_counted r hfresh hmem) (fun _ hfresh => hfresh)
    (fun _ _ _ => trivial) hw
  · intro w hw
    refine safe_plain ⟨⟨name, rfl⟩, rfl⟩ hw fun w₁ l hfresh hkept => ⟨hfresh, ?_⟩
    exact fun message rest hm => hkept name message (messages_mem.1 _ hm)
  · intro w hw
    exact safe_plain trivial hw fun w₁ l hfresh _ => hfresh
  · intro id w hw
    refine safe_plain ⟨⟨name, rfl⟩, rfl⟩ hw fun w₁ l hfresh hkept => ⟨hfresh, ?_⟩
    exact fun message rest hm => hkept name message (messages_mem.2.1 _ _ hm)

/-- What a read returns; without a delivery the thread has no count, unless Redis failed. -/
def Reads (codec : Codec) (q : Queue) (i : Nat) (name : String) :
    Except Error Delivery → World → Prop
  | .ok d, w => Counted codec q i w name d
  | .error .noTask, w => Fresh q i w
  | .error _, _ => True

/-- The group read: it fails, finds nothing, or gives out the first count of an entry. -/
theorem read_cases (codec : Codec) (q : Queue) (i : Nat) (w : World) (name consumer : String)
    (l : Label) :
    let r := exec codec i l w (.xreadgroup (q.streamKey name) q.group consumer)
    (∃ err, r.1 = .error err ∧ (err = .nil → r.2 = w)) ∨
    ∃ message w₁, r = (.ok [message], w₁.grant codec (q.streamKey name) [message] i 1) ∧
      message ∈ (q.ledger w₁ name).entries ∧ w₁.grants = w.grants := by
  intro r
  rcases exec_cases codec i l w (.xreadgroup (q.streamKey name) q.group consumer) with
    he | ⟨cause, r', hf, he | he⟩
  · have happly : r = w.readGroup codec (q.streamKey name) q.group consumer i := he
    rw [happly]
    simp only [World.readGroup]
    cases hg : (w.streams (q.streamKey name)).groups q.group with
    | none => exact .inl ⟨_, rfl, fun h => by cases h⟩
    | some g =>
      cases hfind : (w.streams (q.streamKey name)).entries.find? (fun e => g.cursor < e.id) with
      | none =>
        simp only [hfind]
        exact .inl ⟨_, rfl, fun _ => trivial⟩
      | some e =>
        simp only [hfind]
        refine .inr ⟨e, _, rfl, ?_, rfl⟩
        rw [ledger_setGroup, if_pos rfl]
        exact List.mem_of_find?_eq_some hfind
  · obtain rfl := Option.some.inj hf
    exact .inl ⟨.failure cause, congrArg Prod.fst he, fun h => by cases h⟩
  · obtain rfl := Option.some.inj hf
    exact .inl ⟨.failure cause, congrArg Prod.fst he, fun h => by cases h⟩

theorem readNew_counted (hw : Fresh q i w) :
    (attempts codec q).Safe i (Reads codec q i name) (q.readNew codec name consumer) w := by
  refine safe_admitted hw fun w₁ l _ hfresh _ _ => ⟨⟨⟨name, rfl⟩, rfl⟩, ?_⟩
  rcases read_cases codec q i w₁ name consumer l with
    ⟨err, he, hw₁⟩ | ⟨message, w₂, he, hmem, hgrants⟩
  · rw [he]
    cases err with
    | nil =>
      rw [hw₁ rfl]
      exact hfresh
    | _ => trivial
  · rw [he]
    rcases lease_counted hmem (fresh_of_grants hfresh hgrants) (.inl ⟨rfl, rfl⟩) with
      ⟨d, hd, hc⟩ | ⟨text, ht, hfresh'⟩
    · have hlease : leaseFromMessage codec message = .ok d := hd
      simp only [Prog.bind, hlease]
      exact hc
    · have hlease : leaseFromMessage codec message = .error (.malformed message.id text) := ht
      simp only [Prog.bind, hlease]
      exact safe_plain ⟨⟨name, rfl⟩, rfl⟩ hfresh' fun _ _ _ _ => trivial

theorem receiveForConsumer_counted (hw : Fresh q i w) :
    (attempts codec q).Safe i (Reads codec q i name)
      (q.receiveForConsumer codec name consumer) w := by
  refine receiveForConsumer_of_parts (Fresh q i) ?_
    (fun w hw => claimPendingForConsumer_counted q.claimMinIdle hw) (fun w hw => readNew_counted hw)
    ?_ ?_ (fun _ hfresh => hfresh) (fun _ _ hcounted => hcounted) hw
  · intro w hw
    refine safe_plain trivial hw fun w₁ l hfresh₁ _ => ?_
    exact safe_plain ⟨name, rfl, rfl, rfl⟩ hfresh₁ fun w₂ l₂ hfresh₂ _ => hfresh₂
  · intro err w hfresh
    cases err with
    | noTask => exact hfresh
    | _ => trivial
  · intro err w hleases
    cases err with
    | malformed id text => exact safe_plain ⟨⟨name, rfl⟩, rfl⟩ hleases fun _ _ _ _ => trivial
    | noTask => exact hleases
    | _ => trivial

theorem receive_counted (c : Consumer) (rounds : Nat) (hw : Fresh q i w) :
    (attempts codec q).Safe i (fun r w => ∀ d, r = some (.ok d) → Counted codec q i w c.name d)
      (q.receive codec c rounds) w :=
  receive_of_round (Fresh q i) (fun _ hw => receiveForConsumer_counted hw)
    (fun _ _ hcounted => hcounted) (fun _ hfresh => hfresh) rounds hw

end Receive

/-- A delivery that a call returned carries a count of its thread. -/
def ReturnedCounted (codec : Codec) (q : Queue) (call : Call) (i : Nat) : Outcome → World → Prop
  | .received (some (.ok d)), w => ∀ c rounds, call = .receive c rounds →
      Counted codec q i w c.name d
  | _, _ => True

theorem returnedCounted_stable (call : Call) (i : Nat) :
    (attempts codec q).Stable i (ReturnedCounted codec q call i) := by
  intro r w w' h hr _
  rcases r with r | r | (_ | (err | d)) | r
  any_goals trivial
  exact fun c rounds hc => counted_rely (h c rounds hc) hr

theorem start_counted {p : Pool World Call Command Response Outcome} {call : Call}
    {prog : Program Outcome} (h : start codec q call p.threads = some prog)
    (hw : Fresh q p.threads.length p.world) :
    (attempts codec q).Safe p.threads.length
      (ReturnedCounted codec q call p.threads.length) prog p.world := by
  have hplain : ∀ {α : Type} {f : α → Outcome} {p' : Program α}, p'.Only (Plain codec q) →
      (∀ a w, ReturnedCounted codec q call p.threads.length (f a) w) →
      (attempts codec q).Safe p.threads.length
        (ReturnedCounted codec q call p.threads.length) (f <$> p') p.world := by
    intro α f p' hp hpost
    exact safe_map
      (safe_weaken (fun a w _ => hpost a w) (safe_only hp hw))
  cases call with
  | enqueue task =>
    obtain rfl := Option.some.inj h
    exact hplain (enqueue_routine _ fun _ _ _ _ => trivial) fun _ _ => trivial
  | newConsumer ctx config =>
    obtain rfl := Option.some.inj h
    exact hplain (newConsumer_routine ctx config) fun _ _ => trivial
  | receive consumer rounds =>
    obtain rfl := Option.some.inj h
    refine safe_map (safe_weaken ?_
      (receive_counted consumer rounds hw))
    intro r w hr
    rcases r with _ | err | d
    · trivial
    · trivial
    · intro c n hc
      cases hc
      exact hr d rfl
  | ack j =>
    obtain ⟨d, -, rfl⟩ := Option.map_eq_some_iff.mp h
    exact hplain (ack_routine d .ack) fun _ _ => trivial
  | retry j delay =>
    obtain ⟨d, -, rfl⟩ := Option.map_eq_some_iff.mp h
    exact hplain (retry_routine d delay fun _ _ _ _ _ => trivial) fun _ _ => trivial
  | deadLetter j reason =>
    obtain ⟨d, -, rfl⟩ := Option.map_eq_some_iff.mp h
    exact hplain (deadLetter_routine d reason) fun _ _ => trivial

/-- The call with number `i` has received the delivery from the queue `name`. -/
def Delivered (p : Pool World Call Command Response Outcome) (i : Nat) (name : String)
    (d : Delivery) : Prop :=
  ∃ c rounds, p.returned i = some (.receive c rounds, .received (some (.ok d))) ∧ c.name = name

/-- Whenever a call receives a delivery, its `Attempt` is greater than that of all deliveries
of the same entry before. -/
def AttemptsRise (codec : Codec) (q : Queue) (now : Int) (actions : List (Action Label Int Call)) :
    Prop :=
  ∀ before a after, actions = before ++ a :: after →
    let p := (service codec q).run ⟨World.empty now, []⟩ before
    ∀ i j name d d', Delivered p j name d' → p.returned i = none →
      Delivered ((service codec q).step p a) i name d → d'.streamID = d.streamID →
        d'.task.attempt < d.task.attempt

/-- A new count is greater than those before it, so is the attempt. -/
theorem counted_lt {d d' : Delivery} (hi : (attempts codec q).Inv w')
    (hmoves : Moves (attemptRules i) q i w w') (hfresh : Fresh q i w)
    (hd' : Counted codec q j w name d') (hd : Counted codec q i w' name d)
    (hid : d'.streamID = d.streamID) : d'.task.attempt < d.task.attempt := by
  obtain ⟨e', he', hid', g', hg', hgid', -, hle, -⟩ := hd'
  obtain ⟨e, he, hide, g, hg, hgid, hthread, -, heq⟩ := hd
  obtain rfl := Ledger.entry_eq (hi name).tidy he
    (Ledger.step_entries (hmoves name) e' he') (by rw [hide, hid', hid])
  obtain ⟨given, hgiven⟩ := Ledger.step_grants (hmoves name)
  rw [← hgiven] at hg
  have hnew : g ∈ given := by
    rcases List.mem_append.mp hg with hold | hnew
    · exact absurd hthread (hfresh name g hold)
    · exact hnew
  have hrising := (hi name).rising
  rw [← hgiven] at hrising
  have hlt := (List.pairwise_append.mp hrising).2.2 g' hg' g hnew (hgid'.trans hgid.symm)
  have hpos := (hi name).positive g' (hgiven ▸ List.mem_append_left _ hg')
  have := heq (by omega)
  omega

theorem empty_rising (now : Int) : (attempts codec q).Inv (World.empty now) := by
  intro name
  refine ⟨⟨?_, ?_, ?_, ?_, ?_, ?_⟩, ?_, ?_, ?_, ?_⟩ <;>
    simp [World.empty, Queue.ledger, Stream.cursor, Stream.pending]

theorem empty_fresh (now : Int) (i : Nat) : Fresh q i (World.empty now) := by
  intro name g hg
  simp [World.empty, Queue.ledger] at hg

/-- In every run in which a counter is only read by the thread whose claim set it, attempts
rise. -/
theorem attempts_rise (codec : Codec) (q : Queue) (now : Int)
    (actions : List (Action Label Int Call))
    (h : (service codec q).Meets (OwnCount codec) ⟨World.empty now, []⟩ actions) :
    AttemptsRise codec q now actions := by
  intro before a after hsplit p i j name d d' hd' hnone hd hid
  rw [hsplit] at h
  obtain ⟨hbefore, hok⟩ := Service.meets_append h
  have hpool : (attempts codec q).SafePool (ReturnedCounted codec q) p :=
    safePool_of_run (attempts codec q) (ReturnedCounted codec q)
      returnedCounted_stable
      (fun p call prog hp hs => start_counted hs (hp.unused _ (Nat.le_refl _)))
      (safePool_nil (empty_rising now) (empty_fresh now)) before hbefore
  obtain ⟨c', rounds', hret', rfl⟩ := hd'
  obtain ⟨c, rounds, hret, hname⟩ := hd
  have hd' : Counted codec q j p.world c'.name d' :=
    hpool.safe j _ (returned_eq_some.mp hret') c' rounds' rfl
  rcases Service.step_returned hnone hret with ⟨label, cmd, k, rfl, hi, hk⟩ | ⟨rfl, rfl, hstart⟩
  · have hown : OwnCount codec i p.world cmd := hok.1 cmd (by simp [Pool.next, p, hi])
    obtain ⟨hfresh, hinv, hmoves, hsafe⟩ :=
      hpool.safe i _ hi p.world label ((attempts codec q).rely_refl i _) hpool.inv hown
    rw [hk] at hsafe
    exact counted_lt hinv hmoves hfresh hd' (hname ▸ hsafe c rounds rfl) hid
  · have hfresh := hpool.unused _ (Nat.le_refl p.threads.length)
    have hstart' : start codec q (.receive c rounds) p.threads = some (.ret _) := hstart
    have hsafe := start_counted hstart' hfresh
    obtain ⟨-, -, -, g, hg, -, hthread, -⟩ := hsafe c rounds rfl
    exact absurd hthread (hfresh _ g hg)

/-- An entry read by one consumer, then claimed by another. -/
theorem attempts_rise_second_consumer :
    let e : Envelope := ⟨"1", "mail", "", [], [], 0, 0, 0⟩
    let stored : Envelope := { e with queue := "default" }
    let codec := Codec.ofTable [(stored, "json")] (by decide)
    let q : Queue := ⟨"queue", "queue", "worker", 100, 1, 0⟩
    let ok : Label := ⟨.none, "", 0⟩
    let c : Consumer := ⟨"default", "worker"⟩
    let actions : List (Action Label Int Call) :=
      [.spawn (.enqueue (some e)), .run 0 ok, .run 0 ok,
        .spawn (.newConsumer none ⟨"", ""⟩), .run 1 ok,
        .spawn (.receive c 1), .run 2 ok, .run 2 ok, .run 2 ok, .run 2 ok, .run 2 ok, .shift 10,
        .spawn (.receive c 1), .run 3 ok, .run 3 ok, .run 3 ok, .run 3 ok]
    AttemptsRise codec q 0 actions ∧
      ((service codec q).run ⟨World.empty 0, []⟩ actions).returned 3 =
        some (.receive c 1,
          .received (some (.ok ⟨⟨{ stored with attempt := 2 }, ⟨0, e⟩⟩, 1⟩))) := by
  intro e stored codec q ok c actions
  exact ⟨attempts_rise codec q 0 actions (by decide +kernel), by decide +kernel⟩

/-- An entry acknowledged between the claim of another consumer and its look at the counter:
both deliveries have `Attempt` 1. -/
theorem attempt_repeated_after_ack :
    let e : Envelope := ⟨"1", "mail", "", [], [], 0, 0, 0⟩
    let codec := Codec.ofTable [({ e with queue := "default" }, "json")] (by decide)
    let q : Queue := ⟨"queue", "queue", "worker", 100, 1, 0⟩
    let ok : Label := ⟨.none, "", 0⟩
    let c : Consumer := ⟨"default", "worker"⟩
    let actions : List (Action Label Int Call) :=
      [.spawn (.enqueue (some e)), .run 0 ok, .run 0 ok,
        .spawn (.newConsumer none ⟨"", ""⟩), .run 1 ok,
        .spawn (.receive c 1), .run 2 ok, .run 2 ok, .run 2 ok, .run 2 ok, .run 2 ok, .shift 10,
        .spawn (.receive c 1), .run 3 ok, .run 3 ok, .run 3 ok,
        .spawn (.ack 2), .run 4 ok, .run 3 ok]
    ¬ AttemptsRise codec q 0 actions := by
  intro e codec q ok c actions h
  let d : Delivery := ⟨⟨{ e with queue := "default", attempt := 1 }, ⟨0, e⟩⟩, 1⟩
  have hlt := h (actions.take 18) (.run 3 ok) [] rfl 3 2 "default" d d
    ⟨c, 1, by decide +kernel, rfl⟩ (by decide +kernel) ⟨c, 1, by decide +kernel, rfl⟩ rfl
  exact absurd hlt (Int.lt_irrefl _)

end Fries.RedisQueue
