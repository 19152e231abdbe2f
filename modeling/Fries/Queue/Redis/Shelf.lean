import Fries.Queue.Copies
import Fries.Queue.Redis.Queue

/-! What Redis holds of one logical queue, and how each command changes it. -/
namespace Fries.RedisQueue

open Fries.Queue

/-- The sorted set and the two streams of a queue. -/
structure Shelf where
  zset : List (Int × Value)
  stream : Stream
  dead : Stream

def Queue.shelf (q : Queue) (w : World) (name : String) : Shelf :=
  ⟨w.zsets (q.delayedKey name), w.streams (q.streamKey name), w.streams (q.deadLetterKey name)⟩

def Stream.cursor (s : Stream) (group : String) : Nat := ((s.groups group).map Group.cursor).getD 0

def Stream.pending (s : Stream) (group : String) : List Pending :=
  ((s.groups group).map Group.pending).getD []

def Shelf.copies (s : Shelf) (group : String) (acked : List Origin) : Copies Origin where
  delayed o := ∃ e ∈ s.zset, e.2.origin = some o
  stream := s.stream.entries.filterMap fun e => e.origin.map fun o => (e.id, o)
  last := s.stream.lastId
  live id := s.stream.cursor group < id ∨ ∃ p ∈ s.stream.pending group, p.id = id
  dead o := ∃ e ∈ s.dead.entries, e.origin = some o
  acked o := o ∈ acked

/-- The stored string carries a copy of the task. -/
def Value.Holds (codec : Codec) (v : Value) (o : Origin) : Prop :=
  v.origin = some o ∧ ∃ e, codec.unmarshal v.bytes = some e ∧ o.Copy e

def Entry.Holds (codec : Codec) (e : Entry) (o : Origin) : Prop :=
  ∃ v, e.fields.lookup taskField = some v ∧ v.Holds codec o

/-- The member was made with the token. -/
def Value.Uses (codec : Codec) (m : Value) (token : String) : Prop :=
  token.length = 32 ∧ ∃ nanos b, codec.marshalEntry (token ++ "-" ++ nanos) b = some m.bytes

/-- The member is a delayed entry with a copy of the task. -/
def Value.Delays (codec : Codec) (m : Value) (o : Origin) : Prop :=
  m.origin = some o ∧ ∃ b e, codec.cjsonTask m.bytes = some b ∧ codec.unmarshal b = some e ∧ o.Copy e

structure Shelf.Wf (codec : Codec) (group name : String) (s : Shelf) : Prop where
  cursor : s.stream.cursor group ≤ s.stream.lastId
  sorted : s.stream.entries.Pairwise fun e e' => e.id < e'.id
  streamed : ∀ e ∈ s.stream.entries, ∃ o, e.Holds codec o ∧ o.queue = name
  buried : ∀ e ∈ s.dead.entries, ∃ o, e.Holds codec o
  waiting : ∀ e ∈ s.zset, ∃ o, e.2.Delays codec o ∧ o.queue = name
  distinct : ∀ e ∈ s.zset, ∀ e' ∈ s.zset, e.2.bytes = e'.2.bytes → e.2 = e'.2

section Keys

variable (q : Queue) {name name' : String}

theorem streamKey_inj (h : q.streamKey name = q.streamKey name') : name = name' := by
  simpa [Queue.streamKey] using h

theorem delayedKey_inj (h : q.delayedKey name = q.delayedKey name') : name = name' := by
  simpa [Queue.delayedKey] using h

theorem deadLetterKey_inj (h : q.deadLetterKey name = q.deadLetterKey name') : name = name' := by
  simpa [Queue.deadLetterKey] using h

theorem streamKey_ne_deadLetterKey : q.streamKey name ≠ q.deadLetterKey name' := by
  intro h
  have := congrArg (fun s => s.toList.reverse.head?) h
  simp [Queue.streamKey, Queue.deadLetterKey] at this

variable (w : World) (name name' : String)

theorem shelf_setZset (z : List (Int × Value)) :
    q.shelf (w.setZset (q.delayedKey name) z) name' =
      if name' = name then { q.shelf w name with zset := z } else q.shelf w name' := by
  by_cases h : name' = name
  · subst name'
    simp [Queue.shelf, World.setZset]
  · have hne : q.delayedKey name' ≠ q.delayedKey name := fun he => h (delayedKey_inj q he)
    simp [Queue.shelf, World.setZset, h, hne]

theorem shelf_setStream (s : Stream) :
    q.shelf (w.setStream (q.streamKey name) s) name' =
      if name' = name then { q.shelf w name with stream := s } else q.shelf w name' := by
  have hdead : q.deadLetterKey name' ≠ q.streamKey name :=
    fun he => streamKey_ne_deadLetterKey q he.symm
  by_cases h : name' = name
  · subst name'
    simp [Queue.shelf, World.setStream, hdead]
  · have hne : q.streamKey name' ≠ q.streamKey name := fun he => h (streamKey_inj q he)
    simp [Queue.shelf, World.setStream, h, hne, hdead]

theorem shelf_setDead (s : Stream) :
    q.shelf (w.setStream (q.deadLetterKey name) s) name' =
      if name' = name then { q.shelf w name with dead := s } else q.shelf w name' := by
  have hstream : q.streamKey name' ≠ q.deadLetterKey name := streamKey_ne_deadLetterKey q
  by_cases h : name' = name
  · subst name'
    simp [Queue.shelf, World.setStream, hstream]
  · have hne : q.deadLetterKey name' ≠ q.deadLetterKey name := fun he => h (deadLetterKey_inj q he)
    simp [Queue.shelf, World.setStream, h, hne, hstream]

end Keys

theorem token_eq {codec : Codec} {m : Value} {t t' : String} (h : m.Uses codec t)
    (h' : m.Uses codec t') : t = t' := by
  obtain ⟨hl, n, b, hb⟩ := h
  obtain ⟨hl', n', b', hb'⟩ := h'
  have hid := congrArg String.toList (codec.entry_id hb hb')
  have hlen : t.toList.length = t'.toList.length := by
    rw [String.length_toList, String.length_toList, hl, hl']
  simp only [String.toList_append, List.append_assoc] at hid
  exact String.toList_inj.mp (List.append_inj hid hlen).1

section Steps

variable {codec : Codec} {group name : String} {acked : List Origin} {s s' : Shelf} {o : Origin}

/-- The contents are well formed and no task of the queue is lost. -/
structure Shelf.Good (codec : Codec) (group name : String) (acked : List Origin) (s : Shelf) :
    Prop where
  wf : s.Wf codec group name
  sound : (s.copies group acked).Sound

/-- What every command makes of the contents: they stay good, and nothing that keeps a task goes. -/
structure Shelf.Keeps (codec : Codec) (group name : String) (acked acked' : List Origin)
    (s s' : Shelf) : Prop where
  good : s'.Good codec group name acked'
  later : (s.copies group acked).Later (s'.copies group acked')

variable {acked' : List Origin}

theorem keeps_of_step (hs : s.Good codec group name acked) (hwf : s'.Wf codec group name)
    (hstep : Copies.Step (s.copies group acked) (s'.copies group acked')) :
    s.Keeps codec group name acked acked' s' :=
  ⟨⟨hwf, Copies.step_sound hstep hs.sound⟩, Copies.step_later hstep⟩

theorem origin_of_holds {e : Entry} (h : e.Holds codec o) : e.origin = some o := by
  obtain ⟨v, hv, ho, -⟩ := h
  have hv' : e.fields.lookup "task" = some v := hv
  simp [Entry.origin, hv', ho]

theorem mem_copies_stream {id : Nat} :
    (id, o) ∈ (s.copies group acked).stream ↔
      ∃ e ∈ s.stream.entries, e.id = id ∧ e.origin = some o := by
  simp only [Shelf.copies, List.mem_filterMap, Option.map_eq_some_iff, Prod.mk.injEq]
  constructor
  · rintro ⟨e, he, o', ho', rfl, rfl⟩
    exact ⟨e, he, rfl, ho'⟩
  · rintro ⟨e, he, rfl, ho⟩
    exact ⟨e, he, o, ho, rfl, rfl⟩

theorem mem_zinsert {x e : Int × Value} {l : List (Int × Value)} :
    e ∈ zinsert x l ↔ e = x ∨ e ∈ l := by
  induction l with
  | nil => simp [zinsert]
  | cons f rest ih =>
    simp only [zinsert]
    split
    · simp
    · simp only [List.mem_cons, ih]
      tauto

/-- `ZADD` of a new member. -/
theorem zadd_good (hs : s.Good codec group name acked) {m : Value} (score : Int)
    (hm : m.Delays codec o) (ho : o.queue = name) (hnew : ∀ e ∈ s.zset, e.2.bytes ≠ m.bytes) :
    s.Keeps codec group name acked acked { s with zset := zinsert (score, m) s.zset } := by
  refine keeps_of_step hs { hs.wf with waiting := ?_, distinct := ?_ }
    (.grow rfl rfl ?_ (fun _ _ _ h => h) (fun _ h => h) (fun _ h => h))
  · intro e he
    rcases mem_zinsert.mp he with rfl | he
    · exact ⟨o, hm, ho⟩
    · exact hs.wf.waiting e he
  · intro e he e' he' hb
    rcases mem_zinsert.mp he with rfl | he <;> rcases mem_zinsert.mp he' with rfl | he'
    · rfl
    · exact absurd hb.symm (hnew e' he')
    · exact absurd hb (hnew e he)
    · exact hs.wf.distinct e he e' he' hb
  · rintro o' ⟨e, he, ho'⟩
    exact ⟨e, mem_zinsert.mpr (.inr he), ho'⟩

theorem sorted_append {l : List Entry} {last : Nat} (hl : l.Pairwise fun e e' => e.id < e'.id)
    (hb : ∀ e ∈ l, e.id ≤ last) (fields : List (String × Value)) :
    (l ++ [Entry.mk (last + 1) fields]).Pairwise fun e e' => e.id < e'.id := by
  refine List.pairwise_append.mpr ⟨hl, by simp, ?_⟩
  intro e he e' he'
  obtain rfl := List.mem_singleton.mp he'
  have := hb e he
  simp only
  omega

theorem id_le_last (hs : s.Good codec group name acked) :
    ∀ e ∈ s.stream.entries, e.id ≤ s.stream.lastId := by
  intro e he
  obtain ⟨o, ho, -⟩ := hs.wf.streamed e he
  exact hs.sound.bounded (e.id, o) (mem_copies_stream.mpr ⟨e, he, rfl, origin_of_holds ho⟩)

/-- `XADD` to the stream, possibly instead of a delayed copy. -/
theorem append_good (hs : s.Good codec group name acked) {fields : List (String × Value)}
    {zset : List (Int × Value)} (hf : (⟨0, fields⟩ : Entry).Holds codec o) (ho : o.queue = name)
    (hsub : ∀ e ∈ zset, e ∈ s.zset)
    (hrest : ∀ e ∈ s.zset, e ∈ zset ∨ e.2.origin = some o) :
    s.Keeps codec group name acked acked { s with
      zset := zset
      stream :=
        { s.stream with
          entries := s.stream.entries ++ [⟨s.stream.lastId + 1, fields⟩]
          lastId := s.stream.lastId + 1 } } := by
  have hnew : (⟨s.stream.lastId + 1, fields⟩ : Entry).Holds codec o := hf
  refine keeps_of_step hs ⟨Nat.le_succ_of_le hs.wf.cursor,
    sorted_append hs.wf.sorted (id_le_last hs) fields, ?_, hs.wf.buried,
    fun e he => hs.wf.waiting e (hsub e he),
    fun e he e' he' => hs.wf.distinct e (hsub e he) e' (hsub e' he')⟩
    (.append o ?_ rfl ?_ ?_ (fun _ _ _ h => h) (fun _ h => h) (fun _ h => h))
  · exact List.forall_mem_append.mpr ⟨hs.wf.streamed, List.forall_mem_singleton.mpr ⟨o, hnew, ho⟩⟩
  · simp [Shelf.copies, origin_of_holds hnew]
  · rintro o' ⟨e, he, ho'⟩
    rcases hrest e he with he | heq
    · exact .inl ⟨e, he, ho'⟩
    · exact .inr (Option.some.inj (ho'.symm.trans heq))
  · exact .inl (Nat.lt_succ_of_le hs.wf.cursor)

/-- The live entries of a group stay live. -/
def Stream.Spares (s s' : Stream) (group : String) : Prop :=
  ∀ e ∈ s.entries, (s.cursor group < e.id ∨ ∃ p ∈ s.pending group, p.id = e.id) →
    s'.cursor group < e.id ∨ ∃ p ∈ s'.pending group, p.id = e.id

section

variable (hs : s.Good codec group name acked) {st : Stream}

include hs

/-- Creating the group, reading from it and claiming in it keep every entry live. -/
theorem group_good (hentries : st.entries = s.stream.entries) (hlast : st.lastId = s.stream.lastId)
    (hcursor : st.cursor group ≤ st.lastId) (hlive : s.stream.Spares st group) :
    s.Keeps codec group name acked acked { s with stream := st } := by
  refine keeps_of_step hs { hs.wf with
    cursor := hcursor, sorted := hentries ▸ hs.wf.sorted, streamed := hentries ▸ hs.wf.streamed }
    (.grow ?_ hlast (fun _ h => h) ?_ (fun _ h => h) (fun _ h => h))
  · simp [Shelf.copies, hentries]
  · intro id o hm hl
    obtain ⟨e, he, rfl, -⟩ := mem_copies_stream.mp hm
    exact hlive e he hl

/-- `XADD` to the dead-letter stream. -/
theorem dead_good {fields : List (String × Value)} (hf : (⟨0, fields⟩ : Entry).Holds codec o) :
    s.Keeps codec group name acked acked { s with
      dead :=
        { s.dead with
          entries := s.dead.entries ++ [⟨s.dead.lastId + 1, fields⟩]
          lastId := s.dead.lastId + 1 } } := by
  refine keeps_of_step hs { hs.wf with buried := ?_ }
    (.grow rfl rfl (fun _ h => h) (fun _ _ _ h => h) ?_ (fun _ h => h))
  · exact List.forall_mem_append.mpr ⟨hs.wf.buried, List.forall_mem_singleton.mpr ⟨o, hf⟩⟩
  · rintro o' ⟨e, he, ho'⟩
    exact ⟨e, List.mem_append_left _ he, ho'⟩

/-- More acknowledged tasks do not hurt. -/
theorem acked_good (hsub : ∀ o ∈ acked, o ∈ acked') : s.Keeps codec group name acked acked' s :=
  keeps_of_step hs hs.wf (.grow rfl rfl (fun _ h => h) (fun _ _ _ h => h) (fun _ h => h) hsub)

/-- `XACK` of an entry whose task is accounted for otherwise. -/
theorem ack_good {e : Entry} (hsub : ∀ o ∈ acked, o ∈ acked') (he : e ∈ s.stream.entries)
    (ho : e.origin = some o)
    (hwhy : o ∈ acked' ∨ (s.copies group acked).dead o ∨ (s.copies group acked).After o e.id)
    (hentries : st.entries = s.stream.entries) (hlast : st.lastId = s.stream.lastId)
    (hcursor : st.cursor group = s.stream.cursor group)
    (hpending : st.pending group = (s.stream.pending group).filter fun p => p.id ≠ e.id) :
    s.Keeps codec group name acked acked' { s with stream := st } := by
  refine keeps_of_step hs { hs.wf with
    cursor := ?_, sorted := hentries ▸ hs.wf.sorted, streamed := hentries ▸ hs.wf.streamed }
    (.retire e.id o (mem_copies_stream.mpr ⟨e, he, rfl, ho⟩) hwhy ?_ hlast (fun _ h => h) ?_
      (fun _ h => h) hsub)
  · rw [show ({ s with stream := st } : Shelf).stream = st from rfl, hcursor, hlast]
    exact hs.wf.cursor
  · simp [Shelf.copies, hentries]
  · intro id o' _ hne hl
    rcases hl with hl | ⟨p, hp, hid⟩
    · exact .inl (hcursor ▸ hl)
    · refine .inr ⟨p, ?_, hid⟩
      rw [show ({ s with stream := st } : Shelf).stream = st from rfl, hpending]
      simp [hp, hid, hne]

end

end Steps

section Zsets

variable {codec : Codec} {w : World}

/-- The script only takes members away. -/
theorem promoteAll_zsets (delayed stream field : String) (members : List Value) (w : World) :
    let w' := members.foldl (World.promoteOne codec delayed stream field) w
    w'.now = w.now ∧ ∀ key, ∀ p ∈ w'.zsets key, p ∈ w.zsets key := by
  induction members generalizing w with
  | nil => exact ⟨rfl, fun _ _ hp => hp⟩
  | cons member rest ih =>
    obtain ⟨hnow, hzsets⟩ := ih (w.promoteOne codec delayed stream field member)
    refine ⟨hnow, fun key p hp => ?_⟩
    have hp' := hzsets key p hp
    by_cases hkey : key = delayed
    · subst key
      simp only [World.promoteOne, World.zrem, World.setZset, Function.update_self] at hp'
      exact List.mem_of_mem_filter hp'
    · simpa [World.promoteOne, World.zrem, World.setZset, hkey, World.xadd, World.setStream] using hp'

/-- A member that is there already keeps its value and gets the new score. -/
theorem mem_zadd {key key' : String} {score : Int} {m : Value} {p : Int × Value}
    (hp : p ∈ (w.zadd key score m).zsets key') : p ∈ w.zsets key' ∨
      p.1 = score ∧ p.2.bytes = m.bytes ∧ (p.2 = m ∨ ∃ e ∈ w.zsets key, e.2 = p.2) := by
  by_cases hkey : key' = key
  · subst key'
    simp only [World.zadd, World.setZset, Function.update_self] at hp
    rcases mem_zinsert.mp hp with rfl | hold
    · refine .inr ⟨rfl, ?_⟩
      cases hfind : (w.zsets key).find? fun e => e.2.bytes = m.bytes with
      | none => exact ⟨rfl, .inl rfl⟩
      | some e =>
        exact ⟨by simpa using List.find?_some hfind, .inr ⟨e, List.mem_of_find?_eq_some hfind, rfl⟩⟩
    · exact .inl (List.mem_of_mem_filter hold)
  · simp only [World.zadd, World.setZset, Function.update_of_ne hkey] at hp
    exact .inl hp

/-- Only `ZADD` adds to a sorted set, and no command sets the clock. -/
theorem apply_zsets (codec : Codec) (i : Nat) (l : Label) (w : World) (c : Command) :
    (∃ key score m, c = .zadd key score m) ∨ (apply codec i l w c).2.now = w.now ∧
      ∀ key, ∀ p ∈ (apply codec i l w c).2.zsets key, p ∈ w.zsets key := by
  cases c with
  | zadd key score m => exact .inl ⟨key, score, m, rfl⟩
  | promote delayed stream due limit field => exact .inr (promoteAll_zsets delayed stream field _ w)
  | random | xgroupCreate key group | xpendingIdle key group idle =>
    simp only [apply]
    split <;> exact .inr ⟨rfl, fun _ _ hp => hp⟩
  | xautoclaim key group consumer minIdle | xclaim key group consumer minIdle id =>
    simp only [apply]
    split
    · exact .inr ⟨rfl, fun _ _ hp => hp⟩
    · obtain ⟨streams, hclaim⟩ := claimFirst_frame w key group consumer i _
      rw [hclaim]
      exact .inr ⟨rfl, fun _ _ hp => hp⟩
  | xpendingId key group id =>
    simp only [apply]
    (repeat' split) <;> exact .inr ⟨rfl, fun _ _ hp => hp⟩
  | xreadgroup key group consumer =>
    simp only [apply, World.readGroup]
    (repeat' split) <;> exact .inr ⟨rfl, fun _ _ hp => hp⟩
  | xack key group id settlement =>
    obtain ⟨streams, acked, hack⟩ := ack_frame w key group id settlement
    simp only [apply, hack]
    exact .inr ⟨trivial, fun _ _ hp => hp⟩
  | _ => exact .inr ⟨rfl, fun _ _ hp => hp⟩

end Zsets

end Fries.RedisQueue
