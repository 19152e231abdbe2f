import Fries.Queue.Redis.Shelf
import Mathlib.Data.List.Nodup

/-! The ledger of one queue: its entries, who holds them, and the delivery counts given out. -/
namespace Fries.RedisQueue

open Fries.Queue

structure Ledger where
  entries : List Entry
  last : Nat
  cursor : Nat
  pending : List Pending
  grants : List Grant

def Queue.ledger (q : Queue) (w : World) (name : String) : Ledger :=
  let s := w.streams (q.streamKey name)
  ⟨s.entries, s.lastId, s.cursor q.group, s.pending q.group,
    w.grants.filter fun g => g.key = q.streamKey name⟩

/-- What a proof asks of the entries that are added, and of the records that are claimed or
counted. -/
structure Rules where
  add : List (String × Value) → Prop
  claim : Ledger → Pending → Prop
  count : Ledger → Pending → Prop

/-- At most one count is given out, for the entry `id` and to thread `i`. -/
def Gives (i id count : Nat) (given : List Grant) : Prop :=
  given = [] ∨ ∃ key, given = [⟨key, id, i, count⟩]

/-- What thread `i` can do to a ledger. -/
inductive Ledger.Step (R : Rules) (i : Nat) (s : Ledger) : Ledger → Prop
  | stay : Step R i s s
  | append (new : List Entry) (last : Nat) (hsorted : new.Pairwise fun e e' => e.id < e'.id)
      (hnew : ∀ e ∈ new, s.last < e.id ∧ e.id ≤ last ∧ R.add e.fields) (hlast : s.last ≤ last) :
      Step R i s { s with entries := s.entries ++ new, last := last }
  | claim (p : Pending) (consumer : String) (now : Int) (hp : p ∈ s.pending) (hok : R.claim s p) :
      Step R i s
        { s with pending := s.pending.map fun r => if r.id = p.id then r.claim consumer now i else r }
  | read (e : Entry) (consumer : String) (now : Int) (given : List Grant) (he : e ∈ s.entries)
      (hnew : s.cursor < e.id) (hgiven : Gives i e.id 1 given) :
      Step R i s
        { s with
          cursor := e.id
          pending := s.pending ++ [⟨e.id, consumer, now, 1, i⟩]
          grants := s.grants ++ given }
  | count (p : Pending) (given : List Grant) (hp : p ∈ s.pending) (hok : R.count s p)
      (hgiven : Gives i p.id p.count given) : Step R i s { s with grants := s.grants ++ given }
  | ack (id : Nat) : Step R i s { s with pending := s.pending.filter fun p => p.id ≠ id }

/-- Ids are given out in order; a record belongs to an entry that was read, and no entry has
two. -/
structure Ledger.Tidy (s : Ledger) : Prop where
  sorted : s.entries.Pairwise fun e e' => e.id < e'.id
  bounded : ∀ e ∈ s.entries, e.id ≤ s.last
  cursor : s.cursor ≤ s.last
  behind : ∀ p ∈ s.pending, p.id ≤ s.cursor
  distinct : s.pending.Pairwise fun p p' => p.id ≠ p'.id
  counted : ∀ p ∈ s.pending, 0 < p.count

namespace Ledger

variable {R : Rules} {i : Nat} {s s' : Ledger} {e : Entry} {p : Pending}

theorem step_entries (h : Step R i s s') : ∀ e ∈ s.entries, e ∈ s'.entries := by
  cases h with
  | append new last => exact fun e he => List.mem_append_left _ he
  | _ => exact fun e he => he

theorem step_grants (h : Step R i s s') : s.grants <+: s'.grants := by
  cases h with
  | read e consumer now given | count p given => exact List.prefix_append _ _
  | _ => exact List.prefix_rfl

theorem tidy_append {new : List Entry} {last : Nat} (hs : s.Tidy)
    (hsorted : new.Pairwise fun e e' => e.id < e'.id)
    (hnew : ∀ e ∈ new, s.last < e.id ∧ e.id ≤ last) (hlast : s.last ≤ last) :
    ({ s with entries := s.entries ++ new, last := last } : Ledger).Tidy := by
  refine ⟨?_, ?_, Nat.le_trans hs.cursor hlast, hs.behind, hs.distinct, hs.counted⟩
  · refine List.pairwise_append.mpr ⟨hs.sorted, hsorted, ?_⟩
    intro e he e' he'
    exact Nat.lt_of_le_of_lt (hs.bounded e he) (hnew e' he').1
  · intro e he
    rcases List.mem_append.mp he with he | he
    · exact Nat.le_trans (hs.bounded e he) hlast
    · exact (hnew e he).2

/-- Claiming changes no id. -/
theorem claim_id (p r : Pending) (consumer : String) (now : Int) :
    (if r.id = p.id then r.claim consumer now i else r).id = r.id := by
  split <;> rfl

theorem tidy_claim (hs : s.Tidy) (p : Pending) (consumer : String) (now : Int) :
    ({ s with pending := s.pending.map fun r =>
        if r.id = p.id then r.claim consumer now i else r } : Ledger).Tidy := by
  refine ⟨hs.sorted, hs.bounded, hs.cursor, ?_, ?_, ?_⟩
  · intro r hr
    obtain ⟨r', hr', rfl⟩ := List.mem_map.mp hr
    rw [claim_id]
    exact hs.behind r' hr'
  · refine List.pairwise_map.mpr (hs.distinct.imp ?_)
    intro r r' hne
    rwa [claim_id, claim_id]
  · intro r hr
    obtain ⟨r', hr', rfl⟩ := List.mem_map.mp hr
    split
    · exact Nat.succ_pos _
    · exact hs.counted r' hr'

theorem tidy_read (hs : s.Tidy) (he : e ∈ s.entries) (hnew : s.cursor < e.id) (hid : p.id = e.id)
    (hcount : 0 < p.count) (given : List Grant) :
    ({ s with cursor := e.id, pending := s.pending ++ [p], grants := s.grants ++ given } :
      Ledger).Tidy := by
  refine ⟨hs.sorted, hs.bounded, hs.bounded e he, ?_, ?_, ?_⟩
  · exact List.forall_mem_append.mpr
      ⟨fun r hr => Nat.le_of_lt (Nat.lt_of_le_of_lt (hs.behind r hr) hnew),
        List.forall_mem_singleton.mpr (Nat.le_of_eq hid)⟩
  · refine List.pairwise_append.mpr ⟨hs.distinct, List.pairwise_singleton _ _, ?_⟩
    intro r hr r' hr'
    obtain rfl := List.mem_singleton.mp hr'
    have := hs.behind r hr
    omega
  · exact List.forall_mem_append.mpr ⟨hs.counted, List.forall_mem_singleton.mpr hcount⟩

theorem tidy_step (hs : s.Tidy) (h : Step R i s s') : s'.Tidy := by
  cases h with
  | stay => exact hs
  | append new last hsorted hnew hlast =>
    exact tidy_append hs hsorted (fun e he => ⟨(hnew e he).1, (hnew e he).2.1⟩) hlast
  | claim p consumer now => exact tidy_claim hs p consumer now
  | read e consumer now given he hnew => exact tidy_read hs he hnew rfl Nat.one_pos given
  | count p given => exact { hs with }
  | ack id =>
    exact ⟨hs.sorted, hs.bounded, hs.cursor, fun p hp => hs.behind p (List.mem_of_mem_filter hp),
      hs.distinct.sublist List.filter_sublist, fun p hp => hs.counted p (List.mem_of_mem_filter hp)⟩

theorem entry_eq (hs : s.Tidy) {e' : Entry} (he : e ∈ s.entries) (he' : e' ∈ s.entries)
    (hid : e.id = e'.id) : e = e' :=
  List.inj_on_of_nodup_map (List.pairwise_map.mpr (hs.sorted.imp Nat.ne_of_lt)) he he' hid

theorem record_eq (hs : s.Tidy) {p' : Pending} (hp : p ∈ s.pending) (hp' : p' ∈ s.pending)
    (hid : p.id = p'.id) : p = p' :=
  List.inj_on_of_nodup_map (List.pairwise_map.mpr hs.distinct) hp hp' hid

end Ledger

section View

variable (q : Queue) (w : World) (name n : String)

theorem ledger_setStream (s : Stream) :
    q.ledger (w.setStream (q.streamKey name) s) n =
      if n = name then
        ⟨s.entries, s.lastId, s.cursor q.group, s.pending q.group, (q.ledger w name).grants⟩
      else q.ledger w n := by
  by_cases h : n = name
  · subst n
    simp [Queue.ledger, World.setStream]
  · have hne : q.streamKey n ≠ q.streamKey name := fun he => h (streamKey_inj q he)
    simp [Queue.ledger, World.setStream, h, hne]

theorem ledger_setDead (s : Stream) :
    q.ledger (w.setStream (q.deadLetterKey name) s) n = q.ledger w n := by
  have hne : q.streamKey n ≠ q.deadLetterKey name := streamKey_ne_deadLetterKey q
  simp [Queue.ledger, World.setStream, hne]

theorem ledger_grant (codec : Codec) (entries : List Entry) (thread count : Nat) :
    q.ledger (w.grant codec (q.streamKey name) entries thread count) n =
      if n = name then
        { q.ledger w name with
          grants := (q.ledger w name).grants ++
            (entries.filter codec.decodes).map fun e => ⟨q.streamKey name, e.id, thread, count⟩ }
      else q.ledger w n := by
  by_cases h : n = name
  · subst n
    simp [Queue.ledger, World.grant, List.filter_map, Function.comp_def]
  · have hne : q.streamKey name ≠ q.streamKey n := fun he => h (streamKey_inj q he).symm
    simp [Queue.ledger, World.grant, h, hne, List.filter_map, Function.comp_def]

end View

section Commands

variable {codec : Codec} {q : Queue} {R : Rules} {i : Nat} {w w' : World} {name : String}
  {s s' : Ledger} {c : Command}

def Value.payload (codec : Codec) (m : Value) : Value :=
  ⟨(codec.cjsonTask m.bytes).getD m.bytes, m.origin⟩

/-- The commands that are steps of every ledger. -/
def Admitted (R : Rules) (codec : Codec) (q : Queue) (w : World) : Command → Prop
  | .now | .random | .zadd .. | .xpendingIdle .. => True
  | .promote delayed stream _ _ field => ∃ name, delayed = q.delayedKey name ∧
      stream = q.streamKey name ∧ ∀ m ∈ w.zsets delayed, R.add [(field, m.2.payload codec)]
  | .xadd key maxLen fields => (∃ name, key = q.streamKey name ∧ maxLen = 0 ∧ R.add fields) ∨
      ∃ name, key = q.deadLetterKey name
  | .xgroupCreate key group | .xreadgroup key group _ | .xack key group _ _ =>
    (∃ name, key = q.streamKey name) ∧ group = q.group
  | .xautoclaim key group _ minIdle => ∃ name, key = q.streamKey name ∧ group = q.group ∧
      ∀ p, (((q.ledger w name).pending.take 10).find? fun p => p.idleFor w.now minIdle) = some p →
        R.claim (q.ledger w name) p
  | .xclaim key group _ minIdle id => ∃ name, key = q.streamKey name ∧ group = q.group ∧
      ∀ p, ((q.ledger w name).pending.find? fun p => p.id = id ∧ p.idleFor w.now minIdle) = some p →
        R.claim (q.ledger w name) p
  | .xpendingId key group id => ∃ name, key = q.streamKey name ∧ group = q.group ∧
      ∀ p ∈ (q.ledger w name).pending, p.id = id → R.count (q.ledger w name) p

/-- Each ledger makes a step of thread `i`. -/
def Moves (R : Rules) (q : Queue) (i : Nat) (w w' : World) : Prop :=
  ∀ name, (q.ledger w name).Step R i (q.ledger w' name)

theorem moves_stay (h : ∀ name, q.ledger w' name = q.ledger w name) : Moves R q i w w' := by
  intro name
  rw [h]
  exact .stay

/-- A command on one stream. -/
theorem moves_stream (h : ∀ n, q.ledger w' n = if n = name then s else q.ledger w n)
    (hs : (q.ledger w name).Step R i s) : Moves R q i w w' := by
  intro n
  rw [h]
  split
  · rename_i hn
    rw [hn]
    exact hs
  · exact .stay

/-- The same ledger with more entries. -/
def Ledger.Extends (R : Rules) (s s' : Ledger) : Prop :=
  ∃ new last, new.Pairwise (fun e e' : Entry => e.id < e'.id) ∧
    (∀ e ∈ new, s.last < e.id ∧ e.id ≤ last ∧ R.add e.fields) ∧ s.last ≤ last ∧
      s' = { s with entries := s.entries ++ new, last := last }

theorem extends_refl (s : Ledger) : s.Extends R s :=
  ⟨[], s.last, .nil, by simp, Nat.le_refl _, by simp⟩

theorem extends_cons {fields : List (String × Value)} (hadd : R.add fields) (h : Ledger.Extends R
      { s with entries := s.entries ++ [⟨s.last + 1, fields⟩], last := s.last + 1 } s') :
    s.Extends R s' := by
  obtain ⟨new, last, hsorted, hnew, hlast, rfl⟩ := h
  refine ⟨⟨s.last + 1, fields⟩ :: new, last, ?_, ?_, ?_, by simp⟩
  · exact List.pairwise_cons.mpr ⟨fun e he => (hnew e he).1, hsorted⟩
  · intro e he
    rcases List.mem_cons.mp he with rfl | he
    · exact ⟨Nat.lt_succ_self _, hlast, hadd⟩
    · exact ⟨Nat.lt_of_succ_lt (hnew e he).1, (hnew e he).2⟩
  · exact Nat.le_of_succ_le hlast

theorem step_of_extends (h : s.Extends R s') : s.Step R i s' := by
  obtain ⟨new, last, hsorted, hnew, hlast, rfl⟩ := h
  exact .append new last hsorted hnew hlast

theorem ledger_xadd (q : Queue) (w : World) (name n : String) (drop : Nat)
    (fields : List (String × Value)) :
    q.ledger (w.xadd (q.streamKey name) 0 drop fields) n =
      if n = name then
        { q.ledger w name with
          entries := (q.ledger w name).entries ++ [⟨(q.ledger w name).last + 1, fields⟩]
          last := (q.ledger w name).last + 1 }
      else q.ledger w n :=
  ledger_setStream q w name n _

theorem promoteAll_extends (name field : String) : ∀ (members : List Value) (w : World),
    (∀ m ∈ members, R.add [(field, m.payload codec)]) → ∃ s, (q.ledger w name).Extends R s ∧
      ∀ n, q.ledger (members.foldl
        (World.promoteOne codec (q.delayedKey name) (q.streamKey name) field) w) n =
          if n = name then s else q.ledger w n := by
  intro members
  induction members with
  | nil =>
    intro w _
    refine ⟨q.ledger w name, extends_refl _, ?_⟩
    intro n
    split
    · rename_i hn
      rw [hn]
      rfl
    · rfl
  | cons m rest ih =>
    intro w hadd
    let w₁ := w.promoteOne codec (q.delayedKey name) (q.streamKey name) field m
    have hw₁ : ∀ n, q.ledger w₁ n = _ :=
      fun n => ledger_xadd q w name n 0 [(field, m.payload codec)]
    obtain ⟨s, hs, hrest⟩ := ih w₁ fun m' hm' => hadd m' (List.mem_cons_of_mem _ hm')
    rw [hw₁, if_pos rfl] at hs
    refine ⟨s, extends_cons (hadd m List.mem_cons_self) hs, ?_⟩
    intro n
    rw [List.foldl_cons, hrest, hw₁]
    split <;> rfl

theorem promote_moves (name field : String) (due : Int) (limit : Nat)
    (hadd : ∀ m ∈ w.zsets (q.delayedKey name), R.add [(field, m.2.payload codec)]) :
    Moves R q i w (w.promote codec (q.delayedKey name) (q.streamKey name) due limit field) := by
  have hmembers : ∀ m ∈ (((w.zsets (q.delayedKey name)).filter fun e => e.1 ≤ due).take limit).map
      Prod.snd, R.add [(field, m.payload codec)] := by
    intro m hm
    obtain ⟨e, he, rfl⟩ := List.mem_map.mp hm
    exact hadd e (List.mem_of_mem_filter (List.mem_of_mem_take he))
  obtain ⟨s, hs, hall⟩ := promoteAll_extends name field _ w hmembers
  exact moves_stream hall (step_of_extends hs)

section Group

variable {g : Group}

theorem ledger_of_group (hg : (w.streams (q.streamKey name)).groups q.group = some g) :
    (q.ledger w name).cursor = g.cursor ∧ (q.ledger w name).pending = g.pending := by
  simp [Queue.ledger, Stream.cursor, Stream.pending, hg]

/-- A new state of the group of one stream. -/
theorem ledger_setGroup (q : Queue) (w : World) (name n : String) (g : Group) :
    q.ledger (w.setStream (q.streamKey name)
        ((w.streams (q.streamKey name)).setGroup q.group g)) n =
      if n = name then { q.ledger w name with cursor := g.cursor, pending := g.pending }
      else q.ledger w n := by
  rw [ledger_setStream]
  simp [Stream.setGroup, Stream.cursor, Stream.pending, Queue.ledger]

theorem groupCreate_moves (hg : (w.streams (q.streamKey name)).groups q.group = none) :
    Moves R q i w (w.setStream (q.streamKey name)
      ((w.streams (q.streamKey name)).setGroup q.group ⟨0, []⟩)) := by
  refine moves_stream (ledger_setGroup q w name · _) ?_
  have hempty : (q.ledger w name).cursor = 0 ∧ (q.ledger w name).pending = [] := by
    simp [Queue.ledger, Stream.cursor, Stream.pending, hg]
  rw [← hempty.1, ← hempty.2]
  exact .stay

theorem claimFirst_moves (hg : (w.streams (q.streamKey name)).groups q.group = some g)
    (consumer : String) {found : Option Pending}
    (hfound : ∀ p, found = some p → p ∈ g.pending ∧ R.claim (q.ledger w name) p) :
    Moves R q i w (w.claimFirst (q.streamKey name) q.group consumer i found).2 := by
  cases found with
  | none => exact moves_stay fun _ => rfl
  | some p =>
    obtain ⟨hp, hok⟩ := hfound p rfl
    obtain ⟨hcursor, hpending⟩ := ledger_of_group hg
    simp only [World.claimFirst, World.claim, hg]
    refine moves_stream (ledger_setGroup q w name · _) ?_
    rw [← hcursor, ← hpending]
    exact .claim p consumer w.now (hpending ▸ hp) hok

theorem filter_gives (codec : Codec) (key : String) (entries : List Entry) {id : Nat}
    (h : entries.length ≤ 1) (hid : ∀ e ∈ entries, e.id = id) (count : Nat) :
    Gives i id count ((entries.filter codec.decodes).map fun e => ⟨key, e.id, i, count⟩) := by
  rcases entries with _ | ⟨e, _ | ⟨e', rest⟩⟩
  · exact .inl rfl
  · obtain rfl := hid e List.mem_cons_self
    by_cases hd : codec.decodes e
    · exact .inr ⟨key, by simp [hd]⟩
    · exact .inl (by simp [hd])
  · simp at h

theorem readGroup_moves (consumer : String) :
    Moves R q i w (w.readGroup codec (q.streamKey name) q.group consumer i).2 := by
  simp only [World.readGroup]
  split
  · exact moves_stay fun _ => rfl
  rename_i g hg
  split
  · exact moves_stay fun _ => rfl
  rename_i e he
  obtain ⟨hcursor, hpending⟩ := ledger_of_group hg
  have hnew : (q.ledger w name).cursor < e.id := by
    rw [hcursor]
    simpa using List.find?_some he
  refine moves_stream (fun n => ?_) (.read e consumer w.now _ (List.mem_of_find?_eq_some he) hnew
    (filter_gives codec (q.streamKey name) [e] (by simp) (by simp) 1))
  rw [ledger_grant, ledger_setGroup, ledger_setGroup, if_pos rfl, hpending]
  split
  · rfl
  · rfl

theorem count_moves {p : Pending} (hp : p ∈ (q.ledger w name).pending)
    (hok : R.count (q.ledger w name) p) :
    Moves R q i w (w.grant codec (q.streamKey name) ((w.streams (q.streamKey name)).find p.id) i
      p.count) := by
  refine moves_stream (ledger_grant q w name · codec _ i p.count) (.count p _ hp hok
    (filter_gives codec _ _ ?_ ?_ p.count))
  · simp only [Stream.find]
    exact Option.length_toList_le
  · intro e he
    simp only [Stream.find, Option.mem_toList] at he
    simpa using List.find?_some he

theorem ack_moves (id : Nat) (settlement : Settlement) :
    Moves R q i w (w.ack (q.streamKey name) q.group id settlement).2 := by
  simp only [World.ack]
  split
  · exact moves_stay fun _ => rfl
  rename_i g hg
  split
  swap
  · exact moves_stay fun _ => rfl
  obtain ⟨hcursor, hpending⟩ := ledger_of_group hg
  have hmove : Moves R q i w (w.setStream (q.streamKey name)
      ((w.streams (q.streamKey name)).setGroup q.group
        { g with pending := g.pending.filter fun p => p.id ≠ id })) := by
    refine moves_stream (ledger_setGroup q w name · _) ?_
    rw [← hcursor, ← hpending]
    exact .ack id
  by_cases hset : settlement = .ack
  · simp only [hset, if_true]
    exact hmove
  · simp only [hset, if_false]
    exact hmove

end Group

theorem apply_moves (hc : Admitted R codec q w c) (l : Label) :
    Moves R q i w (apply codec i l w c).2 := by
  cases c with
  | now | zadd key score m => exact moves_stay fun _ => rfl
  | random | xpendingIdle key group idle =>
    simp only [apply]
    split <;> exact moves_stay fun _ => rfl
  | promote delayed stream due limit field =>
    obtain ⟨name, rfl, rfl, hadd⟩ := hc
    exact promote_moves name field due limit hadd
  | xadd key maxLen fields =>
    rcases hc with ⟨name, rfl, rfl, hadd⟩ | ⟨name, rfl⟩
    · exact moves_stream (ledger_xadd q w name · l.drop fields)
        (step_of_extends (extends_cons hadd (extends_refl _)))
    · exact moves_stay fun n => ledger_setDead q w name n _
  | xgroupCreate key group =>
    obtain ⟨⟨name, rfl⟩, rfl⟩ := hc
    simp only [apply]
    split
    · exact moves_stay fun _ => rfl
    · rename_i hg
      exact groupCreate_moves hg
  | xautoclaim key group consumer minIdle | xclaim key group consumer minIdle id =>
    obtain ⟨name, rfl, rfl, hok⟩ := hc
    simp only [apply]
    split
    · exact moves_stay fun _ => rfl
    · rename_i g hg
      refine claimFirst_moves hg consumer fun p hp => ⟨?_, hok p ((ledger_of_group hg).2 ▸ hp)⟩
      have hmem := List.mem_of_find?_eq_some hp
      first | exact hmem | exact List.mem_of_mem_take hmem
  | xpendingId key group id =>
    obtain ⟨name, rfl, rfl, hok⟩ := hc
    simp only [apply]
    split
    · exact moves_stay fun _ => rfl
    · rename_i g hg
      split
      · exact moves_stay fun _ => rfl
      · rename_i p hp
        obtain rfl : p.id = id := by simpa using List.find?_some hp
        have hmem := (ledger_of_group hg).2 ▸ List.mem_of_find?_eq_some hp
        exact count_moves hmem (hok p hmem rfl)
  | xreadgroup key group consumer =>
    obtain ⟨⟨name, rfl⟩, rfl⟩ := hc
    exact readGroup_moves consumer
  | xack key group id settlement =>
    obtain ⟨⟨name, rfl⟩, rfl⟩ := hc
    exact ack_moves id settlement

theorem exec_moves (hc : Admitted R codec q w c) (l : Label) :
    Moves R q i w (exec codec i l w c).2 :=
  exec_world (moves_stay fun _ => rfl) (apply_moves hc l)

end Commands

section Programs

variable (codec : Codec) (q : Queue) (add : List (String × Value) → Prop)

/-- The commands that do not read from a group, of a thread that adds entries of one kind. -/
def Routine : Command → Prop
  | .now | .random | .xpendingIdle .. => True
  | .zadd _ _ m => add [(taskField, m.payload codec)]
  | .promote delayed stream _ _ field =>
    ∃ name, delayed = q.delayedKey name ∧ stream = q.streamKey name ∧ field = taskField
  | .xadd key maxLen fields => (∃ name, key = q.streamKey name ∧ maxLen = 0 ∧ add fields) ∨
      ∃ name, key = q.deadLetterKey name
  | .xgroupCreate key group | .xack key group _ _ | .xautoclaim key group _ _
  | .xclaim key group _ _ _ => (∃ name, key = q.streamKey name) ∧ group = q.group
  | .xreadgroup .. | .xpendingId .. => False

variable {codec q add}

theorem newDelayedEntry_routine {data : Value} {f : Except Error Value → Program (Except Error Unit)}
    (herr : ∀ err, (f (.error err)).Only (Routine codec q add))
    (hok : ∀ m : Value, m.payload codec = data → (f (.ok m)).Only (Routine codec q add)) :
    (Queue.newDelayedEntry codec data >>= f).Only (Routine codec q add) := by
  refine ⟨trivial, fun r => ?_⟩
  cases r with
  | error err => exact herr _
  | ok token =>
    refine ⟨trivial, fun now => ?_⟩
    simp only [Prog.bind]
    cases hm : codec.marshalEntry (token ++ "-" ++ toString (unixNano now)) data.bytes with
    | none => exact herr _
    | some entry =>
      refine hok ⟨entry, data.origin⟩ ?_
      simp only [Value.payload, codec.cjsonTask_entry hm, Option.getD_some]

theorem enqueue_routine (task : Option Task) (hadd : ∀ t data, task = some t →
      marshal codec ⟨t.toEnvelope.normalize, t.origin⟩ = some data → add [(taskField, data)]) :
    (q.enqueue codec task).Only (Routine codec q add) := by
  cases task with
  | none => trivial
  | some t =>
    simp only [Queue.enqueue]
    split
    · trivial
    · rename_i data hdata
      have hdata' := hadd t data rfl hdata
      refine ⟨trivial, fun now => ?_⟩
      simp only [Prog.bind]
      split
      · refine newDelayedEntry_routine (fun _ => trivial) fun m hm => ⟨?_, fun _ => trivial⟩
        simp only [Routine, hm]
        exact hdata'
      · exact ⟨.inl ⟨_, rfl, rfl, hdata'⟩, fun _ => trivial⟩

theorem newConsumer_routine (ctx : Option RedisError) (config : ConsumerConfig) :
    (q.newConsumer ctx config).Only (Routine codec q add) :=
  newConsumer_only (fun _ => ⟨⟨_, rfl⟩, rfl⟩) ctx config

variable (d : Delivery)

theorem ack_routine (settlement : Settlement) : (d.ack q settlement).Only (Routine codec q add) :=
  ack_only ⟨⟨_, rfl⟩, rfl⟩

theorem retry_routine (delay : Int) (hadd : ∀ (t : Task) data, t.origin = d.task.origin →
      t.attempt = d.task.attempt → marshal codec t = some data → add [(taskField, data)]) :
    (d.retry codec q delay).Only (Routine codec q add) := by
  refine ⟨trivial, fun now => ?_⟩
  simp only [Prog.bind]
  refine Prog.only_bind (enqueue_routine _ ?_) ?_
  · intro t data ht hdata
    cases ht
    refine hadd _ data ?_ ?_ hdata
    · rfl
    · exact normalize_attempt _
  · intro r
    cases r with
    | error err => trivial
    | ok u => exact ack_routine d .retry

theorem deadLetter_routine (reason : String) :
    (d.deadLetter codec q reason).Only (Routine codec q add) :=
  deadLetter_only (fun _ => .inr ⟨_, rfl⟩) ⟨⟨_, rfl⟩, rfl⟩

end Programs

end Fries.RedisQueue
