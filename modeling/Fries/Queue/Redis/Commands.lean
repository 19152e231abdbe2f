import Fries.Queue.Redis.Shelf
import Mathlib.Data.List.Nodup

/-! What a thread relies on and guarantees, and the commands that keep it. -/
namespace Fries.RedisQueue

open Fries.Queue

variable {codec : Codec} {q : Queue} {i j : Nat} {w w' w'' : World} {name : String} {o : Origin}
  {c : Command}

attribute [local simp] Stream.cursor Stream.pending

structure Inv (codec : Codec) (q : Queue) (w : World) : Prop where
  good : ∀ name, (q.shelf w name).Good codec q.group name w.acked
  tokens : (w.tokens.map Prod.fst).Nodup
  drawn : ∀ name, ∀ e ∈ (q.shelf w name).zset, ∃ t ∈ w.tokens, e.2.Uses codec t.1

/-- What no command of anyone takes back. -/
structure Later (q : Queue) (w w' : World) : Prop where
  copies : ∀ name, ((q.shelf w name).copies q.group w.acked).Later
    ((q.shelf w' name).copies q.group w'.acked)
  tokens : ∀ t ∈ w.tokens, t ∈ w'.tokens

/-- The other threads add no delayed entry made with a token of thread `i`. -/
structure Rely (codec : Codec) (q : Queue) (i : Nat) (w w' : World) : Prop where
  later : Later q w w'
  mine : ∀ t, (t, i) ∈ w.tokens → ∀ name, ∀ e ∈ (q.shelf w' name).zset, e.2.Uses codec t →
    ∃ e' ∈ (q.shelf w name).zset, e'.2 = e.2

/-- Thread `i` adds delayed entries with its own tokens only. -/
structure Guar (codec : Codec) (q : Queue) (i : Nat) (w w' : World) : Prop where
  later : Later q w w'
  fresh : ∀ name, ∀ e ∈ (q.shelf w' name).zset, (∃ e' ∈ (q.shelf w name).zset, e'.2 = e.2) ∨
    ∃ t, (t, i) ∈ w.tokens ∧ e.2.Uses codec t

theorem later_refl (q : Queue) (w : World) : Later q w w :=
  ⟨fun _ => Copies.later_refl _, fun _ h => h⟩

theorem later_trans (h : Later q w w') (h' : Later q w' w'') : Later q w w'' :=
  ⟨fun n => Copies.later_trans (h.copies n) (h'.copies n), fun t ht => h'.tokens t (h.tokens t ht)⟩

theorem rely_trans (h : Rely codec q i w w') (h' : Rely codec q i w' w'') :
    Rely codec q i w w'' := by
  refine ⟨later_trans h.later h'.later, ?_⟩
  intro t ht name e he hu
  obtain ⟨e', he', heq⟩ := h'.mine t (h.later.tokens _ ht) name e he hu
  obtain ⟨e'', he'', heq'⟩ := h.mine t ht name e' he' (heq ▸ hu)
  exact ⟨e'', he'', heq'.trans heq⟩

/-- A token belongs to one thread. -/
theorem rely_of_guar (hij : i ≠ j) (hw : Inv codec q w) (h : Guar codec q j w w') :
    Rely codec q i w w' := by
  refine ⟨h.later, ?_⟩
  intro t ht name e he hu
  rcases h.fresh name e he with hold | ⟨t', ht', hu'⟩
  · exact hold
  · obtain rfl := token_eq hu hu'
    have heq := List.inj_on_of_nodup_map hw.tokens ht ht' rfl
    exact absurd (Prod.mk.inj heq).2 hij

def contract (codec : Codec) (q : Queue) : (service codec q).Contract where
  Inv := Inv codec q
  Rely := Rely codec q
  Guar := Guar codec q
  Unused := fun _ _ => True
  Ok := fun _ _ _ => True
  Issue := fun _ _ _ => True
  rely_refl _ w := ⟨later_refl q w, fun _ _ _ e he _ => ⟨e, he, rfl⟩⟩
  rely_trans _ _ _ _ := rely_trans
  rely_of_guar _ _ _ _ := rely_of_guar
  inv_shift _ _ h := ⟨h.good, h.tokens, h.drawn⟩
  rely_shift _ _ _ _ :=
    ⟨⟨fun _ => Copies.later_refl _, fun _ h => h⟩, fun _ _ _ e he _ => ⟨e, he, rfl⟩⟩
  unused_rely _ _ _ _ _ := trivial

/-- What every command of thread `i` has to do. -/
def Keeps (codec : Codec) (q : Queue) (i : Nat) (w w' : World) : Prop :=
  Inv codec q w' ∧ Guar codec q i w w'

theorem keeps_refl (hw : Inv codec q w) : Keeps codec q i w w :=
  ⟨hw, later_refl q w, fun _ e he => .inl ⟨e, he, rfl⟩⟩

theorem keeps_trans (h : Keeps codec q i w w') (h' : Keeps codec q i w' w'')
    (htok : w'.tokens = w.tokens) : Keeps codec q i w w'' := by
  refine ⟨h'.1, later_trans h.2.later h'.2.later, ?_⟩
  intro name e he
  rcases h'.2.fresh name e he with ⟨e', he', heq⟩ | ⟨t, ht, hu⟩
  · rw [← heq]
    exact h.2.fresh name e' he'
  · exact .inr ⟨t, htok ▸ ht, hu⟩

/-- A command that touches one queue only. -/
theorem keeps_of_shelf (name : String) {s : Shelf} (hw : Inv codec q w)
    (htok : w'.tokens = w.tokens) (hack : ∀ o ∈ w.acked, o ∈ w'.acked)
    (hshelf : ∀ n, q.shelf w' n = if n = name then s else q.shelf w n)
    (hkeeps : (q.shelf w name).Keeps codec q.group name w.acked w'.acked s)
    (hfresh : ∀ e ∈ s.zset, (∃ e' ∈ (q.shelf w name).zset, e'.2 = e.2) ∨
      ∃ t, (t, i) ∈ w.tokens ∧ e.2.Uses codec t) : Keeps codec q i w w' := by
  have hold : ∀ n, ∀ e ∈ (q.shelf w' n).zset, (∃ e' ∈ (q.shelf w n).zset, e'.2 = e.2) ∨
      ∃ t, (t, i) ∈ w.tokens ∧ e.2.Uses codec t := by
    intro n e he
    rw [hshelf] at he
    split at he
    · subst n
      exact hfresh e he
    · exact .inl ⟨e, he, rfl⟩
  have hall : ∀ n, (q.shelf w n).Keeps codec q.group n w.acked w'.acked (q.shelf w' n) := by
    intro n
    rw [hshelf]
    split
    · subst n
      exact hkeeps
    · exact acked_good (hw.good n) hack
  refine ⟨⟨fun n => (hall n).good, htok ▸ hw.tokens, ?_⟩,
    ⟨fun n => (hall n).later, fun t ht => htok ▸ ht⟩, hold⟩
  intro n e he
  rcases hold n e he with ⟨e', he', heq⟩ | ⟨t, ht, hu⟩
  · obtain ⟨t, ht, hu⟩ := hw.drawn n e' he'
    exact ⟨t, htok ▸ ht, heq ▸ hu⟩
  · exact ⟨(t, i), htok ▸ ht, hu⟩

section Commands

variable {m : Value} {fields : List (String × Value)} {t : String}

/-- `ZADD` of a member that is not there yet. -/
theorem zadd_eq (hbytes : ∀ e ∈ (q.shelf w name).zset, e.2.bytes ≠ m.bytes) (score : Int) :
    w.zadd (q.delayedKey name) score m =
      w.setZset (q.delayedKey name) (zinsert (score, m) (q.shelf w name).zset) := by
  have hfind : (w.zsets (q.delayedKey name)).find? (fun e => e.2.bytes = m.bytes) = none := by
    rw [List.find?_eq_none]
    intro e he
    simpa using hbytes e he
  have hfilter : (w.zsets (q.delayedKey name)).filter (fun e => e.2.bytes ≠ m.bytes) =
      w.zsets (q.delayedKey name) := by
    rw [List.filter_eq_self]
    intro e he
    simpa using hbytes e he
  simp only [World.zadd, hfind, Option.map_none, Option.getD_none, hfilter]
  rfl

/-- No member was made with the token yet. -/
def Unused (codec : Codec) (q : Queue) (w : World) (name t : String) : Prop :=
  ∀ e ∈ (q.shelf w name).zset, ¬ e.2.Uses codec t

theorem unused_bytes (hu : m.Uses codec t) (hnew : Unused codec q w name t) :
    ∀ e ∈ (q.shelf w name).zset, e.2.bytes ≠ m.bytes := by
  intro e he heq
  obtain ⟨hl, n, b, hb⟩ := hu
  exact hnew e he ⟨hl, n, b, heq ▸ hb⟩

theorem zadd_keeps (hw : Inv codec q w) (hm : m.Delays codec o) (hu : m.Uses codec t)
    (ht : (t, i) ∈ w.tokens) (score : Int) (hnew : Unused codec q w o.queue t) :
    Keeps codec q i w (w.zadd (q.delayedKey o.queue) score m) := by
  have hbytes := unused_bytes hu hnew
  rw [zadd_eq hbytes]
  refine keeps_of_shelf o.queue hw rfl (fun _ h => h) (shelf_setZset q w o.queue · _)
    (zadd_good (hw.good _) score hm rfl hbytes) ?_
  intro e he
  rcases mem_zinsert.mp he with rfl | he
  · exact .inr ⟨t, ht, hu⟩
  · exact .inl ⟨e, he, rfl⟩

theorem xadd_keeps (hw : Inv codec q w) (hf : (⟨0, fields⟩ : Entry).Holds codec o) (drop : Nat) :
    Keeps codec q i w (w.xadd (q.streamKey o.queue) 0 drop fields) := by
  refine keeps_of_shelf o.queue hw rfl (fun _ h => h) (shelf_setStream q w o.queue · _) ?_ ?_
  · exact append_good (hw.good _) hf rfl (fun _ h => h) (fun _ h => .inl h)
  · exact fun e he => .inl ⟨e, he, rfl⟩

theorem xaddDead_keeps (hw : Inv codec q w) (hf : (⟨0, fields⟩ : Entry).Holds codec o) (drop : Nat) :
    Keeps codec q i w (w.xadd (q.deadLetterKey o.queue) 0 drop fields) := by
  refine keeps_of_shelf o.queue hw rfl (fun _ h => h) (shelf_setDead q w o.queue · _) ?_ ?_
  · exact dead_good (hw.good _) hf
  · exact fun e he => .inl ⟨e, he, rfl⟩

/-- A member moved by the script: its task gets an entry before it leaves the set. -/
theorem promoteOne_keeps (hw : Inv codec q w) (hm : m.Delays codec o)
    (hsame : ∀ e ∈ (q.shelf w o.queue).zset, e.2.bytes = m.bytes → e.2 = m) :
    let w' := w.promoteOne codec (q.delayedKey o.queue) (q.streamKey o.queue) taskField m
    Keeps codec q i w w' ∧ ∀ e ∈ (q.shelf w' o.queue).zset, e ∈ (q.shelf w o.queue).zset := by
  intro w'
  obtain ⟨ho, b, env, hb, henv, hcopy⟩ := hm
  let fields : List (String × Value) := [(taskField, ⟨b, m.origin⟩)]
  have hf : (⟨0, fields⟩ : Entry).Holds codec o := ⟨⟨b, m.origin⟩, rfl, ho, env, henv, hcopy⟩
  let st : Stream :=
    { (q.shelf w o.queue).stream with
      entries := (q.shelf w o.queue).stream.entries ++
        [⟨(q.shelf w o.queue).stream.lastId + 1, fields⟩]
      lastId := (q.shelf w o.queue).stream.lastId + 1 }
  let z := (q.shelf w o.queue).zset.filter fun e => e.2.bytes ≠ m.bytes
  have hw' : w' = (w.setStream (q.streamKey o.queue) st).setZset (q.delayedKey o.queue) z := by
    simp only [w', World.promoteOne, hb, Option.getD_some]
    rfl
  have hshelf : ∀ n, q.shelf w' n = if n = o.queue then
      { q.shelf w o.queue with zset := z, stream := st } else q.shelf w n := by
    intro n
    rw [hw', shelf_setZset]
    split <;> simp [shelf_setStream, *]
  have hsub : ∀ e ∈ z, e ∈ (q.shelf w o.queue).zset := fun e he => List.mem_of_mem_filter he
  refine ⟨keeps_of_shelf o.queue hw rfl (fun _ h => h) hshelf ?_ ?_, ?_⟩
  · refine append_good (hw.good _) hf rfl hsub ?_
    intro e he
    by_cases hbytes : e.2.bytes = m.bytes
    · exact .inr (hsame e he hbytes ▸ ho)
    · exact .inl (List.mem_filter.mpr ⟨he, by simpa using hbytes⟩)
  · exact fun e he => .inl ⟨e, hsub e he, rfl⟩
  · rw [hshelf, if_pos rfl]
    exact hsub

theorem promoteAll_keeps (name : String) : ∀ (members : List Value) (w : World), Inv codec q w →
    (∀ m ∈ members, ∃ o, m.Delays codec o ∧ o.queue = name ∧
      ∀ e ∈ (q.shelf w name).zset, e.2.bytes = m.bytes → e.2 = m) →
    Keeps codec q i w (members.foldl
      (World.promoteOne codec (q.delayedKey name) (q.streamKey name) taskField) w) := by
  intro members
  induction members with
  | nil => intro w hw _; exact keeps_refl hw
  | cons m rest ih =>
    intro w hw hall
    obtain ⟨o, hm, rfl, hsame⟩ := hall m List.mem_cons_self
    obtain ⟨hkeeps, hsub⟩ := promoteOne_keeps (i := i) hw hm hsame
    refine keeps_trans hkeeps (ih _ hkeeps.1 ?_) rfl
    intro m' hm'
    obtain ⟨o', hd, ho, hsame'⟩ := hall m' (List.mem_cons_of_mem _ hm')
    exact ⟨o', hd, ho, fun e he => hsame' e (hsub e he)⟩

theorem promote_keeps (hw : Inv codec q w) (name : String) (due : Int) (limit : Nat) :
    Keeps codec q i w
      (w.promote codec (q.delayedKey name) (q.streamKey name) due limit taskField) := by
  refine promoteAll_keeps name _ w hw ?_
  intro m hm
  obtain ⟨e, he, rfl⟩ := List.mem_map.mp hm
  have hmem : e ∈ (q.shelf w name).zset := List.mem_of_mem_filter (List.mem_of_mem_take he)
  obtain ⟨o, hd, ho⟩ := (hw.good name).wf.waiting e hmem
  exact ⟨o, hd, ho, fun e' he' => (hw.good name).wf.distinct e' he' e hmem⟩

/-- Commands on the group of a stream that keep its entries live. -/
theorem group_keeps (hw : Inv codec q w) (name : String) (st : Stream)
    (hentries : st.entries = (q.shelf w name).stream.entries)
    (hlast : st.lastId = (q.shelf w name).stream.lastId)
    (hcursor : st.cursor q.group ≤ st.lastId)
    (hlive : (q.shelf w name).stream.Spares st q.group) :
    Keeps codec q i w (w.setStream (q.streamKey name) st) := by
  refine keeps_of_shelf name hw rfl (fun _ h => h) (shelf_setStream q w name · _) ?_ ?_
  · exact group_good (hw.good name) hentries hlast hcursor hlive
  · exact fun e he => .inl ⟨e, he, rfl⟩

theorem keeps_grants (h : Keeps codec q i w w') (grants : List Grant) :
    Keeps codec q i w { w' with grants := grants } :=
  ⟨⟨h.1.good, h.1.tokens, h.1.drawn⟩, ⟨h.2.later.copies, h.2.later.tokens⟩, h.2.fresh⟩

theorem setGroup_cursor (s : Stream) (group : String) (g : Group) :
    (s.setGroup group g).cursor group = g.cursor := by
  simp [Stream.setGroup]

theorem setGroup_pending (s : Stream) (group : String) (g : Group) :
    (s.setGroup group g).pending group = g.pending := by
  simp [Stream.setGroup]

variable {g : Group} {consumer : String}

theorem cursor_le (hw : Inv codec q w) (hg : (w.streams (q.streamKey name)).groups q.group = some g) :
    g.cursor ≤ (w.streams (q.streamKey name)).lastId := by
  have h := (hw.good name).wf.cursor
  simpa [Queue.shelf, hg] using h

theorem groupCreate_keeps (hw : Inv codec q w)
    (hg : (w.streams (q.streamKey name)).groups q.group = none) :
    Keeps codec q i w (w.setStream (q.streamKey name)
      ((w.streams (q.streamKey name)).setGroup q.group ⟨0, []⟩)) := by
  refine group_keeps hw name _ rfl rfl ?_ ?_
  · rw [setGroup_cursor]
    exact Nat.zero_le _
  · intro e _ hl
    have hpos : 0 < e.id := by simpa [Queue.shelf, hg] using hl
    exact .inl (by rwa [setGroup_cursor])

theorem claim_keeps (hw : Inv codec q w) (name consumer : String) (thread id : Nat) :
    Keeps codec q i w (w.claim (q.streamKey name) q.group consumer thread id) := by
  simp only [World.claim]
  split
  · exact keeps_refl hw
  · rename_i g hg
    refine group_keeps hw name _ rfl rfl ?_ ?_
    · rw [setGroup_cursor]
      have := cursor_le hw hg
      exact this
    · intro e _ hl
      rw [setGroup_cursor, setGroup_pending]
      rcases hl with hl | ⟨p, hp, hid⟩
      · exact .inl (by simpa [Queue.shelf, hg] using hl)
      · have hp' : p ∈ g.pending := by simpa [Queue.shelf, hg] using hp
        refine .inr ⟨_, List.mem_map.mpr ⟨p, hp', rfl⟩, ?_⟩
        split <;> exact hid

theorem readGroup_keeps (hw : Inv codec q w) (name consumer : String) (thread : Nat) :
    Keeps codec q i w (w.readGroup codec (q.streamKey name) q.group consumer thread).2 := by
  simp only [World.readGroup]
  split
  · exact keeps_refl hw
  · rename_i g hg
    split
    · exact keeps_refl hw
    · rename_i e he
      obtain ⟨hlt, before, rest, hsplit, hskip⟩ := List.find?_eq_some_iff_append.mp he
      have hentries : (q.shelf w name).stream.entries = before ++ e :: rest := hsplit
      refine keeps_grants (group_keeps hw name ((w.streams (q.streamKey name)).setGroup q.group
        ⟨e.id, g.pending ++ [⟨e.id, consumer, w.now, 1, thread⟩]⟩) rfl rfl ?_ ?_) _
      · rw [setGroup_cursor]
        exact id_le_last (hw.good name) e (by simp [hentries])
      · intro e' he' hl
        rw [setGroup_cursor, setGroup_pending]
        rcases hl with hl | ⟨p, hp, hid⟩
        · -- unread entries: none before the one read, and those after it stay unread
          have hsorted := (hw.good name).wf.sorted
          rw [hentries] at he' hsorted
          rcases List.mem_append.mp he' with hb | hb
          · have := hskip e' hb
            simp_all [Queue.shelf]
          · rcases List.mem_cons.mp hb with rfl | hr
            · exact .inr ⟨_, List.mem_concat_self, rfl⟩
            · have hord := (List.pairwise_cons.mp (List.pairwise_append.mp hsorted).2.1).1 e' hr
              exact .inl hord
        · have hp' : p ∈ g.pending := by simpa [Queue.shelf, hg] using hp
          exact .inr ⟨p, List.mem_append_left _ hp', hid⟩

theorem ack_keeps (hw : Inv codec q w) {e : Entry} (settlement : Settlement)
    (he : e ∈ (q.shelf w o.queue).stream.entries) (ho : e.origin = some o)
    (hwhy : settlement = .ack ∨ ((q.shelf w o.queue).copies q.group w.acked).dead o ∨
      ((q.shelf w o.queue).copies q.group w.acked).After o e.id) :
    Keeps codec q i w (w.ack (q.streamKey o.queue) q.group e.id settlement).2 := by
  have hfind := find_eq (hw.good o.queue).wf.sorted he
  simp only [World.ack, show (w.streams (q.streamKey o.queue)).find e.id = [e] from hfind]
  split
  · exact keeps_refl hw
  rename_i g hg
  split
  swap
  · exact keeps_refl hw
  let st := (w.streams (q.streamKey o.queue)).setGroup q.group
    { g with pending := g.pending.filter fun p => p.id ≠ e.id }
  have hack : ∀ acked', (∀ o ∈ w.acked, o ∈ acked') →
      (o ∈ acked' ∨ ((q.shelf w o.queue).copies q.group w.acked).dead o ∨
        ((q.shelf w o.queue).copies q.group w.acked).After o e.id) →
      Keeps codec q i w { w.setStream (q.streamKey o.queue) st with acked := acked' } := by
    intro acked' hsub hwhy'
    refine keeps_of_shelf o.queue hw rfl hsub (shelf_setStream q w o.queue · st) ?_ ?_
    · refine ack_good (hw.good o.queue) hsub he ho hwhy' rfl rfl ?_ ?_
      · rw [setGroup_cursor]
        simp [Queue.shelf, hg]
      · rw [setGroup_pending]
        simp [Queue.shelf, hg]
    · exact fun e' he' => .inl ⟨e', he', rfl⟩
  by_cases hset : settlement = .ack
  · simp only [hset, if_true, List.filterMap_cons, ho, List.filterMap_nil]
    exact hack _ (fun _ h => List.mem_append_left _ h) (.inl (by simp))
  · simp only [hset, if_false]
    rcases hwhy with h | h
    · exact absurd h hset
    · exact hack w.acked (fun _ h => h) (.inr h)

theorem random_keeps (hw : Inv codec q w) (hnew : t ∉ w.tokens.map Prod.fst) :
    Keeps codec q i w { w with tokens := (t, i) :: w.tokens } := by
  refine ⟨⟨hw.good, ?_, ?_⟩, ⟨fun _ => Copies.later_refl _, fun _ h => List.mem_cons_of_mem _ h⟩,
    fun _ e he => .inl ⟨e, he, rfl⟩⟩
  · exact List.nodup_cons.mpr ⟨hnew, hw.tokens⟩
  · intro name e he
    obtain ⟨t', ht', hu⟩ := hw.drawn name e he
    exact ⟨t', List.mem_cons_of_mem _ ht', hu⟩

end Commands

/-- The commands a thread may issue: additions of copies of tasks, group commands on streams,
and acknowledgements of entries that are accounted for. -/
def Allowed (codec : Codec) (q : Queue) (i : Nat) (w : World) : Command → Prop
  | .now | .random | .xpendingIdle .. | .xpendingId .. => True
  | .zadd key _ m => ∃ o t, key = q.delayedKey o.queue ∧ m.Delays codec o ∧ m.Uses codec t ∧
      (t, i) ∈ w.tokens ∧ Unused codec q w o.queue t
  | .promote delayed stream _ _ field =>
    ∃ name, delayed = q.delayedKey name ∧ stream = q.streamKey name ∧ field = taskField
  | .xadd key maxLen fields => ∃ o : Origin,
      (key = q.streamKey o.queue ∨ key = q.deadLetterKey o.queue) ∧ maxLen = 0 ∧
        (⟨0, fields⟩ : Entry).Holds codec o
  | .xgroupCreate key group | .xautoclaim key group _ _ | .xclaim key group _ _ _
  | .xreadgroup key group _ => (∃ name, key = q.streamKey name) ∧ group = q.group
  | .xack key group id settlement => ∃ o e, key = q.streamKey o.queue ∧ group = q.group ∧
      e ∈ (q.shelf w o.queue).stream.entries ∧ e.id = id ∧ e.origin = some o ∧
        (settlement = .ack ∨ ((q.shelf w o.queue).copies q.group w.acked).dead o ∨
          ((q.shelf w o.queue).copies q.group w.acked).After o id)

theorem claimFirst_keeps (hw : Inv codec q w) (name consumer : String) (thread : Nat)
    (found : Option Pending) :
    Keeps codec q i w (w.claimFirst (q.streamKey name) q.group consumer thread found).2 := by
  cases found with
  | none => exact keeps_refl hw
  | some p => exact claim_keeps hw name consumer thread p.id

theorem apply_keeps (hw : Inv codec q w) (hc : Allowed codec q i w c) (l : Label) :
    Keeps codec q i w (apply codec i l w c).2 := by
  cases c with
  | now => exact keeps_refl hw
  | random =>
    simp only [apply]
    split
    · rename_i hnew
      exact random_keeps hw hnew.2
    · exact keeps_refl hw
  | zadd key score m =>
    obtain ⟨o, t, rfl, hm, hu, ht, hnew⟩ := hc
    exact zadd_keeps hw hm hu ht score hnew
  | promote delayed stream due limit field =>
    obtain ⟨name, rfl, rfl, rfl⟩ := hc
    exact promote_keeps hw name due limit
  | xadd key maxLen fields =>
    obtain ⟨o, rfl | rfl, rfl, hf⟩ := hc
    · exact xadd_keeps hw hf l.drop
    · exact xaddDead_keeps hw hf l.drop
  | xgroupCreate key group =>
    obtain ⟨⟨name, rfl⟩, rfl⟩ := hc
    simp only [apply]
    split
    · exact keeps_refl hw
    · rename_i hg
      exact groupCreate_keeps hw hg
  | xautoclaim key group consumer minIdle | xclaim key group consumer minIdle id =>
    obtain ⟨⟨name, rfl⟩, rfl⟩ := hc
    simp only [apply]
    split
    · exact keeps_refl hw
    · exact claimFirst_keeps hw name consumer i _
  | xpendingIdle key group idle =>
    simp only [apply]
    split <;> exact keeps_refl hw
  | xpendingId key group id =>
    simp only [apply]
    split
    · exact keeps_refl hw
    · split
      · exact keeps_refl hw
      · exact keeps_grants (keeps_refl hw) _
  | xreadgroup key group consumer =>
    obtain ⟨⟨name, rfl⟩, rfl⟩ := hc
    exact readGroup_keeps hw name consumer i
  | xack key group id settlement =>
    obtain ⟨o, e, rfl, rfl, he, rfl, ho, hwhy⟩ := hc
    exact ack_keeps hw settlement he ho hwhy

theorem exec_keeps (hw : Inv codec q w) (hc : Allowed codec q i w c) (l : Label) :
    Keeps codec q i w (exec codec i l w c).2 :=
  exec_world (keeps_refl hw) (apply_keeps hw hc l)

end Fries.RedisQueue
