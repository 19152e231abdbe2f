import Fries.Lib.Program
import Fries.Queue.Task

/-! The Redis server as the queue uses it. A command can fail before or after it is applied. -/
namespace Fries.RedisQueue

open Fries.Queue

/-- A stored string, with the task whose envelope it carries. -/
structure Value where
  bytes : String
  origin : Option Origin
  deriving DecidableEq

structure Entry where
  id : Nat
  fields : List (String × Value)
  deriving DecidableEq

/-- An entry read but not acknowledged. `holder` is the thread that read or claimed it last. -/
structure Pending where
  id : Nat
  consumer : String
  delivered : Int
  count : Nat
  holder : Nat
  deriving DecidableEq

structure Group where
  cursor : Nat
  pending : List Pending
  deriving DecidableEq

structure Stream where
  entries : List Entry
  lastId : Nat
  groups : String → Option Group

/-- A delivery count a thread was given for an entry it can decode. -/
structure Grant where
  key : String
  id : Nat
  thread : Nat
  count : Nat
  deriving DecidableEq

/-- The stored data and the clock, and what was drawn, acknowledged and counted so far. -/
structure World where
  now : Int
  streams : String → Stream
  zsets : String → List (Int × Value)
  tokens : List (String × Nat)
  acked : List Origin
  grants : List Grant

def World.empty (now : Int) : World := ⟨now, fun _ => ⟨[], 0, fun _ => none⟩, fun _ => [], [], [], []⟩

/-- Why a command fails that the server would have answered. -/
inductive Failure
  | canceled (byClose : Bool)
  | other (text : String)
  deriving DecidableEq

inductive RedisError
  | nil
  | busyGroup
  | noGroup
  | failure (cause : Failure)
  deriving DecidableEq

/-- On whose behalf an entry is acknowledged. Redis does not see it. -/
inductive Settlement
  | ack
  | retry
  | deadLetter
  | malformed
  deriving DecidableEq

inductive Command
  | now
  | random
  | zadd (key : String) (score : Int) (member : Value)
  | promote (delayed stream : String) (due : Int) (limit : Nat) (field : String)
  | xadd (key : String) (maxLen : Int) (fields : List (String × Value))
  | xgroupCreate (key group : String)
  | xautoclaim (key group consumer : String) (minIdle : Int)
  | xclaim (key group consumer : String) (minIdle : Int) (id : Nat)
  | xpendingIdle (key group : String) (idle : Int)
  | xpendingId (key group : String) (id : Nat)
  | xreadgroup (key group consumer : String)
  | xack (key group : String) (id : Nat) (settlement : Settlement)

abbrev Response : Command → Type
  | .now => Int
  | .random => Except RedisError String
  | .zadd .. => Except RedisError Unit
  | .promote .. => Except RedisError Unit
  | .xadd .. => Except RedisError Nat
  | .xgroupCreate .. => Except RedisError Unit
  | .xautoclaim .. => Except RedisError (List Entry)
  | .xclaim .. => Except RedisError (List Entry)
  | .xpendingIdle .. => Except RedisError (List Pending)
  | .xpendingId .. => Except RedisError (List Pending)
  | .xreadgroup .. => Except RedisError (List Entry)
  | .xack .. => Except RedisError Nat

inductive Fault
  | none
  | before (cause : Failure)
  | after (cause : Failure)

/-- What a command leaves open: whether it fails, which token the random source gives, and
how many entries an approximate trim removes. -/
structure Label where
  fault : Fault
  token : String
  drop : Nat

/-- The JSON encodings: of an envelope, of a delayed entry with its id, and what the script's
JSON library finds as the task of such an entry. What is encoded decodes back. -/
structure Codec where
  marshal : Envelope → Option String
  unmarshal : String → Option Envelope
  marshalEntry : String → String → Option String
  cjsonTask : String → Option String
  unmarshal_marshal : ∀ {e b}, marshal e = some b → unmarshal b = some e
  cjsonTask_entry : ∀ {id b m}, marshalEntry id b = some m → cjsonTask m = some b
  entry_id : ∀ {id id' b b' m}, marshalEntry id b = some m → marshalEntry id' b' = some m → id = id'

/-- The encodings of finitely many envelopes; no delayed entry is encoded. -/
def Codec.ofTable (table : List (Envelope × String))
    (h : ∀ x ∈ table, (table.find? fun y => y.2 = x.2) = some x) : Codec where
  marshal e := (table.find? fun x => x.1 = e).map Prod.snd
  unmarshal b := (table.find? fun x => x.2 = b).map Prod.fst
  marshalEntry _ _ := none
  cjsonTask _ := none
  unmarshal_marshal := by
    intro e b hb
    obtain ⟨x, hx, rfl⟩ := Option.map_eq_some_iff.mp hb
    have hfirst : x.1 = e := by simpa using List.find?_some hx
    rw [h x (List.mem_of_find?_eq_some hx)]
    exact congrArg some hfirst
  cjsonTask_entry := by
    intro id b m hm
    cases hm
  entry_id := by
    intro id id' b b' m hm
    cases hm

def World.setStream (w : World) (key : String) (s : Stream) : World :=
  { w with streams := Function.update w.streams key s }

def World.setZset (w : World) (key : String) (z : List (Int × Value)) : World :=
  { w with zsets := Function.update w.zsets key z }

def Stream.setGroup (s : Stream) (group : String) (g : Group) : Stream :=
  { s with groups := Function.update s.groups group (some g) }

/-- Members are ordered by score and, for equal scores, by their bytes. -/
def zinsert (e : Int × Value) : List (Int × Value) → List (Int × Value)
  | [] => [e]
  | f :: rest =>
    if e.1 < f.1 ∨ e.1 = f.1 ∧ e.2.bytes < f.2.bytes then e :: f :: rest else f :: zinsert e rest

/-- `ZADD`: a member already there only changes its score. -/
def World.zadd (w : World) (key : String) (score : Int) (member : Value) : World :=
  let z := w.zsets key
  let member := ((z.find? fun e => e.2.bytes = member.bytes).map Prod.snd).getD member
  w.setZset key (zinsert (score, member) (z.filter fun e => e.2.bytes ≠ member.bytes))

def World.zrem (w : World) (key : String) (member : Value) : World :=
  w.setZset key ((w.zsets key).filter fun e => e.2.bytes ≠ member.bytes)

/-- `XADD` with the next id. With a positive `maxLen` the oldest entries beyond it may go. -/
def World.xadd (w : World) (key : String) (maxLen : Int) (drop : Nat)
    (fields : List (String × Value)) : World :=
  let s := w.streams key
  let entries := s.entries ++ [⟨s.lastId + 1, fields⟩]
  let entries := if 0 < maxLen then entries.drop (min drop (entries.length - maxLen.toNat)) else entries
  w.setStream key { s with entries := entries, lastId := s.lastId + 1 }

/-- One round of the loop in `promoteScript`. -/
def World.promoteOne (codec : Codec) (delayed stream field : String) (w : World)
    (member : Value) : World :=
  let payload := (codec.cjsonTask member.bytes).getD member.bytes
  (w.xadd stream 0 0 [(field, ⟨payload, member.origin⟩)]).zrem delayed member

def World.promote (w : World) (codec : Codec) (delayed stream : String) (due : Int) (limit : Nat)
    (field : String) : World :=
  let tasks := (((w.zsets delayed).filter fun e => e.1 ≤ due).take limit).map Prod.snd
  tasks.foldl (promoteOne codec delayed stream field) w

def Pending.idleFor (p : Pending) (now minIdle : Int) : Bool := minIdle ≤ now - p.delivered

def Pending.claim (p : Pending) (consumer : String) (now : Int) (thread : Nat) : Pending :=
  { p with consumer := consumer, delivered := now, count := p.count + 1, holder := thread }

/-- The entry `id` changes its consumer and its delivery count. -/
def World.claim (w : World) (key group consumer : String) (thread id : Nat) : World :=
  let s := w.streams key
  match s.groups group with
  | none => w
  | some g =>
    w.setStream key (s.setGroup group
      { g with pending := g.pending.map fun p =>
          if p.id = id then p.claim consumer w.now thread else p })

def Stream.find (s : Stream) (id : Nat) : List Entry := (s.entries.find? fun e => e.id = id).toList

/-- Claiming an entry that waited long enough, if there is one. -/
def World.claimFirst (w : World) (key group consumer : String) (thread : Nat)
    (found : Option Pending) : Except RedisError (List Entry) × World :=
  match found with
  | none => (.ok [], w)
  | some p => (.ok ((w.streams key).find p.id), w.claim key group consumer thread p.id)

/-- The envelope an entry carries, if it can be decoded. -/
def Entry.envelope (codec : Codec) (e : Entry) : Option Envelope :=
  (e.fields.lookup "task").bind fun v => codec.unmarshal v.bytes

def Codec.decodes (codec : Codec) (e : Entry) : Bool := (e.envelope codec).isSome

def World.grant (w : World) (codec : Codec) (key : String) (entries : List Entry)
    (thread count : Nat) : World :=
  { w with grants := w.grants ++
      (entries.filter codec.decodes).map fun e => ⟨key, e.id, thread, count⟩ }

/-- `XREADGROUP` with `>`: the first entry beyond the cursor becomes pending. -/
def World.readGroup (w : World) (codec : Codec) (key group consumer : String) (thread : Nat) :
    Except RedisError (List Entry) × World :=
  let s := w.streams key
  match s.groups group with
  | none => (.error .noGroup, w)
  | some g =>
    match s.entries.find? fun e => g.cursor < e.id with
    | none => (.error .nil, w)
    | some e =>
      let w := w.setStream key (s.setGroup group
        { cursor := e.id, pending := g.pending ++ [⟨e.id, consumer, w.now, 1, thread⟩] })
      (.ok [e], w.grant codec key [e] thread 1)

def Entry.origin (e : Entry) : Option Origin := (e.fields.lookup "task").bind Value.origin

def World.ack (w : World) (key group : String) (id : Nat) (settlement : Settlement) : Nat × World :=
  let s := w.streams key
  match s.groups group with
  | none => (0, w)
  | some g =>
    if g.pending.any fun p => p.id = id then
      let w := w.setStream key (s.setGroup group
        { g with pending := g.pending.filter fun p => p.id ≠ id })
      let origins := ((s.find id).filterMap Entry.origin)
      (1, if settlement = .ack then { w with acked := w.acked ++ origins } else w)
    else (0, w)

/-- The effect and the answer of a command that does not fail. -/
def apply (codec : Codec) (thread : Nat) (l : Label) (w : World) : (c : Command) → Response c × World
  | .now => (w.now, w)
  | .random =>
    if l.token.length = 32 ∧ l.token ∉ w.tokens.map Prod.fst then
      (.ok l.token, { w with tokens := (l.token, thread) :: w.tokens })
    else (.error (.failure (.other "rand")), w)
  | .zadd key score member => (.ok (), w.zadd key score member)
  | .promote delayed stream due limit field =>
    (.ok (), w.promote codec delayed stream due limit field)
  | .xadd key maxLen fields => (.ok ((w.streams key).lastId + 1), w.xadd key maxLen l.drop fields)
  | .xgroupCreate key group =>
    match (w.streams key).groups group with
    | some _ => (.error .busyGroup, w)
    | none => (.ok (), w.setStream key ((w.streams key).setGroup group ⟨0, []⟩))
  | .xautoclaim key group consumer minIdle =>
    match (w.streams key).groups group with
    | none => (.error .noGroup, w)
    | some g =>
      -- ten pending entries are looked at for each one asked for
      w.claimFirst key group consumer thread
        ((g.pending.take 10).find? fun p => p.idleFor w.now minIdle)
  | .xclaim key group consumer minIdle id =>
    match (w.streams key).groups group with
    | none => (.error .noGroup, w)
    | some g =>
      w.claimFirst key group consumer thread
        (g.pending.find? fun p => p.id = id ∧ p.idleFor w.now minIdle)
  | .xpendingIdle key group idle =>
    match (w.streams key).groups group with
    | none => (.error .noGroup, w)
    | some g => (.ok (g.pending.find? fun p => p.idleFor w.now idle).toList, w)
  | .xpendingId key group id =>
    match (w.streams key).groups group with
    | none => (.error .noGroup, w)
    | some g =>
      match g.pending.find? fun p => p.id = id with
      | none => (.ok [], w)
      | some p => (.ok [p], w.grant codec key ((w.streams key).find id) thread p.count)
  | .xreadgroup key group consumer => w.readGroup codec key group consumer thread
  | .xack key group id settlement =>
    let r := w.ack key group id settlement
    (.ok r.1, r.2)

/-- The answer of a failed command; reading the clock does not fail. -/
def failure (cause : Failure) : (c : Command) → Option (Response c)
  | .now => none
  | .random => some (.error (.failure cause))
  | .zadd .. => some (.error (.failure cause))
  | .promote .. => some (.error (.failure cause))
  | .xadd .. => some (.error (.failure cause))
  | .xgroupCreate .. => some (.error (.failure cause))
  | .xautoclaim .. => some (.error (.failure cause))
  | .xclaim .. => some (.error (.failure cause))
  | .xpendingIdle .. => some (.error (.failure cause))
  | .xpendingId .. => some (.error (.failure cause))
  | .xreadgroup .. => some (.error (.failure cause))
  | .xack .. => some (.error (.failure cause))

def exec (codec : Codec) (thread : Nat) (l : Label) (w : World) (c : Command) :
    Response c × World :=
  let applied := apply codec thread l w c
  match l.fault with
  | .none => applied
  | .before cause => ((failure cause c).map fun r => (r, w)).getD applied
  | .after cause => ((failure cause c).map fun r => (r, applied.2)).getD applied

/-- A claim changes the streams only. -/
theorem claimFirst_frame (w : World) (key group consumer : String) (thread : Nat)
    (found : Option Pending) :
    ∃ streams, (w.claimFirst key group consumer thread found).2 = { w with streams := streams } := by
  cases found with
  | none => exact ⟨w.streams, rfl⟩
  | some p =>
    simp only [World.claimFirst, World.claim]
    split
    · exact ⟨w.streams, rfl⟩
    · exact ⟨_, rfl⟩

/-- An acknowledgement changes the streams and the record of what was acknowledged. -/
theorem ack_frame (w : World) (key group : String) (id : Nat) (settlement : Settlement) :
    ∃ streams acked, (w.ack key group id settlement).2 =
      { w with streams := streams, acked := acked } := by
  simp only [World.ack]
  split
  · exact ⟨w.streams, w.acked, rfl⟩
  · split
    · split <;> exact ⟨_, _, rfl⟩
    · exact ⟨w.streams, w.acked, rfl⟩

/-- A command is answered after it was applied, or fails with or without having been. -/
theorem exec_cases (codec : Codec) (thread : Nat) (l : Label) (w : World) (c : Command) :
    exec codec thread l w c = apply codec thread l w c ∨
      ∃ cause r, failure cause c = some r ∧
        (exec codec thread l w c = (r, w) ∨
          exec codec thread l w c = (r, (apply codec thread l w c).2)) := by
  unfold exec
  cases l.fault with
  | none => exact .inl rfl
  | before cause =>
    cases hf : failure cause c with
    | none => exact .inl (by simp [hf])
    | some r => exact .inr ⟨cause, r, hf, .inl (by simp [hf])⟩
  | after cause =>
    cases hf : failure cause c with
    | none => exact .inl (by simp [hf])
    | some r => exact .inr ⟨cause, r, hf, .inr (by simp [hf])⟩

/-- An answer that no failure gives comes from a command that was applied. -/
theorem exec_ok {codec : Codec} {thread : Nat} {l : Label} {w : World} {c : Command} {r : Response c}
    (h : (exec codec thread l w c).1 = r) (hr : ∀ cause, failure cause c ≠ some r) :
    exec codec thread l w c = apply codec thread l w c := by
  rcases exec_cases codec thread l w c with he | ⟨cause, r', hf, he | he⟩
  · exact he
  · rw [he] at h
    exact absurd (h ▸ hf) (hr cause)
  · rw [he] at h
    exact absurd (h ▸ hf) (hr cause)

/-- What holds of the state, and of the state in which the command was applied, holds after it. -/
theorem exec_world {codec : Codec} {thread : Nat} {l : Label} {w : World} {c : Command}
    {P : World → Prop} (hw : P w) (h : P (apply codec thread l w c).2) :
    P (exec codec thread l w c).2 := by
  rcases exec_cases codec thread l w c with he | ⟨cause, r, -, he | he⟩ <;> rwa [he]

theorem exec_now (codec : Codec) (thread : Nat) (l : Label) (w : World) :
    exec codec thread l w .now = (w.now, w) := by
  rcases exec_cases codec thread l w .now with he | ⟨cause, r, hf, -⟩
  · exact he
  · cases hf

section Messages

variable {codec : Codec} {i thread : Nat} {w : World} {message : Entry}
  {consumer group key : String} {rest : List Entry} {s : Stream}

theorem find_mem {id : Nat} (h : message ∈ s.find id) : message ∈ s.entries := by
  simp only [Stream.find, Option.mem_toList] at h
  exact List.mem_of_find?_eq_some h

/-- Ids are unique, so looking one up finds its entry. -/
theorem find_eq (hsorted : s.entries.Pairwise fun e e' => e.id < e'.id) {e : Entry}
    (he : e ∈ s.entries) : s.find e.id = [e] := by
  obtain ⟨before, rest, hsplit⟩ := List.append_of_mem he
  rw [hsplit] at hsorted
  have hfind : s.entries.find? (fun e' => e'.id = e.id) = some e := by
    refine List.find?_eq_some_iff_append.mpr ⟨by simp, before, rest, hsplit, ?_⟩
    intro e' he'
    have := (List.pairwise_append.mp hsorted).2.2 e' he' e List.mem_cons_self
    simp
    omega
  exact congrArg Option.toList hfind

theorem claimFirst_mem {found : Option Pending}
    (h : (w.claimFirst key group consumer thread found).1 = .ok (message :: rest)) :
    message ∈ (w.streams key).entries := by
  cases found with
  | none => cases h
  | some p =>
    have hfind : (w.streams key).find p.id = message :: rest := Except.ok.inj h
    exact find_mem (hfind ▸ List.mem_cons_self)

theorem readGroup_mem
    (h : (w.readGroup codec key group consumer thread).1 = .ok (message :: rest)) :
    message ∈ (w.streams key).entries := by
  simp only [World.readGroup] at h
  split at h
  · cases h
  · split at h
    · cases h
    · rename_i e he
      obtain rfl : e = message := (List.cons.inj (Except.ok.inj h)).1
      exact List.mem_of_find?_eq_some he

/-- The commands that hand out messages hand out entries of their stream. -/
theorem messages_mem {l : Label} :
    (∀ minIdle, (exec codec i l w (.xautoclaim key group consumer minIdle)).1 = .ok (message :: rest) →
      message ∈ (w.streams key).entries) ∧
    (∀ minIdle id, (exec codec i l w (.xclaim key group consumer minIdle id)).1 =
      .ok (message :: rest) → message ∈ (w.streams key).entries) ∧
    ((exec codec i l w (.xreadgroup key group consumer)).1 = .ok (message :: rest) →
      message ∈ (w.streams key).entries) := by
  refine ⟨fun minIdle h => ?_, fun minIdle id h => ?_, fun h => ?_⟩ <;>
    rw [exec_ok h (by intro err hf; cases hf)] at h <;> simp only [apply] at h
  · split at h
    · cases h
    · exact claimFirst_mem h
  · split at h
    · cases h
    · exact claimFirst_mem h
  · exact readGroup_mem h

end Messages

abbrev Program (α : Type) := Prog Command Response α

/-! The commands as a client issues them. -/
namespace Client

abbrev now : Program Int := .call .now .ret

abbrev random : Program (Except RedisError String) := .call .random .ret

abbrev zadd (key : String) (score : Int) (member : Value) : Program (Except RedisError Unit) :=
  .call (.zadd key score member) .ret

abbrev promote (delayed stream : String) (due : Int) (limit : Nat) (field : String) :
    Program (Except RedisError Unit) := .call (.promote delayed stream due limit field) .ret

abbrev xadd (key : String) (maxLen : Int) (fields : List (String × Value)) :
    Program (Except RedisError Nat) := .call (.xadd key maxLen fields) .ret

abbrev xgroupCreate (key group : String) : Program (Except RedisError Unit) :=
  .call (.xgroupCreate key group) .ret

abbrev xautoclaim (key group consumer : String) (minIdle : Int) :
    Program (Except RedisError (List Entry)) :=
  .call (.xautoclaim key group consumer minIdle) .ret

abbrev xclaim (key group consumer : String) (minIdle : Int) (id : Nat) :
    Program (Except RedisError (List Entry)) :=
  .call (.xclaim key group consumer minIdle id) .ret

abbrev xpendingIdle (key group : String) (idle : Int) : Program (Except RedisError (List Pending)) :=
  .call (.xpendingIdle key group idle) .ret

abbrev xpendingId (key group : String) (id : Nat) : Program (Except RedisError (List Pending)) :=
  .call (.xpendingId key group id) .ret

abbrev xreadgroup (key group consumer : String) : Program (Except RedisError (List Entry)) :=
  .call (.xreadgroup key group consumer) .ret

abbrev xack (key group : String) (id : Nat) (settlement : Settlement) :
    Program (Except RedisError Nat) := .call (.xack key group id settlement) .ret

end Client

end Fries.RedisQueue
