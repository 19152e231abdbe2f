import Fries.Go
import Fries.Lib.Glob
import Mathlib.Data.Set.Basic

/-! `Flush` of the Redis cache store, over whatever the nodes of a client answer to SCAN and DEL. -/
namespace Fries.Cache.Redis

section Model

structure Store where
  keyPrefix : Bytes

def colon : UInt8 := 58

/-- `strings.TrimSuffix(text, ":")`. -/
def trimColon (text : Bytes) : Bytes := if [colon] <:+ text then text.dropLast else text

/-- The option `Prefix`. -/
def withPrefix (s : Store) (keyPrefix : Bytes) : Store :=
  if keyPrefix ≠ [] then { s with keyPrefix := trimColon keyPrefix ++ [colon] } else s

/-- `New` with prefixes as its options. -/
def new (prefixes : List Bytes) : Store := prefixes.foldl withPrefix ⟨[]⟩

/-- SCAN with a cursor, a pattern and a count returns keys and the next cursor; DEL returns how many
keys there were. -/
structure Server (σ E : Type) where
  scan : Nat → Bytes → Nat → σ → Except E (List Bytes × Nat) × σ
  del : List Bytes → σ → Except E Nat × σ

def flushScanCount : Nat := 1000

variable {σ E : Type}

def Server.delete (server : Server σ E) (keys : List Bytes) (s : σ) : Except E Nat × σ :=
  if keys.length > 0 then server.del keys s else (.ok 0, s)

/-- The loop of `Flush` on one server, for at most `fuel` rounds. -/
def flushLoop (server : Server σ E) (pattern : Bytes) : Nat → Nat → σ → Option (Except E Unit × σ)
  | 0, _, _ => none
  | fuel + 1, cursor, s =>
    match server.scan cursor pattern flushScanCount s with
    | (.error err, s) => some (.error err, s)
    | (.ok (keys, next), s) =>
      match server.delete keys s with
      | (.error err, s) => some (.error err, s)
      | (.ok _, s) => if next = 0 then some (.ok (), s) else flushLoop server pattern fuel next s

/-- A client with the servers it talks to and their states. -/
inductive Client (σ E : Type)
  | client (node : Server σ E × σ)
  | clusterClient (masters : List (Server σ E × σ))
  | ring (shards : List (Server σ E × σ))
  | other

inductive Failure (E : Type)
  | redis (err : E)
  | flushUnsupported
  deriving DecidableEq

/-- What `ForEachMaster` and `ForEachShard` do with the function of `Flush`. -/
def forEach (pattern : Bytes) (fuel : Nat) :
    List (Server σ E × σ) → Option (Option (Failure E) × List σ)
  | [] => some (none, [])
  | (server, s) :: nodes =>
    match flushLoop server pattern fuel 0 s, forEach pattern fuel nodes with
    | some (.error err, s), some (_, states) => some (some (.redis err), s :: states)
    | some (.ok _, s), some (err, states) => some (err, s :: states)
    | _, _ => none

/-- `Flush`: what it returns and the states it leaves the servers in. -/
def Store.flush (s : Store) (fuel : Nat) (client : Client σ E) :
    Option ((Bool × Option (Failure E)) × List σ) :=
  let pattern := s.keyPrefix ++ [Glob.asterisk]
  let result :=
    match client with
    | .client node => forEach pattern fuel [node]
    | .clusterClient masters => forEach pattern fuel masters
    | .ring shards => forEach pattern fuel shards
    | .other => some (some .flushUnsupported, [])
  result.map fun (err, states) => ((err.isNone, err), states)

def Client.nodes : Client σ E → List (Server σ E × σ)
  | .client node => [node]
  | .clusterClient masters => masters
  | .ring shards => shards
  | .other => []

end Model

section Passes

variable {σ E : Type} {server : Server σ E} {pattern : Bytes} {cursor fuel : Nat} {s s' : σ}
  {visited : List Bytes}

/-- A pass of the loop from a cursor to its end, with the keys that it got on the way. -/
inductive Pass (server : Server σ E) (pattern : Bytes) : Nat → σ → List Bytes → σ → Prop
  | last {cursor keys n s s₁ s₂} :
    server.scan cursor pattern flushScanCount s = (.ok (keys, 0), s₁) →
    server.delete keys s₁ = (.ok n, s₂) → Pass server pattern cursor s keys s₂
  | more {cursor keys next n s s₁ s₂ s₃ visited} :
    server.scan cursor pattern flushScanCount s = (.ok (keys, next), s₁) →
    server.delete keys s₁ = (.ok n, s₂) → next ≠ 0 → Pass server pattern next s₂ visited s₃ →
    Pass server pattern cursor s (keys ++ visited) s₃

theorem pass_of_flushLoop :
    ∀ {cursor : Nat} {s : σ}, flushLoop server pattern fuel cursor s = some (.ok (), s') →
      ∃ visited, Pass server pattern cursor s visited s' := by
  induction fuel with
  | zero =>
    intro cursor s h
    cases h
  | succ fuel ih =>
    intro cursor s h
    rw [flushLoop] at h
    split at h
    · cases h
    · rename_i keys next s₁ hscan
      split at h
      · cases h
      · rename_i n s₂ hdel
        split_ifs at h with hnext
        · cases h
          exact ⟨keys, .last (hnext ▸ hscan) hdel⟩
        · obtain ⟨visited, hpass⟩ := ih h
          exact ⟨keys ++ visited, .more hscan hdel hnext hpass⟩

/-- Without other writers SCAN changes nothing, DEL removes the keys that it names, and a pass of
the loop gets exactly the keys that match. -/
structure Server.Lawful (rank : UInt8 → Int) (view : σ → Set Bytes) (server : Server σ E) :
    Prop where
  scan : ∀ cursor pattern count s, view (server.scan cursor pattern count s).2 = view s
  del : ∀ {keys s n s'}, server.del keys s = (.ok n, s') → view s' = view s \ {key | key ∈ keys}
  visits : ∀ {pattern s visited s'}, Pass server pattern 0 s visited s' →
    ∀ key, key ∈ visited ↔ key ∈ view s ∧ Glob.accepts rank pattern key = true

variable {rank : UInt8 → Int} {view : σ → Set Bytes}

section

variable (hlaw : server.Lawful rank view) {keys : List Bytes} {n : Nat}

include hlaw

theorem delete_keys (h : server.delete keys s = (.ok n, s')) :
    view s' = view s \ {key | key ∈ keys} := by
  unfold Server.delete at h
  split_ifs at h with hkeys
  · exact hlaw.del h
  · cases h
    obtain rfl : keys = [] := List.length_eq_zero_iff.mp (by omega)
    ext key
    simp

theorem round_keys {next : Nat} {s₁ s₂ : σ}
    (hscan : server.scan cursor pattern flushScanCount s = (.ok (keys, next), s₁))
    (hdel : server.delete keys s₁ = (.ok n, s₂)) : view s₂ = view s \ {key | key ∈ keys} := by
  have hsame := hlaw.scan cursor pattern flushScanCount s
  rw [hscan] at hsame
  rw [delete_keys hlaw hdel, hsame]

theorem pass_keys (h : Pass server pattern cursor s visited s') :
    view s' = view s \ {key | key ∈ visited} := by
  induction h with
  | last hscan hdel => exact round_keys hlaw hscan hdel
  | more hscan hdel _ _ ih =>
    rw [ih, round_keys hlaw hscan hdel]
    ext key
    simp [and_assoc]

/-- A pass that ends deletes the keys that match. -/
theorem flushLoop_keys {fuel : Nat} (h : flushLoop server pattern fuel 0 s = some (.ok (), s')) :
    view s' = view s \ {key | Glob.accepts rank pattern key = true} := by
  obtain ⟨visited, hpass⟩ := pass_of_flushLoop h
  rw [pass_keys hlaw hpass]
  ext key
  have hvisits := hlaw.visits hpass key
  simp only [Set.mem_sdiff, Set.mem_ofPred_eq]
  tauto

end

theorem forEach_keys {nodes : List (Server σ E × σ)} :
    ∀ {states : List σ}, (∀ node ∈ nodes, node.1.Lawful rank view) →
      forEach pattern fuel nodes = some (none, states) → states.map view =
        nodes.map fun node => view node.2 \ {key | Glob.accepts rank pattern key = true} := by
  induction nodes with
  | nil =>
    intro states _ h
    cases h
    rfl
  | cons node nodes ih =>
    intro states hlaw h
    obtain ⟨server, s⟩ := node
    rw [forEach] at h
    split at h <;> cases h
    rename_i s' err states' hloop hrest
    rw [List.map_cons, List.map_cons, ih (fun node hnode => hlaw node (.tail _ hnode)) hrest,
      flushLoop_keys (hlaw (server, s) (.head _)) hloop]

theorem flush_keys {store : Store} {client : Client σ E} {states : List σ}
    (hlaw : ∀ node ∈ client.nodes, node.1.Lawful rank view)
    (h : store.flush fuel client = some ((true, none), states)) :
    states.map view = client.nodes.map fun node =>
      view node.2 \ {key | Glob.accepts rank (store.keyPrefix ++ [Glob.asterisk]) key = true} := by
  have hnodes : forEach (store.keyPrefix ++ [Glob.asterisk]) fuel client.nodes =
      some (none, states) := by
    cases client with
    | client | clusterClient | ring =>
      obtain ⟨⟨err, states'⟩, hresult, heq⟩ := Option.map_eq_some_iff.mp h
      obtain ⟨hreturned, rfl⟩ := Prod.mk.inj heq
      obtain ⟨-, rfl⟩ := Prod.mk.inj hreturned
      exact hresult
    | other => cases h
  exact forEach_keys hlaw hnodes

end Passes

section Prefixes

/-- A server that keeps its keys in a list and gives all of them at once. -/
def listServer (rank : UInt8 → Int) : Server (List Bytes) Empty where
  scan _ pattern _ s := (.ok (s.filter (Glob.accepts rank pattern), 0), s)
  del keys s := (.ok (s.filter (· ∈ keys)).length, s.filter (· ∉ keys))

theorem listServer_lawful (rank : UInt8 → Int) :
    (listServer rank).Lawful rank fun s => {key | key ∈ s} where
  scan _ _ _ _ := rfl
  del {keys s n s'} h := by
    cases h
    ext key
    simp
  visits {pattern s visited s'} h key := by
    cases h with
    | last hscan _ =>
      cases hscan
      simp
    | more hscan _ hnext _ =>
      cases hscan
      exact absurd rfl hnext

theorem flush_listServer (store : Store) (rank : UInt8 → Int) (s : List Bytes) :
    ∃ s', store.flush 1 (.client (listServer rank, s)) = some ((true, none), [s']) := by
  unfold Store.flush forEach flushLoop forEach Server.delete listServer
  simp only
  split_ifs <;> exact ⟨_, rfl⟩

/-- A prefix is empty or ends with a colon. -/
theorem new_last (prefixes : List Bytes) :
    ∀ c ∈ (new prefixes).keyPrefix.getLast?, c = colon := by
  have hstep : ∀ (prefixes : List Bytes) (s : Store), (∀ c ∈ s.keyPrefix.getLast?, c = colon) →
      ∀ c ∈ (prefixes.foldl withPrefix s).keyPrefix.getLast?, c = colon := by
    intro prefixes
    induction prefixes with
    | nil => exact fun _ h => h
    | cons keyPrefix prefixes ih =>
      intro s h
      refine ih _ ?_
      unfold withPrefix
      split_ifs
      · simp
      · exact h
  exact hstep prefixes ⟨[]⟩ (by simp)

/-- A successful `Flush` deletes exactly the keys that begin with the prefix, whatever the servers
hold and however they divide it into pages, exactly if the prefix has no `*`, `?`, `[` or `\`. -/
theorem flush_deletes_prefixed (rank : UInt8 → Int) (prefixes : List Bytes) :
    (∀ {σ E : Type} (view : σ → Set Bytes) (client : Client σ E) (fuel : Nat) (states : List σ),
      (∀ node ∈ client.nodes, node.1.Lawful rank view) →
      (new prefixes).flush fuel client = some ((true, none), states) →
      states.map view = client.nodes.map fun node =>
        view node.2 \ {key | (new prefixes).keyPrefix <+: key}) ↔
    ∀ c ∈ (new prefixes).keyPrefix, Glob.Ordinary c := by
  have hlast : ∀ c ∈ (new prefixes).keyPrefix.getLast?, Glob.Ordinary c := by
    intro c hc
    rw [new_last prefixes c hc]
    decide
  rw [← @Glob.accepts_prefix_iff rank _ hlast]
  constructor
  · intro h key
    have hnode : ∀ node ∈ (Client.client (listServer rank, [key])).nodes,
        node.1.Lawful rank fun s => {key | key ∈ s} := by
      intro node hmem
      obtain rfl := List.mem_singleton.mp hmem
      exact listServer_lawful rank
    obtain ⟨s', hflush⟩ := flush_listServer (new prefixes) rank [key]
    have hpre := h _ _ 1 [s'] hnode hflush
    have hmatch := flush_keys hnode hflush
    have hsame := hmatch.symm.trans hpre
    have hkey := congrArg (fun views => ∀ view ∈ views, key ∈ view) hsame
    simp only [Client.nodes, List.map_cons, List.map_nil, List.mem_singleton, forall_eq,
      Set.mem_sdiff, Set.mem_ofPred_eq, true_and, eq_iff_iff] at hkey
    exact not_iff_not.mp hkey
  · intro h σ E view client fuel states hlaw hflush
    rw [flush_keys hlaw hflush]
    simp only [h]

/-- Two masters under the prefix `ab`, one of them without keys. -/
theorem flush_deletes_prefixed_two_masters :
    let store := new [[97, 98]]
    let held : List Bytes := [[97, 98, 58, 120], [97, 98], [98, 58], [97, 98, 58]]
    let masters := [(listServer (·.toNat), held), (listServer (·.toNat), [])]
    let left : List (List Bytes) := [[[97, 98], [98, 58]], []]
    store.flush 1 (.clusterClient masters) = some ((true, none), left) ∧
    left.map (fun s => {key | key ∈ s}) =
      masters.map fun node => {key | key ∈ node.2} \ {key | store.keyPrefix <+: key} := by
  intro store held masters left
  have hflush : store.flush 1 (.clusterClient masters) = some ((true, none), left) := by
    decide +kernel
  refine ⟨hflush, ?_⟩
  refine (flush_deletes_prefixed (·.toNat) [[97, 98]]).mpr (by decide +kernel) _ _ 1 left ?_ hflush
  intro node hnode
  have hserver : node.1 = listServer (·.toNat) := by
    rcases List.mem_cons.mp hnode with rfl | hnode
    · rfl
    · rw [List.mem_singleton.mp hnode]
  rw [hserver]
  exact listServer_lawful _

/-- With the prefix `a*` a key of another prefix is deleted, with the prefix `a[b]` no key of the
store is. -/
theorem flush_reads_pattern :
    (new [[97, 42]]).flush 1 (.client (listServer (·.toNat), [[97, 98, 58, 120]])) =
      some ((true, none), [[]]) ∧
    ¬ (new [[97, 42]]).keyPrefix <+: [97, 98, 58, 120] ∧
    (new [[97, 91, 98, 93]]).flush 1
        (.client (listServer (·.toNat), [[97, 91, 98, 93, 58, 120]])) =
      some ((true, none), [[[97, 91, 98, 93, 58, 120]]]) ∧
    (new [[97, 91, 98, 93]]).keyPrefix <+: [97, 91, 98, 93, 58, 120] := by
  refine ⟨by decide, ?_, by decide, ?_⟩
  · decide
  · decide

end Prefixes

end Fries.Cache.Redis
