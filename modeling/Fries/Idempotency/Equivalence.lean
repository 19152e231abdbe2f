import Fries.Idempotency.Exclusive
import Fries.Idempotency.Redis

/-! The two stores give the same answers, whatever is asked of them and in whatever order. -/
namespace Fries.Idempotency

variable {last now : Int} {s : Memory.Store} {l l' : Ledger} {fresh : Int → Int → Bool}
  {keyPrefix : String} {db : Redis.Db}

/-- The tables agree at every later instant that is no expiry of the first. -/
def Agree (last : Int) (l l' : Ledger) : Prop :=
  ∀ now, last ≤ now → Keyspace.Off now l → Keyspace.Off now l' ∧ l.live now = l'.live now

theorem agree_of_live (hlive : l.live now = l'.live now) (hoff : Keyspace.Off now l') :
    Agree now l l' := by
  intro later hle hl
  refine ⟨?_, Keyspace.live_congr hle hlive⟩
  rcases Int.lt_or_eq_of_le hle with hlt | rfl
  · exact Keyspace.off_congr hlt hlive hl
  · exact hoff

/-- A call writes no claim that expires at once. -/
theorem step_off (hoff : Keyspace.Off now l) (call : Call) : Keyspace.Off now (l.step now call).2 := by
  obtain ⟨ctx, r, rfl, -, hstep⟩ | ⟨ctx, r, f, rfl, -, hstep⟩ | ⟨ctx, r, f, rfl, -, hstep⟩ |
    ⟨-, hstep⟩ := step_cases l now call <;> rw [hstep]
  · exact Keyspace.off_put hoff (by have := r.ttl_pos; omega)
  · exact Keyspace.off_put hoff (by have := r.ttl_pos; omega)
  · exact Keyspace.off_update hoff nofun
  · exact hoff

/-- The time to live is in whole milliseconds, and no stored record expires right now. -/
def Admissible (s : Memory.Store) (now : Int) (call : Call) : Prop :=
  Redis.wholeMillis call ∧ ∀ e ∈ s.records.entries, e.2.expiresAt ≠ now

instance (s : Memory.Store) (now : Int) (call : Call) : Decidable (Admissible s now call) :=
  inferInstanceAs (Decidable (_ ∧ _))

structure Simulates (keyPrefix : String) (last : Int) (s : Memory.Store) (db : Redis.Db) :
    Prop where
  nonneg : 0 ≤ last
  wf : s.Wf
  hashes : db.Wf keyPrefix
  agree : Agree last s.claims (db.claims keyPrefix)

theorem simulates_step (hfresh : Redis.Expires fresh) (call : Call)
    (hR : Simulates keyPrefix last s db) (hnow : last ≤ now) (hadm : Admissible s now call) :
    (memory.step s now call).1 = ((redis fresh keyPrefix).step db now call).1 ∧
      Simulates keyPrefix now (memory.step s now call).2
        ((redis fresh keyPrefix).step db now call).2 := by
  have h0 : 0 ≤ now := hR.nonneg.trans hnow
  have hoff : Keyspace.Off now s.claims := by
    intro key e hk
    obtain ⟨r, hr, rfl⟩ := Memory.claims_eq_some hk
    exact hadm.2 _ (AList.mem_lookup_iff.mp hr)
  obtain ⟨hoff', hlive⟩ := hR.agree now hnow hoff
  obtain ⟨hreply, hwf, hnext⟩ := Memory.step_refines hR.wf h0 call
  obtain ⟨hreply', hwf', hnext'⟩ := Redis.step_refines hfresh hR.hashes hoff' hadm.1
  obtain ⟨hsame, hsame'⟩ := Ledger.step_congr hlive call
  refine ⟨hreply.trans (hsame.trans hreply'.symm), h0, hwf, hwf', ?_⟩
  rw [show ((redis fresh keyPrefix).step db now call).2.claims keyPrefix = _ from hnext']
  exact agree_of_live (hnext.trans hsame') (step_off hoff' call)

/-- For every history of requests with whole-millisecond times to live at non-decreasing
readings, none at the expiry of a record, both stores give the same list of answers. -/
theorem memory_redis_agree (hfresh : Redis.Expires fresh) (keyPrefix : String)
    {requests : List (Int × Call)} (ordered : Machine.Ordered 0 requests)
    (admissible : memory.Admits Admissible memory.init requests) :
    memory.replies memory.init requests =
      (redis fresh keyPrefix).replies (redis fresh keyPrefix).init requests := by
  apply Machine.replies_eq (R := Simulates keyPrefix) (simulates_step hfresh) ?_ ordered admissible
  refine ⟨le_rfl, Memory.new_wf, by intro key e he; simp [redis] at he, ?_⟩
  exact agree_of_live rfl (by intro key e he; simp [Redis.Db.claims, redis] at he)

/-- A claim, its completion and a replay one millisecond before the result expires. -/
theorem memory_redis_agree_replay :
    (redis (fun now deadline => now < deadline) "fries:idempotency:").replies (fun _ => none)
        [(0, .begin .live ⟨"order", "a", "f", 2 * millisecond, by decide⟩),
          (1000000, .complete .live ⟨"order", "a", [7], 3 * millisecond, by decide⟩),
          (3000000, .begin .live ⟨"order", "b", "", millisecond, by decide⟩)] =
      [.begin (.ok ⟨.acquired, []⟩), .complete (.ok ()), .begin (.ok ⟨.completed, [7]⟩)] := by
  refine (memory_redis_agree ?_ "fries:idempotency:" (by decide) (by decide)).symm.trans (by decide)
  intro now deadline
  exact ⟨fun h => by simpa using h, fun h => by simp; omega⟩

end Fries.Idempotency
