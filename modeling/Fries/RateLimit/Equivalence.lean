import Fries.RateLimit.Redis
import Fries.RateLimit.Window

/-! The two stores make the same decisions, whatever is asked of them and in whatever order. -/
namespace Fries.RateLimit

variable {last now : Int} {s : Memory.Store} {readable : Int → Int → Bool} {keyPrefix : String}
  {db : Redis.Db}

/-- Both stores have every key due at the same time from `last` on. -/
structure Simulates (keyPrefix : String) (last : Int) (s : Memory.Store) (db : Redis.Db) : Prop
    extends Memory.Refines last s (db.arrivals keyPrefix) where
  timely : db.Timely
  bounded : (db.arrivals keyPrefix).Bounded (unixMicro last)

theorem simulates_step (hr : Redis.Expires readable) (call : Call)
    (hR : Simulates keyPrefix last s db) (hle : last ≤ now) :
    (memory.step s now call).1 = ((redis readable keyPrefix).step db now call).1 ∧
      Simulates keyPrefix now (memory.step s now call).2
        ((redis readable keyPrefix).step db now call).2 := by
  have hbounded := Arrivals.bounded_later hR.bounded (unixMicro_mono hle)
  obtain ⟨hreply, hrefines⟩ := Memory.refines_step call hR.toRefines hle
  obtain ⟨hreply', ht, harr⟩ := Redis.step_refines hr hR.timely hbounded call
  have hnext : ((redis readable keyPrefix).step db now call).2.arrivals keyPrefix =
      ((db.arrivals keyPrefix).step now call).2 := harr
  refine ⟨hreply.trans hreply'.symm, ?_, ht, ?_⟩
  · rw [hnext]
    exact hrefines
  · rw [hnext]
    exact Arrivals.bounded_step hbounded call

theorem simulates_empty (keyPrefix : String) (start : Int) :
    Simulates keyPrefix start memory.init fun _ => none := by
  refine ⟨⟨Memory.new_consistent, rfl⟩, by rintro key tat deadline ⟨⟩, ?_⟩
  intro key
  have hmax : 0 ≤ maxInt64.tdiv microsecond := by decide
  rw [Arrivals.level_of_none rfl]
  omega

/-- For every history of takes and resets at non-decreasing readings, under any valid limits,
both stores give the same list of decisions. -/
theorem memory_redis_decide_alike (hr : Redis.Expires readable) (keyPrefix : String) (start : Int)
    {requests : List (Int × Call)} (ordered : Machine.Ordered start requests) :
    memory.replies memory.init requests =
      (redis readable keyPrefix).replies (redis readable keyPrefix).init requests := by
  apply Machine.replies_of_simulation (R := Simulates keyPrefix) ?_ ?_ ordered
  · intro last s db now call hR hle
    exact simulates_step hr call hR hle
  · exact simulates_empty keyPrefix start

/-- Two takes under different limits with a reset of another key in between, the second
take when the first one's arrival time lies half a millisecond ahead. -/
theorem memory_redis_decide_alike_limits :
    let loose : TakeRequest := ⟨"k", ⟨1000, second, 3⟩, 2, by decide, by decide, by decide⟩
    let strict : TakeRequest := ⟨"k", ⟨500, second, 1⟩, 1, by decide, by decide, by decide⟩
    (redis (fun current deadline => current ≤ deadline) "fries:ratelimit:").replies (fun _ => none)
        [(unixEpoch, .take .live loose), (unixEpoch + millisecond, .reset .live "other"),
          (unixEpoch + 1500 * microsecond, .take .live strict)] =
      [.take (.ok ⟨⟨1000, second, 3⟩, true, 1, 0, 2 * millisecond⟩), .reset (.ok ()),
        .take (.ok ⟨⟨500, second, 1⟩, false, 0, 500 * microsecond, 500 * microsecond⟩)] := by
  intro loose strict
  have hr : Redis.Expires (fun current deadline => current ≤ deadline) := by
    intro current deadline h
    simpa using h
  exact (memory_redis_decide_alike hr "fries:ratelimit:" unixEpoch (by decide)).symm.trans
    (by decide)

/-- What the in-memory store answers about a key, it answers without the other keys as well. -/
theorem memory_keys_isolated (start : Int) {requests : List (Int × Call)}
    (ordered : Machine.Ordered start requests) (key : String) :
    (memory.history memory.init requests).filter (·.request.key = key) =
      memory.history memory.init (requests.filter (·.2.key = key)) :=
  Machine.history_isolated (R := Memory.Refines) arrivals_local ⟨Memory.new_consistent, rfl⟩
    Memory.refines_step ordered key

/-- A take of the whole burst of a key. -/
def whole (key : String) : TakeRequest :=
  ⟨key, ⟨1000, second, 1⟩, 1, by decide, by decide, by decide⟩

theorem memory_keys_isolated_two :
    (memory.history memory.init [(0, .take .live (whole "a")), (1, .take .live (whole "b"))]).filter
      (·.request.key = "b") = memory.history memory.init [(1, .take .live (whole "b"))] :=
  memory_keys_isolated 0 (by decide) "b"

end Fries.RateLimit
