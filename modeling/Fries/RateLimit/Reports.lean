import Fries.RateLimit.Memory
import Mathlib.Order.Bounds.Basic

/-! What the in-memory store reports, against what it would decide. -/
namespace Fries.RateLimit

variable {start last now : Int} {s : Memory.Store} {h : List (Event Call Reply)}

/-- The same request at another cost. -/
def TakeRequest.withCost (r : TakeRequest) (cost : Int) (hpos : 1 ≤ cost)
    (hle : cost ≤ r.limit.burst) : TakeRequest :=
  { r with cost, cost_pos := hpos, cost_le := hle }

/-- The same request at the cost of the whole burst. -/
def TakeRequest.full (r : TakeRequest) : TakeRequest :=
  r.withCost r.limit.burst (Int.le_trans r.cost_pos r.cost_le) le_rfl

namespace Memory

def Store.Allows (s : Store) (clock : Int) (r : TakeRequest) : Prop :=
  ∃ d, (s.take .live clock r).1 = .ok d ∧ d.allowed = true

/-- The delays in whole microseconds after which a request passes, with nothing in between. -/
def Store.delays (s : Store) (now : Int) (r : TakeRequest) : Set Int :=
  {delay | ∃ n : Nat, delay = n * microsecond ∧ s.Allows (now + delay) r}

/-- The costs at which a request passes, and zero. -/
def Store.costs (s : Store) (now : Int) (r : TakeRequest) : Set Int :=
  {cost | cost = 0 ∨ ∃ hpos hle, s.Allows now (r.withCost cost hpos hle)}

end Memory

section Arrivals

variable {a : Arrivals}

theorem unixMicro_add (t n : Int) : unixMicro (t + n * microsecond) = unixMicro t + n := by
  have hmicro : microsecond ≠ 0 := by decide
  have hsum : t + n * microsecond - unixEpoch = t - unixEpoch + n * microsecond := by omega
  rw [unixMicro, hsum, Int.add_mul_ediv_right _ _ hmicro]
  rfl

/-- Whether a cost fits does not depend on where an arrival time in the past is put. -/
theorem fits_max (r : TakeRequest) (t tat : Int) :
    r.Fits t (max t tat) ↔ tat + r.increment ≤ t + r.window := by
  have hle := r.increment_le
  unfold TakeRequest.Fits
  omega

/-- The arrival time of the key after a take. -/
theorem level_take (a : Arrivals) (now : Int) (r : TakeRequest) :
    (a.take now r).2.level now r.key =
      if r.Fits now (a.level now r.key) then a.level now r.key + r.increment
      else a.level now r.key := by
  have hle : now ≤ a.level now r.key := Arrivals.le_level
  have hpos := r.increment_pos
  simp only [Arrivals.take]
  split
  · rw [Arrivals.level_put, Function.update_self]
    omega
  · rfl

end Arrivals

section Stores

variable {s' : Memory.Store}

/-- Both stores have every key due at the same time from `last` on. -/
structure Alike (last : Int) (s s' : Memory.Store) : Prop where
  left : s.Consistent
  right : s'.Consistent
  level : s.arrivals.level (unixMicro last) = s'.arrivals.level (unixMicro last)

theorem alike_step (call : Call) (hR : Alike last s s') (hle : last ≤ now) :
    (memory.step s now call).1 = (memory.step s' now call).1 ∧
      Alike now (memory.step s now call).2 (memory.step s' now call).2 := by
  obtain ⟨hreply, hc, hlevel, -⟩ := Memory.step_refines hR.left now call
  obtain ⟨hreply', hc', hlevel', -⟩ := Memory.step_refines hR.right now call
  obtain ⟨hsame, hsame'⟩ :=
    Arrivals.step_congr (Arrivals.level_congr (unixMicro_mono hle) hR.level) call
  exact ⟨hreply.trans (hsame.trans hreply'.symm), hc, hc',
    hlevel.trans (hsame'.trans hlevel'.symm)⟩

/-- Stores alike decide alike from then on. -/
theorem replies_of_alike (hR : Alike last s s') {requests : List (Int × Call)}
    (ordered : Machine.Ordered last requests) :
    memory.replies s requests = memory.replies s' requests := by
  apply Machine.replies_of_simulation (R := Alike) ?_ hR ordered
  intro last s s' now call hR hle
  exact alike_step call hR hle

theorem consistent_run (run : memory.Run start last s h) : s.Consistent := by
  induction run with
  | init => exact Memory.new_consistent
  | call run now request later ih => exact (Memory.step_refines ih now request).2.1

/-- When a store lets a request pass, said by the arrival time at an earlier moment. -/
theorem allows_iff (hs : s.Consistent) (hle : last ≤ now) (r : TakeRequest) :
    s.Allows now r ↔
      s.arrivals.level (unixMicro last) r.key + r.increment ≤ unixMicro now + r.window := by
  have hreply := (Memory.take_refines hs now r).1
  have hlater : s.arrivals.level (unixMicro now) r.key =
      max (unixMicro now) (s.arrivals.level (unixMicro last) r.key) :=
    Arrivals.level_later (unixMicro_mono hle)
  rw [← fits_max, ← hlater, ← r.decision_allowed]
  constructor
  · rintro ⟨d, hd, hallowed⟩
    cases hreply.symm.trans hd
    exact hallowed
  · intro hallowed
    exact ⟨_, hreply, hallowed⟩

theorem level_of_allows (hs : s.Consistent) {r : TakeRequest} (hr : s.Allows now r) :
    (s.take .live now r).2.arrivals.level (unixMicro now) =
      Function.update (s.arrivals.level (unixMicro now)) r.key
        (s.arrivals.level (unixMicro now) r.key + r.increment) := by
  have hfits : r.Fits _ _ := (allows_iff hs le_rfl r).mp hr
  have hle : unixMicro now ≤ s.arrivals.level (unixMicro now) r.key := Arrivals.le_level
  have hpos := r.increment_pos
  rw [(Memory.take_refines hs now r).2.level, Arrivals.take, if_pos hfits, Arrivals.level_put,
    Int.max_eq_right (by omega)]

/-- The least delay after which a request passes. -/
theorem isLeast_delays (hs : s.Consistent) (r : TakeRequest) {wait : Int} (hwait : 0 ≤ wait)
    (hlevel :
      s.arrivals.level (unixMicro now) r.key + r.increment - r.window - unixMicro now ≤ wait)
    (hexact : wait = 0 ∨
      s.arrivals.level (unixMicro now) r.key + r.increment - r.window - unixMicro now = wait) :
    IsLeast (s.delays now r) (wait * microsecond) := by
  have hmicro : 0 < microsecond := by decide
  have hallows : ∀ n : Nat, s.Allows (now + n * microsecond) r ↔
      s.arrivals.level (unixMicro now) r.key + r.increment ≤ unixMicro now + n + r.window := by
    intro n
    have hle : now ≤ now + n * microsecond := by
      have := Int.mul_nonneg (Int.natCast_nonneg n) hmicro.le
      omega
    rw [allows_iff hs hle, unixMicro_add]
  constructor
  · refine ⟨wait.toNat, by rw [Int.toNat_of_nonneg hwait], ?_⟩
    have hnat : wait * microsecond = (wait.toNat : Int) * microsecond := by
      rw [Int.toNat_of_nonneg hwait]
    rw [hnat, hallows, Int.toNat_of_nonneg hwait]
    omega
  · rintro delay ⟨n, rfl, hpass⟩
    have hn := (hallows n).mp hpass
    refine Int.mul_le_mul_of_nonneg_right ?_ hmicro.le
    omega

/-- The least delay after which the whole burst passes. -/
theorem isLeast_full (hs : s.Consistent) (now : Int) (r : TakeRequest) :
    IsLeast (s.delays now r.full)
      ((s.arrivals.level (unixMicro now) r.key - unixMicro now) * microsecond) := by
  have hincrement : r.full.increment = r.window := rfl
  have hwindow : r.full.window = r.window := rfl
  have hkey : r.full.key = r.key := rfl
  have hlevel : unixMicro now ≤ s.arrivals.level (unixMicro now) r.key := Arrivals.le_level
  refine isLeast_delays hs r.full (by omega) ?_ (.inr ?_)
  · rw [hincrement, hwindow, hkey]
    omega
  · rw [hincrement, hwindow, hkey]
    omega

theorem room_le_burst (r : TakeRequest) {m tat : Int} (hle : m ≤ tat) :
    max 0 (m + r.window - tat) / r.interval ≤ r.limit.burst := by
  have hinterval := r.interval_pos
  have hburst : 0 ≤ r.limit.burst := Int.le_trans (by decide) (Int.le_trans r.cost_pos r.cost_le)
  have hwindow : r.limit.burst * r.interval = r.window := Int.mul_comm _ _
  have hnonneg := Int.mul_nonneg hburst hinterval.le
  refine Int.ediv_le_of_le_mul hinterval ?_
  omega

/-- The largest cost at which a request passes. -/
theorem isGreatest_costs (hs : s.Consistent) (now : Int) (r : TakeRequest) :
    IsGreatest (s.costs now r)
      (max 0 (unixMicro now + r.window - s.arrivals.level (unixMicro now) r.key) / r.interval) := by
  have hinterval := r.interval_pos
  let room := unixMicro now + r.window - s.arrivals.level (unixMicro now) r.key
  have hallows : ∀ cost hpos hle, s.Allows now (r.withCost cost hpos hle) ↔
      r.interval * cost ≤ room := by
    intro cost hpos hle
    have hiff := allows_iff hs (Int.le_refl now) (r.withCost cost hpos hle)
    have hinc : (r.withCost cost hpos hle).increment = r.interval * cost := rfl
    have hwindow : (r.withCost cost hpos hle).window = r.window := rfl
    have hkey : (r.withCost cost hpos hle).key = r.key := rfl
    rw [hiff, hinc, hwindow, hkey]
    omega
  show IsGreatest (s.costs now r) (max 0 room / r.interval)
  constructor
  · by_cases hzero : max 0 room / r.interval = 0
    · exact .inl hzero
    · have hnonneg : 0 ≤ max 0 room / r.interval :=
        Int.ediv_nonneg (Int.le_max_left _ _) hinterval.le
      have hmul := Int.mul_ediv_self_le (x := max 0 room) hinterval.ne'
      have hroom : r.interval * (max 0 room / r.interval) ≤ room := by
        by_cases hpos : 0 ≤ room
        · rwa [Int.max_eq_right hpos] at hmul ⊢
        · rw [Int.max_eq_left (by omega), Int.zero_ediv] at hzero
          exact absurd rfl hzero
      have hburst : max 0 room / r.interval ≤ r.limit.burst := room_le_burst r Arrivals.le_level
      exact .inr ⟨by omega, hburst, (hallows _ _ _).mpr hroom⟩
  · rintro cost (rfl | ⟨hpos, hle, hpass⟩)
    · exact Int.ediv_nonneg (Int.le_max_left _ _) hinterval.le
    · have hroom := (hallows cost hpos hle).mp hpass
      refine (Int.le_ediv_iff_mul_le hinterval).mpr ?_
      rw [Int.mul_comm]
      omega

end Stores

/-- In every reachable state a refused take changes no later decision, and `RetryAfter`, `Remaining`
and `ResetAfter` are the exact bounds of what passes and when. -/
theorem reports_are_exact (run : memory.Run start last s h) (now : Int) (r : TakeRequest) :
    ∃ d s', s.take .live now r = (.ok d, s') ∧
      (d.allowed = false →
        (∀ requests, Machine.Ordered now requests →
          memory.replies s' requests = memory.replies s requests) ∧
        0 < d.retryAfter ∧ IsLeast (s'.delays now r) d.retryAfter) ∧
      IsGreatest (s'.costs now r) d.remaining ∧ d.remaining ≤ r.limit.burst ∧
      IsLeast (s'.delays now r.full) d.resetAfter := by
  have hs := consistent_run run
  let m := unixMicro now
  let tat := s.arrivals.level m r.key
  let s' := (s.take .live now r).2
  obtain ⟨hreply, hs', hlevel, -⟩ := Memory.take_refines hs now r
  have hafter : s'.arrivals.level m r.key =
      if r.Fits m tat then tat + r.increment else tat := by
    rw [hlevel]
    exact level_take s.arrivals m r
  have hcosts := isGreatest_costs hs' now r
  have hfull := isLeast_full hs' now r
  have hburst := room_le_burst r (Arrivals.le_level : m ≤ s'.arrivals.level m r.key)
  refine ⟨r.decision m tat, s', Prod.ext hreply rfl, ?_⟩
  by_cases hfits : r.Fits m tat
  · have hroom : tat + r.increment ≤ m + r.window := hfits
    have hafter' : s'.arrivals.level m r.key = tat + r.increment := hafter.trans (if_pos hfits)
    have hd : r.decision m tat =
        ⟨r.limit, true, max 0 (m + r.window - (tat + r.increment)) / r.interval, 0,
          (tat + r.increment - m) * microsecond⟩ := by
      rw [TakeRequest.decision, if_pos hfits, Int.max_eq_right (by omega)]
    rw [hd, ← hafter']
    exact ⟨fun h => Bool.noConfusion h, hcosts, hburst, hfull⟩
  · have hroom : m + r.window < tat + r.increment := Int.not_le.mp hfits
    have hafter' : s'.arrivals.level m r.key = tat := hafter.trans (if_neg hfits)
    have hd : r.decision m tat =
        ⟨r.limit, false, max 0 (m + r.window - tat) / r.interval,
          (tat + r.increment - r.window - m) * microsecond, (tat - m) * microsecond⟩ :=
      if_neg hfits
    have hsame : Alike now s' s := by
      refine ⟨hs', hs, hlevel.trans ?_⟩
      rw [Arrivals.take, if_neg hfits]
    rw [hd, ← hafter']
    refine ⟨fun _ => ⟨fun requests => replies_of_alike hsame, ?_, ?_⟩, hcosts, hburst, hfull⟩
    · exact Int.mul_pos (by omega) (by decide)
    · exact isLeast_delays hs' r (by omega) (Int.le_refl _) (.inr rfl)

/-- A take that is refused after one under another limit. -/
theorem reports_are_exact_limits :
    let loose : TakeRequest := ⟨"k", ⟨1000, second, 3⟩, 2, by decide, by decide, by decide⟩
    let strict : TakeRequest := ⟨"k", ⟨500, second, 1⟩, 1, by decide, by decide, by decide⟩
    let s := (memory.step memory.init unixEpoch (.take .live loose)).2
    ∃ d s', s.take .live (unixEpoch + millisecond) strict = (.ok d, s') ∧ d.allowed = false ∧
      d.retryAfter = millisecond ∧
      IsLeast (s'.delays (unixEpoch + millisecond) strict) millisecond := by
  intro loose strict s
  have hinit : memory.Run unixEpoch unixEpoch memory.init [] := .init
  obtain ⟨d, s', htake, hrefused, -⟩ := reports_are_exact
    (hinit.call unixEpoch (.take .live loose) (Int.le_refl _)) (unixEpoch + millisecond) strict
  have hd : (s.take .live (unixEpoch + millisecond) strict).1 =
      .ok ⟨⟨500, second, 1⟩, false, 0, millisecond, millisecond⟩ := by decide
  cases (congrArg Prod.fst htake).symm.trans hd
  exact ⟨_, s', htake, rfl, rfl, (hrefused rfl).2.2⟩

/-- Two costs pass at one reading exactly if their sum does, and then nothing tells them apart. -/
theorem costs_add (run : memory.Run start last s h) (now : Int) (r : TakeRequest) {cost : Int}
    (hpos : 1 ≤ cost) (hle : r.cost + cost ≤ r.limit.burst) :
    let more := r.withCost cost hpos (by have := r.cost_pos; omega)
    let both := r.withCost (r.cost + cost) (by have := r.cost_pos; omega) hle
    let s' := (s.take .live now r).2
    (s.Allows now both ↔ s.Allows now r ∧ s'.Allows now more) ∧
      (s.Allows now both → ∀ requests, Machine.Ordered now requests →
        memory.replies (s'.take .live now more).2 requests =
          memory.replies (s.take .live now both).2 requests) := by
  intro more both s'
  have hs := consistent_run run
  have hs' := (Memory.take_refines hs now r).2.consistent
  have hmore : more.key = r.key ∧ more.window = r.window ∧ 0 < more.increment :=
    ⟨rfl, rfl, more.increment_pos⟩
  have hboth : both.key = r.key ∧ both.window = r.window ∧
      both.increment = r.increment + more.increment := ⟨rfl, rfl, Int.mul_add _ _ _⟩
  have hfirst : s.Allows now both → s.Allows now r := by
    rw [allows_iff hs le_rfl, allows_iff hs le_rfl, hboth.1]
    omega
  have hsecond : s.Allows now r → (s'.Allows now more ↔ s.Allows now both) := by
    intro hr
    rw [allows_iff hs' le_rfl, level_of_allows hs hr, allows_iff hs le_rfl, hmore.1, hboth.1,
      Function.update_self]
    omega
  refine ⟨⟨fun hb => ⟨hfirst hb, (hsecond (hfirst hb)).mpr hb⟩, fun h => (hsecond h.1).mp h.2⟩, ?_⟩
  intro hb requests
  have hr := hfirst hb
  refine replies_of_alike ⟨(Memory.take_refines hs' now more).2.consistent,
    (Memory.take_refines hs now both).2.consistent, ?_⟩
  rw [level_of_allows hs' ((hsecond hr).mpr hb), level_of_allows hs hr, level_of_allows hs hb,
    hmore.1, hboth.1, hboth.2.2, Function.update_idem, Function.update_self, Int.add_assoc]

/-- A burst of two passes in two takes, since it passes in one. -/
theorem costs_add_burst :
    let r : TakeRequest := ⟨"k", ⟨1000, second, 2⟩, 1, by decide, by decide, by decide⟩
    memory.init.Allows 0 r ∧ (memory.init.take .live 0 r).2.Allows 0 r := by
  intro r
  have hinit : memory.Run 0 0 memory.init [] := .init
  exact (costs_add hinit 0 r (Int.le_refl 1) (by decide)).1.mp ⟨_, rfl, rfl⟩

end Fries.RateLimit
