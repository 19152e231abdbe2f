import Fries.RateLimit.Memory

/-! How much a key can spend within any window of time. -/
namespace Fries.RateLimit

variable {last now start stop : Int} {key : String} {limit : Limit} {a : Arrivals}
  {s : Memory.Store} {h : List (Event Call Reply)}

/-- The cost of an allowed take of `key` between two microseconds, both included. -/
def spends (key : String) (start stop : Int) (e : Event Call Reply) : Int :=
  match e.request, e.reply with
  | .take _ r, .take (.ok d) =>
    if d.allowed ∧ r.key = key ∧ start ≤ unixMicro e.now ∧ unixMicro e.now ≤ stop then r.cost else 0
  | _, _ => 0

def spent (key : String) (start stop : Int) (h : List (Event Call Reply)) : Int :=
  h.foldl (fun total e => total + spends key start stop e) 0

theorem spent_append (key : String) (start stop : Int) (h : List (Event Call Reply))
    (e : Event Call Reply) :
    spent key start stop (h ++ [e]) = spent key start stop h + spends key start stop e := by
  simp [spent]

/-- The calls on `key` are takes under `limit`. -/
def Uses (key : String) (limit : Limit) (h : List (Event Call Reply)) : Prop :=
  ∀ e ∈ h, match e.request with
    | .take _ r => r.key = key → r.limit = limit
    | .reset _ k => k ≠ key

theorem spends_eq_zero {e : Event Call Reply}
    (he : ∀ ctx r d, e.request = .take ctx r → e.reply = .take (.ok d) → d.allowed = true →
      r.key = key → start ≤ unixMicro e.now → unixMicro e.now ≤ stop → False) :
    spends key start stop e = 0 := by
  unfold spends
  split
  · rename_i ctx r d hreq hrep
    rw [if_neg]
    rintro ⟨hd, hk, h1, h2⟩
    exact he ctx r d hreq hrep hd hk h1 h2
  · rfl

/-- What was spent in the window is covered both by the time gone by in it and the burst,
and by how far the key is due after its start. -/
structure Metered (key : String) (limit : Limit) (start stop : Int) (last : Int) (a : Arrivals)
    (total : Int) : Prop where
  within : total * emissionInterval limit ≤ stop - start + emissionInterval limit * limit.burst
  due : total = 0 ∨ total * emissionInterval limit ≤ a.level (unixMicro last) key - start

variable {total : Int}

theorem metered_of_level_le {a' : Arrivals} (hm : Metered key limit start stop last a total)
    (hl : a.level (unixMicro last) key ≤ a'.level (unixMicro now) key) :
    Metered key limit start stop now a' total := by
  refine ⟨hm.within, ?_⟩
  rcases hm.due with h0 | hd
  · exact .inl h0
  · exact .inr (by omega)

theorem level_le_later (a : Arrivals) (key : String) (hle : last ≤ now) :
    a.level (unixMicro last) key ≤ a.level (unixMicro now) key := by
  rw [Arrivals.level_later (unixMicro_mono hle)]
  exact Int.le_max_right _ _

/-- An accepted cost lifts the due time and the spending by the same amount. -/
theorem metered_take {r : TakeRequest} (hm : Metered key limit start stop last a total)
    (hle : last ≤ now) (hlim : r.limit = limit)
    (hf : r.Fits (unixMicro now) (a.level (unixMicro now) key))
    (hstart : start ≤ unixMicro now) (hstop : unixMicro now ≤ stop) :
    Metered key limit start stop now
      (Function.update a key (some (a.level (unixMicro now) key + r.increment)))
      (total + r.cost) := by
  have hroom : a.level (unixMicro now) key + r.increment ≤ unixMicro now + r.window := hf
  have hlevel := level_le_later a key hle
  have hnow : unixMicro now ≤ a.level (unixMicro now) key := Arrivals.le_level
  have hdue : total * emissionInterval limit ≤ a.level (unixMicro now) key - start := by
    rcases hm.due with h0 | hd
    · rw [h0, Int.zero_mul]
      omega
    · omega
  have hsum : (total + r.cost) * emissionInterval limit =
      total * emissionInterval limit + r.increment := by
    rw [Int.add_mul, TakeRequest.increment, TakeRequest.interval, hlim, Int.mul_comm r.cost]
  have hwindow : r.window = emissionInterval limit * limit.burst := by
    rw [TakeRequest.window, TakeRequest.interval, hlim]
  refine ⟨by omega, .inr ?_⟩
  rw [Arrivals.level_put, Function.update_self]
  omega

theorem metered_step (hm : Metered key limit start stop last a total) (hle : last ≤ now)
    {call : Call} (hu : Uses key limit [⟨now, call, (a.step now call).1⟩]) :
    Metered key limit start stop now (a.step now call).2
      (total + spends key start stop ⟨now, call, (a.step now call).1⟩) := by
  have hlevel := level_le_later a key hle
  rcases a.step_cases now call with ⟨r, rfl, hf, hstep⟩ | ⟨ctx, k, rfl, hstep⟩ | ⟨hstep, hden⟩
  · rw [hstep]
    by_cases hk : r.key = key
    · subst key
      have hlim : r.limit = limit := by simpa [Uses] using hu
      have hallowed : (r.decision (unixMicro now) (a.level (unixMicro now) r.key)).allowed = true :=
        (r.decision_allowed _ _).mpr hf
      by_cases hw : start ≤ unixMicro now ∧ unixMicro now ≤ stop
      · have hcost : spends r.key start stop ⟨now, .take .live r, (a.step now (.take .live r)).1⟩ =
            r.cost := if_pos ⟨hallowed, rfl, hw⟩
        rw [hcost]
        exact metered_take hm hle hlim hf hw.1 hw.2
      · have hcost : spends r.key start stop ⟨now, .take .live r, (a.step now (.take .live r)).1⟩ =
            0 := if_neg fun h => hw h.2.2
        rw [hcost, Int.add_zero]
        apply metered_of_level_le hm
        have := r.increment_pos
        rw [Arrivals.level_put, Function.update_self]
        omega
    · have hcost : spends key start stop ⟨now, .take .live r, (a.step now (.take .live r)).1⟩ = 0 :=
        if_neg fun h => hk h.2.1
      rw [hcost, Int.add_zero]
      apply metered_of_level_le hm
      rwa [Arrivals.level_put, Function.update_of_ne (Ne.symm hk)]
  · have hk : key ≠ k := by simpa [Uses, eq_comm] using hu
    have hcost : spends key start stop ⟨now, .reset ctx k, (a.step now (.reset ctx k)).1⟩ = 0 := rfl
    rw [hcost, Int.add_zero]
    apply metered_of_level_le hm
    rcases hstep with hstep | hstep
    · rwa [hstep, Arrivals.level_reset, Function.update_of_ne hk]
    · rwa [hstep]
  · have hcost : spends key start stop ⟨now, call, (a.step now call).1⟩ = 0 := by
      apply spends_eq_zero
      intro ctx r d _ hreply hd
      simp [hden d hreply] at hd
    rw [hcost, hstep, Int.add_zero]
    exact metered_of_level_le hm hlevel

/-- The run lemma: every history of the table is metered. -/
theorem metered_run {first : Int} (start stop : Int) (hburst : 0 ≤ emissionInterval limit * limit.burst)
    (hwin : start ≤ stop) (hr : arrivals.Run first last a h) :
    Uses key limit h → Metered key limit start stop last a (spent key start stop h) := by
  induction hr with
  | init =>
    intro _
    refine ⟨?_, .inl rfl⟩
    simp only [spent, List.foldl_nil, Int.zero_mul]
    omega
  | call run now call later ih =>
    intro hu
    have hm := ih fun e he => hu e (List.mem_append_left _ he)
    rw [spent_append]
    exact metered_step hm later fun e he => hu e (List.mem_append_right _ he)

/-- In every history what a key under one limit gets in any window is at most the burst and one unit
for each emission interval in the window. -/
theorem memory_window_bound {first : Int} (hr : memory.Run first last s h)
    (hvalid : validateLimit limit = .ok ()) (huses : Uses key limit h) (start : Int) {width : Int}
    (hwidth : 0 ≤ width) :
    spent key start (start + width) h ≤ limit.burst + width / emissionInterval limit := by
  have hv := valid_of_validateLimit hvalid
  obtain ⟨a, ha, -⟩ := Machine.run_of_simulation (N := arrivals) (R := Memory.Refines)
    ⟨Memory.new_consistent, rfl⟩ Memory.refines_step hr
  have hburst := Int.mul_nonneg hv.interval_pos.le hv.burst_pos.le
  have hm := metered_run start (start + width) hburst (by omega) ha huses
  have hwithin : spent key start (start + width) h * emissionInterval limit ≤
      width + limit.burst * emissionInterval limit := by
    have := hm.within
    rw [Int.mul_comm limit.burst]
    omega
  rw [← Int.le_ediv_iff_mul_le hv.interval_pos,
    Int.add_mul_ediv_right _ _ hv.interval_pos.ne'] at hwithin
  omega

/-- Ten units a second in bursts of two: a take of the burst, a refused one and one that is
allowed an interval later meet the bound of a window of one and a half intervals. -/
theorem memory_window_bound_tight :
    let limit : Limit := ⟨10, second, 2⟩
    let two : TakeRequest := ⟨"k", limit, 2, by decide, by decide, by decide⟩
    let one : TakeRequest := ⟨"k", limit, 1, by decide, by decide, by decide⟩
    let h := memory.history memory.init
      [(unixEpoch, .take .live two), (unixEpoch + millisecond, .take .live one),
        (unixEpoch + 100 * millisecond, .take .live one)]
    spent "k" 0 150000 h = 3 ∧ spent "k" 0 150000 h ≤ 2 + 150000 / emissionInterval limit := by
  intro limit two one h
  obtain ⟨last, s, hr⟩ := Machine.run_history (.init : memory.Run unixEpoch _ _ [])
    [(unixEpoch, .take .live two), (unixEpoch + millisecond, .take .live one),
      (unixEpoch + 100 * millisecond, .take .live one)] (by decide)
  have huses : Uses "k" limit h := by
    intro e he
    simp [h, Machine.history] at he
    rcases he with rfl | rfl | rfl <;> exact fun _ => rfl
  rw [List.nil_append] at hr
  have hbound : spent "k" 0 (0 + 150000) h ≤ 2 + 150000 / emissionInterval limit :=
    memory_window_bound hr (by decide) huses 0 (by decide)
  exact ⟨by decide +kernel, hbound⟩

end Fries.RateLimit
