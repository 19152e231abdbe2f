import Fries.RateLimit.Limit

/-! The purpose of a rate-limit store: an arrival time per key, pushed back by costs. -/
namespace Fries.RateLimit

abbrev Arrivals := String → Option Int

namespace TakeRequest

variable (r : TakeRequest)

def interval : Int := emissionInterval r.limit

def window : Int := r.interval * r.limit.burst

def increment : Int := r.interval * r.cost

/-- The cost fits into the burst of a key that is due at `tat`. -/
def Fits (now tat : Int) : Prop := tat + r.increment ≤ now + r.window

instance (now tat : Int) : Decidable (r.Fits now tat) := inferInstanceAs (Decidable (_ ≤ _))

def decision (now tat : Int) : Decision :=
  if r.Fits now tat then
    { limit := r.limit
      allowed := true
      remaining := (now + r.window - (tat + r.increment)) / r.interval
      retryAfter := 0
      resetAfter := (tat + r.increment - now) * microsecond }
  else
    { limit := r.limit
      allowed := false
      remaining := max 0 (now + r.window - tat) / r.interval
      retryAfter := (tat + r.increment - r.window - now) * microsecond
      resetAfter := (tat - now) * microsecond }

theorem interval_pos : 0 < r.interval := (valid_of_validateLimit r.valid).interval_pos

theorem increment_pos : 0 < r.increment := Int.mul_pos r.interval_pos r.cost_pos

theorem increment_le : r.increment ≤ r.window :=
  Int.mul_le_mul_of_nonneg_left r.cost_le r.interval_pos.le

theorem decision_allowed (now tat : Int) : (r.decision now tat).allowed = true ↔ r.Fits now tat := by
  unfold decision
  split <;> simp_all

end TakeRequest

namespace Arrivals

variable {a b : Arrivals} {last now : Int} {key : String}

/-- When a key is due, which is never in the past. -/
def level (a : Arrivals) (now : Int) (key : String) : Int := max now ((a key).getD now)

def take (a : Arrivals) (now : Int) (r : TakeRequest) : Decision × Arrivals :=
  let tat := a.level now r.key
  (r.decision now tat,
    if r.Fits now tat then Function.update a r.key (some (tat + r.increment)) else a)

def reset (a : Arrivals) (key : String) : Arrivals := Function.update a key none

def step (a : Arrivals) (now : Int) : Call → Reply × Arrivals
  | .take ctx request =>
    match validateContext ctx with
    | some err => (.take (.error err), a)
    | none => (a.take (unixMicro now) request).map (fun d => .take (.ok d)) id
  | .reset ctx key =>
    match validateContext ctx with
    | some err => (.reset (.error err), a)
    | none => (.reset (.ok ()), a.reset key)

theorem le_level : now ≤ a.level now key := Int.le_max_left _ _

theorem level_of_some {t : Int} (h : a key = some t) : a.level now key = max now t := by
  simp [level, h]

theorem level_of_none (h : a key = none) : a.level now key = now := by
  simp [level, h]

theorem level_put (t : Int) :
    level (Function.update a key (some t)) now = Function.update (a.level now) key (max now t) := by
  funext k
  by_cases hk : k = key
  · subst k
    simp [level]
  · simp [level, hk]

theorem level_reset : (a.reset key).level now = Function.update (a.level now) key now := by
  funext k
  by_cases hk : k = key
  · subst k
    simp [level, reset]
  · simp [level, reset, hk]

theorem level_later (h : last ≤ now) : a.level now key = max now (a.level last key) := by
  simp only [level]
  cases a key with
  | none | some t => simp; omega

/-- What is due alike now is due alike later. -/
theorem level_congr (h : last ≤ now) (he : a.level last = b.level last) :
    a.level now = b.level now := by
  funext key
  rw [level_later h, level_later h, he]

theorem take_congr (he : a.level now = b.level now) (r : TakeRequest) :
    (a.take now r).1 = (b.take now r).1 ∧ (a.take now r).2.level now = (b.take now r).2.level now := by
  simp only [take, he, true_and]
  split
  · rw [level_put, level_put, he]
  · exact he

/-- Tables due alike answer alike and stay so. -/
theorem step_congr (he : a.level (unixMicro now) = b.level (unixMicro now)) (call : Call) :
    (a.step now call).1 = (b.step now call).1 ∧
      (a.step now call).2.level (unixMicro now) = (b.step now call).2.level (unixMicro now) := by
  cases call with
  | take ctx r =>
    obtain ⟨hreply, hnext⟩ := take_congr he r
    simp only [step]
    cases validateContext ctx with
    | some err => exact ⟨rfl, he⟩
    | none => simp [hreply, hnext]
  | reset ctx key =>
    simp only [step]
    cases validateContext ctx with
    | some err => exact ⟨rfl, he⟩
    | none => exact ⟨rfl, by rw [level_reset, level_reset, he]⟩

/-- All a call can do: an accepted take, a reset, or nothing. -/
theorem step_cases (a : Arrivals) (now : Int) (call : Call) :
    (∃ r, call = .take .live r ∧ r.Fits (unixMicro now) (a.level (unixMicro now) r.key) ∧
      (a.step now call).2 =
        Function.update a r.key (some (a.level (unixMicro now) r.key + r.increment))) ∨
    (∃ ctx k, call = .reset ctx k ∧ ((a.step now call).2 = a.reset k ∨ (a.step now call).2 = a)) ∨
    ((a.step now call).2 = a ∧
      ∀ d, (a.step now call).1 = .take (.ok d) → d.allowed = false) := by
  cases call with
  | reset ctx k => cases ctx <;> simp [step, validateContext, Ctx.cause]
  | take ctx r =>
    cases ctx with
    | nil | done cause => exact .inr (.inr ⟨rfl, by intro d hd; cases hd⟩)
    | live =>
      by_cases hf : r.Fits (unixMicro now) (a.level (unixMicro now) r.key)
      · exact .inl ⟨r, rfl, hf, if_pos hf⟩
      · refine .inr (.inr ⟨if_neg hf, ?_⟩)
        intro d hd
        obtain rfl : r.decision (unixMicro now) (a.level (unixMicro now) r.key) = d := by
          simpa [step, validateContext, Ctx.cause, take] using hd
        simpa using mt (r.decision_allowed _ _).mp hf

/-- No key is due later than the longest burst a limit allows. -/
def Bounded (a : Arrivals) (now : Int) : Prop :=
  ∀ key, a.level now key ≤ now + maxInt64.tdiv microsecond

theorem bounded_later (hb : a.Bounded last) (h : last ≤ now) : a.Bounded now := by
  intro key
  have := hb key
  have hmax : 0 ≤ maxInt64.tdiv microsecond := by decide
  rw [level_later h]
  omega

theorem bounded_step (hb : a.Bounded (unixMicro now)) (call : Call) :
    (a.step now call).2.Bounded (unixMicro now) := by
  intro key
  have hkey := hb key
  rcases a.step_cases now call with ⟨r, -, hf, hstep⟩ | ⟨ctx, k, -, hstep | hstep⟩ | ⟨hstep, -⟩
  · rw [hstep, level_put]
    by_cases hk : key = r.key
    · subst key
      have hroom : a.level (unixMicro now) r.key + r.increment ≤ unixMicro now + r.window := hf
      have hwindow : r.window ≤ maxInt64.tdiv microsecond := (valid_of_validateLimit r.valid).window
      have hinc := r.increment_pos
      have hle : unixMicro now ≤ a.level (unixMicro now) r.key := le_level
      rw [Function.update_self]
      omega
    · rwa [Function.update_of_ne hk]
  · have hmax : 0 ≤ maxInt64.tdiv microsecond := by decide
    rw [hstep, level_reset]
    by_cases hk : key = k
    · subst key
      rw [Function.update_self]
      omega
    · rwa [Function.update_of_ne hk]
  · rwa [hstep]
  · rwa [hstep]

end Arrivals

def arrivals : Machine Arrivals Call Reply := ⟨fun _ => none, Arrivals.step⟩

def Call.key : Call → String
  | .take _ request => request.key
  | .reset _ key => key

theorem arrivals_local : arrivals.Local Call.key := by
  intro a now call
  cases call with
  | take ctx r =>
    simp only [arrivals, Arrivals.step, Call.key]
    cases validateContext ctx with
    | some err => simp
    | none =>
      have hlevel : Arrivals.level (fun _ => a r.key) (unixMicro now) r.key =
          Arrivals.level a (unixMicro now) r.key := rfl
      simp only [Arrivals.take, hlevel]
      by_cases hf : r.Fits (unixMicro now) (Arrivals.level a (unixMicro now) r.key) <;> simp [hf]
  | reset ctx key =>
    simp only [arrivals, Arrivals.step, Call.key]
    cases validateContext ctx with
    | some err => simp
    | none => simp [Arrivals.reset]

theorem unixMicro_mono {last now : Int} (h : last ≤ now) : unixMicro last ≤ unixMicro now :=
  Int.ediv_le_ediv (by decide) (by omega)

end Fries.RateLimit
