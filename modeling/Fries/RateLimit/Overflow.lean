import Fries.RateLimit.Memory
import Mathlib.Data.Rat.Floor

/-! Limits and the in-memory `Take` once more, with every 64-bit operation checked. -/
namespace Fries.RateLimit.Checked

open Word

def divideRoundUp (value divisor : Int) : Option Int := do
  let result ← div value divisor
  if (← rem value divisor) ≠ 0 then add result 1 else return result

def validateLimit (limit : Limit) : Option (Except LimitError Unit) :=
  if limit.rate ≤ 0 then some (.error .rate)
  else if limit.period ≤ 0 then some (.error .period)
  else if limit.burst ≤ 0 then some (.error .burst)
  else do
    if limit.rate > (← div limit.period microsecond) then return .error .interval
    let intervalNanos ← divideRoundUp limit.period limit.rate
    let interval ← divideRoundUp intervalNanos microsecond
    if limit.burst > (← div maxInt64 interval) then return .error .overflow
    if (← mul interval limit.burst) > (← div maxInt64 microsecond) then return .error .overflow
    return .ok ()

def emissionInterval (limit : Limit) : Option Int := do
  let interval ← div limit.period limit.rate
  let interval ← if (← rem limit.period limit.rate) ≠ 0 then add interval 1 else some interval
  let result ← div interval microsecond
  if (← rem interval microsecond) ≠ 0 then add result 1 else return result

def remaining (now tat interval burstOffset : Int) : Option Int := do
  let available ← sub (← add now burstOffset) tat
  if available ≤ 0 then return 0
  div available interval

def microseconds (value : Int) : Option Int :=
  if value ≤ 0 then some 0 else mul value microsecond

/-- `Time.UnixMicro`, from the seconds since the zero `time.Time` and the nanoseconds of a
second. -/
def unixMicro (t : Int) : Option Int := do
  let seconds ← add (t / second) (-62135596800)
  add (← mul seconds 1000000) (← div (t % second) 1000)

/-- The arrival time a take starts from. -/
def arrival (s : Memory.Store) (now : Int) (key : String) : Int :=
  match s.records.lookup key with
  | some current => if now < (s.cells current).tat then (s.cells current).tat else now
  | none => now

def take (s : Memory.Store) (ctx : Ctx) (clock : Int) (request : TakeRequest) :
    Option (Except Error Decision × Memory.Store) :=
  match validateContext ctx with
  | some err => some (.error err, s)
  | none =>
    match ctx.cause with
    | some cause => some (.error (.cause cause), s)
    | none => do
      let now ← unixMicro clock
      let s := s.cleanup now
      let interval ← emissionInterval request.limit
      let burstOffset ← mul interval request.limit.burst
      let increment ← mul interval request.cost
      let tat := arrival s now request.key
      let newTAT ← add tat increment
      if newTAT > (← add now burstOffset) then
        let remaining ← remaining now tat interval burstOffset
        let retryAfter ← microseconds (← sub (← sub newTAT burstOffset) now)
        let resetAfter ← microseconds (← sub tat now)
        return (.ok ⟨request.limit, false, remaining, retryAfter, resetAfter⟩, s)
      else
        let remaining ← remaining now newTAT interval burstOffset
        let resetAfter ← microseconds (← sub newTAT now)
        return (.ok ⟨request.limit, true, remaining, 0, resetAfter⟩, s.save request.key newTAT)

end Checked

/-- A limit whose fields are 64-bit numbers. -/
structure Limit.Word (limit : Limit) : Prop where
  rate : Word.Fits limit.rate
  period : Word.Fits limit.period
  burst : Word.Fits limit.burst

section Limits

variable {limit : Limit} {value divisor : Int}

theorem divideRoundUp_bounds (hv : 0 ≤ value) (hd : 0 < divisor) :
    (divideRoundUp value divisor - 1) * divisor < value ∧
      value ≤ divideRoundUp value divisor * divisor := by
  have hdiv := Int.mul_ediv_add_emod value divisor
  have hmod := Int.emod_nonneg value hd.ne'
  have hlt := Int.emod_lt_of_pos value hd
  rw [divideRoundUp_eq hv]
  split
  · rename_i hne
    rw [Int.add_sub_cancel, Int.add_mul, Int.one_mul, Int.mul_comm]
    omega
  · rename_i heq
    rw [Int.sub_mul, Int.one_mul, Int.mul_comm (value / divisor)]
    omega

theorem divideRoundUp_le (hv : 0 < value) (hd : 0 < divisor) :
    divideRoundUp value divisor ≤ value := by
  by_contra hlt
  have hbounds := (divideRoundUp_bounds hv.le hd).1
  have hle : value * 1 ≤ (divideRoundUp value divisor - 1) * divisor :=
    Int.mul_le_mul (by omega) hd (by decide) (by omega)
  omega

theorem checked_divideRoundUp (hv : 0 < value) (hfits : Word.Fits value) (hd : 0 < divisor) :
    Checked.divideRoundUp value divisor = some (divideRoundUp value divisor) := by
  have hle := divideRoundUp_le hv hd
  have hpos := divideRoundUp_pos hv hd
  simp only [Checked.divideRoundUp, Word.div_eq hv.le hfits hd, Word.rem_eq hv.le hfits hd,
    Option.bind_eq_bind, Option.bind_some]
  by_cases hrem : value.tmod divisor = 0
  · simp [divideRoundUp, hrem]
  · have heq : divideRoundUp value divisor = value.tdiv divisor + 1 := if_pos hrem
    rw [if_pos hrem, heq, Word.add_eq]
    unfold Word.Fits at hfits ⊢
    omega

/-- Rounding up twice is rounding up the exact fraction. -/
theorem emissionInterval_eq_ceil (hr : 0 < limit.rate) (hp : 0 < limit.period) :
    emissionInterval limit = ⌈(limit.period : ℚ) / limit.rate / microsecond⌉ := by
  have hmicro : 0 < microsecond := by decide
  let nanos := divideRoundUp limit.period limit.rate
  have hinterval : emissionInterval limit = divideRoundUp nanos microsecond := rfl
  have hnanos : 0 < nanos := divideRoundUp_pos hp hr
  obtain ⟨hlow, hhigh⟩ := divideRoundUp_bounds hp.le hr
  obtain ⟨hlow', hhigh'⟩ := divideRoundUp_bounds hnanos.le hmicro
  rw [← hinterval] at hlow' hhigh'
  have hunit : (0 : ℚ) < limit.rate * microsecond := by exact_mod_cast Int.mul_pos hr hmicro
  refine (Int.ceil_eq_iff.mpr ⟨?_, ?_⟩).symm
  · have hlt : (emissionInterval limit - 1) * (limit.rate * microsecond) < limit.period :=
      calc (emissionInterval limit - 1) * (limit.rate * microsecond)
          = (emissionInterval limit - 1) * microsecond * limit.rate := by
            rw [Int.mul_comm limit.rate, Int.mul_assoc]
        _ ≤ (nanos - 1) * limit.rate := Int.mul_le_mul_of_nonneg_right (by omega) hr.le
        _ < limit.period := hlow
    rw [div_div, lt_div_iff₀ hunit]
    exact_mod_cast hlt
  · have hle : limit.period ≤ emissionInterval limit * (limit.rate * microsecond) :=
      calc limit.period ≤ nanos * limit.rate := hhigh
        _ ≤ emissionInterval limit * microsecond * limit.rate :=
            Int.mul_le_mul_of_nonneg_right hhigh' hr.le
        _ = emissionInterval limit * (limit.rate * microsecond) := by
            rw [Int.mul_comm limit.rate, Int.mul_assoc]
    rw [div_div, div_le_iff₀ hunit]
    exact_mod_cast hle

/-- The limits that are accepted, with the fraction exact and the burst as a duration. -/
structure Limit.Acceptable (limit : Limit) : Prop where
  rate : 0 < limit.rate
  period : 0 < limit.period
  burst : 0 < limit.burst
  interval : (microsecond : ℚ) ≤ (limit.period : ℚ) / limit.rate
  window : ⌈(limit.period : ℚ) / limit.rate / microsecond⌉ * limit.burst * microsecond ≤ maxInt64

theorem rate_le_iff (hr : 0 < limit.rate) (hp : 0 < limit.period) :
    limit.rate ≤ limit.period.tdiv microsecond ↔
      (microsecond : ℚ) ≤ (limit.period : ℚ) / limit.rate := by
  have hmicro : 0 < microsecond := by decide
  have hrate : (0 : ℚ) < limit.rate := by exact_mod_cast hr
  rw [Int.tdiv_eq_ediv_of_nonneg hp.le, Int.le_ediv_iff_mul_le hmicro, le_div_iff₀ hrate,
    Int.mul_comm]
  exact_mod_cast Iff.rfl

theorem window_le_iff (product : Int) :
    product ≤ maxInt64.tdiv microsecond ↔ product * microsecond ≤ maxInt64 := by
  have hmicro : 0 < microsecond := by decide
  have hmax : 0 ≤ maxInt64 := by decide
  rw [Int.tdiv_eq_ediv_of_nonneg hmax, Int.le_ediv_iff_mul_le hmicro]

theorem validateLimit_ok_iff : validateLimit limit = .ok () ↔ limit.Acceptable := by
  unfold validateLimit
  split
  · rename_i hr
    exact ⟨nofun, fun h => absurd h.rate (Int.not_lt.mpr hr)⟩
  rename_i hr
  split
  · rename_i hp
    exact ⟨nofun, fun h => absurd h.period (Int.not_lt.mpr hp)⟩
  rename_i hp
  split
  · rename_i hb
    exact ⟨nofun, fun h => absurd h.burst (Int.not_lt.mpr hb)⟩
  rename_i hb
  rw [Int.not_le] at hr hp hb
  split
  · rename_i hfast
    exact ⟨nofun, fun h => absurd ((rate_le_iff hr hp).mpr h.interval) (Int.not_le.mpr hfast)⟩
  rename_i hslow
  have hinterval := (rate_le_iff hr hp).mp (Int.not_lt.mp hslow)
  have hceil := emissionInterval_eq_ceil hr hp
  have hpos : 0 < emissionInterval limit :=
    divideRoundUp_pos (divideRoundUp_pos hp hr) (by decide)
  have hiff : emissionInterval limit * limit.burst ≤ maxInt64.tdiv microsecond ↔
      limit.Acceptable := by
    rw [window_le_iff, hceil]
    exact ⟨fun h => ⟨hr, hp, hb, hinterval, h⟩, fun h => h.window⟩
  rw [← hiff]
  -- the first test of the burst is implied by the second and keeps its product from overflowing
  have hfirst : emissionInterval limit * limit.burst ≤ maxInt64.tdiv microsecond →
      limit.burst ≤ maxInt64.tdiv (emissionInterval limit) := by
    intro h
    have hmax : 0 ≤ maxInt64 := by decide
    have hthousandth : maxInt64.tdiv microsecond ≤ maxInt64 := by decide
    rw [Int.tdiv_eq_ediv_of_nonneg hmax, Int.le_ediv_iff_mul_le hpos, Int.mul_comm]
    omega
  show (if limit.burst > maxInt64.tdiv (emissionInterval limit) ∨
    emissionInterval limit * limit.burst > maxInt64.tdiv microsecond then
    Except.error LimitError.overflow else .ok ()) = .ok () ↔ _
  split
  · rename_i hlarge
    refine ⟨nofun, fun h => ?_⟩
    rcases hlarge with hburst | hproduct
    · exact absurd (hfirst h) (Int.not_le.mpr hburst)
    · exact absurd h (Int.not_le.mpr hproduct)
  · rename_i hsmall
    exact ⟨fun _ => Int.not_lt.mp fun h => hsmall (.inr h), fun _ => rfl⟩

/-- The validation never overflows. -/
theorem checked_validateLimit (hword : limit.Word) :
    Checked.validateLimit limit = some (validateLimit limit) := by
  have hmicro : 0 < microsecond := by decide
  have hmax : 0 ≤ maxInt64 := by decide
  have hfits : Word.Fits maxInt64 := by decide
  unfold Checked.validateLimit validateLimit
  split
  · rfl
  rename_i hr
  split
  · rfl
  rename_i hp
  split
  · rfl
  rename_i hb
  rw [Int.not_le] at hr hp hb
  have hnanos := divideRoundUp_pos hp hr
  have hnanosFits : Word.Fits (divideRoundUp limit.period limit.rate) := by
    have hle := divideRoundUp_le hp hr
    have hword := hword.period
    unfold Word.Fits at hword ⊢
    omega
  have hinterval := divideRoundUp_pos hnanos hmicro
  simp only [Word.div_eq hp.le hword.period hmicro, checked_divideRoundUp hp hword.period hr,
    checked_divideRoundUp hnanos hnanosFits hmicro, Word.div_eq hmax hfits hinterval,
    Word.div_eq hmax hfits hmicro, Option.bind_eq_bind, Option.bind_some]
  generalize divideRoundUp (divideRoundUp limit.period limit.rate) microsecond = interval
    at hinterval ⊢
  by_cases hfast : limit.rate > limit.period.tdiv microsecond
  · simp [hfast]
  by_cases hburst : limit.burst > maxInt64.tdiv interval
  · simp [hfast, hburst]
  have hproduct : Word.Fits (interval * limit.burst) := by
    have hle := Int.not_lt.mp hburst
    rw [Int.tdiv_eq_ediv_of_nonneg hmax, Int.le_ediv_iff_mul_le hinterval, Int.mul_comm] at hle
    have hnonneg := Int.mul_nonneg hinterval.le hb.le
    unfold Word.Fits
    exact ⟨by omega, hle⟩
  simp only [hfast, hburst, if_false, Word.mul_eq hproduct, Option.bind_some, false_or]
  split <;> rfl

theorem checked_emissionInterval (hvalid : limit.Valid) (hword : limit.Word) :
    Checked.emissionInterval limit = some (emissionInterval limit) := by
  have hmicro : 0 < microsecond := by decide
  have hnanos := divideRoundUp_pos hvalid.period_pos hvalid.rate_pos
  have hnanosFits : Word.Fits (divideRoundUp limit.period limit.rate) := by
    have hle := divideRoundUp_le hvalid.period_pos hvalid.rate_pos
    have hword := hword.period
    unfold Word.Fits at hword ⊢
    omega
  have htwice : Checked.emissionInterval limit =
      (Checked.divideRoundUp limit.period limit.rate).bind fun nanos =>
        Checked.divideRoundUp nanos microsecond := by
    simp only [Checked.emissionInterval, Checked.divideRoundUp, Option.bind_eq_bind,
      Option.bind_assoc]
    refine congrArg _ (funext fun interval => congrArg _ (funext fun excess => ?_))
    split <;> rfl
  rw [htwice, checked_divideRoundUp hvalid.period_pos hword.period hvalid.rate_pos,
    Option.bind_some, checked_divideRoundUp hnanos hnanosFits hmicro]
  rfl

end Limits

/-- The start of the year 2201. -/
def year2201 : Int := unixEpoch + 7289654400 * second

theorem checked_unixMicro {t : Int} (hsince : unixEpoch ≤ t) (hbefore : t < year2201) :
    Checked.unixMicro t = some (unixMicro t) := by
  have hsecond : second = 1000000000 := rfl
  have hepoch : unixEpoch = 62135596800000000000 := rfl
  have hyear : year2201 = 69425251200000000000 := rfl
  have hmicro : microsecond = 1000 := rfl
  rw [hepoch] at hsince
  rw [hyear] at hbefore
  unfold Checked.unixMicro
  rw [hsecond]
  have hseconds : Word.Fits (t / 1000000000 + -62135596800) := by
    unfold Word.Fits
    omega
  have hmillions : Word.Fits ((t / 1000000000 + -62135596800) * 1000000) := by
    unfold Word.Fits
    omega
  have hrest : (t % 1000000000).tdiv 1000 = t % 1000000000 / 1000 :=
    Int.tdiv_eq_ediv_of_nonneg (by omega)
  have hdiv : Word.div (t % 1000000000) 1000 = some (t % 1000000000 / 1000) := by
    rw [← hrest]
    refine Word.div_eq (by omega) ?_ (by decide)
    unfold Word.Fits
    omega
  have hsum : (t / 1000000000 + -62135596800) * 1000000 + t % 1000000000 / 1000 = unixMicro t := by
    rw [unixMicro, hepoch, hmicro]
    omega
  simp only [Word.add_eq hseconds, Word.mul_eq hmillions, hdiv,
    Option.bind_eq_bind, Option.bind_some]
  rw [Word.add_eq, hsum]
  unfold Word.Fits
  omega

section Takes

variable {start last now : Int} {s : Memory.Store} {h : List (Event Call Reply)}

/-- No key of a store is ever due later than the longest burst a limit allows. -/
theorem bounded_run (run : memory.Run start last s h) :
    s.Consistent ∧ s.arrivals.Bounded (unixMicro last) := by
  induction run with
  | init =>
    refine ⟨Memory.new_consistent, fun key => ?_⟩
    have hmax : 0 ≤ maxInt64.tdiv microsecond := by decide
    have hlevel : Memory.new.arrivals.level (unixMicro start) key = unixMicro start :=
      Arrivals.level_of_none rfl
    show Memory.new.arrivals.level (unixMicro start) key ≤ _
    omega
  | call run now request later ih =>
    obtain ⟨hs, hbounded⟩ := ih
    obtain ⟨-, hs', hlevel, -⟩ := Memory.step_refines hs now request
    refine ⟨hs', fun key => ?_⟩
    have hnow := Arrivals.bounded_later hbounded (unixMicro_mono later)
    have hstep := Arrivals.bounded_step hnow request key
    rwa [← hlevel] at hstep

theorem checked_remaining {tat interval burstOffset : Int} (hsum : Word.Fits (now + burstOffset))
    (havailable : Word.Fits (now + burstOffset - tat)) (hinterval : 0 < interval) :
    Checked.remaining now tat interval burstOffset =
      some (Memory.remaining now tat interval burstOffset) := by
  simp only [Checked.remaining, Word.add_eq hsum, Word.sub_eq havailable, Option.bind_eq_bind,
    Option.bind_some, Memory.remaining]
  split
  · rfl
  · rename_i hpos
    exact Word.div_eq (Int.le_of_lt (Int.not_le.mp hpos)) havailable hinterval

theorem checked_microseconds {value : Int} (h : value ≤ 9223372036854775) :
    Checked.microseconds value = some (Memory.microseconds value) := by
  have hmicro : microsecond = 1000 := rfl
  unfold Checked.microseconds Memory.microseconds
  split
  · rfl
  · rename_i hpos
    rw [hmicro]
    refine Word.mul_eq ?_
    unfold Word.Fits
    omega

/-- A take does not overflow between 1970 and 2200 if no key is due later than the longest burst. -/
theorem checked_take (hs : s.Consistent) (hbounded : s.arrivals.Bounded (unixMicro now))
    (hsince : unixEpoch ≤ now) (hbefore : now < year2201) (r : TakeRequest)
    (hword : r.limit.Word) (ctx : Ctx) :
    Checked.take s ctx now r = some (s.take ctx now r) := by
  have hvalid := valid_of_validateLimit r.valid
  have hmax : maxInt64.tdiv microsecond = 9223372036854775 := by decide
  have hnow : 0 ≤ unixMicro now ∧ unixMicro now < 7289654400000000 := by
    have hepoch : unixEpoch = 62135596800000000000 := rfl
    have hyear : year2201 = 69425251200000000000 := rfl
    have hmicro : microsecond = 1000 := rfl
    rw [unixMicro, hepoch, hmicro]
    omega
  have hwindow : r.window ≤ 9223372036854775 := hmax ▸ hvalid.window
  have hincrement := r.increment_le
  have hpos := r.increment_pos
  have htat : unixMicro now ≤ (s.cleanup (unixMicro now)).arrivals.level (unixMicro now) r.key ∧
      (s.cleanup (unixMicro now)).arrivals.level (unixMicro now) r.key ≤
        unixMicro now + 9223372036854775 := by
    refine ⟨Arrivals.le_level, ?_⟩
    rw [(Memory.cleanup_spec hs (unixMicro now)).1.level, ← hmax]
    exact hbounded r.key
  cases ctx with
  | nil => rfl
  | done cause => rfl
  | live =>
    have harrival : Checked.arrival (s.cleanup (unixMicro now)) (unixMicro now) r.key =
        (s.cleanup (unixMicro now)).arrivals.level (unixMicro now) r.key := Memory.tat_eq ..
    have hinterval : emissionInterval r.limit = r.interval := rfl
    have hfits : ∀ x : Int, -30000000000000000 ≤ x → x ≤ 30000000000000000 → Word.Fits x := by
      intro x hlow hhigh
      exact ⟨by omega, by omega⟩
    have hburst : Word.mul r.interval r.limit.burst = some r.window :=
      Word.check_eq (hfits r.window (by omega) (by omega))
    have hcost : Word.mul r.interval r.cost = some r.increment :=
      Word.check_eq (hfits r.increment (by omega) (by omega))
    simp only [Memory.take_live, Checked.take, validateContext, Ctx.cause, Option.map_none,
      checked_unixMicro hsince hbefore, checked_emissionInterval hvalid hword, harrival,
      hinterval, hburst, hcost, Option.bind_eq_bind, Option.bind_some]
    generalize (s.cleanup (unixMicro now)).arrivals.level (unixMicro now) r.key = tat at htat ⊢
    have hend := hfits (unixMicro now + r.window) (by omega) (by omega)
    have hnew := Word.add_eq (hfits (tat + r.increment) (by omega) (by omega))
    simp only [hnew, Word.add_eq hend, Option.bind_some]
    split
    · have hroom := hfits (unixMicro now + r.window - tat) (by omega) (by omega)
      have hback := hfits (tat + r.increment - r.window) (by omega) (by omega)
      have hwait := hfits (tat + r.increment - r.window - unixMicro now) (by omega) (by omega)
      have hrest := hfits (tat - unixMicro now) (by omega) (by omega)
      rw [checked_remaining hend hroom r.interval_pos]
      simp only [Word.sub_eq hback, Word.sub_eq hwait, Word.sub_eq hrest, Option.bind_some]
      rw [checked_microseconds (by omega), checked_microseconds (by omega)]
      rfl
    · have hroom := hfits (unixMicro now + r.window - (tat + r.increment)) (by omega) (by omega)
      have hrest := hfits (tat + r.increment - unixMicro now) (by omega) (by omega)
      rw [checked_remaining hend hroom r.interval_pos]
      simp only [Word.sub_eq hrest, Option.bind_some]
      rw [checked_microseconds (by omega)]
      rfl

/-- A limit is accepted exactly if it is positive and neither too fast nor too long for 64 bits, and
in every run with readings from 1970 to 2200 no operation of a take overflows. -/
theorem takes_never_overflow :
    (∀ limit : Limit, limit.Word →
      Checked.validateLimit limit = some (validateLimit limit) ∧
        (validateLimit limit = .ok () ↔ limit.Acceptable)) ∧
    ∀ {start last now : Int} {s : Memory.Store} {h : List (Event Call Reply)} (r : TakeRequest)
      (ctx : Ctx), memory.Run start last s h → unixEpoch ≤ start → last ≤ now → now < year2201 →
      r.limit.Word → Checked.take s ctx now r = some (s.take ctx now r) := by
  refine ⟨fun limit hword => ⟨checked_validateLimit hword, validateLimit_ok_iff⟩, ?_⟩
  intro start last now s h r ctx run hsince hle hbefore hword
  obtain ⟨hs, hbounded⟩ := bounded_run run
  have hstart := Machine.start_le_of_run run
  exact checked_take hs (Arrivals.bounded_later hbounded (unixMicro_mono hle)) (by omega) hbefore r
    hword ctx

/-- The largest burst at one unit a microsecond, and a take under another limit before it. -/
theorem takes_never_overflow_largest :
    let large : Limit := ⟨1, microsecond, 9223372036854775⟩
    let first : TakeRequest := ⟨"k", ⟨1000, second, 3⟩, 2, by decide, by decide, by decide⟩
    let whole : TakeRequest := ⟨"k", large, 9223372036854775, by decide, by decide, by decide⟩
    let s := (memory.step memory.init unixEpoch (.take .live first)).2
    (validateLimit large = .ok () ∧ large.Acceptable) ∧
      Checked.take s .live unixEpoch whole = some (s.take .live unixEpoch whole) := by
  intro large first whole s
  have hword : large.Word := ⟨by decide, by decide, by decide⟩
  have hinit : memory.Run unixEpoch unixEpoch memory.init [] := .init
  obtain ⟨hlimits, htakes⟩ := takes_never_overflow
  exact ⟨⟨by decide, (hlimits large hword).2.mp (by decide)⟩,
    htakes whole .live (hinit.call unixEpoch (.take .live first) (Int.le_refl _))
      (Int.le_refl _) (Int.le_refl _) (by decide) hword⟩

end Takes

end Fries.RateLimit
