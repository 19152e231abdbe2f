import Fries.Go
import Fries.Lib.Trace
import Mathlib.Algebra.Order.Ring.Int

/-! The backoff strategies, with every 64-bit operation checked. -/
namespace Fries.Retry.Strategy

open Word

/-- The delay after an attempt; on the way to it a number below a bound can be drawn. -/
abbrev Backoff := Int → Prog Nat Fin (Option Int)

def noBackoff : Backoff := fun _ => return some 0

def validateDelay (name : String) (delay : Int) : Except String Unit :=
  if delay < 0 then .error ("retry: " ++ name ++ " must not be negative") else .ok ()

def multiplyDuration (delay multiplier : Int) : Option Int := do
  if multiplier > (← div maxInt64 delay) then return maxInt64
  mul delay multiplier

def linearDelay (delay attempt : Int) : Option Int :=
  if attempt < 1 ∨ delay = 0 then some 0 else multiplyDuration delay attempt

def linear (delay : Int) : Except String Backoff := do
  validateDelay "linear delay" delay
  return fun attempt => .ret (linearDelay delay attempt)

/-- The loop of `Exponential`, with so many rounds to go, and what follows it. -/
def doubling (maximum : Int) : Nat → Int → Option Int
  | 0, delay => some (if 0 < maximum ∧ maximum < delay then maximum else delay)
  | rounds + 1, delay =>
    if 0 < maximum ∧ maximum ≤ delay then some maximum
    else if maxInt64 / 2 < delay then some (if 0 < maximum then maximum else maxInt64)
    else do doubling maximum rounds (← mul delay 2)

def exponentialDelay (initial maximum attempt : Int) : Option Int :=
  if attempt < 1 ∨ initial = 0 then some 0
  else do doubling maximum (← sub attempt 1).toNat initial

def exponential (initial maximum : Int) : Except String Backoff := do
  validateDelay "exponential initial delay" initial
  validateDelay "exponential maximum delay" maximum
  if 0 < maximum ∧ maximum < initial then
    .error "retry: exponential maximum delay must not be less than initial delay"
  return fun attempt => .ret (exponentialDelay initial maximum attempt)

/-- A positive delay with the number drawn for it. -/
def addJitter (delay jitter : Int) : Option Int := do
  if delay > (← sub maxInt64 jitter) then return maxInt64
  add delay jitter

def jitter (backoff : Option Backoff) (maximum : Int) : Except String Backoff := do
  let backoff := backoff.getD noBackoff
  validateDelay "jitter maximum delay" maximum
  if maximum = 0 then return backoff
  return fun attempt => do
    match ← backoff attempt with
    | none => return none
    | some delay =>
      if delay ≤ 0 then return some delay
      let drawn ← .call (maximum.toNat + 1) .ret
      return addJitter delay drawn.val

/-- The delay times the attempt, but no more than the largest duration. -/
def multiplied (delay attempt : Int) : Int :=
  if attempt < 1 then 0 else min (delay * attempt) maxInt64

/-- The initial delay doubled after each attempt but the first, up to the maximum. -/
def doubled (initial maximum attempt : Int) : Int :=
  if attempt < 1 then 0
  else min (initial * 2 ^ (attempt - 1).toNat) (if maximum = 0 then maxInt64 else maximum)

variable {delay initial maximum attempt attempt' : Int} {rounds : Nat}

theorem multiplyDuration_eq (hdelay : 0 < delay) (hattempt : 0 ≤ attempt) :
    multiplyDuration delay attempt = some (min (delay * attempt) maxInt64) := by
  have hmax : (0 : Int) ≤ maxInt64 := by decide
  have hdiv := Int.mul_ediv_add_emod maxInt64 delay
  have hmod := Int.emod_nonneg maxInt64 hdelay.ne'
  have hlt := Int.emod_lt_of_pos maxInt64 hdelay
  rw [multiplyDuration, div_eq hmax (by decide) hdelay, Int.tdiv_eq_ediv_of_nonneg hmax]
  simp only [Option.bind_eq_bind, Option.bind_some]
  split
  · rename_i hover
    have hge : delay * (maxInt64 / delay + 1) ≤ delay * attempt :=
      Int.mul_le_mul_of_nonneg_left hover hdelay.le
    rw [Int.mul_add, Int.mul_one] at hge
    rw [min_eq_right (by omega)]
    rfl
  · rename_i hfits
    have hle : delay * attempt ≤ delay * (maxInt64 / delay) :=
      Int.mul_le_mul_of_nonneg_left (not_lt.mp hfits) hdelay.le
    have hnonneg := Int.mul_nonneg hdelay.le hattempt
    have hword : Fits (delay * attempt) := by
      unfold maxInt64 at *
      exact ⟨by omega, by omega⟩
    rw [mul_eq hword, min_eq_left (by omega)]

theorem le_mul_two_pow (hdelay : 0 ≤ delay) (rounds : Nat) : delay ≤ delay * 2 ^ rounds :=
  le_mul_of_one_le_right hdelay (one_le_pow₀ (by decide))

/-- The loop gives the delay doubled as often as it has rounds to go, up to the maximum, and no
doubling overflows. -/
theorem doubling_eq (hmaximum : 0 ≤ maximum) (hle : maximum ≤ maxInt64) (hdelay : 0 < delay)
    (hfits : delay ≤ maxInt64) : doubling maximum rounds delay =
      some (min (delay * 2 ^ rounds) (if maximum = 0 then maxInt64 else maximum)) := by
  induction rounds generalizing delay with
  | zero =>
    rw [doubling, pow_zero, mul_one]
    split
    · rename_i hover
      rw [if_neg hover.1.ne', min_eq_right hover.2.le]
    · rename_i hunder
      rw [min_eq_left]
      split <;> omega
  | succ rounds ih =>
    have hgrows := le_mul_two_pow hdelay.le (rounds + 1)
    rw [doubling]
    split
    · rename_i hreached
      rw [if_neg hreached.1.ne', min_eq_right (hreached.2.trans hgrows)]
    · split
      · rename_i hhalf
        have hover : maxInt64 ≤ delay * 2 ^ (rounds + 1) := by
          have hpos : 0 ≤ delay * 2 := by omega
          have hdouble := le_mul_two_pow hpos rounds
          rw [pow_succ', ← mul_assoc]
          unfold maxInt64 at *
          omega
        have hcap : (if maximum = 0 then maxInt64 else maximum) ≤ maxInt64 := by
          split
          · exact le_rfl
          · exact hle
        rw [min_eq_right (hcap.trans hover)]
        congr 1
        split <;> split <;> first | rfl | omega
      · rename_i hhalf
        have hmul : Fits (delay * 2) := by
          unfold maxInt64 at hhalf
          exact ⟨by omega, by omega⟩
        rw [mul_eq hmul, pow_succ', ← mul_assoc]
        exact ih (by omega) hmul.2

theorem multiplied_le (hdelay : 0 ≤ delay) (hle : attempt ≤ attempt') :
    multiplied delay attempt ≤ multiplied delay attempt' := by
  unfold multiplied
  split
  · split
    · exact le_rfl
    · rename_i hpos
      exact le_min (Int.mul_nonneg hdelay (by omega)) (by decide)
  · rw [if_neg (by omega)]
    exact min_le_min_right _ (Int.mul_le_mul_of_nonneg_left hle hdelay)

theorem doubled_le (hinitial : 0 ≤ initial) (hmaximum : 0 ≤ maximum) (hle : attempt ≤ attempt') :
    doubled initial maximum attempt ≤ doubled initial maximum attempt' := by
  unfold doubled
  split
  · split
    · exact le_rfl
    · refine le_min (hinitial.trans (le_mul_two_pow hinitial _)) ?_
      split
      · decide
      · exact hmaximum
  · rename_i hlow
    rw [if_neg (by omega : ¬ attempt' < 1)]
    refine min_le_min_right _ (Int.mul_le_mul_of_nonneg_left ?_ hinitial)
    exact pow_le_pow_right₀ (by decide) (by omega)

theorem linearDelay_eq (hdelay : 0 ≤ delay) (attempt : Int) :
    linearDelay delay attempt = some (multiplied delay attempt) := by
  unfold linearDelay multiplied
  by_cases hattempt : attempt < 1
  · rw [if_pos (.inl hattempt), if_pos hattempt]
  · rw [if_neg hattempt]
    by_cases hzero : delay = 0
    · rw [if_pos (.inr hzero), hzero, zero_mul]
      rfl
    · rw [if_neg (not_or.mpr ⟨hattempt, hzero⟩), multiplyDuration_eq (by omega) (by omega)]

theorem exponentialDelay_eq (hinitial : 0 ≤ initial) (hmaximum : 0 ≤ maximum)
    (hfits : initial ≤ maxInt64) (hle : maximum ≤ maxInt64) (hattempt : Fits attempt) :
    exponentialDelay initial maximum attempt = some (doubled initial maximum attempt) := by
  unfold exponentialDelay doubled
  by_cases hlow : attempt < 1
  · rw [if_pos (.inl hlow), if_pos hlow]
  · rw [if_neg hlow]
    by_cases hzero : initial = 0
    · have hcap : 0 ≤ if maximum = 0 then maxInt64 else maximum := by
        split
        · decide
        · exact hmaximum
      rw [if_pos (.inr hzero), hzero, zero_mul, min_eq_left hcap]
    · have hsub : Fits (attempt - 1) := by
        unfold Fits at hattempt ⊢
        omega
      rw [if_neg (not_or.mpr ⟨hlow, hzero⟩), sub_eq hsub]
      exact doubling_eq hmaximum hle (by omega) hfits

theorem validateDelay_ok (name : String) (h : 0 ≤ delay) : validateDelay name delay = .ok () :=
  if_neg (not_lt.mpr h)

theorem linear_ok (hdelay : 0 ≤ delay) :
    linear delay = .ok fun attempt => .ret (linearDelay delay attempt) := by
  rw [linear, validateDelay_ok _ hdelay]
  rfl

theorem exponential_ok (hinitial : 0 ≤ initial) (hmaximum : 0 ≤ maximum)
    (hle : maximum = 0 ∨ initial ≤ maximum) :
    exponential initial maximum =
      .ok fun attempt => .ret (exponentialDelay initial maximum attempt) := by
  have hvalid : ¬ (0 < maximum ∧ maximum < initial) := by omega
  simp only [exponential, validateDelay_ok _ hinitial, validateDelay_ok _ hmaximum, hvalid]
  rfl

theorem addJitter_eq {drawn : Int} (hdelay : 0 < delay) (hdrawn : 0 ≤ drawn)
    (hle : drawn ≤ maxInt64) : addJitter delay drawn = some (min (delay + drawn) maxInt64) := by
  have hsub : Fits (maxInt64 - drawn) := by
    unfold maxInt64 at *
    exact ⟨by omega, by omega⟩
  rw [addJitter, sub_eq hsub]
  simp only [Option.bind_eq_bind, Option.bind_some]
  split
  · rename_i hover
    rw [min_eq_right (by omega)]
    rfl
  · rename_i hunder
    have hadd : Fits (delay + drawn) := by
      unfold maxInt64 at *
      exact ⟨by omega, by omega⟩
    rw [add_eq hadd, min_eq_left (by omega)]

/-- What a jittered strategy returns, from what the strategy it wraps has returned before. -/
theorem jitter_runs (backoff : Option Backoff) (hmaximum : 0 ≤ maximum)
    (hle : maximum ≤ maxInt64) :
    ∃ b, jitter backoff maximum = .ok b ∧
      ∀ attempt t r, Prog.Runs (b attempt) t (.ret r) →
        ∃ t' t'' inner, t = t' ++ t'' ∧
          Prog.Runs (backoff.getD noBackoff attempt) t' (.ret inner) ∧
          ∀ delay, inner = some delay → delay ≤ maxInt64 →
            ∃ total, r = some total ∧ delay ≤ total ∧ total ≤ min (delay + maximum) maxInt64 := by
  by_cases hzero : maximum = 0
  · refine ⟨_, by rw [jitter, validateDelay_ok _ hmaximum, if_pos hzero]; rfl, ?_⟩
    intro attempt t r hruns
    refine ⟨t, [], r, (List.append_nil t).symm, hruns, fun delay hr hfits => ?_⟩
    exact ⟨delay, hr, le_rfl, le_min (by omega) hfits⟩
  · refine ⟨_, by rw [jitter, validateDelay_ok _ hmaximum, if_neg hzero]; rfl, ?_⟩
    intro attempt t r hruns
    obtain ⟨t', t'', inner, rfl, hinner, hrest⟩ := Prog.runs_bind hruns
    refine ⟨t', t'', inner, rfl, hinner, fun delay hsome hfits => ?_⟩
    subst hsome
    dsimp only at hrest
    split at hrest
    · obtain ⟨-, ⟨⟩⟩ := Prog.runs_ret hrest
      exact ⟨delay, rfl, le_rfl, le_min (by omega) hfits⟩
    · rename_i hpos
      obtain ⟨drawn, t₂, rfl, hend⟩ := Prog.runs_call hrest
      obtain ⟨-, hr⟩ := Prog.runs_ret hend
      have hdrawn : (drawn.val : Int) ≤ maximum := by
        have hlt := drawn.isLt
        omega
      rw [addJitter_eq (by omega) (Int.natCast_nonneg _) (hdrawn.trans hle)] at hr
      cases hr
      refine ⟨_, rfl, le_min (by omega) hfits, ?_⟩
      exact min_le_min_right _ (by omega)

/-- The strategies return what their formulas say, computed without bound, and no operation of
theirs overflows: `Exponential` and `Linear`, which are monotone, and `Jitter` of any strategy. -/
theorem backoffs_are_exact :
    (∀ initial maximum : Int, 0 ≤ initial → maximum = 0 ∨ initial ≤ maximum → Fits initial →
      Fits maximum →
      (∃ b, exponential initial maximum = .ok b ∧ ∀ attempt, Fits attempt →
        b attempt = .ret (some (doubled initial maximum attempt))) ∧
      ∀ attempt attempt', attempt ≤ attempt' →
        doubled initial maximum attempt ≤ doubled initial maximum attempt') ∧
    (∀ delay : Int, 0 ≤ delay → Fits delay →
      (∃ b, linear delay = .ok b ∧ ∀ attempt, Fits attempt →
        b attempt = .ret (some (multiplied delay attempt))) ∧
      ∀ attempt attempt', attempt ≤ attempt' →
        multiplied delay attempt ≤ multiplied delay attempt') ∧
    ∀ (backoff : Option Backoff) (maximum : Int), 0 ≤ maximum → Fits maximum →
      ∃ b, jitter backoff maximum = .ok b ∧
        ∀ attempt t r, Prog.Runs (b attempt) t (.ret r) →
          ∃ t' t'' inner, t = t' ++ t'' ∧
            Prog.Runs (backoff.getD noBackoff attempt) t' (.ret inner) ∧
            ∀ delay, inner = some delay → Fits delay →
              ∃ total, r = some total ∧ delay ≤ total ∧
                total ≤ min (delay + maximum) maxInt64 := by
  refine ⟨?_, ?_, ?_⟩
  · intro initial maximum hinitial hmaximum hfits hfits'
    have hnonneg : 0 ≤ maximum := by omega
    refine ⟨⟨_, exponential_ok hinitial hnonneg hmaximum, fun attempt hattempt => ?_⟩,
      fun _ _ => doubled_le hinitial hnonneg⟩
    rw [exponentialDelay_eq hinitial hnonneg hfits.2 hfits'.2 hattempt]
  · intro delay hdelay _
    refine ⟨⟨_, linear_ok hdelay, fun attempt _ => ?_⟩, fun _ _ => multiplied_le hdelay⟩
    rw [linearDelay_eq hdelay]
  · intro backoff maximum hmaximum hfits
    obtain ⟨b, hb, hruns⟩ := jitter_runs backoff hmaximum hfits.2
    refine ⟨b, hb, fun attempt t r h => ?_⟩
    obtain ⟨t', t'', inner, ht, hinner, hdelay⟩ := hruns attempt t r h
    exact ⟨t', t'', inner, ht, hinner, fun delay hsome hword => hdelay delay hsome hword.2⟩

/-- Doubling a second for ever ends at the largest duration, or at a maximum. -/
theorem backoffs_are_exact_saturated :
    ∃ unbounded bounded, exponential second 0 = .ok unbounded ∧
      exponential second (60 * second) = .ok bounded ∧
      unbounded 100 = .ret (some maxInt64) ∧ bounded 3 = .ret (some (4 * second)) ∧
      bounded 100 = .ret (some (60 * second)) := by
  obtain ⟨hexponential, -⟩ := backoffs_are_exact
  obtain ⟨⟨unbounded, hunbounded, hun⟩, -⟩ :=
    hexponential second 0 (by decide) (.inl rfl) (by decide) (by decide)
  obtain ⟨⟨bounded, hbounded, hb⟩, -⟩ :=
    hexponential second (60 * second) (by decide) (.inr (by decide)) (by decide) (by decide)
  refine ⟨unbounded, bounded, hunbounded, hbounded, ?_, ?_, ?_⟩
  · rw [hun 100 (by decide), show doubled second 0 100 = maxInt64 by decide]
  · rw [hb 3 (by decide), show doubled second (60 * second) 3 = 4 * second by decide]
  · rw [hb 100 (by decide), show doubled second (60 * second) 100 = 60 * second by decide]

end Fries.Retry.Strategy
