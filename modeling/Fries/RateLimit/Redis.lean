import Fries.RateLimit.Arrivals

/-! The Redis store. Lua is exact here; `readable` decides about a key past its last millisecond. -/
namespace Fries.RateLimit

namespace Redis

/-- An element of the script's reply: an integer, or a value of another Go type. -/
inductive Raw
  | int (value : Int)
  | other (type : String)
  deriving DecidableEq

/-- A stored arrival time and the last millisecond it can surely be read in. -/
abbrev Db := String → Option (Int × Int)

variable (readable : Int → Int → Bool)

/-- The reply of `TIME`: the seconds of Unix time and the microseconds within them. -/
def time (clock : Int) : Int × Int :=
  ((clock - unixEpoch) / second, (clock - unixEpoch) % second / microsecond)

def milli (now : Int) : Int := now / 1000

def Db.get (db : Db) (now : Int) (key : String) : Option Int :=
  match db key with
  | some (tat, deadline) => if readable (milli now) deadline then some tat else none
  | none => none

/-- `SET` with `PX`. -/
def Db.set (db : Db) (now : Int) (key : String) (tat ttl : Int) : Db :=
  Function.update db key (some (tat, milli now + ttl))

/-- `math.ceil(value / 1000)`. -/
def ceilThousandth (value : Int) : Int := -((-value) / 1000)

def takeScript (db : Db) (clock : Int) (key : String) (interval burst cost : Int) : List Raw × Db :=
  let currentTime := time clock
  let now := currentTime.1 * 1000000 + currentTime.2
  let burstOffset := interval * burst
  let increment := interval * cost
  let tat := (db.get readable now key).getD now
  let tat := if tat < now then now else tat
  let newTAT := tat + increment
  let allowAt := newTAT - burstOffset
  if allowAt > now then
    let remaining := (now + burstOffset - tat) / interval
    let remaining := if remaining < 0 then 0 else remaining
    ([.int 0, .int remaining, .int (allowAt - now), .int (tat - now)], db)
  else
    let remaining := (now + burstOffset - newTAT) / interval
    let remaining := if remaining < 0 then 0 else remaining
    let resetAfter := newTAT - now
    let ttl := max 1 (ceilThousandth resetAfter)
    ([.int 1, .int remaining, .int 0, .int resetAfter], db.set now key newTAT ttl)

/-- The loop of `parseDecision` over the reply, from its element `i` on. -/
def parseValues : Nat → List Raw → Except ScriptError (List Int)
  | _, [] => .ok []
  | i, .int value :: rest => (parseValues (i + 1) rest).map (value :: ·)
  | i, .other type :: _ => .error (.type i type)

def parseDecision (raw : List Raw) (limit : Limit) : Except ScriptError Decision :=
  if raw.length ≠ 4 then .error (.length raw.length)
  else
    match parseValues 0 raw with
    | .error err => .error err
    | .ok values =>
      let value i := values.getD i 0
      if value 0 ≠ 0 ∧ value 0 ≠ 1 then .error (.allowed (value 0))
      else
        let maxDurationMicros := maxInt64.tdiv microsecond
        if value 1 < 0 ∨ value 1 > limit.burst ∨ value 2 < 0 ∨ value 2 > maxDurationMicros ∨
            value 3 < 0 ∨ value 3 > maxDurationMicros then .error (.values values)
        else
          .ok
            { limit := limit
              allowed := value 0 == 1
              remaining := value 1
              retryAfter := value 2 * microsecond
              resetAfter := value 3 * microsecond }

variable (keyPrefix : String)

def take (db : Db) (ctx : Ctx) (clock : Int) (request : TakeRequest) :
    Except Error Decision × Db :=
  match validateContext ctx with
  | some err => (.error err, db)
  | none =>
    let key := keyPrefix ++ request.key
    let reply := takeScript readable db clock key (emissionInterval request.limit)
      request.limit.burst request.cost
    match parseDecision reply.1 request.limit with
    | .error err => (.error (.take key err), reply.2)
    | .ok decision => (.ok decision, reply.2)

def reset (db : Db) (ctx : Ctx) (key : String) : Except Error Unit × Db :=
  match validateContext ctx with
  | some err => (.error err, db)
  | none => (.ok (), Function.update db (keyPrefix ++ key) none)

def step (db : Db) (now : Int) : Call → Reply × Db
  | .take ctx request => (take readable keyPrefix db ctx now request).map .take id
  | .reset ctx key => (reset keyPrefix db ctx key).map .reset id

end Redis

def redis (readable : Int → Int → Bool) (keyPrefix : String) : Machine Redis.Db Call Reply :=
  ⟨fun _ => none, Redis.step readable keyPrefix⟩

namespace Redis

variable {readable : Int → Int → Bool} {keyPrefix key : String} {db : Db} {now tat : Int}

/-- The documented life of a key. -/
def Expires (readable : Int → Int → Bool) : Prop :=
  ∀ {current deadline}, current ≤ deadline → readable current deadline = true

theorem time_eq (clock : Int) : (time clock).1 * 1000000 + (time clock).2 = unixMicro clock := by
  have h1 : second = 1000000000 := rfl
  have h2 : microsecond = 1000 := rfl
  simp only [time, unixMicro, h1, h2]
  omega

/-- The arrival times under the store's key names, whether they can still be read or not. -/
def Db.arrivals (keyPrefix : String) (db : Db) : Arrivals :=
  fun key => (db (keyPrefix ++ key)).map Prod.fst

/-- No key vanishes while its arrival time lies in the future. -/
def Db.Timely (db : Db) : Prop := ∀ key tat deadline, db key = some (tat, deadline) →
  tat < 1000 * (deadline + 1)

/-- A key that can no longer be read is due anyway. -/
theorem get_level (hr : Expires readable) (ht : db.Timely) (now : Int) (key : String) :
    max now ((db.get readable now (keyPrefix ++ key)).getD now) =
      (db.arrivals keyPrefix).level now key := by
  simp only [Db.get, Db.arrivals, Arrivals.level]
  cases hdb : db (keyPrefix ++ key) with
  | none => rfl
  | some e =>
    obtain ⟨tat, deadline⟩ := e
    by_cases hread : readable (milli now) deadline
    · simp [hread]
    · have hlate : ¬ milli now ≤ deadline := fun h => hread (hr h)
      have := ht _ _ _ hdb
      simp only [milli] at hlate
      simp [hread]
      omega

/-- The time to live, rounded up to milliseconds, outlasts the arrival time. -/
theorem set_timely (ht : db.Timely) (now : Int) (key : String) (tat : Int) :
    (db.set now key tat (max 1 (ceilThousandth (tat - now)))).Timely := by
  intro k t deadline hk
  by_cases h : k = key
  · subst k
    simp only [Db.set, Function.update_self, Option.some.injEq, Prod.mk.injEq] at hk
    obtain ⟨rfl, rfl⟩ := hk
    simp only [ceilThousandth, milli]
    omega
  · rw [Db.set, Function.update_of_ne h] at hk
    exact ht k t deadline hk

theorem floor_remaining {x interval : Int} (h : 0 < interval) :
    (if x / interval < 0 then 0 else x / interval) = max 0 x / interval := by
  by_cases hx : 0 ≤ x
  · rw [if_neg (Int.not_lt.mpr (Int.ediv_nonneg hx h.le)), Int.max_eq_right hx]
  · rw [if_pos (Int.ediv_neg_of_neg_of_pos (by omega) h), Int.max_eq_left (by omega),
      Int.zero_ediv]

/-- The script, in terms of the time the key is due. -/
theorem takeScript_eq (keyPrefix : String) (hr : Expires readable) (ht : db.Timely) (clock : Int)
    (r : TakeRequest) :
    let now := unixMicro clock
    let tat := (db.arrivals keyPrefix).level now r.key
    takeScript readable db clock (keyPrefix ++ r.key) (emissionInterval r.limit) r.limit.burst
        r.cost =
      if r.Fits now tat then
        ([.int 1, .int ((now + r.window - (tat + r.increment)) / r.interval), .int 0,
            .int (tat + r.increment - now)],
          db.set now (keyPrefix ++ r.key) (tat + r.increment)
            (max 1 (ceilThousandth (tat + r.increment - now))))
      else
        ([.int 0, .int (max 0 (now + r.window - tat) / r.interval),
            .int (tat + r.increment - r.window - now), .int (tat - now)], db) := by
  intro now tat
  have hI : 0 < emissionInterval r.limit := r.interval_pos
  have htat : (if (db.get readable now (keyPrefix ++ r.key)).getD now < now then now
      else (db.get readable now (keyPrefix ++ r.key)).getD now) = tat := by
    rw [show tat = _ from (get_level hr ht now r.key).symm]
    omega
  simp only [takeScript, time_eq, floor_remaining hI]
  rw [htat]
  by_cases hfits : r.Fits now tat
  · have hroom : tat + r.increment ≤ now + r.window := hfits
    have hnot : ¬ tat + r.increment - r.window > now := by omega
    rw [if_pos hfits, ← Int.max_eq_right (show 0 ≤ now + r.window - (tat + r.increment) by omega)]
    exact if_neg hnot
  · have hfull : now + r.window < tat + r.increment := Int.not_le.mp hfits
    have hlate : tat + r.increment - r.window > now := by omega
    rw [if_neg hfits]
    exact if_pos hlate

/-- Replies within their ranges are accepted. -/
theorem parseDecision_eq {limit : Limit} {allowed remaining retryAfter resetAfter : Int}
    (ha : allowed = 0 ∨ allowed = 1) (hr : 0 ≤ remaining ∧ remaining ≤ limit.burst)
    (hretry : 0 ≤ retryAfter ∧ retryAfter ≤ maxInt64.tdiv microsecond)
    (hreset : 0 ≤ resetAfter ∧ resetAfter ≤ maxInt64.tdiv microsecond) :
    parseDecision [.int allowed, .int remaining, .int retryAfter, .int resetAfter] limit =
      .ok ⟨limit, allowed == 1, remaining, retryAfter * microsecond, resetAfter * microsecond⟩ := by
  have hallowed : ¬ (allowed ≠ 0 ∧ allowed ≠ 1) := by omega
  have hrange : ¬ (remaining < 0 ∨ remaining > limit.burst ∨ retryAfter < 0 ∨
      retryAfter > maxInt64.tdiv microsecond ∨ resetAfter < 0 ∨
      resetAfter > maxInt64.tdiv microsecond) := by omega
  simp only [parseDecision, parseValues, Except.map]
  exact (if_neg hallowed).trans (if_neg hrange)

theorem decision_of_script (r : TakeRequest) (hle : now ≤ tat)
    (hb : tat ≤ now + maxInt64.tdiv microsecond) : parseDecision (if r.Fits now tat then
        [.int 1, .int ((now + r.window - (tat + r.increment)) / r.interval), .int 0,
          .int (tat + r.increment - now)] else
        [.int 0, .int (max 0 (now + r.window - tat) / r.interval),
          .int (tat + r.increment - r.window - now), .int (tat - now)]) r.limit =
      .ok (r.decision now tat) := by
  have hI := r.interval_pos
  have hinc := r.increment_pos
  have hcost := r.increment_le
  have hwindow : r.window ≤ maxInt64.tdiv microsecond := (valid_of_validateLimit r.valid).window
  have hmax : 0 ≤ maxInt64.tdiv microsecond := by decide
  have hburst : ∀ x, 0 ≤ x → x ≤ r.window → 0 ≤ x / r.interval ∧ x / r.interval ≤ r.limit.burst := by
    intro x hx hxw
    refine ⟨Int.ediv_nonneg hx hI.le, ?_⟩
    have hq : r.window / r.interval = r.limit.burst := Int.mul_ediv_cancel_left _ hI.ne'
    exact hq ▸ Int.ediv_le_ediv hI hxw
  by_cases hfits : r.Fits now tat
  · have hroom : tat + r.increment ≤ now + r.window := hfits
    rw [if_pos hfits, parseDecision_eq (.inr rfl) (hburst _ (by omega) (by omega))
      ⟨le_rfl, hmax⟩ (by omega)]
    simp [TakeRequest.decision, hfits]
  · have hfull : now + r.window < tat + r.increment := Int.not_le.mp hfits
    rw [if_neg hfits, parseDecision_eq (.inl rfl) (hburst _ (by omega) (by omega))
      (by omega) (by omega)]
    simp [TakeRequest.decision, hfits]

/-- A take stores what it allows and decides as the table of arrival times does. -/
theorem take_eq (hr : Expires readable) (ht : db.Timely) {clock : Int} {r : TakeRequest}
    (htat : (db.arrivals keyPrefix).level (unixMicro clock) r.key = tat)
    (hb : tat ≤ unixMicro clock + maxInt64.tdiv microsecond) :
    take readable keyPrefix db .live clock r = (.ok (r.decision (unixMicro clock) tat),
        if r.Fits (unixMicro clock) tat then
          db.set (unixMicro clock) (keyPrefix ++ r.key) (tat + r.increment)
            (max 1 (ceilThousandth (tat + r.increment - unixMicro clock))) else db) := by
  have hle : unixMicro clock ≤ tat := htat ▸ Arrivals.le_level
  have hparse := decision_of_script r hle hb
  have hscript := takeScript_eq keyPrefix hr ht clock r
  simp only [htat] at hscript
  simp only [take, validateContext, Ctx.cause, Option.map_none, hscript]
  by_cases hfits : r.Fits (unixMicro clock) tat
  · rw [if_pos hfits] at hparse
    simp only [if_pos hfits, hparse]
  · rw [if_neg hfits] at hparse
    simp only [if_neg hfits, hparse]

theorem arrivals_update (db : Db) (key : String) (e : Option (Int × Int)) :
    Db.arrivals keyPrefix (Function.update db (keyPrefix ++ key) e) =
      Function.update (db.arrivals keyPrefix) key (e.map Prod.fst) := by
  funext k
  by_cases hk : k = key
  · subst k
    simp [Db.arrivals]
  · simp [Db.arrivals, hk]

/-- Every call answers as the table of arrival times does and leaves it stored. -/
theorem step_refines (hr : Expires readable) (ht : db.Timely) {now : Int}
    (hb : (db.arrivals keyPrefix).Bounded (unixMicro now)) (call : Call) :
    (step readable keyPrefix db now call).1 = ((db.arrivals keyPrefix).step now call).1 ∧
      (step readable keyPrefix db now call).2.Timely ∧
      (step readable keyPrefix db now call).2.arrivals keyPrefix =
        ((db.arrivals keyPrefix).step now call).2 := by
  cases call with
  | take ctx r =>
    cases ctx with
    | nil | done cause => exact ⟨rfl, ht, rfl⟩
    | live =>
      have hstep : step readable keyPrefix db now (.take .live r) =
          (take readable keyPrefix db .live now r).map .take id := rfl
      rw [hstep, take_eq hr ht rfl (hb r.key)]
      refine ⟨rfl, ?_⟩
      by_cases hfits : r.Fits (unixMicro now) ((db.arrivals keyPrefix).level (unixMicro now) r.key)
      · simp only [Prod.map, if_pos hfits]
        exact ⟨set_timely ht _ _ _, (arrivals_update db r.key _).trans (if_pos hfits).symm⟩
      · simp only [Prod.map, if_neg hfits]
        exact ⟨ht, (if_neg hfits).symm⟩
  | reset ctx key =>
    cases ctx with
    | nil | done cause => exact ⟨rfl, ht, rfl⟩
    | live =>
      refine ⟨rfl, ?_, arrivals_update db key none⟩
      intro k tat deadline hk
      by_cases h : k = keyPrefix ++ key
      · simp [step, reset, validateContext, Ctx.cause, h] at hk
      · exact ht k tat deadline (by simpa [step, reset, validateContext, Ctx.cause, h] using hk)

theorem takeScript_local (db : Db) (clock : Int) (key : String) (interval burst cost : Int) :
    takeScript readable db clock key interval burst cost =
      ((takeScript readable (fun _ => db key) clock key interval burst cost).1, Function.update db key
        ((takeScript readable (fun _ => db key) clock key interval burst cost).2 key)) := by
  have hget : ∀ now, Db.get readable (fun _ => db key) now key = db.get readable now key :=
    fun _ => rfl
  simp only [takeScript, hget]
  generalize (db.get readable _ key).getD _ = tat
  split <;> split <;> simp [Db.set]

theorem redis_local : (redis readable keyPrefix).Local fun call => keyPrefix ++ call.key := by
  intro db now call
  cases call with
  | take ctx r =>
    simp only [redis, step, take, Call.key]
    cases validateContext ctx with
    | some err => simp
    | none =>
      rw [takeScript_local db]
      simp only
      split <;> simp
  | reset ctx key =>
    simp only [redis, step, reset, Call.key]
    cases validateContext ctx with
    | some err | none => simp

/-- Whatever is stored, and at whatever times, calls on other keys change no answer. -/
theorem redis_keys_isolated (readable : Int → Int → Bool) (keyPrefix key : String) (db : Db)
    (requests : List (Int × Call)) :
    ((redis readable keyPrefix).history db requests).filter (·.request.key = key) =
      (redis readable keyPrefix).history db (requests.filter (·.2.key = key)) := by
  have hlocal : (redis readable keyPrefix).Local _ := redis_local
  simpa using Machine.history_local hlocal (keyPrefix ++ key) (t := db) rfl requests

end Redis

end Fries.RateLimit
