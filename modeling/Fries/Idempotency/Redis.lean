import Fries.Idempotency.Ledger

/-! The Redis store: three atomic scripts. `fresh` decides at the very expiry instant. -/
namespace Fries.Idempotency.Redis

/-- The fields the scripts write. A missing key reads as a hash without fields. -/
structure Hash where
  status : Option String
  token : Option String
  fingerprint : Option String
  result : Option Bytes
  deriving DecidableEq

/-- A script's reply as the client library returns it. -/
inductive Value
  | int (n : Int)
  | bulk (data : Bytes)
  | list (values : List Value)

abbrev Db := Keyspace String Hash

variable (fresh : Int → Int → Bool)

def Db.hash (db : Db) (now : Int) (key : String) : Hash :=
  match db key with
  | some (h, deadline) => if fresh now deadline then h else ⟨none, none, none, none⟩
  | none => ⟨none, none, none, none⟩

/-- `hset` followed by `pexpire`. -/
def Db.write (db : Db) (now : Int) (key : String) (h : Hash) (ttl : Int) : Db :=
  Function.update db key (some (h, now + ttl * millisecond))

def beginScript (db : Db) (now : Int) (key token fingerprint : String) (ttl : Int) : Value × Db :=
  let h := db.hash fresh now key
  match h.status with
  | none =>
    (.list [.int 1, .bulk []],
      db.write now key
        { h with status := some "in_progress", token := some token,
                 fingerprint := some fingerprint } ttl)
  | some status =>
    if fingerprint ≠ "" ∧ h.fingerprint.getD "" ≠ fingerprint then (.list [.int 4, .bulk []], db)
    else if status = "in_progress" then (.list [.int 2, .bulk []], db)
    else if status = "completed" then (.list [.int 3, .bulk (h.result.getD [])], db)
    else (.list [.int 0, .bulk []], db)

def completeScript (db : Db) (now : Int) (key token : String) (result : Bytes) (ttl : Int) :
    Value × Db :=
  let h := db.hash fresh now key
  if h.status ≠ some "in_progress" then (.int 0, db)
  else if h.token ≠ some token then (.int 0, db)
  else
    (.int 1,
      db.write now key
        { h with status := some "completed", result := some result, token := none } ttl)

def abortScript (db : Db) (now : Int) (key token : String) : Value × Db :=
  let h := db.hash fresh now key
  if h.status ≠ some "in_progress" then (.int 0, db)
  else if h.token ≠ some token then (.int 0, db)
  else (.int 1, Function.update db key none)

/-- Whole milliseconds, and at least one. -/
def milliseconds (ttl : Int) : Int :=
  let value := ttl.tdiv millisecond
  if value < 1 then 1 else value

def resultBytes (key : String) : Value → Except Error Bytes
  | .bulk data => .ok data
  | _ => .error (.scriptResult key)

/-- The reading of the reply in `Begin`. -/
def beginResult (key : String) : Value → Except Error BeginResult
  | .list [.int code, second] =>
    if code = 1 then .ok ⟨.acquired, []⟩
    else if code = 2 then .ok ⟨.inProgress, []⟩
    else if code = 3 then (resultBytes key second).map fun data => ⟨.completed, data⟩
    else if code = 4 then .error .keyConflict
    else .error (.scriptStatusCode key code)
  | .list [_, _] => .error (.scriptStatus key)
  | _ => .error (.scriptReply "begin" key)

/-- The reading of the reply in `Complete` and `Abort`. -/
def settled (script key : String) : Value → Except Error Unit
  | .int n => if n = 0 then .error .claimLost else .ok ()
  | _ => .error (.scriptReply script key)

variable (keyPrefix : String)

def begin (db : Db) (ctx : Ctx) (now : Int) (request : BeginRequest) :
    Except Error BeginResult × Db :=
  match validateContext ctx with
  | some err => (.error err, db)
  | none =>
    let key := keyPrefix ++ request.key
    (beginScript fresh db now key request.token request.fingerprint
      (milliseconds request.ttl)).map (beginResult key) id

def complete (db : Db) (ctx : Ctx) (now : Int) (request : CompleteRequest) :
    Except Error Unit × Db :=
  match validateContext ctx with
  | some err => (.error err, db)
  | none =>
    let key := keyPrefix ++ request.key
    (completeScript fresh db now key request.token request.result
      (milliseconds request.ttl)).map (settled "complete" key) id

def abort (db : Db) (ctx : Ctx) (now : Int) (request : AbortRequest) : Except Error Unit × Db :=
  match validateContext ctx with
  | some err => (.error err, db)
  | none =>
    let key := keyPrefix ++ request.key
    (abortScript fresh db now key request.token).map (settled "abort" key) id

def step (db : Db) (now : Int) : Call → Reply × Db
  | .begin ctx request => (begin fresh keyPrefix db ctx now request).map .begin id
  | .complete ctx request => (complete fresh keyPrefix db ctx now request).map .complete id
  | .abort ctx request => (abort fresh keyPrefix db ctx now request).map .abort id

/-- A hash is in one of the two shapes the scripts write. -/
def Hash.Shaped (h : Hash) : Prop :=
  (∃ token f, h = ⟨some "in_progress", some token, some f, none⟩) ∨
    ∃ f result, h = ⟨some "completed", none, some f, some result⟩

def Hash.claim (h : Hash) : Claim :=
  if h.status = some "completed" then .done (h.fingerprint.getD "") (h.result.getD [])
  else .held (h.token.getD "") (h.fingerprint.getD "")

/-- The table of claims under the store's key names. -/
def Db.claims (db : Db) : Ledger :=
  fun key => (db (keyPrefix ++ key)).map fun e => (e.1.claim, e.2)

def Db.Wf (db : Db) : Prop := ∀ key e, db (keyPrefix ++ key) = some e → e.1.Shaped

/-- Documented behaviour of a key with a time to live, silent on the instant itself. -/
def Expires (fresh : Int → Int → Bool) : Prop :=
  ∀ now deadline, (now < deadline → fresh now deadline = true) ∧
    (deadline < now → fresh now deadline = false)

variable {fresh keyPrefix} {db : Db} {now : Int} {key : String}

/-- Away from its expiry a hash is read exactly as long as its claim is unexpired. -/
theorem hash_cases (hfresh : Expires fresh) (hw : db.Wf keyPrefix)
    (hoff : Keyspace.Off now (db.claims keyPrefix)) (key : String) :
    ((db.claims keyPrefix).live now key = none ∧
      db.hash fresh now (keyPrefix ++ key) = ⟨none, none, none, none⟩) ∨
    (∃ token f deadline, (db.claims keyPrefix).live now key = some (.held token f, deadline) ∧
      db.hash fresh now (keyPrefix ++ key) = ⟨some "in_progress", some token, some f, none⟩) ∨
    (∃ f result deadline, (db.claims keyPrefix).live now key = some (.done f result, deadline) ∧
      db.hash fresh now (keyPrefix ++ key) = ⟨some "completed", none, some f, some result⟩) := by
  cases hk : db (keyPrefix ++ key) with
  | none => exact .inl (by simp [Keyspace.live, Db.claims, Db.hash, hk])
  | some e =>
    obtain ⟨h, deadline⟩ := e
    have hne : deadline ≠ now := hoff key (h.claim, deadline) (by simp [Db.claims, hk])
    rcases Int.lt_or_gt_of_ne hne with hlt | hgt
    · have hf := (hfresh now deadline).2 hlt
      have hdead : ¬ now < deadline := by omega
      exact .inl (by simp [Keyspace.live, Db.claims, Db.hash, hk, hf, Option.filter, hdead])
    · have hf := (hfresh now deadline).1 hgt
      rcases hw key _ hk with ⟨token, f, rfl⟩ | ⟨f, result, rfl⟩
      · refine .inr (.inl ⟨token, f, deadline, ?_, ?_⟩)
        · simp [Keyspace.live, Db.claims, hk, Option.filter, hgt, Hash.claim]
        · simp [Db.hash, hk, hf]
      · refine .inr (.inr ⟨f, result, deadline, ?_, ?_⟩)
        · simp [Keyspace.live, Db.claims, hk, Option.filter, hgt, Hash.claim]
        · simp [Db.hash, hk, hf]

theorem update_claims (e : Option (Hash × Int)) :
    Db.claims keyPrefix (Function.update db (keyPrefix ++ key) e) =
      Function.update (db.claims keyPrefix) key (e.map fun e => (e.1.claim, e.2)) := by
  funext j
  by_cases hj : j = key
  · subst hj
    simp [Db.claims]
  · simp [Db.claims, hj]

theorem update_wf (hw : db.Wf keyPrefix) {e : Option (Hash × Int)}
    (he : ∀ f, e = some f → f.1.Shaped) :
    Db.Wf keyPrefix (Function.update db (keyPrefix ++ key) e) := by
  intro j f hj
  by_cases hk : j = key
  · subst hk
    exact he f (by simpa using hj)
  · exact hw j f (by simpa [hk] using hj)

/-- The request's time to live survives the conversion to milliseconds. -/
def wholeMillis : Call → Bool
  | .begin _ r => r.ttl % millisecond = 0
  | .complete _ r => r.ttl % millisecond = 0
  | .abort _ _ => true

theorem milliseconds_mul {ttl : Int} (hpos : 0 < ttl) (h : ttl % millisecond = 0) :
    milliseconds ttl * millisecond = ttl := by
  have hm : millisecond = 1000000 := rfl
  have hdiv : ttl.tdiv millisecond = ttl / 1000000 := Int.tdiv_eq_ediv_of_nonneg hpos.le
  have h' : ttl % 1000000 = 0 := h
  simp only [milliseconds]
  split
  · omega
  · rw [hdiv, hm]
    omega

/-- The answer and the database are what the table of claims gives. -/
def Tells {α : Type} (keyPrefix : String) (out : α × Db) (told : α × Ledger) : Prop :=
  out.1 = told.1 ∧ out.2.Wf keyPrefix ∧ out.2.claims keyPrefix = told.2

section

variable (hfresh : Expires fresh) (hw : db.Wf keyPrefix)
  (hoff : Keyspace.Off now (db.claims keyPrefix))

include hfresh hw hoff

theorem begin_refines (r : BeginRequest) (hms : r.ttl % millisecond = 0) :
    Tells keyPrefix (begin fresh keyPrefix db .live now r) ((db.claims keyPrefix).begin now r) := by
  have httl := milliseconds_mul r.ttl_pos hms
  simp only [Tells, begin, validateContext, beginScript, Prod.map]
  obtain ⟨hl, hh⟩ | ⟨token, f, d, hl, hh⟩ | ⟨f, result, d, hl, hh⟩ :=
    hash_cases hfresh hw hoff r.key
  · simp only [Ledger.begin, hl, hh, Db.write, httl, id]
    refine ⟨rfl, update_wf hw ?_, ?_⟩
    · intro e he
      cases he
      exact .inl ⟨r.token, r.fingerprint, rfl⟩
    · rw [update_claims]
      rfl
  all_goals
    have hb := Ledger.begin_of_live hl
    by_cases hc : r.fingerprint ≠ "" ∧ f ≠ r.fingerprint
    · rw [if_pos ⟨hc.1, hc.2.symm⟩] at hb
      simp [hb, hh, hc, beginResult, hw]
    · rw [if_neg fun h => hc ⟨h.1, h.2.symm⟩] at hb
      simp only [hb, hh, Option.getD_some, if_neg hc]
      simp [beginResult, Claim.report, resultBytes, Except.map, hw]

theorem complete_refines (r : CompleteRequest) (hms : r.ttl % millisecond = 0) :
    Tells keyPrefix (complete fresh keyPrefix db .live now r)
      ((db.claims keyPrefix).complete now r) := by
  have httl := milliseconds_mul r.ttl_pos hms
  simp only [Tells, complete, validateContext, completeScript, Prod.map, Ledger.complete,
    Ledger.owned, Db.write, httl]
  obtain ⟨hl, hh⟩ | ⟨token, f, d, hl, hh⟩ | ⟨f, result, d, hl, hh⟩ :=
    hash_cases hfresh hw hoff r.key
  · simp [hl, hh, settled, hw]
  · by_cases ht : token = r.token
    · simp only [hl, hh, ht, ne_eq, not_true, if_false, if_true, id]
      refine ⟨rfl, update_wf hw ?_, ?_⟩
      · intro e he
        cases he
        exact .inr ⟨f, r.result, rfl⟩
      · rw [update_claims]
        rfl
    · simp [hl, hh, ht, settled, hw]
  · simp [hl, hh, settled, hw]

theorem abort_refines (r : AbortRequest) :
    Tells keyPrefix (abort fresh keyPrefix db .live now r) ((db.claims keyPrefix).abort now r) := by
  simp only [Tells, abort, validateContext, abortScript, Prod.map, Ledger.abort, Ledger.owned]
  obtain ⟨hl, hh⟩ | ⟨token, f, d, hl, hh⟩ | ⟨f, result, d, hl, hh⟩ :=
    hash_cases hfresh hw hoff r.key
  · simp [hl, hh, settled, hw]
  · by_cases ht : token = r.token
    · simp only [hl, hh, ht, ne_eq, not_true, if_false, if_true, id]
      refine ⟨rfl, update_wf hw (by simp), ?_⟩
      rw [update_claims]
      rfl
    · simp [hl, hh, ht, settled, hw]
  · simp [hl, hh, settled, hw]

/-- Away from expiries one call does to the hashes exactly what it does to their claims. -/
theorem step_refines {call : Call} (hms : wholeMillis call) :
    Tells keyPrefix (step fresh keyPrefix db now call) ((db.claims keyPrefix).step now call) := by
  cases call with
  | begin ctx r =>
    have h := begin_refines hfresh hw hoff r (by simpa [wholeMillis] using hms)
    cases ctx with
    | live => exact ⟨congrArg Reply.begin h.1, h.2⟩
    | nil | done => exact ⟨rfl, hw, rfl⟩
  | complete ctx r =>
    have h := complete_refines hfresh hw hoff r (by simpa [wholeMillis] using hms)
    cases ctx with
    | live => exact ⟨congrArg Reply.complete h.1, h.2⟩
    | nil | done => exact ⟨rfl, hw, rfl⟩
  | abort ctx r =>
    have h := abort_refines hfresh hw hoff r
    cases ctx with
    | live => exact ⟨congrArg Reply.abort h.1, h.2⟩
    | nil | done => exact ⟨rfl, hw, rfl⟩

end

end Fries.Idempotency.Redis

namespace Fries.Idempotency

/-- The Redis store over an empty database. -/
def redis (fresh : Int → Int → Bool) (keyPrefix : String) : Machine Redis.Db Call Reply :=
  ⟨fun _ => none, Redis.step fresh keyPrefix⟩

theorem redis_local (fresh : Int → Int → Bool) (keyPrefix : String) :
    (redis fresh keyPrefix).Local fun call => keyPrefix ++ call.key := by
  intro db now call
  have hhash : ∀ key, Redis.Db.hash fresh (fun _ => db key) now key =
      Redis.Db.hash fresh db now key := fun _ => rfl
  cases call with
  | begin ctx r =>
    simp only [redis, Redis.step, Redis.begin, Redis.beginScript, Call.key, hhash]
    cases validateContext ctx with
    | some err => simp
    | none => (repeat' split) <;> simp [Redis.Db.write]
  | complete ctx r =>
    simp only [redis, Redis.step, Redis.complete, Redis.completeScript, Call.key, hhash]
    cases validateContext ctx with
    | some err => simp
    | none => (repeat' split) <;> simp [Redis.Db.write]
  | abort ctx r =>
    simp only [redis, Redis.step, Redis.abort, Redis.abortScript, Call.key, hhash]
    cases validateContext ctx with
    | some err => simp
    | none => (repeat' split) <;> simp

/-- Whatever is stored, and at whatever times, calls on other keys change no answer. -/
theorem redis_claims_isolated (fresh : Int → Int → Bool) (keyPrefix key : String) (db : Redis.Db)
    (requests : List (Int × Call)) :
    ((redis fresh keyPrefix).history db requests).filter (·.request.key = key) =
      (redis fresh keyPrefix).history db (requests.filter (·.2.key = key)) := by
  have hlocal := redis_local fresh keyPrefix
  simpa using Machine.history_local hlocal (keyPrefix ++ key) (t := db) rfl requests

end Fries.Idempotency
