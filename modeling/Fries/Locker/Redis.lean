import Fries.Go
import Fries.Lib.Program
import Fries.Lib.Keyspace

/-! The Redis lock: one key per name. A command can fail before or after it is applied. -/
namespace Fries.Locker

inductive Error
  | notAcquired
  | leaseLost
  | invalidName
  | invalidTTL
  | invalidToken
  | invalidContext
  | ctx (cause : String)
  | redis (operation key cause : String)
  deriving DecidableEq

structure Config where
  keyPrefix : String
  minWaitInterval : Int
  maxWaitInterval : Int
  wait_ok : 0 < minWaitInterval ∧ minWaitInterval ≤ maxWaitInterval
  deriving DecidableEq

inductive Setting
  | withPrefix (keyPrefix : String)
  | withWaitInterval (minimum maximum : Int)

def trimRight (s : String) (c : Char) : String :=
  String.ofList (s.toList.reverse.dropWhile (· == c)).reverse

def Setting.apply (c : Config) : Setting → Config
  | .withPrefix keyPrefix =>
    let trimmed := trimRight keyPrefix ':'
    if trimmed ≠ "" then { c with keyPrefix := trimmed ++ ":" } else c
  | .withWaitInterval minimum maximum =>
    if h : 0 < minimum ∧ minimum ≤ maximum then
      { c with minWaitInterval := minimum, maxWaitInterval := maximum, wait_ok := h }
    else c

def newConfig (options : List Setting) : Config :=
  options.foldl Setting.apply
    ⟨"locker:", 50 * millisecond, 100 * millisecond, by decide⟩

/-- A named lock of a locker with the given configuration. -/
structure Lock where
  config : Config
  name : String
  ttl : Int
  deriving DecidableEq

def Lock.key (l : Lock) : String := l.config.keyPrefix ++ l.name

structure Lease where
  key : String
  token : String
  deriving DecidableEq

/-- What the code asks of Redis and of the runtime. -/
inductive Command
  | newString
  | setNX (key token : String) (ttl : Int)
  | releaseScript (key token : String)
  | refreshScript (key token : String) (ttl : Int)
  | int64N (n : Int)
  | wait (duration : Int)

abbrev Response : Command → Type
  | .newString => String
  | .setNX .. => Except String Bool
  | .releaseScript .. => Except String Int
  | .refreshScript .. => Except String Int
  | .int64N _ => Int
  | .wait _ => Option String

abbrev Program := Prog Command Response

def issue (c : Command) : Program (Response c) := .call c .ret

def validateContext : Ctx → Option Error
  | .nil => some .invalidContext
  | .live => none
  | .done cause => some (.ctx cause)

def Lock.validate (l : Lock) (ctx : Ctx) : Option Error :=
  match validateContext ctx with
  | some err => some err
  | none =>
    if l.name = "" then some .invalidName
    else if l.ttl ≤ 0 then some .invalidTTL
    else none

/-- The unexported `tryAcquire`. -/
def Lock.tryAcquireWith (l : Lock) (token : String) : Program (Except Error Lease) := do
  match ← issue (.setNX l.key token l.ttl) with
  | .error err => return .error (.redis "acquire" l.key err)
  | .ok false => return .error .notAcquired
  | .ok true => return .ok ⟨l.key, token⟩

def Lock.tryAcquire (l : Lock) (ctx : Ctx) : Program (Except Error Lease) :=
  match l.validate ctx with
  | some err => return .error err
  | none => do
    let token ← issue .newString
    l.tryAcquireWith token

def Lock.waitInterval (l : Lock) : Program Int :=
  let c := l.config
  if c.minWaitInterval = c.maxWaitInterval then return c.minWaitInterval
  else do
    let n ← issue (.int64N (c.maxWaitInterval - c.minWaitInterval))
    return c.minWaitInterval + n

/-- The rounds of the loop in `Acquire`, as many as it is given; `none` stands for a loop that
is still going. -/
def Lock.rounds (l : Lock) (token : String) : Nat → Program (Option (Except Error Lease))
  | 0 => return none
  | n + 1 => do
    match ← l.tryAcquireWith token with
    | .ok lease => return some (.ok lease)
    | .error err =>
      if err ≠ .notAcquired then return some (.error err)
      else
        let duration ← l.waitInterval
        match ← issue (.wait duration) with
        | some cause => return some (.error (.ctx cause))
        | none => l.rounds token n

def Lock.acquire (l : Lock) (ctx : Ctx) (n : Nat) : Program (Option (Except Error Lease)) :=
  match l.validate ctx with
  | some err => return some (.error err)
  | none => do
    let token ← issue .newString
    l.rounds token n

def Lock.restore (l : Lock) (token : String) : Except Error Lease :=
  if l.name = "" then .error .invalidName
  else if token = "" then .error .invalidToken
  else .ok ⟨l.key, token⟩

/-- Whole milliseconds, and at least one. -/
def milliseconds (ttl : Int) : Int :=
  let value := ttl.tdiv millisecond
  if value < 1 then 1 else value

/-- How `Release` and `Refresh` read the reply of their script. -/
def settled (operation key : String) : Except String Int → Except Error Unit
  | .error err => .error (.redis operation key err)
  | .ok n => if n = 0 then .error .leaseLost else .ok ()

def Lease.release (l : Lease) (ctx : Ctx) : Program (Except Error Unit) :=
  match validateContext ctx with
  | some err => return .error err
  | none => do
    let reply ← issue (.releaseScript l.key l.token)
    return settled "release" l.key reply

def Lease.refresh (l : Lease) (ctx : Ctx) (ttl : Int) : Program (Except Error Unit) :=
  match validateContext ctx with
  | some err => return .error err
  | none =>
    if ttl ≤ 0 then return .error .invalidTTL
    else do
      let reply ← issue (.refreshScript l.key l.token (milliseconds ttl))
      return settled "refresh" l.key reply

/-- What became of a lock, with the instants its key was set and expires. -/
inductive Event
  | acquired (key token : String) (start deadline : Int)
  | refreshed (key token : String) (deadline : Int)
  | released (key token : String)
  deriving DecidableEq

/-- The clock and the keys of the server, and what happened to them, the latest first. -/
structure World where
  now : Int
  keys : Keyspace String String
  log : List Event

/-- Documented behaviour of Redis: a key is there until its time to live has elapsed, silent on that
very instant. -/
structure Redis where
  fresh : Int → Int → Bool
  fresh_of_lt : ∀ now deadline, now < deadline → fresh now deadline = true

/-- How a command that fails ends: what the caller is told, and whether it was applied. -/
structure Fault where
  err : String
  applied : Bool

/-- What the outside decides about one command. -/
structure Label where
  fault : Option Fault
  token : String
  random : Nat
  ended : Option String

namespace Redis

variable (R : Redis)

/-- The token a key holds at the present instant. -/
def stored (w : World) (key : String) : Option String :=
  match w.keys key with
  | some (token, deadline) => if R.fresh w.now deadline then some token else none
  | none => none

/-- The client sends a positive duration in whole milliseconds, and at least one. -/
def setNX (w : World) (key token : String) (ttl : Int) : Bool × World :=
  match R.stored w key with
  | some _ => (false, w)
  | none =>
    let deadline := w.now + milliseconds ttl
    (true, { w with keys := Function.update w.keys key (some (token, deadline)),
                    log := .acquired key token w.now deadline :: w.log })

def releaseScript (w : World) (key token : String) : Int × World :=
  if R.stored w key = some token then
    (1, { w with keys := Function.update w.keys key none, log := .released key token :: w.log })
  else (0, w)

def refreshScript (w : World) (key token : String) (ttl : Int) : Int × World :=
  if R.stored w key = some token then
    let deadline := w.now + ttl
    (1, { w with keys := Function.update w.keys key (some (token, deadline)),
                 log := .refreshed key token deadline :: w.log })
  else (0, w)

/-- A command whose reply can be lost, together with its effect or without it. -/
def sent {α : Type} (fault : Option Fault) (w : World) (r : α × World) : Except String α × World :=
  match fault with
  | none => (.ok r.1, r.2)
  | some fault => (.error fault.err, if fault.applied then r.2 else w)

def exec (_ : Nat) (label : Label) (w : World) : (c : Command) → Response c × World
  | .newString => (label.token, w)
  | .setNX key token ttl => sent label.fault w (R.setNX w key token ttl)
  | .releaseScript key token => sent label.fault w (R.releaseScript w key token)
  | .refreshScript key token ttl => sent label.fault w (R.refreshScript w key token ttl)
  | .int64N n => ((label.random : Int) % n, w)
  | .wait _ => (label.ended, w)

end Redis

inductive Call
  | tryAcquire (ctx : Ctx) (lock : Lock)
  | acquire (ctx : Ctx) (lock : Lock) (rounds : Nat)
  | restore (lock : Lock) (token : String)
  | release (ctx : Ctx) (lease : Lease)
  | refresh (ctx : Ctx) (lease : Lease) (ttl : Int)
  deriving DecidableEq

inductive Result
  | leased (result : Except Error Lease)
  | waiting
  | settled (result : Except Error Unit)

def Call.program : Call → Program Result
  | .tryAcquire ctx lock => .leased <$> lock.tryAcquire ctx
  | .acquire ctx lock n => (fun r => r.elim .waiting .leased) <$> lock.acquire ctx n
  | .restore lock token => return .leased (lock.restore token)
  | .release ctx lease => .settled <$> lease.release ctx
  | .refresh ctx lease ttl => .settled <$> lease.refresh ctx ttl

/-- Any number of clients of one server. A shift lets time pass. -/
def clients (R : Redis) : Service World Label Nat Call Command Response Result where
  exec := R.exec
  shift elapsed w := { w with now := w.now + elapsed }
  start call _ := some call.program

def initial (now : Int) : Pool World Call Command Response Result := ⟨⟨now, fun _ => none, []⟩, []⟩

end Fries.Locker
