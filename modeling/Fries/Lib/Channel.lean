import Fries.Lib.Threads

/-! Channels between threads. A receiver waits first, which makes room for one more value. -/
namespace Fries

structure Chan (α : Type) where
  cap : Nat
  buf : List α
  waiting : Nat
  closed : Bool

namespace Chan

variable {α : Type}

def make (cap : Nat) : Chan α := ⟨cap, [], 0, false⟩

/-- There is room in the buffer or a receiver that nothing was handed to. -/
def room (c : Chan α) : Bool := decide (c.buf.length < c.cap + c.waiting)

def send (c : Chan α) (x : α) : Chan α := { c with buf := c.buf ++ [x] }

def await (c : Chan α) : Chan α := { c with waiting := c.waiting + 1 }

/-- A waiting receiver takes the first value. -/
def receive (c : Chan α) : Option (α × Chan α) :=
  match c.buf with
  | [] => none
  | x :: rest => some (x, { c with buf := rest, waiting := c.waiting - 1 })

/-- A waiting receiver stops waiting. It can only if nothing was handed to it. -/
def quit (c : Chan α) : Chan α := { c with waiting := c.waiting - 1 }

def close (c : Chan α) : Chan α := { c with closed := true }

theorem receive_eq_none {c : Chan α} : c.receive = none ↔ c.buf = [] := by
  unfold receive
  split <;> simp [*]

theorem receive_eq_some {c c' : Chan α} {x : α} :
    c.receive = some (x, c') ↔
      c.buf = x :: c'.buf ∧ c' = { c with buf := c'.buf, waiting := c.waiting - 1 } := by
  unfold receive
  split
  · rename_i h
    simp [h]
  · rename_i y rest h
    simp only [h, Option.some.injEq, Prod.mk.injEq, List.cons.injEq]
    constructor
    · rintro ⟨rfl, rfl⟩
      exact ⟨⟨rfl, rfl⟩, rfl⟩
    · rintro ⟨⟨rfl, hrest⟩, hc⟩
      rw [hrest]
      exact ⟨rfl, hc.symm⟩

end Chan

/-- A channel that stops accepting values: `closed` tells the senders, `submitters` counts those
that were let in, and `accepted` lists what was ever sent. -/
structure Intake (α : Type) where
  chan : Chan α
  closed : Bool
  submitters : Nat
  accepted : List α

namespace Intake

variable {α : Type} {q : Intake α} {x : α}

def make (cap : Nat) : Intake α := ⟨.make cap, false, 0, []⟩

def join (q : Intake α) : Intake α := { q with submitters := q.submitters + 1 }

def leave (q : Intake α) : Intake α := { q with submitters := q.submitters - 1 }

def send (q : Intake α) (x : α) : Intake α :=
  { q with chan := q.chan.send x, accepted := q.accepted ++ [x] }

def stop (q : Intake α) : Intake α := { q with closed := true }

/-- The channel is closed after the last sender has left. -/
def close (q : Intake α) : Intake α := { q with chan := q.chan.close }

/-- The channel is open as long as a sender can be there. -/
def Wf (q : Intake α) : Prop := q.chan.closed = true → q.closed = true ∧ q.submitters = 0

theorem make_wf (cap : Nat) : (make cap : Intake α).Wf := nofun

theorem join_wf (hq : q.Wf) (hopen : q.closed = false) : q.join.Wf := by
  intro hclosed
  have hstopped := (hq hclosed).1
  rw [hopen] at hstopped
  cases hstopped

theorem leave_wf (hq : q.Wf) : q.leave.Wf := by
  intro hclosed
  obtain ⟨hstopped, hnone⟩ := hq hclosed
  refine ⟨hstopped, ?_⟩
  show q.submitters - 1 = 0
  omega

theorem send_wf (hq : q.Wf) (x : α) : (q.send x).Wf := hq

theorem stop_wf (hq : q.Wf) : q.stop.Wf := fun hclosed => ⟨rfl, (hq hclosed).2⟩

theorem close_wf (hstopped : q.closed = true) (hnone : q.submitters = 0) : q.close.Wf :=
  fun _ => ⟨hstopped, hnone⟩

/-- A counted sender finds the channel open. -/
theorem open_of_submitter (hq : q.Wf) (h : 0 < q.submitters) : q.chan.closed = false := by
  cases hc : q.chan.closed with
  | false => rfl
  | true =>
    have := (hq hc).2
    omega

/-- Before the stop, everyone finds the channel open. -/
theorem open_of_not_closed (hq : q.Wf) (h : q.closed = false) : q.chan.closed = false := by
  cases hc : q.chan.closed with
  | false => rfl
  | true =>
    rw [(hq hc).1] at h
    cases h

end Intake

/-- An operation on a channel that panics if the channel is closed. -/
inductive Op (χ : Type)
  | send (chan : χ)
  | close (chan : χ)

def Op.chan {χ : Type} : Op χ → χ
  | .send chan | .close chan => chan

namespace System

variable {W L ι ε κ χ : Type} {S : System W L ι ε κ} {O : S.Outline} {c : Crew W L}
  {ops : L → W → List (Op χ)} {Closed : W → χ → Prop}

/-- What an action attempts, where `ops` says what a thread does. A thread that is blocked
attempts nothing: an operation on a closed channel panics. -/
def attempted (S : System W L ι ε κ) (ops : L → W → List (Op χ)) (c : Crew W L) :
    Action ι ε κ → List (Op χ)
  | .run i label =>
    match c.threads[i]? with
    | none => []
    | some l => if (S.step i label l c.world).isSome then ops l c.world else []
  | .spawn _ | .shift _ => []

/-- What the actions of a run attempt, in order. -/
def attempts (S : System W L ι ε κ) (ops : L → W → List (Op χ)) :
    Crew W L → List (Action ι ε κ) → List (Op χ)
  | _, [] => []
  | c, a :: rest => S.attempted ops c a ++ S.attempts ops (S.next c a) rest

namespace Outline

/-- Threads attempt nothing on a closed channel, and their steps close what they say. -/
structure Tidy (O : S.Outline) (ops : L → W → List (Op χ)) (Closed : W → χ → Prop) : Prop where
  opened : ∀ {i l w}, O.Inv w → O.At i l w → (∀ k, O.weight k l ≤ O.count k w) →
    (ops l w).Pairwise (fun a b => a ≠ .close b.chan) ∧ ∀ x ∈ ops l w, ¬ Closed w x.chan
  step : ∀ {i label l w n}, S.step i label l w = some n →
    ∀ ch, Closed n.world ch ↔ Closed w ch ∨ .close ch ∈ ops l w
  shift : ∀ e w ch, Closed (S.shift e w) ch ↔ Closed w ch

/-- What is attempted from a state, and what is closed after it. -/
def Follows (Closed : W → χ → Prop) (t : List (Op χ)) (w w' : W) : Prop :=
  t.Pairwise (fun a b => a ≠ .close b.chan) ∧ (∀ x ∈ t, ¬ Closed w x.chan) ∧
    ∀ ch, Closed w' ch ↔ Closed w ch ∨ .close ch ∈ t

end Outline

end System

end Fries
