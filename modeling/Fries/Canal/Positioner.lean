import Fries.Go

/-! The buffered positioner: the last binlog position, in memory and now and then in Redis. -/
namespace Fries.Canal

structure Position where
  name : String
  pos : UInt32
  deriving DecidableEq

def zeroPosition : Position := ⟨"", 0⟩

def isValidPosition (p : Position) : Bool := p.name != "" && p.pos != 0

structure Buffer where
  lastPos : Position
  lastSaved : Position
  counter : Nat
  deriving DecidableEq

namespace Buffer

variable {b : Buffer} {pos : Position} {batchSize : Int}

def make : Buffer := ⟨zeroPosition, zeroPosition, 0⟩

def hasSignificantChange (b : Buffer) (pos : Position) : Bool :=
  pos.name != b.lastSaved.name ||
    (decide (b.lastSaved.pos < pos.pos) && decide (10000 < pos.pos - b.lastSaved.pos))

/-- `Set` up to its decision: the position in memory and the counter. -/
def record (b : Buffer) (pos : Position) : Buffer :=
  { b with lastPos := pos, counter := b.counter + 1 }

/-- The decision of `Set` to write, after it has recorded the position. -/
def due (batchSize : Int) (b : Buffer) (pos : Position) : Bool :=
  b.hasSignificantChange pos || decide (batchSize ≤ b.counter)

/-- `doFlush` finds nothing to write. -/
def clean (b : Buffer) : Bool :=
  b.lastPos.name == b.lastSaved.name && b.lastPos.pos == b.lastSaved.pos

/-- `doFlush` after the write. -/
def saved (b : Buffer) : Buffer := { b with lastSaved := b.lastPos, counter := 0 }

theorem clean_iff : b.clean = true ↔ b.lastPos = b.lastSaved := by
  obtain ⟨⟨name, pos⟩, ⟨name', pos'⟩, counter⟩ := b
  simp [clean]

/-- A position that does not have to be written is close to the saved one. -/
theorem close_of_not_due (h : due batchSize b pos = false) :
    b.lastSaved.name = pos.name ∧ pos.pos.toNat ≤ b.lastSaved.pos.toNat + 10000 ∧
      (b.counter : Int) < batchSize := by
  simp only [due, hasSignificantChange, Bool.or_eq_false_iff, bne_eq_false_iff_eq,
    Bool.and_eq_false_iff, decide_eq_false_iff_not, Int.not_le] at h
  obtain ⟨⟨hname, hpos⟩, hcounter⟩ := h
  refine ⟨hname.symm, ?_, hcounter⟩
  rw [UInt32.lt_iff_toNat_lt] at hpos
  rcases hpos with hback | hnear
  · omega
  · by_cases hback : b.lastSaved.pos ≤ pos.pos
    · rw [UInt32.lt_iff_toNat_lt, UInt32.toNat_sub_of_le _ _ hback] at hnear
      have hthreshold : (10000 : UInt32).toNat = 10000 := rfl
      omega
    · rw [UInt32.le_iff_toNat_le] at hback
      omega

end Buffer

/-! ### Calls one after another -/

/-- What happened, the newest first. -/
inductive Event
  | set (pos : Position)
  | write (pos : Position)
  deriving DecidableEq

structure State where
  buffer : Buffer
  redis : Option Position
  log : List Event
  deriving DecidableEq

inductive Op
  | set (pos : Position)
  | flush
  deriving DecidableEq

variable {batchSize : Int} {s : State} {ops : List Op} {pos : Position}

def doFlush (s : State) : State :=
  if s.buffer.clean then s
  else ⟨s.buffer.saved, some s.buffer.lastPos, .write s.buffer.lastPos :: s.log⟩

def apply (batchSize : Int) (s : State) : Op → State
  | .set pos =>
    let s := { s with buffer := s.buffer.record pos, log := .set pos :: s.log }
    if s.buffer.due batchSize pos then doFlush s else s
  | .flush => doFlush s

/-- The state after some calls on a positioner whose key is absent at first. -/
def run (batchSize : Int) (ops : List Op) : State := ops.foldl (apply batchSize) ⟨.make, none, []⟩

/-- The position in Redis. -/
def stored (s : State) : Position := s.redis.getD zeroPosition

/-- The position of the last `Set`. -/
def lastSet (ops : List Op) : Position :=
  ops.foldl (fun last op => match op with | .set pos => pos | .flush => last) zeroPosition

/-- The number of `Set` calls since the last write. -/
def setsSinceWrite : List Event → Nat
  | [] => 0
  | .set _ :: log => setsSinceWrite log + 1
  | .write _ :: _ => 0

/-- Memory knows what is in Redis and how many calls ago it was written. -/
structure Synced (s : State) : Prop where
  saved : stored s = s.buffer.lastSaved
  counter : s.buffer.counter = setsSinceWrite s.log

theorem synced_doFlush (hs : Synced s) : Synced (doFlush s) := by
  unfold doFlush
  split
  · exact hs
  · exact ⟨rfl, rfl⟩

theorem stored_doFlush (hs : Synced s) : stored (doFlush s) = s.buffer.lastPos := by
  unfold doFlush
  split
  · rename_i hclean
    rw [hs.saved, Buffer.clean_iff.mp hclean]
  · rfl

theorem lastPos_doFlush (s : State) : (doFlush s).buffer.lastPos = s.buffer.lastPos := by
  unfold doFlush
  split <;> rfl

/-- `Set` before it decides whether to write. -/
theorem synced_record (hs : Synced s) (pos : Position) :
    Synced { s with buffer := s.buffer.record pos, log := .set pos :: s.log } :=
  ⟨hs.saved, congrArg (· + 1) hs.counter⟩

theorem synced_apply (hs : Synced s) (op : Op) : Synced (apply batchSize s op) := by
  cases op with
  | flush => exact synced_doFlush hs
  | set pos =>
    simp only [apply]
    split
    · exact synced_doFlush (synced_record hs pos)
    · exact synced_record hs pos

theorem synced_run (batchSize : Int) (ops : List Op) : Synced (run batchSize ops) := by
  suffices h : ∀ s, Synced s → Synced (ops.foldl (apply batchSize) s) from h _ ⟨rfl, rfl⟩
  induction ops with
  | nil => exact fun _ hs => hs
  | cons op rest ih => exact fun s hs => ih _ (synced_apply hs op)

theorem lastPos_apply (batchSize : Int) (s : State) (op : Op) :
    (apply batchSize s op).buffer.lastPos =
      match op with | .set pos => pos | .flush => s.buffer.lastPos := by
  cases op with
  | flush => exact lastPos_doFlush s
  | set pos =>
    simp only [apply]
    split
    · exact lastPos_doFlush _
    · rfl

/-- Memory holds the last position set. -/
theorem lastPos_run (batchSize : Int) (ops : List Op) :
    (run batchSize ops).buffer.lastPos = lastSet ops := by
  suffices h : ∀ s, (ops.foldl (apply batchSize) s).buffer.lastPos = ops.foldl
      (fun last op => match op with | .set pos => pos | .flush => last) s.buffer.lastPos from h _
  induction ops with
  | nil => exact fun _ => rfl
  | cons op rest ih =>
    intro s
    rw [List.foldl_cons, List.foldl_cons, ih, lastPos_apply]

theorem run_concat (batchSize : Int) (ops : List Op) (op : Op) :
    run batchSize (ops ++ [op]) = apply batchSize (run batchSize ops) op := by
  simp [run]

theorem stored_of_set (hs : Synced s) (pos : Position) :
    stored (apply batchSize s (.set pos)) = pos ∨
      (stored (apply batchSize s (.set pos))).name = pos.name ∧
      pos.pos.toNat ≤ (stored (apply batchSize s (.set pos))).pos.toNat + 10000 ∧
      (setsSinceWrite (apply batchSize s (.set pos)).log : Int) < batchSize := by
  have hrecord := synced_record hs pos
  simp only [apply]
  split
  · exact .inl (stored_doFlush hrecord)
  · rename_i hdue
    obtain ⟨hname, hpos, hcounter⟩ := Buffer.close_of_not_due (Bool.eq_false_iff.mpr hdue)
    refine .inr ⟨?_, ?_, ?_⟩
    · rw [hrecord.saved]
      exact hname
    · rw [hrecord.saved]
      exact hpos
    · rw [← hrecord.counter]
      exact hcounter

/-- After each `Set` Redis holds its position or one a little before it in the same file, and after
each `Flush` it holds the position that was set last. -/
theorem redis_is_recent (batchSize : Int) (ops : List Op) :
    (∀ pos, let s := run batchSize (ops ++ [.set pos])
      stored s = pos ∨ (stored s).name = pos.name ∧
        pos.pos.toNat ≤ (stored s).pos.toNat + 10000 ∧
        (setsSinceWrite s.log : Int) < batchSize) ∧
    stored (run batchSize (ops ++ [.flush])) = lastSet ops := by
  have hs := synced_run batchSize ops
  constructor
  · intro pos
    rw [run_concat]
    exact stored_of_set hs pos
  · rw [run_concat]
    exact (stored_doFlush hs).trans (lastPos_run batchSize ops)

end Fries.Canal
