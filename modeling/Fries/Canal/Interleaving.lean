import Fries.Canal.Positioner
import Fries.Lib.Threads

/-! Concurrent calls of a buffered positioner. `Get` reads Redis outside the lock. -/
namespace Fries.Canal

/-- The memory, Redis and the lock. The rest is history: the positions of the `Set` calls in the
order in which they took the lock, up to which of them calls have returned, and how many `Get`
calls are reading Redis. -/
structure World where
  buffer : Buffer
  redis : Option Position
  locked : Bool
  sets : List Position
  completed : Nat
  readers : Nat
  deriving DecidableEq

inductive Call
  | get
  | set (pos : Position)
  | flush

/-- Where a call is. A `Get` carries how many `Set` calls had returned when it started, and the
write of a `Set` its number. -/
inductive Local
  | get (since : Nat)
  | reading (since : Nat)
  | storing (since : Nat) (pos : Position)
  | got (since : Nat) (pos : Position)
  | set (pos : Position)
  | flush
  | writing (number : Option Nat)
  | saving (number : Option Nat)
  | returned
  deriving DecidableEq

variable {batchSize : Int} {w w' : World} {l m : Local} {n : Progress World Local}

/-- A call returns; only those of `Set` have a number. -/
def World.complete (w : World) : Option Nat → World
  | some number => { w with completed := max w.completed (number + 1) }
  | none => w

/-- `doFlush` up to its write. -/
def startFlush (number : Option Nat) (w : World) : Progress World Local :=
  if w.buffer.clean then ⟨.returned, w.complete number, none⟩
  else ⟨.writing number, { w with locked := true }, none⟩

def step (batchSize : Int) (l : Local) (w : World) : Option (Progress World Local) :=
  match l with
  | .get since =>
    if w.locked then none
    else if isValidPosition w.buffer.lastPos then some ⟨.got since w.buffer.lastPos, w, none⟩
    else some ⟨.reading since, { w with readers := w.readers + 1 }, none⟩
  | .reading since => some ⟨.storing since (w.redis.getD zeroPosition), w, none⟩
  | .storing since pos =>
    if w.locked then none
    else some ⟨.got since pos, { w with
      buffer := { w.buffer with lastPos := pos, lastSaved := pos }, readers := w.readers - 1 }, none⟩
  | .set pos =>
    if w.locked then none
    else
      let w' := { w with buffer := w.buffer.record pos, sets := w.sets ++ [pos] }
      if w'.buffer.due batchSize pos then some (startFlush (some w.sets.length) w')
      else some ⟨.returned, w'.complete (some w.sets.length), none⟩
  | .flush => if w.locked then none else some (startFlush none w)
  | .writing number =>
    some ⟨.saving number, { w with redis := some w.buffer.lastPos }, none⟩
  | .saving number => some ⟨.returned,
      World.complete { w with buffer := w.buffer.saved, locked := false } number, none⟩
  | .got .. | .returned => none

def positioner (batchSize : Int) : System World Local Unit Empty Call where
  enter call w :=
    match call with
    | .get => .get w.completed
    | .set pos => .set pos
    | .flush => .flush
  step _ _ := step batchSize
  shift change := nomatch change

/-- A new positioner, and what Redis holds from before. -/
def initial (redis : Option Position) : Crew World Local :=
  ⟨⟨.make, redis, false, [], 0, 0⟩, []⟩

/-- A `Set` finds no `Get` that reads Redis, and its position is valid. -/
def Undisturbed (l : Local) (w : World) : Prop :=
  ∀ pos, l = .set pos → isValidPosition pos = true ∧ w.readers = 0

instance (l : Local) (w : World) : Decidable (Undisturbed l w) :=
  match l with
  | .set pos => decidable_of_iff (isValidPosition pos = true ∧ w.readers = 0)
      ⟨fun h _ heq => by cases heq; exact h, fun h => h pos rfl⟩
  | .get _ | .reading _ | .storing .. | .got .. | .flush | .writing _ | .saving _ | .returned =>
    isTrue nofun

/-- One of the positions that were set since the given number of calls returned. -/
def SetSince (w : World) (count : Nat) (pos : Position) : Prop :=
  ∃ i, count ≤ i + 1 ∧ w.sets[i]? = some pos

structure Inv (w : World) : Prop where
  completed_le : w.completed ≤ w.sets.length
  fresh : w.sets = [] → w.buffer.lastPos = w.buffer.lastSaved ∧
    (w.buffer.lastSaved = zeroPosition ∨ w.redis = some w.buffer.lastSaved)
  latest : w.sets ≠ [] → w.sets.getLast? = some w.buffer.lastPos ∧
    isValidPosition w.buffer.lastPos = true ∧ w.readers = 0
  saved : w.locked = false → w.sets ≠ [] → w.redis = some w.buffer.lastSaved

def At (l : Local) (w : World) : Prop :=
  match l with
  | .get since => since ≤ w.completed
  | .reading since => since = 0
  | .storing since pos => since = 0 ∧ pos = w.redis.getD zeroPosition
  | .got since pos => 0 < since → SetSince w since pos
  | .writing number => w.sets ≠ [] ∧ ∀ i, number = some i → i < w.sets.length
  | .saving number => w.sets ≠ [] ∧ w.redis = some w.buffer.lastPos ∧
    ∀ i, number = some i → i < w.sets.length
  | .set _ | .flush | .returned => True

inductive Counter
  | readers
  | locked

def weight (k : Counter) (l : Local) : Nat :=
  match k, l with
  | .readers, .reading _ | .readers, .storing .. => 1
  | .locked, .writing _ | .locked, .saving _ => 1
  | _, _ => 0

def count (w : World) : Counter → Nat
  | .readers => w.readers
  | .locked => w.locked.toNat

/-- What a step does. -/
inductive Moves (batchSize : Int) (w : World) : Local → Progress World Local → Prop
  | hit (hvalid : isValidPosition w.buffer.lastPos = true) :
    Moves batchSize w (.get since) ⟨.got since w.buffer.lastPos, w, none⟩
  | miss (hinvalid : isValidPosition w.buffer.lastPos = false) :
    Moves batchSize w (.get since) ⟨.reading since, { w with readers := w.readers + 1 }, none⟩
  | read : Moves batchSize w (.reading since) ⟨.storing since (w.redis.getD zeroPosition), w, none⟩
  | store (hfree : w.locked = false) :
    Moves batchSize w (.storing since pos) ⟨.got since pos, { w with
      buffer := { w.buffer with lastPos := pos, lastSaved := pos }, readers := w.readers - 1 }, none⟩
  | keep (hfree : w.locked = false)
      (hkeep : (w.buffer.record pos).due batchSize pos = false ∨ (w.buffer.record pos).clean = true) :
    Moves batchSize w (.set pos) ⟨.returned, World.complete
      { w with buffer := w.buffer.record pos, sets := w.sets ++ [pos] } (some w.sets.length), none⟩
  | lock (hfree : w.locked = false) :
    Moves batchSize w (.set pos) ⟨.writing (some w.sets.length), { w with
      buffer := w.buffer.record pos, sets := w.sets ++ [pos], locked := true }, none⟩
  | skip : Moves batchSize w .flush ⟨.returned, w, none⟩
  | flush (hfree : w.locked = false) (hdirty : w.buffer.clean = false) :
    Moves batchSize w .flush ⟨.writing none, { w with locked := true }, none⟩
  | write :
    Moves batchSize w (.writing number)
      ⟨.saving number, { w with redis := some w.buffer.lastPos }, none⟩
  | save :
    Moves batchSize w (.saving number)
      ⟨.returned, World.complete { w with buffer := w.buffer.saved, locked := false } number, none⟩

theorem step_moves (h : step batchSize l w = some n) : Moves batchSize w l n := by
  cases l with
  | get since =>
    simp only [step] at h
    split at h
    · cases h
    · split at h <;> cases h
      · exact .hit ‹_›
      · exact .miss (Bool.eq_false_iff.mpr ‹_›)
  | reading since =>
    cases h
    exact .read
  | storing since pos =>
    simp only [step] at h
    split at h <;> cases h
    exact .store (Bool.eq_false_iff.mpr ‹_›)
  | set pos =>
    simp only [step] at h
    split at h
    · cases h
    · rename_i hfree
      split at h <;> cases h
      · unfold startFlush
        split
        · exact .keep (Bool.eq_false_iff.mpr hfree) (.inr ‹_›)
        · exact .lock (Bool.eq_false_iff.mpr hfree)
      · exact .keep (Bool.eq_false_iff.mpr hfree) (.inl (Bool.eq_false_iff.mpr ‹_›))
  | flush =>
    simp only [step] at h
    split at h <;> cases h
    unfold startFlush
    split
    · exact .skip
    · exact .flush (Bool.eq_false_iff.mpr ‹_›) (Bool.eq_false_iff.mpr ‹_›)
  | writing number =>
    cases h
    exact .write
  | saving number =>
    cases h
    exact .save
  | got | returned => cases h

theorem complete_completed (w : World) (number : Option Nat) :
    w.completed ≤ (w.complete number).completed := by
  cases number with
  | none => exact Nat.le_refl _
  | some i => exact Nat.le_max_left _ _

theorem inv_complete (hw : Inv w) {number : Option Nat}
    (hnumber : ∀ i, number = some i → i < w.sets.length) : Inv (w.complete number) := by
  cases number with
  | none => exact hw
  | some i => exact { hw with completed_le := Nat.max_le.mpr ⟨hw.completed_le, hnumber i rfl⟩ }

/-- While a `Get` reads Redis, nothing was set. -/
theorem sets_of_reader (hw : Inv w) (h : 1 ≤ w.readers) : w.sets = [] := by
  by_contra hsets
  have hnone := (hw.latest hsets).2.2
  omega

theorem completed_record (hw : Inv w) (pos : Position) :
    w.completed ≤ (w.sets ++ [pos]).length := by
  have hle := hw.completed_le
  rw [List.length_append]
  omega

theorem inv_moves (hw : Inv w) (hat : At l w) (hok : Undisturbed l w)
    (hcount : ∀ k, weight k l ≤ count w k) (h : Moves batchSize w l n) : Inv n.world := by
  cases h with
  | hit | read | skip => exact hw
  | miss hinvalid =>
    refine { hw with latest := fun hsets => ?_ }
    have hvalid := (hw.latest hsets).2.1
    rw [hinvalid] at hvalid
    cases hvalid
  | store =>
    have hnone := sets_of_reader hw (hcount .readers)
    obtain ⟨-, hpos⟩ := hat
    refine ⟨hw.completed_le, fun _ => ⟨rfl, ?_⟩, fun hsets => absurd hnone hsets,
      fun _ hsets => absurd hnone hsets⟩
    cases hredis : w.redis with
    | none => exact .inl (by rw [hpos, hredis]; rfl)
    | some stored =>
      refine .inr ?_
      rw [hpos, hredis]
      rfl
  | keep hfree hkeep =>
    rename_i pos
    obtain ⟨hvalid, hreaders⟩ := hok pos rfl
    have hrecorded : Inv { w with buffer := w.buffer.record pos, sets := w.sets ++ [pos] } := by
      refine ⟨completed_record hw pos, fun hnil => absurd hnil (by simp),
        fun _ => ⟨by simp [Buffer.record], hvalid, hreaders⟩, fun _ _ => ?_⟩
      -- a first position that is not written was read from Redis
      by_cases hsets : w.sets = []
      · refine ((hw.fresh hsets).2).resolve_left fun hzero => ?_
        rcases hkeep with hdue | hclean
        · have hname := (Buffer.close_of_not_due hdue).1
          rw [Buffer.record, hzero] at hname
          simp [isValidPosition, ← hname, zeroPosition] at hvalid
        · have hsame : pos = w.buffer.lastSaved := Buffer.clean_iff.mp hclean
          rw [hsame.trans hzero] at hvalid
          cases hvalid
      · exact hw.saved hfree hsets
    have hnumber : ∀ i, some w.sets.length = some i → i < (w.sets ++ [pos]).length := by
      intro i hi
      cases hi
      simp
    exact inv_complete hrecorded hnumber
  | lock =>
    rename_i pos hfree
    obtain ⟨hvalid, hreaders⟩ := hok pos rfl
    exact ⟨completed_record hw pos, fun hnil => absurd hnil (by simp),
      fun _ => ⟨by simp [Buffer.record], hvalid, hreaders⟩, nofun⟩
  | flush => exact { hw with saved := nofun }
  | write =>
    refine { hw with fresh := fun hnil => absurd hnil hat.1, saved := fun hfree _ => ?_ }
    have hlocked : 1 ≤ w.locked.toNat := hcount .locked
    have hfree' : w.locked = false := hfree
    rw [hfree'] at hlocked
    cases hlocked
  | save =>
    obtain ⟨hsets, hredis, hnumber⟩ := hat
    have hsaved : Inv { w with buffer := w.buffer.saved, locked := false } :=
      { hw with fresh := fun hnil => absurd hnil hsets, saved := fun _ _ => hredis }
    exact inv_complete hsaved hnumber

theorem setSince_last (hw : Inv w) (hsets : w.sets ≠ []) {since : Nat} (hle : since ≤ w.completed) :
    SetSince w since w.buffer.lastPos := by
  have hlast := (hw.latest hsets).1
  rw [List.getLast?_eq_getElem?] at hlast
  have hcompleted := hw.completed_le
  exact ⟨w.sets.length - 1, by omega, hlast⟩

theorem own_moves (hw : Inv w) (hat : At l w) (h : Moves batchSize w l n) :
    At n.state n.world := by
  cases h with
  | hit =>
    rename_i since _
    intro hpos
    have hle : since ≤ w.completed := hat
    have hcompleted := hw.completed_le
    refine setSince_last hw (fun hnil => ?_) hle
    rw [hnil, List.length_nil] at hcompleted
    omega
  | miss hinvalid =>
    rename_i since
    have hle : since ≤ w.completed := hat
    have hsets : w.sets = [] := by
      by_contra hsets
      have hvalid := (hw.latest hsets).2.1
      rw [hinvalid] at hvalid
      cases hvalid
    have hcompleted := hw.completed_le
    rw [hsets, List.length_nil] at hcompleted
    show since = 0
    omega
  | read => exact ⟨hat, rfl⟩
  | store => exact fun hpos => absurd hat.1 (Nat.ne_of_gt hpos)
  | keep | skip | save => trivial
  | lock =>
    refine ⟨by simp, fun i hi => ?_⟩
    cases hi
    simp
  | flush hfree hdirty =>
    refine ⟨fun hnil => ?_, nofun⟩
    rw [Buffer.clean_iff.mpr (hw.fresh hnil).1] at hdirty
    cases hdirty
  | write => exact ⟨hat.1, rfl, hat.2⟩

/-- What is never taken back. -/
structure Grows (w w' : World) : Prop where
  completed : w.completed ≤ w'.completed
  sets : w.sets <+: w'.sets

theorem grows_moves (h : Moves batchSize w l n) : Grows w n.world := by
  cases h with
  | keep => exact ⟨complete_completed _ (some _), List.prefix_append _ _⟩
  | lock => exact ⟨Nat.le_refl _, List.prefix_append _ _⟩
  | save =>
    rename_i number
    cases number with
    | none => exact ⟨Nat.le_refl _, List.prefix_rfl⟩
    | some i => exact ⟨Nat.le_max_left _ _, List.prefix_rfl⟩
  | _ => exact ⟨Nat.le_refl _, List.prefix_rfl⟩

theorem sets_ne_nil (h : Grows w w') (hsets : w.sets ≠ []) : w'.sets ≠ [] := by
  intro hnil
  exact hsets (List.prefix_nil.mp (hnil ▸ h.sets))

/-- Two calls do not hold the lock. -/
theorem free_of_others (hboth : ∀ k, weight k l + weight k m ≤ count w k)
    (hm : 1 ≤ weight .locked m) : w.locked = true ∧ weight .locked l = 0 := by
  have hle : weight .locked l + weight .locked m ≤ w.locked.toNat := hboth .locked
  cases hlocked : w.locked with
  | false =>
    rw [hlocked] at hle
    exact absurd hle (by simp only [Bool.toNat_false]; omega)
  | true =>
    rw [hlocked] at hle
    exact ⟨rfl, by simp only [Bool.toNat_true] at hle; omega⟩

/-- While a call holds the lock, the others leave the last position and Redis as they are. -/
theorem locked_moves (hlocked : w.locked = true) (hfree : weight .locked l = 0)
    (h : Moves batchSize w l n) :
    n.world.redis = w.redis ∧ n.world.buffer.lastPos = w.buffer.lastPos := by
  cases h with
  | store hopen | keep hopen | lock hopen =>
    rw [hlocked] at hopen
    cases hopen
  | write | save => cases hfree
  | _ => exact ⟨rfl, rfl⟩

/-- While a `Get` reads Redis, the others do not write it. -/
theorem redis_of_reader (hw : Inv w) (hat : At l w) (hreader : 1 ≤ w.readers)
    (h : Moves batchSize w l n) : n.world.redis = w.redis := by
  cases h with
  | write => exact absurd (sets_of_reader hw hreader) hat.1
  | save =>
    rename_i number
    cases number <;> rfl
  | _ => rfl

theorem others_moves (hw : Inv w) (hat : At l w) (h : Moves batchSize w l n)
    (hboth : ∀ k, weight k l + weight k m ≤ count w k) (hm : At m w) : At m n.world := by
  have hgrows := grows_moves h
  cases m with
  | get since => exact Nat.le_trans hm hgrows.completed
  | storing since pos =>
    have hreader : 1 ≤ w.readers := Nat.le_trans (Nat.le_add_left _ _) (hboth .readers)
    refine ⟨hm.1, ?_⟩
    rw [redis_of_reader hw hat hreader h]
    exact hm.2
  | got since pos =>
    intro hpos
    obtain ⟨i, hi, hset⟩ := hm hpos
    obtain ⟨more, hmore⟩ := hgrows.sets
    refine ⟨i, hi, ?_⟩
    rw [← hmore, List.getElem?_append_left (List.getElem?_eq_some_iff.mp hset).1]
    exact hset
  | writing number =>
    obtain ⟨hsets, hnumber⟩ := hm
    exact ⟨sets_ne_nil hgrows hsets,
      fun i hi => Nat.lt_of_lt_of_le (hnumber i hi) hgrows.sets.length_le⟩
  | saving number =>
    obtain ⟨hsets, hredis, hnumber⟩ := hm
    obtain ⟨hlocked, hfree⟩ := free_of_others hboth (Nat.le_refl 1)
    obtain ⟨hsame, hpos⟩ := locked_moves hlocked hfree h
    refine ⟨sets_ne_nil hgrows hsets, ?_,
      fun i hi => Nat.lt_of_lt_of_le (hnumber i hi) hgrows.sets.length_le⟩
    rw [hsame, hpos]
    exact hredis
  | _ => exact hm

theorem counts_moves (hcount : ∀ k, weight k l ≤ count w k) (h : Moves batchSize w l n)
    (k : Counter) : count n.world k + weight k l =
      count w k + weight k n.state + System.total (weight k) n.started.toList := by
  cases k with
  | readers =>
    cases h with
    | save =>
      rename_i number
      cases number <;> rfl
    | store =>
      have hpos : 1 ≤ w.readers := hcount .readers
      show w.readers - 1 + 1 = w.readers + 0 + 0
      omega
    | _ => rfl
  | locked =>
    cases h with
    | lock hfree | flush hfree =>
      show 1 + 0 = w.locked.toNat + 1 + 0
      rw [hfree]
      rfl
    | save =>
      rename_i number
      have hle : 1 ≤ w.locked.toNat := hcount .locked
      cases hlocked : w.locked with
      | false =>
        rw [hlocked] at hle
        cases hle
      | true =>
        show (World.complete _ number).locked.toNat + 1 = w.locked.toNat + 0 + 0
        rw [hlocked]
        cases number <;> rfl
    | _ => rfl

theorem restrict_step {label : Unit} {i : Nat}
    (h : ((positioner batchSize).restrict Undisturbed).step i label l w = some n) :
    Undisturbed l w ∧ Moves batchSize w l n := by
  simp only [System.restrict] at h
  split at h
  · rename_i hok
    exact ⟨hok, step_moves h⟩
  · cases h

/-- The proof outline of runs in which no `Set` is disturbed. -/
def outline (batchSize : Int) : ((positioner batchSize).restrict Undisturbed).Outline where
  Inv := Inv
  At _ l w := At l w
  Unused _ _ := True
  Counter := Counter
  weight := weight
  count k w := count w k
  enter call _ _ := by
    cases call with
    | get => exact Nat.le_refl _
    | set | flush => trivial
  enter_weight k call w := by cases call <;> cases k <;> rfl
  own h hw hat hcount := by
    obtain ⟨hok, hmoves⟩ := restrict_step h
    exact ⟨inv_moves hw hat hok hcount hmoves, own_moves hw hat hmoves⟩
  others h hw hat hboth _ hm := others_moves hw hat (restrict_step h).2 hboth hm
  unused _ _ _ _ _ _ := trivial
  starts h _ _ _ _ _ hm := by
    cases (restrict_step h).2 <;> cases hm
  counts h _ _ hcount k := counts_moves hcount (restrict_step h).2 k
  shift_inv e := nomatch e
  shift_at e := nomatch e
  shift_unused e := nomatch e
  shift_count e := nomatch e

theorem holds_initial (batchSize : Int) (redis : Option Position) :
    (outline batchSize).Holds (initial redis) := by
  refine ⟨⟨Nat.le_refl _, fun _ => ⟨rfl, .inl rfl⟩, fun hsets => absurd rfl hsets,
    fun _ hsets => absurd rfl hsets⟩, ?_, fun _ _ => trivial, ?_⟩
  · intro i l hl
    simp [initial] at hl
  · intro k
    cases k <;> rfl

/-- In every run in which no `Set` takes the lock while a `Get` reads Redis, a `Get` returns the
position of the latest `Set` that had returned when it started, or of a later one. -/
theorem positions_not_forgotten (batchSize : Int) (redis : Option Position)
    (actions : List (Action Unit Empty Call))
    (h : (positioner batchSize).Meets Undisturbed (initial redis) actions) :
    let s := (positioner batchSize).run (initial redis) actions
    (∀ (i since : Nat) (pos : Position), s.threads[i]? = some (.got since pos) → 0 < since →
      SetSince s.world since pos) ∧
    (0 < s.world.completed → SetSince s.world s.world.completed s.world.buffer.lastPos ∧
      (s.world.locked = false → s.world.buffer.lastPos = s.world.buffer.lastSaved →
        s.world.redis = some s.world.buffer.lastPos)) := by
  intro s
  have hs : (outline batchSize).Holds s := by
    have hrun := System.Outline.holds_run (holds_initial batchSize redis) actions
    rw [System.run_restrict _ _ h] at hrun
    exact hrun
  have hw : Inv s.world := hs.inv
  refine ⟨fun i since pos hl hpos => hs.at_thread i _ hl hpos, fun hpos => ?_⟩
  have hsets : s.world.sets ≠ [] := by
    intro hnil
    have hle := hw.completed_le
    rw [hnil, List.length_nil] at hle
    omega
  refine ⟨setSince_last hw hsets (Nat.le_refl _), fun hfree hsame => ?_⟩
  rw [hsame]
  exact hw.saved hfree hsets

def first : Position := ⟨"bin.1", 4⟩

def second : Position := ⟨"bin.1", 500⟩

/-- A `Get` reads Redis, a `Set` runs to its end, and the `Get` goes on. -/
def overwritten : List (Action Unit Empty Call) :=
  [.spawn .get, .run 0 (), .run 0 (), .spawn (.set second), .run 1 (), .run 1 (), .run 1 (),
    .run 0 (), .spawn .get, .run 2 ()]

/-- A position with offset zero is set in memory only, and a `Get` follows. -/
def overlooked : List (Action Unit Empty Call) :=
  [.spawn (.set first), .run 0 (), .run 0 (), .run 0 (), .spawn (.set ⟨"bin.1", 0⟩), .run 1 (),
    .spawn .get, .run 2 (), .run 2 (), .run 2 ()]

/-- A `Get` that started after so many calls of `Set` had returned, all of them, got the position
of none of the latest, and memory has lost it. -/
structure Forgotten (s : Crew World Local) (since : Nat) (pos : Position) : Prop where
  got : s.threads[2]? = some (.got since pos)
  completed : s.world.completed = since
  memory : s.world.buffer.lastPos = pos
  stale : ¬ SetSince s.world since pos

theorem positions_forgotten :
    Forgotten ((positioner 100).run (initial (some first)) overwritten) 1 first ∧
    Forgotten ((positioner 100).run (initial none) overlooked) 2 first := by
  refine ⟨⟨rfl, rfl, rfl, ?_⟩, rfl, rfl, rfl, ?_⟩
  · rintro ⟨i, hi, hset⟩
    have hset' : [second][i]? = some first := hset
    match i with
    | 0 => exact absurd hset' (by decide)
    | i + 1 => cases hset'
  · rintro ⟨i, hi, hset⟩
    have hset' : [first, ⟨"bin.1", 0⟩][i]? = some first := hset
    match i with
    | 0 => omega
    | 1 => exact absurd hset' (by decide)
    | i + 2 => cases hset'

/-- The first `Get` returns before the first `Set`, and a second one starts after it. -/
def ordered : List (Action Unit Empty Call) :=
  [.spawn .get, .run 0 (), .run 0 (), .run 0 (), .spawn (.set second), .run 1 (), .spawn .get,
    .run 2 ()]

theorem positions_not_forgotten_ordered :
    (positioner 100).Meets Undisturbed (initial (some first)) ordered ∧
    SetSince ((positioner 100).run (initial (some first)) ordered).world 1 second := by
  have hmeets : (positioner 100).Meets Undisturbed (initial (some first)) ordered := by
    refine ⟨?_, ?_, ?_, ?_, ?_, ?_, ?_, ?_, trivial⟩ <;> rintro i label l ha hl <;> cases ha <;>
      cases hl <;> decide
  refine ⟨hmeets, ?_⟩
  exact (positions_not_forgotten 100 (some first) ordered hmeets).1 2 1 second rfl Nat.one_pos

end Fries.Canal
