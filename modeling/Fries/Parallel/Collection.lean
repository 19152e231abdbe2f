import Fries.Lib.Threads

/-! `ForEach`, `Map`, `MapResults` and `Filter`: calls with bounded concurrency in an `errgroup`. -/
namespace Fries.Parallel.Collection

inductive CallError
  | invalidLimit (limit : Int)
  | nilFunc (name : String)
  deriving DecidableEq

structure Config where
  limit : Nat
  limit_pos : 0 < limit

theorem validLimit_pos {limit : Int} (h : ¬ limit ≤ 0) : 0 < limit.toNat := by omega

def validate (name : String) (limit : Int) (fn : Bool) : Except CallError Config :=
  if h : limit ≤ 0 then .error (.invalidLimit limit)
  else if fn then .ok ⟨limit.toNat, validLimit_pos h⟩
  else .error (.nilFunc name)

def forEachConfig : Int → Bool → Except CallError Config := validate "ForEach"

def mapConfig : Int → Bool → Except CallError Config := validate "Map"

def mapResultsConfig : Int → Bool → Except CallError Config := validate "MapResults"

def filterConfig : Int → Bool → Except CallError Config := validate "Filter"

/-- Which function it is; `Filter` is a `Map` whose results it reads in the end. -/
inductive Kind
  | forEach
  | map
  | mapResults
  deriving DecidableEq

structure Result (R E : Type) where
  value : R
  err : Option E
  deriving DecidableEq

/-- The causes of the caller's context and of the group's; the functions of the group that have not
ended, its error, and what they share. `next` counts the values handed to the group. The rest is
history: the calls, and what became of each value. -/
structure World (T R E : Type) where
  cause : Option E
  groupCause : Option E
  active : Nat
  err : Option E
  results : List (Result R E)
  completed : List Bool
  next : Nat
  calls : List (Nat × T)
  ends : List (Nat × Option (Result R E))

/-- Where the caller is. -/
inductive Stage (R E : Type)
  | start
  | scheduling
  | submitting
  | waiting
  | joined
  | returned (results : Option (List (Result R E))) (err : Option E)
  deriving DecidableEq

/-- Where a function of the group is. -/
inductive Phase
  | checking (index : Nat)
  | calling (index : Nat)
  | releasing
  | done
  deriving DecidableEq

inductive Local (R E : Type)
  | main (stage : Stage R E)
  | task (phase : Phase)
  | panicked
  deriving DecidableEq

/-- What the function returns. -/
inductive Label (R E : Type)
  | step
  | returns (result : Result R E)

/-- The caller's context is canceled, and the group's learns of it. -/
inductive Change (E : Type)
  | cancel (cause : E)
  | propagate

section Group

variable {T R E : Type} (c : Config) (kind : Kind) (values : List T)

/-- A function of the group returns an error; only the first one counts. -/
def World.fail (w : World T R E) (err : E) : World T R E :=
  if w.err.isSome then w
  else { w with err := some err, groupCause := some (w.groupCause.getD err) }

/-- What is done with what the call for a value returned. -/
def World.finish (w : World T R E) (index : Nat) (result : Result R E) : World T R E :=
  let w := { w with ends := w.ends ++ [(index, some result)] }
  match kind with
  | .forEach =>
    match result.err with
    | some err => w.fail err
    | none => w
  | .map =>
    match result.err with
    | some err => w.fail err
    | none => { w with results := w.results.set index ⟨result.value, none⟩ }
  | .mapResults =>
    { w with results := w.results.set index result, completed := w.completed.set index true }

/-- The results `MapResults` returns: calls that did not complete get the error. -/
def fillErrors (results : List (Result R E)) (completed : List Bool) (err : Option E) :
    List (Result R E) :=
  match err with
  | none => results
  | some err => results.mapIdx fun index result =>
    if completed.getD index false then result else { result with err := some err }

/-- What the caller returns, given the error of `execute`. -/
def World.returns (w : World T R E) (err : Option E) : Stage R E :=
  match kind with
  | .forEach => .returned none err
  | .map => .returned (if err.isSome then none else some w.results) err
  | .mapResults => .returned (some (fillErrors w.results w.completed err)) err

/-- The loop of `Filter` over the results of `Map`. -/
def filterValues (values : List T) (results : List (Result Bool E)) : List T :=
  results.zipIdx.filterMap fun p => if p.1.value then values[p.2]? else none

/-- What `Filter` returns, given what `Map` returned. -/
def filterReturn (values : List T) (results : Option (List (Result Bool E))) (err : Option E) :
    Option (List T) × Option E :=
  if err.isSome then (none, err) else (some (filterValues values (results.getD [])), none)

/-- One step of the caller. -/
def mainStep (stage : Stage R E) (w : World T R E) :
    Option (Progress (World T R E) (Local R E)) :=
  let at_ (stage : Stage R E) (w : World T R E) : Progress (World T R E) (Local R E) :=
    ⟨.main stage, w, none⟩
  match stage with
  | .start =>
    if values.length = 0 then some (at_ (w.returns kind none) w)
    else some (at_ .scheduling { w with groupCause := w.cause })
  | .scheduling =>
    if w.next < values.length ∧ w.groupCause = none then some (at_ .submitting w)
    else some (at_ .waiting w)
  | .submitting =>
    if w.active < c.limit then
      some ⟨.main .scheduling, { w with active := w.active + 1, next := w.next + 1 },
        some (.task (.checking w.next))⟩
    else none
  | .waiting =>
    if w.active = 0 then
      if w.err.isSome then some (at_ (w.returns kind w.err) w) else some (at_ .joined w)
    else none
  | .joined =>
    if w.next < values.length then some (at_ (w.returns kind w.cause) w)
    else some (at_ (w.returns kind none) w)
  | .returned .. => none

/-- One step of a function of the group. -/
def taskStep (label : Label R E) (phase : Phase) (w : World T R E) :
    Option (Progress (World T R E) (Local R E)) :=
  let at_ (phase : Phase) (w : World T R E) : Progress (World T R E) (Local R E) :=
    ⟨.task phase, w, none⟩
  match phase with
  | .checking index =>
    match w.groupCause with
    | some cause =>
      some (at_ .releasing (World.fail { w with ends := w.ends ++ [(index, none)] } cause))
    | none =>
      match values[index]? with
      | some value => some (at_ (.calling index) { w with calls := w.calls ++ [(index, value)] })
      | none => some ⟨.panicked, w, none⟩
  | .calling index =>
    match label with
    | .returns result => some (at_ .releasing (w.finish kind index result))
    | .step => none
  | .releasing => some (at_ .done { w with active := w.active - 1 })
  | .done => none

def step (label : Label R E) (l : Local R E) (w : World T R E) :
    Option (Progress (World T R E) (Local R E)) :=
  match l with
  | .main stage => mainStep c kind values stage w
  | .task phase => taskStep kind values label phase w
  | .panicked => none

/-- A context keeps its first cause. -/
def shift (change : Change E) (w : World T R E) : World T R E :=
  match change with
  | .cancel cause => { w with cause := some (w.cause.getD cause) }
  | .propagate => { w with groupCause := w.groupCause <|> w.cause }

def collection : System (World T R E) (Local R E) (Label R E) (Change E) Empty where
  enter call := nomatch call
  step _ := step c kind values
  shift := shift

/-- A call; `zero` is the zero value of the results. -/
def initial (E : Type) (zero : R) : Crew (World T R E) (Local R E) where
  world :=
    { cause := none, groupCause := none, active := 0, err := none
      results := List.replicate values.length ⟨zero, none⟩
      completed := List.replicate values.length false, next := 0, calls := [], ends := [] }
  threads := [.main .start]

end Group

end Fries.Parallel.Collection
