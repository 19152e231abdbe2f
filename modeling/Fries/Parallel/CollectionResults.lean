import Fries.Lib.Schedule
import Fries.Parallel.CollectionInvariant
import Mathlib.Data.List.Induction

/-! What a call over a list of values returns, and what became of each value. -/
namespace Fries.Parallel.Collection

variable {T R E : Type} {c : Config} {kind : Kind} {values : List T} {zero : R} {w : World T R E}
  {stage : Stage R E} {phase : Phase} {l : Local R E} {n : Progress (World T R E) (Local R E)}
  {results : Option (List (Result R E))} {err : Option E} {i : Nat} {r : Result R E}

/-- The steps a function of the group has left. -/
def Phase.left : Phase → Nat
  | .checking _ => 3
  | .calling _ => 2
  | .releasing => 1
  | .done => 0

def Local.left : Local R E → Nat
  | .main stage => stage.left
  | .task phase => phase.left
  | .panicked => 0

/-- Every step brings the call closer to its end. -/
theorem left_moves (h : Moves c kind values w l n) :
    n.state.left + System.total Local.left n.started.toList + 5 * (values.length - n.world.next) <
      l.left + 5 * (values.length - w.next) := by
  cases h with
  | stay _ hleft => exact Nat.add_lt_add_right hleft _
  | submit hlt =>
    simp only [Local.left, Stage.left, Phase.left, System.total, Option.toList_some]
    omega
  | drop | fail =>
    simp only [Local.left, Phase.left, System.total, Option.toList_none, fail_next]
    omega
  | _ =>
    simp only [Local.left, Stage.left, Phase.left, System.total, Option.toList_none]
    omega

/-- A function of the group can step until it is done. -/
theorem task_enabled (c : Config) (kind : Kind) (values : List T) (zero : R)
    (hactive : (Local.task phase : Local R E).active = true) (w : World T R E) :
    ∃ label n, step c kind values label (.task phase) w = some n := by
  refine ⟨.returns ⟨zero, none⟩, Option.isSome_iff_exists.mp ?_⟩
  cases phase with
  | checking index =>
    simp only [step, taskStep]
    repeat' split
    all_goals rfl
  | calling | releasing => rfl
  | done => cases hactive

/-- The caller can step, except that it waits for room in the group and for its end. -/
theorem main_enabled (kind : Kind) (values : List T)
    (hsubmit : stage = .submitting → w.active < c.limit) (hwait : stage = .waiting → w.active = 0)
    (hnot : ∀ results err, stage ≠ .returned results err) (label : Label R E) :
    ∃ n, step c kind values label (.main stage) w = some n := by
  refine Option.isSome_iff_exists.mp ?_
  cases stage with
  | start | scheduling | joined =>
    simp only [step, mainStep]
    split <;> rfl
  | submitting => simp [step, mainStep, hsubmit rfl]
  | waiting =>
    simp only [step, mainStep, hwait rfl, if_true]
    split <;> rfl
  | returned results err => exact absurd rfl (hnot results err)

theorem enabled_of_step {label : Label R E} (zero : R) (e : Change E)
    (h : step c kind values label l w = some n) :
    ∃ label n, step c kind values label l (shift e w) = some n := by
  cases l with
  | panicked => cases h
  | task phase =>
    refine task_enabled c kind values zero ?_ _
    cases phase with
    | done => cases h
    | checking | calling | releasing => rfl
  | main stage =>
    refine ⟨label, main_enabled kind values ?_ ?_ ?_ label⟩
    · rintro rfl
      simp only [step, mainStep] at h
      split at h
      · cases e <;> assumption
      · cases h
    · rintro rfl
      simp only [step, mainStep] at h
      split at h
      · cases e <;> assumption
      · cases h
    · rintro results err rfl
      cases h

/-- The call has returned. -/
def Returned (s : Crew (World T R E) (Local R E)) : Prop :=
  ∃ results err, s.threads[0]? = some (.main (.returned results err))

/-- As long as the call has not returned, some thread can take a step. -/
theorem some_enabled {s : Crew (World T R E) (Local R E)}
    (hs : (outline c kind values zero).Holds s) (hnot : ¬ Returned s) :
    ∃ i label, (collection c kind values).Steps s i label := by
  have hmain : 1 = System.total (weight .main) s.threads := hs.counted .main
  obtain ⟨i, l, hl, hweight⟩ := System.exists_of_total_pos (weight .main) (hmain ▸ Nat.one_pos)
  cases l with
  | task | panicked => cases hweight
  | main stage =>
    obtain rfl : i = 0 := (hs.at_thread i _ hl).1 stage rfl
    by_cases hidle : s.world.active = 0
    · -- nobody is in its way, since the limit is positive
      have hopen : ∀ results err, stage ≠ .returned results err := by
        rintro results err rfl
        exact hnot ⟨results, err, hl⟩
      have hroom : s.world.active < c.limit := hidle ▸ c.limit_pos
      obtain ⟨n, hn⟩ := main_enabled kind values (fun _ => hroom) (fun _ => hidle) hopen .step
      exact ⟨0, .step, _, n, hl, hn⟩
    · have hactive : s.world.active = System.total (weight .active) s.threads := hs.counted .active
      obtain ⟨j, m, hm, hweight'⟩ :=
        System.exists_of_total_pos (weight .active) (hactive ▸ Nat.pos_of_ne_zero hidle)
      cases m with
      | main | panicked => cases hweight'
      | task phase =>
        have hphase : (Local.task phase : Local R E).active = true := by
          cases phase <;> first | rfl | cases hweight'
        obtain ⟨label, n, hn⟩ := task_enabled c kind values zero hphase s.world
        exact ⟨j, label, _, n, hm, hn⟩

/-- With fair scheduling the call returns. -/
theorem collection_returns {σ : Nat → Action (Label R E) (Change E) Empty}
    (hfair : ∀ i, (collection c kind values).Fair (initial values E zero) σ i) (n : Nat) :
    ∃ m, n ≤ m ∧ Returned ((collection c kind values).after (initial values E zero) σ m) :=
  System.Outline.terminates Returned Local.left (fun w => 5 * (values.length - w.next))
    (holds_initial E c kind values zero) hfair Empty.elim
    (fun h hw hat hcount => left_moves (step_moves hw hat.2 hcount h))
    (fun e w => by cases e <;> exact Nat.le_refl _) (fun h => enabled_of_step zero _ h)
    (fun _ hs hnot => some_enabled hs hnot) n

/-- All values with their indices, as the calls are recorded. -/
def indexed (values : List T) : List (Nat × T) := values.zipIdx.map Prod.swap

theorem mem_indexed {p : Nat × T} : p ∈ indexed values ↔ values[p.1]? = some p.2 := by
  obtain ⟨i, value⟩ := p
  simp [indexed, List.mk_mem_zipIdx_iff_getElem?]

theorem indexed_nodup (values : List T) : (indexed values).Nodup := by
  refine List.Nodup.of_map Prod.fst ?_
  have hfst : (indexed values).map Prod.fst = List.range values.length := by
    rw [indexed, List.map_map, List.range_eq_range']
    exact List.zipIdx_map_snd 0 values
  rw [hfst]
  exact List.nodup_range

theorem outcome_of_mem (hw : Inv kind values zero w) (hr : (i, some r) ∈ w.ends) :
    outcome w i = some r := by
  rw [outcome, Custody.lookup_of_mem hw.wf hr]
  rfl

theorem mem_of_outcome (h : outcome w i = some r) : (i, some r) ∈ w.ends := by
  obtain ⟨a, ha, hr⟩ := Option.bind_eq_some_iff.mp h
  obtain rfl : a = some r := hr
  obtain ⟨before, after, hsplit, -⟩ := List.lookup_eq_some_iff.mp ha
  rw [hsplit]
  exact List.mem_append_right _ (List.mem_cons_self ..)

section

variable (hw : Inv kind values zero w) (hidle : w.active = 0)

include hw hidle

/-- When the group is idle, every value that was handed to it has come to its end. -/
theorem ended_of_idle (hi : i < w.next) : ∃ r, (i, r) ∈ w.ends :=
  Custody.ended_of_idle hw.wf (Nat.le_zero.mp (hidle ▸ hw.busy_le)) hi

theorem returned_of_called (hi : i ∈ w.calls.map Prod.fst) : ∃ r, (i, some r) ∈ w.ends := by
  obtain ⟨p, hp, rfl⟩ := List.mem_map.mp hi
  obtain ⟨r, hr⟩ := ended_of_idle hw hidle (hw.called p hp).2
  cases r with
  | some r => exact ⟨r, hr⟩
  | none => exact absurd hi (hw.dropped _ hr).2

/-- Without an error every call has returned. -/
theorem returned_of_success (herr : w.err = none) (hnext : w.next = values.length)
    (hi : i < values.length) : ∃ r, (i, some r) ∈ w.ends := by
  obtain ⟨r, hr⟩ := ended_of_idle hw hidle (hnext ▸ hi)
  cases r with
  | some r => exact ⟨r, hr⟩
  | none => simpa [herr] using (hw.dropped i hr).1

end

/-- Every call has returned, so every value was called for, and none twice. -/
theorem calls_perm (hw : Inv kind values zero w)
    (hall : ∀ i < values.length, ∃ r, (i, some r) ∈ w.ends) : w.calls.Perm (indexed values) := by
  rw [List.perm_ext_iff_of_nodup hw.once.of_map (indexed_nodup values)]
  intro p
  rw [mem_indexed]
  constructor
  · intro hp
    exact (hw.called p hp).1
  · intro hp
    obtain ⟨r, hr⟩ := hall p.1 (List.getElem?_eq_some_iff.mp hp).1
    obtain ⟨q, hq, heq⟩ := List.mem_map.mp (hw.ended p.1 r hr)
    have hvalue := (hw.called q hq).1
    rw [heq, hp] at hvalue
    have hqp : q = p := Prod.ext heq (Option.some.inj hvalue).symm
    exact hqp ▸ hq

/-- What success of `ForEach` and `Map` means. -/
structure Passed (values : List T) (w : World T R E) : Prop where
  calls : w.calls.Perm (indexed values)
  values : ∀ i < values.length, ∃ value, (i, some ⟨value, none⟩) ∈ w.ends

theorem passed_of_returned (hw : Inv kind values zero w)
    (hat : AtStage kind values w (.returned results none)) (hkind : kind ≠ .mapResults) :
    Passed values w := by
  obtain ⟨hidle, -, hdone⟩ := hat
  obtain ⟨herr, hnext⟩ := hdone rfl
  have hall : ∀ i < values.length, ∃ r, (i, some r) ∈ w.ends :=
    fun i hi => returned_of_success hw hidle herr hnext hi
  refine ⟨calls_perm hw hall, fun i hi => ?_⟩
  obtain ⟨⟨value, failure⟩, hr⟩ := hall i hi
  cases failure with
  | none => exact ⟨value, hr⟩
  | some failure => simpa [herr] using hw.failed hkind i _ hr rfl

theorem stored_of_mem (hw : Inv .map values zero w) {value : R}
    (hr : (i, some ⟨value, none⟩) ∈ w.ends) : stored .map zero (outcome w i) = ⟨value, none⟩ := by
  rw [outcome_of_mem hw hr]
  rfl

/-- What `MapResults` fills in for the calls that were not made. -/
theorem fillErrors_getElem? (hw : Inv .mapResults values zero w) (err : Option E)
    (hi : i < values.length) : (fillErrors w.results w.completed err)[i]? =
      some ((outcome w i).getD ⟨zero, err⟩) := by
  have hresult : w.results[i]? = some (stored .mapResults zero (outcome w i)) := by
    rw [hw.results]
    simp [hi]
  have hcompleted : w.completed.getD i false = (outcome w i).isSome := by
    rw [hw.completed rfl]
    simp [hi]
  cases err with
  | none =>
    rw [fillErrors, hresult]
    cases outcome w i <;> rfl
  | some err =>
    rw [fillErrors, List.getElem?_mapIdx, hresult, Option.map_some, hcompleted]
    cases outcome w i <;> rfl

theorem fillErrors_length (hw : Inv kind values zero w) (err : Option E) :
    (fillErrors w.results w.completed err).length = values.length := by
  have hlength : w.results.length = values.length := by
    rw [hw.results]
    simp
  cases err with
  | none => exact hlength
  | some err => rw [fillErrors, List.length_mapIdx, hlength]

/-- The predicate accepted the value. -/
def accepted (w : World T Bool E) (i : Nat) : Bool := (outcome w i).any Result.value

/-- The loop of `Filter` over a table of results. -/
theorem filterValues_table (f : Nat → Result Bool E) (values : List T) :
    filterValues values ((List.range values.length).map f) =
      (values.zipIdx.filter fun p => (f p.2).value).map Prod.fst := by
  -- induction from the end: the last value is the last one looked at
  induction values using List.reverseRecOn with
  | nil => rfl
  | append_singleton values value ih =>
    have hinit : ((List.range values.length).map f).zipIdx.filterMap
        (fun p => if p.1.value then (values ++ [value])[p.2]? else none) =
          filterValues values ((List.range values.length).map f) := by
      refine List.filterMap_congr fun p hp => ?_
      have hlt : p.2 < values.length := by
        have hlt := (List.getElem?_eq_some_iff.mp (List.mem_zipIdx_iff_getElem?.mp hp)).1
        simpa using hlt
      rw [List.getElem?_append_left hlt]
    rw [filterValues, List.length_append, List.length_singleton, List.range_succ, List.map_append,
      List.zipIdx_append, List.filterMap_append, hinit, ih, List.zipIdx_append, List.filter_append,
      List.map_append]
    congr 1
    cases hlast : (f values.length).value <;> simp [hlast]

/-- Where the caller stands when it has returned. -/
theorem at_returned {actions : List (Action (Label R E) (Change E) Empty)}
    (h : ((collection c kind values).run (initial values E zero) actions).threads[0]? =
      some (.main (.returned results err))) :
    AtStage kind values ((collection c kind values).run (initial values E zero) actions).world
      (.returned results err) :=
  ((holds_run c kind values zero actions).at_thread 0 _ h).2

/-- In every schedule: `ForEach`, `Map` and `Filter` return a nil error only if the function was
called once for every value and passed, with its results in the order of the values, and
`MapResults` returns for each value what its call returned or the error it returns itself. In every
schedule that is fair to its threads, a call returns. -/
theorem collections_account_for_values (E : Type) (c : Config) (values : List T) (zero : R) :
    (∀ actions : List (Action (Label R E) (Change E) Empty),
      let s := (collection c .forEach values).run (initial values E zero) actions
      ∀ results, s.threads[0]? = some (.main (.returned results none)) → Passed values s.world) ∧
    (∀ actions : List (Action (Label R E) (Change E) Empty),
      let s := (collection c .map values).run (initial values E zero) actions
      ∀ results, s.threads[0]? = some (.main (.returned results none)) →
        Passed values s.world ∧ ∃ list, results = some list ∧ list.length = values.length ∧
          ∀ i value, (i, some ⟨value, none⟩) ∈ s.world.ends → list[i]? = some ⟨value, none⟩) ∧
    (∀ actions : List (Action (Label Bool E) (Change E) Empty),
      let s := (collection c .map values).run (initial values E false) actions
      ∀ results err kept, s.threads[0]? = some (.main (.returned results err)) →
        filterReturn values results err = (kept, none) →
        Passed values s.world ∧
          kept = some ((values.zipIdx.filter fun p => accepted s.world p.2).map Prod.fst)) ∧
    (∀ actions : List (Action (Label R E) (Change E) Empty),
      let s := (collection c .mapResults values).run (initial values E zero) actions
      ∀ results err, s.threads[0]? = some (.main (.returned results err)) →
        ∃ list, results = some list ∧ list.length = values.length ∧
          (∀ i ∈ s.world.calls.map Prod.fst, ∃ r, (i, some r) ∈ s.world.ends ∧ list[i]? = some r) ∧
          ∀ i < values.length, i ∉ s.world.calls.map Prod.fst →
            ∃ e, err = some e ∧ list[i]? = some ⟨zero, some e⟩) ∧
    ∀ (kind : Kind) (σ : Nat → Action (Label R E) (Change E) Empty),
      (∀ i, (collection c kind values).Fair (initial values E zero) σ i) →
      ∀ n, ∃ m, n ≤ m ∧ ∃ results err,
        ((collection c kind values).after (initial values E zero) σ m).threads[0]? =
          some (.main (.returned results err)) := by
  refine ⟨?_, ?_, ?_, ?_, fun kind σ hfair n => collection_returns hfair n⟩
  · intro actions s results hreturned
    exact passed_of_returned (holds_run c .forEach values zero actions).inv
      (at_returned hreturned) nofun
  · intro actions s results hreturned
    have hw : Inv .map values zero s.world := (holds_run c .map values zero actions).inv
    have hat := at_returned hreturned
    obtain rfl : some s.world.results = results := by
      injection hat.2.1
    refine ⟨passed_of_returned hw hat nofun, _, rfl, ?_, ?_⟩
    · rw [hw.results]
      simp
    · intro i value hr
      obtain ⟨p, hp, rfl⟩ := List.mem_map.mp (hw.ended i _ hr)
      have hlt := (List.getElem?_eq_some_iff.mp (hw.called p hp).1).1
      rw [hw.results, List.getElem?_map, List.getElem?_range hlt, Option.map_some,
        stored_of_mem hw hr]
  · intro actions s results err kept hreturned hkept
    cases err with
    | some err => cases hkept
    | none =>
      have hw : Inv .map values false s.world := (holds_run c .map values false actions).inv
      have hat := at_returned hreturned
      obtain rfl : some s.world.results = results := by
        injection hat.2.1
      have hpassed := passed_of_returned hw hat nofun
      refine ⟨hpassed, ?_⟩
      obtain rfl : some (filterValues values s.world.results) = kept := congrArg Prod.fst hkept
      rw [hw.results, filterValues_table]
      congr 2
      refine List.filter_congr fun p hp => ?_
      have hlt := (List.getElem?_eq_some_iff.mp (List.mem_zipIdx_iff_getElem?.mp hp)).1
      obtain ⟨value, hr⟩ := hpassed.values p.2 hlt
      rw [stored_of_mem hw hr, accepted, outcome_of_mem hw hr]
      rfl
  · intro actions s results err hreturned
    have hw : Inv .mapResults values zero s.world :=
      (holds_run c .mapResults values zero actions).inv
    obtain ⟨hidle, hresults, hdone⟩ := at_returned hreturned
    obtain rfl : some (fillErrors s.world.results s.world.completed err) = results := by
      injection hresults
    refine ⟨_, rfl, fillErrors_length hw err, ?_, ?_⟩
    · intro i hi
      obtain ⟨r, hr⟩ := returned_of_called hw hidle hi
      obtain ⟨p, hp, rfl⟩ := List.mem_map.mp hi
      have hlt := (List.getElem?_eq_some_iff.mp (hw.called p hp).1).1
      exact ⟨r, hr, by rw [fillErrors_getElem? hw err hlt, outcome_of_mem hw hr]; rfl⟩
    · intro i hlt hi
      have houtcome : outcome s.world i = none := by
        cases hlookup : outcome s.world i with
        | none => rfl
        | some r => exact absurd (hw.ended i r (mem_of_outcome hlookup)) hi
      cases err with
      | some e => exact ⟨e, rfl, by rw [fillErrors_getElem? hw _ hlt, houtcome]; rfl⟩
      | none =>
        obtain ⟨herr, hnext⟩ := hdone rfl
        obtain ⟨r, hr⟩ := returned_of_success hw hidle herr hnext hlt
        exact absurd (hw.ended i r hr) hi

def pair : Config := ⟨2, Nat.two_pos⟩

/-- Both values are handed to the group and called for; the second call returns first. -/
def crossed {R : Type} (first second : R) : List (Action (Label R String) (Change String) Empty) :=
  [.run 0 .step, .run 0 .step, .run 0 .step, .run 0 .step, .run 0 .step, .run 0 .step,
    .run 1 .step, .run 2 .step, .run 2 (.returns ⟨second, none⟩), .run 1 (.returns ⟨first, none⟩),
    .run 1 .step, .run 2 .step, .run 0 .step, .run 0 .step]

/-- The context is canceled while the first call is made, which then fails. -/
def cut : List (Action (Label Nat String) (Change String) Empty) :=
  [.run 0 .step, .run 0 .step, .run 0 .step, .run 1 .step, .shift (.cancel "stop"),
    .shift .propagate, .run 0 .step, .run 1 (.returns ⟨10, some "bad"⟩), .run 1 .step,
    .run 0 .step, .run 0 .step]

def crossedForever (n : Nat) : Action (Label Nat String) (Change String) Empty :=
  (crossed 10 20).getD n (.run 0 .step)

theorem crossedForever_fair (i : Nat) :
    (collection pair .map ["a", "b"]).Fair (initial ["a", "b"] String 0) crossedForever i := by
  have hthreads : ((collection pair .map ["a", "b"]).run (initial ["a", "b"] String 0)
      (crossed 10 20)).threads =
        [.main (.returned (some [⟨10, none⟩, ⟨20, none⟩]) none), .task .done, .task .done] := rfl
  refine System.fair_getD ?_ i
  rw [hthreads]
  intro l hl i label w
  simp only [List.mem_cons, List.not_mem_nil, or_false] at hl
  rcases hl with rfl | rfl | rfl <;> rfl

theorem collections_account_for_values_crossed :
    Passed ["a", "b"] ((collection pair .forEach ["a", "b"]).run
      (initial ["a", "b"] String 0) (crossed 10 20)).world ∧
    Passed ["a", "b"] ((collection pair .map ["a", "b"]).run
      (initial ["a", "b"] String 0) (crossed 10 20)).world ∧
    some ["b"] = some ((["a", "b"].zipIdx.filter fun p => accepted ((collection pair .map
      ["a", "b"]).run (initial ["a", "b"] String false) (crossed false true)).world p.2).map
        Prod.fst) ∧
    (∃ e, some "stop" = some e ∧
      [(⟨10, some "bad"⟩ : Result Nat String), ⟨0, some "stop"⟩][1]? = some ⟨0, some e⟩) ∧
    ∃ m, 0 ≤ m ∧ ∃ results err, ((collection pair .map ["a", "b"]).after
      (initial ["a", "b"] String 0) crossedForever m).threads[0]? =
        some (.main (.returned results err)) := by
  obtain ⟨hforEach, hmap, hfilter, hresults, hreturns⟩ :=
    collections_account_for_values String pair ["a", "b"] 0
  obtain ⟨list, hlist, -, -, hmissing⟩ := hresults cut _ _ rfl
  cases hlist
  refine ⟨hforEach (crossed 10 20) none rfl, (hmap (crossed 10 20) _ rfl).1,
    (hfilter (crossed false true) _ none _ rfl rfl).2, hmissing 1 (by decide) (by decide), ?_⟩
  exact hreturns .map crossedForever crossedForever_fair 0

end Fries.Parallel.Collection
