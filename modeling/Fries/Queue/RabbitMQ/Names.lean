import Fries.Queue.RabbitMQ.Queue

/-! The names of the broker's queues, whose roles are told apart after the last dot. -/
namespace Fries.RabbitQueue

open Fries.Queue

/-- What a queue of the broker is for. -/
inductive Role
  | ready
  | dead
  | delay (milliseconds : Nat)
  deriving DecidableEq

def Queue.roleQueue (q : Queue) (name : String) : Role → String
  | .ready => q.readyQueueName name
  | .dead => q.deadLetterQueueName name
  | .delay milliseconds => q.delayQueueName name (milliseconds * millisecond)

/-- The logical queue a name stands for. -/
def logicalName (name : String) : String := if name = "" then defaultQueue else name

/-- A name without its leading dot, if it has one. -/
def dropDot (name : String) : String :=
  match name.toList with
  | '.' :: rest => String.ofList rest
  | _ => name

def Role.suffix : Role → String
  | .ready => ""
  | .dead => ".dead"
  | .delay milliseconds => ".delay." ++ toString milliseconds

variable {q : Queue} {n n' : String} {r r' : Role}

theorem durationMillis_mul (m : Nat) : durationMillis (m * millisecond) = m := by
  have hms : millisecond = 1000000 := rfl
  unfold durationMillis
  rw [hms]
  rcases Nat.eq_zero_or_pos m with rfl | hm
  · rfl
  · rw [if_neg (by omega), if_neg (by omega), Int.mul_tdiv_cancel _ (by omega)]

/-- Every delay has the role of its whole milliseconds. -/
theorem delayQueueName_role (q : Queue) (name : String) (delay : Int) :
    q.delayQueueName name delay = q.roleQueue name (.delay (durationMillis delay).toNat) := by
  have hpos : 0 ≤ durationMillis delay := by
    unfold durationMillis
    split
    · exact Int.le_refl 0
    · split
      · decide
      · exact Int.tdiv_nonneg (by omega) (by decide)
  have hrole := durationMillis_mul (durationMillis delay).toNat
  rw [Int.toNat_of_nonneg hpos] at hrole
  simp only [Queue.roleQueue, Queue.delayQueueName, Int.toNat_of_nonneg hpos, hrole]

theorem roleQueue_eq (q : Queue) : ∃ before, ∀ name role,
    q.roleQueue name role = before ++ dropDot (logicalName name) ++ role.suffix := by
  have hqueue : ∀ name, q.queueName name = if q.keyPrefix = "" then dropDot (logicalName name)
      else q.keyPrefix ++ "." ++ dropDot (logicalName name) := fun _ => rfl
  have hname : ∃ before, ∀ name, q.queueName name = before ++ dropDot (logicalName name) := by
    by_cases hprefix : q.keyPrefix = ""
    · refine ⟨"", fun name => ?_⟩
      rw [hqueue, if_pos hprefix, String.empty_append]
    · refine ⟨q.keyPrefix ++ ".", fun name => ?_⟩
      rw [hqueue, if_neg hprefix]
  obtain ⟨before, hname⟩ := hname
  refine ⟨before, fun name role => ?_⟩
  cases role with
  | ready =>
    simp only [Queue.roleQueue, Queue.readyQueueName, hname, Role.suffix, String.append_empty]
  | dead => simp only [Queue.roleQueue, Queue.deadLetterQueueName, hname, Role.suffix]
  | delay m =>
    simp only [Queue.roleQueue, Queue.delayQueueName, hname, Role.suffix, durationMillis_mul]
    rw [String.append_assoc]
    rfl

/-- The last dot splits a list in one way. -/
theorem last_dot {α : Type} {dot : α} {a b d e : List α} (hd : dot ∉ d) (he : dot ∉ e)
    (h : a ++ dot :: d = b ++ dot :: e) : a = b ∧ d = e := by
  rcases List.append_eq_append_iff.mp h with ⟨m, rfl, hm⟩ | ⟨m, rfl, hm⟩
  · cases m with
    | nil => exact ⟨by simp, (List.cons.inj hm).2⟩
    | cons x m =>
      obtain ⟨-, rfl⟩ := List.cons.inj hm
      simp at hd
  · cases m with
    | nil => exact ⟨by simp, (List.cons.inj hm).2.symm⟩
    | cons x m =>
      obtain ⟨-, rfl⟩ := List.cons.inj hm
      simp at he

/-- What follows the last dot in the queue names of a role other than ready. -/
def Role.tail : Role → List Char
  | .ready => []
  | .dead => "dead".toList
  | .delay milliseconds => (toString milliseconds).toList

def Role.stem : Role → List Char
  | .delay _ => ".delay".toList
  | _ => []

theorem digit_of_mem {m : Nat} {c : Char} (h : c ∈ (toString m).toList) : c.isDigit = true := by
  have hmem : c ∈ Nat.toDigits 10 m := by simpa [toString, Nat.repr] using h
  exact Nat.isDigit_of_mem_toDigits (by decide) (by decide) hmem

theorem dot_not_mem_tail (r : Role) : '.' ∉ r.tail := by
  cases r with
  | ready => exact List.not_mem_nil
  | dead => decide
  | delay m =>
    intro h
    have := digit_of_mem h
    revert this
    decide

theorem suffix_split (h : r ≠ .ready) : r.suffix.toList = r.stem ++ '.' :: r.tail := by
  cases r with
  | ready => exact absurd rfl h
  | dead => rfl
  | delay m =>
    have hdot : ".delay.".toList = ".delay".toList ++ ['.'] := by decide
    calc (Role.delay m).suffix.toList
        = ".delay.".toList ++ (toString m).toList := String.toList_append
      _ = ".delay".toList ++ ['.'] ++ (toString m).toList := by rw [hdot]
      _ = ".delay".toList ++ '.' :: (toString m).toList := List.append_assoc ..

theorem tail_injective (h : r ≠ .ready) (h' : r' ≠ .ready) (ht : r.tail = r'.tail) : r = r' := by
  have hd : ∀ m : Nat, "dead".toList ≠ (toString m).toList := by
    intro m hm
    have hmem : 'd' ∈ (toString m).toList := by
      rw [← hm]
      decide
    have hdigit := digit_of_mem hmem
    revert hdigit
    decide
  cases r with
  | ready => exact absurd rfl h
  | dead =>
    cases r' with
    | ready => exact absurd rfl h'
    | dead => rfl
    | delay m => exact absurd ht (hd m)
  | delay m =>
    cases r' with
    | ready => exact absurd rfl h'
    | dead => exact absurd ht.symm (hd m)
    | delay m' =>
      have hdigits : Nat.toDigits 10 m = Nat.toDigits 10 m' := by
        simpa [Role.tail, toString, Nat.repr] using ht
      rw [← Nat.ofDigitChars_ten_toDigits (n := m), hdigits, Nat.ofDigitChars_ten_toDigits]

/-- Names with two roles other than ready are alike only if the roles and the rest are. -/
theorem suffix_injective {a b : String} (h : r ≠ .ready) (h' : r' ≠ .ready)
    (hab : a ++ r.suffix = b ++ r'.suffix) : r = r' ∧ a = b := by
  have hl := congrArg String.toList hab
  rw [String.toList_append, String.toList_append, suffix_split h, suffix_split h',
    ← List.append_assoc, ← List.append_assoc] at hl
  obtain ⟨-, ht⟩ := last_dot (dot_not_mem_tail r) (dot_not_mem_tail r') hl
  obtain rfl := tail_injective h h' ht
  exact ⟨rfl, (String.append_left_inj _).mp hab⟩

/-- Two names differ only in a leading dot, or a ready queue is named like the other role's
queue. -/
def Confusable (n : String) (r : Role) (n' : String) (r' : Role) : Prop :=
  (r = r' ∧ dropDot n = dropDot n') ∨ (r = .ready ∧ dropDot n = dropDot n' ++ r'.suffix) ∨
    (r' = .ready ∧ dropDot n' = dropDot n ++ r.suffix)

theorem suffix_eq_iff : dropDot n ++ r.suffix = dropDot n' ++ r'.suffix ↔ Confusable n r n' r' := by
  constructor
  · intro h
    by_cases hr : r = .ready
    · subst hr
      exact .inr (.inl ⟨rfl, by simpa [Role.suffix] using h⟩)
    · by_cases hr' : r' = .ready
      · subst hr'
        exact .inr (.inr ⟨rfl, by simpa [Role.suffix] using h.symm⟩)
      · exact .inl (suffix_injective hr hr' h)
  · rintro (⟨rfl, h⟩ | ⟨rfl, h⟩ | ⟨rfl, h⟩)
    · rw [h]
    · simpa [Role.suffix] using h
    · simpa [Role.suffix] using h.symm

/-- Two pairs of a logical queue and a role have different queues exactly if they cannot be
confused. -/
theorem role_queues_distinct (q : Queue) (n n' : String) (r r' : Role) :
    q.roleQueue n r ≠ q.roleQueue n' r' ↔ ¬ Confusable (logicalName n) r (logicalName n') r' := by
  obtain ⟨before, hname⟩ := roleQueue_eq q
  rw [hname, hname, String.append_assoc, String.append_assoc, ne_eq, String.append_right_inj,
    suffix_eq_iff]

theorem role_queues_distinct_orders :
    (logicalName "orders", Role.ready) ≠ (logicalName "orders", Role.delay 1500) ∧
      (newQueue true [.withPrefix "app."]).roleQueue "orders" .ready ≠
        (newQueue true [.withPrefix "app."]).roleQueue "orders" (.delay 1500) := by
  refine ⟨by decide, (role_queues_distinct _ _ _ _ _).mpr ?_⟩
  rintro (⟨h, -⟩ | ⟨-, h⟩ | ⟨h, -⟩)
  · cases h
  · revert h
    decide
  · cases h

/-- A consumer of the queue `orders.dead` gets the dead letters of `orders`, one of
`orders.delay.1500` its delayed tasks, and one of `.orders` its ready tasks. -/
theorem role_queues_shared :
    let q := newQueue true []
    (logicalName "orders.dead", Role.ready) ≠ (logicalName "orders", Role.dead) ∧
      q.roleQueue "orders.dead" .ready = q.roleQueue "orders" .dead ∧
      (logicalName "orders.delay.1500", Role.ready) ≠ (logicalName "orders", Role.delay 1500) ∧
      q.roleQueue "orders.delay.1500" .ready = q.roleQueue "orders" (.delay 1500) ∧
      (logicalName ".orders", Role.ready) ≠ (logicalName "orders", Role.ready) ∧
      q.roleQueue ".orders" .ready = q.roleQueue "orders" .ready := by
  decide

end Fries.RabbitQueue
