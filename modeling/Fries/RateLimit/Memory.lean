import Fries.Lib.Heap
import Fries.RateLimit.Arrivals
import Mathlib.Data.List.AList
import Mathlib.Data.List.Perm.Basic

/-! The in-memory store. Map and heap share records by pointer, so both hold numbers of `cells`. -/
namespace Fries.RateLimit.Memory

structure Record where
  key : String
  tat : Int
  index : Int
  deriving DecidableEq, Repr

structure Store where
  records : AList fun _ : String => Nat
  expirations : List Nat
  cells : Nat → Record
  next : Nat

def new : Store := ⟨∅, [], fun _ => ⟨"", 0, 0⟩, 0⟩

/-- The record at a place of the heap. -/
def Store.slot (s : Store) (i : Nat) : Nat := s.expirations.getD i 0

def Store.setIndex (s : Store) (p : Nat) (index : Int) : Store :=
  { s with cells := Function.update s.cells p { s.cells p with index := index } }

namespace ExpirationHeap

def len (s : Store) : Nat := s.expirations.length

def less (s : Store) (i j : Nat) : Bool := (s.cells (s.slot i)).tat < (s.cells (s.slot j)).tat

def swap (s : Store) (i j : Nat) : Store :=
  let s := { s with expirations := (s.expirations.set i (s.slot j)).set j (s.slot i) }
  let s := s.setIndex (s.slot i) i
  s.setIndex (s.slot j) j

def push (s : Store) (current : Nat) : Store :=
  let s := s.setIndex current (len s)
  { s with expirations := s.expirations ++ [current] }

def pop (s : Store) : Nat × Store :=
  let current := s.slot (len s - 1)
  let s := s.setIndex current (-1)
  (current, { s with expirations := s.expirations.dropLast })

end ExpirationHeap

open ExpirationHeap

def expirationHeap : Heap.Interface Store Nat := ⟨len, less, swap, push, pop⟩

/-- One record is popped and forgotten in each round. -/
def Store.cleanupLoop (now : Int) : Nat → Store → Store
  | 0, s => s
  | rounds + 1, s =>
    if 0 < len s ∧ (s.cells (s.slot 0)).tat ≤ now then
      let popped := expirationHeap.popMin s
      let s := popped.2
      cleanupLoop now rounds { s with records := s.records.erase (s.cells popped.1).key }
    else s

def Store.cleanup (s : Store) (now : Int) : Store := s.cleanupLoop now (len s)

def remaining (now tat interval burstOffset : Int) : Int :=
  let available := now + burstOffset - tat
  if available ≤ 0 then 0 else available.tdiv interval

def microseconds (value : Int) : Int := if value ≤ 0 then 0 else value * microsecond

/-- The write of an allowed `Take`: an existing record is changed in place and moved, a new
one is allocated and pushed. -/
def Store.save (s : Store) (key : String) (newTAT : Int) : Store :=
  match s.records.lookup key with
  | some current =>
    let s := { s with cells := Function.update s.cells current { s.cells current with tat := newTAT } }
    expirationHeap.fix s (s.cells current).index.toNat
  | none =>
    let current := s.next
    let s :=
      { s with
        cells := Function.update s.cells current ⟨key, newTAT, 0⟩
        next := s.next + 1
        records := s.records.insert key current }
    expirationHeap.add s current

def Store.take (s : Store) (ctx : Ctx) (clock : Int) (request : TakeRequest) :
    Except Error Decision × Store :=
  match validateContext ctx with
  | some err => (.error err, s)
  | none =>
    match ctx.cause with
    | some cause => (.error (.cause cause), s)
    | none =>
      let now := unixMicro clock
      let s := s.cleanup now
      let interval := emissionInterval request.limit
      let burstOffset := interval * request.limit.burst
      let increment := interval * request.cost
      let tat :=
        match s.records.lookup request.key with
        | some current => if now < (s.cells current).tat then (s.cells current).tat else now
        | none => now
      let newTAT := tat + increment
      if newTAT > now + burstOffset then
        (.ok
          { limit := request.limit
            allowed := false
            remaining := remaining now tat interval burstOffset
            retryAfter := microseconds (newTAT - burstOffset - now)
            resetAfter := microseconds (tat - now) }, s)
      else
        (.ok
          { limit := request.limit
            allowed := true
            remaining := remaining now newTAT interval burstOffset
            retryAfter := 0
            resetAfter := microseconds (newTAT - now) }, s.save request.key newTAT)

def Store.reset (s : Store) (ctx : Ctx) (clock : Int) (key : String) : Except Error Unit × Store :=
  match validateContext ctx with
  | some err => (.error err, s)
  | none =>
    match ctx.cause with
    | some cause => (.error (.cause cause), s)
    | none =>
      let s := s.cleanup (unixMicro clock)
      match s.records.lookup key with
      | some current =>
        let s := (expirationHeap.remove s (s.cells current).index.toNat).2
        (.ok (), { s with records := s.records.erase key })
      | none => (.ok (), s)

def Store.step (s : Store) (now : Int) : Call → Reply × Store
  | .take ctx request => (s.take ctx now request).map .take id
  | .reset ctx key => (s.reset ctx now key).map .reset id

end Fries.RateLimit.Memory

namespace Fries.RateLimit

def memory : Machine Memory.Store Call Reply := ⟨Memory.new, Memory.Store.step⟩

namespace Memory

open ExpirationHeap

variable {s s' : Store} {now : Int} {key : String} {i j p k : Nat} {a : Arrivals}

/-- Every record of the heap knows its place. -/
def Store.Placed (s : Store) : Prop :=
  ∀ (i p : Nat), s.expirations[i]? = some p → (s.cells p).index = i

/-- The map and the heap hold the same records. -/
structure Store.Consistent (s : Store) : Prop where
  placed : s.Placed
  shared : ∀ key p, s.records.lookup key = some p ↔ p ∈ s.expirations ∧ (s.cells p).key = key
  allocated : ∀ p ∈ s.expirations, p < s.next

/-- The arrival times a store stands for. -/
def Store.arrivals (s : Store) : Arrivals :=
  fun key => (s.records.lookup key).map fun p => (s.cells p).tat

attribute [local simp] Store.arrivals

/-- `s'` is `s` with the heap in another order. -/
structure Rearranged (s s' : Store) : Prop where
  records : s'.records = s.records
  next : s'.next = s.next
  key : ∀ p, (s'.cells p).key = (s.cells p).key
  tat : ∀ p, (s'.cells p).tat = (s.cells p).tat
  perm : s'.expirations.Perm s.expirations
  placed : s'.Placed

theorem new_consistent : new.Consistent :=
  ⟨by intro i p h; simp [new] at h, by simp [new], by simp [new]⟩

theorem rearranged_refl (h : s.Placed) : Rearranged s s :=
  ⟨rfl, rfl, fun _ => rfl, fun _ => rfl, .rfl, h⟩

theorem rearranged_consistent (h : Rearranged s s') (hs : s.Consistent) : s'.Consistent := by
  refine ⟨h.placed, ?_, ?_⟩
  · intro key p
    rw [h.records, h.key, h.perm.mem_iff]
    exact hs.shared key p
  · intro p hp
    rw [h.next]
    exact hs.allocated p (h.perm.mem_iff.mp hp)

theorem rearranged_arrivals (h : Rearranged s s') : s'.arrivals = s.arrivals := by
  funext key
  simp only [Store.arrivals, h.records, h.tat]

theorem slot_eq (h : i < len s) : s.expirations[i]? = some (s.slot i) := by
  have hi : i < s.expirations.length := h
  simp [Store.slot, hi]

theorem slot_append {l more : List Nat} (h : s.expirations = l ++ more) (hk : k < l.length) :
    s.slot k = l.getD k 0 := by
  simp [Store.slot, h, List.getElem?_append_left hk]

/-- Two places hold different records, since each record knows its own. -/
theorem placed_inj (hs : s.Placed) (hi : s.expirations[i]? = some p)
    (hj : s.expirations[j]? = some p) : i = j := by
  have h := hs i p hi
  rw [hs j p hj] at h
  omega

section SetIndex

variable (s : Store) (q p : Nat) (index : Int)

@[simp] theorem setIndex_key : ((s.setIndex q index).cells p).key = (s.cells p).key := by
  by_cases h : p = q <;> simp [Store.setIndex, h]

@[simp] theorem setIndex_tat : ((s.setIndex q index).cells p).tat = (s.cells p).tat := by
  by_cases h : p = q <;> simp [Store.setIndex, h]

theorem setIndex_index : ((s.setIndex q index).cells p).index =
    if p = q then index else (s.cells p).index := by
  by_cases h : p = q <;> simp [Store.setIndex, h]

end SetIndex

theorem swap_slot_right (hj : j < len s) : (swap s i j).slot j = s.slot i := by
  have hj' : j < s.expirations.length := hj
  simp [swap, Store.slot, Store.setIndex, hj']

theorem swap_slot_left (hi : i < len s) : (swap s i j).slot i = s.slot j := by
  have hi' : i < s.expirations.length := hi
  by_cases h : j = i <;> simp [swap, Store.slot, Store.setIndex, hi', h]

theorem swap_slot_of_ne (hi : i ≠ k) (hj : j ≠ k) : (swap s i j).slot k = s.slot k := by
  simp [swap, Store.slot, Store.setIndex, hi, hj]

/-- The two places are exchanged and their records told. -/
theorem swap_eq (hi : i < len s) (hj : j < len s) :
    swap s i j = (Store.setIndex (Store.setIndex
      { s with expirations := (s.expirations.set i (s.slot j)).set j (s.slot i) }
      (s.slot j) i) (s.slot i) j) := by
  have hleft := swap_slot_left (j := j) hi
  have hright := swap_slot_right (i := i) hj
  simp only [swap, Store.slot, Store.setIndex] at hleft hright ⊢
  rw [hleft, hright]

theorem swap_placed (hs : s.Placed) (hi : i < len s) (hj : j < len s) :
    (swap s i j).Placed := by
  have hslot := slot_eq hi
  have hslot' := slot_eq hj
  rw [swap_eq hi hj]
  intro k p hk
  simp only [Store.setIndex, List.getElem?_set] at hk
  rw [setIndex_index, setIndex_index]
  by_cases hkj : j = k
  · subst k
    simp_all
  by_cases hki : i = k
  · subst k
    -- the record now at `i` comes from `j`, so it is not the one written last
    have hne : s.slot j ≠ s.slot i := fun he => hkj (placed_inj hs hslot' (he ▸ hslot))
    simp_all
  · have hold : s.expirations[k]? = some p := by simpa [hkj, hki] using hk
    have hne : p ≠ s.slot i := fun he => hki (placed_inj hs hslot (he ▸ hold))
    have hne' : p ≠ s.slot j := fun he => hkj (placed_inj hs hslot' (he ▸ hold))
    simp [hne, hne', hs k p hold]

theorem swap_rearranged {t : Store} (h : Rearranged s t) (hi : i < len s)
    (hj : j < len s) : Rearranged s (swap t i j) := by
  have hlen : len t = len s := h.perm.length_eq
  rw [← hlen] at hi hj
  have hperm : (swap t i j).expirations.Perm t.expirations := by
    have hi' : i < t.expirations.length := hi
    have hj' : j < t.expirations.length := hj
    simpa [swap, Store.setIndex, Store.slot, hi', hj'] using List.set_set_perm hi' hj'
  refine ⟨h.records, h.next, ?_, ?_, hperm.trans h.perm, swap_placed h.placed hi hj⟩
  · intro p
    simp [swap, h.key]
  · intro p
    simp [swap, h.tat]

theorem fix_rearranged (hs : s.Placed) (hi : i < len s) :
    Rearranged s (expirationHeap.fix s i) := by
  apply Heap.Interface.fix_keeps (P := Rearranged s) ?_ hi (rearranged_refl hs)
  intro t i j ht hi hj
  exact swap_rearranged ht hi hj

theorem push_placed (hs : s.Placed) (hp : p ∉ s.expirations) : (push s p).Placed := by
  intro k q hk
  have hk' : (s.expirations ++ [p])[k]? = some q := hk
  rcases Nat.lt_trichotomy k s.expirations.length with hlt | rfl | hgt
  · rw [List.getElem?_append_left hlt] at hk'
    have hne : q ≠ p := fun he => hp (he ▸ List.mem_of_getElem? hk')
    simp [push, setIndex_index, hne, hs k q hk']
  · have hq : p = q := by simpa using hk'
    simp [push, setIndex_index, hq, len]
  · have hout : (s.expirations ++ [p]).length ≤ k := by
      simp
      omega
    simp [List.getElem?_eq_none hout] at hk'

theorem add_rearranged (hs : (push s p).Placed) :
    Rearranged (push s p) (expirationHeap.add s p) := by
  apply Heap.Interface.add_keeps (P := Rearranged (push s p)) ?_ ?_ (rearranged_refl hs)
  · intro t i j ht hi hj
    exact swap_rearranged ht hi hj
  · simp [expirationHeap, push, len]

/-- The arrival time at a place of the heap. -/
def Store.due (s : Store) (i : Nat) : Int := (s.cells (s.slot i)).tat

/-- No record of the heap is due before the one its parent place holds. -/
def Store.Sorted (s : Store) : Prop := Heap.Sorted s.due (len s)

section Pop

theorem keyed : expirationHeap.Keyed Store.due where
  less s i j := by simp [expirationHeap, less, Store.due]
  len_swap s i j := by simp [expirationHeap, len, swap, Store.setIndex]
  swap s i j hi hj := by
    funext k
    have htat : ∀ p, ((swap s i j).cells p).tat = (s.cells p).tat := by simp [swap]
    show ((swap s i j).cells ((swap s i j).slot k)).tat = _
    rw [htat]
    unfold Heap.exchange Store.due
    by_cases hkj : k = j
    · subst hkj
      rw [swap_slot_right hj]
      split <;> simp_all
    · by_cases hki : k = i
      · subst hki
        simp [swap_slot_left hi]
      · rw [swap_slot_of_ne (Ne.symm hki) (Ne.symm hkj), if_neg hki, if_neg hkj]

/-- `t` is `s` in another order, with the record `p` last. -/
def Last (s : Store) (p : Nat) (t : Store) : Prop := Rearranged s t ∧ t.slot (len s - 1) = p

variable {t : Store}

/-- Whatever moves before it, the last record stays. -/
theorem swap_last (ht : Last s p t) (hi : i < len s - 1) (hj : j < len s - 1) :
    Last s p (swap t i j) := by
  refine ⟨swap_rearranged ht.1 (by omega) (by omega), ?_⟩
  rw [swap_slot_of_ne (by omega) (by omega)]
  exact ht.2

theorem last_of_swap (hs : s.Placed) (hi : i < len s) :
    Last s (s.slot i) (swap s i (len s - 1)) :=
  ⟨swap_rearranged (rearranged_refl hs) hi (by omega), swap_slot_right (by omega)⟩

/-- `heap.Pop` takes the root out of the heap. -/
theorem popMin_last (hs : s.Placed) (hlen : 0 < len s) :
    ∃ t, Last s (s.slot 0) t ∧ (s.Sorted → Heap.Sorted t.due (len s - 1)) ∧
      expirationHeap.popMin s = pop t := by
  refine Heap.Interface.popMin_eq (P := Last s (s.slot 0)) keyed ?_ hlen (last_of_swap hs hlen)
  intro t i j ht hi hj
  exact swap_last ht hi hj

/-- `heap.Remove` takes the given place out of the heap. -/
theorem remove_last (hs : s.Placed) (hi : i < len s) :
    ∃ t, Last s (s.slot i) t ∧ (s.Sorted → Heap.Sorted t.due (len s - 1)) ∧
      expirationHeap.remove s i = pop t := by
  apply Heap.Interface.remove_eq keyed ?_ hi
  · split
    · exact last_of_swap hs hi
    · rename_i he
      have hi : len s - 1 = i := Decidable.not_not.mp he
      exact ⟨rearranged_refl hs, by rw [hi]⟩
  · intro t i j ht hi hj
    exact swap_last ht hi hj

theorem last_eq_concat (ht : Last s p t) (hlen : 0 < len s) : ∃ l, t.expirations = l ++ [p] := by
  obtain ⟨hr, hslot⟩ := ht
  have hlen' : t.expirations.length = len s := hr.perm.length_eq
  rcases List.eq_nil_or_concat' t.expirations with hnil | ⟨l, q, hl⟩
  · rw [hnil, List.length_nil] at hlen'
    omega
  · have hq : q = p := by simpa [Store.slot, ← hlen', hl] using hslot
    exact ⟨l, hq ▸ hl⟩

variable {l : List Nat}

theorem pop_eq (hl : s.expirations = l ++ [p]) :
    pop s = (p, { s.setIndex p (-1) with expirations := l }) := by
  have hslot : s.slot (len s - 1) = p := by simp [Store.slot, len, hl]
  simp only [pop, hslot]
  simp [Store.setIndex, hl]

theorem notMem_of_concat (hs : s.Placed) (hl : s.expirations = l ++ [p]) : p ∉ l := by
  intro hp
  obtain ⟨k, hk⟩ := List.mem_iff_getElem?.mp hp
  have hlt : k < l.length := (List.getElem?_eq_some_iff.mp hk).1
  have hold : s.expirations[k]? = some p := by rw [hl, List.getElem?_append_left hlt, hk]
  have hend : s.expirations[l.length]? = some p := by simp [hl]
  have := placed_inj hs hold hend
  omega

/-- Once the last record is popped and forgotten, the rest is consistent. -/
theorem pop_consistent (hs : s.Consistent) (hl : s.expirations = l ++ [p])
    (hkey : (s.cells p).key = key) :
    let s' := { (pop s).2 with records := (pop s).2.records.erase key }
    s'.Consistent ∧ s'.arrivals = s.arrivals.reset key := by
  have hout := notMem_of_concat hs.placed hl
  have hmem : s.records.lookup key = some p := (hs.shared key p).mpr ⟨by simp [hl], hkey⟩
  rw [pop_eq hl]
  intro s'
  have hlookup : ∀ k, k ≠ key → s'.records.lookup k = s.records.lookup k :=
    fun k hk => AList.lookup_erase_ne hk
  have hgone : s'.records.lookup key = none := AList.lookup_erase _ _
  have hname : ∀ q, (s'.cells q).key = (s.cells q).key := fun q => setIndex_key s p q (-1)
  have htat : ∀ q, (s'.cells q).tat = (s.cells q).tat := fun q => setIndex_tat s p q (-1)
  refine ⟨⟨?_, ?_, ?_⟩, ?_⟩
  · intro k q hk
    have hk' : l[k]? = some q := hk
    have hne : q ≠ p := fun he => hout (he ▸ List.mem_of_getElem? hk')
    have hlt : k < l.length := (List.getElem?_eq_some_iff.mp hk').1
    have hold := hs.placed k q (by rw [hl, List.getElem?_append_left hlt, hk'])
    simpa [s', setIndex_index, hne] using hold
  · intro k q
    rw [hname]
    by_cases hk : k = key
    · subst k
      constructor
      · intro h
        simp [hgone] at h
      · rintro ⟨hq, hqk⟩
        have hq' := (hs.shared key q).mpr ⟨by simp [hl, show q ∈ l from hq], hqk⟩
        have heq : p = q := by simpa [hmem] using hq'
        exact absurd (heq ▸ hq) hout
    · rw [hlookup k hk, hs.shared k q, hl]
      constructor
      · rintro ⟨hq, hqk⟩
        have hne : q ≠ p := fun he => hk (by rw [← hqk, he, hkey])
        exact ⟨by simpa [hne] using hq, hqk⟩
      · rintro ⟨hq, hqk⟩
        exact ⟨List.mem_append_left _ hq, hqk⟩
  · intro q hq
    exact hs.allocated q (by simp [hl, show q ∈ l from hq])
  · funext k
    by_cases hk : k = key
    · subst k
      simp [Arrivals.reset, hgone]
    · simp [Arrivals.reset, hk, hlookup k hk, htat]

theorem pop_sorted (hl : s.expirations = l ++ [p]) (h : Heap.Sorted s.due (len s - 1))
    (records : AList fun _ : String => Nat) :
    Store.Sorted { (pop s).2 with records := records } := by
  have hlen : len s - 1 = l.length := by simp [len, hl]
  rw [pop_eq hl]
  refine Heap.sorted_congr (hlen ▸ h) ?_
  intro k hk
  show ((s.setIndex p (-1)).cells (l.getD k 0)).tat = s.due k
  rw [setIndex_tat, ← slot_append hl hk, Store.due]

end Pop

theorem level_reset_due (h : a.level now key = now) : (a.reset key).level now = a.level now := by
  rw [Arrivals.level_reset]
  nth_rewrite 2 [← h]
  exact Function.update_eq_self key (a.level now)

/-- `s'` is in order if `s` is, and stands at `now` for what `a` does. -/
structure Follows (now : Int) (s : Store) (a : Arrivals) (s' : Store) : Prop where
  consistent : s'.Consistent
  level : s'.arrivals.level now = a.level now
  sorted : s.Sorted → s'.Sorted

theorem follows_congr {a' : Arrivals} (h : Follows now s a s') (ha : a.level now = a'.level now) :
    Follows now s a' s' :=
  { h with level := h.level.trans ha }

/-- One round of `cleanup` forgets a record that is due. -/
theorem cleanup_round (hs : s.Consistent) (hlen : 0 < len s)
    (hdue : (s.cells (s.slot 0)).tat ≤ now) :
    let popped := expirationHeap.popMin s
    let s' := { popped.2 with records := popped.2.records.erase (popped.2.cells popped.1).key }
    len s' + 1 = len s ∧ Follows now s s.arrivals s' := by
  obtain ⟨t, ht, hsorted, hpop⟩ := popMin_last hs.placed hlen
  obtain ⟨l, hl⟩ := last_eq_concat ht hlen
  have hkey : ((pop t).2.cells (pop t).1).key = (t.cells (s.slot 0)).key := by
    rw [pop_eq hl]
    exact setIndex_key _ _ _ _
  obtain ⟨hc, ha⟩ := pop_consistent (rearranged_consistent ht.1 hs) hl rfl
  have hlen' : len t = len s := ht.1.perm.length_eq
  simp only [hpop, hkey]
  refine ⟨?_, hc, ?_, fun h => pop_sorted hl (hlen' ▸ hsorted h) _⟩
  · rw [pop_eq hl, ← hlen']
    simp [len, hl]
  · rw [ha, rearranged_arrivals ht.1, ht.1.key]
    apply level_reset_due
    have hroot : s.slot 0 ∈ s.expirations := List.mem_of_getElem? (slot_eq hlen)
    have hlookup := (hs.shared _ _).mpr ⟨hroot, rfl⟩
    rw [Arrivals.level_of_some (t := (s.cells (s.slot 0)).tat) (by simp [hlookup])]
    omega

theorem cleanupLoop_spec (now : Int) : ∀ (rounds : Nat) (s : Store), s.Consistent →
    let s' := s.cleanupLoop now rounds
    Follows now s s.arrivals s' ∧
      (len s ≤ rounds → 0 < len s' → now < (s'.cells (s'.slot 0)).tat) := by
  intro rounds
  induction rounds with
  | zero =>
    intro s hs
    refine ⟨⟨hs, rfl, id⟩, ?_⟩
    intro hle hlt
    simp only [Store.cleanupLoop] at hlt
    omega
  | succ rounds ih =>
    intro s hs
    simp only [Store.cleanupLoop]
    split
    · rename_i hdue
      obtain ⟨hlen, hc, hlevel, hsorted⟩ := cleanup_round hs hdue.1 hdue.2
      obtain ⟨⟨hc', hlevel', hsorted'⟩, hroot⟩ := ih _ hc
      exact ⟨⟨hc', hlevel'.trans hlevel, hsorted' ∘ hsorted⟩, fun hle => hroot (by omega)⟩
    · rename_i hdue
      refine ⟨⟨hs, rfl, id⟩, ?_⟩
      intro _ hlt
      exact Int.not_le.mp fun hle => hdue ⟨hlt, hle⟩

/-- The sweep stops at a root that is not due, and only forgets what no decision at `now`
or later can tell from nothing. -/
theorem cleanup_spec (hs : s.Consistent) (now : Int) :
    let s' := s.cleanup now
    Follows now s s.arrivals s' ∧ (0 < len s' → now < (s'.cells (s'.slot 0)).tat) := by
  obtain ⟨hfollows, hroot⟩ := cleanupLoop_spec now (len s) s hs
  exact ⟨hfollows, hroot le_rfl⟩

/-- A record found through the map is in the heap at its index. -/
theorem index_lt (hs : s.Consistent) (hp : s.records.lookup key = some p) :
    (s.cells p).index.toNat < len s ∧ s.slot (s.cells p).index.toNat = p ∧
      (s.cells p).key = key := by
  obtain ⟨hmem, hkey⟩ := (hs.shared key p).mp hp
  obtain ⟨i, hi⟩ := List.mem_iff_getElem?.mp hmem
  have hlt : i < len s := (List.getElem?_eq_some_iff.mp hi).1
  have hindex : (s.cells p).index.toNat = i := by simp [hs.placed i p hi]
  rw [hindex]
  refine ⟨hlt, ?_, hkey⟩
  have := slot_eq hlt
  simp_all

/-- `s'` is `s` with an arrival time for `key`. -/
structure Saved (s : Store) (key : String) (newTAT : Int) (s' : Store) : Prop where
  consistent : s'.Consistent
  arrivals : s'.arrivals = Function.update s.arrivals key (some newTAT)
  sorted : s.Sorted → s'.Sorted

theorem save_of_some (hs : s.Consistent) (hp : s.records.lookup key = some p) (newTAT : Int) :
    Saved s key newTAT (s.save key newTAT) := by
  let t := { s with cells := Function.update s.cells p { s.cells p with tat := newTAT } }
  have hkey : ∀ q, (t.cells q).key = (s.cells q).key := by
    intro q
    by_cases hq : q = p <;> simp [t, hq]
  have hindex : ∀ q, (t.cells q).index = (s.cells q).index := by
    intro q
    by_cases hq : q = p <;> simp [t, hq]
  have ht : t.Consistent := by
    refine ⟨?_, ?_, hs.allocated⟩
    · intro i q hq
      rw [hindex]
      exact hs.placed i q hq
    · intro k q
      rw [hkey]
      exact hs.shared k q
  have hsave : s.save key newTAT = expirationHeap.fix t (t.cells p).index.toNat := by
    simp only [Store.save, hp]
    rfl
  obtain ⟨hlt, hslot, -⟩ := index_lt ht hp
  have hfix := fix_rearranged ht.placed hlt
  rw [hsave]
  refine ⟨rearranged_consistent hfix ht, ?_, ?_⟩
  · rw [rearranged_arrivals hfix]
    funext k
    by_cases hk : k = key
    · subst k
      simp [t, hp]
    · simp only [Store.arrivals, Function.update_of_ne hk]
      cases hq : s.records.lookup k with
      | none => simp [t]
      | some q =>
        have hne : q ≠ p := by
          intro he
          subst q
          exact hk ((index_lt hs hq).2.2.symm.trans (index_lt hs hp).2.2)
        simp [t, hne]
  · intro hsorted
    have hbut : Heap.SortedBut t.due (len t) (t.cells p).index.toNat := by
      refine Heap.but_congr (Heap.but_of_sorted hsorted (Nat.le_refl _) hlt) ?_
      intro k hk hki
      have hne : t.slot k ≠ p := by
        intro he
        have hk' := slot_eq hk
        have hi := slot_eq hlt
        rw [he] at hk'
        rw [hslot] at hi
        exact hki (placed_inj ht.placed hk' hi)
      show (Function.update s.cells p _ (t.slot k)).tat = _
      rw [Function.update_of_ne hne]
      rfl
    have hlen : len (expirationHeap.fix t (t.cells p).index.toNat) = len t := hfix.perm.length_eq
    rw [Store.Sorted, hlen]
    exact Heap.Interface.fix_sorted keyed hlt hbut

theorem save_of_none (hs : s.Consistent) (hnone : s.records.lookup key = none) (newTAT : Int) :
    Saved s key newTAT (s.save key newTAT) := by
  let t :=
    { s with
      cells := Function.update s.cells s.next ⟨key, newTAT, 0⟩
      next := s.next + 1
      records := s.records.insert key s.next }
  have hout : s.next ∉ s.expirations := fun h => Nat.lt_irrefl _ (hs.allocated _ h)
  have hold : ∀ q ∈ s.expirations, t.cells q = s.cells q := by
    intro q hq
    have hne : q ≠ s.next := fun he => hout (he ▸ hq)
    exact Function.update_of_ne hne _ _
  have hplaced : t.Placed := by
    intro i q hq
    rw [hold q (List.mem_of_getElem? hq)]
    exact hs.placed i q hq
  have hnew : (t.cells s.next).key = key ∧ (t.cells s.next).tat = newTAT := by simp [t]
  have hexp : (push t s.next).expirations = s.expirations ++ [s.next] := rfl
  have hname : ∀ q, ((push t s.next).cells q).key = (t.cells q).key := fun q => setIndex_key _ _ _ _
  have htat : ∀ q, ((push t s.next).cells q).tat = (t.cells q).tat := fun q => setIndex_tat _ _ _ _
  have hput : (push t s.next).records.lookup key = some s.next := AList.lookup_insert _
  have hother : ∀ k, k ≠ key → (push t s.next).records.lookup k = s.records.lookup k :=
    fun k hk => AList.lookup_insert_ne hk
  have ht : (push t s.next).Consistent := by
    refine ⟨push_placed hplaced hout, ?_, ?_⟩
    · intro k q
      rw [hexp, hname]
      by_cases hk : k = key
      · subst k
        rw [hput]
        constructor
        · intro h
          obtain rfl : s.next = q := Option.some.inj h
          exact ⟨by simp, hnew.1⟩
        · rintro ⟨hq, hqk⟩
          rcases List.mem_append.mp hq with hq | hq
          · rw [hold q hq] at hqk
            simp [(hs.shared key q).mpr ⟨hq, hqk⟩] at hnone
          · simp_all
      · rw [hother k hk, hs.shared]
        constructor
        · rintro ⟨hq, hqk⟩
          exact ⟨List.mem_append_left _ hq, by rwa [hold q hq]⟩
        · rintro ⟨hq, hqk⟩
          rcases List.mem_append.mp hq with hq | hq
          · exact ⟨hq, by rwa [hold q hq] at hqk⟩
          · simp_all
    · intro q hq
      rw [hexp] at hq
      rcases List.mem_append.mp hq with hq | hq
      · exact Nat.lt_succ_of_lt (hs.allocated q hq)
      · simp_all [push, t, Store.setIndex]
  have hsave : s.save key newTAT = expirationHeap.add t s.next := by
    simp only [Store.save, hnone]
    rfl
  have hadd := add_rearranged ht.placed
  rw [hsave]
  refine ⟨rearranged_consistent hadd ht, ?_, ?_⟩
  · rw [rearranged_arrivals hadd]
    funext k
    by_cases hk : k = key
    · subst k
      simp [hput, htat, hnew.2]
    · simp only [Store.arrivals, Function.update_of_ne hk, hother k hk, htat]
      cases hq : s.records.lookup k with
      | none => rfl
      | some q => simp [hold q ((hs.shared k q).mp hq).1]
  · intro hsorted
    have hdue : ∀ k, k < len s → t.due k = s.due k := by
      intro k hk
      have hmem := List.mem_of_getElem? (slot_eq hk)
      show (t.cells (s.slot k)).tat = (s.cells (s.slot k)).tat
      rw [hold _ hmem]
    have hlen : len (expirationHeap.add t s.next) = len s + 1 := by
      simpa [len, hexp] using hadd.perm.length_eq
    have hpush : ∀ k, k < len s → (push t s.next).due k = t.due k := by
      intro k hk
      rw [Store.due, htat, slot_append hexp hk]
      rfl
    rw [Store.Sorted, hlen]
    exact Heap.Interface.add_sorted keyed (by simp [expirationHeap, len, hexp, t]) hpush
      (Heap.sorted_congr hsorted hdue)

theorem save_spec (hs : s.Consistent) (key : String) (newTAT : Int) :
    Saved s key newTAT (s.save key newTAT) := by
  cases hp : s.records.lookup key with
  | none => exact save_of_none hs hp newTAT
  | some p => exact save_of_some hs hp newTAT

theorem remaining_eq (now tat burstOffset : Int) {interval : Int} :
    remaining now tat interval burstOffset = max 0 (now + burstOffset - tat) / interval := by
  simp only [remaining]
  split
  · rw [Int.max_eq_left (by omega), Int.zero_ediv]
  · rw [Int.max_eq_right (by omega), Int.tdiv_eq_ediv_of_nonneg (by omega)]

theorem microseconds_of_nonneg {value : Int} (h : 0 ≤ value) :
    microseconds value = value * microsecond := by
  unfold microseconds
  split
  · rw [show value = 0 by omega, Int.zero_mul]
  · rfl

/-- The arrival time a take reads is that of the table. -/
theorem tat_eq (t : Store) (now : Int) (key : String) :
    (match t.records.lookup key with
      | some current => if now < (t.cells current).tat then (t.cells current).tat else now
      | none => now) = t.arrivals.level now key := by
  simp only [Arrivals.level, Store.arrivals]
  cases t.records.lookup key with
  | none => simp
  | some current => simp; omega

/-- A take reads the arrival time from the swept store. -/
theorem take_live (s : Store) (clock : Int) (r : TakeRequest) :
    let now := unixMicro clock
    let t := s.cleanup now
    let tat := t.arrivals.level now r.key
    s.take .live clock r = if tat + r.increment > now + r.window then
      (.ok
        { limit := r.limit
          allowed := false
          remaining := remaining now tat r.interval r.window
          retryAfter := microseconds (tat + r.increment - r.window - now)
          resetAfter := microseconds (tat - now) }, t)
    else
      (.ok
        { limit := r.limit
          allowed := true
          remaining := remaining now (tat + r.increment) r.interval r.window
          retryAfter := 0
          resetAfter := microseconds (tat + r.increment - now) },
        t.save r.key (tat + r.increment)) := by
  intro now t tat
  simp only [tat, ← tat_eq t now r.key]
  rfl

/-- A take on a swept store decides as the table of its arrival times does. -/
theorem take_cleanup (s : Store) (clock : Int) (r : TakeRequest) :
    let t := s.cleanup (unixMicro clock)
    let tat := t.arrivals.level (unixMicro clock) r.key
    s.take .live clock r = (.ok (r.decision (unixMicro clock) tat),
      if r.Fits (unixMicro clock) tat then t.save r.key (tat + r.increment) else t) := by
  simp only [take_live]
  generalize s.cleanup (unixMicro clock) = t
  have hle : unixMicro clock ≤ t.arrivals.level (unixMicro clock) r.key := Arrivals.le_level
  generalize t.arrivals.level (unixMicro clock) r.key = tat at hle ⊢
  have hinc := r.increment_pos
  by_cases hfits : r.Fits (unixMicro clock) tat
  · have hroom : tat + r.increment ≤ unixMicro clock + r.window := hfits
    rw [if_neg (Int.not_lt.mpr hroom)]
    simp only [TakeRequest.decision, hfits, if_true, remaining_eq]
    rw [Int.max_eq_right (by omega), microseconds_of_nonneg (by omega)]
  · have hfull : unixMicro clock + r.window < tat + r.increment := Int.not_le.mp hfits
    rw [if_pos hfull]
    simp only [TakeRequest.decision, hfits, if_false, remaining_eq]
    rw [microseconds_of_nonneg (by omega), microseconds_of_nonneg (by omega)]

theorem take_refines (hs : s.Consistent) (clock : Int) (r : TakeRequest) :
    (s.take .live clock r).1 = .ok (s.arrivals.take (unixMicro clock) r).1 ∧
      Follows (unixMicro clock) s (s.arrivals.take (unixMicro clock) r).2
        (s.take .live clock r).2 := by
  obtain ⟨⟨hc, hlevel, hsorted⟩, -⟩ := cleanup_spec hs (unixMicro clock)
  obtain ⟨hsame, hsame'⟩ := Arrivals.take_congr hlevel r
  rw [← hsame, take_cleanup]
  refine ⟨rfl, follows_congr ?_ hsame'⟩
  simp only [Arrivals.take]
  split
  · obtain ⟨hsave, harr, hsorted'⟩ := save_spec hc r.key
      ((s.cleanup (unixMicro clock)).arrivals.level (unixMicro clock) r.key + r.increment)
    exact ⟨hsave, by rw [harr], hsorted' ∘ hsorted⟩
  · exact ⟨hc, rfl, hsorted⟩

theorem reset_refines (hs : s.Consistent) (clock : Int) (key : String) :
    (s.reset .live clock key).1 = .ok () ∧
      Follows (unixMicro clock) s (s.arrivals.reset key) (s.reset .live clock key).2 := by
  obtain ⟨⟨hc, hlevel, hsorted⟩, -⟩ := cleanup_spec hs (unixMicro clock)
  have hreset : ((s.cleanup (unixMicro clock)).arrivals.reset key).level (unixMicro clock) =
      (s.arrivals.reset key).level (unixMicro clock) := by
    rw [Arrivals.level_reset, hlevel, Arrivals.level_reset]
  simp only [Store.reset, validateContext, Ctx.cause, Option.map_none]
  generalize s.cleanup (unixMicro clock) = t at hc hsorted hreset
  cases hp : t.records.lookup key with
  | none =>
    refine ⟨rfl, follows_congr ⟨hc, ?_, hsorted⟩ hreset⟩
    rw [level_reset_due (Arrivals.level_of_none (by simp [hp]))]
  | some p =>
    obtain ⟨hlt, hslot, hkey⟩ := index_lt hc hp
    obtain ⟨u, hu, hsorted', hremove⟩ := remove_last hc.placed hlt
    obtain ⟨l, hl⟩ := last_eq_concat hu (by omega)
    rw [hslot] at hl
    obtain ⟨hpop, harr⟩ := pop_consistent (rearranged_consistent hu.1 hc) hl
      ((hu.1.key p).trans hkey)
    have hlen : len u = len t := hu.1.perm.length_eq
    simp only [hremove]
    refine ⟨trivial, follows_congr ⟨hpop, ?_, ?_⟩ hreset⟩
    · rw [harr, rearranged_arrivals hu.1]
    · exact fun h => pop_sorted hl (hlen ▸ hsorted' (hsorted h)) _

/-- Every call answers as the table of arrival times does and leaves the same one. -/
theorem step_refines (hs : s.Consistent) (now : Int) (call : Call) :
    (s.step now call).1 = (s.arrivals.step now call).1 ∧
      Follows (unixMicro now) s (s.arrivals.step now call).2 (s.step now call).2 := by
  cases call with
  | take ctx r =>
    cases ctx with
    | live =>
      obtain ⟨hreply, hnext⟩ := take_refines hs now r
      exact ⟨congrArg Reply.take hreply, hnext⟩
    | nil | done cause => exact ⟨rfl, hs, rfl, id⟩
  | reset ctx key =>
    cases ctx with
    | live =>
      obtain ⟨hreply, hnext⟩ := reset_refines hs now key
      exact ⟨congrArg Reply.reset hreply, hnext⟩
    | nil | done cause => exact ⟨rfl, hs, rfl, id⟩

/-- In a sorted heap all is due after the sweep. -/
theorem cleanup_due (hs : s.Consistent) (hsorted : s.Sorted) {tat : Int}
    (h : (s.cleanup now).arrivals key = some tat) : now < tat := by
  obtain ⟨⟨hc, -, hkept⟩, hroot⟩ := cleanup_spec hs now
  obtain ⟨p, hp, rfl⟩ := Option.map_eq_some_iff.mp h
  obtain ⟨hlt, hslot, -⟩ := index_lt hc hp
  have hle := Heap.root_le (hkept hsorted) _ hlt
  rw [Store.due, Store.due, hslot] at hle
  exact Int.lt_of_lt_of_le (hroot (by omega)) hle

/-- The sweep removes exactly what is due. -/
theorem cleanup_arrivals (hs : s.Consistent) (hsorted : s.Sorted) (now : Int) :
    (s.cleanup now).arrivals = fun key => (s.arrivals key).filter fun tat => now < tat := by
  funext key
  have hlevel := congrFun (cleanup_spec hs now).1.level key
  have hdue : ∀ tat, (s.cleanup now).arrivals key = some tat → now < tat :=
    fun _ h => cleanup_due hs hsorted h
  unfold Arrivals.level at hlevel
  cases hkept : (s.cleanup now).arrivals key with
  | none =>
    cases hold : s.arrivals key with
    | none => rfl
    | some tat =>
      simp only [hkept, hold, Option.getD] at hlevel
      simp [Option.filter]
      omega
  | some tat =>
    have hlater := hdue tat hkept
    cases hold : s.arrivals key with
    | none =>
      simp only [hkept, hold, Option.getD] at hlevel
      omega
    | some tat' =>
      simp only [hkept, hold, Option.getD] at hlevel
      obtain rfl : tat = tat' := by omega
      simp [Option.filter, hlater]

/-- The store and the table have every key due at the same time from `last` on. -/
structure Refines (last : Int) (s : Store) (a : Arrivals) : Prop where
  consistent : s.Consistent
  level : s.arrivals.level (unixMicro last) = a.level (unixMicro last)

theorem refines_step {last : Int} (call : Call) (hR : Refines last s a) (hle : last ≤ now) :
    (memory.step s now call).1 = (arrivals.step a now call).1 ∧
      Refines now (memory.step s now call).2 (arrivals.step a now call).2 := by
  obtain ⟨hreply, hc, hlevel, -⟩ := step_refines hR.consistent now call
  obtain ⟨hreply', hlevel'⟩ :=
    Arrivals.step_congr (Arrivals.level_congr (unixMicro_mono hle) hR.level) call
  exact ⟨hreply.trans hreply', hc, hlevel.trans hlevel'⟩

/-- After any requests the map and the heap hold the same records, and at non-decreasing times every
decision is that of the table that forgets nothing. -/
theorem store_is_sound (requests : List (Int × Call)) :
    let s := memory.after memory.init requests
    s.Consistent ∧ s.Sorted ∧
      (∀ now, (s.cleanup now).arrivals = fun key => (s.arrivals key).filter fun tat => now < tat) ∧
      ∀ start, Machine.Ordered start requests →
        memory.replies memory.init requests = arrivals.replies arrivals.init requests := by
  intro s
  obtain ⟨hs, hsorted⟩ : s.Consistent ∧ s.Sorted := by
    refine Machine.after_keeps (P := fun s : Store => s.Consistent ∧ s.Sorted) ?_ ?_ requests
    · intro s now call h
      obtain ⟨-, hc, -, hsorted⟩ := step_refines h.1 now call
      exact ⟨hc, hsorted h.2⟩
    · exact ⟨new_consistent, fun i k _ hk => absurd hk (Nat.not_lt_zero k)⟩
  refine ⟨hs, hsorted, cleanup_arrivals hs hsorted, ?_⟩
  intro start ordered
  apply Machine.replies_of_simulation (R := Refines) ?_ ?_ ordered
  · intro last s a now call hR hle
    exact refines_step call hR hle
  · exact ⟨new_consistent, rfl⟩

/-- The burst is used up by the first take; a millisecond later there is room for one more. -/
theorem store_is_sound_burst :
    let r : TakeRequest := ⟨"k", ⟨1000, second, 2⟩, 2, by decide, by decide, by decide⟩
    let requests := [(unixEpoch, .take .live r), (unixEpoch + millisecond, .take .live r)]
    arrivals.replies arrivals.init requests =
      [.take (.ok ⟨r.limit, true, 0, 0, 2 * millisecond⟩),
        .take (.ok ⟨r.limit, false, 1, millisecond, millisecond⟩)] := by
  intro r requests
  have hmemory := (store_is_sound requests).2.2.2 unixEpoch (by decide)
  exact hmemory.symm.trans (by decide)

end Memory

end Fries.RateLimit
