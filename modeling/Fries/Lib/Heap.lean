import Mathlib.Order.Lattice

/-! Go's `container/heap`. Its loops carry the number of rounds they can take. -/
namespace Fries.Heap

/-- The methods of `heap.Interface`; `pop` gives back the removed element. -/
structure Interface (σ β : Type) where
  len : σ → Nat
  less : σ → Nat → Nat → Bool
  swap : σ → Nat → Nat → σ
  push : σ → β → σ
  pop : σ → β × σ

section Order

variable {α : Type} [LinearOrder α] {f g : Nat → α} {n c p m : Nat}

/-- In the tree of places, `k` is a child of `i`. -/
@[grind] def Child (k i : Nat) : Prop := k = 2 * i + 1 ∨ k = 2 * i + 2

/-- No place below `n` comes before its parent. -/
def Sorted (f : Nat → α) (n : Nat) : Prop := ∀ i k, Child k i → k < n → f i ≤ f k

/-- What is at `c` may be out of order, and nothing else is. -/
structure SortedBut (f : Nat → α) (n c : Nat) : Prop where
  away : ∀ i k, Child k i → k < n → i ≠ c → k ≠ c → f i ≤ f k
  across : ∀ i k, Child c i → Child k c → k < n → f i ≤ f k

def Above (f : Nat → α) (c : Nat) : Prop := ∀ i, Child c i → f i ≤ f c

def Below (f : Nat → α) (n c : Nat) : Prop := ∀ k, Child k c → k < n → f c ≤ f k

@[grind] def exchange (f : Nat → α) (i j k : Nat) : α :=
  if k = i then f j else if k = j then f i else f k

/-- The root comes first. -/
theorem root_le (h : Sorted f n) : ∀ k, k < n → f 0 ≤ f k := by
  intro k
  induction k using Nat.strongRecOn with
  | _ k ih =>
    intro hk
    by_cases hzero : k = 0
    · rw [hzero]
    · have hparent := h ((k - 1) / 2) k (by unfold Child; omega) hk
      exact le_trans (ih _ (by omega) (by omega)) hparent

theorem sorted_congr (h : Sorted f n) (hg : ∀ k, k < n → g k = f k) : Sorted g n := by
  intro i k hki hk
  have hik : i < k := by grind
  rw [hg i (by omega), hg k hk]
  exact h i k hki hk

theorem sorted_of_but (h : SortedBut f n c) (ha : Above f c) (hb : Below f n c) : Sorted f n := by
  intro i k hki hk
  by_cases hi : i = c
  · subst hi
    exact hb k hki hk
  by_cases hkc : k = c
  · subst hkc
    exact ha i hki
  exact h.away i k hki hk hi hkc

theorem but_of_sorted (h : Sorted f n) (hm : m ≤ n) (hc : c < n) : SortedBut f m c where
  away i k hki hk _ _ := h i k hki (by omega)
  across i k hci hkc hk := le_trans (h i c hci hc) (h c k hkc (by omega))

/-- It does not matter what is at the place that may be out of order. -/
theorem but_congr (h : SortedBut f n c) (hg : ∀ k, k < n → k ≠ c → g k = f k) :
    SortedBut g n c := by
  refine ⟨?_, ?_⟩
  · intro i k hki hk hi hkc
    have hik : i < k := by grind
    rw [hg i (by omega) hi, hg k hk hkc]
    exact h.away i k hki hk hi hkc
  · intro i k hci hkc hk
    have hik : i < c ∧ c < k := by grind
    rw [hg i (by omega) (by omega), hg k hk (by omega)]
    exact h.across i k hci hkc hk

/-- One round up. -/
theorem exchange_up (h : SortedBut f n c) (hp : Child c p) (hc : c < n) (hlt : f c < f p) :
    SortedBut (exchange f p c) n p ∧ Below (exchange f p c) n p := by
  have haway := h.away
  refine ⟨⟨?_, ?_⟩, ?_⟩
  · intro i k hki hk hi hkp
    have hacross := h.across p k hp
    grind
  · intro i k hpi hkp hk
    have hip := haway i p hpi
    have hpk := haway p k hkp hk
    grind
  · intro k hkp hk
    have hpk := haway p k hkp hk
    grind

/-- One round down. -/
theorem exchange_down (h : SortedBut f n c) (hm : Child m c) (hn : m < n) (hlt : f m < f c)
    (hmin : ∀ k, Child k c → k < n → f m ≤ f k) :
    SortedBut (exchange f c m) n m ∧ Above (exchange f c m) m := by
  refine ⟨⟨?_, ?_⟩, ?_⟩
  · intro i k hki hk hi hkm
    have haway := h.away i k hki hk
    have hacross := h.across i m
    have hleast := hmin k
    grind
  · intro i k hmi hkm hk
    have haway := h.away m k hkm hk
    grind
  · intro i hmi
    grind

end Order

namespace Interface

variable {σ β : Type} (H : Interface σ β)

def upLoop : Nat → σ → Nat → σ
  | 0, s, _ => s
  | rounds + 1, s, j =>
    let i := (j - 1) / 2
    if i = j ∨ ¬ H.less s j i then s else upLoop rounds (H.swap s i j) i

def up (s : σ) (j : Nat) : σ := H.upLoop (j + 1) s j

/-- The smaller of the two children of a node, the right one only below `n`. -/
def child (s : σ) (i n : Nat) : Nat :=
  if 2 * i + 2 < n ∧ H.less s (2 * i + 2) (2 * i + 1) then 2 * i + 2 else 2 * i + 1

def downLoop (n : Nat) : Nat → σ → Nat → Nat × σ
  | 0, s, i => (i, s)
  | rounds + 1, s, i =>
    if n ≤ 2 * i + 1 then (i, s)
    else if ¬ H.less s (H.child s i n) i then (i, s)
    else downLoop n rounds (H.swap s i (H.child s i n)) (H.child s i n)

/-- Also tells whether the element moved. -/
def down (s : σ) (i₀ n : Nat) : Bool × σ :=
  let r := H.downLoop n n s i₀
  (i₀ < r.1, r.2)

/-- `heap.Push`. -/
def add (s : σ) (x : β) : σ :=
  let s := H.push s x
  H.up s (H.len s - 1)

/-- `heap.Pop`. -/
def popMin (s : σ) : β × σ :=
  let n := H.len s - 1
  H.pop (H.down (H.swap s 0 n) 0 n).2

/-- `down`, and `up` where that did not move the element. -/
def settle (s : σ) (i n : Nat) : σ :=
  let r := H.down s i n
  if r.1 then r.2 else H.up r.2 i

/-- `heap.Remove`. -/
def remove (s : σ) (i : Nat) : β × σ :=
  let n := H.len s - 1
  if n ≠ i then H.pop (H.settle (H.swap s i n) i n) else H.pop s

/-- `heap.Fix`. -/
def fix (s : σ) (i : Nat) : σ := H.settle s i (H.len s)

variable {H} {P : σ → Prop} {s : σ} {i n : Nat}

/-- What every swap of two places below `n` keeps, `up` from below `n` keeps. -/
theorem upLoop_keeps (hswap : ∀ s i j, P s → i < n → j < n → P (H.swap s i j)) :
    ∀ rounds s j, j < n → P s → P (H.upLoop rounds s j) := by
  intro rounds
  induction rounds with
  | zero => intro s j _ h; exact h
  | succ rounds ih =>
    intro s j hj h
    simp only [upLoop]
    split
    · exact h
    · have hi : (j - 1) / 2 < n := by omega
      exact ih _ _ hi (hswap s _ j h hi hj)

theorem child_lt (hi : ¬ n ≤ 2 * i + 1) : H.child s i n < n ∧ i < H.child s i n := by
  unfold child
  split <;> omega

theorem downLoop_keeps (hswap : ∀ s i j, P s → i < n → j < n → P (H.swap s i j)) :
    ∀ rounds s i, P s → P (H.downLoop n rounds s i).2 := by
  intro rounds
  induction rounds with
  | zero => intro s i h; exact h
  | succ rounds ih =>
    intro s i h
    simp only [downLoop]
    split
    · exact h
    · rename_i hlt
      split
      · exact h
      · obtain ⟨hc, hic⟩ := child_lt hlt (H := H) (s := s)
        exact ih _ _ (hswap s i _ h (by omega) hc)

theorem settle_keeps (hswap : ∀ s i j, P s → i < n → j < n → P (H.swap s i j)) (hi : i < n)
    (h : P s) : P (H.settle s i n) := by
  have hd : P (H.down s i n).2 := downLoop_keeps hswap n s i h
  simp only [settle]
  split
  · exact hd
  · exact upLoop_keeps hswap _ _ i hi hd

theorem fix_keeps (hswap : ∀ s' i j, P s' → i < H.len s → j < H.len s → P (H.swap s' i j))
    (hi : i < H.len s) (h : P s) : P (H.fix s i) := settle_keeps hswap hi h

theorem add_keeps {x : β} (hswap : ∀ s' i j, P s' → i < H.len (H.push s x) →
      j < H.len (H.push s x) → P (H.swap s' i j))
    (hlen : 0 < H.len (H.push s x)) (h : P (H.push s x)) : P (H.add s x) :=
  upLoop_keeps hswap _ _ _ (by omega) h

variable {α : Type} [LinearOrder α] {key : σ → Nat → α}

/-- What a heap is sorted by. -/
structure Keyed (H : Interface σ β) (key : σ → Nat → α) : Prop where
  less : ∀ s i j, H.less s i j = true ↔ key s i < key s j
  len_swap : ∀ s i j, H.len (H.swap s i j) = H.len s
  swap : ∀ s i j, i < H.len s → j < H.len s → key (H.swap s i j) = exchange (key s) i j

section

variable (K : H.Keyed key)

include K

theorem upLoop_sorted :
    ∀ rounds s c, c < rounds → c < n → n ≤ H.len s → SortedBut (key s) n c → Below (key s) n c →
      Sorted (key (H.upLoop rounds s c)) n := by
  intro rounds
  induction rounds with
  | zero =>
    intro s c hc
    omega
  | succ rounds ih =>
    intro s c hrounds hc hn h hb
    simp only [upLoop]
    split
    · rename_i hstop
      refine sorted_of_but h ?_ hb
      intro i hci
      have hi : (c - 1) / 2 = i := by unfold Child at hci; omega
      rw [hi, K.less] at hstop
      exact not_lt.mp (hstop.resolve_left (by unfold Child at hci; omega))
    · rename_i hgo
      rw [not_or, Decidable.not_not, K.less] at hgo
      have hp : Child c ((c - 1) / 2) := by unfold Child; omega
      obtain ⟨h', hb'⟩ := exchange_up h hp hc hgo.2
      rw [← K.swap s _ c (by omega) (by omega)] at h' hb'
      exact ih _ _ (by omega) (by omega) (by rwa [K.len_swap]) h' hb'

theorem child_least :
    Child (H.child s i n) i ∧ ∀ k, Child k i → k < n → key s (H.child s i n) ≤ key s k := by
  unfold child
  split
  · rename_i hright
    rw [K.less] at hright
    refine ⟨.inr rfl, ?_⟩
    rintro k (rfl | rfl) hk
    · exact hright.2.le
    · exact le_rfl
  · rename_i hleft
    rw [K.less] at hleft
    refine ⟨.inl rfl, ?_⟩
    rintro k (rfl | rfl) hk
    · exact le_rfl
    · exact not_lt.mp fun hlt => hleft ⟨hk, hlt⟩

/-- `down` leaves an element that is not after its children, or moves it to such a place. -/
theorem downLoop_sorted :
    ∀ rounds s c, n ≤ rounds + c → n ≤ H.len s → SortedBut (key s) n c →
      H.downLoop n rounds s c = (c, s) ∧ Below (key s) n c ∨
        c < (H.downLoop n rounds s c).1 ∧ Sorted (key (H.downLoop n rounds s c).2) n := by
  intro rounds
  induction rounds with
  | zero =>
    intro s c hrounds hn h
    refine .inl ⟨rfl, ?_⟩
    intro k hk hkn
    unfold Child at hk
    omega
  | succ rounds ih =>
    intro s c hrounds hn h
    obtain ⟨hchild, hleast⟩ := child_least K (s := s) (i := c) (n := n)
    simp only [downLoop]
    split
    · refine .inl ⟨rfl, ?_⟩
      intro k hk hkn
      unfold Child at hk
      omega
    · rename_i hlt
      obtain ⟨hm, hcm⟩ := child_lt hlt (H := H) (s := s)
      split
      · rename_i hstop
        rw [K.less, not_lt] at hstop
        exact .inl ⟨rfl, fun k hk hkn => le_trans hstop (hleast k hk hkn)⟩
      · rename_i hgo
        rw [Decidable.not_not, K.less] at hgo
        obtain ⟨h', ha'⟩ := exchange_down h hchild hm hgo hleast
        rw [← K.swap s c _ (by omega) (by omega)] at h' ha'
        have hnext := ih _ (H.child s c n) (by omega) (by rwa [K.len_swap]) h'
        rcases hnext with ⟨hstay, hb⟩ | ⟨hmoved, hsorted⟩
        · rw [hstay]
          exact .inr ⟨hcm, sorted_of_but h' ha' hb⟩
        · exact .inr ⟨Nat.lt_trans hcm hmoved, hsorted⟩

theorem settle_sorted (hi : i < n) (hn : n ≤ H.len s) (h : SortedBut (key s) n i) :
    Sorted (key (H.settle s i n)) n := by
  rcases downLoop_sorted K n s i (by omega) hn h with ⟨hstay, hb⟩ | ⟨hmoved, hsorted⟩
  · simpa [settle, down, up, hstay] using upLoop_sorted K _ s i (Nat.lt_succ_self i) hi hn h hb
  · simpa [settle, down, hmoved] using hsorted

theorem down_sorted (hn : n ≤ H.len s) (h : SortedBut (key s) n 0) :
    Sorted (key (H.down s 0 n).2) n := by
  simp only [down]
  rcases downLoop_sorted K n s 0 (by omega) hn h with ⟨hstay, hb⟩ | ⟨-, hsorted⟩
  · rw [hstay]
    exact sorted_of_but h (fun i hi => by unfold Child at hi; omega) hb
  · exact hsorted

/-- Exchanging a place with the last one puts nothing else out of order. -/
theorem swap_last_but (hi : i < H.len s) (h : Sorted (key s) (H.len s)) :
    SortedBut (key (H.swap s i (H.len s - 1))) (H.len s - 1) i := by
  rw [K.swap s i _ hi (by omega)]
  refine but_congr (but_of_sorted h (Nat.sub_le _ _) hi) ?_
  intro k hk hki
  simp only [exchange, hki, if_false]
  rw [if_neg (by omega)]

theorem fix_sorted (hi : i < H.len s) (h : SortedBut (key s) (H.len s) i) :
    Sorted (key (H.fix s i)) (H.len s) := settle_sorted K hi (Nat.le_refl _) h

theorem add_sorted {x : β} (hlen : H.len (H.push s x) = H.len s + 1)
    (hpush : ∀ k, k < H.len s → key (H.push s x) k = key s k) (h : Sorted (key s) (H.len s)) :
    Sorted (key (H.add s x)) (H.len s + 1) := by
  have hlast : ∀ k, Child k (H.len s) → ¬ k < H.len s + 1 := by
    intro k hk
    unfold Child at hk
    omega
  simp only [add, up, hlen, Nat.add_sub_cancel]
  refine upLoop_sorted K _ _ _ (Nat.lt_succ_self _) (Nat.lt_succ_self _) (by omega) ⟨?_, ?_⟩ ?_
  · intro i k hki hk hi hkl
    have hik : i < k := by unfold Child at hki; omega
    rw [hpush i (by omega), hpush k (by omega)]
    exact h i k hki (by omega)
  · intro i k _ hk hkn
    exact absurd hkn (hlast k hk)
  · intro k hk hkn
    exact absurd hkn (hlast k hk)

end

section

variable (K : H.Keyed key)
  (hswap : ∀ s' i j, P s' → i < H.len s - 1 → j < H.len s - 1 → P (H.swap s' i j))

include K hswap

/-- Popping the root pops the last place after the root was swapped into it. -/
theorem popMin_eq (hlen : 0 < H.len s) (h : P (H.swap s 0 (H.len s - 1))) :
    ∃ s', P s' ∧ (Sorted (key s) (H.len s) → Sorted (key s') (H.len s - 1)) ∧
      H.popMin s = H.pop s' := by
  refine ⟨_, downLoop_keeps hswap _ _ 0 h, ?_, rfl⟩
  intro hsorted
  exact down_sorted K (by rw [K.len_swap]; omega) (swap_last_but K hlen hsorted)

/-- Removing a place pops the last place after the two were swapped. -/
theorem remove_eq (hi : i < H.len s)
    (h : P (if H.len s - 1 ≠ i then H.swap s i (H.len s - 1) else s)) :
    ∃ s', P s' ∧ (Sorted (key s) (H.len s) → Sorted (key s') (H.len s - 1)) ∧
      H.remove s i = H.pop s' := by
  unfold remove
  split at h
  · rename_i hne
    have hlt : i < H.len s - 1 := by omega
    refine ⟨_, settle_keeps hswap hlt h, ?_, by simp [hne]⟩
    intro hsorted
    exact settle_sorted K hlt (by rw [K.len_swap]; omega) (swap_last_but K hi hsorted)
  · rename_i hne
    exact ⟨s, h, fun hsorted i k hki hk => hsorted i k hki (by omega), by simp [hne]⟩

end

end Interface

end Fries.Heap
