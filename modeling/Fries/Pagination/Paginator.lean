import Fries.Go
import Mathlib.Order.Bounds.Basic

/-! The paginator, with 64-bit numbers that wrap around. -/
namespace Fries.Pagination

open Word

def defaultPerPage : Int := 10

def defaultPage : Int := 1

structure Paginator where
  page : Int
  prePage : Int
  total : Int
  lastPage : Int
  offset : Int
  hasMore : Bool
  prevPage : Int
  nextPage : Int
  deriving DecidableEq

namespace Paginator

def setPrePage (p : Paginator) : Paginator :=
  if p.prePage < 1 then { p with prePage := defaultPerPage } else p

/-- A quotient is cut off towards zero. -/
def setLastPage (p : Paginator) : Paginator :=
  { p with lastPage := max ((wrap64 (wrap64 (p.total + p.prePage) - 1)).tdiv p.prePage) 1 }

def setPage (p : Paginator) : Paginator :=
  let p := if p.page < 1 then { p with page := defaultPage } else p
  if p.lastPage < p.page then { p with page := p.lastPage } else p

def init (p : Paginator) : Paginator :=
  let p := p.setPrePage.setLastPage.setPage
  let p := { p with
    offset := wrap64 (wrap64 (p.page - 1) * p.prePage)
    hasMore := decide (wrap64 (p.page * p.prePage) < p.total)
    prevPage := p.page }
  let p := if 1 < p.page then { p with prevPage := wrap64 (p.page - 1) } else p
  let p := { p with nextPage := p.page }
  if p.hasMore then { p with nextPage := wrap64 (p.page + 1) } else p

end Paginator

def newPaginator (page prePage total : Int) : Paginator :=
  Paginator.init ⟨page, prePage, total, 0, 0, false, 0, 0⟩

/-- The number of pages as `setLastPage` computes it. -/
def pages (prePage total : Int) : Int := max ((wrap64 (total + prePage - 1)).tdiv prePage) 1

/-- The page as `setPage` leaves it. -/
def clamped (page last : Int) : Int := min (max page 1) last

variable {page prePage total : Int}

theorem wrap64_sub_one (x : Int) : wrap64 (wrap64 x - 1) = wrap64 (x - 1) := by
  unfold wrap64
  omega

theorem one_le_pages (prePage total : Int) : 1 ≤ pages prePage total := le_max_right _ _

theorem setPage_eq (p : Paginator) (hlast : 1 ≤ p.lastPage) :
    p.setPage = { p with page := clamped p.page p.lastPage } := by
  unfold Paginator.setPage clamped defaultPage
  by_cases hlow : p.page < 1
  · rw [if_pos hlow, if_neg (by dsimp only; omega), max_eq_right (by omega), min_eq_left hlast]
  · rw [if_neg hlow, max_eq_left (by omega)]
    by_cases hhigh : p.lastPage < p.page
    · rw [if_pos hhigh, min_eq_right (by omega)]
    · rw [if_neg hhigh, min_eq_left (by omega)]

/-- What a page size of at least one makes of the fields. -/
theorem newPaginator_fields (page total : Int) (hsize : 1 ≤ prePage) :
    let p := newPaginator page prePage total
    let current := clamped page (pages prePage total)
    p.lastPage = pages prePage total ∧ p.page = current ∧
      p.offset = wrap64 (wrap64 (current - 1) * prePage) ∧
      p.hasMore = decide (wrap64 (current * prePage) < total) ∧
      p.nextPage = if p.hasMore then wrap64 (current + 1) else current := by
  have hkept : ¬ prePage < 1 := not_lt.mpr hsize
  have hone := one_le_pages prePage total
  have hset : (Paginator.setPrePage ⟨page, prePage, total, 0, 0, false, 0, 0⟩).setLastPage =
      ⟨page, prePage, total, pages prePage total, 0, false, 0, 0⟩ := by
    rw [Paginator.setPrePage, if_neg hkept, Paginator.setLastPage, wrap64_sub_one]
    rfl
  unfold newPaginator Paginator.init
  rw [hset, setPage_eq _ hone]
  dsimp only
  split <;> split <;> simp_all

/-- The number of pages of a size that are enough for a total, and not one too many. -/
structure Covers (prePage total last : Int) : Prop where
  pos : 1 ≤ last
  enough : total ≤ last * prePage
  tight : last = 1 ∨ (last - 1) * prePage < total

section

variable (hsize : 1 ≤ prePage) {last : Int}

include hsize

theorem isLeast_iff_covers :
    IsLeast {n | 1 ≤ n ∧ total ≤ n * prePage} last ↔ Covers prePage total last := by
  constructor
  · rintro ⟨⟨hpos, henough⟩, hleast⟩
    refine ⟨hpos, henough, ?_⟩
    by_contra hnot
    have hless : last ≤ last - 1 := hleast ⟨by omega, by omega⟩
    omega
  · intro h
    refine ⟨⟨h.pos, h.enough⟩, ?_⟩
    rintro n ⟨hn, henough⟩
    rcases h.tight with rfl | htight
    · exact hn
    · by_contra hlt
      have hle : n * prePage ≤ (last - 1) * prePage :=
        Int.mul_le_mul_of_nonneg_right (by omega) (by omega)
      omega

/-- Every item is in the window of exactly one page. -/
theorem covers_window {item : Int} (h : Covers prePage total last) (hitem : 0 ≤ item)
    (hlt : item < total) : ∃ page, (1 ≤ page ∧ page ≤ last) ∧
      ∀ page', (page' - 1) * prePage ≤ item ∧ item < (page' - 1) * prePage + prePage ↔
        page' = page := by
  have hpos : 0 < prePage := by omega
  have hnonneg : 0 ≤ item / prePage := Int.ediv_nonneg hitem (by omega)
  have hlast : item / prePage < last :=
    (Int.ediv_lt_iff_lt_mul hpos).mpr (lt_of_lt_of_le hlt h.enough)
  refine ⟨item / prePage + 1, ⟨by omega, by omega⟩, fun page' => ?_⟩
  have hnext : (page' - 1) * prePage + prePage = page' * prePage := by
    rw [Int.sub_mul, Int.one_mul]
    omega
  rw [hnext, ← Int.le_ediv_iff_mul_le hpos, ← Int.ediv_lt_iff_lt_mul hpos]
  omega

/-- The computed number of pages is right and its items are counted by 64 bits, unless a sum that
is too large hides that more than one page is needed. -/
theorem covers_pages_iff (hword : Fits prePage) (htotal : 0 ≤ total) (hword' : Fits total) :
    (Covers prePage total (pages prePage total) ↔
      total + prePage - 1 ≤ maxInt64 ∨ total ≤ prePage) ∧
    pages prePage total * prePage ≤ maxInt64 := by
  have hpos : 0 < prePage := by omega
  have hle : prePage ≤ maxInt64 := hword.2
  by_cases hsum : total + prePage - 1 ≤ maxInt64
  · have hfits : Fits (total + prePage - 1) := ⟨by omega, hsum⟩
    have hpages : pages prePage total = max ((total + prePage - 1) / prePage) 1 := by
      rw [pages, wrap64_eq hfits, Int.tdiv_eq_ediv_of_nonneg (by omega)]
    have hmul := Int.ediv_mul_le (total + prePage - 1) (by omega : prePage ≠ 0)
    have hlt := Int.lt_ediv_add_one_mul_self (total + prePage - 1) hpos
    rw [Int.add_mul, Int.one_mul] at hlt
    rw [hpages]
    rcases le_total ((total + prePage - 1) / prePage) 1 with hone | hone
    · rw [max_eq_right hone, Int.one_mul]
      have henough : (total + prePage - 1) / prePage * prePage ≤ 1 * prePage :=
        Int.mul_le_mul_of_nonneg_right hone (by omega)
      refine ⟨iff_of_true ⟨le_rfl, by omega, .inl rfl⟩ (.inl hsum), hle⟩
    · rw [max_eq_left hone]
      refine ⟨iff_of_true ⟨hone, by omega, .inr ?_⟩ (.inl hsum), by omega⟩
      rw [Int.sub_mul, Int.one_mul]
      omega
  · have hpages : pages prePage total = 1 := by
      have hless : Fits (prePage - 1) := by
        unfold Fits at hword ⊢
        omega
      have hneg := wrap64_neg hword' hless (by omega)
      rw [← Int.add_sub_assoc] at hneg
      have hquot := Int.tdiv_nonneg (by omega : 0 ≤ -wrap64 (total + prePage - 1)) hpos.le
      rw [Int.neg_tdiv] at hquot
      rw [pages, max_eq_right (by omega)]
    rw [hpages, Int.one_mul]
    refine ⟨?_, hle⟩
    constructor
    · intro h
      have := h.enough
      omega
    · rintro (h | h)
      · exact absurd h hsum
      · exact ⟨le_rfl, by omega, .inl rfl⟩

/-- No product of a page up to the last one overflows. -/
theorem fits_mul {page : Int} (hcount : pages prePage total * prePage ≤ maxInt64) (hlow : 0 ≤ page)
    (hhigh : page ≤ pages prePage total) : Fits (page * prePage) := by
  have hnonneg : 0 ≤ page * prePage := Int.mul_nonneg hlow (by omega)
  have hle : page * prePage ≤ pages prePage total * prePage :=
    Int.mul_le_mul_of_nonneg_right hhigh (by omega)
  exact ⟨by omega, hle.trans hcount⟩

theorem pages_le_mul (total : Int) : pages prePage total ≤ pages prePage total * prePage := by
  have hone := one_le_pages prePage total
  have hle : pages prePage total * 1 ≤ pages prePage total * prePage :=
    Int.mul_le_mul_of_nonneg_left hsize (by omega)
  omega

theorem newPaginator_offset {page : Int} (hcount : pages prePage total * prePage ≤ maxInt64)
    (hlow : 1 ≤ page) (hhigh : page ≤ pages prePage total) :
    (newPaginator page prePage total).offset = (page - 1) * prePage := by
  obtain ⟨-, -, hoffset, -⟩ := newPaginator_fields page total hsize
  have hcurrent : clamped page (pages prePage total) = page := by
    rw [clamped, max_eq_left hlow, min_eq_left hhigh]
  have hpages := pages_le_mul hsize total
  have hword : Fits (page - 1) := ⟨by omega, show page - 1 ≤ maxInt64 by omega⟩
  rw [hoffset, hcurrent, wrap64_eq hword, wrap64_eq (fits_mul hsize hcount _ _)]
  · omega
  · omega

end

/-- What a paginator says of pages of `prePage` items, `total` in all. -/
structure Exact (prePage total : Int) (p : Paginator) : Prop where
  last : IsLeast {n | 1 ≤ n ∧ total ≤ n * prePage} p.lastPage
  current : 1 ≤ p.page ∧ p.page ≤ p.lastPage
  more : p.hasMore = true ↔ p.page < p.lastPage
  next : p.hasMore = true → p.nextPage = p.page + 1
  inside : ∀ page, 1 ≤ page → page ≤ p.lastPage → 0 < total →
    0 ≤ (newPaginator page prePage total).offset ∧
      (newPaginator page prePage total).offset < total
  windows : ∀ item, 0 ≤ item → item < total → ∃! page, (1 ≤ page ∧ page ≤ p.lastPage) ∧
    (newPaginator page prePage total).offset ≤ item ∧
      item < (newPaginator page prePage total).offset + prePage

theorem exact_of_covers (page : Int) (hsize : 1 ≤ prePage)
    (hcount : pages prePage total * prePage ≤ maxInt64)
    (h : Covers prePage total (pages prePage total)) :
    Exact prePage total (newPaginator page prePage total) := by
  obtain ⟨hlast, hpage, -, hmore, hnext⟩ := newPaginator_fields page total hsize
  have hlow : 1 ≤ clamped page (pages prePage total) := le_min (le_max_right _ _) h.pos
  have hhigh : clamped page (pages prePage total) ≤ pages prePage total := min_le_right _ _
  have hmul := fits_mul hsize hcount (by omega) hhigh
  have hoffset : ∀ page, 1 ≤ page → page ≤ pages prePage total →
      (newPaginator page prePage total).offset = (page - 1) * prePage :=
    fun page => newPaginator_offset hsize hcount
  have htight : ∀ page, 1 ≤ page → page < pages prePage total → page * prePage < total := by
    intro page hpos hlt
    have hle : page * prePage ≤ (pages prePage total - 1) * prePage :=
      Int.mul_le_mul_of_nonneg_right (by omega) (by omega)
    rcases h.tight with hone | htight <;> omega
  have hless : (newPaginator page prePage total).hasMore = true ↔
      clamped page (pages prePage total) < pages prePage total := by
    rw [hmore, decide_eq_true_iff, wrap64_eq hmul]
    constructor
    · intro hlt
      by_contra hnot
      have hlast : clamped page (pages prePage total) = pages prePage total := by omega
      have henough := h.enough
      rw [hlast] at hlt
      omega
    · exact htight _ hlow
  refine ⟨?_, ?_, ?_, ?_, ?_, ?_⟩
  · rw [hlast]
    exact (isLeast_iff_covers hsize).mpr h
  · rw [hpage, hlast]
    exact ⟨hlow, hhigh⟩
  · rw [hpage, hlast]
    exact hless
  · intro hyes
    have hpages := pages_le_mul hsize total
    have hlt := hless.mp hyes
    have hword : Fits (clamped page (pages prePage total) + 1) :=
      ⟨by omega, show _ ≤ maxInt64 by omega⟩
    rw [hnext, if_pos hyes, hpage, wrap64_eq hword]
  · intro k hk hklast hpos
    rw [hlast] at hklast
    rw [hoffset k hk hklast]
    refine ⟨Int.mul_nonneg (by omega) (by omega), ?_⟩
    rcases (show k = 1 ∨ 1 ≤ k - 1 by omega) with rfl | hmore
    · omega
    · exact htight (k - 1) hmore (by omega)
  · intro item hitem hlt
    rw [hlast]
    obtain ⟨k, hk, hwindow⟩ := covers_window hsize h hitem hlt
    refine ⟨k, ⟨hk, ?_⟩, ?_⟩
    · rw [hoffset k hk.1 hk.2]
      exact (hwindow k).mpr rfl
    · rintro k' ⟨hk', hin⟩
      rw [hoffset k' hk'.1 hk'.2] at hin
      exact (hwindow k').mp hin

/-- The fields of the paginator are exact for every requested page, exactly if the sum of total and
page size does not overflow or one page is enough. -/
theorem paginator_is_exact (page : Int) (hsize : 1 ≤ prePage) (hword : Fits prePage)
    (htotal : 0 ≤ total) (hword' : Fits total) :
    Exact prePage total (newPaginator page prePage total) ↔
      total + prePage - 1 ≤ maxInt64 ∨ total ≤ prePage := by
  obtain ⟨hcovers, hcount⟩ := covers_pages_iff hsize hword htotal hword'
  rw [← hcovers]
  constructor
  · intro h
    have hleast := h.last
    rw [(newPaginator_fields page total hsize).1] at hleast
    exact (isLeast_iff_covers hsize).mp hleast
  · exact exact_of_covers page hsize hcount

/-- Asked for the seventh page of ten items, four to a page, it gives the last one. -/
theorem paginator_is_exact_last : Exact 4 10 (newPaginator 7 4 10) :=
  (paginator_is_exact 7 (by decide) (by decide) (by decide) (by decide)).mpr (.inl (by decide))

/-- The largest total seems to fit on one page of two items. -/
theorem paginator_loses_pages :
    (newPaginator 2 2 maxInt64).lastPage = 1 ∧ (newPaginator 2 2 maxInt64).page = 1 ∧
      (newPaginator 2 2 maxInt64).hasMore = true ∧ 1 * 2 < maxInt64 := by
  decide

end Fries.Pagination
