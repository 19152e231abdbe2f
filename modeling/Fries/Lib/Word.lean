import Mathlib.Data.Int.Order.Basic

/-!
Signed arithmetic of 64 bits that gives nothing where the machine would wrap around or fail.
-/
namespace Fries.Word

/-- A number that 64 bits hold. -/
def Fits (x : Int) : Prop := -9223372036854775808 ≤ x ∧ x ≤ 9223372036854775807

instance (x : Int) : Decidable (Fits x) := inferInstanceAs (Decidable (_ ∧ _))

def check (x : Int) : Option Int := if Fits x then some x else none

def add (x y : Int) : Option Int := check (x + y)

def sub (x y : Int) : Option Int := check (x - y)

def mul (x y : Int) : Option Int := check (x * y)

/-- A quotient is cut off towards zero, and there is none by zero. -/
def div (x y : Int) : Option Int := if y = 0 then none else check (x.tdiv y)

def rem (x y : Int) : Option Int := if y = 0 then none else check (x.tmod y)

variable {x y : Int}

theorem check_eq (h : Fits x) : check x = some x := if_pos h

theorem add_eq (h : Fits (x + y)) : add x y = some (x + y) := check_eq h

theorem sub_eq (h : Fits (x - y)) : sub x y = some (x - y) := check_eq h

theorem mul_eq (h : Fits (x * y)) : mul x y = some (x * y) := check_eq h

theorem div_eq (hx : 0 ≤ x) (hfits : Fits x) (hy : 0 < y) : div x y = some (x.tdiv y) := by
  have hq : x.tdiv y = x / y := Int.tdiv_eq_ediv_of_nonneg hx
  have hnonneg : 0 ≤ x / y := Int.ediv_nonneg hx (Int.le_of_lt hy)
  have hle : x / y ≤ x := Int.ediv_le_self y hx
  rw [div, if_neg (Int.ne_of_gt hy), check_eq]
  unfold Fits at hfits ⊢
  omega

theorem rem_eq (hx : 0 ≤ x) (hfits : Fits x) (hy : 0 < y) : rem x y = some (x.tmod y) := by
  have hr : x.tmod y = x % y := Int.tmod_eq_emod_of_nonneg hx
  have hnonneg : 0 ≤ x % y := Int.emod_nonneg x (Int.ne_of_gt hy)
  have hdiv := Int.mul_ediv_add_emod x y
  have hmul := Int.mul_nonneg (Int.le_of_lt hy) (Int.ediv_nonneg hx (Int.le_of_lt hy))
  rw [rem, if_neg (Int.ne_of_gt hy), check_eq]
  unfold Fits at hfits ⊢
  omega

end Fries.Word
