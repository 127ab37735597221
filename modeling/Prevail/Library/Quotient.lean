import Mathlib

namespace Prevail
namespace Quotient

/-!
# Quotients at the corners of a box

A quotient of two numbers grows with the dividend and shrinks with the divisor,
as long as no sign changes.  So the quotients of the numbers in a box lie between
those at its corners.
-/

/-- A smaller dividend and a larger divisor. -/
theorem ediv_le_ediv_of_le {smaller larger m n : Int} (nonneg : 0 ≤ m) (dividend : m ≤ n)
    (positive : 0 < smaller) (divisor : smaller ≤ larger) : m / larger ≤ n / smaller := by
  have divisorPositive : 0 < larger := positive.trans_le divisor
  have quotient : 0 ≤ m / larger := Int.ediv_nonneg nonneg divisorPositive.le
  apply (Int.le_ediv_iff_mul_le positive).mpr
  calc m / larger * smaller ≤ m / larger * larger := Int.mul_le_mul_of_nonneg_left divisor quotient
    _ ≤ m := Int.ediv_mul_le m divisorPositive.ne'
    _ ≤ n := dividend

/-! ## Remainders of truncated divisions -/

section Remainder

variable {x y : Int}

theorem tmod_abs (x y : Int) : x.tmod |y| = x.tmod y := by
  rcases abs_cases y with ⟨same, _⟩ | ⟨negated, _⟩
  · rw [same]
  · rw [negated, Int.tmod_neg]

theorem tmod_bounds_of_nonneg (nonneg : 0 ≤ x) (nonzero : y ≠ 0) :
    0 ≤ x.tmod y ∧ x.tmod y ≤ x ∧ x.tmod y < |y| := by
  have positive : 0 < |y| := abs_pos.mpr nonzero
  have quotient : 0 ≤ |y| * (x / |y|) :=
    Int.mul_nonneg positive.le (Int.ediv_nonneg nonneg positive.le)
  have split := Int.emod_add_mul_ediv x |y|
  rw [← tmod_abs, Int.tmod_eq_emod_of_nonneg nonneg]
  exact ⟨Int.emod_nonneg x positive.ne', by omega, Int.emod_lt_of_pos x positive⟩

theorem tmod_bounds_of_nonpos (nonpos : x ≤ 0) (nonzero : y ≠ 0) :
    x ≤ x.tmod y ∧ x.tmod y ≤ 0 ∧ -|y| < x.tmod y := by
  have bounds := tmod_bounds_of_nonneg (show 0 ≤ -x by omega) nonzero
  rw [Int.neg_tmod] at bounds
  omega

theorem tmod_eq_self (small : |x| < |y|) : x.tmod y = x := by
  rw [← tmod_abs]
  rcases le_total 0 x with nonneg | nonpos
  · rw [Int.tmod_eq_emod_of_nonneg nonneg]
    rw [abs_of_nonneg nonneg] at small
    exact Int.emod_eq_of_lt nonneg small
  · have negated : (-x).tmod |y| = -x := by
      rw [Int.tmod_eq_emod_of_nonneg (by omega)]
      rw [abs_of_nonpos nonpos] at small
      exact Int.emod_eq_of_lt (by omega) small
    rw [Int.neg_tmod] at negated
    omega

end Remainder

end Quotient
end Prevail
