import Prevail.Crab.Interval

namespace Prevail
namespace Crab

/-!
# Interval arithmetic

`operator+` and `operator-` of intervals, the product of a number and an
interval, and the quotient of an interval and a number, as `crab/interval.cpp`
computes them.  No interval has `+oo` for its lower bound or `-oo` for its
upper bound, so no sum meets two infinities of different signs.
-/

namespace Bound

/-- The sum of two lower bounds. -/
def addLower : Bound -> Bound -> Bound
  | ofNumber m, ofNumber n => ofNumber (m + n)
  | _, _ => minusInfinity

/-- The sum of two upper bounds. -/
def addUpper : Bound -> Bound -> Bound
  | ofNumber m, ofNumber n => ofNumber (m + n)
  | _, _ => plusInfinity

/-- The product of a bound and a positive number. -/
def scale (factor : Int) : Bound -> Bound
  | ofNumber n => ofNumber (factor * n)
  | infinite => infinite

/-- The product of a bound and a negative number. -/
def scaleNegative (factor : Int) : Bound -> Bound
  | minusInfinity => plusInfinity
  | ofNumber n => ofNumber (factor * n)
  | plusInfinity => minusInfinity

/-- The negative of a bound. -/
def neg : Bound -> Bound
  | minusInfinity => plusInfinity
  | ofNumber n => ofNumber (-n)
  | plusInfinity => minusInfinity

/-- The quotient of a bound and a number, rounded towards zero.  An infinity
keeps its sign whatever the sign of the divisor is. -/
def divide (divisor : Int) : Bound -> Bound
  | ofNumber n => ofNumber (n.tdiv divisor)
  | infinite => infinite

theorem addLower_le {left right : Bound} {m n : Int} (leftBelow : left ≤ ofNumber m)
    (rightBelow : right ≤ ofNumber n) : left.addLower right ≤ ofNumber (m + n) := by
  cases left <;> cases right <;> simp_all [addLower]
  omega

theorem le_addUpper {left right : Bound} {m n : Int} (leftAbove : ofNumber m ≤ left)
    (rightAbove : ofNumber n ≤ right) : ofNumber (m + n) ≤ left.addUpper right := by
  cases left <;> cases right <;> simp_all [addUpper]
  omega

end Bound

namespace Interval

/-- The sum of two intervals. -/
def add (left right : Interval) : Interval :=
  if left.IsBottom ∨ right.IsBottom then bottom
  else ⟨left.lb.addLower right.lb, left.ub.addUpper right.ub⟩

/-- The product of a number and an interval. -/
def scale (factor : Int) (interval : Interval) : Interval :=
  if interval.IsBottom then bottom
  else if 0 < factor then ⟨interval.lb.scale factor, interval.ub.scale factor⟩
  else if factor < 0 then ⟨interval.ub.scaleNegative factor, interval.lb.scaleNegative factor⟩
  else ofNumber 0

theorem mem_ofNumber {m n : Int} : m ∈ ofNumber n ↔ m = n := by
  simp only [mem_def, ofNumber, Bound.ofNumber_le_ofNumber]
  omega

theorem mem_add {left right : Interval} {m n : Int} (inLeft : m ∈ left) (inRight : n ∈ right) :
    m + n ∈ left.add right := by
  unfold add
  rw [if_neg (not_or.mpr ⟨not_isBottom_of_mem inLeft, not_isBottom_of_mem inRight⟩)]
  exact ⟨Bound.addLower_le inLeft.1 inRight.1, Bound.le_addUpper inLeft.2 inRight.2⟩

theorem mem_scale {interval : Interval} {n : Int} (factor : Int) (member : n ∈ interval) :
    factor * n ∈ interval.scale factor := by
  unfold scale
  rw [if_neg (not_isBottom_of_mem member)]
  rcases interval with ⟨lb, ub⟩
  rcases member with ⟨lower, upper⟩
  split
  · rename_i positive
    constructor
    · cases lb <;> simp_all [Bound.scale]
    · cases ub <;> simp_all [Bound.scale]
  · split
    · rename_i negative
      constructor
      · cases ub <;> simp_all [Bound.scaleNegative]
      · cases lb <;> simp_all [Bound.scaleNegative]
    · have zero : factor = 0 := by omega
      simp [mem_ofNumber, zero]

/-- `operator-` with two operands. -/
def sub (left right : Interval) : Interval :=
  if left.IsBottom ∨ right.IsBottom then bottom
  else ⟨left.lb.addLower right.ub.neg, left.ub.addUpper right.lb.neg⟩

/-- `operator/` with a divisor that is a number. -/
def divide (interval : Interval) (divisor : Int) : Interval :=
  if interval.IsBottom then bottom
  else if divisor = 1 then interval
  else if 0 < divisor then mk' (interval.lb.divide divisor) (interval.ub.divide divisor)
  else if divisor < 0 then mk' (interval.ub.divide divisor) (interval.lb.divide divisor)
  else ofNumber 0

end Interval

end Crab
end Prevail
