import Prevail.Crab.IntervalDivision
import Prevail.Library.Bits
import Prevail.Library.Quotient

namespace Prevail
namespace Crab

/-!
# Products, signed remainders and bitwise operators of intervals

The operators of `crab/interval.cpp` besides the divisions, the unsigned
remainder and the conjunction.  Only `LShr` can throw: `operator>>` of
`number_t` refuses a shift amount that is not an `int32_t`.
-/

namespace Bound

/-- The field `_n` of `extended_number`, which holds the sign of an infinity. -/
def value : Bound -> Int
  | minusInfinity => -1
  | ofNumber n => n
  | plusInfinity => 1

/-- `operator*` of `extended_number`. -/
def mul : Bound -> Bound -> Bound
  | ofNumber m, ofNumber n => ofNumber (m * n)
  | m, n =>
      if n.value = 0 then n
      else if m.value = 0 then m
      else if 0 < m.value * n.value then plusInfinity
      else minusInfinity

section Products

variable {l m n : Bound}

theorem mul_comm (m n : Bound) : m.mul n = n.mul m := by
  cases m <;> cases n <;> simp [mul, value, Int.mul_comm]

theorem zero_mul (n : Bound) : (ofNumber 0).mul n = ofNumber 0 := by
  cases n <;> simp [mul, value]

theorem mul_plusInfinity (n : Int) : (ofNumber n).mul plusInfinity =
    if n = 0 then ofNumber 0 else if 0 < n then plusInfinity else minusInfinity := by
  by_cases zero : n = 0 <;> simp [mul, value, zero]

theorem mul_minusInfinity (n : Int) : (ofNumber n).mul minusInfinity =
    if n = 0 then ofNumber 0 else if n < 0 then plusInfinity else minusInfinity := by
  by_cases zero : n = 0 <;> simp [mul, value, zero]

/-- A positive number keeps the order. -/
theorem mul_le_mul_of_pos {k : Int} (positive : 0 < k) (below : l ≤ n) :
    (ofNumber k).mul l ≤ (ofNumber k).mul n := by
  have top : (ofNumber k).mul plusInfinity = plusInfinity := by
    rw [mul_plusInfinity, if_neg positive.ne', if_pos positive]
  have bottom : (ofNumber k).mul minusInfinity = minusInfinity := by
    rw [mul_minusInfinity, if_neg positive.ne', if_neg (not_lt.mpr positive.le)]
  cases l with
  | minusInfinity =>
      rw [bottom]
      exact minusInfinity_le _
  | plusInfinity =>
      rw [le_antisymm (le_plusInfinity n) below]
  | ofNumber x =>
      cases n with
      | minusInfinity => exact absurd below (not_le_minusInfinity x)
      | plusInfinity =>
          rw [top]
          exact le_plusInfinity _
      | ofNumber y => exact Int.mul_le_mul_of_nonneg_left below positive.le

theorem plusInfinity_mul_le_mul (below : l ≤ n) : plusInfinity.mul l ≤ plusInfinity.mul n := by
  have number : forall k : Int, plusInfinity.mul (ofNumber k) =
      if k = 0 then ofNumber 0 else if 0 < k then plusInfinity else minusInfinity := by
    intro k
    rw [mul_comm, mul_plusInfinity]
  cases l with
  | minusInfinity => exact minusInfinity_le _
  | plusInfinity => rw [le_antisymm (le_plusInfinity n) below]
  | ofNumber x =>
      cases n with
      | minusInfinity => exact absurd below (not_le_minusInfinity x)
      | plusInfinity => exact le_plusInfinity _
      | ofNumber y =>
          rw [ofNumber_le_ofNumber] at below
          rw [number, number]
          split_ifs <;> first | omega | simp

theorem neg_mul (m n : Bound) : m.neg.mul n = (m.mul n).neg := by
  cases m with
  | ofNumber k =>
      cases n with
      | ofNumber x => simp [neg, mul]
      | minusInfinity =>
          change (ofNumber (-k)).mul minusInfinity = _
          rw [mul_minusInfinity, mul_minusInfinity]
          split_ifs <;> first | rfl | omega
      | plusInfinity =>
          change (ofNumber (-k)).mul plusInfinity = _
          rw [mul_plusInfinity, mul_plusInfinity]
          split_ifs <;> first | rfl | omega
  | minusInfinity =>
      cases n with
      | ofNumber x =>
          change plusInfinity.mul (ofNumber x) = (minusInfinity.mul (ofNumber x)).neg
          rw [mul_comm, mul_comm minusInfinity, mul_plusInfinity, mul_minusInfinity]
          split_ifs <;> first | rfl | omega
      | minusInfinity => rfl
      | plusInfinity => rfl
  | plusInfinity =>
      cases n with
      | ofNumber x =>
          change minusInfinity.mul (ofNumber x) = (plusInfinity.mul (ofNumber x)).neg
          rw [mul_comm, mul_comm plusInfinity, mul_plusInfinity, mul_minusInfinity]
          split_ifs <;> first | rfl | omega
      | minusInfinity => rfl
      | plusInfinity => rfl

theorem neg_le_neg (below : m ≤ n) : n.neg ≤ m.neg := by
  cases m <;> cases n <;> simp_all [neg]

theorem neg_neg (m : Bound) : m.neg.neg = m := by
  cases m <;> simp [neg]

/-- A factor that is not negative keeps the order. -/
theorem mul_le_mul (nonneg : ofNumber 0 ≤ m) (below : l ≤ n) : m.mul l ≤ m.mul n := by
  cases m with
  | minusInfinity => exact absurd nonneg (not_le_minusInfinity 0)
  | plusInfinity => exact plusInfinity_mul_le_mul below
  | ofNumber k =>
      rcases (ofNumber_le_ofNumber.mp nonneg).eq_or_lt with zero | positive
      · rw [← zero, zero_mul, zero_mul]
      · exact mul_le_mul_of_pos positive below

/-- A factor that is not positive turns the order around. -/
theorem mul_le_mul_of_nonpos (nonpos : m ≤ ofNumber 0) (below : l ≤ n) : m.mul n ≤ m.mul l := by
  have kept := neg_le_neg (mul_le_mul (neg_le_neg nonpos) below)
  rwa [neg_mul, neg_mul, neg_neg, neg_neg] at kept

end Products

end Bound

namespace Interval

/-- `operator*`. -/
def mul (interval x : Interval) : Interval :=
  if interval.IsBottom ∨ x.IsBottom then bottom
  else
    between (interval.lb.mul x.lb) (interval.lb.mul x.ub) (interval.ub.mul x.lb)
      (interval.ub.mul x.ub)

/-- The body of `SRem`, with its recursive calls as a parameter. -/
def sRemBody (self : Interval -> Interval -> Interval) (interval x : Interval) : Interval :=
  if interval.IsBottom ∨ x.IsBottom then bottom
  else
    match interval.singleton, x.singleton with
    | some dividend, some divisor =>
        if divisor = 0 then ofNumber dividend else ofNumber (dividend.tmod divisor)
    | _, _ =>
      if 0 ∈ x then ((self interval x.negativePart).join (self interval x.positivePart)).join
        interval
      else
        match x.lb.number, x.ub.number with
        | some xlb, some xub =>
            let minDivisor := Min.min |xlb| |xub|
            let maxDivisor := Max.max |xlb| |xub|
            if interval.ub < .ofNumber minDivisor ∧ interval.lb.neg < .ofNumber minDivisor
              then interval
            else if interval.lb < .ofNumber 0 then
              if .ofNumber 0 < interval.ub then range (-(maxDivisor - 1)) (maxDivisor - 1)
              else range (-(maxDivisor - 1)) 0
            else range 0 (maxDivisor - 1)
        | _, _ => interval.join (ofNumber 0)

/-- `interval_t::SRem`.  The parts of a divisor have no zero, so the calls are
nested at most two deep. -/
def sRem : Interval -> Interval -> Interval := sRemBody (sRemBody (fun _ _ => bottom))

def fillOnes (n : Int) : Int := if n = 0 then 0 else 2 ^ n.toNat.size - 1

def or (interval x : Interval) : Interval :=
  if interval.IsBottom ∨ x.IsBottom then bottom
  else
    match interval.singleton, x.singleton with
    | some leftOp, some rightOp => ofNumber (leftOp.lor rightOp)
    | _, _ =>
      if .ofNumber 0 ≤ interval.lb ∧ .ofNumber 0 ≤ x.lb then
        match interval.ub.number, x.ub.number with
        | some leftUb, some rightUb => range 0 (fillOnes (Max.max leftUb rightUb))
        | _, _ => mk' (.ofNumber 0) .plusInfinity
      else top

def xor (interval x : Interval) : Interval :=
  if interval.IsBottom ∨ x.IsBottom then bottom
  else
    match interval.singleton, x.singleton with
    | some leftOp, some rightOp => ofNumber (leftOp.xor rightOp)
    | _, _ => interval.or x

/-- The factor that the loop of `Shl` computes. -/
def shiftFactor (k : Int) : Int := (fun factor => factor * 2)^[k.toNat] 1

def shl (interval x : Interval) : Interval :=
  if interval.IsBottom ∨ x.IsBottom then bottom
  else
    match x.singleton with
    | some k => if k < 0 then top else if k ≤ 128 then interval.mul (ofNumber
      (shiftFactor k)) else top
    | none => top

/-- `operator>>` of `number_t`. -/
def shiftRight (n amount : Int) : Option Int :=
  if amount < 0 then none else if IntType.int32.Fits amount then some (n >>> amount.toNat) else none

def lShr (interval x : Interval) : Option Interval :=
  if interval.IsBottom ∨ x.IsBottom then some bottom
  else
    match x.singleton with
    | some shift =>
        match interval.lb.number, interval.ub.number with
        | some lb, some ub =>
            if 0 < shift ∧ 0 ≤ lb then do
              let lower <- shiftRight lb shift
              let upper <- shiftRight ub shift
              return range lower upper
            else some top
        | _, _ => some top
    | none => some top

/-! ## Products -/

section Product

variable {a b : Interval} {x y : Int}

theorem mem_mul (inLeft : x ∈ a) (inRight : y ∈ b) : x * y ∈ a.mul b := by
  rw [mul, if_neg (not_or.mpr ⟨not_isBottom_of_mem inLeft, not_isBottom_of_mem inRight⟩)]
  -- First the dividend moves to an end of its interval, then the other factor.
  have atEnd : forall m : Bound, exists lower upper, (lower = m.mul b.lb ∨ lower = m.mul b.ub) ∧
      (upper = m.mul b.lb ∨ upper = m.mul b.ub) ∧ lower ≤ m.mul (.ofNumber y) ∧
      m.mul (.ofNumber y) ≤ upper := by
    intro m
    rcases le_total (.ofNumber 0) m with nonneg | nonpos
    · exact ⟨_, _, Or.inl rfl, Or.inr rfl, Bound.mul_le_mul nonneg inRight.1,
        Bound.mul_le_mul nonneg inRight.2⟩
    · exact ⟨_, _, Or.inr rfl, Or.inl rfl, Bound.mul_le_mul_of_nonpos nonpos inRight.2,
        Bound.mul_le_mul_of_nonpos nonpos inRight.1⟩
  rcases atEnd a.lb with ⟨lowerLeft, upperLeft, isLowerLeft, isUpperLeft, belowLeft, aboveLeft⟩
  rcases atEnd a.ub with ⟨lowerRight, upperRight, isLowerRight, isUpperRight,
    belowRight, aboveRight⟩
  have product : Bound.ofNumber (x * y) = (Bound.ofNumber y).mul (.ofNumber x) := by
    rw [Bound.mul_comm]
    rfl
  rw [Bound.mul_comm] at belowLeft aboveLeft belowRight aboveRight
  rcases le_total (.ofNumber 0) (Bound.ofNumber y) with nonneg | nonpos
  · have lower := Bound.mul_le_mul nonneg inLeft.1
    have upper := Bound.mul_le_mul nonneg inLeft.2
    apply mem_between (isLowerLeft.elim Or.inl (fun same => Or.inr (Or.inl same)))
      (isUpperRight.elim (fun same => Or.inr (Or.inr (Or.inl same)))
        (fun same => Or.inr (Or.inr (Or.inr same))))
    · rw [product]
      exact belowLeft.trans lower
    · rw [product]
      exact upper.trans aboveRight
  · have lower := Bound.mul_le_mul_of_nonpos nonpos inLeft.2
    have upper := Bound.mul_le_mul_of_nonpos nonpos inLeft.1
    apply mem_between
      (isLowerRight.elim (fun same => Or.inr (Or.inr (Or.inl same)))
        (fun same => Or.inr (Or.inr (Or.inr same))))
      (isUpperLeft.elim Or.inl (fun same => Or.inr (Or.inl same)))
    · rw [product]
      exact belowRight.trans lower
    · rw [product]
      exact upper.trans aboveLeft

end Product

/-! ## Signed remainders -/

/-- What a remainder of signed words computes. -/
def signedRemainder (x y : Int) : Int := if y = 0 then x else x.tmod y

section SRem

variable {a b : Interval} {x y : Int} {self : Interval -> Interval -> Interval}

/-- The least and the largest absolute value of a divisor without zero. -/
theorem abs_bounds {lb ub : Int} (lower : lb ≤ y) (upper : y ≤ ub) (nonzero : ¬ (lb ≤ 0 ∧ 0 ≤ ub)) :
    y ≠ 0 ∧ min |lb| |ub| ≤ |y| ∧ |y| ≤ max |lb| |ub| := by
  by_cases positive : 0 < lb
  · rw [abs_of_pos positive, abs_of_pos (show 0 < ub by omega), abs_of_pos (show 0 < y by omega)]
    omega
  · rw [abs_of_neg (show lb < 0 by omega), abs_of_neg (show ub < 0 by omega),
      abs_of_neg (show y < 0 by omega)]
    omega

theorem mem_sRem_bounded {lb ub : Int} (inLeft : x ∈ a) (lower : lb ≤ y) (upper : y ≤ ub)
    (nonzero : ¬ (lb ≤ 0 ∧ 0 ≤ ub)) : x.tmod y ∈
      if a.ub < .ofNumber (min |lb| |ub|) ∧ a.lb.neg < .ofNumber (min |lb| |ub|) then a
      else if a.lb < .ofNumber 0 then
        if .ofNumber 0 < a.ub then range (-(max |lb| |ub| - 1)) (max |lb| |ub| - 1)
        else range (-(max |lb| |ub| - 1)) 0
      else range 0 (max |lb| |ub| - 1) := by
  have bounds := abs_bounds lower upper nonzero
  have fromNonneg := fun nonneg => Quotient.tmod_bounds_of_nonneg (x := x) nonneg bounds.1
  have fromNonpos := fun nonpos => Quotient.tmod_bounds_of_nonpos (x := x) nonpos bounds.1
  split
  · rename_i small
    have above := Bound.ofNumber_lt_ofNumber.mp (inLeft.2.trans_lt small.1)
    have below := Bound.ofNumber_lt_ofNumber.mp ((Bound.neg_le_neg inLeft.1).trans_lt small.2)
    have inside : |x| < |y| := by
      rw [abs_lt]
      omega
    rw [Quotient.tmod_eq_self inside]
    exact inLeft
  · split
    · split
      · rw [mem_range]
        rcases le_total 0 x with nonneg | nonpos
        · have result := fromNonneg nonneg
          omega
        · have result := fromNonpos nonpos
          omega
      · rename_i notPositive
        have nonpos := Bound.ofNumber_le_ofNumber.mp (inLeft.2.trans (not_lt.mp notPositive))
        have result := fromNonpos nonpos
        rw [mem_range]
        omega
    · rename_i notNegative
      have nonneg := Bound.ofNumber_le_ofNumber.mp ((not_lt.mp notNegative).trans inLeft.1)
      have result := fromNonneg nonneg
      rw [mem_range]
      omega

theorem mem_sRemBody_of_nonzero (inLeft : x ∈ a) (inRight : y ∈ b) (nonzero : 0 ∉ b) :
    x.tmod y ∈ sRemBody self a b := by
  have different : y ≠ 0 := fun zero => nonzero (zero ▸ inRight)
  rw [sRemBody, if_neg (not_or.mpr ⟨not_isBottom_of_mem inLeft, not_isBottom_of_mem inRight⟩)]
  split
  · rename_i dividend divisor leftSingle rightSingle
    rw [← eq_of_singleton leftSingle inLeft, ← eq_of_singleton rightSingle inRight,
      if_neg different]
    exact mem_ofNumber.mpr rfl
  · rw [if_neg nonzero]
    split
    · rename_i lb ub atLower atUpper
      have lower := inRight.1
      have upper := inRight.2
      rw [Bound.number_eq_some.mp atLower] at lower
      rw [Bound.number_eq_some.mp atUpper] at upper
      apply mem_sRem_bounded inLeft (Bound.ofNumber_le_ofNumber.mp lower)
        (Bound.ofNumber_le_ofNumber.mp upper)
      rintro ⟨below, above⟩
      apply nonzero
      rw [mem_def, Bound.number_eq_some.mp atLower, Bound.number_eq_some.mp atUpper]
      exact ⟨Bound.ofNumber_le_ofNumber.mpr below, Bound.ofNumber_le_ofNumber.mpr above⟩
    · -- The remainder lies between the dividend and zero.
      have atZero : (0 : Int) ∈ a.join (ofNumber 0) := mem_join (Or.inr (mem_ofNumber.mpr rfl))
      have atDividend := @mem_join x a (ofNumber 0) (Or.inl inLeft)
      rcases le_total 0 x with nonneg | nonpos
      · have result := Quotient.tmod_bounds_of_nonneg nonneg different
        exact mem_of_mem_of_mem atZero atDividend result.1 result.2.1
      · have result := Quotient.tmod_bounds_of_nonpos nonpos different
        exact mem_of_mem_of_mem atDividend atZero result.1 result.2.1

theorem mem_sRem (inLeft : x ∈ a) (inRight : y ∈ b) : signedRemainder x y ∈ a.sRem b := by
  rw [sRem, signedRemainder]
  by_cases inDivisor : 0 ∈ b
  · rw [sRemBody, if_neg (not_or.mpr ⟨not_isBottom_of_mem inLeft, not_isBottom_of_mem inRight⟩)]
    split
    · rename_i dividend divisor leftSingle rightSingle
      rw [eq_of_singleton leftSingle inLeft, eq_of_singleton rightSingle inRight]
      split
      · exact mem_ofNumber.mpr rfl
      · exact mem_ofNumber.mpr rfl
    · rw [if_pos inDivisor]
      rcases mem_parts inRight with zero | negative | positive
      · rw [if_pos zero]
        exact mem_join (Or.inr inLeft)
      · rw [if_neg (mem_negativePart.mp negative).2.ne]
        exact mem_join (Or.inl (mem_join (Or.inl
          (mem_sRemBody_of_nonzero inLeft negative (zero_not_mem_negativePart b)))))
      · rw [if_neg (mem_positivePart.mp positive).1.ne']
        exact mem_join (Or.inl (mem_join (Or.inr
          (mem_sRemBody_of_nonzero inLeft positive (zero_not_mem_positivePart b)))))
  · have different : y ≠ 0 := fun zero => inDivisor (zero ▸ inRight)
    rw [if_neg different]
    exact mem_sRemBody_of_nonzero inLeft inRight inDivisor

end SRem

/-! ## Bitwise operators -/

section Bitwise

variable {a b : Interval} {x y : Int}

theorem fillOnes_of_nonneg (n : Nat) : fillOnes n = ((2 ^ n.size - 1 : Nat) : Int) := by
  have positive := Nat.two_pow_pos n.size
  rw [fillOnes, Int.toNat_natCast]
  split
  · rename_i zero
    rw [Int.natCast_eq_zero.mp zero]
    rfl
  · push_cast [positive]
    rfl

/-- The common part of `Or` and `Xor`: a result up to the ones that the larger of
the two bounds fills. -/
theorem mem_or_of_le {n : Nat} (leftNonneg : 0 ≤ x) (inLeft : x ∈ a) (inRight : y ∈ b)
    (several : a.singleton = none ∨ b.singleton = none)
    (ones : forall largest : Nat, x ≤ largest -> y ≤ largest -> n ≤ 2 ^ largest.size - 1) :
    (n : Int) ∈ a.or b := by
  rw [or, if_neg (not_or.mpr ⟨not_isBottom_of_mem inLeft, not_isBottom_of_mem inRight⟩)]
  split
  · rename_i leftSingle rightSingle
    rw [leftSingle, rightSingle] at several
    rcases several with impossible | impossible
    · cases impossible
    · cases impossible
  · split
    · split
      · rename_i leftUb rightUb atLeft atRight
        have left := inLeft.2
        have right := inRight.2
        rw [Bound.number_eq_some.mp atLeft, Bound.ofNumber_le_ofNumber] at left
        rw [Bound.number_eq_some.mp atRight, Bound.ofNumber_le_ofNumber] at right
        have nonneg : 0 ≤ max leftUb rightUb := leftNonneg.trans (left.trans (le_max_left _ _))
        rcases Int.eq_ofNat_of_zero_le nonneg with ⟨largest, same⟩
        have small := ones largest (same ▸ left.trans (le_max_left _ _))
          (same ▸ right.trans (le_max_right _ _))
        rw [same, fillOnes_of_nonneg, mem_range]
        exact ⟨Int.natCast_nonneg n, Int.ofNat_le.mpr small⟩
      · exact mem_range_zero (Int.natCast_nonneg n) (Bound.le_plusInfinity _)
    · exact ⟨Bound.minusInfinity_le _, Bound.le_plusInfinity _⟩

theorem mem_or (leftNonneg : 0 ≤ x) (rightNonneg : 0 ≤ y) (inLeft : x ∈ a) (inRight : y ∈ b) :
    x.lor y ∈ a.or b := by
  by_cases several : a.singleton = none ∨ b.singleton = none
  · rcases Int.eq_ofNat_of_zero_le leftNonneg with ⟨m, rfl⟩
    rcases Int.eq_ofNat_of_zero_le rightNonneg with ⟨n, rfl⟩
    apply mem_or_of_le leftNonneg inLeft inRight several
    intro largest first second
    exact Bits.or_le_ones (Int.ofNat_le.mp first) (Int.ofNat_le.mp second)
  · rcases Option.ne_none_iff_exists'.mp (not_or.mp several).1 with ⟨leftOp, leftSingle⟩
    rcases Option.ne_none_iff_exists'.mp (not_or.mp several).2 with ⟨rightOp, rightSingle⟩
    rw [or, if_neg (not_or.mpr ⟨not_isBottom_of_mem inLeft, not_isBottom_of_mem inRight⟩),
      leftSingle, rightSingle, eq_of_singleton leftSingle inLeft,
      eq_of_singleton rightSingle inRight]
    exact mem_ofNumber.mpr rfl

theorem mem_xor (leftNonneg : 0 ≤ x) (rightNonneg : 0 ≤ y) (inLeft : x ∈ a) (inRight : y ∈ b) :
    x.xor y ∈ a.xor b := by
  rw [xor, if_neg (not_or.mpr ⟨not_isBottom_of_mem inLeft, not_isBottom_of_mem inRight⟩)]
  by_cases several : a.singleton = none ∨ b.singleton = none
  · have single : forall leftOp rightOp,
        ¬ (a.singleton = some leftOp ∧ b.singleton = some rightOp) := by
      rintro leftOp rightOp ⟨leftSingle, rightSingle⟩
      rw [leftSingle, rightSingle] at several
      simp at several
    split
    · rename_i leftSingle rightSingle
      exact absurd ⟨leftSingle, rightSingle⟩ (single _ _)
    · rcases Int.eq_ofNat_of_zero_le leftNonneg with ⟨m, rfl⟩
      rcases Int.eq_ofNat_of_zero_le rightNonneg with ⟨n, rfl⟩
      apply mem_or_of_le leftNonneg inLeft inRight several
      intro largest first second
      exact Bits.xor_le_ones (Int.ofNat_le.mp first) (Int.ofNat_le.mp second)
  · rcases Option.ne_none_iff_exists'.mp (not_or.mp several).1 with ⟨leftOp, leftSingle⟩
    rcases Option.ne_none_iff_exists'.mp (not_or.mp several).2 with ⟨rightOp, rightSingle⟩
    rw [leftSingle, rightSingle, eq_of_singleton leftSingle inLeft,
      eq_of_singleton rightSingle inRight]
    exact mem_ofNumber.mpr rfl

theorem shiftFactor_eq (k : Int) : shiftFactor k = 2 ^ k.toNat := by
  rw [shiftFactor]
  induction k.toNat with
  | zero => rfl
  | succ n inductionHypothesis => rw [Function.iterate_succ_apply', inductionHypothesis, pow_succ]

theorem mem_shl (inLeft : x ∈ a) (inRight : y ∈ b) : x * 2 ^ y.toNat ∈ a.shl b := by
  have anything : forall n : Int, n ∈ top :=
    fun n => ⟨Bound.minusInfinity_le _, Bound.le_plusInfinity _⟩
  rw [shl, if_neg (not_or.mpr ⟨not_isBottom_of_mem inLeft, not_isBottom_of_mem inRight⟩)]
  split
  · rename_i k single
    split
    · exact anything _
    · split
      · rw [eq_of_singleton single inRight, shiftFactor_eq]
        exact mem_mul inLeft (mem_ofNumber.mpr rfl)
      · exact anything _
  · exact anything _

/-- `LShr` throws for one kind of operands: a shift amount beyond `int32_t`, and an
interval of known numbers from zero on. -/
def ThrowsInLShr (a b : Interval) : Prop :=
  exists shift lb ub, b.singleton = some shift ∧ IntType.int32.max < shift ∧
    a.lb = .ofNumber lb ∧ 0 ≤ lb ∧ a.ub = .ofNumber ub

theorem mem_lShr (inLeft : x ∈ a) (inRight : y ∈ b) (amount : ¬ ThrowsInLShr a b) :
    ∃ interval ∈ a.lShr b, x / 2 ^ y.toNat ∈ interval := by
  have anything : forall n : Int, n ∈ top :=
    fun n => ⟨Bound.minusInfinity_le _, Bound.le_plusInfinity _⟩
  rw [lShr, if_neg (not_or.mpr ⟨not_isBottom_of_mem inLeft, not_isBottom_of_mem inRight⟩)]
  split
  · rename_i shift single
    split
    · rename_i lb ub atLower atUpper
      split
      · rename_i positive
        have lower := inLeft.1
        have upper := inLeft.2
        rw [Bound.number_eq_some.mp atLower, Bound.ofNumber_le_ofNumber] at lower
        rw [Bound.number_eq_some.mp atUpper, Bound.ofNumber_le_ofNumber] at upper
        have fits : IntType.int32.Fits shift := by
          refine ⟨LE.le.trans (by decide) positive.1.le, ?_⟩
          by_contra large
          exact amount ⟨shift, lb, ub, single, not_le.mp large,
            Bound.number_eq_some.mp atLower, positive.2, Bound.number_eq_some.mp atUpper⟩
        have shifts : forall n : Int, shiftRight n shift = some (n / 2 ^ shift.toNat) := by
          intro n
          rw [shiftRight, if_neg (not_lt.mpr positive.1.le), if_pos fits, Int.shiftRight_eq_div_pow]
          push_cast
          rfl
        have power : (0 : Int) < 2 ^ shift.toNat := by positivity
        rw [eq_of_singleton single inRight, shifts lb, shifts ub]
        refine ⟨_, rfl, mem_range.mpr ⟨Int.ediv_le_ediv power lower, Int.ediv_le_ediv power upper⟩⟩
      · exact ⟨top, rfl, anything _⟩
    · exact ⟨top, rfl, anything _⟩
  · exact ⟨top, rfl, anything _⟩

/-- What the operators promise for two members. -/
structure OperatorsSound (a b : Interval) (x y : Int) : Prop where
  mul : x * y ∈ a.mul b
  sRem : signedRemainder x y ∈ a.sRem b
  or : 0 ≤ x -> 0 ≤ y -> x.lor y ∈ a.or b
  xor : 0 ≤ x -> 0 ≤ y -> x.xor y ∈ a.xor b
  shl : 0 ≤ y -> x * 2 ^ y.toNat ∈ a.shl b

/-- What `LShr` promises for two members. -/
def LShrSound (a b : Interval) (x y : Int) : Prop :=
  0 ≤ x -> 0 ≤ y -> ∃ interval ∈ a.lShr b, x / 2 ^ y.toNat ∈ interval

/-- The operators are sound, and so is `LShr` where it does not throw. -/
theorem operators_sound {a b : Interval} {x y : Int} (inLeft : x ∈ a) (inRight : y ∈ b) :
    OperatorsSound a b x y ∧ (¬ ThrowsInLShr a b -> LShrSound a b x y) := by
  refine ⟨?_, fun amount _ _ => mem_lShr inLeft inRight amount⟩
  exact
    { mul := mem_mul inLeft inRight
      sRem := mem_sRem inLeft inRight
      or := fun leftNonneg rightNonneg => mem_or leftNonneg rightNonneg inLeft inRight
      xor := fun leftNonneg rightNonneg => mem_xor leftNonneg rightNonneg inLeft inRight
      shl := fun _ => mem_shl inLeft inRight }

theorem operators_sound_six : OperatorsSound (range 4 8) (ofNumber 2) 6 2 ∧
    (¬ ThrowsInLShr (range 4 8) (ofNumber 2) -> LShrSound (range 4 8) (ofNumber 2) 6 2) :=
  operators_sound (by decide) (by decide)

/-- There is no result for a shift by `2^31`. -/
theorem not_lShrSound_shift : ¬ forall (a b : Interval) (x y : Int), ¬ a.IsBottom ->
    ¬ b.IsBottom -> x ∈ a -> y ∈ b -> OperatorsSound a b x y ∧ LShrSound a b x y := by
  intro all
  have sound := all (ofNumber 1) (ofNumber (2 ^ 31)) 1 (2 ^ 31) (by decide) (by decide)
    (by decide) (by decide)
  rcases sound.2 (by decide) (by decide) with ⟨interval, result, _⟩
  have none : (ofNumber 1).lShr (ofNumber (2 ^ 31)) = none := by decide
  rw [none] at result
  cases result

end Bitwise

end Interval
end Crab
end Prevail
