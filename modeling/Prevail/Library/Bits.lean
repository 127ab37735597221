import Mathlib

namespace Prevail
namespace Bits

/-!
# The size of bitwise results

What an exclusive disjunction with a power of two is, and how far the conjunction,
the disjunction and the exclusive disjunction of two natural numbers can lie from the
numbers.
-/

/-- An exclusive disjunction with a power of two moves the upper half below the
lower one. -/
theorem xor_two_pow {bits n : Nat} (small : n < 2 ^ (bits + 1)) :
    n ^^^ 2 ^ bits = if n < 2 ^ bits then n + 2 ^ bits else n - 2 ^ bits := by
  have parts := Nat.div_add_mod (n ^^^ 2 ^ bits) (2 ^ bits)
  rw [Nat.xor_div_two_pow, Nat.xor_mod_two_pow, Nat.div_self (Nat.two_pow_pos bits), Nat.mod_self,
    Nat.xor_zero] at parts
  split
  · rename_i below
    rw [Nat.div_eq_of_lt below, Nat.mod_eq_of_lt below, Nat.zero_xor] at parts
    omega
  · rename_i above
    have one : n / 2 ^ bits = 1 := by
      rw [Nat.div_eq_iff (Nat.two_pow_pos bits)]
      rw [pow_succ] at small
      omega
    rw [one, Nat.mod_eq_sub_mul_div, one, Nat.xor_self] at parts
    omega

/-! ## Conjunction with a number close to the largest word -/

theorem exists_testBit_of_not_dvd {bits n : Nat} (notMultiple : ¬ 2 ^ bits ∣ n) :
    exists bit, bit < bits ∧ n.testBit bit = true := by
  have remainder : n % 2 ^ bits ≠ 0 := fun zero => notMultiple (Nat.dvd_of_mod_eq_zero zero)
  rcases Nat.exists_testBit_of_ne_zero remainder with ⟨bit, set⟩
  rw [Nat.testBit_mod_two_pow, Bool.and_eq_true, decide_eq_true_iff] at set
  exact ⟨bit, set⟩

theorem and_lt_of_testBit {n mask bit : Nat} (set : n.testBit bit = true)
    (clear : mask.testBit bit = false) :
    n &&& mask < n := by
  apply lt_of_le_of_ne Nat.and_le_left
  intro same
  have here : (n &&& mask).testBit bit = true := by rw [same, set]
  rw [Nat.testBit_and, clear, Bool.and_false] at here
  cases here

theorem testBit_below_largest {width bit : Nat} (inWord : bit < width) :
    (2 ^ width - 1 - 2 ^ bit).testBit bit = false := by
  have power : 2 ^ bit < 2 ^ width := Nat.pow_lt_pow_right (by norm_num) inWord
  rw [Nat.sub_sub, Nat.add_comm, Nat.testBit_two_pow_sub_succ power, Nat.testBit_two_pow_self]
  simp

/-- A mask that differs from the largest word in the low bits only keeps a number
above the multiples of the power of these bits. -/
theorem le_and_of_dvd {width bits lower n mask : Nat} (multiple : 2 ^ bits ∣ lower)
    (above : lower ≤ n)
    (inWord : n < 2 ^ width) (maskInWord : mask < 2 ^ width) (close : 2 ^ width ≤ mask + 2 ^ bits) :
    lower ≤ n &&& mask := by
  by_cases wide : width ≤ bits
  · have zero : lower = 0 :=
      Nat.eq_zero_of_dvd_of_lt ((Nat.pow_dvd_pow 2 wide).trans multiple) (above.trans_lt inWord)
    omega
  · have split : 2 ^ width = 2 ^ (width - bits) * 2 ^ bits := by
      rw [← pow_add]
      congr 1
      omega
    have positive : 0 < 2 ^ bits := Nat.two_pow_pos bits
    have high : mask / 2 ^ bits = 2 ^ (width - bits) - 1 := by
      rw [split] at maskInWord close
      have upper : mask / 2 ^ bits < 2 ^ (width - bits) :=
        (Nat.div_lt_iff_lt_mul positive).mpr maskInWord
      have reached : 2 ^ (width - bits) ≤ mask / 2 ^ bits + 1 := by
        rw [← Nat.add_div_right mask positive]
        exact (Nat.le_div_iff_mul_le positive).mpr close
      exact le_antisymm (Nat.le_sub_one_of_lt upper) (Nat.sub_le_of_le_add reached)
    have kept : (n &&& mask) / 2 ^ bits = n / 2 ^ bits := by
      rw [Nat.and_div_two_pow, high]
      apply Nat.and_two_pow_sub_one_of_lt_two_pow
      rw [Nat.div_lt_iff_lt_mul positive, ← split]
      exact inWord
    calc lower = lower / 2 ^ bits * 2 ^ bits := (Nat.div_mul_cancel multiple).symm
      _ ≤ n / 2 ^ bits * 2 ^ bits := Nat.mul_le_mul_right _ (Nat.div_le_div_right above)
      _ = (n &&& mask) / 2 ^ bits * 2 ^ bits := by rw [kept]
      _ ≤ n &&& mask := Nat.div_mul_le_self _ _

/-! ## Disjunctions -/

/-- The smallest number with all ones in binary that is not below a number. -/
theorem or_le_ones {m n largest : Nat} (first : m ≤ largest) (second : n ≤ largest) :
    m ||| n ≤ 2 ^ largest.size - 1 := by
  have left : m < 2 ^ largest.size := first.trans_lt (Nat.lt_size_self largest)
  have right : n < 2 ^ largest.size := second.trans_lt (Nat.lt_size_self largest)
  have both := Nat.or_lt_two_pow left right
  omega

theorem xor_le_ones {m n largest : Nat} (first : m ≤ largest) (second : n ≤ largest) :
    m ^^^ n ≤ 2 ^ largest.size - 1 := by
  have left : m < 2 ^ largest.size := first.trans_lt (Nat.lt_size_self largest)
  have right : n < 2 ^ largest.size := second.trans_lt (Nat.lt_size_self largest)
  have both := Nat.xor_lt_two_pow left right
  omega

end Bits
end Prevail
