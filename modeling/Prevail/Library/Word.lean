import Mathlib

namespace Prevail
namespace Word

/-!
# The two readings of a word

Facts about the signed and the unsigned number of a word of 64 bits and of its
low half, in the form that linear arithmetic uses.
-/

/-- The signed reading of a word, by its sign. -/
theorem toInt_cases (word : BitVec 64) :
    (word.toInt = word.toNat ∧ word.toNat < 2 ^ 63) ∨
      (word.toInt = word.toNat - 2 ^ 64 ∧ 2 ^ 63 ≤ word.toNat ∧ word.toNat < 2 ^ 64) := by
  have bound := word.isLt
  rw [BitVec.toInt_eq_toNat_cond]
  split <;> omega

theorem low_cases (word : BitVec 64) :
    (word.setWidth 32).toNat = word.toNat % 2 ^ 32 ∧
      (((word.setWidth 32).toInt = (word.toNat % 2 ^ 32 : Nat) ∧ word.toNat % 2 ^ 32 < 2 ^ 31) ∨
        ((word.setWidth 32).toInt = (word.toNat % 2 ^ 32 : Nat) - 2 ^ 32 ∧
        2 ^ 31 ≤ word.toNat % 2 ^ 32)) := by
  have low : (word.setWidth 32).toNat = word.toNat % 2 ^ 32 := BitVec.toNat_setWidth ..
  refine ⟨low, ?_⟩
  rw [BitVec.toInt_eq_toNat_cond, low]
  split <;> omega

theorem le_toNat_of_low_negative {word : BitVec 64} (negative : (word.setWidth 32).toInt < 0) :
    2 ^ 31 ≤ word.toNat := by
  have low := low_cases word
  omega

/-- A word without a high half and with a nonnegative low half is its low half. -/
theorem low_of_narrow {word : BitVec 64} (narrow : word.toNat < 2 ^ 32)
    (nonnegative : 0 ≤ (word.setWidth 32).toInt) :
    (word.setWidth 32).toInt = word.toNat ∧ word.toInt = word.toNat := by
  have low := low_cases word
  have whole := toInt_cases word
  omega

theorem low_le_of_nonnegative {word : BitVec 64} (nonnegative : 0 ≤ word.toInt) :
    (word.setWidth 32).toInt ≤ word.toInt ∧ word.toInt = word.toNat := by
  have low := low_cases word
  have whole := toInt_cases word
  omega

theorem low_of_signed {word : BitVec 64} (lower : -2 ^ 31 ≤ word.toInt)
    (upper : word.toInt ≤ 2 ^ 31 - 1) :
    (word.setWidth 32).toInt = word.toInt := by
  have low := low_cases word
  have whole := toInt_cases word
  omega

/-- A word between two others in the signed reading is between them in the
unsigned reading, if they are in order there. -/
theorem toNat_between {low word high : BitVec 64} (ordered : low.toNat ≤ high.toNat)
    (lower : low.toInt ≤ word.toInt)
    (upper : word.toInt ≤ high.toInt) : low.toNat ≤ word.toNat ∧ word.toNat ≤ high.toNat := by
  have lowWord := toInt_cases low
  have middleWord := toInt_cases word
  have highWord := toInt_cases high
  omega

theorem low_toInt (word : BitVec 64) : (word.setWidth 32).toInt = word.toInt.bmod (2 ^ 32) := by
  rw [BitVec.toInt_setWidth, BitVec.toInt_eq_toNat_bmod, Int.bmod_bmod_of_dvd]
  exact ⟨2 ^ 32, by norm_num⟩

theorem low_toNat (word : BitVec 64) :
    ((word.setWidth 32).toNat : Int) = (word.toNat : Int) % 2 ^ 32 := by
  rw [(low_cases word).1]
  push_cast
  rfl

section Masks

theorem getLsbD_highMask {index : Nat} (inWord : index < 64) :
    (0xFFFFFFFF00000000#64).getLsbD index = decide (32 ≤ index) := by
  have form : (0xFFFFFFFF00000000#64) = BitVec.ofNat 64 ((2 ^ 32 - 1) <<< 32) := by decide
  rw [form, BitVec.getLsbD_ofNat, Nat.testBit_shiftLeft, Nat.testBit_two_pow_sub_one]
  by_cases high : 32 ≤ index
  · simp [high, inWord]
    omega
  · simp [high]

theorem getLsbD_lowMask {index : Nat} (inWord : index < 64) :
    (0xFFFFFFFF#64).getLsbD index = decide (index < 32) := by
  have form : (0xFFFFFFFF#64) = BitVec.ofNat 64 (2 ^ 32 - 1) := by decide
  rw [form, BitVec.getLsbD_ofNat, Nat.testBit_two_pow_sub_one]
  simp [inWord]

/-- Masks that select the two halves join them. -/
theorem halves_eq_append (high low : BitVec 64) :
    ((high &&& 0xFFFFFFFF00000000#64) ||| (low &&& 0xFFFFFFFF#64)) =
      high.extractLsb' 32 32 ++ low.setWidth 32 := by
  apply BitVec.eq_of_getLsbD_eq
  intro index inWord
  rw [BitVec.getLsbD_or, BitVec.getLsbD_and, BitVec.getLsbD_and, getLsbD_highMask inWord,
    getLsbD_lowMask inWord, BitVec.getLsbD_append]
  by_cases inLow : index < 32
  · simp [inLow]
  · simp [inLow, show 32 ≤ index by omega, show index - 32 < 32 by omega]

theorem toNat_halves (high low : BitVec 64) :
    ((high &&& 0xFFFFFFFF00000000#64) ||| (low &&& 0xFFFFFFFF#64)).toNat =
      high.toNat / 2 ^ 32 * 2 ^ 32 + low.toNat % 2 ^ 32 := by
  rw [halves_eq_append, BitVec.toNat_append, BitVec.extractLsb'_toNat, BitVec.toNat_setWidth,
    Nat.shiftRight_eq_div_pow, ← Nat.shiftLeft_add_eq_or_of_lt, Nat.shiftLeft_eq]
  · have bound := high.isLt
    omega
  · omega

end Masks

end Word
end Prevail
