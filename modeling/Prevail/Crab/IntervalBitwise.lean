import Prevail.Crab.IntervalWords
import Prevail.Library.Bits

namespace Prevail
namespace Crab

/-!
# Bitwise conjunction of intervals

`And` of `crab/interval.cpp`, for two intervals of unsigned values.  The
bitwise operators of `number_t` read a negative number in two's complement, as
those of the integers do here.

When one operand contains the largest word, the result is the other operand,
truncated.  That is right for the mask that is the largest word.  A mask that
may be smaller can clear bits of the lower end of the other operand, and the
result then starts too high.
-/

namespace Interval

/-- The part of `And` for the mask of the low word. -/
def andLowWord (interval : Interval) : Interval :=
  match interval.lb.number, interval.ub.number with
  | some lb, some ub =>
      let lb32 := IntType.uint32.truncate lb
      let ub32 := IntType.uint32.truncate ub
      if IntType.uint32.Fits (ub - lb) ∧ lb32 < ub32 ∧
        lb32 + IntType.uint32.truncate (ub - lb) = ub32 then
        range lb32 ub32
      else full .uint32
  | _, _ => full .uint32

def and (interval x : Interval) : Interval :=
  if interval.IsBottom ∨ x.IsBottom then bottom
  else
    match interval.singleton, x.singleton with
    | some left, some right => ofNumber (left.land right)
    | _, _ =>
      if x = ofNumber IntType.uint32.max then interval.andLowWord
      else if IntType.uint64.max ∈ x then interval.truncateTo .uint64
      else if ¬ interval.IsTop ∧ ¬ x.IsTop then mk' (.ofNumber 0) (Min.min interval.ub x.ub)
      else if ¬ x.IsTop then mk' (.ofNumber 0) x.ub
      else if ¬ interval.IsTop then mk' (.ofNumber 0) interval.ub
      else top

/-- Every conjunction of two words of the operands belongs to the result. -/
def AndSound (a b : Interval) : Prop :=
  forall x y, a.HasWord x -> b.HasWord y -> x.land y ∈ a.and b

/-- Where the right operand reaches up to the largest word, the lower end of the
left operand, if it is an interval of words, has zeros in all the bits in which
the words of the right operand differ from the largest. -/
def LowBitsClear (a b : Interval) : Prop :=
  forall lower, lower ∈ a -> a.lb = .ofNumber lower -> a.ub ≤ .ofNumber IntType.uint64.max ->
    IntType.uint64.max ∈ b -> forall y, b.HasWord y ->
    (2 : Int) ^ (IntType.uint64.max - y).toNat.size ∣ lower

section LowWord

variable {a : Interval}

theorem mem_andLowWord {x : Int} (has : a.HasWord x) :
    x.land IntType.uint32.max ∈ a.andLowWord := by
  rcases has.exists_nat with ⟨n, rfl, small⟩
  have masked : Int.land n IntType.uint32.max = IntType.uint32.truncate n := by
    change ((n &&& (2 ^ 32 - 1) : Nat) : Int) = (n : Int) % 2 ^ 32
    rw [Nat.and_two_pow_sub_one_eq_mod]
    push_cast
    rfl
  have somewhere : IntType.uint32.truncate n ∈ full .uint32 :=
    mem_full.mpr (IntType.truncate_fits (by decide) _)
  rw [masked]
  unfold andLowWord
  split
  · rename_i lb ub atLower atUpper
    dsimp only
    split
    · rename_i small
      have lower := has.1.1
      have upper := has.1.2
      rw [Bound.number_eq_some.mp atLower, Bound.ofNumber_le_ofNumber] at lower
      rw [Bound.number_eq_some.mp atUpper, Bound.ofNumber_le_ofNumber] at upper
      have lowerFits := @IntType.truncate_fits .uint32 (by decide) lb
      have upperFits := @IntType.truncate_fits .uint32 (by decide) ub
      have size := @IntType.truncate_of_fits .uint32 (by decide) _ small.1
      have moved : IntType.uint32.truncate n = IntType.uint32.truncate lb + (n - lb) := by
        apply IntType.truncate_eq (by decide)
        · unfold IntType.Fits at lowerFits upperFits ⊢
          omega
        · have congruent := IntType.dvd_sub_truncate .uint32 lb
          have same : (n : Int) - (IntType.uint32.truncate lb + (n - lb)) = lb -
              IntType.uint32.truncate lb := by ring
          rwa [same]
      rw [mem_range, moved]
      omega
    · exact somewhere
  · exact somewhere

end LowWord

section And

variable {a b : Interval}

theorem land_words {m n : Nat} : Int.land m n = ((m &&& n : Nat) : Int) := rfl

theorem and_largest (a b : Interval) (inhabited : ¬ a.IsBottom) (largest : IntType.uint64.max ∈ b)
    (several : b.singleton = none) : a.and b = a.truncateTo .uint64 := by
  unfold and
  rw [if_neg (not_or.mpr ⟨inhabited, not_isBottom_of_mem largest⟩), several]
  split
  · rename_i none
    cases none
  · rw [if_neg, if_pos largest]
    rintro rfl
    revert largest
    decide

theorem mem_truncateTo_and (isUnsigned : a.IsUnsigned) (clear : LowBitsClear a b)
    (largest : IntType.uint64.max ∈ b) {x y : Int} (hasX : a.HasWord x) (hasY : b.HasWord y) :
    x.land y ∈ a.truncateTo .uint64 := by
  rcases truncateTo_words isUnsigned hasX with ⟨inside, same⟩ | whole
  · rcases eq_range_of_le (not_isBottom_of_mem hasX.1) inside with
      ⟨p, q, rfl, nonneg, ordered, word⟩
    have bits := clear p (mem_range.mpr ⟨le_refl p, ordered⟩) (by rw [range_eq ordered])
      (by rw [range_eq ordered]; exact Bound.ofNumber_le_ofNumber.mpr word) largest y hasY
    rcases hasX.exists_nat with ⟨m, rfl, small⟩
    rcases hasY.exists_nat with ⟨n, rfl, maskSmall⟩
    have members := mem_range.mp hasX.1
    rcases Int.eq_ofNat_of_zero_le nonneg with ⟨k, rfl⟩
    rw [same, mem_range, land_words]
    have largestWord : (IntType.uint64.max - n).toNat = 2 ^ 64 - 1 - n := by
      change ((2 : Int) ^ 64 - 1 - n).toNat = _
      omega
    rw [largestWord] at bits
    constructor
    · have close := Nat.lt_size_self (2 ^ 64 - 1 - n)
      have multiple : 2 ^ (2 ^ 64 - 1 - n).size ∣ k := by exact_mod_cast bits
      have kept : k ≤ m &&& n :=
        Bits.le_and_of_dvd multiple (by exact_mod_cast members.1) small maskSmall (by omega)
      exact_mod_cast kept
    · have shrinks : m &&& n ≤ m := Nat.and_le_left
      have upper := members.2
      omega
  · rcases hasX.exists_nat with ⟨m, rfl, small⟩
    rcases hasY.exists_nat with ⟨n, rfl, _⟩
    rw [whole, mem_full, land_words]
    have shrinks : m &&& n ≤ m := Nat.and_le_left
    constructor
    · change (0 : Int) ≤ _
      omega
    · change _ ≤ (2 : Int) ^ 64 - 1
      omega

theorem andSound_of_lowBitsClear (leftUnsigned : a.IsUnsigned) (clear : LowBitsClear a b) :
    AndSound a b := by
  intro x y hasX hasY
  unfold and
  rw [if_neg (not_or.mpr ⟨not_isBottom_of_mem hasX.1, not_isBottom_of_mem hasY.1⟩)]
  split
  · rename_i left right leftSingle rightSingle
    rw [mem_ofNumber, eq_of_singleton leftSingle hasX.1, eq_of_singleton rightSingle hasY.1]
  · split
    · rename_i lowWord
      have same : y = IntType.uint32.max := mem_ofNumber.mp (lowWord ▸ hasY.1)
      rw [same]
      exact mem_andLowWord hasX
    · split
      · rename_i largest
        exact mem_truncateTo_and leftUnsigned clear largest hasX hasY
      · rcases hasX.exists_nat with ⟨m, rfl, _⟩
        rcases hasY.exists_nat with ⟨n, rfl, _⟩
        have left : (m &&& n : Nat) ≤ m := Nat.and_le_left
        have right : (m &&& n : Nat) ≤ n := Nat.and_le_right
        have leftBelow : .ofNumber (Int.land m n) ≤ a.ub :=
          (Bound.ofNumber_le_ofNumber.mpr (Int.ofNat_le.mpr left)).trans hasX.1.2
        have rightBelow : .ofNumber (Int.land m n) ≤ b.ub :=
          (Bound.ofNumber_le_ofNumber.mpr (Int.ofNat_le.mpr right)).trans hasY.1.2
        have nonneg : 0 ≤ Int.land m n := Int.natCast_nonneg _
        split
        · exact mem_range_zero nonneg (le_min leftBelow rightBelow)
        · split
          · exact mem_range_zero nonneg rightBelow
          · split
            · exact mem_range_zero nonneg leftBelow
            · exact ⟨Bound.minusInfinity_le _, Bound.le_plusInfinity _⟩

theorem lowBitsClear_of_andSound (sound : AndSound a b) (leftUnsigned : a.IsUnsigned) :
    LowBitsClear a b := by
  intro lower inside atLower below largest y hasY
  have nonneg : 0 ≤ lower := by
    rcases leftUnsigned with rfl | nonneg
    · cases atLower
    · rwa [atLower, Bound.ofNumber_le_ofNumber] at nonneg
  have word : lower ≤ 2 ^ 64 - 1 := Bound.ofNumber_le_ofNumber.mp (inside.2.trans below)
  rcases Int.eq_ofNat_of_zero_le nonneg with ⟨k, rfl⟩
  rcases hasY.exists_nat with ⟨n, rfl, _⟩
  have largestWord : (IntType.uint64.max - n).toNat = 2 ^ 64 - 1 - n := by
    change ((2 : Int) ^ 64 - 1 - n).toNat = _
    omega
  rw [largestWord]
  by_contra notMultiple
  have notMultipleNat : ¬ 2 ^ (2 ^ 64 - 1 - n).size ∣ k :=
    fun multiple => notMultiple (by exact_mod_cast multiple)
  rcases Bits.exists_testBit_of_not_dvd notMultipleNat with ⟨bit, small, set⟩
  have power : 2 ^ bit ≤ 2 ^ 64 - 1 - n := Nat.lt_size.mp small
  have inWord : bit < 64 := by
    apply (Nat.pow_lt_pow_iff_right (show 1 < 2 by norm_num)).mp
    omega
  -- The largest word without the bit is a member of the right operand.
  have mask : b.HasWord ((2 ^ 64 - 1 - 2 ^ bit : Nat) : Int) := by
    have upper : (2 ^ 64 - 1 - 2 ^ bit : Nat) ≤ 2 ^ 64 - 1 := Nat.sub_le _ _
    have lower : n ≤ 2 ^ 64 - 1 - 2 ^ bit := by
      apply Nat.le_sub_of_add_le
      omega
    refine ⟨mem_of_mem_of_mem hasY.1 largest (Int.ofNat_le.mpr lower) ?_,
      Int.natCast_nonneg _, by omega⟩
    change _ ≤ (2 : Int) ^ 64 - 1
    omega
  have several : b.singleton = none := by
    cases single : b.singleton with
    | none => rfl
    | some only =>
        have first := eq_of_singleton single mask.1
        have second := eq_of_singleton single largest
        have positive := Nat.two_pow_pos bit
        change (2 : Int) ^ 64 - 1 = only at second
        omega
  have inhabited := not_isBottom_of_mem inside
  have stays : a ≤ full .uint64 := by
    refine Or.inr ⟨not_isBottom_of_mem
      (mem_full.mpr (@IntType.truncate_fits .uint64 (by decide) 0)), ?_, below⟩
    rw [atLower]
    exact Bound.ofNumber_le_ofNumber.mpr nonneg
  have member := sound k _ ⟨inside, nonneg, by omega⟩ mask
  rw [and_largest a b inhabited largest several, truncateTo_of_le stays, land_words] at member
  have kept := member.1
  rw [atLower, Bound.ofNumber_le_ofNumber] at kept
  have cleared := Bits.and_lt_of_testBit set (Bits.testBit_below_largest inWord)
  omega

/-- The conjunction is sound exactly when no mask up to the largest word clears
bits of the lower end. -/
theorem and_sound_iff {a b : Interval} (leftUnsigned : a.IsUnsigned) :
    AndSound a b ↔ LowBitsClear a b := by
  constructor
  · exact fun sound => lowBitsClear_of_andSound sound leftUnsigned
  · exact andSound_of_lowBitsClear leftUnsigned

theorem and_sound_iff_five :
    AndSound (ofNumber 5) (full .uint64) ↔ LowBitsClear (ofNumber 5) (full .uint64) :=
  and_sound_iff (by decide)

/-- Five and zero: the result for `{5}` and all words is `{5}`. -/
theorem not_andSound_five : ¬ forall a b : Interval, a.IsUnsigned -> b.IsUnsigned ->
    AndSound a b := by
  intro all
  have member := all (ofNumber 5) (full .uint64) (by decide) (by decide) 5 0
    ⟨by decide, by decide, by decide⟩
    ⟨by decide, by decide, by decide⟩
  revert member
  decide

end And

end Interval
end Crab
end Prevail
