import Prevail.Crab.IntervalArith

namespace Prevail
namespace Crab

/-!
# Words in an interval

The operators on unsigned values work on intervals that are top or start at
zero or above.  Such an interval may reach beyond the largest word; what the
operators promise is about the words in it.
-/

namespace Interval

/-- An interval of unsigned values, as far as the operators know. -/
def IsUnsigned (interval : Interval) : Prop := interval = top ∨ .ofNumber 0 ≤ interval.lb

instance (interval : Interval) : Decidable interval.IsUnsigned :=
  inferInstanceAs (Decidable (_ ∨ _))

/-- A word that is a member. -/
def HasWord (interval : Interval) (word : Int) : Prop := word ∈ interval ∧ 0 ≤ word ∧ word < 2 ^ 64

def AreWords (x y : Int) : Prop := (0 ≤ x ∧ x < 2 ^ 64) ∧ 0 ≤ y ∧ y < 2 ^ 64

section Members

variable {a b : Interval} {n k : Int}

theorem mem_of_mem_of_mem {m : Int} (first : m ∈ a) (last : n ∈ a) (above : m ≤ k)
    (below : k ≤ n) : k ∈ a :=
  ⟨first.1.trans (Bound.ofNumber_le_ofNumber.mpr above),
    (Bound.ofNumber_le_ofNumber.mpr below).trans last.2⟩

theorem mem_mk'_iff {lb ub : Bound} : n ∈ mk' lb ub ↔ lb ≤ .ofNumber n ∧ .ofNumber n ≤ ub := by
  constructor
  · intro member
    rw [mk'] at member
    split at member
    · rcases member with ⟨lower, upper⟩
      rw [bottom, Bound.ofNumber_le_ofNumber] at lower upper
      omega
    · exact member
  · exact fun bounds => mem_mk' bounds.1 bounds.2

theorem HasWord.exists_nat {word : Int} (has : a.HasWord word) :
    exists n : Nat, word = n ∧ n < 2 ^ 64 := by
  rcases has with ⟨_, nonneg, small⟩
  refine ⟨word.toNat, (Int.toNat_of_nonneg nonneg).symm, ?_⟩
  omega

theorem mem_range_zero {ub : Bound} (nonneg : 0 ≤ n) (below : .ofNumber n ≤ ub) :
    n ∈ mk' (.ofNumber 0) ub :=
  mem_mk' (Bound.ofNumber_le_ofNumber.mpr nonneg) below

theorem singleton_eq_some {n : Int} : a.singleton = some n ↔ a = ofNumber n := by
  constructor
  · intro single
    rw [singleton] at single
    split at single
    · rename_i equal
      rcases a with ⟨lb, ub⟩
      have atLower := Bound.number_eq_some.mp single
      have atUpper := equal.2
      simp only at atLower atUpper
      rw [← atUpper, atLower, ofNumber]
    · cases single
  · rintro rfl
    rw [singleton, if_pos ⟨lt_irrefl _, rfl⟩]
    rfl

theorem isBottom_mk' {lb ub : Bound} : (mk' lb ub).IsBottom ↔ ub < lb := by
  rw [mk']
  split
  · rename_i inverted
    simp only [iff_true_intro inverted, iff_true]
    decide
  · rfl

theorem mk'_minusInfinity (ub : Bound) : mk' .minusInfinity ub = ⟨.minusInfinity, ub⟩ :=
  if_neg (not_lt.mpr (Bound.minusInfinity_le ub))

end Members

section Unsigned

variable {a : Interval}

theorem ne_minusInfinity_of_le {lb : Bound} {k : Int} (above : .ofNumber k ≤ lb) :
    lb ≠ .minusInfinity := by
  rintro rfl
  exact absurd above (Bound.not_le_minusInfinity k)

theorem IsUnsigned.nonneg_ub (isUnsigned : a.IsUnsigned) (inhabited : ¬ a.IsBottom) :
    .ofNumber 0 ≤ a.ub := by
  rcases isUnsigned with rfl | nonneg
  · exact Bound.le_plusInfinity _
  · exact nonneg.trans (not_lt.mp inhabited)

/-- An interval without zero starts above zero, if it ends there. -/
theorem one_le_lb (upper : .ofNumber 0 ≤ a.ub) (nonzero : 0 ∉ a) : .ofNumber 1 ≤ a.lb := by
  have above : ¬ a.lb ≤ .ofNumber 0 := fun below => nonzero ⟨below, upper⟩
  rcases a with ⟨lb, ub⟩
  cases lb with
  | minusInfinity => exact absurd (Bound.minusInfinity_le _) above
  | plusInfinity => exact Bound.le_plusInfinity _
  | ofNumber k =>
      rw [Bound.ofNumber_le_ofNumber] at above ⊢
      omega

theorem truncate_word {n : Int} (nonneg : 0 ≤ n) (small : n < 2 ^ 64) :
    IntType.uint64.truncate n = n :=
  IntType.truncate_of_fits (by decide) ⟨nonneg, by change n ≤ 2 ^ 64 - 1; omega⟩

end Unsigned

section Truncation

variable {a : Interval}

/-- Truncation to words, for an interval that contains a word: the interval
stays, or the result contains all words. -/
theorem truncateTo_words (isUnsigned : a.IsUnsigned) {x : Int} (has : a.HasWord x) :
    a ≤ full .uint64 ∧ a.truncateTo .uint64 = a ∨ a.truncateTo .uint64 = full .uint64 := by
  by_cases inside : a ≤ full .uint64
  · exact Or.inl ⟨inside, truncateTo_of_le inside⟩
  · refine Or.inr ?_
    unfold truncateTo
    rw [if_neg inside]
    split
    · rename_i lb ub atLower atUpper
      apply if_neg
      rintro ⟨⟨_, size⟩, ordered⟩
      have bounds := has.1
      rw [mem_def, Bound.number_eq_some.mp atLower, Bound.number_eq_some.mp atUpper,
        Bound.ofNumber_le_ofNumber, Bound.ofNumber_le_ofNumber] at bounds
      have nonneg : 0 ≤ lb := by
        rcases isUnsigned with rfl | nonneg
        · cases atLower
        · rwa [Bound.number_eq_some.mp atLower, Bound.ofNumber_le_ofNumber] at nonneg
      have words := has.2
      have lowerWord : IntType.uint64.truncate lb = lb :=
        IntType.truncate_of_fits (by decide) ⟨nonneg, by change lb ≤ 2 ^ 64 - 1; omega⟩
      have sizeWord : ub - lb ≤ 2 ^ 64 - 1 := size
      have beyond : 2 ^ 64 ≤ ub := by
        by_contra small
        apply inside
        refine Or.inr ⟨?_, ?_⟩
        · exact not_isBottom_of_mem (mem_full.mpr (@IntType.truncate_fits .uint64 (by decide) 0))
        · rw [Bound.number_eq_some.mp atLower, Bound.number_eq_some.mp atUpper]
          exact ⟨Bound.ofNumber_le_ofNumber.mpr nonneg, Bound.ofNumber_le_ofNumber.mpr (by
            change ub ≤ 2 ^ 64 - 1
            omega)⟩
      have upperWord : IntType.uint64.truncate ub = ub - 2 ^ 64 := by
        apply IntType.truncate_eq (by decide)
        · constructor
          · change 0 ≤ ub - 2 ^ 64
            omega
          · change ub - 2 ^ 64 ≤ 2 ^ 64 - 1
            omega
        · exact ⟨1, by change ub - (ub - 2 ^ 64) = 2 ^ 64 * 1; ring⟩
      rw [lowerWord, upperWord] at ordered
      omega
    · rfl

end Truncation

end Interval
end Crab
end Prevail
