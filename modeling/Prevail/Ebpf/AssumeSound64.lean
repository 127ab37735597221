import Prevail.Ebpf.AssumeSound

namespace Prevail
namespace Ebpf

open Crab

/-!
# The constraints of a 64-bit condition hold

A 64-bit comparison looks at the whole words, and so do the constraints.  The
left interval is split at the sign of one reading, with either reading as the
source, and the two parts cover the word whichever source is taken.
-/

variable {V : Type} [DecidableEq V] {dom : NumAbsDomain V} {inv : dom.State}

/-! ## Words in truncated intervals -/

section Truncation

variable {word : BitVec 64} {interval : Interval}

theorem mem_truncateTo_of {type : IntType} (positive : 0 < type.width) {m n : Int}
    (member : m ∈ interval)
    (fits : type.Fits n) (congruent : (2 ^ type.width : Int) ∣ m - n) :
    n ∈ interval.truncateTo type := by
  have truncated := Interval.mem_truncateTo positive member
  rwa [IntType.truncate_eq positive fits congruent] at truncated

theorem int64_fits_toInt (word : BitVec 64) : IntType.int64.Fits word.toInt := by
  have cases_ := Word.toInt_cases word
  simp only [IntType.Fits, IntType.min, IntType.max, IntType.int64, if_true]
  omega

theorem uint64_fits_toNat (word : BitVec 64) : IntType.uint64.Fits word.toNat := by
  have bound := word.isLt
  simp only [IntType.Fits, IntType.min, IntType.max, IntType.uint64, Bool.false_eq_true, if_false]
  omega

theorem mem_int64_of_toInt (member : word.toInt ∈ interval) :
    word.toInt ∈ interval.truncateTo .int64 :=
  mem_truncateTo_of (by decide) member (int64_fits_toInt word) (by simp)

theorem mem_int64_of_toNat (member : (word.toNat : Int) ∈ interval) :
    word.toInt ∈ interval.truncateTo .int64 := by
  apply mem_truncateTo_of (by decide) member (int64_fits_toInt word)
  have cases_ := Word.toInt_cases word
  simp only [IntType.int64]
  omega

theorem mem_uint64_of_toNat (member : (word.toNat : Int) ∈ interval) :
    (word.toNat : Int) ∈ interval.truncateTo .uint64 :=
  mem_truncateTo_of (by decide) member (uint64_fits_toNat word) (by simp)

theorem mem_uint64_of_toInt (member : word.toInt ∈ interval) :
    (word.toNat : Int) ∈ interval.truncateTo .uint64 := by
  apply mem_truncateTo_of (by decide) member (uint64_fits_toNat word)
  have cases_ := Word.toInt_cases word
  simp only [IntType.uint64]
  omega

theorem mem_nonnegative64 {n : Int} : n ∈ Interval.nonnegative 64 ↔ 0 ≤ n ∧ n ≤ 2 ^ 63 - 1 :=
  Interval.mem_range

theorem mem_negative64 {n : Int} : n ∈ Interval.negative 64 ↔ -2 ^ 63 ≤ n ∧ n ≤ -1 :=
  Interval.mem_range

theorem mem_unsignedHigh64 {n : Int} : n ∈ Interval.unsignedHigh 64 ↔ 2 ^ 63 - 1 + 1 ≤ n ∧
    n ≤ 2 ^ 64 - 1 :=
  Interval.mem_range

theorem mem_signedInt64 {n : Int} : n ∈ Interval.signedInt 64 ↔ -2 ^ 63 ≤ n ∧ n ≤ 2 ^ 63 - 1 :=
  Interval.mem_range

end Truncation

section Operands

variable {leftSvalue leftUvalue : V} {rightSvalue rightUvalue : LinearExpression V}
  {values : V -> Int}
  {left right : BitVec 64} {strict : Bool} {constraints : List (LinearConstraint V)}
  (reads : Reads dom inv leftSvalue leftUvalue rightSvalue rightUvalue values left right)

include reads in
/-- The constraint that a comparison of the operands stands for. -/
theorem Reads.holds_ltOrLe_signed (order : Ordered true strict left.toInt right.toInt) :
    (ltOrLe strict (.var leftSvalue) rightSvalue).Holds values := by
  rw [holds_ltOrLe, LinearExpression.eval_var, reads.leftSigned, reads.rightSigned]
  exact order

include reads in
theorem Reads.holds_ltOrLe_unsigned (order : Ordered true strict left.toNat right.toNat) :
    (ltOrLe strict (.var leftUvalue) rightUvalue).Holds values := by
  rw [holds_ltOrLe, LinearExpression.eval_var, reads.leftUnsigned, reads.rightUnsigned]
  exact order

include reads in
theorem Reads.holds_gtOrGe_signed (order : Ordered false strict left.toInt right.toInt) :
    (gtOrGe strict (.var leftSvalue) rightSvalue).Holds values := by
  rw [holds_gtOrGe, LinearExpression.eval_var, reads.leftSigned, reads.rightSigned]
  exact order

include reads in
theorem Reads.holds_gtOrGe_unsigned (order : Ordered false strict left.toNat right.toNat) :
    (gtOrGe strict (.var leftUvalue) rightUvalue).Holds values := by
  rw [holds_gtOrGe, LinearExpression.eval_var, reads.leftUnsigned, reads.rightUnsigned]
  exact order

/-- Two words with the same sign compare alike in both readings. -/
theorem ordered_toNat_iff {less : Bool} (sameSign : (0 ≤ left.toInt ↔ 0 ≤ right.toInt)) :
    Ordered less strict left.toNat right.toNat ↔ Ordered less strict left.toInt right.toInt := by
  have leftCases := Word.toInt_cases left
  have rightCases := Word.toInt_cases right
  cases less <;> cases strict <;> simp only [Ordered, if_true, Bool.false_eq_true, if_false] <;>
    omega

/-! ## Signed comparisons -/

/-- What the split of the left interval by the sign covers. -/
structure CoversSigned (intervals : SplitIntervals) (left right : BitVec 64) : Prop where
  left_mem : left.toInt ∈ intervals.left
  right_mem : right.toInt ∈ intervals.right
  low_mem : 0 ≤ left.toInt -> left.toInt ∈ intervals.low
  nonnegative_of_join : intervals.high.join intervals.low ≤ .nonnegative 64 -> 0 ≤ left.toInt
  negative_of_join : intervals.high.join intervals.low ≤ .negative 64 -> left.toInt < 0

include reads in
theorem getSignedIntervals_covers :
    CoversSigned (getSignedIntervals dom inv true leftSvalue leftUvalue rightSvalue)
    left right := by
  have leftWord := Word.toInt_cases left
  have rightMember := mem_int64_of_toInt reads.mem_rightSigned
  have notNegative : forall part : Interval, (0 ≤ left.toInt -> left.toInt ∈ part) ->
      forall other : Interval, other.join part ≤ .negative 64 -> left.toInt < 0 := by
    intro part covers other inside
    by_contra nonnegative
    have member := Interval.mem_of_le inside (Interval.mem_join (Or.inr (covers (by omega))))
    rw [mem_negative64] at member
    omega
  unfold getSignedIntervals
  simp only [signedOperands, if_true]
  split
  · have low : 0 ≤ left.toInt ->
        left.toInt ∈ (evalVar dom inv leftSvalue).meet (.nonnegative 64) := by
      intro nonnegative
      exact Interval.mem_meet reads.mem_leftSigned (mem_nonnegative64.mpr (by omega))
    refine ⟨mem_int64_of_toInt reads.mem_leftSigned, rightMember, low, ?_, notNegative _ low _⟩
    intro inside
    by_contra negative
    have high : left.toInt ∈ (evalVar dom inv leftSvalue).meet (.negative 64) :=
      Interval.mem_meet reads.mem_leftSigned (mem_negative64.mpr (by omega))
    have member := Interval.mem_of_le inside (Interval.mem_join (Or.inl high))
    rw [mem_nonnegative64] at member
    omega
  · split
    · have low : 0 ≤ left.toInt ->
          left.toInt ∈ (evalVar dom inv leftUvalue).meet (.nonnegative 64) := by
        intro nonnegative
        have same : left.toInt = left.toNat := by omega
        exact Interval.mem_meet (same ▸ reads.mem_leftUnsigned) (mem_nonnegative64.mpr (by omega))
      refine ⟨mem_int64_of_toNat reads.mem_leftUnsigned, rightMember, low, ?_, notNegative _ low _⟩
      -- The high part begins at the least number, so the join is never without a negative number.
      intro inside
      have least : IntType.int64.min ∈ Interval.range IntType.int64.min
          (((evalVar dom inv leftUvalue).ub.number.map IntType.int64.truncate).getD (-1)) := by
        rw [Interval.mem_range]
        refine ⟨le_refl _, ?_⟩
        cases (evalVar dom inv leftUvalue).ub.number with
        | none => decide
        | some upper => exact (IntType.truncate_fits
          (show 0 < IntType.int64.width by decide) upper).1
      have member := Interval.mem_of_le inside (Interval.mem_join (Or.inl least))
      exact absurd member (by decide)
    · have low : 0 ≤ left.toInt -> left.toInt ∈ Interval.nonnegative 64 := by
        intro nonnegative
        exact mem_nonnegative64.mpr (by omega)
      refine ⟨mem_int64_of_toNat reads.mem_leftUnsigned, rightMember, low, ?_, notNegative _ low _⟩
      have notNonnegative : ¬ (Interval.negative 64).join (.nonnegative 64) ≤ .nonnegative 64 := by
        decide
      exact fun inside => absurd inside notNonnegative

include reads in
theorem assumeSigned64bitEq_holds {rightInterval : Interval}
    (rightMember : right.toInt ∈ rightInterval) (passes : left = right) :
    AllHold values (assumeSigned64bitEq leftSvalue leftUvalue rightInterval rightSvalue
      rightUvalue) := by
  have rightWord := Word.toInt_cases right
  have signed : (LinearConstraint.eq (.var leftSvalue) rightSvalue).Holds values := by
    rw [LinearConstraint.holds_eq, LinearExpression.eval_var, reads.leftSigned,
      reads.rightSigned, passes]
  have unsigned : (LinearConstraint.eq (.var leftUvalue) rightUvalue).Holds values := by
    rw [LinearConstraint.holds_eq, LinearExpression.eval_var, reads.leftUnsigned,
      reads.rightUnsigned, passes]
  unfold assumeSigned64bitEq
  split
  · rename_i small
    have nonnegative := mem_nonnegative64.mp (Interval.mem_of_le small.1 rightMember)
    have both : (LinearConstraint.eq (.var leftSvalue) (.var leftUvalue)).Holds values := by
      rw [LinearConstraint.holds_eq, LinearExpression.eval_var, LinearExpression.eval_var,
        reads.leftSigned, reads.leftUnsigned, passes]
      omega
    simp [AllHold, signed, unsigned, both]
  · simp [AllHold, signed, unsigned]

include reads in
theorem assumeSigned64bitLt_holds {intervals : SplitIntervals}
    (covers : CoversSigned intervals left right)
    (passes : Ordered true strict left.toInt right.toInt) :
    AllHold values (assumeSigned64bitLt strict leftSvalue leftUvalue intervals rightSvalue
      rightUvalue) := by
  have signed := reads.holds_ltOrLe_signed passes
  unfold assumeSigned64bitLt
  split
  · rename_i sameSide
    have sameSign : 0 ≤ left.toInt ↔ 0 ≤ right.toInt := by
      rcases sameSide with negative | ⟨leftNonnegative, rightNonnegative⟩
      · have rightBound := mem_negative64.mp (Interval.mem_of_le negative covers.right_mem)
        cases strict <;> simp only [Ordered, if_true, Bool.false_eq_true, if_false] at passes <;>
          omega
      · have rightBound := mem_nonnegative64.mp
          (Interval.mem_of_le rightNonnegative covers.right_mem)
        exact iff_of_true (covers.nonnegative_of_join leftNonnegative) rightBound.1
    have unsigned := reads.holds_ltOrLe_unsigned ((ordered_toNat_iff sameSign).mpr passes)
    have lower : (LinearConstraint.le (.const 0) (.var leftUvalue)).Holds values := by
      simp [reads.leftUnsigned]
    simp [AllHold, signed, unsigned, lower]
  · simp [AllHold, signed]

include reads in
theorem assumeSigned64bitGt_holds {intervals : SplitIntervals}
    (covers : CoversSigned intervals left right)
    (passes : Ordered false strict left.toInt right.toInt)
    (run : assumeSigned64bitGt strict leftSvalue leftUvalue intervals rightSvalue rightUvalue =
      some constraints) :
    AllHold values constraints := by
  have signed := reads.holds_gtOrGe_signed passes
  have leftWord := Word.toInt_cases left
  unfold assumeSigned64bitGt at run
  split at run
  · rename_i rightNonnegative
    have rightBound := mem_nonnegative64.mp (Interval.mem_of_le rightNonnegative covers.right_mem)
    have nonnegative : 0 ≤ left.toInt := by
      cases strict <;> simp only [Ordered, if_true, Bool.false_eq_true, if_false] at passes <;>
        omega
    have unsigned := reads.holds_gtOrGe_unsigned
      ((ordered_toNat_iff (iff_of_true nonnegative rightBound.1)).mpr passes)
    rw [Option.map_eq_some_iff] at run
    rcases run with ⟨upper, bound, rfl⟩
    have below := (mem_int64_of_toInt (covers.low_mem nonnegative)).2
    rw [Bound.number_eq_some.mp bound, Bound.ofNumber_le_ofNumber] at below
    simp only [AllHold, nonnegativeConstraints, List.forall_mem_cons, LinearConstraint.holds_ge,
      LinearConstraint.holds_le, LinearExpression.eval_const, LinearExpression.eval_var,
      reads.leftSigned, reads.leftUnsigned]
    exact ⟨nonnegative, signed, by omega, by omega, by omega, unsigned, by omega, by simp⟩
  · split at run
    · rename_i bothNegative
      cases run
      have rightBound := mem_negative64.mp (Interval.mem_of_le bothNegative.2 covers.right_mem)
      have negative := covers.negative_of_join bothNegative.1
      have unsigned := reads.holds_gtOrGe_unsigned
        ((ordered_toNat_iff (iff_of_false (by omega) (by omega))).mpr passes)
      have high : (LinearConstraint.lt (.const IntType.int64.max) (.var leftUvalue)).Holds
          values := by
        rw [LinearConstraint.holds_lt, LinearExpression.eval_const, LinearExpression.eval_var,
          reads.leftUnsigned, show IntType.int64.max = 2 ^ 63 - 1 from rfl]
        omega
      simp [AllHold, signed, unsigned, high]
    · cases run
      simp [AllHold, signed]

theorem ordered_of_signed_compares64 {op : ConditionOp}
    (signed : op ∈ [ConditionOp.slt, .sle, .sgt, .sge])
    (passes : op.Compares left right) :
    Ordered (isLess op) (isStrict op) left.toInt right.toInt := by
  cases op <;> simp at signed
  all_goals exact passes

include reads in
theorem assumeSignedCstInterval64_holds {op : ConditionOp}
    (signed : op ∈ [ConditionOp.eq, .slt, .sle, .sgt, .sge]) (passes : op.Compares left right)
    (run : assumeSignedCstInterval dom inv op true leftSvalue leftUvalue rightSvalue rightUvalue =
      some constraints) :
    AllHold values constraints := by
  have covers := getSignedIntervals_covers reads
  unfold assumeSignedCstInterval at run
  rcases List.mem_cons.mp signed with rfl | ordered
  · cases run
    exact assumeSigned64bitEq_holds reads covers.right_mem passes
  · have order := ordered_of_signed_compares64 ordered passes
    have notEq : op ≠ .eq := by
      rintro rfl
      simp at ordered
    simp only [notEq, if_false, not_refuted covers.left_mem covers.right_mem order] at run
    split at run
    · cases run
      simp [AllHold]
    · cases direction : isLess op
      · rw [direction] at run order
        exact assumeSigned64bitGt_holds reads covers order run
      · rw [direction] at run order
        cases run
        exact assumeSigned64bitLt_holds reads covers order

/-! ## Unsigned comparisons -/

/-- What the split of the left interval into halves covers. -/
structure CoversUnsigned (intervals : SplitIntervals) (left right : BitVec 64) : Prop where
  left_mem : (left.toNat : Int) ∈ intervals.left
  right_mem : (right.toNat : Int) ∈ intervals.right
  low_mem : left.toNat < 2 ^ 63 -> (left.toNat : Int) ∈ intervals.low
  high_mem : 2 ^ 63 ≤ left.toNat -> (left.toNat : Int) ∈ intervals.high

include reads in
theorem getUnsignedIntervals_covers :
    CoversUnsigned (getUnsignedIntervals dom inv true leftSvalue leftUvalue rightUvalue)
    left right := by
  have leftWord := Word.toInt_cases left
  have rightMember := mem_uint64_of_toNat reads.mem_rightUnsigned
  have leftBound := left.isLt
  unfold getUnsignedIntervals
  simp only [unsignedOperands, if_true]
  split
  · refine ⟨mem_uint64_of_toNat reads.mem_leftUnsigned, rightMember, ?_, ?_⟩
    · intro low
      exact Interval.mem_meet reads.mem_leftUnsigned (mem_nonnegative64.mpr (by omega))
    · intro high
      exact Interval.mem_meet reads.mem_leftUnsigned (mem_unsignedHigh64.mpr (by omega))
  · have member := reads.mem_leftSigned
    split
    · refine ⟨mem_uint64_of_toInt member, rightMember, ?_, ?_⟩
      · intro low
        apply mem_uint64_of_toInt
        refine Interval.mem_mk' ?_ member.2
        rw [Bound.ofNumber_le_ofNumber]
        omega
      · intro high
        apply mem_uint64_of_toInt
        refine Interval.mem_mk' member.1 ?_
        rw [Bound.ofNumber_le_ofNumber]
        omega
    · refine ⟨mem_uint64_of_toInt member, rightMember, ?_, ?_⟩
      · intro low
        exact mem_nonnegative64.mpr (by omega)
      · intro high
        exact mem_unsignedHigh64.mpr (by omega)

/-- The word is not in a part that begins above the right operand. -/
theorem not_mem_of_le_lb {part : Interval} {bound : Bound}
    (above : if strict then bound ≤ (part.truncateTo .uint64).lb
      else bound < (part.truncateTo .uint64).lb)
    (passes : Ordered true strict left.toNat right.toNat)
    (atLeast : .ofNumber right.toNat ≤ bound) :
    (left.toNat : Int) ∉ part := by
  intro member
  have lower := (mem_uint64_of_toNat member).1
  cases strict
  · simp only [Bool.false_eq_true, if_false, Ordered, if_true] at above passes
    have crossed := (atLeast.trans_lt above).trans_le lower
    rw [Bound.ofNumber_lt_ofNumber] at crossed
    omega
  · simp only [if_true, Ordered] at above passes
    have crossed := (atLeast.trans above).trans lower
    rw [Bound.ofNumber_le_ofNumber] at crossed
    omega

section Halves

variable {intervals : SplitIntervals} (covers : CoversUnsigned intervals left right)

include covers

/-- The word is in the high half if the low part has no room for it. -/
theorem CoversUnsigned.high_of_low_le {bound : Bound}
    (below : if strict then (intervals.low.truncateTo .uint64).ub ≤ bound
      else (intervals.low.truncateTo .uint64).ub < bound)
    (passes : Ordered false strict left.toNat right.toNat)
    (atMost : bound ≤ .ofNumber right.toNat) :
    2 ^ 63 ≤ left.toNat := by
  by_contra low
  have upper := (mem_uint64_of_toNat (covers.low_mem (by omega))).2
  cases strict
  · simp only [Bool.false_eq_true, if_false, Ordered] at below passes
    have crossed := (upper.trans_lt below).trans_le atMost
    rw [Bound.ofNumber_lt_ofNumber] at crossed
    omega
  · simp only [if_true, Ordered, Bool.false_eq_true, if_false] at below passes
    have crossed := (upper.trans below).trans atMost
    rw [Bound.ofNumber_le_ofNumber] at crossed
    omega

end Halves

include reads in
theorem assumeUnsigned64bitLt_holds {intervals : SplitIntervals}
    (covers : CoversUnsigned intervals left right)
    (passes : Ordered true strict left.toNat right.toNat)
    (run : assumeUnsigned64bitLt dom inv strict leftSvalue leftUvalue intervals rightSvalue
      rightUvalue =
      some constraints) : AllHold values constraints := by
  have unsigned := reads.holds_ltOrLe_unsigned passes
  have leftWord := Word.toInt_cases left
  have rightWord := Word.toInt_cases right
  have lower : (LinearConstraint.le (.const 0) (.var leftUvalue)).Holds values := by
    simp [reads.leftUnsigned]
  have lowerGe : (LinearConstraint.ge (.var leftUvalue) (.const 0)).Holds values := lower
  unfold assumeUnsigned64bitLt at run
  by_cases aboveLow : intervals.right ≤ .nonnegative 64 ∧
      (if strict then intervals.right.ub ≤ (intervals.low.truncateTo .uint64).lb
        else intervals.right.ub < (intervals.low.truncateTo .uint64).lb)
  · -- The word would have to be both in the low half and above the right operand.
    have rightBound := mem_nonnegative64.mp (Interval.mem_of_le aboveLow.1 covers.right_mem)
    have low : left.toNat < 2 ^ 63 := by
      cases strict <;> simp only [Ordered, if_true, Bool.false_eq_true, if_false] at passes <;>
        omega
    exact absurd (covers.low_mem low) (not_mem_of_le_lb aboveLow.2 passes covers.right_mem.2)
  · rw [if_neg aboveLow] at run
    by_cases aboveHigh : intervals.right ≤ .unsignedHigh 64 ∧
        (if strict then intervals.right.ub ≤ (intervals.high.truncateTo .uint64).lb
          else intervals.right.ub < (intervals.high.truncateTo .uint64).lb)
    · rw [if_pos aboveHigh] at run
      have notHigh := not_mem_of_le_lb aboveHigh.2 passes covers.right_mem.2
      have low : left.toNat < 2 ^ 63 := by
        by_contra high
        exact notHigh (covers.high_mem (by omega))
      rw [Option.map_eq_some_iff] at run
      rcases run with ⟨rightUpper, bound, rfl⟩
      have rightBelow := covers.right_mem.2
      rw [Bound.number_eq_some.mp bound, Bound.ofNumber_le_ofNumber] at rightBelow
      have below : (ltOrLe strict (.var leftUvalue) (.const rightUpper)).Holds values := by
        rw [holds_ltOrLe, LinearExpression.eval_var, LinearExpression.eval_const,
          reads.leftUnsigned]
        cases strict <;> simp only [Ordered, if_true, Bool.false_eq_true, if_false] at passes ⊢ <;>
          omega
      have nonnegative : (LinearConstraint.ge (.var leftSvalue) (.const 0)).Holds values := by
        rw [LinearConstraint.holds_ge, LinearExpression.eval_var, LinearExpression.eval_const,
          reads.leftSigned]
        omega
      split
      · rename_i upper signedBound
        have signedBelow := reads.mem_leftSigned.2
        rw [Bound.number_eq_some.mp signedBound, Bound.ofNumber_le_ofNumber] at signedBelow
        have atMost : (LinearConstraint.le (.var leftUvalue) (.const upper)).Holds values := by
          rw [LinearConstraint.holds_le, LinearExpression.eval_var, LinearExpression.eval_const,
            reads.leftUnsigned]
          omega
        simp [AllHold, lowerGe, below, atMost, nonnegative]
      · simp [AllHold, lowerGe, below, nonnegative]
    · rw [if_neg aboveHigh] at run
      split at run
      · rename_i rightSigned
        have rightBound := mem_signedInt64.mp (Interval.mem_of_le rightSigned covers.right_mem)
        have low : left.toNat < 2 ^ 63 := by
          cases strict <;> simp only [Ordered, if_true, Bool.false_eq_true, if_false] at passes <;>
            omega
        rw [Option.map_eq_some_iff] at run
        rcases run with ⟨upper, bound, rfl⟩
        have lowBelow := (mem_uint64_of_toNat (covers.low_mem low)).2
        rw [Bound.number_eq_some.mp bound, Bound.ofNumber_le_ofNumber] at lowBelow
        have signed := reads.holds_ltOrLe_signed
          ((ordered_toNat_iff (iff_of_true (by omega) (by omega))).mp passes)
        have atMost : (LinearConstraint.le (.var leftUvalue) (.const upper)).Holds values := by
          rw [LinearConstraint.holds_le, LinearExpression.eval_var, LinearExpression.eval_const,
            reads.leftUnsigned]
          exact lowBelow
        have nonnegative : (LinearConstraint.le (.const 0) (.var leftSvalue)).Holds values := by
          rw [LinearConstraint.holds_le, LinearExpression.eval_var, LinearExpression.eval_const,
            reads.leftSigned]
          omega
        simp [AllHold, lower, unsigned, atMost, nonnegative, signed]
      · split at run
        · rename_i bothHigh
          have high : 2 ^ 63 ≤ left.toNat := by
            by_contra low
            exact Interval.not_isBottom_of_mem (covers.low_mem (by omega)) bothHigh.1
          have rightBound := mem_unsignedHigh64.mp (Interval.mem_of_le bothHigh.2 covers.right_mem)
          have signed := reads.holds_ltOrLe_signed
            ((ordered_toNat_iff (iff_of_false (by omega) (by omega))).mp passes)
          cases run
          simp [AllHold, lower, unsigned, signed]
        · split at run
          · cases run
            simp [AllHold, unsigned]
          · cases run
            simp [AllHold, lower, unsigned]

include reads in
theorem assumeUnsigned64bitGt_holds {intervals : SplitIntervals}
    (covers : CoversUnsigned intervals left right)
    (passes : Ordered false strict left.toNat right.toNat)
    (run : assumeUnsigned64bitGt strict leftSvalue leftUvalue intervals rightSvalue rightUvalue =
      some constraints) : AllHold values constraints := by
  have unsigned := reads.holds_gtOrGe_unsigned passes
  have leftWord := Word.toInt_cases left
  have rightWord := Word.toInt_cases right
  have lower : (LinearConstraint.le (.const 0) (.var leftUvalue)).Holds values := by
    simp [reads.leftUnsigned]
  unfold assumeUnsigned64bitGt at run
  by_cases belowRight : intervals.right ≤ .nonnegative 64 ∧
      (if strict then (intervals.low.truncateTo .uint64).ub ≤ intervals.right.lb
        else (intervals.low.truncateTo .uint64).ub < intervals.right.lb)
  · rw [if_pos belowRight] at run
    have high := covers.high_of_low_le belowRight.2 passes covers.right_mem.1
    rw [Option.map_eq_some_iff] at run
    rcases run with ⟨highLower, bound, rfl⟩
    have above := (mem_uint64_of_toNat (covers.high_mem high)).1
    rw [Bound.number_eq_some.mp bound, Bound.ofNumber_le_ofNumber] at above
    have negative : (LinearConstraint.lt (.var leftSvalue) (.const 0)).Holds values := by
      rw [LinearConstraint.holds_lt, LinearExpression.eval_var, LinearExpression.eval_const,
        reads.leftSigned]
      omega
    have atLeast : (if highLower = IntType.uint64.max
        then LinearConstraint.eq (.var leftUvalue) (.const highLower)
        else .ge (.var leftUvalue) (.const highLower)).Holds values := by
      split
      · rename_i largest
        rw [LinearConstraint.holds_eq, LinearExpression.eval_var, LinearExpression.eval_const,
          reads.leftUnsigned]
        have upper := (uint64_fits_toNat left).2
        omega
      · rw [LinearConstraint.holds_ge, LinearExpression.eval_var, LinearExpression.eval_const,
          reads.leftUnsigned]
        exact above
    simp only [AllHold, List.forall_mem_cons]
    exact ⟨unsigned, atLeast, negative, by simp⟩
  · rw [if_neg belowRight] at run
    split at run
    · rename_i sameHalf
      have sameSign : 0 ≤ left.toInt ↔ 0 ≤ right.toInt := by
        rcases sameHalf with rightHigh | ⟨leftLow, rightLow⟩
        · have rightBound := mem_unsignedHigh64.mp (Interval.mem_of_le rightHigh covers.right_mem)
          cases strict <;> simp only [Ordered, if_true, Bool.false_eq_true, if_false] at passes <;>
            omega
        · have rightBound := mem_nonnegative64.mp (Interval.mem_of_le rightLow covers.right_mem)
          have low : left.toNat < 2 ^ 63 := by
            by_contra high
            have member := Interval.mem_of_le leftLow
              (Interval.mem_join (Or.inr (covers.high_mem (by omega))))
            rw [mem_nonnegative64] at member
            omega
          omega
      have signed := reads.holds_gtOrGe_signed ((ordered_toNat_iff sameSign).mp passes)
      cases run
      simp [AllHold, lower, unsigned, signed]
    · cases run
      simp [AllHold, lower, unsigned]

include reads in
theorem assumeUnsignedOrder64_holds {op : ConditionOp} {intervals : SplitIntervals}
    (covers : CoversUnsigned intervals left right)
    (passes : Ordered (isLess op) (isStrict op) left.toNat right.toNat)
    (run : assumeUnsignedOrder dom inv op true leftSvalue leftUvalue intervals rightSvalue
      rightUvalue =
      some constraints) : AllHold values constraints := by
  unfold assumeUnsignedOrder at run
  simp only [not_refuted covers.left_mem covers.right_mem passes, if_false] at run
  cases direction : isLess op
  · rw [direction] at run passes
    have unsigned := reads.holds_gtOrGe_unsigned passes
    split at run
    · cases run
      simp [AllHold, unsigned]
    · exact assumeUnsigned64bitGt_holds reads covers passes run
  · rw [direction] at run passes
    have unsigned := reads.holds_ltOrLe_unsigned passes
    split at run
    · cases run
      simp [AllHold, unsigned]
    · exact assumeUnsigned64bitLt_holds reads covers passes run

theorem ordered_of_unsigned_compares64 {op : ConditionOp}
    (unsigned : op ∈ [ConditionOp.ge, .le, .gt, .lt])
    (passes : op.Compares left right) :
    Ordered (isLess op) (isStrict op) left.toNat right.toNat := by
  cases op <;> simp at unsigned
  all_goals exact Int.ofNat_le.mpr passes

/-- A disequation with an end of the left interval amounts to an order. -/
theorem resolveDisequation_spec {intervals : SplitIntervals} {order : ConditionOp}
    {other : Interval}
    (covers : CoversUnsigned intervals left right) (inside : intervals.left ≤ .full .uint64)
    (different : left ≠ right)
    (resolved : resolveDisequation true intervals = some (order, other)) :
    CoversUnsigned { intervals with right := other } left right ∧
      Ordered (isLess order) (isStrict order) left.toNat right.toNat := by
  have numbers : left.toNat ≠ right.toNat := fun same => different (BitVec.eq_of_toNat_eq same)
  unfold resolveDisequation at resolved
  rw [show (⟨false, if true = true then 64 else 32⟩ : IntType) = .uint64 from rfl,
    Interval.truncateTo_of_le inside] at resolved
  split at resolved
  · rename_i rn single
    have isRight := Interval.eq_of_singleton single covers.right_mem
    have atBound : forall bound : Bound, bound.number = some rn ->
        (right.toNat : Int) ∈ Interval.ofBound bound := by
      intro bound number
      rw [Bound.number_eq_some.mp number, isRight]
      exact ⟨le_refl _, le_refl _⟩
    split at resolved
    · rename_i isLower
      cases resolved
      refine ⟨⟨covers.left_mem, atBound _ isLower, covers.low_mem, covers.high_mem⟩, ?_⟩
      have above := covers.left_mem.1
      rw [Bound.number_eq_some.mp isLower, Bound.ofNumber_le_ofNumber] at above
      simp only [Ordered, isLess, isStrict, if_true, Bool.false_eq_true, if_false]
      omega
    · split at resolved
      · rename_i isUpper
        cases resolved
        refine ⟨⟨covers.left_mem, atBound _ isUpper, covers.low_mem, covers.high_mem⟩, ?_⟩
        have below := covers.left_mem.2
        rw [Bound.number_eq_some.mp isUpper, Bound.ofNumber_le_ofNumber] at below
        simp only [Ordered, isLess, isStrict, if_true]
        omega
      · cases resolved
  · cases resolved

include reads in
theorem assumeUnsignedCstInterval64_holds {op : ConditionOp}
    (unsigned : op ∈ [ConditionOp.ne, .ge, .le, .gt, .lt]) (passes : op.Compares left right)
    (run : assumeUnsignedCstInterval dom inv op true leftSvalue leftUvalue rightSvalue rightUvalue =
      some constraints) : AllHold values constraints := by
  have covers := getUnsignedIntervals_covers reads
  unfold assumeUnsignedCstInterval at run
  rcases List.mem_cons.mp unsigned with rfl | ordered
  · simp only [if_true] at run
    split at run
    · rename_i order other resolved
      have inside : (getUnsignedIntervals dom inv true leftSvalue leftUvalue rightUvalue).left ≤
          .full .uint64 := by
        unfold getUnsignedIntervals
        dsimp only
        split
        · exact Interval.truncateTo_le (by decide) _
        · split <;> exact Interval.truncateTo_le (by decide) _
      have spec := resolveDisequation_spec covers inside passes resolved
      exact assumeUnsignedOrder64_holds reads spec.1 spec.2 run
    · cases run
      simp [AllHold]
  · have notNe : op ≠ .ne := by
      rintro rfl
      simp at ordered
    simp only [notNe, if_false] at run
    exact assumeUnsignedOrder64_holds reads covers
      (ordered_of_unsigned_compares64 ordered passes) run

/-! ## Bit tests and all conditions -/

include reads in
theorem assumeBitCstInterval64_holds {op : ConditionOp} (bitTest : op ∈ [ConditionOp.set, .nset])
    {srcInterval : Interval} (sourceWord : forall n, srcInterval.singleton = some n ->
      BitVec.ofInt 64 n = right)
    (passes : op.Compares left right)
    (run : assumeBitCstInterval dom inv op true leftUvalue srcInterval = some constraints) :
    AllHold values constraints := by
  have holdsTrue : AllHold values [(LinearConstraint.trueConst : LinearConstraint V)] := by
    simp [AllHold]
  unfold assumeBitCstInterval at run
  split at run
  · rename_i dst src dstSingle srcSingle
    have destinationWord : BitVec.ofInt 64 dst = left := by
      rw [← Interval.eq_of_singleton dstSingle reads.mem_leftUnsigned]
      simp
    simp only [destinationWord, sourceWord src srcSingle, if_true] at run
    split at run
    · cases op <;> simp at bitTest
      · simp only [show left &&& right ≠ 0 from passes, if_true, ne_eq, not_false_eq_true] at run
        cases run
        exact holdsTrue
      · simp only [show left &&& right = 0 from passes, if_true] at run
        cases run
        exact holdsTrue
    · cases run
      simp [AllHold]
  · cases run
    simp [AllHold]

end Operands

theorem assumeCstImm64_holds {op : ConditionOp} {dstSvalue dstUvalue : V} {imm left : BitVec 64}
    {constraints : List (LinearConstraint V)} {values : V -> Int}
    (reads : Reads dom inv dstSvalue dstUvalue (.const imm.toInt)
      (.const imm.toNat) values left imm)
    (passes : op.Compares left imm)
    (run : assumeCstImm dom inv op true dstSvalue dstUvalue imm = some constraints) :
    AllHold values constraints := by
  have sourceWord : forall n, (Interval.ofNumber imm.toInt).singleton = some n ->
      BitVec.ofInt 64 n = imm := by
    intro n single
    rw [← Interval.eq_of_singleton single (Interval.mem_ofNumber.mpr rfl)]
    simp
  cases op
  case set => exact assumeBitCstInterval64_holds reads (by simp) sourceWord passes run
  case nset => exact assumeBitCstInterval64_holds reads (by simp) sourceWord passes run
  case eq => exact assumeSignedCstInterval64_holds reads (by simp) passes run
  case slt => exact assumeSignedCstInterval64_holds reads (by simp) passes run
  case sle => exact assumeSignedCstInterval64_holds reads (by simp) passes run
  case sgt => exact assumeSignedCstInterval64_holds reads (by simp) passes run
  case sge => exact assumeSignedCstInterval64_holds reads (by simp) passes run
  all_goals exact assumeUnsignedCstInterval64_holds reads (by simp) passes run

theorem assumeCstReg64_holds {op : ConditionOp} {dstSvalue dstUvalue srcSvalue srcUvalue : V}
    {left right : BitVec 64} {constraints : List (LinearConstraint V)} {values : V -> Int}
    (reads : Reads dom inv dstSvalue dstUvalue (.var srcSvalue) (.var srcUvalue) values left right)
    (passes : op.Compares left right)
    (run : assumeCstReg dom inv op true dstSvalue dstUvalue srcSvalue srcUvalue =
      some constraints) :
    AllHold values constraints := by
  have sourceWord : forall n, (evalVar dom inv srcUvalue).singleton = some n ->
      BitVec.ofInt 64 n = right := by
    intro n single
    rw [← Interval.eq_of_singleton single reads.mem_rightUnsigned]
    simp
  have rightSigned : values srcSvalue = right.toInt := by
    simpa using reads.rightSigned
  have signed : (op ∈ [ConditionOp.sge, .sle, .sgt, .slt]) -> AllHold values constraints := by
    intro ordered
    cases op <;> simp at ordered
    all_goals
      cases run
      simpa [AllHold, reads.leftSigned, rightSigned, ConditionOp.Compares] using passes
  cases op
  case set => exact assumeBitCstInterval64_holds reads (by simp) sourceWord passes run
  case nset => exact assumeBitCstInterval64_holds reads (by simp) sourceWord passes run
  case slt => exact signed (by simp)
  case sle => exact signed (by simp)
  case sgt => exact signed (by simp)
  case sge => exact signed (by simp)
  case ne =>
      cases run
      have different : left.toInt ≠ right.toInt := fun same => passes (BitVec.eq_of_toInt_eq same)
      simpa [AllHold, reads.leftSigned, rightSigned] using different
  case eq =>
      have sourceMember : right.toInt ∈ evalVar dom inv srcSvalue := reads.mem_rightSigned
      have equal := assumeSigned64bitEq_holds reads sourceMember passes
      unfold assumeSigned64bitEq at equal
      simp only [assumeCstReg, and_comm (a := ¬ _)] at run
      split at run
      · rename_i small
        cases run
        rw [if_pos small] at equal
        exact equal
      · rename_i notSmall
        cases run
        rw [if_neg notSmall] at equal
        exact equal
  all_goals exact assumeUnsignedCstInterval64_holds reads (by simp) passes run

/-- The refinement of a 64-bit branch is sound: the constraints hold of every
represented pair of words that passes the comparison.  A contradiction is
returned only if there is no such pair. -/
theorem assumeCst64_sound (op : ConditionOp) (dstSvalue dstUvalue : V) :
    (forall (imm : BitVec 64) (constraints : List (LinearConstraint V)),
      assumeCstImm dom inv op true dstSvalue dstUvalue imm = some constraints ->
        forall values left,
          Reads dom inv dstSvalue dstUvalue (.const imm.toInt) (.const imm.toNat) values left imm ->
            op.Compares left imm ->
              AllHold values constraints ∧ LinearConstraint.falseConst ∉ constraints) ∧
    (forall (srcSvalue srcUvalue : V) (constraints : List (LinearConstraint V)),
      assumeCstReg dom inv op true dstSvalue dstUvalue srcSvalue srcUvalue = some constraints ->
        forall values left right,
          Reads dom inv dstSvalue dstUvalue (.var srcSvalue) (.var srcUvalue) values left right ->
            op.Compares left right ->
              AllHold values constraints ∧ LinearConstraint.falseConst ∉ constraints) := by
  constructor
  · intro imm constraints run values left reads passes
    have holds := assumeCstImm64_holds reads passes run
    exact ⟨holds, fun contradiction =>
      LinearConstraint.not_holds_falseConst values (holds _ contradiction)⟩
  · intro srcSvalue srcUvalue constraints run values left right reads passes
    have holds := assumeCstReg64_holds reads passes run
    exact ⟨holds, fun contradiction =>
      LinearConstraint.not_holds_falseConst values (holds _ contradiction)⟩

/-- The branch `r1 > 0x80000000` on a register with a zero high half keeps the
word `0x80000001`. -/
theorem assumeCst64_sound_zeroExtended :
    AllHold (fun _ : Reading => 0x80000001)
      [.le (.const 0) (.var .unsigned), .gt (.var .unsigned) (.const 2147483648),
        .gt (.var .signed) (.const 2147483648)] := by
  have run : assumeCstImm (intervalDomain Reading) zeroExtended .gt true .signed .unsigned
      0x80000000#64 =
      some [.le (.const 0) (.var .unsigned), .gt (.var .unsigned) (.const 2147483648),
        .gt (.var .signed) (.const 2147483648)] := by
    decide
  refine ((@assumeCst64_sound Reading _ (intervalDomain Reading) zeroExtended .gt
    .signed .unsigned).1
    0x80000000#64 _ run (fun _ => 0x80000001) 0x80000001#64 ?_
    (by unfold ConditionOp.Compares; decide)).1
  refine ⟨⟨_, rfl, fun _ => by simp⟩, rfl, rfl, ?_, ?_⟩ <;> simp

end Ebpf
end Prevail
