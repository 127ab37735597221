import Prevail.Library.Word
import Prevail.Asm.Execution
import Prevail.Ebpf.Assume
import Prevail.Crab.IntervalDomain

namespace Prevail

namespace Ebpf

open Crab

/-!
# When the constraints of a 32-bit condition hold

A 32-bit comparison looks at the low halves of two words.  The constraints that
`assume_cst_imm` and `assume_cst_reg` return for it speak about the 64-bit
variables.  They hold of every pair of words that passes the comparison, except
in five places, where the code looks at the intervals of the low halves and
then compares the whole words.
-/

variable {V : Type} [DecidableEq V] {dom : NumAbsDomain V} {inv : dom.State}

/-- A represented assignment, and the words that its operands read. -/
structure Reads (dom : NumAbsDomain V) (inv : dom.State) (leftSvalue leftUvalue : V)
    (rightSvalue rightUvalue : LinearExpression V) (values : V -> Int)
    (left right : BitVec 64) : Prop where
  represents : dom.Represents inv values
  leftSigned : values leftSvalue = left.toInt
  leftUnsigned : values leftUvalue = left.toNat
  rightSigned : rightSvalue.eval values = right.toInt
  rightUnsigned : rightUvalue.eval values = right.toNat

/-- The order of two numbers that a comparison asks for. -/
def Ordered (less strict : Bool) (left right : Int) : Prop :=
  if less then (if strict then left < right else left ≤ right)
  else (if strict then right < left else right ≤ left)

/-- The whole words compare alike in both readings. -/
def WordsOrdered (less strict : Bool) (left right : BitVec 64) : Prop :=
  Ordered less strict left.toInt right.toInt ∧ Ordered less strict left.toNat right.toNat

/-- What a pair of words has to satisfy beyond the 32-bit comparison, in the
places where the code compares whole words after a look at the intervals of the
low halves, and where it reads an upper bound of 2^63 or more as negative. -/
def Extends (dom : NumAbsDomain V) (inv : dom.State) (op : ConditionOp) (leftSvalue leftUvalue : V)
    (rightSvalue rightUvalue : LinearExpression V) (left right : BitVec 64) : Prop :=
  let leftSigned := (evalVar dom inv leftSvalue).truncateTo .int32
  let rightSigned := (dom.evalInterval inv rightSvalue).truncateTo .int32
  let leftUnsigned := (evalVar dom inv leftUvalue).truncateTo .uint32
  let rightUnsigned := (dom.evalInterval inv rightUvalue).truncateTo .uint32
  match op with
  | .eq => forall lower upper : Int, rightSigned.singleton ≠ none ->
      (evalVar dom inv leftSvalue).lb = .ofNumber lower ->
      (evalVar dom inv leftSvalue).ub = .ofNumber upper ->
        2 ^ 63 ≤ upper -> left.toInt / 2 ^ 32 ≤ (upper - 2 ^ 64) / 2 ^ 32
  | .slt | .sle => ¬ Settled true (isStrict op) leftSigned rightSigned ->
      (rightSigned ≤ .negative 32 -> WordsOrdered true (isStrict op) left right) ∧
        (leftSigned ≤ .nonnegative 32 ∧ rightSigned ≤ .nonnegative 32 ->
          left.toNat < 2 ^ 32 ∧ 0 ≤ right.toInt)
  | .sgt | .sge => ¬ Settled false (isStrict op) leftSigned rightSigned ->
      (rightSigned ≤ .nonnegative 32 -> left.toNat < 2 ^ 32 ∧ right.toNat < 2 ^ 32) ∧
        (leftSigned ≤ .negative 32 ∧ rightSigned ≤ .negative 32 ->
          WordsOrdered false (isStrict op) left right)
  | .gt | .ge => ¬ Settled false (isStrict op) leftUnsigned rightUnsigned ->
      rightUnsigned ≤ .unsignedHigh 32 -> WordsOrdered false (isStrict op) left right
  | .ne => leftUnsigned.lb.number = rightUnsigned.singleton -> rightUnsigned.singleton ≠ none ->
      rightUnsigned ≤ .unsignedHigh 32 -> WordsOrdered false true left right
  | .set | .nset | .lt | .le => True

/-! ## The intervals of the low halves -/

section Operands

variable {leftSvalue leftUvalue : V} {rightSvalue rightUvalue : LinearExpression V}
  {values : V -> Int} {left right : BitVec 64}
  (reads : Reads dom inv leftSvalue leftUvalue rightSvalue rightUvalue values left right)

include reads

theorem Reads.mem_leftSigned : left.toInt ∈ evalVar dom inv leftSvalue := by
  have member : (LinearExpression.var leftSvalue).eval values ∈ evalVar dom inv leftSvalue :=
    dom.mem_evalInterval reads.represents
  rwa [LinearExpression.eval_var, reads.leftSigned] at member

theorem Reads.mem_leftUnsigned : (left.toNat : Int) ∈ evalVar dom inv leftUvalue := by
  have member : (LinearExpression.var leftUvalue).eval values ∈ evalVar dom inv leftUvalue :=
    dom.mem_evalInterval reads.represents
  rwa [LinearExpression.eval_var, reads.leftUnsigned] at member

theorem Reads.mem_rightSigned : right.toInt ∈ dom.evalInterval inv rightSvalue :=
  reads.rightSigned ▸ dom.mem_evalInterval reads.represents

theorem Reads.mem_rightUnsigned : (right.toNat : Int) ∈ dom.evalInterval inv rightUvalue :=
  reads.rightUnsigned ▸ dom.mem_evalInterval reads.represents

end Operands

theorem mem_lowSigned {interval : Interval} {word : BitVec 64} (member : word.toInt ∈ interval) :
    (word.setWidth 32).toInt ∈ interval.truncateTo .int32 := by
  have truncated := Interval.mem_truncateTo (show 0 < IntType.int32.width by decide) member
  rwa [show IntType.int32.truncate word.toInt =
    (word.setWidth 32).toInt from (Word.low_toInt word).symm] at truncated

theorem mem_lowUnsigned {interval : Interval} {word : BitVec 64}
    (member : (word.toNat : Int) ∈ interval) :
    ((word.setWidth 32).toNat : Int) ∈ interval.truncateTo .uint32 := by
  have truncated := Interval.mem_truncateTo (show 0 < IntType.uint32.width by decide) member
  rwa [show IntType.uint32.truncate word.toNat =
    (word.setWidth 32).toNat from (Word.low_toNat word).symm] at truncated

/-- A truncated interval with elements has two finite ends within the type. -/
theorem truncateTo_eq_range {type : IntType} (positive : 0 < type.width)
    {interval : Interval} {n : Int} (member : n ∈ interval.truncateTo type) :
    exists a b, interval.truncateTo type = .range a b ∧ type.min ≤ a ∧ a ≤ b ∧ b ≤ type.max :=
  Interval.eq_range_of_le (Interval.not_isBottom_of_mem member)
    (Interval.truncateTo_le positive interval)

theorem not_isTop_range {a b : Int} (ordered : a ≤ b) : ¬ (Interval.range a b).IsTop := by
  rw [Interval.range_eq ordered]
  simp [Interval.IsTop]

theorem signedOperands_eq (left right : Interval) :
    signedOperands false left right = (left.truncateTo .int32, right.truncateTo .int32) := by
  unfold signedOperands
  rw [if_neg (by decide)]
  split
  · rename_i sameSign
    have nonnegative : Interval.nonnegative 32 ≤ .full .int32 := by decide
    have negative : Interval.negative 32 ≤ .full .int32 := by decide
    rcases sameSign with ⟨first, second⟩ | ⟨first, second⟩
    · rw [Interval.truncateTo_of_le (Interval.le_trans first nonnegative),
        Interval.truncateTo_of_le (Interval.le_trans second nonnegative)]
    · rw [Interval.truncateTo_of_le (Interval.le_trans first negative),
        Interval.truncateTo_of_le (Interval.le_trans second negative)]
  · rfl

theorem unsignedOperands_eq (left right : Interval) :
    unsignedOperands false left right = (left.truncateTo .uint32, right.truncateTo .uint32) := by
  unfold unsignedOperands
  rw [if_neg (by decide)]
  split
  · rename_i sameHalf
    have nonnegative : Interval.nonnegative 32 ≤ .full .uint32 := by decide
    have high : Interval.unsignedHigh 32 ≤ .full .uint32 := by decide
    rcases sameHalf with ⟨first, second⟩ | ⟨first, second⟩
    · rw [Interval.truncateTo_of_le (Interval.le_trans first nonnegative),
        Interval.truncateTo_of_le (Interval.le_trans second nonnegative)]
    · rw [Interval.truncateTo_of_le (Interval.le_trans first high),
        Interval.truncateTo_of_le (Interval.le_trans second high)]
  · rfl

theorem getSignedIntervals_eq {leftSvalue : V} (leftUvalue : V)
    {rightSvalue : LinearExpression V} {m : Int}
    (inLeft : m ∈ (evalVar dom inv leftSvalue).truncateTo .int32) :
    getSignedIntervals dom inv false leftSvalue leftUvalue rightSvalue =
      { left := (evalVar dom inv leftSvalue).truncateTo .int32
        right := (dom.evalInterval inv rightSvalue).truncateTo .int32
        low := ((evalVar dom inv leftSvalue).truncateTo .int32).meet (.nonnegative 64)
        high := ((evalVar dom inv leftSvalue).truncateTo .int32).meet (.negative 64) } := by
  have wide : Interval.full .int32 ≤ .full .int64 := by decide
  have leftWide := Interval.le_trans
    (Interval.truncateTo_le (show 0 < IntType.int32.width by decide)
    (evalVar dom inv leftSvalue)) wide
  have rightWide := Interval.le_trans
    (Interval.truncateTo_le (show 0 < IntType.int32.width by decide)
    (dom.evalInterval inv rightSvalue)) wide
  rcases truncateTo_eq_range (by decide) inLeft with ⟨a, b, form, _, ordered, _⟩
  unfold getSignedIntervals
  simp only [signedOperands_eq]
  rw [if_pos (by rw [form]; exact not_isTop_range ordered), Interval.truncateTo_of_le leftWide,
    Interval.truncateTo_of_le rightWide]

theorem getUnsignedIntervals_eq (leftSvalue : V) {leftUvalue : V}
    {rightUvalue : LinearExpression V} {m : Int}
    (inLeft : m ∈ (evalVar dom inv leftUvalue).truncateTo .uint32) :
    getUnsignedIntervals dom inv false leftSvalue leftUvalue rightUvalue =
      { left := (evalVar dom inv leftUvalue).truncateTo .uint32
        right := (dom.evalInterval inv rightUvalue).truncateTo .uint32
        low := ((evalVar dom inv leftUvalue).truncateTo .uint32).meet (.nonnegative 64)
        high := ((evalVar dom inv leftUvalue).truncateTo .uint32).meet (.unsignedHigh 64) } := by
  have wide : Interval.full .uint32 ≤ .full .uint64 := by decide
  have leftWide := Interval.le_trans
    (Interval.truncateTo_le (show 0 < IntType.uint32.width by decide)
    (evalVar dom inv leftUvalue)) wide
  have rightWide := Interval.le_trans
    (Interval.truncateTo_le (show 0 < IntType.uint32.width by decide)
    (dom.evalInterval inv rightUvalue)) wide
  rcases truncateTo_eq_range (by decide) inLeft with ⟨a, b, form, _, ordered, _⟩
  unfold getUnsignedIntervals
  simp only [unsignedOperands_eq]
  rw [if_pos (by rw [form]; exact not_isTop_range ordered), Interval.truncateTo_of_le leftWide,
    Interval.truncateTo_of_le rightWide]

/-! ## Signed comparisons -/

theorem holds_ltOrLe {strict : Bool} {values : V -> Int} {left right : LinearExpression V} :
    (ltOrLe strict left right).Holds values ↔
      Ordered true strict (left.eval values) (right.eval values) := by
  cases strict <;> simp [ltOrLe, Ordered]

theorem holds_gtOrGe {strict : Bool} {values : V -> Int} {left right : LinearExpression V} :
    (gtOrGe strict left right).Holds values ↔
      Ordered false strict (left.eval values) (right.eval values) := by
  cases strict <;> simp [gtOrGe, Ordered]

/-- All constraints of a list hold. -/
def AllHold (values : V -> Int) (constraints : List (LinearConstraint V)) : Prop :=
  forall constraint, constraint ∈ constraints -> constraint.Holds values

theorem range_le_negative {a b : Int} (ordered : a ≤ b) :
    Interval.range a b ≤ .negative 32 ↔ -2 ^ 31 ≤ a ∧ b ≤ -1 := Interval.range_le_range ordered

theorem range_le_nonnegative {a b : Int} (ordered : a ≤ b) :
    Interval.range a b ≤ .nonnegative 32 ↔ 0 ≤ a ∧ b ≤ 2 ^ 31 - 1 := Interval.range_le_range ordered

theorem mem_signedInt32 {n : Int} : n ∈ Interval.signedInt 32 ↔ -2 ^ 31 ≤ n ∧ n ≤ 2 ^ 31 - 1 :=
  Interval.mem_range

theorem join_parts {a b : Int} (lower : -2 ^ 31 ≤ a) (ordered : a ≤ b) (upper : b ≤ 2 ^ 31 - 1) :
    ((Interval.range a b).meet (.negative 64)).join ((Interval.range a b).meet (.nonnegative 64)) =
      .range a b := by
  have negative : (Interval.range a b).meet (.negative 64) = .range a (min b (-1)) := by
    rw [Interval.negative, Interval.meet_range]
    congr 1
    norm_num [IntType.min]
    omega
  have nonnegative : (Interval.range a b).meet (.nonnegative 64) = .range (max a 0) b := by
    rw [Interval.nonnegative, Interval.meet_range]
    congr 1
    norm_num [IntType.max]
    omega
  rw [negative, nonnegative]
  rcases lt_or_ge a 0 with isNegative | isNonnegative
  · rcases lt_or_ge b 0 with bothNegative | mixed
    · rw [Interval.range_empty (show b < max a 0 by omega),
        show min b (-1) = b by omega, Interval.join, if_neg (by
          rw [Interval.isBottom_range]; omega), if_pos (by decide)]
    · rw [Interval.join_range (by omega) (by omega)]
      congr 1 <;> omega
  · rw [Interval.range_empty (show min b (-1) < a by omega),
      show max a 0 = a by omega, Interval.join, if_pos (by decide)]

section Signed

variable {leftSvalue leftUvalue : V} {rightSvalue rightUvalue : LinearExpression V}
  {values : V -> Int}
  {left right : BitVec 64} {strict : Bool} {constraints : List (LinearConstraint V)} {a b c d : Int}

/-- The upper end of the part of an interval that is not negative. -/
theorem lowPart_ub {n : Int} (upper : b ≤ 2 ^ 31 - 1) (member : n ∈ Interval.range a b)
    (nonnegative : 0 ≤ n) :
    ((((Interval.range a b).meet (.nonnegative 64)).truncateTo .int32).ub.number) = some b := by
  rw [Interval.mem_range] at member
  have part : (Interval.range a b).meet (.nonnegative 64) = .range (max a 0) b := by
    rw [Interval.nonnegative, Interval.meet_range]
    congr 1
    norm_num [IntType.max]
    omega
  have inside : Interval.range (max a 0) b ≤ .full .int32 := by
    refine (Interval.range_le_range (by omega)).mpr ⟨?_, ?_⟩
    · norm_num [IntType.int32, IntType.min]
    · norm_num [IntType.int32, IntType.max]
      omega
  rw [part, Interval.truncateTo_of_le inside, Interval.range_eq (by omega)]
  rfl

/-- What an order from below says without its strictness. -/
theorem Ordered.le {m n : Int} (ordered : Ordered true strict m n) : m ≤ n := by
  cases strict <;> simp only [Ordered, if_true, Bool.false_eq_true, if_false] at ordered <;> omega

/-- What an order from above says without its strictness. -/
theorem Ordered.ge {m n : Int} (ordered : Ordered false strict m n) : n ≤ m := by
  cases strict <;> simp only [Ordered, if_true, Bool.false_eq_true, if_false] at ordered <;> omega

theorem Ordered.trans_le {m n k : Int} (ordered : Ordered true strict m n) (further : n ≤ k) :
    Ordered true strict m k := by
  cases strict <;> simp only [Ordered, if_true, Bool.false_eq_true, if_false] at ordered ⊢ <;> omega

/-- The constraints on the whole words behind the bound that a negative low half
gives. -/
theorem high_bound_iff {less : Bool} (negative : (left.setWidth 32).toInt < 0) :
    2 ^ 31 - 1 < (left.toNat : Int) ∧ Ordered less strict left.toNat right.toNat ∧
        Ordered less strict left.toInt right.toInt ↔ WordsOrdered less strict left right := by
  have large := Word.le_toNat_of_low_negative negative
  constructor
  · exact fun holds => ⟨holds.2.2, holds.2.1⟩
  · exact fun holds => ⟨by omega, holds.2, holds.1⟩

/-- The bounds that put a word between zero and the upper end of its low half
say that it is its low half. -/
theorem nonnegative_bounds_iff {upper : Int} (nonnegative : 0 ≤ (left.setWidth 32).toInt)
    (below : (left.setWidth 32).toInt ≤ upper) (narrow : upper ≤ 2 ^ 31 - 1) :
    0 ≤ left.toInt ∧ left.toInt ≤ left.toNat ∧ (left.toNat : Int) ≤ left.toInt ∧
      (0 : Int) ≤ left.toNat ∧
        (left.toNat : Int) ≤ upper ↔ left.toNat < 2 ^ 32 := by
  constructor
  · intro holds
    omega
  · intro small
    have whole := Word.low_of_narrow small nonnegative
    omega

theorem holds_nonnegativeConstraints {signed unsigned : LinearConstraint V} {upper : Int}
    (leftSigned : values leftSvalue = left.toInt) (leftUnsigned : values leftUvalue = left.toNat) :
    AllHold values (nonnegativeConstraints leftSvalue leftUvalue signed unsigned upper) ↔
      (0 ≤ left.toInt ∧ left.toInt ≤ left.toNat ∧ (left.toNat : Int) ≤ left.toInt ∧
      (0 : Int) ≤ left.toNat ∧
        (left.toNat : Int) ≤ upper) ∧ signed.Holds values ∧ unsigned.Holds values := by
  simp only [AllHold, nonnegativeConstraints, List.forall_mem_cons, LinearConstraint.holds_ge,
    LinearConstraint.holds_le, LinearExpression.eval_const, LinearExpression.eval_var, leftSigned,
    leftUnsigned, List.not_mem_nil, false_implies, implies_true, and_true]
  tauto

theorem assumeSigned32bitLt_holds_iff
    (reads : Reads dom inv leftSvalue leftUvalue rightSvalue rightUvalue values left right)
    (inLeft : (left.setWidth 32).toInt ∈ Interval.range a b)
    (inRight : (right.setWidth 32).toInt ∈ Interval.range c d)
    (lower : -2 ^ 31 ≤ a) (upper : b ≤ 2 ^ 31 - 1)
    (passes : Ordered true strict (left.setWidth 32).toInt (right.setWidth 32).toInt)
    (run : assumeSigned32bitLt dom inv strict leftSvalue leftUvalue
      ⟨.range a b, .range c d, (Interval.range a b).meet (.nonnegative 64),
      (Interval.range a b).meet (.negative 64)⟩
      rightSvalue rightUvalue = some constraints) :
    AllHold values constraints ↔
      (Interval.range c d ≤ .negative 32 -> WordsOrdered true strict left right) ∧
        (Interval.range a b ≤ .nonnegative 32 ∧ Interval.range c d ≤ .nonnegative 32 ->
          left.toNat < 2 ^ 32 ∧ 0 ≤ right.toInt) := by
  have leftMember := Interval.mem_range.mp inLeft
  have rightMember := Interval.mem_range.mp inRight
  have leftOrdered : a ≤ b := leftMember.1.trans leftMember.2
  have rightOrdered : c ≤ d := rightMember.1.trans rightMember.2
  have below := passes.le
  unfold assumeSigned32bitLt at run
  rw [join_parts lower leftOrdered upper] at run
  simp only [range_le_negative rightOrdered, range_le_nonnegative leftOrdered,
    range_le_nonnegative rightOrdered] at run ⊢
  split at run
  · rename_i rightNegative
    cases run
    rw [imp_iff_right rightNegative, and_iff_left (fun both => by omega)]
    simp only [AllHold, List.forall_mem_cons, holds_ltOrLe, LinearConstraint.holds_lt,
      LinearExpression.eval_const, LinearExpression.eval_var, reads.leftSigned, reads.leftUnsigned,
      reads.rightSigned, reads.rightUnsigned, List.not_mem_nil, false_implies,
      implies_true, and_true]
    exact high_bound_iff (by omega)
  · rename_i notNegative
    rw [and_iff_right (fun rightNegative => absurd rightNegative notNegative)]
    split at run
    · rename_i bothNonnegative
      rw [imp_iff_right bothNonnegative]
      rw [lowPart_ub upper inLeft (by omega)] at run
      cases run
      rw [holds_nonnegativeConstraints reads.leftSigned reads.leftUnsigned, holds_ltOrLe,
        holds_ltOrLe, LinearExpression.eval_var, LinearExpression.eval_var, reads.leftSigned,
        reads.leftUnsigned, reads.rightSigned, reads.rightUnsigned,
        nonnegative_bounds_iff (by omega) leftMember.2 upper]
      constructor
      · rintro ⟨small, signed, _⟩
        have whole := Word.low_of_narrow small (by omega)
        have ordered := signed.le
        exact ⟨small, by omega⟩
      · rintro ⟨small, nonnegative⟩
        have whole := Word.low_of_narrow small (by omega)
        have further := Word.low_le_of_nonnegative nonnegative
        rw [whole.1] at passes
        rw [whole.2]
        exact ⟨small, passes.trans_le further.1, passes.trans_le (further.2 ▸ further.1)⟩
    · rename_i notBoth
      refine iff_of_true ?_ (fun both => absurd both notBoth)
      split at run
      · rename_i narrow
        cases run
        have leftNarrow := mem_signedInt32.mp (Interval.mem_of_le narrow.1 reads.mem_leftSigned)
        have rightNarrow := mem_signedInt32.mp (Interval.mem_of_le narrow.2 reads.mem_rightSigned)
        simp only [AllHold, List.forall_mem_cons, holds_ltOrLe, LinearExpression.eval_var,
          reads.leftSigned, reads.rightSigned, List.not_mem_nil, false_implies,
          implies_true, and_true]
        rwa [Word.low_of_signed leftNarrow.1 leftNarrow.2,
          Word.low_of_signed rightNarrow.1 rightNarrow.2] at passes
      · cases run
        exact fun _ member => by cases member

theorem assumeSigned32bitGt_holds_iff
    (reads : Reads dom inv leftSvalue leftUvalue rightSvalue rightUvalue values left right)
    (inLeft : (left.setWidth 32).toInt ∈ Interval.range a b)
    (inRight : (right.setWidth 32).toInt ∈ Interval.range c d)
    (lower : -2 ^ 31 ≤ a) (upper : b ≤ 2 ^ 31 - 1)
    (passes : Ordered false strict (left.setWidth 32).toInt (right.setWidth 32).toInt)
    (run : assumeSigned32bitGt dom inv strict leftSvalue leftUvalue
      ⟨.range a b, .range c d, (Interval.range a b).meet (.nonnegative 64),
      (Interval.range a b).meet (.negative 64)⟩
      rightSvalue rightUvalue = some constraints) :
    AllHold values constraints ↔
      (Interval.range c d ≤ .nonnegative 32 -> left.toNat < 2 ^ 32 ∧ right.toNat < 2 ^ 32) ∧
        (Interval.range a b ≤ .negative 32 ∧ Interval.range c d ≤ .negative 32 ->
          WordsOrdered false strict left right) := by
  have leftMember := Interval.mem_range.mp inLeft
  have rightMember := Interval.mem_range.mp inRight
  have leftOrdered : a ≤ b := leftMember.1.trans leftMember.2
  have rightOrdered : c ≤ d := rightMember.1.trans rightMember.2
  have above := passes.ge
  unfold assumeSigned32bitGt at run
  rw [join_parts lower leftOrdered upper] at run
  simp only [range_le_negative leftOrdered, range_le_negative rightOrdered,
    range_le_nonnegative rightOrdered] at run ⊢
  split at run
  · rename_i rightNonnegative
    rw [imp_iff_right rightNonnegative, and_iff_left (fun both => by omega)]
    rw [lowPart_ub upper inLeft (by omega)] at run
    cases run
    rw [holds_nonnegativeConstraints reads.leftSigned reads.leftUnsigned, holds_gtOrGe,
      holds_gtOrGe, LinearExpression.eval_var, LinearExpression.eval_var, reads.leftSigned,
      reads.leftUnsigned, reads.rightSigned, reads.rightUnsigned,
      nonnegative_bounds_iff (by omega) leftMember.2 upper]
    refine and_congr_right fun small => ?_
    constructor
    · rintro ⟨_, unsigned⟩
      have ordered := unsigned.ge
      omega
    · intro rightSmall
      have whole := Word.low_of_narrow small (by omega)
      have rightWhole := Word.low_of_narrow rightSmall (by omega)
      rw [whole.1, rightWhole.1] at passes
      rw [whole.2, rightWhole.2]
      exact ⟨passes, passes⟩
  · rename_i notNonnegative
    rw [and_iff_right (fun rightNonnegative => absurd rightNonnegative notNonnegative)]
    split at run
    · rename_i bothNegative
      cases run
      rw [imp_iff_right bothNegative]
      simp only [AllHold, List.forall_mem_cons, holds_gtOrGe, LinearConstraint.holds_ge,
        LinearExpression.eval_const, LinearExpression.eval_var, reads.leftSigned,
        reads.leftUnsigned, reads.rightSigned, reads.rightUnsigned, List.not_mem_nil, false_implies,
        implies_true, and_true]
      exact high_bound_iff (by omega)
    · rename_i notBoth
      refine iff_of_true ?_ (fun both => absurd both notBoth)
      split at run
      · rename_i narrow
        cases run
        have leftNarrow := mem_signedInt32.mp (Interval.mem_of_le narrow.1 reads.mem_leftSigned)
        have rightNarrow := mem_signedInt32.mp (Interval.mem_of_le narrow.2 reads.mem_rightSigned)
        simp only [AllHold, List.forall_mem_cons, holds_gtOrGe, LinearExpression.eval_var,
          reads.leftSigned, reads.rightSigned, List.not_mem_nil, false_implies,
          implies_true, and_true]
        rwa [Word.low_of_signed leftNarrow.1 leftNarrow.2,
          Word.low_of_signed rightNarrow.1 rightNarrow.2] at passes
      · cases run
        exact fun _ member => by cases member

/-- The word with a given high half and the low half of another word. -/
theorem matchLow_toNat {high : Int} {bound : Int} (castHigh : IntType.int64.cast bound = some high)
    (word : BitVec 64) :
    ((matchLow high (word.setWidth 32).toInt).toNat : Int) =
      bound % 2 ^ 64 / 2 ^ 32 * 2 ^ 32 + word.toNat % 2 ^ 32 := by
  have truncated : high = bound.bmod (2 ^ 64) := by
    unfold IntType.cast at castHigh
    split at castHigh
    · cases castHigh
      rfl
    · cases castHigh
  have highWord : ((BitVec.ofInt 64 high).toNat : Int) = bound % 2 ^ 64 := by
    rw [BitVec.toNat_ofInt, truncated]
    have same : bound.bmod (2 ^ 64) % (2 ^ 64 : Nat) = bound % (2 ^ 64 : Nat) := Int.bmod_emod
    have nonnegative := Int.emod_nonneg bound (show ((2 ^ 64 : Nat) : Int) ≠ 0 by norm_num)
    rw [same, Int.toNat_of_nonneg nonnegative]
    norm_num
  have lowWord : (BitVec.ofInt 64 (word.setWidth 32).toInt).toNat % 2 ^ 32 =
      word.toNat % 2 ^ 32 := by
    have low := Word.low_cases word
    rw [BitVec.toNat_ofInt]
    omega
  have halves := Word.toNat_halves (BitVec.ofInt 64 high) (BitVec.ofInt 64 (word.setWidth 32).toInt)
  rw [lowWord] at halves
  rw [matchLow, halves]
  omega

theorem fitsCast_int64 {n m : Int} (casts : IntType.int64.cast n = some m) :
    -2 ^ 63 ≤ n ∧ n < 2 ^ 64 := by
  unfold IntType.cast at casts
  split at casts
  · rename_i fits
    norm_num [IntType.FitsCast, IntType.Fits, IntType.int64, IntType.swapSignedness, IntType.min,
      IntType.max] at fits
    omega
  · cases casts

/-- The signed reading of that word, for a bound that fits the signed type. -/
theorem matchLow_toInt {high bound : Int} (castHigh : IntType.int64.cast bound = some high)
    (lower : -2 ^ 63 ≤ bound) (upper : bound < 2 ^ 63) (word : BitVec 64) :
    (matchLow high (word.setWidth 32).toInt).toInt = bound / 2 ^ 32 * 2 ^ 32 +
      (word.toNat % 2 ^ 32 : Nat) := by
  have unsigned := matchLow_toNat castHigh word
  have signed := Word.toInt_cases (matchLow high (word.setWidth 32).toInt)
  omega

/-- The signed reading of that word, for a bound that does not. -/
theorem matchLow_toInt_of_large {high bound : Int} (castHigh : IntType.int64.cast bound = some high)
    (large : 2 ^ 63 ≤ bound) (upper : bound < 2 ^ 64) (word : BitVec 64) :
    (matchLow high (word.setWidth 32).toInt).toInt =
      (bound - 2 ^ 64) / 2 ^ 32 * 2 ^ 32 + (word.toNat % 2 ^ 32 : Nat) := by
  have unsigned := matchLow_toNat castHigh word
  have signed := Word.toInt_cases (matchLow high (word.setWidth 32).toInt)
  omega

theorem toInt_halves (word : BitVec 64) :
    word.toInt = word.toInt / 2 ^ 32 * 2 ^ 32 + (word.toNat % 2 ^ 32 : Nat) := by
  have signed := Word.toInt_cases word
  omega

/-- The signed bounds made from the ends of an interval and the low half of a
word in it hold of the word, unless the upper end wraps below its high half. -/
theorem signed_bounds_iff {lower upper lb ub : Int} (lowerCast : IntType.int64.cast lower = some lb)
    (upperCast : IntType.int64.cast upper = some ub) (lowerFits : -2 ^ 63 ≤ lower ∧ lower < 2 ^ 64)
    (upperFits : -2 ^ 63 ≤ upper ∧ upper < 2 ^ 64) {word : BitVec 64} (above : lower ≤ word.toInt)
    (below : word.toInt ≤ upper) :
    ((matchLow lb (word.setWidth 32).toInt).toInt ≤ word.toInt ∧
        word.toInt ≤ (matchLow ub (word.setWidth 32).toInt).toInt) ↔
      (2 ^ 63 ≤ upper -> word.toInt / 2 ^ 32 ≤ (upper - 2 ^ 64) / 2 ^ 32) := by
  have range := Word.toInt_cases word
  have halves := toInt_halves word
  rw [matchLow_toInt lowerCast lowerFits.1 (by omega) word]
  rcases lt_or_ge upper (2 ^ 63) with small | large
  · rw [matchLow_toInt upperCast upperFits.1 small word]
    refine iff_of_true ⟨by omega, by omega⟩ (fun large => absurd small (by omega))
  · rw [matchLow_toInt_of_large upperCast large upperFits.2 word, imp_iff_right large]
    constructor
    · rintro ⟨_, bounded⟩
      omega
    · intro bounded
      exact ⟨by omega, by omega⟩

theorem assumeSigned32bitEq_holds_iff
    (reads : Reads dom inv leftSvalue leftUvalue rightSvalue rightUvalue values left right)
    (passes : left.setWidth 32 = right.setWidth 32)
    (run : assumeSigned32bitEq dom inv leftSvalue leftUvalue
      ((dom.evalInterval inv rightSvalue).truncateTo .int32) = some constraints) :
    AllHold values constraints ↔
      forall lower upper : Int,
      ((dom.evalInterval inv rightSvalue).truncateTo .int32).singleton ≠ none ->
        (evalVar dom inv leftSvalue).lb = .ofNumber lower ->
        (evalVar dom inv leftSvalue).ub = .ofNumber upper ->
          2 ^ 63 ≤ upper -> left.toInt / 2 ^ 32 ≤ (upper - 2 ^ 64) / 2 ^ 32 := by
  have inRight := mem_lowSigned reads.mem_rightSigned
  have member := reads.mem_leftSigned
  unfold assumeSigned32bitEq at run
  split at run
  · rename_i rn size single finite
    have isLow : rn = (left.setWidth 32).toInt := by
      rw [passes]
      exact (Interval.eq_of_singleton single inRight).symm
    rcases lowerForm : (evalVar dom inv leftSvalue).lb.number with _ | lower
    · simp [Interval.finiteSize, lowerForm] at finite
    rcases upperForm : (evalVar dom inv leftSvalue).ub.number with _ | upper
    · simp [Interval.finiteSize, lowerForm, upperForm] at finite
    rw [lowerForm, upperForm] at run
    simp only [Option.bind_some, Option.bind_eq_bind, Option.bind_eq_some_iff] at run
    rcases run with ⟨lb, lowerCast, ub, upperCast, run⟩
    rw [Bound.number_eq_some] at lowerForm upperForm
    have lowerBound := member.1
    have upperBound := member.2
    rw [lowerForm, Bound.ofNumber_le_ofNumber] at lowerBound
    rw [upperForm, Bound.ofNumber_le_ofNumber] at upperBound
    have lowerFits := fitsCast_int64 lowerCast
    have upperFits := fitsCast_int64 upperCast
    have goal : AllHold values constraints ↔
        (2 ^ 63 ≤ upper -> left.toInt / 2 ^ 32 ≤ (upper - 2 ^ 64) / 2 ^ 32) := by
      rw [isLow] at run
      rw [← signed_bounds_iff lowerCast upperCast lowerFits upperFits lowerBound upperBound]
      split at run
      · rename_i ordered
        cases run
        simp only [AllHold, List.forall_mem_cons, LinearConstraint.holds_ge,
          LinearConstraint.holds_le, LinearExpression.eval_const, LinearExpression.eval_var,
          reads.leftSigned, reads.leftUnsigned, List.not_mem_nil, false_implies,
          implies_true, and_true]
        constructor
        · exact fun holds => ⟨holds.1, holds.2.1⟩
        · intro holds
          have between := Word.toNat_between ordered holds.1 holds.2
          exact ⟨holds.1, holds.2, Int.ofNat_le.mpr between.1, Int.ofNat_le.mpr between.2⟩
      · cases run
        simp only [AllHold, List.forall_mem_cons, LinearConstraint.holds_ge,
          LinearConstraint.holds_le, LinearExpression.eval_const, LinearExpression.eval_var,
          reads.leftSigned, List.not_mem_nil, false_implies, implies_true, and_true]
    rw [goal]
    constructor
    · intro bounded lower' upper' _ _ upperForm'
      cases upperForm.symm.trans upperForm'
      exact bounded
    · intro bounded
      exact bounded lower upper (by simp [single]) lowerForm upperForm
  · rename_i notBoth
    cases run
    refine iff_of_true (fun _ member => by cases member) ?_
    intro lower upper single lowerForm upperForm
    rcases Option.ne_none_iff_exists'.mp single with ⟨rn, isSingle⟩
    exact absurd (by simp [Interval.finiteSize, lowerForm, upperForm])
      (notBoth rn (upper - lower) isSingle)

theorem ordered_of_signed_compares {op : ConditionOp}
    (signed : op ∈ [ConditionOp.slt, .sle, .sgt, .sge])
    (passes : op.Compares (left.setWidth 32) (right.setWidth 32)) :
    Ordered (isLess op) (isStrict op) (left.setWidth 32).toInt (right.setWidth 32).toInt := by
  cases op <;> simp_all [ConditionOp.Compares, Ordered, isLess, isStrict]

theorem not_refuted {less : Bool} {m n : Int} {leftInterval rightInterval : Interval}
    (inLeft : m ∈ leftInterval) (inRight : n ∈ rightInterval) (passes : Ordered less strict m n) :
    ¬ Refuted less strict leftInterval rightInterval := by
  intro refuted
  cases less <;> cases strict <;>
    simp only [Refuted, Ordered, if_true, Bool.false_eq_true, if_false] at refuted passes
  · exact absurd (Interval.lt_of_ub_lt_lb inLeft inRight refuted) (by omega)
  · exact absurd (Interval.le_of_ub_le_lb inLeft inRight refuted) (by omega)
  · exact absurd (Interval.lt_of_ub_lt_lb inRight inLeft refuted) (by omega)
  · exact absurd (Interval.le_of_ub_le_lb inRight inLeft refuted) (by omega)

theorem assumeSignedCstInterval_holds_iff {op : ConditionOp}
    (signed : op ∈ [ConditionOp.eq, .slt, .sle, .sgt, .sge])
    (reads : Reads dom inv leftSvalue leftUvalue rightSvalue rightUvalue values left right)
    (passes : op.Compares (left.setWidth 32) (right.setWidth 32))
    (run : assumeSignedCstInterval dom inv op false leftSvalue leftUvalue rightSvalue rightUvalue =
      some constraints) :
    AllHold values constraints ↔
      Extends dom inv op leftSvalue leftUvalue rightSvalue rightUvalue left right := by
  have inLeft := mem_lowSigned reads.mem_leftSigned
  have inRight := mem_lowSigned reads.mem_rightSigned
  unfold assumeSignedCstInterval at run
  rw [getSignedIntervals_eq leftUvalue inLeft] at run
  rcases List.mem_cons.mp signed with rfl | ordered
  · exact assumeSigned32bitEq_holds_iff reads passes run
  · have order := ordered_of_signed_compares ordered passes
    have notRefuted := not_refuted inLeft inRight order
    have notEq : op ≠ .eq := by
      rintro rfl
      simp at ordered
    simp only [notEq, if_false, notRefuted] at run
    rcases truncateTo_eq_range (by decide) inLeft with ⟨a, b, leftForm, lower, _, upper⟩
    rcases truncateTo_eq_range (by decide) inRight with ⟨c, d, rightForm, _, _, _⟩
    split at run
    · rename_i settled
      cases run
      refine iff_of_true ?_ ?_
      · intro constraint member
        rw [List.mem_singleton.mp member]
        exact LinearConstraint.holds_trueConst values
      · cases op <;> simp at ordered
        all_goals exact fun notSettled => absurd settled notSettled
    · rename_i notSettled
      rw [leftForm] at inLeft
      rw [rightForm] at inRight
      rw [leftForm, rightForm] at run notSettled
      cases op <;> simp at ordered
      all_goals simp only [Extends, leftForm, rightForm]
      · exact (assumeSigned32bitLt_holds_iff reads inLeft inRight lower upper order run).trans
          (imp_iff_right notSettled).symm
      · exact (assumeSigned32bitLt_holds_iff reads inLeft inRight lower upper order run).trans
          (imp_iff_right notSettled).symm
      · exact (assumeSigned32bitGt_holds_iff reads inLeft inRight lower upper order run).trans
          (imp_iff_right notSettled).symm
      · exact (assumeSigned32bitGt_holds_iff reads inLeft inRight lower upper order run).trans
          (imp_iff_right notSettled).symm

end Signed

/-! ## Unsigned comparisons -/

section Unsigned

variable {leftSvalue leftUvalue : V} {rightSvalue rightUvalue : LinearExpression V}
  {values : V -> Int}
  {left right : BitVec 64} {strict : Bool} {constraints : List (LinearConstraint V)} {a b c d : Int}

theorem mem_unsignedInt32 {n : Int} : n ∈ Interval.unsignedInt 32 ↔ 0 ≤ n ∧ n ≤ 2 ^ 32 - 1 :=
  Interval.mem_range

theorem mem_nonnegative32 {n : Int} : n ∈ Interval.nonnegative 32 ↔ 0 ≤ n ∧ n ≤ 2 ^ 31 - 1 :=
  Interval.mem_range

theorem mem_negative32 {n : Int} : n ∈ Interval.negative 32 ↔ -2 ^ 31 ≤ n ∧ n ≤ -1 :=
  Interval.mem_range

/-- The constraints of an unsigned comparison from below always hold: the code
compares whole words only when both are known to fit. -/
theorem assumeUnsigned32bitLt_holds
    (reads : Reads dom inv leftSvalue leftUvalue rightSvalue rightUvalue values left right)
    (passes : Ordered true strict (left.setWidth 32).toNat (right.setWidth 32).toNat) :
    AllHold values (assumeUnsigned32bitLt dom inv strict leftSvalue leftUvalue rightSvalue
      rightUvalue) := by
  have leftWord := Word.toInt_cases left
  have leftLow := Word.low_cases left
  have rightWord := Word.toInt_cases right
  have rightLow := Word.low_cases right
  unfold assumeUnsigned32bitLt
  split
  · rename_i sameHalf
    simp only [AllHold, List.forall_mem_cons, holds_ltOrLe, LinearConstraint.holds_le,
      LinearExpression.eval_const, LinearExpression.eval_var, reads.leftSigned, reads.leftUnsigned,
      reads.rightSigned, reads.rightUnsigned]
    rcases sameHalf with ⟨first, second⟩ | ⟨first, second⟩
    · have leftSmall := mem_nonnegative32.mp (Interval.mem_of_le first reads.mem_leftUnsigned)
      have rightSmall := mem_nonnegative32.mp (Interval.mem_of_le second reads.mem_rightUnsigned)
      cases strict <;> simp only [Ordered, if_true, Bool.false_eq_true, if_false] at passes ⊢ <;>
        simp <;> omega
    · have leftSmall := mem_negative32.mp (Interval.mem_of_le first reads.mem_leftSigned)
      have rightSmall := mem_negative32.mp (Interval.mem_of_le second reads.mem_rightSigned)
      cases strict <;> simp only [Ordered, if_true, Bool.false_eq_true, if_false] at passes ⊢ <;>
        simp <;> omega
  · split
    · rename_i narrow
      have leftSmall := mem_unsignedInt32.mp (Interval.mem_of_le narrow.1 reads.mem_leftUnsigned)
      have rightSmall := mem_unsignedInt32.mp (Interval.mem_of_le narrow.2 reads.mem_rightUnsigned)
      simp only [AllHold, List.forall_mem_cons, holds_ltOrLe, LinearConstraint.holds_le,
        LinearExpression.eval_const, LinearExpression.eval_var, reads.leftUnsigned,
        reads.rightUnsigned]
      cases strict <;> simp only [Ordered, if_true, Bool.false_eq_true, if_false] at passes ⊢ <;>
        simp <;> omega
    · simp [AllHold]

theorem assumeUnsigned32bitGt_holds_iff {leftInterval low high : Interval}
    (reads : Reads dom inv leftSvalue leftUvalue rightSvalue rightUvalue values left right)
    (passes : Ordered false strict (left.setWidth 32).toNat (right.setWidth 32).toNat)
    {rightInterval : Interval} :
    AllHold values (assumeUnsigned32bitGt dom inv strict leftSvalue leftUvalue
        ⟨leftInterval, rightInterval, low, high⟩ rightSvalue rightUvalue) ↔
      (rightInterval ≤ .unsignedHigh 32 -> WordsOrdered false strict left right) := by
  have leftWord := Word.toInt_cases left
  have leftLow := Word.low_cases left
  have rightWord := Word.toInt_cases right
  have rightLow := Word.low_cases right
  unfold assumeUnsigned32bitGt
  split
  · rename_i rightHigh
    rw [imp_iff_right rightHigh]
    simp only [AllHold, List.forall_mem_cons, holds_gtOrGe, LinearConstraint.holds_le,
      LinearExpression.eval_const, LinearExpression.eval_var, reads.leftSigned, reads.leftUnsigned,
      reads.rightSigned, reads.rightUnsigned, WordsOrdered]
    simp only [List.not_mem_nil, false_implies, implies_true, and_true]
    constructor
    · exact fun holds => ⟨holds.2.2, holds.2.1⟩
    · exact fun holds => ⟨by omega, holds.2, holds.1⟩
  · rename_i notHigh
    refine iff_of_true ?_ (fun high => absurd high notHigh)
    split
    · rename_i narrow
      have leftSmall := mem_unsignedInt32.mp (Interval.mem_of_le narrow.1 reads.mem_leftUnsigned)
      have rightSmall := mem_unsignedInt32.mp (Interval.mem_of_le narrow.2 reads.mem_rightUnsigned)
      simp only [AllHold, List.forall_mem_cons, holds_gtOrGe, LinearConstraint.holds_le,
        LinearExpression.eval_const, LinearExpression.eval_var, reads.leftUnsigned,
        reads.rightUnsigned]
      cases strict <;> simp only [Ordered, if_true, Bool.false_eq_true, if_false] at passes ⊢ <;>
        simp <;> omega
    · simp [AllHold]

theorem assumeUnsignedOrder_holds_iff {op : ConditionOp}
    {leftInterval rightInterval low high : Interval}
    (reads : Reads dom inv leftSvalue leftUvalue rightSvalue rightUvalue values left right)
    (inLeft : ((left.setWidth 32).toNat : Int) ∈ leftInterval)
    (inRight : ((right.setWidth 32).toNat : Int) ∈ rightInterval)
    (passes : Ordered (isLess op) (isStrict op) (left.setWidth 32).toNat (right.setWidth 32).toNat)
    (run : assumeUnsignedOrder dom inv op false leftSvalue leftUvalue
      ⟨leftInterval, rightInterval, low, high⟩
      rightSvalue rightUvalue = some constraints) :
    AllHold values constraints ↔
      (isLess op = false -> ¬ Settled false (isStrict op) leftInterval rightInterval ->
        rightInterval ≤ .unsignedHigh 32 -> WordsOrdered false (isStrict op) left right) := by
  unfold assumeUnsignedOrder at run
  simp only [not_refuted inLeft inRight passes, if_false] at run
  cases direction : isLess op
  · rw [direction] at run passes
    rw [imp_iff_right rfl]
    split at run
    · rename_i settled
      cases run
      exact iff_of_true (fun _ member => by cases member)
        (fun notSettled => absurd settled notSettled)
    · rename_i notSettled
      cases run
      exact (assumeUnsigned32bitGt_holds_iff reads passes).trans (imp_iff_right notSettled).symm
  · rw [direction] at run passes
    refine iff_of_true ?_ (fun isGreater => by cases isGreater)
    split at run
    · cases run
      exact fun _ member => by cases member
    · cases run
      exact assumeUnsigned32bitLt_holds reads passes

theorem ordered_of_unsigned_compares {op : ConditionOp}
    (unsigned : op ∈ [ConditionOp.ge, .le, .gt, .lt])
    (passes : op.Compares (left.setWidth 32) (right.setWidth 32)) :
    Ordered (isLess op) (isStrict op) (left.setWidth 32).toNat (right.setWidth 32).toNat := by
  cases op <;> simp at unsigned
  all_goals exact Int.ofNat_le.mpr passes

theorem eq_ofNumber_of_singleton {interval : Interval} {n : Int}
    (single : interval.singleton = some n) :
    interval = .ofNumber n := by
  unfold Interval.singleton at single
  split at single
  · rename_i equal
    have lower := Bound.number_eq_some.mp single
    rcases interval with ⟨lb, ub⟩
    simp_all [Interval.ofNumber]
  · cases single

/-- A disequation that excludes the lower end is an order, and the others lose
nothing. -/
theorem disequation_holds_iff
    (reads : Reads dom inv leftSvalue leftUvalue rightSvalue rightUvalue values left right)
    {leftInterval rightInterval low high : Interval} (leftForm : leftInterval = .range a b)
    (inside : leftInterval ≤ .full .uint32)
    (inLeft : ((left.setWidth 32).toNat : Int) ∈ leftInterval)
    (inRight : ((right.setWidth 32).toNat : Int) ∈ rightInterval)
    (passes : left.setWidth 32 ≠ right.setWidth 32)
    (run : (match resolveDisequation false ⟨leftInterval, rightInterval, low, high⟩ with
      | some (order, other) =>
          assumeUnsignedOrder dom inv order false leftSvalue leftUvalue
            ⟨leftInterval, other, low, high⟩
            rightSvalue rightUvalue
      | none => some []) = some constraints) :
    AllHold values constraints ↔
      (leftInterval.lb.number = rightInterval.singleton -> rightInterval.singleton ≠ none ->
        rightInterval ≤ .unsignedHigh 32 -> WordsOrdered false true left right) := by
  have different : (left.setWidth 32).toNat ≠ (right.setWidth 32).toNat :=
    fun same => passes (BitVec.eq_of_toNat_eq same)
  have leftMember := inLeft
  rw [leftForm, Interval.mem_range] at leftMember
  have lowerEnd : leftInterval.lb = .ofNumber a := by
    rw [leftForm, Interval.range_eq (by omega)]
  have upperEnd : leftInterval.ub = .ofNumber b := by
    rw [leftForm, Interval.range_eq (by omega)]
  unfold resolveDisequation at run
  cases single : rightInterval.singleton with
  | none =>
      simp only [single] at run
      cases run
      exact iff_of_true (fun _ member => by cases member) (fun _ some => absurd rfl some)
  | some rn =>
      have isRight := Interval.eq_of_singleton single inRight
      have truncated : leftInterval.truncateTo ⟨false, if false = true then 64
          else 32⟩ = leftInterval :=
        Interval.truncateTo_of_le inside
      simp only [single, truncated, lowerEnd, upperEnd, Bound.number_ofNumber,
        Option.some.injEq] at run ⊢
      split at run
      · rename_i order other resolved
        split at resolved
        · rename_i isLower
          cases resolved
          have rightForm : rightInterval = Interval.ofNumber a :=
            isLower ▸ eq_ofNumber_of_singleton single
          have otherForm : Interval.ofBound (.ofNumber a) = rightInterval := rightForm.symm
          rw [otherForm] at run
          have order : Ordered (isLess .gt) (isStrict .gt) (left.setWidth 32).toNat
              (right.setWidth 32).toNat := by
            show ((right.setWidth 32).toNat : Int) < (left.setWidth 32).toNat
            omega
          have notSettled : ¬ Settled false (isStrict .gt) leftInterval rightInterval := by
            simp [Settled, isStrict, lowerEnd, rightForm, Interval.ofNumber]
          rw [assumeUnsignedOrder_holds_iff reads inLeft inRight order run]
          simp only [isLower, notSettled, isLess, not_false_iff, true_implies, ne_eq, reduceCtorEq]
          rfl
        · rename_i notLower
          split at resolved
          · cases resolved
            have otherForm : Interval.ofBound (.ofNumber b) = rightInterval := by
              rename_i isUpper
              exact isUpper ▸ (eq_ofNumber_of_singleton single).symm
            rw [otherForm] at run
            have order : Ordered (isLess .lt) (isStrict .lt) (left.setWidth 32).toNat
                (right.setWidth 32).toNat := by
              show ((left.setWidth 32).toNat : Int) < (right.setWidth 32).toNat
              omega
            rw [assumeUnsignedOrder_holds_iff reads inLeft inRight order run]
            exact iff_of_true (fun isGreater => by cases isGreater)
              (fun isLower => absurd isLower notLower)
          · cases resolved
      · rename_i unresolved
        cases run
        refine iff_of_true (fun _ member => by cases member) ?_
        intro isLower
        simp [isLower] at unresolved

theorem assumeUnsignedCstInterval_holds_iff {op : ConditionOp}
    (unsigned : op ∈ [ConditionOp.ne, .ge, .le, .gt, .lt])
    (reads : Reads dom inv leftSvalue leftUvalue rightSvalue rightUvalue values left right)
    (passes : op.Compares (left.setWidth 32) (right.setWidth 32))
    (run : assumeUnsignedCstInterval dom inv op false leftSvalue leftUvalue rightSvalue
      rightUvalue =
      some constraints) :
    AllHold values constraints ↔
      Extends dom inv op leftSvalue leftUvalue rightSvalue rightUvalue left right := by
  have inLeft := mem_lowUnsigned reads.mem_leftUnsigned
  have inRight := mem_lowUnsigned reads.mem_rightUnsigned
  unfold assumeUnsignedCstInterval at run
  rw [getUnsignedIntervals_eq leftSvalue inLeft] at run
  rcases List.mem_cons.mp unsigned with rfl | ordered
  · rcases truncateTo_eq_range (by decide) inLeft with ⟨a, b, leftForm, _⟩
    exact disequation_holds_iff reads leftForm (Interval.truncateTo_le (by decide) _) inLeft
      inRight passes run
  · have order := ordered_of_unsigned_compares ordered passes
    have notNe : op ≠ .ne := by
      rintro rfl
      simp at ordered
    simp only [notNe, if_false] at run
    rw [assumeUnsignedOrder_holds_iff reads inLeft inRight order run]
    cases op <;> simp at ordered <;> simp [Extends, isLess]

end Unsigned

/-! ## Bit tests -/

section Bits

variable {leftSvalue leftUvalue : V} {rightSvalue rightUvalue : LinearExpression V}
  {values : V -> Int} {left right : BitVec 64} {constraints : List (LinearConstraint V)}

/-- A mask with a zero high half selects bits of the low half. -/
theorem and_lowMask_eq_zero :
    left &&& (right.setWidth 32).setWidth 64 = 0 ↔ left.setWidth 32 &&& right.setWidth 32 = 0 := by
  have widened : left &&& (right.setWidth 32).setWidth 64 =
      (left.setWidth 32 &&& right.setWidth 32).setWidth 64 := by
    apply BitVec.eq_of_getLsbD_eq
    intro index inWord
    by_cases low : index < 32 <;> simp [low, inWord]
  rw [widened]
  constructor
  · intro zero
    have narrowed := congrArg (BitVec.setWidth 32) zero
    simpa using narrowed
  · intro zero
    rw [zero]
    rfl

theorem assumeBitCstInterval_holds {op : ConditionOp} (bitTest : op ∈ [ConditionOp.set, .nset])
    (reads : Reads dom inv leftSvalue leftUvalue rightSvalue rightUvalue values left right)
    {srcInterval : Interval}
    (sourceWord : forall n, srcInterval.singleton = some n -> BitVec.ofInt 64 n = right)
    (passes : op.Compares (left.setWidth 32) (right.setWidth 32))
    (run : assumeBitCstInterval dom inv op false leftUvalue srcInterval = some constraints) :
    AllHold values constraints := by
  unfold assumeBitCstInterval at run
  split at run
  · rename_i dst src dstSingle srcSingle
    have destinationWord : BitVec.ofInt 64 dst = left := by
      rw [← Interval.eq_of_singleton dstSingle reads.mem_leftUnsigned]
      simp
    simp only [destinationWord, sourceWord src srcSingle, Bool.false_eq_true, if_false, ne_eq,
      and_lowMask_eq_zero] at run
    have holdsTrue : AllHold values [(LinearConstraint.trueConst : LinearConstraint V)] := by
      simp [AllHold]
    split at run
    · cases op <;> simp at bitTest
      · simp only [show ¬ (left.setWidth 32 &&& right.setWidth 32 = 0) from passes,
          not_false_eq_true, if_true] at run
        cases run
        exact holdsTrue
      · simp only [show left.setWidth 32 &&& right.setWidth 32 = 0 from passes, if_true] at run
        cases run
        exact holdsTrue
    · cases run
      exact fun _ member => by cases member
  · cases run
    exact fun _ member => by cases member

end Bits

/-! ## All conditions -/

/-- The constraints of `assume_cst_imm` for one represented word. -/
theorem assumeCstImm_holds_iff {op : ConditionOp} {dstSvalue dstUvalue : V} {imm : BitVec 64}
    {constraints : List (LinearConstraint V)}
    (run : assumeCstImm dom inv op false dstSvalue dstUvalue imm = some constraints)
    {values : V -> Int} {left : BitVec 64}
    (reads : Reads dom inv dstSvalue dstUvalue (.const imm.toInt)
      (.const imm.toNat) values left imm)
    (passes : op.Compares (left.setWidth 32) (imm.setWidth 32)) :
    AllHold values constraints ↔
      Extends dom inv op dstSvalue dstUvalue (.const imm.toInt) (.const imm.toNat) left imm := by
  have sourceWord : forall n, (Interval.ofNumber imm.toInt).singleton = some n ->
      BitVec.ofInt 64 n = imm := by
    intro n single
    rw [← Interval.eq_of_singleton single (Interval.mem_ofNumber.mpr rfl)]
    simp
  cases op
  case set => exact iff_of_true (assumeBitCstInterval_holds
    (by simp) reads sourceWord passes run) trivial
  case nset => exact iff_of_true (assumeBitCstInterval_holds
    (by simp) reads sourceWord passes run) trivial
  case eq => exact assumeSignedCstInterval_holds_iff (by simp) reads passes run
  case slt => exact assumeSignedCstInterval_holds_iff (by simp) reads passes run
  case sle => exact assumeSignedCstInterval_holds_iff (by simp) reads passes run
  case sgt => exact assumeSignedCstInterval_holds_iff (by simp) reads passes run
  case sge => exact assumeSignedCstInterval_holds_iff (by simp) reads passes run
  all_goals exact assumeUnsignedCstInterval_holds_iff (by simp) reads passes run

/-- The constraints of `assume_cst_reg` for one represented pair of words. -/
theorem assumeCstReg_holds_iff {op : ConditionOp} {dstSvalue dstUvalue srcSvalue srcUvalue : V}
    {constraints : List (LinearConstraint V)}
    (run : assumeCstReg dom inv op false dstSvalue dstUvalue srcSvalue srcUvalue = some constraints)
    {values : V -> Int} {left right : BitVec 64}
    (reads : Reads dom inv dstSvalue dstUvalue (.var srcSvalue) (.var srcUvalue) values left right)
    (passes : op.Compares (left.setWidth 32) (right.setWidth 32)) :
    AllHold values constraints ↔
      Extends dom inv op dstSvalue dstUvalue (.var srcSvalue) (.var srcUvalue) left right := by
  have sourceWord : forall n, (evalVar dom inv srcUvalue).singleton = some n ->
      BitVec.ofInt 64 n = right := by
    intro n single
    rw [← Interval.eq_of_singleton single reads.mem_rightUnsigned]
    simp
  cases op
  case set => exact iff_of_true (assumeBitCstInterval_holds
    (by simp) reads sourceWord passes run) trivial
  case nset => exact iff_of_true (assumeBitCstInterval_holds
    (by simp) reads sourceWord passes run) trivial
  case eq => exact assumeSignedCstInterval_holds_iff (by simp) reads passes run
  case slt => exact assumeSignedCstInterval_holds_iff (by simp) reads passes run
  case sle => exact assumeSignedCstInterval_holds_iff (by simp) reads passes run
  case sgt => exact assumeSignedCstInterval_holds_iff (by simp) reads passes run
  case sge => exact assumeSignedCstInterval_holds_iff (by simp) reads passes run
  all_goals exact assumeUnsignedCstInterval_holds_iff (by simp) reads passes run

/-- The refinement of a 32-bit branch is sound for a state exactly if every
represented pair of words that passes the comparison also satisfies the
relation of the whole words that the branch of the code presumes. -/
theorem assumeCst32_sound_iff (op : ConditionOp) (dstSvalue dstUvalue : V) :
    (forall (imm : BitVec 64) (constraints : List (LinearConstraint V)),
      assumeCstImm dom inv op false dstSvalue dstUvalue imm = some constraints ->
        ((forall values left,
            Reads dom inv dstSvalue dstUvalue (.const imm.toInt)
            (.const imm.toNat) values left imm ->
              op.Compares (left.setWidth 32) (imm.setWidth 32) -> AllHold values constraints) ↔
          forall values left,
            Reads dom inv dstSvalue dstUvalue (.const imm.toInt)
            (.const imm.toNat) values left imm ->
              op.Compares (left.setWidth 32) (imm.setWidth 32) ->
                Extends dom inv op dstSvalue dstUvalue (.const imm.toInt)
                (.const imm.toNat) left imm)) ∧
    (forall (srcSvalue srcUvalue : V) (constraints : List (LinearConstraint V)),
      assumeCstReg dom inv op false dstSvalue dstUvalue srcSvalue srcUvalue = some constraints ->
        ((forall values left right,
            Reads dom inv dstSvalue dstUvalue (.var srcSvalue) (.var srcUvalue) values left right ->
              op.Compares (left.setWidth 32) (right.setWidth 32) -> AllHold values constraints) ↔
          forall values left right,
            Reads dom inv dstSvalue dstUvalue (.var srcSvalue) (.var srcUvalue) values left right ->
              op.Compares (left.setWidth 32) (right.setWidth 32) ->
                Extends dom inv op dstSvalue dstUvalue (.var srcSvalue)
                (.var srcUvalue) left right)) := by
  constructor
  · intro imm constraints run
    refine forall_congr' fun values => forall_congr' fun left => ?_
    exact imp_congr_right fun reads => imp_congr_right fun passes =>
      assumeCstImm_holds_iff run reads passes
  · intro srcSvalue srcUvalue constraints run
    refine forall_congr' fun values => forall_congr' fun left => forall_congr' fun right => ?_
    exact imp_congr_right fun reads => imp_congr_right fun passes =>
      assumeCstReg_holds_iff run reads passes

/-- The two variables of one register. -/
inductive Reading where
  | signed
  | unsigned
  deriving DecidableEq

/-- A register whose high half is zero. -/
def zeroExtended : (intervalDomain Reading).State :=
  some ⟨fun _ => .range 0 (2 ^ 32 - 1), fun _ => ⟨0, by simp⟩⟩

/-- The branch `w1 > 0xfffffffd` for a register with a zero high half: the code
compares the whole word with the sign-extended immediate and excludes the words
that take the branch. -/
theorem assumeCst32_excludes_taken_branch :
    exists constraints values left,
      assumeCstImm (intervalDomain Reading) zeroExtended .gt false .signed .unsigned
      0xfffffffffffffffd#64 =
          some constraints ∧
        Reads (intervalDomain Reading) zeroExtended .signed .unsigned
        (.const (0xfffffffffffffffd#64).toInt)
            (.const (0xfffffffffffffffd#64).toNat) values left 0xfffffffffffffffd#64 ∧
          ConditionOp.Compares .gt (left.setWidth 32) ((0xfffffffffffffffd#64).setWidth 32) ∧
            ¬ AllHold values constraints := by
  have run : assumeCstImm (intervalDomain Reading) zeroExtended .gt false .signed .unsigned
      0xfffffffffffffffd#64 =
      some [.le (.const 0) (.var .unsigned), .gt (.var .unsigned) (.const 18446744073709551613),
        .gt (.var .signed) (.const (-3))] := by
    decide
  refine ⟨_, fun _ => 0xfffffffe, 0xfffffffe#64, run, ?_, by show (_ : Nat) < _; decide, ?_⟩
  · refine ⟨⟨_, rfl, fun _ => by simp⟩, rfl, rfl, ?_, ?_⟩ <;> simp
  · intro holds
    have second := holds (.gt (.var .unsigned) (.const 18446744073709551613)) (by simp)
    simp at second

/-- For the branch `w1 > 0x80000000` of the same register the whole words
compare as their low halves do, and the refinement is sound. -/
theorem assumeCst32_sound_zeroExtended :
    exists constraints,
      assumeCstImm (intervalDomain Reading) zeroExtended .gt false .signed .unsigned 0x80000000#64 =
          some constraints ∧
        forall values left,
          Reads (intervalDomain Reading) zeroExtended .signed .unsigned
          (.const (0x80000000#64).toInt)
              (.const (0x80000000#64).toNat) values left 0x80000000#64 ->
            ConditionOp.Compares .gt (left.setWidth 32) ((0x80000000#64).setWidth 32) ->
              AllHold values constraints := by
  have run : assumeCstImm (intervalDomain Reading) zeroExtended .gt false .signed .unsigned
      0x80000000#64 =
      some [.le (.const 0) (.var .unsigned), .gt (.var .unsigned) (.const 2147483648),
        .gt (.var .signed) (.const 2147483648)] := by
    decide
  have sound := (@assumeCst32_sound_iff Reading _ (intervalDomain Reading) zeroExtended .gt
    .signed .unsigned).1
    0x80000000#64 _ run
  refine ⟨_, run, sound.mpr ?_⟩
  intro values left reads passes _ _
  have narrow : (left.toNat : Int) ≤ 2 ^ 32 - 1 := by
    have inside := (Interval.mem_of_le
      (show evalVar (intervalDomain Reading) zeroExtended .unsigned ≤
      .range 0 (2 ^ 32 - 1) by decide) reads.mem_leftUnsigned)
    exact (Interval.mem_range.mp inside).2
  have above : 2147483648 < left.toNat % 2 ^ 32 := by
    rw [← (Word.low_cases left).1]
    exact passes
  have word := Word.toInt_cases left
  constructor
  · show (2147483648 : Int) < left.toInt
    omega
  · show (2147483648 : Int) < left.toNat
    omega

end Ebpf
end Prevail
