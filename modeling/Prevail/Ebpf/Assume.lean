import Prevail.Asm.Syntax
import Prevail.Crab.NumAbsDomain

namespace Prevail
namespace Ebpf

open Crab

/-!
# Constraints of a condition

`assume_cst_imm` and `assume_cst_reg` of `ebpf_transformer.cpp`, with the
functions below them.  A register has two variables, for the signed and for the
unsigned reading of the same word; the left operand is a register, and the
right operand is given by one expression for each reading.

The functions read the numerical state through `eval_interval` only.  The
result is absent where the source throws.  An optional number that the source
dereferences without a test makes the result absent too when it is empty.
-/

variable {V : Type} [DecidableEq V]

/-- A comparison that is strict or not. -/
def ltOrLe (strict : Bool) (left right : LinearExpression V) : LinearConstraint V :=
  if strict then .lt left right else .le left right

/-- The converse comparison. -/
def gtOrGe (strict : Bool) (left right : LinearExpression V) : LinearConstraint V :=
  if strict then .gt left right else .ge left right

variable (dom : NumAbsDomain V) (inv : dom.State)

/-- The interval of a variable. -/
def evalVar (target : V) : Interval := dom.evalInterval inv (.var target)

def assumeBitCstInterval (op : ConditionOp) (is64 : Bool) (dstUvalue : V) (srcInterval : Interval) :
    Option (List (LinearConstraint V)) :=
  match (evalVar dom inv dstUvalue).singleton, srcInterval.singleton with
  | some dst, some src =>
      if IntType.int64.FitsCast dst ∧ IntType.int64.FitsCast src then
        let srcIntValue : BitVec 64 :=
          if is64 then .ofInt 64 src else ((BitVec.ofInt 64 src).setWidth 32).setWidth 64
        match op with
        | .set => some [if BitVec.ofInt 64 dst &&& srcIntValue ≠ 0 then .trueConst else .falseConst]
        | .nset => some [if BitVec.ofInt 64 dst &&& srcIntValue = 0 then .trueConst
          else .falseConst]
        | _ => none
      else some []
  | _, _ => some []

def assumeSigned64bitEq (leftSvalue leftUvalue : V) (rightInterval : Interval)
    (rightSvalue rightUvalue : LinearExpression V) : List (LinearConstraint V) :=
  if rightInterval ≤ .nonnegative 64 ∧ ¬ rightInterval.lb = rightInterval.ub then
    [.eq (.var leftSvalue) rightSvalue, .eq (.var leftUvalue) rightUvalue,
      .eq (.var leftSvalue) (.var leftUvalue)]
  else [.eq (.var leftSvalue) rightSvalue, .eq (.var leftUvalue) rightUvalue]

/-- The high 32 bits of one number with the low 32 bits of another. -/
def matchLow (high low : Int) : BitVec 64 :=
  (BitVec.ofInt 64 high &&& 0xFFFFFFFF00000000#64) ||| (BitVec.ofInt 64 low &&& 0xFFFFFFFF#64)

/-- `assume_signed_32bit_eq`.  The corrections of `lb` and `ub` come after the
last use of these variables and have no effect. -/
def assumeSigned32bitEq (leftSvalue leftUvalue : V) (rightInterval : Interval) :
    Option (List (LinearConstraint V)) :=
  match rightInterval.singleton, (evalVar dom inv leftSvalue).finiteSize with
  | some rn, some _ => do
      let lb <- (evalVar dom inv leftSvalue).lb.number.bind IntType.int64.cast
      let ub <- (evalVar dom inv leftSvalue).ub.number.bind IntType.int64.cast
      if (matchLow lb rn).toNat ≤ (matchLow ub rn).toNat then
        some
          [.ge (.var leftSvalue) (.const (matchLow lb rn).toInt),
            .le (.var leftSvalue) (.const (matchLow ub rn).toInt),
            .ge (.var leftUvalue) (.const (matchLow lb rn).toNat),
            .le (.var leftUvalue) (.const (matchLow ub rn).toNat)]
      else
        some
          [.ge (.var leftSvalue) (.const (matchLow lb rn).toInt),
            .le (.var leftSvalue) (.const (matchLow ub rn).toInt)]
  | _, _ => some []

/-- The intervals of the two operands, with the left one split in two. -/
structure SplitIntervals where
  left : Interval
  right : Interval
  low : Interval
  high : Interval

/-- The operands as signed numbers of the width of the comparison.  The flag
`is64` is passed by value, so its update in the source ends with the call. -/
def signedOperands (is64 : Bool) (left right : Interval) : Interval × Interval :=
  if is64 then (left, right)
  else if (left ≤ .nonnegative 32 ∧ right ≤ .nonnegative 32) ∨
    (left ≤ .negative 32 ∧ right ≤ .negative 32) then
    (left, right)
  else (left.truncateTo .int32, right.truncateTo .int32)

/-- `get_signed_intervals`, with the positive part as the low one. -/
def getSignedIntervals (is64 : Bool) (leftSvalue leftUvalue : V)
    (rightSvalue : LinearExpression V) :
    SplitIntervals :=
  let operands := signedOperands is64 (evalVar dom inv leftSvalue)
    (dom.evalInterval inv rightSvalue)
  let leftUnsigned := evalVar dom inv leftUvalue
  if ¬ operands.1.IsTop then
    { left := operands.1.truncateTo .int64
      right := operands.2.truncateTo .int64
      low := operands.1.meet (.nonnegative 64)
      high := operands.1.meet (.negative 64) }
  else if ¬ leftUnsigned.IsTop then
    { left := leftUnsigned.truncateTo .int64
      right := operands.2.truncateTo .int64
      low := leftUnsigned.meet (.nonnegative 64)
      high := .range IntType.int64.min ((leftUnsigned.ub.number.map IntType.int64.truncate).getD (-1)) }
  else
    { left := leftUnsigned.truncateTo .int64
      right := operands.2.truncateTo .int64
      low := .nonnegative 64
      high := .negative 64 }

/-- The operands as unsigned numbers of the width of the comparison. -/
def unsignedOperands (is64 : Bool) (left right : Interval) : Interval × Interval :=
  if is64 then (left, right)
  else if (left ≤ .nonnegative 32 ∧ right ≤ .nonnegative 32) ∨
      (left ≤ .unsignedHigh 32 ∧ right ≤ .unsignedHigh 32) then (left, right)
  else (left.truncateTo .uint32, right.truncateTo .uint32)

def getUnsignedIntervals (is64 : Bool) (leftSvalue leftUvalue : V)
    (rightUvalue : LinearExpression V) :
    SplitIntervals :=
  let operands := unsignedOperands is64 (evalVar dom inv leftUvalue)
    (dom.evalInterval inv rightUvalue)
  let leftSigned := evalVar dom inv leftSvalue
  if ¬ operands.1.IsTop then
    { left := operands.1.truncateTo .uint64
      right := operands.2.truncateTo .uint64
      low := operands.1.meet (.nonnegative 64)
      high := operands.1.meet (.unsignedHigh 64) }
  else if ¬ leftSigned.IsTop then
    { left := leftSigned.truncateTo .uint64
      right := operands.2.truncateTo .uint64
      low := (Interval.mk' (.ofNumber 0) leftSigned.ub).truncateTo .uint64
      high := (Interval.mk' leftSigned.lb (.ofNumber (-1))).truncateTo .uint64 }
  else
    { left := leftSigned.truncateTo .uint64
      right := operands.2.truncateTo .uint64
      low := .nonnegative 64
      high := .unsignedHigh 64 }

def assumeSigned64bitLt (strict : Bool) (leftSvalue leftUvalue : V) (intervals : SplitIntervals)
    (rightSvalue rightUvalue : LinearExpression V) : List (LinearConstraint V) :=
  if intervals.right ≤ .negative 64 ∨
    (intervals.high.join intervals.low ≤ .nonnegative 64 ∧ intervals.right ≤ .nonnegative 64) then
    [ltOrLe strict (.var leftSvalue) rightSvalue, .le (.const 0) (.var leftUvalue),
      ltOrLe strict (.var leftUvalue) rightUvalue]
  else [ltOrLe strict (.var leftSvalue) rightSvalue]

/-- The constraints of a comparison of numbers that are not negative. -/
def nonnegativeConstraints (leftSvalue leftUvalue : V) (signed unsigned : LinearConstraint V)
    (upper : Int) :
    List (LinearConstraint V) :=
  [.ge (.var leftSvalue) (.const 0), signed, .le (.var leftSvalue) (.var leftUvalue),
    .ge (.var leftSvalue) (.var leftUvalue), .ge (.var leftUvalue) (.const 0), unsigned,
    .le (.var leftUvalue) (.const upper)]

def assumeSigned32bitLt (strict : Bool) (leftSvalue leftUvalue : V) (intervals : SplitIntervals)
    (rightSvalue rightUvalue : LinearExpression V) : Option (List (LinearConstraint V)) :=
  if intervals.right ≤ .negative 32 then
    some
      [.lt (.const IntType.int32.max) (.var leftUvalue),
        ltOrLe strict (.var leftUvalue) rightUvalue, ltOrLe strict (.var leftSvalue) rightSvalue]
  else if intervals.high.join intervals.low ≤ .nonnegative 32 ∧
    intervals.right ≤ .nonnegative 32 then
    (intervals.low.truncateTo .int32).ub.number.map
      (nonnegativeConstraints leftSvalue leftUvalue (ltOrLe strict (.var leftSvalue) rightSvalue)
        (ltOrLe strict (.var leftUvalue) rightUvalue))
  else if evalVar dom inv leftSvalue ≤ .signedInt 32 ∧
    dom.evalInterval inv rightSvalue ≤ .signedInt 32 then
    some [ltOrLe strict (.var leftSvalue) rightSvalue]
  else some []

def assumeSigned64bitGt (strict : Bool) (leftSvalue leftUvalue : V) (intervals : SplitIntervals)
    (rightSvalue rightUvalue : LinearExpression V) : Option (List (LinearConstraint V)) :=
  if intervals.right ≤ .nonnegative 64 then
    (intervals.low.truncateTo .int64).ub.number.map
      (nonnegativeConstraints leftSvalue leftUvalue (gtOrGe strict (.var leftSvalue) rightSvalue)
        (gtOrGe strict (.var leftUvalue) rightUvalue))
  else if intervals.high.join intervals.low ≤ .negative 64 ∧ intervals.right ≤ .negative 64 then
    some
      [.lt (.const IntType.int64.max) (.var leftUvalue),
        gtOrGe strict (.var leftUvalue) rightUvalue, gtOrGe strict (.var leftSvalue) rightSvalue]
  else some [gtOrGe strict (.var leftSvalue) rightSvalue]

def assumeSigned32bitGt (strict : Bool) (leftSvalue leftUvalue : V) (intervals : SplitIntervals)
    (rightSvalue rightUvalue : LinearExpression V) : Option (List (LinearConstraint V)) :=
  if intervals.right ≤ .nonnegative 32 then
    (intervals.low.truncateTo .int32).ub.number.map
      (nonnegativeConstraints leftSvalue leftUvalue (gtOrGe strict (.var leftSvalue) rightSvalue)
        (gtOrGe strict (.var leftUvalue) rightUvalue))
  else if intervals.high.join intervals.low ≤ .negative 32 ∧ intervals.right ≤ .negative 32 then
    some
      [.ge (.var leftUvalue) (.const (IntType.int32.max + 1)),
        gtOrGe strict (.var leftUvalue) rightUvalue, gtOrGe strict (.var leftSvalue) rightSvalue]
  else if evalVar dom inv leftSvalue ≤ .signedInt 32 ∧
    dom.evalInterval inv rightSvalue ≤ .signedInt 32 then
    some [gtOrGe strict (.var leftSvalue) rightSvalue]
  else some []

/-- The operator asks for the left operand to be below. -/
def isLess : ConditionOp -> Bool
  | .slt | .sle | .lt | .le => true
  | _ => false

/-- The operator excludes equality. -/
def isStrict : ConditionOp -> Bool
  | .slt | .sgt | .lt | .gt => true
  | _ => false

/-- The left interval contradicts the comparison. -/
def Refuted (less strict : Bool) (left right : Interval) : Prop :=
  if less then (if strict then right.ub ≤ left.lb else right.ub < left.lb)
  else (if strict then left.ub ≤ right.lb else left.ub < right.lb)

instance (less strict : Bool) (left right : Interval) :
    Decidable (Refuted less strict left right) := by
  unfold Refuted
  infer_instance

/-- The left interval settles the comparison. -/
def Settled (less strict : Bool) (left right : Interval) : Prop :=
  if less then (if strict then left.ub < right.lb else left.ub ≤ right.lb)
  else (if strict then right.ub < left.lb else right.ub ≤ left.lb)

instance (less strict : Bool) (left right : Interval) :
    Decidable (Settled less strict left right) := by
  unfold Settled
  infer_instance

def assumeSignedCstInterval (op : ConditionOp) (is64 : Bool) (leftSvalue leftUvalue : V)
    (rightSvalue rightUvalue : LinearExpression V) : Option (List (LinearConstraint V)) :=
  let intervals := getSignedIntervals dom inv is64 leftSvalue leftUvalue rightSvalue
  if op = .eq then
    if is64 then some (assumeSigned64bitEq leftSvalue leftUvalue intervals.right
      rightSvalue rightUvalue)
    else assumeSigned32bitEq dom inv leftSvalue leftUvalue intervals.right
  else if Refuted (isLess op) (isStrict op) intervals.left intervals.right then some [.falseConst]
  else if Settled (isLess op) (isStrict op) intervals.left intervals.right then some [.trueConst]
  else
    match is64, isLess op with
    | true, true =>
        some (assumeSigned64bitLt (isStrict op) leftSvalue leftUvalue intervals
          rightSvalue rightUvalue)
    | true, false => assumeSigned64bitGt (isStrict
      op) leftSvalue leftUvalue intervals rightSvalue rightUvalue
    | false, true =>
        assumeSigned32bitLt dom inv (isStrict op) leftSvalue leftUvalue intervals
          rightSvalue rightUvalue
    | false, false =>
        assumeSigned32bitGt dom inv (isStrict op) leftSvalue leftUvalue intervals
          rightSvalue rightUvalue

def assumeUnsigned64bitLt (strict : Bool) (leftSvalue leftUvalue : V) (intervals : SplitIntervals)
    (rightSvalue rightUvalue : LinearExpression V) : Option (List (LinearConstraint V)) :=
  if intervals.right ≤ .nonnegative 64 ∧
      (if strict then intervals.right.ub ≤ (intervals.low.truncateTo .uint64).lb
        else intervals.right.ub < (intervals.low.truncateTo .uint64).lb) then
    match (evalVar dom inv leftSvalue).ub.number with
    | some upper => some
        [.ge (.var leftUvalue) (.const 0), ltOrLe strict (.var leftUvalue) rightUvalue,
          .le (.var leftUvalue) (.const upper), .ge (.var leftSvalue) (.const 0)]
    | none => some
        [.ge (.var leftUvalue) (.const 0), ltOrLe strict (.var leftUvalue) rightUvalue,
          .ge (.var leftSvalue) (.const 0)]
  else if intervals.right ≤ .unsignedHigh 64 ∧
      (if strict then intervals.right.ub ≤ (intervals.high.truncateTo .uint64).lb
        else intervals.right.ub < (intervals.high.truncateTo .uint64).lb) then
    intervals.right.ub.number.map (fun rightUpper =>
      match (evalVar dom inv leftSvalue).ub.number with
      | some upper =>
          [.ge (.var leftUvalue) (.const 0), ltOrLe strict (.var leftUvalue) (.const rightUpper),
            .le (.var leftUvalue) (.const upper), .ge (.var leftSvalue) (.const 0)]
      | none =>
          [.ge (.var leftUvalue) (.const 0), ltOrLe strict (.var leftUvalue) (.const rightUpper),
            .ge (.var leftSvalue) (.const 0)])
  else if intervals.right ≤ .signedInt 64 then
    (intervals.low.truncateTo .uint64).ub.number.map (fun upper =>
      [.le (.const 0) (.var leftUvalue), ltOrLe strict (.var leftUvalue) rightUvalue,
        .le (.var leftUvalue) (.const upper), .le (.const 0) (.var leftSvalue),
        ltOrLe strict (.var leftSvalue) rightSvalue])
  else if intervals.low.IsBottom ∧ intervals.right ≤ .unsignedHigh 64 then
    some
      [.le (.const 0) (.var leftUvalue), ltOrLe strict (.var leftUvalue) rightUvalue,
        ltOrLe strict (.var leftSvalue) rightSvalue]
  else if intervals.low.join intervals.high = .unsignedInt 64 then
    some [ltOrLe strict (.var leftUvalue) rightUvalue]
  else some [.le (.const 0) (.var leftUvalue), ltOrLe strict (.var leftUvalue) rightUvalue]

def assumeUnsigned32bitLt (strict : Bool) (leftSvalue leftUvalue : V)
    (rightSvalue rightUvalue : LinearExpression V) : List (LinearConstraint V) :=
  if (evalVar dom inv leftUvalue ≤ .nonnegative 32 ∧
    dom.evalInterval inv rightUvalue ≤ .nonnegative 32) ∨
      (evalVar dom inv leftSvalue ≤ .negative 32 ∧ dom.evalInterval inv rightSvalue ≤ .negative 32)
      then
    [.le (.const 0) (.var leftUvalue), ltOrLe strict (.var leftUvalue) rightUvalue,
      ltOrLe strict (.var leftSvalue) rightSvalue]
  else if evalVar dom inv leftUvalue ≤ .unsignedInt 32 ∧
    dom.evalInterval inv rightUvalue ≤ .unsignedInt 32 then
    [.le (.const 0) (.var leftUvalue), ltOrLe strict (.var leftUvalue) rightUvalue]
  else []

def assumeUnsigned64bitGt (strict : Bool) (leftSvalue leftUvalue : V) (intervals : SplitIntervals)
    (rightSvalue rightUvalue : LinearExpression V) : Option (List (LinearConstraint V)) :=
  if intervals.right ≤ .nonnegative 64 ∧
      (if strict then (intervals.low.truncateTo .uint64).ub ≤ intervals.right.lb
        else (intervals.low.truncateTo .uint64).ub < intervals.right.lb) then
    (intervals.high.truncateTo .uint64).lb.number.map (fun lower =>
      [gtOrGe strict (.var leftUvalue) rightUvalue,
        if lower = IntType.uint64.max then .eq (.var leftUvalue) (.const lower)
        else .ge (.var leftUvalue) (.const lower),
        .lt (.var leftSvalue) (.const 0)])
  else if intervals.right ≤ .unsignedHigh 64 ∨
      (intervals.low.join intervals.high ≤ .nonnegative 64 ∧ intervals.right ≤ .nonnegative 64) then
    some
      [.le (.const 0) (.var leftUvalue), gtOrGe strict (.var leftUvalue) rightUvalue,
        gtOrGe strict (.var leftSvalue) rightSvalue]
  else some [.le (.const 0) (.var leftUvalue), gtOrGe strict (.var leftUvalue) rightUvalue]

def assumeUnsigned32bitGt (strict : Bool) (leftSvalue leftUvalue : V) (intervals : SplitIntervals)
    (rightSvalue rightUvalue : LinearExpression V) : List (LinearConstraint V) :=
  if intervals.right ≤ .unsignedHigh 32 then
    [.le (.const 0) (.var leftUvalue), gtOrGe strict (.var leftUvalue) rightUvalue,
      gtOrGe strict (.var leftSvalue) rightSvalue]
  else if evalVar dom inv leftUvalue ≤ .unsignedInt 32 ∧
    dom.evalInterval inv rightUvalue ≤ .unsignedInt 32 then
    [.le (.const 0) (.var leftUvalue), gtOrGe strict (.var leftUvalue) rightUvalue]
  else []

/-- The order that a disequation amounts to, and its right interval: one that
excludes an end of the left interval. -/
def resolveDisequation (is64 : Bool) (intervals : SplitIntervals) :
    Option (ConditionOp × Interval) :=
  match intervals.right.singleton with
  | some rn =>
      if (intervals.left.truncateTo ⟨false, if is64 then 64 else 32⟩).lb.number = some rn then
        some (.gt, .ofBound intervals.left.lb)
      else if intervals.left.ub.number = some rn then some (.lt, .ofBound intervals.left.ub)
      else none
  | none => none

/-- The part of `assume_unsigned_cst_interval` behind the disequations. -/
def assumeUnsignedOrder (op : ConditionOp) (is64 : Bool) (leftSvalue leftUvalue : V)
    (intervals : SplitIntervals)
    (rightSvalue rightUvalue : LinearExpression V) : Option (List (LinearConstraint V)) :=
  if Refuted (isLess op) (isStrict op) intervals.left intervals.right then some [.falseConst]
  else if Settled (isLess op) (isStrict op) intervals.left intervals.right then
    match is64, isLess op with
    | true, true => some [ltOrLe (isStrict op) (.var leftUvalue) rightUvalue]
    | true, false => some [gtOrGe (isStrict op) (.var leftUvalue) rightUvalue]
    | false, _ => some []
  else
    match is64, isLess op with
    | true, true =>
        assumeUnsigned64bitLt dom inv (isStrict op) leftSvalue leftUvalue intervals
          rightSvalue rightUvalue
    | true, false => assumeUnsigned64bitGt (isStrict
      op) leftSvalue leftUvalue intervals rightSvalue rightUvalue
    | false, true => some (assumeUnsigned32bitLt dom inv (isStrict op) leftSvalue leftUvalue
      rightSvalue rightUvalue)
    | false, false =>
        some (assumeUnsigned32bitGt dom inv (isStrict op) leftSvalue leftUvalue intervals
          rightSvalue rightUvalue)

def assumeUnsignedCstInterval (op : ConditionOp) (is64 : Bool) (leftSvalue leftUvalue : V)
    (rightSvalue rightUvalue : LinearExpression V) : Option (List (LinearConstraint V)) :=
  let intervals := getUnsignedIntervals dom inv is64 leftSvalue leftUvalue rightUvalue
  if op = .ne then
    match resolveDisequation is64 intervals with
    | some (order, right) =>
        assumeUnsignedOrder dom inv order is64 leftSvalue leftUvalue
          { intervals with right := right }
          rightSvalue rightUvalue
    | none => some []
  else assumeUnsignedOrder dom inv op is64 leftSvalue leftUvalue intervals rightSvalue rightUvalue

def assumeCstImm (op : ConditionOp) (is64 : Bool) (dstSvalue dstUvalue : V) (imm : BitVec 64) :
    Option (List (LinearConstraint V)) :=
  match op with
  | .eq | .sge | .sle | .sgt | .slt =>
      assumeSignedCstInterval dom inv op is64 dstSvalue dstUvalue (.const imm.toInt)
        (.const imm.toNat)
  | .set | .nset => assumeBitCstInterval dom inv op is64 dstUvalue (.ofNumber imm.toInt)
  | .ne | .ge | .le | .gt | .lt =>
      assumeUnsignedCstInterval dom inv op is64 dstSvalue dstUvalue (.const imm.toInt)
        (.const imm.toNat)

/-- `assume_cst_reg`.  The 64-bit comparisons that state their constraint
without a look at the intervals come first; the throw behind the last case of
the source has no operator left. -/
def assumeCstReg (op : ConditionOp) (is64 : Bool) (dstSvalue dstUvalue srcSvalue srcUvalue : V) :
    Option (List (LinearConstraint V)) :=
  match is64, op with
  | true, .eq =>
      if ¬ (evalVar dom inv srcSvalue).lb = (evalVar dom inv srcSvalue).ub ∧
          evalVar dom inv srcSvalue ≤ .nonnegative 64 then
        some
          [.eq (.var dstSvalue) (.var srcSvalue), .eq (.var dstUvalue) (.var srcUvalue),
            .eq (.var dstSvalue) (.var dstUvalue)]
      else some [.eq (.var dstSvalue) (.var srcSvalue), .eq (.var dstUvalue) (.var srcUvalue)]
  | true, .ne => some [.ne (.var dstSvalue) (.var srcSvalue)]
  | true, .sge => some [.ge (.var dstSvalue) (.var srcSvalue)]
  | true, .sle => some [.le (.var dstSvalue) (.var srcSvalue)]
  | true, .sgt => some [.gt (.var dstSvalue) (.var srcSvalue)]
  | true, .slt => some [.gt (.var srcSvalue) (.var dstSvalue)]
  | _, .set | _, .nset => assumeBitCstInterval dom inv op is64 dstUvalue (evalVar dom inv srcUvalue)
  | false, .eq | false, .sge | false, .sle | false, .sgt | false, .slt =>
      assumeSignedCstInterval dom inv op is64 dstSvalue dstUvalue (.var srcSvalue) (.var srcUvalue)
  | false, .ne | _, .ge | _, .le | _, .gt | _, .lt =>
      assumeUnsignedCstInterval dom inv op is64 dstSvalue dstUvalue (.var srcSvalue)
        (.var srcUvalue)

end Ebpf
end Prevail
