import Prevail.Crab.SplitDbm.AddBottomUpdate
import Prevail.Library.Word

namespace Prevail

/-!
# Arithmetic that wraps around

`overflow_bounds`, `apply_signed` and the operations of `ebpf_transformer` whose
results are linear: the sum, the difference, the multiplication by a number, and
the negation.  A register has two variables, for the signed and for the unsigned
reading of its word.

A result is computed without bounds from one of the readings and copied to the
other variable.  `overflow_bounds` then brings each of the two variables back into
its range.  It keeps the relations of a variable only if the interval did not
change, which is the case only if no value of the variable wraps.
-/

namespace Crab.IntType

variable {type : IntType} {l u n : Int}

/-- If the ends of an interval shorter than the range of a type keep their order,
truncation moves the whole interval by one distance. -/
theorem truncate_between (positive : 0 < type.width) (above : l ≤ n) (below : n ≤ u)
    (short : u - l < 2 ^ type.width)
    (ordered : type.truncate l ≤ type.truncate u) : type.truncate n = type.truncate l + (n - l) ∧
      type.truncate u = type.truncate l + (u - l) := by
  have modulus : (0 : Int) < 2 ^ type.width := by positivity
  have span := IntType.span positive
  have lowerFits := IntType.truncate_fits positive l
  have upperFits := IntType.truncate_fits positive u
  have lowerDvd := IntType.dvd_sub_truncate type l
  have upperDvd := IntType.dvd_sub_truncate type u
  have upper : type.truncate u = type.truncate l + (u - l) := by
    have congruent : (2 ^ type.width : Int) ∣ (u - l) - (type.truncate u - type.truncate l) := by
      have both := dvd_sub upperDvd lowerDvd
      have same : u - type.truncate u - (l - type.truncate l) = (u - l) -
          (type.truncate u - type.truncate l) := by ring
      rwa [same] at both
    unfold IntType.Fits at lowerFits upperFits
    have zero := Int.eq_zero_of_abs_lt_dvd congruent (by rw [abs_lt]; constructor <;> omega)
    omega
  refine ⟨?_, upper⟩
  apply IntType.truncate_eq positive
  · unfold IntType.Fits at lowerFits upperFits ⊢
    constructor <;> omega
  · have same : n - (type.truncate l + (n - l)) = l - type.truncate l := by ring
    rwa [same]

/-- Numbers that differ by a multiple of the modulus are truncated to one number. -/
theorem truncate_congr (positive : 0 < type.width) (congruent : (2 ^ type.width : Int) ∣ l - u) :
    type.truncate l = type.truncate u := by
  apply IntType.truncate_eq positive (IntType.truncate_fits positive u)
  have same : l - type.truncate u = (l - u) + (u - type.truncate u) := by ring
  rw [same]
  exact dvd_add congruent (IntType.dvd_sub_truncate type u)

end Crab.IntType

namespace Ebpf

open Crab

section Overflow

variable {V : Type} [LinearOrder V]

/-- A bound as `overflow_bounds` truncates it. -/
def wrapNumber (isSigned : Bool) (finiteWidth : Nat) (n : Int) : Int :=
  let truncated := IntType.truncate ⟨false, finiteWidth⟩ n
  if isSigned then IntType.int64.truncate truncated else truncated

def overflowBounds (lhs : V) (span : Int) (finiteWidth : Nat) (isSigned : Bool)
    (state : AddBottom V) : AddBottom V :=
  let interval := state.getInterval lhs
  match interval.lb.number, interval.ub.number with
  | some lbValue, some ubValue =>
      if ubValue - lbValue ≥ span then state.forget lhs
      else if interval.IsBottom then state.forget lhs
      else
        let lb := wrapNumber isSigned finiteWidth lbValue
        let ub := wrapNumber isSigned finiteWidth ubValue
        if lb > ub then state.forget lhs
        else if Interval.range lb ub ≠ interval then state.set lhs (.range lb ub)
        else state
  | _, _ => state.forget lhs

def overflowSigned (lhs : V) (finiteWidth : Nat) (state : AddBottom V) : AddBottom V :=
  overflowBounds lhs (IntType.max ⟨false, finiteWidth⟩) finiteWidth true state

def overflowUnsigned (lhs : V) (finiteWidth : Nat) (state : AddBottom V) : AddBottom V :=
  overflowBounds lhs (IntType.max ⟨false, finiteWidth⟩) finiteWidth false state

variable {state : AddBottom V} {values : V -> Int} {lhs lhss lhsu : V} {finiteWidth : Nat}
  {isSigned : Bool}

/-- The range that `overflow_bounds` brings a variable into. -/
def wrapType (isSigned : Bool) (finiteWidth : Nat) :
    IntType := ⟨isSigned && decide (finiteWidth = 64), finiteWidth⟩

theorem wrapNumber_eq (width : finiteWidth = 32 ∨ finiteWidth = 64) (n : Int) :
    wrapNumber isSigned finiteWidth n = (wrapType isSigned finiteWidth).truncate n := by
  cases isSigned with
  | false => rfl
  | true =>
      rcases width with rfl | rfl
      · have fits := @IntType.truncate_fits .uint32 (by decide) n
        change IntType.int64.truncate (IntType.uint32.truncate n) = IntType.uint32.truncate n
        apply IntType.truncate_of_fits (by decide)
        have low : IntType.int64.min ≤ IntType.uint32.min := by decide
        have high : IntType.uint32.max ≤ IntType.int64.max := by decide
        exact ⟨low.trans fits.1, fits.2.trans high⟩
      · apply IntType.truncate_eq (by decide) (@IntType.truncate_fits .int64 (by decide) n)
        have both := dvd_sub (IntType.dvd_sub_truncate .int64 n)
          (IntType.dvd_sub_truncate .uint64 n)
        rwa [sub_sub_sub_cancel_left] at both

theorem wrapType_positive (width : finiteWidth = 32 ∨ finiteWidth = 64) :
    0 < (wrapType isSigned finiteWidth).width := by
  rw [wrapType]
  dsimp only
  omega

/-- The variable may take the value that it has after wrapping around. -/
theorem represents_overflowBounds (width : finiteWidth = 32 ∨ finiteWidth = 64)
    (represents : state.Represents values) :
    (overflowBounds lhs (IntType.max ⟨false, finiteWidth⟩) finiteWidth isSigned state).Represents
      (Function.update values lhs (wrapNumber isSigned finiteWidth (values lhs))) := by
  have inside := AddBottom.mem_getInterval represents lhs
  rw [overflowBounds]
  dsimp only
  split
  · rename_i lbValue ubValue isLower isUpper
    have lower := inside.1
    have upper := inside.2
    rw [Bound.number_eq_some.mp isLower, Bound.ofNumber_le_ofNumber] at lower
    rw [Bound.number_eq_some.mp isUpper, Bound.ofNumber_le_ofNumber] at upper
    split
    · exact AddBottom.represents_forget lhs _ represents
    split
    · exact AddBottom.represents_forget lhs _ represents
    split
    · exact AddBottom.represents_forget lhs _ represents
    rename_i narrow _ ordered
    simp only [wrapNumber_eq width, not_lt] at ordered ⊢
    have short : ubValue - lbValue < 2 ^ (wrapType isSigned finiteWidth).width := by
      have largest : IntType.max ⟨false, finiteWidth⟩ = 2 ^ finiteWidth - 1 := rfl
      rw [largest] at narrow
      change ubValue - lbValue < 2 ^ finiteWidth
      omega
    have moved := IntType.truncate_between (wrapType_positive width) lower upper short ordered
    split
    · apply AddBottom.represents_set_update lhs represents
      rw [Interval.mem_range]
      omega
    · rename_i unchanged
      have same : Interval.range ((wrapType isSigned finiteWidth).truncate lbValue)
          ((wrapType isSigned finiteWidth).truncate ubValue) =
          state.getInterval lhs := not_ne_iff.mp unchanged
      have fixed : (wrapType isSigned finiteWidth).truncate lbValue = lbValue := by
        have ends := congrArg (fun interval => interval.lb.number) same
        rw [Interval.range_eq ordered] at ends
        exact Option.some.inj (ends.trans isLower)
      have kept : (wrapType isSigned finiteWidth).truncate (values lhs) = values lhs := by omega
      rw [kept, Function.update_eq_self]
      exact represents
  · exact AddBottom.represents_forget lhs _ represents

/-- Both readings after wrapping around, of variables that had one value. -/
theorem represents_overflow (width : finiteWidth = 32 ∨ finiteWidth = 64) (different : lhss ≠ lhsu)
    (represents : state.Represents values) :
    (overflowUnsigned lhsu finiteWidth (overflowSigned lhss finiteWidth state)).Represents
      (Function.update (Function.update values lhss (wrapNumber true finiteWidth (values lhss)))
      lhsu
        (wrapNumber false finiteWidth (values lhsu))) := by
  have signed : (overflowSigned lhss finiteWidth state).Represents
      (Function.update values lhss (wrapNumber true finiteWidth (values lhss))) :=
    represents_overflowBounds width represents
  have unsigned : (overflowUnsigned lhsu finiteWidth
      (overflowSigned lhss finiteWidth state)).Represents
      (Function.update _ lhsu (wrapNumber false finiteWidth
        (Function.update values lhss _ lhsu))) :=
    represents_overflowBounds width signed
  rwa [Function.update_of_ne different.symm] at unsigned

end Overflow

/-! ## Words after wrapping around -/

section Words

/-- The word of 64 bits that holds a number modulo the width, with zeros above. -/
def wrappedWord (finiteWidth : Nat) (n : Int) :
    BitVec 64 := (BitVec.ofInt finiteWidth n).setWidth 64

variable {finiteWidth : Nat} {m n : Int}

theorem toNat_wrappedWord (width : finiteWidth = 32 ∨ finiteWidth = 64) (n : Int) :
    ((wrappedWord finiteWidth n).toNat : Int) = n % 2 ^ finiteWidth := by
  have modulus : (0 : Int) < 2 ^ finiteWidth := by positivity
  have remainder : ((BitVec.ofInt finiteWidth n).toNat : Int) = n % 2 ^ finiteWidth := by
    rw [BitVec.toNat_ofInt]
    push_cast
    rw [Int.toNat_of_nonneg (Int.emod_nonneg n modulus.ne')]
  have kept : (wrappedWord finiteWidth n).toNat = (BitVec.ofInt finiteWidth n).toNat := by
    have bound := (BitVec.ofInt finiteWidth n).isLt
    rw [wrappedWord, BitVec.toNat_setWidth]
    apply Nat.mod_eq_of_lt
    apply lt_of_lt_of_le bound
    rcases width with rfl | rfl
    · exact Nat.pow_le_pow_right (by decide) (by decide)
    · exact le_refl _
  rw [kept, remainder]

theorem wrapNumber_unsigned (width : finiteWidth = 32 ∨ finiteWidth = 64) (n : Int) :
    wrapNumber false finiteWidth n = (wrappedWord finiteWidth n).toNat :=
  (toNat_wrappedWord width n).symm

theorem wrapNumber_signed (width : finiteWidth = 32 ∨ finiteWidth = 64) (n : Int) :
    wrapNumber true finiteWidth n = (wrappedWord finiteWidth n).toInt := by
  have unsigned := wrapNumber_unsigned width n
  have signed : wrapNumber true finiteWidth n = IntType.int64.truncate
      (wrapNumber false finiteWidth n) := rfl
  rw [signed, unsigned, BitVec.toInt_eq_toNat_bmod]
  simp only [IntType.truncate, IntType.int64, if_true]

theorem wrappedWord_eq (congruent : (2 ^ finiteWidth : Int) ∣ m - n) :
    wrappedWord finiteWidth m = wrappedWord finiteWidth n := by
  rw [wrappedWord, wrappedWord]
  congr 1
  apply BitVec.eq_of_toNat_eq
  have same : m % 2 ^ finiteWidth = n % 2 ^ finiteWidth := (Int.modEq_iff_dvd.mpr congruent).symm
  rw [BitVec.toNat_ofInt, BitVec.toNat_ofInt]
  push_cast
  rw [same]

/-- The two readings of a word differ by a multiple of the width. -/
theorem dvd_toNat_sub_toInt (width : finiteWidth = 32 ∨ finiteWidth = 64) (word : BitVec 64) :
    (2 ^ finiteWidth : Int) ∣ (word.toNat : Int) - word.toInt := by
  have whole : (2 ^ 64 : Int) ∣ (word.toNat : Int) - word.toInt := by
    rcases Word.toInt_cases word with ⟨same, _⟩ | ⟨less, _⟩
    · exact ⟨0, by omega⟩
    · exact ⟨1, by omega⟩
  rcases width with rfl | rfl
  · exact (by norm_num : (2 ^ 32 : Int) ∣ 2 ^ 64).trans whole
  · exact whole

end Words

section WithWord

variable {V : Type} [DecidableEq V] (values : V -> Int) {lhss lhsu : V} (word : BitVec 64) (n : Int)

/-- An assignment in which the two variables of a register have the readings of a
word. -/
def withWord (lhss lhsu : V) : V -> Int :=
  Function.update (Function.update values lhss word.toInt) lhsu word.toNat

theorem withWord_update_signed :
    withWord (Function.update values lhss n) word lhss lhsu = withWord values word lhss lhsu := by
  rw [withWord, Function.update_idem, withWord]

theorem withWord_update_unsigned (different : lhss ≠ lhsu) :
    withWord (Function.update values lhsu n) word lhss lhsu = withWord values word lhss lhsu := by
  rw [withWord, Function.update_comm different.symm, Function.update_idem, withWord]

end WithWord

/-! ## Linear operations -/

section Linear

variable {V : Type} [LinearOrder V]

/-- The second operand of an operation. -/
inductive Operand (V : Type) where
  | variable_ (z : V)
  | number (k : Int)

/-- The operations that `SplitDBM::apply` computes as expressions. -/
inductive LinearOp (V : Type) where
  | add (z : Operand V)
  | sub (z : Operand V)
  | mul (k : Int)

namespace Operand

/-- The operand as an expression. -/
def expression : Operand V -> LinearExpression V
  | variable_ z => .var z
  | number k => .const k

/-- The number that the operand is under an assignment. -/
def value (values : V -> Int) : Operand V -> Int
  | variable_ z => values z
  | number k => k

end Operand

namespace LinearOp

/-- The expression that is assigned. -/
def expression (y : V) : LinearOp V -> LinearExpression V
  | add z => (LinearExpression.var y).plus z.expression
  | sub z => (LinearExpression.var y).subtract z.expression
  | mul k => (LinearExpression.var y).multiply k

/-- The result over the integers. -/
def result (values : V -> Int) (left : Int) : LinearOp V -> Int
  | add z => left + z.value values
  | sub z => left - z.value values
  | mul k => left * k

theorem expression_wellFormed (op : LinearOp V) (y : V) : (op.expression y).WellFormed := by
  cases op with
  | add z => exact (LinearExpression.wellFormed_var y).plus _
  | sub z => exact (LinearExpression.wellFormed_var y).plus _
  | mul k => exact (LinearExpression.wellFormed_var y).multiply k

theorem eval_expression (op : LinearOp V) (y : V) (values : V -> Int) :
    (op.expression y).eval values = op.result values (values y) := by
  have operand : forall z : Operand V, z.expression.eval values = z.value values := by
    intro z
    cases z with
    | variable_ z => exact LinearExpression.eval_var values z
    | number k => exact LinearExpression.eval_const values k
  cases op with
  | add z => rw [expression, LinearExpression.eval_plus, LinearExpression.eval_var, operand, result]
  | sub z => rw [expression, LinearExpression.eval_subtract, LinearExpression.eval_var,
    operand, result]
  | mul k => rw [expression, LinearExpression.eval_multiply, LinearExpression.eval_var, result]

omit [LinearOrder V] in
/-- Operands that agree modulo a number have results that agree modulo it. -/
theorem dvd_result_sub (op : LinearOp V) (values : V -> Int) {modulus left other : Int}
    (congruent : modulus ∣ left - other) :
    modulus ∣ op.result values left - op.result values other := by
  cases op with
  | add z => simpa only [result, add_sub_add_right_eq_sub] using congruent
  | sub z => simpa only [result, sub_sub_sub_cancel_right] using congruent
  | mul k =>
      rw [result, result, <- sub_mul]
      exact congruent.mul_right k

end LinearOp

/-- `apply` for a linear operation. -/
def applyLinear (op : LinearOp V) (x y : V) (state : AddBottom V) : AddBottom V :=
  (state.assign x (op.expression y) (op.expression_wellFormed y)).normalize

def applySigned (op : LinearOp V) (xs xu y : V) (finiteWidth : Nat) (state : AddBottom V) :
    AddBottom V :=
  let applied := applyLinear op xs y state
  if finiteWidth = 0 then applied
  else overflowUnsigned xu finiteWidth (overflowSigned xs finiteWidth (applied.assignVar xu xs))

/-- The reading that `add_overflow` and `sub_overflow` compute with. -/
def knownReading (lhss lhsu : V) (state : AddBottom V) : V :=
  if (state.evalInterval (.var lhss)).IsTop then lhsu else lhss

def addOverflow (lhss lhsu : V) (op2 : Operand V) (finiteWidth : Nat) (state : AddBottom V) :
    AddBottom V :=
  applySigned (.add op2) lhss lhsu (knownReading lhss lhsu state) finiteWidth state

def subOverflow (lhss lhsu : V) (op2 : Operand V) (finiteWidth : Nat) (state : AddBottom V) :
    AddBottom V :=
  applySigned (.sub op2) lhss lhsu (knownReading lhss lhsu state) finiteWidth state

def neg (lhss lhsu : V) (finiteWidth : Nat) (state : AddBottom V) : AddBottom V :=
  applySigned (.mul (-1)) lhss lhsu lhss finiteWidth state

/-- `mul` by a number. -/
def mul (lhss lhsu : V) (op2 : Int) (finiteWidth : Nat) (state : AddBottom V) : AddBottom V :=
  applySigned (.mul op2) lhss lhsu lhss finiteWidth state

variable {state : AddBottom V} {values : V -> Int} {lhss lhsu y : V} {finiteWidth : Nat}

/-- Whichever reading an operation computes with, both variables may take the
readings of the result modulo the width. -/
theorem represents_applySigned (op : LinearOp V) (width : finiteWidth = 32 ∨ finiteWidth = 64)
    (different : lhss ≠ lhsu)
    (reading : y = lhss ∨ y = lhsu) (represents : state.Represents values) {word : BitVec 64}
    (signed : values lhss = word.toInt) (unsigned : values lhsu = word.toNat) :
    (applySigned op lhss lhsu y finiteWidth state).Represents
      (withWord values (wrappedWord finiteWidth (op.result values word.toInt)) lhss lhsu) := by
  have congruent : (2 ^ finiteWidth : Int) ∣ op.result values (values y) -
      op.result values word.toInt := by
    apply op.dvd_result_sub
    rcases reading with rfl | rfl
    · rw [signed, sub_self]
      exact dvd_zero _
    · rw [unsigned]
      exact dvd_toNat_sub_toInt width word
  have applied : (applyLinear op lhss y state).Represents
      (Function.update values lhss (op.result values (values y))) := by
    rw [<- op.eval_expression y values]
    exact AddBottom.represents_normalize
      (AddBottom.represents_assign lhss (op.expression_wellFormed y) represents)
  have copied := AddBottom.represents_assignVar lhsu lhss applied
  rw [Function.update_self] at copied
  have wrapped := represents_overflow width different copied
  rw [Function.update_self, Function.update_of_ne different, Function.update_self,
    wrapNumber_signed width, wrapNumber_unsigned width, wrappedWord_eq congruent] at wrapped
  rw [<- withWord, withWord_update_unsigned _ _ _ different, withWord_update_signed] at wrapped
  rw [applySigned, if_neg (by omega)]
  exact wrapped

/-- The operations that compute on unbounded integers and wrap the result around. -/
inductive WrappingOp (V : Type) where
  | addOverflow (op2 : Operand V)
  | subOverflow (op2 : Operand V)
  | neg
  | mul (op2 : Int)

namespace WrappingOp

/-- The operation of `ebpf_transformer` on the variables of a register. -/
def run (lhss lhsu : V) (finiteWidth : Nat) (state : AddBottom V) : WrappingOp V -> AddBottom V
  | addOverflow op2 => Ebpf.addOverflow lhss lhsu op2 finiteWidth state
  | subOverflow op2 => Ebpf.subOverflow lhss lhsu op2 finiteWidth state
  | neg => Ebpf.neg lhss lhsu finiteWidth state
  | mul op2 => Ebpf.mul lhss lhsu op2 finiteWidth state

/-- The result over the integers. -/
def exactResult (values : V -> Int) (left : Int) : WrappingOp V -> Int
  | addOverflow op2 => left + op2.value values
  | subOverflow op2 => left - op2.value values
  | neg => -left
  | mul op2 => left * op2

end WrappingOp

/-- A state that represents an assignment with a word in a register represents
after an operation the same assignment with the wrapped result in it, so that no
relation to another variable excludes the result. -/
theorem wrappingOp_sound (op : WrappingOp V) (width : finiteWidth = 32 ∨ finiteWidth = 64) (different : lhss ≠ lhsu)
    (represents : state.Represents values) {word : BitVec 64} (signed : values lhss = word.toInt)
    (unsigned : values lhsu = word.toNat) :
    (op.run lhss lhsu finiteWidth state).Represents
      (withWord values (wrappedWord finiteWidth (op.exactResult values word.toInt)) lhss lhsu) := by
  have reading : knownReading lhss lhsu state = lhss ∨ knownReading lhss lhsu state = lhsu := by
    rw [knownReading]
    split
    · exact Or.inr rfl
    · exact Or.inl rfl
  cases op with
  | addOverflow op2 => exact represents_applySigned (.add op2) width different reading represents signed unsigned
  | subOverflow op2 => exact represents_applySigned (.sub op2) width different reading represents signed unsigned
  | neg =>
      have negated := represents_applySigned (.mul (-1)) width different
        (Or.inl rfl) represents signed unsigned
      rw [LinearOp.result, mul_neg_one] at negated
      exact negated
  | mul op2 => exact represents_applySigned (.mul op2) width different (Or.inl rfl) represents signed unsigned

/-- A word of which little is known, and a variable below it. -/
def boundedBelow : AddBottom Nat :=
  AddBottom.addConstraint (.le (.var 2) (.var 0))
    ((AddBottom.top : AddBottom Nat).set 0 (.range (-1) 5))

/-- The largest word plus one, whose signed reading lies in a range and bounds
another variable. -/
theorem wrappingOp_sound_largest :
    ((WrappingOp.addOverflow (.number 1)).run 0 1 64 boundedBelow).Represents
      (withWord (withWord (fun _ => -7) (-1) 0 1) 0 0 1) := by
  have signed : withWord (fun _ : Nat => -7) (-1) 0 1 0 = (-1 : BitVec 64).toInt := by decide
  have unsigned : withWord (fun _ : Nat => -7) (-1) 0 1 1 = (-1 : BitVec 64).toNat := by decide
  have wrapped : wrappedWord 64 ((WrappingOp.addOverflow (.number 1)).exactResult
      (withWord (fun _ : Nat => -7) (-1) 0 1) (-1 : BitVec 64).toInt) = 0 := by decide
  have represents : boundedBelow.Represents (withWord (fun _ => -7) (-1) 0 1) := by
    have inRange : (-1 : BitVec 64).toInt ∈ Interval.range (-1) 5 := by decide
    have set := AddBottom.represents_set
      (AddBottom.represents_top (withWord (fun _ : Nat => -7) (-1) 0 1))
      (fun _ _ => rfl) (signed ▸ inRange)
    exact AddBottom.represents_addConstraint
      (LinearConstraint.wellFormed_le (LinearExpression.wellFormed_var _))
      (by decide) set (by simp [withWord])
  have sound := wrappingOp_sound (.addOverflow (.number 1)) (Or.inr rfl) (by decide : (0 : Nat) ≠ 1)
    represents signed unsigned
  rwa [wrapped] at sound

end Linear

end Ebpf
end Prevail
