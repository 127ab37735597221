import Prevail.Crab.IntervalUDiv
import Prevail.Crab.IntervalURem
import Prevail.Ebpf.AssumePointers
import Prevail.Ebpf.RightShifts
import Prevail.Asm.Decoding

namespace Prevail
namespace Ebpf

open Crab

/-!
# Arithmetic with a constant operand

`operator()(const Bin&)` of `ebpf_transformer` for an immediate operand, with the helpers
that it calls.  The operand is read as a number with a sign, and is then converted to the
type of a parameter, negated, masked, or read again as the divisor of its width.  A
conversion that does not fit throws.

Every immediate that `unmarshal` produces for an operation other than `MOV` is a number
of 32 bits.  All the conversions accept such a number.  The negation of the least one is
the only value that does not fit.
-/

/-- What throws in an operation with an immediate operand: a conversion of the operand to
a type, an interval operator that the operand is given to, or anything else. -/
inductive BinFailure where
  | immediate (type : IntType) (n : Int)
  | operator
  | elsewhere
  deriving DecidableEq

/-- `gsl::narrow` and `number_t::narrow` of a value computed from the operand. -/
def narrowImmediate (type : IntType) (n : Int) : Except BinFailure Int :=
  if type.Fits n then .ok n else .error (.immediate type n)

/-- `number_t::cast_to` of a value computed from the operand. -/
def castImmediate (type : IntType) (n : Int) : Except BinFailure Int :=
  match type.cast n with
  | some m => .ok m
  | none => .error (.immediate type n)

/-- A result that the source computes without a conversion of the operand. -/
def orElsewhere {A : Type} : Option A -> Except BinFailure A
  | some a => .ok a
  | none => .error .elsewhere

def readImmForUdivOrUmod (imm : Int) (width : Nat) : Except BinFailure Int :=
  if width = 32 then castImmediate .uint32 imm else castImmediate .int32 imm

def readImmForSdivOrSmod (imm : Int) (width : Nat) : Except BinFailure Int :=
  if width = 32 then castImmediate .int32 imm else castImmediate .int64 imm

/-- The operand as `operator()(const Bin&)` reads it. -/
def readImm (is64 : Bool) (v : BitVec 64) : Int := if is64 then v.toInt else (v.setWidth 32).toInt

section Numerical

variable {V : Type} [LinearOrder V]

/-- `SplitDBM::apply` for a division by a number, of a variable that is read as a number
with or without a sign. -/
def applyDivision (read : Int -> Nat -> Except BinFailure Int)
    (operator : Interval -> Interval -> Option Interval)
    (isSigned : Bool) (x y : V) (k : Int) (finiteWidth : Nat) : AddBottom V ->
      Except BinFailure (AddBottom V)
  | none => .ok none
  | some s => do
      let divisor <- read k finiteWidth
      match operator (s.1.getIntervalOfWidth ⟨isSigned, finiteWidth⟩ y) (.ofNumber divisor) with
      | some interval => .ok (AddBottom.set x interval (some s)).normalize
      | none => .error .operator

/-- `apply_signed` for a division by a number. -/
def applySignedDivision (operator : Interval -> Interval -> Option Interval)
    (lhss lhsu : V) (op2 : Int)
    (finiteWidth : Nat) (inv : AddBottom V) : Except BinFailure (AddBottom V) := do
  let divided <- applyDivision readImmForSdivOrSmod operator true lhss lhss op2 finiteWidth inv
  return overflowUnsigned lhsu finiteWidth
    (overflowSigned lhss finiteWidth (divided.assignVar lhsu lhss))

/-- `apply_unsigned` for a division by a number. -/
def applyUnsignedDivision (operator : Interval -> Interval -> Option Interval)
    (lhss lhsu : V) (op2 : Int)
    (finiteWidth : Nat) (inv : AddBottom V) : Except BinFailure (AddBottom V) := do
  let divided <- applyDivision readImmForUdivOrUmod operator false lhsu lhsu op2 finiteWidth inv
  return copyUvalue lhss lhsu finiteWidth divided

def sdiv (lhss lhsu : V) (op2 : Int) (finiteWidth : Nat) (inv : AddBottom V) :
    Except BinFailure (AddBottom V) :=
  applySignedDivision Interval.sDiv lhss lhsu op2 finiteWidth inv

def udiv (lhss lhsu : V) (op2 : Int) (finiteWidth : Nat) (inv : AddBottom V) :
    Except BinFailure (AddBottom V) :=
  applyUnsignedDivision Interval.uDiv lhss lhsu op2 finiteWidth inv

def srem (lhss lhsu : V) (op2 : Int) (finiteWidth : Nat) (inv : AddBottom V) :
    Except BinFailure (AddBottom V) :=
  applySignedDivision (fun interval x => some (interval.sRem x)) lhss lhsu op2 finiteWidth inv

def urem (lhss lhsu : V) (op2 : Int) (finiteWidth : Nat) (inv : AddBottom V) :
    Except BinFailure (AddBottom V) :=
  applyUnsignedDivision Interval.uRem lhss lhsu op2 finiteWidth inv

/-- `bitwise_and`, `bitwise_or` and `bitwise_xor` with a number, by the interval operator. -/
def bitwise (operator : Interval -> Interval -> Interval) (lhss lhsu : V) (op2 : Int) :
    AddBottom V -> Except BinFailure (AddBottom V)
  | none => .ok none
  | some s => do
      let k <- castImmediate .uint64 op2
      return applyUnsigned operator lhss lhsu lhsu k.toNat 64 (some s)

end Numerical

section Ordered

variable [LinearOrder Variable]

attribute [local instance(2000)] LinearOrder.toDecidableEq

def minAllNumSize (stack : BitsetDomain) (offset : Variable) (inv : AddBottom Variable) : Int :=
  let interval := inv.evalInterval (.var offset)
  match interval.lb.number, interval.ub.number with
  | some lb, some ub =>
      if ¬ IntType.int32.Fits lb ∨ ¬ IntType.int32.Fits ub then 0
      else max 0 (stack.allNumWidth (BitVec.ofInt 64 lb).toNat - (ub - lb))
  | _, _ => 0

def recomputeStackNumericSize (stack : BitsetDomain) (reg : Reg) (inv : AddBottom Variable) :
    AddBottom Variable :=
  let r := regPack reg
  if ¬ (inv.evalInterval (.var r.stackNumericSize)).IsTop then inv
  else if TypeEncoding.stack.value ∈ inv.evalInterval (.var r.type) then
    let numericSize := minAllNumSize stack r.stackOffset inv
    if 0 < numericSize then inv.assignConst r.stackNumericSize numericSize else inv
  else inv

/-- `TypeDomain::get_type`, by the interval of the type variable. -/
def getRegType (reg : Reg) (inv : AddBottom Variable) : TypeEncoding :=
  match (inv.evalInterval (.var (regPack reg).type)).singleton with
  | some n => (TypeEncoding.all.find? (fun type => type.value == n)).getD .uninit
  | none => .uninit

/-- `add`, of a register and a number. -/
def addNumber (stack : BitsetDomain) (reg : Reg) (imm : Int) (finiteWidth : Nat)
    (inv : AddBottom Variable) :
    AddBottom Variable :=
  let dst := regPack reg
  let added := addOverflow dst.svalue dst.uvalue (.number imm) finiteWidth inv
  match getTypeOffsetVariable reg (getRegType reg inv) with
  | none => added
  | some offset =>
      let moved := applySigned (.add (.number imm)) offset offset offset 0 added
      let sized :=
        if 0 < imm then
          applySigned (.sub (.number imm)) dst.stackNumericSize dst.stackNumericSize
            dst.stackNumericSize 0 moved
        else if imm < 0 then moved.forget dst.stackNumericSize
        else moved
      recomputeStackNumericSize stack reg sized

/-- `shl` with the operand.  Where it falls back on `shl_overflow`, the masked amount is
cast to a word. -/
def shlImmediate (dst : Reg) (imm : Int) (finiteWidth : Nat) (inv : AddBottom Variable) :
    Except BinFailure (AddBottom Variable) := do
  let amount <- narrowImmediate .int32 imm
  let _ <- castImmediate .uint64 (maskedImm finiteWidth (BitVec.ofInt 32 amount))
  match shl dst (BitVec.ofInt 32 amount) finiteWidth inv with
  | .ok shifted => .ok shifted
  | .error _ => .error .elsewhere

/-- `lshr` with the operand. -/
def lshrImmediate (dst : Reg) (imm : Int) (finiteWidth : Nat) (inv : AddBottom Variable) :
    Except BinFailure (AddBottom Variable) := do
  let amount <- narrowImmediate .int32 imm
  orElsewhere (lshr dst (BitVec.ofInt 32 amount) finiteWidth inv)

/-- `ashr` with the operand, whose interval is that of the right side of a comparison.
With 32 bits and a bounded destination, the masked amount is narrowed. -/
def ashrImmediate (dst : Reg) (imm : Int) (finiteWidth : Nat) (inv : AddBottom Variable) :
    Except BinFailure (AddBottom Variable) := do
  let amount <- narrowImmediate .int32 imm
  let r := regPack dst
  if isNumber dst inv then
    let intervals := getSignedIntervals (AddBottom.domain Variable) inv
      (decide (finiteWidth = 64)) r.svalue r.uvalue
      (.const amount)
    match intervals.right.singleton with
    | some sn => do
        let machine <- castImmediate .int64 sn
        let masked := (BitVec.ofInt 64 machine &&& BitVec.ofNat 64 (finiteWidth - 1)).toNat
        let _ <- narrowImmediate .int32 masked
        let ends <- orElsewhere (ashrEnds finiteWidth masked intervals.left)
        return setSvalue r.svalue r.uvalue (.range ends.1 ends.2) finiteWidth inv
    | none => return havocNumber dst inv
  else return havocNumber dst inv

/-- The branch for `AND`. -/
def andImmediate (dst : Reg) (imm : Int) (inv : AddBottom Variable) :
    Except BinFailure (AddBottom Variable) := do
  let r := regPack dst
  let masked <- bitwise Interval.and r.svalue r.uvalue imm inv
  let positive <- narrowImmediate .int32 imm
  let bounded :=
    if 0 < positive then
      [LinearConstraint.le (.var r.svalue) (.const imm), .le (.var r.uvalue) (.const imm),
        .le (.const 0) (.var r.svalue), .le (.const 0) (.var r.uvalue)].foldl
        (fun inv cst => inv.addConstraint cst) masked
    else masked
  return havocOffsets dst bounded

/-- The branch for `MOV`. -/
def movImmediate (dst : Reg) (imm : Int) (finiteWidth : Nat) (inv : AddBottom Variable) :
    AddBottom Variable :=
  let r := regPack dst
  let assigned := (inv.set r.svalue (.ofNumber imm)).set r.uvalue (.ofNumber imm)
  havocOffsets dst (assignType dst .num (overflowUnsigned r.uvalue finiteWidth assigned))

/-- The cases of the switch, without the early returns for zero. -/
def switchImmediate (stack : BitsetDomain) (op : BinOp) (dst : Reg) (imm : Int) (finiteWidth : Nat)
    (inv : AddBottom Variable) : Except BinFailure (AddBottom Variable) :=
  let r := regPack dst
  match op with
  | .mov => .ok (movImmediate dst imm finiteWidth inv)
  | .movsx8 | .movsx16 | .movsx32 => .error .elsewhere
  | .add => do
      let imm <- narrowImmediate .int32 imm
      return addNumber stack dst imm finiteWidth inv
  | .sub => do
      let imm <- narrowImmediate .int32 (-imm)
      return addNumber stack dst imm finiteWidth inv
  | .mul => .ok (havocOffsets dst (mul r.svalue r.uvalue imm finiteWidth inv))
  | .udiv => havocOffsets dst <$> udiv r.svalue r.uvalue imm finiteWidth inv
  | .umod => havocOffsets dst <$> urem r.svalue r.uvalue imm finiteWidth inv
  | .sdiv => havocOffsets dst <$> sdiv r.svalue r.uvalue imm finiteWidth inv
  | .smod => havocOffsets dst <$> srem r.svalue r.uvalue imm finiteWidth inv
  | .or => havocOffsets dst <$> bitwise Interval.or r.svalue r.uvalue imm inv
  | .and => andImmediate dst imm inv
  | .lsh => shlImmediate dst imm finiteWidth inv
  | .rsh => lshrImmediate dst imm finiteWidth inv
  | .arsh => ashrImmediate dst imm finiteWidth inv
  | .xor => havocOffsets dst <$> bitwise Interval.xor r.svalue r.uvalue imm inv

/-- `operator()(const Bin&)` for an immediate operand. -/
def binImmediate (stack : BitsetDomain) (op : BinOp) (dst : Reg) (v : BitVec 64) (is64 : Bool)
    (inv : AddBottom Variable) : Except BinFailure (AddBottom Variable) :=
  let imm := readImm is64 v
  let before := if is64 then inv else maskDestination dst inv
  if (op = .add ∨ op = .sub) ∧ imm = 0 then .ok before
  else do
    let after <- switchImmediate stack op dst imm (if is64 then 64 else 32) before
    return if is64 then after else bitwiseAndLow dst after

end Ordered

/-! ## Conversions that succeed -/

/-- No conversion of the operand throws, and no interval operator that it is given to. -/
structure Converts {A : Type} (result : Except BinFailure A) : Prop where
  conversion : forall type n, result ≠ .error (.immediate type n)
  operator : result ≠ .error .operator

namespace Converts

variable {A B : Type} {result : Except BinFailure A}

theorem ok (a : A) : Converts (.ok a) where
  conversion _ _ impossible := by cases impossible
  operator impossible := by cases impossible

theorem elsewhere : Converts (.error .elsewhere : Except BinFailure A) where
  conversion _ _ impossible := by cases impossible
  operator impossible := by cases impossible

theorem orElsewhere (a : Option A) : Converts (Ebpf.orElsewhere a) := by
  cases a with
  | none => exact elsewhere
  | some a => exact ok a

theorem bind {f : A -> Except BinFailure B} (converts : Converts result)
    (next : forall a, Converts (f a)) :
    Converts (result >>= f) := by
  cases result with
  | ok a => exact next a
  | error failure =>
      constructor
      · intro type n impossible
        cases impossible
        exact converts.conversion type n rfl
      · intro impossible
        cases impossible
        exact converts.operator rfl

theorem map {f : A -> B} (converts : Converts result) : Converts (f <$> result) := by
  cases result with
  | ok a => exact ok (f a)
  | error failure =>
      constructor
      · intro type n impossible
        cases impossible
        exact converts.conversion type n rfl
      · intro impossible
        cases impossible
        exact converts.operator rfl

theorem bind_ok {a : A} {f : A -> Except BinFailure B} (isOk : result = .ok a)
    (next : Converts (f a)) :
    Converts (result >>= f) := by
  rw [isOk]
  exact next

end Converts

theorem narrowImmediate_of_fits {type : IntType} {n : Int} (fits : type.Fits n) :
    narrowImmediate type n = .ok n :=
  if_pos fits

theorem castImmediate_of_fitsCast {type : IntType} {n : Int} (fits : type.FitsCast n) :
    castImmediate type n = .ok (type.truncate n) := by
  rw [castImmediate, IntType.cast, if_pos fits]

/-! ### Division -/

section Quotients

open Crab.Interval

variable {a : Interval} {k : Int}

/-- The bounds of the interval can be cast to a word. -/
structure ReadsWords (a : Interval) : Prop where
  lower : forall n, a.lb = .ofNumber n -> IntType.uint64.FitsCast n
  upper : forall n, a.ub = .ofNumber n -> IntType.uint64.FitsCast n

theorem ReadsWords.mk' {lb ub : Bound}
    (lower : forall n, lb = .ofNumber n -> IntType.uint64.FitsCast n)
    (upper : forall n, ub = .ofNumber n -> IntType.uint64.FitsCast n) :
    ReadsWords (Interval.mk' lb ub) := by
  rw [Interval.mk']
  split
  · constructor
    · intro n same
      cases same
      decide
    · intro n same
      cases same
      decide
  · exact ⟨lower, upper⟩

theorem not_isBottom_ofNumber : ¬ (Interval.ofNumber k).IsBottom :=
  not_isBottom_of_mem (mem_ofNumber.mpr rfl)

/-- The quotient of any interval by a word with a sign. -/
theorem isSome_sDiv_ofNumber (fits : IntType.int64.FitsCast k) : (a.sDiv (.ofNumber k)).isSome := by
  by_cases empty : a.IsBottom
  · exact sDivOperator.isSome_run_of_isBottom (Or.inl empty)
  · have quotients : forall (c : Int) (m : Bound), c ≠ 0 -> (m.div (.ofNumber c)).isSome := by
      intro c m nonzero
      cases m <;> simp [Bound.div, Bound.absDiv, nonzero]
    have single : (Interval.ofNumber k).singleton = some k := singleton_eq_some.mpr rfl
    have short : exists result, sDivOperator.shortcut a (.ofNumber k) = some result ∧
        result.isSome := by
      simp only [sDivOperator, single, if_pos fits]
      split
      · exact ⟨_, rfl, rfl⟩
      · split
        · rename_i nonzero
          rcases Option.isSome_iff_exists.mp (quotients _ a.lb nonzero) with ⟨first, atFirst⟩
          rcases Option.isSome_iff_exists.mp (quotients _ a.ub nonzero) with ⟨second, atSecond⟩
          refine ⟨_, rfl, ?_⟩
          rw [atFirst, atSecond]
          rfl
        · exact ⟨_, rfl, rfl⟩
    rcases short with ⟨result, short, isSome⟩
    rw [sDiv, sDivOperator.run_of_shortcut empty not_isBottom_ofNumber short]
    exact isSome

theorem isSome_uDiv_ofNumber (reads : ReadsWords a) (fits : IntType.int64.FitsCast k) :
    (a.uDiv (.ofNumber k)).isSome := by
  by_cases empty : a.IsBottom
  · exact uDivOperator.isSome_run_of_isBottom (Or.inl empty)
  · have single : (Interval.ofNumber k).singleton = some k := singleton_eq_some.mpr rfl
    cases short : uDivOperator.shortcut a (.ofNumber k) with
    | none =>
        simp only [uDivOperator, single, if_pos fits] at short
        split at short
        · cases short
        · split at short <;> cases short
    | some result =>
        rw [uDiv, uDivOperator.run_of_shortcut empty not_isBottom_ofNumber short]
        exact isSome_uDiv_shortcut (fun n isLower => (fitsCast_uint64.mp (reads.lower n isLower)).1)
          (fun n isUpper => (fitsCast_uint64.mp (reads.upper n isUpper)).1) short

/-- The remainder of words without zero. -/
theorem isSome_uRem_of_nonzero (reads : ReadsWords a) (fits : IntType.uint64.FitsCast k)
    (nonzero : k ≠ 0) (notIn : 0 ∉ a) : (a.uRem (.ofNumber k)).isSome := by
  by_cases empty : a.IsBottom
  · exact uRemOperator.isSome_run_of_isBottom (Or.inl empty)
  · cases short : uRemOperator.shortcut a (.ofNumber k) with
    | some result =>
        rcases isSome_uRem_shortcut short with ⟨_, _, _, _, _, _, isSome⟩
        rw [uRem, uRemOperator.run_of_shortcut empty not_isBottom_ofNumber short]
        exact isSome
    | none =>
        have notDivisor : 0 ∉ Interval.ofNumber k :=
          fun member => nonzero (mem_ofNumber.mp member).symm
        rw [uRem, uRemOperator.run_of_nonzero empty not_isBottom_ofNumber short notDivisor notIn]
        have divisor : IntType.uint64.cast k = some (IntType.uint64.truncate k) := if_pos fits
        have lower : exists isLower, a.isLowerThan k = some isLower := by
          rw [isLowerThan]
          split
          · rename_i dividend atDividend
            have dividendFits := reads.upper dividend (Bound.number_eq_some.mp atDividend)
            rw [IntType.cast, if_pos dividendFits, divisor]
            exact ⟨_, rfl⟩
          · exact ⟨_, rfl⟩
        rcases lower with ⟨isLower, decided⟩
        simp only [uRemOperator, Interval.ofNumber, Bound.number, decided, divisor]
        cases isLower <;> rfl

theorem isSome_uRem_ofNumber (reads : ReadsWords a) (fits : IntType.uint64.FitsCast k) :
    (a.uRem (.ofNumber k)).isSome := by
  by_cases empty : a.IsBottom
  · exact uRemOperator.isSome_run_of_isBottom (Or.inl empty)
  · cases short : uRemOperator.shortcut a (.ofNumber k) with
    | some result =>
        rcases isSome_uRem_shortcut short with ⟨_, _, _, _, _, _, isSome⟩
        rw [uRem, uRemOperator.run_of_shortcut empty not_isBottom_ofNumber short]
        exact isSome
    | none =>
        by_cases zero : k = 0
        · subst zero
          rw [uRem, uRemOperator.isSome_run_of_divisor empty not_isBottom_ofNumber short
            (mem_ofNumber.mpr rfl)]
          exact ⟨uRemOperator.isSome_run_of_isBottom (Or.inr (by decide)),
            uRemOperator.isSome_run_of_isBottom (Or.inr (by decide))⟩
        · by_cases inDividend : 0 ∈ a
          · have notDivisor : 0 ∉ Interval.ofNumber k :=
              fun member => zero (mem_ofNumber.mp member).symm
            rw [uRem, uRemOperator.isSome_run_of_dividend empty not_isBottom_ofNumber short
              notDivisor inDividend]
            have ones : forall end_ n : Int, Bound.ofNumber end_ = .ofNumber n ->
                IntType.uint64.FitsCast end_ -> IntType.uint64.FitsCast n := by
              intro end_ n same endFits
              cases same
              exact endFits
            have negative : ReadsWords a.negativePart :=
              .mk' reads.lower (fun n same => ones (-1) n same (by decide))
            have positive : ReadsWords a.positivePart :=
              .mk' (fun n same => ones 1 n same (by decide)) reads.upper
            exact ⟨isSome_uRem_of_nonzero negative fits zero (zero_not_mem_negativePart a),
              isSome_uRem_of_nonzero positive fits zero (zero_not_mem_positivePart a)⟩
          · exact isSome_uRem_of_nonzero reads fits zero inDividend

variable {V : Type} [LinearOrder V] {s : SplitDbm V} {x : V}

theorem readsWords_getIntervalOfWidth {finiteWidth : Nat}
    (width : finiteWidth = 32 ∨ finiteWidth = 64) :
    ReadsWords (s.getIntervalOfWidth ⟨false, finiteWidth⟩ x) := by
  have truncated : forall m n : Int, IntType.truncate ⟨false, finiteWidth⟩ m = n ->
      IntType.uint64.FitsCast n := by
    rintro m n rfl
    apply fitsCast_uint64.mpr
    change -2 ^ 63 ≤ m % 2 ^ finiteWidth ∧ m % 2 ^ finiteWidth < 2 ^ 64
    rcases width with rfl | rfl <;> omega
  rw [SplitDbm.getIntervalOfWidth]
  split
  · apply ReadsWords.mk'
    · intro n same
      split at same
      · exact truncated _ n (Bound.ofNumber.inj same)
      · cases same
    · intro n same
      split at same
      · exact truncated _ n (Bound.ofNumber.inj same)
      · cases same
  · constructor
    · intro n same
      cases same
    · intro n same
      cases same

/-- A number of 32 bits is read as a divisor of 32 bits, or as itself. -/
theorem readImmForUdivOrUmod_spec {imm : Int} (fits : IntType.int32.Fits imm) (width : Nat) :
    exists divisor, readImmForUdivOrUmod imm width = .ok divisor ∧ -2 ^ 31 ≤ divisor ∧
      divisor < 2 ^ 32 := by
  rw [readImmForUdivOrUmod]
  split
  · have read := @IntType.truncate_fits .uint32 (by decide) imm
    have least : IntType.uint32.min = 0 := rfl
    have greatest : IntType.uint32.max = 2 ^ 32 - 1 := rfl
    refine ⟨_, castImmediate_of_fitsCast (Or.inr fits), ?_⟩
    rw [IntType.Fits, least, greatest] at read
    omega
  · have read := @IntType.truncate_fits .int32 (by decide) imm
    have least : IntType.int32.min = -2 ^ 31 := rfl
    have greatest : IntType.int32.max = 2 ^ 31 - 1 := rfl
    refine ⟨_, castImmediate_of_fitsCast (Or.inl fits), ?_⟩
    rw [IntType.Fits, least, greatest] at read
    omega

theorem fits_int64_of_int32 {n : Int} (fits : IntType.int32.Fits n) : IntType.int64.Fits n := by
  have least : IntType.int32.min = -2 ^ 31 := rfl
  have greatest : IntType.int32.max = 2 ^ 31 - 1 := rfl
  have wideLeast : IntType.int64.min = -2 ^ 63 := rfl
  have wideGreatest : IntType.int64.max = 2 ^ 63 - 1 := rfl
  rw [IntType.Fits, least, greatest] at fits
  rw [IntType.Fits, wideLeast, wideGreatest]
  omega

theorem readImmForSdivOrSmod_spec {imm : Int} (fits : IntType.int32.Fits imm) (width : Nat) :
    exists divisor, readImmForSdivOrSmod imm width = .ok divisor ∧
      IntType.int64.FitsCast divisor := by
  rw [readImmForSdivOrSmod]
  split
  · have read := @IntType.truncate_fits .int32 (by decide) imm
    exact ⟨_, castImmediate_of_fitsCast (Or.inl fits), Or.inl (fits_int64_of_int32 read)⟩
  · have read := @IntType.truncate_fits .int64 (by decide) imm
    exact ⟨_, castImmediate_of_fitsCast (Or.inl (fits_int64_of_int32 fits)), Or.inl read⟩

theorem converts_applyDivision {read : Int -> Nat -> Except BinFailure Int}
    {operator : Interval -> Interval -> Option Interval} {isSigned : Bool} {x y : V}
    {imm divisor : Int}
    {finiteWidth : Nat} {inv : AddBottom V} (isRead : read imm finiteWidth = .ok divisor)
    (divides : forall s : SplitDbm V,
      (operator (s.getIntervalOfWidth ⟨isSigned, finiteWidth⟩ y) (.ofNumber divisor)).isSome) :
    Converts (applyDivision read operator isSigned x y imm finiteWidth inv) := by
  cases inv with
  | none => exact .ok _
  | some s =>
      refine .bind_ok isRead ?_
      rcases Option.isSome_iff_exists.mp (divides s.1) with ⟨interval, found⟩
      rw [found]
      exact .ok _

end Quotients

section Switch

variable {V : Type} [LinearOrder V] {lhss lhsu : V} {imm : Int} {finiteWidth : Nat}
  {inv : AddBottom V}

theorem converts_sdiv (fits : IntType.int32.Fits imm) :
    Converts (sdiv lhss lhsu imm finiteWidth inv) := by
  rcases readImmForSdivOrSmod_spec fits finiteWidth with ⟨divisor, isRead, word⟩
  exact (converts_applyDivision isRead (fun _ => isSome_sDiv_ofNumber word)).bind (fun _ => .ok _)

theorem converts_srem (fits : IntType.int32.Fits imm) :
    Converts (srem lhss lhsu imm finiteWidth inv) := by
  rcases readImmForSdivOrSmod_spec fits finiteWidth with ⟨divisor, isRead, _⟩
  exact (converts_applyDivision isRead (fun _ => rfl)).bind (fun _ => .ok _)

theorem converts_udiv (width : finiteWidth = 32 ∨ finiteWidth = 64)
    (fits : IntType.int32.Fits imm) :
    Converts (udiv lhss lhsu imm finiteWidth inv) := by
  rcases readImmForUdivOrUmod_spec fits finiteWidth with ⟨divisor, isRead, lower, upper⟩
  have word : IntType.int64.FitsCast divisor := Interval.fitsCast_int64.mpr ⟨by omega, by omega⟩
  exact (converts_applyDivision isRead (fun _ =>
    isSome_uDiv_ofNumber (readsWords_getIntervalOfWidth width) word)).bind (fun _ => .ok _)

theorem converts_urem (width : finiteWidth = 32 ∨ finiteWidth = 64)
    (fits : IntType.int32.Fits imm) :
    Converts (urem lhss lhsu imm finiteWidth inv) := by
  rcases readImmForUdivOrUmod_spec fits finiteWidth with ⟨divisor, isRead, lower, upper⟩
  have word : IntType.uint64.FitsCast divisor := Interval.fitsCast_uint64.mpr ⟨by omega, by omega⟩
  exact (converts_applyDivision isRead (fun _ =>
    isSome_uRem_ofNumber (readsWords_getIntervalOfWidth width) word)).bind (fun _ => .ok _)

theorem converts_bitwise {operator : Interval -> Interval -> Interval}
    (fits : IntType.int32.Fits imm) :
    Converts (bitwise operator lhss lhsu imm inv) := by
  cases inv with
  | none => exact .ok _
  | some s => exact .bind_ok (castImmediate_of_fitsCast (Or.inr (fits_int64_of_int32 fits))) (.ok _)

end Switch

section Operations

variable [LinearOrder Variable] {stack : BitsetDomain} {op : BinOp} {dst : Reg} {imm : Int}
  {finiteWidth : Nat} {inv : AddBottom Variable}

attribute [local instance(2000)] LinearOrder.toDecidableEq

theorem converts_shlImmediate (fits : IntType.int32.Fits imm) :
    Converts (shlImmediate dst imm finiteWidth inv) := by
  have small : IntType.uint64.FitsCast (maskedImm finiteWidth (BitVec.ofInt 32 imm)) := by
    have bound : maskedImm finiteWidth (BitVec.ofInt 32 imm) < 2 ^ 32 := BitVec.isLt _
    apply Interval.fitsCast_uint64.mpr
    omega
  refine .bind_ok (narrowImmediate_of_fits fits) (.bind_ok (castImmediate_of_fitsCast small) ?_)
  split
  · exact .ok _
  · exact .elsewhere

theorem converts_lshrImmediate (fits : IntType.int32.Fits imm) :
    Converts (lshrImmediate dst imm finiteWidth inv) :=
  .bind_ok (narrowImmediate_of_fits fits) (.orElsewhere _)

/-- The right side of a comparison is read as a number of 64 bits. -/
theorem fits_right_of_singleton {is64 : Bool} {leftSvalue leftUvalue : Variable}
    {right : LinearExpression Variable}
    {sn : Int} (single : (getSignedIntervals (AddBottom.domain Variable) inv is64
      leftSvalue leftUvalue
      right).right.singleton = some sn) : IntType.int64.Fits sn := by
  have truncated : exists interval : Interval,
      (getSignedIntervals (AddBottom.domain Variable) inv is64 leftSvalue
      leftUvalue right).right = interval.truncateTo .int64 := by
    unfold getSignedIntervals
    dsimp only
    split
    · exact ⟨_, rfl⟩
    · split <;> exact ⟨_, rfl⟩
  rcases truncated with ⟨interval, same⟩
  rw [same] at single
  have member : sn ∈ interval.truncateTo .int64 := by
    rw [Interval.singleton_eq_some.mp single]
    exact Interval.mem_ofNumber.mpr rfl
  exact Interval.fits_of_mem_truncateTo (by decide) member

theorem converts_ashrImmediate (width : finiteWidth = 32 ∨ finiteWidth = 64)
    (fits : IntType.int32.Fits imm) :
    Converts (ashrImmediate dst imm finiteWidth inv) := by
  refine .bind_ok (narrowImmediate_of_fits fits) ?_
  dsimp only
  split
  · split
    · rename_i sn single
      refine .bind_ok (castImmediate_of_fitsCast (Or.inl (fits_right_of_singleton single))) ?_
      have small : forall machine : BitVec 64,
          IntType.int32.Fits ((machine &&& BitVec.ofNat 64 (finiteWidth - 1)).toNat : Int) := by
        intro machine
        have below : (machine &&& BitVec.ofNat 64 (finiteWidth - 1)).toNat ≤ 63 := by
          rw [BitVec.toNat_and]
          refine Nat.and_le_right.trans ?_
          rcases width with rfl | rfl <;> decide
        have least : IntType.int32.min = -2 ^ 31 := rfl
        have greatest : IntType.int32.max = 2 ^ 31 - 1 := rfl
        rw [IntType.Fits, least, greatest]
        omega
      exact .bind_ok (narrowImmediate_of_fits (small _)) (.bind (.orElsewhere _) (fun _ => .ok _))
    · exact .ok _
  · exact .ok _

theorem converts_andImmediate (fits : IntType.int32.Fits imm) :
    Converts (andImmediate dst imm inv) :=
  (converts_bitwise fits).bind (fun _ => .bind_ok (narrowImmediate_of_fits fits) (.ok _))

/-- Every operation converts every number of 32 bits whose negation fits as well. -/
theorem converts_switchImmediate (width : finiteWidth = 32 ∨ finiteWidth = 64)
    (fits : op = .mov ∨ IntType.int32.Fits imm)
    (negated : op = .sub -> IntType.int32.Fits (-imm)) :
    Converts (switchImmediate stack op dst imm finiteWidth inv) := by
  rcases fits with rfl | fits
  · exact .ok _
  · cases op with
    | mov => exact .ok _
    | add => exact .bind_ok (narrowImmediate_of_fits fits) (.ok _)
    | sub => exact .bind_ok (narrowImmediate_of_fits (negated rfl)) (.ok _)
    | mul => exact .ok _
    | udiv => exact (converts_udiv width fits).map
    | umod => exact (converts_urem width fits).map
    | or => exact (converts_bitwise fits).map
    | and => exact converts_andImmediate fits
    | lsh => exact converts_shlImmediate fits
    | rsh => exact converts_lshrImmediate fits
    | arsh => exact converts_ashrImmediate width fits
    | xor => exact (converts_bitwise fits).map
    | sdiv => exact (converts_sdiv fits).map
    | smod => exact (converts_srem fits).map
    | movsx8 => exact .elsewhere
    | movsx16 => exact .elsewhere
    | movsx32 => exact .elsewhere

end Operations

/-! ## The operands that `unmarshal` makes -/

section Operands

open Unmarshaller

variable {platform : EbpfPlatform} {insts : List EbpfInst} {pc : Nat} {inst : EbpfInst}

/-- An operand of `MOV`, or an immediate of 32 bits with its sign extended. -/
def IsUnmarshalled (op : BinOp) (v : BitVec 64) : Prop := op = .mov ∨ exists imm : BitVec 32,
    v = imm.signExtend 64

theorem makeJmp_ne_bin {ins : Bin} : makeJmp platform inst insts pc ≠ .ok (.bin ins) := by
  intro run
  rcases makeJmp_spec run with
    ⟨_, _, call⟩ | ⟨impossible, _⟩ | ⟨_, impossible, _⟩ | ⟨_, _, _, impossible, _⟩
  · cases call
  · cases impossible
  · cases impossible
  · cases impossible

theorem makeLddw_bin {ins : Bin} (run : makeLddw platform inst insts pc = .ok (.bin ins)) :
    ins.op = .mov := by
  rcases makeLddw_spec run with ⟨_, _, _, _, ⟨_, _, impossible⟩ | ⟨_, same⟩⟩
  · cases impossible
  · cases same
    rfl

theorem decodeAt_immediate {ins : Bin} {slots : Nat} {v : BitVec 64}
    (run : decodeAt platform insts pc inst = .ok (.bin ins, slots)) (operand : ins.v = .imm ⟨v⟩) :
    IsUnmarshalled ins.op v := by
  rcases decodeAt_cases run with ⟨_, _, made⟩ | ⟨_, _, made⟩ | ⟨_, _, made⟩ | ⟨memory, _, made⟩
  · exact Or.inl (makeLddw_bin made)
  · rcases makeAluOp_spec made with ⟨op, value, same, _, _, isOperand⟩ | ⟨_, impossible, _⟩
    · cases same
      dsimp only at operand
      rcases isOperand with ⟨isReg, _⟩ | ⟨isImm, _⟩
      · rw [isReg] at operand
        cases operand
      · rw [isImm] at operand
        cases operand
        exact Or.inr ⟨inst.imm, rfl⟩
    · cases impossible
  · exact absurd made makeJmp_ne_bin
  · cases makeMemOp_spec memory made

/-- Every immediate operand of a decoded program. -/
theorem unmarshal_immediate {prog : InstructionSeq} (decoded : unmarshal platform insts = .ok prog)
    {label : Label}
    {ins : Bin} {v : BitVec 64} (member : (label, .bin ins) ∈ prog) (operand : ins.v = .imm ⟨v⟩) :
    IsUnmarshalled ins.op v := by
  rcases List.append_of_mem member with ⟨before, rest, rfl⟩
  rcases (decodes_of_unmarshal decoded).2.of_suffix (List.suffix_append before _) with
    ⟨_, _, _, _, _, _, round, _⟩
  generalize isBin : Instruction.bin ins = found at round
  cases round with
  | alone run _ => exact decodeAt_immediate (isBin ▸ run) operand
  | wide run _ _ _ => exact decodeAt_immediate (isBin ▸ run) operand
  | merged right _ _ _ _ =>
      cases isBin
      rw [pairMerged] at operand
      split at operand <;> cases operand

theorem setWidth_signExtend (field : BitVec 32) : (field.signExtend 64).setWidth 32 = field := by
  ext index below
  simp only [BitVec.getElem_setWidth, BitVec.getLsbD_signExtend, below, if_true]
  rw [BitVec.getLsbD_eq_getElem below, decide_eq_true (by omega), Bool.true_and]

/-- An extended immediate is read as the number that it was with any width. -/
theorem readImm_signExtend (is64 : Bool) (field : BitVec 32) :
    readImm is64 (field.signExtend 64) = field.toInt := by
  cases is64 with
  | true => exact BitVec.toInt_signExtend_of_le (by decide)
  | false => rw [readImm, if_neg (by decide), setWidth_signExtend]

theorem fits_int32_iff {n : Int} : IntType.int32.Fits n ↔ -2 ^ 31 ≤ n ∧ n < 2 ^ 31 := by
  change -2 ^ 31 ≤ n ∧ n ≤ 2 ^ 31 - 1 ↔ _
  omega

theorem fits_int32_toInt (field : BitVec 32) : IntType.int32.Fits field.toInt :=
  fits_int32_iff.mpr ⟨BitVec.le_toInt field, BitVec.toInt_lt⟩

/-- The least immediate is the only one whose negation does not fit. -/
theorem fits_neg_iff (field : BitVec 32) :
    IntType.int32.Fits (-field.toInt) ↔ field ≠ BitVec.intMin 32 := by
  have lower := BitVec.le_toInt field
  have upper := BitVec.toInt_lt (x := field)
  have least : (BitVec.intMin 32).toInt = -2 ^ 31 := rfl
  rw [fits_int32_iff, ne_eq, <- BitVec.toInt_inj, least]
  omega

end Operands

section Immediates

variable [LinearOrder Variable] {stack : BitsetDomain} {op : BinOp} {dst : Reg} {is64 : Bool}
  {v : BitVec 64} {inv : AddBottom Variable}

theorem converts_binImmediate (isUnmarshalled : IsUnmarshalled op v)
    (notLeast : ¬ (op = .sub ∧ v = (BitVec.intMin 32).signExtend 64)) :
    Converts (binImmediate stack op dst v is64 inv) := by
  rw [binImmediate]
  split
  · exact .ok _
  · have width : (if is64 then 64 else 32) = 32 ∨ (if is64 then 64 else 32) = 64 := by
      cases is64
      · exact Or.inl rfl
      · exact Or.inr rfl
    have fits : op = .mov ∨ IntType.int32.Fits (readImm is64 v) := by
      rcases isUnmarshalled with isMov | ⟨field, rfl⟩
      · exact Or.inl isMov
      · rw [readImm_signExtend]
        exact Or.inr (fits_int32_toInt field)
    have negated : op = .sub -> IntType.int32.Fits (-readImm is64 v) := by
      rintro rfl
      rcases isUnmarshalled with impossible | ⟨field, rfl⟩
      · cases impossible
      · rw [readImm_signExtend, fits_neg_iff]
        rintro rfl
        exact notLeast ⟨rfl, rfl⟩
    exact (converts_switchImmediate width fits negated).bind (fun _ => .ok _)

theorem not_converts_least :
    ¬ Converts (binImmediate stack .sub dst ((BitVec.intMin 32).signExtend 64) is64 inv) := by
  intro converts
  have value : readImm is64 ((BitVec.intMin 32).signExtend 64) = -2 ^ 31 := by
    rw [readImm_signExtend]
    rfl
  have throws : binImmediate stack .sub dst ((BitVec.intMin 32).signExtend 64) is64 inv =
      .error (.immediate .int32 (2 ^ 31)) := by
    rw [binImmediate, value]
    rfl
  exact converts.conversion _ _ throws

/-- Every conversion of an immediate operand succeeds, in every state, unless the least
immediate is subtracted.  This holds for all operations and immediates of 32 bits, and
for every arithmetic instruction of a decoded program. -/
theorem binImmediate_converts_iff (stack : BitsetDomain) (inv : AddBottom Variable) :
    (forall op dst is64 (imm : BitVec 32),
      Converts (binImmediate stack op dst (imm.signExtend 64) is64 inv) ↔
      ¬ (op = .sub ∧ imm = BitVec.intMin 32)) ∧
    forall platform insts prog, Unmarshaller.unmarshal platform insts = .ok prog ->
      forall label ins v, (label, Instruction.bin ins) ∈ prog -> ins.v = .imm ⟨v⟩ ->
        (Converts (binImmediate stack ins.op ins.dst v ins.is64 inv) ↔
          ¬ (ins.op = .sub ∧ v = (BitVec.intMin 32).signExtend 64)) := by
  constructor
  · intro op dst is64 imm
    constructor
    · rintro converts ⟨rfl, rfl⟩
      exact not_converts_least converts
    · intro notLeast
      apply converts_binImmediate (Or.inr ⟨imm, rfl⟩)
      rintro ⟨isSub, same⟩
      have narrowed := congrArg (BitVec.setWidth 32) same
      rw [setWidth_signExtend, setWidth_signExtend] at narrowed
      exact notLeast ⟨isSub, narrowed⟩
  · intro platform insts prog decoded label ins v member operand
    constructor
    · rintro converts ⟨isSub, rfl⟩
      rw [isSub] at converts
      exact not_converts_least converts
    · exact converts_binImmediate (unmarshal_immediate decoded member operand)

end Immediates

attribute [local instance] Variable.variableOrder

/-- `r0 += -2147483648; r0 -= -2147483648; exit`. -/
def leastImmediates : List EbpfInst :=
  [{ opcode := 0x07, imm := BitVec.intMin 32 }, { opcode := 0x17, imm := BitVec.intMin 32 },
    { opcode := instOpExit }]

/-- `leastImmediates`, decoded. -/
def leastSeq : InstructionSeq :=
  [(Unmarshaller.indexLabel 0,
    .bin ⟨.add, ⟨0⟩, .imm ⟨(BitVec.intMin 32).signExtend 64⟩, true, false⟩),
    (Unmarshaller.indexLabel 1,
      .bin ⟨.sub, ⟨0⟩, .imm ⟨(BitVec.intMin 32).signExtend 64⟩, true, false⟩),
    (Unmarshaller.indexLabel 2, .exit ⟨[]⟩)]

/-- In a decoded program the operand of the addition is converted, and that of the
subtraction is not. -/
theorem binImmediate_converts_leastSeq :
    Unmarshaller.unmarshal Unmarshaller.allGroups leastImmediates = .ok leastSeq ∧
      Converts (binImmediate ⟨fun _ => true⟩ .add ⟨0⟩ ((BitVec.intMin 32).signExtend 64) true
      AddBottom.top) ∧ ¬ Converts
      (binImmediate ⟨fun _ => true⟩ .sub ⟨0⟩ ((BitVec.intMin 32).signExtend 64) true
      AddBottom.top) := by
  have decoded : Unmarshaller.unmarshal Unmarshaller.allGroups leastImmediates = .ok leastSeq := rfl
  have exact_ := (binImmediate_converts_iff ⟨fun _ => true⟩ AddBottom.top).2 _ _ _ decoded
  have added := exact_ _ _ _ List.mem_cons_self rfl
  have subtracted := exact_ _ _ _ (List.mem_cons_of_mem _ List.mem_cons_self) rfl
  refine ⟨decoded, added.mpr ?_, fun converts => subtracted.mp converts ⟨rfl, rfl⟩⟩
  rintro ⟨impossible, _⟩
  cases impossible

/-- The subtraction of `-2147483648` throws at every width. -/
theorem not_converts_every_immediate :
    ¬ forall (stack : BitsetDomain) (inv : AddBottom Variable) (op : BinOp)
    (dst : Reg) (is64 : Bool) (imm : BitVec 32),
      Converts (binImmediate stack op dst (imm.signExtend 64) is64 inv) :=
  fun always => not_converts_least
    (always ⟨fun _ => true⟩ AddBottom.top .sub ⟨0⟩ true (BitVec.intMin 32))

end Ebpf
end Prevail
