import Prevail.Crab.IntervalBitwise
import Prevail.Ebpf.AssumeSound64
import Prevail.Ebpf.Shifts

namespace Prevail
namespace Ebpf

open Crab

/-!
# Shifts to the right by a constant

`lshr` and `ashr` of `ebpf_transformer`, as `operator()(const Bin&)` calls them: an
operation on 32 bits masks the destination before and after the shift.

A logical shift takes the bounds of the unsigned variable, an arithmetic shift those
of the signed operand of a comparison.  Behind the mask, the unsigned variable has the
bounds of a word.  With 64 bits it may have a negative lower bound, which is cast to a
word above the upper one.
-/

section Mask

open Crab.Interval

variable {a : Interval} {x : Int}

/-- The low half of a word belongs to the masked interval. -/
theorem mem_and_low (has : a.HasWord x) :
    x.land IntType.uint32.max ∈ a.and (.ofNumber IntType.uint32.max) := by
  have inhabited := not_isBottom_of_mem has.1
  have mask : ¬ (Interval.ofNumber IntType.uint32.max).IsBottom :=
    not_isBottom_of_mem (mem_ofNumber.mpr rfl)
  have single : (Interval.ofNumber IntType.uint32.max).singleton = some IntType.uint32.max :=
    singleton_eq_some.mpr rfl
  rw [Interval.and, if_neg (not_or.mpr ⟨inhabited, mask⟩), single]
  cases left : a.singleton with
  | none =>
      dsimp only
      rw [if_pos rfl]
      exact mem_andLowWord has
  | some left' =>
      have same := eq_of_singleton left has.1
      rw [same]
      exact mem_ofNumber.mpr rfl

theorem land_low_bounds {n : Nat} :
    0 ≤ Int.land n IntType.uint32.max ∧ Int.land n IntType.uint32.max ≤ IntType.uint32.max := by
  change 0 ≤ ((n &&& (2 ^ 32 - 1) : Nat) : Int) ∧ ((n &&& (2 ^ 32 - 1) : Nat) : Int) ≤ 2 ^ 32 - 1
  rw [Nat.and_two_pow_sub_one_eq_mod]
  omega

theorem andLowWord_le (a : Interval) : a.andLowWord ≤ .range 0 IntType.uint32.max := by
  have whole : Interval.full .uint32 ≤ .range 0 IntType.uint32.max := by decide
  rw [andLowWord]
  split
  · rename_i lb ub _ _
    dsimp only
    split
    · rename_i moved
      have lower := @IntType.truncate_fits .uint32 (by decide) lb
      have upper := @IntType.truncate_fits .uint32 (by decide) ub
      exact (range_le_range moved.2.1.le).mpr ⟨lower.1, upper.2⟩
    · exact whole
  · exact whole

/-- The masked interval of words is a range of 32 bits. -/
theorem and_low_eq_range (has : a.HasWord x) :
    exists lo hi, a.and (.ofNumber IntType.uint32.max) = .range lo hi ∧ 0 ≤ lo ∧ lo ≤ hi ∧
      hi ≤ IntType.uint32.max := by
  have inhabited := not_isBottom_of_mem has.1
  have mask : ¬ (Interval.ofNumber IntType.uint32.max).IsBottom :=
    not_isBottom_of_mem (mem_ofNumber.mpr rfl)
  have single : (Interval.ofNumber IntType.uint32.max).singleton = some IntType.uint32.max :=
    singleton_eq_some.mpr rfl
  have inside := mem_and_low has
  rw [Interval.and, if_neg (not_or.mpr ⟨inhabited, mask⟩), single] at inside ⊢
  cases left : a.singleton with
  | none =>
      rw [left] at inside
      dsimp only at inside ⊢
      rw [if_pos rfl] at inside ⊢
      exact Interval.eq_range_of_le (not_isBottom_of_mem inside) (andLowWord_le a)
  | some left' =>
      have same := eq_of_singleton left has.1
      rcases has.exists_nat with ⟨n, isNat, _⟩
      rw [<- same, isNat]
      exact ⟨_, _, (Interval.range_eq (le_refl _)).symm, land_low_bounds.1, le_refl _,
        land_low_bounds.2⟩

end Mask

/-! ## Shifted bounds -/

/-- The shift of a bound of 32 bits: `cast_to_sint`, then `cast_to<uint32_t>`. -/
def lshrEnd32 (imm : Nat) (n : Int) : Option Int :=
  ((IntType.int32.cast n).bind IntType.uint32.cast).map (fun word : Int => word >>> imm)

/-- The shift of a bound of 64 bits. -/
def lshrEnd64 (imm : Nat) (n : Int) :
    Option Int := (IntType.uint64.cast n).map (fun word : Int => word >>> imm)

/-- The bounds that `lshr` assigns.  With 32 bits, the source asserts their order. -/
def lshrEnds (finiteWidth imm : Nat) (interval : Interval) : Option (Int × Int) :=
  match interval.lb.number, interval.ub.number with
  | some lb, some ub =>
      if finiteWidth = 64 then
        (lshrEnd64 imm lb).bind (fun lb => (lshrEnd64 imm ub).map (fun ub => (lb, ub)))
      else (lshrEnd32 imm lb).bind
        (fun lb => (lshrEnd32 imm ub).bind (fun ub => if lb ≤ ub then some (lb, ub) else none))
  | _, _ => some (0, IntType.uint64.max >>> imm)

/-- The bounds that `ashr` assigns for an interval of signed numbers. -/
def ashrEnds (finiteWidth imm : Nat) (left : Interval) : Option (Int × Int) :=
  let wide := (IntType.int64.min >>> imm, IntType.int64.max >>> imm)
  match left.lb.number, left.ub.number with
  | some lb, some ub =>
      if finiteWidth = 64 then
        (IntType.int64.cast lb).bind (fun lb : Int =>
          (IntType.int64.cast ub).map (fun ub : Int => (lb >>> imm, ub >>> imm)))
      else do
        let lbW <- (IntType.int32.cast lb).map (fun lb : Int => lb >>> imm)
        let ubW <- (IntType.int32.cast ub).map (fun ub : Int => ub >>> imm)
        let lbN <- IntType.uint32.cast lbW
        let ubN <- IntType.uint32.cast ubW
        return if lbN ≤ ubN then (lbN, ubN) else wide
  | _, _ => some wide

theorem truncateTo_ofNumber {type : IntType} {n : Int} (fits : type.Fits n) :
    (Interval.ofNumber n).truncateTo type = .ofNumber n := by
  apply Interval.truncateTo_of_le
  have point : Interval.ofNumber n = .range n n := (Interval.range_eq (le_refl n)).symm
  rw [point]
  exact (Interval.range_le_range (le_refl n)).mpr fits

section Ends

variable {word : BitVec 64} {imm : BitVec 32} {finiteWidth amount : Nat} {n : Int}

theorem shiftRight_le {m n : Int} (ordered : m ≤ n) (amount : Nat) :
    m >>> amount ≤ n >>> amount := by
  rw [Int.shiftRight_eq_div_pow, Int.shiftRight_eq_div_pow]
  exact Int.ediv_le_ediv (by positivity) ordered

theorem resultWord_rsh (width : finiteWidth = 32 ∨ finiteWidth = 64) (word : BitVec 64)
    (imm : BitVec 32) :
    BinOp.rsh.resultWord finiteWidth word (imm.signExtend 64) =
      wrappedWord finiteWidth (((word.setWidth finiteWidth).toNat : Int) >>> maskedImm
      finiteWidth imm) := by
  have fits : (word.setWidth finiteWidth).toNat < 2 ^ finiteWidth :=
    (word.setWidth finiteWidth).isLt
  have whole : (2 : Nat) ^ finiteWidth ≤ 2 ^ 64 := Nat.pow_le_pow_right (by decide) (by omega)
  have shifted : (BinOp.rsh.resultWord finiteWidth word (imm.signExtend 64)).toNat =
      ((word.setWidth finiteWidth >>> maskedImm finiteWidth imm).setWidth 64).toNat := by
    rw [<- amount_eq width]
    rfl
  have below : (word.setWidth finiteWidth).toNat >>> maskedImm finiteWidth imm ≤
      (word.setWidth finiteWidth).toNat := by
    rw [Nat.shiftRight_eq_div_pow]
    exact Nat.div_le_self ..
  have wrapped := toNat_wrappedWord width
    (((word.setWidth finiteWidth).toNat : Int) >>> maskedImm finiteWidth imm)
  have number : ((word.setWidth finiteWidth).toNat : Int) >>> maskedImm finiteWidth imm =
      (((word.setWidth finiteWidth).toNat >>> maskedImm finiteWidth imm : Nat) : Int) := rfl
  have kept : (((word.setWidth finiteWidth).toNat >>> maskedImm finiteWidth imm : Nat) : Int) % 2 ^
      finiteWidth =
      ((word.setWidth finiteWidth).toNat >>> maskedImm finiteWidth imm : Nat) :=
    Int.emod_eq_of_lt (Int.natCast_nonneg _) (by exact_mod_cast below.trans_lt fits)
  rw [number, kept] at wrapped
  apply BitVec.eq_of_toNat_eq
  rw [number, shifted, BitVec.toNat_setWidth, BitVec.toNat_ushiftRight, Nat.mod_eq_of_lt (by omega)]
  exact_mod_cast wrapped.symm

/-- The bounds of a word of 32 bits are shifted as they are. -/
theorem lshrEnd32_eq (nonneg : 0 ≤ n) (small : n ≤ IntType.uint32.max) :
    lshrEnd32 amount n = some (n >>> amount) := by
  have signed : IntType.int32.FitsCast n := Or.inr ⟨nonneg, small⟩
  have machine := @IntType.truncate_fits .int32 (by decide) n
  have unsigned : IntType.uint32.FitsCast (IntType.int32.truncate n) := Or.inr machine
  have back : IntType.uint32.truncate (IntType.int32.truncate n) = n := by
    apply IntType.truncate_eq (by decide) ⟨nonneg, small⟩
    have congruent : (2 ^ 32 : Int) ∣ n - IntType.int32.truncate n :=
      IntType.dvd_sub_truncate .int32 n
    have opposite : (2 ^ 32 : Int) ∣ -(n - IntType.int32.truncate n) := dvd_neg.mpr congruent
    rwa [neg_sub] at opposite
  have first : IntType.int32.cast n = some (IntType.int32.truncate n) := if_pos signed
  have second : IntType.uint32.cast (IntType.int32.truncate n) = some
      (IntType.uint32.truncate (IntType.int32.truncate n)) :=
    if_pos unsigned
  rw [lshrEnd32, first, Option.bind_some, second, back, Option.map_some]

/-- A word of 32 bits is shifted between its bounds. -/
theorem lshrEnds_of_word (amount : Nat) {interval : Interval} {l u : Int}
    (known : interval = .range l u) (nonneg : 0 ≤ l)
    (ordered : l ≤ u) (small : u ≤ IntType.uint32.max) :
    lshrEnds 32 amount interval = some (l >>> amount, u >>> amount) := by
  rw [known, Interval.range_eq ordered, lshrEnds]
  dsimp only [Bound.number]
  rw [if_neg (by decide), lshrEnd32_eq nonneg (ordered.trans small),
    lshrEnd32_eq (nonneg.trans ordered) small, Option.bind_some, Option.bind_some,
    if_pos (shiftRight_le ordered amount)]

theorem lshrEnd64_eq (castable : IntType.uint64.FitsCast n) :
    lshrEnd64 amount n = some ((n % 2 ^ 64) >>> amount) := by
  have cast : IntType.uint64.cast n = some (n % 2 ^ 64) := if_pos castable
  rw [lshrEnd64, cast, Option.map_some]

theorem lshrEnd64_none (tooLarge : ¬ IntType.uint64.FitsCast n) : lshrEnd64 amount n = none := by
  have cast : IntType.uint64.cast n = none := if_neg tooLarge
  rw [lshrEnd64, cast, Option.map_none]

theorem shiftRight_bounds (nonneg : 0 ≤ n) (small : n < 2 ^ 64) (amount : Nat) :
    0 ≤ n >>> amount ∧ n >>> amount < 2 ^ 64 := by
  have positive : (0 : Int) < 2 ^ amount := by positivity
  rw [Int.shiftRight_eq_div_pow]
  exact ⟨Int.ediv_nonneg nonneg positive.le, (Int.ediv_le_self _ nonneg).trans_lt small⟩

/-- The shifted bounds of 64 bits are words. -/
theorem lshrEnds_bounds {interval : Interval} {ends : Int × Int}
    (result : lshrEnds 64 amount interval = some ends) :
    0 ≤ ends.1 ∧ ends.2 < 2 ^ 64 := by
  have word : forall {k shifted : Int}, lshrEnd64 amount k = some shifted ->
      0 ≤ shifted ∧ shifted < 2 ^ 64 := by
    intro k shifted isShifted
    by_cases castable : IntType.uint64.FitsCast k
    · rw [lshrEnd64_eq castable, Option.some.injEq] at isShifted
      rw [<- isShifted]
      exact shiftRight_bounds (Int.emod_nonneg _ (by norm_num))
        (Int.emod_lt_of_pos _ (by norm_num)) amount
    · rw [lshrEnd64_none castable] at isShifted
      cases isShifted
  rw [lshrEnds] at result
  split at result
  · rw [if_pos rfl] at result
    rcases Option.bind_eq_some_iff.mp result with ⟨lower, isLower, rest⟩
    rcases Option.map_eq_some_iff.mp rest with ⟨upper, isUpper, rfl⟩
    exact ⟨(word isLower).1, (word isUpper).2⟩
  · cases result
    exact ⟨le_refl _, (shiftRight_bounds (by decide) (by decide) amount).2⟩

/-- Without bounds, the ends enclose every shifted word. -/
theorem lshrEnds_of_unbounded {interval : Interval} (unbounded : interval.finiteSize = none)
    (word : BitVec 64) :
    exists ends, lshrEnds 64 amount interval = some ends ∧
      (word.toNat : Int) >>> amount ∈ Interval.range ends.1 ends.2 := by
  have whole : lshrEnds 64 amount interval = some (0, IntType.uint64.max >>> amount) := by
    rw [Interval.finiteSize] at unbounded
    rw [lshrEnds]
    split
    · rename_i lower upper
      rw [lower, upper] at unbounded
      cases unbounded
    · rfl
  have bound := word.isLt
  have largest : IntType.uint64.max = 2 ^ 64 - 1 := rfl
  have below : (word.toNat : Int) ≤ IntType.uint64.max := by omega
  have wordBounds := shiftRight_bounds (Int.natCast_nonneg word.toNat) (by omega) amount
  exact ⟨_, whole, Interval.mem_range.mpr ⟨wordBounds.1, shiftRight_le below amount⟩⟩

/-- The amount that `ashr` masks. -/
theorem machineImm_eq (width : finiteWidth = 32 ∨ finiteWidth = 64) (imm : BitVec 32) :
    (BitVec.ofInt 64 imm.toInt &&& BitVec.ofNat 64 (finiteWidth - 1)).toNat =
      maskedImm finiteWidth imm := by
  have extended : BitVec.ofInt 64 imm.toInt = imm.signExtend 64 := rfl
  rw [extended, <- amount_eq width, BitVec.toNat_and, BitVec.toNat_setWidth]
  rcases width with rfl | rfl
  · rw [Nat.mod_mod_of_dvd _ (by decide)]
    exact Nat.and_two_pow_sub_one_eq_mod _ 5
  · rw [Nat.mod_mod_of_dvd _ (by decide)]
    exact Nat.and_two_pow_sub_one_eq_mod _ 6

/-- The arithmetically shifted word as a number. -/
theorem resultWord_arsh (width : finiteWidth = 32 ∨ finiteWidth = 64) (word : BitVec 64)
    (imm : BitVec 32) :
    BinOp.arsh.resultWord finiteWidth word (imm.signExtend 64) =
      wrappedWord finiteWidth ((word.setWidth finiteWidth).toInt >>> maskedImm
      finiteWidth imm) := by
  rw [<- amount_eq width]
  rfl

theorem cast_of_fits {type : IntType} (positive : 0 < type.width) (fits : type.Fits n) :
    type.cast n = some n := by
  have castable : type.FitsCast n := Or.inl fits
  rw [IntType.cast, if_pos castable, IntType.truncate_of_fits positive fits]

theorem cast_toInt (imm : BitVec 32) : IntType.int64.cast imm.toInt = some imm.toInt := by
  have lower := BitVec.le_toInt imm
  have upper := @BitVec.toInt_lt 32 imm
  apply cast_of_fits (by decide)
  constructor
  · change -2 ^ 63 ≤ _
    omega
  · change _ ≤ 2 ^ 63 - 1
    omega

/-- A number of 32 bits keeps its range when it is shifted. -/
theorem shiftRight_fits {type : IntType} (signed : type.min ≤ 0) (unsigned : 0 ≤ type.max)
    (fits : type.Fits n) (amount : Nat) : type.Fits (n >>> amount) := by
  have positive : (1 : Int) ≤ 2 ^ amount := one_le_pow₀ (by norm_num)
  rw [Int.shiftRight_eq_div_pow]
  constructor
  · apply (Int.le_ediv_iff_mul_le (by positivity)).mpr
    push_cast
    nlinarith [fits.1]
  · apply Int.ediv_le_of_le_mul (by positivity)
    push_cast
    nlinarith [fits.2]

/-- The ends enclose a number that is shifted, or one that differs from it by a
multiple of the modulus. -/
theorem ashrEnds_covers (width : finiteWidth = 32 ∨ finiteWidth = 64) (small : amount < finiteWidth)
    {lb ub : Int}
    (lower : (⟨true, finiteWidth⟩ : IntType).min ≤ lb)
    (upper : ub ≤ (⟨true, finiteWidth⟩ : IntType).max) (above : lb ≤ n) (below : n ≤ ub) :
    exists ends, ashrEnds finiteWidth amount (.range lb ub) = some ends ∧
      ∃ m ∈ Interval.range ends.1 ends.2, (2 ^ finiteWidth : Int) ∣ m - n >>> amount := by
  have ordered := above.trans below
  have lowerShift := shiftRight_le above amount
  have upperShift := shiftRight_le below amount
  rw [Interval.range_eq ordered, ashrEnds]
  dsimp only [Bound.number]
  rcases width with rfl | rfl
  · rw [if_neg (by decide)]
    have lowerFits : IntType.int32.Fits lb := ⟨lower, ordered.trans upper⟩
    have upperFits : IntType.int32.Fits ub := ⟨lower.trans ordered, upper⟩
    have lowerCast := cast_of_fits (by decide) lowerFits
    have upperCast := cast_of_fits (by decide) upperFits
    have lowerKept := shiftRight_fits (by decide) (by decide) lowerFits amount
    have upperKept := shiftRight_fits (by decide) (by decide) upperFits amount
    have lowerWord : IntType.uint32.cast (lb >>> amount) = some
        (IntType.uint32.truncate (lb >>> amount)) :=
      if_pos (Or.inr lowerKept)
    have upperWord : IntType.uint32.cast (ub >>> amount) = some
        (IntType.uint32.truncate (ub >>> amount)) :=
      if_pos (Or.inr upperKept)
    rw [lowerCast, upperCast]
    simp only [Option.map_some, Option.bind_eq_bind, Option.bind_some, lowerWord, upperWord]
    split
    · rename_i inOrder
      have short : ub >>> amount - lb >>> amount < 2 ^ IntType.uint32.width := by
        have least := lowerKept.1
        have most := upperKept.2
        have leastIs : IntType.int32.min = -2 ^ 31 := rfl
        have mostIs : IntType.int32.max = 2 ^ 31 - 1 := rfl
        change _ < (2 ^ 32 : Int)
        omega
      rcases IntType.truncate_between (by decide) lowerShift upperShift short inOrder with
        ⟨moved, last⟩
      refine ⟨_, rfl, IntType.uint32.truncate (n >>> amount), Interval.mem_range.mpr ⟨?_, ?_⟩, ?_⟩
      · omega
      · dsimp only
        omega
      · have congruent : (2 ^ 32 : Int) ∣
            -(n >>> amount - IntType.uint32.truncate (n >>> amount)) :=
          dvd_neg.mpr (IntType.dvd_sub_truncate .uint32 (n >>> amount))
        rwa [neg_sub] at congruent
    · refine ⟨_, rfl, n >>> amount, Interval.mem_range.mpr ⟨?_, ?_⟩, ?_⟩
      · have least : IntType.int64.min ≤ n := le_trans (by decide) (lower.trans above)
        exact shiftRight_le least amount
      · have most : n ≤ IntType.int64.max := (below.trans upper).trans (by decide)
        exact shiftRight_le most amount
      · rw [sub_self]
        exact dvd_zero _
  · have lowerCast := cast_of_fits (by decide)
      (⟨lower, ordered.trans upper⟩ : IntType.int64.Fits lb)
    have upperCast := cast_of_fits (by decide)
      (⟨lower.trans ordered, upper⟩ : IntType.int64.Fits ub)
    rw [if_pos rfl, lowerCast, upperCast]
    refine ⟨_, rfl, n >>> amount, Interval.mem_range.mpr ⟨lowerShift, upperShift⟩, ?_⟩
    rw [sub_self]
    exact dvd_zero _

end Ends

/-! ## The operations -/

section Ordered

variable [LinearOrder Variable]

attribute [local instance(2000)] LinearOrder.toDecidableEq

/-- `bitwise_and` with the largest word of 32 bits. -/
def bitwiseAndLow (dst : Reg) (inv : AddBottom Variable) : AddBottom Variable :=
  applyUnsigned Interval.and (regPack dst).svalue (regPack dst).uvalue (regPack dst).uvalue
    (2 ^ 32 - 1) 64 inv

/-- What is left of a register whose number is not known. -/
def havocNumber (dst : Reg) (inv : AddBottom Variable) : AddBottom Variable :=
  havocOffsets dst ((inv.forget (regPack dst).svalue).forget (regPack dst).uvalue)

/-- `lshr`.  The result is absent where the source throws. -/
def lshr (dst : Reg) (imm : BitVec 32) (finiteWidth : Nat) (inv : AddBottom Variable) :
    Option (AddBottom Variable) :=
  let r := regPack dst
  if isNumber dst inv then
    (lshrEnds finiteWidth (maskedImm finiteWidth imm) (inv.evalInterval (.var r.uvalue))).map
      (fun ends =>
      setUvalue r.svalue r.uvalue (.range ends.1 ends.2) finiteWidth inv)
  else some (havocNumber dst inv)

def ashr (dst : Reg) (rightSvalue : LinearExpression Variable) (finiteWidth : Nat)
    (inv : AddBottom Variable) :
    Option (AddBottom Variable) :=
  let r := regPack dst
  if isNumber dst inv then
    let intervals := getSignedIntervals (AddBottom.domain Variable) inv
      (decide (finiteWidth = 64)) r.svalue r.uvalue
      rightSvalue
    match intervals.right.singleton with
    | some sn =>
        (IntType.int64.cast sn).bind (fun machine =>
          let imm := (BitVec.ofInt 64 machine &&& BitVec.ofNat 64 (finiteWidth - 1)).toNat
          (ashrEnds finiteWidth imm intervals.left).map (fun ends =>
            setSvalue r.svalue r.uvalue (.range ends.1 ends.2) finiteWidth inv))
    | none => some (havocNumber dst inv)
  else some (havocNumber dst inv)

/-- What `operator()(const Bin&)` does before an operation on 32 bits with a constant. -/
def maskDestination (dst : Reg) (inv : AddBottom Variable) : AddBottom Variable :=
  let masked := bitwiseAndLow dst inv
  if TypeEncoding.num.value ∈ masked.getInterval (regPack dst).type then masked
  else (havocNumber dst masked).forget (regPack dst).type

/-- The branches of `operator()(const Bin&)` for shifts to the right by a constant. -/
def rightShift (op : BinOp) (dst : Reg) (imm : BitVec 32) (is64 : Bool) (inv : AddBottom Variable) :
    Option (AddBottom Variable) :=
  let finiteWidth := if is64 then 64 else 32
  let before := if is64 then inv else maskDestination dst inv
  let shifted := match op with
    | .rsh => lshr dst imm finiteWidth before
    | .arsh => ashr dst (.const imm.toInt) finiteWidth before
    | _ => none
  shifted.map (fun after => if is64 then after else bitwiseAndLow dst after)

/-- Every represented state is represented behind the shift with the shifted word in
the destination. -/
def RightShiftSound (op : BinOp) (dst : Reg) (imm : BitVec 32) (is64 : Bool)
    (inv : AddBottom Variable) : Prop :=
  forall values word, inv.Represents values -> HoldsWord values dst word ->
    exists next, rightShift op dst imm is64 inv = some next ∧
      next.Represents (putWord values dst
        (op.resultWord (if is64 then 64 else 32) word (imm.signExtend 64)))

/-- In a logical shift with 64 bits, the bounds of a word can be cast, and a negative
one, shifted as a word, is not above the shifted word. -/
def RightShiftFaithful (op : BinOp) (dst : Reg) (imm : BitVec 32) (is64 : Bool)
    (inv : AddBottom Variable) : Prop :=
  op = .rsh -> is64 = true ->
    forall lb ub, (inv.evalInterval (.var (regPack dst).uvalue)).lb = .ofNumber lb ->
      (inv.evalInterval (.var (regPack dst).uvalue)).ub = .ofNumber ub ->
        forall values word, inv.Represents values -> HoldsWord values dst word ->
          IntType.uint64.FitsCast lb ∧ IntType.uint64.FitsCast ub ∧
            (lb < 0 -> (lb + 2 ^ 64) / 2 ^ maskedImm 64 imm ≤
              (word.toNat : Int) / 2 ^ maskedImm 64 imm)

/-! ## The mask -/

section Mask

variable {inv : AddBottom Variable} {values : Variable -> Int} {dst : Reg} {word : BitVec 64}

/-- The low half of a word, with zeros above. -/
def lowWord (word : BitVec 64) : BitVec 64 := (word.setWidth 32).setWidth 64

omit [LinearOrder Variable] in
theorem toNat_lowWord (word : BitVec 64) : (lowWord word).toNat = word.toNat % 2 ^ 32 := by
  rw [lowWord, BitVec.toNat_setWidth, BitVec.toNat_setWidth]
  omega

theorem hasWord_normalized (represents : inv.Represents values)
    (holds : HoldsWord values dst word) :
    (inv.normalize.getInterval (regPack dst).uvalue).HasWord word.toNat :=
  ⟨mem_normalized represents holds, Int.natCast_nonneg _, by exact_mod_cast word.isLt⟩

/-- The low half of the register is admitted behind the mask. -/
theorem represents_bitwiseAndLow (represents : inv.Represents values)
    (holds : HoldsWord values dst word) :
    (bitwiseAndLow dst inv).Represents (putWord values dst (lowWord word)) := by
  have masked := @represents_applyBitwise _ _ _ (regPack dst).uvalue _ _ _ _ _ represents
    (mem_and_low (hasWord_normalized represents holds))
  have copied := represents_copyUvalue (Or.inr rfl) (svalue_ne_uvalue dst) masked
    (Function.update_self ..)
  rw [withWord_update_unsigned _ _ _ (svalue_ne_uvalue dst)] at copied
  have low : wrappedWord 64 (Int.land word.toNat IntType.uint32.max) = lowWord word := by
    have wrapped := toNat_wrappedWord (Or.inr rfl) (Int.land word.toNat IntType.uint32.max)
    have masked : Int.land word.toNat IntType.uint32.max = ((word.toNat % 2 ^ 32 : Nat) : Int) := by
      rw [<- Nat.and_two_pow_sub_one_eq_mod]
      rfl
    apply BitVec.eq_of_toNat_eq
    rw [toNat_lowWord]
    omega
  rw [low] at copied
  exact copied

/-- Behind the mask, the unsigned variable has the bounds of a word of 32 bits. -/
theorem within_bitwiseAndLow (represents : inv.Represents values)
    (holds : HoldsWord values dst word) :
    exists lo hi, 0 ≤ lo ∧ lo ≤ hi ∧ hi ≤ IntType.uint32.max ∧
      (bitwiseAndLow dst inv).Within (regPack dst).uvalue (.range lo hi) := by
  rcases and_low_eq_range (hasWord_normalized represents holds) with
    ⟨lo, hi, masked, nonneg, ordered, small⟩
  have largest : IntType.uint32.max = 2 ^ 32 - 1 := rfl
  have within := @within_applyBitwise Variable _ Interval.and (regPack dst).uvalue
    (regPack dst).uvalue (2 ^ 32 - 1) inv
  have mask : ((2 ^ 32 - 1 : Nat) : Int) = IntType.uint32.max := rfl
  rw [mask, masked] at within
  exact ⟨lo, hi, nonneg, ordered, small,
    within_copyUvalue within (svalue_ne_uvalue dst) ordered nonneg (by omega) (by omega)⟩

end Mask

/-! ## Logical shifts -/

section Logical

variable {inv : AddBottom Variable} {values : Variable -> Int} {dst : Reg} {word : BitVec 64}
  {imm : BitVec 32} {finiteWidth : Nat} {lb ub n : Int} {amount : Nat}

/-- Nothing is known of a number that is forgotten. -/
theorem represents_havocNumber (represents : inv.Represents values) (word : BitVec 64) :
    (havocNumber dst inv).Represents (putWord values dst word) :=
  represents_havocOffsets dst
    (AddBottom.represents_forget _ _ (AddBottom.represents_forget _ _ represents))

/-- Between the bounds of a word of 32 bits, a logical shift is sound. -/
theorem represents_lshr32 (imm : BitVec 32) (represents : inv.Represents values)
    (holds : HoldsWord values dst word) {lo hi : Int}
    (nonneg : 0 ≤ lo) (ordered : lo ≤ hi) (small : hi ≤ IntType.uint32.max)
    (within : inv.Within (regPack dst).uvalue (.range lo hi)) :
    exists next, lshr dst imm 32 inv = some next ∧
      next.Represents (putWord values dst (BinOp.rsh.resultWord 32 word (imm.signExtend 64))) := by
  rw [lshr]
  split
  · have member := mem_evalVar represents (regPack dst).uvalue
    rw [holds.2] at member
    have nonempty : inv ≠ none := by
      rcases represents with ⟨s, rfl, _⟩
      exact Option.some_ne_none s
    rcases within.getInterval_eq ordered nonempty with ⟨l, u, known, lower, inOrder, upper⟩
    have read : inv.evalInterval (.var (regPack dst).uvalue) = .range l u := by
      rw [AddBottom.evalInterval_var, known, Interval.range_eq inOrder]
    rw [read, Interval.mem_range] at member
    have shifted := lshrEnds_of_word (maskedImm 32 imm) read (nonneg.trans lower) inOrder
      (upper.trans small)
    have inside : (word.toNat : Int) >>> maskedImm 32 imm ∈ Interval.range (l >>> maskedImm 32 imm)
        (u >>> maskedImm 32 imm) :=
      Interval.mem_range.mpr ⟨shiftRight_le member.1 _, shiftRight_le member.2 _⟩
    have settled := represents_setUvalue (Or.inl rfl) (svalue_ne_uvalue dst) represents inside
    have low : (word.setWidth 32).toNat = word.toNat := by
      have largest : IntType.uint32.max = 2 ^ 32 - 1 := rfl
      rw [BitVec.toNat_setWidth]
      omega
    rw [<- low, <- resultWord_rsh (Or.inl rfl)] at settled
    refine ⟨_, ?_, settled⟩
    rw [shifted, Option.map_some]
  · exact ⟨_, rfl, represents_havocNumber represents _⟩

/-- Whatever the ends are, they decide whether the shifted word is admitted. -/
theorem lshr64_iff (represents : inv.Represents values) (number : isNumber dst inv = true) :
    (exists next, lshr dst imm 64 inv = some next ∧
      next.Represents (putWord values dst (BinOp.rsh.resultWord 64 word (imm.signExtend 64)))) ↔
    exists ends, lshrEnds 64 (maskedImm 64 imm)
    (inv.evalInterval (.var (regPack dst).uvalue)) = some ends ∧
      (word.toNat : Int) >>> maskedImm 64 imm ∈ Interval.range ends.1 ends.2 := by
  have wordNonneg := shiftRight_bounds (Int.natCast_nonneg word.toNat) (by exact_mod_cast word.isLt)
    (maskedImm 64 imm)
  have shifted := resultWord_rsh (Or.inr rfl) word imm
  rw [BitVec.setWidth_eq] at shifted
  have reading : ((BinOp.rsh.resultWord 64 word (imm.signExtend 64)).toNat : Int) =
      (word.toNat : Int) >>> maskedImm 64 imm := by
    rw [shifted, toNat_wrappedWord (Or.inr rfl)]
    exact Int.emod_eq_of_lt wordNonneg.1 wordNonneg.2
  rw [lshr, if_pos number]
  constructor
  · rintro ⟨next, result, after⟩
    rcases Option.map_eq_some_iff.mp result with ⟨ends, isEnds, rfl⟩
    have bounds := lshrEnds_bounds isEnds
    have inside := mem_of_setUvalue (svalue_ne_uvalue dst) bounds.1 bounds.2 after
    rw [putWord_uvalue, reading] at inside
    exact ⟨ends, isEnds, inside wordNonneg.1 wordNonneg.2⟩
  · rintro ⟨ends, isEnds, inside⟩
    have settled := represents_setUvalue (Or.inr rfl) (svalue_ne_uvalue dst) represents inside
    rw [<- shifted] at settled
    refine ⟨_, ?_, settled⟩
    rw [isEnds, Option.map_some]

section Bounds

variable (represents : inv.Represents values) (holds : HoldsWord values dst word)
  (isLower : (inv.evalInterval (.var (regPack dst).uvalue)).lb = .ofNumber lb)
  (isUpper : (inv.evalInterval (.var (regPack dst).uvalue)).ub = .ofNumber ub)

include represents holds isLower isUpper

/-- Between bounds, the ends enclose the shifted word if they can be cast, and if a
negative one does not pass it. -/
theorem lshrEnds_iff : (exists ends,
      lshrEnds 64 amount (inv.evalInterval (.var (regPack dst).uvalue)) = some ends ∧
        (word.toNat : Int) >>> amount ∈ Interval.range ends.1 ends.2) ↔
    IntType.uint64.FitsCast lb ∧ IntType.uint64.FitsCast ub ∧
      (lb < 0 -> (lb + 2 ^ 64) / 2 ^ amount ≤ (word.toNat : Int) / 2 ^ amount) := by
  rcases word_between represents holds isLower isUpper with ⟨above, below⟩
  rw [lshrEnds, isLower, isUpper]
  dsimp only [Bound.number]
  rw [if_pos rfl]
  by_cases lowerCast : IntType.uint64.FitsCast lb
  · by_cases upperCast : IntType.uint64.FitsCast ub
    · rw [lshrEnd64_eq lowerCast, lshrEnd64_eq upperCast, lower_of_word above lowerCast,
        upper_of_word below upperCast, Option.bind_some, Option.map_some, and_iff_right lowerCast,
        and_iff_right upperCast]
      simp only [Option.some.injEq, exists_eq_left', Interval.mem_range]
      rw [and_iff_left (shiftRight_le below _)]
      split
      · rename_i negative
        rw [Int.shiftRight_eq_div_pow, Int.shiftRight_eq_div_pow]
        push_cast
        exact ⟨fun below _ => below, fun all => all negative⟩
      · rename_i nonneg
        exact iff_of_true (shiftRight_le above _) (fun negative => absurd negative nonneg)
    · rw [lshrEnd64_none upperCast]
      refine iff_of_false ?_ (fun both => upperCast both.2.1)
      rintro ⟨_, impossible, _⟩
      rcases Option.bind_eq_some_iff.mp impossible with ⟨_, _, none⟩
      cases none
  · rw [lshrEnd64_none lowerCast]
    refine iff_of_false ?_ (fun both => lowerCast both.1)
    rintro ⟨_, impossible, _⟩
    cases impossible

end Bounds

end Logical

/-! ## Arithmetic shifts -/

section Arithmetic

variable {inv : AddBottom Variable} {values : Variable -> Int} {dst : Reg} {word : BitVec 64}
  {imm : BitVec 32} {finiteWidth : Nat}

/-- Both operands of a comparison with 64 bits are truncated at the end. -/
theorem getSignedIntervals_truncated {dom : NumAbsDomain Variable} {state : dom.State}
    {leftSvalue leftUvalue : Variable} {right : LinearExpression Variable} :
    (getSignedIntervals dom state true leftSvalue leftUvalue right).right =
        (dom.evalInterval state right).truncateTo .int64 ∧
      exists whole : Interval,
      (getSignedIntervals dom state true leftSvalue leftUvalue right).left =
        whole.truncateTo .int64 := by
  rw [getSignedIntervals]
  simp only [signedOperands, if_true]
  split
  · exact ⟨rfl, _, rfl⟩
  · split
    · exact ⟨rfl, _, rfl⟩
    · exact ⟨rfl, _, rfl⟩

theorem evalInterval_const (represents : inv.Represents values) (n : Int) :
    inv.evalInterval (.const n) = .ofNumber n := by
  rcases represents with ⟨s, rfl, _⟩
  rfl

theorem signedOperand (width : finiteWidth = 32 ∨ finiteWidth = 64)
    (represents : inv.Represents values) (holds : HoldsWord values dst word) :
    let intervals := getSignedIntervals (AddBottom.domain Variable) inv (decide (finiteWidth = 64)) (regPack dst).svalue
      (regPack dst).uvalue (.const imm.toInt)
    intervals.right = .ofNumber imm.toInt ∧
      exists lb ub, intervals.left = .range lb ub ∧ (⟨true, finiteWidth⟩ : IntType).min ≤ lb ∧
        ub ≤ (⟨true, finiteWidth⟩ : IntType).max ∧ lb ≤ (word.setWidth finiteWidth).toInt ∧
          (word.setWidth finiteWidth).toInt ≤ ub := by
  have reads : Reads (AddBottom.domain Variable) inv (regPack dst).svalue (regPack dst).uvalue (.const imm.toInt)
      (.const (imm.signExtend 64).toNat) values word (imm.signExtend 64) := by
    refine ⟨represents, holds.1, holds.2, ?_, ?_⟩
    · rw [LinearExpression.eval_const, BitVec.toInt_signExtend_of_le (by decide)]
    · rw [LinearExpression.eval_const]
  have right := evalInterval_const represents imm.toInt
  have amount : -2 ^ 31 ≤ imm.toInt ∧ imm.toInt ≤ 2 ^ 31 - 1 := by
    have lower := BitVec.le_toInt imm
    have upper := @BitVec.toInt_lt 32 imm
    omega
  dsimp only
  rcases width with rfl | rfl
  · have member := mem_lowSigned reads.mem_leftSigned
    have fits : IntType.int32.Fits imm.toInt := amount
    have split := @getSignedIntervals_eq _ _ _ _ _ (regPack dst).uvalue (.const imm.toInt) _ member
    rcases truncateTo_eq_range (by decide) member with ⟨lb, ub, left, lower, _, upper⟩
    rw [left, Interval.mem_range] at member
    have operands : decide ((32 : Nat) = 64) = false := rfl
    rw [operands, split]
    refine ⟨?_, lb, ub, left, lower, upper, member.1, member.2⟩
    exact right.symm ▸ truncateTo_ofNumber fits
  · have member := (getSignedIntervals_covers reads).left_mem
    have fits : IntType.int64.Fits imm.toInt := ⟨by change -2 ^ 63 ≤ _; omega, by change _ ≤ 2 ^ 63 - 1; omega⟩
    have operands : decide ((64 : Nat) = 64) = true := rfl
    rcases @getSignedIntervals_truncated _ (AddBottom.domain Variable) inv (regPack dst).svalue (regPack dst).uvalue
      (.const imm.toInt) with ⟨isRight, whole, isLeft⟩
    rw [isLeft] at member
    rcases truncateTo_eq_range (by decide) member with ⟨lb, ub, left, lower, _, upper⟩
    rw [left, Interval.mem_range] at member
    rw [operands, isRight, isLeft, BitVec.setWidth_eq]
    refine ⟨?_, lb, ub, left, lower, upper, member.1, member.2⟩
    exact right.symm ▸ truncateTo_ofNumber fits

theorem represents_ashr (imm : BitVec 32) (width : finiteWidth = 32 ∨ finiteWidth = 64)
    (represents : inv.Represents values) (holds : HoldsWord values dst word) :
    exists next, ashr dst (.const imm.toInt) finiteWidth inv = some next ∧
      next.Represents (putWord values dst (BinOp.arsh.resultWord finiteWidth word (imm.signExtend 64))) := by
  rw [ashr]
  split
  · rcases @signedOperand _ inv values dst word imm finiteWidth width represents holds with
      ⟨right, lb, ub, left, lower, upper, above, below⟩
    have single : (Interval.ofNumber imm.toInt).singleton = some imm.toInt := Interval.singleton_eq_some.mpr rfl
    have amount := maskedImm_lt width imm
    rcases ashrEnds_covers width amount lower upper above below with
      ⟨ends, shifted, n, inside, congruent⟩
    have settled := represents_setSvalue width (svalue_ne_uvalue dst) represents inside
    rw [wrappedWord_eq congruent, <- resultWord_arsh width] at settled
    dsimp only
    rw [right, single]
    dsimp only
    rw [cast_toInt, Option.bind_some, machineImm_eq width, left, shifted]
    exact ⟨_, rfl, settled⟩
  · exact ⟨_, rfl, represents_havocNumber represents _⟩

end Arithmetic

/-! ## The instruction -/

section Instruction

variable {inv : AddBottom Variable} {values : Variable -> Int} {dst : Reg} {word : BitVec 64}
  {imm : BitVec 32} {op : BinOp} {is64 : Bool}

theorem maskDestination_eq (represents : inv.Represents values) (holds : HoldsWord values dst word)
    (number : isNumber dst inv = true) : maskDestination dst inv = bitwiseAndLow dst inv := by
  have member := AddBottom.mem_getInterval (represents_bitwiseAndLow represents holds)
    (regPack dst).type
  rw [putWord_type, type_of_isNumber number represents] at member
  rw [maskDestination]
  exact if_pos member

omit [LinearOrder Variable] in
/-- The low half of a word decides a shift with 32 bits. -/
theorem resultWord_lowWord (word v : BitVec 64) :
    op.resultWord 32 (lowWord word) v = op.resultWord 32 word v := by
  have low : (lowWord word).setWidth 32 = word.setWidth 32 := by
    apply BitVec.eq_of_toNat_eq
    rw [BitVec.toNat_setWidth, BitVec.toNat_setWidth, toNat_lowWord, Nat.mod_mod]
  rw [BinOp.resultWord, low]
  rfl

omit [LinearOrder Variable] in
theorem lowWord_resultWord (word v : BitVec 64) :
    lowWord (op.resultWord 32 word v) = op.resultWord 32 word v := by
  apply BitVec.eq_of_toNat_eq
  rw [toNat_lowWord, BinOp.resultWord, BitVec.toNat_setWidth]
  have small := (op.result (word.setWidth 32) (v.setWidth 32)).isLt
  omega

theorem rightShiftSound_32 (shift : op = .rsh ∨ op = .arsh) (number : isNumber dst inv = true) :
    RightShiftSound op dst imm false inv := by
  intro values word represents holds
  have masked := represents_bitwiseAndLow represents holds
  have holdsLow : HoldsWord (putWord values dst (lowWord word)) dst (lowWord word) :=
    ⟨putWord_svalue, putWord_uvalue⟩
  rcases within_bitwiseAndLow represents holds with ⟨lo, hi, nonneg, ordered, small, within⟩
  have shifted : exists next,
      (match op with
        | .rsh => lshr dst imm 32 (maskDestination dst inv)
        | .arsh => ashr dst (.const imm.toInt) 32 (maskDestination dst inv)
        | _ => none) = some next ∧
      next.Represents (putWord values dst (op.resultWord 32 word (imm.signExtend 64))) := by
    rw [maskDestination_eq represents holds number]
    rcases shift with rfl | rfl
    · rcases represents_lshr32 imm masked holdsLow nonneg ordered small within with
        ⟨next, result, after⟩
      rw [putWord_putWord, resultWord_lowWord] at after
      exact ⟨next, result, after⟩
    · rcases represents_ashr imm (Or.inl rfl) masked holdsLow with ⟨next, result, after⟩
      rw [putWord_putWord, resultWord_lowWord] at after
      exact ⟨next, result, after⟩
  rcases shifted with ⟨next, result, after⟩
  have final := represents_bitwiseAndLow after ⟨putWord_svalue, putWord_uvalue⟩
  rw [putWord_putWord, lowWord_resultWord] at final
  refine ⟨_, ?_, final⟩
  simp only [rightShift, Bool.false_eq_true, if_false, result, Option.map_some]

theorem rightShift_rsh : rightShift .rsh dst imm true inv = lshr dst imm 64 inv := by
  simp [rightShift]

/-- A shift to the right is sound exactly where it is faithful. -/
theorem rightShift_sound_iff (shift : op = .rsh ∨ op = .arsh) (number : isNumber dst inv = true) :
    RightShiftSound op dst imm is64 inv ↔ RightShiftFaithful op dst imm is64 inv := by
  cases is64 with
  | false => exact iff_of_true (rightShiftSound_32 shift number) (by nofun)
  | true =>
      rcases shift with rfl | rfl
      · constructor
        · intro sound _ _ lb ub isLower isUpper values word represents holds
          rcases sound values word represents holds with ⟨next, result, after⟩
          rw [rightShift_rsh] at result
          exact (lshrEnds_iff represents holds isLower isUpper).mp
            ((lshr64_iff represents number).mp ⟨next, result, after⟩)
        · intro faithful values word represents holds
          rw [rightShift_rsh]
          apply (lshr64_iff represents number).mpr
          cases bounded : (inv.evalInterval (.var (regPack dst).uvalue)).finiteSize with
          | none => exact lshrEnds_of_unbounded bounded word
          | some size =>
              rcases bounds_of_finiteSize bounded with ⟨lb, ub, isLower, isUpper⟩
              exact (lshrEnds_iff represents holds isLower isUpper).mpr
                (faithful rfl rfl lb ub isLower isUpper values word represents holds)
      · refine iff_of_true (fun values word represents holds => ?_) (by nofun)
        rcases represents_ashr imm (Or.inr rfl) represents holds with ⟨next, result, after⟩
        refine ⟨next, ?_, after⟩
        simp [rightShift, result]

end Instruction

end Ordered

section Negative

attribute [local instance] Variable.variableOrder
attribute [local instance(2000)] LinearOrder.toDecidableEq

/-- A register that holds 5 or 6, shifted by one. -/
theorem rightShift_sound_small :
    RightShiftSound .rsh ⟨1⟩ 1 true (numberState (.range 5 6) (.range 5 6)) := by
  apply (rightShift_sound_iff (Or.inl rfl) (by decide)).mpr
  intro _ _ lb ub isLower isUpper values word _ _
  rw [evalInterval_five_six] at isLower isUpper
  cases isLower
  cases isUpper
  exact ⟨by decide, by decide, fun negative => absurd negative (by decide)⟩

/-- A lower bound of -1 is shifted as the largest word. -/
theorem not_rightShiftSound_negative :
    isNumber ⟨1⟩ (numberState (.range (-1) 5) (.range (-1) 5)) = true ∧
      ¬ RightShiftSound .rsh ⟨1⟩ 1 true (numberState (.range (-1) 5) (.range (-1) 5)) := by
  refine ⟨by decide, fun sound => ?_⟩
  have known : (numberState (.range (-1) 5) (.range (-1) 5)).evalInterval
      (.var (regPack ⟨1⟩).uvalue) =
      .range (-1) 5 := by decide
  have represents : (numberState (.range (-1) 5) (.range (-1) 5)).Represents (numberValues 5) :=
    represents_numberState (by decide) (by decide)
  have number : isNumber ⟨1⟩ (numberState (.range (-1) 5) (.range (-1) 5)) = true := by decide
  rcases sound _ 5 represents (holdsWord_numberValues 5) with ⟨next, result, after⟩
  rw [rightShift_rsh] at result
  have shifted := (lshr64_iff represents number).mp ⟨next, result, after⟩
  have inOrder := (lshrEnds_iff represents (holdsWord_numberValues 5) (congrArg Interval.lb known)
    (congrArg Interval.ub known)).mp shifted
  exact absurd (inOrder.2.2 (by decide)) (by decide)

end Negative

end Ebpf
end Prevail
