import Prevail.Asm.Alu
import Prevail.Crab.IntervalOperators
import Prevail.Ebpf.NumberRegisters

namespace Prevail
namespace Ebpf

open Crab

/-!
# Shift to the left by a constant

`shl` and `shl_overflow` of `ebpf_transformer`.  For a number between known bounds,
the bits that are shifted out of the lower and of the upper bound are compared.  If
they are the same, the bounds are shifted; otherwise the result is any multiple of the
power.

The bits are compared by a shift to the right by the rest of the width.  With an
amount of zero and 64 bits, this is a shift by the width of the machine type, which
has no defined result.
-/

section Intervals

open Crab.Interval

theorem shl_range {a b : Int} {k : Nat} (ordered : a ≤ b) (small : k ≤ 128) :
    (range a b).shl (ofNumber k) = range (a * 2 ^ k) (b * 2 ^ k) := by
  have positive : (0 : Int) < 2 ^ k := by positivity
  have scaled : a * 2 ^ k ≤ b * 2 ^ k := Int.mul_le_mul_of_nonneg_right ordered positive.le
  have inhabited : ¬ (range a b).IsBottom := by
    rw [isBottom_range]
    omega
  have amount : ¬ (ofNumber (k : Int)).IsBottom := not_isBottom_of_mem (mem_ofNumber.mpr rfl)
  have factor : ¬ (ofNumber (2 ^ k)).IsBottom := not_isBottom_of_mem (mem_ofNumber.mpr rfl)
  have single : (ofNumber (k : Int)).singleton = some (k : Int) := singleton_eq_some.mpr rfl
  rw [shl, if_neg (not_or.mpr ⟨inhabited, amount⟩), single]
  dsimp only
  rw [if_neg (by omega), if_pos (by omega), shiftFactor_eq, Int.toNat_natCast, Interval.mul,
    if_neg (not_or.mpr ⟨inhabited, factor⟩),
    range_eq ordered]
  have product : mk' (.ofNumber (a * 2 ^ k)) (.ofNumber (b * 2 ^ k)) = range (a * 2 ^ k)
      (b * 2 ^ k) := rfl
  simpa [ofNumber, between, Bound.mul, scaled] using product

theorem bounds_of_finiteSize {interval : Interval} {size : Int}
    (finite : interval.finiteSize = some size) :
    exists lb ub, interval.lb = .ofNumber lb ∧ interval.ub = .ofNumber ub := by
  rw [finiteSize] at finite
  split at finite
  · rename_i lb ub lower upper
    exact ⟨lb, ub, Bound.number_eq_some.mp lower, Bound.number_eq_some.mp upper⟩
  · cases finite

/-- The shift of an interval with an infinite end. -/
theorem unbounded_shl {interval : Interval} {n : Int} (member : n ∈ interval)
    (infinite : interval.lb.number = none ∨ interval.ub.number = none) (k : Nat) :
    Unbounded (interval.shl (.ofNumber k)) := by
  have one : (1 : Int) ≤ 2 ^ k := one_le_pow₀ (by norm_num)
  have shifted : ∀ x ∈ interval, x * 2 ^ k ∈ interval.shl (.ofNumber k) := by
    intro x inside
    have product := mem_shl inside (mem_ofNumber.mpr (rfl : (k : Int) = k))
    rwa [Int.toNat_natCast] at product
  rcases interval with ⟨lb, ub⟩
  rcases member with ⟨above, below⟩
  intro l u
  rcases infinite with isInfinite | isInfinite
  · cases lb with
    | minusInfinity =>
        have small : Bound.ofNumber (min n (min 0 l - 1)) ≤ .ofNumber n :=
          Bound.ofNumber_le_ofNumber.mpr (min_le_left ..)
        refine ⟨_, shifted (min n (min 0 l - 1)) ⟨trivial, small.trans below⟩, Or.inl ?_⟩
        have negative : min n (min 0 l - 1) ≤ 0 := by omega
        have further := mul_le_mul_of_nonpos_left one negative
        omega
    | ofNumber m => cases isInfinite
    | plusInfinity => exact absurd above id
  · cases ub with
    | minusInfinity => exact absurd below id
    | ofNumber m => cases isInfinite
    | plusInfinity =>
        have large : Bound.ofNumber n ≤ .ofNumber (max n (max 0 u + 1)) :=
          Bound.ofNumber_le_ofNumber.mpr (le_max_left ..)
        refine ⟨_, shifted (max n (max 0 u + 1)) ⟨above.trans large, trivial⟩, Or.inr ?_⟩
        have positive : 0 ≤ max n (max 0 u + 1) := by omega
        have further := Int.mul_le_mul_of_nonneg_left one positive
        omega

end Intervals

section Bitwise

variable {V : Type} [LinearOrder V]

/-- `SplitDBM::apply` for a bitwise operation with a number.  The number is cast to a
word, which it is wherever a number is given. -/
def applyBitwise (op : Interval -> Interval -> Interval) (x y : V) (k : Nat) (inv : AddBottom V) :
    AddBottom V :=
  (inv.normalize.set x (op (inv.normalize.getInterval y) (.ofNumber k))).normalize

/-- `apply_unsigned` for a bitwise operation with a number. -/
def applyUnsigned (op : Interval -> Interval -> Interval) (xs xu y : V) (k finiteWidth : Nat)
    (inv : AddBottom V) :
    AddBottom V :=
  if finiteWidth = 0 then applyBitwise op xu y k inv
    else copyUvalue xs xu finiteWidth (applyBitwise op xu y k inv)

variable {op : Interval -> Interval -> Interval} {x y : V} {k : Nat} {inv : AddBottom V}
  {values : V -> Int} {n : Int}

theorem represents_applyBitwise (represents : inv.Represents values)
    (member : n ∈ op (inv.normalize.getInterval y) (.ofNumber k)) :
    (applyBitwise op x y k inv).Represents (Function.update values x n) :=
  AddBottom.represents_normalize
    (AddBottom.represents_set_update x (AddBottom.represents_normalize represents) member)

theorem within_applyBitwise :
    (applyBitwise op x y k inv).Within x (op (inv.normalize.getInterval y) (.ofNumber k)) :=
  (AddBottom.within_set x).normalize

end Bitwise

/-! ## The operation -/

/-- Why an operation has no result. -/
inductive ShiftFailure where
  | cannotCast
  | undefinedShift
  deriving DecidableEq

/-- `cast_to<uint64_t>`. -/
def castUint64 (n : Int) : Except ShiftFailure (BitVec 64) :=
  match IntType.uint64.cast n with
  | some machine => .ok (BitVec.ofInt 64 machine)
  | none => .error .cannotCast

/-- `imm &= finite_width - 1`. -/
def maskedImm (finiteWidth : Nat) (imm : BitVec 32) :
    Nat := (imm &&& BitVec.ofNat 32 (finiteWidth - 1)).toNat

/-- The bounds behind the shift.  A shift to the right by 64 or more has no defined
result. -/
def shiftEnds (finiteWidth imm : Nat) (lb ub : BitVec 64) :
    Except ShiftFailure (BitVec 64 × BitVec 64) :=
  let uintMax := BitVec.ofNat 64 (2 ^ finiteWidth - 1)
  if 64 ≤ finiteWidth - imm then .error .undefinedShift
  else if lb >>> (finiteWidth - imm) ≠ ub >>> (finiteWidth - imm)
    then .ok (0, uintMax <<< imm &&& uintMax)
  else .ok (lb <<< imm &&& uintMax, ub <<< imm &&& uintMax)

/-- The bounds behind the shift of an interval with given bounds. -/
def shlEnds (finiteWidth imm : Nat) (lb ub : Int) : Except ShiftFailure (BitVec 64 × BitVec 64) :=
  match castUint64 lb, castUint64 ub with
  | .ok lb, .ok ub => shiftEnds finiteWidth imm lb ub
  | .error failure, _ => .error failure
  | _, .error failure => .error failure

/-- The bits of a number that a shift keeps are between those of two others, if all
three agree in the bits that it drops. -/
def BitsBetween (bits : Nat) (lb ub n : Int) : Prop :=
  lb / 2 ^ bits = ub / 2 ^ bits -> lb % 2 ^ bits ≤ n % 2 ^ bits ∧ n % 2 ^ bits ≤ ub % 2 ^ bits

/-- The word that the shift of a machine leaves. -/
def shiftedLeft (finiteWidth : Nat) (imm : BitVec 32) (word : BitVec 64) : BitVec 64 :=
  BinOp.lsh.resultWord finiteWidth word (imm.signExtend 64)

/-! ## Shifted bounds -/

section Ends

variable {finiteWidth amount : Nat} {lb ub n : BitVec 64}

theorem maskedImm_eq (width : finiteWidth = 32 ∨ finiteWidth = 64) (imm : BitVec 32) :
    maskedImm finiteWidth imm = imm.toNat % finiteWidth := by
  rcases width with rfl | rfl
  · exact Nat.and_two_pow_sub_one_eq_mod imm.toNat 5
  · exact Nat.and_two_pow_sub_one_eq_mod imm.toNat 6

theorem maskedImm_lt (width : finiteWidth = 32 ∨ finiteWidth = 64) (imm : BitVec 32) :
    maskedImm finiteWidth imm < finiteWidth := by
  rw [maskedImm_eq width]
  exact Nat.mod_lt _ (by omega)

theorem castUint64_eq_ok {k : Int} (castable : IntType.uint64.FitsCast k) :
    exists word, castUint64 k = .ok word ∧ (word.toNat : Int) = k % 2 ^ 64 := by
  have cast : IntType.uint64.cast k = some (k % 2 ^ 64) := if_pos castable
  refine ⟨BitVec.ofInt 64 (k % 2 ^ 64), ?_, ?_⟩
  · rw [castUint64, cast]
  · rw [BitVec.toNat_ofInt]
    push_cast
    rw [Int.emod_emod_of_dvd _ (dvd_refl _), Int.toNat_of_nonneg (Int.emod_nonneg _ (by norm_num))]

theorem castUint64_error {k : Int} (tooLarge : ¬ IntType.uint64.FitsCast k) :
    castUint64 k = .error .cannotCast := by
  have cast : IntType.uint64.cast k = none := if_neg tooLarge
  rw [castUint64, cast]

theorem toNat_uintMax (width : finiteWidth ≤ 64) :
    (BitVec.ofNat 64 (2 ^ finiteWidth - 1)).toNat = 2 ^ finiteWidth - 1 := by
  have modulus : (2 : Nat) ^ finiteWidth ≤ 2 ^ 64 := Nat.pow_le_pow_right (by decide) width
  have positive := Nat.two_pow_pos finiteWidth
  rw [BitVec.toNat_ofNat, Nat.mod_eq_of_lt (by omega)]

theorem two_pow_split (small : amount ≤ finiteWidth) :
    2 ^ finiteWidth = 2 ^ (finiteWidth - amount) * 2 ^ amount := by
  rw [<- pow_add, Nat.sub_add_cancel small]

/-- A shift that keeps the low bits of the width. -/
theorem toNat_shiftLeft_and (width : finiteWidth ≤ 64) (small : amount ≤ finiteWidth)
    (word : BitVec 64) :
    (word <<< amount &&& BitVec.ofNat 64 (2 ^ finiteWidth - 1)).toNat =
      word.toNat % 2 ^ (finiteWidth - amount) * 2 ^ amount := by
  rw [BitVec.toNat_and, BitVec.toNat_shiftLeft, toNat_uintMax width, Nat.and_two_pow_sub_one_eq_mod,
    Nat.mod_mod_of_dvd _ (pow_dvd_pow 2 width), Nat.shiftLeft_eq, two_pow_split small,
    Nat.mul_mod_mul_right]

/-- The largest word of the width is all ones in the bits that are kept. -/
theorem uintMax_mod (amount : Nat) :
    (2 ^ finiteWidth - 1) % 2 ^ (finiteWidth - amount) = 2 ^ (finiteWidth - amount) - 1 := by
  have positive := Nat.two_pow_pos (finiteWidth - amount)
  have whole : 2 ^ (finiteWidth - amount) ∣ 2 ^ finiteWidth := pow_dvd_pow 2 (Nat.sub_le ..)
  rcases whole with ⟨count, isCount⟩
  cases count with
  | zero =>
      rw [mul_zero] at isCount
      exact absurd isCount (Nat.two_pow_pos finiteWidth).ne'
  | succ count =>
      rw [isCount, mul_add, mul_one, Nat.add_sub_assoc positive, Nat.mul_add_mod]
      exact Nat.mod_eq_of_lt (Nat.sub_lt positive one_pos)

theorem amount_eq (width : finiteWidth = 32 ∨ finiteWidth = 64) (imm : BitVec 32) :
    ((imm.signExtend 64).setWidth finiteWidth).toNat % finiteWidth = maskedImm finiteWidth imm := by
  rw [maskedImm_eq width, BitVec.toNat_setWidth, BitVec.toNat_signExtend, BitVec.toNat_setWidth]
  rcases width with rfl | rfl
  · split <;> omega
  · split <;> omega

/-- The shifted word has the bits that are kept. -/
theorem shiftedLeft_eq (width : finiteWidth = 32 ∨ finiteWidth = 64) (imm : BitVec 32)
    (word : BitVec 64) :
    (shiftedLeft finiteWidth imm word).toNat =
      word.toNat % 2 ^ (finiteWidth - maskedImm finiteWidth imm) *
      2 ^ maskedImm finiteWidth imm := by
  have whole : (2 : Nat) ^ finiteWidth ≤ 2 ^ 64 := Nat.pow_le_pow_right (by decide) (by omega)
  have shifted : (shiftedLeft finiteWidth imm word).toNat =
      ((word.setWidth finiteWidth <<< maskedImm finiteWidth imm).setWidth 64).toNat := by
    rw [<- amount_eq width]
    rfl
  have small := (word.setWidth finiteWidth <<< maskedImm finiteWidth imm).isLt
  rw [shifted, BitVec.toNat_setWidth, Nat.mod_eq_of_lt (by omega), BitVec.toNat_shiftLeft,
    BitVec.toNat_setWidth, Nat.shiftLeft_eq, Nat.mod_mul_mod,
    two_pow_split (maskedImm_lt width imm).le, Nat.mul_mod_mul_right]

/-- The bits that are kept of a number between two others. -/
theorem bitsBetween_of_between {bits : Nat} {lb ub n : Int} (above : lb ≤ n) (below : n ≤ ub) :
    BitsBetween bits lb ub n := by
  intro same
  have positive : (0 : Int) < 2 ^ bits := by positivity
  have first : lb / 2 ^ bits ≤ n / 2 ^ bits := Int.ediv_le_ediv positive above
  have last : n / 2 ^ bits ≤ ub / 2 ^ bits := Int.ediv_le_ediv positive below
  have quotient : n / 2 ^ bits = lb / 2 ^ bits := by omega
  have atLower := Int.emod_add_mul_ediv lb (2 ^ bits)
  have atUpper := Int.emod_add_mul_ediv ub (2 ^ bits)
  have here := Int.emod_add_mul_ediv n (2 ^ bits)
  rw [quotient] at here
  rw [<- same] at atUpper
  omega

theorem ushiftRight_eq_iff {bits : Nat} :
    lb >>> bits = ub >>> bits ↔ (lb.toNat : Int) / 2 ^ bits = (ub.toNat : Int) / 2 ^ bits := by
  rw [<- BitVec.toNat_inj, BitVec.toNat_ushiftRight, BitVec.toNat_ushiftRight,
    Nat.shiftRight_eq_div_pow, Nat.shiftRight_eq_div_pow, <- Int.ofNat_inj]
  push_cast
  rfl

/-- The bounds behind the shift enclose the shifted number. -/
theorem exists_shiftEnds (width : finiteWidth ≤ 64) (small : amount ≤ finiteWidth)
    (defined : finiteWidth - amount < 64)
    (between : BitsBetween (finiteWidth - amount) lb.toNat ub.toNat n.toNat) :
    exists ends, shiftEnds finiteWidth amount lb ub = .ok ends ∧
      ((n.toNat % 2 ^ (finiteWidth - amount) * 2 ^ amount : Nat) : Int) ∈
      Interval.range ends.1.toNat ends.2.toNat := by
  rw [shiftEnds, if_neg (not_le.mpr defined)]
  split
  · refine ⟨_, rfl, Interval.mem_range.mpr ⟨by positivity, ?_⟩⟩
    dsimp only
    rw [toNat_shiftLeft_and width small, toNat_uintMax width, uintMax_mod]
    apply Int.ofNat_le.mpr
    exact Nat.mul_le_mul_right _ (Nat.le_sub_one_of_lt (Nat.mod_lt _ (Nat.two_pow_pos _)))
  · rename_i same
    have bits := between (ushiftRight_eq_iff.mp (not_ne_iff.mp same))
    refine ⟨_, rfl, Interval.mem_range.mpr ?_⟩
    dsimp only
    rw [toNat_shiftLeft_and width small, toNat_shiftLeft_and width small]
    have lower : lb.toNat % 2 ^ (finiteWidth - amount) ≤ n.toNat % 2 ^ (finiteWidth - amount) := by
      exact_mod_cast bits.1
    have upper : n.toNat % 2 ^ (finiteWidth - amount) ≤ ub.toNat % 2 ^ (finiteWidth - amount) := by
      exact_mod_cast bits.2
    exact ⟨Int.ofNat_le.mpr (Nat.mul_le_mul_right _ lower),
      Int.ofNat_le.mpr (Nat.mul_le_mul_right _ upper)⟩

/-- Words wrap around to themselves. -/
theorem wrappedWord_toNat {word : BitVec 64} (width : finiteWidth = 32 ∨ finiteWidth = 64)
    (small : word.toNat < 2 ^ finiteWidth) :
    wrappedWord finiteWidth word.toNat = word := by
  apply BitVec.eq_of_toNat_eq
  have wrapped := toNat_wrappedWord width word.toNat
  have kept : (word.toNat : Int) % 2 ^ finiteWidth = word.toNat :=
    Int.emod_eq_of_lt (Int.natCast_nonneg _) (by exact_mod_cast small)
  omega

theorem shiftedLeft_lt (width : finiteWidth = 32 ∨ finiteWidth = 64) (imm : BitVec 32)
    (word : BitVec 64) :
    (shiftedLeft finiteWidth imm word).toNat < 2 ^ finiteWidth := by
  rw [shiftedLeft_eq width, two_pow_split (maskedImm_lt width imm).le]
  exact Nat.mul_lt_mul_of_pos_right (Nat.mod_lt _ (Nat.two_pow_pos _)) (Nat.two_pow_pos _)

/-- A shifted word of 32 bits has no sign. -/
theorem toInt_shiftedLeft {imm : BitVec 32} {word : BitVec 64} :
    (shiftedLeft 32 imm word).toInt = (shiftedLeft 32 imm word).toNat := by
  have small := shiftedLeft_lt (Or.inl rfl) imm word
  have cases := Word.toInt_cases (shiftedLeft 32 imm word)
  omega

theorem shlEnds_of_castable {lb ub : Int} (lowerCast : IntType.uint64.FitsCast lb)
    (upperCast : IntType.uint64.FitsCast ub) :
    exists lower upper : BitVec 64, (lower.toNat : Int) = lb % 2 ^ 64 ∧
      (upper.toNat : Int) = ub % 2 ^ 64 ∧
      shlEnds finiteWidth amount lb ub = shiftEnds finiteWidth amount lower upper := by
  rcases castUint64_eq_ok lowerCast with ⟨lower, atLower, isLower⟩
  rcases castUint64_eq_ok upperCast with ⟨upper, atUpper, isUpper⟩
  refine ⟨lower, upper, isLower, isUpper, ?_⟩
  rw [shlEnds, atLower, atUpper]

theorem shlEnds_of_not_castable {lb ub : Int}
    (tooLarge : ¬ (IntType.uint64.FitsCast lb ∧ IntType.uint64.FitsCast ub)) :
    shlEnds finiteWidth amount lb ub = .error .cannotCast := by
  rw [shlEnds]
  by_cases lowerCast : IntType.uint64.FitsCast lb
  · rcases castUint64_eq_ok lowerCast with ⟨lower, atLower, _⟩
    rw [atLower, castUint64_error (fun upperCast => tooLarge ⟨lowerCast, upperCast⟩)]
  · rw [castUint64_error lowerCast]

/-- Between bounds that can be cast, a shift without result is one of zero bits. -/
theorem shlEnds_undefined_iff {lb ub : Int} (width : finiteWidth = 32 ∨ finiteWidth = 64) :
    shlEnds finiteWidth amount lb ub = .error .undefinedShift ↔
      (IntType.uint64.FitsCast lb ∧ IntType.uint64.FitsCast ub) ∧ finiteWidth = 64 ∧
      amount = 0 := by
  by_cases castable : IntType.uint64.FitsCast lb ∧ IntType.uint64.FitsCast ub
  · rcases shlEnds_of_castable castable.1 castable.2 with ⟨lower, upper, _, _, result⟩
    rw [result, shiftEnds]
    split
    · exact iff_of_true rfl ⟨castable, by omega⟩
    · rename_i defined
      refine iff_of_false (fun impossible => ?_) (fun zero => defined (by omega))
      split at impossible <;> cases impossible
  · rw [shlEnds_of_not_castable castable]
    exact iff_of_false (fun impossible => nomatch impossible) (fun both => castable both.1)

/-- The signs of two bounds around a word. -/
theorem upper_of_word {k : BitVec 64} {ub : Int} (below : (k.toNat : Int) ≤ ub)
    (castable : IntType.uint64.FitsCast ub) :
    ub % 2 ^ 64 = ub := by
  have largest : IntType.uint64.max = 2 ^ 64 - 1 := rfl
  have signedLargest : IntType.uint64.swapSignedness.max = 2 ^ 63 - 1 := rfl
  apply Int.emod_eq_of_lt (by omega)
  rcases castable with fits | fits
  · have upper := fits.2
    omega
  · have upper := fits.2
    omega

theorem lower_of_word {k : BitVec 64} {lb : Int} (above : lb ≤ (k.toNat : Int))
    (castable : IntType.uint64.FitsCast lb) :
    lb % 2 ^ 64 = if lb < 0 then lb + 2 ^ 64 else lb := by
  have bound := k.isLt
  have smallest : IntType.uint64.swapSignedness.min = -2 ^ 63 := rfl
  have lower : -2 ^ 63 ≤ lb := by
    rcases castable with fits | fits
    · have nonneg : 0 ≤ lb := fits.1
      omega
    · have lower := fits.1
      omega
  split
  · rw [<- Int.add_emod_right]
    exact Int.emod_eq_of_lt (by omega) (by omega)
  · exact Int.emod_eq_of_lt (by omega) (by omega)

end Ends

section Ordered

variable [LinearOrder Variable]

attribute [local instance(2000)] LinearOrder.toDecidableEq

/-- `shl_overflow` with a number. -/
def shlOverflow (lhss lhsu : Variable) (op2 : Nat) (inv : AddBottom Variable) :
    AddBottom Variable :=
  applyUnsigned Interval.shl lhss lhsu lhsu op2 64 inv

/-- `shl` with a number. -/
def shl (dst : Reg) (imm : BitVec 32) (finiteWidth : Nat) (inv : AddBottom Variable) :
    Except ShiftFailure (AddBottom Variable) :=
  let r := regPack dst
  let imm := maskedImm finiteWidth imm
  let interval := inv.evalInterval (.var r.uvalue)
  match isNumber dst inv, interval.lb.number, interval.ub.number with
  | true, some lb, some ub =>
      (shlEnds finiteWidth imm lb ub).map (fun ends =>
        setUvalue r.svalue r.uvalue (.range ends.1.toNat ends.2.toNat) finiteWidth inv)
  | _, _, _ => .ok (havocOffsets dst (shlOverflow r.svalue r.uvalue imm inv))

/-- The shift is defined, and every represented state is represented behind it with
the shifted word. -/
def ShlSound (dst : Reg) (imm : BitVec 32) (finiteWidth : Nat) (inv : AddBottom Variable) : Prop :=
  shl dst imm finiteWidth inv ≠ .error .undefinedShift ∧
    forall values word, inv.Represents values -> HoldsWord values dst word ->
      exists next, shl dst imm finiteWidth inv = .ok next ∧
        next.Represents (putWord values dst (shiftedLeft finiteWidth imm word))

/-- When the shift is sound. -/
structure ShlFaithful (dst : Reg) (imm : BitVec 32) (finiteWidth : Nat)
    (inv : AddBottom Variable) : Prop where
  /-- Between bounds that are words, an amount of zero has 32 bits. -/
  defined : forall lb ub, (inv.evalInterval (.var (regPack dst).uvalue)).lb = .ofNumber lb ->
    (inv.evalInterval (.var (regPack dst).uvalue)).ub = .ofNumber ub ->
    IntType.uint64.FitsCast lb ->
      IntType.uint64.FitsCast ub -> finiteWidth = 64 -> maskedImm finiteWidth imm ≠ 0
  /-- The bounds of a word can be cast, and a negative one that shares its high bits
  with the other one has low bits that do not exceed those of the word. -/
  bounded : forall lb ub, (inv.evalInterval (.var (regPack dst).uvalue)).lb = .ofNumber lb ->
    (inv.evalInterval (.var (regPack dst).uvalue)).ub = .ofNumber ub ->
      forall values word, inv.Represents values -> HoldsWord values dst word ->
        IntType.uint64.FitsCast lb ∧ IntType.uint64.FitsCast ub ∧
          (lb < 0 -> BitsBetween (finiteWidth - maskedImm finiteWidth imm)
            (lb + 2 ^ 64) ub word.toNat)
  /-- Where bounds of a word with 32 bits show up only in the normalized state, the
  result is between them when they are shifted and wrapped around to 64 bits. -/
  normalized : (inv.evalInterval (.var (regPack dst).uvalue)).finiteSize = none ->
    finiteWidth = 32 -> forall lb ub,
    (inv.normalize.getInterval (regPack dst).uvalue).lb = .ofNumber lb ->
      (inv.normalize.getInterval (regPack dst).uvalue).ub = .ofNumber ub ->
        forall values word, inv.Represents values -> HoldsWord values dst word ->
          let n : Int := (shiftedLeft finiteWidth imm word).toNat
          let factor := 2 ^ maskedImm finiteWidth imm
          Wraps true 64 (lb * factor) (ub * factor) n ∧ Wraps false 64 (lb * factor) (ub * factor) n

section Sound

variable {inv : AddBottom Variable} {values : Variable -> Int} {dst : Reg} {imm : BitVec 32}
  {finiteWidth : Nat} {word : BitVec 64} {lb ub : Int}

theorem shl_of_bounds (number : isNumber dst inv = true)
    (isLower : (inv.evalInterval (.var (regPack dst).uvalue)).lb = .ofNumber lb)
    (isUpper : (inv.evalInterval (.var (regPack dst).uvalue)).ub = .ofNumber ub) :
    shl dst imm finiteWidth inv =
      (shlEnds finiteWidth (maskedImm finiteWidth imm) lb ub).map (fun ends =>
        setUvalue (regPack dst).svalue (regPack dst).uvalue (.range ends.1.toNat ends.2.toNat)
        finiteWidth inv) := by
  rw [shl, number, isLower, isUpper]
  rfl

theorem shl_of_unbounded (number : isNumber dst inv = true)
    (unbounded : (inv.evalInterval (.var (regPack dst).uvalue)).finiteSize = none) :
    shl dst imm finiteWidth inv =
      .ok (havocOffsets dst (shlOverflow (regPack dst).svalue (regPack dst).uvalue
      (maskedImm finiteWidth imm) inv)) := by
  rw [Interval.finiteSize] at unbounded
  rw [shl, number]
  split at unbounded
  · cases unbounded
  · rename_i notBoth
    split
    · rename_i _ isLower isUpper
      exact absurd isUpper (notBoth _ _ isLower)
    · rfl

section Bounds

variable (width : finiteWidth = 32 ∨ finiteWidth = 64) (represents : inv.Represents values)
  (holds : HoldsWord values dst word)
  (isLower : (inv.evalInterval (.var (regPack dst).uvalue)).lb = .ofNumber lb)
  (isUpper : (inv.evalInterval (.var (regPack dst).uvalue)).ub = .ofNumber ub)

include represents holds isLower isUpper

theorem word_between : lb ≤ (word.toNat : Int) ∧ (word.toNat : Int) ≤ ub := by
  have member := mem_evalVar represents (regPack dst).uvalue
  rw [holds.2, Interval.mem_def, isLower, isUpper] at member
  exact member

include width

/-- Between bounds, the shifted word is admitted. -/
theorem represents_shl (number : isNumber dst inv = true)
    (castable : IntType.uint64.FitsCast lb ∧ IntType.uint64.FitsCast ub)
    (defined : finiteWidth = 64 -> maskedImm finiteWidth imm ≠ 0)
    (bits : lb < 0 -> BitsBetween (finiteWidth - maskedImm finiteWidth imm)
      (lb + 2 ^ 64) ub word.toNat) :
    exists next, shl dst imm finiteWidth inv = .ok next ∧
      next.Represents (putWord values dst (shiftedLeft finiteWidth imm word)) := by
  have amount := maskedImm_lt width imm
  rcases word_between represents holds isLower isUpper with ⟨above, below⟩
  rcases @shlEnds_of_castable finiteWidth (maskedImm finiteWidth imm) _ _ castable.1 castable.2 with
    ⟨lower, upper, atLower, atUpper, result⟩
  rw [lower_of_word above castable.1] at atLower
  rw [upper_of_word below castable.2] at atUpper
  have between : BitsBetween (finiteWidth - maskedImm finiteWidth imm) lower.toNat upper.toNat
      word.toNat := by
    rw [atLower, atUpper]
    split
    · rename_i negative
      exact bits negative
    · exact bitsBetween_of_between above below
  rcases exists_shiftEnds (by omega) amount.le (by omega) between with ⟨ends, shifted, inside⟩
  rw [<- shiftedLeft_eq width] at inside
  have settled := represents_setUvalue width (svalue_ne_uvalue dst) represents inside
  rw [wrappedWord_toNat width (shiftedLeft_lt width imm word)] at settled
  refine ⟨_, ?_, settled⟩
  rw [shl_of_bounds number isLower isUpper, result, shifted, Except.map]

/-- A word whose low bits are not between those of the bounds is lost. -/
theorem bits_of_represents_shl (number : isNumber dst inv = true) {next : AddBottom Variable}
    (result : shl dst imm finiteWidth inv = .ok next)
    (after : next.Represents (putWord values dst (shiftedLeft finiteWidth imm word))) :
    (IntType.uint64.FitsCast lb ∧ IntType.uint64.FitsCast ub) ∧
      (lb < 0 -> BitsBetween (finiteWidth - maskedImm finiteWidth imm)
      (lb + 2 ^ 64) ub word.toNat) := by
  have amount := maskedImm_lt width imm
  rcases word_between represents holds isLower isUpper with ⟨above, below⟩
  rw [shl_of_bounds number isLower isUpper] at result
  by_cases castable : IntType.uint64.FitsCast lb ∧ IntType.uint64.FitsCast ub
  · refine ⟨castable, fun negative same => ?_⟩
    rcases @shlEnds_of_castable finiteWidth (maskedImm finiteWidth imm) _ _ castable.1
      castable.2 with
      ⟨lower, upper, atLower, atUpper, ends⟩
    rw [lower_of_word above castable.1, if_pos negative] at atLower
    rw [upper_of_word below castable.2] at atUpper
    rw [<- atLower, <- atUpper] at same ⊢
    rw [ends, shiftEnds] at result
    split at result
    · cases result
    rw [if_neg (not_ne_iff.mpr (ushiftRight_eq_iff.mpr same)), Except.map,
      Except.ok.injEq] at result
    rw [<- result] at after
    have whole : finiteWidth ≤ 64 := by omega
    have top : upper.toNat % 2 ^ (finiteWidth - maskedImm finiteWidth imm) *
        2 ^ maskedImm finiteWidth imm <
        2 ^ finiteWidth := by
      rw [two_pow_split amount.le]
      exact Nat.mul_lt_mul_of_pos_right (Nat.mod_lt _ (Nat.two_pow_pos _)) (Nat.two_pow_pos _)
    dsimp only at after
    rw [toNat_shiftLeft_and whole amount.le, toNat_shiftLeft_and whole amount.le] at after
    have inside := mem_of_setUvalue (svalue_ne_uvalue dst) (Int.natCast_nonneg _)
      (by exact_mod_cast top) after
    rw [putWord_uvalue] at inside
    have member := inside (Int.natCast_nonneg _) (by exact_mod_cast shiftedLeft_lt width imm word)
    rw [shiftedLeft_eq width, Interval.mem_range, Int.ofNat_le, Int.ofNat_le] at member
    have positive := Nat.two_pow_pos (maskedImm finiteWidth imm)
    constructor
    · exact_mod_cast Nat.le_of_mul_le_mul_right member.1 positive
    · exact_mod_cast Nat.le_of_mul_le_mul_right member.2 positive
  · rw [shlEnds_of_not_castable castable] at result
    cases result

end Bounds

section Overflow

variable {amount : Nat}

theorem shlOverflow_eq : shlOverflow (regPack dst).svalue (regPack dst).uvalue amount inv =
    copyUvalue (regPack dst).svalue (regPack dst).uvalue 64
      (applyBitwise Interval.shl (regPack dst).uvalue (regPack dst).uvalue amount inv) := rfl

/-- The values of the normalized interval are shifted. -/
theorem represents_shifted (represents : inv.Represents values) {n : Int}
    (inside : n ∈ (inv.normalize.getInterval (regPack dst).uvalue).shl (.ofNumber amount)) :
    (applyBitwise Interval.shl (regPack dst).uvalue (regPack dst).uvalue amount inv).Represents
      (Function.update values (regPack dst).uvalue n) := represents_applyBitwise represents inside

theorem mem_normalized (represents : inv.Represents values) (holds : HoldsWord values dst word) :
    (word.toNat : Int) ∈ inv.normalize.getInterval (regPack dst).uvalue := by
  have member := AddBottom.mem_getInterval (AddBottom.represents_normalize represents)
    (regPack dst).uvalue
  rwa [holds.2] at member

/-- With 64 bits, the shift wraps around as the word does. -/
theorem represents_shlOverflow (represents : inv.Represents values)
    (holds : HoldsWord values dst word) (imm : BitVec 32) :
    (shlOverflow (regPack dst).svalue (regPack dst).uvalue (maskedImm 64 imm) inv).Represents
      (putWord values dst (shiftedLeft 64 imm word)) := by
  have product := Interval.mem_shl (mem_normalized represents holds)
    (Interval.mem_ofNumber.mpr (rfl : (maskedImm 64 imm : Int) = maskedImm 64 imm))
  rw [Int.toNat_natCast] at product
  have copied := represents_copyUvalue (Or.inr rfl) (svalue_ne_uvalue dst)
    (represents_shifted represents product)
    (Function.update_self ..)
  rw [withWord_update_unsigned _ _ _ (svalue_ne_uvalue dst)] at copied
  have wrapped : wrappedWord 64 (word.toNat * 2 ^ maskedImm 64 imm) = shiftedLeft 64 imm word := by
    have remainder := toNat_wrappedWord (Or.inr rfl) ((word.toNat : Int) * 2 ^ maskedImm 64 imm)
    have rest : word.toNat * 2 ^ maskedImm 64 imm % 2 ^ 64 = (shiftedLeft 64 imm word).toNat := by
      rw [shiftedLeft_eq (Or.inr rfl), two_pow_split (maskedImm_lt (Or.inr rfl) imm).le,
        Nat.mul_mod_mul_right]
    apply BitVec.eq_of_toNat_eq
    rw [<- Int.ofNat_inj, remainder, <- rest]
    push_cast
    rfl
  rw [wrapped] at copied
  rw [shlOverflow_eq]
  exact copied

/-- Without bounds, every word is admitted. -/
theorem represents_shlOverflow_of_infinite (represents : inv.Represents values)
    (holds : HoldsWord values dst word)
    (infinite : (inv.normalize.getInterval (regPack dst).uvalue).lb.number = none ∨
      (inv.normalize.getInterval (regPack dst).uvalue).ub.number = none) (shifted : BitVec 64) :
    (shlOverflow (regPack dst).svalue (regPack dst).uvalue amount inv).Represents
      (putWord values dst shifted) := by
  rw [shlOverflow_eq]
  exact represents_copyUvalue_of_unbounded (svalue_ne_uvalue dst)
    (fun _ inside => represents_shifted represents inside)
    (unbounded_shl (mem_normalized represents holds) infinite amount) shifted

theorem attains_shifted (small : amount ≤ 128) (represents : inv.Represents values)
    (holds : HoldsWord values dst word)
    (isLower : (inv.normalize.getInterval (regPack dst).uvalue).lb = .ofNumber lb)
    (isUpper : (inv.normalize.getInterval (regPack dst).uvalue).ub = .ofNumber ub) :
    (inv.normalize.getInterval (regPack dst).uvalue).shl (.ofNumber amount) =
        .range (lb * 2 ^ amount) (ub * 2 ^ amount) ∧
      Attains (applyBitwise Interval.shl (regPack dst).uvalue (regPack dst).uvalue amount inv)
      (regPack dst).uvalue
        (lb * 2 ^ amount) (ub * 2 ^ amount) := by
  have member := mem_normalized represents holds
  rw [Interval.mem_def, isLower, isUpper, Bound.ofNumber_le_ofNumber,
    Bound.ofNumber_le_ofNumber] at member
  have ordered := member.1.trans member.2
  have known : inv.normalize.getInterval (regPack dst).uvalue = .range lb ub := by
    rw [Interval.range_eq ordered, <- isLower, <- isUpper]
  have shifted := shl_range ordered small
  rw [<- known] at shifted
  refine ⟨shifted, Int.mul_le_mul_of_nonneg_right ordered (by positivity), ?_, fun n inside => ?_⟩
  · have within := @within_applyBitwise Variable _ Interval.shl (regPack dst).uvalue
      (regPack dst).uvalue amount inv
    rwa [shifted] at within
  · rw [<- shifted] at inside
    exact ⟨_, represents_shifted represents inside, Function.update_self ..⟩

end Overflow

/-- The shift is sound exactly where it is faithful. -/
theorem shl_sound_iff (width : finiteWidth = 32 ∨ finiteWidth = 64)
    (number : isNumber dst inv = true) :
    ShlSound dst imm finiteWidth inv ↔ ShlFaithful dst imm finiteWidth inv := by
  constructor
  · rintro ⟨defined, sound⟩
    constructor
    · intro lb ub isLower isUpper lowerCast upperCast is64 zero
      apply defined
      rw [shl_of_bounds number isLower isUpper,
        (shlEnds_undefined_iff width).mpr ⟨⟨lowerCast, upperCast⟩, is64, zero⟩, Except.map]
    · intro lb ub isLower isUpper values word represents holds
      rcases sound values word represents holds with ⟨next, result, after⟩
      rcases bits_of_represents_shl width represents holds isLower isUpper number result after with
        ⟨castable, bits⟩
      exact ⟨castable.1, castable.2, bits⟩
    · intro infinite is32 lb ub isLower isUpper values word represents holds
      subst is32
      rcases sound values word represents holds with ⟨next, result, after⟩
      rw [shl_of_unbounded number infinite, Except.ok.injEq, shlOverflow_eq] at result
      rw [<- result] at after
      have amount := maskedImm_lt (Or.inl rfl) imm
      have attains := (attains_shifted (amount.le.trans (by decide)) represents holds
        isLower isUpper).2
      rcases enforces_copyUvalue (Or.inr rfl) (svalue_ne_uvalue dst) attains with ⟨signed, unsigned⟩
      have signedHere := (signed.mono
        (fun _ within => within_havocOffsets (Or.inl rfl) within)).holds after
      have unsignedHere := (unsigned.mono
        (fun _ within => within_havocOffsets (Or.inr rfl) within)).holds after
      rw [putWord_svalue, toInt_shiftedLeft] at signedHere
      rw [putWord_uvalue] at unsignedHere
      exact ⟨signedHere, unsignedHere⟩
  · intro faithful
    cases isLower : (inv.evalInterval (.var (regPack dst).uvalue)).finiteSize with
    | none =>
        rw [ShlSound, shl_of_unbounded number isLower]
        refine ⟨by nofun, ?_⟩
        intro values word represents holds
        refine ⟨_, rfl, represents_havocOffsets dst ?_⟩
        rcases width with rfl | rfl
        · cases lower : (inv.normalize.getInterval (regPack dst).uvalue).lb.number with
          | none => exact represents_shlOverflow_of_infinite represents holds (Or.inl lower) _
          | some lb =>
              cases upper : (inv.normalize.getInterval (regPack dst).uvalue).ub.number with
              | none => exact represents_shlOverflow_of_infinite represents holds (Or.inr upper) _
              | some ub =>
                  have isLb := Bound.number_eq_some.mp lower
                  have isUb := Bound.number_eq_some.mp upper
                  have amount := maskedImm_lt (Or.inl rfl) imm
                  rcases attains_shifted (amount.le.trans (by decide)) represents holds isLb
                    isUb with ⟨shifted, attains⟩
                  rcases faithful.normalized isLower rfl lb ub isLb isUb values word
                    represents holds with
                    ⟨signed, unsigned⟩
                  rw [<- toInt_shiftedLeft] at signed
                  rw [shlOverflow_eq]
                  apply copyUvalue_of_wraps (Or.inr rfl) (svalue_ne_uvalue dst) attains ?_
                    toInt_shiftedLeft signed unsigned
                  intro n inside
                  rw [<- shifted] at inside
                  exact represents_shifted represents inside
        · exact represents_shlOverflow represents holds imm
    | some size =>
        rcases bounds_of_finiteSize isLower with ⟨lb, ub, isLb, isUb⟩
        constructor
        · intro undefinedShift
          rw [shl_of_bounds number isLb isUb] at undefinedShift
          cases ends : shlEnds finiteWidth (maskedImm finiteWidth imm) lb ub with
          | ok result =>
              rw [ends] at undefinedShift
              cases undefinedShift
          | error failure =>
              rw [ends, Except.map, Except.error.injEq] at undefinedShift
              rw [undefinedShift] at ends
              rcases (shlEnds_undefined_iff width).mp ends with ⟨castable, is64, zero⟩
              exact faithful.defined lb ub isLb isUb castable.1 castable.2 is64 zero
        · intro values word represents holds
          rcases faithful.bounded lb ub isLb isUb values word represents holds with
            ⟨lowerCast, upperCast, bits⟩
          exact represents_shl width represents holds isLb isUb number ⟨lowerCast, upperCast⟩
            (faithful.defined lb ub isLb isUb lowerCast upperCast) bits

end Sound

end Ordered

section FiveOrSix

attribute [local instance] Variable.variableOrder
attribute [local instance(2000)] LinearOrder.toDecidableEq

theorem evalInterval_five_six :
    (numberState (.range 5 6) (.range 5 6)).evalInterval (.var (regPack ⟨1⟩).uvalue) =
    .range 5 6 := by decide

/-- A register that holds 5 or 6, shifted with 32 bits until its lowest bit is the sign. -/
theorem shl_sound_sign : ShlSound ⟨1⟩ 31 32 (numberState (.range 5 6) (.range 5 6)) := by
  apply (shl_sound_iff (Or.inl rfl) (by decide)).mpr
  constructor
  · rintro lb ub - - - - impossible
    cases impossible
  · intro lb ub isLower isUpper values word _ _
    rw [evalInterval_five_six] at isLower isUpper
    cases isLower
    cases isUpper
    exact ⟨by decide, by decide, fun negative => absurd negative (by decide)⟩
  · intro infinite
    rw [evalInterval_five_six] at infinite
    cases infinite

/-- A shift of the same register by zero with 64 bits compares the bounds shifted by 64. -/
theorem not_shlSound_zero : isNumber ⟨1⟩ (numberState (.range 5 6) (.range 5 6)) = true ∧
    ¬ ShlSound ⟨1⟩ 0 64 (numberState (.range 5 6) (.range 5 6)) := by
  refine ⟨by decide, fun sound => sound.1 ?_⟩
  have lower : ((numberState (.range 5 6) (.range 5 6)).evalInterval
      (.var (regPack ⟨1⟩).uvalue)).lb = .ofNumber 5 :=
    congrArg Interval.lb evalInterval_five_six
  have upper : ((numberState (.range 5 6) (.range 5 6)).evalInterval
      (.var (regPack ⟨1⟩).uvalue)).ub = .ofNumber 6 :=
    congrArg Interval.ub evalInterval_five_six
  have byWidth : shlEnds 64 (maskedImm 64 0) 5 6 = .error .undefinedShift := by decide
  rw [shl_of_bounds (by decide) lower upper, byWidth, Except.map]

end FiveOrSix

end Ebpf
end Prevail
