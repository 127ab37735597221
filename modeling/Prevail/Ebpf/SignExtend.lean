import Prevail.Asm.Alu
import Prevail.Ebpf.NumberRegisters
import Prevail.Library.Bits

namespace Prevail

/-!
# Sign extension

`sign_extend` of `ebpf_transformer`, and the branch of `operator()(const Bin&)` that
calls it for a register.  The signed interval of the source is extended end by end:
each end is cast to a machine integer, its low bits are kept, and the sign of these
is spread with an exclusive disjunction and a subtraction.

The new ends are those of the extended words only if no sign boundary of the low
bits lies between the old ones.  An interval that is as long as the range of the low
bits is replaced by that range, but a shorter one may cross a boundary too.

A register whose words are of the low bits is left alone, with 32 bits as with 64.  A
negative word should then lose its upper half.
-/

namespace Ebpf

open Crab

/-! ## The operation -/

/-- `_movsx_bits`, which throws for the other operations. -/
def movsxBits : BinOp -> Option Nat
  | .movsx8 => some 8
  | .movsx16 => some 16
  | .movsx32 => some 32
  | _ => none

def signExtendEnd (bits : Nat) (n : Int) : Option Int :=
  (IntType.int64.cast n).map (fun machine =>
    let low := BitVec.ofInt 64 machine &&& BitVec.ofNat 64 (2 ^ bits - 1)
    let mask := BitVec.ofNat 64 (2 ^ (bits - 1))
    ((low ^^^ mask) - mask).toInt)

/-- The interval whose ends are extended: the one of the source, or the range of the
low bits where the former is as long. -/
def extendedInterval (bits : Nat) (interval : Interval) : Interval :=
  match interval.lb.number, interval.ub.number with
  | some lb, some ub => if ub - lb ≥ 2 ^ bits then .signedInt bits else interval
  | _, _ => .signedInt bits

/-- An interval shorter than the range of the low bits has ends that can be cast and
that keep their order. -/
def ExtendsInOrder (bits : Nat) (interval : Interval) : Prop :=
  forall lb ub, interval.lb = .ofNumber lb -> interval.ub = .ofNumber ub -> ub - lb < 2 ^ bits ->
    IntType.int64.min ≤ lb ∧
    (⟨true, bits⟩ : IntType).truncate lb ≤ (⟨true, bits⟩ : IntType).truncate ub

/-! ## Extended ends -/

section Ends

variable {bits : Nat} {n : Int} {interval : Interval}

theorem toInt_spread (word : BitVec 64) (narrow : bits + 1 ≤ 32) :
    (((word &&& BitVec.ofNat 64 (2 ^ (bits + 1) - 1)) ^^^ BitVec.ofNat 64 (2 ^ bits)) -
      BitVec.ofNat 64 (2 ^ bits)).toInt =
      (word.toNat : Int).bmod (2 ^ (bits + 1)) := by
  have range : (2 : Nat) ^ (bits + 1) ≤ 2 ^ 32 := Nat.pow_le_pow_right (by decide) narrow
  have double : (2 : Nat) ^ (bits + 1) = 2 ^ bits * 2 := pow_succ 2 bits
  have low : (word &&& BitVec.ofNat 64 (2 ^ (bits + 1) - 1)).toNat = word.toNat % 2 ^
      (bits + 1) := by
    rw [BitVec.toNat_and, BitVec.toNat_ofNat, Nat.mod_eq_of_lt (by omega),
      Nat.and_two_pow_sub_one_eq_mod]
  have lowSmall : word.toNat % 2 ^ (bits + 1) < 2 ^ (bits + 1) := Nat.mod_lt _ (Nat.two_pow_pos _)
  have mask : (BitVec.ofNat 64 (2 ^ bits)).toNat = 2 ^ bits := by
    rw [BitVec.toNat_ofNat, Nat.mod_eq_of_lt (by omega)]
  have residue : (word.toNat : Int) % ((2 ^ (bits + 1) : Nat) : Int) =
      (word.toNat % 2 ^ (bits + 1) : Nat) := rfl
  rw [BitVec.toInt_eq_toNat_cond, BitVec.toNat_sub, BitVec.toNat_xor, low, mask,
    Bits.xor_two_pow lowSmall, Int.bmod, residue]
  split <;> split <;> split <;> omega

/-- A machine integer and the number that it is cast from differ by a multiple. -/
theorem dvd_sub_toNat_ofInt (narrow : bits ≤ 64) (n : Int) :
    (2 ^ bits : Int) ∣ ((BitVec.ofInt 64 (IntType.int64.truncate n)).toNat : Int) - n := by
  have machine : ((BitVec.ofInt 64 (IntType.int64.truncate n)).toNat : Int) =
      IntType.int64.truncate n % 2 ^ 64 := by
    rw [BitVec.toNat_ofInt]
    push_cast
    rw [Int.toNat_of_nonneg (Int.emod_nonneg _ (by norm_num))]
  have first : (2 ^ 64 : Int) ∣ IntType.int64.truncate n % 2 ^ 64 - IntType.int64.truncate n :=
    Int.dvd_emod_sub_self
  have second : (2 ^ 64 : Int) ∣ n - IntType.int64.truncate n := IntType.dvd_sub_truncate .int64 n
  have both := dvd_sub first second
  rw [machine]
  apply (pow_dvd_pow 2 narrow).trans
  have same : IntType.int64.truncate n % 2 ^ 64 - n =
      IntType.int64.truncate n % 2 ^ 64 - IntType.int64.truncate n -
      (n - IntType.int64.truncate n) := by ring
  rwa [same]

/-- An end that can be cast is extended as a number of the low bits is truncated. -/
theorem signExtendEnd_eq (positive : 0 < bits) (narrow : bits ≤ 32) (n : Int) :
    signExtendEnd bits n =
    if IntType.int64.FitsCast n then some ((⟨true, bits⟩ : IntType).truncate n) else none := by
  rw [signExtendEnd, IntType.cast]
  split
  · rcases Nat.exists_eq_add_of_lt positive with ⟨less, isBits⟩
    rw [zero_add] at isBits
    subst isBits
    rw [Option.map_some, Nat.add_sub_cancel]
    dsimp only
    rw [toInt_spread _ narrow]
    congr 1
    exact @IntType.truncate_congr ⟨true, less + 1⟩ _ _ positive
      (dvd_sub_toNat_ofInt (narrow.trans (by decide)) n)
  · rfl

theorem movsxBits_cases {op : BinOp} (isMovsx : movsxBits op = some bits) :
    (op = .movsx8 ∧ bits = 8) ∨ (op = .movsx16 ∧ bits = 16) ∨ (op = .movsx32 ∧ bits = 32) := by
  cases op <;> cases isMovsx <;> simp

theorem movsxBits_bounds {op : BinOp} (isMovsx : movsxBits op = some bits) :
    0 < bits ∧ bits ≤ 32 := by
  rcases movsxBits_cases isMovsx with ⟨_, rfl⟩ | ⟨_, rfl⟩ | ⟨_, rfl⟩ <;> decide

/-- The word that a sign extension leaves. -/
theorem resultWord_movsx {op : BinOp} {finiteWidth : Nat} (isMovsx : movsxBits op = some bits)
    (width : finiteWidth = 32 ∨ finiteWidth = 64) (dst v : BitVec 64) :
    op.resultWord finiteWidth dst v = wrappedWord finiteWidth
      ((⟨true, bits⟩ : IntType).truncate v.toInt) := by
  have positive := (movsxBits_bounds isMovsx).1
  have narrow := (movsxBits_bounds isMovsx).2
  have reading : (v.setWidth bits).toInt = (⟨true, bits⟩ : IntType).truncate v.toInt := by
    rw [BitVec.toInt_setWidth]
    apply @IntType.truncate_congr ⟨true, bits⟩ v.toNat v.toInt positive
    exact (pow_dvd_pow 2 (narrow.trans (by decide))).trans (dvd_toNat_sub_toInt (Or.inr rfl) v)
  have low : (v.setWidth finiteWidth).setWidth bits = v.setWidth bits :=
    BitVec.setWidth_setWidth_of_le v (by omega)
  rw [BinOp.resultWord, wrappedWord, <- reading]
  congr 1
  rcases movsxBits_cases isMovsx with ⟨rfl, rfl⟩ | ⟨rfl, rfl⟩ | ⟨rfl, rfl⟩ <;>
    exact congrArg (BitVec.signExtend finiteWidth) low

theorem word_movsx {op : BinOp} (isMovsx : movsxBits op = some bits) (dst src : Reg) (is64 : Bool)
    (registers : Reg -> BitVec 64) : Bin.word ⟨op, dst, .reg src, is64, false⟩ registers =
      wrappedWord (if is64 then 64
      else 32) ((⟨true, bits⟩ : IntType).truncate (registers src).toInt) := by
  rw [Bin.word_eq]
  exact resultWord_movsx isMovsx (finiteWidth_cases is64) _ _

/-- A negative number has the upper half cleared. -/
theorem toInt_wrappedWord_of_negative {n : Int} (above : -2 ^ 31 ≤ n) (negative : n < 0) :
    (wrappedWord 32 n).toInt = n + 2 ^ 32 := by
  have wrapped := toNat_wrappedWord (Or.inl rfl) n
  have cases := Word.toInt_cases (wrappedWord 32 n)
  omega

/-- The range of the low bits is extended to itself. -/
theorem signExtendEnd_of_fits (positive : 0 < bits) (narrow : bits ≤ 32)
    (fits : (⟨true, bits⟩ : IntType).Fits n) :
    signExtendEnd bits n = some n := by
  have inRange : IntType.int64.Fits n := by
    have smaller : (2 : Int) ^ (bits - 1) ≤ 2 ^ 63 := pow_le_pow_right₀ (by norm_num) (by omega)
    have lower : -(2 ^ (bits - 1) : Int) ≤ n := fits.1
    have upper : n ≤ 2 ^ (bits - 1) - 1 := fits.2
    exact ⟨by change -2 ^ 63 ≤ n; omega, by change n ≤ 2 ^ 63 - 1; omega⟩
  have castable : IntType.int64.FitsCast n := Or.inl inRange
  rw [signExtendEnd_eq positive narrow, if_pos castable, IntType.truncate_of_fits positive fits]

theorem exists_extendedEnds (positive : 0 < bits) (narrow : bits ≤ 32) (member : n ∈ interval)
    (isWord : IntType.int64.Fits n) (inOrder : ExtendsInOrder bits interval) :
    exists lb ub, (extendedInterval bits interval).lb.number.bind (signExtendEnd bits) = some lb ∧
      (extendedInterval bits interval).ub.number.bind (signExtendEnd bits) = some ub ∧
        (⟨true, bits⟩ : IntType).truncate n ∈ Interval.range lb ub := by
  have inRange := @IntType.truncate_fits ⟨true, bits⟩ positive n
  have ordered := inRange.1.trans inRange.2
  have wide : exists lb ub,
      (Interval.signedInt bits).lb.number.bind (signExtendEnd bits) = some lb ∧
      (Interval.signedInt bits).ub.number.bind (signExtendEnd bits) = some ub ∧
        (⟨true, bits⟩ : IntType).truncate n ∈ Interval.range lb ub := by
    rw [Interval.signedInt, Interval.full, Interval.range_eq ordered]
    exact ⟨_, _, signExtendEnd_of_fits positive narrow ⟨le_refl _, ordered⟩,
      signExtendEnd_of_fits positive narrow ⟨ordered, le_refl _⟩, Interval.mem_range.mpr inRange⟩
  rw [extendedInterval]
  split
  · rename_i lb ub isLower isUpper
    split
    · exact wide
    rename_i short
    have above := member.1
    have below := member.2
    rw [Bound.number_eq_some.mp isLower, Bound.ofNumber_le_ofNumber] at above
    rw [Bound.number_eq_some.mp isUpper, Bound.ofNumber_le_ofNumber] at below
    rcases inOrder lb ub (Bound.number_eq_some.mp isLower) (Bound.number_eq_some.mp isUpper)
      (by omega) with
      ⟨castable, kept⟩
    have size : (2 : Int) ^ bits ≤ 2 ^ 32 := pow_le_pow_right₀ (by norm_num) narrow
    have smallest : IntType.int64.min = -2 ^ 63 := rfl
    have largest : IntType.int64.max = 2 ^ 63 - 1 := rfl
    have lowerCast : IntType.int64.FitsCast lb := Or.inl ⟨castable, above.trans isWord.2⟩
    have upperCast : IntType.int64.FitsCast ub := by
      by_cases signed : ub ≤ IntType.int64.max
      · exact Or.inl ⟨isWord.1.trans below, signed⟩
      · refine Or.inr ⟨?_, ?_⟩
        · change 0 ≤ ub
          omega
        · have fits := isWord.2
          change ub ≤ 2 ^ 64 - 1
          omega
    refine ⟨(⟨true, bits⟩ : IntType).truncate lb, (⟨true, bits⟩ : IntType).truncate ub, ?_, ?_, ?_⟩
    · rw [isLower, Option.bind_some, signExtendEnd_eq positive narrow, if_pos lowerCast]
    · rw [isUpper, Option.bind_some, signExtendEnd_eq positive narrow, if_pos upperCast]
    · have moved := @IntType.truncate_between ⟨true, bits⟩ lb ub n positive above below
        (by dsimp only; omega) kept
      rw [Interval.mem_range]
      omega
  · exact wide

/-- An interval out of order has an end that cannot be cast, or its extended ends
enclose nothing. -/
theorem isBottom_of_not_inOrder (positive : 0 < bits) (narrow : bits ≤ 32)
    (outOfOrder : ¬ ExtendsInOrder bits interval)
    {lower upper : Int} (isLower : (extendedInterval bits interval).lb.number.bind
      (signExtendEnd bits) = some lower)
    (isUpper : (extendedInterval bits interval).ub.number.bind (signExtendEnd bits) = some upper) :
    (Interval.range lower upper).IsBottom := by
  rw [ExtendsInOrder] at outOfOrder
  push Not at outOfOrder
  rcases outOfOrder with ⟨lb, ub, atLower, atUpper, short, crossed⟩
  have kept : extendedInterval bits interval = interval := by
    rw [extendedInterval, atLower, atUpper]
    exact if_neg (by omega)
  rw [kept, atLower, Bound.number_ofNumber, Option.bind_some,
    signExtendEnd_eq positive narrow] at isLower
  rw [kept, atUpper, Bound.number_ofNumber, Option.bind_some,
    signExtendEnd_eq positive narrow] at isUpper
  split at isLower
  · rename_i castable
    split at isUpper
    · cases isLower
      cases isUpper
      rw [Interval.isBottom_range]
      apply crossed
      rcases castable with signed | unsigned
      · exact signed.1
      · have nonneg : 0 ≤ lb := unsigned.1
        exact (by decide : IntType.int64.min ≤ 0).trans nonneg
    · cases isUpper
  · cases isLower

end Ends

section Ordered

variable [LinearOrder Variable]

attribute [local instance(2000)] LinearOrder.toDecidableEq

/-- `sign_extend`.  The result is absent where the source throws. -/
def signExtend (dst : Reg) (rightSvalue : LinearExpression Variable) (finiteWidth bits : Nat)
    (inv : AddBottom Variable) :
    Option (AddBottom Variable) :=
  let r := regPack dst
  let rightInterval := extendedInterval bits (inv.evalInterval rightSvalue)
  let forgotten := havocOffsets dst (assignType dst .num inv)
  (rightInterval.lb.number.bind (signExtendEnd bits)).bind (fun lb =>
    (rightInterval.ub.number.bind (signExtendEnd bits)).map (fun ub =>
      if finiteWidth = 0 then forgotten.set r.svalue (.range lb ub)
      else setSvalue r.svalue r.uvalue (.range lb ub) finiteWidth forgotten))

/-- The operation leaves the register as it is. -/
def IsNoOp (dst src : Reg) (bits : Nat) (inv : AddBottom Variable) : Prop :=
  (regPack dst).svalue = (regPack src).svalue ∧
    inv.evalInterval (.var (regPack dst).svalue) ≤ .signedInt bits

instance (dst src : Reg) (bits : Nat) (inv : AddBottom Variable) :
    Decidable (IsNoOp dst src bits inv) :=
  inferInstanceAs (Decidable (_ ∧ _))

/-- The branch of `operator()(const Bin&)` for the sign extension of a register. -/
def movsx (op : BinOp) (dst src : Reg) (is64 : Bool) (inv : AddBottom Variable) :
    Option (AddBottom Variable) :=
  (movsxBits op).bind (fun bits =>
    if IsNoOp dst src bits inv then some inv
    else if isNumber src inv then signExtend dst (.var (regPack src).svalue) (if is64 then 64
      else 32) bits inv
    else some (havocOffsets dst ((inv.forget (regPack dst).svalue).forget (regPack dst).uvalue)))

/-- Every represented state is represented behind the operation with the extended
word in the destination. -/
def MovsxSound (op : BinOp) (dst src : Reg) (is64 : Bool) (inv : AddBottom Variable) : Prop :=
  forall (values : Variable -> Int) (registers : Reg -> BitVec 64), inv.Represents values ->
    HoldsWord values src (registers src) -> exists next, movsx op dst src is64 inv = some next ∧
      next.Represents (putWord
        (Function.update values (regPack dst).type TypeEncoding.num.value) dst
        (Bin.word ⟨op, dst, .reg src, is64, false⟩ registers))

/-- An operation that leaves the register as it is has 64 bits or finds no negative
word.  Any other operation that finds a word extends an interval in order. -/
def MovsxFaithful (bits : Nat) (dst src : Reg) (is64 : Bool) (inv : AddBottom Variable) : Prop :=
  if IsNoOp dst src bits inv then
    is64 = true ∨ forall values word, inv.Represents values -> HoldsWord values src word ->
      0 ≤ word.toInt
  else
    (exists values word, inv.Represents values ∧ HoldsWord values src word) ->
      ExtendsInOrder bits (inv.evalInterval (.var (regPack src).svalue))

section Sound

variable {inv : AddBottom Variable} {values : Variable -> Int} {op : BinOp} {dst src : Reg}
  {is64 : Bool} {bits : Nat} {finiteWidth : Nat} {word : BitVec 64}

/-- An interval in order admits the extended word. -/
theorem represents_signExtend (isMovsx : movsxBits op = some bits)
    (width : finiteWidth = 32 ∨ finiteWidth = 64)
    (represents : inv.Represents values) (signed : values (regPack src).svalue = word.toInt)
    (inOrder : ExtendsInOrder bits (inv.evalInterval (.var (regPack src).svalue)))
    (old : BitVec 64) :
    exists next, signExtend dst (.var (regPack src).svalue) finiteWidth bits inv = some next ∧
      next.Represents (putWord
      (Function.update values (regPack dst).type TypeEncoding.num.value) dst
        (op.resultWord finiteWidth old word)) := by
  have positive := (movsxBits_bounds isMovsx).1
  have narrow := (movsxBits_bounds isMovsx).2
  have member := mem_evalVar represents (regPack src).svalue
  rw [signed] at member
  rcases exists_extendedEnds positive narrow member (fits_toInt word) inOrder with
    ⟨lb, ub, isLower, isUpper, inside⟩
  have typed : (havocOffsets dst (assignType dst .num inv)).Represents
      (Function.update values (regPack dst).type TypeEncoding.num.value) :=
    represents_havocOffsets dst (AddBottom.represents_assignConst _ _ represents)
  have nonzero : finiteWidth ≠ 0 := by omega
  have extended := represents_setSvalue width (svalue_ne_uvalue dst) typed inside
  rw [<- resultWord_movsx isMovsx width old word] at extended
  refine ⟨_, ?_, extended⟩
  rw [signExtend, isLower, isUpper, Option.bind_some, Option.map_some, if_neg nonzero]

/-- An interval out of order throws or leaves bottom. -/
theorem inOrder_of_signExtend (isMovsx : movsxBits op = some bits) (positiveWidth : finiteWidth ≠ 0)
    {next : AddBottom Variable} {others : Variable -> Int} {right : LinearExpression Variable}
    (result : signExtend dst right finiteWidth bits inv = some next)
    (represents : next.Represents others) :
    ExtendsInOrder bits (inv.evalInterval right) := by
  have positive := (movsxBits_bounds isMovsx).1
  have narrow := (movsxBits_bounds isMovsx).2
  rw [signExtend] at result
  rcases Option.bind_eq_some_iff.mp result with ⟨lb, isLower, rest⟩
  rcases Option.map_eq_some_iff.mp rest with ⟨ub, isUpper, isNext⟩
  by_contra outOfOrder
  have empty := isBottom_of_not_inOrder positive narrow outOfOrder isLower isUpper
  rw [if_neg positiveWidth, setSvalue_isBottom empty] at isNext
  rw [<- isNext] at represents
  rcases represents with ⟨_, impossible, _⟩
  cases impossible

theorem movsx_noOp (isMovsx : movsxBits op = some bits) (noOp : IsNoOp dst src bits inv) :
    movsx op dst src is64 inv = some inv := by
  rw [movsx, isMovsx, Option.bind_some, if_pos noOp]

theorem movsx_number (isMovsx : movsxBits op = some bits) (works : ¬ IsNoOp dst src bits inv)
    (number : isNumber src inv = true) : movsx op dst src is64 inv =
      signExtend dst (.var (regPack src).svalue) (if is64 then 64 else 32) bits inv := by
  rw [movsx, isMovsx, Option.bind_some, if_neg works, if_pos number]

omit [LinearOrder Variable] in
theorem eq_of_svalue_eq (same : (regPack dst).svalue = (regPack src).svalue) : dst = src := by
  simpa [regPack, RegPack.svalue] using same

/-- The signed reading of a word that is left alone is one of the low bits. -/
theorem fits_of_noOp (noOp : IsNoOp dst src bits inv) (represents : inv.Represents values) :
    (⟨true, bits⟩ : IntType).Fits (values (regPack dst).svalue) :=
  Interval.mem_full.mp (Interval.mem_of_le noOp.2 (mem_evalVar represents _))

/-- The sign extension of a number is sound exactly where it is faithful. -/
theorem movsx_sound_iff (isMovsx : movsxBits op = some bits) (number : isNumber src inv = true) :
    MovsxSound op dst src is64 inv ↔ MovsxFaithful bits dst src is64 inv := by
  have positive := (movsxBits_bounds isMovsx).1
  have narrow := (movsxBits_bounds isMovsx).2
  have half : (2 : Int) ^ (bits - 1) ≤ 2 ^ 31 := pow_le_pow_right₀ (by norm_num) (by omega)
  rw [MovsxFaithful]
  constructor
  · intro sound
    split
    · rename_i noOp
      have same := eq_of_svalue_eq noOp.1
      subst same
      cases is64 with
      | true => exact Or.inl rfl
      | false =>
          right
          intro values word represents holds
          rcases sound values (fun _ => word) represents holds with ⟨next, result, after⟩
          rw [movsx_noOp isMovsx noOp] at result
          cases result
          have before := fits_of_noOp noOp represents
          have behind : _ ≤ (2 : Int) ^ (bits - 1) - 1 := (fits_of_noOp noOp after).2
          rw [holds.1] at before
          rw [putWord_svalue, word_movsx isMovsx,
            IntType.truncate_of_fits positive before] at behind
          have lower : -(2 : Int) ^ (bits - 1) ≤ word.toInt := before.1
          by_contra negative
          have moved : (wrappedWord 32 word.toInt).toInt = word.toInt + 2 ^ 32 :=
            toInt_wrappedWord_of_negative (by omega) (by omega)
          change (wrappedWord 32 word.toInt).toInt ≤ _ at behind
          omega
    · rename_i works
      rintro ⟨values, word, represents, holds⟩
      rcases sound values (fun _ => word) represents holds with ⟨next, result, after⟩
      rw [movsx_number isMovsx works number] at result
      exact inOrder_of_signExtend isMovsx (by cases is64 <;> decide) result after
  · intro faithful values registers represents holds
    split at faithful
    · rename_i noOp
      have same := eq_of_svalue_eq noOp.1
      subst same
      refine ⟨inv, movsx_noOp isMovsx noOp, ?_⟩
      have before := fits_of_noOp noOp represents
      rw [holds.1] at before
      have kept : Bin.word ⟨op, dst, .reg dst, is64, false⟩ registers = registers dst := by
        rw [word_movsx isMovsx, IntType.truncate_of_fits positive before]
        apply wrappedWord_toInt
        rcases faithful with is64 | nonneg
        · exact Or.inl is64
        · have upper : (registers dst).toInt ≤ 2 ^ (bits - 1) - 1 := before.2
          exact Or.inr ⟨nonneg values _ represents holds, by omega⟩
      rw [kept, putWord_of_holdsWord holds (type_of_isNumber number represents)]
      exact represents
    · rename_i works
      rw [movsx_number isMovsx works number, Bin.word_eq]
      exact represents_signExtend isMovsx (finiteWidth_cases is64) represents holds.1
        (faithful ⟨values, registers src, represents, holds⟩) _

end Sound

end Ordered

section Straddling

attribute [local instance] Variable.variableOrder
attribute [local instance(2000)] LinearOrder.toDecidableEq

/-- The extension of the low byte of a register that holds 5 or 6. -/
theorem movsx_sound_small :
    MovsxSound .movsx8 ⟨2⟩ ⟨1⟩ true (numberState (.range 5 6) (.range 5 6)) := by
  apply (movsx_sound_iff rfl (by decide)).mpr
  rw [MovsxFaithful, if_neg (by decide)]
  intro _ lb ub isLower isUpper _
  have known : (numberState (.range 5 6) (.range 5 6)).evalInterval (.var (regPack ⟨1⟩).svalue) =
      .range 5 6 := by decide
  rw [known] at isLower isUpper
  cases isLower
  cases isUpper
  decide

/-- The low byte of 127 is positive, that of 128 is negative.  The extended ends are
127 and -128. -/
theorem not_movsxSound_straddling :
    isNumber ⟨1⟩ (numberState (.range 127 128) (.range 127 128)) = true ∧
      ¬ MovsxSound .movsx8 ⟨2⟩ ⟨1⟩ true (numberState (.range 127 128) (.range 127 128)) := by
  refine ⟨by decide, fun sound => ?_⟩
  have represents : (numberState (.range 127 128) (.range 127 128)).Represents (numberValues 127) :=
    represents_numberState (by decide) (by decide)
  rcases sound _ (fun _ => 127) represents (holdsWord_numberValues 127) with ⟨next, result, after⟩
  rw [@movsx_number _ _ _ _ _ true 8 rfl (by decide) (by decide)] at result
  have isMovsx : movsxBits .movsx8 = some 8 := rfl
  have inOrder := inOrder_of_signExtend isMovsx (by decide) result after
  have known : (numberState (.range 127 128) (.range 127 128)).evalInterval
      (.var (regPack ⟨1⟩).svalue) =
      .range 127 128 := by decide
  rw [known] at inOrder
  exact absurd (inOrder 127 128 rfl rfl (by decide)).2 (by decide)

end Straddling

end Ebpf
end Prevail
