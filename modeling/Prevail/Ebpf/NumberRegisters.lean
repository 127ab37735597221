import Prevail.Crab.SplitDbm.AssignBounds
import Prevail.Crab.TypeJoin
import Prevail.Ebpf.WrapAround

namespace Prevail
namespace Ebpf

open Crab

/-!
# Registers that hold numbers

What the shifts and the extensions of `ebpf_transformer` share.  Each of them
computes an interval for one of the two variables of a register, copies the
variable to the other one, and brings both into the range of the width.

An interval of words stays what it is when the unsigned variable is brought into
its range, so that its bounds can be read from the state behind the operation.
-/

section Overflow

variable {V : Type} [LinearOrder V]

/-- The end of an operation that computes the signed variable. -/
def setSvalue (svalue uvalue : V) (interval : Interval) (finiteWidth : Nat) (inv : AddBottom V) :
    AddBottom V :=
  overflowUnsigned uvalue finiteWidth
    (overflowSigned svalue finiteWidth ((inv.set svalue interval).assignVar uvalue svalue))

/-- Copy the unsigned variable, and bring both variables into their ranges. -/
def copyUvalue (svalue uvalue : V) (finiteWidth : Nat) (inv : AddBottom V) : AddBottom V :=
  overflowUnsigned uvalue finiteWidth
    (overflowSigned svalue finiteWidth (inv.assignVar svalue uvalue))

/-- The end of an operation that computes the unsigned variable. -/
def setUvalue (svalue uvalue : V) (interval : Interval) (finiteWidth : Nat) (inv : AddBottom V) :
    AddBottom V :=
  copyUvalue svalue uvalue finiteWidth (inv.set uvalue interval)

variable {inv : AddBottom V} {values : V -> Int} {svalue uvalue x lhs : V} {interval : Interval}
  {finiteWidth : Nat} {isSigned : Bool} {span n : Int}

theorem represents_forget_same (x : V) (represents : inv.Represents values) :
    (inv.forget x).Represents values := by
  have forgotten := AddBottom.represents_forget x (values x) represents
  rwa [Function.update_eq_self] at forgotten

/-- Variables that have one value wrap around to the readings of one word. -/
theorem represents_overflow_equal (width : finiteWidth = 32 ∨ finiteWidth = 64)
    (different : svalue ≠ uvalue)
    (represents : inv.Represents values) (signed : values svalue = n)
    (unsigned : values uvalue = n) :
    (overflowUnsigned uvalue finiteWidth (overflowSigned svalue finiteWidth inv)).Represents
      (withWord values (wrappedWord finiteWidth n) svalue uvalue) := by
  have wrapped := represents_overflow width different represents
  rwa [signed, unsigned, wrapNumber_signed width, wrapNumber_unsigned width] at wrapped

theorem represents_setSvalue (width : finiteWidth = 32 ∨ finiteWidth = 64)
    (different : svalue ≠ uvalue) (represents : inv.Represents values) (member : n ∈ interval) :
    (setSvalue svalue uvalue interval finiteWidth inv).Represents
      (withWord values (wrappedWord finiteWidth n) svalue uvalue) := by
  have assigned := AddBottom.represents_assignVar uvalue svalue
    (AddBottom.represents_set_update svalue represents member)
  rw [Function.update_self] at assigned
  have wrapped := represents_overflow_equal width different assigned
    ((Function.update_of_ne different ..).trans (Function.update_self ..)) (Function.update_self ..)
  rwa [withWord_update_unsigned _ _ _ different, withWord_update_signed] at wrapped

theorem represents_copyUvalue (width : finiteWidth = 32 ∨ finiteWidth = 64)
    (different : svalue ≠ uvalue)
    (represents : inv.Represents values) (unsigned : values uvalue = n) :
    (copyUvalue svalue uvalue finiteWidth inv).Represents
      (withWord values (wrappedWord finiteWidth n) svalue uvalue) := by
  have assigned := AddBottom.represents_assignVar svalue uvalue represents
  rw [unsigned] at assigned
  have wrapped := represents_overflow_equal width different assigned (Function.update_self ..)
    ((Function.update_of_ne different.symm ..).trans unsigned)
  rwa [withWord_update_signed] at wrapped

theorem represents_setUvalue (width : finiteWidth = 32 ∨ finiteWidth = 64)
    (different : svalue ≠ uvalue) (represents : inv.Represents values) (member : n ∈ interval) :
    (setUvalue svalue uvalue interval finiteWidth inv).Represents
      (withWord values (wrappedWord finiteWidth n) svalue uvalue) := by
  have wrapped := represents_copyUvalue width different
    (AddBottom.represents_set_update uvalue represents member)
    (Function.update_self ..)
  rwa [withWord_update_unsigned _ _ _ different] at wrapped

theorem within_overflowBounds (within : inv.Within x interval) (different : x ≠ lhs) :
    (overflowBounds lhs span finiteWidth isSigned inv).Within x interval := by
  rw [overflowBounds]
  dsimp only
  split
  · split
    · exact within.forget different
    split
    · exact within.forget different
    split
    · exact within.forget different
    split
    · exact within.set different
    · exact within
  · exact within.forget different

@[simp] theorem overflowBounds_none : overflowBounds lhs span finiteWidth isSigned none = none := by
  rw [overflowBounds]
  dsimp only
  split
  · rename_i isLower isUpper
    cases isLower
    cases isUpper
    split <;> rfl
  · rfl

theorem overflowUnsigned_of_within {lb ub : Int} (within : inv.Within x (.range lb ub))
    (ordered : lb ≤ ub)
    (nonneg : 0 ≤ lb) (small : ub - lb < 2 ^ finiteWidth - 1) (top : ub < 2 ^ finiteWidth) :
    overflowUnsigned x finiteWidth inv = inv := by
  by_cases empty : inv = none
  · rw [empty, overflowUnsigned, overflowBounds_none]
  rcases within.getInterval_eq ordered empty with ⟨l, u, known, lower, inOrder, upper⟩
  have unchanged : forall k : Int, lb ≤ k -> k ≤ ub -> wrapNumber false finiteWidth k = k := by
    intro k above below
    exact Int.emod_eq_of_lt (nonneg.trans above) (lt_of_le_of_lt below top)
  have narrow : ¬ u - l ≥ IntType.max ⟨false, finiteWidth⟩ := by
    have largest : IntType.max ⟨false, finiteWidth⟩ = 2 ^ finiteWidth - 1 := rfl
    omega
  have inhabited : ¬ (⟨.ofNumber l, .ofNumber u⟩ : Interval).IsBottom := by
    rw [<- Interval.range_eq inOrder, Interval.isBottom_range]
    omega
  rw [overflowUnsigned, overflowBounds, known]
  dsimp only [Bound.number]
  rw [if_neg narrow, if_neg inhabited, unchanged l lower (by omega), unchanged u (by omega) upper,
    if_neg (not_lt.mpr inOrder), Interval.range_eq inOrder, if_neg (not_not.mpr rfl)]

/-- The bounds of words stay when the unsigned variable is copied. -/
theorem within_copyUvalue {lb ub : Int} (within : inv.Within uvalue (.range lb ub))
    (different : svalue ≠ uvalue)
    (ordered : lb ≤ ub) (nonneg : 0 ≤ lb) (small : ub - lb < 2 ^ finiteWidth - 1)
    (top : ub < 2 ^ finiteWidth) :
    (copyUvalue svalue uvalue finiteWidth inv).Within uvalue (.range lb ub) := by
  have copied := within.assign (LinearExpression.wellFormed_var uvalue) different.symm
  have signed : (overflowSigned svalue finiteWidth (inv.assignVar svalue uvalue)).Within uvalue
      (.range lb ub) :=
    within_overflowBounds copied different.symm
  rw [copyUvalue, overflowUnsigned_of_within signed ordered nonneg small top]
  exact signed

/-- No assignment is represented behind an empty interval. -/
theorem setSvalue_isBottom (empty : interval.IsBottom) :
    setSvalue svalue uvalue interval finiteWidth inv = none := by
  rw [setSvalue, AddBottom.set_isBottom empty, AddBottom.assignVar, AddBottom.assign,
    Option.map_none, overflowSigned, overflowUnsigned, overflowBounds_none, overflowBounds_none]

theorem setUvalue_isBottom (empty : interval.IsBottom) :
    setUvalue svalue uvalue interval finiteWidth inv = none := by
  rw [setUvalue, copyUvalue, AddBottom.set_isBottom empty, AddBottom.assignVar, AddBottom.assign,
    Option.map_none, overflowSigned, overflowUnsigned, overflowBounds_none, overflowBounds_none]

/-- A word of the width behind the assignment of a range of words is in the range. -/
theorem mem_of_setUvalue {lb ub : Int} (different : svalue ≠ uvalue) (nonneg : 0 ≤ lb)
    (top : ub < 2 ^ finiteWidth)
    (represents : (setUvalue svalue uvalue (.range lb ub) finiteWidth inv).Represents values)
    (wordNonneg : 0 ≤ values uvalue) (wordSmall : values uvalue < 2 ^ finiteWidth) :
    values uvalue ∈ Interval.range lb ub := by
  by_cases ordered : lb ≤ ub
  · by_cases small : ub - lb < 2 ^ finiteWidth - 1
    · have within := within_copyUvalue (@AddBottom.within_set V _ inv _ uvalue) different ordered
        nonneg small top
      exact within.mem (Interval.mem_range.mpr ⟨le_refl _, ordered⟩) represents
    · rw [Interval.mem_range]
      omega
  · rw [setUvalue_isBottom (Interval.isBottom_range.mpr (not_le.mp ordered))] at represents
    rcases represents with ⟨_, impossible, _⟩
    cases impossible

/-! ## Without bounds -/

/-- No range contains an interval. -/
def Unbounded (interval : Interval) : Prop := forall lb ub : Int, ∃ n ∈ interval, n < lb ∨ ub < n

theorem overflowBounds_of_unbounded (unbounded : Unbounded (inv.getInterval lhs)) :
    overflowBounds lhs span finiteWidth isSigned inv = inv.forget lhs := by
  rw [overflowBounds]
  dsimp only
  split
  · rename_i lb ub isLower isUpper
    rcases unbounded lb ub with ⟨n, inside, outside⟩
    rw [Interval.mem_def, Bound.number_eq_some.mp isLower, Bound.number_eq_some.mp isUpper,
      Bound.ofNumber_le_ofNumber, Bound.ofNumber_le_ofNumber] at inside
    omega
  · rfl

/-- An assignment of the unsigned variable is one of both variables when it is
copied. -/
theorem represents_copied (svalue : V) {n : Int}
    (represents : inv.Represents (Function.update values uvalue n)) :
    (inv.assignVar svalue uvalue).Represents
      (Function.update (Function.update values uvalue n) svalue n) := by
  have assigned := AddBottom.represents_assignVar svalue uvalue represents
  rwa [Function.update_self] at assigned

/-- Where no range contains the values of the unsigned variable, nothing stays known
of the two variables. -/
theorem represents_copyUvalue_of_unbounded (different : svalue ≠ uvalue)
    (represents : ∀ n ∈ interval, inv.Represents (Function.update values uvalue n))
    (unbounded : Unbounded interval) (word : BitVec 64) :
    (copyUvalue svalue uvalue finiteWidth inv).Represents (withWord values word svalue uvalue) := by
  have signedForgotten : overflowSigned svalue finiteWidth (inv.assignVar svalue uvalue) =
      (inv.assignVar svalue uvalue).forget svalue := by
    apply overflowBounds_of_unbounded
    intro lb ub
    rcases unbounded lb ub with ⟨n, inside, outside⟩
    refine ⟨n, ?_, outside⟩
    have member := AddBottom.mem_getInterval (represents_copied svalue (represents n inside)) svalue
    rwa [Function.update_self] at member
  have unsignedForgotten : overflowUnsigned uvalue finiteWidth
      ((inv.assignVar svalue uvalue).forget svalue) =
      ((inv.assignVar svalue uvalue).forget svalue).forget uvalue := by
    apply overflowBounds_of_unbounded
    intro lb ub
    rcases unbounded lb ub with ⟨n, inside, outside⟩
    refine ⟨n, ?_, outside⟩
    have member := AddBottom.mem_getInterval
      (represents_forget_same svalue (represents_copied svalue (represents n inside))) uvalue
    rwa [Function.update_of_ne different.symm, Function.update_self] at member
  rcases unbounded 0 0 with ⟨n, inside, _⟩
  have forgotten := AddBottom.represents_forget uvalue word.toNat
    (AddBottom.represents_forget svalue word.toInt (represents_copied svalue (represents n inside)))
  rw [<- withWord, withWord_update_signed, withWord_update_unsigned _ _ _ different] at forgotten
  rw [copyUvalue, signedForgotten, unsignedForgotten]
  exact forgotten

/-! ## Between bounds that are attained -/

/-- The numbers between the bounds when these are wrapped around, or all numbers where
the bounds are as far apart as the range or cross. -/
def Wraps (isSigned : Bool) (finiteWidth : Nat) (lb ub n : Int) : Prop :=
  IntType.max ⟨false, finiteWidth⟩ ≤ ub - lb ∨
    wrapNumber isSigned finiteWidth ub < wrapNumber isSigned finiteWidth lb ∨
      n ∈ Interval.range (wrapNumber isSigned finiteWidth lb) (wrapNumber isSigned finiteWidth ub)

/-- A variable has bounds and takes all numbers between them. -/
structure Attains (inv : AddBottom V) (x : V) (lb ub : Int) : Prop where
  ordered : lb ≤ ub
  within : inv.Within x (.range lb ub)
  attained : ∀ n ∈ Interval.range lb ub, exists values, inv.Represents values ∧ values x = n

/-- The explicit bounds of a variable admit only numbers with a property. -/
def Enforces (inv : AddBottom V) (x : V) (property : Int -> Prop) : Prop :=
  (forall n, property n) ∨
    exists interval : Interval, (exists n, n ∈ interval) ∧ (∀ n ∈ interval, property n) ∧
    inv.Within x interval

section Attained

variable {lb ub : Int} {property : Int -> Prop}

theorem Enforces.holds (enforces : Enforces inv x property) (represents : inv.Represents values) :
    property (values x) := by
  rcases enforces with everything | ⟨interval, ⟨n, inhabited⟩, implies, within⟩
  · exact everything _
  · exact implies _ (within.mem inhabited represents)

theorem Enforces.mono {after : AddBottom V} (enforces : Enforces inv x property)
    (kept : forall interval, inv.Within x interval -> after.Within x interval) :
    Enforces after x property := by
  rcases enforces with everything | ⟨interval, inhabited, implies, within⟩
  · exact Or.inl everything
  · exact Or.inr ⟨interval, inhabited, implies, kept interval within⟩

theorem Attains.getInterval (attains : Attains inv x lb ub) : inv.getInterval x = .range lb ub := by
  have member : ∀ n ∈ Interval.range lb ub, n ∈ inv.getInterval x := by
    intro n inside
    rcases attains.attained n inside with ⟨values, represents, rfl⟩
    exact AddBottom.mem_getInterval represents x
  have lower := member lb (Interval.mem_range.mpr ⟨le_refl _, attains.ordered⟩)
  have upper := member ub (Interval.mem_range.mpr ⟨attains.ordered, le_refl _⟩)
  have nonempty : inv ≠ none := by
    rcases attains.attained lb (Interval.mem_range.mpr ⟨le_refl _, attains.ordered⟩) with
      ⟨_, ⟨s, rfl, _⟩, _⟩
    exact Option.some_ne_none s
  rcases attains.within.getInterval_eq attains.ordered nonempty with ⟨l, u, known, above, _, below⟩
  rw [known, Interval.mem_def, Bound.ofNumber_le_ofNumber,
    Bound.ofNumber_le_ofNumber] at lower upper
  have sameLower : l = lb := le_antisymm lower.1 above
  have sameUpper : u = ub := le_antisymm below upper.2
  rw [known, sameLower, sameUpper, Interval.range_eq attains.ordered]

/-- What `overflow_bounds` does to a variable between bounds. -/
theorem overflowBounds_cases (attains : Attains inv x lb ub) :
    (overflowBounds x (IntType.max ⟨false, finiteWidth⟩) finiteWidth isSigned inv = inv.forget x ∧
        forall n, Wraps isSigned finiteWidth lb ub n) ∨
      ((overflowBounds x (IntType.max ⟨false, finiteWidth⟩) finiteWidth isSigned inv =
          inv.set x (.range (wrapNumber isSigned finiteWidth lb)
          (wrapNumber isSigned finiteWidth ub)) ∨
        (overflowBounds x (IntType.max ⟨false, finiteWidth⟩) finiteWidth isSigned inv = inv ∧
          Interval.range (wrapNumber isSigned finiteWidth lb) (wrapNumber isSigned finiteWidth ub) =
          .range lb ub)) ∧
        wrapNumber isSigned finiteWidth lb ≤ wrapNumber isSigned finiteWidth ub ∧
          ub - lb < IntType.max ⟨false, finiteWidth⟩) := by
  rw [overflowBounds, attains.getInterval, Interval.range_eq attains.ordered]
  dsimp only [Bound.number]
  split
  · rename_i wide
    exact Or.inl ⟨rfl, fun _ => Or.inl wide⟩
  rename_i narrow
  have inhabited : ¬ (⟨.ofNumber lb, .ofNumber ub⟩ : Interval).IsBottom := by
    rw [<- Interval.range_eq attains.ordered, Interval.isBottom_range]
    exact not_lt.mpr attains.ordered
  rw [if_neg inhabited]
  split
  · rename_i crossed
    exact Or.inl ⟨rfl, fun _ => Or.inr (Or.inl crossed)⟩
  rename_i kept
  refine Or.inr ⟨?_, not_lt.mp kept, not_le.mp narrow⟩
  split
  · exact Or.inl rfl
  · rename_i same
    exact Or.inr ⟨rfl, not_ne_iff.mp same⟩

/-- A number that the wrapped bounds admit may be the value of the variable. -/
theorem represents_of_wraps (attains : Attains inv x lb ub) (represents : inv.Represents values)
    (wraps : Wraps isSigned finiteWidth lb ub n) (same : n ∈ Interval.range lb ub -> values x = n) :
    (overflowBounds x (IntType.max ⟨false, finiteWidth⟩) finiteWidth isSigned inv).Represents
      (Function.update values x n) := by
  rcases @overflowBounds_cases _ _ _ _ finiteWidth isSigned _ _ attains with ⟨forgotten, _⟩ |
    ⟨result, ordered, narrow⟩
  · rw [forgotten]
    exact AddBottom.represents_forget x n represents
  · have inside : n ∈ Interval.range (wrapNumber isSigned finiteWidth lb)
        (wrapNumber isSigned finiteWidth ub) := by
      rcases wraps with wide | crossed | inside
      · exact absurd wide (not_le.mpr narrow)
      · exact absurd crossed (not_lt.mpr ordered)
      · exact inside
    rcases result with assigned | ⟨unchanged, range⟩
    · rw [assigned]
      exact AddBottom.represents_set_update x represents inside
    · rw [range] at inside
      rw [unchanged, <- same inside, Function.update_eq_self]
      exact represents

/-- The bounds that `overflow_bounds` leaves admit no other number. -/
theorem enforces_overflowBounds (attains : Attains inv x lb ub) :
    Enforces (overflowBounds x (IntType.max ⟨false, finiteWidth⟩) finiteWidth isSigned inv) x
      (Wraps isSigned finiteWidth lb ub) := by
  rcases @overflowBounds_cases _ _ _ _ finiteWidth isSigned _ _ attains with ⟨_, everything⟩ |
    ⟨result, ordered, _⟩
  · exact Or.inl everything
  · refine Or.inr ⟨_, ⟨_, Interval.mem_range.mpr ⟨le_refl _, ordered⟩⟩, fun n inside =>
      Or.inr (Or.inr inside), ?_⟩
    rcases result with assigned | ⟨unchanged, range⟩
    · rw [assigned]
      exact AddBottom.within_set x
    · rw [unchanged, range]
      exact attains.within

theorem Attains.copied (attains : Attains inv uvalue lb ub) (svalue : V) :
    Attains (inv.assignVar svalue uvalue) svalue lb ub := by
  refine ⟨attains.ordered, ?_, fun n inside => ?_⟩
  · have bounded := @AddBottom.within_assign V _ inv _ svalue
      (LinearExpression.wellFormed_var uvalue)
    rwa [AddBottom.evalInterval_var, attains.getInterval] at bounded
  · rcases attains.attained n inside with ⟨values, represents, rfl⟩
    exact ⟨_, AddBottom.represents_assignVar svalue uvalue represents, Function.update_self ..⟩

theorem Attains.overflowSigned (attains : Attains inv uvalue lb ub)
    (width : finiteWidth = 32 ∨ finiteWidth = 64) (different : svalue ≠ uvalue) :
    Attains (overflowSigned svalue finiteWidth (inv.assignVar svalue uvalue)) uvalue lb ub := by
  refine ⟨attains.ordered, ?_, fun n inside => ?_⟩
  · exact within_overflowBounds
      (attains.within.assign (LinearExpression.wellFormed_var uvalue) different.symm)
      different.symm
  · rcases attains.attained n inside with ⟨values, represents, rfl⟩
    refine ⟨_, represents_overflowBounds width
      (AddBottom.represents_assignVar svalue uvalue represents), ?_⟩
    rw [Function.update_of_ne different.symm, Function.update_of_ne different.symm]

/-- Behind the copy, both variables are between the wrapped bounds. -/
theorem enforces_copyUvalue (width : finiteWidth = 32 ∨ finiteWidth = 64)
    (different : svalue ≠ uvalue) (attains : Attains inv uvalue lb ub) :
    Enforces (copyUvalue svalue uvalue finiteWidth inv) svalue (Wraps true finiteWidth lb ub) ∧
      Enforces (copyUvalue svalue uvalue finiteWidth inv) uvalue
      (Wraps false finiteWidth lb ub) := by
  have signed : Enforces (overflowSigned svalue finiteWidth (inv.assignVar svalue uvalue)) svalue
      (Wraps true finiteWidth lb ub) := enforces_overflowBounds (attains.copied svalue)
  exact ⟨signed.mono (fun _ within => within_overflowBounds within different),
    enforces_overflowBounds (attains.overflowSigned width different)⟩

/-- A word that the wrapped bounds of both variables admit, without a sign. -/
theorem copyUvalue_of_wraps (width : finiteWidth = 32 ∨ finiteWidth = 64)
    (different : svalue ≠ uvalue) (attains : Attains inv uvalue lb ub)
    (represents : ∀ n ∈ Interval.range lb ub, inv.Represents (Function.update values uvalue n))
    {word : BitVec 64}
    (same : word.toInt = word.toNat) (signed : Wraps true finiteWidth lb ub word.toInt)
    (unsigned : Wraps false finiteWidth lb ub word.toNat) :
    (copyUvalue svalue uvalue finiteWidth inv).Represents (withWord values word svalue uvalue) := by
  rw [same] at signed
  have somewhere : exists x, x ∈ Interval.range lb ub ∧
      ((word.toNat : Int) ∈ Interval.range lb ub -> x = (word.toNat : Int)) := by
    by_cases inside : (word.toNat : Int) ∈ Interval.range lb ub
    · exact ⟨_, inside, fun _ => rfl⟩
    · exact ⟨lb, Interval.mem_range.mpr ⟨le_refl _, attains.ordered⟩, fun impossible =>
        absurd impossible inside⟩
  rcases somewhere with ⟨x, inside, agrees⟩
  have first : (overflowSigned svalue finiteWidth (inv.assignVar svalue uvalue)).Represents
      (Function.update _ svalue (word.toNat : Int)) :=
    represents_of_wraps (attains.copied svalue)
      (represents_copied svalue (represents x inside)) signed
      (fun member => (Function.update_self ..).trans (agrees member))
  have second : (copyUvalue svalue uvalue finiteWidth inv).Represents
      (Function.update _ uvalue (word.toNat : Int)) :=
    represents_of_wraps (attains.overflowSigned width different) first unsigned (fun member => by
      rw [Function.update_of_ne different.symm, Function.update_of_ne different.symm,
        Function.update_self, agrees member])
  rw [<- withWord_update_unsigned values word x different, withWord, same]
  rwa [Function.update_idem] at second

end Attained

end Overflow

section Words

theorem fits_toInt (word : BitVec 64) : IntType.int64.Fits word.toInt := by
  have cases := Word.toInt_cases word
  constructor
  · change -2 ^ 63 ≤ word.toInt
    omega
  · change word.toInt ≤ 2 ^ 63 - 1
    omega

theorem finiteWidth_cases (is64 : Bool) :
    (if is64 then 64 else 32) = 32 ∨ (if is64 then 64 else 32) = 64 := by
  cases is64
  · exact Or.inl rfl
  · exact Or.inr rfl

/-- Words that wrap around to themselves. -/
theorem wrappedWord_toInt {is64 : Bool} {word : BitVec 64}
    (small : is64 = true ∨ (0 ≤ word.toInt ∧ word.toInt < 2 ^ 32)) :
    wrappedWord (if is64 then 64 else 32) word.toInt = word := by
  apply BitVec.eq_of_toNat_eq
  have cases := Word.toInt_cases word
  have wrapped := toNat_wrappedWord (finiteWidth_cases is64) word.toInt
  rcases small with rfl | ⟨nonneg, below⟩
  · simp only [if_true] at wrapped ⊢
    omega
  · cases is64 <;> simp only [if_true, Bool.false_eq_true, if_false] at wrapped ⊢ <;> omega

end Words

section Registers

variable [LinearOrder Variable]

-- Equality of variables is decided by their order, as in the numerical states.
attribute [local instance(2000)] LinearOrder.toDecidableEq

/-- The variables that `havoc_offsets` forgets. -/
def offsetVariables (reg : Reg) : List Variable :=
  let r := regPack reg
  [r.ctxOffset, r.mapFd, r.packetOffset, r.sharedOffset, r.sharedRegionSize, r.stackOffset,
    r.stackNumericSize]

def havocOffsets (reg : Reg) (inv : AddBottom Variable) : AddBottom Variable :=
  (offsetVariables reg).foldl (fun inv offset => inv.forget offset) inv

def typeIsNumber (reg : Reg) : LinearConstraint Variable :=
  .eq (.var (regPack reg).type) (.const TypeEncoding.num.value)

/-- The state entails that a register holds a number. -/
def isNumber (reg : Reg) (inv : AddBottom Variable) : Bool := inv.entail (typeIsNumber reg)

def assignType (reg : Reg) (type : TypeEncoding) (inv : AddBottom Variable) : AddBottom Variable :=
  inv.assignConst (regPack reg).type type.value

/-- The two variables of a register have the readings of a word. -/
def HoldsWord (values : Variable -> Int) (reg : Reg) (word : BitVec 64) : Prop :=
  values (regPack reg).svalue = word.toInt ∧ values (regPack reg).uvalue = word.toNat

/-- The assignment with a word in a register. -/
def putWord (values : Variable -> Int) (reg : Reg) (word : BitVec 64) : Variable -> Int :=
  withWord values word (regPack reg).svalue (regPack reg).uvalue

variable {inv : AddBottom Variable} {values : Variable -> Int} {reg : Reg} {word : BitVec 64}

omit [LinearOrder Variable] in
theorem svalue_ne_uvalue (reg : Reg) : (regPack reg).svalue ≠ (regPack reg).uvalue := by
  simp [RegPack.svalue, RegPack.uvalue]

@[simp] theorem putWord_svalue : putWord values reg word (regPack reg).svalue = word.toInt := by
  rw [putWord, withWord, Function.update_of_ne (svalue_ne_uvalue reg), Function.update_self]

@[simp] theorem putWord_uvalue : putWord values reg word (regPack reg).uvalue = word.toNat :=
  Function.update_self ..

@[simp] theorem putWord_type :
    putWord values reg word (regPack reg).type = values (regPack reg).type := by
  rw [putWord, withWord, Function.update_of_ne (by simp [RegPack.type, RegPack.uvalue]),
    Function.update_of_ne (by simp [RegPack.type, RegPack.svalue])]

@[simp] theorem putWord_putWord (last : BitVec 64) :
    putWord (putWord values reg word) reg last = putWord values reg last := by
  rw [putWord, putWord, withWord.eq_def values,
    withWord_update_unsigned _ _ _ (svalue_ne_uvalue reg), withWord_update_signed,
    putWord]

theorem mem_evalVar (represents : inv.Represents values) (x : Variable) :
    values x ∈ inv.evalInterval (.var x) := by
  have member := AddBottom.mem_evalInterval represents (.var x)
  rwa [LinearExpression.eval_var] at member

/-- A word of a register that is left alone, read with the type of a number. -/
theorem putWord_of_holdsWord (holds : HoldsWord values reg word)
    (typed : values (regPack reg).type = TypeEncoding.num.value) :
    putWord (Function.update values (regPack reg).type TypeEncoding.num.value) reg
      word = values := by
  rw [<- typed, Function.update_eq_self, putWord, withWord, <- holds.1,
    Function.update_eq_self, <- holds.2, Function.update_eq_self]

theorem type_of_isNumber (number : isNumber reg inv = true) (represents : inv.Represents values) :
    values (regPack reg).type = TypeEncoding.num.value := by
  have wellFormed : (typeIsNumber reg).expression.WellFormed := by
    apply LinearExpression.WellFormed.plus
    exact LinearExpression.wellFormed_var _
  have holds := AddBottom.holds_of_entail wellFormed number represents
  rwa [typeIsNumber, LinearConstraint.holds_eq, LinearExpression.eval_var,
    LinearExpression.eval_const] at holds

omit [LinearOrder Variable] in
theorem ne_offsetVariables {reg : Reg} {x : Variable}
    (reading : x = (regPack reg).svalue ∨ x = (regPack reg).uvalue) :
    ∀ offset ∈ offsetVariables reg, x ≠ offset := by
  intro offset member
  rcases reading with rfl | rfl <;> simp [offsetVariables, regPack] at member <;>
    rcases member with rfl | rfl | rfl | rfl | rfl | rfl | rfl <;> exact fun same => nomatch same

theorem within_havocOffsets {x : Variable} {interval : Interval}
    (reading : x = (regPack reg).svalue ∨ x = (regPack reg).uvalue)
    (within : inv.Within x interval) :
    (havocOffsets reg inv).Within x interval := by
  have others := ne_offsetVariables reading
  rw [havocOffsets]
  revert others
  generalize offsetVariables reg = offsets
  intro others
  induction offsets generalizing inv with
  | nil => exact within
  | cons offset rest inductionHypothesis =>
      have kept := within.forget (others offset List.mem_cons_self)
      exact inductionHypothesis kept
        (fun other member => others other (List.mem_cons_of_mem _ member))

theorem represents_havocOffsets (reg : Reg) (represents : inv.Represents values) :
    (havocOffsets reg inv).Represents values := by
  rw [havocOffsets]
  induction offsetVariables reg generalizing inv with
  | nil => exact represents
  | cons offset rest inductionHypothesis =>
    exact inductionHypothesis (represents_forget_same offset represents)

end Registers

section NumberState

attribute [local instance] Variable.variableOrder
attribute [local instance(2000)] LinearOrder.toDecidableEq

/-- A state in which `r1` holds a number between given bounds. -/
def numberState (svalues uvalues : Interval) : AddBottom Variable :=
  AddBottom.set (regPack ⟨1⟩).uvalue uvalues
    (AddBottom.set (regPack ⟨1⟩).svalue svalues (assignType ⟨1⟩ .num .top))

/-- The assignment in which `r1` holds a word. -/
def numberValues (word : BitVec 64) : Variable -> Int :=
  putWord (Function.update (fun _ => 0) (regPack ⟨1⟩).type TypeEncoding.num.value) ⟨1⟩ word

theorem represents_numberState {svalues uvalues : Interval} {word : BitVec 64}
    (signed : word.toInt ∈ svalues)
    (unsigned : (word.toNat : Int) ∈ uvalues) :
    (numberState svalues uvalues).Represents (numberValues word) := by
  apply AddBottom.represents_set_update _ _ unsigned
  apply AddBottom.represents_set_update _ _ signed
  exact AddBottom.represents_assignConst _ _ (AddBottom.represents_top _)

theorem holdsWord_numberValues (word : BitVec 64) : HoldsWord (numberValues word) ⟨1⟩ word :=
  ⟨putWord_svalue, putWord_uvalue⟩

end NumberState

end Ebpf
end Prevail
