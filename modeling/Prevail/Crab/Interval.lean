import Mathlib

namespace Prevail
namespace Crab

/-!
# Machine integers and intervals

`interval_t` of `crab/interval.hpp`, over the unbounded integers of
`crab_utils/num_big.hpp` with the two infinities of `num_extended.hpp`.  Only
the operations that the analysis of conditions, of accesses and of the stack
uses are here.

A C++ integer type is a width with a sign.  `truncate_to` wraps every number
into the type; `cast_to` throws for a number that neither the type nor the type
of the other sign contains.
-/

/-- A C++ integer type. -/
structure IntType where
  isSigned : Bool
  width : Nat
  deriving DecidableEq

namespace IntType

def int32 : IntType := ⟨true, 32⟩
def int64 : IntType := ⟨true, 64⟩
def uint32 : IntType := ⟨false, 32⟩
def uint64 : IntType := ⟨false, 64⟩

def min (type : IntType) : Int := if type.isSigned then -2 ^ (type.width - 1) else 0

def max (type : IntType) : Int := if type.isSigned then 2 ^ (type.width - 1) - 1
    else 2 ^ type.width - 1

def swapSignedness (type : IntType) : IntType := { type with isSigned := !type.isSigned }

def Fits (type : IntType) (n : Int) : Prop := type.min ≤ n ∧ n ≤ type.max

instance (type : IntType) (n : Int) : Decidable (type.Fits n) := inferInstanceAs (Decidable (_ ∧ _))

/-- `number_t::fits_cast_to`. -/
def FitsCast (type : IntType) (n : Int) : Prop := type.Fits n ∨ type.swapSignedness.Fits n

instance (type : IntType) (n : Int) : Decidable (type.FitsCast n) :=
  inferInstanceAs (Decidable (_ ∨ _))

/-- `number_t::truncate_to`. -/
def truncate (type : IntType) (n : Int) : Int :=
  if type.isSigned then n.bmod (2 ^ type.width) else n % 2 ^ type.width

/-- `number_t::cast_to`. -/
def cast (type : IntType) (n : Int) : Option Int :=
  if type.FitsCast n then some (type.truncate n) else none

end IntType

/-- `extended_number`. -/
inductive Bound where
  | minusInfinity
  | ofNumber (n : Int)
  | plusInfinity
  deriving DecidableEq

namespace Bound

/-- `operator<=` of `extended_number`. -/
def Le : Bound -> Bound -> Prop
  | minusInfinity, _ => True
  | _, plusInfinity => True
  | ofNumber m, ofNumber n => m ≤ n
  | _, _ => False

instance decidableLe : (left right : Bound) -> Decidable (Le left right)
  | minusInfinity, _ => .isTrue (by simp [Le])
  | ofNumber _, plusInfinity => .isTrue trivial
  | plusInfinity, plusInfinity => .isTrue trivial
  | ofNumber m, ofNumber n => inferInstanceAs (Decidable (m ≤ n))
  | ofNumber _, minusInfinity => .isFalse id
  | plusInfinity, minusInfinity => .isFalse id
  | plusInfinity, ofNumber _ => .isFalse id

instance : LinearOrder Bound where
  le := Le
  le_refl bound := by cases bound <;> simp [Le]
  le_trans first second third below above := by
    cases first <;> cases second <;> cases third <;> simp_all [Le]
    omega
  le_antisymm left right below above := by
    cases left <;> cases right <;> simp_all [Le]
    omega
  le_total left right := by
    cases left <;> cases right <;> simp [Le]
    omega
  toDecidableLE := decidableLe

def number : Bound -> Option Int
  | ofNumber n => some n
  | _ => none

@[simp] theorem number_ofNumber (n : Int) : number (ofNumber n) = some n := rfl

theorem number_eq_some {bound : Bound} {n : Int} : bound.number = some n ↔ bound = ofNumber n := by
  cases bound <;> simp [number]

@[simp] theorem ofNumber_le_ofNumber {m n : Int} : ofNumber m ≤ ofNumber n ↔ m ≤ n := Iff.rfl

@[simp] theorem ofNumber_lt_ofNumber {m n : Int} : ofNumber m < ofNumber n ↔ m < n := by
  rw [← not_le, ofNumber_le_ofNumber, not_le]

@[simp] theorem minusInfinity_le (bound : Bound) : minusInfinity ≤ bound := by
  cases bound <;> trivial

@[simp] theorem le_plusInfinity (bound : Bound) : bound ≤ plusInfinity := by
  cases bound <;> trivial

@[simp] theorem not_plusInfinity_le (n : Int) : ¬ plusInfinity ≤ ofNumber n := id

@[simp] theorem not_le_minusInfinity (n : Int) : ¬ ofNumber n ≤ minusInfinity := id

@[simp] theorem not_plusInfinity_le_minusInfinity : ¬ plusInfinity ≤ minusInfinity := id

end Bound

structure Interval where
  lb : Bound
  ub : Bound
  deriving DecidableEq

namespace Interval

def bottom : Interval := ⟨.ofNumber 0, .ofNumber (-1)⟩

def top : Interval := ⟨.minusInfinity, .plusInfinity⟩

/-- The constructor from two bounds. -/
def mk' (lb ub : Bound) : Interval := if lb > ub then bottom else ⟨lb, ub⟩

/-- The constructor from two numbers. -/
def range (lb ub : Int) : Interval := mk' (.ofNumber lb) (.ofNumber ub)

/-- The constructor from a bound. -/
def ofBound (bound : Bound) : Interval :=
  match bound.number with
  | some n => ⟨.ofNumber n, .ofNumber n⟩
  | none => bottom

/-- The constructor from a number. -/
def ofNumber (n : Int) : Interval := ⟨.ofNumber n, .ofNumber n⟩

def IsBottom (interval : Interval) : Prop := interval.lb > interval.ub

instance (interval : Interval) : Decidable interval.IsBottom := inferInstanceAs (Decidable (_ > _))

def IsTop (interval : Interval) : Prop := interval.lb.number = none ∧ interval.ub.number = none

instance (interval : Interval) : Decidable interval.IsTop := inferInstanceAs (Decidable (_ ∧ _))

/-- `operator<=`. -/
def Le (left right : Interval) : Prop :=
  left.IsBottom ∨ (¬ right.IsBottom ∧ right.lb ≤ left.lb ∧ left.ub ≤ right.ub)

instance : LE Interval := ⟨Le⟩

instance (left right : Interval) : Decidable (left ≤ right) := inferInstanceAs (Decidable (_ ∨ _))

/-- `operator|`. -/
def join (left right : Interval) : Interval :=
  if left.IsBottom then right
  else if right.IsBottom then left
  else mk' (min left.lb right.lb) (max left.ub right.ub)

/-- `operator&`. -/
def meet (left right : Interval) : Interval :=
  if left.IsBottom ∨ right.IsBottom then bottom
  else mk' (max left.lb right.lb) (min left.ub right.ub)

def singleton (interval : Interval) : Option Int :=
  if ¬ interval.IsBottom ∧ interval.lb = interval.ub then interval.lb.number else none

/-- `interval_t::finite_size`.  For an interval whose bounds are one and the
same infinity the source throws; no operation makes such an interval. -/
def finiteSize (interval : Interval) : Option Int :=
  match interval.lb.number, interval.ub.number with
  | some lb, some ub => some (ub - lb)
  | _, _ => none

def full (type : IntType) : Interval := range type.min type.max

def truncateTo (type : IntType) (interval : Interval) : Interval :=
  if interval ≤ full type then interval
  else
    match interval.lb.number, interval.ub.number with
    | some lb, some ub =>
        if type.Fits (ub - lb) ∧ type.truncate lb ≤ type.truncate ub then
          range (type.truncate lb) (type.truncate ub)
        else full type
    | _, _ => full type

def signedInt (width : Nat) : Interval := full ⟨true, width⟩

def unsignedInt (width : Nat) : Interval := full ⟨false, width⟩

def nonnegative (width : Nat) : Interval := range 0 (IntType.max ⟨true, width⟩)

def negative (width : Nat) : Interval := range (IntType.min ⟨true, width⟩) (-1)

def unsignedHigh (width : Nat) : Interval :=
  range (IntType.max ⟨true, width⟩ + 1) (IntType.max ⟨false, width⟩)

/-- `interval_t::contains`. -/
instance : Membership Int Interval :=
  ⟨fun interval n => interval.lb ≤ .ofNumber n ∧ .ofNumber n ≤ interval.ub⟩

instance (n : Int) (interval : Interval) : Decidable (n ∈ interval) :=
  inferInstanceAs (Decidable (_ ∧ _))

/-! ## Membership -/

theorem mem_def {n : Int} {interval : Interval} :
    n ∈ interval ↔ interval.lb ≤ .ofNumber n ∧ .ofNumber n ≤ interval.ub := Iff.rfl

theorem not_isBottom_of_mem {n : Int} {interval : Interval} (member : n ∈ interval) :
    ¬ interval.IsBottom :=
  not_lt_of_ge (member.1.trans member.2)

@[simp] theorem mem_range {n lb ub : Int} : n ∈ range lb ub ↔ lb ≤ n ∧ n ≤ ub := by
  unfold range mk'
  split
  · rename_i inverted
    rw [gt_iff_lt, Bound.ofNumber_lt_ofNumber] at inverted
    simp only [mem_def, bottom, Bound.ofNumber_le_ofNumber]
    omega
  · simp [mem_def]

theorem mem_of_le {n : Int} {small large : Interval} (below : small ≤ large) (member : n ∈ small) :
    n ∈ large := by
  rcases below with empty | ⟨_, lower, upper⟩
  · exact absurd empty (not_isBottom_of_mem member)
  · exact ⟨lower.trans member.1, member.2.trans upper⟩

theorem mem_mk' {n : Int} {lb ub : Bound} (lower : lb ≤ .ofNumber n) (upper : .ofNumber n ≤ ub) :
    n ∈ mk' lb ub := by
  unfold mk'
  rw [if_neg (not_lt_of_ge (lower.trans upper))]
  exact ⟨lower, upper⟩

theorem mem_join {n : Int} {left right : Interval} (member : n ∈ left ∨ n ∈ right) :
    n ∈ left.join right := by
  unfold join
  split
  · rename_i empty
    exact member.resolve_left (fun inLeft => not_isBottom_of_mem inLeft empty)
  · split
    · rename_i empty
      exact member.resolve_right (fun inRight => not_isBottom_of_mem inRight empty)
    · rcases member with inLeft | inRight
      · exact mem_mk' ((min_le_left _ _).trans inLeft.1) (inLeft.2.trans (le_max_left _ _))
      · exact mem_mk' ((min_le_right _ _).trans inRight.1) (inRight.2.trans (le_max_right _ _))

theorem mem_meet {n : Int} {left right : Interval} (inLeft : n ∈ left) (inRight : n ∈ right) :
    n ∈ left.meet right := by
  unfold meet
  rw [if_neg (not_or.mpr ⟨not_isBottom_of_mem inLeft, not_isBottom_of_mem inRight⟩)]
  exact mem_mk' (max_le inLeft.1 inRight.1) (le_min inLeft.2 inRight.2)

theorem eq_of_singleton {n k : Int} {interval : Interval} (single : interval.singleton = some k)
    (member : n ∈ interval) : n = k := by
  unfold singleton at single
  split at single
  · rename_i equal
    have bound := Bound.number_eq_some.mp single
    have lower := member.1
    have upper := member.2
    rw [← equal.2] at upper
    rw [bound, Bound.ofNumber_le_ofNumber] at lower upper
    omega
  · cases single

/-- Numbers in disjoint intervals are ordered as the intervals are. -/
theorem lt_of_ub_lt_lb {m n : Int} {left right : Interval} (inLeft : m ∈ left) (inRight : n ∈ right)
    (below : left.ub < right.lb) : m < n :=
  Bound.ofNumber_lt_ofNumber.mp ((inLeft.2.trans_lt below).trans_le inRight.1)

theorem le_of_ub_le_lb {m n : Int} {left right : Interval} (inLeft : m ∈ left) (inRight : n ∈ right)
    (below : left.ub ≤ right.lb) : m ≤ n :=
  Bound.ofNumber_le_ofNumber.mp ((inLeft.2.trans below).trans inRight.1)

end Interval

/-! ## Truncation -/

namespace IntType

variable {type : IntType}

/-- A type contains one number of each residue class. -/
theorem span (positive : 0 < type.width) : type.max - type.min = 2 ^ type.width - 1 := by
  rcases type with ⟨isSigned, width⟩
  rcases Nat.exists_eq_succ_of_ne_zero positive.ne' with ⟨half, rfl⟩
  cases isSigned
  · simp [max, min]
  · simp only [max, min, if_true, Nat.succ_sub_one, pow_succ]
    ring

theorem truncate_fits (positive : 0 < type.width) (n : Int) : type.Fits (type.truncate n) := by
  rcases type with ⟨isSigned, width⟩
  rcases Nat.exists_eq_succ_of_ne_zero positive.ne' with ⟨half, rfl⟩
  have modulus : (0 : Int) < 2 ^ half := by positivity
  cases isSigned
  · simp only [Fits, truncate, max, min, Bool.false_eq_true, if_false]
    have lower := Int.emod_nonneg n (show (2 : Int) ^ (half + 1) ≠ 0 by positivity)
    have upper := Int.emod_lt_of_pos n (show (0 : Int) < 2 ^ (half + 1) by positivity)
    omega
  · simp only [Fits, truncate, max, min, if_true, Nat.succ_sub_one]
    have lower := @Int.le_bmod n (2 ^ (half + 1)) (by positivity)
    have upper := @Int.bmod_lt n (2 ^ (half + 1)) (by positivity)
    push_cast [pow_succ] at lower upper
    rw [pow_succ]
    omega

theorem dvd_sub_truncate (type : IntType) (n : Int) :
    (2 ^ type.width : Int) ∣ n - type.truncate n := by
  unfold truncate
  split
  · have same := @Int.bmod_add_bdiv n (2 ^ type.width)
    refine ⟨n.bdiv (2 ^ type.width), ?_⟩
    push_cast at same
    linarith
  · exact Int.dvd_self_sub_emod

/-- The number of the type in the residue class of a given number. -/
theorem truncate_eq (positive : 0 < type.width) {n k : Int} (fits : type.Fits k)
    (congruent : (2 ^ type.width : Int) ∣ n - k) : type.truncate n = k := by
  have span := span positive
  have truncated := truncate_fits positive n
  have difference : (2 ^ type.width : Int) ∣ type.truncate n - k := by
    have both := dvd_sub congruent (dvd_sub_truncate type n)
    rwa [sub_sub_sub_cancel_left] at both
  have small : |type.truncate n - k| < 2 ^ type.width := by
    rw [abs_lt]
    unfold Fits at fits truncated
    constructor <;> linarith
  exact sub_eq_zero.mp (Int.eq_zero_of_abs_lt_dvd difference small)

theorem truncate_of_fits (positive : 0 < type.width) {n : Int} (fits : type.Fits n) :
    type.truncate n = n :=
  truncate_eq positive fits (by simp)

end IntType

namespace Interval

variable {type : IntType}

theorem mem_full {n : Int} : n ∈ full type ↔ type.Fits n := mem_range

theorem mem_truncateTo (positive : 0 < type.width) {n : Int} {interval : Interval}
    (member : n ∈ interval) :
    type.truncate n ∈ interval.truncateTo type := by
  have somewhere : type.truncate n ∈ full type := mem_full.mpr (IntType.truncate_fits positive n)
  unfold truncateTo
  split
  · rename_i inside
    rwa [IntType.truncate_of_fits positive (mem_full.mp (mem_of_le inside member))]
  · split
    · rename_i lb ub lower upper
      split
      · rename_i small
        have lowerBound := member.1
        have upperBound := member.2
        rw [Bound.number_eq_some.mp lower, Bound.ofNumber_le_ofNumber] at lowerBound
        rw [Bound.number_eq_some.mp upper, Bound.ofNumber_le_ofNumber] at upperBound
        have lowerFits := IntType.truncate_fits positive lb
        have upperFits := IntType.truncate_fits positive ub
        have span := IntType.span positive
        -- The two ends keep their distance, since both distances are below the modulus.
        have distance : type.truncate ub - type.truncate lb = ub - lb := by
          have congruent : (2 ^ type.width : Int) ∣ (ub - lb) -
              (type.truncate ub - type.truncate lb) := by
            have both := dvd_sub (IntType.dvd_sub_truncate type ub)
              (IntType.dvd_sub_truncate type lb)
            rwa [sub_sub_sub_comm] at both
          have bounded : |(ub - lb) - (type.truncate ub - type.truncate lb)| < 2 ^ type.width := by
            have sizeFits := small.1.2
            have ordered := small.2
            have nonpositive : type.min ≤ 0 := by
              unfold IntType.min
              split
              · have : (0 : Int) < 2 ^ (type.width - 1) := by positivity
                omega
              · exact le_refl 0
            unfold IntType.Fits at lowerFits upperFits
            rw [abs_lt]
            constructor <;> linarith
          exact (sub_eq_zero.mp (Int.eq_zero_of_abs_lt_dvd congruent bounded)).symm
        have moved : type.truncate n = type.truncate lb + (n - lb) := by
          apply IntType.truncate_eq positive
          · unfold IntType.Fits at lowerFits upperFits ⊢
            constructor <;> linarith
          · have congruent := IntType.dvd_sub_truncate type lb
            have same : n - (type.truncate lb + (n - lb)) = lb - type.truncate lb := by ring
            rwa [same]
        rw [mem_range, moved]
        constructor <;> linarith
      · exact somewhere
    · exact somewhere

theorem fits_of_mem_truncateTo {interval : Interval} {n : Int} (positive : 0 < type.width)
    (member : n ∈ interval.truncateTo type) : type.Fits n := by
  unfold truncateTo at member
  split at member
  · rename_i inside
    exact mem_full.mp (mem_of_le inside member)
  · split at member
    · split at member
      · rw [mem_range] at member
        exact ⟨(IntType.truncate_fits positive _).1.trans member.1,
          member.2.trans (IntType.truncate_fits positive _).2⟩
      · exact mem_full.mp member
    · exact mem_full.mp member

/-! ## Intervals with two finite ends -/

theorem le_trans {first second third : Interval} (below : first ≤ second) (above : second ≤ third) :
    first ≤ third := by
  rcases below with empty | ⟨secondInhabited, lower, upper⟩
  · exact Or.inl empty
  · rcases above with empty | ⟨thirdInhabited, lower', upper'⟩
    · exact absurd empty secondInhabited
    · exact Or.inr ⟨thirdInhabited, lower'.trans lower, upper.trans upper'⟩

theorem range_eq {a b : Int} (ordered : a ≤ b) : range a b = ⟨.ofNumber a, .ofNumber b⟩ := by
  unfold range mk'
  rw [if_neg (by simpa using ordered)]

theorem range_empty {a b : Int} (inverted : b < a) : range a b = bottom := by
  unfold range mk'
  rw [if_pos (by simpa using inverted)]

theorem isBottom_range {a b : Int} : (range a b).IsBottom ↔ b < a := by
  by_cases ordered : a ≤ b
  · rw [range_eq ordered, IsBottom]
    simp
  · rw [range_empty (not_le.mp ordered)]
    simp only [IsBottom, bottom, gt_iff_lt, Bound.ofNumber_lt_ofNumber]
    omega

theorem range_le_range {a b c d : Int} (ordered : a ≤ b) :
    range a b ≤ range c d ↔ c ≤ a ∧ b ≤ d := by
  have inhabited : ¬ (range a b).IsBottom := by
    rw [isBottom_range]
    omega
  constructor
  · intro below
    have lower := mem_of_le below (mem_range.mpr ⟨le_refl a, ordered⟩)
    have upper := mem_of_le below (mem_range.mpr ⟨ordered, le_refl b⟩)
    rw [mem_range] at lower upper
    exact ⟨lower.1, upper.2⟩
  · rintro ⟨lower, upper⟩
    refine Or.inr ⟨?_, ?_⟩
    · rw [isBottom_range]
      omega
    · rw [range_eq ordered, range_eq (show c ≤ d by omega)]
      simpa using ⟨lower, upper⟩

/-- An interval with elements below an interval with finite ends. -/
theorem eq_range_of_le {interval : Interval} {c d : Int} (inhabited : ¬ interval.IsBottom)
    (below : interval ≤ range c d) : exists a b, interval = range a b ∧ c ≤ a ∧ a ≤ b ∧ b ≤ d := by
  rcases below with empty | ⟨largeInhabited, lower, upper⟩
  · exact absurd empty inhabited
  · rw [isBottom_range, not_lt] at largeInhabited
    rw [range_eq largeInhabited] at lower upper
    rcases interval with ⟨lb, ub⟩
    cases lb <;> cases ub <;> simp_all [IsBottom]
    rename_i a b
    exact ⟨a, b, by rw [range_eq inhabited], lower, inhabited, upper⟩

theorem meet_range (a b c d : Int) : (range a b).meet (range c d) = range (max a c) (min b d) := by
  unfold meet
  by_cases empty : b < a ∨ d < c
  · rw [if_pos (by simpa only [isBottom_range] using empty), range_empty]
    omega
  · rw [if_neg (by simpa only [isBottom_range] using empty), range_eq (show a ≤ b by omega),
      range_eq (show c ≤ d by omega)]
    have lower : max (Bound.ofNumber a) (.ofNumber c) = .ofNumber (max a c) := by
      rcases le_total a c with below | below <;> simp [below]
    have upper : min (Bound.ofNumber b) (.ofNumber d) = .ofNumber (min b d) := by
      rcases le_total b d with below | below <;> simp [below]
    rw [lower, upper]
    rfl

theorem join_range {a b c d : Int} (left : a ≤ b) (right : c ≤ d) :
    (range a b).join (range c d) = range (min a c) (max b d) := by
  unfold join
  rw [if_neg (by rw [isBottom_range]; omega), if_neg (by rw [isBottom_range]; omega), range_eq left,
    range_eq right]
  have lower : min (Bound.ofNumber a) (.ofNumber c) = .ofNumber (min a c) := by
    rcases le_total a c with below | below <;> simp [below]
  have upper : max (Bound.ofNumber b) (.ofNumber d) = .ofNumber (max b d) := by
    rcases le_total b d with below | below <;> simp [below]
  rw [lower, upper]
  rfl

theorem truncateTo_of_le {interval : Interval} (inside : interval ≤ full type) :
    interval.truncateTo type = interval := by
  unfold truncateTo
  rw [if_pos inside]

theorem truncateTo_le (positive : 0 < type.width) (interval : Interval) :
    interval.truncateTo type ≤ full type := by
  have span := IntType.span positive
  have wide : type.min ≤ type.max := by
    have modulus : (0 : Int) < 2 ^ type.width := by positivity
    omega
  have self : full type ≤ full type := (range_le_range wide).mpr ⟨le_refl _, le_refl _⟩
  unfold truncateTo
  split
  · assumption
  · split
    · split
      · rename_i small
        exact (range_le_range small.2).mpr
          ⟨(IntType.truncate_fits positive _).1, (IntType.truncate_fits positive _).2⟩
      · exact self
    · exact self

end Interval

end Crab
end Prevail
