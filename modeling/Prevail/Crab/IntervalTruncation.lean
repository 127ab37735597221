import Prevail.Crab.IntervalDivision

namespace Prevail
namespace Crab

/-!
# Truncation to a machine integer

`truncate_to` of `crab/interval.hpp` for the eight integer types that
`truncate_to_sint` and `truncate_to_uint` select by a width, with the errors
that the source throws.  `finite_size` subtracts the lower bound from the upper
one, and there is no difference of an infinity and itself.  No interval with
those bounds has an element, so the truncation of an interval with elements
always has a result.
-/

namespace IntType

def int8 : IntType := ⟨true, 8⟩
def int16 : IntType := ⟨true, 16⟩
def uint8 : IntType := ⟨false, 8⟩
def uint16 : IntType := ⟨false, 16⟩

/-- The types that an interval is truncated to. -/
inductive IsTarget : IntType -> Prop where
  | int8 : IsTarget .int8
  | int16 : IsTarget .int16
  | int32 : IsTarget .int32
  | int64 : IsTarget .int64
  | uint8 : IsTarget .uint8
  | uint16 : IsTarget .uint16
  | uint32 : IsTarget .uint32
  | uint64 : IsTarget .uint64

/-- The value that a number wraps around to: the one number of the type that
differs from it by a multiple of the modulus. -/
def WrapsTo (type : IntType) (n wrapped : Int) : Prop :=
  type.Fits wrapped ∧ (2 ^ type.width : Int) ∣ n - wrapped

variable {type : IntType}

theorem IsTarget.positive (target : type.IsTarget) : 0 < type.width := by
  cases target <;> decide

theorem wrapsTo_iff (positive : 0 < type.width) {n wrapped : Int} :
    type.WrapsTo n wrapped ↔ wrapped = type.truncate n := by
  constructor
  · exact fun wraps => (truncate_eq positive wraps.1 wraps.2).symm
  · rintro rfl
    exact ⟨truncate_fits positive n, dvd_sub_truncate type n⟩

end IntType

namespace Interval

/-- `finite_size`, where the difference of the bounds can throw. -/
def finiteSizeOrThrow (interval : Interval) : Option (Option Int) :=
  (interval.ub.add interval.lb.neg).map Bound.number

/-- `truncate_to`, where `finite_size` can throw. -/
def truncateToOrThrow (type : IntType) (interval : Interval) : Option Interval :=
  if interval ≤ full type then some interval
  else do
    match <- interval.finiteSizeOrThrow with
    | some size =>
        if type.Fits size then do
          let llb <- interval.lb.number.map type.truncate
          let lub <- interval.ub.number.map type.truncate
          if llb ≤ lub then return range llb lub
          else return full type
        else return full type
    | none => return full type

def truncateToSint (width : Nat) (interval : Interval) : Option Interval :=
  match width with
  | 8 => interval.truncateToOrThrow .int8
  | 16 => interval.truncateToOrThrow .int16
  | 32 => interval.truncateToOrThrow .int32
  | 64 => interval.truncateToOrThrow .int64
  | _ => none

def truncateToUint (width : Nat) (interval : Interval) : Option Interval :=
  match width with
  | 8 => interval.truncateToOrThrow .uint8
  | 16 => interval.truncateToOrThrow .uint16
  | 32 => interval.truncateToOrThrow .uint32
  | 64 => interval.truncateToOrThrow .uint64
  | _ => none

/-- Both bounds are the same infinity. -/
def IsInfinity (interval : Interval) : Prop := interval.lb = interval.ub ∧ interval.lb.number = none

variable {interval : Interval} {type : IntType} {n : Int}

theorem not_mem_of_isInfinity (infinite : interval.IsInfinity) : n ∉ interval := by
  rintro ⟨lower, upper⟩
  have inside := infinite.1 ▸ upper
  have bound : interval.lb = .ofNumber n := le_antisymm lower inside
  have number := infinite.2
  rw [bound] at number
  cases number

/-- The size of an interval is defined unless both bounds are the same
infinity, and then it is what `finite_size` returns. -/
theorem finiteSizeOrThrow_eq (notBottom : ¬ interval.IsBottom) :
    (interval.IsInfinity ∧ interval.finiteSizeOrThrow = none) ∨
      (¬ interval.IsInfinity ∧ interval.finiteSizeOrThrow = some interval.finiteSize) := by
  rcases interval with ⟨lb, ub⟩
  cases lb <;> cases ub <;>
    simp_all [IsInfinity, finiteSizeOrThrow, finiteSize, Bound.add, Bound.neg, Bound.number,
      IsBottom, sub_eq_add_neg]

theorem not_isInfinity_of_le (inside : interval ≤ full type) : ¬ interval.IsInfinity := by
  intro infinite
  rcases inside with empty | ⟨inhabited, lower, upper⟩
  · exact absurd infinite.1 (ne_of_gt empty)
  · rw [full, isBottom_range, not_lt] at inhabited
    rw [full, range_eq inhabited] at lower upper
    rw [← infinite.1] at upper
    rcases form : interval.lb with _ | k | _
    · rw [form] at lower
      exact Bound.not_le_minusInfinity _ lower
    · have number := infinite.2
      rw [form] at number
      cases number
    · rw [form] at upper
      exact Bound.not_plusInfinity_le _ upper

/-- The truncation throws for the intervals of a single infinity and returns
`truncateTo` of all others. -/
theorem truncateToOrThrow_eq (type : IntType) (interval : Interval) :
    (interval.IsInfinity ∧ interval.truncateToOrThrow type = none) ∨
      (¬ interval.IsInfinity ∧
      interval.truncateToOrThrow type = some (interval.truncateTo type)) := by
  unfold truncateToOrThrow truncateTo
  by_cases inside : interval ≤ full type
  · exact Or.inr ⟨not_isInfinity_of_le inside, by rw [if_pos inside, if_pos inside]⟩
  · rw [if_neg inside, if_neg inside]
    have notBottom : ¬ interval.IsBottom := fun empty => inside (Or.inl empty)
    rcases finiteSizeOrThrow_eq notBottom with ⟨infinite, throws⟩ | ⟨finite, size⟩
    · exact Or.inl ⟨infinite, by rw [throws]; rfl⟩
    · refine Or.inr ⟨finite, ?_⟩
      rw [size, finiteSize]
      rcases interval.lb.number with _ | lb <;> rcases interval.ub.number with _ | ub
      · rfl
      · rfl
      · rfl
      · by_cases fits : type.Fits (ub - lb) <;>
          by_cases ordered : type.truncate lb ≤ type.truncate ub <;>
          simp [fits, ordered]

theorem truncateToSint_eq {width : Nat} (target : width ∈ [8, 16, 32, 64]) (interval : Interval) :
    interval.truncateToSint width = interval.truncateToOrThrow ⟨true, width⟩ := by
  simp only [List.mem_cons, List.not_mem_nil, or_false] at target
  rcases target with rfl | rfl | rfl | rfl <;> rfl

theorem truncateToUint_eq {width : Nat} (target : width ∈ [8, 16, 32, 64]) (interval : Interval) :
    interval.truncateToUint width = interval.truncateToOrThrow ⟨false, width⟩ := by
  simp only [List.mem_cons, List.not_mem_nil, or_false] at target
  rcases target with rfl | rfl | rfl | rfl <;> rfl

theorem isBottom_of_isBottom_truncateTo (positive : 0 < type.width)
    (empty : (interval.truncateTo type).IsBottom) : interval.IsBottom := by
  have wide : ¬ (full type).IsBottom := by
    have zero := mem_full.mpr (IntType.truncate_fits positive 0)
    exact not_isBottom_of_mem zero
  unfold truncateTo at empty
  split at empty
  · exact empty
  · split at empty
    · split at empty
      · rename_i small
        rw [isBottom_range] at empty
        exact absurd small.2 (not_le.mpr empty)
      · exact absurd empty wide
    · exact absurd empty wide

/-- The truncation of an interval contains the wrapped values of all elements,
stays in the type, and is empty only for an empty interval.  It throws only for
an interval of a single infinity, which has no elements. -/
theorem truncateToOrThrow_sound (target : type.IsTarget) (interval : Interval) :
    (interval.truncateToOrThrow type = none ↔ interval.IsInfinity) ∧
      (interval.IsInfinity -> forall n : Int, n ∉ interval) ∧
        forall result, interval.truncateToOrThrow type = some result ->
          (forall n wrapped : Int, n ∈ interval -> type.WrapsTo n wrapped -> wrapped ∈ result) ∧
            result ≤ full type ∧ (result.IsBottom -> interval.IsBottom) := by
  have positive := target.positive
  refine ⟨?_, fun infinite _ => not_mem_of_isInfinity infinite, ?_⟩
  · rcases truncateToOrThrow_eq type interval with ⟨infinite, throws⟩ | ⟨finite, returns⟩
    · exact iff_of_true throws infinite
    · exact iff_of_false (by rw [returns]; exact Option.some_ne_none _) finite
  · intro result run
    rcases truncateToOrThrow_eq type interval with ⟨_, throws⟩ | ⟨_, returns⟩
    · rw [throws] at run
      cases run
    · rw [returns] at run
      cases run
      refine ⟨?_, truncateTo_le positive interval, isBottom_of_isBottom_truncateTo positive⟩
      intro n wrapped member wraps
      rw [(IntType.wrapsTo_iff positive).mp wraps]
      exact mem_truncateTo positive member

/-- The numbers from 254 to 257 wrap to the bytes 254, 255, 0 and 1, and to the
signed bytes from -2 to 1. -/
theorem truncateToOrThrow_bytes :
    (range 254 257).truncateToOrThrow .int8 = some (range (-2) 1) ∧
      (range 254 257).truncateToOrThrow .uint8 = some (full .uint8) ∧ (-1 : Int) ∈ range (-2) 1 :=
  ⟨by decide, by decide,
    ((truncateToOrThrow_sound .int8 (range 254 257)).2.2 (range (-2) 1) (by decide)).1 255 (-1)
      (by rw [mem_range]; omega) ⟨by decide, by decide⟩⟩

end Interval
end Crab
end Prevail
