import Prevail.Crab.Variable

namespace Prevail
namespace Crab

/-!
# The bytes of the stack that hold numbers

`bitset_domain_t`, and the two tests of `array_domain_t` that read it through
the intervals of a numerical state.  A set bit marks a byte that may hold part
of a pointer.
-/

/-- `bitset_domain_t`.  Only the bits below the stack size are read. -/
structure BitsetDomain where
  nonNumericalBytes : Nat -> Bool

namespace BitsetDomain

/-- `all_num`: the range is clamped to the stack. -/
def allNum (bits : BitsetDomain) (lb ub : Int) : Bool :=
  let lower := (max lb 0).toNat
  let upper := (min ub ebpfTotalStackSize).toNat
  (List.range' lower (upper - lower)).all (fun index => !bits.nonNumericalBytes index)

/-- The bytes that the bits declare to be numbers are numbers. -/
def Valid (bits : BitsetDomain) (numeric : Int -> Prop) : Prop :=
  forall index : Nat, index < ebpfTotalStackSize -> bits.nonNumericalBytes index = false ->
    numeric index

/-- A successful test covers the part of the range that lies in the stack. -/
theorem numeric_of_allNum {bits : BitsetDomain} {numeric : Int -> Prop} (valid : bits.Valid numeric)
    {lb ub : Int}
    (all : bits.allNum lb ub = true) {index : Int} (lower : lb ≤ index) (upper : index < ub)
    (inStack : 0 ≤ index ∧ index < ebpfTotalStackSize) : numeric index := by
  rcases Int.eq_ofNat_of_zero_le inStack.1 with ⟨position, rfl⟩
  have below : position < ebpfTotalStackSize := by exact_mod_cast inStack.2
  apply valid position below
  simp only [allNum, List.all_eq_true, Bool.not_eq_true'] at all
  apply all
  rw [List.mem_range'_1]
  omega

/-- The loop of `all_num_width`, over the bytes that are left. -/
def numWidth (bits : BitsetDomain) (start : Nat) : Nat -> Nat
  | 0 => 0
  | rest + 1 => if bits.nonNumericalBytes start then 0 else numWidth bits (start + 1) rest + 1

/-- `all_num_width`, for a start in the stack or behind it. -/
def allNumWidth (bits : BitsetDomain) (lb : Nat) : Int := numWidth bits lb (ebpfTotalStackSize - lb)

end BitsetDomain

variable (dom : NumAbsDomain Variable) (inv : dom.State)

def allNum (numBytes : BitsetDomain) (lb ub : LinearExpression Variable) : Bool :=
  match (dom.evalInterval inv lb).lb.number, (dom.evalInterval inv ub).ub.number with
  | some minLb, some maxUb =>
      if ¬ IntType.int32.Fits minLb ∨ ¬ IntType.int32.Fits maxUb then false
      else if maxUb ≤ minLb then true
      else numBytes.allNum minLb maxUb
  | _, _ => false

/-- All bytes of an accepted range are numbers, as far as the range lies in the
stack. -/
theorem numeric_of_allNum {dom : NumAbsDomain Variable} {inv : dom.State} {numBytes : BitsetDomain}
    {lb ub : LinearExpression Variable} (all : allNum dom inv numBytes lb ub = true)
    {values : Variable -> Int}
    (represents : dom.Represents inv values) {numeric : Int -> Prop}
    (valid : numBytes.Valid numeric)
    {index : Int} (lower : lb.eval values ≤ index) (upper : index < ub.eval values)
    (inStack : 0 ≤ index ∧ index < ebpfTotalStackSize) : numeric index := by
  have lowerMember : lb.eval values ∈ dom.evalInterval inv lb := dom.mem_evalInterval represents
  have upperMember : ub.eval values ∈ dom.evalInterval inv ub := dom.mem_evalInterval represents
  unfold allNum at all
  split at all
  · rename_i minLb maxUb lowerForm upperForm
    have minimum := lowerMember.1
    have maximum := upperMember.2
    rw [Bound.number_eq_some.mp lowerForm, Bound.ofNumber_le_ofNumber] at minimum
    rw [Bound.number_eq_some.mp upperForm, Bound.ofNumber_le_ofNumber] at maximum
    split at all
    · cases all
    · split at all
      · omega
      · exact BitsetDomain.numeric_of_allNum valid all (by omega) (by omega) inStack
  · cases all

end Crab
end Prevail
