import Prevail.Crab.TypeJoin
import Prevail.Crab.BitsetDomain
import Prevail.Crab.SplitDbm.AddBottomConstraint

namespace Prevail
namespace Crab

/-!
# The abstract state of an eBPF program

`ebpf_domain_t` pairs a numerical state with the bytes of the stack that may
hold pointers.  Only the numerical state has a bottom.  `set_to_bottom` leaves
the bytes as the constructor made them, all of them non-numerical, although
`set_to_top` sets both components and the bytes have a `set_to_bottom` of their
own.

The accumulating join of the fixpoint engine asks for bottom first and so does
not look at these bytes.  The order, the join and the widening combine the bytes
of both sides, and there the non-numerical bytes of bottom win.
-/

namespace BitsetDomain

/-- The default constructor, which is also `set_to_top`. -/
def top : BitsetDomain where
  nonNumericalBytes _ := true

/-- `operator|` and `operator|=`. -/
def join (bits other : BitsetDomain) : BitsetDomain where
  nonNumericalBytes index := bits.nonNumericalBytes index || other.nonNumericalBytes index

/-- `operator==`. -/
def equal (bits other : BitsetDomain) : Bool :=
  (List.range ebpfTotalStackSize).all
    (fun index => bits.nonNumericalBytes index == other.nonNumericalBytes index)

/-- `operator<=`. -/
def leq (bits other : BitsetDomain) : Bool := (bits.join other).equal other

def isTop (bits : BitsetDomain) : Bool := (List.range ebpfTotalStackSize).all bits.nonNumericalBytes

variable {bits other : BitsetDomain}

theorem equal_iff : bits.equal other = true ↔
    forall index, index < ebpfTotalStackSize ->
      bits.nonNumericalBytes index = other.nonNumericalBytes index := by
  simp only [equal, List.all_eq_true, List.mem_range, beq_iff_eq]

theorem isTop_iff : bits.isTop = true ↔
    forall index, index < ebpfTotalStackSize -> bits.nonNumericalBytes index = true := by
  simp only [isTop, List.all_eq_true, List.mem_range]

theorem equal_refl (bits : BitsetDomain) : bits.equal bits = true :=
  equal_iff.mpr (fun _ _ => rfl)

theorem top_equal_iff : top.equal bits = true ↔ bits.isTop = true := by
  rw [equal_iff, isTop_iff]
  exact forall₂_congr (fun _ _ => eq_comm)

theorem top_join (bits : BitsetDomain) : top.join bits = top := rfl

theorem join_top (bits : BitsetDomain) : bits.join top = top := by
  unfold join top
  congr 1
  funext index
  exact Bool.or_true _

theorem top_leq_iff : top.leq bits = true ↔ bits.isTop = true := top_equal_iff

end BitsetDomain

namespace AddBottom

variable {V : Type} [LinearOrder V]

/-- `operator<=`. -/
def leq : AddBottom V -> AddBottom V -> Bool
  | none, _ => true
  | some _, none => false
  | some s, some o => SplitDbm.leq s.1 o.1

def widen : AddBottom V -> AddBottom V -> AddBottom V
  | none, other => other
  | state, none => state
  | some s, some o => some ⟨SplitDbm.widen s.1 o.1, s.2.widen o.1⟩

variable (state : AddBottom V)

theorem bottom_join : AddBottom.join none state = state := by
  cases state <;> rfl

theorem join_bottom : state.join none = state := by
  cases state <;> rfl

theorem bottom_widen : AddBottom.widen none state = state := by
  cases state <;> rfl

theorem widen_bottom : state.widen none = state := by
  cases state <;> rfl

end AddBottom

structure EbpfDomain [LinearOrder Variable] where
  mInv : AddBottom Variable
  stack : BitsetDomain

namespace EbpfDomain

variable [LinearOrder Variable]

/-- `bottom`: the constructor, and `set_to_bottom`. -/
def bottom : EbpfDomain where
  mInv := none
  stack := .top

def isBottom (x : EbpfDomain) : Bool := x.mInv.isBottom

/-- `operator<=`. -/
def leq (x other : EbpfDomain) : Bool := x.mInv.leq other.mInv && x.stack.leq other.stack

/-- `operator|`.  The overload for a temporary exchanges its operands. -/
def join (x other : EbpfDomain) : EbpfDomain where
  mInv := x.mInv.join other.mInv
  stack := x.stack.join other.stack

/-- `widen`, without constants. -/
def widen (x other : EbpfDomain) : EbpfDomain where
  mInv := x.mInv.widen other.mInv
  stack := x.stack.join other.stack

/-- `operator|=`.  The owners are those of all type variables. -/
def joinInto (owners : List Owner) (x other : EbpfDomain) : EbpfDomain :=
  if x.isBottom then other
  else if other.isBottom then x
  else
    { mInv := AddBottom.joinOperations.selectivelyJoin owners x.mInv other.mInv
      stack := x.stack.join other.stack }

/-- Two states are equal in both components. -/
def SameComponents (x other : EbpfDomain) :
    Prop := x.mInv = other.mInv ∧ x.stack.equal other.stack = true

/-- Bottom is below a state and neutral for it. -/
structure BottomNeutral (owners : List Owner) (x : EbpfDomain) : Prop where
  least : bottom.leq x = true
  bottom_join : (bottom.join x).SameComponents x
  join_bottom : (x.join bottom).SameComponents x
  bottom_widen : (bottom.widen x).SameComponents x
  widen_bottom : (x.widen bottom).SameComponents x
  bottom_joinInto : (bottom.joinInto owners x).SameComponents x
  joinInto_bottom : (x.joinInto owners bottom).SameComponents x

variable (owners : List Owner) (x : EbpfDomain)

theorem sameComponents_refl : x.SameComponents x := ⟨rfl, x.stack.equal_refl⟩

/-- The order asks for the bytes of bottom. -/
theorem bottom_leq_iff : bottom.leq x = true ↔ x.stack.isTop = true := by
  rw [leq, Bool.and_eq_true]
  constructor
  · intro below
    exact BitsetDomain.top_leq_iff.mp below.2
  · intro isTop
    exact ⟨rfl, BitsetDomain.top_leq_iff.mpr isTop⟩

theorem sameComponents_top_iff {y : EbpfDomain} (same : y.mInv = x.mInv) (isTop : y.stack = .top) :
    y.SameComponents x ↔ x.stack.isTop = true := by
  rw [SameComponents, isTop, BitsetDomain.top_equal_iff]
  exact ⟨And.right, fun stack => ⟨same, stack⟩⟩

theorem bottom_join_iff : (bottom.join x).SameComponents x ↔ x.stack.isTop = true :=
  sameComponents_top_iff x (AddBottom.bottom_join _) (BitsetDomain.top_join _)

theorem join_bottom_iff : (x.join bottom).SameComponents x ↔ x.stack.isTop = true :=
  sameComponents_top_iff x (AddBottom.join_bottom _) (BitsetDomain.join_top _)

theorem bottom_widen_iff : (bottom.widen x).SameComponents x ↔ x.stack.isTop = true :=
  sameComponents_top_iff x (AddBottom.bottom_widen _) (BitsetDomain.top_join _)

theorem widen_bottom_iff : (x.widen bottom).SameComponents x ↔ x.stack.isTop = true :=
  sameComponents_top_iff x (AddBottom.widen_bottom _) (BitsetDomain.join_top _)

theorem bottom_joinInto : bottom.joinInto owners x = x := rfl

/-- The accumulating join returns the argument where the state is bottom. -/
theorem joinInto_bottom_iff :
    (x.joinInto owners bottom).SameComponents x ↔ (x.isBottom = true -> x.stack.isTop = true) := by
  rw [joinInto]
  split
  · rename_i isBottom
    have numerical : bottom.mInv = x.mInv := (Option.isNone_iff_eq_none.mp isBottom).symm
    rw [sameComponents_top_iff x numerical rfl]
    exact ⟨fun isTop _ => isTop, fun isTop => isTop isBottom⟩
  · rename_i notBottom
    exact ⟨fun _ isBottom => absurd isBottom notBottom, fun _ => sameComponents_refl x⟩

/-- Bottom is neutral exactly for the states that know of no byte that it is a
number. -/
theorem bottomNeutral_iff : BottomNeutral owners x ↔
    forall index, index < ebpfTotalStackSize -> x.stack.nonNumericalBytes index = true := by
  rw [← BitsetDomain.isTop_iff]
  constructor
  · intro neutral
    exact (bottom_leq_iff x).mp neutral.least
  · intro isTop
    constructor
    · exact (bottom_leq_iff x).mpr isTop
    · exact (bottom_join_iff x).mpr isTop
    · exact (join_bottom_iff x).mpr isTop
    · exact (bottom_widen_iff x).mpr isTop
    · exact (widen_bottom_iff x).mpr isTop
    · rw [bottom_joinInto]
      exact sameComponents_refl x
    · exact (joinInto_bottom_iff owners x).mpr (fun _ => isTop)

end EbpfDomain

namespace EbpfDomain

section NumericByte

attribute [local instance] Variable.variableOrder

/-- Nothing is known but that the first byte of the stack is a number. -/
def firstByteNumeric : EbpfDomain where
  mInv := .top
  stack := { nonNumericalBytes := fun index => decide (index ≠ 0) }

theorem not_bottomNeutral_firstByteNumeric : ¬ BottomNeutral [] firstByteNumeric := by
  intro neutral
  have least := (bottom_leq_iff _).mp neutral.least
  have first := BitsetDomain.isTop_iff.mp least 0 (by decide)
  cases first

end NumericByte

end EbpfDomain

end Crab
end Prevail
