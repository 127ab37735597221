import Prevail.Crab.BitsetDomain
import Prevail.Library.Word

namespace Prevail
namespace Crab
namespace BitsetDomain

/-!
# Reads and writes of ranges of bits

`uniformity`, `reset` and `havoc` of `bitset_domain_t`.  The start of a range is a
word.  The distance from it to the size of the stack wraps around as a word, and is
then converted to `int`, which keeps 32 bits of it.  The smaller one of this number
and the width is the number of bits that the loops visit.  A visited position behind
the last bit throws.

A start in the stack visits positions in the stack only.  A start outside of it
visits either nothing at all, or itself first.
-/

/-- `(int)(EBPF_TOTAL_STACK_SIZE - lb)`. -/
def room (lb : BitVec 64) : Int := ((BitVec.ofNat 64 ebpfTotalStackSize - lb).setWidth 32).toInt

/-- The positions that the loop over a range visits. -/
def positions (lb : BitVec 64) (width : Int) : List (BitVec 64) :=
  (List.range (min width (room lb)).toNat).map (fun index => lb + BitVec.ofNat 64 index)

/-- The bit at a position. -/
def test (bits : BitsetDomain) (position : BitVec 64) : Option Bool :=
  if position.toNat < ebpfTotalStackSize then some (bits.nonNumericalBytes position.toNat) else none

/-- Set the bit at a position to a value. -/
def write (value : Bool) (bits : BitsetDomain) (position : BitVec 64) : Option BitsetDomain :=
  if position.toNat < ebpfTotalStackSize
    then some ⟨Function.update bits.nonNumericalBytes position.toNat value⟩
  else none

/-- `uniformity`: whether all bytes of a range are numbers, and whether none is. -/
def uniformity (bits : BitsetDomain) (lb : BitVec 64) (width : Int) : Option (Bool × Bool) :=
  (positions lb width).foldlM
    (fun both position => (bits.test position).map (fun bit => (both.1 && !bit, both.2 && bit)))
    (true, true)

/-- `reset`: the bytes of a range are numbers. -/
def reset (bits : BitsetDomain) (lb : BitVec 64) (n : Int) : Option BitsetDomain :=
  (positions lb n).foldlM (write false) bits

/-- `havoc`: the bytes of a range may be anything. -/
def havoc (bits : BitsetDomain) (lb : BitVec 64) (width : Int) : Option BitsetDomain :=
  (positions lb width).foldlM (write true) bits

variable {bits : BitsetDomain} {lb position : BitVec 64} {width : Int}

/-! ## The positions of a range -/

theorem ebpfTotalStackSize_eq : ebpfTotalStackSize = 4096 := rfl

/-- The room behind a start in the stack. -/
theorem room_of_inside (inside : lb.toNat < ebpfTotalStackSize) :
    room lb = ebpfTotalStackSize - lb.toNat := by
  rw [ebpfTotalStackSize_eq] at *
  have difference : (BitVec.ofNat 64 4096 - lb).toNat = 4096 - lb.toNat := by
    rw [BitVec.toNat_sub, BitVec.toNat_ofNat]
    omega
  have narrowed : ((BitVec.ofNat 64 4096 - lb).setWidth 32).toNat = 4096 - lb.toNat := by
    rw [BitVec.toNat_setWidth, difference]
    omega
  rw [room, ebpfTotalStackSize_eq, BitVec.toInt_eq_toNat_of_lt (by rw [narrowed]; omega), narrowed]
  omega

/-- A range that starts in the stack stays in it. -/
theorem mem_positions_of_inside (inside : lb.toNat < ebpfTotalStackSize) :
    position ∈ positions lb width ↔
      lb.toNat ≤ position.toNat ∧ (position.toNat : Int) < lb.toNat + width ∧
      position.toNat < ebpfTotalStackSize := by
  rw [positions, room_of_inside inside, List.mem_map]
  simp only [List.mem_range]
  rw [ebpfTotalStackSize_eq] at *
  constructor
  · intro visited
    rcases visited with ⟨index, below, rfl⟩
    have small : index < 4096 := by omega
    have sum : (lb + BitVec.ofNat 64 index).toNat = lb.toNat + index := by
      rw [BitVec.toNat_add, BitVec.toNat_ofNat]
      omega
    rw [sum]
    omega
  · intro bounds
    refine ⟨position.toNat - lb.toNat, by omega, ?_⟩
    apply BitVec.eq_of_toNat_eq
    rw [BitVec.toNat_add, BitVec.toNat_ofNat]
    omega

/-- The loop over a range leaves the stack at its first step. -/
def Misses (lb : BitVec 64) (width : Int) :
    Prop := ebpfTotalStackSize ≤ lb.toNat ∧ 0 < min width (room lb)

instance (lb : BitVec 64) (width : Int) : Decidable (Misses lb width) :=
  inferInstanceAs (Decidable (_ ∧ _))

/-- All visited positions are positions of the stack just if the first one is. -/
theorem forall_positions_iff :
    (∀ position ∈ positions lb width, position.toNat < ebpfTotalStackSize) ↔ ¬ Misses lb width := by
  constructor
  · intro all missed
    have first : lb ∈ positions lb width := by
      refine List.mem_map.mpr ⟨0, List.mem_range.mpr ?_, by simp⟩
      have positive := missed.2
      omega
    exact absurd (all lb first) (not_lt.mpr missed.1)
  · intro reaches position visited
    by_cases inside : lb.toNat < ebpfTotalStackSize
    · exact ((mem_positions_of_inside inside).mp visited).2.2
    · have empty : positions lb width = [] := by
        have none : (min width (room lb)).toNat = 0 := by
          by_contra some
          exact reaches ⟨not_lt.mp inside, by omega⟩
        rw [positions, none]
        rfl
      rw [empty] at visited
      cases visited

/-! ## Loops that may leave the stack -/

/-- A loop whose steps succeed at the positions of the stack. -/
theorem isSome_foldlM {A : Type} {step : A -> BitVec 64 -> Option A}
    (steps : forall a position, (step a position).isSome ↔ position.toNat < ebpfTotalStackSize)
    (positions : List (BitVec 64)) (start : A) :
    (positions.foldlM step start).isSome ↔
      ∀ position ∈ positions, position.toNat < ebpfTotalStackSize := by
  induction positions generalizing start with
  | nil => simp
  | cons first rest inductionHypothesis =>
      rw [List.foldlM_cons, List.forall_mem_cons, <- steps start first]
      cases stepped : step start first with
      | none => simp
      | some next => simp [inductionHypothesis next]

theorem isSome_test : (bits.test position).isSome ↔ position.toNat < ebpfTotalStackSize := by
  rw [test]
  split <;> simp_all

theorem isSome_write {value : Bool} :
    (bits.write value position).isSome ↔ position.toNat < ebpfTotalStackSize := by
  rw [write]
  split <;> simp_all

/-- The three operations throw just if the range starts outside of the stack and the
loop visits anything. -/
theorem isSome_uniformity : (bits.uniformity lb width).isSome ↔ ¬ Misses lb width := by
  rw [uniformity, isSome_foldlM _ (positions lb width), forall_positions_iff]
  intro both position
  rw [Option.isSome_map, isSome_test]

theorem isSome_reset : (bits.reset lb width).isSome ↔ ¬ Misses lb width := by
  rw [reset, isSome_foldlM (fun _ _ => isSome_write), forall_positions_iff]

theorem isSome_havoc : (bits.havoc lb width).isSome ↔ ¬ Misses lb width := by
  rw [havoc, isSome_foldlM (fun _ _ => isSome_write), forall_positions_iff]

/-- The bits of a loop that sets them to one value. -/
theorem nonNumericalBytes_foldlM {value : Bool} {visited : List (BitVec 64)} {after : BitsetDomain}
    (run : visited.foldlM (write value) bits = some after) (index : Nat) :
    after.nonNumericalBytes index =
      if ∃ position ∈ visited, position.toNat = index then value
      else bits.nonNumericalBytes index := by
  induction visited generalizing bits with
  | nil =>
      cases run
      simp
  | cons first rest inductionHypothesis =>
      rw [List.foldlM_cons] at run
      rcases Option.bind_eq_some_iff.mp run with ⟨next, written, run⟩
      rw [inductionHypothesis run]
      rw [write] at written
      split at written
      · cases written
        by_cases later : ∃ position ∈ rest, position.toNat = index
        · rw [if_pos later, if_pos]
          rcases later with ⟨position, member, same⟩
          exact ⟨position, List.mem_cons_of_mem _ member, same⟩
        · rw [if_neg later]
          by_cases here : first.toNat = index
          · rw [if_pos ⟨first, List.mem_cons_self, here⟩, here]
            exact Function.update_self ..
          · dsimp only
            rw [Function.update_of_ne (Ne.symm here), if_neg]
            intro visited
            rcases visited with ⟨position, member, same⟩
            rcases List.mem_cons.mp member with rfl | member
            · exact here same
            · exact later ⟨position, member, same⟩
      · cases written

/-- The bytes of the stack that a range covers. -/
def InRange (lb : BitVec 64) (width : Int) (index : Nat) : Prop :=
  lb.toNat ≤ index ∧ (index : Int) < lb.toNat + width ∧ index < ebpfTotalStackSize

instance (lb : BitVec 64) (width : Int) (index : Nat) : Decidable (InRange lb width index) :=
  inferInstanceAs (Decidable (_ ∧ _ ∧ _))

/-- A loop that succeeds writes the bits of the range that lie in the stack, and no
others. -/
theorem nonNumericalBytes_of_positions {value : Bool} {after : BitsetDomain}
    (run : (positions lb width).foldlM (write value) bits = some after) (index : Nat) :
    after.nonNumericalBytes index = if InRange lb width index then value
      else bits.nonNumericalBytes index := by
  rw [nonNumericalBytes_foldlM run]
  have visited : (∃ position ∈ positions lb width, position.toNat = index) ↔
      InRange lb width index := by
    have reached : ¬ Misses lb width := by
      rw [<- forall_positions_iff, <- isSome_foldlM (fun _ _ => isSome_write), run]
      rfl
    by_cases inside : lb.toNat < ebpfTotalStackSize
    · simp only [mem_positions_of_inside inside]
      constructor
      · intro some
        rcases some with ⟨position, bounds, rfl⟩
        exact bounds
      · intro inRange
        have word : (BitVec.ofNat 64 index).toNat = index := by
          rw [BitVec.toNat_ofNat]
          have small := inRange.2.2
          rw [ebpfTotalStackSize_eq] at small
          omega
        exact ⟨BitVec.ofNat 64 index, by rw [word]; exact inRange, word⟩
    · constructor
      · intro some
        rcases some with ⟨position, member, _⟩
        rcases List.mem_map.mp member with ⟨number, below, _⟩
        rw [List.mem_range] at below
        exact absurd ⟨not_lt.mp inside, by omega⟩ reached
      · intro inRange
        exact absurd (lt_of_le_of_lt inRange.1 inRange.2.2) inside
  by_cases inRange : InRange lb width index
  · rw [if_pos inRange, if_pos (visited.mpr inRange)]
  · rw [if_neg inRange, if_neg (fun some => inRange (visited.mp some))]

theorem nonNumericalBytes_reset {after : BitsetDomain} (run : bits.reset lb width = some after)
    (index : Nat) :
    after.nonNumericalBytes index = if InRange lb width index then false
      else bits.nonNumericalBytes index := by
  rw [reset] at run
  exact nonNumericalBytes_of_positions run index

theorem nonNumericalBytes_havoc {after : BitsetDomain} (run : bits.havoc lb width = some after)
    (index : Nat) :
    after.nonNumericalBytes index = if InRange lb width index then true
      else bits.nonNumericalBytes index := by
  rw [havoc] at run
  exact nonNumericalBytes_of_positions run index

end BitsetDomain
end Crab
end Prevail
