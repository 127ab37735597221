import Prevail.Crab.StackAccess
import Prevail.Crab.TypeJoin

namespace Prevail
namespace Crab
namespace ArrayDomain

/-!
# Which offsets throw

The loads, stores and havocs that the transformer makes on the stack, at a constant offset
of 64 bits with a sign.  An access completes if nothing throws, and if the only bits that
it changes are those of its range that lie in the stack.

A store or a havoc completes for the offsets from zero to the greatest `int`, as long as
no cell that it overlaps with ends behind that number, and as long as the bytes of a split
cell are read from words.  A load completes for the same offsets if the bytes of a value
are read from words, and a load of a type also for those behind the stack at which the
wrapped distance to its end is not positive.  A negative offset close to zero always
throws.
-/

variable [LinearOrder Variable]

attribute [local instance(2000)] LinearOrder.toDecidableEq

/-- An access that the transformer makes. -/
inductive Access where
  | load (kind : DataKind) (index : LinearExpression Variable) (width : Nat)
  | store (kind : DataKind) (index size value : LinearExpression Variable)
  | havoc (kind : DataKind) (index size : LinearExpression Variable)
  | storeNumbers (index width : Variable)

/-- The run of an access. -/
def Access.perform (bigEndian : Bool) (state : AddBottom Variable × ArrayDomain) :
    Access -> Option (AddBottom Variable × ArrayDomain)
  | .load kind index width =>
    (ArrayDomain.load bigEndian state.2 state.1 kind index width).map
      (fun result => (state.1, result.2))
  | .store kind index size value =>
    (ArrayDomain.store bigEndian kind index size value state).map Prod.snd
  | .havoc kind index size => ArrayDomain.havoc bigEndian kind index size state
  | .storeNumbers index width => ArrayDomain.storeNumbers index width state

/-- The offset maps that accesses leave behind, from the empty ones on. -/
inductive Reached : (DataKind -> OffsetMap) -> Prop
  | start : Reached (fun _ => .empty)
  | access {bigEndian : Bool} {arrayMap : DataKind -> OffsetMap} {bits : BitsetDomain}
    {inv : AddBottom Variable}
      {access : Access} {next : AddBottom Variable × ArrayDomain} (reached : Reached arrayMap)
      (run : access.perform bigEndian (inv, ⟨bits, arrayMap⟩) = some next) : Reached next.2.arrayMap

/-- The offset and the width of an access are known in a state, and do not depend on the
contents of the stack. -/
def Access.At (inv : AddBottom Variable) (k : Int) (width : Nat) : Access -> Prop
  | .load _ index loaded => (inv.evalInterval index).singleton = some k ∧ loaded = width
  | .store _ index size _ | .havoc _ index size =>
      (inv.evalInterval index).singleton = some k ∧
        (inv.evalInterval size).singleton = some (width : Int) ∧ AvoidsCells index ∧
        AvoidsCells size
  | .storeNumbers index size =>
      (inv.getInterval index).singleton = some k ∧
        (inv.getInterval size).singleton = some (width : Int)

/-- Only bits of a range that are in the stack are changed. -/
def TouchesOnly (k : Int) (width : Nat) (before after : BitsetDomain) : Prop :=
  forall index, after.nonNumericalBytes index ≠ before.nonNumericalBytes index ->
    k ≤ index ∧ index < k + width ∧ index < ebpfTotalStackSize

/-- An access throws nothing and touches nothing outside of its range and of the stack. -/
def Access.Completes (bigEndian : Bool) (k : Int) (width : Nat)
    (state : AddBottom Variable × ArrayDomain) (access : Access) : Prop :=
  exists next, access.perform bigEndian state = some next ∧
    TouchesOnly k width state.2.numBytes next.2.numBytes

/-- The offset is not negative and narrows to `int`. -/
def InInt (k : Int) : Prop := 0 ≤ k ∧ k < 2 ^ 31

instance (k : Int) : Decidable (InInt k) := inferInstanceAs (Decidable (_ ∧ _))

/-- The offsets at which an access completes. -/
def Access.Accepts (inv : AddBottom Variable) (arrayMap : DataKind -> OffsetMap) (k : Int)
    (width : Nat) :
    Access -> Prop
  | .load kind _ _ =>
      if kind = .types then (0 ≤ k ∧ k < ebpfTotalStackSize) ∨
        Int.bmod (ebpfTotalStackSize - k) (2 ^ 32) ≤ 0
      else (arrayMap kind).Contains ⟨(BitVec.ofInt 64 k).toNat, width⟩ ∨
        ((IsValue kind -> ReadableBytes inv (BitVec.ofInt 64 k) width) ∧
          (InInt k ∨ (IsValue kind ∧ KnownBytes inv (BitVec.ofInt 64 k) width)))
  | .store kind _ _ _ | .havoc kind _ _ =>
      InInt k ∧ (IsValue kind ->
        ∀ cell ∈ ((arrayMap kind).overlapSearch ⟨k.toNat, width⟩).1,
        cell.offset + cell.size < 2 ^ 31)
  | .storeNumbers _ _ => 0 ≤ k

/-- The bytes that a store or a havoc splits off can be read. -/
def Access.SplitsReadable (inv : AddBottom Variable) (bits : BitsetDomain)
    (arrayMap : DataKind -> OffsetMap) (k : Int) (width : Nat) : Access -> Prop
  | .load _ _ _ | .storeNumbers _ _ => True
  | .store kind _ _ _ | .havoc kind _ _ =>
      IsValue kind -> ∀ cell ∈ ((arrayMap kind).overlapSearch ⟨k.toNat, width⟩).1,
        SplitsWords inv bits kind ⟨k.toNat, width⟩ cell

/-! ## Offsets as words -/

section Offsets

variable {k : Int} {width : Nat} {offset : Nat} {cell : Cell}

omit [LinearOrder Variable] in
theorem fits_int32_natCast : IntType.int32.Fits (offset : Int) ↔ offset < 2 ^ 31 := by
  change -2 ^ 31 ≤ (offset : Int) ∧ (offset : Int) ≤ 2 ^ 31 - 1 ↔ _
  omega

omit [LinearOrder Variable] in
/-- The distance from an offset to the end of the stack, with 32 bits. -/
theorem room_ofInt (k : Int) :
    BitsetDomain.room (BitVec.ofInt 64 k) = Int.bmod (ebpfTotalStackSize - k) (2 ^ 32) := by
  rw [BitsetDomain.room, BitVec.toInt_setWidth, BitVec.toNat_sub, BitVec.toNat_ofInt,
    BitVec.toNat_ofNat, BitsetDomain.ebpfTotalStackSize_eq]
  simp only [Int.bmod_def]
  omega

omit [LinearOrder Variable] in
theorem toNat_ofInt_eq (word : IntType.int64.Fits k) (nonnegative : 0 ≤ k) :
    (BitVec.ofInt 64 k).toNat = k.toNat := by
  have upper : k ≤ 2 ^ 63 - 1 := word.2
  rw [BitVec.toNat_ofInt]
  omega

omit [LinearOrder Variable] in
/-- A negative offset is a large word. -/
theorem toNat_ofInt_of_neg (word : IntType.int64.Fits k) (negative : k < 0) :
    2 ^ 63 ≤ (BitVec.ofInt 64 k).toNat := by
  have lower : -2 ^ 63 ≤ k := word.1
  rw [BitVec.toNat_ofInt]
  omega

omit [LinearOrder Variable] in
theorem fits_toNat_ofInt_iff (word : IntType.int64.Fits k) :
    IntType.int32.Fits ((BitVec.ofInt 64 k).toNat : Int) ↔ InInt k := by
  rw [fits_int32_natCast, InInt]
  rcases le_or_gt 0 k with nonnegative | negative
  · rw [toNat_ofInt_eq word nonnegative]
    omega
  · have large := toNat_ofInt_of_neg word negative
    omega

omit [LinearOrder Variable] in
/-- The offsets at which a loop over bits throws. -/
theorem misses_ofInt_iff (word : IntType.int64.Fits k) (positive : 1 ≤ width) :
    BitsetDomain.Misses (BitVec.ofInt 64 k) width ↔
      ¬ ((0 ≤ k ∧ k < ebpfTotalStackSize) ∨ Int.bmod (ebpfTotalStackSize - k) (2 ^ 32) ≤ 0) := by
  have outside : ebpfTotalStackSize ≤ (BitVec.ofInt 64 k).toNat ↔
      ¬ (0 ≤ k ∧ k < ebpfTotalStackSize) := by
    rw [BitsetDomain.ebpfTotalStackSize_eq]
    rcases le_or_gt 0 k with nonnegative | negative
    · rw [toNat_ofInt_eq word nonnegative]
      omega
    · have large := toNat_ofInt_of_neg word negative
      omega
  rw [BitsetDomain.Misses, outside, room_ofInt, not_or, not_le]
  constructor
  · intro missed
    exact ⟨missed.1, by omega⟩
  · intro missed
    exact ⟨missed.1, by omega⟩

omit [LinearOrder Variable] in
/-- No loop over bits throws at an offset that narrows. -/
theorem not_misses_of_fits (fits : IntType.int32.Fits (offset : Int)) (width : Int) :
    ¬ BitsetDomain.Misses (BitVec.ofNat 64 offset) width := by
  intro missed
  rw [fits_int32_natCast] at fits
  have outside := missed.1
  have room := room_ofInt (offset : Int)
  rw [BitVec.ofInt_natCast, BitsetDomain.ebpfTotalStackSize_eq] at room
  rw [BitsetDomain.ebpfTotalStackSize_eq, BitVec.toNat_ofNat] at outside
  have wrapped : Int.bmod ((4096 : Nat) - (offset : Int)) (2 ^ 32) = 4096 - offset := by
    rw [Int.bmod_eq_of_le] <;> omega
  have positive := missed.2
  rw [room, wrapped] at positive
  omega

omit [LinearOrder Variable] in
theorem endFits_iff (fits : IntType.int32.Fits (cell.offset : Int)) :
    EndFits cell ↔ cell.offset + cell.size < 2 ^ 31 := by
  have lower : -2 ^ 31 ≤ (cell.offset : Int) := fits.1
  constructor
  · intro ends
    have upper : (cell.offset + cell.size - 1 + 1 : Int) ≤ 2 ^ 31 - 1 := ends.behind.2
    omega
  · intro below
    refine ⟨fits, ?_, ?_⟩
    · change -2 ^ 31 ≤ (cell.offset + cell.size - 1 : Int) ∧
        (cell.offset + cell.size - 1 : Int) ≤ 2 ^ 31 - 1
      omega
    · change -2 ^ 31 ≤ (cell.offset + cell.size - 1 + 1 : Int) ∧
        (cell.offset + cell.size - 1 + 1 : Int) ≤ 2 ^ 31 - 1
      omega

omit [LinearOrder Variable] in
theorem placeFits_iff (isWidth : IsAccessWidth width) : PlaceFits k width ↔ InInt k := by
  constructor
  · intro fits
    have lower : 0 ≤ k := fits.offset.1
    have narrow := fits_int32_natCast.mp fits.narrow
    exact ⟨lower, by omega⟩
  · intro inInt
    refine ⟨?_, ?_, fits_int32_natCast.mpr (by have := inInt.2; omega)⟩
    · change 0 ≤ (width : Int) ∧ (width : Int) ≤ 2 ^ 32 - 1
      rcases isWidth with rfl | rfl | rfl | rfl <;> decide
    · change 0 ≤ k ∧ k ≤ 2 ^ 64 - 1
      have lower := inInt.1
      have upper := inInt.2
      omega

end Offsets

/-! ## What accesses leave as it is -/

section Frames

variable {bigEndian : Bool} {kind : DataKind} {index size value : LinearExpression Variable}
  {k : Int} {width : Nat}
  {state next : AddBottom Variable × ArrayDomain} {variable_ : Option Variable}
  {inv : AddBottom Variable} {bits after : BitsetDomain} {place : Cell}

omit [LinearOrder Variable] in
theorem touchesOnly_refl (bits : BitsetDomain) : TouchesOnly k width bits bits :=
  fun _ changed => absurd rfl changed

omit [LinearOrder Variable] in
theorem touchesOnly_of_eq (same : after = bits) : TouchesOnly k width bits after := by
  rw [same]
  exact touchesOnly_refl bits

omit [LinearOrder Variable] in
/-- A loop over bits that writes one value. -/
theorem touchesOnly_of_write {value : Bool} {lb : BitVec 64} (start : (lb.toNat : Int) = k)
    (written : forall index, after.nonNumericalBytes index =
      if BitsetDomain.InRange lb width index then value else bits.nonNumericalBytes index) :
    TouchesOnly k width bits after := by
  intro index changed
  rw [written] at changed
  split at changed
  · rename_i inRange
    refine ⟨?_, ?_, inRange.2.2⟩
    · rw [<- start]
      exact_mod_cast inRange.1
    · rw [<- start]
      exact inRange.2.1
  · exact absurd rfl changed

omit [LinearOrder Variable] in
theorem truncate_width (isWidth : IsAccessWidth width) :
    IntType.int32.truncate (width : Int) = width := by
  rcases isWidth with rfl | rfl | rfl | rfl <;> decide

omit [LinearOrder Variable] in
theorem toNat_ofNat_of_fits (inInt : InInt k) : ((BitVec.ofNat 64 k.toNat).toNat : Int) = k := by
  have lower := inInt.1
  have upper := inInt.2
  rw [BitVec.toNat_ofNat]
  omega

/-- The bits of a stored type are written, if the place fits. -/
theorem storeBits_eq_some (fits : IntType.int32.Fits (place.offset : Int)) :
    exists after, storeBits inv value place bits = some after := by
  apply Option.isSome_iff_exists.mp
  rw [storeBits]
  split
  · exact BitsetDomain.isSome_reset.mpr (not_misses_of_fits fits _)
  · exact BitsetDomain.isSome_havoc.mpr (not_misses_of_fits fits _)

theorem storeBits_touches (inInt : InInt k) (isWidth : IsAccessWidth width)
    (run : storeBits inv value ⟨k.toNat, width⟩ bits = some after) :
    TouchesOnly k width bits after := by
  rw [storeBits] at run
  dsimp only at run
  rw [truncate_width isWidth] at run
  split at run
  · exact touchesOnly_of_write (toNat_ofNat_of_fits inInt)
      (BitsetDomain.nonNumericalBytes_reset run)
  · exact touchesOnly_of_write (toNat_ofNat_of_fits inInt)
      (BitsetDomain.nonNumericalBytes_havoc run)

theorem splitAndFindVar_types {place : Option Cell}
    (run : splitAndFindVar bigEndian .types index size state = some (place, next))
    (offset : (state.1.evalInterval index).singleton = some k)
    (bytes : (state.1.evalInterval size).singleton = some (width : Int)) :
    place = some ⟨k.toNat, width⟩ := by
  have notValue : ¬ IsValue .types := by decide
  rw [splitAndFindVar, if_neg notValue] at run
  change killAndFindVar .types index size state = some (place, next) at run
  rw [killAndFindVar, offset, bytes] at run
  rcases Option.bind_eq_some_iff.mp run with ⟨_, _, same⟩
  cases same
  rfl

theorem store_keeps_narrow (run : store bigEndian kind index size value state = some
    (variable_, next))
    (narrow : NarrowCells state.2.arrayMap) : NarrowCells next.2.arrayMap := by
  rw [ArrayDomain.store] at run
  rcases Option.bind_eq_some_iff.mp run with ⟨⟨place, inv, array⟩, splitRun, run⟩
  have splits := splitAndFindVar_keeps splitRun
  have between := splits.1.narrow narrow
  cases place with
  | none =>
      cases run
      exact between
  | some place =>
      rcases Option.bind_eq_some_iff.mp run with ⟨bits, _, same⟩
      cases same
      refine between.setMap ?_
      exact fun cell => contains_mkCell_of_fits (splits.2 place rfl) (fun cell => id)

theorem store_touches (run : store bigEndian kind index size value state = some (variable_, next))
    (isWidth : IsAccessWidth width) (offset : (state.1.evalInterval index).singleton = some k)
    (bytes : (state.1.evalInterval size).singleton = some (width : Int)) :
    TouchesOnly k width state.2.numBytes next.2.numBytes := by
  rw [ArrayDomain.store] at run
  rcases Option.bind_eq_some_iff.mp run with ⟨⟨place, inv, array⟩, splitRun, run⟩
  have kept := (splitAndFindVar_keeps splitRun).1.numBytes
  have inInt := (placeFits_iff isWidth).mp (splitAndFindVar_fits splitRun offset bytes).1
  cases place with
  | none =>
      cases run
      exact touchesOnly_of_eq kept
  | some place =>
      rcases Option.bind_eq_some_iff.mp run with ⟨bits, bitsRun, same⟩
      cases same
      split at bitsRun
      · rename_i isTypes
        subst isTypes
        cases splitAndFindVar_types splitRun offset bytes
        rw [<- kept]
        exact storeBits_touches inInt isWidth bitsRun
      · cases bitsRun
        exact touchesOnly_of_eq kept

theorem havoc_keeps_narrow (run : ArrayDomain.havoc bigEndian kind index size state = some next)
    (narrow : NarrowCells state.2.arrayMap) : NarrowCells next.2.arrayMap := by
  rw [ArrayDomain.havoc] at run
  rcases Option.bind_eq_some_iff.mp run with ⟨⟨place, inv, array⟩, splitRun, run⟩
  have between := (splitAndFindVar_keeps splitRun).1.narrow narrow
  cases place with
  | none =>
      cases run
      exact between
  | some place =>
      dsimp only at run
      split at run
      · rcases Option.bind_eq_some_iff.mp run with ⟨bits, _, same⟩
        cases same
        exact between
      · cases run
        exact between

theorem havoc_touches (run : ArrayDomain.havoc bigEndian kind index size state = some next)
    (isWidth : IsAccessWidth width) (offset : (state.1.evalInterval index).singleton = some k)
    (bytes : (state.1.evalInterval size).singleton = some (width : Int)) :
    TouchesOnly k width state.2.numBytes next.2.numBytes := by
  rw [ArrayDomain.havoc] at run
  rcases Option.bind_eq_some_iff.mp run with ⟨⟨place, inv, array⟩, splitRun, later⟩
  have kept := (splitAndFindVar_keeps splitRun).1.numBytes
  have inInt := (placeFits_iff isWidth).mp (splitAndFindVar_fits splitRun offset bytes).1
  cases place with
  | none =>
      cases later
      exact touchesOnly_of_eq kept
  | some place =>
      dsimp only at later
      split at later
      · rename_i isTypes
        subst isTypes
        rcases Option.bind_eq_some_iff.mp later with ⟨bits, bitsRun, same⟩
        cases same
        cases splitAndFindVar_types splitRun offset bytes
        rw [truncate_width isWidth, kept] at bitsRun
        exact touchesOnly_of_write (toNat_ofNat_of_fits inInt)
          (BitsetDomain.nonNumericalBytes_havoc bitsRun)
      · cases later
        exact touchesOnly_of_eq kept

theorem storeNumbers_keeps {first second : Variable}
    (run : storeNumbers first second state = some next) :
    next.2.arrayMap = state.2.arrayMap := by
  rw [ArrayDomain.storeNumbers] at run
  split at run
  · split at run
    · cases run
      rfl
    · split at run
      · rcases Option.bind_eq_some_iff.mp run with ⟨bits, _, same⟩
        cases same
        rfl
      · cases run
  · cases run
    rfl

theorem storeNumbers_touches {first second : Variable}
    (run : storeNumbers first second state = some next)
    (word : IntType.int64.Fits k) (offset : (state.1.getInterval first).singleton = some k)
    (bytes : (state.1.getInterval second).singleton = some (width : Int)) :
    TouchesOnly k width state.2.numBytes next.2.numBytes := by
  rw [ArrayDomain.storeNumbers, offset, bytes] at run
  dsimp only at run
  split at run
  · cases run
    exact touchesOnly_refl _
  · split at run
    · rename_i fits
      rcases Option.bind_eq_some_iff.mp run with ⟨bits, bitsRun, same⟩
      cases same
      have nonnegative : 0 ≤ k := fits.1.1
      refine touchesOnly_of_write ?_ (BitsetDomain.nonNumericalBytes_reset bitsRun)
      rw [toNat_ofInt_eq word nonnegative]
      omega
    · cases run

/-- The offsets of all cells narrow, whatever accesses were made. -/
theorem Reached.narrow {arrayMap : DataKind -> OffsetMap} (reached : Reached arrayMap) :
    NarrowCells arrayMap := by
  induction reached with
  | start => exact fun kind cell contained => absurd contained KeyedSets.not_has_empty
  | @access bigEndian arrayMap bits inv access next _ run inductionHypothesis =>
      cases access with
      | load kind index width =>
          rcases Option.map_eq_some_iff.mp run with ⟨result, loadRun, rfl⟩
          exact (load_keeps loadRun).narrow inductionHypothesis
      | store kind index size value =>
          rcases Option.map_eq_some_iff.mp run with ⟨result, storeRun, rfl⟩
          exact store_keeps_narrow storeRun inductionHypothesis
      | havoc kind index size => exact havoc_keeps_narrow run inductionHypothesis
      | storeNumbers index width =>
          rw [storeNumbers_keeps run]
          exact inductionHypothesis

theorem Access.touchesOnly {access : Access} (run : access.perform bigEndian state = some next)
    (word : IntType.int64.Fits k) (isWidth : IsAccessWidth width)
    (known : access.At state.1 k width) :
    TouchesOnly k width state.2.numBytes next.2.numBytes := by
  cases access with
  | load kind index loaded =>
      rcases Option.map_eq_some_iff.mp run with ⟨result, loadRun, rfl⟩
      exact touchesOnly_of_eq (load_keeps loadRun).numBytes
  | store kind index size value =>
      rcases Option.map_eq_some_iff.mp run with ⟨result, storeRun, rfl⟩
      exact store_touches storeRun isWidth known.1 known.2.1
  | havoc kind index size => exact havoc_touches run isWidth known.1 known.2.1
  | storeNumbers first second => exact storeNumbers_touches run word known.1 known.2

end Frames

/-! ## Which accesses return -/

section Exactness

variable {bigEndian : Bool} {kind : DataKind} {index size value : LinearExpression Variable}
  {k : Int} {width : Nat}
  {inv : AddBottom Variable} {bits : BitsetDomain} {arrayMap : DataKind -> OffsetMap}
  {next : AddBottom Variable × ArrayDomain} {values : Variable -> Int}

theorem load_eq_loadAt (word : IntType.int64.Fits k)
    (offset : (inv.evalInterval index).singleton = some k)
    (array : ArrayDomain) : load bigEndian array inv kind index width =
      loadAt bigEndian array inv kind k width := by
  rw [ArrayDomain.load]
  dsimp only
  rw [offset]
  exact if_pos word

theorem isSome_loadCell_iff_accepts (word : IntType.int64.Fits k) (isWidth : IsAccessWidth width) :
    (loadCell bigEndian ⟨bits, arrayMap⟩ inv kind (BitVec.ofInt 64 k) width).isSome ↔
      (arrayMap kind).Contains ⟨(BitVec.ofInt 64 k).toNat, width⟩ ∨
        ((IsValue kind -> ReadableBytes inv (BitVec.ofInt 64 k) width) ∧
          (InInt k ∨ (IsValue kind ∧ KnownBytes inv (BitVec.ofInt 64 k) width))) := by
  have fits : IntType.int32.Fits (Cell.offset ⟨(BitVec.ofInt 64 k).toNat, width⟩) ↔ InInt k :=
    fits_toNat_ofInt_iff word
  rw [isSome_loadCell_iff, fits]
  simp only [isWidth, true_and]
  rw [@or_comm (InInt k)]

omit [LinearOrder Variable] in
theorem width_positive (isWidth : IsAccessWidth width) : 1 ≤ width := by
  rcases isWidth with rfl | rfl | rfl | rfl <;> decide

/-- The bits at the offset are read first by a load of a type. -/
theorem isSome_loadAt_types (reached : ¬ BitsetDomain.Misses (BitVec.ofInt 64 k) width) :
    (loadAt bigEndian ⟨bits, arrayMap⟩ inv .types k width).isSome := by
  rcases Option.isSome_iff_exists.mp (BitsetDomain.isSome_uniformity.mpr reached) with
    ⟨⟨onlyNum, onlyNonNum⟩, uniform⟩
  rw [loadAt, if_pos rfl, uniform]
  change Option.isSome (if onlyNum then _ else if _ then _ else _)
  split
  · rfl
  · rename_i notNum
    split
    · rfl
    · refine isSome_loadCell_iff.mpr (Or.inr ⟨fun isValue => absurd isValue (by decide), Or.inr ?_⟩)
      -- outside of the stack nothing is visited, so that all visited bytes are numbers
      by_contra outside
      apply notNum
      have empty : BitsetDomain.positions (BitVec.ofInt 64 k) width = [] := by
        by_contra visited
        rcases List.exists_mem_of_ne_nil _ visited with ⟨position, member⟩
        have inside : (BitVec.ofInt 64 k).toNat < ebpfTotalStackSize := by
          by_contra beyond
          rcases List.mem_map.mp member with ⟨number, below, _⟩
          rw [List.mem_range] at below
          exact reached ⟨not_lt.mp beyond, by omega⟩
        apply outside
        refine fits_int32_natCast.mpr ?_
        change (BitVec.ofInt 64 k).toNat < 2 ^ 31
        rw [BitsetDomain.ebpfTotalStackSize_eq] at inside
        omega
      rw [BitsetDomain.uniformity, empty] at uniform
      cases uniform
      rfl

theorem isSome_load_iff_accepts (word : IntType.int64.Fits k) (isWidth : IsAccessWidth width)
    (offset : (inv.evalInterval index).singleton = some k) :
    (load bigEndian ⟨bits, arrayMap⟩ inv kind index width).isSome ↔
      Access.Accepts inv arrayMap k width (.load kind index width) := by
  rw [load_eq_loadAt word offset, Access.Accepts]
  by_cases isTypes : kind = .types
  · subst isTypes
    rw [if_pos rfl, <- not_iff_not, <- misses_ofInt_iff word (width_positive isWidth)]
    constructor
    · intro throws
      by_contra reached
      exact throws (isSome_loadAt_types reached)
    · intro missed returns
      rw [loadAt, if_pos rfl] at returns
      rcases Option.isSome_iff_exists.mp returns with ⟨result, run⟩
      rcases Option.bind_eq_some_iff.mp run with ⟨both, uniform, _⟩
      exact BitsetDomain.isSome_uniformity.mp (Option.isSome_of_eq_some uniform) missed
  · rw [if_neg isTypes, loadAt, if_neg isTypes]
    exact isSome_loadCell_iff_accepts word isWidth

omit [LinearOrder Variable] in
/-- The condition of a store or a havoc, over the places. -/
theorem accepts_place_iff (narrow : NarrowCells arrayMap) (isWidth : IsAccessWidth width) :
    (PlaceFits k width ∧ (IsValue kind ->
      ∀ cell ∈ ((arrayMap kind).overlapSearch ⟨k.toNat, (width : Int).toNat⟩).1, EndFits cell)) ↔
    (InInt k ∧ (IsValue kind ->
      ∀ cell ∈ ((arrayMap kind).overlapSearch ⟨k.toNat, width⟩).1,
      cell.offset + cell.size < 2 ^ 31)) := by
  rw [placeFits_iff isWidth, Int.toNat_natCast]
  have ends : ∀ cell ∈ ((arrayMap kind).overlapSearch ⟨k.toNat, width⟩).1,
      (EndFits cell ↔ cell.offset + cell.size < 2 ^ 31) := by
    intro cell member
    have contained := (@overlap_of_mem_overlapSearch _ cell ⟨k.toNat, width⟩
      (width_positive isWidth) member).1
    exact endFits_iff (narrow kind cell contained)
  constructor
  · intro fits
    exact ⟨fits.1, fun isValue cell member => (ends cell member).mp (fits.2 isValue cell member)⟩
  · intro fits
    exact ⟨fits.1, fun isValue cell member => (ends cell member).mpr (fits.2 isValue cell member)⟩

theorem isSome_store {state : AddBottom Variable × ArrayDomain}
    (run : exists place next,
      splitAndFindVar bigEndian kind index size state = some (place, next)) :
    (ArrayDomain.store bigEndian kind index size value state).isSome := by
  rcases run with ⟨place, ⟨inv, array⟩, run⟩
  have fits := (splitAndFindVar_keeps run).2
  rw [ArrayDomain.store, run]
  cases place with
  | none => rfl
  | some place =>
      rcases @storeBits_eq_some _ value inv array.numBytes place (fits place rfl) with
        ⟨bits, written⟩
      by_cases isTypes : kind = .types
      · simp [isTypes, written]
      · simp [isTypes]

theorem isSome_havoc {state : AddBottom Variable × ArrayDomain}
    (run : exists place next,
      splitAndFindVar bigEndian kind index size state = some (place, next)) :
    (ArrayDomain.havoc bigEndian kind index size state).isSome := by
  rcases run with ⟨place, ⟨inv, array⟩, run⟩
  have fits := (splitAndFindVar_keeps run).2
  rw [ArrayDomain.havoc, run]
  cases place with
  | none => rfl
  | some place =>
      by_cases isTypes : kind = .types
      · have reached : (array.numBytes.havoc (BitVec.ofNat 64 place.offset)
            (IntType.int32.truncate place.size)).isSome :=
          BitsetDomain.isSome_havoc.mpr (not_misses_of_fits (fits place rfl) _)
        rcases Option.isSome_iff_exists.mp reached with ⟨bits, written⟩
        simp [isTypes, written]
      · simp [isTypes]

theorem isSome_storeNumbers_iff {first second : Variable} {array : ArrayDomain}
    (word : IntType.int64.Fits k)
    (isWidth : IsAccessWidth width) (offset : (inv.getInterval first).singleton = some k)
    (bytes : (inv.getInterval second).singleton = some (width : Int)) :
    (ArrayDomain.storeNumbers first second (inv, array)).isSome ↔ 0 ≤ k := by
  have small : width ≤ 8 := by
    rcases isWidth with rfl | rfl | rfl | rfl <;> decide
  have fits : IntType.int32.Fits (width : Int) := fits_int32_natCast.mpr (by omega)
  have upper : k ≤ 2 ^ 63 - 1 := word.2
  rw [ArrayDomain.storeNumbers, offset, bytes]
  dsimp only
  split
  · rename_i beyond
    rw [BitsetDomain.ebpfTotalStackSize_eq] at beyond
    exact ⟨fun _ => by omega, fun _ => rfl⟩
  · rename_i within
    rw [BitsetDomain.ebpfTotalStackSize_eq] at within
    split
    · rename_i both
      refine ⟨fun _ => both.1.1, fun nonnegative => ?_⟩
      have inside : IntType.int32.Fits (k.toNat : Int) := fits_int32_natCast.mpr (by omega)
      have same : BitVec.ofInt 64 k = BitVec.ofNat 64 k.toNat := by
        rw [<- BitVec.ofInt_natCast, Int.toNat_of_nonneg nonnegative]
      rcases Option.isSome_iff_exists.mp (@BitsetDomain.isSome_reset array.numBytes _ _ |>.mpr
        (not_misses_of_fits inside width)) with ⟨bits, written⟩
      rw [same, written]
      rfl
    · rename_i notBoth
      refine ⟨fun impossible => absurd impossible Bool.false_ne_true, fun nonnegative => ?_⟩
      refine absurd ⟨⟨nonnegative, ?_⟩, fits⟩ notBoth
      change k ≤ 2 ^ 64 - 1
      omega

/-- A state in which a number is known represents something. -/
theorem exists_represents_of_singleton (single : (inv.evalInterval index).singleton = some k) :
    exists values, inv.Represents values := by
  cases inv with
  | none => cases single
  | some s => exact AddBottom.exists_represents rfl

/-- The cells of a store or a havoc that is accepted and splits what can be read. -/
theorem splitAndFindVar_of_accepts (narrow : NarrowCells arrayMap) (isWidth : IsAccessWidth width)
    (offset : (inv.evalInterval index).singleton = some k)
    (bytes : (inv.evalInterval size).singleton = some (width : Int))
    (indexAvoids : AvoidsCells index) (sizeAvoids : AvoidsCells size)
    (accepts : InInt k ∧ (IsValue kind ->
      ∀ cell ∈ ((arrayMap kind).overlapSearch ⟨k.toNat, width⟩).1,
      cell.offset + cell.size < 2 ^ 31))
    (splits : IsValue kind -> ∀ cell ∈ ((arrayMap kind).overlapSearch ⟨k.toNat, width⟩).1,
      SplitsWords inv bits kind ⟨k.toNat, width⟩ cell) :
    exists place next, splitAndFindVar bigEndian kind index size (inv, ⟨bits, arrayMap⟩) = some
      (place, next) := by
  rcases exists_represents_of_singleton offset with ⟨values, represents⟩
  have fits := (accepts_place_iff narrow isWidth).mpr accepts
  refine @splitAndFindVar_eq_some _ kind bigEndian values index size k width
    (inv, ⟨bits, arrayMap⟩) represents offset
    bytes indexAvoids sizeAvoids (width_positive isWidth) fits.1 ?_
  exact fun isValue cell member => ⟨fits.2 isValue cell member, splits isValue cell member⟩

/-- What is split can be read in a state that represents a machine state, in which the cells
hold words. -/
theorem Access.splitsReadable_of_represents {access : Access} (represents : inv.Represents values)
    (words : forall cell : Cell, IntType.uint64.FitsCast (values (cell.getScalar .svalues))) :
    access.SplitsReadable inv bits arrayMap k width := by
  have allows : forall start len, AllowsWords inv start len :=
    fun start len o _ _ width _ => allowsWord_of_represents represents (words _)
  cases access with
  | load kind index loaded => trivial
  | store kind index size value => exact fun _ cell _ _ _ _ => ⟨allows _ _, allows _ _⟩
  | havoc kind index size => exact fun _ cell _ _ _ _ => ⟨allows _ _, allows _ _⟩
  | storeNumbers first second => trivial

/-- An access that completes is at an offset that is accepted.  An accepted access
completes, if it splits only what can be read from words. -/
theorem Access.completes_iff (reached : Reached arrayMap) (bigEndian : Bool)
    (inv : AddBottom Variable)
    (bits : BitsetDomain) (access : Access) (word : IntType.int64.Fits k)
    (isWidth : IsAccessWidth width) (known : access.At inv k width) :
    (access.Completes bigEndian k width (inv, ⟨bits, arrayMap⟩) ->
      access.Accepts inv arrayMap k width) ∧
      (access.SplitsReadable inv bits arrayMap k width -> access.Accepts inv arrayMap k width ->
        access.Completes bigEndian k width (inv, ⟨bits, arrayMap⟩)) := by
  have narrow := reached.narrow
  constructor
  · intro completes
    rcases completes with ⟨next, run, _⟩
    cases access with
    | load kind index loaded =>
        rcases Option.map_eq_some_iff.mp run with ⟨result, loadRun, _⟩
        rcases known with ⟨offset, rfl⟩
        exact (isSome_load_iff_accepts word isWidth offset).mp (Option.isSome_of_eq_some loadRun)
    | store kind index size value =>
        rcases Option.map_eq_some_iff.mp run with ⟨result, storeRun, _⟩
        rcases Option.bind_eq_some_iff.mp storeRun with ⟨⟨place, after⟩, splitRun, _⟩
        exact (accepts_place_iff narrow isWidth).mp
          (splitAndFindVar_fits splitRun known.1 known.2.1)
    | havoc kind index size =>
        rcases Option.bind_eq_some_iff.mp run with ⟨⟨place, after⟩, splitRun, _⟩
        exact (accepts_place_iff narrow isWidth).mp
          (splitAndFindVar_fits splitRun known.1 known.2.1)
    | storeNumbers first second =>
        exact (isSome_storeNumbers_iff word isWidth known.1 known.2).mp (Option.isSome_of_eq_some run)
  · intro splits accepts
    have returns : (access.perform bigEndian (inv, ⟨bits, arrayMap⟩)).isSome := by
      cases access with
      | load kind index loaded =>
          rcases known with ⟨offset, rfl⟩
          rw [Access.perform, Option.isSome_map]
          exact (isSome_load_iff_accepts word isWidth offset).mpr accepts
      | store kind index size value =>
          rw [Access.perform, Option.isSome_map]
          exact isSome_store (splitAndFindVar_of_accepts narrow isWidth known.1 known.2.1
            known.2.2.1 known.2.2.2
            accepts splits)
      | havoc kind index size =>
          exact isSome_havoc (splitAndFindVar_of_accepts narrow isWidth known.1 known.2.1
            known.2.2.1 known.2.2.2
            accepts splits)
      | storeNumbers first second => exact (isSome_storeNumbers_iff word isWidth known.1 known.2).mpr accepts
    rcases Option.isSome_iff_exists.mp returns with ⟨next, run⟩
    exact ⟨next, run, Access.touchesOnly run word isWidth known⟩

end Exactness

end ArrayDomain

namespace ArrayDomain

section Runs

attribute [local instance] Variable.variableOrder
attribute [local instance(2000)] LinearOrder.toDecidableEq

theorem at_havoc_const (kind : DataKind) (k : Int) (width : Nat) :
    (Access.havoc kind (.const k) (.const width)).At AddBottom.top k width :=
  ⟨singleton_const (AddBottom.represents_top (fun _ => 0)) k,
    singleton_const (AddBottom.represents_top (fun _ => 0)) width, avoidsCells_const,
    avoidsCells_const⟩

/-- The stack behind a store of eight bytes at its start. -/
def storedWord : AddBottom Variable × ArrayDomain :=
  ((Access.store .svalues (.const 0) (.const 8) (.const 5)).perform false
    (AddBottom.top, ⟨⟨fun _ => false⟩, fun _ => .empty⟩)).get (by decide +kernel)

theorem reached_storedWord : Reached storedWord.2.arrayMap :=
  .access .start (Option.some_get _).symm

/-- The stored bytes are five, and a register lies between zero and ten. -/
def boundedWord : AddBottom Variable :=
  (AddBottom.top.set (Cell.getScalar ⟨0, 8⟩ .svalues) (.ofNumber 5)).set (RegPack.svalue ⟨⟨1⟩⟩)
    (.range 0 10)

/-- The upper half of the stored bytes can be written, and the lower half is split off. -/
theorem completes_store_half :
    (Access.store .svalues (.const 4) (.const 4) (.const 7)).Completes false 4 4
    (boundedWord, ⟨⟨fun _ => false⟩, storedWord.2.arrayMap⟩) := by
  have represents : boundedWord.Represents
      (Function.update (Function.update (fun _ => 0) (Cell.getScalar ⟨0, 8⟩ .svalues) 5)
        (RegPack.svalue ⟨⟨1⟩⟩) 3) :=
    AddBottom.represents_set_update _ (AddBottom.represents_set_update
      _ (AddBottom.represents_top _)
      (Interval.mem_ofNumber.mpr rfl)) (by decide)
  have known : (Access.store .svalues (.const 4) (.const 4) (.const 7)).At boundedWord 4 4 :=
    ⟨singleton_const represents 4, singleton_const represents 4, avoidsCells_const,
      avoidsCells_const⟩
  refine (Access.completes_iff reached_storedWord false boundedWord
    ⟨fun _ => false⟩ _ (by decide) (by decide)
    known).2 (Access.splitsReadable_of_represents represents ?_)
    ⟨by decide, fun _ => by decide +kernel⟩
  intro cell
  rw [Function.update_apply, Function.update_apply]
  split
  · decide
  · split <;> decide

/-- A byte in front of the stack cannot. -/
theorem not_completes_every_offset :
    ¬ forall (bigEndian : Bool) (arrayMap : DataKind -> OffsetMap) (bits : BitsetDomain)
    (inv : AddBottom Variable) (access : Access) (k : Int) (width : Nat), Reached arrayMap ->
      IntType.int64.Fits k -> IsAccessWidth width -> access.At inv k width ->
      access.Completes bigEndian k width (inv, ⟨bits, arrayMap⟩) := by
  intro always
  rcases always false (fun _ => .empty) ⟨fun _ => false⟩ AddBottom.top
    (.havoc .types (.const (-1)) (.const 1)) (-1) 1
    Reached.start (by decide) (by decide) (at_havoc_const .types (-1) 1) with ⟨next, run, _⟩
  rw [Access.perform, ArrayDomain.havoc] at run
  rcases Option.bind_eq_some_iff.mp run with ⟨⟨place, after⟩, splitRun, _⟩
  have known := at_havoc_const .types (-1) 1
  have fits := (splitAndFindVar_fits splitRun known.1 known.2.1).1
  exact absurd fits.offset (by decide)

end Runs

end ArrayDomain
end Crab
end Prevail
