import Prevail.Crab.SplitDbm.AddBottomConstraint
import Prevail.Crab.TypeJoin
import Prevail.Ebpf.CheckerSound

namespace Prevail
namespace Ebpf

open Crab

/-!
# Keys and values of maps

Whether the key or the value behind an access register lies in the region that the
register points to, for an accepted `ValidMapKeyValue` over difference bounds.

The bytes of a stack range are tested only as far as the stack reaches, and the
end of a packet is compared with the largest size of a packet.  Two checks are
missing that the accesses of instructions get: the bounds of the stack, and
`check_access_packet` with the size of the packet.  An accepted argument is in
bounds just if the state would pass them as well.
-/

section Requirements

variable [LinearOrder Variable] {inv : AddBottom Variable} {type : TypeEncoding} {reg : Reg}
  {values : Variable -> Int}

/-- What is known under the assumption that a register has a type. -/
theorem represents_typeIs :
    AddBottom.Represents (AddBottom.addConstraint (typeIs reg type) inv) values ↔
      inv.Represents values ∧ values (regPack reg).type = type.value := by
  have difference : SplitDbm.IsDifference (typeIs reg type).expression :=
    .upper (regPack reg).type _
  rw [AddBottom.represents_addConstraint_difference wellFormed_typeIs nofun difference, typeIs,
    LinearConstraint.holds_eq, LinearExpression.eval_var, LinearExpression.eval_const]

/-- A bound or a difference that holds of everything represented is required
without a message. -/
theorem requireConstraint_eq_nil {constraint : LinearConstraint Variable} {message : String}
    (wellFormed : constraint.expression.WellFormed)
    (difference : SplitDbm.IsDifference constraint.expression)
    (holds : forall values, inv.Represents values -> constraint.Holds values) :
    requireConstraint (AddBottom.domain Variable) inv constraint message = [] := by
  apply if_pos
  unfold checkRequire
  rw [Bool.or_eq_true]
  cases isBottom : (AddBottom.domain Variable).isBottom inv with
  | true => exact Or.inl rfl
  | false =>
      rcases AddBottom.exists_represents isBottom with ⟨values, represents⟩
      have possible : constraint.isContradiction = false := by
        rw [Bool.eq_false_iff]
        intro contradiction
        have fails := LinearConstraint.not_holds_of_isContradiction values contradiction
        exact fails (holds values represents)
      rw [possible]
      exact Or.inr (AddBottom.entail_of_holds wellFormed difference holds)

omit [LinearOrder Variable] in
theorem isDifference_subtract (c : Int) (x y : Variable) :
    SplitDbm.IsDifference (LinearExpression.subtract ⟨c, [(x, 1)]⟩ (.var y)) := by
  have form : LinearExpression.subtract ⟨c, [(x, 1)]⟩ (.var y) =
      ⟨c, if x = y then [] else [(x, 1), (y, -1)]⟩ := by
    by_cases same : x = y <;>
      simp [LinearExpression.subtract, LinearExpression.plus, LinearExpression.negate,
        LinearExpression.multiply, LinearExpression.var, LinearExpression.addTerm, same]
  rw [form]
  split
  · exact .constant c
  · exact .difference x y c

end Requirements

/-! ## Arguments in bounds -/

/-- The argument lies in the region that its pointer refers to. -/
def KeyValueInBounds (values : Variable -> Int) (numeric : Int -> Prop) (s : ValidMapKeyValue)
    (width : Int) (type : TypeEncoding) : Prop :=
  let access := regPack s.accessReg
  match type with
  | .stack =>
      0 ≤ values access.stackOffset ∧ values access.stackOffset + width ≤ ebpfTotalStackSize ∧
        forall index, values access.stackOffset ≤ index ->
          index < values access.stackOffset + width -> numeric index
  | .packet =>
      values .metaOffset ≤ values access.packetOffset ∧
        values access.packetOffset + width ≤ values .packetSize
  | .shared =>
      0 ≤ values access.sharedOffset ∧
        values access.sharedOffset + width ≤ values access.sharedRegionSize ∧
        0 < values access.svalue
  | _ => False

/-- The checks that `operator()(const ValidMapKeyValue&)` leaves out, on the state
in which the access register has a type: those of `check_access_stack` with the
whole stack as the region, and `check_access_packet` with the size of the packet. -/
def missingChecks (dom : NumAbsDomain Variable) (inv : dom.State) (s : ValidMapKeyValue)
    (width : Int) (type : TypeEncoding) : List String :=
  let access := regPack s.accessReg
  let typed := dom.addConstraint (typeIs s.accessReg type) inv
  match type with
  | .stack =>
      let lb := LinearExpression.var access.stackOffset
      requireConstraint dom typed (.ge lb (.const 0)) "Lower bound must be at least 0" ++
        requireConstraint dom typed (.le (lb.plus (.const width)) (.const ebpfTotalStackSize))
          "Upper bound must be at most EBPF_TOTAL_STACK_SIZE"
  | .packet =>
      let lb := LinearExpression.var access.packetOffset
      checkAccessPacket dom typed lb (lb.plus (.const width)) (some .packetSize)
  | _ => []

section Bounds

variable [LinearOrder Variable] {context : CheckerContext} {inv : AddBottom Variable}
  {stack : BitsetDomain} {s : ValidMapKeyValue} {width : Int} {type : TypeEncoding}
  {values : Variable -> Int} {numeric : Int -> Prop}

/-- The checks that are made and those that are missing together establish the
bounds. -/
theorem checkKeyValue_inBounds
    (accepted : checkKeyValue (AddBottom.domain Variable) context stack inv s width type = [])
    (missing : missingChecks (AddBottom.domain Variable) inv s width type = [])
    (represents : (AddBottom.domain Variable).Represents inv values)
    (typed : values (regPack s.accessReg).type = type.value) (bitsValid : stack.Valid numeric) :
    KeyValueInBounds values numeric s width type := by
  have narrowed : (AddBottom.domain Variable).Represents
      ((AddBottom.domain Variable).addConstraint (typeIs s.accessReg type) inv) values :=
    represents_typeIs.mpr ⟨represents, typed⟩
  have refused : forall message, requireFalse (AddBottom.domain Variable) inv message ≠ [] :=
    requireFalse_ne_nil represents
  cases type with
  | stack =>
      rcases List.append_eq_nil_iff.mp missing with ⟨lower, upper⟩
      have above := holds_of_requireConstraint (by simp) lower narrowed
      have below := holds_of_requireConstraint (by simp) upper narrowed
      simp only [LinearConstraint.holds_ge, LinearConstraint.holds_le, LinearExpression.eval_plus,
        LinearExpression.eval_var, LinearExpression.eval_const] at above below
      simp only [checkKeyValue] at accepted
      split at accepted
      · exact absurd accepted (refused _)
      · rename_i all
        simp only [Bool.not_eq_true', Bool.not_eq_false] at all
        refine ⟨above, below, ?_⟩
        intro index first last
        exact numeric_of_allNum all represents bitsValid (by simpa using first)
          (by simpa using last) ⟨by omega, by omega⟩
  | packet =>
      simp only [missingChecks] at missing
      have bounds := checkAccessPacket_accepted (by simp) missing narrowed
      simp only [LinearExpression.eval_plus, LinearExpression.eval_var,
        LinearExpression.eval_const] at bounds
      exact bounds
  | shared =>
      rcases List.append_eq_nil_iff.mp accepted with ⟨bounded, positive⟩
      have bounds := checkAccessShared_accepted (by simp) bounded represents
      simp only [LinearExpression.eval_plus, LinearExpression.eval_var,
        LinearExpression.eval_const] at bounds
      have notNull := holds_of_requireConstraint (by simp) positive represents
      rw [LinearConstraint.holds_gt, LinearExpression.eval_var, LinearExpression.eval_const]
        at notNull
      exact ⟨bounds.1, bounds.2, notNull⟩
  | uninit => exact absurd accepted (refused _)
  | mapPrograms => exact absurd accepted (refused _)
  | map => exact absurd accepted (refused _)
  | num => exact absurd accepted (refused _)
  | ctx => exact absurd accepted (refused _)

/-- A state all of whose arguments are in bounds passes the missing checks. -/
theorem missingChecks_eq_nil
    (inBounds : forall values, inv.Represents values ->
      values (regPack s.accessReg).type = type.value ->
        KeyValueInBounds values (fun _ => True) s width type) :
    missingChecks (AddBottom.domain Variable) inv s width type = [] := by
  have bounds : forall values,
      AddBottom.Represents (AddBottom.addConstraint (typeIs s.accessReg type) inv) values ->
        KeyValueInBounds values (fun _ => True) s width type := by
    intro values represents
    rcases represents_typeIs.mp represents with ⟨before, typed⟩
    exact inBounds values before typed
  cases type with
  | stack =>
      apply List.append_eq_nil_iff.mpr
      constructor
      · apply requireConstraint_eq_nil (by simp) (.lower (regPack s.accessReg).stackOffset _)
        intro values represents
        rw [LinearConstraint.holds_ge, LinearExpression.eval_var, LinearExpression.eval_const]
        exact (bounds values represents).1
      · apply requireConstraint_eq_nil (by simp) (.upper (regPack s.accessReg).stackOffset _)
        intro values represents
        rw [LinearConstraint.holds_le, LinearExpression.eval_plus, LinearExpression.eval_var,
          LinearExpression.eval_const, LinearExpression.eval_const]
        exact (bounds values represents).2.1
  | packet =>
      apply List.append_eq_nil_iff.mpr
      constructor
      · apply requireConstraint_eq_nil (by simp)
          (isDifference_subtract 0 .metaOffset (regPack s.accessReg).packetOffset)
        intro values represents
        rw [LinearConstraint.holds_ge, LinearExpression.eval_var, LinearExpression.eval_var]
        exact (bounds values represents).1
      · apply requireConstraint_eq_nil (by simp)
          (isDifference_subtract _ (regPack s.accessReg).packetOffset .packetSize)
        intro values represents
        rw [LinearConstraint.holds_le, LinearExpression.eval_plus, LinearExpression.eval_var,
          LinearExpression.eval_const, LinearExpression.eval_var]
        exact (bounds values represents).2
  | _ => rfl

end Bounds

/-- The arguments of an accepted `ValidMapKeyValue` are in bounds just if the state
passes the missing checks as well, for every map that the argument may be used
with and every type that the access register may have. -/
theorem validMapKeyValue_inBounds_iff [LinearOrder Variable] (context : CheckerContext)
    (state : EbpfDomain (AddBottom.domain Variable)) (s : ValidMapKeyValue)
    (accepted : Accepts context state (.validMapKeyValue s)) :
    (forall values, AddBottom.Represents state.inv values -> forall type : TypeEncoding,
      values (regPack s.accessReg).type = type.value -> forall numeric, state.stack.Valid numeric ->
        ∀ mapFd ∈ evalVariable _ state.inv (regPack s.mapFdReg).mapFd,
          exists map, context.mapDescriptor mapFd = some map ∧
            KeyValueInBounds values numeric s (argumentSize s map) type) ↔
      ∀ mapFd ∈ evalVariable _ state.inv (regPack s.mapFdReg).mapFd,
        forall map, context.mapDescriptor mapFd = some map -> forall type : TypeEncoding,
          missingChecks _ state.inv s (argumentSize s map) type = [] := by
  constructor
  · intro inBounds mapFd member map found type
    apply missingChecks_eq_nil
    intro values represents typed
    rcases inBounds values represents type typed (fun _ => True) (fun _ _ _ => trivial) mapFd
      member with ⟨other, sameFound, bounds⟩
    obtain rfl : map = other := Option.some.inj (found.symm.trans sameFound)
    exact bounds
  · intro missing values represents type typed numeric bitsValid mapFd member
    rcases validMapKeyValue_accepted accepted represents typed member with ⟨map, found, passed⟩
    exact ⟨map, found, checkKeyValue_inBounds passed (missing mapFd member map found type)
      represents typed bitsValid⟩

/-! ## Examples -/

section Samples

attribute [local instance] Variable.variableOrder

/-- A map value behind r2, of a map in r1. -/
def valueInR2 : ValidMapKeyValue := ⟨⟨2⟩, ⟨1⟩, false⟩

/-- A pointer in r2 to the last eight bytes of the stack or into the first bytes of
a packet, and one of two maps in r1. -/
def endingState : EbpfDomain (AddBottom.domain Variable) :=
  ⟨AddBottom.setEntries [((regPack ⟨1⟩).mapFd, .range 1 2),
    ((regPack ⟨2⟩).type, .range (-2) (-1)), ((regPack ⟨2⟩).stackOffset, .ofNumber 4088),
    ((regPack ⟨2⟩).packetOffset, .range 0 100), (.metaOffset, .ofNumber 0),
    (.packetSize, .range 108 200)] AddBottom.top, ⟨fun _ => false⟩⟩

/-- The map value is accepted, and every value that the pointer may point to is in
bounds. -/
theorem validMapKeyValue_inBounds_ending :
    Accepts sampleContext endingState (.validMapKeyValue valueInR2) ∧
      forall values, AddBottom.Represents endingState.inv values ->
        forall type : TypeEncoding, values (regPack ⟨2⟩).type = type.value ->
          ∀ mapFd ∈ evalVariable _ endingState.inv (regPack ⟨1⟩).mapFd,
            exists map, sampleContext.mapDescriptor mapFd = some map ∧
              KeyValueInBounds values (fun _ => True) valueInR2 (argumentSize valueInR2 map)
                type := by
  have accepted : Accepts sampleContext endingState (.validMapKeyValue valueInR2) := by
    unfold Accepts
    decide +kernel
  refine ⟨accepted, fun values represents type typed => ?_⟩
  refine (validMapKeyValue_inBounds_iff sampleContext endingState valueInR2 accepted).mpr ?_
    values represents type typed _ (fun _ _ _ => trivial)
  intro mapFd member map found type
  have size : argumentSize valueInR2 map = 8 := by
    simp only [sampleContext] at found
    split at found
    · cases found
      rfl
    · split at found
      · cases found
        rfl
      · cases found
  rw [size]
  cases type <;> decide

/-- A pointer in r2 and the descriptor of the first map in r1. -/
def keyEntries (type : TypeEncoding) (offset packetSize : Int) : List (Variable × Int) :=
  [((regPack ⟨1⟩).mapFd, 1), ((regPack ⟨2⟩).type, type.value), ((regPack ⟨2⟩).stackOffset, offset),
    ((regPack ⟨2⟩).packetOffset, offset), (.metaOffset, 0), (.packetSize, packetSize)]

/-- The state in which they are known exactly, over a stack of numbers. -/
def keyState (type : TypeEncoding) (offset packetSize : Int) :
    EbpfDomain (AddBottom.domain Variable) :=
  ⟨AddBottom.setEntries
    ((keyEntries type offset packetSize).map (fun entry => (entry.1, .ofNumber entry.2)))
    AddBottom.top, ⟨fun _ => false⟩⟩

theorem represents_setEntries_ofNumber {state : AddBottom Variable} {values : Variable -> Int}
    (represents : state.Represents values) (entries : List (Variable × Int)) :
    (state.setEntries (entries.map (fun entry => (entry.1, .ofNumber entry.2)))).Represents
      (entries.foldl (fun values entry => Function.update values entry.1 entry.2) values) := by
  induction entries generalizing state values with
  | nil => exact represents
  | cons entry rest inductionHypothesis =>
      apply inductionHypothesis
      apply AddBottom.represents_set represents
        (fun other different => Function.update_of_ne different ..)
      exact Interval.mem_ofNumber.mpr (Function.update_self ..)

theorem represents_keyState (type : TypeEncoding) (offset packetSize : Int) :
    AddBottom.Represents (keyState type offset packetSize).inv
      ((keyEntries type offset packetSize).foldl
        (fun values entry => Function.update values entry.1 entry.2) (fun _ => 0)) :=
  represents_setEntries_ofNumber (AddBottom.represents_top _) _

/-- The value of eight bytes behind a pointer in r2 is accepted, together with
the type constraint, but is not in bounds. -/
def AcceptsOutOfBounds (type : TypeEncoding) (offset : Int) : Prop :=
  Accepts sampleContext (keyState type offset 0) (.typeConstraint ⟨2⟩ .mem) ∧
    Accepts sampleContext (keyState type offset 0) (.validMapKeyValue valueInR2) ∧
      exists values, AddBottom.Represents (keyState type offset 0).inv values ∧
        values (regPack ⟨2⟩).type = type.value ∧
          (1 : Int) ∈ evalVariable _ (keyState type offset 0).inv
              (regPack valueInR2.mapFdReg).mapFd ∧
            forall map, sampleContext.mapDescriptor 1 = some map ->
              ¬ KeyValueInBounds values (fun _ => True) valueInR2 (argumentSize valueInR2 map) type

/-- Such values are at the last six bytes of the stack and behind the end of an
empty packet. -/
theorem validMapKeyValue_accepts_out_of_bounds :
    AcceptsOutOfBounds .stack 4090 ∧ AcceptsOutOfBounds .packet 65000 := by
  constructor
  · refine ⟨by unfold Accepts; decide, by unfold Accepts; decide, _,
      represents_keyState .stack 4090 0, by decide, by decide, ?_⟩
    intro map found bounds
    cases found
    exact absurd bounds.2.1 (by decide)
  · refine ⟨by unfold Accepts; decide, by unfold Accepts; decide, _,
      represents_keyState .packet 65000 0, by decide, by decide, ?_⟩
    intro map found bounds
    cases found
    exact absurd bounds.2 (by decide)

end Samples

end Ebpf
end Prevail
