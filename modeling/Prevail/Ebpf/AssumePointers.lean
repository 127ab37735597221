import Prevail.Asm.Assertions
import Prevail.Crab.TypeJoin
import Prevail.Crab.SplitDbm.CutOff
import Prevail.Crab.SplitDbm.Strengthening
import Prevail.Ebpf.AddressOrder
import Prevail.Ebpf.Assume
import Prevail.Ebpf.CheckerSound

namespace Prevail
namespace Ebpf

open Crab

/-!
# Assumptions about two registers

`operator()(const Assume&)` of `ebpf_transformer.cpp` for a condition on two
registers, over difference bounds.  Registers of one type that is not a number
hold addresses, and a comparison of addresses becomes one of the offsets in
their regions.

A concrete state gives each region a place in memory.  The context, the packet
and the stack are one region each.  Pointers to shared memory point into map
values, which are as many regions as there are registers, and a map lies at an
address of its own that its descriptor stands for.
-/

section Ordered

variable [LinearOrder Variable]

/-! ## The transformer -/

def getTypeOffsetVariable (reg : Reg) : TypeEncoding -> Option Variable
  | .ctx => some (regPack reg).ctxOffset
  | .map | .mapPrograms => some (regPack reg).mapFd
  | .packet => some (regPack reg).packetOffset
  | .shared => some (regPack reg).sharedOffset
  | .stack => some (regPack reg).stackOffset
  | .num | .uninit => none

/-- The difference that a disequation of two variables is about. -/
def offsetDifference (dst src : Variable) : LinearExpression Variable :=
  (LinearExpression.var dst).subtract (.var src)

def assumeCstOffsetsReg (op : ConditionOp) (dst src : Variable) : LinearConstraint Variable :=
  match op with
  | .eq => .eq (.var dst) (.var src)
  | .ne => .ne (.var dst) (.var src)
  | .ge | .sge => .ge (.var dst) (.var src)
  | .le | .sle => .le (.var dst) (.var src)
  | .gt | .sgt => .gt (.var dst) (.var src)
  | .slt | .lt => .gt (.var src) (.var dst)
  | .set | .nset => .eq (offsetDifference dst dst) (.const 0)

structure RegisterComparison where
  op : ConditionOp
  is64 : Bool
  left : Reg
  right : Reg

namespace RegisterComparison

variable (comparison : RegisterComparison)

/-- The condition of the assumption. -/
def cond : Condition := ⟨comparison.op, comparison.left, .reg comparison.right, comparison.is64⟩

/-- The transition for numbers: the constraints of the state before are added
to a copy of it. -/
def assumeNumbers (inv : AddBottom Variable) : Option (AddBottom Variable) :=
  let dst := regPack comparison.left
  let src := regPack comparison.right
  (assumeCstReg (AddBottom.domain Variable) inv comparison.op comparison.is64 dst.svalue
    dst.uvalue src.svalue
    src.uvalue).map (fun csts => csts.foldl (fun state cst => state.addConstraint cst) inv)

/-- The transition for a type, on a copy of the state before. -/
def assumeType (inv : AddBottom Variable) (type : TypeEncoding) : Option (AddBottom Variable) :=
  if type = .num then comparison.assumeNumbers inv
  else
    match getTypeOffsetVariable comparison.left type,
      getTypeOffsetVariable comparison.right type with
    | some dstOffset, some srcOffset =>
      some (inv.addConstraint (assumeCstOffsetsReg comparison.op dstOffset srcOffset))
    | _, _ => some inv

/-- The loop of `join_over_types`. -/
def joinTypes (owners : List Owner) (inv : AddBottom Variable) :
    List TypeEncoding -> AddBottom Variable -> Option (AddBottom Variable)
  | [], result => some result
  | type :: rest, result =>
      (comparison.assumeType inv type).bind (fun branch =>
        joinTypes owners inv rest (AddBottom.joinOperations.selectivelyJoin owners result branch))

def sameType (inv : AddBottom Variable) : Bool :=
  inv.entail (.eq (.var (regPack comparison.left).type) (.var (regPack comparison.right).type))

/-- The types that the left register may have. -/
def types (inv : AddBottom Variable) :
    Interval := inv.evalInterval (.var (regPack comparison.left).type)

/-- `operator()(const Assume&)`. -/
def assume (owners : List Owner) (inv : AddBottom Variable) : Option (AddBottom Variable) :=
  if comparison.sameType inv then
    if (comparison.types inv).IsTop ∧ ¬ (comparison.types inv).IsBottom
      then comparison.assumeType inv .uninit
    else
      (visitedTypes (comparison.types inv)).bind
        (fun visited => comparison.joinTypes owners inv visited none)
  else some .top

end RegisterComparison

/-! ## Concrete states -/

/-- Where the regions lie: the one of a type, the map value that a register
points into, and the map of a descriptor. -/
structure Layout where
  region : TypeEncoding -> Int
  shared : Reg -> Int
  map : Int -> Int
  map_injective : Function.Injective map

/-- The address that an offset of a register of a type stands for. -/
def Layout.address (layout : Layout) (reg : Reg) (type : TypeEncoding) (offset : Int) : Int :=
  match type with
  | .shared => layout.shared reg + offset
  | .map | .mapPrograms => layout.map offset
  | _ => layout.region type + offset

/-- A register of a type holds the address that its offset stands for. -/
def Layout.Places (layout : Layout) (values : Variable -> Int) (registers : Reg -> BitVec 64)
    (type : TypeEncoding) (reg : Reg) : Prop :=
  values (regPack reg).type = type.value ∧
    forall offset, getTypeOffsetVariable reg type = some offset ->
      ((registers reg).toNat : Int) = layout.address reg type (values offset)

namespace RegisterComparison

variable (comparison : RegisterComparison)

/-- Every represented state in which the comparison of two registers of one type
that is not a number holds is still represented, up to variables that its types
make irrelevant. -/
def KeepsStates (owners : List Owner) (inv : AddBottom Variable) : Prop :=
  forall next, comparison.assume owners inv = some next ->
    forall (layout : Layout) (registers : Reg -> BitVec 64) (values : Variable -> Int)
    (type : TypeEncoding), inv.Represents values -> type ≠ .num ->
    layout.Places values registers type comparison.left ->
        layout.Places values registers type comparison.right -> comparison.cond.Holds registers ->
          exists others, next.Represents others ∧ AgreesOnRelevant values others

end RegisterComparison

/-! ## What the constraint of the offsets keeps -/

section Constraint

variable {op : ConditionOp} {s : SplitDbm Variable} {values others : Variable -> Int}
  {u v : Variable}

/-- The constraint on the offsets keeps an assignment of a set.  A disequation keeps what it
does not cut off, also where the offsets are equal. -/
def ConstraintKeeps (op : ConditionOp) (S : Set (Variable -> Int)) (u v : Variable)
    (values : Variable -> Int) : Prop :=
  if op = .ne then u ≠ v ∧ ¬ CutsEqual S u v values else OffsetsCompare op (values u) (values v)

/-- The assignments that the constraint on the offsets leaves. -/
def ConstraintLeaves (op : ConditionOp) (s : SplitDbm Variable) (u v : Variable)
    (values : Variable -> Int) : Prop :=
  if op = .ne then u ≠ v ∧
    SplitDbm.AvoidsTrims (offsetDifference u v) (offsetDifference u v).variableTerms s values
  else OffsetsCompare op (values u) (values v)

omit [LinearOrder Variable] in
theorem offsetDifference_self (u : Variable) : offsetDifference u u = ⟨0, []⟩ := by
  simp [offsetDifference, LinearExpression.subtract, LinearExpression.plus, LinearExpression.negate,
    LinearExpression.multiply, LinearExpression.var, LinearExpression.addTerm]

omit [LinearOrder Variable] in
theorem offsetDifference_eq (different : u ≠ v) :
    offsetDifference u v = ⟨0, [(u, 1), (v, -1)]⟩ := by
  simp [offsetDifference, LinearExpression.subtract, LinearExpression.plus, LinearExpression.negate,
    LinearExpression.multiply, LinearExpression.var, LinearExpression.addTerm, different]

omit [LinearOrder Variable] in
theorem wellFormed_offsetDifference (u v : Variable) : (offsetDifference u v).WellFormed :=
  (LinearExpression.wellFormed_var u).plus _

omit [LinearOrder Variable] in
theorem isDifference_offsetDifference (u v : Variable) :
    SplitDbm.IsDifference (offsetDifference u v) := by
  by_cases same : u = v
  · rw [same, offsetDifference_self]
    exact .constant 0
  · rw [offsetDifference_eq same]
    exact .difference u v 0

omit [LinearOrder Variable] in
theorem eval_offsetDifference (values : Variable -> Int) (u v : Variable) :
    (offsetDifference u v).eval values = values u - values v := by
  rw [offsetDifference, LinearExpression.eval_subtract, LinearExpression.eval_var,
    LinearExpression.eval_var]

/-- The constraint excludes exactly what it does not leave. -/
theorem assumeCstOffsetsReg_refines (invariant : SplitDbm.Invariant s) (op : ConditionOp)
    (u v : Variable) :
    SplitDbm.Refines s (ConstraintLeaves op s u v)
    (s.addConstraint (assumeCstOffsetsReg op u v)) := by
  have ordered : forall {first second : Variable} {kind : ConstraintKind}, op ≠ .ne ->
      kind ≠ .notZero -> (forall values : Variable -> Int,
        kind.Holds (values first - values second) ↔ OffsetsCompare op (values u) (values v)) ->
        SplitDbm.Refines s (ConstraintLeaves op s u v)
        (s.addConstraint ⟨offsetDifference first second, kind⟩) := by
    intro first second kind notNe notZero holds
    apply (SplitDbm.addConstraint_refines invariant
      (wellFormed_offsetDifference first second) notZero
      (isDifference_offsetDifference first second)).congr
    intro values _
    rw [ConstraintLeaves, if_neg notNe, ← holds values, LinearConstraint.Holds,
      eval_offsetDifference]
  have anything : SplitDbm.Refines s (fun _ => True)
      (s.addConstraint (.eq (offsetDifference u u) (.const 0))) := by
    have fixed : (LinearConstraint.eq (offsetDifference u u) (.const 0)).expression.isConstant =
        true := by
      rw [offsetDifference_self]
      rfl
    apply (SplitDbm.addConstraint_constant_refines invariant fixed).congr
    intro values _
    rw [LinearConstraint.holds_eq, eval_offsetDifference, LinearExpression.eval_const]
    exact iff_of_true (sub_self _) trivial
  cases op with
  | ne =>
      by_cases same : u = v
      · subst same
        have fixed : (offsetDifference u u).isConstant = true := by
          rw [offsetDifference_self]
          rfl
        apply (@SplitDbm.addConstraint_constant_refines Variable _ s
          ⟨_, .notZero⟩ invariant fixed).congr
        intro values _
        change (offsetDifference u u).eval values ≠ 0 ↔ _
        rw [eval_offsetDifference, sub_self]
        exact iff_of_false (fun different => different rfl) (fun keeps => keeps.1 rfl)
      · have varies : (offsetDifference u v).isConstant = false := by
          rw [offsetDifference_eq same]
          rfl
        apply (SplitDbm.addDisequation_refines invariant varies).congr
        exact fun values _ => (and_iff_right same).symm
  | eq => exact ordered (by simp) (by simp) (fun _ => sub_eq_zero)
  | ge => exact ordered (by simp) (by simp) (fun _ => sub_nonpos)
  | sge => exact ordered (by simp) (by simp) (fun _ => sub_nonpos)
  | le => exact ordered (by simp) (by simp) (fun _ => sub_nonpos)
  | sle => exact ordered (by simp) (by simp) (fun _ => sub_nonpos)
  | gt => exact ordered (by simp) (by simp) (fun _ => sub_neg)
  | sgt => exact ordered (by simp) (by simp) (fun _ => sub_neg)
  | lt => exact ordered (by simp) (by simp) (fun _ => sub_neg)
  | slt => exact ordered (by simp) (by simp) (fun _ => sub_neg)
  | set => exact anything
  | nset => exact anything

theorem constraintLeaves_of_keeps (invariant : SplitDbm.Invariant s)
    (represents : s.Represents values)
    (keeps : ConstraintKeeps op {values | s.Represents values} u v values) :
    ConstraintLeaves op s u v values := by
  unfold ConstraintKeeps at keeps
  unfold ConstraintLeaves
  split
  · rename_i isNe
    rw [if_pos isNe] at keeps
    refine ⟨keeps.1, ?_⟩
    have survives := (survives_difference_iff represents).mpr keeps.2
    have wellFormed := wellFormed_offsetDifference u v
    rw [offsetDifference_eq keeps.1] at wellFormed ⊢
    exact SplitDbm.avoidsTrims_of_survives invariant wellFormed (List.Subset.refl _)
      (fun _ member => member) represents
      survives
  · rename_i notNe
    rw [if_neg notNe] at keeps
    exact keeps

theorem constraintKeeps_of_leaves (normal : op = .ne -> SplitDbm.Normal s)
    (represents : s.Represents values)
    (leaves : ConstraintLeaves op s u v values) :
    ConstraintKeeps op {values | s.Represents values} u v values := by
  unfold ConstraintLeaves at leaves
  unfold ConstraintKeeps
  split
  · rename_i isNe
    rw [if_pos isNe] at leaves
    have wellFormed := wellFormed_offsetDifference u v
    refine ⟨leaves.1, (survives_difference_iff represents).mp ?_⟩
    rw [offsetDifference_eq leaves.1] at wellFormed leaves
    exact (normal isNe).survives_of_avoidsTrims wellFormed (List.Subset.refl _) represents leaves.2
  · rename_i notNe
    rw [if_neg notNe] at leaves
    exact leaves

theorem ConstraintLeaves.congr (leaves : ConstraintLeaves op s u v others)
    (sameLeft : others u = values u)
    (sameRight : others v = values v) : ConstraintLeaves op s u v values := by
  unfold ConstraintLeaves at leaves ⊢
  split
  · rename_i isNe
    rw [if_pos isNe] at leaves
    refine ⟨leaves.1, leaves.2.congr ?_⟩
    rw [offsetDifference_eq leaves.1]
    intro term member
    rcases List.mem_cons.mp member with rfl | last
    · exact sameLeft
    · rw [List.mem_singleton.mp last]
      exact sameRight
  · rename_i notNe
    rw [if_neg notNe, sameLeft, sameRight] at leaves
    exact leaves

omit [LinearOrder Variable] in
/-- Offsets that compare as the operator says are kept. -/
theorem constraintKeeps_of_compare {S : Set (Variable -> Int)}
    (compare : OffsetsCompare op (values u) (values v)) :
    ConstraintKeeps op S u v values := by
  unfold ConstraintKeeps
  split
  · rename_i isNe
    rw [isNe] at compare
    refine ⟨?_, fun cuts => compare cuts.1⟩
    rintro rfl
    exact compare rfl
  · exact compare

end Constraint

/-! ## When a comparison is faithful -/

/-- Two maps have different descriptors, and their addresses may compare as the
operator says although the descriptors do not. -/
def MisleadsMaps (op : ConditionOp) (is64 : Bool) (left right : Int) : Prop :=
  left ≠ right ∧ ¬ OffsetsCompare op left right ∧ (op = .eq -> is64 = false)

namespace RegisterComparison

variable (comparison : RegisterComparison)

/-- The comparison of the offsets of a type stands for that of the addresses.
Where the registers may point into different regions, nothing may be concluded. -/
def FaithfulFor (S : Set (Variable -> Int)) (values : Variable -> Int) (type : TypeEncoding)
    (u v : Variable) : Prop :=
  match type with
  | .shared => comparison.left = comparison.right ∨ ConstraintKeeps comparison.op S u v values
  | .map | .mapPrograms => ¬ MisleadsMaps comparison.op comparison.is64 (values u) (values v)
  | _ => ¬ Misleads comparison.op comparison.is64 (values u - values v)

/-- The offsets of another type that the registers may have keep an assignment. -/
def KeptForOther (inv : AddBottom Variable) (values : Variable -> Int)
    (type : TypeEncoding) : Prop :=
  exists other : TypeEncoding, other ≠ type ∧ other ≠ .num ∧ other.value ∈ comparison.types inv ∧
    forall u v, getTypeOffsetVariable comparison.left other = some u ->
      getTypeOffsetVariable comparison.right other = some v ->
        ConstraintKeeps comparison.op {values | inv.Represents values} u v values

/-- This is so in all represented assignments. -/
def Faithful (inv : AddBottom Variable) : Prop :=
  forall values, inv.Represents values ->
    forall type u v, values (regPack comparison.left).type = type.value ->
      values (regPack comparison.right).type = type.value ->
        getTypeOffsetVariable comparison.left type = some u ->
        getTypeOffsetVariable comparison.right type = some v ->
          comparison.FaithfulFor {values | inv.Represents values} values type u v ∨
            comparison.KeptForOther inv values type

def MapTypesApart (owners : List Owner) (inv : AddBottom Variable) : Prop :=
  ∀ owner ∈ owners, ¬ (AddBottom.joinOperations.hasType inv owner .map = true ∧
    AddBottom.joinOperations.hasType inv owner .mapPrograms = true)

variable {comparison} {inv : AddBottom Variable} {S : Set (Variable -> Int)} {layout : Layout}
  {registers : Reg -> BitVec 64} {values others : Variable -> Int} {type : TypeEncoding}
  {u v : Variable}

omit [LinearOrder Variable] in
theorem constraintKeeps_of_equal {left right : BitVec 64} {op : ConditionOp} {is64 : Bool}
    (compare : WordsCompare op is64 left right) (sameWord : left = right)
    (sameOffset : values u = values v) :
    ConstraintKeeps op S u v values := by
  apply constraintKeeps_of_compare
  rw [sameWord] at compare
  rw [sameOffset]
  exact offsetsCompare_self _ compare _

omit [LinearOrder Variable] in
theorem constraintKeeps_of_maps {left right : BitVec 64} {op : ConditionOp} {is64 : Bool}
    (compare : WordsCompare op is64 left right)
    (atLeft : (left.toNat : Int) = layout.map (values u))
    (atRight : (right.toNat : Int) = layout.map (values v))
    (faithful : ¬ MisleadsMaps op is64 (values u) (values v)) :
    ConstraintKeeps op S u v values := by
  by_cases sameMap : values u = values v
  · rw [sameMap, ← atRight] at atLeft
    exact constraintKeeps_of_equal compare (BitVec.eq_of_toNat_eq (Int.ofNat.inj atLeft)) sameMap
  · apply constraintKeeps_of_compare
    by_contra notCompare
    refine faithful ⟨sameMap, notCompare, fun isEq => ?_⟩
    cases is64 with
    | false => rfl
    | true =>
        rw [isEq] at compare
        have sameWord : left = right := compare
        rw [sameWord, atRight] at atLeft
        exact absurd (layout.map_injective atLeft).symm sameMap

omit [LinearOrder Variable] in
/-- Where the comparison is faithful, the constraint keeps the states in which
it holds. -/
theorem constraintKeeps_of_faithful (placesLeft : layout.Places values registers type
    comparison.left)
    (placesRight : layout.Places values registers type comparison.right)
    (holds : comparison.cond.Holds registers)
    (isLeft : getTypeOffsetVariable comparison.left type = some u)
    (isRight : getTypeOffsetVariable comparison.right type = some v)
    (faithful : comparison.FaithfulFor S values type u v) :
    ConstraintKeeps comparison.op S u v values := by
  have compare : WordsCompare comparison.op comparison.is64 (registers comparison.left)
      (registers comparison.right) :=
    holds
  have atLeft := placesLeft.2 u isLeft
  have atRight := placesRight.2 v isRight
  cases type with
  | shared =>
      rcases faithful with sameRegister | keeps
      · rw [sameRegister, isRight] at isLeft
        cases isLeft
        exact constraintKeeps_of_equal compare (congrArg registers sameRegister) rfl
      · exact keeps
  | map => exact constraintKeeps_of_maps compare atLeft atRight faithful
  | mapPrograms => exact constraintKeeps_of_maps compare atLeft atRight faithful
  | _ =>
      have leftAddress : _ = layout.region _ + values u := atLeft
      have rightAddress : _ = layout.region _ + values v := atRight
      apply constraintKeeps_of_compare
      refine offsetsCompare_of_words ?_ compare faithful
      rw [leftAddress, rightAddress, add_sub_add_left_eq_sub]

/-- A state in which a comparison of words holds. -/
def HoldsSomewhere (comparison : RegisterComparison) (values : Variable -> Int)
    (type : TypeEncoding) : Prop :=
  exists (layout : Layout) (registers : Reg -> BitVec 64),
    layout.Places values registers type comparison.left ∧
    layout.Places values registers type comparison.right ∧ comparison.cond.Holds registers

section Lost

variable (typedLeft : values (regPack comparison.left).type = type.value)
  (typedRight : values (regPack comparison.right).type = type.value)
  (isLeft : getTypeOffsetVariable comparison.left type = some u)
  (isRight : getTypeOffsetVariable comparison.right type = some v)

include typedLeft typedRight isLeft isRight

omit [LinearOrder Variable] in
theorem holdsSomewhere_of_words (layout : Layout) {left right : BitVec 64}
    (compare : WordsCompare comparison.op comparison.is64 left right)
    (atLeft : (left.toNat : Int) = layout.address comparison.left type (values u))
    (atRight : (right.toNat : Int) = layout.address comparison.right type (values v))
    (fits : comparison.right = comparison.left -> left = right) :
    comparison.HoldsSomewhere values type := by
  let registers : Reg -> BitVec 64 := fun reg => if reg = comparison.left then left else right
  have leftWord : registers comparison.left = left := if_pos rfl
  have rightWord : registers comparison.right = right := by
    by_cases same : comparison.right = comparison.left
    · exact (if_pos same).trans (fits same)
    · exact if_neg same
  refine ⟨layout, registers, ⟨typedLeft, fun offset isOffset => ?_⟩,
    ⟨typedRight, fun offset isOffset => ?_⟩, ?_⟩
  · rw [isLeft] at isOffset
    cases isOffset
    rw [leftWord, atLeft]
  · rw [isRight] at isOffset
    cases isOffset
    rw [rightWord, atRight]
  · rw [← leftWord, ← rightWord] at compare
    exact compare

omit [LinearOrder Variable] typedLeft typedRight in
theorem offset_eq_of_same (same : comparison.right = comparison.left) : u = v := by
  rw [same, isLeft] at isRight
  exact Option.some.inj isRight

omit [LinearOrder Variable] typedLeft typedRight isLeft isRight in
theorem not_constraintKeeps {op : ConditionOp} (notNe : op ≠ .ne)
    (notCompare : ¬ OffsetsCompare op (values u) (values v)) :
    ¬ ConstraintKeeps op S u v values := by
  rw [ConstraintKeeps, if_neg notNe]
  exact notCompare

omit [LinearOrder Variable] in
theorem exists_lost_maps (isMap : type = .map ∨ type = .mapPrograms)
    (misleads : MisleadsMaps comparison.op comparison.is64 (values u) (values v)) :
    comparison.HoldsSomewhere values type ∧ ¬ ConstraintKeeps comparison.op S u v values := by
  rcases misleads with ⟨different, notCompare, possible⟩
  have notNe : comparison.op ≠ .ne := by
    intro isNe
    rw [isNe] at notCompare
    exact notCompare different
  rcases exists_different_words possible with ⟨left, right, apart, compare⟩
  have addresses : (left.toNat : Int) ≠ right.toNat :=
    fun same => apart (BitVec.eq_of_toNat_eq (Int.ofNat.inj same))
  rcases exists_injective_map different addresses with ⟨map, injective, atLeft, atRight⟩
  refine ⟨?_, not_constraintKeeps notNe notCompare⟩
  apply holdsSomewhere_of_words typedLeft typedRight isLeft isRight ⟨fun _ => 0, fun _ => 0, map,
    injective⟩ compare
  · rcases isMap with rfl | rfl
    · exact atLeft.symm
    · exact atLeft.symm
  · rcases isMap with rfl | rfl
    · exact atRight.symm
    · exact atRight.symm
  · intro same
    exact absurd (congrArg values (offset_eq_of_same isLeft isRight same)) different

omit [LinearOrder Variable] in
theorem exists_lost_shared (isShared : type = .shared)
    (different : comparison.left ≠ comparison.right) :
    comparison.HoldsSomewhere values type := by
  rcases exists_words comparison.op comparison.is64 with ⟨left, right, compare⟩
  subst isShared
  apply holdsSomewhere_of_words typedLeft typedRight isLeft isRight
    ⟨fun _ => 0, fun reg => if reg = comparison.left then left.toNat - values u
      else right.toNat - values v, id, fun _ _ => id⟩ compare
  · dsimp only [Layout.address]
    rw [if_pos rfl, sub_add_cancel]
  · dsimp only [Layout.address]
    rw [if_neg different.symm, sub_add_cancel]
  · exact fun same => absurd same.symm different

omit [LinearOrder Variable] in
theorem exists_lost_region (inRegion : forall layout : Layout, forall reg offset,
      layout.address reg type offset = layout.region type + offset)
    (misleads : Misleads comparison.op comparison.is64 (values u - values v)) :
    comparison.HoldsSomewhere values type ∧ ¬ ConstraintKeeps comparison.op S u v values := by
  have notNe : comparison.op ≠ .ne := by
    intro isNe
    rw [isNe] at misleads
    exact misleads
  rcases exists_misleading misleads with ⟨left, right, isDifference, compare, notCompare⟩
  refine ⟨?_, not_constraintKeeps notNe notCompare⟩
  apply holdsSomewhere_of_words typedLeft typedRight isLeft isRight
    ⟨fun _ => left.toNat - values u, fun _ => 0, id, fun _ _ => id⟩ compare
  · rw [inRegion, sub_add_cancel]
  · rw [inRegion]
    dsimp only
    omega
  · intro same
    have sameOffset := congrArg values (offset_eq_of_same isLeft isRight same)
    exact BitVec.eq_of_toNat_eq (by omega)

omit [LinearOrder Variable] in
/-- Where the comparison is not faithful, it holds in a state that the
constraint does not keep. -/
theorem exists_lost (unfaithful : ¬ comparison.FaithfulFor S values type u v) :
    comparison.HoldsSomewhere values type ∧ ¬ ConstraintKeeps comparison.op S u v values := by
  cases type with
  | shared =>
      rcases not_or.mp unfaithful with ⟨different, notKept⟩
      exact ⟨exists_lost_shared typedLeft typedRight isLeft isRight rfl different, notKept⟩
  | map => exact exists_lost_maps typedLeft typedRight isLeft isRight (Or.inl rfl) (not_not.mp unfaithful)
  | mapPrograms => exact exists_lost_maps typedLeft typedRight isLeft isRight (Or.inr rfl) (not_not.mp unfaithful)
  | _ => exact exists_lost_region typedLeft typedRight isLeft isRight (fun _ _ _ => rfl) (not_not.mp unfaithful)

end Lost

/-! ## One type -/

section OneType

theorem assumeType_eq (notNumber : type ≠ .num)
    (isLeft : getTypeOffsetVariable comparison.left type = some u)
    (isRight : getTypeOffsetVariable comparison.right type = some v) :
    comparison.assumeType inv type =
      some (inv.addConstraint (assumeCstOffsetsReg comparison.op u v)) := by
  rw [assumeType, if_neg notNumber, isLeft, isRight]

theorem assumeType_without_offset (notNumber : type ≠ .num)
    (none_ : getTypeOffsetVariable comparison.left type = none) :
    comparison.assumeType inv type = some inv := by
  rw [assumeType, if_neg notNumber, none_]

omit [LinearOrder Variable] in
/-- Both registers have an offset of a type, or none has. -/
theorem offsets_cases (comparison : RegisterComparison) (type : TypeEncoding) :
    (exists u v, getTypeOffsetVariable comparison.left type = some u ∧
      getTypeOffsetVariable comparison.right type = some v) ∨
      getTypeOffsetVariable comparison.left type = none := by
  cases type <;> first | exact Or.inr rfl | exact Or.inl ⟨_, _, rfl, rfl⟩

theorem setOf_represents_some (s : {s : SplitDbm Variable // SplitDbm.Invariant s}) :
    {values | AddBottom.Represents (some s) values} = {values | s.1.Represents values} := by
  ext values
  constructor
  · rintro ⟨_, same, represents⟩
    cases same
    exact represents
  · exact fun represents => ⟨s, rfl, represents⟩

/-- The transition for a type keeps what the constraint on its offsets keeps. -/
theorem represents_assumeType (represents : inv.Represents values) (notNumber : type ≠ .num)
    (keeps : forall u v, getTypeOffsetVariable comparison.left type = some u ->
      getTypeOffsetVariable comparison.right type = some v ->
        ConstraintKeeps comparison.op {values | inv.Represents values} u v values)
    {branch : AddBottom Variable} (run : comparison.assumeType inv type = some branch) :
    branch.Represents values := by
  rcases represents with ⟨s, rfl, inside⟩
  rcases comparison.offsets_cases type with ⟨u, v, isLeft, isRight⟩ | none_
  · rw [assumeType_eq notNumber isLeft isRight] at run
    cases run
    have kept := keeps u v isLeft isRight
    rw [setOf_represents_some] at kept
    apply (AddBottom.represents_addConstraint_iff
      (assumeCstOffsetsReg_refines s.2 comparison.op u v) values).mpr
    exact ⟨inside, constraintLeaves_of_keeps s.2 inside kept⟩
  · rw [assumeType_without_offset notNumber none_] at run
    cases run
    exact ⟨s, rfl, inside⟩

/-- Where the comparison is faithful, the transition for some type keeps a state in which
the comparison holds. -/
theorem exists_keptType (faithful : comparison.Faithful inv) (represents : inv.Represents values)
    (notNumber : type ≠ .num) (placesLeft : layout.Places values registers type comparison.left)
    (placesRight : layout.Places values registers type comparison.right)
    (holds : comparison.cond.Holds registers) :
    exists kept : TypeEncoding, kept.value ∈ comparison.types inv ∧
      forall branch, comparison.assumeType inv kept = some branch -> branch.Represents values := by
  have member := AddBottom.mem_evalInterval represents (.var (regPack comparison.left).type)
  rw [← types, LinearExpression.eval_var, placesLeft.1] at member
  rcases comparison.offsets_cases type with ⟨u, v, isLeft, isRight⟩ | none_
  · rcases faithful values represents type u v placesLeft.1 placesRight.1 isLeft isRight with same |
      other
    · refine ⟨type, member, fun branch run => represents_assumeType represents notNumber ?_ run⟩
      intro left right isLeftToo isRightToo
      rw [isLeft] at isLeftToo
      rw [isRight] at isRightToo
      cases isLeftToo
      cases isRightToo
      exact constraintKeeps_of_faithful placesLeft placesRight holds isLeft isRight same
    · rcases other with ⟨kept, _, notNumberToo, mayHave, keeps⟩
      exact ⟨kept, mayHave, fun branch run =>
        represents_assumeType represents notNumberToo keeps run⟩
  · refine ⟨type, member, fun branch run => represents_assumeType represents notNumber ?_ run⟩
    intro left right isLeft
    rw [none_] at isLeft
    cases isLeft

omit [LinearOrder Variable] in
/-- The offset of the type that a register has is relevant. -/
theorem not_isIrrelevant_offset {reg : Reg} {offset : Variable}
    (typed : values (regPack reg).type = type.value)
    (isOffset : getTypeOffsetVariable reg type = some offset) : ¬ IsIrrelevant values offset := by
  have specific : forall {kind}, (type, kind) ∈ typeSpecificKinds ->
      ¬ IsIrrelevant values (.reg kind reg) :=
    fun inKinds irrelevant => irrelevant.2 type inKinds typed
  cases type with
  | num => cases isOffset
  | uninit => cases isOffset
  | _ =>
      cases isOffset
      exact specific (by decide)

omit [LinearOrder Variable] in
theorem isShared_of_unfaithful (isNe : comparison.op = .ne)
    (unfaithful : ¬ comparison.FaithfulFor S values type u v) :
    type = .shared := by
  have notMisleads : forall difference, ¬ Misleads comparison.op comparison.is64 difference := by
    rw [isNe]
    exact fun _ => id
  have notMaps : forall left right, ¬ MisleadsMaps comparison.op comparison.is64 left right := by
    rw [isNe]
    exact fun _ _ misleads => misleads.2.1 misleads.1
  by_contra notShared
  apply unfaithful
  cases type with
  | shared => exact absurd rfl notShared
  | map => exact notMaps _ _
  | mapPrograms => exact notMaps _ _
  | _ => exact notMisleads _

theorem faithful_of_keeps (one : forall values, inv.Represents values ->
      values (regPack comparison.left).type = type.value)
    (normal : comparison.op = .ne -> type = .shared -> forall s, inv = some s ->
      SplitDbm.Normal s.1)
    (keeps : forall next, comparison.assumeType inv type = some next ->
      forall values, inv.Represents values -> type ≠ .num ->
      comparison.HoldsSomewhere values type ->
        exists others, next.Represents others ∧ AgreesOnRelevant values others) :
    comparison.Faithful inv := by
  rintro values ⟨s, rfl, represents⟩ actual u v typedLeft typedRight isLeft isRight
  have sameType : actual = type := by
    apply TypeEncoding.value_injective
    rw [← typedLeft]
    exact one values ⟨s, rfl, represents⟩
  subst sameType
  have notNumber : actual ≠ .num := by
    rintro rfl
    cases isLeft
  left
  by_contra unfaithful
  rcases exists_lost typedLeft typedRight isLeft isRight unfaithful with ⟨somewhere, lost⟩
  have run := @assumeType_eq _ comparison (some s) actual u v notNumber isLeft isRight
  rcases keeps _ run values ⟨s, rfl, represents⟩ notNumber somewhere with ⟨others, kept, agrees⟩
  have exact_ := AddBottom.represents_addConstraint_iff
    (assumeCstOffsetsReg_refines s.2 comparison.op u v) others
  have leaves : ConstraintLeaves comparison.op s.1 u v values :=
    (exact_.mp kept).2.congr (agrees u (not_isIrrelevant_offset typedLeft isLeft))
      (agrees v (not_isIrrelevant_offset typedRight isRight))
  rw [setOf_represents_some] at lost
  refine lost (constraintKeeps_of_leaves (fun isNe => ?_) represents leaves)
  exact normal isNe (isShared_of_unfaithful isNe unfaithful) s rfl

omit [LinearOrder Variable] in
theorem visitedTypes_ofNumber (type : TypeEncoding) :
    visitedTypes (.ofNumber type.value) = some [type] := by
  cases type <;> decide

omit [LinearOrder Variable] in
theorem not_isTop_ofNumber (n : Int) : ¬ (Interval.ofNumber n).IsTop := by
  rintro ⟨lower, _⟩
  cases lower

/-- The transition for one known type is the whole assumption. -/
theorem assume_eq_assumeType {owners : List Owner} (same : comparison.sameType inv = true)
    (one : comparison.types inv = .ofNumber type.value) :
    comparison.assume owners inv = comparison.assumeType inv type := by
  rw [assume, if_pos same, one, if_neg (fun top => not_isTop_ofNumber _ top.1),
    visitedTypes_ofNumber, Option.bind_some]
  rw [joinTypes]
  cases comparison.assumeType inv type with
  | none => rfl
  | some branch => cases branch <;> rfl

theorem assume_of_not_sameType {owners : List Owner}
    (different : ¬ comparison.sameType inv = true) :
    comparison.assume owners inv = some .top := by
  rw [assume, if_neg different]

omit [LinearOrder Variable] in
theorem eq_of_mem_ofNumber {other : TypeEncoding}
    (member : other.value ∈ Interval.ofNumber type.value) :
    other = type :=
  TypeEncoding.value_injective (Interval.mem_ofNumber.mp member)

theorem keepsStates_of_faithful_of_one {owners : List Owner} (same : comparison.sameType inv = true)
    (one : comparison.types inv = .ofNumber type.value) (faithful : comparison.Faithful inv) :
    comparison.KeepsStates owners inv := by
  intro next run layout registers values actual represents notNumber placesLeft placesRight holds
  rcases exists_keptType faithful represents notNumber placesLeft placesRight holds with
    ⟨kept, mayHave, keeps⟩
  rw [one] at mayHave
  rw [eq_of_mem_ofNumber mayHave] at keeps
  rw [assume_eq_assumeType same one] at run
  exact ⟨values, keeps next run, fun _ _ => rfl⟩

theorem faithful_of_keepsStates_of_one {owners : List Owner} (same : comparison.sameType inv = true)
    (one : comparison.types inv = .ofNumber type.value)
    (normal : comparison.op = .ne -> type = .shared -> forall s, inv = some s ->
      SplitDbm.Normal s.1)
    (keeps : comparison.KeepsStates owners inv) : comparison.Faithful inv := by
  have typed : forall values, inv.Represents values ->
      values (regPack comparison.left).type = type.value := by
    intro values represents
    have member := AddBottom.mem_evalInterval represents (.var (regPack comparison.left).type)
    rw [← types, one, LinearExpression.eval_var] at member
    exact Interval.mem_ofNumber.mp member
  apply faithful_of_keeps typed normal
  rintro next run values represents notNumber ⟨layout, registers, placesLeft, placesRight, holds⟩
  rw [← assume_eq_assumeType same one] at run
  exact keeps next run layout registers values type represents notNumber placesLeft
    placesRight holds

end OneType

/-! ## Several types -/

section SeveralTypes

variable {owners : List Owner}

/-- The types of all owners keep the bounds of a state. -/
def TypesWithin (inv state : AddBottom Variable) : Prop :=
  forall owner, state.Within (.of owner .types) (inv.evalInterval (.var (.of owner .types)))

theorem typesWithin_assumeType {branch : AddBottom Variable}
    (run : comparison.assumeType inv type = some branch) :
    TypesWithin inv branch := by
  have start : TypesWithin inv inv :=
    fun owner => AddBottom.within_evalInterval inv (.of owner .types)
  unfold assumeType at run
  split at run
  · rcases Option.map_eq_some_iff.mp run with ⟨csts, _, rfl⟩
    have all : forall (csts : List (LinearConstraint Variable)) (state : AddBottom Variable),
        TypesWithin inv state ->
        TypesWithin inv (csts.foldl (fun state cst => state.addConstraint cst) state) := by
      intro csts
      induction csts with
      | nil => exact fun _ => id
      | cons cst rest inductionHypothesis =>
          exact fun state within =>
            inductionHypothesis _ (fun owner => (within owner).addConstraint cst)
    exact all csts inv start
  · split at run
    · cases run
      exact fun owner => (start owner).addConstraint _
    · cases run
      exact start

theorem typesWithin_selectivelyJoin {result branch : AddBottom Variable}
    (inResult : TypesWithin inv result) (inBranch : TypesWithin inv branch) :
    TypesWithin inv (AddBottom.joinOperations.selectivelyJoin owners result branch) := by
  intro owner
  have joined := (inResult owner).join (inBranch owner)
  have all : forall (entries : List (Variable × Interval)) (state : AddBottom Variable),
      (∀ entry ∈ entries, entry.1 ≠ .of owner .types) ->
        state.Within (.of owner .types) (inv.evalInterval (.var (.of owner .types))) ->
          (AddBottom.joinOperations.setAll entries state).Within (.of owner .types)
            (inv.evalInterval (.var (.of owner .types))) := by
    intro entries
    induction entries with
    | nil => exact fun _ _ => id
    | cons entry rest inductionHypothesis =>
        intro state others within
        rw [List.forall_mem_cons] at others
        exact inductionHypothesis _ others.2 (within.set others.1.symm)
  refine all _ _ ?_ joined
  intro entry member
  split at member
  · cases member
  · rcases JoinOperations.extraInvariants_of member with ⟨other, kind, isKey⟩
    rcases entry with ⟨target, interval⟩
    dsimp only at isKey
    subst isKey
    rcases JoinOperations.mem_extraInvariants.mp member with ⟨_, side, found, _⟩
    rcases JoinOperations.remembered_eq_some found with ⟨type, inKinds, _⟩
    intro same
    cases same
    revert inKinds
    cases type <;> decide

theorem keepsMapFds_of_apart {result branch : AddBottom Variable} (apart : MapTypesApart owners inv)
    (nonempty : inv.Represents values) (inResult : TypesWithin inv result)
    (inBranch : TypesWithin inv branch) :
    AddBottom.joinOperations.KeepsMapFds AddBottom.Represents owners result branch := by
  apply JoinOperations.keepsMapFds_of_absent AddBottom.joinLaws
  intro owner member
  have absent : forall {state : AddBottom Variable} {type : TypeEncoding}, TypesWithin inv state ->
      ¬ AddBottom.joinOperations.hasType inv owner type = true ->
        AddBottom.joinOperations.hasType state owner type = false := by
    intro state type within lacks
    rw [← Bool.not_eq_true]
    intro has
    have inhabited := AddBottom.mem_evalInterval nonempty (.var (.of owner .types))
    exact lacks (decide_eq_true ((within owner).mem_evalInterval inhabited (of_decide_eq_true has)))
  by_cases hasMap : AddBottom.joinOperations.hasType inv owner .map = true
  · have lacks := not_and.mp (apart owner member) hasMap
    exact ⟨.mapPrograms, .map, absent inResult lacks, absent inBranch lacks, Or.inr ⟨rfl, rfl⟩⟩
  · exact ⟨.map, .mapPrograms, absent inResult hasMap, absent inBranch hasMap, Or.inl ⟨rfl, rfl⟩⟩

/-- The loop keeps what the result represents already and what the branch of a
type represents that is still to come. -/
theorem exists_of_joinTypes {visited : List TypeEncoding} {result next : AddBottom Variable}
    (apart : MapTypesApart owners inv) (nonempty : inv.Represents values)
    (within : TypesWithin inv result)
    (run : comparison.joinTypes owners inv visited result = some next)
    (kept : (exists others, result.Represents others ∧ AgreesOnRelevant values others) ∨
      (type ∈ visited ∧ forall branch, comparison.assumeType inv type = some branch ->
      branch.Represents values)) :
    exists others, next.Represents others ∧ AgreesOnRelevant values others := by
  induction visited generalizing result with
  | nil =>
      cases run
      rcases kept with already | ⟨never, _⟩
      · exact already
      · cases never
  | cons first rest inductionHypothesis =>
      rw [joinTypes, Option.bind_eq_some_iff] at run
      rcases run with ⟨branch, isBranch, run⟩
      have inBranch := typesWithin_assumeType isBranch
      have sound := JoinOperations.joinsSoundly_of_keepsMapFds AddBottom.joinLaws
        (keepsMapFds_of_apart apart nonempty within inBranch)
      apply inductionHypothesis (typesWithin_selectivelyJoin within inBranch) run
      rcases kept with ⟨others, inResult, agrees⟩ | ⟨member, inBranch⟩
      · rcases sound others (Or.inl inResult) with ⟨joined, represents, agreesJoined⟩
        exact Or.inl ⟨joined, represents, agrees.trans agreesJoined⟩
      · rcases List.mem_cons.mp member with rfl | later
        · exact Or.inl (sound values (Or.inr (inBranch branch isBranch)))
        · exact Or.inr ⟨later, inBranch⟩

theorem keepsStates_of_faithful (same : comparison.sameType inv = true)
    (faithful : comparison.Faithful inv)
    (apart : MapTypesApart owners inv) : comparison.KeepsStates owners inv := by
  intro next run layout registers values type represents notNumber placesLeft placesRight holds
  rcases exists_keptType faithful represents notNumber placesLeft placesRight holds with
    ⟨kept, mayHave, keeps⟩
  rw [assume, if_pos same] at run
  split at run
  · have without := @assumeType_without_offset _ comparison inv .uninit nofun rfl
    rw [without] at run
    cases run
    exact ⟨values, represents, fun _ _ => rfl⟩
  · rename_i notTop
    rw [Option.bind_eq_some_iff] at run
    rcases run with ⟨visited, visits, run⟩
    have bounded : ¬ (comparison.types inv).IsTop :=
      fun top => notTop ⟨top, Interval.not_isBottom_of_mem mayHave⟩
    apply exists_of_joinTypes apart represents (fun _ _ isSome => by cases isSome) run
    exact Or.inr ⟨mem_visitedTypes_of_not_isTop visits bounded mayHave, keeps⟩

end SeveralTypes

end RegisterComparison

end Ordered

namespace RegisterComparison

section Registers

attribute [local instance] Variable.variableOrder

/-- A comparison of `r1` and `r2`. -/
def ofOp (op : ConditionOp) (is64 : Bool) : RegisterComparison := ⟨op, is64, ⟨1⟩, ⟨2⟩⟩

/-- A state in which `r1` and `r2` have one type. -/
def typedState (type : TypeEncoding) : AddBottom Variable :=
  AddBottom.set (regPack ⟨2⟩).type (.ofNumber type.value)
    (AddBottom.set (regPack ⟨1⟩).type (.ofNumber type.value) .top)

/-- A state in which `r1` and `r2` point to the beginning of map values. -/
def mapValuesState : AddBottom Variable :=
  AddBottom.set (regPack ⟨2⟩).sharedOffset (.ofNumber 0)
    (AddBottom.set (regPack ⟨1⟩).sharedOffset (.ofNumber 0) (typedState .shared))

def mapValues : Variable -> Int
  | .of (.reg _) .types => TypeEncoding.shared.value
  | _ => 0

theorem represents_mapValuesState : mapValuesState.Represents mapValues := by
  have set : forall {state : AddBottom Variable} {target : Variable} {n : Int},
      state.Represents mapValues -> mapValues target = n ->
      (AddBottom.set target (.ofNumber n) state).Represents mapValues :=
    fun represents isValue => AddBottom.represents_set represents (fun _ _ => rfl)
      (Interval.mem_ofNumber.mpr isValue)
  exact set (set (set (set (AddBottom.represents_top mapValues) rfl) rfl) rfl) rfl

/-- Map values at addresses of their own, and pointers to their beginnings. -/
def mapValuesLayout : Layout := ⟨fun _ => 0, fun reg => reg.v.toNat, id, fun _ _ => id⟩

def mapValuesRegisters (reg : Reg) : BitVec 64 := reg.v.toNat

end Registers

end RegisterComparison

end Ebpf
end Prevail
