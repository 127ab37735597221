import Prevail.Ebpf.CheckerSound

namespace Prevail
namespace Ebpf

open Crab

/-!
# The meaning of the assertions

What an assertion says of the machine, in terms of the types of the registers,
of regions and of numbers, and not of a numerical state.  `ebpf_domain_check`
accepts an assertion only if it holds of every machine that the state describes.

Two checks ask for less than one would expect, and the meaning says no more than
they do: the bounds of a key or value of a map on the stack are not looked at,
and those in a packet only up to the largest size of a packet.
-/

/-- The types of a group. -/
def typesOf : TypeGroup -> List TypeEncoding
  | .number => [.num]
  | .mapFd => [.map]
  | .mapFdPrograms => [.mapPrograms]
  | .ctx => [.ctx]
  | .packet => [.packet]
  | .stack => [.stack]
  | .shared => [.shared]
  | .mem => [.packet, .stack, .shared]
  | .memOrNum => [.num, .packet, .stack, .shared]
  | .pointer => [.ctx, .packet, .stack, .shared]
  | .ptrOrNum => [.num, .ctx, .packet, .stack, .shared]
  | .stackOrPacket => [.packet, .stack]
  | .singletonPtr => [.ctx, .packet, .stack]

section Meaning

variable (context : CheckerContext) (values : Variable -> Int) (numeric : Int -> Prop)
  (frame : Option Int)

/-- The register has a type of the group. -/
def HasType (reg : Reg) (group : TypeGroup) :
    Prop := ∃ type ∈ typesOf group, values (regPack reg).type = type.value

/-- What a `ValidAccess` asks for, for a register of one type.  Where the frame
is known, an access to the stack does not reach below it. -/
def AccessHolds (s : ValidAccess) (type : TypeEncoding) : Prop :=
  let reg := regPack s.reg
  let width := widthValue values s.width
  match type with
  | .stack =>
      (forall known, frame = some known ->
        known - ebpfSubprogramStackSize ≤ values reg.stackOffset + s.offset) ∧
        values reg.stackOffset + s.offset + width ≤ ebpfTotalStackSize ∧
        (s.accessType = .read -> forall index, values reg.stackOffset + s.offset ≤ index ->
          index < values reg.stackOffset + s.offset + width -> 0 ≤ index -> numeric index)
  | .ctx => 0 ≤ values reg.ctxOffset + s.offset ∧ values reg.ctxOffset + s.offset + width ≤ context.contextDescriptorSize
  | .packet =>
      values .metaOffset ≤ values reg.packetOffset + s.offset ∧
        values reg.packetOffset + s.offset + width ≤
          if isComparisonCheck s then maxPacketSize else values .packetSize
  | .shared =>
      0 ≤ values reg.sharedOffset + s.offset ∧
        values reg.sharedOffset + s.offset + width ≤ values reg.sharedRegionSize ∧
        (isComparisonCheck s = false -> s.orNull = false -> 0 < values reg.svalue)
  | .num => isComparisonCheck s = true ∨ (s.orNull = true ∧ values reg.svalue = 0)
  | .map | .mapPrograms => isComparisonCheck s = true
  | .uninit => False

/-- What a `ValidMapKeyValue` asks for, for a register of one type and a map with
arguments of the given size. -/
def ArgumentHolds (s : ValidMapKeyValue) (width : Int) (type : TypeEncoding) : Prop :=
  let access := regPack s.accessReg
  match type with
  | .stack => forall index, values access.stackOffset ≤ index -> index < values access.stackOffset + width ->
      0 ≤ index ∧ index < ebpfTotalStackSize -> numeric index
  | .packet =>
      values .metaOffset ≤ values access.packetOffset ∧
        values access.packetOffset + width ≤ maxPacketSize
  | .shared =>
      0 ≤ values access.sharedOffset ∧
        values access.sharedOffset + width ≤ values access.sharedRegionSize ∧
        0 < values access.svalue
  | _ => False

def comparedAccess (reg : Reg) : ValidAccess :=
  ⟨maxCallStackFrames, reg, 0, .imm ⟨0⟩, false, .compare⟩

/-- What an assertion other than `FuncConstraint` says. -/
def DirectHolds : Assertion -> Prop
  | .comparable r1 r2 _ =>
      HasType values r2 .number ∨
        (values (regPack r1).type = values (regPack r2).type ∧
          (HasType values r1 .singletonPtr ∨ HasType values r1 .mapFd) ∧
          forall type : TypeEncoding, values (regPack r1).type = type.value ->
            AccessHolds context values numeric frame (comparedAccess r1) type ∧
              AccessHolds context values numeric none (comparedAccess r2) type)
  | .addable ptr num => HasType values ptr .pointer -> HasType values num .number
  | .validDivisor reg isSigned =>
      ¬ HasType values reg .pointer ∧
        (context.allowDivisionByZero = false ->
          values (if isSigned then (regPack reg).svalue else (regPack reg).uvalue) ≠ 0)
  | .validAccess s => forall type : TypeEncoding, values (regPack s.reg).type = type.value ->
      AccessHolds context values numeric frame s type
  | .validStore mem val => ¬ HasType values mem .stack -> HasType values val .number
  | .validSize reg canBeZero =>
      0 ≤ values (regPack reg).svalue ∧ (canBeZero = false -> values (regPack reg).svalue ≠ 0)
  | .validMapKeyValue s =>
    forall type : TypeEncoding, values (regPack s.accessReg).type = type.value ->
      exists map, context.mapDescriptor (values (regPack s.mapFdReg).mapFd) = some map ∧
        ArgumentHolds values numeric s (argumentSize s map) type
  | .validCall func stackFramePrefix =>
    stackFramePrefix = [] ∨ context.noReturnIfSucceed func = false
  | .typeConstraint reg types => HasType values reg types
  | .funcConstraint _ => True
  | .zeroCtxOffset reg => values (regPack reg).ctxOffset = 0
  | .boundedLoopCount name => values (.loopCounter name.text) ≤ loopLimit

/-- What an assertion says.  A `FuncConstraint` says that the register selects a
usable helper function and that all assertions of the call hold. -/
def AssertionHolds : Assertion -> Prop
  | .funcConstraint reg =>
      context.isHelperUsable (values (regPack reg).svalue) = true ∧
        exists assertions, AssertionContext.getAssertions ⟨context.isPrivileged, none⟩
            (.call (context.makeCall (values (regPack reg).svalue))) = some assertions ∧
          ∀ assertion ∈ assertions, DirectHolds context values numeric none assertion
  | other => DirectHolds context values numeric frame other

end Meaning

variable {dom : NumAbsDomain Variable} {values : Variable -> Int}

/-- A state of the domain describes a machine.  The bits of the stack and the
numeric sizes tell the truth about its bytes, and every register has a type. -/
structure Describes (inv : dom.State) (stack : BitsetDomain) (values : Variable -> Int)
    (numeric : Int -> Prop) :
    Prop where
  represents : dom.Represents inv values
  typed : forall reg : Reg, exists type : TypeEncoding, values (regPack reg).type = type.value
  bits : stack.Valid numeric
  sizes : forall reg : Reg, values (regPack reg).type = TypeEncoding.stack.value ->
    NumericSizeValid values numeric reg

/-- The domain knows where the frame lies, if the frame is given. -/
def KnowsFrame (inv : dom.State) (frame : Option Int) : Prop :=
  forall known, frame = some known ->
    (evalVariable dom inv (regPack r10StackPointer).stackOffset).singleton = some known ∧
      0 ≤ known ∧ known ≤ ebpfTotalStackSize

/-! ## States behind a check over the types -/

theorem represents_setAll {entries : List (Variable × Interval)} {inv : dom.State}
    (represents : dom.Represents inv values) (known : ∀ entry ∈ entries, values entry.1 ∈ entry.2) :
    dom.Represents (dom.joinOperations.setAll entries inv) values := by
  unfold JoinOperations.setAll
  induction entries generalizing inv with
  | nil => exact represents
  | cons entry rest inductionHypothesis =>
      apply inductionHypothesis _ (fun other member => known other (List.mem_cons_of_mem _ member))
      have next := dom.represents_set entry.1 represents (known entry List.mem_cons_self)
      rwa [Function.update_eq_self] at next

theorem mem_emplace {entries : List (Variable × Interval)} {key : Variable} {interval : Interval}
    {entry : Variable × Interval} (member : entry ∈ emplace entries key interval) :
    entry ∈ entries ∨ entry = (key, interval) := by
  unfold emplace at member
  split at member
  · exact Or.inl member
  · rcases List.mem_append.mp member with old | isNew
    · exact Or.inl old
    · exact Or.inr (List.mem_singleton.mp isNew)

/-- What is remembered from two sides holds of an assignment that both sides
represent. -/
theorem extraInvariants_known {owners : List Owner} {dst src : dom.State}
    (inDst : dom.Represents dst values) (inSrc : dom.Represents src values) :
    ∀ entry ∈ dom.joinOperations.extraInvariants owners dst src, values entry.1 ∈ entry.2 := by
  have emplaced : forall {entries : List (Variable × Interval)} {target : Variable}
      {side : dom.State}, dom.Represents side values ->
      (∀ entry ∈ entries, values entry.1 ∈ entry.2) ->
        ∀ entry ∈ emplace entries target (evalVariable dom side target),
        values entry.1 ∈ entry.2 := by
    intro entries target side represents known entry member
    rcases mem_emplace member with old | rfl
    · exact known entry old
    · exact mem_evalVariable dom represents target
  have added : forall (owner : Owner) (typed : TypeEncoding × DataKind)
      (entries : List (Variable × Interval)), (∀ entry ∈ entries, values entry.1 ∈ entry.2) ->
        ∀ entry ∈ dom.joinOperations.addExtraInvariant dst src owner typed.1 typed.2 entries,
        values entry.1 ∈ entry.2 := by
    intro owner typed entries known
    unfold JoinOperations.addExtraInvariant
    dsimp only
    split
    · exact emplaced inDst known
    · split
      · exact emplaced inSrc known
      · exact known
  have inner : forall (owner : Owner) (types : List (TypeEncoding × DataKind))
      (entries : List (Variable × Interval)), (∀ entry ∈ entries, values entry.1 ∈ entry.2) ->
        ∀ entry ∈ types.foldl (fun entries typed =>
          dom.joinOperations.addExtraInvariant dst src owner typed.1 typed.2 entries) entries,
          values entry.1 ∈ entry.2 := by
    intro owner types
    induction types with
    | nil => exact fun _ known => known
    | cons typed rest inductionHypothesis =>
        exact fun entries known => inductionHypothesis _ (added owner typed entries known)
  have outer : forall entries : List (Variable × Interval),
      (∀ entry ∈ entries, values entry.1 ∈ entry.2) ->
      ∀ entry ∈ owners.foldl (fun entries owner => typeSpecificKinds.foldl
        (fun entries typed => dom.joinOperations.addExtraInvariant dst src owner typed.1 typed.2
          entries) entries) entries, values entry.1 ∈ entry.2 := by
    induction owners with
    | nil => exact fun _ known => known
    | cons owner rest inductionHypothesis =>
        exact fun entries known => inductionHypothesis _ (inner owner _ entries known)
  exact outer [] (by simp)

theorem represents_selectivelyJoin {owners : List Owner} {dst src : dom.State}
    (inDst : dom.isBottom dst = true ∨ dom.Represents dst values)
    (inSrc : dom.Represents src values) :
    dom.Represents (dom.joinOperations.selectivelyJoin owners dst src) values := by
  unfold JoinOperations.selectivelyJoin
  apply represents_setAll (dom.represents_join (Or.inr inSrc))
  rcases inDst with empty | inDst
  · have isBottom : dom.joinOperations.isBottom dst = true := empty
    rw [if_pos isBottom]
    simp
  · have notBottom : ¬ dom.joinOperations.isBottom dst = true :=
      fun empty => dom.not_represents_of_isBottom empty inDst
    rw [if_neg notBottom]
    exact extraInvariants_known inDst inSrc

theorem represents_joinVisited {owners : List Owner} {inv result : dom.State}
    {visited : List TypeEncoding}
    (represents : dom.Represents inv values) (inResult : dom.Represents result values) :
    dom.Represents (joinVisited dom owners inv (fun _ state => state) visited result) values := by
  induction visited generalizing result with
  | nil => exact inResult
  | cons type rest inductionHypothesis =>
      exact inductionHypothesis (represents_selectivelyJoin (Or.inr inResult) represents)

theorem represents_joinOverTypes {owners : List Owner} {inv joined : dom.State} {reg : Reg}
    {type : TypeEncoding}
    (represents : dom.Represents inv values) (typed : values (regPack reg).type = type.value)
    (joins : joinOverTypes dom owners inv reg (fun _ state => state) = some joined) :
    dom.Represents joined values := by
  have member : type.value ∈ evalVariable dom inv (regPack reg).type := by
    rw [← typed]
    exact mem_evalVariable dom represents (regPack reg).type
  unfold joinOverTypes at joins
  dsimp only at joins
  split at joins
  · cases joins
    exact represents
  · rename_i condition
    have notTop : ¬ (evalVariable dom inv (regPack reg).type).IsTop := by
      intro isTop
      exact condition ⟨isTop, Interval.not_isBottom_of_mem member⟩
    rw [Option.map_eq_some_iff] at joins
    rcases joins with ⟨visited, visits, rfl⟩
    have inside := mem_visitedTypes_of_not_isTop visits notTop member
    cases visited with
    | nil => cases inside
    | cons first rest =>
        unfold joinVisited
        exact represents_joinVisited represents
          (represents_selectivelyJoin (Or.inl dom.isBottom_bottom) represents)

theorem represents_checkOverTypes {context : CheckerContext} {inv final : dom.State} {reg : Reg}
    {type : TypeEncoding}
    {transition : TypeEncoding -> Option (List String)} {messages : List String}
    (represents : dom.Represents inv values) (typed : values (regPack reg).type = type.value)
    (run : checkOverTypes dom context inv reg transition = some (final, messages)) :
    dom.Represents final values := by
  simp only [checkOverTypes, Option.bind_eq_bind, Option.bind_eq_some_iff] at run
  rcases run with ⟨visited, _, results, _, joined, joins, same⟩
  simp only [Option.some.injEq, Prod.mk.injEq] at same
  rw [← same.1]
  exact represents_joinOverTypes represents typed joins

/-! ## Each check -/

section Checks

variable {context : CheckerContext} {inv : dom.State} {stack : BitsetDomain} {numeric : Int -> Prop}
  {frame : Option Int}

theorem checkAccessStack_holds {lb ub : LinearExpression Variable} (wellFormed : ub.WellFormed)
    (accepted : checkAccessStack dom inv lb ub = some []) (represents : dom.Represents inv values)
    (knows : KnowsFrame inv frame) :
    (forall known, frame = some known -> known - ebpfSubprogramStackSize ≤ lb.eval values) ∧
      ub.eval values ≤ ebpfTotalStackSize := by
  constructor
  · intro known isFrame
    rcases knows known isFrame with ⟨single, lower, upper⟩
    have total : (ebpfTotalStackSize : Int) = 4096 := rfl
    have part : (ebpfSubprogramStackSize : Int) = 512 := rfl
    have least : IntType.int64.min = -9223372036854775808 := rfl
    have greatest : IntType.int64.max = 9223372036854775807 := rfl
    exact (checkAccessStack_accepted wellFormed accepted single ⟨by omega, by omega⟩
      ⟨by omega, by omega⟩ represents).1
  · have upper : requireConstraint dom inv (.le ub (.const ebpfTotalStackSize))
        "Upper bound must be at most EBPF_TOTAL_STACK_SIZE" = [] := by
      unfold checkAccessStack at accepted
      dsimp only at accepted
      split at accepted
      · exact Option.some.inj accepted
      · rename_i singleton _
        rcases Option.map_eq_some_iff.mp accepted with ⟨_, _, messages⟩
        exact (List.append_eq_nil_iff.mp messages).2
    have holds := holds_of_requireConstraint (LinearConstraint.wellFormed_le wellFormed)
      upper represents
    rwa [LinearConstraint.holds_le, LinearExpression.eval_const] at holds

theorem checkAccess_holds {s : ValidAccess} {type : TypeEncoding}
    (passed : checkAccess dom context stack inv s type = some [])
    (describes : Describes inv stack values numeric)
    (knows : KnowsFrame inv frame) (typed : values (regPack s.reg).type = type.value) :
    AccessHolds context values numeric frame s type := by
  have represents := describes.represents
  cases type with
  | uninit => exact absurd (Option.some.inj passed) (requireFalse_ne_nil represents _)
  | mapPrograms | map =>
      by_contra notComparison
      simp only [AccessHolds] at notComparison
      simp only [checkAccess, if_neg notComparison, Option.some.injEq] at passed
      exact requireFalse_ne_nil represents _ passed
  | num =>
      simp only [AccessHolds]
      by_cases comparison : isComparisonCheck s = true
      · exact Or.inl comparison
      · right
        by_cases null : s.orNull = true
        · simp only [checkAccess, if_neg comparison, if_pos null, Option.some.injEq] at passed
          refine ⟨null, ?_⟩
          simpa using holds_of_requireConstraint (by simp) passed represents
        · simp only [checkAccess, if_neg comparison, if_neg null, Option.some.injEq] at passed
          exact absurd passed (requireFalse_ne_nil represents _)
  | ctx =>
      simp only [checkAccess, checkAccessContext, Option.some.injEq,
        List.append_eq_nil_iff] at passed
      have lower := holds_of_requireConstraint (by simp) passed.1 represents
      have upper := holds_of_requireConstraint (by simp) passed.2 represents
      simp only [LinearConstraint.holds_ge, LinearConstraint.holds_le,
        LinearExpression.eval_const, eval_lower, eval_upper] at lower upper
      exact ⟨lower, upper⟩
  | packet =>
      simp only [checkAccess, Option.some.injEq] at passed
      simp only [AccessHolds]
      by_cases comparison : isComparisonCheck s = true
      · rw [if_pos comparison] at passed ⊢
        have bounds := checkAccessPacket_accepted (by simp) passed represents
        rw [eval_lower, eval_upper] at bounds
        exact bounds
      · rw [if_neg comparison] at passed ⊢
        have bounds := checkAccessPacket_accepted (by simp) passed represents
        rw [eval_lower, eval_upper] at bounds
        exact bounds
  | shared =>
      simp only [checkAccess, Option.some.injEq, List.append_eq_nil_iff] at passed
      have bounds := checkAccessShared_accepted (by simp) passed.1 represents
      rw [eval_lower, eval_upper] at bounds
      refine ⟨bounds.1, bounds.2, ?_⟩
      intro access notNull
      have positive := passed.2
      rw [access, notNull, if_pos (by decide)] at positive
      simpa using holds_of_requireConstraint (by simp) positive represents
  | stack =>
      simp only [checkAccess, Option.bind_eq_bind, Option.bind_eq_some_iff] at passed
      rcases passed with ⟨messages, bounded, content⟩
      have noMessages : messages = [] := by
        split at content
        · rcases Option.map_eq_some_iff.mp content with ⟨_, _, none⟩
          exact (List.append_eq_nil_iff.mp none).1
        · exact Option.some.inj content
      rw [noMessages] at bounded
      have bounds := checkAccessStack_holds (by simp) bounded represents knows
      rw [eval_lower, eval_upper] at bounds
      refine ⟨bounds.1, bounds.2, ?_⟩
      intro read index lower upper nonnegative
      rw [if_pos read, noMessages, Option.map_eq_some_iff] at content
      rcases content with ⟨contentMessages, contentRun, none⟩
      rw [List.nil_append] at none
      rw [none] at contentRun
      have inStack := bounds.2
      exact checkStackContent_accepted contentRun represents describes.bits
        (describes.sizes s.reg typed) lower upper
        ⟨nonnegative, by omega⟩

theorem checkValidAccess_holds {s : ValidAccess} {final : dom.State}
    (run : checkValidAccess dom context stack inv s = some (final, []))
    (describes : Describes inv stack values numeric)
    (knows : KnowsFrame inv frame) {type : TypeEncoding}
    (typed : values (regPack s.reg).type = type.value) :
    AccessHolds context values numeric frame s type := by
  refine checkAccess_holds (checkOverTypes_accepted run ?_ describes.represents typed)
    describes knows typed
  intro same
  exact requireFalse_ne_nil describes.represents _ (Option.some.inj same)

theorem Describes.next {next : dom.State} (describes : Describes inv stack values numeric)
    (represents : dom.Represents next values) : Describes next stack values numeric :=
  ⟨represents, describes.typed, describes.bits, describes.sizes⟩

theorem checkValidAccess_describes {s : ValidAccess} {final : dom.State} {messages : List String}
    (run : checkValidAccess dom context stack inv s = some (final, messages))
    (describes : Describes inv stack values numeric) : Describes final stack values numeric := by
  rcases describes.typed s.reg with ⟨type, typed⟩
  exact describes.next (represents_checkOverTypes describes.represents typed run)

theorem hasType_iff {reg : Reg} {group : TypeGroup} {type : TypeEncoding}
    (typed : values (regPack reg).type = type.value) : HasType values reg group ↔
      type ∈ typesOf group := by
  constructor
  · rintro ⟨other, member, same⟩
    rwa [TypeEncoding.value_injective (typed.symm.trans same)]
  · intro member
    exact ⟨type, member, typed⟩

theorem holds_typeIs {reg : Reg} {type : TypeEncoding} :
    (typeIs reg type).Holds values ↔ values (regPack reg).type = type.value := by
  simp [typeIs]

theorem holds_typeIsNot {reg : Reg} {type : TypeEncoding} :
    (typeIsNot reg type).Holds values ↔ values (regPack reg).type ≠ type.value := by
  simp [typeIsNot]

theorem holds_typeAtLeast {reg : Reg} {type : TypeEncoding} :
    (typeAtLeast reg type).Holds values ↔ type.value ≤ values (regPack reg).type := by
  simp [typeAtLeast]

theorem holds_typeAtMost {reg : Reg} {type : TypeEncoding} :
    (typeAtMost reg type).Holds values ↔ values (regPack reg).type ≤ type.value := by
  simp [typeAtMost]

theorem hasType_of_isInGroup {reg : Reg} {group : TypeGroup}
    (inGroup : isInGroup dom inv reg group = true)
    (describes : Describes inv stack values numeric) : HasType values reg group := by
  rcases describes.typed reg with ⟨type, typed⟩
  have holds : forall {constraint : LinearConstraint Variable}, constraint.expression.WellFormed ->
      dom.entail inv constraint = true -> constraint.Holds values :=
    fun wellFormed entailed => dom.holds_of_entail wellFormed entailed describes.represents
  have bounds := type.value_bounds
  rw [hasType_iff typed]
  cases group with
  | memOrNum | stackOrPacket | singletonPtr =>
      rw [isInGroup, Bool.and_eq_true] at inGroup
      have first := holds (by simp) inGroup.1
      have second := holds (by simp) inGroup.2
      simp only [holds_typeAtLeast, holds_typeAtMost, holds_typeIsNot, typed] at first second
      revert first second
      cases type <;> decide
  | number | mapFd | mapFdPrograms | ctx | packet | stack | shared | mem | pointer | ptrOrNum =>
      rw [isInGroup] at inGroup
      have asked := holds (by simp) inGroup
      simp only [holds_typeIs, holds_typeAtLeast, typed] at asked
      revert asked
      cases type <;> decide

theorem hasType_number_of_implied {premise : LinearConstraint Variable} {number : Reg}
    {message : String}
    (admissible : premise.Admissible) (accepted : checkImplied dom inv premise number message = [])
    (represents : dom.Represents inv values)
    (holds : premise.Holds values) : HasType values number .number := by
  unfold checkImplied at accepted
  split at accepted
  · rename_i implied
    have typed := dom.holds_of_entail (by simp) implied
      (dom.represents_addConstraint admissible represents holds)
    exact ⟨.num, by decide, holds_typeIs.mp typed⟩
  · exact absurd accepted (requireFalse_ne_nil represents _)

theorem holds_typeAtLeast_ctx {reg : Reg} (isPointer : HasType values reg .pointer) :
    (typeAtLeast reg .ctx).Holds values := by
  rcases isPointer with ⟨type, member, typed⟩
  rw [holds_typeAtLeast, typed]
  revert member
  cases type <;> decide

theorem checkComparable_holds {r1 r2 : Reg} {final : dom.State}
    (run : checkComparable dom context stack inv r1 r2 = some (final, []))
    (describes : Describes inv stack values numeric) (knows : KnowsFrame inv frame)
    (orR2IsNumber : Bool) :
    DirectHolds context values numeric frame (.comparable r1 r2 orR2IsNumber) ∧
      Describes final stack values numeric := by
  have represents := describes.represents
  unfold checkComparable at run
  split at run
  · rename_i same
    have sameTypes : values (regPack r1).type = values (regPack r2).type := by
      have equal := dom.holds_of_entail (by simp) same represents
      rwa [LinearConstraint.holds_eq, LinearExpression.eval_var, LinearExpression.eval_var] at equal
    dsimp only at run
    split at run
    · simp only [Option.some.injEq, Prod.mk.injEq] at run
      exact absurd run.2 (requireFalse_ne_nil represents _)
    · rename_i condition
      simp only [Option.bind_eq_bind, Option.bind_eq_some_iff] at run
      rcases run with ⟨first, firstRun, second, secondRun, both⟩
      simp only [Option.some.injEq, Prod.mk.injEq, List.append_eq_nil_iff] at both
      rcases both with ⟨rfl, firstNone, secondNone⟩
      have firstHolds : checkValidAccess dom context stack inv (comparedAccess r1) = some
          (first.1, []) := by
        rw [← firstNone]
        exact firstRun
      have secondHolds : checkValidAccess dom context stack first.1 (comparedAccess r2) = some
          (second.1, []) := by
        rw [← secondNone]
        exact secondRun
      have middle := checkValidAccess_describes firstHolds describes
      refine ⟨?_, checkValidAccess_describes secondHolds middle⟩
      by_cases isNumber : HasType values r2 .number
      · exact Or.inl isNumber
      · refine Or.inr ⟨sameTypes, ?_, ?_⟩
        · have notNumber : (typeIsNot r2 .num).Holds values := by
            rw [holds_typeIsNot]
            exact fun typed => isNumber ⟨.num, by decide, typed⟩
          have narrowed := describes.next
            (dom.represents_addConstraint admissible_typeIsNot represents notNumber)
          rw [Bool.and_eq_true, Bool.not_eq_true', Bool.not_eq_true', not_and_or, Bool.not_eq_false,
            Bool.not_eq_false] at condition
          exact condition.imp (hasType_of_isInGroup · narrowed) (hasType_of_isInGroup · narrowed)
        · intro type typed
          refine ⟨checkValidAccess_holds firstHolds describes knows typed, ?_⟩
          exact checkValidAccess_holds secondHolds middle (by intro known isFrame; cases isFrame)
            (sameTypes.symm.trans typed)
  · simp only [Option.some.injEq, Prod.mk.injEq] at run
    rcases run with ⟨rfl, none⟩
    exact ⟨Or.inl ⟨.num, by decide, holds_typeIs.mp (holds_of_requireConstraint
      (by simp) none represents)⟩, describes⟩

theorem checkKeyValue_holds {s : ValidMapKeyValue} {width : Int} {type : TypeEncoding}
    (accepted : checkKeyValue dom context stack inv s width type = [])
    (describes : Describes inv stack values numeric) :
    ArgumentHolds values numeric s width type := by
  have represents := describes.represents
  cases type with
  | stack =>
      simp only [checkKeyValue] at accepted
      split at accepted
      · exact absurd accepted (requireFalse_ne_nil represents _)
      · rename_i all
        simp only [Bool.not_eq_true', Bool.not_eq_false] at all
        intro index lower upper inside
        exact numeric_of_allNum all represents describes.bits (by simpa using lower)
          (by simpa using upper) inside
  | packet =>
      simp only [checkKeyValue] at accepted
      have bounds := checkAccessPacket_accepted (by simp) accepted represents
      rw [LinearExpression.eval_plus, LinearExpression.eval_var,
        LinearExpression.eval_const] at bounds
      exact bounds
  | shared =>
      rcases List.append_eq_nil_iff.mp accepted with ⟨bounded, positive⟩
      have bounds := checkAccessShared_accepted (by simp) bounded represents
      rw [LinearExpression.eval_plus, LinearExpression.eval_var,
        LinearExpression.eval_const] at bounds
      have notNull := holds_of_requireConstraint (by simp) positive represents
      rw [LinearConstraint.holds_gt, LinearExpression.eval_var,
        LinearExpression.eval_const] at notNull
      exact ⟨bounds.1, bounds.2, notNull⟩
  | uninit | mapPrograms | map | num | ctx =>
    exact absurd accepted (requireFalse_ne_nil represents _)

/-- A check without a message, seen as an accepted assertion. -/
theorem accepts_of_direct {assertion : Assertion} {final : dom.State}
    (direct : forall reg, assertion ≠ .funcConstraint reg)
    (run : checkDirect dom context stack inv assertion = some (final, [])) :
    Accepts context ⟨inv, stack⟩ assertion := by
  unfold Accepts ebpfDomainCheck
  split
  · rfl
  · split
    · exact absurd rfl (direct _)
    · rw [run]
      rfl

theorem checkDirect_holds {assertion : Assertion} {final : dom.State}
    (run : checkDirect dom context stack inv assertion = some (final, []))
    (describes : Describes inv stack values numeric) (knows : KnowsFrame inv frame) :
    DirectHolds context values numeric frame assertion ∧ Describes final stack values numeric := by
  have represents := describes.represents
  cases assertion with
  | comparable r1 r2 orR2IsNumber => exact checkComparable_holds run describes knows orR2IsNumber
  | validAccess s =>
      exact ⟨fun type typed => checkValidAccess_holds run describes knows typed,
        checkValidAccess_describes run describes⟩
  | validMapKeyValue s =>
      constructor
      · intro type typed
        rcases validMapKeyValue_accepted (accepts_of_direct (by simp) run) represents typed
          (mem_evalVariable dom represents (regPack s.mapFdReg).mapFd) with ⟨map, found, passed⟩
        exact ⟨map, found, checkKeyValue_holds passed describes⟩
      · simp only [checkDirect, checkValidMapKeyValue] at run
        split at run
        · simp only [Option.some.injEq, Prod.mk.injEq] at run
          rw [← run.1]
          exact describes
        · split at run
          · rcases describes.typed s.accessReg with ⟨type, typed⟩
            exact describes.next (represents_checkOverTypes represents typed run)
          · cases run
  | funcConstraint reg =>
      cases run
      exact ⟨trivial, describes⟩
  | addable ptr num =>
      simp only [checkDirect, Option.some.injEq, Prod.mk.injEq] at run
      rcases run with ⟨rfl, none⟩
      exact ⟨fun isPointer => hasType_number_of_implied admissible_typeAtLeast none represents
        (holds_typeAtLeast_ctx isPointer), describes⟩
  | validDivisor reg isSigned =>
      simp only [checkDirect, Option.some.injEq, Prod.mk.injEq, List.append_eq_nil_iff] at run
      rcases run with ⟨rfl, number, nonzero⟩
      refine ⟨⟨?_, ?_⟩, describes⟩
      · intro isPointer
        rcases isPointer with ⟨type, member, typed⟩
        have isNumber := hasType_number_of_implied admissible_typeAtLeast number represents
          (holds_typeAtLeast_ctx ⟨type, member, typed⟩)
        rw [hasType_iff typed] at isNumber
        revert member isNumber
        cases type <;> decide
      · intro refused
        rw [refused] at nonzero
        have holds := holds_of_requireConstraint (by simp) nonzero represents
        rwa [LinearConstraint.holds_ne, LinearExpression.eval_var,
          LinearExpression.eval_const] at holds
  | validStore mem val =>
      simp only [checkDirect, Option.some.injEq, Prod.mk.injEq] at run
      rcases run with ⟨rfl, none⟩
      refine ⟨fun notStack => hasType_number_of_implied admissible_typeIsNot none represents ?_,
        describes⟩
      rw [holds_typeIsNot]
      exact fun typed => notStack ⟨.stack, by decide, typed⟩
  | validSize reg canBeZero =>
      simp only [checkDirect, Option.some.injEq, Prod.mk.injEq] at run
      rcases run with ⟨rfl, none⟩
      have holds := holds_of_requireConstraint (by cases canBeZero <;> simp) none represents
      refine ⟨?_, describes⟩
      cases canBeZero with
      | true =>
          rw [if_pos rfl, LinearConstraint.holds_ge, LinearExpression.eval_var,
            LinearExpression.eval_const] at holds
          exact ⟨holds, by simp⟩
      | false =>
          rw [if_neg (by decide), LinearConstraint.holds_gt, LinearExpression.eval_var,
            LinearExpression.eval_const] at holds
          exact ⟨holds.le, fun _ => holds.ne'⟩
  | validCall func stackFramePrefix =>
      simp only [checkDirect, Option.some.injEq, Prod.mk.injEq] at run
      rcases run with ⟨rfl, none⟩
      refine ⟨?_, describes⟩
      split at none
      · exact absurd none (requireFalse_ne_nil represents _)
      · rename_i condition
        rw [not_and_or, not_not, Bool.not_eq_true] at condition
        exact condition
  | typeConstraint reg types =>
      simp only [checkDirect, Option.some.injEq, Prod.mk.injEq] at run
      rcases run with ⟨rfl, none⟩
      refine ⟨?_, describes⟩
      split at none
      · rename_i inGroup
        exact hasType_of_isInGroup inGroup describes
      · exact absurd none (requireFalse_ne_nil represents _)
  | zeroCtxOffset reg =>
      simp only [checkDirect, Option.some.injEq, Prod.mk.injEq] at run
      rcases run with ⟨rfl, none⟩
      refine ⟨?_, describes⟩
      have holds := holds_of_requireConstraint (by simp) none represents
      rwa [LinearConstraint.holds_eq, LinearExpression.eval_var,
        LinearExpression.eval_const] at holds
  | boundedLoopCount name =>
      simp only [checkDirect, Option.some.injEq, Prod.mk.injEq] at run
      rcases run with ⟨rfl, none⟩
      refine ⟨?_, describes⟩
      have holds := holds_of_requireConstraint (by simp) none represents
      rwa [LinearConstraint.holds_le, LinearExpression.eval_var,
        LinearExpression.eval_const] at holds

theorem checkEach_holds {assertions : List Assertion}
    (run : checkEach dom context stack assertions inv = some [])
    (describes : Describes inv stack values numeric) :
    ∀ assertion ∈ assertions, DirectHolds context values numeric none assertion := by
  induction assertions generalizing inv with
  | nil => simp
  | cons first rest inductionHypothesis =>
      simp only [checkEach, Option.bind_eq_bind, Option.bind_eq_some_iff] at run
      rcases run with ⟨outcome, firstRun, warnings, restRun, none⟩
      rcases List.append_eq_nil_iff.mp (Option.some.inj none) with ⟨noMessages, rfl⟩
      have passed : checkDirect dom context stack inv first = some (outcome.1, []) := by
        rw [← List.map_eq_nil_iff.mp noMessages]
        exact firstRun
      have holds := @checkDirect_holds _ _ _ _ _ _ Option.none _ _ passed describes
        (by intro known isFrame; cases isFrame)
      intro assertion member
      rcases List.mem_cons.mp member with rfl | later
      · exact holds.1
      · exact inductionHypothesis restRun holds.2 assertion later

theorem checkFuncConstraint_holds {reg : Reg}
    (run : checkFuncConstraint dom context stack inv reg = some [])
    (describes : Describes inv stack values numeric) :
    AssertionHolds context values numeric frame (.funcConstraint reg) := by
  have represents := describes.represents
  have warned : forall message : String, ¬ (requireFalse dom inv message).map
      (fun message => (⟨message, .funcConstraint reg⟩ : Warning)) = [] := by
    intro message none
    exact requireFalse_ne_nil represents message (List.map_eq_nil_iff.mp none)
  unfold checkFuncConstraint at run
  dsimp only at run
  split at run
  · exact absurd (Option.some.inj run) (warned _)
  · rename_i id single
    have value : values (regPack reg).svalue = id :=
      Interval.eq_of_singleton single (mem_evalVariable dom represents _)
    split at run
    · split at run
      · exact absurd (Option.some.inj run) (warned _)
      · rename_i usable
        simp only [Option.bind_eq_bind, Option.bind_eq_some_iff] at run
        rcases run with ⟨assertions, found, each⟩
        simp only [Bool.not_eq_true', Bool.not_eq_false] at usable
        rw [AssertionHolds, value]
        exact ⟨usable, assertions, found, checkEach_holds each describes⟩
    · exact absurd (Option.some.inj run) (warned _)

end Checks

/-- The check of an assertion has run to its end without a message. -/
inductive Passed (context : CheckerContext) (stack : BitsetDomain) (inv : dom.State) :
    Assertion -> Prop where
  | direct {assertion : Assertion} {final : dom.State}
    (isDirect : forall reg, assertion ≠ .funcConstraint reg)
      (run : checkDirect dom context stack inv assertion = some (final, [])) :
      Passed context stack inv assertion
  | func {reg : Reg} (run : checkFuncConstraint dom context stack inv reg = some []) :
      Passed context stack inv (.funcConstraint reg)

/-- An assertion that is accepted in a state with a machine has passed its check. -/
theorem Accepts.passed {context : CheckerContext} {state : EbpfDomain dom} {assertion : Assertion}
    (accepted : Accepts context state assertion) (represents : dom.Represents state.inv values) :
    Passed context state.stack state.inv assertion := by
  by_cases direct : forall reg, assertion ≠ .funcConstraint reg
  · rcases accepts_direct direct accepted represents with ⟨final, run⟩
    exact .direct direct run
  · rcases not_forall.mp direct with ⟨reg, same⟩
    rw [not_not] at same
    subst same
    unfold Accepts ebpfDomainCheck at accepted
    split at accepted
    · rename_i empty
      exact absurd represents (dom.not_represents_of_isBottom empty)
    · exact .func accepted

theorem Passed.holds {context : CheckerContext} {stack : BitsetDomain} {inv : dom.State}
    {assertion : Assertion} (passed : Passed context stack inv assertion) {numeric : Int -> Prop}
    (describes : Describes inv stack values numeric) {frame : Option Int}
    (knows : KnowsFrame inv frame) :
    AssertionHolds context values numeric frame assertion := by
  cases passed with
  | direct isDirect run =>
      have holds := (checkDirect_holds run describes knows).1
      cases assertion with
      | funcConstraint reg => exact absurd rfl (isDirect reg)
      | _ => exact holds
  | func run => exact checkFuncConstraint_holds run describes

/-- An assertion that the check accepts without a warning holds of every machine
that the state describes. -/
theorem accepts_holds (context : CheckerContext) (state : EbpfDomain dom) (assertion : Assertion)
    (accepted : Accepts context state assertion) {numeric : Int -> Prop}
    (describes : Describes state.inv state.stack values numeric) {frame : Option Int}
    (knows : KnowsFrame state.inv frame) : AssertionHolds context values numeric frame assertion :=
  (accepted.passed describes.represents).holds describes knows

theorem describes_stackState :
    Describes (stackState 4096 4088 false).inv (stackState 4096 4088 false).stack
    (IntervalDomain.tableValues (stackEntries 4096 4088)) (fun _ => True) where
  represents := IntervalDomain.represents_exactly _
  typed reg := by
    by_cases isFirst : reg = ⟨1⟩
    · exact ⟨.stack, by rw [isFirst]; decide⟩
    · refine ⟨.shared, ?_⟩
      have offsets : forall other : Reg,
          ((regPack reg).type == (regPack other).stackOffset) = false :=
        fun other => beq_false_of_ne (by intro same; cases same)
      have types : ((regPack reg).type == (regPack ⟨1⟩).type) = false := by
        apply beq_false_of_ne
        intro same
        cases same
        exact isFirst rfl
      unfold IntervalDomain.tableValues stackEntries
      simp only [List.lookup_cons, List.lookup_nil, offsets, types]
      rfl
  bits _ _ _ := trivial
  sizes _ _ _ _ _ := trivial

theorem accepts_holds_readEight : AssertionHolds sampleContext
    (IntervalDomain.tableValues (stackEntries 4096 4088)) (fun _ => True) (some 4096)
    (.validAccess readEight) := by
  refine accepts_holds sampleContext (stackState 4096 4088 false)
    (.validAccess readEight) ?_ describes_stackState ?_
  · unfold Accepts
    decide
  · intro known isFrame
    cases isFrame
    exact ⟨by decide, by decide, by decide⟩

end Ebpf
end Prevail
