import Prevail.Ebpf.AssertionMeaning

namespace Prevail
namespace Ebpf

open Crab

/-!
# What the assertions of an instruction make safe

The demands of an instruction on the machine, read off what the instruction
does: where it touches memory, which operands have to be numbers, what may not
be divided by.  `get_assertions` asks for all of them, with one exception that it
decides itself: an access through r10 that stays within its frame.  That decision is
right where r10 is the stack pointer.  No instruction but `lddw` writes r10, and behind
one the frame is unknown; then nothing is said about accesses through r10.
-/

section Demands

variable (context : CheckerContext) (values : Variable -> Int) (frame : Option Int)

/-- The bytes from an offset of a register on lie in the region that the register
points to.  A null pointer is no region; it is let through where it is allowed. -/
def InBounds (reg : Reg) (offset width : Int) (orNull : Bool) : Prop :=
  exists type : TypeEncoding, values (regPack reg).type = type.value ∧
    match type with
    | .stack =>
        (forall known, frame = some known ->
          known - ebpfSubprogramStackSize ≤ values (regPack reg).stackOffset + offset) ∧
          values (regPack reg).stackOffset + offset + width ≤ ebpfTotalStackSize
    | .ctx =>
        0 ≤ values (regPack reg).ctxOffset + offset ∧
          values (regPack reg).ctxOffset + offset + width ≤ context.contextDescriptorSize
    | .packet =>
        values .metaOffset ≤ values (regPack reg).packetOffset + offset ∧
          values (regPack reg).packetOffset + offset + width ≤ values .packetSize
    | .shared =>
        0 ≤ values (regPack reg).sharedOffset + offset ∧
          values (regPack reg).sharedOffset + offset + width ≤ values
          (regPack reg).sharedRegionSize ∧ (orNull = false -> 0 < values (regPack reg).svalue)
    | .num => orNull = true ∧ values (regPack reg).svalue = 0
    | .map | .mapPrograms | .uninit => False

/-- An argument of a helper function is what the function expects.  An unprivileged
program passes numbers where nothing is expected. -/
def SingleSafe (isPrivileged : Bool) (arg : ArgSingle) : Prop :=
  match arg.kind with
  | .anything => isPrivileged = false -> HasType values arg.reg .number
  | .mapFdPrograms => HasType values arg.reg .mapFdPrograms
  | .mapFd => HasType values arg.reg .mapFd
  | .ptrToMapKey | .ptrToMapValue => HasType values arg.reg .mem
  | .ptrToCtx => HasType values arg.reg .ctx ∧ values (regPack arg.reg).ctxOffset = 0

/-- A pointer argument has the space that its size promises. -/
def PairSafe (arg : ArgPair) : Prop :=
  0 ≤ values (regPack arg.size).svalue ∧
    (arg.canBeZero = false -> values (regPack arg.size).svalue ≠ 0) ∧
    HasType values arg.size .number ∧
    InBounds context values frame arg.mem 0 (values (regPack arg.size).svalue)
      (arg.kind == .ptrToReadableMemOrNull)

/-- The operands of a binary operation over two registers. -/
def BinSafe (op : BinOp) (is64 : Bool) (dst src : Reg) : Prop :=
  match op with
  | .mov => is64 = false -> HasType values src .number
  | .movsx8 | .movsx16 | .movsx32 => HasType values src .number
  | .add =>
      HasType values dst .ptrOrNum ∧ HasType values src .ptrOrNum ∧
        ¬ (HasType values dst .pointer ∧ HasType values src .pointer)
  | .sub =>
      HasType values dst .ptrOrNum ∧ (HasType values src .number ∨
        (values (regPack dst).type = values (regPack src).type ∧ HasType values dst .singletonPtr))
  | .udiv | .umod =>
      HasType values dst .number ∧ ¬ HasType values src .pointer ∧
        (context.allowDivisionByZero = false -> values (regPack src).uvalue ≠ 0)
  | .sdiv | .smod =>
      HasType values dst .number ∧ ¬ HasType values src .pointer ∧
        (context.allowDivisionByZero = false -> values (regPack src).svalue ≠ 0)
  | _ => HasType values dst .number ∧ HasType values src .number

/-- The demands of an instruction. -/
def InstructionSafe (isPrivileged : Bool) (label : Label) : Instruction -> Prop
  | .mem ins => (ins.access.basereg = r10StackPointer -> frame.isSome = true) ->
      InBounds context values frame ins.access.basereg ins.access.offset ins.access.width false ∧
        (isPrivileged = false -> ins.isLoad = false -> forall value, ins.value = .reg value ->
          ¬ HasType values ins.access.basereg .stack -> HasType values value .number)
  | .atomic ins =>
      HasType values ins.valreg .number ∧
        InBounds context values frame ins.access.basereg ins.access.offset ins.access.width false
  | .call call =>
      (∀ arg ∈ call.singles, SingleSafe values isPrivileged arg) ∧
        (∀ arg ∈ call.pairs, PairSafe context values frame arg) ∧
        (call.stackFramePrefix = [] ∨ context.noReturnIfSucceed call.func = false)
  | .callx ins => HasType values ins.func .number ∧ context.isHelperUsable (values
    (regPack ins.func).svalue) = true
  | .bin ins => forall src, ins.v = .reg src -> BinSafe context values ins.op ins.is64 ins.dst src
  | .un ins => HasType values ins.dst .number
  | .packet _ => HasType values ⟨6⟩ .ctx ∧ values (regPack ⟨6⟩).ctxOffset = 0
  | .exit _ => label.stackFramePrefix = [] -> HasType values r0ReturnValue .number
  | .incrementLoopCounter name => values (.loopCounter name.text) ≤ loopLimit
  | _ => True

end Demands

/-- The instruction accesses between one and eight bytes. -/
def Sized : Instruction -> Prop
  | .mem ins => 0 < ins.access.width ∧ ins.access.width ≤ 8
  | .atomic ins => 0 < ins.access.width ∧ ins.access.width ≤ 8
  | _ => True

instance (ins : Instruction) : Decidable (Sized ins) :=
  match ins with
  | .mem _ | .atomic _ => inferInstanceAs (Decidable (_ ∧ _))
  | .undefined _ | .bin _ | .un _ | .loadMapFd _ | .call _ | .callLocal _ | .callx _ | .exit _ |
    .jmp _ | .packet _
  | .assume _ | .incrementLoopCounter _ => inferInstanceAs (Decidable True)

/-- The stack pointer points to the end of the frame. -/
structure StackPointer (values : Variable -> Int) (frame : Int) : Prop where
  type : values (regPack r10StackPointer).type = TypeEncoding.stack.value
  offset : values (regPack r10StackPointer).stackOffset = frame
  inside : 0 ≤ frame ∧ frame ≤ ebpfTotalStackSize

/-- The end of the frame, where the state knows r10 as a pointer to one place of the
stack. -/
def knownFrame (dom : NumAbsDomain Variable) (inv : dom.State) : Option Int :=
  if (evalVariable dom inv (regPack r10StackPointer).type).singleton = some TypeEncoding.stack.value
    then
    (evalVariable dom inv (regPack r10StackPointer).stackOffset).singleton.filter
      (fun known => decide (0 ≤ known ∧ known ≤ ebpfTotalStackSize))
  else none

theorem knowsFrame_knownFrame (dom : NumAbsDomain Variable) (inv : dom.State) :
    KnowsFrame inv (knownFrame dom inv) := by
  intro known isKnown
  unfold knownFrame at isKnown
  split at isKnown
  · rcases Option.filter_eq_some_iff.mp isKnown with ⟨single, inside⟩
    exact ⟨single, of_decide_eq_true inside⟩
  · cases isKnown

theorem stackPointer_of_knownFrame {dom : NumAbsDomain Variable} {inv : dom.State}
    {values : Variable -> Int}
    (represents : dom.Represents inv values) {known : Int}
    (isKnown : knownFrame dom inv = some known) :
    StackPointer values known := by
  have inside := (knowsFrame_knownFrame dom inv known isKnown).2
  unfold knownFrame at isKnown
  split at isKnown
  · rename_i isStack
    rcases Option.filter_eq_some_iff.mp isKnown with ⟨single, _⟩
    exact ⟨Interval.eq_of_singleton isStack (mem_evalVariable dom represents _),
      Interval.eq_of_singleton single (mem_evalVariable dom represents _), inside⟩
  · cases isKnown

section Safe

variable {context : CheckerContext} {values : Variable -> Int} {numeric : Int -> Prop}
  {frame : Option Int}

theorem inBounds_of_access {s : ValidAccess} (comparison : isComparisonCheck s = false)
    {type : TypeEncoding} (typed : values (regPack s.reg).type = type.value)
    (holds : AccessHolds context values numeric frame s type) :
    InBounds context values frame s.reg s.offset (widthValue values s.width) s.orNull := by
  refine ⟨type, typed, ?_⟩
  cases type with
  | stack => exact ⟨holds.1, holds.2.1⟩
  | ctx => exact holds
  | packet =>
      simp only [AccessHolds, comparison, Bool.false_eq_true, if_false] at holds
      exact holds
  | shared => exact ⟨holds.1, holds.2.1, holds.2.2 comparison⟩
  | num =>
      rcases holds with impossible | null
      · rw [comparison] at impossible
        cases impossible
      · exact null
  | map | mapPrograms =>
      have impossible : isComparisonCheck s = true := holds
      rw [comparison] at impossible
      cases impossible
  | uninit => exact holds

/-- The assertion of an access with a width makes the access safe. -/
theorem inBounds_of_holds {assertions : List Assertion}
    (holds : ∀ assertion ∈ assertions, AssertionHolds context values numeric frame assertion)
    (typed : forall reg : Reg, exists type : TypeEncoding, values (regPack reg).type = type.value)
    {s : ValidAccess}
    (member : .validAccess s ∈ assertions) (comparison : isComparisonCheck s = false) :
    InBounds context values frame s.reg s.offset (widthValue values s.width) s.orNull := by
  rcases typed s.reg with ⟨type, isType⟩
  exact inBounds_of_access comparison isType (holds _ member type isType)

section Asserted

variable {isPrivileged : Bool} {label : Label} {assertions : List Assertion}
  (holds : ∀ assertion ∈ assertions, AssertionHolds context values numeric frame assertion)
  (typed : forall reg : Reg, exists type : TypeEncoding, values (regPack reg).type = type.value)

include holds

theorem mem_safe {ins : Mem}
    (found : AssertionContext.memAssertions ⟨isPrivileged, some label⟩ ins = some assertions)
    (sized : 0 < ins.access.width ∧ ins.access.width ≤ 8)
    (pointer : forall known, frame = some known -> StackPointer values known)
    (through : ins.access.basereg = r10StackPointer -> frame.isSome = true)
    (typed : forall reg : Reg, exists type : TypeEncoding, values (regPack reg).type = type.value) :
    InBounds context values frame ins.access.basereg ins.access.offset ins.access.width false ∧
      (isPrivileged = false -> ins.isLoad = false -> forall value, ins.value = .reg value ->
        ¬ HasType values ins.access.basereg .stack -> HasType values value .number) := by
  have widthImm : (BitVec.ofInt 64 ins.access.width).toNat = ins.access.width.toNat := by
    rw [BitVec.toNat_ofInt]
    omega
  have width : forall depth orNull accessType, widthValue values
      (⟨depth, ins.access.basereg, ins.access.offset,
        .imm ⟨BitVec.ofInt 64 ins.access.width⟩, orNull, accessType⟩ : ValidAccess).width =
        ins.access.width := by
    intro depth orNull accessType
    simp only [widthValue, widthImm]
    omega
  have comparison : forall depth orNull accessType, isComparisonCheck
      ⟨depth, ins.access.basereg, ins.access.offset,
        .imm ⟨BitVec.ofInt 64 ins.access.width⟩, orNull, accessType⟩ = false := by
    intro depth orNull accessType
    apply decide_eq_false
    intro same
    have zero := congrArg BitVec.toNat (congrArg Imm.v (Value.imm.inj same))
    rw [widthImm] at zero
    change _ = 0 at zero
    omega
  unfold AssertionContext.memAssertions at found
  rw [if_neg (by omega)] at found
  dsimp only at found
  split at found
  · rename_i isStackPointer
    have base : ins.access.basereg = r10StackPointer := by
      cases h : ins.access.basereg
      rw [h] at isStackPointer
      cases isStackPointer
      rfl
    rcases Option.isSome_iff_exists.mp (through base) with ⟨known, isKnown⟩
    have pointer := pointer known isKnown
    refine ⟨?_, ?_⟩
    · split at found
      · cases found
        have access := inBounds_of_holds holds typed List.mem_cons_self (comparison _ _ _)
        rwa [width] at access
      · rename_i within
        rw [base]
        refine ⟨.stack, pointer.type, ?_⟩
        have inside := pointer.inside
        dsimp only
        rw [pointer.offset]
        refine ⟨fun other isOther => ?_, by omega⟩
        cases isKnown.symm.trans isOther
        omega
    · intro _ _ value _ notStack
      rw [base] at notStack
      exact absurd ⟨.stack, by decide, pointer.type⟩ notStack
  · cases found
    constructor
    · have access := inBounds_of_holds holds typed
        (List.mem_append_left _ (List.mem_cons_of_mem _ List.mem_cons_self)) (comparison _ _ _)
      rwa [width] at access
    · intro unprivileged isStore value isReg notStack
      rw [unprivileged, isStore, isReg] at holds
      simp only [Bool.not_false, Bool.and_self, if_true] at holds
      by_cases eight : ins.access.width ≠ 8
      · rw [if_pos eight] at holds
        exact holds (.typeConstraint value .number) (List.mem_append_right _ List.mem_cons_self)
      · rw [if_neg eight] at holds
        exact holds (.validStore ins.access.basereg value)
          (List.mem_append_right _ List.mem_cons_self) notStack

theorem atomic_safe {ins : Atomic}
    (found : AssertionContext.atomicAssertions ⟨isPrivileged, some label⟩ ins = assertions)
    (sized : 0 < ins.access.width ∧ ins.access.width ≤ 8)
    (typed : forall reg : Reg, exists type : TypeEncoding, values (regPack reg).type = type.value) :
    HasType values ins.valreg .number ∧
      InBounds context values frame ins.access.basereg ins.access.offset
      ins.access.width false := by
  have widthImm : ((BitVec.ofInt 32 ins.access.width).setWidth 64).toNat =
      ins.access.width.toNat := by
    rw [BitVec.toNat_setWidth, BitVec.toNat_ofInt]
    omega
  subst found
  refine ⟨holds _ List.mem_cons_self, ?_⟩
  have access := inBounds_of_holds holds typed
    (List.mem_cons_of_mem _ (List.mem_cons_of_mem _ List.mem_cons_self)) ?_
  · have width : widthValue values (.imm ⟨(BitVec.ofInt 32 ins.access.width).setWidth 64⟩) =
        ins.access.width := by
      simp only [widthValue, widthImm]
      omega
    rwa [width] at access
  · apply decide_eq_false
    intro same
    have zero := congrArg BitVec.toNat (congrArg Imm.v (Value.imm.inj same))
    rw [widthImm] at zero
    change _ = 0 at zero
    omega

theorem pair_safe {arg : ArgPair}
    (member : ∀ assertion ∈ AssertionContext.pairAssertions ⟨isPrivileged, some label⟩ arg,
      assertion ∈ assertions)
    (typed : forall reg : Reg, exists type : TypeEncoding, values (regPack reg).type = type.value) :
    PairSafe context values frame arg := by
  have size := holds (.validSize arg.size arg.canBeZero)
    (member _ (by simp [AssertionContext.pairAssertions]))
  refine ⟨size.1, size.2, holds (.typeConstraint arg.size .number)
    (member _ (by simp [AssertionContext.pairAssertions])), ?_⟩
  have access : exists depth accessType, (.validAccess ⟨depth, arg.mem, 0, .reg arg.size,
      arg.kind == .ptrToReadableMemOrNull, accessType⟩ : Assertion) ∈
        AssertionContext.pairAssertions ⟨isPrivileged, some label⟩ arg := by
    unfold AssertionContext.pairAssertions AssertionContext.makeValidAccess
    cases arg.kind <;> exact ⟨label.callStackDepth, _, by simp; rfl⟩
  rcases access with ⟨depth, accessType, isAccess⟩
  exact inBounds_of_holds holds typed (member _ isAccess) rfl

theorem single_safe {singles : List ArgSingle} {mapFdReg : Option Reg} {found : List Assertion}
    (run : AssertionContext.singleAssertions ⟨isPrivileged, some label⟩ mapFdReg
      singles = some found)
    (inside : ∀ assertion ∈ found, assertion ∈ assertions) :
    ∀ arg ∈ singles, SingleSafe values isPrivileged arg := by
  induction singles generalizing mapFdReg found with
  | nil => simp
  | cons first rest inductionHypothesis =>
      -- The assertions of the first argument come in front of those of the others.
      have split : exists before later seen, found = before ++ later ∧
          AssertionContext.singleAssertions ⟨isPrivileged, some label⟩ seen rest = some later ∧
            ((∀ assertion ∈ before, assertion ∈ assertions) ->
              SingleSafe values isPrivileged first) := by
        rcases first with ⟨kind, reg⟩
        unfold AssertionContext.singleAssertions at run
        cases kind with
        | anything =>
            rcases Option.map_eq_some_iff.mp run with ⟨later, others, rfl⟩
            refine ⟨_, later, _, rfl, others, ?_⟩
            intro member unprivileged
            exact holds (.typeConstraint reg .number) (member _ (by simp [unprivileged]))
        | mapFdPrograms =>
            rcases Option.map_eq_some_iff.mp run with ⟨later, others, rfl⟩
            refine ⟨[.typeConstraint reg .mapFdPrograms], later, _, rfl, others, ?_⟩
            intro member
            exact holds (.typeConstraint reg .mapFdPrograms) (member _ List.mem_cons_self)
        | mapFd =>
            rcases Option.map_eq_some_iff.mp run with ⟨later, others, rfl⟩
            refine ⟨[.typeConstraint reg .mapFd], later, _, rfl, others, ?_⟩
            intro member
            exact holds (.typeConstraint reg .mapFd) (member _ List.mem_cons_self)
        | ptrToMapKey | ptrToMapValue =>
            rcases Option.bind_eq_some_iff.mp run with ⟨mapFd, _, mapped⟩
            rcases Option.map_eq_some_iff.mp mapped with ⟨later, others, rfl⟩
            refine ⟨_, later, _, rfl, others, ?_⟩
            intro member
            exact holds (.typeConstraint reg .mem) (member _ List.mem_cons_self)
        | ptrToCtx =>
            rcases Option.map_eq_some_iff.mp run with ⟨later, others, rfl⟩
            refine ⟨_, later, _, rfl, others, ?_⟩
            intro member
            exact ⟨holds (.typeConstraint reg .ctx) (member _ List.mem_cons_self),
              holds (.zeroCtxOffset reg) (member _ (List.mem_cons_of_mem _ List.mem_cons_self))⟩
      rcases split with ⟨before, later, seen, rfl, others, safe⟩
      intro arg member
      rcases List.mem_cons.mp member with rfl | isLater
      · exact safe (fun assertion isBefore => inside assertion (List.mem_append_left _ isBefore))
      · exact inductionHypothesis others
          (fun assertion isIn => inside assertion (List.mem_append_right _ isIn)) arg isLater

theorem bin_safe {ins : Bin} (found : AssertionContext.binAssertions ins = assertions)
    (typed : forall reg : Reg, exists type : TypeEncoding, values (regPack reg).type = type.value)
    {src : Reg}
    (isReg : ins.v = .reg src) : BinSafe context values ins.op ins.is64 ins.dst src := by
  rcases ins with ⟨op, dst, v, is64, lddw⟩
  dsimp only at isReg ⊢
  subst isReg
  subst found
  unfold AssertionContext.binAssertions at holds
  cases op with
  | mov =>
      intro short
      subst short
      exact holds (.typeConstraint src .number) List.mem_cons_self
  | movsx8 | movsx16 | movsx32 => exact holds (.typeConstraint src .number) List.mem_cons_self
  | add =>
      have dstTyped := holds (.typeConstraint dst .ptrOrNum) (by simp)
      have srcTyped := holds (.typeConstraint src .ptrOrNum) (by simp)
      refine ⟨dstTyped, srcTyped, ?_⟩
      rintro ⟨dstPointer, srcPointer⟩
      have isNumber : HasType values dst .number := holds (.addable src dst) (by simp) srcPointer
      rcases typed dst with ⟨type, isType⟩
      rw [hasType_iff isType] at dstPointer isNumber
      revert dstPointer isNumber
      cases type <;> decide
  | sub =>
      have dstTyped : HasType values dst .ptrOrNum :=
        holds (.typeConstraint dst .ptrOrNum) (by simp)
      refine ⟨dstTyped, ?_⟩
      rcases holds (.comparable dst src true) (by simp) with isNumber | ⟨same, group, _⟩
      · exact Or.inl isNumber
      · refine Or.inr ⟨same, group.resolve_right ?_⟩
        intro isMap
        rcases typed dst with ⟨type, isType⟩
        rw [hasType_iff isType] at dstTyped isMap
        revert dstTyped isMap
        cases type <;> decide
  | udiv | umod | sdiv | smod =>
      have divisor := holds (.validDivisor src _) (List.mem_cons_of_mem _ List.mem_cons_self)
      exact ⟨holds (.typeConstraint dst .number) List.mem_cons_self, divisor⟩
  | _ =>
      exact ⟨holds (.typeConstraint dst .number) List.mem_cons_self,
        holds (.typeConstraint src .number) (List.mem_cons_of_mem _ List.mem_cons_self)⟩

end Asserted

theorem instruction_safe {isPrivileged : Bool} {label : Label} {ins : Instruction}
    {assertions : List Assertion}
    (found : AssertionContext.getAssertions ⟨isPrivileged, some label⟩ ins = some assertions)
    (holds : ∀ assertion ∈ assertions, AssertionHolds context values numeric frame assertion)
    (typed : forall reg : Reg, exists type : TypeEncoding, values (regPack reg).type = type.value)
    (pointer : forall known, frame = some known -> StackPointer values known) (sized : Sized ins) :
    InstructionSafe context values frame isPrivileged label ins := by
  cases ins with
  | mem ins => exact fun through => mem_safe holds found sized pointer through typed
  | atomic ins => exact atomic_safe holds (Option.some.inj found) sized typed
  | call call =>
      rcases Option.map_eq_some_iff.mp found with ⟨singles, run, rfl⟩
      refine ⟨?_, ?_, holds (.validCall call.func call.stackFramePrefix) List.mem_cons_self⟩
      · apply single_safe holds run
        intro assertion member
        exact List.mem_cons_of_mem _ (List.mem_append_left _ member)
      · intro arg member
        refine @pair_safe _ _ _ _ isPrivileged label _ holds arg ?_ typed
        intro assertion isOfPair
        exact List.mem_cons_of_mem
          _ (List.mem_append_right _ (List.mem_flatMap.mpr ⟨arg, member, isOfPair⟩))
  | callx ins =>
      cases found
      exact ⟨holds (.typeConstraint ins.func .number) List.mem_cons_self,
        (holds (.funcConstraint ins.func) (List.mem_cons_of_mem _ List.mem_cons_self)).1⟩
  | bin ins =>
      intro src isReg
      exact bin_safe holds (Option.some.inj found) typed isReg
  | un ins =>
      cases found
      exact holds (.typeConstraint ins.dst .number) List.mem_cons_self
  | packet ins =>
      cases found
      exact ⟨holds (.typeConstraint ⟨6⟩ .ctx) List.mem_cons_self,
        holds (.zeroCtxOffset ⟨6⟩) (List.mem_cons_of_mem _ List.mem_cons_self)⟩
  | exit ins =>
      cases found
      intro outermost
      dsimp only at holds
      rw [if_pos outermost] at holds
      exact holds (.typeConstraint r0ReturnValue .number) List.mem_cons_self
  | incrementLoopCounter name =>
      cases found
      exact holds (.boundedLoopCount name) List.mem_cons_self
  | undefined | loadMapFd | callLocal | jmp | assume => trivial

end Safe

end Ebpf
end Prevail
