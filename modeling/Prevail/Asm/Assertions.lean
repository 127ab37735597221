import Prevail.Asm.Syntax

namespace Prevail

/-!
# The assertions of an instruction

`AssertExtractor` of `assertions.cpp`: the preconditions that the verifier has
to establish before each instruction.  The result is absent where the source
throws or reads an empty optional: a negative width, a map key before any map,
and a return without a label.
-/

/-- The part of `program_info` that the extraction reads. -/
structure AssertionContext where
  isPrivileged : Bool
  currentLabel : Option Label

namespace AssertionContext

variable (context : AssertionContext)

def zeroOffsetCtx (reg : Reg) : List Assertion :=
  [.typeConstraint reg .ctx, .zeroCtxOffset reg]

def makeValidAccess (reg : Reg) (offset : Int := 0) (width : Value := .imm ⟨0⟩)
    (orNull : Bool := false) (accessType : AccessType := .compare) : Assertion :=
  .validAccess ⟨(context.currentLabel.map Label.callStackDepth).getD 1, reg, offset, width,
    orNull, accessType⟩

/-- The assertions of an `Exit`. -/
def exitAssertions : Option (List Assertion) :=
  context.currentLabel.map (fun label =>
    if label.stackFramePrefix = [] then [.typeConstraint r0ReturnValue .number] else [])

/-- The assertions of the single arguments of a call, where `mapFdReg` is the
map argument seen last. -/
def singleAssertions (mapFdReg : Option Reg) : List ArgSingle -> Option (List Assertion)
  | [] => some []
  | arg :: rest =>
      match arg.kind with
      | .anything =>
          (singleAssertions mapFdReg rest).map
            ((if context.isPrivileged then [] else [.typeConstraint arg.reg .number]) ++ ·)
      | .mapFdPrograms => (singleAssertions mapFdReg rest).map (.typeConstraint arg.reg
        .mapFdPrograms :: ·)
      | .mapFd => (singleAssertions (some arg.reg) rest).map (.typeConstraint arg.reg .mapFd :: ·)
      | .ptrToMapKey | .ptrToMapValue =>
          mapFdReg.bind (fun mapFd =>
            (singleAssertions mapFdReg rest).map
              ([.typeConstraint arg.reg .mem,
                .validMapKeyValue ⟨arg.reg, mapFd, arg.kind == .ptrToMapKey⟩] ++ ·))
      | .ptrToCtx => (singleAssertions mapFdReg rest).map (zeroOffsetCtx arg.reg ++ ·)

/-- The assertions of a pair of arguments of a call. -/
def pairAssertions (arg : ArgPair) : List Assertion :=
  [.typeConstraint arg.size .number, .validSize arg.size arg.canBeZero] ++
    match arg.kind with
    | .ptrToReadableMemOrNull =>
        [.typeConstraint arg.mem .memOrNum,
          context.makeValidAccess arg.mem 0 (.reg arg.size) true .read]
    | .ptrToReadableMem =>
        [.typeConstraint arg.mem .mem,
          context.makeValidAccess arg.mem 0 (.reg arg.size) false .read]
    | .ptrToWritableMem =>
        [.typeConstraint arg.mem .mem,
          context.makeValidAccess arg.mem 0 (.reg arg.size) false .write]

/-- The assertions of a `Call`. -/
def callAssertions (call : Call) : Option (List Assertion) :=
  (context.singleAssertions none call.singles).map (fun singles =>
    .validCall call.func call.stackFramePrefix :: singles ++
      call.pairs.flatMap context.pairAssertions)

/-- The comparisons of a pointer with zero that are allowed. -/
def allowPointers : ConditionOp -> Bool
  | .eq | .ne | .set | .nset | .lt | .le | .gt | .ge => true
  | .slt | .sle | .sgt | .sge => false

def explicate (cond : Condition) : List Assertion :=
  if context.isPrivileged then []
  else
    match cond.right with
    | .imm imm =>
        if imm.v ≠ 0 then [.typeConstraint cond.left .number]
        else
          (if allowPointers cond.op && cond.is64 then []
            else [.typeConstraint cond.left .number]) ++
            [context.makeValidAccess cond.left]
    | .reg right =>
        [context.makeValidAccess cond.left, context.makeValidAccess right] ++
          (if cond.op ≠ .eq ∧ cond.op ≠ .ne then [.typeConstraint cond.left .ptrOrNum] else []) ++
          [.comparable cond.left right false]

/-- The assertions of a `Mem`.  The width is narrowed to an unsigned 32-bit
number, which throws unless it fits. -/
def memAssertions (ins : Mem) : Option (List Assertion) :=
  if ins.access.width < 0 then none
  else
    let basereg := ins.access.basereg
    let offset := ins.access.offset
    let width : Value := .imm ⟨BitVec.ofInt 64 ins.access.width⟩
    let accessType : AccessType := if ins.isLoad then .read else .write
    if basereg.v = r10StackPointer.v then
      if offset < -(ebpfSubprogramStackSize : Int) ∨ 0 < offset + ins.access.width then
        some [context.makeValidAccess basereg offset width false accessType]
      else some []
    else
      some ([.typeConstraint basereg .pointer,
        context.makeValidAccess basereg offset width false accessType] ++
        if !context.isPrivileged && !ins.isLoad then
          match ins.value with
          | .reg value =>
              if ins.access.width ≠ 8 then [.typeConstraint value .number]
                else [.validStore basereg value]
          | .imm _ => []
        else [])

/-- The assertions of an `Atomic`. -/
def atomicAssertions (ins : Atomic) : List Assertion :=
  [.typeConstraint ins.valreg .number, .typeConstraint ins.access.basereg .pointer,
    context.makeValidAccess ins.access.basereg ins.access.offset
      (.imm ⟨(BitVec.ofInt 32 ins.access.width).setWidth 64⟩) false]

/-- The assertions of a `Bin`. -/
def binAssertions (ins : Bin) : List Assertion :=
  match ins.op, ins.v with
  | .mov, .reg src => if ins.is64 then [] else [.typeConstraint src .number]
  | .mov, .imm _ => []
  | .movsx8, .reg src | .movsx16, .reg src | .movsx32, .reg src => [.typeConstraint src .number]
  | .movsx8, .imm _ | .movsx16, .imm _ | .movsx32, .imm _ => []
  | .add, .reg src =>
      [.typeConstraint ins.dst .ptrOrNum, .typeConstraint src .ptrOrNum, .addable src ins.dst,
        .addable ins.dst src]
  | .add, .imm _ => [.typeConstraint ins.dst .ptrOrNum]
  | .sub, .reg src => [.typeConstraint ins.dst .ptrOrNum, .comparable ins.dst src true]
  | .sub, .imm _ => [.typeConstraint ins.dst .ptrOrNum]
  | .udiv, .reg src | .umod, .reg src => [.typeConstraint ins.dst .number, .validDivisor src false]
  | .sdiv, .reg src | .smod, .reg src => [.typeConstraint ins.dst .number, .validDivisor src true]
  | _, .reg src => [.typeConstraint ins.dst .number, .typeConstraint src .number]
  | _, .imm _ => [.typeConstraint ins.dst .number]

def getAssertions : Instruction -> Option (List Assertion)
  | .undefined _ => some []
  | .incrementLoopCounter name => some [.boundedLoopCount name]
  | .loadMapFd _ => some []
  | .packet _ => some (zeroOffsetCtx ⟨6⟩)
  | .exit _ => context.exitAssertions
  | .call call => context.callAssertions call
  | .callLocal _ => some []
  | .callx callx => some [.typeConstraint callx.func .number, .funcConstraint callx.func]
  | .assume ins => some (if ins.isImplicit then [] else context.explicate ins.cond)
  | .jmp ins => some ((ins.cond.map context.explicate).getD [])
  | .mem ins => context.memAssertions ins
  | .atomic ins => some (context.atomicAssertions ins)
  | .un ins => some [.typeConstraint ins.dst .number]
  | .bin ins => some (binAssertions ins)

end AssertionContext

end Prevail
