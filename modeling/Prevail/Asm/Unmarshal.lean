import Prevail.Asm.Isa

namespace Prevail

/-!
# The decoder

`Unmarshaller` of `asm_unmarshal.cpp`.  Each instruction is decoded by itself,
and the loop over the program merges a left shift by 32 with a right shift by
32 of the same register into one move.  The notes that the decoder writes are
left out, since they do not change what it returns.
-/

/-- What the decoder throws. -/
inductive UnmarshalError where
  | invalidInstruction (pc : Nat) (what : String)
  | runtimeError (what : String)
  | invalidArgument (what : String)
  | narrowingError
  deriving DecidableEq

namespace Unmarshaller

def makeOpcodeMessage (msg : String) (opcode : Opcode) : String :=
  msg ++ " op 0x" ++ String.ofList (Nat.toDigits 16 opcode.toNat)

/-- `InvalidInstruction` of an opcode. -/
def badInstruction (pc : Nat) (inst : EbpfInst) : UnmarshalError :=
  .invalidInstruction pc (makeOpcodeMessage "bad instruction" inst.opcode)

/-- `InvalidInstruction` with a message about an opcode. -/
def invalidFor (pc : Nat) (msg : String) (inst : EbpfInst) : UnmarshalError :=
  .invalidInstruction pc (makeOpcodeMessage msg inst.opcode)

/-- Throw unless a condition holds. -/
def require (condition : Bool) (err : UnmarshalError) : Except UnmarshalError Unit :=
  if condition then .ok () else .error err

/-- `Reg` of a field. -/
def regOf (field : BitVec 4) : Reg := ⟨UInt8.ofBitVec (field.setWidth 8)⟩

def signExtend (imm : BitVec 32) : BitVec 64 := imm.signExtend 64

def zeroExtend (imm : BitVec 32) : BitVec 64 := imm.setWidth 64

def shift32 (dst : Reg) (op : BinOp) : Instruction := .bin ⟨op, dst, .imm ⟨32⟩, true, false⟩

variable (platform : EbpfPlatform)

/-- A division, by the offset that selects its signed form. -/
def getDivOp (pc : Nat) (inst : EbpfInst) (unsigned signed : BinOp) :
    Except UnmarshalError BinOp := do
  require (platform.supportsGroup (if inst.cls = instClsAlu64 then .divmul64 else .divmul32))
    (badInstruction pc inst)
  if inst.offset = 0 then return unsigned
  else if inst.offset = 1 then return signed
  else throw (invalidFor pc "invalid offset for" inst)

/-- A move, by the offset that selects its sign-extending forms. -/
def getMovOp (pc : Nat) (inst : EbpfInst) : Except UnmarshalError BinOp := do
  require (!(decide (0 < inst.offset.toInt) && !inst.hasSrcReg))
    (invalidFor pc "nonzero offset for" inst)
  if inst.offset = 0 then return .mov
  else if inst.offset = 8 then return .movsx8
  else if inst.offset = 16 then return .movsx16
  else if inst.offset = 32 then return .movsx32
  else throw (invalidFor pc "invalid offset for" inst)

/-- The byte swap of a width, if the platform has it. -/
def getSwapOp (pc : Nat) (inst : EbpfInst) (op16 op32 op64 : UnOp) : Except UnmarshalError UnOp :=
  if inst.imm = 16 then do
    require (platform.supportsGroup .base32) (badInstruction pc inst)
    return op16
  else if inst.imm = 32 then do
    require (platform.supportsGroup .base32) (badInstruction pc inst)
    return op32
  else if inst.imm = 64 then do
    require (platform.supportsGroup .base64) (badInstruction pc inst)
    return op64
  else throw (.invalidInstruction pc "unsupported immediate")

/-- The byte swaps of `getAluOp`. -/
def getEndOp (pc : Nat) (inst : EbpfInst) : Except UnmarshalError UnOp := do
  require (inst.src = 0) (badInstruction pc inst)
  if inst.cls = instClsAlu64 then do
    require (inst.opcode &&& instEndBe = 0) (badInstruction pc inst)
    getSwapOp platform pc inst .swap16 .swap32 .swap64
  else if inst.opcode &&& instEndBe = 0 then getSwapOp platform pc inst .le16 .le32 .le64
  else getSwapOp platform pc inst .be16 .be32 .be64

/-- The negation of `getAluOp`, whose other fields must all be zero. -/
def getNegOp (pc : Nat) (inst : EbpfInst) : Except UnmarshalError UnOp := do
  require (!inst.hasSrcReg) (badInstruction pc inst)
  require (inst.src = 0) (badInstruction pc inst)
  require (inst.imm = 0) (invalidFor pc "nonzero imm for" inst)
  return .neg

/-- The operations of `getAluOp` that require a zero offset. -/
def getPlainOp (pc : Nat) (inst : EbpfInst) : Except UnmarshalError (BinOp ⊕ UnOp) :=
  if inst.aluOp = 0x00 then return .inl .add
  else if inst.aluOp = 0x10 then return .inl .sub
  else if inst.aluOp = 0x20 then do
    require (platform.supportsGroup (if inst.cls = instClsAlu64 then .divmul64 else .divmul32))
      (badInstruction pc inst)
    return .inl .mul
  else if inst.aluOp = 0x40 then return .inl .or
  else if inst.aluOp = 0x50 then return .inl .and
  else if inst.aluOp = 0x60 then return .inl .lsh
  else if inst.aluOp = 0x70 then return .inl .rsh
  else if inst.aluOp = 0x80 then Sum.inr <$> getNegOp pc inst
  else if inst.aluOp = 0xa0 then return .inl .xor
  else if inst.aluOp = 0xc0 then return .inl .arsh
  else if inst.aluOp = 0xd0 then Sum.inr <$> getEndOp platform pc inst
  else throw (badInstruction pc inst)

def getAluOp (pc : Nat) (inst : EbpfInst) : Except UnmarshalError (BinOp ⊕ UnOp) :=
  if inst.aluOp = 0x30 then Sum.inl <$> getDivOp platform pc inst .udiv .sdiv
  else if inst.aluOp = 0x90 then Sum.inl <$> getDivOp platform pc inst .umod .smod
  else if inst.aluOp = 0xb0 then Sum.inl <$> getMovOp pc inst
  else do
    require (inst.offset = 0) (invalidFor pc "nonzero offset for" inst)
    getPlainOp platform pc inst

/-- The value of an atomic operation. -/
def atomicOf (value : BitVec 32) : Option AtomicOp :=
  if value = 0x00 then some .add
  else if value = 0x40 then some .or
  else if value = 0x50 then some .and
  else if value = 0xa0 then some .xor
  else if value = 0xe0 then some .xchg
  else if value = 0xf0 then some .cmpxchg
  else none

def getAtomicOp (pc : Nat) (inst : EbpfInst) : Except UnmarshalError AtomicOp :=
  match atomicOf (inst.imm &&& ~~~instFetch) with
  | some op => do
      require (!((op == .xchg || op == .cmpxchg) && inst.imm &&& instFetch == 0))
        (.invalidInstruction pc "unsupported immediate")
      return op
  | none => throw (.invalidInstruction pc "unsupported immediate")

def getBinValue (pc : Nat) (inst : EbpfInst) : Except UnmarshalError Value :=
  if inst.hasSrcReg then do
    require (inst.imm = 0) (invalidFor pc "nonzero imm for" inst)
    return .reg (regOf inst.src)
  else do
    require (inst.src = 0) (badInstruction pc inst)
    return .imm ⟨signExtend inst.imm⟩

/-- `getJmpOp`, for the operations that are conditions. -/
def getJmpOp (pc : Nat) (inst : EbpfInst) : Except UnmarshalError ConditionOp :=
  match inst.jmpOp.toNat with
  | 0x1 => return .eq
  | 0x2 => return .gt
  | 0x3 => return .ge
  | 0x4 => return .set
  | 0x5 => return .ne
  | 0x6 => return .sgt
  | 0x7 => return .sge
  | 0xa => return .lt
  | 0xb => return .le
  | 0xc => return .slt
  | 0xd => return .sle
  | 0xe => throw (badInstruction pc inst)
  | 0xf => throw (badInstruction pc inst)
  | _ => return .eq

/-- A packet access, whose register is `regoffset`. -/
def makePacket (pc : Nat) (inst : EbpfInst) (regoffset : Option Reg) :
    Except UnmarshalError Instruction := do
  let width := opcodeToWidth inst.size
  require (platform.supportsGroup .packet && inst.cls == instClsLd && width != 8)
    (badInstruction pc inst)
  require (inst.dst = 0) (invalidFor pc "nonzero dst for register" inst)
  require (regoffset.isSome || inst.src = 0) (badInstruction pc inst)
  require (inst.offset = 0) (invalidFor pc "nonzero offset for" inst)
  return .packet ⟨width, inst.imm.toInt, regoffset⟩

/-- The loads and stores of `makeMemOp`. -/
def makeMem (pc : Nat) (inst : EbpfInst) : Except UnmarshalError Instruction := do
  require (inst.cls != instClsLd) (badInstruction pc inst)
  let isLoad := inst.cls = instClsLdx
  require (!(isLoad && inst.dst = 10)) (.invalidInstruction pc "cannot modify r10")
  let isImm := inst.opcode &&& 1 = 0
  require (!(isImm && inst.src != 0)) (badInstruction pc inst)
  require (!(!isImm && inst.imm != 0)) (invalidFor pc "nonzero imm for" inst)
  let basereg := if isLoad then inst.src else inst.dst
  let value : Value :=
    if isLoad then .reg (regOf inst.dst) else if isImm then .imm ⟨zeroExtend inst.imm⟩
      else .reg (regOf inst.src)
  return .mem ⟨⟨opcodeToWidth inst.size, regOf basereg, inst.offset.toInt⟩, value, isLoad⟩

/-- The atomic operations of `makeMemOp`. -/
def makeAtomic (pc : Nat) (inst : EbpfInst) : Except UnmarshalError Instruction := do
  require (inst.cls == instClsStx && (inst.size == instSizeW || inst.size == instSizeDw))
    (badInstruction pc inst)
  require (platform.supportsGroup (if inst.size = instSizeDw then .atomic64 else .atomic32))
    (badInstruction pc inst)
  let op <- getAtomicOp pc inst
  return .atomic ⟨op, inst.imm &&& instFetch == instFetch,
    ⟨opcodeToWidth inst.size, regOf inst.dst, inst.offset.toInt⟩, regOf inst.src⟩

def makeMemOp (pc : Nat) (inst : EbpfInst) : Except UnmarshalError Instruction := do
  require (inst.dst.toNat ≤ 10 && inst.src.toNat ≤ 10) (.invalidInstruction pc "bad register")
  require (platform.supportsGroup (if opcodeToWidth inst.size = 8 then .base64 else .base32))
    (badInstruction pc inst)
  if inst.mode = instModeAbs then makePacket platform pc inst none
  else if inst.mode = instModeInd then makePacket platform pc inst (some (regOf inst.src))
  else if inst.mode = instModeMem then makeMem pc inst
  else if inst.mode = instModeAtomic then makeAtomic platform pc inst
  else throw (badInstruction pc inst)

def makeAluOp (pc : Nat) (inst : EbpfInst) : Except UnmarshalError Instruction := do
  let is64 := inst.cls = instClsAlu64
  require (platform.supportsGroup (if is64 then .base64 else .base32)) (badInstruction pc inst)
  require (inst.dst != 10) (.invalidInstruction pc "invalid target r10")
  require (inst.dst.toNat ≤ 10 && inst.src.toNat ≤ 10) (.invalidInstruction pc "bad register")
  match <- getAluOp platform pc inst with
  | .inr op => return .un ⟨op, regOf inst.dst, is64⟩
  | .inl op => do
      let v <- getBinValue pc inst
      return .bin ⟨op, regOf inst.dst, v, is64, false⟩

def makeLddw (inst : EbpfInst) (insts : List EbpfInst) (pc : Nat) :
    Except UnmarshalError Instruction := do
  require (platform.supportsGroup .base64) (badInstruction pc inst)
  match insts[pc + 1]? with
  | none => throw (.invalidInstruction pc "incomplete lddw")
  | some next => do
      require (next.opcode = 0 && next.dst = 0 && next.src = 0 && next.offset = 0)
        (.invalidInstruction pc "invalid lddw")
      require (inst.src.toNat ≤ 1) (badInstruction pc inst)
      require (inst.offset = 0) (invalidFor pc "nonzero offset for" inst)
      require (inst.dst.toNat ≤ 10) (.invalidInstruction pc "bad register")
      if inst.src = 1 then do
        require (next.imm = 0) (.invalidInstruction pc "lddw uses reserved fields")
        return .loadMapFd ⟨regOf inst.dst, inst.imm.toInt⟩
      else return .bin ⟨.mov, regOf inst.dst, .imm ⟨mergeImm inst.imm next.imm⟩, true, true⟩

def toArgSingleKind : EbpfArgumentType -> ArgSingleKind
  | .anything => .anything
  | .ptrToMap => .mapFd
  | .ptrToMapOfPrograms => .mapFdPrograms
  | .ptrToMapKey => .ptrToMapKey
  | .ptrToMapValue => .ptrToMapValue
  | .ptrToCtx => .ptrToCtx
  | _ => .mapFd

def toArgPairKind : EbpfArgumentType -> ArgPairKind
  | .ptrToReadableMemOrNull => .ptrToReadableMemOrNull
  | .ptrToReadableMem => .ptrToReadableMem
  | .ptrToWritableMem => .ptrToWritableMem
  | _ => .ptrToReadableMem

/-- What `makeCall` throws about a prototype. -/
def prototypeError (msg : String) (proto : EbpfHelperPrototype) : UnmarshalError :=
  .runtimeError (msg ++ String.ofList proto.name)

/-- The loop of `makeCall` over the arguments from the register `i` on. -/
def callArguments (proto : EbpfHelperPrototype) :
    Nat -> List EbpfArgumentType -> Call -> Except UnmarshalError Call
  | _, [], res => .ok res
  | i, arg :: rest, res =>
      match arg with
      | .unsupported => throw (prototypeError "unsupported function: " proto)
      | .dontcare => .ok res
      | .anything | .ptrToMap | .ptrToMapOfPrograms | .ptrToMapKey | .ptrToMapValue | .ptrToCtx =>
          callArguments proto (i + 1) rest
            { res with singles := res.singles ++ [⟨toArgSingleKind arg, ⟨UInt8.ofNat i⟩⟩] }
      | .constSize =>
          throw (prototypeError "mismatched EBPF_ARGUMENT_TYPE_PTR_TO* and EBPF_ARGUMENT_TYPE_CONST_SIZE: " proto)
      | .constSizeOrZero =>
          throw (prototypeError
            "mismatched EBPF_ARGUMENT_TYPE_PTR_TO* and EBPF_ARGUMENT_TYPE_CONST_SIZE_OR_ZERO: " proto)
      | .ptrToReadableMemOrNull | .ptrToReadableMem | .ptrToWritableMem =>
          let unpaired := prototypeError
            ("Pointer argument not followed by EBPF_ARGUMENT_TYPE_CONST_SIZE or " ++
            "EBPF_ARGUMENT_TYPE_CONST_SIZE_OR_ZERO: ") proto
          match rest with
          | [] => throw unpaired
          | size :: rest =>
              if size ≠ .constSize ∧ size ≠ .constSizeOrZero then throw unpaired
              else callArguments proto (i + 2) rest { res with
                pairs := res.pairs ++
                  [⟨toArgPairKind arg, ⟨UInt8.ofNat i⟩, ⟨UInt8.ofNat (i + 1)⟩,
                    size == .constSizeOrZero⟩] }

def makeCall (imm : Int) : Except UnmarshalError Call :=
  let proto := platform.getHelperPrototype imm
  if proto.returnType = .unsupported then throw (prototypeError "unsupported function: " proto)
  else callArguments proto 1 (List.ofFn proto.argumentType)
    { func := imm, name := proto.name, isMapLookup := proto.returnType == .ptrToMapValueOrNull
      reallocatePacket := proto.reallocatePacket, singles := [], pairs := [],
      stackFramePrefix := [] }

/-- The label of an instruction, an `int`. -/
def labelOf (pc : Nat) : Except UnmarshalError Label :=
  if pc < 2 ^ 31 then .ok { fromIndex := pc } else .error .narrowingError

/-- `getJumpTarget`.  A `pc_t` has 32 bits. -/
def getJumpTarget (offset : BitVec 32) (insts : List EbpfInst) (pc : Nat) :
    Except UnmarshalError Label :=
  let newPc := (BitVec.ofNat 32 pc + 1 + offset).toNat
  match insts[newPc]? with
  | none => throw (.invalidInstruction pc "jump out of bounds")
  | some target => do
      require (target.opcode != 0) (.invalidInstruction pc "jump to middle of lddw")
      labelOf newPc

def makeCallLocal (inst : EbpfInst) (insts : List EbpfInst) (pc : Nat) :
    Except UnmarshalError Instruction := do
  require (!inst.hasSrcReg) (badInstruction pc inst)
  require (inst.dst = 0) (invalidFor pc "nonzero dst for register" inst)
  let target <- getJumpTarget inst.imm insts pc
  return .callLocal ⟨target, []⟩

def makeCallx (inst : EbpfInst) (pc : Nat) : Except UnmarshalError Instruction := do
  require (inst.dst.toNat ≤ 10) (.invalidInstruction pc "bad register")
  if inst.imm ≠ 0 then do
    require (inst.dst = 0) (invalidFor pc "nonzero imm for" inst)
    require (0 ≤ inst.imm.toInt && inst.imm.toInt ≤ 10) (.invalidInstruction pc "bad register")
    return .callx ⟨⟨UInt8.ofBitVec (inst.imm.setWidth 8)⟩⟩
  else return .callx ⟨regOf inst.dst⟩

/-- The calls of `makeJmp`. -/
def makeCallOp (inst : EbpfInst) (insts : List EbpfInst) (pc : Nat) :
    Except UnmarshalError Instruction := do
  require (inst.cls == instClsJmp) (badInstruction pc inst)
  require (platform.supportsGroup .callx || !inst.hasSrcReg) (badInstruction pc inst)
  require (platform.supportsGroup .base32) (badInstruction pc inst)
  require (inst.src.toNat < instCallBtfHelper.toNat) (badInstruction pc inst)
  require (inst.offset = 0) (invalidFor pc "nonzero offset for" inst)
  if inst.src = instCallLocal then makeCallLocal inst insts pc
  else if inst.hasSrcReg then makeCallx inst pc
  else do
    require (inst.dst = 0) (invalidFor pc "nonzero dst for register" inst)
    require (platform.isHelperUsable inst.imm.toInt)
      (.invalidInstruction pc ("invalid helper function id " ++ String.ofList
        (Label.decimal inst.imm.toInt)))
    let call <- makeCall platform inst.imm.toInt
    return .call call

/-- The exit of `makeJmp`. -/
def makeExit (pc : Nat) (inst : EbpfInst) : Except UnmarshalError Instruction := do
  require (platform.supportsGroup .base32) (badInstruction pc inst)
  require (inst.cls == instClsJmp && !inst.hasSrcReg) (badInstruction pc inst)
  require (inst.src = 0) (badInstruction pc inst)
  require (inst.dst = 0) (invalidFor pc "nonzero dst for register" inst)
  require (inst.imm = 0) (invalidFor pc "nonzero imm for" inst)
  require (inst.offset = 0) (invalidFor pc "nonzero offset for" inst)
  return .exit ⟨[]⟩

/-- What `makeJmp` requires of an unconditional jump. -/
def checkJa (pc : Nat) (inst : EbpfInst) : Except UnmarshalError Unit := do
  require (inst.cls == instClsJmp || inst.cls == instClsJmp32) (badInstruction pc inst)
  require (platform.supportsGroup .base32) (badInstruction pc inst)
  require (!inst.hasSrcReg) (badInstruction pc inst)
  require (!(inst.cls == instClsJmp && inst.imm != 0)) (invalidFor pc "nonzero imm for" inst)
  require (!(inst.cls == instClsJmp32 && inst.offset != 0))
    (invalidFor pc "nonzero offset for" inst)
  require (inst.dst = 0) (invalidFor pc "nonzero dst for register" inst)

/-- The opcode is one of the two unconditional jumps. -/
def isJa (inst : EbpfInst) : Bool := inst.opcode == instOpJa16 || inst.opcode == instOpJa32

/-- The jumps of `makeJmp`, conditional or not. -/
def makeJump (inst : EbpfInst) (insts : List EbpfInst) (pc : Nat) :
    Except UnmarshalError Instruction := do
  let is64 := inst.cls = instClsJmp
  require (platform.supportsGroup (if is64 then .base64 else .base32)) (badInstruction pc inst)
  let op <- getJmpOp pc inst
  require (!(!inst.hasSrcReg && inst.src != 0)) (badInstruction pc inst)
  require (!(inst.hasSrcReg && inst.imm != 0)) (invalidFor pc "nonzero imm for" inst)
  let offset := if inst.opcode = instOpJa32 then inst.imm else inst.offset.signExtend 32
  let target <- getJumpTarget offset insts pc
  require (isJa inst || inst.dst.toNat ≤ 10) (.invalidInstruction pc "bad register")
  require (isJa inst || !inst.hasSrcReg || inst.src.toNat ≤ 10)
    (.invalidInstruction pc "bad register")
  if isJa inst then return .jmp ⟨none, target⟩
  else
    let right : Value := if inst.hasSrcReg then .reg (regOf inst.src)
      else .imm ⟨signExtend inst.imm⟩
    return .jmp ⟨some ⟨op, regOf inst.dst, right, is64⟩, target⟩

def makeJmp (inst : EbpfInst) (insts : List EbpfInst) (pc : Nat) :
    Except UnmarshalError Instruction :=
  if inst.jmpOp = instCall then makeCallOp platform inst insts pc
  else if inst.jmpOp = instExit then makeExit platform pc inst
  else if inst.jmpOp = instJa then do
    checkJa platform pc inst
    makeJump platform inst insts pc
  else makeJump platform inst insts pc

/-- An instruction of one of the two arithmetic classes. -/
def isAlu (inst : EbpfInst) : Bool := inst.cls == instClsAlu || inst.cls == instClsAlu64

/-- The instruction at a program counter by itself, and the number of slots
that it takes. -/
def decodeAt (insts : List EbpfInst) (pc : Nat) (inst : EbpfInst) :
    Except UnmarshalError (Instruction × Nat) := do
  if inst.opcode = instOpLddwImm then
    let ins <- makeLddw platform inst insts pc
    return (ins, 2)
  else if isAlu inst then
    let ins <- makeAluOp platform pc inst
    return (ins, 1)
  else if inst.cls = instClsJmp32 || inst.cls = instClsJmp then
    let ins <- makeJmp platform inst insts pc
    return (ins, 1)
  else
    let ins <- makeMemOp platform pc inst
    return (ins, 1)

/-- What two shifts of a register by 32, first to the left, amount to. -/
def mergedShifts (dst : Reg) (second : Instruction) : Option Instruction :=
  if second = shift32 dst .rsh then some (.bin ⟨.mov, dst, .reg dst, false, false⟩)
  else if second = shift32 dst .arsh then some (.bin ⟨.movsx32, dst, .reg dst, true, false⟩)
  else none

/-- The merge of an arithmetic instruction with the next one. -/
def mergeNext (insts : List EbpfInst) (pc : Nat) (inst : EbpfInst) (ins : Instruction) :
    Except UnmarshalError (Instruction × Nat) :=
  match insts[pc + 1]? with
  | none => .ok (ins, 1)
  | some next =>
      if ins ≠ shift32 (regOf inst.dst) .lsh then .ok (ins, 1)
      else if next.cls ≠ instClsAlu64 then .ok (ins, 1)
      else do
        let second <- makeAluOp platform (pc + 1) next
        match mergedShifts (regOf inst.dst) second with
        | some merged => return (merged, 2)
        | none => return (ins, 1)

/-- One round of the loop: an instruction of the result, and the number of
slots that it takes. -/
def unmarshalAt (insts : List EbpfInst) (pc : Nat) (inst : EbpfInst) :
    Except UnmarshalError (Instruction × Nat) := do
  let (ins, slots) <- decodeAt platform insts pc inst
  if isAlu inst then mergeNext platform insts pc inst ins else return (ins, slots)

/-- The loop of `unmarshal` from a program counter on, where `rest` is the
program from there. -/
def unmarshalFrom (insts : List EbpfInst) :
    List EbpfInst -> Nat -> Except UnmarshalError InstructionSeq
  | [], _ => .ok []
  | inst :: rest, pc => do
      let (ins, slots) <- unmarshalAt platform insts pc inst
      let label <- labelOf pc
      let prog <- if slots = 1 then unmarshalFrom insts rest (pc + 1) else
        match rest with
        | [] => .ok []
        | _ :: rest => unmarshalFrom insts rest (pc + 2)
      return (label, ins) :: prog

def unmarshal (insts : List EbpfInst) : Except UnmarshalError InstructionSeq :=
  if insts = [] then throw (.invalidArgument "Zero length programs are not allowed")
  else unmarshalFrom platform insts insts 0

end Unmarshaller
end Prevail
