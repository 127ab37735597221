import Prevail.Asm.Unmarshal

namespace Prevail

/-!
# The encoder

`MarshalVisitor` of `asm_marshal.cpp` for a single instruction.  Assertions are
left out, as in a release build; a conversion that `gsl::narrow` refuses is an
error.
-/

/-- What the encoder throws.  `ldImm` is the text "LD IMM: " with the text of the
instruction. -/
inductive MarshalError where
  | narrowingError
  | invalidArgument (what : String)
  | ldImm (ins : Mem)
  | badVariantAccess
  deriving DecidableEq

namespace Marshaller

/-- `gsl::narrow` to a signed type: it throws when the value or its sign would
change. -/
def narrow (bits : Nat) (value : Int) : Except MarshalError (BitVec bits) :=
  if (BitVec.ofInt bits value).toInt = value then .ok (BitVec.ofInt bits value)
    else .error .narrowingError

/-- `op` of a condition.  `NSET` does not exist in the machine. -/
def opOfCondition : ConditionOp -> Opcode
  | .eq => 0x1
  | .gt => 0x2
  | .ge => 0x3
  | .set => 0x4
  | .nset => 0x5
  | .ne => 0x5
  | .sgt => 0x6
  | .sge => 0x7
  | .lt => 0xa
  | .le => 0xb
  | .slt => 0xc
  | .sle => 0xd

/-- `op` of a binary operation. -/
def opOfBin : BinOp -> Opcode
  | .add => 0x0
  | .sub => 0x1
  | .mul => 0x2
  | .sdiv | .udiv => 0x3
  | .or => 0x4
  | .and => 0x5
  | .lsh => 0x6
  | .rsh => 0x7
  | .smod | .umod => 0x9
  | .xor => 0xa
  | .mov | .movsx8 | .movsx16 | .movsx32 => 0xb
  | .arsh => 0xc

/-- `offset` of a binary operation. -/
def offsetOfBin : BinOp -> BitVec 16
  | .sdiv | .smod => 1
  | .movsx8 => 8
  | .movsx16 => 16
  | .movsx32 => 32
  | _ => 0

def immEndian : UnOp -> BitVec 32
  | .neg => 0
  | .be16 | .le16 | .swap16 => 16
  | .be32 | .le32 | .swap32 => 32
  | .be64 | .le64 | .swap64 => 64

/-- The value of an atomic operation. -/
def codeOfAtomic : AtomicOp -> BitVec 32
  | .add => 0x00
  | .or => 0x40
  | .and => 0x50
  | .xor => 0xa0
  | .xchg => 0xe0
  | .cmpxchg => 0xf0

/-- A register in a field of four bits. -/
def fieldOf (reg : Reg) : BitVec 4 := reg.v.toBitVec.setWidth 4

def makeLddw (dst : Reg) (isFd : Bool) (imm nextImm : BitVec 32) : List EbpfInst :=
  [{ opcode := instClsLd ||| widthToOpcode 8, dst := fieldOf dst, src := if isFd then 1
    else 0, imm := imm }, { opcode := 0, imm := nextImm }]

/-- The operand of an instruction that has a register or an immediate. -/
def withOperand (inst : EbpfInst) : Value -> Except MarshalError EbpfInst
  | .reg right => .ok { inst with opcode := inst.opcode ||| instSrcReg, src := fieldOf right }
  | .imm right => do
      let imm <- narrow 32 right.v.toNat
      return { inst with imm := imm }

/-- The class of an arithmetic instruction. -/
def aluClass (is64 : Bool) : Opcode := if is64 then instClsAlu64 else instClsAlu

/-- The encoding of `Bin`. -/
def marshalBin (b : Bin) : Except MarshalError (List EbpfInst) :=
  if b.lddw then
    match b.v with
    | .imm imm => .ok (makeLddw b.dst false (splitImm imm.v).1 (splitImm imm.v).2)
    | .reg _ => .error .badVariantAccess
  else do
    let res <- withOperand
      { opcode := aluClass b.is64 ||| (opOfBin b.op <<< 4), dst := fieldOf b.dst,
        offset := offsetOfBin b.op } b.v
    return [res]

/-- The encoding of `Un`. -/
def marshalUn (b : Un) : EbpfInst :=
  match b.op with
  | .neg => { opcode := aluClass b.is64 ||| 0x80, dst := fieldOf b.dst }
  | .le16 | .le32 | .le64 =>
    { opcode := instClsAlu ||| 0xd0, dst := fieldOf b.dst, imm := immEndian b.op }
  | .be16 | .be32 | .be64 =>
      { opcode := instClsAlu ||| instEndBe ||| 0xd0, dst := fieldOf b.dst, imm := immEndian b.op }
  | .swap16 | .swap32 | .swap64 =>
    { opcode := instClsAlu64 ||| 0xd0, dst := fieldOf b.dst, imm := immEndian b.op }

/-- The offset of a label from the instruction behind `pc`. -/
def labelOffset (pc : Nat) (label : Label) : Int := label.fromIndex - pc - 1

/-- The offset fits in 16 bits. -/
def is16 (offset : Int) : Bool := -2 ^ 15 ≤ offset && offset ≤ 2 ^ 15 - 1

def labelToOffset16 (pc : Nat) (label : Label) : Except MarshalError (BitVec 16) :=
  narrow 16 (if is16 (labelOffset pc label) then labelOffset pc label else 0)

def labelToOffset32 (pc : Nat) (label : Label) : Except MarshalError (BitVec 32) :=
  if is16 (labelOffset pc label) then .ok 0 else narrow 32 (labelOffset pc label)

/-- The encoding of `Jmp`. -/
def marshalJmp (pc : Nat) (b : Jmp) : Except MarshalError (List EbpfInst) :=
  match b.cond with
  | some cond => do
      let offset <- labelToOffset16 pc b.target
      let res <- withOperand
        { opcode := instClsJmp ||| (opOfCondition cond.op <<< 4), dst := fieldOf cond.left,
          offset := offset }
        cond.right
      return [res]
  | none => do
      let imm <- labelToOffset32 pc b.target
      if imm ≠ 0 then return [{ opcode := instOpJa32, imm := imm }]
      else
        let offset <- labelToOffset16 pc b.target
        return [{ opcode := instOpJa16, offset := offset }]

/-- The encoding of `Mem`. -/
def marshalMem (b : Mem) : Except MarshalError (List EbpfInst) := do
  let offset <- narrow 16 b.access.offset
  let opcode := instModeMem ||| widthToOpcode b.access.width
  if b.isLoad then
    match b.value with
    | .reg reg =>
        return [{ opcode := opcode ||| (instClsLd ||| 0x1), dst := fieldOf reg
                  src := fieldOf b.access.basereg, offset := offset }]
    | .imm _ => throw (.ldImm b)
  else
    match b.value with
    | .reg reg =>
        return [{ opcode := opcode ||| instClsSt ||| 0x1, dst := fieldOf b.access.basereg
                  src := fieldOf reg, offset := offset }]
    | .imm value => do
        let imm <- narrow 32 value.v.toNat
        return [{ opcode := opcode ||| instClsSt, dst := fieldOf b.access.basereg
                  offset := offset, imm := imm }]

/-- The encoding of `Packet`. -/
def marshalPacket (b : Packet) : Except MarshalError (List EbpfInst) := do
  let imm <- narrow 32 b.offset
  let opcode := instClsLd ||| widthToOpcode b.width
  match b.regoffset with
  | some reg => return [{ opcode := opcode ||| instModeInd, src := fieldOf reg, imm := imm }]
  | none => return [{ opcode := opcode ||| instModeAbs, imm := imm }]

/-- The encoding of `Atomic`. -/
def marshalAtomic (b : Atomic) : Except MarshalError (List EbpfInst) := do
  let imm := if b.fetch then codeOfAtomic b.op ||| instFetch else codeOfAtomic b.op
  let offset <- narrow 16 b.access.offset
  return [{ opcode := instClsStx ||| instModeAtomic ||| widthToOpcode b.access.width
            dst := fieldOf b.access.basereg, src := fieldOf b.valreg, offset := offset,
            imm := imm }]

/-- `marshal` of one instruction at a program counter. -/
def marshal (pc : Nat) : Instruction -> Except MarshalError (List EbpfInst)
  | .undefined _ => .ok []
  | .bin b => marshalBin b
  | .un b => .ok [marshalUn b]
  | .loadMapFd b => do return makeLddw b.dst true (BitVec.ofInt 32 b.mapfd) 0
  | .call b =>
      .ok [{ opcode := instOpCall, src := instCallStaticHelper, imm := BitVec.ofInt 32 b.func }]
  | .callLocal b => do
      let imm <- labelToOffset32 pc b.target
      return [{ opcode := instOpCall, src := instCallLocal, imm := imm }]
  | .callx b => .ok [{ opcode := instOpCallx, dst := fieldOf b.func, src := instCallStaticHelper }]
  | .exit _ => .ok [{ opcode := instOpExit }]
  | .jmp b => marshalJmp pc b
  | .mem b => marshalMem b
  | .packet b => marshalPacket b
  | .atomic b => marshalAtomic b
  | .assume _ => .error (.invalidArgument "Cannot marshal assumptions")
  | .incrementLoopCounter _ => .ok []

end Marshaller
end Prevail
