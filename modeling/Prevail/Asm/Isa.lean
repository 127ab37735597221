import Prevail.Asm.Syntax

namespace Prevail

/-!
# Raw instructions

`ebpf_inst` of `ebpf_vm_isa.hpp`, the parts of an opcode, and the platform on
which a program is to run.
-/

@[ext]
structure EbpfInst where
  opcode : BitVec 8
  dst : BitVec 4 := 0
  src : BitVec 4 := 0
  offset : BitVec 16 := 0
  imm : BitVec 32 := 0
  deriving DecidableEq

/-- The opcodes of `ebpf_vm_isa.hpp`. -/
abbrev Opcode := BitVec 8

def instClsMask : Opcode := 0x07

def instClsLd : Opcode := 0x00

def instClsLdx : Opcode := 0x01

def instClsSt : Opcode := 0x02

def instClsStx : Opcode := 0x03

def instClsAlu : Opcode := 0x04

def instClsJmp : Opcode := 0x05

def instClsJmp32 : Opcode := 0x06

def instClsAlu64 : Opcode := 0x07

def instSrcReg : Opcode := 0x08

def instEndBe : Opcode := 0x08

def instSizeMask : Opcode := 0x18

def instSizeW : Opcode := 0x00

def instSizeH : Opcode := 0x08

def instSizeB : Opcode := 0x10

def instSizeDw : Opcode := 0x18

def instModeMask : Opcode := 0xe0

def instModeAbs : Opcode := 0x20

def instModeInd : Opcode := 0x40

def instModeMem : Opcode := 0x60

def instModeAtomic : Opcode := 0xc0

def instOpLddwImm : Opcode := instClsLd ||| instSizeDw

def instFetch : BitVec 32 := 0x1

def instJa : Opcode := 0x0

def instCall : Opcode := 0x8

def instExit : Opcode := 0x9

def instOpJa32 : Opcode := (instJa <<< 4) ||| instClsJmp32

def instOpJa16 : Opcode := (instJa <<< 4) ||| instClsJmp

def instOpCall : Opcode := (instCall <<< 4) ||| instClsJmp

def instOpCallx : Opcode := (instCall <<< 4) ||| instSrcReg ||| instClsJmp

def instOpExit : Opcode := (instExit <<< 4) ||| instClsJmp

def instCallStaticHelper : BitVec 4 := 0x0

def instCallLocal : BitVec 4 := 0x1

def instCallBtfHelper : BitVec 4 := 0x2

def instAluOpMask : Opcode := 0xf0

namespace EbpfInst

/-- The class of an instruction. -/
def cls (inst : EbpfInst) : Opcode := inst.opcode &&& instClsMask

/-- The size bits of a memory instruction. -/
def size (inst : EbpfInst) : Opcode := inst.opcode &&& instSizeMask

/-- The mode bits of a memory instruction. -/
def mode (inst : EbpfInst) : Opcode := inst.opcode &&& instModeMask

/-- The operation of an instruction of an arithmetic class, in place. -/
def aluOp (inst : EbpfInst) : Opcode := inst.opcode &&& instAluOpMask

/-- The operation of an instruction of a jump class. -/
def jmpOp (inst : EbpfInst) : Opcode := (inst.opcode >>> 4) &&& 0xf

/-- The operand is a register. -/
def hasSrcReg (inst : EbpfInst) : Bool := inst.opcode &&& instSrcReg != 0

end EbpfInst

def opcodeToWidth (size : Opcode) : Int :=
  if size = instSizeB then 1
  else if size = instSizeH then 2
  else if size = instSizeW then 4
  else 8

/-- `width_to_opcode`, for the widths that there are. -/
def widthToOpcode (width : Int) : Opcode :=
  if width = 1 then instSizeB
  else if width = 2 then instSizeH
  else if width = 4 then instSizeW
  else instSizeDw

/-- `merge`. -/
def mergeImm (imm nextImm : BitVec 32) : BitVec 64 := nextImm ++ imm

/-- `split`. -/
def splitImm (v : BitVec 64) : BitVec 32 × BitVec 32 := (v.setWidth 32, (v >>> 32).setWidth 32)

theorem splitImm_mergeImm (imm nextImm : BitVec 32) :
    splitImm (mergeImm imm nextImm) = (imm, nextImm) := by
  rw [splitImm, mergeImm, Prod.mk.injEq]
  constructor
  · rw [BitVec.setWidth_append]
    simp
  · apply BitVec.eq_of_getLsbD_eq
    intro index inHalf
    rw [BitVec.getLsbD_setWidth, BitVec.getLsbD_ushiftRight, BitVec.getLsbD_append]
    simp [inHalf]

theorem widthToOpcode_opcodeToWidth (inst : EbpfInst) :
    widthToOpcode (opcodeToWidth inst.size) = inst.size := by
  have cases_ : forall opcode : BitVec 8, widthToOpcode (opcodeToWidth (opcode &&& instSizeMask)) =
      opcode &&& instSizeMask := by
    decide
  exact cases_ inst.opcode

/-! ## The platform -/

/-- `bpf_conformance_groups_t`. -/
inductive ConformanceGroup where
  | base32 | base64 | atomic32 | atomic64 | divmul32 | divmul64 | packet | callx
  deriving DecidableEq

inductive EbpfReturnType where
  | integer | ptrToMapValueOrNull | integerOrNoReturnIfSucceed | unsupported
  deriving DecidableEq

inductive EbpfArgumentType where
  | dontcare | anything | constSize | constSizeOrZero | ptrToCtx | ptrToMap |
    ptrToMapOfPrograms | ptrToMapKey
  | ptrToMapValue | ptrToReadableMem | ptrToReadableMemOrNull | ptrToWritableMem | unsupported
  deriving DecidableEq

/-- `EbpfHelperPrototype`: what a call reads of it. -/
structure EbpfHelperPrototype where
  name : List Char
  returnType : EbpfReturnType
  argumentType : Fin 5 -> EbpfArgumentType
  reallocatePacket : Bool

/-- `ebpf_platform_t`: what the decoder reads of it. -/
structure EbpfPlatform where
  supportsGroup : ConformanceGroup -> Bool
  getHelperPrototype : Int -> EbpfHelperPrototype
  isHelperUsable : Int -> Bool

end Prevail
