import Prevail.Asm.Label

namespace Prevail

/-!
# Instructions and assertions

The syntax of `asm_syntax.hpp`.  Registers and immediates keep their widths;
the fields of type `int32_t` are integers.  The only member left out is the
line information of a labelled instruction, which nothing here reads.
-/

/-- A constant number that the machine keeps in 64 bits. -/
structure Imm where
  v : BitVec 64
  deriving DecidableEq, Repr

/-- A register number. -/
structure Reg where
  v : UInt8
  deriving DecidableEq

/-- `Value`: an immediate or a register. -/
inductive Value where
  | imm (value : Imm)
  | reg (value : Reg)
  deriving DecidableEq

/-- `Bin::Op`. -/
inductive BinOp where
  | mov | add | sub | mul | udiv | umod | or | and | lsh | rsh | arsh | xor | sdiv | smod
  | movsx8 | movsx16 | movsx32
  deriving DecidableEq

/-- A binary operation. -/
structure Bin where
  op : BinOp
  dst : Reg
  v : Value
  is64 : Bool
  lddw : Bool
  deriving DecidableEq

/-- `Un::Op`. -/
inductive UnOp where
  | be16 | be32 | be64 | le16 | le32 | le64 | swap16 | swap32 | swap64 | neg
  deriving DecidableEq

/-- A unary operation. -/
structure Un where
  op : UnOp
  dst : Reg
  is64 : Bool
  deriving DecidableEq

structure LoadMapFd where
  dst : Reg
  mapfd : Int
  deriving DecidableEq

/-- `Condition::Op`. -/
inductive ConditionOp where
  | eq | ne | set | nset | lt | le | gt | ge | slt | sle | sgt | sge
  deriving DecidableEq

/-- A comparison of a register with a value. -/
structure Condition where
  op : ConditionOp
  left : Reg
  right : Value
  is64 : Bool
  deriving DecidableEq

/-- A jump, conditional or not. -/
structure Jmp where
  cond : Option Condition
  target : Label
  deriving DecidableEq

/-- `ArgSingle::Kind`. -/
inductive ArgSingleKind where
  | mapFd | mapFdPrograms | ptrToMapKey | ptrToMapValue | ptrToCtx | anything
  deriving DecidableEq

/-- An argument of a helper function. -/
structure ArgSingle where
  kind : ArgSingleKind
  reg : Reg
  deriving DecidableEq

/-- `ArgPair::Kind`. -/
inductive ArgPairKind where
  | ptrToReadableMem | ptrToReadableMemOrNull | ptrToWritableMem
  deriving DecidableEq

/-- A pointer argument together with the size of the space it points to. -/
structure ArgPair where
  kind : ArgPairKind
  mem : Reg
  size : Reg
  canBeZero : Bool
  deriving DecidableEq

/-- A call of a helper function. -/
structure Call where
  func : Int
  name : List Char
  isMapLookup : Bool
  reallocatePacket : Bool
  singles : List ArgSingle
  pairs : List ArgPair
  stackFramePrefix : List Char
  deriving DecidableEq

/-- A call of a function within the same program. -/
structure CallLocal where
  target : Label
  stackFramePrefix : List Char
  deriving DecidableEq

/-- A return. -/
structure Exit where
  stackFramePrefix : List Char
  deriving DecidableEq

/-- A call through a register. -/
structure Callx where
  func : Reg
  deriving DecidableEq

/-- The memory operand of an instruction. -/
structure Deref where
  width : Int
  basereg : Reg
  offset : Int
  deriving DecidableEq

/-- A load or a store. -/
structure Mem where
  access : Deref
  value : Value
  isLoad : Bool
  deriving DecidableEq

/-- A checked access to the packet. -/
structure Packet where
  width : Int
  offset : Int
  regoffset : Option Reg
  deriving DecidableEq

/-- `Atomic::Op`. -/
inductive AtomicOp where
  | add | or | and | xor | xchg | cmpxchg
  deriving DecidableEq

/-- An atomic update of memory. -/
structure Atomic where
  op : AtomicOp
  fetch : Bool
  access : Deref
  valreg : Reg
  deriving DecidableEq

/-- A condition known to hold on an edge. -/
structure Assume where
  cond : Condition
  isImplicit : Bool
  deriving DecidableEq

inductive Instruction where
  | undefined (opcode : Int)
  | bin (ins : Bin)
  | un (ins : Un)
  | loadMapFd (ins : LoadMapFd)
  | call (ins : Call)
  | callLocal (ins : CallLocal)
  | callx (ins : Callx)
  | exit (ins : Exit)
  | jmp (ins : Jmp)
  | mem (ins : Mem)
  | packet (ins : Packet)
  | atomic (ins : Atomic)
  | assume (ins : Assume)
  | incrementLoopCounter (name : Label)
  deriving DecidableEq

/-- `InstructionSeq`, without the line information. -/
abbrev InstructionSeq := List (Label × Instruction)

inductive TypeGroup where
  | number | mapFd | ctx | packet | stack | shared | mapFdPrograms | mem | memOrNum |
    pointer | ptrOrNum
  | stackOrPacket | singletonPtr
  deriving DecidableEq

inductive AccessType where
  | compare | read | write
  deriving DecidableEq

structure ValidAccess where
  callStackDepth : Int
  reg : Reg
  offset : Int
  width : Value
  orNull : Bool
  accessType : AccessType
  deriving DecidableEq

structure ValidMapKeyValue where
  accessReg : Reg
  mapFdReg : Reg
  key : Bool
  deriving DecidableEq

inductive Assertion where
  | comparable (r1 r2 : Reg) (orR2IsNumber : Bool)
  | addable (ptr num : Reg)
  | validDivisor (reg : Reg) (isSigned : Bool)
  | validAccess (access : ValidAccess)
  | validStore (mem val : Reg)
  | validSize (reg : Reg) (canBeZero : Bool)
  | validMapKeyValue (assertion : ValidMapKeyValue)
  | validCall (func : Int) (stackFramePrefix : List Char)
  | typeConstraint (reg : Reg) (types : TypeGroup)
  | funcConstraint (reg : Reg)
  | zeroCtxOffset (reg : Reg)
  | boundedLoopCount (name : Label)
  deriving DecidableEq

structure GuardedInstruction where
  cmd : Instruction
  preconditions : List Assertion := []
  deriving DecidableEq

def maxCallStackFrames : Nat := 8

def ebpfSubprogramStackSize : Nat := 512

def ebpfTotalStackSize : Nat := maxCallStackFrames * ebpfSubprogramStackSize

def r0ReturnValue : Reg := ⟨0⟩

def r10StackPointer : Reg := ⟨10⟩

end Prevail
