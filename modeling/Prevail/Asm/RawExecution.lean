import Prevail.Asm.Alu
import Prevail.Asm.Isa

namespace Prevail

/-!
# Raw programs and their executions

What the slots of a raw program mean, by the fields of the instruction set: the
class, the operation and the source bit of an opcode, the registers, the offset
and the immediate.  Nothing here is decoded.

A machine performs the arithmetic and the jumps itself.  Memory, packets, maps,
helper functions and the frames of local functions belong to its environment,
which is left open.  The same environment gives a meaning to the instructions
of a sequence, by their own members.
-/

/-- What a machine offers besides its registers.  A load or a store of some bytes
uses the low ones of a word. -/
structure Environment (Rest : Type) where
  bigEndian : Bool
  load : Nat -> BitVec 64 -> Rest -> BitVec 64 -> Prop
  store : Nat -> BitVec 64 -> BitVec 64 -> Rest -> Rest -> Prop
  packet : Nat -> BitVec 64 -> RegisterState Rest -> RegisterState Rest -> Prop
  helper : Int -> RegisterState Rest -> RegisterState Rest -> Prop
  helperAt : BitVec 64 -> RegisterState Rest -> RegisterState Rest -> Prop
  mapAddress : Int -> BitVec 64
  enter : RegisterState Rest -> RegisterState Rest -> Prop
  leave : RegisterState Rest -> RegisterState Rest -> Prop

/-! ## Bytes of a word -/

def lowBytes (count : Nat) (word : BitVec 64) : BitVec 64 := (word.setWidth (8 * count)).setWidth 64

/-- The low bytes of a word in the opposite order. -/
def swapBytes : Nat -> BitVec 64 -> BitVec 64
  | 0, _ => 0
  | count + 1, word => (lowBytes 1 word <<< (8 * count)) ||| swapBytes count (word >>> 8)

/-! ## Instructions of a sequence -/

def Deref.address (access : Deref) (registers : Reg -> BitVec 64) : BitVec 64 :=
  registers access.basereg + BitVec.ofInt 64 access.offset

/-- The place of a packet access, relative to the packet. -/
def Packet.address (ins : Packet) (registers : Reg -> BitVec 64) : BitVec 64 :=
  BitVec.ofInt 64 ins.offset + ins.regoffset.elim 0 registers

/-- What an atomic operation leaves in memory, where `expected` is the word that a
`cmpxchg` compares with. -/
def AtomicOp.update (op : AtomicOp) (v expected old : BitVec 64) : BitVec 64 :=
  match op with
  | .add => old + v
  | .or => old ||| v
  | .and => old &&& v
  | .xor => old ^^^ v
  | .xchg => v
  | .cmpxchg => if old = expected then v else old

/-- The register that receives the old word. -/
def Atomic.result? (ins : Atomic) : Option Reg :=
  if ins.op = .cmpxchg then some r0ReturnValue else if ins.fetch then some ins.valreg else none

/-- The registers after a word is written to one of them, if there is one. -/
def writeBack (registers : Reg -> BitVec 64) (result : Option Reg) (word : BitVec 64) :
    Reg -> BitVec 64 :=
  match result with
  | some reg => Function.update registers reg word
  | none => registers

namespace Environment

variable {Rest : Type} (env : Environment Rest)

/-- The low bytes of a word in big-endian or little-endian order. -/
def inOrder (toBig : Bool) (count : Nat) (word : BitVec 64) : BitVec 64 :=
  if toBig = env.bigEndian then lowBytes count word else swapBytes count word

/-- The word that a unary operation leaves in its register. -/
def unWord (ins : Un) (word : BitVec 64) : BitVec 64 :=
  match ins.op with
  | .neg => if ins.is64 then -word else (-(word.setWidth 32)).setWidth 64
  | .be16 => env.inOrder true 2 word
  | .be32 => env.inOrder true 4 word
  | .be64 => env.inOrder true 8 word
  | .le16 => env.inOrder false 2 word
  | .le32 => env.inOrder false 4 word
  | .le64 => env.inOrder false 8 word
  | .swap16 => swapBytes 2 word
  | .swap32 => swapBytes 4 word
  | .swap64 => swapBytes 8 word

/-- A load of some bytes into a register. -/
def Loads (count : Nat) (address : BitVec 64) (dst : Reg) (state after : RegisterState Rest) :
    Prop :=
  exists word, env.load count address state.2 word ∧
    after = (Function.update state.1 dst word, state.2)

/-- A store of the low bytes of a word. -/
def Stores (count : Nat) (address word : BitVec 64) (state after : RegisterState Rest) : Prop :=
  exists rest, env.store count address (lowBytes count word) state.2 rest ∧ after = (state.1, rest)

/-- An update of memory in one step.  A register may learn what was there. -/
def Updates (count : Nat) (address : BitVec 64) (update : BitVec 64 -> Option (BitVec 64))
    (result : Option Reg) (state after : RegisterState Rest) : Prop :=
  exists old new rest, env.load count address state.2 old ∧ update old = some new ∧
    env.store count address (lowBytes count new) state.2 rest ∧
      after = (writeBack state.1 result old, rest)

/-- What an instruction of a sequence does that is no binary operation. -/
def effect (ins : Instruction) (state after : RegisterState Rest) : Prop :=
  match ins with
  | .un ins => after = (Function.update state.1 ins.dst (env.unWord ins (state.1 ins.dst)), state.2)
  | .loadMapFd ins => after = (Function.update state.1 ins.dst (env.mapAddress ins.mapfd), state.2)
  | .call ins => env.helper ins.func state after
  | .callx ins => env.helperAt (state.1 ins.func) state after
  | .callLocal _ => env.enter state after
  | .exit _ => env.leave state after
  | .packet ins => env.packet ins.width.toNat (ins.address state.1) state after
  | .mem ins =>
      let count := ins.access.width.toNat
      let address := ins.access.address state.1
      match ins.isLoad, ins.value with
      | true, .reg dst => env.Loads count address dst state after
      | true, .imm _ => False
      | false, value => env.Stores count address (value.word state.1) state after
  | .atomic ins =>
      let count := ins.access.width.toNat
      let expected := lowBytes count (state.1 r0ReturnValue)
      env.Updates count (ins.access.address state.1)
        (fun old => some (ins.op.update (state.1 ins.valreg) expected old)) ins.result? state after
  | _ => after = state

/-- The machine that executes a sequence in an environment. -/
def machine : Machine (RegisterState Rest) := arithmeticMachine env.effect

end Environment

/-! ## Fields of a raw instruction -/

namespace EbpfInst

variable (inst : EbpfInst)

/-- The class: the three low bits of the opcode. -/
def classBits : Nat := (inst.opcode.extractLsb' 0 3).toNat

/-- The source bit: the operand is a register. -/
def sourceBit : Bool := inst.opcode.getLsbD 3

/-- The operation: the four high bits of the opcode. -/
def operation : Nat := (inst.opcode.extractLsb' 4 4).toNat

/-- The mode of a memory instruction: the three high bits of the opcode. -/
def modeBits : Nat := (inst.opcode.extractLsb' 5 3).toNat

/-- The number of bytes that a memory instruction accesses. -/
def bytes : Nat :=
  match (inst.opcode.extractLsb' 3 2).toNat with
  | 0 => 4
  | 1 => 2
  | 2 => 1
  | _ => 8

/-- The register of a field. -/
def register (field : BitVec 4) : Reg := ⟨UInt8.ofBitVec (field.setWidth 8)⟩

/-- The operand of an operation or of a comparison: a register, or the immediate
with its sign extended. -/
def operand (registers : Reg -> BitVec 64) : BitVec 64 :=
  if inst.sourceBit then registers (register inst.src) else inst.imm.signExtend 64

/-! ## Arithmetic -/

/-- The result of an operation on words of one width.  The offset selects the
signed form of a division or a remainder, and the moves that extend a sign. -/
def arithmetic {width : Nat} (dst v : BitVec width) : Option (BitVec width) :=
  match inst.operation, inst.offset.toNat with
  | 0x0, 0 => some (dst + v)
  | 0x1, 0 => some (dst - v)
  | 0x2, 0 => some (dst * v)
  | 0x3, 0 => some (if v = 0 then 0 else dst / v)
  | 0x3, 1 => some (if v = 0 then 0 else dst.sdiv v)
  | 0x4, 0 => some (dst ||| v)
  | 0x5, 0 => some (dst &&& v)
  | 0x6, 0 => some (dst <<< (v.toNat % width))
  | 0x7, 0 => some (dst >>> (v.toNat % width))
  | 0x9, 0 => some (if v = 0 then dst else dst % v)
  | 0x9, 1 => some (if v = 0 then dst else dst.srem v)
  | 0xa, 0 => some (dst ^^^ v)
  | 0xb, 0 => some v
  | 0xb, 8 => some ((v.setWidth 8).signExtend width)
  | 0xb, 16 => some ((v.setWidth 16).signExtend width)
  | 0xb, 32 => some ((v.setWidth 32).signExtend width)
  | 0xc, 0 => some (dst.sshiftRight (v.toNat % width))
  | _, _ => none

/-- The word that an arithmetic instruction leaves in its register.  The class 7
works on 64 bits, the class 4 on the low 32 bits and clears the others.  The
operation 8 is the negation.  The operation 13 swaps bytes: of the class 7 in any
case, of the class 4 for the order that the source bit selects. -/
def aluWord {Rest : Type} (env : Environment Rest) (registers : Reg -> BitVec 64) :
    Option (BitVec 64) :=
  let dst := registers (register inst.dst)
  let v := inst.operand registers
  let count := inst.imm.toNat / 8
  match inst.operation, inst.classBits with
  | 0x8, 7 => some (-dst)
  | 0x8, _ => some ((-(dst.setWidth 32)).setWidth 64)
  | 0xd, 7 => some (swapBytes count dst)
  | 0xd, _ => some (env.inOrder inst.sourceBit count dst)
  | _, 7 => inst.arithmetic dst v
  | _, _ => (inst.arithmetic (dst.setWidth 32) (v.setWidth 32)).map (BitVec.setWidth 64)

/-! ## Comparisons and jumps -/

/-- The comparison of a conditional jump. -/
def Compares {width : Nat} (dst v : BitVec width) : Prop :=
  match inst.operation with
  | 0x1 => dst = v
  | 0x2 => v.toNat < dst.toNat
  | 0x3 => v.toNat ≤ dst.toNat
  | 0x4 => dst &&& v ≠ 0
  | 0x5 => dst ≠ v
  | 0x6 => v.toInt < dst.toInt
  | 0x7 => v.toInt ≤ dst.toInt
  | 0xa => dst.toNat < v.toNat
  | 0xb => dst.toNat ≤ v.toNat
  | 0xc => dst.toInt < v.toInt
  | 0xd => dst.toInt ≤ v.toInt
  | _ => False

/-- The condition of a jump: the class 5 compares 64 bits, the class 6 the low 32. -/
def Jumps (registers : Reg -> BitVec 64) : Prop :=
  let dst := registers (register inst.dst)
  let v := inst.operand registers
  if inst.classBits = 5 then inst.Compares dst v
  else inst.Compares (dst.setWidth 32) (v.setWidth 32)

/-- The label that lies some slots behind the next one. -/
def target (pc : Nat) (distance : Int) : Label := { fromIndex := pc + 1 + distance }

/-! ## Memory -/

/-- The address of a memory operand. -/
def address (base : BitVec 4) (registers : Reg -> BitVec 64) : BitVec 64 :=
  registers (register base) + inst.offset.signExtend 64

/-- What an atomic operation leaves in memory, by the immediate. -/
def atomicUpdate (v expected old : BitVec 64) : Option (BitVec 64) :=
  match inst.imm.toNat with
  | 0x00 | 0x01 => some (old + v)
  | 0x40 | 0x41 => some (old ||| v)
  | 0x50 | 0x51 => some (old &&& v)
  | 0xa0 | 0xa1 => some (old ^^^ v)
  | 0xe1 => some v
  | 0xf1 => some (if old = expected then v else old)
  | _ => none

/-- The register that an atomic operation writes: `r0` for a `cmpxchg`, otherwise
the source register if the fetch bit is set. -/
def atomicResult : Option Reg :=
  if inst.imm = 0xf1 then some r0ReturnValue
  else if inst.imm.getLsbD 0 then some (register inst.src)
  else none

end EbpfInst

/-! ## Steps -/

namespace Unmarshaller

/-- The label of a program counter. -/
def indexLabel (pc : Nat) : Label := { fromIndex := pc }

theorem indexLabel_injective : Function.Injective indexLabel := by
  intro first second same
  simpa [indexLabel] using same

/-- The label of a program counter, unless it is past the end. -/
def placeAt (insts : List EbpfInst) (pc : Nat) : Option Label :=
  if pc < insts.length then some (indexLabel pc) else none

end Unmarshaller

/-- Control goes to the label behind, and the rest of the machine changes. -/
def FallsTo {State : Type} (behind : Option Label) (effect : State -> State -> Prop)
    (current after : Configuration State) : Prop :=
  effect current.state after.state ∧ after.place = behind ∧ after.returns = current.returns

/-- A word is written to a register, if there is one to write. -/
def Writes {Rest : Type} (dst : Reg) (word : (Reg -> BitVec 64) -> Option (BitVec 64))
    (state after : RegisterState Rest) : Prop :=
  exists result, word state.1 = some result ∧
    after = (Function.update state.1 dst result, state.2)

namespace Environment

open EbpfInst (register target)
open Unmarshaller (indexLabel placeAt)

variable {Rest : Type} (env : Environment Rest) (insts : List EbpfInst) (pc : Nat)
  (inst : EbpfInst)

/-- A memory instruction.  The classes 0 to 3 are packet accesses, loads, stores of
an immediate and stores of a register; the mode 6 of the last one is atomic. -/
def MemoryEffect (state after : RegisterState Rest) : Prop :=
  let offset := inst.imm.signExtend 64
  let v := state.1 (register inst.src)
  match inst.classBits, inst.modeBits with
  | 0, 1 => env.packet inst.bytes offset state after
  | 0, 2 => env.packet inst.bytes (offset + v) state after
  | 1, 3 => env.Loads inst.bytes (inst.address inst.src state.1) (register inst.dst) state after
  | 2, 3 =>
      env.Stores inst.bytes (inst.address inst.dst state.1) (inst.imm.signExtend 64) state after
  | 3, 3 => env.Stores inst.bytes (inst.address inst.dst state.1) v state after
  | 3, 6 =>
      let expected := lowBytes inst.bytes (state.1 r0ReturnValue)
      env.Updates inst.bytes (inst.address inst.dst state.1) (inst.atomicUpdate v expected)
        inst.atomicResult state after
  | _, _ => False

/-- The word of an instruction of two slots: its constant, or the address of the map
that its descriptor stands for. -/
def wideWord (next : EbpfInst) : Option (BitVec 64) :=
  match inst.src.toNat with
  | 0 => some (next.imm ++ inst.imm)
  | 1 => some (env.mapAddress inst.imm.toInt)
  | _ => none

/-- The register that holds the function of a call, in the destination field or in
the immediate. -/
def calledRegister : Reg :=
  if inst.imm = 0 then register inst.dst else ⟨UInt8.ofBitVec (inst.imm.setWidth 8)⟩

/-- A call: of a helper function, by its number or by a register, or of a local
function, which remembers the slot behind it. -/
def Calls (current after : Configuration (RegisterState Rest)) : Prop :=
  let behind := placeAt insts (pc + 1)
  if inst.sourceBit then
    FallsTo behind (fun state => env.helperAt (state.1 (calledRegister inst)) state) current after
  else if inst.src = 1 then
    env.enter current.state after.state ∧ after.place = some (target pc inst.imm.toInt) ∧
      after.returns = behind :: current.returns
  else FallsTo behind (env.helper inst.imm.toInt) current after

/-- An exit goes back to the slot last remembered. -/
def Exits (current after : Configuration (RegisterState Rest)) : Prop :=
  env.leave current.state after.state ∧
    match current.returns with
    | [] => after.place = none ∧ after.returns = []
    | place :: returns => after.place = place ∧ after.returns = returns

/-- A jump class: an unconditional jump by the offset, or in the class 6 by the
immediate, a call, an exit, or a conditional jump. -/
def JumpEffect (current after : Configuration (RegisterState Rest)) : Prop :=
  match inst.operation with
  | 0x0 =>
      let distance := if inst.classBits = 6 then inst.imm.toInt else inst.offset.toInt
      after = ⟨some (target pc distance), current.returns, current.state⟩
  | 0x8 => env.Calls insts pc inst current after
  | 0x9 => env.Exits current after
  | _ =>
      let taken := inst.Jumps current.state.1
      after.state = current.state ∧ after.returns = current.returns ∧
        ((taken ∧ after.place = some (target pc inst.offset.toInt)) ∨
          (¬ taken ∧ after.place = placeAt insts (pc + 1)))

/-- What the slot at a program counter does. -/
def Performs (current after : Configuration (RegisterState Rest)) : Prop :=
  if inst.opcode = 0x18 then
    exists next, insts[pc + 1]? = some next ∧
      FallsTo (placeAt insts (pc + 2)) (Writes (register inst.dst) fun _ => env.wideWord inst next)
        current after
  else
    match inst.classBits with
    | 4 | 7 =>
        FallsTo (placeAt insts (pc + 1)) (Writes (register inst.dst) (inst.aluWord env))
          current after
    | 5 | 6 => env.JumpEffect insts pc inst current after
    | _ => FallsTo (placeAt insts (pc + 1)) (env.MemoryEffect inst) current after

def RawStep (insts : List EbpfInst) (current after : Configuration (RegisterState Rest)) : Prop :=
  exists pc inst, current.place = some (indexLabel pc) ∧ insts[pc]? = some inst ∧
    env.Performs insts pc inst current after

end Environment
end Prevail
