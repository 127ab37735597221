import Prevail.Asm.RawExecution
import Prevail.Asm.RoundTrip

namespace Prevail

/-!
# Decoding one slot

The instruction that the decoder reads at a program counter does what the slots
there mean by their fields, with one exception.  A store of an immediate writes
its bytes from a word of 64 bits.  The sign of the immediate is extended to it,
but the decoder clears the upper half, which a store of 8 bytes shows.
-/

namespace Unmarshaller

open EbpfInst (register)
open Marshaller

/-! ## Fields -/

section Fields

variable (inst : EbpfInst)

theorem classBits_eq : inst.classBits = inst.cls.toNat := by
  have parts : forall opcode : BitVec 8,
      (opcode.extractLsb' 0 3).toNat = (opcode &&& instClsMask).toNat := by
    decide
  exact parts inst.opcode

theorem sourceBit_eq : inst.sourceBit = inst.hasSrcReg := by
  have bit : forall opcode : BitVec 8, opcode.getLsbD 3 = (opcode &&& instSrcReg != 0) := by
    decide
  exact bit inst.opcode

theorem operation_eq :
    inst.operation = inst.jmpOp.toNat ∧ inst.operation = (inst.aluOp >>> 4).toNat := by
  have parts : forall opcode : BitVec 8,
      (opcode.extractLsb' 4 4).toNat = ((opcode >>> 4) &&& 0xf).toNat ∧
        (opcode.extractLsb' 4 4).toNat = ((opcode &&& instAluOpMask) >>> 4).toNat := by
    decide
  exact parts inst.opcode

theorem modeBits_eq : inst.modeBits = (inst.mode >>> 5).toNat := by
  have parts : forall opcode : BitVec 8,
      (opcode.extractLsb' 5 3).toNat = ((opcode &&& instModeMask) >>> 5).toNat := by
    decide
  exact parts inst.opcode

theorem bytes_eq : inst.bytes = (opcodeToWidth inst.size).toNat := by
  have parts : forall opcode : BitVec 8,
      EbpfInst.bytes { opcode := opcode } = (opcodeToWidth (opcode &&& instSizeMask)).toNat := by
    decide
  exact parts inst.opcode

end Fields

section Slot

variable {inst : EbpfInst} {Rest : Type} {env : Environment Rest}

theorem isAlu_cases (alu : isAlu inst = true) :
    inst.cls = instClsAlu ∨ inst.cls = instClsAlu64 := by
  rw [isAlu, Bool.or_eq_true, beq_iff_eq, beq_iff_eq] at alu
  exact alu

theorem sourceBit_of_bit (bit : inst.opcode &&& instSrcReg = instSrcReg) :
    inst.sourceBit = true := by
  rw [sourceBit_eq, EbpfInst.hasSrcReg, bit]
  decide

theorem sourceBit_of_noBit (noBit : inst.opcode &&& instSrcReg = 0) : inst.sourceBit = false := by
  rw [sourceBit_eq, EbpfInst.hasSrcReg, noBit]
  decide

theorem operand_eq {v : Value} (operand : IsOperand inst v) (registers : Reg -> BitVec 64) :
    inst.operand registers = v.word registers := by
  rcases operand with ⟨rfl, bit, _⟩ | ⟨rfl, noBit, _⟩
  · rw [EbpfInst.operand, sourceBit_of_bit bit]
    rfl
  · rw [EbpfInst.operand, sourceBit_of_noBit noBit]
    rfl

/-! ## Arithmetic -/

theorem arithmetic_eq {op : BinOp} (code : inst.operation = (opOfBin op).toNat)
    (offset : inst.offset = offsetOfBin op) {width : Nat} (dst v : BitVec width) :
    inst.arithmetic dst v = some (op.result dst v) := by
  unfold EbpfInst.arithmetic
  rw [code, offset]
  cases op with
  | udiv =>
      change some (if v = 0 then 0 else dst / v) = some (dst / v)
      by_cases zero : v = 0
      · rw [if_pos zero, zero]
        exact congrArg some BitVec.udiv_zero.symm
      · rw [if_neg zero]
  | sdiv =>
      change some (if v = 0 then 0 else dst.sdiv v) = some (dst.sdiv v)
      by_cases zero : v = 0
      · rw [if_pos zero, zero]
        exact congrArg some BitVec.sdiv_zero.symm
      · rw [if_neg zero]
  | umod =>
      change some (if v = 0 then dst else dst % v) = some (dst % v)
      by_cases zero : v = 0
      · rw [if_pos zero, zero]
        exact congrArg some BitVec.umod_zero.symm
      · rw [if_neg zero]
  | smod =>
      change some (if v = 0 then dst else dst.srem v) = some (dst.srem v)
      by_cases zero : v = 0
      · rw [if_pos zero, zero]
        exact congrArg some BitVec.srem_zero.symm
      · rw [if_neg zero]
  | _ => rfl

/-- A binary operation computes the word of its fields. -/
theorem aluWord_bin {op : BinOp} {v : Value} (alu : isAlu inst = true)
    (code : inst.aluOp = opOfBin op <<< 4) (offset : inst.offset = offsetOfBin op)
    (operand : IsOperand inst v) (registers : Reg -> BitVec 64) :
    inst.aluWord env registers =
      some (Bin.word ⟨op, regOf inst.dst, v, inst.cls = instClsAlu64, false⟩ registers) := by
  have operation : inst.operation = (opOfBin op).toNat := by
    rw [(operation_eq inst).2, code]
    cases op <;> rfl
  have plain : (opOfBin op).toNat ≠ 0x8 ∧ (opOfBin op).toNat ≠ 0xd := by
    cases op <;> decide
  rw [← operation] at plain
  have result := fun {width : Nat} (dst v : BitVec width) => arithmetic_eq operation offset dst v
  unfold EbpfInst.aluWord
  dsimp only
  rw [operand_eq operand, classBits_eq]
  rcases isAlu_cases alu with is32 | is64
  · rw [is32]
    split
    · exact absurd ‹_› plain.1
    · exact absurd ‹_› plain.1
    · exact absurd ‹_› plain.2
    · exact absurd ‹_› plain.2
    · rename_i _ impossible _ _
      cases impossible
    · rw [result]
      rfl
  · rw [is64]
    split
    · exact absurd ‹_› plain.1
    · exact absurd ‹_› plain.1
    · exact absurd ‹_› plain.2
    · exact absurd ‹_› plain.2
    · rw [result]
      rfl
    · rename_i _ _ _ other _ _
      exact absurd rfl other

/-- A unary operation computes the word of its fields. -/
theorem aluWord_un {op : UnOp} (alu : isAlu inst = true) (fields : UnFields inst op)
    (registers : Reg -> BitVec 64) : inst.aluWord env registers =
      some (env.unWord ⟨op, regOf inst.dst, inst.cls = instClsAlu64⟩
        (registers (regOf inst.dst))) := by
  rcases fields with ⟨_, _, imm, fields⟩
  have operation := (operation_eq inst).2
  have is32 := fun not64 => (isAlu_cases alu).resolve_right not64
  unfold EbpfInst.aluWord
  dsimp only
  rw [operation, classBits_eq, imm]
  cases op with
  | neg =>
      rw [fields.1]
      rcases isAlu_cases alu with cls | cls <;> rw [cls] <;> rfl
  | le16 | le32 | le64 =>
      rw [fields.1, is32 fields.2.1, sourceBit_of_noBit fields.2.2]
      rfl
  | be16 | be32 | be64 =>
      rw [fields.1, is32 fields.2.1, sourceBit_of_bit fields.2.2]
      rfl
  | swap16 | swap32 | swap64 =>
      rw [fields.1, fields.2.1]
      rfl

/-! ## Jumps and calls -/

theorem compares_iff {op : ConditionOp} (code : inst.operation = (opOfCondition op).toNat)
    (notNset : op ≠ .nset) {width : Nat} (dst v : BitVec width) :
    inst.Compares dst v ↔ op.Compares dst v := by
  unfold EbpfInst.Compares
  rw [code]
  cases op with
  | nset => exact absurd rfl notNset
  | _ => exact Iff.rfl

theorem jumps_iff {insts : List EbpfInst} {pc : Nat} {op : ConditionOp} {right : Value}
    {target : Label} (cls : inst.cls = instClsJmp32 ∨ inst.cls = instClsJmp)
    (jump : ConditionalJump insts pc inst op right target) (registers : Reg -> BitVec 64) :
    inst.Jumps registers ↔
      Condition.Holds ⟨op, regOf inst.dst, right, inst.cls = instClsJmp⟩ registers := by
  have code : inst.operation = (opOfCondition op).toNat := by
    rw [(operation_eq inst).1, jump.code]
  have compares := fun {width : Nat} (dst v : BitVec width) =>
    compares_iff code jump.notNset dst v
  unfold EbpfInst.Jumps Condition.Holds
  dsimp only
  rw [operand_eq jump.operand, classBits_eq]
  rcases cls with is32 | is64
  · rw [is32, if_neg (by decide), if_neg (by decide)]
    exact compares _ _
  · rw [is64, if_pos (by decide), if_pos (by decide)]
    exact compares _ _

/-- A jump target lies as many slots behind the next one as its offset says. -/
theorem target_eq {insts : List EbpfInst} {pc : Nat} {offset : BitVec 32} {target : Label}
    (bound : pc < 2 ^ 31) (run : getJumpTarget offset insts pc = .ok target) :
    target = EbpfInst.target pc offset.toInt := by
  rcases getJumpTarget_spec run with ⟨_, _, _, small, rfl⟩
  have sum : (BitVec.ofNat 32 pc + 1 + offset).toNat = (pc + 1 + offset.toNat) % 2 ^ 32 := by
    have one : (1 : BitVec 32).toNat = 1 := rfl
    rw [BitVec.toNat_add, BitVec.toNat_add, BitVec.toNat_ofNat, one]
    omega
  have value := BitVec.toInt_eq_toNat_cond offset
  have offsetBound := offset.isLt
  rw [EbpfInst.target, Label.mk.injEq]
  refine ⟨rfl, ?_, rfl, rfl⟩
  rw [sum] at small ⊢
  split at value <;> omega

theorem toInt_signExtend_offset (offset : BitVec 16) :
    (offset.signExtend 32).toInt = offset.toInt :=
  BitVec.toInt_signExtend_of_le (by decide)

section Control

variable {platform : EbpfPlatform} {insts : List EbpfInst} {pc : Nat}
  {current after : Configuration (RegisterState Rest)}

theorem calls_iff {ins : Instruction} (bound : pc < 2 ^ 31)
    (call : CallDecoded platform insts pc inst ins) :
    env.Calls insts pc inst current after ↔
      env.machine.Executes ins (placeAt insts (pc + 1)) current after := by
  unfold Environment.Calls
  dsimp only
  rw [sourceBit_eq]
  cases call with
  | local_ noBit src target =>
      have isLocal : inst.src = 1 := src
      rw [noBit, if_neg (by decide), if_pos isLocal, ← target_eq bound target]
      exact Iff.rfl
  | helper func form =>
      have noBit : inst.hasSrcReg = false := by
        rw [form]
        change (instOpCall &&& instSrcReg != 0) = false
        decide
      have src : inst.src = 0 := by rw [form]
      rw [noBit, src, if_neg (by decide), if_neg (by decide), ← func]
      exact Iff.rfl
  | register _ bit register _ _ =>
      rw [bit, if_pos rfl]
      have same : Environment.calledRegister inst = regOf _ := register
      rw [same]
      exact Iff.rfl

/-- A jump, a call or an exit does what its fields say. -/
theorem jumpEffect_iff {ins : Instruction} (bound : pc < 2 ^ 31)
    (cls : inst.cls = instClsJmp32 ∨ inst.cls = instClsJmp)
    (made : makeJmp platform inst insts pc = .ok ins) :
    env.JumpEffect insts pc inst current after ↔
      env.machine.Executes ins (placeAt insts (pc + 1)) current after := by
  unfold Environment.JumpEffect
  dsimp only
  rw [(operation_eq inst).1]
  rcases makeJmp_spec made with
    ⟨_, isCall, call⟩ | ⟨rfl, form⟩ | ⟨target, rfl, goto⟩ | ⟨op, right, target, rfl, _, jump⟩
  · rw [isCall]
    exact calls_iff bound call
  · have isExit : inst.jmpOp = instExit := by
      rw [form]
      decide
    rw [isExit]
    exact Iff.rfl
  · have goes := target_eq bound goto.jump
    have isTarget : target = EbpfInst.target pc
        (if inst.classBits = 6 then inst.imm.toInt else inst.offset.toInt) := by
      rw [goes, classBits_eq, EbpfInst.cls]
      have opcode := goto.opcode
      rw [isJa, Bool.or_eq_true, beq_iff_eq, beq_iff_eq] at opcode
      rcases opcode with is16 | is32
      · rw [is16, if_neg (by decide), if_neg (by decide), toInt_signExtend_offset]
      · rw [is32, if_pos rfl, if_pos (by decide)]
    have isGoto : inst.jmpOp = instJa := by
      have opcode := goto.opcode
      rw [isJa, Bool.or_eq_true, beq_iff_eq, beq_iff_eq] at opcode
      rw [EbpfInst.jmpOp]
      rcases opcode with same | same <;> rw [same] <;> decide
    rw [isGoto, ← isTarget]
    change after = ⟨some target, current.returns, current.state⟩ ↔ after.state = current.state ∧
      after.returns = current.returns ∧
        ((True ∧ after.place = some target) ∨ (¬ True ∧ after.place = placeAt insts (pc + 1)))
    rcases after with ⟨place, returns, state⟩
    simp only [Configuration.mk.injEq, true_and, not_true, false_and, or_false]
    tauto
  · have isTarget : target = EbpfInst.target pc inst.offset.toInt := by
      rw [target_eq bound jump.jump, toInt_signExtend_offset]
    have taken := jumps_iff cls jump current.state.1
    have other : (opOfCondition op).toNat ≠ 0x0 ∧ (opOfCondition op).toNat ≠ 0x8 ∧
        (opOfCondition op).toNat ≠ 0x9 := by
      cases op <;> decide
    rw [← jump.code] at other
    split
    · exact absurd ‹_› other.1
    · exact absurd ‹_› other.2.1
    · exact absurd ‹_› other.2.2
    · rw [taken, ← isTarget]
      exact Iff.rfl

end Control

/-! ## Memory -/

theorem MemoryDecoded.mode_ne {ins : Instruction} (decoded : MemoryDecoded inst ins) :
    inst.mode ≠ 0 := by
  intro zero
  cases decoded with
  | packet _ _ _ register =>
      rcases register with ⟨_, mode, _⟩ | ⟨_, mode⟩ <;>
        exact absurd (mode.symm.trans zero) (by decide)
  | load _ mode _ => exact absurd (mode.symm.trans zero) (by decide)
  | storeImm _ mode _ => exact absurd (mode.symm.trans zero) (by decide)
  | store _ mode _ => exact absurd (mode.symm.trans zero) (by decide)
  | atomic _ mode _ _ => exact absurd (mode.symm.trans zero) (by decide)

/-- The slot stores 8 bytes of a negative immediate. -/
def StoresNegative (inst : EbpfInst) : Prop := inst.opcode = 0x7a ∧ inst.imm.toInt < 0

instance (inst : EbpfInst) : Decidable (StoresNegative inst) := inferInstanceAs (Decidable (_ ∧ _))

/-- The low bytes of an immediate do not depend on how it is extended, unless all
are stored and its sign is negative. -/
theorem lowBytes_extend {count : Nat} {imm : BitVec 32} (fits : count ≤ 4 ∨ ¬ imm.toInt < 0) :
    lowBytes count (imm.signExtend 64) = lowBytes count (zeroExtend imm) := by
  unfold lowBytes zeroExtend
  rcases fits with few | nonneg
  · apply congrArg
    apply BitVec.eq_of_getLsbD_eq
    intro index inBytes
    have low : index < 32 := by omega
    rw [BitVec.getLsbD_setWidth, BitVec.getLsbD_setWidth, BitVec.getLsbD_signExtend,
      BitVec.getLsbD_setWidth, if_pos low]
  · have positive : imm.msb = false := by
      rw [BitVec.msb_eq_toInt]
      exact decide_eq_false nonneg
    rw [BitVec.signExtend_eq_setWidth_of_msb_false positive]

theorem bytes_storeImm (cls : inst.cls = instClsSt) (mode : inst.mode = instModeMem) :
    inst.bytes ≤ 4 ∨ inst.opcode = 0x7a := by
  have opcodes : forall opcode : BitVec 8, opcode &&& instClsMask = instClsSt ->
      opcode &&& instModeMask = instModeMem ->
        EbpfInst.bytes { opcode := opcode } ≤ 4 ∨ opcode = 0x7a := by
    decide
  exact opcodes inst.opcode cls mode

/-- What an atomic operation does is given by its immediate. -/
theorem atomic_eq {op : AtomicOp} (code : codeOfAtomic op = inst.imm &&& ~~~instFetch)
    (fetches : op = .xchg ∨ op = .cmpxchg -> inst.imm &&& instFetch ≠ 0)
    (access : Deref) (v expected : BitVec 64) :
    inst.atomicUpdate v expected = (fun old => some (op.update v expected old)) ∧
      inst.atomicResult =
        Atomic.result? ⟨op, inst.imm &&& instFetch == instFetch, access, regOf inst.src⟩ := by
  have imm : inst.imm = codeOfAtomic op ||| instFetch ∨
      (inst.imm = codeOfAtomic op ∧ op ≠ .xchg ∧ op ≠ .cmpxchg) := by
    rcases fetch_cases inst.imm with ⟨_, joined⟩ | ⟨noFetch, same⟩
    · exact Or.inl (code ▸ joined.symm)
    · right
      have zero : inst.imm &&& instFetch = 0 := by
        rw [← same, BitVec.and_assoc, BitVec.and_comm (~~~instFetch)]
        simp
      refine ⟨(code.trans same).symm, ?_, ?_⟩
      · rintro rfl
        exact fetches (Or.inl rfl) zero
      · rintro rfl
        exact fetches (Or.inr rfl) zero
  unfold EbpfInst.atomicUpdate EbpfInst.atomicResult Atomic.result?
  rcases imm with withFetch | ⟨without, notXchg, notCmpxchg⟩
  · rw [withFetch]
    cases op <;> exact ⟨rfl, rfl⟩
  · rw [without]
    cases op with
    | xchg => exact absurd rfl notXchg
    | cmpxchg => exact absurd rfl notCmpxchg
    | _ => exact ⟨rfl, rfl⟩

/-- A memory instruction does what its fields say, unless the decoder clears the
sign of what it stores. -/
theorem memoryEffect_iff {ins : Instruction} (decoded : MemoryDecoded inst ins)
    (notNegative : ¬ StoresNegative inst) {state after : RegisterState Rest} :
    env.MemoryEffect inst state after ↔ env.effect ins state after := by
  unfold Environment.MemoryEffect
  dsimp only
  rw [classBits_eq, modeBits_eq, bytes_eq]
  cases decoded with
  | packet cls _ _ register =>
      rcases register with ⟨rfl, mode, _⟩ | ⟨rfl, mode⟩
      · have place : Packet.address ⟨opcodeToWidth inst.size, inst.imm.toInt, none⟩ state.1 =
            inst.imm.signExtend 64 := BitVec.add_zero _
        rw [cls, mode, Environment.effect, place]
        exact Iff.rfl
      · rw [cls, mode]
        exact Iff.rfl
  | load cls mode _ =>
      rw [cls, mode]
      exact Iff.rfl
  | storeImm cls mode _ =>
      have fits : inst.bytes ≤ 4 ∨ ¬ inst.imm.toInt < 0 :=
        (bytes_storeImm cls mode).imp_right (fun opcode negative => notNegative ⟨opcode, negative⟩)
      rw [bytes_eq] at fits
      have same := lowBytes_extend fits
      rw [cls, mode]
      change env.Stores _ _ _ _ _ ↔ env.Stores _ _ _ _ _
      unfold Environment.Stores
      rw [same]
      exact Iff.rfl
  | store cls mode _ =>
      rw [cls, mode]
      exact Iff.rfl
  | atomic cls mode code fetches =>
      rcases atomic_eq code fetches (accessOf inst inst.dst) (state.1 (regOf inst.src))
        (lowBytes (opcodeToWidth inst.size).toNat (state.1 r0ReturnValue)) with ⟨update, result⟩
      rw [cls, mode]
      change env.Updates _ _ _ _ _ _ ↔ env.Updates _ _ _ _ _ _
      rw [result]
      change env.Updates _ _ (inst.atomicUpdate (state.1 (regOf inst.src)) _) _ _ _ ↔ _
      rw [update]
      exact Iff.rfl

end Slot

/-! ## One slot -/

section Performs

variable {platform : EbpfPlatform} {insts : List EbpfInst} {pc slots : Nat} {inst : EbpfInst}
  {ins : Instruction} {Rest : Type} {env : Environment Rest}
  {current after : Configuration (RegisterState Rest)}

theorem fallsTo_congr {State : Type} (behind : Option Label) {first second : State -> State -> Prop}
    {current after : Configuration State}
    (same : first current.state after.state ↔ second current.state after.state) :
    FallsTo behind first current after ↔ FallsTo behind second current after :=
  and_congr_left' same

theorem writes_some {dst : Reg} {word : (Reg -> BitVec 64) -> Option (BitVec 64)}
    {state after : RegisterState Rest} {result : BitVec 64} (same : word state.1 = some result) :
    Writes dst word state after ↔ after = (Function.update state.1 dst result, state.2) := by
  unfold Writes
  rw [same]
  simp

theorem performs_iff_executes
    (bound : inst.cls = instClsJmp32 ∨ inst.cls = instClsJmp -> pc < 2 ^ 31)
    (notNegative : ¬ StoresNegative inst)
    (decoded : decodeAt platform insts pc inst = .ok (ins, slots)) :
    env.Performs insts pc inst current after ↔
      env.machine.Executes ins (placeAt insts (pc + slots)) current after := by
  unfold Environment.Performs
  rcases decodeAt_cases decoded with
    ⟨opcode, rfl, made⟩ | ⟨alu, rfl, made⟩ | ⟨cls, rfl, made⟩ | ⟨cls, rfl, made⟩
  · have isLddw : inst.opcode = 0x18 := opcode
    rw [if_pos isLddw]
    rcases makeLddw_spec made with ⟨next, found, _, _, form⟩
    have single : forall effect : EbpfInst -> Prop,
        (exists next, insts[pc + 1]? = some next ∧ effect next) ↔ effect next := by
      intro effect
      rw [found]
      simp
    rw [single]
    rcases form with ⟨isFd, _, rfl⟩ | ⟨noSrc, rfl⟩
    · refine fallsTo_congr _ (writes_some ?_)
      rw [Environment.wideWord, isFd]
      rfl
    · refine fallsTo_congr _ (writes_some ?_)
      rw [Environment.wideWord, noSrc]
      rfl
  · have notLddw : ¬ inst.opcode = 0x18 := by
      intro same
      rw [isAlu, EbpfInst.cls, same] at alu
      exact absurd alu (by decide)
    have isWritten : forall word, inst.aluWord env current.state.1 = some word ->
        (FallsTo (placeAt insts (pc + 1)) (Writes (register inst.dst) (inst.aluWord env)) current
          after ↔ FallsTo (placeAt insts (pc + 1)) (fun state after =>
            after = (Function.update state.1 (regOf inst.dst) word, state.2)) current after) :=
      fun word same => fallsTo_congr _ (writes_some same)
    rw [if_neg notLddw, classBits_eq]
    have falls : inst.cls.toNat = 4 ∨ inst.cls.toNat = 7 := by
      rcases isAlu_cases alu with same | same <;> rw [same] <;> decide
    rcases makeAluOp_spec made with ⟨op, v, rfl, code, offset, operand⟩ | ⟨op, rfl, fields⟩
    · have word := isWritten _ (aluWord_bin alu code offset operand current.state.1)
      rcases falls with same | same <;> rw [same] <;> exact word
    · have word := isWritten _ (aluWord_un alu fields current.state.1)
      rcases falls with same | same <;> rw [same] <;> exact word
  · have notLddw : ¬ inst.opcode = 0x18 := by
      intro same
      rw [EbpfInst.cls, same] at cls
      exact absurd cls (by decide)
    rw [if_neg notLddw, classBits_eq]
    have jump : env.JumpEffect insts pc inst current after ↔
        env.machine.Executes ins (placeAt insts (pc + 1)) current after :=
      jumpEffect_iff (bound cls) cls made
    rcases cls with same | same <;> rw [same] <;> exact jump
  · have decoded := makeMemOp_spec cls made
    have notLddw : ¬ inst.opcode = 0x18 := by
      intro same
      apply decoded.mode_ne
      rw [EbpfInst.mode, same]
      decide
    rw [if_neg notLddw, classBits_eq]
    have effect : FallsTo (placeAt insts (pc + 1)) (env.MemoryEffect inst) current after ↔
        FallsTo (placeAt insts (pc + 1)) (env.effect ins) current after :=
      fallsTo_congr _ (memoryEffect_iff decoded notNegative)
    have executes : FallsTo (placeAt insts (pc + 1)) (env.effect ins) current after ↔
        env.machine.Executes ins (placeAt insts (pc + 1)) current after := by
      cases decoded <;> exact Iff.rfl
    rw [← executes, ← effect]
    rcases cls with same | same | same | same <;> rw [same] <;> exact Iff.rfl

theorem cls_mode_of_zero (zero : inst.opcode = 0) : inst.cls = 0 ∧ inst.mode = 0 := by
  rw [EbpfInst.cls, EbpfInst.mode, zero]
  decide

/-- A slot without an opcode does nothing. -/
theorem not_performs_of_zero (zero : inst.opcode = 0) :
    ¬ env.Performs insts pc inst current after := by
  rcases cls_mode_of_zero zero with ⟨cls, mode⟩
  unfold Environment.Performs Environment.MemoryEffect
  rw [zero, if_neg (by decide), classBits_eq, cls]
  rintro ⟨effect, _⟩
  rw [modeBits_eq, mode] at effect
  exact effect

theorem decodeAt_ne_of_zero (zero : inst.opcode = 0) :
    decodeAt platform insts pc inst ≠ .ok (ins, slots) := by
  rcases cls_mode_of_zero zero with ⟨cls, mode⟩
  intro decoded
  rcases decodeAt_cases decoded with ⟨opcode, _⟩ | ⟨alu, _⟩ | ⟨jmp, _⟩ | ⟨memory, _, made⟩
  · exact absurd (zero.symm.trans opcode) (by decide)
  · rw [isAlu, cls] at alu
    exact absurd alu (by decide)
  · rw [cls] at jmp
    exact absurd jmp (by decide)
  · exact (makeMemOp_spec memory made).mode_ne mode

/-! ## Stores of a negative immediate -/

/-- A store of an immediate, whose upper half the decoder clears. -/
theorem decodeAt_storeImm (opcode : inst.opcode = 0x7a)
    (decoded : decodeAt platform insts pc inst = .ok (ins, slots)) :
    ins = .mem ⟨accessOf inst inst.dst, .imm ⟨zeroExtend inst.imm⟩, false⟩ := by
  have cls : inst.cls = instClsSt := by
    rw [EbpfInst.cls, opcode]
    decide
  rcases decodeAt_cases decoded with ⟨lddw, _⟩ | ⟨alu, _⟩ | ⟨jmp, _⟩ | ⟨memory, _, made⟩
  · exact absurd (opcode.symm.trans lddw) (by decide)
  · rw [isAlu, cls] at alu
    exact absurd alu (by decide)
  · rw [cls] at jmp
    exact absurd jmp (by decide)
  · cases makeMemOp_spec memory made with
    | storeImm _ _ _ => rfl
    | packet other _ _ _ => exact absurd (cls.symm.trans other) (by decide)
    | load other _ _ => exact absurd (cls.symm.trans other) (by decide)
    | store other _ _ => exact absurd (cls.symm.trans other) (by decide)
    | atomic other _ _ _ => exact absurd (cls.symm.trans other) (by decide)

/-- An environment that remembers the last word stored. -/
def lastStored : Environment (BitVec 64) where
  bigEndian := false
  load _ _ _ _ := False
  store _ _ word _ rest := rest = word
  packet _ _ _ _ := False
  helper _ _ _ := False
  helperAt _ _ _ := False
  mapAddress _ := 0
  enter _ _ := False
  leave _ _ := False

theorem performs_storeImm (opcode : inst.opcode = 0x7a) (returns : List (Option Label))
    (state : RegisterState (BitVec 64)) :
    lastStored.Performs insts pc inst ⟨some (indexLabel pc), returns, state⟩
      ⟨placeAt insts (pc + 1), returns, (state.1, lowBytes 8 (inst.imm.signExtend 64))⟩ := by
  have cls : inst.cls = instClsSt := by
    rw [EbpfInst.cls, opcode]
    decide
  have mode : inst.mode = instModeMem := by
    rw [EbpfInst.mode, opcode]
    decide
  have bytes : inst.bytes = 8 := by
    rw [EbpfInst.bytes, opcode]
    decide
  unfold Environment.Performs Environment.MemoryEffect
  rw [opcode, if_neg (by decide), classBits_eq, modeBits_eq, bytes, cls, mode]
  exact ⟨⟨_, rfl, rfl⟩, rfl, rfl⟩

/-- The upper half of a negative immediate is not zero. -/
theorem lowBytes_extend_ne {imm : BitVec 32} (negative : imm.toInt < 0) :
    lowBytes 8 (imm.signExtend 64) ≠ lowBytes 8 (zeroExtend imm) := by
  have whole : forall word : BitVec 64, lowBytes 8 word = word := fun word => by
    rw [lowBytes, BitVec.setWidth_eq, BitVec.setWidth_eq]
  rw [whole, whole]
  intro same
  have value := congrArg BitVec.toInt same
  have extended : (imm.signExtend 64).toInt = imm.toInt :=
    BitVec.toInt_signExtend_of_le (by decide)
  have cleared : (zeroExtend imm).toNat = imm.toNat := BitVec.toNat_setWidth_of_le (by decide)
  have bound := imm.isLt
  have unsigned := BitVec.toInt_eq_toNat_cond (zeroExtend imm)
  split at unsigned <;> omega

/-- What the decoder reads of such a store leaves another word. -/
theorem not_executes_storeImm (stores : StoresNegative inst) {behind place : Option Label}
    {returns : List (Option Label)} {state : RegisterState (BitVec 64)} :
    ¬ lastStored.machine.Executes
      (.mem ⟨accessOf inst inst.dst, .imm ⟨zeroExtend inst.imm⟩, false⟩) behind
      ⟨place, returns, state⟩ ⟨behind, returns,
      (state.1, lowBytes 8 (inst.imm.signExtend 64))⟩ := by
  rintro ⟨⟨rest, stored, same⟩, _⟩
  have bytes : (opcodeToWidth inst.size).toNat = 8 := by
    rw [EbpfInst.size, stores.1]
    decide
  have stored : rest = lowBytes (opcodeToWidth inst.size).toNat (zeroExtend inst.imm) := stored
  rw [bytes] at stored
  exact lowBytes_extend_ne stores.2 ((Prod.mk.inj same).2.trans stored)

end Performs

end Unmarshaller
end Prevail
