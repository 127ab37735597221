import Prevail.Asm.RawFidelity
import Prevail.Library.Execution

namespace Prevail

/-!
# Decoding and executions

A raw program is executed slot by slot.  The sequence that the decoder returns has
one instruction for a pair of shifts by 32, and no label for the second one.  Its
executions are those of the raw program as long as no jump goes to the second
shift of such a pair, and no slot stores 8 bytes of a negative immediate.
-/

theorem executes_bin {Rest : Type}
    {other : Instruction -> RegisterState Rest -> RegisterState Rest -> Prop}
    {ins : Bin} {behind : Option Label} {current after : Configuration (RegisterState Rest)} :
    (arithmeticMachine other).Executes (.bin ins) behind current after ↔
      after = ⟨behind, current.returns, (ins.run current.state.1, current.state.2)⟩ := by
  constructor
  · rintro ⟨passes, place, returns⟩
    rcases after with ⟨_, _, _⟩
    cases place
    cases returns
    exact congrArg _ passes
  · rintro rfl
    exact ⟨rfl, rfl, rfl⟩

namespace InstructionSeq

/-- The label of the first instruction. -/
def place : InstructionSeq -> Option Label
  | [] => none
  | (label, _) :: _ => some label

/-- One step of the sequence. -/
def CallStep {State : Type} (machine : Machine State) (prog : InstructionSeq)
    (current after : Configuration State) :
    Prop :=
  exists label ins rest, current.place = some label ∧ (label, ins) :: rest <:+ prog ∧
    machine.Executes ins (place rest) current after

/-- The labels of a configuration are labels of the sequence. -/
def Keeps {State : Type} (prog : InstructionSeq) (current : Configuration State) : Prop :=
  ∀ place ∈ current.place :: current.returns, ∀ label ∈ place, label ∈ prog.map Prod.fst

instance {State : Type} (prog : InstructionSeq) (current : Configuration State) :
    Decidable (prog.Keeps current) :=
  inferInstanceAs (Decidable (∀ place ∈ current.place :: current.returns, ∀ label ∈ place,
    label ∈ prog.map Prod.fst))

/-- The view of a configuration by the sequence: it does not show a program
counter that has no label. -/
def kept {State : Type} (prog : InstructionSeq) (current : Configuration State) :
    Option (Configuration State) :=
  if prog.Keeps current then some current else none

theorem kept_eq_some {State : Type} {prog : InstructionSeq} {current shown : Configuration State} :
    prog.kept current = some shown ↔ prog.Keeps current ∧ current = shown := by
  unfold kept
  split <;> simp_all

theorem kept_eq_none {State : Type} {prog : InstructionSeq} {current : Configuration State} :
    prog.kept current = none ↔ ¬ prog.Keeps current := by
  unfold kept
  split <;> simp_all

end InstructionSeq

namespace Unmarshaller

open InstructionSeq Marshaller

/-- One step of a raw program as it is decoded: the instruction at the program
counter by itself. -/
def DecodedStep {State : Type} (platform : EbpfPlatform) (machine : Machine State)
    (insts : List EbpfInst) (current after : Configuration State) : Prop :=
  exists pc inst ins slots, current.place = some (indexLabel pc) ∧ insts[pc]? = some inst ∧
    decodeAt platform insts pc inst = .ok (ins, slots) ∧
      machine.Executes ins (placeAt insts (pc + slots)) current after

/-- The configuration in which a program begins. -/
def startAt {State : Type} (state : State) : Configuration State := ⟨some (indexLabel 0), [], state⟩

/-- A sequence preserves the behaviour of a raw program: its jumps and calls go to
its labels, and from each of its labels it has the executions of the program, in
every environment. -/
structure Preserves (insts : List EbpfInst) (prog : InstructionSeq) : Prop where
  targets : forall label ins target, (label, ins) ∈ prog -> ins.target? = some target ->
    target ∈ prog.map Prod.fst
  executions : forall (Rest : Type) (env : Environment Rest)
    (start : Configuration (RegisterState Rest)), prog.Keeps start ->
      forall trace, (exists last, Execution (prog.CallStep env.machine) start trace last) ↔
        exists path current, Execution (env.RawStep insts) start path current ∧
          path.filterMap prog.kept = trace

/-! ## Where raw jumps go -/

/-- The program counter to which a raw jump or local call goes. -/
def jumpTarget? (pc : Nat) (inst : EbpfInst) : Option Nat :=
  if inst.cls = instClsJmp ∨ inst.cls = instClsJmp32 then
    if inst.jmpOp = instExit then none
    else if inst.jmpOp = instCall then
      if inst.src = instCallLocal then some (BitVec.ofNat 32 pc + 1 + inst.imm).toNat else none
    else some (BitVec.ofNat 32 pc + 1 +
      (if inst.opcode = instOpJa32 then inst.imm else inst.offset.signExtend 32)).toNat
  else none

section Decode

variable {platform : EbpfPlatform} {insts : List EbpfInst} {pc slots : Nat} {inst : EbpfInst}
  {ins : Instruction}

/-- What the decoder finds at a target: the target of its instruction, and a
slot of the program that is not the second one of a `lddw`. -/
def TargetFound (insts : List EbpfInst) (ins : Instruction) (target : Option Nat) : Prop :=
  ins.target? = target.map indexLabel ∧
    ∀ pc ∈ target, exists next, insts[pc]? = some next ∧ next.opcode ≠ 0

theorem targetFound_none (nowhere : ins.target? = none) : TargetFound insts ins none :=
  ⟨nowhere, fun _ found => nomatch found⟩

theorem targetFound_jump {offset : BitVec 32} {target : Label} (goes : ins.target? = some target)
    (jump : getJumpTarget offset insts pc = .ok target) :
    TargetFound insts ins (some (BitVec.ofNat 32 pc + 1 + offset).toNat) := by
  rcases getJumpTarget_spec jump with ⟨next, found, nonzero, _, rfl⟩
  refine ⟨goes, ?_⟩
  intro pc same
  cases same
  exact ⟨next, found, nonzero⟩

theorem makeJump_target (run : makeJump platform inst insts pc = .ok ins) :
    TargetFound insts ins (some (BitVec.ofNat 32 pc + 1 +
      (if inst.opcode = instOpJa32 then inst.imm else inst.offset.signExtend 32)).toNat) := by
  rcases bind_eq_ok.mp run with ⟨_, _, run⟩
  rcases bind_eq_ok.mp run with ⟨_, _, run⟩
  rcases bind_eq_ok.mp run with ⟨_, _, run⟩
  rcases bind_eq_ok.mp run with ⟨_, _, run⟩
  rcases bind_eq_ok.mp run with ⟨target, jump, run⟩
  rcases bind_eq_ok.mp run with ⟨_, _, run⟩
  rcases bind_eq_ok.mp run with ⟨_, _, run⟩
  split at run
  · cases run
    exact targetFound_jump rfl jump
  · cases run
    exact targetFound_jump rfl jump

theorem makeCallOp_target (run : makeCallOp platform inst insts pc = .ok ins) :
    TargetFound insts ins
      (if inst.src = instCallLocal then some (BitVec.ofNat 32 pc + 1 + inst.imm).toNat
      else none) := by
  rcases bind_eq_ok.mp run with ⟨_, _, run⟩
  rcases bind_eq_ok.mp run with ⟨_, _, run⟩
  rcases bind_eq_ok.mp run with ⟨_, _, run⟩
  rcases bind_eq_ok.mp run with ⟨_, _, run⟩
  rcases bind_eq_ok.mp run with ⟨_, _, run⟩
  split at run
  · rename_i isLocal
    rw [if_pos isLocal]
    rcases bind_eq_ok.mp run with ⟨_, _, run⟩
    rcases bind_eq_ok.mp run with ⟨_, _, run⟩
    rcases bind_eq_ok.mp run with ⟨target, jump, same⟩
    cases same
    exact targetFound_jump rfl jump
  · rename_i notLocal
    rw [if_neg notLocal]
    apply targetFound_none
    split at run
    · rcases bind_eq_ok.mp run with ⟨_, _, run⟩
      split at run
      · rcases bind_eq_ok.mp run with ⟨_, _, run⟩
        rcases bind_eq_ok.mp run with ⟨_, _, same⟩
        cases same
        rfl
      · cases run
        rfl
    · rcases bind_eq_ok.mp run with ⟨_, _, run⟩
      rcases bind_eq_ok.mp run with ⟨_, _, run⟩
      rcases bind_eq_ok.mp run with ⟨_, _, same⟩
      cases same
      rfl

theorem makeJmp_target (cls : inst.cls = instClsJmp32 ∨ inst.cls = instClsJmp)
    (run : makeJmp platform inst insts pc = .ok ins) :
    TargetFound insts ins (jumpTarget? pc inst) := by
  have different : instCall ≠ instExit := by decide
  rw [jumpTarget?, if_pos cls.symm]
  unfold makeJmp at run
  split at run
  · rename_i isCall
    rw [if_neg (isCall ▸ different), if_pos isCall]
    exact makeCallOp_target run
  · rename_i notCall
    split at run
    · rename_i isExit
      rw [if_pos isExit, (makeExit_spec isExit run).1]
      exact targetFound_none rfl
    · rename_i notExit
      rw [if_neg notExit, if_neg notCall]
      split at run
      · rcases bind_eq_ok.mp run with ⟨_, _, run⟩
        exact makeJump_target run
      · exact makeJump_target run

theorem makeLddw_target (run : makeLddw platform inst insts pc = .ok ins) : ins.target? = none := by
  rcases makeLddw_spec run with ⟨_, _, _, _, ⟨_, _, rfl⟩ | ⟨_, rfl⟩⟩ <;> rfl

/-- The decoder reads the target of a raw jump. -/
theorem decodeAt_target (run : decodeAt platform insts pc inst = .ok (ins, slots)) :
    TargetFound insts ins (jumpTarget? pc inst) := by
  have noJump : inst.cls ≠ instClsJmp -> inst.cls ≠ instClsJmp32 -> jumpTarget? pc inst = none :=
    fun not64 not32 => if_neg (not_or_intro not64 not32)
  rcases decodeAt_cases run with ⟨opcode, rfl, made⟩ | ⟨alu, rfl, made⟩ | ⟨cls, rfl, made⟩ |
    ⟨cls, rfl, made⟩
  · rw [noJump (by rw [EbpfInst.cls, opcode]; decide) (by rw [EbpfInst.cls, opcode]; decide)]
    exact targetFound_none (makeLddw_target made)
  · rw [isAlu, Bool.or_eq_true, beq_iff_eq, beq_iff_eq] at alu
    have notJmp : inst.cls ≠ instClsJmp ∧ inst.cls ≠ instClsJmp32 := by
      rcases alu with same | same <;> rw [same] <;> decide
    rw [noJump notJmp.1 notJmp.2]
    rcases makeAluOp_spec made with ⟨_, _, rfl, _⟩ | ⟨_, rfl, _⟩ <;> exact targetFound_none rfl
  · exact makeJmp_target cls made
  · have notJmp : inst.cls ≠ instClsJmp ∧ inst.cls ≠ instClsJmp32 := by
      rcases cls with same | same | same | same <;> rw [same] <;> decide
    rw [noJump notJmp.1 notJmp.2]
    cases makeMemOp_spec cls made <;> exact targetFound_none rfl

end Decode

/-! ## Pairs of shifts -/

/-- A shift of a register by 32. -/
def shiftInst (op : BinOp) (dst : BitVec 4) : EbpfInst :=
  { opcode := instClsAlu64 ||| (opOfBin op <<< 4), dst := dst, imm := 32 }

/-- A right shift, logical or arithmetic. -/
def IsRightShift (op : BinOp) : Prop := op = .rsh ∨ op = .arsh

/-- Two slots shift a register to the left by 32 and back to the right. -/
def ShiftPair (insts : List EbpfInst) (pc : Nat) : Prop :=
  exists dst second, IsRightShift second ∧ insts[pc]? = some (shiftInst .lsh dst) ∧
    insts[pc + 1]? = some (shiftInst second dst)

/-- The operation of a shift by 32. -/
def shiftBin (op : BinOp) (dst : BitVec 4) : Bin := ⟨op, regOf dst, .imm ⟨32⟩, true, false⟩

/-- The operation that stands for a pair of shifts. -/
def pairMerged (dst : BitVec 4) (second : BinOp) : Bin :=
  if second = .rsh then ⟨.mov, regOf dst, .reg (regOf dst), false, false⟩
  else ⟨.movsx32, regOf dst, .reg (regOf dst), true, false⟩

section Shifts

variable {platform : EbpfPlatform} {insts : List EbpfInst} {pc : Nat} {inst : EbpfInst}

theorem isAlu_shiftInst {op : BinOp} {dst : BitVec 4} (shift : op = .lsh ∨ IsRightShift op) :
    isAlu (shiftInst op dst) = true ∧ (shiftInst op dst).cls = instClsAlu64 := by
  have cls : (shiftInst op dst).cls = instClsAlu64 := by
    change (instClsAlu64 ||| (opOfBin op <<< 4)) &&& instClsMask = instClsAlu64
    rcases shift with rfl | rfl | rfl <;> decide
  refine ⟨?_, cls⟩
  rw [isAlu, cls]
  decide

/-- A shift that the decoder finds has one encoding. -/
theorem eq_shiftInst {op : BinOp} {dst : Reg} (shift : op = .lsh ∨ IsRightShift op)
    (alu : isAlu inst = true)
    (run : makeAluOp platform pc inst = .ok (shift32 dst op)) : inst = shiftInst op inst.dst ∧
      dst = regOf inst.dst := by
  have register : dst = regOf inst.dst := by
    rcases makeAluOp_spec run with ⟨_, _, same, _⟩ | ⟨_, same, _⟩
    · rw [shift32, Instruction.bin.injEq, Bin.mk.injEq] at same
      exact same.2.1
    · cases same
  have encoded := marshal_aluOp alu run
  have back : marshal pc (shift32 dst op) = .ok [shiftInst op inst.dst] := by
    rw [register, shift32, marshal, marshalBin, fieldOf_regOf]
    rcases shift with rfl | rfl | rfl <;> rfl
  rw [back, written] at encoded
  split at encoded
  · cases encoded
  · have same : shiftInst op inst.dst = inst := by
      injection encoded with encoded
      injection encoded
    exact ⟨same.symm, register⟩

theorem makeAluOp_shiftInst {op : BinOp} {dst : BitVec 4} {ins : Instruction}
    (shift : op = .lsh ∨ IsRightShift op)
    (run : makeAluOp platform pc (shiftInst op dst) = .ok ins) : ins = .bin (shiftBin op dst) := by
  have is64 := (@isAlu_shiftInst op dst shift).2
  have isOp : forall other : BinOp, (shiftInst op dst).aluOp = opOfBin other <<< 4 ->
      other = op := by
    intro other code
    change (instClsAlu64 ||| (opOfBin op <<< 4)) &&& instAluOpMask = opOfBin other <<< 4 at code
    rcases shift with rfl | rfl | rfl <;> cases other <;>
      first | rfl | exact absurd code (by decide)
  have noBit : ¬ (shiftInst op dst).opcode &&& instSrcReg = instSrcReg := by
    change ¬ (instClsAlu64 ||| (opOfBin op <<< 4)) &&& instSrcReg = instSrcReg
    rcases shift with rfl | rfl | rfl <;> decide
  have notUn : (shiftInst op dst).aluOp ≠ 0x80 ∧ (shiftInst op dst).aluOp ≠ 0xd0 := by
    change (instClsAlu64 ||| (opOfBin op <<< 4)) &&& instAluOpMask ≠ 0x80 ∧
      (instClsAlu64 ||| (opOfBin op <<< 4)) &&& instAluOpMask ≠ 0xd0
    rcases shift with rfl | rfl | rfl <;> decide
  rcases makeAluOp_spec run with ⟨other, v, rfl, code, _, operand⟩ | ⟨other, _, _, _, _, fields⟩
  · rcases operand with ⟨_, bit, _⟩ | ⟨rfl, _, _⟩
    · exact absurd bit noBit
    · rw [isOp other code, is64]
      rfl
  · exfalso
    cases other with
    | neg => exact notUn.1 fields.1
    | _ => exact notUn.2 fields.1

theorem shiftInst_ne {second : BinOp} (right : IsRightShift second) (first next : BitVec 4) :
    shiftInst second first ≠ shiftInst .lsh next := by
  intro same
  have opcode := congrArg EbpfInst.opcode same
  change instClsAlu64 ||| (opOfBin second <<< 4) = instClsAlu64 ||| (opOfBin .lsh <<< 4) at opcode
  rcases right with rfl | rfl
  · exact absurd opcode (by decide)
  · exact absurd opcode (by decide)

/-- Two shifts of a register by 32 have the effect of the instruction that
stands for them. -/
theorem run_pair {second : BinOp} (right : IsRightShift second) (dst : BitVec 4)
    (registers : Reg -> BitVec 64) :
    (shiftBin second dst).run ((shiftBin .lsh dst).run registers) =
      (pairMerged dst second).run registers := by
  rw [Bin.run_run registers (show (shiftBin .lsh dst).dst = (shiftBin second dst).dst from rfl)]
  rcases right with rfl | rfl
  · rw [Bin.run]
    apply congrArg
    simp only [Bin.word, shiftBin, pairMerged, BinOp.result, Value.word, if_true,
      Bool.false_eq_true, if_false, Function.update_self]
    exact ushiftRight_shiftLeft _
  · rw [Bin.run]
    apply congrArg
    simp only [Bin.word, shiftBin, pairMerged, BinOp.result, Value.word, if_true,
      reduceCtorEq, if_false, Function.update_self]
    exact sshiftRight_shiftLeft _

theorem mergedShifts_eq_some {dst : BitVec 4} {second merged : Instruction} :
    mergedShifts (regOf dst) second = some merged ↔
      exists right, IsRightShift right ∧ second = shift32 (regOf dst) right ∧
      merged = .bin (pairMerged dst right) := by
  unfold mergedShifts
  constructor
  · intro run
    split at run
    · rename_i logical
      cases run
      exact ⟨.rsh, Or.inl rfl, logical, rfl⟩
    · split at run
      · rename_i arithmetic
        cases run
        exact ⟨.arsh, Or.inr rfl, arithmetic, rfl⟩
      · cases run
  · rintro ⟨right, rfl | rfl, rfl, rfl⟩
    · rw [if_pos rfl]
      rfl
    · have different : ¬ shift32 (regOf dst) .arsh = shift32 (regOf dst) .rsh := by
        simp [shift32]
      rw [if_neg different, if_pos rfl]
      rfl

/-- What one round of the loop reads. -/
inductive Round (platform : EbpfPlatform) (insts : List EbpfInst) (pc : Nat) (inst : EbpfInst) :
    Instruction -> Nat -> Prop where
  | alone {ins : Instruction} (decoded : decodeAt platform insts pc inst = .ok (ins, 1))
      (notPair : ¬ ShiftPair insts pc) : Round platform insts pc inst ins 1
  | wide {ins : Instruction} {next : EbpfInst}
    (decoded : decodeAt platform insts pc inst = .ok (ins, 2))
      (opcode : inst.opcode = instOpLddwImm) (found : insts[pc + 1]? = some next)
      (zero : next.opcode = 0) :
      Round platform insts pc inst ins 2
  | merged {dst : BitVec 4} {second : BinOp} (right : IsRightShift second)
    (first : inst = shiftInst .lsh dst)
      (found : insts[pc + 1]? = some (shiftInst second dst))
      (decoded : decodeAt platform insts pc inst = .ok (.bin (shiftBin .lsh dst), 1))
      (next : decodeAt platform insts (pc + 1) (shiftInst second dst) = .ok
        (.bin (shiftBin second dst), 1)) :
      Round platform insts pc inst (.bin (pairMerged dst second)) 2

theorem decodeAt_of_alu {ins : Instruction} (alu : isAlu inst = true)
    (made : makeAluOp platform pc inst = .ok ins) :
    decodeAt platform insts pc inst = .ok (ins, 1) := by
  have notLddw : ¬ inst.opcode = instOpLddwImm := by
    intro same
    rw [isAlu, EbpfInst.cls, same] at alu
    exact absurd alu (by decide)
  rw [decodeAt, if_neg notLddw, if_pos alu, made]
  rfl

theorem unmarshalAt_round {ins : Instruction} {slots : Nat} (found : insts[pc]? = some inst)
    (run : unmarshalAt platform insts pc inst = .ok (ins, slots)) :
    Round platform insts pc inst ins slots := by
  rcases bind_eq_ok.mp run with ⟨⟨single, count⟩, decoded, run⟩
  dsimp only at run
  have notAlu : ¬ isAlu inst = true -> ¬ ShiftPair insts pc := by
    rintro other ⟨dst, second, _, first, _⟩
    rw [found, Option.some.injEq] at first
    exact other (first ▸ (isAlu_shiftInst (Or.inl rfl)).1)
  rcases decodeAt_cases decoded with ⟨opcode, rfl, made⟩ | ⟨alu, rfl, made⟩ | ⟨cls, rfl, made⟩ |
    ⟨cls, rfl, made⟩
  · have other : ¬ isAlu inst = true := by
      rw [isAlu, EbpfInst.cls, opcode]
      decide
    rw [if_neg other] at run
    cases run
    rcases makeLddw_spec made with ⟨next, second, form, _⟩
    exact Round.wide decoded opcode second (congrArg EbpfInst.opcode form)
  · rw [if_pos alu] at run
    unfold mergeNext at run
    split at run
    · rename_i last
      cases run
      apply Round.alone decoded
      rintro ⟨dst, second, _, _, found⟩
      rw [last] at found
      cases found
    · rename_i next second
      have notPair : (forall dst right, IsRightShift right -> inst = shiftInst .lsh dst ->
          next ≠ shiftInst right dst) -> ¬ ShiftPair insts pc := by
        rintro different ⟨dst, right, isRight, first, after⟩
        rw [found, Option.some.injEq] at first
        rw [second, Option.some.injEq] at after
        exact different dst right isRight first after
      split at run
      · rename_i notShift
        cases run
        apply Round.alone decoded
        apply notPair
        rintro dst right _ rfl
        exact absurd (makeAluOp_shiftInst (Or.inl rfl) made) notShift
      · rename_i isShift
        have isShift := not_not.mp isShift
        rcases eq_shiftInst (Or.inl rfl) alu (isShift ▸ made) with ⟨first, _⟩
        split at run
        · rename_i not64
          cases run
          apply Round.alone decoded
          apply notPair
          rintro dst right isRight _ rfl
          exact not64 (isAlu_shiftInst (Or.inr isRight)).2
        · rename_i is64
          have nextAlu : isAlu next = true := by
            rw [isAlu, not_not.mp is64]
            decide
          rcases bind_eq_ok.mp run with ⟨shifted, nextMade, run⟩
          split at run
          · rename_i merged isMerged
            cases run
            rcases mergedShifts_eq_some.mp isMerged with ⟨right, isRight, rfl, rfl⟩
            rcases eq_shiftInst (Or.inr isRight) nextAlu nextMade with ⟨form, register⟩
            have same : next.dst = inst.dst := by
              rw [← fieldOf_regOf next.dst, ← register, fieldOf_regOf]
            rw [same] at form
            rw [isShift] at decoded
            apply Round.merged isRight first (form ▸ second) decoded
            rw [← form]
            exact decodeAt_of_alu nextAlu nextMade
          · rename_i notMerged
            cases run
            apply Round.alone decoded
            apply notPair
            rintro dst right isRight rfl rfl
            rw [makeAluOp_shiftInst (Or.inr isRight) nextMade] at notMerged
            have merged : mergedShifts (regOf dst) (.bin (shiftBin right dst)) = some
                (.bin (pairMerged dst right)) :=
              mergedShifts_eq_some.mpr ⟨right, isRight, rfl, rfl⟩
            exact Option.some_ne_none _ (merged.symm.trans notMerged)
  · have other : ¬ isAlu inst = true := by
      rw [isAlu]
      rcases cls with same | same <;> rw [same] <;> decide
    rw [if_neg other] at run
    cases run
    exact Round.alone decoded (notAlu other)
  · have other : ¬ isAlu inst = true := by
      rw [isAlu]
      rcases cls with same | same | same | same <;> rw [same] <;> decide
    rw [if_neg other] at run
    cases run
    exact Round.alone decoded (notAlu other)

end Shifts

/-! ## The sequence -/

/-- A sequence is decoded from a program counter on. -/
inductive Decodes (platform : EbpfPlatform) (insts : List EbpfInst) :
    Nat -> InstructionSeq -> Prop where
  | done {pc : Nat} (past : insts.length ≤ pc) : Decodes platform insts pc []
  | next {pc slots : Nat} {inst : EbpfInst} {ins : Instruction} {rest : InstructionSeq}
      (found : insts[pc]? = some inst) (bound : pc < 2 ^ 31)
      (round : Round platform insts pc inst ins slots)
      (behind : Decodes platform insts (pc + slots) rest) :
      Decodes platform insts pc ((indexLabel pc, ins) :: rest)

section Sequence

variable {platform : EbpfPlatform} {insts : List EbpfInst} {pc : Nat} {prog : InstructionSeq}

theorem Round.slots {inst : EbpfInst} {ins : Instruction} {slots : Nat}
    (round : Round platform insts pc inst ins slots) :
    slots = 1 ∨ (slots = 2 ∧ exists next, insts[pc + 1]? = some next ∧ (next.opcode = 0 ∨
      exists dst second, IsRightShift second ∧ next = shiftInst second dst ∧
      inst = shiftInst .lsh dst)) := by
  cases round with
  | alone decoded notPair => exact Or.inl rfl
  | wide decoded opcode found zero => exact Or.inr ⟨rfl, _, found, Or.inl zero⟩
  | merged right first found decoded next => exact Or.inr ⟨rfl, _, found,
    Or.inr ⟨_, _, right, rfl, first⟩⟩

theorem drop_cons {at_ : Nat} {first : EbpfInst} {rest : List EbpfInst}
    (suffix : first :: rest = insts.drop at_) :
    insts[at_]? = some first ∧ rest = insts.drop (at_ + 1) := by
  constructor
  · have head := congrArg List.head? suffix
    rw [List.head?_cons, List.head?_drop] at head
    exact head.symm
  · rw [← List.tail_drop, ← suffix, List.tail_cons]

theorem unmarshalFrom_decodes {rest : List EbpfInst} (suffix : rest = insts.drop pc)
    (run : unmarshalFrom platform insts rest pc = .ok prog) : Decodes platform insts pc prog := by
  fun_induction unmarshalFrom platform insts rest pc generalizing prog with
  | case1 pc =>
      cases run
      exact Decodes.done (List.drop_eq_nil_iff.mp suffix.symm)
  | case2 inst rest pc afterOne afterTwo =>
      rcases drop_cons suffix with ⟨found, behind⟩
      rcases bind_eq_ok.mp run with ⟨⟨ins, slots⟩, read, run⟩
      rcases bind_eq_ok.mp run with ⟨label, labelled, run⟩
      have isLabel : pc < 2 ^ 31 ∧ indexLabel pc = label := by
        unfold labelOf at labelled
        split at labelled
        · rename_i small
          cases labelled
          exact ⟨small, rfl⟩
        · cases labelled
      have round := unmarshalAt_round found read
      rcases round.slots with rfl | ⟨rfl, next, second, _⟩
      · rw [if_pos rfl] at run
        rcases bind_eq_ok.mp run with ⟨later, decoded, same⟩
        cases same
        rw [← isLabel.2]
        exact Decodes.next found isLabel.1 round (afterOne behind decoded)
      · rw [if_neg (by decide)] at run
        cases rest with
        | nil =>
            have bound := (List.getElem?_eq_some_iff.mp second).1
            have past := List.drop_eq_nil_iff.mp behind.symm
            omega
        | cons next rest =>
            rcases bind_eq_ok.mp run with ⟨later, decoded, same⟩
            cases same
            rw [← isLabel.2]
            exact Decodes.next found isLabel.1 round (afterTwo (drop_cons behind).2 decoded)

theorem decodes_of_unmarshal (run : unmarshal platform insts = .ok prog) :
    insts ≠ [] ∧ Decodes platform insts 0 prog := by
  unfold unmarshal at run
  split at run
  · exact absurd run (throw_ne_ok _ _)
  · rename_i nonempty
    exact ⟨nonempty, unmarshalFrom_decodes rfl run⟩

namespace Decodes

/-- An entry of the sequence is what one round of the loop reads. -/
theorem of_suffix {label : Label} {ins : Instruction} {rest : InstructionSeq}
    (decodes : Decodes platform insts pc prog) (suffix : (label, ins) :: rest <:+ prog) :
    exists at_ inst slots, pc ≤ at_ ∧ label = indexLabel at_ ∧ insts[at_]? = some inst ∧
      Round platform insts at_ inst ins slots ∧ Decodes platform insts (at_ + slots) rest := by
  induction decodes with
  | done past => exact absurd (List.suffix_nil.mp suffix) (List.cons_ne_nil _ _)
  | @next pc slots inst ins rest found small round behind inductionHypothesis =>
      rcases List.suffix_cons_iff.mp suffix with same | later
      · cases same
        exact ⟨pc, inst, slots, le_rfl, rfl, found, round, behind⟩
      · rcases inductionHypothesis later with ⟨at_, inst, slots, after, found⟩
        exact ⟨at_, inst, slots, by omega, found⟩

/-- The labels are program counters from the first one on. -/
theorem le_of_mem {at_ : Nat} (decodes : Decodes platform insts pc prog)
    (member : indexLabel at_ ∈ prog.map Prod.fst) :
    pc ≤ at_ := by
  rcases List.mem_map.mp member with ⟨⟨label, ins⟩, inProg, same⟩
  rcases List.append_of_mem inProg with ⟨before, rest, rfl⟩
  rcases decodes.of_suffix (List.suffix_append before _) with ⟨found, _, _, after, isLabel, _⟩
  rw [isLabel] at same
  exact indexLabel_injective same ▸ after

/-- The labels are small enough for an `int`. -/
theorem lt_of_mem {at_ : Nat} (decodes : Decodes platform insts pc prog)
    (member : indexLabel at_ ∈ prog.map Prod.fst) : at_ < 2 ^ 31 := by
  induction decodes with
  | done past => cases member
  | next found small round behind inductionHypothesis =>
      rcases List.mem_cons.mp member with same | later
      · exact indexLabel_injective same ▸ small
      · exact inductionHypothesis later

/-- A program counter is that of an entry, or that of its second slot. -/
theorem covers {at_ : Nat} (decodes : Decodes platform insts pc prog) (after : pc ≤ at_)
    (bound : at_ < insts.length) :
    exists before ins rest, (indexLabel before, ins) :: rest <:+ prog ∧
      (before = at_ ∨ exists inst, before + 1 = at_ ∧ insts[before]? = some inst ∧
        Round platform insts before inst ins 2) := by
  induction decodes with
  | done past => omega
  | @next pc slots inst ins rest found small round behind inductionHypothesis =>
      rcases Nat.lt_or_ge at_ (pc + slots) with here | later
      · refine ⟨pc, ins, rest, List.suffix_rfl, ?_⟩
        rcases round.slots with rfl | ⟨rfl, _⟩
        · exact Or.inl (by omega)
        · rcases Nat.eq_or_lt_of_le after with same | second
          · exact Or.inl same
          · exact Or.inr ⟨inst, by omega, found, round⟩
      · rcases inductionHypothesis later with ⟨before, ins, rest, suffix, form⟩
        exact ⟨before, ins, rest, suffix.trans (List.suffix_cons _ _), form⟩

/-- The second shift of a pair has no label. -/
theorem not_mem_second {at_ : Nat} (decodes : Decodes platform insts pc prog) (after : pc ≤ at_)
    (pair : ShiftPair insts at_) : indexLabel (at_ + 1) ∉ prog.map Prod.fst := by
  induction decodes with
  | done past => exact List.not_mem_nil
  | @next pc slots inst ins rest found small round behind inductionHypothesis =>
      rw [List.map_cons, List.mem_cons, not_or]
      refine ⟨fun same => absurd (indexLabel_injective same) (by omega), ?_⟩
      rcases Nat.eq_or_lt_of_le after with rfl | later
      · intro member
        have two : slots = 2 := by
          cases round with
          | alone decoded notPair => exact absurd pair notPair
          | wide decoded opcode found zero => rfl
          | merged right first found decoded next => rfl
        have bound := behind.le_of_mem member
        omega
      · apply inductionHypothesis
        rcases round.slots with rfl | ⟨rfl, next, second, form⟩
        · omega
        · have notSecond : at_ ≠ pc + 1 := by
            rintro rfl
            rcases pair with ⟨dst, _, _, first, _⟩
            rw [second, Option.some.injEq] at first
            rcases form with zero | ⟨other, right, isRight, rfl, _⟩
            · rw [first] at zero
              change instClsAlu64 ||| (opOfBin .lsh <<< 4) = 0 at zero
              exact absurd zero (by decide)
            · exact shiftInst_ne isRight other dst first
          omega

theorem place_eq (decodes : Decodes platform insts pc prog) : place prog = placeAt insts pc := by
  unfold placeAt
  cases decodes with
  | done past => rw [if_neg (by omega), place]
  | next found _ round behind =>
      rw [if_pos (List.getElem?_eq_some_iff.mp found).1, place]

/-- A raw jump is an entry of the sequence. -/
theorem jump_mem {at_ target : Nat} {inst : EbpfInst} (decodes : Decodes platform insts 0 prog)
    (found : insts[at_]? = some inst) (jump : jumpTarget? at_ inst = some target) :
    exists label ins, (label, ins) ∈ prog ∧ ins.target? = some (indexLabel target) := by
  have bound := (List.getElem?_eq_some_iff.mp found).1
  have notShift : forall op dst, op = .lsh ∨ IsRightShift op -> inst ≠ shiftInst op dst := by
    rintro op dst shift rfl
    have is64 := (@isAlu_shiftInst op dst shift).2
    rw [jumpTarget?, is64, if_neg (by decide)] at jump
    cases jump
  have notLd : forall code, inst.opcode = code -> code &&& instClsMask = instClsLd -> False := by
    intro code same isLd
    rw [jumpTarget?, EbpfInst.cls, same, isLd, if_neg (by decide)] at jump
    cases jump
  rcases decodes.covers (Nat.zero_le at_) bound with
    ⟨before, ins, rest, suffix, rfl | ⟨first, rfl, _, round⟩⟩
  · rcases decodes.of_suffix suffix with ⟨pc, same, slots, _, label, atFound, round, _⟩
    rw [← indexLabel_injective label, found, Option.some.injEq] at atFound
    subst atFound
    refine ⟨_, ins, suffix.subset List.mem_cons_self, ?_⟩
    rw [← indexLabel_injective label] at round
    cases round with
    | alone decoded notPair => rw [(decodeAt_target decoded).1, jump, Option.map_some]
    | wide decoded opcode _ _ => exact absurd (by decide) (fun isLd => notLd _ opcode isLd)
    | merged right first _ _ _ => exact absurd first (notShift .lsh _ (Or.inl rfl))
  · rcases round.slots with impossible | ⟨_, next, second, zero | ⟨dst, right, isRight, rfl, _⟩⟩
    · cases impossible
    · rw [found, Option.some.injEq] at second
      exact absurd (by decide) (fun isLd => notLd _ (second ▸ zero) isLd)
    · rw [found, Option.some.injEq] at second
      exact absurd second (notShift right dst (Or.inr isRight))

/-- A target that is not the second shift of a pair has a label. -/
theorem target_mem {target : Nat} {next : EbpfInst} (decodes : Decodes platform insts 0 prog)
    (found : insts[target]? = some next) (nonzero : next.opcode ≠ 0)
    (notSecond : forall pc, target = pc + 1 -> ¬ ShiftPair insts pc) :
    indexLabel target ∈ prog.map Prod.fst := by
  have bound := (List.getElem?_eq_some_iff.mp found).1
  rcases decodes.covers (Nat.zero_le target) bound with
    ⟨before, ins, rest, suffix, rfl | ⟨first, rfl, isFirst, round⟩⟩
  · exact List.mem_map.mpr ⟨_, suffix.subset List.mem_cons_self, rfl⟩
  · exfalso
    rcases round.slots with impossible |
      ⟨_, second, isSecond, zero | ⟨dst, right, isRight, rfl, rfl⟩⟩
    · cases impossible
    · rw [found, Option.some.injEq] at isSecond
      exact nonzero (isSecond ▸ zero)
    · exact notSecond before rfl ⟨dst, right, isRight, isFirst, isSecond⟩

end Decodes

end Sequence

/-! ## The condition -/

/-- No jump or local call goes to the second shift of a pair. -/
def NoJumpIntoPair (insts : List EbpfInst) : Prop :=
  forall pc inst target, insts[pc]? = some inst -> jumpTarget? pc inst = some (target + 1) ->
    ¬ ShiftPair insts target

section Behaviour

variable {platform : EbpfPlatform} {insts : List EbpfInst} {prog : InstructionSeq}

theorem targets_of_noJumpIntoPair (decodes : Decodes platform insts 0 prog)
    (noJump : NoJumpIntoPair insts)
    {label target : Label} {ins : Instruction} (member : (label, ins) ∈ prog)
    (isTarget : ins.target? = some target) :
    target ∈ prog.map Prod.fst := by
  rcases List.append_of_mem member with ⟨before, rest, rfl⟩
  rcases decodes.of_suffix (List.suffix_append before _) with
    ⟨pc, inst, slots, _, _, found, round, _⟩
  have decoded : forall slots, decodeAt platform insts pc inst = .ok (ins, slots) ->
      target ∈ (before ++ (label, ins) :: rest).map Prod.fst := by
    intro slots run
    rcases decodeAt_target run with ⟨reads, valid⟩
    rw [reads] at isTarget
    rcases Option.map_eq_some_iff.mp isTarget with ⟨index, jump, rfl⟩
    rcases valid index jump with ⟨next, nextFound, nonzero⟩
    apply decodes.target_mem nextFound nonzero
    rintro second rfl
    exact noJump pc inst second found jump
  cases round with
  | alone run _ => exact decoded _ run
  | wide run _ _ _ => exact decoded _ run
  | merged => cases isTarget

section Steps

variable {Rest : Type} {other : Instruction -> RegisterState Rest -> RegisterState Rest -> Prop}
  {current after next : Configuration (RegisterState Rest)}

/-- A step of the sequence leaves labels of the sequence. -/
theorem keeps_of_executes {label : Label} {ins : Instruction} {rest : InstructionSeq}
    (targets : forall target, ins.target? = some target -> target ∈ prog.map Prod.fst)
    (suffix : (label, ins) :: rest <:+ prog) (keeps : prog.Keeps current)
    (executes : (arithmeticMachine other).Executes ins (place rest) current after) :
    prog.Keeps after := by
  intro found member target same
  rcases Machine.executes_labels _ executes member with rfl | rfl | rfl | kept
  · cases same
  · exact targets target same
  · cases rest with
    | nil => cases same
    | cons entry rest =>
        cases same
        exact List.mem_map.mpr ⟨entry, suffix.subset (List.mem_cons_of_mem _ List.mem_cons_self),
          rfl⟩
  · exact keeps found (List.mem_cons_of_mem _ kept) target same

/-- The steps of a raw program from a label of the sequence. -/
theorem decodedStep_iff {pc slots : Nat} {inst : EbpfInst} {ins : Instruction}
    (found : insts[pc]? = some inst) (decoded : decodeAt platform insts pc inst = .ok (ins, slots))
    (place : current.place = some (indexLabel pc)) :
    DecodedStep platform (arithmeticMachine other) insts current after ↔
      (arithmeticMachine other).Executes ins (placeAt insts (pc + slots)) current after := by
  constructor
  · rintro ⟨at_, atInst, atIns, atSlots, atPlace, atFound, atDecoded, executes⟩
    rw [place, Option.some.injEq] at atPlace
    rw [← indexLabel_injective atPlace] at atFound atDecoded executes
    rw [found, Option.some.injEq] at atFound
    rw [← atFound, decoded] at atDecoded
    cases atDecoded
    exact executes
  · intro executes
    exact ⟨pc, inst, ins, slots, place, found, decoded, executes⟩

/-- From a label of the sequence, the raw program leads where the entry goes. -/
theorem leads_iff_executes (decodes : Decodes platform insts 0 prog) (noJump : NoJumpIntoPair insts)
    {label : Label} {ins : Instruction} {rest : InstructionSeq}
    (isPlace : current.place = some label)
    (suffix : (label, ins) :: rest <:+ prog) (keeps : prog.Keeps current)
    (visible : prog.Keeps next) :
    Leads (DecodedStep platform (arithmeticMachine other) insts) prog.kept current next ↔
      (arithmeticMachine other).Executes ins (place rest) current next := by
  rcases decodes.of_suffix suffix with ⟨pc, inst, slots, _, rfl, found, round, behind⟩
  have targets : forall target, ins.target? = some target -> target ∈ prog.map Prod.fst :=
    fun target =>
    targets_of_noJumpIntoPair decodes noJump (suffix.subset List.mem_cons_self)
  have visible : prog.kept next ≠ none :=
    fun hidden => InstructionSeq.kept_eq_none.mp hidden visible
  have plain : decodeAt platform insts pc inst = .ok (ins, slots) ->
      (Leads (DecodedStep platform (arithmeticMachine other) insts) prog.kept current next ↔
        (arithmeticMachine other).Executes ins (place rest) current next) := by
    intro decoded
    have steps := fun after => @decodedStep_iff platform insts Rest other current after pc slots
      inst ins found decoded isPlace
    rw [behind.place_eq, ← steps next]
    apply leads_iff_of_shown
    intro after taken hidden
    rw [steps after, ← behind.place_eq] at taken
    exact InstructionSeq.kept_eq_none.mp hidden (keeps_of_executes targets suffix keeps taken)
  cases round with
  | alone decoded _ => exact plain decoded
  | wide decoded _ _ _ => exact plain decoded
  | @merged dst second right first secondFound decoded secondDecoded =>
      have bound := (List.getElem?_eq_some_iff.mp secondFound).1
      have pair : ShiftPair insts pc := ⟨dst, second, right, first ▸ found, secondFound⟩
      have between : placeAt insts (pc + 1) = some (indexLabel (pc + 1)) := if_pos bound
      let middle : Configuration (RegisterState Rest) :=
        ⟨some (indexLabel (pc + 1)), current.returns,
          ((shiftBin .lsh dst).run current.state.1, current.state.2)⟩
      have only : forall after, DecodedStep platform (arithmeticMachine other) insts current after ↔
          after = middle := by
        intro after
        rw [decodedStep_iff found decoded isPlace, executes_bin, between]
      have hidden : prog.kept middle = none := by
        rw [InstructionSeq.kept_eq_none]
        intro kept
        exact decodes.not_mem_second (Nat.zero_le pc) pair
          (kept _ List.mem_cons_self (indexLabel (pc + 1)) rfl)
      have steps : forall after, DecodedStep platform (arithmeticMachine other) insts middle after ↔
          (arithmeticMachine other).Executes (.bin (pairMerged dst second))
          (place rest) current after := by
        intro after
        rw [decodedStep_iff secondFound secondDecoded rfl, executes_bin, executes_bin,
          behind.place_eq]
        dsimp only [middle]
        rw [run_pair right]
      rw [leads_iff_of_hidden only hidden visible, ← steps next]
      apply leads_iff_of_shown
      intro after taken
      rw [steps after] at taken
      intro isHidden
      exact InstructionSeq.kept_eq_none.mp isHidden (keeps_of_executes targets suffix keeps taken)

theorem collapses_of_noJumpIntoPair (decodes : Decodes platform insts 0 prog)
    (noJump : NoJumpIntoPair insts) :
    Collapses (prog.CallStep (arithmeticMachine other))
    (DecodedStep platform (arithmeticMachine other) insts) prog.kept where
  answers := by
    intro before after current visible taken
    rcases InstructionSeq.kept_eq_some.mp visible with ⟨keeps, rfl⟩
    rcases taken with ⟨label, ins, rest, isPlace, suffix, executes⟩
    have kept : prog.Keeps after := keeps_of_executes
      (fun target => targets_of_noJumpIntoPair decodes noJump (suffix.subset List.mem_cons_self))
      suffix keeps executes
    refine ⟨after, ?_, InstructionSeq.kept_eq_some.mpr ⟨kept, rfl⟩⟩
    exact (leads_iff_executes decodes noJump isPlace suffix keeps kept).mpr executes
  follows := by
    intro before after current next visible leads nextVisible
    rcases InstructionSeq.kept_eq_some.mp visible with ⟨keeps, rfl⟩
    rcases InstructionSeq.kept_eq_some.mp nextVisible with ⟨kept, rfl⟩
    have placed : exists label, current.place = some label := by
      rcases leads with ⟨middle, path, last⟩
      rcases path.cases_head with rfl | ⟨_, ⟨taken, _⟩, _⟩
      · rcases last with ⟨pc, _, _, _, isPlace, _⟩
        exact ⟨_, isPlace⟩
      · rcases taken with ⟨pc, _, _, _, isPlace, _⟩
        exact ⟨_, isPlace⟩
    rcases placed with ⟨label, isPlace⟩
    rcases List.mem_map.mp (keeps _ List.mem_cons_self label isPlace) with ⟨⟨_, ins⟩, member, same⟩
    dsimp only at same
    subst same
    rcases List.append_of_mem member with ⟨front, rest, isProg⟩
    have suffix : (_, ins) :: rest <:+ prog := isProg ▸ List.suffix_append front _
    exact ⟨_, ins, rest, isPlace, suffix,
      (leads_iff_executes decodes noJump isPlace suffix keeps kept).mp leads⟩

end Steps

/-- A slot of an accepted program is decoded by itself, or it is the second one of a
`lddw`. -/
theorem Decodes.slot_cases {at_ : Nat} {inst : EbpfInst} (decodes : Decodes platform insts 0 prog)
    (found : insts[at_]? = some inst) : inst.opcode = 0 ∨
      ((inst.cls = instClsJmp32 ∨ inst.cls = instClsJmp -> at_ < 2 ^ 31) ∧
        exists ins slots, decodeAt platform insts at_ inst = .ok (ins, slots)) := by
  have bound := (List.getElem?_eq_some_iff.mp found).1
  rcases decodes.covers (Nat.zero_le at_) bound with
    ⟨before, ins, rest, suffix, rfl | ⟨first, rfl, isFirst, round⟩⟩
  · right
    have small := decodes.lt_of_mem (List.mem_map.mpr ⟨_, suffix.subset List.mem_cons_self, rfl⟩)
    rcases decodes.of_suffix suffix with ⟨pc, same, slots, _, label, atFound, round, _⟩
    rw [← indexLabel_injective label] at atFound round
    obtain rfl : inst = same := Option.some.inj (found.symm.trans atFound)
    refine ⟨fun _ => small, ?_⟩
    cases round with
    | alone decoded _ => exact ⟨_, _, decoded⟩
    | wide decoded _ _ _ => exact ⟨_, _, decoded⟩
    | merged _ _ _ decoded _ => exact ⟨_, _, decoded⟩
  · cases round with
    | wide _ _ second zero =>
        obtain rfl := Option.some.inj (found.symm.trans second)
        exact Or.inl zero
    | merged right _ second _ decoded =>
        obtain rfl := Option.some.inj (found.symm.trans second)
        refine Or.inr ⟨?_, _, _, decoded⟩
        rw [(isAlu_shiftInst (Or.inr right)).2]
        intro isJump
        exact absurd isJump (by decide)

/-- No slot stores 8 bytes of a negative immediate. -/
def NoNegativeStore (insts : List EbpfInst) : Prop := ∀ inst ∈ insts, ¬ StoresNegative inst

instance (insts : List EbpfInst) : Decidable (NoNegativeStore insts) :=
  inferInstanceAs (Decidable (∀ inst ∈ insts, ¬ StoresNegative inst))

/-- The slots of an accepted program do what they are decoded to. -/
theorem rawStep_eq_decodedStep (decodes : Decodes platform insts 0 prog)
    (noStore : NoNegativeStore insts) {Rest : Type} (env : Environment Rest) :
    env.RawStep insts = DecodedStep platform env.machine insts := by
  funext current after
  apply propext
  constructor
  · rintro ⟨pc, inst, place, found, performs⟩
    rcases decodes.slot_cases found with zero | ⟨small, ins, slots, decoded⟩
    · exact absurd performs (not_performs_of_zero zero)
    · refine ⟨pc, inst, ins, slots, place, found, decoded, ?_⟩
      exact (performs_iff_executes small (noStore inst (List.mem_of_getElem? found)) decoded).mp
        performs
  · rintro ⟨pc, inst, ins, slots, place, found, decoded, executes⟩
    rcases decodes.slot_cases found with zero | ⟨small, _⟩
    · exact absurd decoded (decodeAt_ne_of_zero zero)
    · refine ⟨pc, inst, place, found, ?_⟩
      exact (performs_iff_executes small (noStore inst (List.mem_of_getElem? found)) decoded).mpr
        executes

theorem Decodes.storeImm_entry {pc : Nat} {inst : EbpfInst} {ins : Instruction}
    {rest : InstructionSeq} (decodes : Decodes platform insts 0 prog)
    (found : insts[pc]? = some inst) (opcode : inst.opcode = 0x7a)
    (suffix : (indexLabel pc, ins) :: rest <:+ prog) :
    ins = .mem ⟨accessOf inst inst.dst, .imm ⟨zeroExtend inst.imm⟩, false⟩ ∧
      place rest = placeAt insts (pc + 1) := by
  rcases decodes.of_suffix suffix with ⟨at_, other, slots, _, label, atFound, round, behind⟩
  rw [← indexLabel_injective label] at atFound round behind
  obtain rfl : inst = other := Option.some.inj (found.symm.trans atFound)
  cases round with
  | alone decoded _ => exact ⟨decodeAt_storeImm opcode decoded, behind.place_eq⟩
  | wide _ lddw _ _ => exact absurd (opcode.symm.trans lddw) (by decide)
  | merged _ first _ _ _ =>
      rw [first] at opcode
      change instClsAlu64 ||| (opOfBin .lsh <<< 4) = 0x7a at opcode
      exact absurd opcode (by decide)

/-- A sequence with the executions of its program stores no negative immediate of 8
bytes, since it would store another word. -/
theorem noNegativeStore_of_preserves (decodes : Decodes platform insts 0 prog)
    (preserves : Preserves insts prog) : NoNegativeStore insts := by
  rintro inst member stores
  rcases List.mem_iff_getElem?.mp member with ⟨pc, found⟩
  have opcode := stores.1
  rcases decodes.covers (Nat.zero_le pc) (List.getElem?_eq_some_iff.mp found).1 with
    ⟨before, ins, rest, suffix, rfl | ⟨first, rfl, isFirst, round⟩⟩
  · let start : Configuration (RegisterState (BitVec 64)) :=
      ⟨some (indexLabel before), [], (fun _ => 0, 0)⟩
    let stored : Configuration (RegisterState (BitVec 64)) :=
      ⟨placeAt insts (before + 1), [], (fun _ => 0, lowBytes 8 (inst.imm.signExtend 64))⟩
    have keepsStart : prog.Keeps start := by
      rintro found member label same
      cases List.mem_singleton.mp member
      cases same
      exact List.mem_map.mpr ⟨_, suffix.subset List.mem_cons_self, rfl⟩
    have keepsStored : prog.Keeps stored := by
      rintro behind member label same
      cases List.mem_singleton.mp member
      have same : placeAt insts (before + 1) = some label := same
      rw [← (decodes.storeImm_entry found opcode suffix).2] at same
      cases rest with
      | nil => cases same
      | cons entry rest =>
          cases same
          exact List.mem_map.mpr
            ⟨entry, suffix.subset (List.mem_cons_of_mem _ List.mem_cons_self), rfl⟩
    have raw : Execution (lastStored.RawStep insts) start [start, stored] stored :=
      .next .here ⟨before, inst, rfl, found, performs_storeImm opcode [] _⟩
    have shown : [start, stored].filterMap prog.kept = [start, stored] := by
      rw [List.filterMap_cons, InstructionSeq.kept_eq_some.mpr ⟨keepsStart, rfl⟩,
        List.filterMap_cons, InstructionSeq.kept_eq_some.mpr ⟨keepsStored, rfl⟩,
        List.filterMap_nil]
    rcases (preserves.executions _ lastStored start keepsStart [start, stored]).mpr
      ⟨_, _, raw, shown⟩ with ⟨last, execution⟩
    rcases execution.of_pair with ⟨label, ins, rest, isPlace, suffix, executes⟩
    cases isPlace
    rcases decodes.storeImm_entry found opcode suffix with ⟨rfl, behind⟩
    rw [behind] at executes
    exact not_executes_storeImm stores executes
  · rcases round.slots with impossible | ⟨_, next, second, zero | ⟨dst, right, isRight, rfl, _⟩⟩
    · cases impossible
    · obtain rfl := Option.some.inj (found.symm.trans second)
      exact absurd (opcode.symm.trans zero) (by decide)
    · obtain rfl := Option.some.inj (found.symm.trans second)
      have cls := (@isAlu_shiftInst right dst (Or.inr isRight)).2
      rw [EbpfInst.cls, opcode] at cls
      exact absurd cls (by decide)

/-- Decoding preserves the behaviour of exactly those programs that do not jump to
the second shift of a pair and do not store 8 bytes of a negative immediate. -/
theorem unmarshal_preserves_iff (run : unmarshal platform insts = .ok prog) :
    Preserves insts prog ↔ NoJumpIntoPair insts ∧ NoNegativeStore insts := by
  rcases decodes_of_unmarshal run with ⟨_, decodes⟩
  constructor
  · intro preserves
    refine ⟨?_, noNegativeStore_of_preserves decodes preserves⟩
    intro pc inst target found jump pair
    rcases decodes.jump_mem found jump with ⟨label, ins, member, isTarget⟩
    exact decodes.not_mem_second (Nat.zero_le target) pair
      (preserves.targets label ins _ member isTarget)
  · rintro ⟨noJump, noStore⟩
    refine { targets := fun _ _ _ => targets_of_noJumpIntoPair decodes noJump, executions := ?_ }
    intro Rest env start keeps trace
    rw [rawStep_eq_decodedStep decodes noStore env]
    exact (collapses_of_noJumpIntoPair decodes noJump).executions_iff
      (InstructionSeq.kept_eq_some.mpr ⟨keeps, rfl⟩) trace

end Behaviour

/-! ## A pair of shifts and a jump -/

/-- `r1 <<= 32; r1 >>= 32; exit` behind a conditional jump over `offset`
slots. -/
def shiftProgram (offset : BitVec 16) : List EbpfInst :=
  [{ opcode := 0x15, dst := 1, offset := offset }, shiftInst .lsh 1, shiftInst .rsh 1,
    { opcode := instOpExit }]

/-- `shiftProgram`, decoded. -/
def shiftSeq (target : Nat) : InstructionSeq :=
  [(indexLabel 0, .jmp ⟨some ⟨.eq, ⟨1⟩, .imm ⟨0⟩, true⟩, indexLabel target⟩),
    (indexLabel 1, .bin ⟨.mov, ⟨1⟩, .reg ⟨1⟩, false, false⟩), (indexLabel 3, .exit ⟨[]⟩)]

theorem jumpTarget_shiftProgram {pc target : Nat} {inst : EbpfInst}
    (found : (shiftProgram 2)[pc]? = some inst) (jump : jumpTarget? pc inst = some target) :
    pc = 0 ∧ target = 3 := by
  rcases pc with _ | _ | _ | _ | pc
  · cases found
    have goes : jumpTarget? 0 { opcode := 0x15, dst := 1, offset := 2 } = some 3 := by decide
    exact ⟨rfl, Option.some.inj (jump.symm.trans goes)⟩
  · cases found
    have nowhere : jumpTarget? 1 (shiftInst .lsh 1) = none := by decide
    exact absurd (jump.symm.trans nowhere) (Option.some_ne_none _)
  · cases found
    have nowhere : jumpTarget? 2 (shiftInst .rsh 1) = none := by decide
    exact absurd (jump.symm.trans nowhere) (Option.some_ne_none _)
  · cases found
    have nowhere : jumpTarget? 3 { opcode := instOpExit } = none := by decide
    exact absurd (jump.symm.trans nowhere) (Option.some_ne_none _)
  · cases found

/-- A jump behind the pair is preserved. -/
theorem preserves_shiftProgram : Preserves (shiftProgram 2) (shiftSeq 3) := by
  have decoded : unmarshal allGroups (shiftProgram 2) = .ok (shiftSeq 3) := rfl
  refine (unmarshal_preserves_iff decoded).mpr ⟨?_, by decide⟩
  rintro pc inst target found jump ⟨dst, right, isRight, first, _⟩
  obtain rfl : target = 2 := by
    have goes := (jumpTarget_shiftProgram found jump).2
    omega
  exact shiftInst_ne (Or.inl rfl) 1 dst (Option.some.inj first)

/-- `*(u64 *)(r1 + 0) = imm; exit`. -/
def storeProgram (imm : BitVec 32) : List EbpfInst :=
  [{ opcode := 0x7a, dst := 1, imm := imm }, { opcode := instOpExit }]

/-- `storeProgram`, decoded. -/
def storeSeq (imm : BitVec 32) : InstructionSeq :=
  [(indexLabel 0, .mem ⟨⟨8, ⟨1⟩, 0⟩, .imm ⟨zeroExtend imm⟩, false⟩), (indexLabel 1, .exit ⟨[]⟩)]

/-- A jump to the second shift of a pair is accepted, but has no label to go to.  A
store of -1 is accepted, but stores `0xffffffff`. -/
theorem not_preserves_shiftProgram :
    (unmarshal allGroups (shiftProgram 1) = .ok (shiftSeq 2) ∧
      ¬ Preserves (shiftProgram 1) (shiftSeq 2)) ∧
    (unmarshal allGroups (storeProgram (-1)) = .ok (storeSeq (-1)) ∧
      ¬ Preserves (storeProgram (-1)) (storeSeq (-1))) := by
  have decoded : unmarshal allGroups (storeProgram (-1)) = .ok (storeSeq (-1)) := rfl
  refine ⟨⟨rfl, ?_⟩, decoded, ?_⟩
  · intro preserves
    have labelled := preserves.targets _ _ (indexLabel 2) List.mem_cons_self rfl
    exact absurd labelled (by decide)
  · intro preserves
    have noStore := noNegativeStore_of_preserves (decodes_of_unmarshal decoded).2 preserves
    exact absurd noStore (by decide)

end Unmarshaller
end Prevail
