import Prevail.Asm.Execution

namespace Prevail

/-!
# Arithmetic instructions

What a binary operation leaves in its register.  An operation on 32 bits reads
the low halves of its operands and clears the upper half of its register.  A
division by zero is zero, a remainder by zero is the dividend, and a shift reads
its amount modulo the width.
-/

/-- The result of an operation on words of one width. -/
def BinOp.result {width : Nat} (op : BinOp) (dst v : BitVec width) : BitVec width :=
  match op with
  | .mov => v
  | .add => dst + v
  | .sub => dst - v
  | .mul => dst * v
  | .udiv => dst / v
  | .umod => dst % v
  | .or => dst ||| v
  | .and => dst &&& v
  | .lsh => dst <<< (v.toNat % width)
  | .rsh => dst >>> (v.toNat % width)
  | .arsh => dst.sshiftRight (v.toNat % width)
  | .xor => dst ^^^ v
  | .sdiv => dst.sdiv v
  | .smod => dst.srem v
  | .movsx8 => (v.setWidth 8).signExtend width
  | .movsx16 => (v.setWidth 16).signExtend width
  | .movsx32 => (v.setWidth 32).signExtend width

/-- A word of 64 bits that an operation on the low bits of its operands leaves. -/
def BinOp.resultWord (op : BinOp) (finiteWidth : Nat) (dst v : BitVec 64) : BitVec 64 :=
  (op.result (dst.setWidth finiteWidth) (v.setWidth finiteWidth)).setWidth 64

namespace Bin

/-- The word that an operation leaves in its register. -/
def word (ins : Bin) (registers : Reg -> BitVec 64) : BitVec 64 :=
  if ins.is64 then ins.op.result (registers ins.dst) (ins.v.word registers)
  else (ins.op.result ((registers ins.dst).setWidth 32)
    ((ins.v.word registers).setWidth 32)).setWidth 64

theorem word_eq (ins : Bin) (registers : Reg -> BitVec 64) : ins.word registers =
    ins.op.resultWord (if ins.is64 then 64 else 32) (registers ins.dst) (ins.v.word registers) := by
  rw [Bin.word]
  split <;> simp [BinOp.resultWord]

/-- The registers behind an operation. -/
def run (ins : Bin) (registers : Reg -> BitVec 64) : Reg -> BitVec 64 :=
  Function.update registers ins.dst (ins.word registers)

/-- Two operations on one register leave the word of the second one. -/
theorem run_run {first second : Bin} (registers : Reg -> BitVec 64)
    (same : first.dst = second.dst) :
    second.run (first.run registers) = Function.update registers second.dst
      (second.word (first.run registers)) := by
  rw [run, run, same, Function.update_idem]

end Bin

/-- A state of a machine: its registers, and whatever else it has. -/
abbrev RegisterState (Rest : Type) := (Reg -> BitVec 64) × Rest

/-- A machine that performs the arithmetic, and whose other instructions are
left open. -/
def arithmeticMachine {Rest : Type}
    (other : Instruction -> RegisterState Rest -> RegisterState Rest -> Prop) :
    Machine (RegisterState Rest) where
  registers := Prod.fst
  effect ins state after :=
    match ins with
    | .bin ins => after = (ins.run state.1, state.2)
    | ins => other ins state after

/-! ## A pair of shifts by 32 -/

theorem ushiftRight_shiftLeft (word : BitVec 64) :
    (word <<< 32) >>> 32 = (word.setWidth 32).setWidth 64 := by
  apply BitVec.eq_of_getLsbD_eq
  intro index inWord
  rw [BitVec.getLsbD_ushiftRight, BitVec.getLsbD_shiftLeft, BitVec.getLsbD_setWidth,
    BitVec.getLsbD_setWidth]
  by_cases low : index < 32
  · simp [low, inWord, show 32 + index < 64 by omega]
  · simp [low, show ¬ 32 + index < 64 by omega]

/-- A shift to the left by 32 and an arithmetic one back to the right extend
the sign of the lower half. -/
theorem sshiftRight_shiftLeft (word : BitVec 64) :
    (word <<< 32).sshiftRight 32 = (word.setWidth 32).signExtend 64 := by
  apply BitVec.eq_of_getLsbD_eq
  intro index inWord
  rw [BitVec.getLsbD_sshiftRight, BitVec.getLsbD_signExtend, BitVec.getLsbD_shiftLeft,
    BitVec.getLsbD_setWidth, BitVec.msb_shiftLeft, BitVec.msb_setWidth]
  by_cases low : index < 32
  · simp [low, inWord, show 32 + index < 64 by omega, show ¬ 64 ≤ index by omega]
  · simp [low, inWord, show ¬ 32 + index < 64 by omega, show ¬ 64 ≤ index by omega, BitVec.getMsbD]

end Prevail
