import Prevail.Asm.Syntax

namespace Prevail

/-!
# The execution of an instruction sequence

What a machine does with a sequence of instructions.  The effect of an
instruction on the rest of the machine is left open: control flow only asks
when a condition holds, and where an instruction goes.

The sequence ends at the exit label.  An instruction that falls through goes to
the label of the next instruction, and behind the last one to the exit.
-/

/-- The comparison that an operator makes on words. -/
def ConditionOp.Compares {width : Nat} (op : ConditionOp) (left right : BitVec width) : Prop :=
  match op with
  | .eq => left = right
  | .ne => left ≠ right
  | .set => left &&& right ≠ 0
  | .nset => left &&& right = 0
  | .lt => left.toNat < right.toNat
  | .le => left.toNat ≤ right.toNat
  | .gt => right.toNat < left.toNat
  | .ge => right.toNat ≤ left.toNat
  | .slt => left.toInt < right.toInt
  | .sle => left.toInt ≤ right.toInt
  | .sgt => right.toInt < left.toInt
  | .sge => right.toInt ≤ left.toInt

/-- The word that an operand stands for. -/
def Value.word (registers : Reg -> BitVec 64) : Value -> BitVec 64
  | .imm value => value.v
  | .reg source => registers source

/-- A condition holds of the registers: a 32-bit condition compares the low
halves of its operands. -/
def Condition.Holds (cond : Condition) (registers : Reg -> BitVec 64) : Prop :=
  if cond.is64 then cond.op.Compares (registers cond.left) (cond.right.word registers)
  else cond.op.Compares ((registers cond.left).setWidth 32)
    ((cond.right.word registers).setWidth 32)

/-- A machine, by its registers and by the effect of the instructions that are
neither jumps nor assumptions. -/
structure Machine (State : Type) where
  registers : State -> Reg -> BitVec 64
  effect : Instruction -> State -> State -> Prop

namespace Machine

variable {State : Type} (machine : Machine State)

/-- What an instruction does to the state.  A jump does nothing, and an
assumption is passed only where its condition holds. -/
def Passes (ins : Instruction) (state after : State) : Prop :=
  match ins with
  | .jmp _ => after = state
  | .assume ins => after = state ∧ ins.cond.Holds (machine.registers state)
  | ins => machine.effect ins state after

/-- Where an instruction goes, when `fallthrough` is the label behind it. -/
def GoesTo (ins : Instruction) (fallthrough : Label) (state : State) (target : Label) : Prop :=
  match ins with
  | .jmp jmp =>
      match jmp.cond with
      | none => target = jmp.target
      | some cond =>
          (cond.Holds (machine.registers state) ∧ target = jmp.target) ∨
            (¬ cond.Holds (machine.registers state) ∧ target = fallthrough)
  | .exit _ => target = Label.exit
  | _ => target = fallthrough

end Machine

namespace InstructionSeq

/-- The label behind an instruction, where `rest` is the sequence behind it. -/
def fallthrough : InstructionSeq -> Label
  | [] => Label.exit
  | (label, _) :: _ => label

/-- One step of the sequence. -/
def Step {State : Type} (machine : Machine State) (prog : InstructionSeq)
    (current after : Label × State) : Prop :=
  exists ins rest, (current.1, ins) :: rest <:+ prog ∧
    machine.Passes ins current.2 after.2 ∧ machine.GoesTo ins (fallthrough rest) current.2 after.1

end InstructionSeq

/-- A label that the decoder gives to an instruction: an index of the
sequence. -/
structure Label.IsIndex (label : Label) : Prop where
  stackFramePrefix : label.stackFramePrefix = []
  fromIndex : 0 ≤ label.fromIndex
  toIndex : label.toIndex = -1
  specialLabel : label.specialLabel = []

/-- The label to which an instruction may jump or call. -/
def Instruction.target? : Instruction -> Option Label
  | .jmp ins => some ins.target
  | .callLocal ins => some ins.target
  | _ => none

/-- A sequence as the decoder returns it: its labels and the targets of its
jumps and calls are indices. -/
def InstructionSeq.Indexed (prog : InstructionSeq) : Prop :=
  forall label ins, (label, ins) ∈ prog -> label.IsIndex ∧
    forall target, ins.target? = some target -> target.IsIndex

/-! ## Executions with local calls -/

/-- A configuration: the label of the next instruction, if there is one, the
labels to which the calls in progress return, and the state of the machine. -/
structure Configuration (State : Type) where
  place : Option Label
  returns : List (Option Label)
  state : State

namespace Machine

variable {State : Type} (machine : Machine State)

/-- A jump is taken. -/
def Takes (jmp : Jmp) (state : State) : Prop :=
  match jmp.cond with
  | none => True
  | some cond => cond.Holds (machine.registers state)

/-- One instruction, where `behind` is the label behind it.  A local call
remembers that label, and an exit goes back to the label last remembered. -/
def Executes (ins : Instruction) (behind : Option Label)
    (current after : Configuration State) : Prop :=
  machine.Passes ins current.state after.state ∧
    match ins with
    | .jmp jmp => after.returns = current.returns ∧
        ((machine.Takes jmp current.state ∧ after.place = some jmp.target) ∨
          (¬ machine.Takes jmp current.state ∧ after.place = behind))
    | .callLocal call => after.place = some call.target ∧ after.returns = behind :: current.returns
    | .exit _ =>
        match current.returns with
        | [] => after.place = none ∧ after.returns = []
        | place :: returns => after.place = place ∧ after.returns = returns
    | _ => after.place = behind ∧ after.returns = current.returns

/-- The labels that an instruction leaves are its target, the label behind it,
or those that were there before. -/
theorem executes_labels {ins : Instruction} {behind : Option Label}
    {current after : Configuration State}
    (executes : machine.Executes ins behind current after) {place : Option Label}
    (member : place ∈ after.place :: after.returns) :
    place = none ∨ place = ins.target? ∨ place = behind ∨ place ∈ current.returns := by
  rcases executes with ⟨_, control⟩
  cases ins with
  | jmp jmp =>
      rcases control with ⟨returns, ⟨_, isTarget⟩ | ⟨_, isBehind⟩⟩
      · rw [returns, isTarget, List.mem_cons] at member
        exact member.elim (fun same => Or.inr (Or.inl same))
          (fun kept => Or.inr (Or.inr (Or.inr kept)))
      · rw [returns, isBehind, List.mem_cons] at member
        exact Or.inr (Or.inr member)
  | callLocal call =>
      rw [control.1, control.2, List.mem_cons] at member
      exact Or.inr (member.imp_right List.mem_cons.mp)
  | exit ins =>
      dsimp only at control
      split at control
      · rw [control.1, control.2, List.mem_singleton] at member
        exact Or.inl member
      · rename_i first returns isReturns
        rw [control.1, control.2] at member
        rw [isReturns]
        exact Or.inr (Or.inr (Or.inr member))
  | _ =>
      rw [control.1, control.2, List.mem_cons] at member
      exact Or.inr (Or.inr member)

end Machine

end Prevail
