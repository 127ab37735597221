import Prevail.Asm.Decoding

namespace Prevail

/-!
# What the decoder lets through

Every instruction that the decoder returns is one that the machine has: its
registers exist, its accesses have one of the four widths, and the arguments of
a helper function lie in consecutive registers, none of them taken twice.

The stack pointer is not protected completely.  Arithmetic and loads into r10
are refused, but the wide instructions and the atomic operations that fetch are
not asked.
-/

/-- The machine has the register. -/
def Reg.IsRegister (reg : Reg) : Prop := reg.v.toNat ≤ 10

/-- An operand that is a register is one of the machine. -/
def Value.WellFormed : Value -> Prop
  | .imm _ => True
  | .reg source => source.IsRegister

/-- The memory operand of an access that has one of some widths. -/
structure Deref.WellFormed (widths : List Int) (access : Deref) : Prop where
  width : access.width ∈ widths
  base : access.basereg.IsRegister
  offset : -2 ^ 15 ≤ access.offset ∧ access.offset < 2 ^ 15

namespace Call

/-- The registers in which a helper function expects something. -/
def registers (call : Call) : List Reg :=
  call.singles.map ArgSingle.reg ++ call.pairs.flatMap (fun arg => [arg.mem, arg.size])

/-- The arguments are in registers below a bound, each in its own one, and the
size of a space is in the register behind the pointer to it. -/
structure Takes (bound : Nat) (call : Call) : Prop where
  inRange : ∀ reg ∈ call.registers, 1 ≤ reg.v.toNat ∧ reg.v.toNat < bound
  distinct : call.registers.Nodup
  behind : ∀ arg ∈ call.pairs, arg.size.v.toNat = arg.mem.v.toNat + 1

end Call

/-- An instruction of the machine, as the decoder returns it. -/
def Instruction.WellFormed : Instruction -> Prop
  | .bin ins => ins.dst.IsRegister ∧ ins.v.WellFormed ∧ (ins.lddw = false ->
    ins.dst ≠ r10StackPointer)
  | .un ins => ins.dst.IsRegister ∧ ins.dst ≠ r10StackPointer
  | .loadMapFd ins => ins.dst.IsRegister ∧ -2 ^ 31 ≤ ins.mapfd ∧ ins.mapfd < 2 ^ 31
  | .call ins => ins.Takes 6 ∧ ins.stackFramePrefix = []
  | .callLocal ins => ins.stackFramePrefix = []
  | .callx ins => ins.func.IsRegister
  | .exit ins => ins.stackFramePrefix = []
  | .jmp ins => ∀ cond ∈ ins.cond, cond.op ≠ .nset ∧ cond.left.IsRegister ∧ cond.right.WellFormed
  | .mem ins => ins.access.WellFormed [1, 2, 4, 8] ∧ ins.value.WellFormed ∧
      (ins.isLoad = true -> exists dst, ins.value = .reg dst ∧ dst ≠ r10StackPointer)
  | .packet ins => ins.width ∈ [1, 2, 4] ∧ (-2 ^ 31 ≤ ins.offset ∧ ins.offset < 2 ^ 31) ∧
      ∀ reg ∈ ins.regoffset, reg.IsRegister
  | .atomic ins => ins.access.WellFormed [4, 8] ∧ ins.valreg.IsRegister ∧
      (ins.op = .xchg ∨ ins.op = .cmpxchg -> ins.fetch = true)
  | .undefined _ | .assume _ | .incrementLoopCounter _ => False

namespace Unmarshaller

/-! ## Registers and widths -/

theorem regOf_isRegister {field : BitVec 4} (small : field.toNat ≤ 10) :
    (regOf field).IsRegister := by
  have fields : forall field : BitVec 4, field.toNat ≤ 10 -> (regOf field).v.toNat ≤ 10 := by
    decide
  exact fields field small

theorem regOf_ne_stackPointer {field : BitVec 4} (different : field ≠ 10) :
    regOf field ≠ r10StackPointer := by
  have fields : forall field : BitVec 4, field ≠ 10 -> regOf field ≠ r10StackPointer := by
    decide
  exact fields field different

theorem opcodeToWidth_mem (size : Opcode) : opcodeToWidth size ∈ [1, 2, 4, 8] := by
  unfold opcodeToWidth
  split
  · simp
  · split
    · simp
    · split <;> simp

theorem offset_range (offset : BitVec 16) : -2 ^ 15 ≤ offset.toInt ∧ offset.toInt < 2 ^ 15 :=
  ⟨BitVec.le_toInt offset, BitVec.toInt_lt⟩

theorem imm_range (imm : BitVec 32) : -2 ^ 31 ≤ imm.toInt ∧ imm.toInt < 2 ^ 31 :=
  ⟨BitVec.le_toInt imm, BitVec.toInt_lt⟩

theorem IsOperand.wellFormed {inst : EbpfInst} {v : Value} (operand : IsOperand inst v)
    (small : inst.src.toNat ≤ 10) :
    v.WellFormed := by
  rcases operand with ⟨rfl, _⟩ | ⟨rfl, _⟩
  · exact regOf_isRegister small
  · trivial

section Kinds

variable {platform : EbpfPlatform} {insts : List EbpfInst} {pc : Nat} {inst : EbpfInst}
  {ins : Instruction}

/-! ## The kinds of instructions -/

theorem makeAluOp_wellFormed (run : makeAluOp platform pc inst = .ok ins) : ins.WellFormed := by
  have spec := makeAluOp_spec run
  rcases bind_eq_ok.mp run with ⟨_, _, run⟩
  rcases bind_eq_ok.mp run with ⟨_, notPointer, run⟩
  rcases bind_eq_ok.mp run with ⟨_, small, _⟩
  rw [require_eq_ok] at notPointer small
  rw [Bool.and_eq_true, decide_eq_true_eq, decide_eq_true_eq] at small
  have dst := regOf_isRegister small.1
  have different := regOf_ne_stackPointer (bne_iff_ne.mp notPointer)
  rcases spec with ⟨op, v, rfl, _, _, operand⟩ | ⟨op, rfl, _⟩
  · exact ⟨dst, operand.wellFormed small.2, fun _ => different⟩
  · exact ⟨dst, different⟩

theorem makePacket_wellFormed {regoffset : Option Reg}
    (registers : ∀ reg ∈ regoffset, reg.IsRegister)
    (run : makePacket platform pc inst regoffset = .ok ins) : ins.WellFormed := by
  rcases bind_eq_ok.mp run with ⟨_, packet, run⟩
  rcases bind_eq_ok.mp run with ⟨_, _, run⟩
  rcases bind_eq_ok.mp run with ⟨_, _, run⟩
  rcases bind_eq_ok.mp run with ⟨_, _, run⟩
  rw [require_eq_ok] at packet
  simp only [Bool.and_eq_true, bne_iff_ne] at packet
  cases run
  refine ⟨?_, imm_range inst.imm, registers⟩
  have width := opcodeToWidth_mem inst.size
  simp only [List.mem_cons, List.not_mem_nil, or_false] at width ⊢
  omega

theorem makeMem_wellFormed (small : inst.dst.toNat ≤ 10 ∧ inst.src.toNat ≤ 10)
    (run : makeMem pc inst = .ok ins) :
    ins.WellFormed := by
  rcases bind_eq_ok.mp run with ⟨_, _, run⟩
  rcases bind_eq_ok.mp run with ⟨_, notPointer, run⟩
  rcases bind_eq_ok.mp run with ⟨_, _, run⟩
  rcases bind_eq_ok.mp run with ⟨_, _, run⟩
  rw [require_eq_ok] at notPointer
  cases run
  by_cases isLoad : inst.cls = instClsLdx
  · simp only [isLoad, decide_true, if_true, Bool.true_and, Bool.not_eq_true',
      decide_eq_false_iff_not] at notPointer ⊢
    refine ⟨⟨opcodeToWidth_mem _, regOf_isRegister small.2, offset_range _⟩,
      regOf_isRegister small.1, ?_⟩
    exact fun _ => ⟨_, rfl, regOf_ne_stackPointer notPointer⟩
  · simp only [isLoad, decide_false, if_false]
    refine ⟨⟨opcodeToWidth_mem _, regOf_isRegister small.1, offset_range _⟩, ?_,
      fun impossible => by cases impossible⟩
    split
    · trivial
    · exact regOf_isRegister small.2

theorem makeAtomic_wellFormed (small : inst.dst.toNat ≤ 10 ∧ inst.src.toNat ≤ 10)
    (run : makeAtomic platform pc inst = .ok ins) : ins.WellFormed := by
  rcases bind_eq_ok.mp run with ⟨_, size, run⟩
  rcases bind_eq_ok.mp run with ⟨_, _, run⟩
  rcases bind_eq_ok.mp run with ⟨op, selected, run⟩
  rw [require_eq_ok] at size
  simp only [Bool.and_eq_true, Bool.or_eq_true, beq_iff_eq] at size
  cases run
  refine ⟨⟨?_, regOf_isRegister small.1, offset_range _⟩, regOf_isRegister small.2, ?_⟩
  · have words : opcodeToWidth instSizeW = 4 ∧ opcodeToWidth instSizeDw = 8 := by decide
    dsimp only
    rcases size.2 with same | same
    · rw [same, words.1]
      exact List.mem_cons_self
    · rw [same, words.2]
      exact List.mem_cons_of_mem _ List.mem_cons_self
  · intro exchanges
    unfold getAtomicOp at selected
    split at selected
    · rename_i found _
      rcases bind_eq_ok.mp selected with ⟨_, fetches, same⟩
      cases same
      rw [require_eq_ok] at fetches
      have notZero : inst.imm &&& instFetch ≠ 0 := by
        intro zero
        rcases exchanges with rfl | rfl <;> simp [zero] at fetches
      rcases fetch_cases inst.imm with ⟨fetch, _⟩ | ⟨_, same⟩
      · exact beq_iff_eq.mpr fetch
      · rw [← same, BitVec.and_assoc] at notZero
        exact absurd (by simp [instFetch]) notZero
    · exact absurd selected (throw_ne_ok _ _)

theorem makeMemOp_wellFormed (run : makeMemOp platform pc inst = .ok ins) : ins.WellFormed := by
  rcases bind_eq_ok.mp run with ⟨_, small, run⟩
  rcases bind_eq_ok.mp run with ⟨_, _, run⟩
  rw [require_eq_ok, Bool.and_eq_true, decide_eq_true_eq, decide_eq_true_eq] at small
  split at run
  · exact makePacket_wellFormed (fun _ found => by cases found) run
  · split at run
    · refine makePacket_wellFormed (fun reg found => ?_) run
      cases found
      exact regOf_isRegister small.2
    · split at run
      · exact makeMem_wellFormed small run
      · split at run
        · exact makeAtomic_wellFormed small run
        · exact absurd run (throw_ne_ok _ _)

theorem makeLddw_wellFormed (run : makeLddw platform inst insts pc = .ok ins) : ins.WellFormed := by
  rcases bind_eq_ok.mp run with ⟨_, _, run⟩
  split at run
  · exact absurd run (throw_ne_ok _ _)
  · rcases bind_eq_ok.mp run with ⟨_, _, run⟩
    rcases bind_eq_ok.mp run with ⟨_, _, run⟩
    rcases bind_eq_ok.mp run with ⟨_, _, run⟩
    rcases bind_eq_ok.mp run with ⟨_, small, run⟩
    rw [require_eq_ok] at small
    have dst := regOf_isRegister (of_decide_eq_true small)
    split at run
    · rcases bind_eq_ok.mp run with ⟨_, _, same⟩
      cases same
      exact ⟨dst, imm_range inst.imm⟩
    · cases run
      exact ⟨dst, trivial, fun impossible => by cases impossible⟩

/-! ## Calls -/

theorem toNat_ofNat {i : Nat} (small : i < 256) : (UInt8.ofNat i).toNat = i := by
  rw [UInt8.toNat_ofNat']
  exact Nat.mod_eq_of_lt small

section Takes

variable {call : Call} {i : Nat} (takes : call.Takes i)

include takes

theorem takes_mono {bound : Nat} (below : i ≤ bound) : call.Takes bound where
  inRange reg member := ⟨(takes.inRange reg member).1,
    Nat.lt_of_lt_of_le (takes.inRange reg member).2 below⟩
  distinct := takes.distinct
  behind := takes.behind

variable (first : 1 ≤ i)

include first

theorem takes_single (small : i < 256) (kind : ArgSingleKind) :
    Call.Takes (i + 1) { call with singles := call.singles ++ [⟨kind, ⟨UInt8.ofNat i⟩⟩] } := by
  have taken : (Call.registers
      { call with singles := call.singles ++ [⟨kind, ⟨UInt8.ofNat i⟩⟩] }).Perm
      (⟨UInt8.ofNat i⟩ :: call.registers) := by
    simp only [Call.registers, List.map_append, List.map_cons, List.map_nil, List.append_assoc,
      List.singleton_append]
    exact List.perm_middle
  refine { inRange := ?_, distinct := ?_, behind := takes.behind }
  · intro reg member
    rcases List.mem_cons.mp (taken.mem_iff.mp member) with rfl | before
    · rw [toNat_ofNat small]
      omega
    · have range := takes.inRange reg before
      omega
  · rw [taken.nodup_iff, List.nodup_cons]
    refine ⟨?_, takes.distinct⟩
    intro before
    have range := (takes.inRange _ before).2
    rw [toNat_ofNat small] at range
    omega

theorem takes_pair (small : i + 1 < 256) (kind : ArgPairKind) (canBeZero : Bool) :
    Call.Takes (i + 2)
      { call with pairs := call.pairs ++
      [⟨kind, ⟨UInt8.ofNat i⟩, ⟨UInt8.ofNat (i + 1)⟩, canBeZero⟩] } := by
  have taken : Call.registers
      { call with pairs := call.pairs ++
        [⟨kind, ⟨UInt8.ofNat i⟩, ⟨UInt8.ofNat (i + 1)⟩, canBeZero⟩] } =
        call.registers ++ [⟨UInt8.ofNat i⟩, ⟨UInt8.ofNat (i + 1)⟩] := by
    simp only [Call.registers, List.flatMap_append, List.flatMap_cons, List.flatMap_nil,
      List.append_nil, List.append_assoc]
  have pointer := toNat_ofNat (Nat.lt_of_succ_lt small)
  have size := toNat_ofNat small
  refine { inRange := ?_, distinct := ?_, behind := ?_ }
  · intro reg member
    rw [taken, List.mem_append, List.mem_cons, List.mem_singleton] at member
    rcases member with before | rfl | rfl
    · have range := takes.inRange reg before
      omega
    · rw [pointer]
      omega
    · rw [size]
      omega
  · rw [taken, List.nodup_append]
    refine ⟨takes.distinct, ?_, ?_⟩
    · rw [List.nodup_cons, List.mem_singleton]
      refine ⟨?_, List.nodup_singleton _⟩
      intro same
      rw [Reg.mk.injEq] at same
      rw [same, size] at pointer
      omega
    · intro reg before other added same
      have range := (takes.inRange reg before).2
      rw [same] at range
      rw [List.mem_cons, List.mem_singleton] at added
      rcases added with rfl | rfl
      · rw [pointer] at range
        omega
      · rw [size] at range
        omega
  · intro arg member
    rcases List.mem_append.mp member with before | added
    · exact takes.behind arg before
    · rw [List.mem_singleton.mp added, size, pointer]

end Takes

theorem callArguments_takes {proto : EbpfHelperPrototype} {i bound : Nat}
    {args : List EbpfArgumentType}
    {res call : Call} (first : 1 ≤ i) (enough : i + args.length ≤ bound) (small : bound ≤ 256)
    (takes : res.Takes i) (run : callArguments proto i args res = .ok call) :
    call.Takes bound ∧ call.stackFramePrefix = res.stackFramePrefix := by
  fun_induction callArguments proto i args res
  all_goals simp only [List.length_nil, List.length_cons] at enough
  all_goals
    first
      | exact absurd run (throw_ne_ok _ _)
      | cases run
        exact ⟨takes_mono takes (by omega), rfl⟩
      | rename_i inductionHypothesis
        exact inductionHypothesis (by omega) (by omega) (takes_single takes first (by omega) _) run
      | rename_i inductionHypothesis
        exact inductionHypothesis (by omega) (by omega) (takes_pair takes first (by omega) _ _) run

theorem makeCall_wellFormed {imm : Int} {call : Call} (run : makeCall platform imm = .ok call) :
    (Instruction.call call).WellFormed := by
  unfold makeCall at run
  dsimp only at run
  split at run
  · exact absurd run (throw_ne_ok _ _)
  · refine callArguments_takes (le_refl 1) (by rw [List.length_ofFn]) (by decide) ?_ run
    exact { inRange := by simp [Call.registers], distinct := List.nodup_nil, behind := by simp }

theorem makeCallOp_wellFormed (isCall : inst.jmpOp = instCall)
    (run : makeCallOp platform inst insts pc = .ok ins) :
    ins.WellFormed := by
  have spec := makeCallOp_spec isCall run
  rcases bind_eq_ok.mp run with ⟨_, _, run⟩
  rcases bind_eq_ok.mp run with ⟨_, _, run⟩
  rcases bind_eq_ok.mp run with ⟨_, _, run⟩
  rcases bind_eq_ok.mp run with ⟨_, _, run⟩
  rcases bind_eq_ok.mp run with ⟨_, _, run⟩
  split at run
  · rcases bind_eq_ok.mp run with ⟨_, _, run⟩
    rcases bind_eq_ok.mp run with ⟨_, _, run⟩
    rcases bind_eq_ok.mp run with ⟨_, _, same⟩
    cases same
    rfl
  · split at run
    · rcases spec.2 with _ | _ | ⟨isReg, _, _⟩
      · rcases bind_eq_ok.mp run with ⟨_, _, run⟩
        split at run
        · rcases bind_eq_ok.mp run with ⟨_, _, run⟩
          rcases bind_eq_ok.mp run with ⟨_, _, same⟩
          cases same
        · cases run
      · rcases bind_eq_ok.mp run with ⟨_, _, run⟩
        split at run
        · rcases bind_eq_ok.mp run with ⟨_, _, run⟩
          rcases bind_eq_ok.mp run with ⟨_, _, same⟩
          cases same
        · cases run
      · exact regOf_isRegister isReg
    · rcases bind_eq_ok.mp run with ⟨_, _, run⟩
      rcases bind_eq_ok.mp run with ⟨_, _, run⟩
      rcases bind_eq_ok.mp run with ⟨_, made, same⟩
      cases same
      exact makeCall_wellFormed made

/-! ## Jumps -/

theorem getJmpOp_ne_nset {op : ConditionOp} (run : getJmpOp pc inst = .ok op) : op ≠ .nset := by
  rintro rfl
  unfold getJmpOp at run
  split at run <;> cases run

theorem makeJump_wellFormed (run : makeJump platform inst insts pc = .ok ins) : ins.WellFormed := by
  rcases bind_eq_ok.mp run with ⟨_, _, run⟩
  rcases bind_eq_ok.mp run with ⟨op, selected, run⟩
  rcases bind_eq_ok.mp run with ⟨_, _, run⟩
  rcases bind_eq_ok.mp run with ⟨_, _, run⟩
  rcases bind_eq_ok.mp run with ⟨_, _, run⟩
  rcases bind_eq_ok.mp run with ⟨_, left, run⟩
  rcases bind_eq_ok.mp run with ⟨_, right, run⟩
  rw [require_eq_ok] at left right
  split at run
  · cases run
    intro cond found
    cases found
  · rename_i notJa
    simp only [Bool.eq_false_iff.mpr notJa, Bool.false_or, Bool.or_eq_true, Bool.not_eq_true',
      decide_eq_true_eq]
      at left right
    cases run
    intro cond found
    cases found
    refine ⟨getJmpOp_ne_nset selected, regOf_isRegister left, ?_⟩
    dsimp only
    split
    · rename_i isReg
      rw [isReg] at right
      exact regOf_isRegister (right.resolve_left (by decide))
    · trivial

theorem makeJmp_wellFormed (run : makeJmp platform inst insts pc = .ok ins) : ins.WellFormed := by
  unfold makeJmp at run
  split at run
  · rename_i isCall
    exact makeCallOp_wellFormed isCall run
  · split at run
    · rename_i isExit
      rw [(makeExit_spec isExit run).1]
      rfl
    · split at run
      · rcases bind_eq_ok.mp run with ⟨_, _, run⟩
        exact makeJump_wellFormed run
      · exact makeJump_wellFormed run

end Kinds

/-! ## Programs -/

section Programs

variable {platform : EbpfPlatform} {insts : List EbpfInst} {pc slots : Nat} {inst : EbpfInst}
  {ins : Instruction} {prog : InstructionSeq}

theorem decodeAt_wellFormed (run : decodeAt platform insts pc inst = .ok (ins, slots)) :
    ins.WellFormed := by
  rcases decodeAt_cases run with ⟨_, rfl, made⟩ | ⟨_, rfl, made⟩ | ⟨_, rfl, made⟩ | ⟨_, rfl, made⟩
  · exact makeLddw_wellFormed made
  · exact makeAluOp_wellFormed made
  · exact makeJmp_wellFormed made
  · exact makeMemOp_wellFormed made

theorem Round.wellFormed (round : Round platform insts pc inst ins slots) : ins.WellFormed := by
  cases round with
  | alone decoded _ => exact decodeAt_wellFormed decoded
  | wide decoded _ _ _ => exact decodeAt_wellFormed decoded
  | @merged dst second right _ _ decoded _ =>
      have shift : (Instruction.bin (shiftBin .lsh dst)).WellFormed := decodeAt_wellFormed decoded
      rcases right with rfl | rfl
      · exact ⟨shift.1, shift.1, fun _ => shift.2.2 rfl⟩
      · exact ⟨shift.1, shift.1, fun _ => shift.2.2 rfl⟩

/-- A decoded sequence: its instructions are those of the machine, its labels are
program counters in their order, and its jumps and calls go to slots that begin an
instruction.  Such a slot has a label unless it is the second shift of a pair. -/
structure Disassembled (insts : List EbpfInst) (prog : InstructionSeq) : Prop where
  instructions : ∀ entry ∈ prog, entry.2.WellFormed
  labels : exists pcs : List Nat, prog.map Prod.fst = pcs.map indexLabel ∧ pcs.head? = some 0 ∧
    pcs.Pairwise (· < ·) ∧ ∀ pc ∈ pcs, pc < insts.length
  targets : ∀ entry ∈ prog, ∀ target ∈ entry.2.target?, exists pc next, target = indexLabel pc ∧
    insts[pc]? = some next ∧ next.opcode ≠ 0 ∧
      (target ∈ prog.map Prod.fst ∨ exists before, pc = before + 1 ∧ ShiftPair insts before)

theorem Decodes.labels (decodes : Decodes platform insts pc prog) :
    exists pcs : List Nat, prog.map Prod.fst = pcs.map indexLabel ∧ pcs.Pairwise (· < ·) ∧
      (∀ at_ ∈ pcs, pc ≤ at_ ∧ at_ < insts.length) ∧
      (pc < insts.length -> pcs.head? = some pc) := by
  induction decodes with
  | done past => exact ⟨[], rfl, List.Pairwise.nil, by simp, fun inside => by omega⟩
  | @next pc slots inst ins rest found _ round _ inductionHypothesis =>
      rcases inductionHypothesis with ⟨pcs, labels, increasing, range, _⟩
      have bound := (List.getElem?_eq_some_iff.mp found).1
      have taken : 0 < slots := by
        rcases round.slots with rfl | ⟨rfl, _⟩ <;> decide
      refine ⟨pc :: pcs, ?_, List.pairwise_cons.mpr ⟨?_, increasing⟩, ?_, fun _ => rfl⟩
      · rw [List.map_cons, List.map_cons, labels]
      · intro later member
        have after := (range later member).1
        omega
      · intro at_ member
        rcases List.mem_cons.mp member with rfl | isLater
        · exact ⟨le_refl _, bound⟩
        · have after := range at_ isLater
          omega

theorem Decodes.disassembled (decodes : Decodes platform insts 0 prog) (nonempty : insts ≠ []) :
    Disassembled insts prog := by
  have read : ∀ entry ∈ prog, exists pc inst slots, insts[pc]? = some inst ∧
      Round platform insts pc inst entry.2 slots := by
    intro entry member
    rcases List.append_of_mem member with ⟨before, rest, form⟩
    rcases decodes.of_suffix (form ▸ List.suffix_append before (entry :: rest)) with
      ⟨pc, inst, slots, _, _, found, round, _⟩
    exact ⟨pc, inst, slots, found, round⟩
  refine { instructions := ?_, labels := ?_, targets := ?_ }
  · intro entry member
    rcases read entry member with ⟨_, _, _, _, round⟩
    exact round.wellFormed
  · rcases decodes.labels with ⟨pcs, labels, increasing, range, first⟩
    exact ⟨pcs, labels, first (List.length_pos_iff.mpr
      nonempty), increasing, fun pc member => (range pc member).2⟩
  · rintro ⟨label, ins⟩ member target isTarget
    rcases read (label, ins) member with ⟨pc, inst, slots, found, round⟩
    dsimp only at isTarget round
    have single : forall slots, decodeAt platform insts pc inst = .ok (ins, slots) ->
        exists pc next, target = indexLabel pc ∧ insts[pc]? = some next ∧ next.opcode ≠ 0 := by
      intro slots decoded
      rcases decodeAt_target decoded with ⟨reads, valid⟩
      rw [reads] at isTarget
      rcases Option.map_eq_some_iff.mp isTarget with ⟨index, jump, rfl⟩
      rcases valid index jump with ⟨next, nextFound, nonzero⟩
      exact ⟨index, next, rfl, nextFound, nonzero⟩
    have goes : exists pc next, target = indexLabel pc ∧ insts[pc]? = some next ∧
        next.opcode ≠ 0 := by
      cases round with
      | alone decoded _ => exact single _ decoded
      | wide decoded _ _ _ => exact single _ decoded
      | merged => cases isTarget
    rcases goes with ⟨index, next, rfl, nextFound, nonzero⟩
    refine ⟨index, next, rfl, nextFound, nonzero, ?_⟩
    by_cases second : exists before, index = before + 1 ∧ ShiftPair insts before
    · exact Or.inr second
    · refine Or.inl (decodes.target_mem nextFound nonzero ?_)
      intro before same pair
      exact second ⟨before, same, pair⟩

/-- What the decoder accepts is well formed. -/
theorem unmarshal_disassembled (run : unmarshal platform insts = .ok prog) :
    Disassembled insts prog := by
  rcases decodes_of_unmarshal run with ⟨nonempty, decodes⟩
  exact decodes.disassembled nonempty

/-- A conditional jump behind a pair of shifts. -/
theorem unmarshal_disassembled_shiftProgram : Disassembled (shiftProgram 2) (shiftSeq 3) :=
  unmarshal_disassembled (show unmarshal allGroups (shiftProgram 2) = .ok (shiftSeq 3) from rfl)

end Programs

end Unmarshaller
end Prevail
