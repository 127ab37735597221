import Prevail.Asm.Marshal

namespace Prevail

/-!
# The codec round trip

What the decoder reads of an instruction, the encoder writes back, with two
exceptions.  The encoder gives every conditional jump the class of the 64-bit
ones; and it narrows an immediate from 64 unsigned bits, which throws for the
extension of a negative one.
-/

namespace Unmarshaller

open Marshaller

theorem bind_eq_ok {E A B : Type} {first : Except E A} {second : A -> Except E B} {result : B} :
    (first >>= second) = .ok result ↔
      exists value, first = .ok value ∧ second value = .ok result := by
  cases first with
  | error err =>
      constructor
      · intro run
        cases run
      · intro run
        rcases run with ⟨value, made, _⟩
        cases made
  | ok value =>
      constructor
      · exact fun run => ⟨value, rfl, run⟩
      · intro run
        rcases run with ⟨found, made, run⟩
        cases made
        exact run

theorem map_eq_ok {E A B : Type} {first : Except E A} {f : A -> B} {result : B} :
    (f <$> first) = .ok result ↔ exists value, first = .ok value ∧ f value = result := by
  cases first with
  | error err => simp [Functor.map, Except.map]
  | ok value => simp [Functor.map, Except.map]

theorem pure_eq_ok {E A : Type} {value result : A} :
    (pure value : Except E A) = .ok result ↔ value = result := by
  simp [pure, Except.pure]

theorem throw_ne_ok {E A : Type} (err : E) (result : A) :
    (throw err : Except E A) ≠ .ok result := by
  intro same
  cases same

theorem require_eq_ok {condition : Bool} {err : UnmarshalError} {nothing : Unit} :
    require condition err = .ok nothing ↔ condition = true := by
  unfold require
  split <;> simp_all

/-! ## The parts of an opcode -/

theorem opcode_parts (inst : EbpfInst) :
    (inst.opcode &&& instSrcReg = 0 -> inst.cls ||| inst.aluOp = inst.opcode) ∧
      (inst.opcode &&& instSrcReg = instSrcReg ->
      inst.cls ||| inst.aluOp ||| instSrcReg = inst.opcode) := by
  have parts : forall opcode : BitVec 8,
      (opcode &&& instSrcReg = 0 ->
        (opcode &&& instClsMask) ||| (opcode &&& instAluOpMask) = opcode) ∧
        (opcode &&& instSrcReg = instSrcReg ->
          (opcode &&& instClsMask) ||| (opcode &&& instAluOpMask) ||| instSrcReg = opcode) := by
    decide
  exact parts inst.opcode

/-- An opcode of a memory class from its parts, in the three orders in which
the encoder joins them. -/
theorem opcode_memParts (inst : EbpfInst) : inst.cls ||| inst.size ||| inst.mode = inst.opcode ∧
    inst.cls ||| inst.mode ||| inst.size = inst.opcode ∧
      inst.mode ||| inst.size ||| inst.cls = inst.opcode := by
  have parts : forall opcode : BitVec 8,
      (opcode &&& instClsMask) ||| (opcode &&& instSizeMask) |||
      (opcode &&& instModeMask) = opcode ∧
        (opcode &&& instClsMask) ||| (opcode &&& instModeMask) |||
        (opcode &&& instSizeMask) = opcode ∧
        (opcode &&& instModeMask) ||| (opcode &&& instSizeMask) |||
        (opcode &&& instClsMask) = opcode := by
    decide
  exact parts inst.opcode

theorem hasSrcReg_iff (inst : EbpfInst) :
    (inst.hasSrcReg = true ∧ inst.opcode &&& instSrcReg = instSrcReg) ∨
      (inst.hasSrcReg = false ∧ inst.opcode &&& instSrcReg = 0) := by
  have bit : forall opcode : BitVec 8,
      ((opcode &&& instSrcReg != 0) = true ∧ opcode &&& instSrcReg = instSrcReg) ∨
      ((opcode &&& instSrcReg != 0) = false ∧ opcode &&& instSrcReg = 0) := by
    decide
  exact bit inst.opcode

theorem fieldOf_regOf (field : BitVec 4) : fieldOf (regOf field) = field := by
  have fields : forall field : BitVec 4, fieldOf (regOf field) = field := by
    decide
  exact fields field

/-! ## Arithmetic instructions -/

section Alu

variable {platform : EbpfPlatform} {pc : Nat} {inst : EbpfInst}

theorem getDivOp_spec {unsigned signed op : BinOp}
    (run : getDivOp platform pc inst unsigned signed = .ok op) :
    (op = unsigned ∧ inst.offset = 0) ∨ (op = signed ∧ inst.offset = 1) := by
  rcases bind_eq_ok.mp run with ⟨_, _, selected⟩
  split at selected
  · rename_i zero
    exact Or.inl ⟨(pure_eq_ok.mp selected).symm, zero⟩
  · split at selected
    · rename_i one
      exact Or.inr ⟨(pure_eq_ok.mp selected).symm, one⟩
    · exact absurd selected (throw_ne_ok _ _)

theorem getMovOp_spec {op : BinOp} (run : getMovOp pc inst = .ok op) :
    opOfBin op = 0xb ∧ inst.offset = offsetOfBin op ∧ (op ≠ .mov -> inst.hasSrcReg = true) := by
  rcases bind_eq_ok.mp run with ⟨_, required, selected⟩
  rw [require_eq_ok, Bool.not_eq_true', Bool.and_eq_false_iff, decide_eq_false_iff_not,
    Bool.not_eq_false'] at required
  split at selected
  · rename_i zero
    cases selected
    exact ⟨rfl, zero, fun different => absurd rfl different⟩
  all_goals try split at selected
  all_goals try split at selected
  all_goals try split at selected
  all_goals
    rename_i offset
    first
      | exact absurd selected (throw_ne_ok _ _)
      | cases selected
        refine ⟨rfl, offset, fun _ => required.resolve_left ?_⟩
        rw [offset]
        decide

/-- The operations that require a zero offset. -/
theorem getPlainOp_cases {result : BinOp ⊕ UnOp} (run : getPlainOp platform pc inst = .ok result) :
    (exists op, result = .inl op ∧ inst.aluOp = opOfBin op <<< 4 ∧ offsetOfBin op = 0) ∨
      (exists op, result = .inr op ∧ ((inst.aluOp = 0x80 ∧ getNegOp pc inst = .ok op) ∨
        (inst.aluOp = 0xd0 ∧ getEndOp platform pc inst = .ok op))) := by
  have selected : forall op, inst.aluOp = opOfBin op <<< 4 -> offsetOfBin op = 0 ->
      (pure (.inl op) : Except UnmarshalError _) = .ok result ->
        exists op, result = .inl op ∧ inst.aluOp = opOfBin op <<< 4 ∧ offsetOfBin op = 0 :=
    fun op code offset run => ⟨op, (pure_eq_ok.mp run).symm, code, offset⟩
  rcases ite_eq_iff.mp run with ⟨add, run⟩ | ⟨-, run⟩
  · exact Or.inl (selected .add add rfl run)
  rcases ite_eq_iff.mp run with ⟨sub, run⟩ | ⟨-, run⟩
  · exact Or.inl (selected .sub sub rfl run)
  rcases ite_eq_iff.mp run with ⟨mul, run⟩ | ⟨-, run⟩
  · rcases bind_eq_ok.mp run with ⟨_, _, run⟩
    exact Or.inl (selected .mul mul rfl run)
  rcases ite_eq_iff.mp run with ⟨or, run⟩ | ⟨-, run⟩
  · exact Or.inl (selected .or or rfl run)
  rcases ite_eq_iff.mp run with ⟨and, run⟩ | ⟨-, run⟩
  · exact Or.inl (selected .and and rfl run)
  rcases ite_eq_iff.mp run with ⟨lsh, run⟩ | ⟨-, run⟩
  · exact Or.inl (selected .lsh lsh rfl run)
  rcases ite_eq_iff.mp run with ⟨rsh, run⟩ | ⟨-, run⟩
  · exact Or.inl (selected .rsh rsh rfl run)
  rcases ite_eq_iff.mp run with ⟨neg, run⟩ | ⟨-, run⟩
  · rcases map_eq_ok.mp run with ⟨op, run, same⟩
    exact Or.inr ⟨op, same.symm, Or.inl ⟨neg, run⟩⟩
  rcases ite_eq_iff.mp run with ⟨xor, run⟩ | ⟨-, run⟩
  · exact Or.inl (selected .xor xor rfl run)
  rcases ite_eq_iff.mp run with ⟨arsh, run⟩ | ⟨-, run⟩
  · exact Or.inl (selected .arsh arsh rfl run)
  rcases ite_eq_iff.mp run with ⟨end_, run⟩ | ⟨-, run⟩
  · rcases map_eq_ok.mp run with ⟨op, run, same⟩
    exact Or.inr ⟨op, same.symm, Or.inr ⟨end_, run⟩⟩
  · exact absurd run (throw_ne_ok _ _)

/-- What the fields of a unary operation are. -/
def UnFields (inst : EbpfInst) (op : UnOp) : Prop :=
  inst.src = 0 ∧ inst.offset = 0 ∧ inst.imm = immEndian op ∧
    match op with
    | .neg => inst.aluOp = 0x80 ∧ inst.opcode &&& instSrcReg = 0
    | .le16 | .le32 | .le64 =>
      inst.aluOp = 0xd0 ∧ inst.cls ≠ instClsAlu64 ∧ inst.opcode &&& instSrcReg = 0
    | .be16 | .be32 | .be64 =>
      inst.aluOp = 0xd0 ∧ inst.cls ≠ instClsAlu64 ∧ inst.opcode &&& instSrcReg = instSrcReg
    | .swap16 | .swap32 | .swap64 =>
      inst.aluOp = 0xd0 ∧ inst.cls = instClsAlu64 ∧ inst.opcode &&& instSrcReg = 0

theorem getSwapOp_spec {op16 op32 op64 op : UnOp}
    (run : getSwapOp platform pc inst op16 op32 op64 = .ok op) :
    (op = op16 ∧ inst.imm = 16) ∨ (op = op32 ∧ inst.imm = 32) ∨ (op = op64 ∧ inst.imm = 64) := by
  unfold getSwapOp at run
  split at run
  · rename_i width
    rcases bind_eq_ok.mp run with ⟨_, _, selected⟩
    exact Or.inl ⟨(pure_eq_ok.mp selected).symm, width⟩
  · split at run
    · rename_i width
      rcases bind_eq_ok.mp run with ⟨_, _, selected⟩
      exact Or.inr (Or.inl ⟨(pure_eq_ok.mp selected).symm, width⟩)
    · split at run
      · rename_i width
        rcases bind_eq_ok.mp run with ⟨_, _, selected⟩
        exact Or.inr (Or.inr ⟨(pure_eq_ok.mp selected).symm, width⟩)
      · exact absurd run (throw_ne_ok _ _)

theorem getNegOp_spec {op : UnOp} (isNeg : inst.aluOp = 0x80) (offset : inst.offset = 0)
    (run : getNegOp pc inst = .ok op) : UnFields inst op := by
  rcases bind_eq_ok.mp run with ⟨_, noSrc, run⟩
  rcases bind_eq_ok.mp run with ⟨_, src, run⟩
  rcases bind_eq_ok.mp run with ⟨_, imm, run⟩
  rw [require_eq_ok] at noSrc src imm
  cases run
  rcases hasSrcReg_iff inst with ⟨has, _⟩ | ⟨_, noBit⟩
  · rw [has] at noSrc
    cases noSrc
  · exact ⟨of_decide_eq_true src, offset, of_decide_eq_true imm, isNeg, noBit⟩

theorem getEndOp_spec {op : UnOp} (isEnd : inst.aluOp = 0xd0) (offset : inst.offset = 0)
    (run : getEndOp platform pc inst = .ok op) : UnFields inst op := by
  rcases bind_eq_ok.mp run with ⟨_, src, run⟩
  rw [require_eq_ok] at src
  have src := of_decide_eq_true src
  split at run
  · rename_i is64
    rcases bind_eq_ok.mp run with ⟨_, noBit, run⟩
    rw [require_eq_ok] at noBit
    have noBit : inst.opcode &&& instSrcReg = 0 := of_decide_eq_true noBit
    rcases getSwapOp_spec run with ⟨rfl, imm⟩ | ⟨rfl, imm⟩ | ⟨rfl, imm⟩ <;>
      exact ⟨src, offset, imm, isEnd, is64, noBit⟩
  · rename_i is32
    split at run
    · rename_i noBit
      rcases getSwapOp_spec run with ⟨rfl, imm⟩ | ⟨rfl, imm⟩ | ⟨rfl, imm⟩ <;>
        exact ⟨src, offset, imm, isEnd, is32, noBit⟩
    · rename_i someBit
      have bit : inst.opcode &&& instSrcReg = instSrcReg := by
        rcases hasSrcReg_iff inst with ⟨_, bit⟩ | ⟨_, noBit⟩
        · exact bit
        · exact absurd noBit someBit
      rcases getSwapOp_spec run with ⟨rfl, imm⟩ | ⟨rfl, imm⟩ | ⟨rfl, imm⟩ <;>
        exact ⟨src, offset, imm, isEnd, is32, bit⟩

/-- The fields that select an operation are those that the encoder gives it. -/
theorem getAluOp_spec {op : BinOp ⊕ UnOp} (run : getAluOp platform pc inst = .ok op) :
    match op with
    | .inl op => inst.aluOp = opOfBin op <<< 4 ∧ inst.offset = offsetOfBin op
    | .inr op => UnFields inst op := by
  unfold getAluOp at run
  split at run
  · rename_i isDiv
    rcases map_eq_ok.mp run with ⟨found, selected, rfl⟩
    rcases getDivOp_spec selected with ⟨rfl, offset⟩ | ⟨rfl, offset⟩ <;> exact ⟨isDiv, offset⟩
  · split at run
    · rename_i isMod
      rcases map_eq_ok.mp run with ⟨found, selected, rfl⟩
      rcases getDivOp_spec selected with ⟨rfl, offset⟩ | ⟨rfl, offset⟩ <;> exact ⟨isMod, offset⟩
    · split at run
      · rename_i isMov
        rcases map_eq_ok.mp run with ⟨found, selected, rfl⟩
        rcases getMovOp_spec selected with ⟨code, offset, _⟩
        refine ⟨?_, offset⟩
        rw [isMov, code]
        rfl
      · rcases bind_eq_ok.mp run with ⟨_, required, plain⟩
        rw [require_eq_ok] at required
        have offset : inst.offset = 0 := of_decide_eq_true required
        rcases getPlainOp_cases plain with ⟨op, rfl, code, zero⟩ |
          ⟨op, rfl, ⟨isNeg, run⟩ | ⟨isEnd, run⟩⟩
        · exact ⟨code, offset.trans zero.symm⟩
        · exact getNegOp_spec isNeg offset run
        · exact getEndOp_spec isEnd offset run

/-- What the operand of an instruction is. -/
def IsOperand (inst : EbpfInst) (v : Value) : Prop :=
  (v = .reg (regOf inst.src) ∧ inst.opcode &&& instSrcReg = instSrcReg ∧ inst.imm = 0) ∨
    (v = .imm ⟨signExtend inst.imm⟩ ∧ inst.opcode &&& instSrcReg = 0 ∧ inst.src = 0)

theorem getBinValue_spec {v : Value} (run : getBinValue pc inst = .ok v) : IsOperand inst v := by
  unfold getBinValue at run
  split at run
  · rename_i isReg
    rcases bind_eq_ok.mp run with ⟨_, imm, value⟩
    rw [require_eq_ok] at imm
    rcases hasSrcReg_iff inst with ⟨_, bit⟩ | ⟨notReg, _⟩
    · exact Or.inl ⟨(pure_eq_ok.mp value).symm, bit, of_decide_eq_true imm⟩
    · rw [notReg] at isReg
      cases isReg
  · rename_i notReg
    rcases bind_eq_ok.mp run with ⟨_, src, value⟩
    rw [require_eq_ok] at src
    rcases hasSrcReg_iff inst with ⟨isReg, _⟩ | ⟨_, noBit⟩
    · exact absurd isReg notReg
    · exact Or.inr ⟨(pure_eq_ok.mp value).symm, noBit, of_decide_eq_true src⟩

theorem makeAluOp_spec {ins : Instruction} (run : makeAluOp platform pc inst = .ok ins) :
    (exists op v, ins = .bin ⟨op, regOf inst.dst, v, inst.cls = instClsAlu64, false⟩ ∧
      inst.aluOp = opOfBin op <<< 4 ∧ inst.offset = offsetOfBin op ∧ IsOperand inst v) ∨
    (exists op, ins = .un ⟨op, regOf inst.dst, inst.cls = instClsAlu64⟩ ∧ UnFields inst op) := by
  rcases bind_eq_ok.mp run with ⟨_, _, run⟩
  rcases bind_eq_ok.mp run with ⟨_, _, run⟩
  rcases bind_eq_ok.mp run with ⟨_, _, run⟩
  rcases bind_eq_ok.mp run with ⟨op, selected, run⟩
  have fields := getAluOp_spec selected
  cases op with
  | inl op =>
      rcases bind_eq_ok.mp run with ⟨v, value, same⟩
      exact Or.inl ⟨op, v, (pure_eq_ok.mp same).symm, fields.1, fields.2, getBinValue_spec value⟩
  | inr op => exact Or.inr ⟨op, (pure_eq_ok.mp run).symm, fields⟩

end Alu

/-! ## Immediates -/

/-- The extension of an immediate to 64 bits can be narrowed again unless the
immediate is negative. -/
theorem narrow_signExtend (imm : BitVec 32) : narrow 32 ((signExtend imm).toNat) =
    if imm.toInt < 0 then .error .narrowingError else .ok imm := by
  have bound := imm.isLt
  have value := BitVec.toInt_eq_toNat_cond imm
  have extended : (signExtend imm).toInt = imm.toInt := BitVec.toInt_signExtend_of_le (by decide)
  have wide := BitVec.toInt_eq_toNat_cond (signExtend imm)
  have wideBound := (signExtend imm).isLt
  unfold narrow
  by_cases negative : imm.toInt < 0
  · rw [if_pos negative, if_neg]
    have low := BitVec.toInt_lt (x := BitVec.ofInt 32 (signExtend imm).toNat)
    split at wide <;> omega
  · have same : ((signExtend imm).toNat : Int) = imm.toInt := by
      split at wide <;> omega
    rw [if_neg negative, same, BitVec.ofInt_toInt, if_pos rfl]

theorem narrow_zeroExtend (imm : BitVec 32) : narrow 32 ((zeroExtend imm).toNat) =
    if imm.toInt < 0 then .error .narrowingError else .ok imm := by
  have bound := imm.isLt
  have value := BitVec.toInt_eq_toNat_cond imm
  have extended : (zeroExtend imm).toNat = imm.toNat := BitVec.toNat_setWidth_of_le (by decide)
  unfold narrow
  rw [extended]
  by_cases negative : imm.toInt < 0
  · rw [if_pos negative, if_neg]
    have low := BitVec.toInt_lt (x := BitVec.ofInt 32 imm.toNat)
    split at value <;> omega
  · have same : (imm.toNat : Int) = imm.toInt := by
      split at value <;> omega
    rw [if_neg negative, same, BitVec.ofInt_toInt, if_pos rfl]

/-- The immediate that the encoder writes back, unless it throws. -/
def written (inst : EbpfInst) : Except MarshalError EbpfInst :=
  if inst.imm.toInt < 0 then .error .narrowingError else .ok inst

/-- An operand is written back over the other fields of its instruction. -/
theorem withOperand_isOperand {inst : EbpfInst} {v : Value} (operand : IsOperand inst v) :
    withOperand { opcode := inst.cls ||| inst.aluOp, dst := inst.dst, offset := inst.offset } v =
      written inst := by
  rcases operand with ⟨rfl, bit, noImm⟩ | ⟨rfl, noBit, noSrc⟩
  · have nonneg : ¬ inst.imm.toInt < 0 := by
      rw [noImm]
      decide
    rw [written, if_neg nonneg, withOperand, (opcode_parts inst).2 bit, fieldOf_regOf, ← noImm]
  · rw [withOperand, narrow_signExtend, (opcode_parts inst).1 noBit, ← noSrc, written]
    split <;> rfl

theorem aluClass_cls {inst : EbpfInst} (alu : isAlu inst = true) :
    aluClass (inst.cls = instClsAlu64) = inst.cls := by
  rw [isAlu, Bool.or_eq_true, beq_iff_eq, beq_iff_eq] at alu
  rcases alu with is32 | is64
  · rw [is32]
    decide
  · rw [is64]
    decide

/-- A unary operation is written back. -/
theorem marshalUn_unFields {inst : EbpfInst} {op : UnOp} (alu : isAlu inst = true)
    (fields : UnFields inst op) :
    marshalUn ⟨op, regOf inst.dst, inst.cls = instClsAlu64⟩ = inst := by
  have cls := aluClass_cls alu
  rw [isAlu, Bool.or_eq_true, beq_iff_eq, beq_iff_eq] at alu
  rcases fields with ⟨src, offset, imm, fields⟩
  have form : forall opcode, opcode = inst.opcode ->
      ({ opcode := opcode, dst := inst.dst, imm := immEndian op } : EbpfInst) = inst := by
    rintro opcode rfl
    rw [← src, ← offset, ← imm]
  have isAlu32 : inst.cls ≠ instClsAlu64 -> inst.cls = instClsAlu :=
    fun not64 => alu.resolve_right not64
  have parts := opcode_parts inst
  unfold marshalUn
  rw [fieldOf_regOf]
  cases op with
  | neg => exact form _ (by rw [cls, ← parts.1 fields.2, fields.1])
  | le16 | le32 | le64 => exact form _ (by rw [← parts.1 fields.2.2, isAlu32 fields.2.1, fields.1])
  | be16 | be32 | be64 =>
      refine form _ ?_
      rw [← parts.2 fields.2.2, isAlu32 fields.2.1, fields.1]
      decide
  | swap16 | swap32 | swap64 => exact form _ (by rw [← parts.1 fields.2.2, fields.2.1, fields.1])

/-- An arithmetic instruction is written back, unless its immediate is
negative. -/
theorem marshal_aluOp {platform : EbpfPlatform} {pc : Nat} {inst : EbpfInst} {ins : Instruction}
    (alu : isAlu inst = true) (run : makeAluOp platform pc inst = .ok ins) :
    marshal pc ins = List.singleton <$> written inst := by
  rcases makeAluOp_spec run with ⟨op, v, rfl, code, offset, operand⟩ | ⟨op, rfl, fields⟩
  · simp only [marshal, marshalBin, Bool.false_eq_true, if_false]
    rw [aluClass_cls alu, fieldOf_regOf, ← code, ← offset, withOperand_isOperand operand]
    rfl
  · have nonneg : ¬ inst.imm.toInt < 0 := by
      rw [fields.2.2.1]
      cases op <;> decide
    rw [marshal, marshalUn_unFields alu fields, written, if_neg nonneg]
    rfl

/-! ## Jumps and calls -/

section Jumps

variable {platform : EbpfPlatform} {insts : List EbpfInst} {pc : Nat} {inst : EbpfInst}

/-- A jump target is an instruction of the program that is not the second slot
of a `lddw`. -/
theorem getJumpTarget_spec {offset : BitVec 32} {target : Label}
    (run : getJumpTarget offset insts pc = .ok target) :
    exists next, insts[(BitVec.ofNat 32 pc + 1 + offset).toNat]? = some next ∧ next.opcode ≠ 0 ∧
      (BitVec.ofNat 32 pc + 1 + offset).toNat < 2 ^ 31 ∧
      target = { fromIndex := (BitVec.ofNat 32 pc + 1 + offset).toNat } := by
  unfold getJumpTarget at run
  dsimp only at run
  split at run
  · exact absurd run (throw_ne_ok _ _)
  · rename_i next found
    rcases bind_eq_ok.mp run with ⟨_, nonzero, label⟩
    rw [require_eq_ok, bne_iff_ne] at nonzero
    unfold labelOf at label
    split at label
    · rename_i bound
      cases label
      exact ⟨next, found, nonzero, bound, rfl⟩
    · cases label

/-- The offset of a conditional jump is written back. -/
theorem labelToOffset16_target {target : Label} (bound : pc < 2 ^ 31)
    (run : getJumpTarget (inst.offset.signExtend 32) insts pc = .ok target) :
    is16 (labelOffset pc target) = true ∧ labelToOffset16 pc target = .ok inst.offset := by
  rcases getJumpTarget_spec run with ⟨_, _, _, small, rfl⟩
  have extended : (inst.offset.signExtend 32).toInt = inst.offset.toInt :=
    BitVec.toInt_signExtend_of_le (by decide)
  have lower := BitVec.le_toInt inst.offset
  have upper := BitVec.toInt_lt (x := inst.offset)
  have wide := BitVec.toInt_eq_toNat_cond (inst.offset.signExtend 32)
  have sum : (BitVec.ofNat 32 pc + 1 + inst.offset.signExtend 32).toNat =
      (pc + 1 + (inst.offset.signExtend 32).toNat) % 2 ^ 32 := by
    have one : (1 : BitVec 32).toNat = 1 := rfl
    rw [BitVec.toNat_add, BitVec.toNat_add, BitVec.toNat_ofNat, one]
    omega
  have wideBound := (inst.offset.signExtend 32).isLt
  have offset : labelOffset pc
      { fromIndex := (BitVec.ofNat 32 pc + 1 + inst.offset.signExtend 32).toNat } =
      inst.offset.toInt := by
    rw [labelOffset]
    dsimp only
    rw [sum] at small ⊢
    split at wide <;> omega
  have fits : is16 inst.offset.toInt = true := by
    rw [is16, Bool.and_eq_true, decide_eq_true_eq, decide_eq_true_eq]
    omega
  rw [labelToOffset16, offset, if_pos fits, narrow, BitVec.ofInt_toInt, if_pos rfl]
  exact ⟨fits, rfl⟩

theorem getJmpOp_spec {op : ConditionOp} (notGoto : inst.jmpOp ≠ instJa)
    (notCall : inst.jmpOp ≠ instCall)
    (notExit : inst.jmpOp ≠ instExit) (run : getJmpOp pc inst = .ok op) :
    inst.jmpOp = opOfCondition op ∧ op ≠ .nset := by
  have small : inst.jmpOp.toNat < 16 := by
    have codes : forall opcode : BitVec 8, ((opcode >>> 4) &&& 0xf).toNat < 16 := by
      decide
    exact codes inst.opcode
  have isCode : forall code : Opcode, inst.jmpOp.toNat = code.toNat -> inst.jmpOp = code :=
    fun code same => BitVec.eq_of_toNat_eq same
  have notZero : inst.jmpOp.toNat ≠ 0 := fun same => notGoto (isCode instJa same)
  have notEight : inst.jmpOp.toNat ≠ 8 := fun same => notCall (isCode instCall same)
  have notNine : inst.jmpOp.toNat ≠ 9 := fun same => notExit (isCode instExit same)
  unfold getJmpOp at run
  split at run
  case h_12 => exact absurd run (throw_ne_ok _ _)
  case h_13 => exact absurd run (throw_ne_ok _ _)
  case h_14 =>
    exfalso
    simp only [imp_false] at *
    omega
  all_goals
    rename_i code
    cases run
    refine ⟨isCode _ code, ?_⟩
    intro same
    cases same

theorem aluOp_of_jmpOp {code : Opcode} (isCode : inst.jmpOp = code) : inst.aluOp = code <<< 4 := by
  have places : forall opcode : BitVec 8,
      opcode &&& instAluOpMask = ((opcode >>> 4) &&& 0xf) <<< 4 := by
    decide
  rw [← isCode]
  exact places inst.opcode

/-- An unconditional jump has one of the two opcodes, and no other
instruction has. -/
theorem isJa_spec (noBit : inst.hasSrcReg = false)
    (cls : inst.cls = instClsJmp ∨ inst.cls = instClsJmp32) :
    isJa inst = true ↔ inst.jmpOp = instJa := by
  have opcodes : forall opcode : BitVec 8, (opcode &&& instSrcReg != 0) = false ->
      (opcode &&& instClsMask = instClsJmp ∨ opcode &&& instClsMask = instClsJmp32) ->
        ((opcode == instOpJa16 || opcode == instOpJa32) = true ↔
          (opcode >>> 4) &&& 0xf = instJa) := by
    decide
  exact opcodes inst.opcode noBit cls

/-- What an unconditional jump is decoded to. -/
structure Goto (insts : List EbpfInst) (pc : Nat) (inst : EbpfInst) (target : Label) : Prop where
  opcode : isJa inst = true
  jump : getJumpTarget (if inst.opcode = instOpJa32 then inst.imm else inst.offset.signExtend 32)
    insts pc = .ok target

structure ConditionalJump (insts : List EbpfInst) (pc : Nat) (inst : EbpfInst) (op : ConditionOp)
    (right : Value) (target : Label) : Prop where
  code : inst.jmpOp = opOfCondition op
  notNset : op ≠ .nset
  operand : IsOperand inst right
  jump : getJumpTarget (inst.offset.signExtend 32) insts pc = .ok target

theorem makeJump_spec {ins : Instruction} (notCall : inst.jmpOp ≠ instCall)
    (notExit : inst.jmpOp ≠ instExit) (run : makeJump platform inst insts pc = .ok ins) :
    (exists target, ins = .jmp ⟨none, target⟩ ∧ Goto insts pc inst target) ∨
      exists op right target,
        ins = .jmp ⟨some ⟨op, regOf inst.dst, right, inst.cls = instClsJmp⟩, target⟩ ∧
        isJa inst = false ∧ (inst.jmpOp ≠ instJa ->
        ConditionalJump insts pc inst op right target) := by
  rcases bind_eq_ok.mp run with ⟨_, _, run⟩
  rcases bind_eq_ok.mp run with ⟨op, selected, run⟩
  rcases bind_eq_ok.mp run with ⟨_, noSrc, run⟩
  rcases bind_eq_ok.mp run with ⟨_, noImm, run⟩
  rcases bind_eq_ok.mp run with ⟨target, jump, run⟩
  rcases bind_eq_ok.mp run with ⟨_, _, run⟩
  rcases bind_eq_ok.mp run with ⟨_, _, run⟩
  rw [require_eq_ok] at noSrc noImm
  split at run
  · rename_i isGoto
    cases run
    exact Or.inl ⟨target, rfl, isGoto, jump⟩
  · rename_i notJa
    right
    refine ⟨op, _, target, (pure_eq_ok.mp run).symm, Bool.eq_false_iff.mpr notJa, ?_⟩
    intro notGoto
    have notJa32 : inst.opcode ≠ instOpJa32 := by
      intro same
      exact notJa (by rw [isJa, same]; rfl)
    rw [if_neg notJa32] at jump
    rcases getJmpOp_spec notGoto notCall notExit selected with ⟨code, notNset⟩
    refine { code := code, notNset := notNset, operand := ?_, jump := jump }
    rcases hasSrcReg_iff inst with ⟨isReg, bit⟩ | ⟨notReg, noBit⟩
    · rw [isReg] at noImm ⊢
      exact Or.inl ⟨rfl, bit, by simpa using noImm⟩
    · rw [notReg] at noSrc ⊢
      exact Or.inr ⟨rfl, noBit, by simpa using noSrc⟩

/-- A conditional jump of 64 bits is written back, unless its immediate is
negative. -/
theorem ConditionalJump.marshal_eq {op : ConditionOp} {right : Value} {target : Label}
    (jump : ConditionalJump insts pc inst op right target) (bound : pc < 2 ^ 31)
    (is64 : inst.cls = instClsJmp)
    (width : Bool) : marshal pc (.jmp ⟨some ⟨op, regOf inst.dst, right, width⟩, target⟩) =
      List.singleton <$> written inst := by
  have offset := (labelToOffset16_target bound jump.jump).2
  have base := withOperand_isOperand jump.operand
  rw [is64, aluOp_of_jmpOp jump.code] at base
  simp only [marshal, marshalJmp, offset, fieldOf_regOf]
  simp only [bind, Except.bind]
  rw [base]
  rfl

/-- The encoder gives a conditional jump the class of the 64-bit ones. -/
theorem cls_of_marshal_jmp {cond : Condition} {target : Label} {first : EbpfInst}
    {more : List EbpfInst}
    (run : marshal pc (.jmp ⟨some cond, target⟩) = .ok (first :: more)) :
    first.cls = instClsJmp := by
  rcases bind_eq_ok.mp run with ⟨offset, _, run⟩
  rcases bind_eq_ok.mp run with ⟨res, operand, same⟩
  cases same
  have classes : forall code : BitVec 8,
      (instClsJmp ||| (code <<< 4)) &&& instClsMask = instClsJmp ∧
      ((instClsJmp ||| (code <<< 4)) ||| instSrcReg) &&& instClsMask = instClsJmp := by
    decide
  cases right : cond.right with
  | reg value =>
      rw [right] at operand
      cases operand
      exact (classes _).2
  | imm value =>
      rw [right] at operand
      rcases bind_eq_ok.mp operand with ⟨imm, _, same⟩
      cases same
      exact (classes _).1

/-- The opcodes of the jump class are given by their operation and source
bit. -/
theorem opcode_of_jmp (cls : inst.cls = instClsJmp) :
    (inst.jmpOp = instCall -> inst.hasSrcReg = false -> inst.opcode = instOpCall) ∧
      (inst.jmpOp = instExit -> inst.hasSrcReg = false -> inst.opcode = instOpExit) := by
  have opcodes : forall opcode : BitVec 8, opcode &&& instClsMask = instClsJmp ->
      ((opcode >>> 4) &&& 0xf = instCall -> (opcode &&& instSrcReg != 0) = false ->
        opcode = instOpCall) ∧ ((opcode >>> 4) &&& 0xf = instExit ->
          (opcode &&& instSrcReg != 0) = false -> opcode = instOpExit) := by
    decide
  exact opcodes inst.opcode cls

inductive CallDecoded (platform : EbpfPlatform) (insts : List EbpfInst) (pc : Nat)
    (inst : EbpfInst) :
    Instruction -> Prop where
  | local_ {call : CallLocal} (noBit : inst.hasSrcReg = false) (src : inst.src = instCallLocal)
      (target : getJumpTarget inst.imm insts pc = .ok call.target) :
      CallDecoded platform insts pc inst (.callLocal call)
  | helper {call : Call} (func : call.func = inst.imm.toInt)
      (form : inst = { opcode := instOpCall, imm := inst.imm }) :
      CallDecoded platform insts pc inst (.call call)
  | register {field : BitVec 4} (isReg : field.toNat ≤ 10) (bit : inst.hasSrcReg = true)
      (register : (if inst.imm = 0 then regOf inst.dst
        else ⟨UInt8.ofBitVec (inst.imm.setWidth 8)⟩) =
        regOf field)
      (callx : platform.supportsGroup .callx = true)
      (base32 : platform.supportsGroup .base32 = true) :
      CallDecoded platform insts pc inst (.callx ⟨regOf field⟩)

theorem callArguments_func {proto : EbpfHelperPrototype} {i : Nat} {args : List EbpfArgumentType}
    {res call : Call} (run : callArguments proto i args res = .ok call) : call.func = res.func := by
  fun_induction callArguments proto i args res <;>
    first
      | exact absurd run (throw_ne_ok _ _)
      | cases run
        rfl
      | rename_i inductionHypothesis
        exact inductionHypothesis run

theorem makeCallOp_spec {ins : Instruction} (isCall : inst.jmpOp = instCall)
    (run : makeCallOp platform inst insts pc = .ok ins) :
    inst.cls = instClsJmp ∧ CallDecoded platform insts pc inst ins := by
  rcases bind_eq_ok.mp run with ⟨_, cls, run⟩
  rcases bind_eq_ok.mp run with ⟨_, callx, run⟩
  rcases bind_eq_ok.mp run with ⟨_, base32, run⟩
  rcases bind_eq_ok.mp run with ⟨_, src, run⟩
  rcases bind_eq_ok.mp run with ⟨_, offset, run⟩
  rw [require_eq_ok] at cls callx base32 src offset
  have cls : inst.cls = instClsJmp := beq_iff_eq.mp cls
  have offset : inst.offset = 0 := of_decide_eq_true offset
  refine ⟨cls, ?_⟩
  split at run
  · rename_i isLocal
    rcases bind_eq_ok.mp run with ⟨_, noBit, run⟩
    rcases bind_eq_ok.mp run with ⟨_, _, run⟩
    rcases bind_eq_ok.mp run with ⟨target, jump, same⟩
    rw [require_eq_ok, Bool.not_eq_true'] at noBit
    cases same
    exact CallDecoded.local_ noBit isLocal jump
  · rename_i notLocal
    have noSrc : inst.src = 0 := by
      have fields : forall field : BitVec 4, field ≠ instCallLocal ->
          field.toNat < instCallBtfHelper.toNat -> field = 0 := by
        decide
      exact fields inst.src notLocal (of_decide_eq_true src)
    split at run
    · rename_i hasBit
      rw [hasBit] at callx
      have callx : platform.supportsGroup .callx = true := by simpa using callx
      rcases bind_eq_ok.mp run with ⟨_, bound, run⟩
      rw [require_eq_ok] at bound
      split at run
      · rename_i inImm
        rcases bind_eq_ok.mp run with ⟨_, _, run⟩
        rcases bind_eq_ok.mp run with ⟨_, isReg, same⟩
        rw [require_eq_ok, Bool.and_eq_true, decide_eq_true_eq, decide_eq_true_eq] at isReg
        have value := BitVec.toInt_eq_toNat_cond inst.imm
        have small : inst.imm.toNat ≤ 10 := by
          have immBound := inst.imm.isLt
          split at value <;> omega
        have field : (inst.imm.setWidth 4).toNat = inst.imm.toNat := by
          rw [BitVec.toNat_setWidth]
          exact Nat.mod_eq_of_lt (by omega)
        have register : (⟨UInt8.ofBitVec (inst.imm.setWidth 8)⟩ : Reg) = regOf
            (inst.imm.setWidth 4) := by
          rw [regOf, Reg.mk.injEq]
          apply congrArg UInt8.ofBitVec
          apply BitVec.eq_of_toNat_eq
          rw [BitVec.toNat_setWidth, BitVec.toNat_setWidth, field]
        rw [pure_eq_ok.mp same |>.symm, register]
        exact CallDecoded.register (by rw [field]; exact small) hasBit
          (by rw [if_neg inImm, register]) callx base32
      · rename_i inDst
        cases run
        exact CallDecoded.register (of_decide_eq_true bound) hasBit (if_pos (not_not.mp inDst))
          callx base32
    · rename_i notReg
      rcases bind_eq_ok.mp run with ⟨_, dst, run⟩
      rcases bind_eq_ok.mp run with ⟨_, _, run⟩
      rcases bind_eq_ok.mp run with ⟨call, made, same⟩
      rw [require_eq_ok] at dst
      have dst : inst.dst = 0 := of_decide_eq_true dst
      have opcode := (opcode_of_jmp cls).1 isCall (Bool.eq_false_iff.mpr notReg)
      cases same
      have func : call.func = inst.imm.toInt := by
        unfold makeCall at made
        dsimp only at made
        split at made
        · exact absurd made (throw_ne_ok _ _)
        · exact callArguments_func made
      apply CallDecoded.helper func
      rcases inst with ⟨_, _, _, _, imm⟩
      dsimp only at opcode dst noSrc offset ⊢
      rw [opcode, dst, noSrc, offset]

theorem makeExit_spec {ins : Instruction} (isExit : inst.jmpOp = instExit)
    (run : makeExit platform pc inst = .ok ins) : ins = .exit ⟨[]⟩ ∧
      inst = { opcode := instOpExit } := by
  rcases bind_eq_ok.mp run with ⟨_, _, run⟩
  rcases bind_eq_ok.mp run with ⟨_, cls, run⟩
  rcases bind_eq_ok.mp run with ⟨_, src, run⟩
  rcases bind_eq_ok.mp run with ⟨_, dst, run⟩
  rcases bind_eq_ok.mp run with ⟨_, imm, run⟩
  rcases bind_eq_ok.mp run with ⟨_, offset, run⟩
  rw [require_eq_ok] at cls src dst imm offset
  rw [Bool.and_eq_true, beq_iff_eq, Bool.not_eq_true'] at cls
  have opcode := (opcode_of_jmp cls.1).2 isExit cls.2
  have src := of_decide_eq_true src
  have dst := of_decide_eq_true dst
  have imm := of_decide_eq_true imm
  have offset := of_decide_eq_true offset
  refine ⟨(pure_eq_ok.mp run).symm, ?_⟩
  rcases inst with ⟨_, _, _, _, _⟩
  dsimp only at opcode dst src offset imm ⊢
  rw [opcode, dst, src, offset, imm]

/-- What an instruction of a jump class is decoded to. -/
theorem makeJmp_spec {ins : Instruction} (run : makeJmp platform inst insts pc = .ok ins) :
    (inst.cls = instClsJmp ∧ inst.jmpOp = instCall ∧ CallDecoded platform insts pc inst ins) ∨
      (ins = .exit ⟨[]⟩ ∧ inst = { opcode := instOpExit }) ∨
      (exists target, ins = .jmp ⟨none, target⟩ ∧ Goto insts pc inst target) ∨
      exists op right target,
        ins = .jmp ⟨some ⟨op, regOf inst.dst, right, inst.cls = instClsJmp⟩, target⟩ ∧
        inst.jmpOp ≠ instCall ∧ ConditionalJump insts pc inst op right target := by
  unfold makeJmp at run
  split at run
  · rename_i isCall
    have call := makeCallOp_spec isCall run
    exact Or.inl ⟨call.1, isCall, call.2⟩
  · rename_i notCall
    split at run
    · rename_i isExit
      exact Or.inr (Or.inl (makeExit_spec isExit run))
    · rename_i notExit
      right; right
      split at run
      · rename_i isGoto
        rcases bind_eq_ok.mp run with ⟨_, checked, jump⟩
        rcases bind_eq_ok.mp checked with ⟨_, cls, checked⟩
        rcases bind_eq_ok.mp checked with ⟨_, _, checked⟩
        rcases bind_eq_ok.mp checked with ⟨_, noSrc, _⟩
        rw [require_eq_ok] at cls noSrc
        rw [Bool.or_eq_true, beq_iff_eq, beq_iff_eq] at cls
        rcases makeJump_spec notCall notExit jump with goto | ⟨op, right, target, _, notJa, _⟩
        · exact Or.inl goto
        · have isJump := (isJa_spec (by simpa using noSrc) cls).mpr isGoto
          rw [isJump] at notJa
          cases notJa
      · rename_i notGoto
        rcases makeJump_spec notCall notExit run with goto |
          ⟨op, right, target, form, _, conditional⟩
        · exact Or.inl goto
        · exact Or.inr ⟨op, right, target, form, notCall, conditional notGoto⟩

end Jumps

/-! ## Memory instructions -/

section Memory

variable {platform : EbpfPlatform} {pc : Nat} {inst : EbpfInst}

theorem narrow_toInt {bits : Nat} (value : BitVec bits) : narrow bits value.toInt = .ok value := by
  rw [narrow, BitVec.ofInt_toInt, if_pos rfl]

theorem ok_singleton {found : EbpfInst} (same : found = inst) :
    (.ok [found] : Except MarshalError _) = .ok [inst] :=
  same ▸ rfl

/-- The memory operand of an instruction. -/
def accessOf (inst : EbpfInst) (base : BitVec 4) : Deref :=
  ⟨opcodeToWidth inst.size, regOf base, inst.offset.toInt⟩

/-- What an instruction of a memory class is decoded to. -/
inductive MemoryDecoded (inst : EbpfInst) : Instruction -> Prop where
  | packet {regoffset : Option Reg} (cls : inst.cls = instClsLd) (dst : inst.dst = 0)
      (offset : inst.offset = 0)
      (register : (regoffset = none ∧ inst.mode = instModeAbs ∧ inst.src = 0) ∨
        (regoffset = some (regOf inst.src) ∧ inst.mode = instModeInd)) :
      MemoryDecoded inst (.packet ⟨opcodeToWidth inst.size, inst.imm.toInt, regoffset⟩)
  | load (cls : inst.cls = instClsLdx) (mode : inst.mode = instModeMem) (imm : inst.imm = 0) :
      MemoryDecoded inst (.mem ⟨accessOf inst inst.src, .reg (regOf inst.dst), true⟩)
  | storeImm (cls : inst.cls = instClsSt) (mode : inst.mode = instModeMem) (src : inst.src = 0) :
      MemoryDecoded inst (.mem ⟨accessOf inst inst.dst, .imm ⟨zeroExtend inst.imm⟩, false⟩)
  | store (cls : inst.cls = instClsStx) (mode : inst.mode = instModeMem) (imm : inst.imm = 0) :
      MemoryDecoded inst (.mem ⟨accessOf inst inst.dst, .reg (regOf inst.src), false⟩)
  | atomic {op : AtomicOp} (cls : inst.cls = instClsStx) (mode : inst.mode = instModeAtomic)
      (code : codeOfAtomic op = inst.imm &&& ~~~instFetch)
      (fetches : op = .xchg ∨ op = .cmpxchg -> inst.imm &&& instFetch ≠ 0) :
      MemoryDecoded inst (.atomic ⟨op, inst.imm &&& instFetch == instFetch, accessOf inst inst.dst,
        regOf inst.src⟩)

theorem makePacket_spec {ins : Instruction} {regoffset : Option Reg}
    (register : (regoffset = none ∧ inst.mode = instModeAbs) ∨
      (regoffset = some (regOf inst.src) ∧ inst.mode = instModeInd))
    (run : makePacket platform pc inst regoffset = .ok ins) : MemoryDecoded inst ins := by
  rcases bind_eq_ok.mp run with ⟨_, packet, run⟩
  rcases bind_eq_ok.mp run with ⟨_, dst, run⟩
  rcases bind_eq_ok.mp run with ⟨_, src, run⟩
  rcases bind_eq_ok.mp run with ⟨_, offset, run⟩
  rw [require_eq_ok] at packet dst src offset
  simp only [Bool.and_eq_true, beq_iff_eq] at packet
  cases run
  refine MemoryDecoded.packet packet.1.2 (of_decide_eq_true dst) (of_decide_eq_true offset) ?_
  rcases register with ⟨rfl, mode⟩ | ⟨rfl, mode⟩
  · exact Or.inl ⟨rfl, mode, by simpa using src⟩
  · exact Or.inr ⟨rfl, mode⟩

/-- Only a store of an immediate has an even opcode. -/
theorem odd_iff (inst : EbpfInst) : (inst.cls = instClsSt -> inst.opcode &&& 1 = 0) ∧
    (inst.cls = instClsLdx ∨ inst.cls = instClsStx -> inst.opcode &&& 1 ≠ 0) := by
  have odd : forall opcode : BitVec 8, (opcode &&& instClsMask = instClsSt -> opcode &&& 1 = 0) ∧
      (opcode &&& instClsMask = instClsLdx ∨ opcode &&& instClsMask = instClsStx ->
        opcode &&& 1 ≠ 0) := by
    decide
  exact odd inst.opcode

theorem makeMem_spec {ins : Instruction} (mode : inst.mode = instModeMem)
    (cls : inst.cls = instClsLd ∨ inst.cls = instClsLdx ∨ inst.cls = instClsSt ∨
      inst.cls = instClsStx)
    (run : makeMem pc inst = .ok ins) : MemoryDecoded inst ins := by
  rcases bind_eq_ok.mp run with ⟨_, notLd, run⟩
  rcases bind_eq_ok.mp run with ⟨_, _, run⟩
  rcases bind_eq_ok.mp run with ⟨_, src, run⟩
  rcases bind_eq_ok.mp run with ⟨_, imm, run⟩
  rw [require_eq_ok] at notLd src imm
  have zero : inst.opcode &&& 1 ≠ 0 -> inst.imm = 0 := by
    intro notImm
    rw [decide_eq_false notImm] at imm
    simpa using imm
  rw [← pure_eq_ok.mp run]
  rcases cls with isLd | isLdx | isSt | isStx
  · exact absurd isLd (bne_iff_ne.mp notLd)
  · simp only [isLdx, decide_true, if_true]
    exact MemoryDecoded.load isLdx mode (zero ((odd_iff inst).2 (Or.inl isLdx)))
  · have isImm := (odd_iff inst).1 isSt
    have different : ¬ instClsSt = instClsLdx := by decide
    rw [decide_eq_true isImm] at src
    simp only [isSt, different, decide_false, if_false, if_pos isImm]
    exact MemoryDecoded.storeImm isSt mode (by simpa using src)
  · have notImm := (odd_iff inst).2 (Or.inr isStx)
    have different : ¬ instClsStx = instClsLdx := by decide
    simp only [isStx, different, decide_false, if_false, if_neg notImm]
    exact MemoryDecoded.store isStx mode (zero notImm)

/-- The fetch bit of an immediate, and the rest of it. -/
theorem fetch_cases (imm : BitVec 32) :
    (imm &&& instFetch = instFetch ∧ (imm &&& ~~~instFetch) ||| instFetch = imm) ∨
      (imm &&& instFetch ≠ instFetch ∧ imm &&& ~~~instFetch = imm) := by
  have joined : (imm &&& ~~~instFetch) ||| (imm &&& instFetch) = imm := by
    rw [← BitVec.and_or_distrib_left, BitVec.or_comm, BitVec.or_not_self, BitVec.and_allOnes]
  have bit : (imm &&& instFetch).toNat = imm.toNat % 2 := by
    rw [BitVec.toNat_and]
    exact Nat.and_one_is_mod imm.toNat
  rcases Nat.mod_two_eq_zero_or_one imm.toNat with even | odd
  · have zero : imm &&& instFetch = 0 := BitVec.eq_of_toNat_eq (bit.trans even)
    rw [zero] at joined
    refine Or.inr ⟨?_, by simpa using joined⟩
    rw [zero]
    decide
  · have one : imm &&& instFetch = instFetch := BitVec.eq_of_toNat_eq (bit.trans odd)
    rw [one] at joined
    exact Or.inl ⟨one, joined⟩

theorem codeOfAtomic_atomicOf {value : BitVec 32} {op : AtomicOp}
    (found : atomicOf value = some op) :
    codeOfAtomic op = value := by
  unfold atomicOf at found
  repeat' split at found
  all_goals
    rename_i isCode
    first
      | cases found
        exact isCode.symm
      | cases found

theorem makeAtomic_spec {ins : Instruction} (mode : inst.mode = instModeAtomic)
    (run : makeAtomic platform pc inst = .ok ins) : MemoryDecoded inst ins := by
  rcases bind_eq_ok.mp run with ⟨_, cls, run⟩
  rcases bind_eq_ok.mp run with ⟨_, _, run⟩
  rcases bind_eq_ok.mp run with ⟨op, selected, run⟩
  rw [require_eq_ok, Bool.and_eq_true, beq_iff_eq] at cls
  cases run
  unfold getAtomicOp at selected
  split at selected
  · rename_i found isFound
    rcases bind_eq_ok.mp selected with ⟨_, fetches, same⟩
    rw [require_eq_ok] at fetches
    cases same
    refine MemoryDecoded.atomic cls.1 mode (codeOfAtomic_atomicOf isFound) ?_
    intro isExchange noFetch
    rw [noFetch] at fetches
    rcases isExchange with rfl | rfl <;> cases fetches
  · exact absurd selected (throw_ne_ok _ _)

theorem makeMemOp_spec {ins : Instruction}
    (cls : inst.cls = instClsLd ∨ inst.cls = instClsLdx ∨ inst.cls = instClsSt ∨
      inst.cls = instClsStx)
    (run : makeMemOp platform pc inst = .ok ins) : MemoryDecoded inst ins := by
  rcases bind_eq_ok.mp run with ⟨_, _, run⟩
  rcases bind_eq_ok.mp run with ⟨_, _, run⟩
  split at run
  · rename_i mode
    exact makePacket_spec (Or.inl ⟨rfl, mode⟩) run
  · split at run
    · rename_i mode
      exact makePacket_spec (Or.inr ⟨rfl, mode⟩) run
    · split at run
      · rename_i mode
        exact makeMem_spec mode cls run
      · split at run
        · rename_i mode
          exact makeAtomic_spec mode run
        · exact absurd run (throw_ne_ok _ _)

/-- The immediate of an atomic operation is written back, and not negative. -/
theorem atomic_imm {op : AtomicOp} (code : codeOfAtomic op = inst.imm &&& ~~~instFetch) :
    (if (inst.imm &&& instFetch == instFetch) = true then codeOfAtomic op ||| instFetch
      else codeOfAtomic op) = inst.imm ∧ ¬ inst.imm.toInt < 0 := by
  have imm : (if (inst.imm &&& instFetch == instFetch) = true then codeOfAtomic op ||| instFetch
      else codeOfAtomic op) = inst.imm := by
    rcases fetch_cases inst.imm with ⟨fetch, joined⟩ | ⟨noFetch, same⟩
    · rw [if_pos (beq_iff_eq.mpr fetch), code, joined]
    · rw [if_neg (fun isFetch => noFetch (beq_iff_eq.mp isFetch)), code, same]
  refine ⟨imm, ?_⟩
  rw [← imm]
  split <;> cases op <;> decide

/-- A memory instruction is written back, unless it stores a negative
immediate. -/
theorem MemoryDecoded.marshal_eq {ins : Instruction} (decoded : MemoryDecoded inst ins) :
    (inst.cls = instClsLd ∧ marshal pc ins = .ok [inst]) ∨
      (inst.cls ≠ instClsLd ∧ marshal pc ins = List.singleton <$> written inst) := by
  have parts := opcode_memParts inst
  have nonneg : inst.imm = 0 -> written inst = .ok inst := by
    intro noImm
    rw [written, noImm, if_neg (by decide)]
  cases decoded with
  | packet cls dst offset register =>
      have parts := parts.1
      rw [cls] at parts
      refine Or.inl ⟨cls, ?_⟩
      simp only [marshal, marshalPacket, narrow_toInt, widthToOpcode_opcodeToWidth]
      rcases register with ⟨rfl, mode, src⟩ | ⟨rfl, mode⟩
      · rw [mode] at parts
        exact ok_singleton (EbpfInst.ext parts dst.symm src.symm offset.symm rfl)
      · rw [mode] at parts
        exact ok_singleton
          (EbpfInst.ext parts dst.symm (fieldOf_regOf inst.src) offset.symm rfl)
  | load cls mode imm =>
      have parts := parts.2.2
      rw [mode, cls] at parts
      refine Or.inr ⟨by rw [cls]; decide, ?_⟩
      simp only [marshal, marshalMem, accessOf, narrow_toInt, widthToOpcode_opcodeToWidth,
        fieldOf_regOf, if_true, nonneg imm]
      exact ok_singleton (EbpfInst.ext parts rfl rfl rfl imm.symm)
  | storeImm cls mode src =>
      have parts := parts.2.2
      rw [mode, cls] at parts
      refine Or.inr ⟨by rw [cls]; decide, ?_⟩
      simp only [marshal, marshalMem, accessOf, narrow_toInt, widthToOpcode_opcodeToWidth,
        fieldOf_regOf, Bool.false_eq_true, if_false, narrow_zeroExtend, written]
      split
      · rfl
      · exact ok_singleton (EbpfInst.ext parts rfl src.symm rfl rfl)
  | store cls mode imm =>
      have parts := parts.2.2
      rw [mode, cls] at parts
      refine Or.inr ⟨by rw [cls]; decide, ?_⟩
      simp only [marshal, marshalMem, accessOf, narrow_toInt, widthToOpcode_opcodeToWidth,
        fieldOf_regOf, Bool.false_eq_true, if_false, nonneg imm]
      have opcode : instModeMem ||| inst.size ||| instClsSt ||| 0x1 = inst.opcode := by
        rw [← parts, BitVec.or_assoc]
        rfl
      exact ok_singleton (EbpfInst.ext opcode rfl rfl rfl imm.symm)
  | atomic cls mode code fetches =>
      rcases atomic_imm code with ⟨imm, positive⟩
      have parts := parts.2.1
      rw [cls, mode] at parts
      refine Or.inr ⟨by rw [cls]; decide, ?_⟩
      simp only [marshal, marshalAtomic, accessOf, narrow_toInt, widthToOpcode_opcodeToWidth,
        fieldOf_regOf, imm]
      rw [written, if_neg positive]
      exact ok_singleton (EbpfInst.ext parts rfl rfl rfl rfl)

end Memory

/-! ## Double slots -/

theorem makeLddw_spec {platform : EbpfPlatform} {insts : List EbpfInst} {pc : Nat}
    {inst : EbpfInst} {ins : Instruction} (run : makeLddw platform inst insts pc = .ok ins) :
    exists next, insts[pc + 1]? = some next ∧ next = { opcode := 0, imm := next.imm } ∧
      inst.offset = 0 ∧
      ((inst.src = 1 ∧ next.imm = 0 ∧ ins = .loadMapFd ⟨regOf inst.dst, inst.imm.toInt⟩) ∨
        (inst.src = 0 ∧
          ins = .bin ⟨.mov, regOf inst.dst, .imm ⟨mergeImm inst.imm next.imm⟩, true, true⟩)) := by
  rcases bind_eq_ok.mp run with ⟨_, _, run⟩
  split at run
  · exact absurd run (throw_ne_ok _ _)
  · rename_i next found
    rcases bind_eq_ok.mp run with ⟨_, nextFields, run⟩
    rcases bind_eq_ok.mp run with ⟨_, src, run⟩
    rcases bind_eq_ok.mp run with ⟨_, offset, run⟩
    rcases bind_eq_ok.mp run with ⟨_, _, run⟩
    rw [require_eq_ok] at nextFields src offset
    simp only [Bool.and_eq_true, decide_eq_true_eq] at nextFields src
    rcases nextFields with ⟨⟨⟨nextOpcode, nextDst⟩, nextSrc⟩, nextOffset⟩
    refine ⟨next, found, EbpfInst.ext nextOpcode nextDst nextSrc nextOffset rfl,
      of_decide_eq_true offset, ?_⟩
    split at run
    · rename_i isFd
      rcases bind_eq_ok.mp run with ⟨_, nextImm, same⟩
      rw [require_eq_ok] at nextImm
      exact Or.inl ⟨isFd, of_decide_eq_true nextImm, (pure_eq_ok.mp same).symm⟩
    · rename_i notFd
      have fields : forall field : BitVec 4, field ≠ 1 -> field.toNat ≤ 1 -> field = 0 := by
        decide
      exact Or.inr ⟨fields inst.src notFd src, (pure_eq_ok.mp run).symm⟩

/-- The load of a constant or of a map is written back in its two slots. -/
theorem makeLddw_marshal {platform : EbpfPlatform} {insts : List EbpfInst} {pc : Nat}
    {inst : EbpfInst} {ins : Instruction} (opcode : inst.opcode = instOpLddwImm)
    (run : makeLddw platform inst insts pc = .ok ins) :
    exists next, insts[pc + 1]? = some next ∧ marshal pc ins = .ok [inst, next] := by
  rcases makeLddw_spec run with ⟨next, found, second, offset, form⟩
  have two : forall {first second : EbpfInst}, first = inst -> second = next ->
      (.ok [first, second] : Except MarshalError _) = .ok [inst, next] := by
    rintro first second rfl rfl
    rfl
  have dstField := fieldOf_regOf inst.dst
  refine ⟨next, found, ?_⟩
  rcases form with ⟨isFd, nextImm, rfl⟩ | ⟨noSrc, rfl⟩
  · refine two
      (EbpfInst.ext opcode.symm dstField isFd.symm offset.symm (BitVec.ofInt_toInt ..)) ?_
    rw [second, nextImm]
  · simp only [marshal, marshalBin, if_true, splitImm_mergeImm]
    exact two (EbpfInst.ext opcode.symm dstField noSrc.symm offset.symm rfl) second.symm

/-! ## The round trip -/

section RoundTrip

variable {platform : EbpfPlatform} {insts : List EbpfInst} {pc slots : Nat} {inst : EbpfInst}
  {ins : Instruction}

/-- The four kinds of instructions that the decoder distinguishes. -/
theorem decodeAt_cases (run : decodeAt platform insts pc inst = .ok (ins, slots)) :
    (inst.opcode = instOpLddwImm ∧ slots = 2 ∧ makeLddw platform inst insts pc = .ok ins) ∨
    (isAlu inst = true ∧ slots = 1 ∧ makeAluOp platform pc inst = .ok ins) ∨
    ((inst.cls = instClsJmp32 ∨ inst.cls = instClsJmp) ∧ slots = 1 ∧
      makeJmp platform inst insts pc = .ok ins) ∨
    ((inst.cls = instClsLd ∨ inst.cls = instClsLdx ∨ inst.cls = instClsSt ∨ inst.cls = instClsStx) ∧
      slots = 1 ∧ makeMemOp platform pc inst = .ok ins) := by
  unfold decodeAt at run
  split at run
  · rename_i isLddw
    rcases bind_eq_ok.mp run with ⟨found, made, same⟩
    cases same
    exact Or.inl ⟨isLddw, rfl, made⟩
  · right
    split at run
    · rename_i alu
      rcases bind_eq_ok.mp run with ⟨found, made, same⟩
      cases same
      exact Or.inl ⟨alu, rfl, made⟩
    · rename_i notAlu
      right
      split at run
      · rename_i jump
        rcases bind_eq_ok.mp run with ⟨found, made, same⟩
        cases same
        exact Or.inl ⟨by simpa using jump, rfl, made⟩
      · rename_i notJump
        rcases bind_eq_ok.mp run with ⟨found, made, same⟩
        cases same
        refine Or.inr ⟨?_, rfl, made⟩
        have classes : forall opcode : BitVec 8,
            ¬ ((opcode &&& instClsMask == instClsAlu || opcode &&& instClsMask == instClsAlu64) =
              true) ->
            ¬ ((decide (opcode &&& instClsMask = instClsJmp32) ||
              decide (opcode &&& instClsMask = instClsJmp)) = true) ->
            (opcode &&& instClsMask = instClsLd ∨ opcode &&& instClsMask = instClsLdx ∨
              opcode &&& instClsMask = instClsSt ∨ opcode &&& instClsMask = instClsStx) := by
          decide
        exact classes inst.opcode notAlu notJump

/-- The program with an encoding in the place of some slots. -/
def replaceAt (insts : List EbpfInst) (pc slots : Nat) (raw : List EbpfInst) : List EbpfInst :=
  insts.take pc ++ raw ++ insts.drop (pc + slots)

theorem replaceAt_self (found : insts[pc]? = some inst) : replaceAt insts pc 1 [inst] = insts := by
  have bound := (List.getElem?_eq_some_iff.mp found).1
  have at_ := (List.getElem?_eq_some_iff.mp found).2
  rw [replaceAt, ← at_, List.append_assoc, List.singleton_append, ← List.drop_eq_getElem_cons bound,
    List.take_append_drop]

theorem replaceAt_pair {next : EbpfInst} (found : insts[pc]? = some inst)
    (second : insts[pc + 1]? = some next) :
    replaceAt insts pc 2 [inst, next] = insts := by
  have bound := (List.getElem?_eq_some_iff.mp found).1
  have at_ := (List.getElem?_eq_some_iff.mp found).2
  have secondBound := (List.getElem?_eq_some_iff.mp second).1
  have secondAt := (List.getElem?_eq_some_iff.mp second).2
  rw [replaceAt, ← at_, ← secondAt, List.append_assoc, List.cons_append, List.singleton_append,
    ← List.drop_eq_getElem_cons secondBound, ← List.drop_eq_getElem_cons bound,
    List.take_append_drop]

/-- The encoding of an instruction at its program counter exists and is decoded
to the same instruction. -/
def RoundTrips (platform : EbpfPlatform) (insts : List EbpfInst) (pc : Nat) (ins : Instruction)
    (slots : Nat) : Prop :=
  exists first more, marshal pc ins = .ok (first :: more) ∧
    decodeAt platform (replaceAt insts pc slots (first :: more)) pc first = .ok (ins, slots)

/-- The instructions that the round trip is about: all but local calls and
unconditional jumps. -/
def IsCodec (pc : Nat) : Instruction -> Prop
  | .callLocal _ => False
  | .jmp jmp => jmp.cond.isSome = true ∧ is16 (labelOffset pc jmp.target) = true
  | _ => True

/-- The encoder keeps all fields: the instruction is no 32-bit jump, and a
negative immediate does not stand in an arithmetic instruction, a store or a
jump. -/
def Survives (inst : EbpfInst) : Prop :=
  inst.cls ≠ instClsJmp32 ∧
    (inst.imm.toInt < 0 -> inst.cls = instClsLd ∨ (inst.cls = instClsJmp ∧ inst.jmpOp = instCall))

instance (inst : EbpfInst) : Decidable (Survives inst) := inferInstanceAs (Decidable (_ ∧ _))

theorem roundTrips_of_written (found : insts[pc]? = some inst)
    (run : decodeAt platform insts pc inst = .ok (ins, 1)) (encoded : marshal pc ins = .ok [inst]) :
    RoundTrips platform insts pc ins 1 := by
  refine ⟨inst, [], encoded, ?_⟩
  rw [replaceAt_self found]
  exact run

/-- An instruction that is written back up to its immediate. -/
theorem roundTrips_written_iff (found : insts[pc]? = some inst)
    (run : decodeAt platform insts pc inst = .ok (ins, 1))
    (encoded : marshal pc ins = List.singleton <$> written inst) :
    RoundTrips platform insts pc ins 1 ↔ ¬ inst.imm.toInt < 0 := by
  rw [written] at encoded
  by_cases negative : inst.imm.toInt < 0
  · rw [if_pos negative] at encoded
    refine iff_of_false ?_ (not_not.mpr negative)
    rintro ⟨first, more, same, _⟩
    rw [encoded] at same
    cases same
  · rw [if_neg negative] at encoded
    exact iff_of_true (roundTrips_of_written found run encoded) negative

/-- The instructions of the jump class are decoded as jumps. -/
theorem decodeAt_of_jmp (cls : inst.cls = instClsJmp)
    (run : decodeAt platform insts pc inst = .ok (ins, slots)) :
    makeJmp platform inst insts pc = .ok ins := by
  rcases decodeAt_cases run with ⟨opcode, _, _⟩ | ⟨alu, _, _⟩ | ⟨_, _, made⟩ | ⟨memory, _, _⟩
  · rw [EbpfInst.cls, opcode] at cls
    exact absurd cls (by decide)
  · rw [isAlu, cls] at alu
    exact absurd alu (by decide)
  · exact made
  · rw [cls] at memory
    exact absurd memory (by decide)

/-- A conditional jump of 32 bits comes back as one of 64 bits, if at all. -/
theorem not_roundTrips_of_jmp32 {op : ConditionOp} {left : Reg} {right : Value} {target : Label} :
    ¬ RoundTrips platform insts pc (.jmp ⟨some ⟨op, left, right, false⟩, target⟩) slots := by
  rintro ⟨first, more, encoded, decoded⟩
  have cls := cls_of_marshal_jmp encoded
  rcases makeJmp_spec (decodeAt_of_jmp cls decoded) with
    ⟨_, _, call⟩ | ⟨same, _⟩ | ⟨_, same, _⟩ | ⟨_, _, _, same, _⟩
  · cases call
  · cases same
  · cases same
  · simp only [Instruction.jmp.injEq, Jmp.mk.injEq, Option.some.injEq, Condition.mk.injEq, cls,
      decide_true] at same
    exact absurd same.1.2.2.2 (by decide)

/-- A call through a register comes back, wherever the register stood. -/
theorem roundTrips_callx {field : BitVec 4} (isReg : field.toNat ≤ 10)
    (callx : platform.supportsGroup .callx = true)
    (base32 : platform.supportsGroup .base32 = true) :
    RoundTrips platform insts pc (.callx ⟨regOf field⟩) 1 := by
  refine ⟨{ opcode := instOpCallx, dst := field }, [], ?_, ?_⟩
  · rw [marshal, fieldOf_regOf]
    rfl
  · have isCallx : decodeAt platform
        (replaceAt insts pc 1 [{ opcode := instOpCallx, dst := field }]) pc
        { opcode := instOpCallx, dst := field } =
          (makeCallOp platform { opcode := instOpCallx, dst := field }
            (replaceAt insts pc 1 [{ opcode := instOpCallx, dst := field }]) pc >>= fun ins =>
              .ok (ins, 1)) := by
      have notLddw : ¬ instOpCallx = instOpLddwImm := by decide
      have notAlu : ¬ isAlu { opcode := instOpCallx, dst := field } = true := by
        change ¬ (instOpCallx &&& instClsMask == instClsAlu || instOpCallx &&& instClsMask ==
          instClsAlu64) = true
        decide
      have isJmp : instOpCallx &&& instClsMask = instClsJmp := by decide
      have isCall : (instOpCallx >>> 4) &&& 0xf = instCall := by decide
      simp only [decodeAt, if_neg notLddw, if_neg notAlu, EbpfInst.cls, isJmp, decide_true,
        Bool.or_true, if_true, makeJmp, EbpfInst.jmpOp, isCall]
      rfl
    have made : makeCallOp platform { opcode := instOpCallx, dst := field }
        (replaceAt insts pc 1 [{ opcode := instOpCallx, dst := field }]) pc = .ok
        (.callx ⟨regOf field⟩) := by
      have isJmp : instOpCallx &&& instClsMask = instClsJmp := by decide
      have hasSrc : ({ opcode := instOpCallx, dst := field : EbpfInst }).hasSrcReg = true := by
        change (instOpCallx &&& instSrcReg != 0) = true
        decide
      have notLocal : ¬ (0 : BitVec 4) = instCallLocal := by decide
      simp only [makeCallOp, callx, base32, makeCallx, isReg, EbpfInst.cls, isJmp, hasSrc, notLocal]
      rfl
    rw [isCallx, made]
    rfl

/-- Decoding reverses encoding exactly where the encoder keeps all fields. -/
theorem roundTrips_iff_survives {label : Label} (found : insts[pc]? = some inst)
    (labelled : labelOf pc = .ok label)
    (run : decodeAt platform insts pc inst = .ok (ins, slots)) (codec : IsCodec pc ins) :
    RoundTrips platform insts pc ins slots ↔ Survives inst := by
  have bound : pc < 2 ^ 31 := by
    unfold labelOf at labelled
    split at labelled
    · assumption
    · cases labelled
  rcases decodeAt_cases run with ⟨opcode, rfl, made⟩ | ⟨alu, rfl, made⟩ | ⟨cls, rfl, made⟩ |
    ⟨cls, rfl, made⟩
  · have cls : inst.cls = instClsLd := by
      rw [EbpfInst.cls, opcode]
      decide
    rcases makeLddw_marshal opcode made with ⟨next, second, encoded⟩
    refine iff_of_true ⟨inst, [next], encoded, ?_⟩ ⟨by rw [cls]; decide, fun _ => Or.inl cls⟩
    rw [replaceAt_pair found second]
    exact run
  · rw [roundTrips_written_iff found run (marshal_aluOp alu made), Survives]
    rw [isAlu, Bool.or_eq_true, beq_iff_eq, beq_iff_eq] at alu
    rcases alu with cls | cls <;> rw [cls] <;>
      simp [instClsAlu, instClsAlu64, instClsJmp32, instClsLd, instClsJmp]
  · rcases makeJmp_spec made with
      ⟨isJmp, isCall, call⟩ | ⟨rfl, form⟩ | ⟨_, rfl, _⟩ | ⟨op, right, target, rfl, notCall, jump⟩
    · have survives : Survives inst := ⟨by rw [isJmp]; decide, fun _ => Or.inr ⟨isJmp, isCall⟩⟩
      refine iff_of_true ?_ survives
      cases call with
      | local_ _ _ _ => exact codec.elim
      | helper func form =>
          apply roundTrips_of_written found run
          rw [marshal, func, BitVec.ofInt_toInt]
          exact ok_singleton form.symm
      | register isReg _ _ callx base32 => exact roundTrips_callx isReg callx base32
    · refine iff_of_true (roundTrips_of_written found run (ok_singleton form.symm)) ?_
      rw [form]
      decide
    · cases codec.1
    · rcases cls with is32 | is64
      · have width : decide (inst.cls = instClsJmp) = false := by
          rw [is32]
          decide
        rw [width]
        exact iff_of_false not_roundTrips_of_jmp32 (fun survives => survives.1 is32)
      · rw [roundTrips_written_iff found run (jump.marshal_eq bound is64 _), Survives, is64]
        simp [instClsJmp, instClsJmp32, instClsLd, notCall]
  · rcases (makeMemOp_spec cls made).marshal_eq with ⟨isLd, encoded⟩ | ⟨notLd, encoded⟩
    · refine iff_of_true (roundTrips_of_written found run encoded) ⟨?_, fun _ => Or.inl isLd⟩
      rw [isLd]
      decide
    · have notJmp : inst.cls ≠ instClsJmp32 ∧ inst.cls ≠ instClsJmp := by
        rcases cls with same | same | same | same <;> rw [same] <;> decide
      rw [roundTrips_written_iff found run encoded, Survives]
      simp [notLd, notJmp]

end RoundTrip

/-! ## An immediate of either sign -/

/-- A platform that supports all groups. -/
def allGroups : EbpfPlatform where
  supportsGroup _ := true
  getHelperPrototype _ := ⟨[], .integer, fun _ => .dontcare, false⟩
  isHelperUsable _ := true

/-- The addition of an immediate to `r1`. -/
def addImm (imm : BitVec 32) : EbpfInst := { opcode := instClsAlu64, dst := 1, imm := imm }

/-- `addImm`, decoded. -/
def addImmBin (imm : BitVec 32) : Instruction :=
  .bin ⟨.add, ⟨1⟩, .imm ⟨signExtend imm⟩, true, false⟩

/-- `r1 += 1` comes back. -/
theorem roundTrips_addOne :
    RoundTrips allGroups [addImm 1, { opcode := instOpExit }] 0 (addImmBin 1) 1 := by
  have survives : Survives (addImm 1) := by decide
  refine (roundTrips_iff_survives rfl rfl rfl ?_).mpr survives
  exact True.intro

/-- `r1 += -1` is decoded, but does not come back. -/
theorem not_roundTrips_addMinusOne :
    decodeAt allGroups [addImm (-1), { opcode := instOpExit }] 0 (addImm (-1)) = .ok
      (addImmBin (-1), 1) ∧ IsCodec 0 (addImmBin (-1)) ∧
      ¬ RoundTrips allGroups [addImm (-1), { opcode := instOpExit }] 0 (addImmBin (-1)) 1 := by
  refine ⟨rfl, True.intro, ?_⟩
  rintro ⟨first, more, encoded, _⟩
  cases encoded

end Unmarshaller
end Prevail
