import Prevail.Cfg.FirstPass
import Prevail.Library.Execution

namespace Prevail

/-!
# The graph executes the sequence

The graph of a sequence without local calls has the executions of the sequence.
A node acts as its instruction does, an assumption lets only those states pass
in which its condition holds, and control then moves to any child.  The graph
takes more steps than the sequence, since it starts at the entry and leads a
conditional jump through a label of its own; these configurations are not part
of the sequence, and the view leaves them out.
-/

/-- The inverse operator is the exact complement, at every width. -/
theorem ConditionOp.reverse_compares {width : Nat} (op : ConditionOp) (left right : BitVec width) :
    op.reverse.Compares left right ↔ ¬ op.Compares left right := by
  cases op <;> simp only [ConditionOp.reverse, ConditionOp.Compares, not_lt, not_le, not_not, ne_eq]

theorem Condition.reverse_holds (cond : Condition) (registers : Reg -> BitVec 64) :
    cond.reverse.Holds registers ↔ ¬ cond.Holds registers := by
  unfold Condition.Holds Condition.reverse
  cases cond.is64 <;> exact cond.op.reverse_compares _ _

/-- The labels of a sequence. -/
def InstructionSeq.labels (prog : InstructionSeq) : List Label := prog.map Prod.fst

/-- What a configuration of the graph shows of the sequence: nothing at the
entry and between the ends of a conditional jump. -/
def InstructionSeq.view {State : Type} (prog : InstructionSeq) (config : Label × State) :
    Option (Label × State) :=
  if config.1 ∈ prog.labels ∨ config.1 = Label.exit then some config else none

namespace Cfg

/-- One step of the graph. -/
def Step {State : Type} (machine : Machine State) (cfg : Cfg)
    (current after : Label × State) : Prop :=
  (if current.1 = Label.entry then after.2 = current.2
    else machine.Passes (cfg.instructions current.1).cmd current.2 after.2) ∧
    after.1 ∈ cfg.children current.1

section Nodes

variable {prog : InstructionSeq} {cfg : Cfg} {mustHaveExit : Bool} {label fallthrough : Label}
  {ins : Instruction}

/-- An instruction either has one successor, where it always goes, or it is a
conditional jump whose successors assume its two outcomes. -/
theorem NodeConnected.cases (connected : cfg.NodeConnected label fallthrough ins)
    (defined : Defined ins) :
    (exists target, (forall next, next ∈ cfg.children label ↔ next = target) ∧
      forall (State : Type) (machine : Machine State) state next,
        machine.GoesTo ins fallthrough state next ↔ next = target) ∨
    exists cond target, ins = .jmp ⟨some cond, target⟩ ∧ target ≠ fallthrough ∧
      cfg.JumpConnected label target fallthrough cond := by
  unfold NodeConnected at connected
  split at connected
  · rename_i opcode
    exact absurd rfl (defined opcode)
  · rename_i jmp
    rcases jmp with ⟨condition, target⟩
    cases condition with
    | none => exact Or.inl ⟨target, connected, fun State machine state next => Iff.rfl⟩
    | some cond =>
        by_cases same : target = fallthrough
        · left
          refine ⟨fallthrough, by simpa [same] using connected, ?_⟩
          intro State machine state next
          simp only [Machine.GoesTo, same]
          tauto
        · right
          exact ⟨cond, target, rfl, same, by simpa [same] using connected⟩
  · exact Or.inl ⟨Label.exit, connected, fun State machine state next => Iff.rfl⟩
  · rename_i notJump notExit
    left
    refine ⟨fallthrough, connected, ?_⟩
    intro State machine state next
    cases ins <;> first | rfl | simp_all

theorem mem_labels_iff {other : Label} :
    other ∈ prog.labels ↔ exists ins rest, (other, ins) :: rest <:+ prog := by
  constructor
  · intro member
    rcases List.mem_map.mp member with ⟨⟨found, ins⟩, inProg, rfl⟩
    rcases List.append_of_mem inProg with ⟨before, rest, form⟩
    exact ⟨ins, rest, before, form.symm⟩
  · rintro ⟨ins, rest, suffix⟩
    exact List.mem_map.mpr ⟨(other, ins), suffix.subset List.mem_cons_self, rfl⟩

theorem occurs_iff (defined : forall label ins, (label, ins) ∈ prog -> Defined ins)
    {other : Label} :
    Occurs prog other ↔ other ∈ prog.labels := by
  constructor
  · rintro ⟨ins, member, _⟩
    exact List.mem_map.mpr ⟨(other, ins), member, rfl⟩
  · intro member
    rcases List.mem_map.mp member with ⟨⟨found, ins⟩, inProg, rfl⟩
    exact ⟨ins, inProg, defined found ins inProg⟩

theorem fallthrough_shown {rest : InstructionSeq} (suffix : rest <:+ prog) :
    InstructionSeq.fallthrough rest ∈ prog.labels ∨
      InstructionSeq.fallthrough rest = Label.exit := by
  cases rest with
  | nil => exact Or.inr rfl
  | cons next rest => exact Or.inl (mem_labels_iff.mpr ⟨next.2, rest, suffix⟩)

theorem isJumpLabel_of_branch {target : Label} {cond : Condition} {rest : InstructionSeq}
    (suffix : (label, .jmp ⟨some cond, target⟩) :: rest <:+ prog)
    (different : target ≠ InstructionSeq.fallthrough rest) :
    IsJumpLabel prog (Label.makeJump label target) ∧
      IsJumpLabel prog (Label.makeJump label (InstructionSeq.fallthrough rest)) := by
  constructor <;> refine ⟨label, _, rest, suffix, ?_⟩ <;> simp [jumpLabels, different]

variable (indexed : prog.Indexed)

include indexed

theorem fallthrough_fromIndex_nonneg {rest : InstructionSeq} (suffix : rest <:+ prog) :
    0 ≤ (InstructionSeq.fallthrough rest).fromIndex := by
  cases rest with
  | nil => decide
  | cons next rest => exact (indexed next.1 next.2 (suffix.subset List.mem_cons_self)).1.fromIndex

theorem IsJumpLabel.toIndex_ne {jump : Label} (isJump : IsJumpLabel prog jump) :
    jump.toIndex ≠ -1 := by
  rcases isJump with ⟨label, ins, rest, suffix, member⟩
  have next := fallthrough_fromIndex_nonneg indexed
    ((List.suffix_cons (label, ins) rest).trans suffix)
  have isInst := (indexed label ins (suffix.subset List.mem_cons_self)).2
  unfold jumpLabels at member
  split at member
  · rename_i jmp
    have target := (isInst jmp.target rfl).fromIndex
    split at member
    · split at member
      · cases member
      · simp only [List.mem_cons, List.not_mem_nil, or_false] at member
        rcases member with rfl | rfl <;> simp only [Label.makeJump, ne_eq] <;> omega
    · cases member
  · cases member

variable (graph : FirstPassGraph mustHaveExit prog cfg)
  (defined : forall label ins, (label, ins) ∈ prog -> Defined ins)

include graph defined

/-- A label of the graph that is an index belongs to the sequence, or is the
exit. -/
theorem mem_labels_of_index {other : Label} (member : other ∈ cfg.labels)
    (fromIndex : 0 ≤ other.fromIndex)
    (toIndex : other.toIndex = -1) : other ∈ prog.labels ∨ other = Label.exit := by
  rcases (graph.labels other).mp member with rfl | isExit | occurs | isJump
  · exact absurd fromIndex (by decide)
  · exact Or.inr isExit
  · exact Or.inl ((occurs_iff defined).mp occurs)
  · exact absurd toIndex (isJump.toIndex_ne indexed)

/-- The targets of jumps of the graph are labels of the sequence. -/
theorem target_shown {target : Label} {source : Label} (isInst : (label, ins) ∈ prog)
    (isTarget : ins.target? = some target) (child : target ∈ cfg.children source) :
    target ∈ prog.labels ∨ target = Label.exit := by
  have index := (indexed label ins isInst).2 target isTarget
  exact mem_labels_of_index indexed graph defined (graph.wellFormed.target source target child)
    index.fromIndex
    index.toIndex

theorem successor_shown {rest : InstructionSeq} (suffix : (label, ins) :: rest <:+ prog)
    {target : Label} (children : forall next, next ∈ cfg.children label ↔ next = target)
    (goes : forall (State : Type) (machine : Machine State) state next,
      machine.GoesTo ins (InstructionSeq.fallthrough rest) state next ↔ next = target) :
    target ∈ prog.labels ∨ target = Label.exit := by
  have isInst : (label, ins) ∈ prog := suffix.subset List.mem_cons_self
  have next := fallthrough_shown ((List.suffix_cons (label, ins) rest).trans suffix)
  have child := (children target).mpr rfl
  have reached := (goes Unit ⟨fun _ _ => 0, fun _ _ _ => True⟩ () target).mpr rfl
  cases ins with
  | jmp jmp =>
      rcases jmp with ⟨condition, jumpTarget⟩
      cases condition with
      | none =>
          have same : target = jumpTarget := reached
          exact target_shown indexed graph defined isInst (by rw [same]; rfl) child
      | some cond =>
          rcases reached with ⟨_, same⟩ | ⟨_, same⟩
          · exact target_shown indexed graph defined isInst (by rw [same]; rfl) child
          · exact same ▸ next
  | exit ins => exact Or.inr reached
  | _ => exact (show target = _ from reached) ▸ next

end Nodes

/-! ## The two step relations -/

section Simulation

variable {State : Type} {prog : InstructionSeq} {cfg : Cfg} {mustHaveExit : Bool}

theorem view_eq_some {config shown : Label × State} :
    prog.view config = some shown ↔ (config.1 ∈ prog.labels ∨ config.1 = Label.exit) ∧
      config = shown := by
  unfold InstructionSeq.view
  split <;> simp_all

theorem view_eq_none {config : Label × State} :
    prog.view config = none ↔ config.1 ∉ prog.labels ∧ config.1 ≠ Label.exit := by
  unfold InstructionSeq.view
  rw [← not_or]
  split <;> simp_all

/-- A configuration of the graph is behind the last configuration it showed:
it is that configuration, or on one of the branches out of it. -/
def Behind (prog : InstructionSeq) (cfg : Cfg) (state : State) (config : Label × State) :
    Option (Label × State) -> Prop
  | none => config = (Label.entry, state)
  | some shown =>
      (config = shown ∧ (shown.1 ∈ prog.labels ∨ shown.1 = Label.exit)) ∨
        (config.2 = shown.2 ∧ shown.1 ∈ prog.labels ∧ config.1 ∈ cfg.children shown.1 ∧
          IsJumpLabel prog config.1)

variable (machine : Machine State) (indexed : prog.Indexed)
  (graph : FirstPassGraph mustHaveExit prog cfg)
  (defined : forall label ins, (label, ins) ∈ prog -> Defined ins)

include indexed graph defined

omit indexed in
theorem step_of_instruction {label : Label} {ins : Instruction} (isInst : (label, ins) ∈ prog)
    {state after : State} {next : Label} :
    cfg.Step machine (label, state) (next, after) ↔ machine.Passes ins state after ∧
      next ∈ cfg.children label := by
  have occurs : Occurs prog label := ⟨ins, isInst, defined label ins isInst⟩
  simp only [Step, if_neg (graph.occursNe label occurs).1,
    graph.instructions label ins isInst (defined label ins isInst)]

omit indexed defined in
theorem step_of_jump {jump next : Label} {assumed : Assume} (isJump : IsJumpLabel prog jump)
    (cmd : (cfg.instructions jump).cmd = .assume assumed) {state after : State} :
    cfg.Step machine (jump, state) (next, after) ↔
      (after = state ∧ assumed.cond.Holds (machine.registers state)) ∧
      next ∈ cfg.children jump := by
  simp only [Step, if_neg (graph.jumpNe jump isJump).1, cmd, Machine.Passes]

omit indexed in
theorem jump_hidden {jump : Label} (isJump : IsJumpLabel prog jump) (state : State) :
    prog.view (jump, state) = none :=
  view_eq_none.mpr ⟨fun member =>
    (graph.jumpNe jump isJump).2.2 ((occurs_iff defined).mpr member),
      (graph.jumpNe jump isJump).2.1⟩

theorem answers_step {before after current : Label × State} (step : prog.Step machine before after)
    (shown : prog.view current = some before) :
    exists next, Leads (cfg.Step machine) prog.view current next ∧ prog.view next = some after := by
  rcases view_eq_some.mp shown with ⟨_, rfl⟩
  rcases step with ⟨ins, rest, suffix, passes, goesTo⟩
  rcases current with ⟨label, state⟩
  rcases after with ⟨next, afterState⟩
  have isInst : (label, ins) ∈ prog := suffix.subset List.mem_cons_self
  have behind := (List.suffix_cons (label, ins) rest).trans suffix
  refine ⟨(next, afterState), ?_, ?_⟩
  · rcases (graph.connected label ins rest suffix).cases (defined label ins isInst) with
      ⟨target, children, goes⟩ | ⟨cond, target, rfl, different, branches⟩
    · refine ⟨(label, state), Relation.ReflTransGen.refl, ?_⟩
      rw [step_of_instruction machine graph defined isInst]
      exact ⟨passes, (children next).mpr ((goes State machine state next).mp goesTo)⟩
    · rcases isJumpLabel_of_branch suffix different with ⟨takenJump, notTakenJump⟩
      have stays : afterState = state := passes
      subst stays
      -- the branch whose condition holds
      have through : forall jump, IsJumpLabel prog jump -> jump ∈ cfg.children label ->
          (exists assumed, (cfg.instructions jump).cmd = .assume assumed ∧
            assumed.cond.Holds (machine.registers afterState)) -> next ∈ cfg.children jump ->
          Leads (cfg.Step machine) prog.view (label, afterState) (next, afterState) := by
        rintro jump isJump child ⟨assumed, cmd, holds⟩ leads
        refine ⟨(jump, afterState), Relation.ReflTransGen.single ⟨?_, ?_⟩, ?_⟩
        · rw [step_of_instruction machine graph defined isInst]
          exact ⟨rfl, child⟩
        · exact jump_hidden graph defined isJump afterState
        · rw [step_of_jump machine graph isJump cmd]
          exact ⟨⟨rfl, holds⟩, leads⟩
      rcases goesTo with ⟨holds, same⟩ | ⟨fails, same⟩
      · apply through _ takenJump ((branches.children _).mpr (Or.inl rfl))
          ⟨_, branches.takenInstruction, holds⟩
        exact (branches.taken next).mpr same
      · apply through _ notTakenJump ((branches.children _).mpr (Or.inr rfl))
          ⟨_, branches.notTakenInstruction, (cond.reverse_holds _).mpr fails⟩
        exact (branches.notTaken next).mpr same
  · refine view_eq_some.mpr ⟨?_, rfl⟩
    rcases (graph.connected label ins rest suffix).cases (defined label ins isInst) with
      ⟨target, children, goes⟩ | ⟨cond, target, rfl, different, branches⟩
    · rw [(goes State machine state next).mp goesTo]
      exact successor_shown indexed graph defined suffix children goes
    · rcases goesTo with ⟨_, same⟩ | ⟨_, same⟩
      · exact target_shown indexed graph defined isInst (by rw [same]; rfl)
          ((branches.taken next).mpr same)
      · exact same ▸ fallthrough_shown behind

/-- A step of the graph stays on a branch, or completes a step of the
sequence. -/
theorem behind_step {state : State} {shown : Option (Label × State)} {current after : Label × State}
    (behind : Behind prog cfg state current shown) (step : cfg.Step machine current after) :
    (prog.view after = none ∧ Behind prog cfg state after shown) ∨
      exists next, prog.view after = some next ∧ Behind prog cfg state after (some next) ∧
        Advances (prog.Step machine) (InstructionSeq.fallthrough prog, state) shown next := by
  rcases current with ⟨label, currentState⟩
  rcases after with ⟨next, afterState⟩
  have shows : next ∈ prog.labels ∨ next = Label.exit ->
      prog.view (next, afterState) = some (next, afterState) ∧
        Behind prog cfg state (next, afterState) (some (next, afterState)) :=
    fun visible => ⟨view_eq_some.mpr ⟨visible, rfl⟩, Or.inl ⟨rfl, visible⟩⟩
  cases shown with
  | none =>
      right
      have same : label = Label.entry ∧ currentState = state := Prod.mk.inj behind
      rcases same with ⟨rfl, rfl⟩
      rcases graph.entry with ⟨first, ins, rest, rfl, children⟩
      simp only [Step, if_true] at step
      have isFirst := (children next).mp step.2
      have visible : next ∈ InstructionSeq.labels ((first, ins) :: rest) := by
        rw [isFirst]
        exact List.mem_map.mpr ⟨(first, ins), List.mem_cons_self, rfl⟩
      have start : (next, afterState) = (first, currentState) := Prod.ext isFirst step.1
      exact ⟨_, (shows (Or.inl visible)).1, (shows (Or.inl visible)).2, start⟩
  | some before =>
      rcases behind with ⟨rfl, visible⟩ | ⟨sameState, inProg, child, isJump⟩
      · rcases visible with inProg | isExit
        · rcases mem_labels_iff.mp inProg with ⟨ins, rest, suffix⟩
          have isInst : (label, ins) ∈ prog := suffix.subset List.mem_cons_self
          rw [step_of_instruction machine graph defined isInst] at step
          rcases (graph.connected label ins rest suffix).cases (defined label ins isInst) with
            ⟨target, children, goes⟩ | ⟨cond, target, rfl, different, branches⟩
          · right
            have same := (children next).mp step.2
            have visible := same ▸ successor_shown indexed graph defined suffix children goes
            exact ⟨_, (shows visible).1, (shows visible).2, ins, rest, suffix, step.1,
              (goes State machine currentState next).mpr same⟩
          · left
            have stays : afterState = currentState := step.1
            rcases isJumpLabel_of_branch suffix different with ⟨takenJump, notTakenJump⟩
            have isJump : IsJumpLabel prog next := by
              rcases (branches.children next).mp step.2 with rfl | rfl
              · exact takenJump
              · exact notTakenJump
            exact ⟨jump_hidden graph defined isJump afterState,
              Or.inr ⟨stays, inProg, step.2, isJump⟩⟩
        · exact absurd step.2 ((show label = Label.exit from isExit) ▸ graph.exit next)
      · right
        rcases before with ⟨source, sourceState⟩
        have sameState : currentState = sourceState := sameState
        subst sameState
        rcases mem_labels_iff.mp inProg with ⟨ins, rest, suffix⟩
        have isInst : (source, ins) ∈ prog := suffix.subset List.mem_cons_self
        have rests := (List.suffix_cons (source, ins) rest).trans suffix
        have notShown : label ∉ prog.labels ∧ label ≠ Label.exit :=
          view_eq_none.mp (jump_hidden graph defined isJump currentState)
        rcases (graph.connected source ins rest suffix).cases (defined source ins isInst) with
          ⟨target, children, goes⟩ | ⟨cond, target, rfl, different, branches⟩
        · have visible := successor_shown indexed graph defined suffix children goes
          rw [← (children label).mp child] at visible
          exact absurd visible (not_or.mpr notShown)
        · rcases (branches.children label).mp child with rfl | rfl
          · rw [step_of_jump machine graph isJump branches.takenInstruction] at step
            rcases step with ⟨⟨rfl, holds⟩, child⟩
            have visible := target_shown indexed graph defined isInst
              (show _ = some next by rw [(branches.taken next).mp child]; rfl) child
            exact ⟨_, (shows visible).1, (shows visible).2, _, rest, suffix, rfl,
              Or.inl ⟨holds, (branches.taken next).mp child⟩⟩
          · rw [step_of_jump machine graph isJump branches.notTakenInstruction] at step
            rcases step with ⟨⟨rfl, holds⟩, child⟩
            have same := (branches.notTaken next).mp child
            have visible := same ▸ fallthrough_shown rests
            exact ⟨_, (shows visible).1, (shows visible).2, _, rest, suffix, rfl,
              Or.inr ⟨(cond.reverse_holds _).mp holds, same⟩⟩

/-- The sequence and the graph of its first pass do the same work. -/
theorem sameWork (state : State) :
    SameWork (prog.Step machine) (InstructionSeq.fallthrough prog, state)
    (cfg.Step machine) (Label.entry, state) prog.view (Behind prog cfg state) where
  hidden := by
    have notExit : Label.entry ≠ Label.exit := by decide
    refine view_eq_none.mpr ⟨?_, notExit⟩
    intro member
    exact (graph.occursNe _ ((occurs_iff defined).mpr member)).1 rfl
  begins := by
    rcases graph.entry with ⟨first, ins, rest, form, children⟩
    have isFirst : InstructionSeq.fallthrough prog = first := by rw [form]; rfl
    refine ⟨(first, state), ⟨_, Relation.ReflTransGen.refl, ?_⟩, ?_⟩
    · simp only [Step, if_true]
      exact ⟨trivial, (children first).mpr rfl⟩
    · rw [isFirst]
      refine view_eq_some.mpr ⟨Or.inl ?_, rfl⟩
      exact mem_labels_iff.mpr ⟨ins, rest, by rw [form]⟩
  answers _ _ _ step shown := answers_step machine indexed graph defined step shown
  behindStart := rfl
  behindStep _ _ _ behind step := behind_step machine indexed graph defined behind step

end Simulation

/-! ## The translation of a sequence without calls -/

section Translation

variable {prog : InstructionSeq} {cfg : Cfg} {mustHaveExit : Bool}

theorem expandAll_eq_ok (noCalls : forall label call, (label, .callLocal call) ∉ prog) :
    expandAll prog cfg = .ok cfg := by
  induction prog with
  | nil => rfl
  | cons labelled rest inductionHypothesis =>
      rcases labelled with ⟨label, ins⟩
      have same : expandInstruction label ins cfg = .ok cfg := by
        unfold expandInstruction
        split
        · rename_i call
          exact absurd List.mem_cons_self (noCalls label call)
        · rfl
      have later := inductionHypothesis
        (fun other call member => noCalls other call (List.mem_cons_of_mem _ member))
      simp only [expandAll, same]
      exact later

/-- The executions along the paths of the graph are the executions of the
sequence.  At every conditional jump exactly one branch is enabled, and a jump
to its own fallthrough has a single successor that assumes nothing. -/
theorem instructionSeqToCfg_refines (indexed : prog.Indexed)
    (noCalls : forall label call, (label, .callLocal call) ∉ prog)
    (noUndefined : forall label opcode, (label, .undefined opcode) ∉ prog)
    (built : instructionSeqToCfg prog mustHaveExit = .ok cfg) :
    (forall (State : Type) (machine : Machine State) (state : State) (trace : List (Label × State)),
      (exists last, Execution (prog.Step machine) (InstructionSeq.fallthrough prog, state)
      trace last) ↔
        trace ≠ [] ∧ exists path current,
        Execution (cfg.Step machine) (Label.entry, state) path current ∧
          path.filterMap prog.view = trace) ∧
    (forall label cond target rest, (label, .jmp ⟨some cond, target⟩) :: rest <:+ prog ->
      (target ≠ InstructionSeq.fallthrough rest -> forall registers, ∃! branch,
      branch ∈ cfg.children label ∧
        exists assumed, (cfg.instructions branch).cmd = .assume assumed ∧
        assumed.cond.Holds registers) ∧
      (target = InstructionSeq.fallthrough rest ->
        (forall next, next ∈ cfg.children label ↔ next = target) ∧ ¬ IsJumpLabel prog target)) := by
  rcases bind_eq_ok.mp built with ⟨first, pass, expand⟩
  rw [expandAll_eq_ok noCalls] at expand
  cases expand
  have graph := firstPass_spec pass
  have defined : forall label ins, (label, ins) ∈ prog -> Defined ins :=
    fun label ins member opcode same => noUndefined label opcode (same ▸ member)
  constructor
  · intro State machine state trace
    exact (sameWork machine indexed graph defined state).executions_iff trace
  · intro label cond target rest suffix
    have connected := graph.connected label _ rest suffix
    constructor
    · intro different registers
      simp only [NodeConnected, if_neg different] at connected
      by_cases holds : cond.Holds registers
      · refine ⟨Label.makeJump label target,
          ⟨(connected.children _).mpr (Or.inl rfl), _, connected.takenInstruction, holds⟩, ?_⟩
        rintro branch ⟨child, assumed, cmd, passes⟩
        rcases (connected.children branch).mp child with same | rfl
        · exact same
        · rw [connected.notTakenInstruction] at cmd
          cases cmd
          exact absurd holds ((cond.reverse_holds registers).mp passes)
      · refine ⟨Label.makeJump label (InstructionSeq.fallthrough rest),
          ⟨(connected.children _).mpr (Or.inr rfl), _, connected.notTakenInstruction,
            (cond.reverse_holds registers).mpr holds⟩, ?_⟩
        rintro branch ⟨child, assumed, cmd, passes⟩
        rcases (connected.children branch).mp child with rfl | same
        · rw [connected.takenInstruction] at cmd
          cases cmd
          exact absurd passes holds
        · exact same
    · intro same
      simp only [NodeConnected, if_pos same] at connected
      refine ⟨fun next => by rw [connected, same], ?_⟩
      intro isJump
      have shown := fallthrough_shown ((List.suffix_cons _ rest).trans suffix)
      rw [← same] at shown
      rcases shown with inProg | isExit
      · exact (graph.jumpNe target isJump).2.2 ((occurs_iff defined).mpr inProg)
      · exact (graph.jumpNe target isJump).2.1 isExit

end Translation

/-- A jump over one instruction, and a jump to its own fallthrough. -/
def branching : InstructionSeq :=
  [({ fromIndex := 0 }, .jmp ⟨some ⟨.eq, ⟨1⟩, .imm ⟨0⟩, false⟩, { fromIndex := 2 }⟩),
    ({ fromIndex := 1 }, .jmp ⟨some ⟨.slt, ⟨1⟩, .imm ⟨0⟩, true⟩, { fromIndex := 2 }⟩),
    ({ fromIndex := 2 }, .exit ⟨[]⟩)]

theorem instructionSeqToCfg_refines_branching :
    exists cfg, instructionSeqToCfg branching true = .ok cfg ∧
      forall (State : Type) (machine : Machine State) (state : State)
      (trace : List (Label × State)),
        (exists last, Execution (branching.Step machine) ({ fromIndex := 0 }, state) trace last) ↔
          trace ≠ [] ∧ exists path current,
          Execution (cfg.Step machine) (Label.entry, state) path current ∧
            path.filterMap branching.view = trace := by
  have returns : (instructionSeqToCfg branching true).toBool = true := by decide
  have indexed : branching.Indexed := by
    intro label ins member
    simp only [branching, List.mem_cons, List.not_mem_nil, or_false, Prod.mk.injEq] at member
    rcases member with ⟨rfl, rfl⟩ | ⟨rfl, rfl⟩ | ⟨rfl, rfl⟩
    all_goals
      refine ⟨⟨rfl, by decide, rfl, rfl⟩, ?_⟩
      intro target isTarget
      cases isTarget
    all_goals exact ⟨rfl, by decide, rfl, rfl⟩
  have noCalls : forall label call, (label, .callLocal call) ∉ branching := by
    intro label call member
    simp [branching] at member
  have noUndefined : forall label opcode, (label, .undefined opcode) ∉ branching := by
    intro label opcode member
    simp [branching] at member
  cases built : instructionSeqToCfg branching true with
  | error err => simp [built, Except.toBool] at returns
  | ok cfg => exact ⟨cfg, rfl, (instructionSeqToCfg_refines indexed noCalls noUndefined built).1⟩

end Cfg
end Prevail
