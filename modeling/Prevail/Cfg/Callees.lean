import Prevail.Cfg.FrameClones
import Prevail.Cfg.Refinement

namespace Prevail

/-!
# Callees that are kept apart

Which labels of a sequence a local function consists of, and when its
expansion clones the function as the sequence has it.  An expansion reads the
graph that earlier expansions have left behind, and these go in the order of
the sequence.  So the calls of a callee have to stand behind the call, and a
callee has to be left by `exit`.  The callee may contain labels to which earlier
calls return.  The walk adds edges to such a label from the clones of the exits
from which they return, if it has taken these exits first.
-/

/-- Where an instruction may go, when `fallthrough` is the label behind it. -/
def Instruction.MayGoTo (ins : Instruction) (fallthrough target : Label) : Prop :=
  match ins with
  | .jmp jump => target = jump.target ∨ (jump.cond.isSome = true ∧ target = fallthrough)
  | .exit _ => target = Label.exit
  | _ => target = fallthrough

namespace InstructionSeq

/-- A sequence as the decoder returns it: indices are less than the number of
instructions, an `int`, and exits have no prefix yet. -/
structure Decoded (prog : InstructionSeq) : Prop where
  indexed : prog.Indexed
  targets : forall label ins target, (label, ins) ∈ prog -> ins.target? = some target ->
    target ≠ Label.exit
  exits : forall label ins, (label, .exit ins) ∈ prog -> ins.stackFramePrefix = []

theorem decoded_iff {prog : InstructionSeq} : prog.Decoded ↔ forall entry, entry ∈ prog ->
    entry.1.IsIndex ∧ (forall target, target ∈ entry.2.target? -> target.IsIndex ∧
      target ≠ Label.exit) ∧
    match entry.2 with
    | .exit ins => ins.stackFramePrefix = []
    | _ => True := by
  constructor
  · rintro decoded ⟨label, ins⟩ member
    refine ⟨(decoded.indexed label ins member).1, ?_, ?_⟩
    · intro target isTarget
      exact ⟨(decoded.indexed label ins member).2 target isTarget,
        decoded.targets label ins target member isTarget⟩
    · cases ins with
      | exit ins => exact decoded.exits label ins member
      | _ => exact trivial
  · intro every
    refine { indexed := ?_, targets := ?_, exits := ?_ }
    · intro label ins member
      exact ⟨(every (label, ins) member).1, fun target isTarget =>
        ((every (label, ins) member).2.1 target isTarget).1⟩
    · exact fun label ins target member isTarget =>
        ((every (label, ins) member).2.1 target isTarget).2
    · exact fun label ins member => (every (label, .exit ins) member).2.2

instance (label : Label) : Decidable label.IsIndex :=
  decidable_of_iff (label.stackFramePrefix = [] ∧ 0 ≤ label.fromIndex ∧ label.toIndex = -1 ∧
    label.specialLabel = [])
    ⟨fun all => ⟨all.1, all.2.1, all.2.2.1, all.2.2.2⟩, fun index =>
      ⟨index.1, index.2, index.3, index.4⟩⟩

instance (entry : Label × Instruction) : Decidable (match entry.2 with
    | .exit ins => ins.stackFramePrefix = []
    | _ => True) := by
  split <;> infer_instance

instance (prog : InstructionSeq) : Decidable prog.Decoded := decidable_of_iff _ decoded_iff.symm

/-- A defined instruction of the sequence may go from one label to another. -/
def Flows (prog : InstructionSeq) (label target : Label) : Prop :=
  exists ins rest, (label, ins) :: rest <:+ prog ∧ Cfg.Defined ins ∧
    ins.MayGoTo (fallthrough rest) target

/-- A call of a local function. -/
def Invokes (prog : InstructionSeq) (label target : Label) : Prop :=
  exists call rest, (label, .callLocal call) :: rest <:+ prog ∧ target = call.target

/-- The edges of a walk over a callee.  It goes through the labels of conditional
jumps. -/
def WalksTo (prog : InstructionSeq) (label next : Label) : Prop :=
  exists source ins rest, (source, ins) :: rest <:+ prog ∧ Cfg.Defined ins ∧
    ((label = source ∧ (next ∈ Cfg.jumpLabels source (fallthrough rest) ins ∨
        (Cfg.jumpLabels source (fallthrough rest) ins = [] ∧
          ins.MayGoTo (fallthrough rest) next))) ∨
      (label ∈ Cfg.jumpLabels source (fallthrough rest) ins ∧ label = Label.makeJump source next ∧
        ins.MayGoTo (fallthrough rest) next))

/-- An edge that does not leave the function. -/
def Within (prog : InstructionSeq) (label next : Label) :
    Prop := prog.WalksTo label next ∧ next ≠ Label.exit

/-- The labels of the local function that begins at `target`. -/
def FunctionRuns (prog : InstructionSeq) (target label : Label) : Prop :=
  Relation.ReflTransGen prog.Within target label

/-- A local function calls another one. -/
def CallsFunction (prog : InstructionSeq) (target callee : Label) : Prop :=
  exists label, prog.FunctionRuns target label ∧ prog.Invokes label callee

/-- Labels of the main program: the first one, and all that come behind them.
They may be all instructions, or those that the program reaches. -/
structure Live (prog : InstructionSeq) (live : Set Label) : Prop where
  indices : forall label, label ∈ live -> label = Label.exit ∨ label.IsIndex
  start : fallthrough prog ∈ live
  closed : forall label next, label ∈ live -> prog.Flows label next -> next ∈ live

/-- The calls of the sequence from the start of `rest` backwards: those that
are expanded before the loop is past `rest`. -/
def ExpandedCalls (prog rest : InstructionSeq) : Set Label :=
  { label | exists call behind, (label, .callLocal call) :: behind <:+ prog ∧
    rest.length ≤ behind.length }

/-- An expanded call may return from the clone of `source` to `label`.  Of a call
that is not live this is not known. -/
def ReturnsFrom (prog : InstructionSeq) (live expanded : Set Label) (label source : Label) : Prop :=
  exists caller call rest, (caller, .callLocal call) :: rest <:+ prog ∧ caller ∈ expanded ∧
    label = fallthrough rest ∧
      (caller ∈ live -> prog.FunctionRuns call.target source ∧ prog.WalksTo source Label.exit)

/-- A walk over a function that takes the least label first meets no label to
which an expanded call returns from there or from a label that it has taken. -/
def Undisturbed (prog : InstructionSeq) (live expanded : Set Label) (target : Label) : Prop :=
  forall taken label, LeastFirst prog.Within target (label :: taken) ->
    ∀ source ∈ label :: taken, ¬ prog.ReturnsFrom live expanded label source

/-- The functions that the live calls reach are kept apart: their calls stand
behind the live call, only `exit` leaves them, and the walks over them are not
disturbed by the returns of expanded calls. -/
structure Separated (prog : InstructionSeq) (live : Set Label) : Prop extends Live prog live where
  calls : forall caller call rest target inner innerCall innerRest,
    (caller, .callLocal call) :: rest <:+ prog -> caller ∈ live ->
    Relation.ReflTransGen prog.CallsFunction call.target target ->
    (inner, .callLocal innerCall) :: innerRest <:+ prog -> prog.FunctionRuns target inner ->
    innerRest.length < rest.length
  leaves : forall caller call rest target label, (caller, .callLocal call) :: rest <:+ prog ->
    caller ∈ live -> Relation.ReflTransGen prog.CallsFunction call.target target ->
    prog.FunctionRuns target label -> prog.WalksTo label Label.exit ->
    exists exit_, (label, .exit exit_) ∈ prog
  earlier : forall caller call rest, (caller, .callLocal call) :: rest <:+ prog -> caller ∈ live ->
    prog.Undisturbed live (prog.ExpandedCalls ((caller, .callLocal call) :: rest)) call.target
  own : forall caller call rest taken, (caller, .callLocal call) :: rest <:+ prog ->
    caller ∈ live -> LeastFirst prog.Within call.target (fallthrough rest :: taken) ->
    ∀ source ∈ taken, ¬ prog.WalksTo source Label.exit
  nested : forall caller call rest target, (caller, .callLocal call) :: rest <:+ prog ->
    caller ∈ live -> Relation.TransGen prog.CallsFunction call.target target ->
    prog.Undisturbed live (prog.ExpandedCalls rest) target

end InstructionSeq

namespace Cfg

/-- A label of a set, or one between the ends of a conditional jump of the
set. -/
def Covers (prog : InstructionSeq) (labels : Set Label) (label : Label) : Prop :=
  label ∈ labels ∨ exists source ins rest, (source, ins) :: rest <:+ prog ∧ source ∈ labels ∧
    label ∈ jumpLabels source (InstructionSeq.fallthrough rest) ins

section Graph

variable {prog : InstructionSeq} {cfg : Cfg} {mustHaveExit : Bool} {label target : Label}
  {ins : Instruction} {rest : InstructionSeq}

/-- The successors of an instruction in terms of where it may go. -/
theorem NodeConnected.children_iff (connected : cfg.NodeConnected label
    (InstructionSeq.fallthrough rest) ins)
    (defined : Defined ins) (next : Label) : next ∈ cfg.children label ↔
      next ∈ jumpLabels label (InstructionSeq.fallthrough rest) ins ∨
        (jumpLabels label (InstructionSeq.fallthrough rest) ins = [] ∧
          ins.MayGoTo (InstructionSeq.fallthrough rest) next) := by
  cases ins with
  | undefined opcode => exact absurd rfl (defined opcode)
  | jmp jmp =>
      rcases jmp with ⟨condition, target⟩
      cases condition with
      | none =>
          rw [connected next]
          simp [jumpLabels, Instruction.MayGoTo]
      | some cond =>
          by_cases same : target = InstructionSeq.fallthrough rest
          · simp only [NodeConnected, if_pos same] at connected
            rw [connected next]
            simp [jumpLabels, Instruction.MayGoTo, same]
          · simp only [NodeConnected, if_neg same] at connected
            rw [connected.children next]
            simp [jumpLabels, same]
  | _ =>
      rw [connected next]
      simp [jumpLabels, Instruction.MayGoTo]

/-- What follows a label between the ends of a jump. -/
theorem NodeConnected.jump_children_iff (connected : cfg.NodeConnected label
    (InstructionSeq.fallthrough rest) ins)
    {jump : Label} (isJump : jump ∈ jumpLabels label (InstructionSeq.fallthrough rest) ins)
    (next : Label) :
    next ∈ cfg.children jump ↔
      jump = Label.makeJump label next ∧ ins.MayGoTo (InstructionSeq.fallthrough rest) next := by
  unfold jumpLabels at isJump
  split at isJump
  · rename_i jmp
    split at isJump
    · rename_i cond isConditional
      split at isJump
      · cases isJump
      · rename_i different
        simp only [NodeConnected, isConditional, if_neg different] at connected
        have goes : (Instruction.jmp jmp).MayGoTo (InstructionSeq.fallthrough rest) next ↔
            next = jmp.target ∨ next = InstructionSeq.fallthrough rest := by
          simp [Instruction.MayGoTo, isConditional]
        rw [goes]
        simp only [List.mem_cons, List.not_mem_nil, or_false] at isJump
        rcases isJump with rfl | rfl
        · rw [connected.taken next]
          constructor
          · rintro rfl
            exact ⟨rfl, Or.inl rfl⟩
          · rintro ⟨same, isTarget | rfl⟩
            · exact isTarget
            · exact absurd same connected.different
        · rw [connected.notTaken next]
          constructor
          · rintro rfl
            exact ⟨rfl, Or.inr rfl⟩
          · rintro ⟨same, rfl | isFallthrough⟩
            · exact absurd same.symm connected.different
            · exact isFallthrough
    · cases isJump
  · cases isJump

/-- The instruction of a label between the ends of a jump. -/
theorem NodeConnected.jump_assumes (connected : cfg.NodeConnected label
    (InstructionSeq.fallthrough rest) ins)
    {jump : Label} (isJump : jump ∈ jumpLabels label (InstructionSeq.fallthrough rest) ins) :
    (exists jmp, ins = .jmp jmp) ∧
      exists assumed, (cfg.instructions jump).cmd = .assume assumed := by
  unfold jumpLabels at isJump
  split at isJump
  · rename_i jmp
    refine ⟨⟨jmp, rfl⟩, ?_⟩
    split at isJump
    · rename_i cond isConditional
      split at isJump
      · cases isJump
      · rename_i different
        simp only [NodeConnected, isConditional, if_neg different] at connected
        simp only [List.mem_cons, List.not_mem_nil, or_false] at isJump
        rcases isJump with rfl | rfl
        · exact ⟨_, connected.takenInstruction⟩
        · exact ⟨_, connected.notTakenInstruction⟩
    · cases isJump
  · cases isJump

end Graph

/-! ## The labels of a function in the graph of the first pass -/

section Function

variable {prog : InstructionSeq} {cfg : Cfg} {mustHaveExit : Bool} {labels : Set Label}

/-- The labels that the sequence names are indices, or the exit. -/
theorem flows_index (indexed : prog.Indexed) {label next : Label} (flows : prog.Flows label next) :
    next = Label.exit ∨ next.IsIndex := by
  rcases flows with ⟨ins, rest, suffix, _, goes⟩
  have behind : InstructionSeq.fallthrough rest = Label.exit ∨
      (InstructionSeq.fallthrough rest).IsIndex := by
    cases rest with
    | nil => exact Or.inl rfl
    | cons found rest =>
        have member : found ∈ prog := suffix.subset (List.mem_cons_of_mem _ List.mem_cons_self)
        exact Or.inr (indexed found.1 found.2 member).1
  cases ins with
  | jmp jmp =>
      rcases goes with rfl | ⟨_, rfl⟩
      · exact Or.inr ((indexed label _ (suffix.subset List.mem_cons_self)).2 jmp.target rfl)
      · exact behind
  | exit ins => exact Or.inl goes
  | _ => exact (show next = _ from goes) ▸ behind

variable (decoded : prog.Decoded) (graph : FirstPassGraph mustHaveExit prog cfg)

include decoded graph

omit decoded in
/-- A label of the graph that is neither the entry nor the exit belongs to an
instruction or to a conditional jump. -/
theorem FirstPassGraph.suffix_of_child {label next : Label} (notEntry : label ≠ Label.entry)
    (child : next ∈ cfg.children label) :
    (exists ins rest, (label, ins) :: rest <:+ prog ∧ Defined ins) ∨ IsJumpLabel prog label := by
  rcases (graph.labels label).mp (graph.wellFormed.source label next child) with same | rfl |
    ⟨ins, member, defined⟩ | isJump
  · exact absurd same notEntry
  · exact absurd child (graph.exit next)
  · rcases List.append_of_mem member with ⟨before, rest, form⟩
    exact Or.inl ⟨ins, rest, ⟨before, form.symm⟩, defined⟩
  · exact Or.inr isJump

/-- A set that the instructions do not leave is not left by the edges of the
graph. -/
theorem FirstPassGraph.covers_child (indices : forall label, label ∈ labels -> label = Label.exit ∨
    label.IsIndex)
    (closed : forall label next, label ∈ labels -> prog.Flows label next -> next ∈ labels)
    {label next : Label}
    (notEntry : label ≠ Label.entry) (covers : Covers prog labels label)
    (child : next ∈ cfg.children label) :
    Covers prog labels next := by
  rcases covers with member | ⟨source, ins, rest, suffix, member, isJump⟩
  · rcases graph.suffix_of_child notEntry child with ⟨ins, rest, suffix, defined⟩ | isJump
    · rcases ((graph.connected label ins rest suffix).children_iff defined next).mp child with
        isJump | ⟨_, goes⟩
      · exact Or.inr ⟨label, ins, rest, suffix, member, isJump⟩
      · exact Or.inl (closed label next member ⟨ins, rest, suffix, defined, goes⟩)
    · have notIndex := isJump.toIndex_ne decoded.indexed
      rcases indices label member with rfl | isIndex
      · exact absurd rfl notIndex
      · exact absurd isIndex.toIndex notIndex
  · have connected := graph.connected source ins rest suffix
    rcases (connected.jump_assumes isJump).1 with ⟨jmp, rfl⟩
    refine Or.inl (closed source next member
      ⟨_, rest, suffix, ?_, ((connected.jump_children_iff isJump next).mp child).2⟩)
    intro opcode same
    cases same

omit decoded in
/-- A label of a conditional jump is no instruction. -/
theorem FirstPassGraph.not_occurs_of_jump {label source : Label} {ins : Instruction}
    {rest : InstructionSeq}
    (suffix : (source, ins) :: rest <:+ prog)
    (isJump : label ∈ jumpLabels source (InstructionSeq.fallthrough rest) ins) :
    label ≠ Label.entry ∧ label ≠ Label.exit ∧ ¬ Occurs prog label :=
  graph.jumpNe label ⟨source, ins, rest, suffix, isJump⟩

omit decoded in
/-- The instruction of a label that is neither assumed nor undefined stands in
the sequence. -/
theorem FirstPassGraph.suffix_of_instruction {label : Label} {ins : Instruction}
    (cmd : (cfg.instructions label).cmd = ins) (defined : Defined ins)
    (notAssume : forall assumed, ins ≠ .assume assumed) :
    exists rest, (label, ins) :: rest <:+ prog := by
  by_cases occurs : Occurs prog label
  · rcases occurs with ⟨found, member, foundDefined⟩
    have same := graph.instructions label found member foundDefined
    rw [cmd] at same
    subst same
    rcases List.append_of_mem member with ⟨before, rest, form⟩
    exact ⟨rest, before, form.symm⟩
  · by_cases isJump : IsJumpLabel prog label
    · rcases isJump with ⟨source, other, rest, suffix, member⟩
      rcases ((graph.connected source other rest suffix).jump_assumes member).2 with
        ⟨assumed, isAssume⟩
      exact absurd (cmd.symm.trans isAssume) (notAssume assumed)
    · exact absurd (cmd.symm.trans (graph.others label occurs isJump)) (defined 0)

omit decoded in
theorem FirstPassGraph.call_child {caller next : Label} {call : CallLocal} {rest : InstructionSeq}
    (suffix : (caller, .callLocal call) :: rest <:+ prog) :
    next ∈ cfg.children caller ↔ next = InstructionSeq.fallthrough rest :=
  graph.connected caller (.callLocal call) rest suffix next

omit graph in
/-- A label that covers a set of indices is no part of a frame. -/
theorem covers_plain (indices : forall label, label ∈ labels -> label = Label.exit ∨ label.IsIndex)
    {label : Label} (covers : Covers prog labels label) : label.stackFramePrefix = [] ∧
      label.specialLabel = [] := by
  rcases covers with member | ⟨source, ins, rest, suffix, member, isJump⟩
  · rcases indices label member with rfl | isIndex
    · exact ⟨rfl, rfl⟩
    · exact ⟨isIndex.stackFramePrefix, isIndex.specialLabel⟩
  · have next : forall target, ins.MayGoTo (InstructionSeq.fallthrough rest) target ->
        Defined ins -> target.stackFramePrefix = [] := by
      intro target goes defined
      rcases flows_index decoded.indexed ⟨ins, rest, suffix, defined, goes⟩ with rfl | isIndex
      · rfl
      · exact isIndex.stackFramePrefix
    unfold jumpLabels at isJump
    split at isJump
    · rename_i jmp
      have defined : Defined (.jmp jmp) := fun opcode same => by cases same
      split at isJump
      · rename_i cond isConditional
        split at isJump
        · cases isJump
        · simp only [List.mem_cons, List.not_mem_nil, or_false] at isJump
          rcases isJump with rfl | rfl
          · exact ⟨next jmp.target (Or.inl rfl) defined, rfl⟩
          · exact ⟨next (InstructionSeq.fallthrough rest) (Or.inr ⟨by rw [isConditional]; rfl, rfl⟩)
              defined, rfl⟩
      · cases isJump
    · cases isJump

omit decoded in
/-- The edges of the graph that do not start at the entry are those of the
walks. -/
theorem FirstPassGraph.walksTo_iff {label : Label} (notEntry : label ≠ Label.entry) (next : Label) :
    next ∈ cfg.children label ↔ prog.WalksTo label next := by
  constructor
  · intro child
    rcases graph.suffix_of_child notEntry child with ⟨ins, rest, suffix, defined⟩ |
      ⟨source, ins, rest, suffix, isJump⟩
    · exact ⟨label, ins, rest, suffix, defined,
        Or.inl ⟨rfl, ((graph.connected label ins rest suffix).children_iff defined next).mp child⟩⟩
    · have connected := graph.connected source ins rest suffix
      rcases (connected.jump_assumes isJump).1 with ⟨jmp, rfl⟩
      exact ⟨source, _, rest, suffix, (fun _ same => by cases same),
        Or.inr ⟨isJump, (connected.jump_children_iff isJump next).mp child⟩⟩
  · rintro ⟨source, ins, rest, suffix, defined, ⟨rfl, goes⟩ | ⟨isJump, goes⟩⟩
    · exact ((graph.connected label ins rest suffix).children_iff defined next).mpr goes
    · exact ((graph.connected source ins rest suffix).jump_children_iff isJump next).mpr goes

omit graph in
/-- A walk leads to instructions, to labels of conditional jumps, and to the
exit. -/
theorem walksTo_covers {label next : Label} (walks : prog.WalksTo label next) :
    next = Label.exit ∨ Covers prog { found | found.IsIndex } next := by
  rcases walks with ⟨source, ins, rest, suffix, defined, ⟨rfl, isJump | ⟨_, goes⟩⟩ | ⟨_, _, goes⟩⟩
  · exact Or.inr (Or.inr ⟨label, ins, rest, suffix,
      (decoded.indexed label ins (suffix.subset List.mem_cons_self)).1, isJump⟩)
  · exact (flows_index decoded.indexed ⟨ins, rest, suffix, defined, goes⟩).imp_right Or.inl
  · exact (flows_index decoded.indexed ⟨ins, rest, suffix, defined, goes⟩).imp_right Or.inl

omit graph in
theorem functionRuns_covers {target label : Label} (isIndex : target.IsIndex)
    (runs : prog.FunctionRuns target label) : Covers prog { found | found.IsIndex } label := by
  rcases Relation.ReflTransGen.cases_tail runs with rfl | ⟨source, _, walks, notExit⟩
  · exact Or.inl isIndex
  · exact (walksTo_covers decoded walks).resolve_left notExit

omit graph in
theorem functionRuns_plain {target label : Label} (isIndex : target.IsIndex)
    (runs : prog.FunctionRuns target label) : label.stackFramePrefix = [] ∧
      label.specialLabel = [] :=
  covers_plain decoded (fun _ => Or.inr) (functionRuns_covers decoded isIndex runs)

omit graph in
theorem callee_index {target callee : Label} (isIndex : target.IsIndex ∧ target ≠ Label.exit)
    (calls : Relation.ReflTransGen prog.CallsFunction target callee) : callee.IsIndex ∧
      callee ≠ Label.exit := by
  rcases Relation.ReflTransGen.cases_tail calls with rfl | ⟨_, _, label, _, call, rest, suffix, rfl⟩
  · exact isIndex
  · have member := suffix.subset List.mem_cons_self
    exact ⟨(decoded.indexed label _ member).2 _ rfl, decoded.targets label _ _ member rfl⟩

theorem FirstPassGraph.ne_entry {target label : Label} (isIndex : target.IsIndex)
    (runs : prog.FunctionRuns target label) : label ≠ Label.entry := by
  rcases functionRuns_covers decoded isIndex runs with index | ⟨_, _, _, suffix, _, isJump⟩
  · rintro rfl
    exact absurd index.fromIndex (by decide)
  · exact (graph.not_occurs_of_jump suffix isJump).1

theorem FirstPassGraph.within_iff {target label : Label} (isIndex : target.IsIndex)
    (runs : prog.FunctionRuns target label) (next : Label) : cfg.Within label next ↔
      prog.Within label next :=
  and_congr_left fun _ => graph.walksTo_iff (graph.ne_entry decoded isIndex runs) next

theorem FirstPassGraph.functionOf_iff {target : Label} (isIndex : target.IsIndex) (label : Label) :
    label ∈ cfg.functionOf target ↔ prog.FunctionRuns target label := by
  constructor
  · intro member
    induction member with
    | refl => exact .refl
    | tail _ within inductionHypothesis =>
        exact inductionHypothesis.tail
          ((graph.within_iff decoded isIndex inductionHypothesis _).mp within)
  · intro runs
    induction runs with
    | refl => exact Relation.ReflTransGen.refl
    | tail earlier within inductionHypothesis =>
        exact Relation.ReflTransGen.tail inductionHypothesis
          ((graph.within_iff decoded isIndex earlier _).mpr within)

theorem FirstPassGraph.leastFirst {target : Label} (isIndex : target.IsIndex) {taken : List Label}
    (search : LeastFirst cfg.Within target taken) : LeastFirst prog.Within target taken :=
  search.congr fun _ reached => graph.within_iff decoded isIndex
    ((graph.functionOf_iff decoded isIndex _).mp reached)

/-- The clones from which an expanded call may return to a label. -/
def ReturnsTo (prog : InstructionSeq) (live expanded : Set Label) (label prev : Label) : Prop :=
  exists caller call rest, (caller, .callLocal call) :: rest <:+ prog ∧ caller ∈ expanded ∧
    label = InstructionSeq.fallthrough rest ∧
      (caller ∈ live -> exists source, prev = cloneLabel caller.text source ∧
        prog.FunctionRuns call.target source ∧ prog.WalksTo source Label.exit)

theorem FirstPassGraph.undisturbed {live expanded : Set Label} {target : Label}
    (isIndex : target.IsIndex)
    (undisturbed : prog.Undisturbed live expanded target) :
    Undisturbed cfg (ReturnsTo prog live expanded) target := by
  rintro taken label search prev ⟨caller, call, rest, suffix, member, same, known⟩ inTaken
  refine undisturbed taken label (graph.leastFirst decoded isIndex search) _ inTaken
    ⟨caller, call, rest, suffix, member, same, fun isLive => ?_⟩
  rcases known isLive with ⟨source, rfl, runs, exits⟩
  have callIndex := (decoded.indexed caller _ (suffix.subset List.mem_cons_self)).2 call.target rfl
  rw [cloneLabel_nil (functionRuns_plain decoded callIndex runs)]
  exact ⟨runs, exits⟩

variable {live : Set Label} (separated : prog.Separated live) {caller : Label} {call : CallLocal}
  {rest : InstructionSeq} (suffix : (caller, .callLocal call) :: rest <:+ prog)
  (isLive : caller ∈ live)

include separated suffix isLive

/-- The functions of a live call are cloned as the sequence has them. -/
theorem FirstPassGraph.clonable {target : Label} {expanded : Set Label}
    (callee : Relation.ReflTransGen prog.CallsFunction call.target target)
    (undisturbed : prog.Undisturbed live expanded target) :
    Clonable cfg (prog.ExpandedCalls rest) (ReturnsTo prog live expanded) target := by
  have isCall : (caller, .callLocal call) ∈ prog := suffix.subset List.mem_cons_self
  have isIndex := callee_index decoded ⟨(decoded.indexed caller _ isCall).2 call.target rfl,
    decoded.targets caller _ _ isCall rfl⟩ callee
  have runs : forall label, label ∈ cfg.functionOf target -> prog.FunctionRuns target label :=
    fun label => (graph.functionOf_iff decoded isIndex.1 label).mp
  have exitDefined : forall found : Exit, Defined (.exit found) :=
    fun found opcode same => by cases same
  refine
    { plain := fun label member => functionRuns_plain decoded isIndex.1 (runs label member)
      notExit := isIndex.2, notExpanded := ?_, leaves := ?_, exits := ?_
      undisturbed := graph.undisturbed decoded isIndex.1 undisturbed }
  · rintro label member ⟨found, labelRest, isInst, earlier⟩
    have later := separated.calls caller call rest target label found labelRest suffix isLive
      callee isInst
      (runs label member)
    omega
  · intro label member child
    have notEntry : label ≠ Label.entry := graph.ne_entry decoded isIndex.1 (runs label member)
    rcases separated.leaves caller call rest target label suffix isLive callee (runs label member)
      ((graph.walksTo_iff notEntry _).mp child) with ⟨exit_, isExit⟩
    exact ⟨exit_, graph.instructions label _ isExit (exitDefined exit_)⟩
  · intro label found next _ cmd child
    rcases graph.suffix_of_instruction cmd (exitDefined found) (fun _ same => by cases same) with
      ⟨labelRest, isInst⟩
    exact (graph.connected label _ labelRest isInst next).mp child

omit separated isLive in
theorem FirstPassGraph.callsFunction {target label : Label} {inner : CallLocal}
    (callee : Relation.ReflTransGen prog.CallsFunction call.target target)
    (member : label ∈ cfg.functionOf target)
    (isCall : (cfg.instructions label).cmd = .callLocal inner) :
    prog.CallsFunction target inner.target := by
  have callMember : (caller, .callLocal call) ∈ prog := suffix.subset List.mem_cons_self
  have isIndex := callee_index decoded ⟨(decoded.indexed caller _ callMember).2 call.target rfl,
    decoded.targets caller _ _ callMember rfl⟩ callee
  rcases graph.suffix_of_instruction isCall (fun opcode same => by cases same)
    (fun _ same => by cases same) with
    ⟨innerRest, innerSuffix⟩
  exact ⟨label, (graph.functionOf_iff decoded isIndex.1 label).mp member, inner, innerRest,
    innerSuffix, rfl⟩

end Function

/-! ## Nothing leads to the entry -/

section Entry

variable {prog : InstructionSeq} {cfg next : Cfg} {mustHaveExit : Bool} (indexed : prog.Indexed)

include indexed

theorem FirstPassGraph.entry_not_child (graph : FirstPassGraph mustHaveExit prog cfg)
    (source : Label) :
    Label.entry ∉ cfg.children source := by
  have notReached : forall {label : Label}, ¬ prog.Flows label Label.entry := by
    intro label flows
    rcases flows_index indexed flows with same | isIndex
    · exact absurd same (by decide)
    · exact absurd isIndex.fromIndex (by decide)
  intro child
  by_cases atEntry : source = Label.entry
  · subst atEntry
    rcases graph.entry with ⟨first, ins, rest, rfl, children⟩
    have isIndex := (indexed first ins List.mem_cons_self).1
    exact absurd ((children _).mp child ▸ isIndex.fromIndex) (by decide)
  · rcases graph.suffix_of_child atEntry child with ⟨ins, rest, suffix, defined⟩ |
      ⟨label, ins, rest, suffix, isJump⟩
    · rcases ((graph.connected _ _ _ suffix).children_iff defined _).mp child with
        isJump | ⟨_, goes⟩
      · exact (graph.jumpNe _ ⟨source, ins, rest, suffix, isJump⟩).1 rfl
      · exact notReached ⟨ins, rest, suffix, defined, goes⟩
    · have connected := graph.connected _ _ _ suffix
      rcases (connected.jump_assumes isJump).1 with ⟨jmp, rfl⟩
      exact notReached ⟨_, rest, suffix, (fun _ same => by cases same),
        ((connected.jump_children_iff isJump _).mp child).2⟩

/-- The expansions add edges to clones and to labels that had a predecessor before. -/
theorem FirstPassGraph.expandAll_entry_not_child (graph : FirstPassGraph mustHaveExit prog cfg)
    {rest : InstructionSeq} {current : Cfg} (inside : ∀ labelled ∈ rest, labelled ∈ prog)
    (wellFormed : current.WellFormed) (none : forall source, Label.entry ∉ current.children source)
    (run : expandAll rest current = .ok next) (source : Label) :
    Label.entry ∉ next.children source := by
  induction rest generalizing current with
  | nil =>
      cases run
      exact none source
  | cons labelled rest inductionHypothesis =>
      rcases labelled with ⟨caller, ins⟩
      rcases bind_eq_ok.mp run with ⟨middle, expansion, later⟩
      have insideRest : ∀ labelled ∈ rest, labelled ∈ prog :=
        fun found member => inside found (List.mem_cons_of_mem _ member)
      unfold expandInstruction at expansion
      split at expansion
      · rename_i call
        have member : (caller, .callLocal call) ∈ prog := inside _ List.mem_cons_self
        have occurs : Occurs prog caller := ⟨_, member, (fun _ same => by cases same)⟩
        have isCaller : IsCaller caller :=
          ⟨(graph.occursNe caller occurs).1, (graph.occursNe caller occurs).2,
            (indexed caller _ member).1.specialLabel⟩
        rcases addCfgNodes_extends maxCallStackFrames isCaller wellFormed expansion with
          ⟨exitTo, returns, extension⟩
        refine inductionHypothesis insideRest extension.wellFormed ?_ later
        intro other child
        rcases extension.edges other Label.entry child with old | ⟨_, isClone⟩ |
          ⟨_, toInside | rfl | ⟨found, _, old⟩⟩
        · exact none other old
        · exact isCaller.text_ne_nil isClone.symm
        · exact toInside.ne_nil isCaller rfl
        · exact none caller returns
        · exact none found old
      · cases expansion
        exact inductionHypothesis insideRest wellFormed none later

/-- Nothing leads to the entry of the graph of a sequence whose labels are indices. -/
theorem instructionSeqToCfg_entry_not_child (built : instructionSeqToCfg prog mustHaveExit =
    .ok cfg) (source : Label) :
    Label.entry ∉ cfg.children source := by
  rcases bind_eq_ok.mp built with ⟨first, firstPassed, expansion⟩
  have graph := firstPass_spec firstPassed
  exact graph.expandAll_entry_not_child indexed (fun _ member => member) graph.wellFormed
    (graph.entry_not_child indexed) expansion source

end Entry

end Cfg
end Prevail
