import Prevail.Cfg.Builder

namespace Prevail

/-!
# From an instruction sequence to a graph

`instruction_seq_to_cfg` and `add_cfg_nodes` of `asm_cfg.cpp`.  A first pass
connects the instructions; a second pass replaces each call of a local function
by a copy of the nodes reachable from its target.

The walk over the callee takes the least label from an ordered work set.  Each
label it takes either becomes a new label of the graph or makes the walk throw,
so the number of labels bounds its rounds, and the depth check bounds the
nesting of expansions.
-/

namespace Cfg

/-- Replace the stack-frame prefix of the instructions that store one. -/
def cloneInstruction (stackFramePrefix : List Char) : Instruction -> Instruction
  | .exit ins => .exit { ins with stackFramePrefix := stackFramePrefix }
  | .call ins => .call { ins with stackFramePrefix := stackFramePrefix }
  | ins => ins

def cloneLabel (stackFramePrefix : List Char) (label : Label) : Label :=
  { stackFramePrefix := stackFramePrefix, fromIndex := label.fromIndex, toIndex := label.toIndex }

/-- What the walk over a callee changes. -/
structure WalkState where
  cfg : Cfg
  macroLabels : OrderedSet Label
  seenLabels : OrderedSet Label
  first : Bool

/-- The edge into a cloned label from the clone of a predecessor, if there is
one already. -/
def connectPrev (stackFramePrefix : List Char) (label prev : Label) (cfg : Cfg) :
    Except CfgError Cfg :=
  if cloneLabel stackFramePrefix prev ∈ cfg.labels
    then cfg.addChild (cloneLabel stackFramePrefix prev) label
  else .ok cfg

/-- The loop over the predecessors of a cloned label. -/
def connectPrevs (stackFramePrefix : List Char) (label : Label) :
    List Label -> Cfg -> Except CfgError Cfg
  | [], cfg => .ok cfg
  | prev :: rest, cfg => do
      let cfg <- connectPrev stackFramePrefix label prev cfg
      connectPrevs stackFramePrefix label rest cfg

/-- What a successor of `macroLabel`, whose clone is `label`, contributes: the
edge to the return label, or a label for the work set. -/
def walkSuccessor (macroLabel label exitToLabel next : Label) (state : WalkState) :
    Except CfgError WalkState :=
  if next = Label.exit then do
    let cfg <- state.cfg.addChild label exitToLabel
    return { state with cfg := cfg }
  else if next ∉ state.seenLabels then
    .ok { state with
      macroLabels := state.macroLabels.insert next
      seenLabels := state.seenLabels.insert macroLabel }
  else .ok state

/-- The loop over the successors of a label. -/
def walkSuccessors (macroLabel label exitToLabel : Label) :
    List Label -> WalkState -> Except CfgError WalkState
  | [], state => .ok state
  | next :: rest, state => do
      let state <- walkSuccessor macroLabel label exitToLabel next state
      walkSuccessors macroLabel label exitToLabel rest state

/-- The edge from the caller to the clone of the target, in the first round. -/
def enterCallee (first : Bool) (callerLabel label : Label) (cfg : Cfg) : Except CfgError Cfg :=
  if first then cfg.addChild callerLabel label else .ok cfg

/-- One round of the walk, for a label just taken from the work set. -/
def walkLabel (callerLabel : Label) (stackFramePrefix : List Char) (exitToLabel macroLabel : Label)
    (state : WalkState) : Except CfgError WalkState :=
  if stackFramePrefix = macroLabel.stackFramePrefix then .error (.illegalRecursion stackFramePrefix)
  else do
    let label := cloneLabel stackFramePrefix macroLabel
    let ins <- state.cfg.instructionAt macroLabel
    let cfg <- state.cfg.insert label { cmd := cloneInstruction stackFramePrefix ins }
    let cfg <- enterCallee state.first callerLabel label cfg
    let cfg <- connectPrevs stackFramePrefix label (cfg.parents macroLabel).elements cfg
    walkSuccessors macroLabel label exitToLabel (cfg.children macroLabel).elements
      { state with cfg := cfg, first := false }

/-- The walk over the callee, for at most `fuel` rounds. -/
def walk (callerLabel : Label) (stackFramePrefix : List Char) (exitToLabel : Label) :
    Nat -> WalkState -> Except CfgError WalkState
  | fuel, state =>
      match state.macroLabels.least? with
      | none => .ok state
      | some macroLabel =>
          match fuel with
          | 0 => .error .outOfFuel
          | fuel + 1 => do
              let taken := { state with macroLabels := state.macroLabels.erase macroLabel }
              let next <- walkLabel callerLabel stackFramePrefix exitToLabel macroLabel taken
              walk callerLabel stackFramePrefix exitToLabel fuel next

/-- The expansion of one clone, if it is a call, with the expansion of a call
as a parameter. -/
def expandClone (callerText : List Char) (expand : Label -> Label -> Cfg -> Except CfgError Cfg)
    (label : Label) (ins : Instruction) (cfg : Cfg) : Except CfgError Cfg :=
  match ins with
  | .callLocal call =>
      if maxCallStackFrames ≤ Label.delimiters callerText + 2 then .error .tooManyFrames
      else expand label call.target cfg
  | _ => .ok cfg

/-- The loop that expands the calls among the clones of the seen labels. -/
def expandNested (callerText : List Char) (expand : Label -> Label -> Cfg -> Except CfgError Cfg) :
    List Label -> Cfg -> Except CfgError Cfg
  | [], cfg => .ok cfg
  | macroLabel :: rest, cfg => do
      let label := cloneLabel callerText macroLabel
      let ins <- cfg.instructionAt label
      let cfg <- expandClone callerText expand label ins cfg
      expandNested callerText expand rest cfg

/-- The store of the prefix in the call itself. -/
def storePrefix (callerLabel : Label) (stackFramePrefix : List Char) (cfg : Cfg) :
    Except CfgError Cfg := do
  let ins <- cfg.instructionAt callerLabel
  match ins with
  | .callLocal call =>
      return cfg.setInstruction callerLabel
        { cfg.instructions callerLabel with
          cmd := .callLocal { call with stackFramePrefix := stackFramePrefix } }
  | _ => return cfg

/-- The part of `add_cfg_nodes` before the recursion: the walk over the callee,
and the removal of the edge around the call.  It also returns the seen
labels. -/
def expandCall (callerLabel entryLabel : Label) (cfg : Cfg) :
    Except CfgError (Cfg × OrderedSet Label) := do
  let exitToLabel <- cfg.getChild callerLabel
  let stackFramePrefix := callerLabel.text
  let cfg <- storePrefix callerLabel stackFramePrefix cfg
  let start : WalkState :=
    ⟨cfg, OrderedSet.singleton entryLabel, OrderedSet.singleton entryLabel, true⟩
  let final <- walk callerLabel stackFramePrefix exitToLabel (cfg.labels.elements.length + 1) start
  let cfg <- final.cfg.removeChild callerLabel exitToLabel
  return (cfg, final.seenLabels)

/-- `add_cfg_nodes`, nested to at most `frames` levels. -/
def addCfgNodes : Nat -> Label -> Label -> Cfg -> Except CfgError Cfg
  | 0, _, _, _ => .error .outOfFuel
  | frames + 1, callerLabel, entryLabel, cfg => do
      let (cfg, seenLabels) <- expandCall callerLabel entryLabel cfg
      expandNested callerLabel.text (addCfgNodes frames) seenLabels.elements cfg

end Cfg

/-- `reverse` of a comparison operator. -/
def ConditionOp.reverse : ConditionOp -> ConditionOp
  | .eq => .ne
  | .ne => .eq
  | .ge => .lt
  | .lt => .ge
  | .sge => .slt
  | .slt => .sge
  | .le => .gt
  | .gt => .le
  | .sle => .sgt
  | .sgt => .sle
  | .set => .nset
  | .nset => .set

/-- `reverse` of a condition. -/
def Condition.reverse (cond : Condition) : Condition :=
  { cond with op := cond.op.reverse }

def Instruction.hasFall : Instruction -> Bool
  | .exit _ => false
  | .jmp ins => ins.cond.isSome
  | _ => true

namespace Cfg

/-- The node of an instruction that is defined. -/
def insertInstruction (label : Label) (ins : Instruction) (cfg : Cfg) : Except CfgError Cfg :=
  match ins with
  | .undefined _ => .ok cfg
  | _ => cfg.insert label { cmd := ins }

/-- The first loop of `instruction_seq_to_cfg`. -/
def insertAll : InstructionSeq -> Cfg -> Except CfgError Cfg
  | [], cfg => .ok cfg
  | (label, ins) :: rest, cfg => do
      let cfg <- insertInstruction label ins cfg
      insertAll rest cfg

/-- The edges of one instruction, whose successor in the sequence is
`fallthrough`. -/
def connectInstruction (label fallthrough : Label) (ins : Instruction) (cfg : Cfg) :
    Except CfgError Cfg :=
  match ins with
  | .jmp jmp =>
      match jmp.cond with
      | some cond =>
          if jmp.target = fallthrough then cfg.addChild label fallthrough
          else if jmp.target ∉ cfg.labels then .error (.undefinedTarget jmp.target)
          else do
            let cfg <- cfg.insertJump label jmp.target { cmd := .assume ⟨cond, true⟩ }
            cfg.insertJump label fallthrough { cmd := .assume ⟨cond.reverse, true⟩ }
      | none => cfg.addChild label jmp.target
  | .exit _ => cfg.addChild label Label.exit
  | _ => cfg.addChild label fallthrough

/-- The edges of an instruction that is defined, where `rest` is the sequence
behind it. -/
def connectNext (mustHaveExit : Bool) (label : Label) (ins : Instruction) (rest : InstructionSeq)
    (cfg : Cfg) :
    Except CfgError Cfg :=
  match ins, rest with
  | .undefined _, _ => .ok cfg
  | _, (fallthrough, _) :: _ => connectInstruction label fallthrough ins cfg
  | _, [] =>
      if ins.hasFall && mustHaveExit then .error .fallthroughInLast
      else connectInstruction label Label.exit ins cfg

/-- The second loop, over the sequence that is left. -/
def connectAll (mustHaveExit : Bool) : InstructionSeq -> Cfg -> Except CfgError Cfg
  | [], cfg => .ok cfg
  | (label, ins) :: rest, cfg => do
      let cfg <- connectNext mustHaveExit label ins rest cfg
      connectAll mustHaveExit rest cfg

/-- The expansion of an instruction of the sequence, if it is a call. -/
def expandInstruction (label : Label) (ins : Instruction) (cfg : Cfg) : Except CfgError Cfg :=
  match ins with
  | .callLocal call => addCfgNodes maxCallStackFrames label call.target cfg
  | _ => .ok cfg

/-- The third loop: the expansion of the calls of the sequence. -/
def expandAll : InstructionSeq -> Cfg -> Except CfgError Cfg
  | [], cfg => .ok cfg
  | (label, ins) :: rest, cfg => do
      let cfg <- expandInstruction label ins cfg
      expandAll rest cfg

/-- The graph of the sequence before the expansion of its calls. -/
def firstPass (insts : InstructionSeq) (mustHaveExit : Bool) : Except CfgError Cfg := do
  let cfg <- insertAll insts Cfg.initial
  match insts with
  | [] => .error .emptySequence
  | (label, _) :: _ =>
      let cfg <- cfg.addChild Label.entry label
      connectAll mustHaveExit insts cfg

def instructionSeqToCfg (insts : InstructionSeq) (mustHaveExit : Bool) : Except CfgError Cfg := do
  let cfg <- firstPass insts mustHaveExit
  expandAll insts cfg

/-! ## Well-formed graphs -/

/-- A class of instructions that contains what the construction adds by itself
and is closed under what it does to an instruction. -/
structure Admissible (allowed : Instruction -> Prop) : Prop where
  undefined : forall opcode, allowed (.undefined opcode)
  assume : forall ins, allowed (.assume ins)
  clone : forall stackFramePrefix ins, allowed ins ->
    allowed (cloneInstruction stackFramePrefix ins)
  callLocal : forall (call : CallLocal) stackFramePrefix, allowed (.callLocal call) ->
    allowed (.callLocal { call with stackFramePrefix := stackFramePrefix })

/-- A well-formed graph whose instructions are all in a class. -/
structure Valid (allowed : Instruction -> Prop) (cfg : Cfg) : Prop extends WellFormed cfg where
  allowedAt : forall label, allowed (cfg.instructions label).cmd

namespace Valid

variable {allowed : Instruction -> Prop}

theorem initial (admissible : Admissible allowed) : Valid allowed Cfg.initial :=
  ⟨WellFormed.initial, fun _ => admissible.undefined 0⟩

variable {cfg next : Cfg} (valid : Valid allowed cfg)

include valid

theorem insert {label : Label} {ins : GuardedInstruction} (insAllowed : allowed ins.cmd)
    (run : cfg.insert label ins = .ok next) : Valid allowed next := by
  refine ⟨valid.toWellFormed.insert run, ?_⟩
  rcases insert_eq_ok.mp run with ⟨_, rfl⟩
  intro other
  by_cases same : other = label
  · subst same
    simpa using insAllowed
  · simpa [same] using valid.allowedAt other

theorem addChild {a b : Label} (run : cfg.addChild a b = .ok next) : Valid allowed next := by
  refine ⟨valid.toWellFormed.addChild run, ?_⟩
  rcases addChild_eq_ok.mp run with ⟨_, rfl⟩
  exact valid.allowedAt

theorem removeChild {a b : Label} (run : cfg.removeChild a b = .ok next) : Valid allowed next := by
  refine ⟨valid.toWellFormed.removeChild run, ?_⟩
  rcases removeChild_eq_ok run with ⟨_, rfl⟩
  exact valid.allowedAt

theorem setInstruction {label : Label} {ins : GuardedInstruction} (insAllowed : allowed ins.cmd) :
    Valid allowed (cfg.setInstruction label ins) := by
  refine ⟨valid.toWellFormed.setInstruction label ins, ?_⟩
  intro other
  by_cases same : other = label
  · subst same
    simpa [Cfg.setInstruction] using insAllowed
  · simpa [Cfg.setInstruction, same] using valid.allowedAt other

end Valid

/-- A computation that turns every valid graph into a valid one. -/
def Preserves (allowed : Instruction -> Prop) (run : Cfg -> Except CfgError Cfg) : Prop :=
  forall cfg next, Valid allowed cfg -> run cfg = .ok next -> Valid allowed next

/-- The shape of every sequence of operations here. -/
theorem bind_eq_ok {A B : Type} {first : Except CfgError A} {second : A -> Except CfgError B}
    {result : B} :
    (first >>= second) = .ok result ↔
      exists value, first = .ok value ∧ second value = .ok result := by
  cases first with
  | error err =>
      constructor
      · intro run
        cases run
      · intro run
        rcases run with ⟨value, made, _⟩
        cases made
  | ok value =>
      constructor
      · exact fun run => ⟨value, rfl, run⟩
      · intro run
        rcases run with ⟨found, made, run⟩
        cases made
        exact run

variable {allowed : Instruction -> Prop}

namespace Preserves

theorem ok : Preserves allowed .ok := by
  intro cfg next valid run
  cases run
  exact valid

theorem error (err : CfgError) : Preserves allowed (fun _ => .error err) := by
  intro cfg next _ run
  cases run

theorem addChild (a b : Label) : Preserves allowed (Cfg.addChild a b) :=
  fun _ _ valid run => valid.addChild run

theorem insert (label : Label) {ins : GuardedInstruction} (insAllowed : allowed ins.cmd) :
    Preserves allowed (Cfg.insert label ins) :=
  fun _ _ valid run => valid.insert insAllowed run

theorem bind {first : Cfg -> Except CfgError Cfg} {second : Cfg -> Except CfgError Cfg}
    (firstPreserves : Preserves allowed first) (secondPreserves : Preserves allowed second) :
    Preserves allowed (fun cfg => first cfg >>= second) := by
  intro cfg next valid run
  rcases bind_eq_ok.mp run with ⟨middle, before, after⟩
  exact secondPreserves middle next (firstPreserves cfg middle valid before) after

theorem insertJump (src target : Label) {ins : GuardedInstruction} (insAllowed : allowed ins.cmd) :
    Preserves allowed (Cfg.insertJump src target ins) := by
  intro cfg next valid run
  unfold Cfg.insertJump at run
  split at run
  · cases run
  · exact bind (insert _ insAllowed) (bind (addChild _ _) (addChild _ _)) cfg next valid run

theorem connectPrev (stackFramePrefix : List Char) (label prev : Label) :
    Preserves allowed (Cfg.connectPrev stackFramePrefix label prev) := by
  intro cfg next valid run
  unfold Cfg.connectPrev at run
  split at run
  · exact valid.addChild run
  · exact ok cfg next valid run

theorem connectPrevs (stackFramePrefix : List Char) (label : Label) (prevs : List Label) :
    Preserves allowed (Cfg.connectPrevs stackFramePrefix label prevs) := by
  induction prevs with
  | nil => exact ok
  | cons prev rest inductionHypothesis => exact bind (connectPrev _ _ prev) inductionHypothesis

theorem enterCallee (first : Bool) (callerLabel label : Label) :
    Preserves allowed (Cfg.enterCallee first callerLabel label) := by
  cases first with
  | false => exact ok
  | true => exact addChild _ _

theorem storePrefix (admissible : Admissible allowed) (callerLabel : Label)
    (stackFramePrefix : List Char) :
    Preserves allowed (Cfg.storePrefix callerLabel stackFramePrefix) := by
  intro cfg next valid run
  rcases bind_eq_ok.mp run with ⟨ins, read, stored⟩
  split at stored
  · rename_i call
    cases stored
    have callAllowed := (instructionAt_eq_ok read).2 ▸ valid.allowedAt callerLabel
    exact valid.setInstruction (admissible.callLocal call stackFramePrefix callAllowed)
  · cases stored
    exact valid

end Preserves

theorem walkSuccessor_valid {macroLabel label exitToLabel successor : Label}
    {state next : WalkState} (valid : Valid allowed state.cfg)
    (run : walkSuccessor macroLabel label exitToLabel successor state = .ok next) :
    Valid allowed next.cfg := by
  unfold walkSuccessor at run
  split at run
  · rcases bind_eq_ok.mp run with ⟨cfg, added, same⟩
    cases same
    exact valid.addChild added
  · split at run
    · cases run
      exact valid
    · cases run
      exact valid

theorem walkSuccessors_valid {macroLabel label exitToLabel : Label} {successors : List Label}
    {state next : WalkState} (valid : Valid allowed state.cfg)
    (run : walkSuccessors macroLabel label exitToLabel successors state = .ok next) :
    Valid allowed next.cfg := by
  induction successors generalizing state with
  | nil =>
      cases run
      exact valid
  | cons successor rest inductionHypothesis =>
      rcases bind_eq_ok.mp run with ⟨middle, step, later⟩
      exact inductionHypothesis (walkSuccessor_valid valid step) later

/-- The operations of one round of the walk, in order. -/
theorem walkLabel_eq_ok {callerLabel exitToLabel macroLabel : Label} {stackFramePrefix : List Char}
    {state next : WalkState}
    (run : walkLabel callerLabel stackFramePrefix exitToLabel macroLabel state = .ok next) :
    exists inserted entered connected,
      stackFramePrefix ≠ macroLabel.stackFramePrefix ∧ macroLabel ∈ state.cfg.labels ∧
      state.cfg.insert (cloneLabel stackFramePrefix macroLabel)
        { cmd := cloneInstruction stackFramePrefix (state.cfg.instructions macroLabel).cmd } =
        .ok inserted ∧
      enterCallee state.first callerLabel (cloneLabel stackFramePrefix macroLabel) inserted =
      .ok entered ∧ connectPrevs stackFramePrefix (cloneLabel stackFramePrefix macroLabel)
        (entered.parents macroLabel).elements entered = .ok connected ∧
      walkSuccessors macroLabel (cloneLabel stackFramePrefix macroLabel) exitToLabel
        (connected.children macroLabel).elements { state with cfg := connected, first := false } =
        .ok next := by
  unfold walkLabel at run
  split at run
  · cases run
  · rename_i recursive
    rcases bind_eq_ok.mp run with ⟨ins, read, afterRead⟩
    rcases bind_eq_ok.mp afterRead with ⟨inserted, first, afterFirst⟩
    rcases bind_eq_ok.mp afterFirst with ⟨entered, second, afterSecond⟩
    rcases bind_eq_ok.mp afterSecond with ⟨connected, third, last⟩
    rcases instructionAt_eq_ok read with ⟨member, rfl⟩
    exact ⟨inserted, entered, connected, recursive, member, first, second, third, last⟩

variable (admissible : Admissible allowed)

section Walk

include admissible

theorem walkLabel_valid {callerLabel exitToLabel macroLabel : Label} {stackFramePrefix : List Char}
    {state next : WalkState} (valid : Valid allowed state.cfg)
    (run : walkLabel callerLabel stackFramePrefix exitToLabel macroLabel state = .ok next) :
    Valid allowed next.cfg := by
  rcases walkLabel_eq_ok run with ⟨inserted, entered, connected, _, _, first, second, third, last⟩
  have insertedValid := valid.insert (admissible.clone _ _ (valid.allowedAt macroLabel)) first
  have enteredValid := Preserves.enterCallee _ _ _ inserted entered insertedValid second
  have connectedValid : Valid allowed
      ({ state with cfg := connected, first := false } : WalkState).cfg :=
    Preserves.connectPrevs _ _ _ entered connected enteredValid third
  exact walkSuccessors_valid connectedValid last

theorem walk_valid {callerLabel exitToLabel : Label} {stackFramePrefix : List Char} {fuel : Nat}
    {state final : WalkState} (valid : Valid allowed state.cfg)
    (run : walk callerLabel stackFramePrefix exitToLabel fuel state = .ok final) :
    Valid allowed final.cfg := by
  induction fuel generalizing state with
  | zero =>
      unfold walk at run
      split at run
      · cases run
        exact valid
      · cases run
  | succ fuel inductionHypothesis =>
      unfold walk at run
      split at run
      · cases run
        exact valid
      · rename_i macroLabel _
        rcases bind_eq_ok.mp run with ⟨next, step, later⟩
        have taken : Valid allowed
            ({ state with macroLabels := state.macroLabels.erase macroLabel } : WalkState).cfg :=
          valid
        exact inductionHypothesis (walkLabel_valid admissible taken step) later

theorem expandCall_valid {callerLabel entryLabel : Label} {cfg next : Cfg} {seen : OrderedSet Label}
    (valid : Valid allowed cfg) (run : expandCall callerLabel entryLabel cfg = .ok (next, seen)) :
    Valid allowed next := by
  rcases bind_eq_ok.mp run with ⟨exitToLabel, _, afterChild⟩
  rcases bind_eq_ok.mp afterChild with ⟨stored, store, afterStore⟩
  rcases bind_eq_ok.mp afterStore with ⟨final, walked, afterWalk⟩
  rcases bind_eq_ok.mp afterWalk with ⟨removed, removal, returned⟩
  cases returned
  have storedValid := Preserves.storePrefix admissible _ _ cfg stored valid store
  have startValid : Valid allowed
      (⟨stored, OrderedSet.singleton entryLabel, OrderedSet.singleton entryLabel,
        true⟩ : WalkState).cfg :=
    storedValid
  exact (walk_valid admissible startValid walked).removeChild removal

end Walk

namespace Preserves

theorem expandClone {callerText : List Char} {expand : Label -> Label -> Cfg -> Except CfgError Cfg}
    (expandPreserves : forall caller target, Preserves allowed (expand caller target))
    (label : Label)
    (ins : Instruction) : Preserves allowed (Cfg.expandClone callerText expand label ins) := by
  unfold Cfg.expandClone
  split
  · split
    · exact error _
    · exact expandPreserves _ _
  · exact ok

theorem expandNested {callerText : List Char}
    {expand : Label -> Label -> Cfg -> Except CfgError Cfg}
    (expandPreserves : forall caller target, Preserves allowed (expand caller target))
    (seen : List Label) :
    Preserves allowed (Cfg.expandNested callerText expand seen) := by
  induction seen with
  | nil => exact ok
  | cons macroLabel rest inductionHypothesis =>
      intro cfg next valid run
      rcases bind_eq_ok.mp run with ⟨ins, _, run⟩
      exact bind (expandClone expandPreserves _ ins) inductionHypothesis cfg next valid run

include admissible

theorem addCfgNodes (frames : Nat) :
    forall callerLabel entryLabel,
      Preserves allowed (Cfg.addCfgNodes frames callerLabel entryLabel) := by
  induction frames with
  | zero => exact fun _ _ => error _
  | succ frames inductionHypothesis =>
      intro callerLabel entryLabel cfg next valid run
      rcases bind_eq_ok.mp run with ⟨⟨expanded, seen⟩, call, run⟩
      exact expandNested inductionHypothesis seen.elements expanded
        next (expandCall_valid admissible valid call) run

omit admissible in
theorem insertInstruction (label : Label) {ins : Instruction} (insAllowed : allowed ins) :
    Preserves allowed (Cfg.insertInstruction label ins) := by
  unfold Cfg.insertInstruction
  split
  · exact ok
  · exact insert _ insAllowed

omit admissible in
theorem insertAll {insts : InstructionSeq}
    (instsAllowed : forall labelled, labelled ∈ insts -> allowed labelled.2) :
    Preserves allowed (Cfg.insertAll insts) := by
  induction insts with
  | nil => exact ok
  | cons labelled rest inductionHypothesis =>
      exact bind (insertInstruction _ (instsAllowed labelled List.mem_cons_self))
        (inductionHypothesis (fun other member =>
          instsAllowed other (List.mem_cons_of_mem _ member)))

theorem connectInstruction (label fallthrough : Label) (ins : Instruction) :
    Preserves allowed (Cfg.connectInstruction label fallthrough ins) := by
  intro cfg next valid run
  unfold Cfg.connectInstruction at run
  split at run
  · split at run
    · split at run
      · exact valid.addChild run
      · split at run
        · cases run
        · exact bind (insertJump _ _ (admissible.assume _)) (insertJump _ _ (admissible.assume _))
            cfg next valid run
    · exact valid.addChild run
  · exact valid.addChild run
  · exact valid.addChild run

theorem connectNext (mustHaveExit : Bool) (label : Label) (ins : Instruction)
    (rest : InstructionSeq) :
    Preserves allowed (Cfg.connectNext mustHaveExit label ins rest) := by
  unfold Cfg.connectNext
  split
  · exact ok
  · exact connectInstruction admissible _ _ _
  · split
    · exact error _
    · exact connectInstruction admissible _ _ _

theorem connectAll (mustHaveExit : Bool) (insts : InstructionSeq) :
    Preserves allowed (Cfg.connectAll mustHaveExit insts) := by
  induction insts with
  | nil => exact ok
  | cons labelled rest inductionHypothesis =>
    exact bind (connectNext admissible _ _ _ _) inductionHypothesis

theorem expandInstruction (label : Label) (ins : Instruction) :
    Preserves allowed (Cfg.expandInstruction label ins) := by
  unfold Cfg.expandInstruction
  split
  · exact addCfgNodes admissible _ _ _
  · exact ok

theorem expandAll (insts : InstructionSeq) : Preserves allowed (Cfg.expandAll insts) := by
  induction insts with
  | nil => exact ok
  | cons labelled rest inductionHypothesis =>
    exact bind (expandInstruction admissible _ _) inductionHypothesis

end Preserves

theorem firstPass_valid (admissible : Admissible allowed) {insts : InstructionSeq}
    {mustHaveExit : Bool}
    (instsAllowed : forall labelled, labelled ∈ insts -> allowed labelled.2) {cfg : Cfg}
    (run : firstPass insts mustHaveExit = .ok cfg) : Valid allowed cfg := by
  rcases bind_eq_ok.mp run with ⟨inserted, insertion, connection⟩
  have insertedValid := Preserves.insertAll instsAllowed _ inserted
    (Valid.initial admissible) insertion
  split at connection
  · cases connection
  · rcases bind_eq_ok.mp connection with ⟨entered, entry, connect⟩
    exact Preserves.connectAll admissible mustHaveExit _ entered cfg
      (insertedValid.addChild entry) connect

/-- The instructions of a returned graph stay in every class that contains the
sequence. -/
theorem instructionSeqToCfg_valid (admissible : Admissible allowed) {insts : InstructionSeq}
    {mustHaveExit : Bool}
    (instsAllowed : forall labelled, labelled ∈ insts -> allowed labelled.2) {cfg : Cfg}
    (run : instructionSeqToCfg insts mustHaveExit = .ok cfg) : Valid allowed cfg := by
  rcases bind_eq_ok.mp run with ⟨connected, first, expand⟩
  exact Preserves.expandAll admissible insts connected cfg
    (firstPass_valid admissible instsAllowed first) expand

/-- Every graph that `instruction_seq_to_cfg` returns is well formed. -/
theorem instructionSeqToCfg_wellFormed {insts : InstructionSeq} {mustHaveExit : Bool} {cfg : Cfg}
    (run : instructionSeqToCfg insts mustHaveExit = .ok cfg) : cfg.WellFormed := by
  have everything : Admissible (fun _ => True) :=
    ⟨fun _ => trivial, fun _ => trivial, fun _ _ _ => trivial, fun _ _ _ => trivial⟩
  exact (instructionSeqToCfg_valid everything (fun _ _ => trivial) run).toWellFormed

end Cfg

end Prevail
