import Prevail.Cfg.Callees
import Prevail.Cfg.Prepare

namespace Prevail
namespace Cfg

/-!
# Frame discipline

A path through the prepared graph opens a frame at each call and closes one at
each exit with a prefix, and `r10` moves along.  The text of a label is meant
to say how many frames are open there.  It does when the callees are kept
apart, except for the counter that `prepare_cfg` inserts behind a loop head
that is itself a call.
-/

/-- A call of a local function, which takes the frame of the callee from
`r10`. -/
def opensFrame : Instruction -> Bool
  | .callLocal _ => true
  | _ => false

/-- An exit with a prefix, which restores `r10`. -/
def closesFrame : Instruction -> Bool
  | .exit ins => ins.stackFramePrefix != []
  | _ => false

/-- The calls less the exits with a prefix among some labels. -/
def framesPassed (cfg : Cfg) (path : List Label) : Int :=
  path.countP (fun label => opensFrame (cfg.instructions label).cmd) -
    path.countP (fun label => closesFrame (cfg.instructions label).cmd)

/-- `r10.stack_offset` behind some labels, from the entry of the program on. -/
def r10StackOffset (cfg : Cfg) (path : List Label) : Int :=
  path.foldl (fun offset label =>
    match (cfg.instructions label).cmd with
    | .callLocal _ => offset - ebpfSubprogramStackSize
    | .exit ins => if ins.stackFramePrefix = [] then offset else offset + ebpfSubprogramStackSize
    | _ => offset) ebpfTotalStackSize

/-- The labels lead from the entry along the edges of the graph. -/
def IsPath (cfg : Cfg) (path : List Label) : Prop :=
  path.head? = some Label.entry ∧ path.IsChain (fun source target => target ∈ cfg.children source)

instance (cfg : Cfg) (path : List Label) : Decidable (cfg.IsPath path) :=
  inferInstanceAs (Decidable (_ ∧ _))

/-- The loop head behind which a counter stands. -/
def counterHead (label : Label) : Label := { label with specialLabel := [] }

/-- The counter of a loop head that opens or closes a frame. -/
def CountsFrameShift (cfg : Cfg) (label : Label) : Prop :=
  label.specialLabel ≠ [] ∧ frameShift (cfg.instructions (counterHead label)).cmd ≠ 0

theorem framesPassed_cons (cfg : Cfg) (label : Label) (path : List Label) :
    cfg.framesPassed (label :: path) = frameShift (cfg.instructions label).cmd +
      cfg.framesPassed path := by
  unfold framesPassed
  rw [List.countP_cons, List.countP_cons]
  cases (cfg.instructions label).cmd with
  | callLocal call => simp [opensFrame, closesFrame, frameShift]; omega
  | exit ins =>
      by_cases empty : ins.stackFramePrefix = []
      · simp [opensFrame, closesFrame, frameShift, empty]
      · simp [opensFrame, closesFrame, frameShift, empty]; omega
  | _ => simp [opensFrame, closesFrame, frameShift]

theorem r10StackOffset_eq (cfg : Cfg) (path : List Label) :
    cfg.r10StackOffset path = ebpfTotalStackSize - ebpfSubprogramStackSize *
      cfg.framesPassed path := by
  have general : forall start : Int, path.foldl (fun offset label =>
      match (cfg.instructions label).cmd with
      | .callLocal _ => offset - ebpfSubprogramStackSize
      | .exit ins => if ins.stackFramePrefix = [] then offset else offset + ebpfSubprogramStackSize
      | _ => offset) start = start - ebpfSubprogramStackSize * cfg.framesPassed path := by
    induction path with
    | nil =>
        intro start
        simp [framesPassed]
    | cons label rest inductionHypothesis =>
        intro start
        rw [List.foldl_cons, inductionHypothesis, framesPassed_cons]
        cases (cfg.instructions label).cmd with
        | callLocal call => simp only [frameShift]; ring
        | exit ins =>
            by_cases empty : ins.stackFramePrefix = []
            · simp [frameShift, empty]
            · simp only [frameShift, empty, if_false]; ring
        | _ => simp only [frameShift]; ring
  exact general ebpfTotalStackSize

/-! ## The expansion of all calls -/

section Expansion

variable {prog : InstructionSeq} {original cfg next : Cfg} {mustHaveExit : Bool}

/-- The labels of the first pass that belong to the main program. -/
def LiveLabels (original : Cfg) (prog : InstructionSeq) (live : Set Label) : Set Label :=
  { label | label ∈ original.labels ∧ (label = Label.entry ∨ Covers prog live label) }

/-- The live calls that the loop over `rest` still expands. -/
def PendingCalls (live : Set Label) (rest : InstructionSeq) : Set Label :=
  { label | label ∈ live ∧ exists call, (label, .callLocal call) ∈ rest }

variable {live : Set Label} (decoded : prog.Decoded)
  (graph : FirstPassGraph mustHaveExit prog original)

include decoded graph

theorem FirstPassGraph.labels_plain {label : Label} (member : label ∈ original.labels) :
    label.stackFramePrefix = [] ∧ label.specialLabel = [] := by
  rcases (graph.labels label).mp member with rfl | rfl | ⟨ins, isInst, _⟩ |
    ⟨source, ins, rest, suffix, isJump⟩
  · exact ⟨rfl, rfl⟩
  · exact ⟨rfl, rfl⟩
  · have isIndex := (decoded.indexed label ins isInst).1
    exact ⟨isIndex.stackFramePrefix, isIndex.specialLabel⟩
  · have isIndex := (decoded.indexed source ins (suffix.subset List.mem_cons_self)).1
    have covers : Covers prog { found | found = Label.exit ∨ found.IsIndex } label :=
      Or.inr ⟨source, ins, rest, suffix, Or.inr isIndex, isJump⟩
    exact covers_plain decoded (fun _ found => found) covers

omit decoded in
/-- An instruction of the main program is live. -/
theorem FirstPassGraph.live_of_liveLabels {label : Label} {ins : Instruction}
    {rest : InstructionSeq} (suffix : (label, ins) :: rest <:+ prog) (defined : Defined ins)
    (member : label ∈ original.LiveLabels prog live) : label ∈ live := by
  have occurs : Occurs prog label := ⟨ins, suffix.subset List.mem_cons_self, defined⟩
  rcases member.2 with rfl | isLive | ⟨source, other, otherRest, otherSuffix, _, isJump⟩
  · exact absurd rfl (graph.occursNe _ occurs).1
  · exact isLive
  · exact absurd occurs (graph.not_occurs_of_jump otherSuffix isJump).2.2

/-- The main program is closed under the edges of the first pass. -/
theorem FirstPassGraph.liveLabels_child (isLive : prog.Live live) {label next : Label}
    (member : label ∈ original.LiveLabels prog live) (child : next ∈ original.children label) :
    next ∈ original.LiveLabels prog live := by
  refine ⟨graph.wellFormed.target label next child, Or.inr ?_⟩
  by_cases isEntry : label = Label.entry
  · subst isEntry
    rcases graph.entry with ⟨first, ins, rest, rfl, entryChildren⟩
    rw [(entryChildren next).mp child]
    exact Or.inl isLive.start
  · exact graph.covers_child decoded isLive.indices isLive.closed isEntry
      (member.2.resolve_left isEntry) child

theorem FirstPassGraph.disciplined (isLive : prog.Live live) :
    Disciplined (original.LiveLabels prog live) (PendingCalls live prog) original := by
  have depth : forall label, label ∈ original.labels -> label.callStackDepth = 1 := by
    intro label member
    rw [Label.callStackDepth, if_pos (graph.labels_plain decoded member).1]
  have callDefined : forall found : CallLocal, Defined (.callLocal found) :=
    fun found opcode same => by cases same
  have exitDefined : forall found : Exit, Defined (.exit found) :=
    fun found opcode same => by cases same
  have pendingMem : forall label, label ∈ PendingCalls live prog ->
      label ∈ original.LiveLabels prog live := by
    rintro label ⟨isLive, call, member⟩
    exact ⟨(graph.labels label).mpr (Or.inr (Or.inr (Or.inl ⟨_, member, callDefined call⟩))),
      Or.inr (Or.inl isLive)⟩
  refine
    { mem := fun label member => member.1, entry := ⟨graph.wellFormed.entry, Or.inl rfl⟩, step := ?_
      pendingMem := pendingMem, pendingCall := ?_, pendingStep := ?_, owner := ?_, depth := ?_ }
  · intro label next member notPending child
    have nextMember := graph.liveLabels_child decoded isLive member child
    refine ⟨nextMember, ?_⟩
    rw [depth label member.1, depth next nextMember.1]
    have noShift : frameShift (original.instructions label).cmd = 0 := by
      cases cmd : (original.instructions label).cmd with
      | callLocal call =>
          rcases graph.suffix_of_instruction cmd (callDefined call)
            (fun _ same => by cases same) with ⟨rest, suffix⟩
          exact absurd ⟨graph.live_of_liveLabels suffix (callDefined call) member, call,
            suffix.subset List.mem_cons_self⟩ notPending
      | exit ins =>
          rcases graph.suffix_of_instruction cmd (exitDefined ins)
            (fun _ same => by cases same) with ⟨rest, suffix⟩
          exact if_pos (decoded.exits label ins (suffix.subset List.mem_cons_self))
      | _ => rfl
    rw [noShift, add_zero]
  · rintro label ⟨_, call, member⟩
    have occurs : Occurs prog label := ⟨_, member, callDefined call⟩
    exact ⟨⟨(graph.occursNe label occurs).1, (graph.occursNe label occurs).2,
      (decoded.indexed label _ member).1.specialLabel⟩, call,
      graph.instructions label _ member (callDefined call)⟩
  · intro label next pending child
    have nextMember := graph.liveLabels_child decoded isLive (pendingMem label pending) child
    refine ⟨nextMember, ?_⟩
    rw [depth label (pendingMem label pending).1, depth next nextMember.1]
  · intro label member nonempty
    exact absurd (graph.labels_plain decoded member.1).1 nonempty
  · intro label member
    rw [depth label member.1]
    decide

theorem FirstPassGraph.mainLevel (expanded : Set Label) (returns : Label -> Label -> Prop) :
    MainLevel original expanded returns original where
  wellFormed := graph.wellFormed
  children _ _ _ _ := Iff.rfl
  instructions _ _ _ := rfl
  parents label prev _ child :=
    Or.inl ⟨(graph.labels_plain decoded (graph.wellFormed.source prev label child)).1, child⟩

theorem FirstPassGraph.firstLevel : original.FirstLevel :=
  ⟨graph.wellFormed, fun _ => graph.labels_plain decoded⟩

omit decoded graph in
theorem MainLevel.mono {expanded larger : Set Label} {returns more : Label -> Label -> Prop}
    (mainLevel : MainLevel original expanded returns cfg) (subset : expanded ⊆ larger)
    (grows : forall label prev, returns label prev -> more label prev) :
    MainLevel original larger more cfg where
  wellFormed := mainLevel.wellFormed
  children label plain notExpanded := mainLevel.children label plain
    (fun member => notExpanded (subset member))
  instructions label plain notExpanded := mainLevel.instructions label plain
    (fun member => notExpanded (subset member))
  parents label prev plain child :=
    (mainLevel.parents label prev plain child).imp_right
      (fun both => ⟨both.1, grows label prev both.2⟩)

omit decoded graph in
theorem ReturnsTo.mono {expanded larger : Set Label} (subset : expanded ⊆ larger)
    {label prev : Label}
    (returns : ReturnsTo prog live expanded label prev) :
    ReturnsTo prog live larger label prev := by
  rcases returns with ⟨caller, call, rest, suffix, member, known⟩
  exact ⟨caller, call, rest, suffix, subset member, known⟩

omit decoded in
/-- The loop has expanded a call that it is past. -/
theorem FirstPassGraph.pendingCalls_cons {caller : Label} {call : CallLocal} {rest : InstructionSeq}
    (suffix : (caller, .callLocal call) :: rest <:+ prog) :
    PendingCalls live ((caller, .callLocal call) :: rest) \ {caller} = PendingCalls live rest := by
  ext label
  constructor
  · rintro ⟨⟨isLive, found, member⟩, different⟩
    rcases List.mem_cons.mp member with same | inRest
    · exact absurd (congrArg Prod.fst same) different
    · exact ⟨isLive, found, inRest⟩
  · rintro ⟨isLive, found, inRest⟩
    refine ⟨⟨isLive, found, List.mem_cons_of_mem _ inRest⟩, ?_⟩
    rintro rfl
    have distinct := (List.pairwise_cons.mp (graph.distinct.sublist suffix.sublist)).1 _ inRest
    exact distinct (fun opcode same => by cases same) (fun opcode same => by cases same) rfl

omit decoded graph in
theorem expandedCalls_cons (labelled : Label × Instruction) (rest : InstructionSeq) :
    prog.ExpandedCalls (labelled :: rest) ⊆ prog.ExpandedCalls rest := by
  rintro label ⟨call, behind, found, earlier⟩
  exact ⟨call, behind, found, (Nat.le_succ _).trans earlier⟩

section Call

variable {caller : Label} {call : CallLocal} {rest : InstructionSeq}
  (suffix : (caller, .callLocal call) :: rest <:+ prog)

include suffix

theorem FirstPassGraph.isCaller : IsCaller caller ∧ caller.stackFramePrefix = [] := by
  have member : (caller, .callLocal call) ∈ prog := suffix.subset List.mem_cons_self
  have occurs : Occurs prog caller := ⟨_, member, fun opcode same => by cases same⟩
  have isIndex := (decoded.indexed caller _ member).1
  exact ⟨⟨(graph.occursNe caller occurs).1, (graph.occursNe caller occurs).2, isIndex.specialLabel⟩,
    isIndex.stackFramePrefix⟩

omit decoded graph in
theorem mem_expandedCalls : caller ∈ prog.ExpandedCalls rest := ⟨call, rest, suffix, le_rfl⟩

omit decoded in
theorem FirstPassGraph.not_mem_expandedCalls :
    caller ∉ prog.ExpandedCalls ((caller, .callLocal call) :: rest) := by
  rintro ⟨found, behind, other, earlier⟩
  have inside : (caller, .callLocal call) :: rest <:+ behind :=
    List.suffix_of_suffix_length_le suffix ((List.suffix_cons _ _).trans other) earlier
  have distinct := (List.pairwise_cons.mp (graph.distinct.sublist other.sublist)).1 _
    (inside.subset List.mem_cons_self)
  exact distinct (fun opcode same => by cases same) (fun opcode same => by cases same) rfl

/-- Until its expansion a call has the successor that it has in the sequence. -/
theorem FirstPassGraph.mainLevel_child {returns : Label -> Label -> Prop}
    (mainLevel : MainLevel original
      (prog.ExpandedCalls ((caller, .callLocal call) :: rest)) returns cfg)
    {exitTo : Label} (child : exitTo ∈ cfg.children caller) :
    exitTo = InstructionSeq.fallthrough rest := by
  rw [mainLevel.children caller (graph.isCaller decoded suffix).2
    (graph.not_mem_expandedCalls suffix)] at child
  exact (graph.call_child suffix).mp child

theorem FirstPassGraph.expandLive (separated : prog.Separated live) (isLive : caller ∈ live)
    {labels : Set Label}
    (mainLevel : MainLevel original (prog.ExpandedCalls ((caller, .callLocal call) :: rest))
      (ReturnsTo prog live (prog.ExpandedCalls ((caller, .callLocal call) :: rest))) cfg)
    (disciplined : Disciplined labels (PendingCalls live ((caller, .callLocal call) :: rest)) cfg)
    (run : addCfgNodes maxCallStackFrames caller call.target cfg = .ok next) :
    exists larger, labels ⊆ larger ∧
      (forall label, label ∈ larger ->
        label ∈ labels ∨ (label.stackFramePrefix ≠ [] ∧ label.specialLabel = [])) ∧
      MainLevel original (prog.ExpandedCalls rest)
      (ReturnsTo prog live (prog.ExpandedCalls rest)) next ∧
      Disciplined larger (PendingCalls live rest) next := by
  have isIndex := (decoded.indexed caller _ (suffix.subset List.mem_cons_self)).2 call.target rfl
  have larger := @expandedCalls_cons prog (caller, .callLocal call) rest
  have counted : caller ∈ prog.ExpandedCalls rest := mem_expandedCalls suffix
  have depth : caller.callStackDepth + 1 ≤ maxCallStackFrames := by
    rw [Label.callStackDepth, if_pos (graph.isCaller decoded suffix).2]
    decide
  have runs : forall label, label ∈ original.functionOf call.target ->
      prog.FunctionRuns call.target label :=
    fun label => (graph.functionOf_iff decoded isIndex label).mp
  have exits : forall label, label ∈ original.functionOf call.target ->
      Label.exit ∈ original.children label -> prog.WalksTo label Label.exit :=
    fun label member => (graph.walksTo_iff (graph.ne_entry decoded isIndex (runs label member))
      Label.exit).mp
  rw [<- graph.pendingCalls_cons suffix]
  have sevenMore : addCfgNodes (7 + 1) caller call.target cfg = .ok next := run
  refine @addCfgNodes_disciplined _ _ _ _ _ _ { inner |
    Relation.TransGen prog.CallsFunction call.target inner }
    _ _ _ _ _ (graph.firstLevel decoded) (mainLevel.mono larger (fun _ _ => id)) disciplined
    ⟨isLive, call, List.mem_cons_self⟩
    counted depth
    (graph.clonable decoded separated suffix isLive .refl
      (separated.earlier caller call rest suffix isLive))
    (fun _ _ => ReturnsTo.mono larger) ?_ ?_ ?_ ?_ ?_ sevenMore
  · rintro exitTo child taken search source isTaken leaves
    rw [graph.mainLevel_child decoded suffix mainLevel child] at search
    exact separated.own caller call rest taken suffix isLive
      (graph.leastFirst decoded isIndex search) source isTaken
      (exits source (search.reaches source (List.mem_cons_of_mem _ isTaken)) leaves)
  · intro exitTo source child member leaves
    exact ⟨caller, call, rest, suffix, counted,
      graph.mainLevel_child decoded suffix mainLevel child,
      fun _ => ⟨source, rfl, runs source member, exits source member leaves⟩⟩
  · intro label inner member isCall
    exact .single (graph.callsFunction decoded suffix .refl member isCall)
  · intro inner calls
    exact graph.clonable decoded separated suffix isLive calls.to_reflTransGen
      (separated.nested caller call rest inner suffix isLive calls)
  · intro inner calls label innerCall member isCall
    exact Relation.TransGen.tail calls
      (graph.callsFunction decoded suffix (Relation.TransGen.to_reflTransGen calls) member isCall)

theorem FirstPassGraph.expandOther (notLive : caller ∉ live)
    (mainLevel : MainLevel original (prog.ExpandedCalls ((caller, .callLocal call) :: rest))
      (ReturnsTo prog live (prog.ExpandedCalls ((caller, .callLocal call) :: rest))) cfg)
    (run : addCfgNodes maxCallStackFrames caller call.target cfg = .ok next) :
    MainLevel original (prog.ExpandedCalls rest)
    (ReturnsTo prog live (prog.ExpandedCalls rest)) next := by
  have larger := @expandedCalls_cons prog (caller, .callLocal call) rest
  have counted : caller ∈ prog.ExpandedCalls rest := mem_expandedCalls suffix
  rcases graph.isCaller decoded suffix with ⟨isCaller, main⟩
  rcases addCfgNodes_extends maxCallStackFrames isCaller mainLevel.wellFormed run with
    ⟨exitTo, child, extension⟩
  refine (mainLevel.mono larger (fun _ _ => id)).extends_unknown isCaller main counted
    child extension
    (fun _ _ => ReturnsTo.mono larger) ?_ ?_
  · intro label prev isChild
    exact ⟨caller, call, rest, suffix, counted, (graph.call_child suffix).mp isChild,
      fun isLive => absurd isLive notLive⟩
  · rintro label inner prev inside ⟨other, otherCall, otherRest, otherSuffix, member, same, known⟩
    refine ⟨other, otherCall, otherRest, otherSuffix, larger member, same, fun otherLive => ?_⟩
    rcases known otherLive with ⟨source, rfl, _⟩
    rcases graph.isCaller decoded otherSuffix with ⟨isOther, otherMain⟩
    exact absurd (inside.eq_of_main isCaller isOther otherMain ▸ otherLive) notLive

end Call

theorem expandAll_disciplined (separated : prog.Separated live) {rest : InstructionSeq}
    {labels : Set Label} (suffix : rest <:+ prog)
    (mainLevel : MainLevel original (prog.ExpandedCalls rest)
      (ReturnsTo prog live (prog.ExpandedCalls rest)) cfg)
    (disciplined : Disciplined labels (PendingCalls live rest) cfg)
    (origin : forall label, label ∈ labels ->
      label ∈ original.LiveLabels prog live ∨
      (label.stackFramePrefix ≠ [] ∧ label.specialLabel = []))
    (run : expandAll rest cfg = .ok next) :
    exists labels, Disciplined labels ∅ next ∧ forall label, label ∈ labels ->
      label.specialLabel = [] := by
  induction rest generalizing cfg labels with
  | nil =>
      cases run
      have none : PendingCalls live [] = ∅ := by
        ext label
        simp [PendingCalls]
      refine ⟨labels, none ▸ disciplined, ?_⟩
      intro label member
      rcases origin label member with isLive | ⟨_, special⟩
      · exact (graph.labels_plain decoded isLive.1).2
      · exact special
  | cons labelled rest inductionHypothesis =>
      rcases labelled with ⟨caller, ins⟩
      rcases bind_eq_ok.mp run with ⟨middle, expansion, later⟩
      have restSuffix : rest <:+ prog := (List.suffix_cons _ _).trans suffix
      unfold expandInstruction at expansion
      split at expansion
      · rename_i call
        by_cases isLive : caller ∈ live
        · rcases graph.expandLive decoded suffix separated isLive mainLevel disciplined
            expansion with
            ⟨larger, _, prefixed, middleMain, middleDisciplined⟩
          refine inductionHypothesis restSuffix middleMain middleDisciplined ?_ later
          intro label isMember
          exact (prefixed label isMember).elim (origin label) Or.inr
        · have middleMain := graph.expandOther decoded suffix isLive mainLevel expansion
          rcases graph.isCaller decoded suffix with ⟨isCaller, main⟩
          have outside : caller ∉ labels := by
            intro isMember
            rcases origin caller isMember with found | ⟨nonempty, _⟩
            · exact isLive (graph.live_of_liveLabels suffix
                (fun opcode same => by cases same) found)
            · exact nonempty main
          rcases addCfgNodes_extends maxCallStackFrames isCaller mainLevel.wellFormed expansion with
            ⟨exitTo, _, extension⟩
          have still := disciplined.extends_outside isCaller outside extension
          have same : PendingCalls live ((caller, .callLocal call) :: rest) \ {caller} =
              PendingCalls live rest :=
            graph.pendingCalls_cons suffix
          rw [Set.sdiff_singleton_eq_self (fun pending => isLive pending.1)] at same
          exact inductionHypothesis restSuffix middleMain (same ▸ still) origin later
      · rename_i notCall
        cases expansion
        have same : PendingCalls live ((caller, ins) :: rest) = PendingCalls live rest := by
          ext label
          constructor
          · rintro ⟨isLive, found, member⟩
            rcases List.mem_cons.mp member with same | inRest
            · exact absurd (congrArg Prod.snd same).symm (notCall found)
            · exact ⟨isLive, found, inRest⟩
          · rintro ⟨isLive, found, inRest⟩
            exact ⟨isLive, found, List.mem_cons_of_mem _ inRest⟩
        have larger := @expandedCalls_cons prog (caller, ins) rest
        exact inductionHypothesis restSuffix
          (mainLevel.mono larger (fun _ _ => ReturnsTo.mono larger))
          (same ▸ disciplined) origin later

end Expansion

/-! ## The prepared graph -/

/-- The number of frames that a path to a label has opened: the depth of the
label, and for a counter also the shift of the loop head before it. -/
def framesOpen (cfg : Cfg) (label : Label) : Int :=
  label.callStackDepth - 1 +
    if label.specialLabel = [] then 0 else frameShift (cfg.instructions (counterHead label)).cmd

/-- A set of labels that is closed under the edges, along which the open frames
change as the instructions say. -/
structure CountedFrames (labels : Set Label) (cfg : Cfg) : Prop where
  entry : Label.entry ∈ labels
  step : forall label next, label ∈ labels -> next ∈ cfg.children label ->
    next ∈ labels ∧ cfg.framesOpen next = cfg.framesOpen label + frameShift
    (cfg.instructions label).cmd
  depth : forall label, label ∈ labels -> label.callStackDepth ≤ maxCallStackFrames

theorem framesOpen_of_plain {cfg : Cfg} {label : Label} (plain : label.specialLabel = []) :
    cfg.framesOpen label = label.callStackDepth - 1 := by
  rw [framesOpen, if_pos plain, add_zero]

theorem framesOpen_counter {cfg : Cfg} {head : Label} (plain : head.specialLabel = []) :
    cfg.framesOpen head.makeIncrementCounter = head.callStackDepth - 1 + frameShift
      (cfg.instructions head).cmd := by
  have same : counterHead head.makeIncrementCounter = head := by
    rcases head with ⟨stackFramePrefix, fromIndex, toIndex, specialLabel⟩
    have empty : specialLabel = [] := plain
    subst empty
    rfl
  rw [framesOpen, same, if_neg (by simp [Label.makeIncrementCounter])]
  rfl

/-- A disciplined graph without counters. -/
theorem Disciplined.countedFrames {labels : Set Label} {cfg : Cfg}
    (disciplined : Disciplined labels ∅ cfg)
    (plain : forall label, label ∈ labels -> label.specialLabel = []) :
    CountedFrames labels cfg where
  entry := disciplined.entry
  step label next member child := by
    rcases disciplined.step label next member (Set.notMem_empty label) child with
      ⟨nextMember, depth⟩
    refine ⟨nextMember, ?_⟩
    rw [framesOpen_of_plain (plain label member),
      framesOpen_of_plain (plain next nextMember), depth]
    ring
  depth := disciplined.depth

/-- The insertion of counters behind some loop heads. -/
theorem Disciplined.insertCounters {labels : Set Label} {cfg next : Cfg} {heads : List Label}
    (disciplined : Disciplined labels ∅ cfg)
    (plain : forall label, label ∈ labels -> label.specialLabel = [])
    (wellFormed : cfg.WellFormed) (distinct : heads.Nodup) (members : forall head, head ∈ heads ->
      head ∈ cfg.labels)
    (run : Cfg.insertCounters heads cfg = .ok next) :
    CountedFrames { label | label ∈ labels ∨ exists head, head ∈ heads ∧ head ∈ labels ∧
      label = head.makeIncrementCounter } next := by
  have instrumented := insertCounters_spec distinct wellFormed members run
  have instructions : forall label, label ∈ labels ->
      next.instructions label = cfg.instructions label :=
    fun label member => instrumented.instructions label (disciplined.mem label member)
  refine { entry := Or.inl disciplined.entry, step := ?_, depth := ?_ }
  · rintro label target (member | ⟨head, isHead, member, rfl⟩) child
    · rw [framesOpen_of_plain (plain label member), instructions label member]
      by_cases isHead : label ∈ heads
      · have isCounter := instrumented.headChildren label target isHead child
        subst isCounter
        refine ⟨Or.inr ⟨label, isHead, member, rfl⟩, ?_⟩
        rw [framesOpen_counter (plain label member), instructions label member]
      · rw [instrumented.otherChildren label target (disciplined.mem label member) isHead] at child
        rcases disciplined.step label target member (Set.notMem_empty label) child with
          ⟨targetMember, depth⟩
        refine ⟨Or.inl targetMember, ?_⟩
        rw [framesOpen_of_plain (plain target targetMember), depth]
        ring
    · have old := (insertCounters_counterChildren distinct wellFormed members run isHead).mp child
      rcases disciplined.step head target member (Set.notMem_empty head) old with
        ⟨targetMember, depth⟩
      refine ⟨Or.inl targetMember, ?_⟩
      rw [framesOpen_of_plain (plain target targetMember), depth,
        framesOpen_counter (plain head member), instructions head member,
        instrumented.counter head isHead]
      simp only [frameShift]
      ring
  · rintro label (member | ⟨head, _, member, rfl⟩)
    · exact disciplined.depth label member
    · exact disciplined.depth head member

/-- Along a path the calls less the exits with a prefix are the frames that the
path has opened. -/
theorem CountedFrames.framesPassed {labels : Set Label} {cfg : Cfg}
    (counted : CountedFrames labels cfg)
    {before : List Label} : forall {start label : Label}, start ∈ labels ->
      (before ++ [label]).head? = some start ->
      (before ++ [label]).IsChain (fun source target => target ∈ cfg.children source) ->
      label ∈ labels ∧ cfg.framesOpen label = cfg.framesOpen start + cfg.framesPassed before := by
  induction before with
  | nil =>
      intro start label member begins _
      cases begins
      exact ⟨member, by simp [Cfg.framesPassed]⟩
  | cons first rest inductionHypothesis =>
      intro start label member begins chain
      cases begins
      cases tail : rest ++ [label] with
      | nil => simp at tail
      | cons second others =>
          rw [List.cons_append, tail, List.isChain_cons_cons] at chain
          rcases counted.step first second member chain.1 with ⟨secondMember, shift⟩
          have later := inductionHypothesis secondMember (by rw [tail]; rfl) (tail ▸ chain.2)
          refine ⟨later.1, ?_⟩
          rw [later.2, shift, framesPassed_cons]
          ring

/-- The prepared graph of a sequence whose callees are kept apart. -/
theorem prepareCfg_countedFrames {prog : InstructionSeq} {isPrivileged : Bool}
    {options : PrepareCfgOptions}
    {fuel : Nat} {result : Cfg} {live : Set Label} (decoded : prog.Decoded)
    (separated : prog.Separated live)
    (prepared : prepareCfg prog isPrivileged options fuel = .ok result) :
    exists labels, CountedFrames labels result := by
  rcases bind_eq_ok.mp prepared with ⟨cfg, built, afterBuild⟩
  rcases bind_eq_ok.mp afterBuild with ⟨instrumented, instrumenting, annotating⟩
  rcases bind_eq_ok.mp built with ⟨original, first, expansion⟩
  have graph := firstPass_spec first
  rcases expandAll_disciplined decoded graph separated (List.suffix_refl prog)
    (graph.mainLevel decoded _ _)
    (graph.disciplined decoded separated.toLive) (fun label member => Or.inl member) expansion with
    ⟨labels, disciplined, plain⟩
  have counted : exists labels, CountedFrames labels instrumented := by
    rcases instrument_eq_ok (instructionSeqToCfg_wellFormed built) instrumenting with
      rfl | ⟨heads, distinct, members, inserting⟩
    · exact ⟨labels, disciplined.countedFrames plain⟩
    · exact ⟨_, disciplined.insertCounters plain (instructionSeqToCfg_wellFormed built) distinct
        members inserting⟩
  rcases counted with ⟨all, entry, step, depth⟩
  rcases setAllAssertions_spec annotating with ⟨_, children, instructions⟩
  have same : forall label, result.framesOpen label = instrumented.framesOpen label := by
    intro label
    rw [framesOpen, framesOpen, instructions]
  refine ⟨all, entry, ?_, depth⟩
  intro label next member child
  rw [children] at child
  rw [same, same, instructions]
  exact step label next member child

/-- When the depth of a label says how many frames a path to it has opened.  In
a sequence whose callees are kept apart it does for every label but the
counters of loop heads that open or close a frame, and then `r10` with an
offset into the frame stays inside the stack.  The depth never exceeds the
bound. -/
theorem prepareCfg_frameDiscipline_iff {prog : InstructionSeq} {isPrivileged : Bool}
    {options : PrepareCfgOptions}
    {fuel : Nat} {result : Cfg} {live : Set Label} (decoded : prog.Decoded)
    (separated : prog.Separated live)
    (prepared : prepareCfg prog isPrivileged options fuel = .ok result) {before : List Label}
    {label : Label} (path : result.IsPath (before ++ [label])) :
    label.callStackDepth ≤ maxCallStackFrames ∧
      (result.framesPassed before = label.callStackDepth - 1 ↔ ¬ result.CountsFrameShift label) ∧
      (¬ result.CountsFrameShift label -> forall offset : Int, -ebpfSubprogramStackSize ≤ offset ->
      offset < 0 ->
        0 ≤ result.r10StackOffset before + offset ∧
        result.r10StackOffset before + offset < ebpfTotalStackSize) := by
  rcases prepareCfg_countedFrames decoded separated prepared with ⟨labels, counted⟩
  rcases counted.framesPassed counted.entry path.1 path.2 with ⟨member, opened⟩
  have depth := counted.depth label member
  have passed : result.framesPassed before = result.framesOpen label := by
    rw [opened, framesOpen_of_plain (show Label.entry.specialLabel = [] from rfl)]
    simp [Label.callStackDepth, Label.entry]
  have positive : 1 ≤ label.callStackDepth := by
    unfold Label.callStackDepth
    split <;> omega
  have agrees : result.framesPassed before = label.callStackDepth - 1 ↔
      ¬ result.CountsFrameShift label := by
    rw [passed, framesOpen, CountsFrameShift]
    by_cases special : label.specialLabel = []
    · simp [special]
    · simp [special]
  refine ⟨depth, agrees, ?_⟩
  intro noShift offset lower upper
  rw [r10StackOffset_eq, agrees.mpr noShift]
  simp only [ebpfTotalStackSize, maxCallStackFrames, ebpfSubprogramStackSize] at depth lower ⊢
  omega

/-! ## Two sequences -/

/-- The function at 1, which the main program calls from 5, itself calls the
function at 3; and its call is expanded before the one at 5. -/
def calleeBeforeCaller : InstructionSeq :=
  [({ fromIndex := 0 }, .jmp ⟨none, { fromIndex := 5 }⟩),
    ({ fromIndex := 1 }, .callLocal ⟨{ fromIndex := 3 }, []⟩),
    ({ fromIndex := 2 }, .exit ⟨[]⟩),
    ({ fromIndex := 3 }, .bin ⟨.mov, ⟨0⟩, .imm ⟨0⟩, true, false⟩),
    ({ fromIndex := 4 }, .exit ⟨[]⟩),
    ({ fromIndex := 5 }, .callLocal ⟨{ fromIndex := 1 }, []⟩),
    ({ fromIndex := 6 }, .exit ⟨[]⟩)]

/-- Functions behind their callers.  The call at 0 returns to 1, the first label of
its own callee. -/
def calleeBehindCaller : InstructionSeq :=
  [({ fromIndex := 0 }, .callLocal ⟨{ fromIndex := 1 }, []⟩),
    ({ fromIndex := 1 }, .callLocal ⟨{ fromIndex := 3 }, []⟩),
    ({ fromIndex := 2 }, .exit ⟨[]⟩),
    ({ fromIndex := 3 }, .bin ⟨.mov, ⟨0⟩, .imm ⟨0⟩, true, false⟩),
    ({ fromIndex := 4 }, .exit ⟨[]⟩)]

/-- Two calls and three exits on the way to the label 6. -/
def threeExits : List Label :=
  [Label.entry, { fromIndex := 0 }, { fromIndex := 5 },
    { stackFramePrefix := ['5'], fromIndex := 1 },
    { stackFramePrefix := ['5', '/', '1'], fromIndex := 3 },
    { stackFramePrefix := ['5', '/', '1'], fromIndex := 4 },
    { stackFramePrefix := ['5'], fromIndex := 3 }, { stackFramePrefix := ['5'], fromIndex := 4 },
    { stackFramePrefix := ['5'], fromIndex := 2 }]

/-- Where a callee stands before its caller, a path may close more frames than
it has opened, and `r10` ends above the stack. -/
theorem prepareCfg_calleeBeforeCaller :
    calleeBeforeCaller.Decoded ∧
      exists result, prepareCfg calleeBeforeCaller false ⟨false, true⟩ 100 = .ok result ∧
        result.IsPath (threeExits ++ [{ fromIndex := 6 }]) ∧
        result.framesPassed threeExits ≠ Label.callStackDepth { fromIndex := 6 } - 1 ∧
        (ebpfTotalStackSize : Int) ≤ result.r10StackOffset threeExits + -8 := by
  refine ⟨by decide, ?_⟩
  have checked : returnsChecked
      (fun result => decide (result.IsPath (threeExits ++ [{ fromIndex := 6 }]) ∧
      result.framesPassed threeExits ≠ Label.callStackDepth { fromIndex := 6 } - 1 ∧
      (ebpfTotalStackSize : Int) ≤ result.r10StackOffset threeExits + -8))
      (prepareCfg calleeBeforeCaller false ⟨false, true⟩ 100) = true := by
    decide
  rcases exists_of_returnsChecked checked with ⟨result, prepared, holds⟩
  exact ⟨result, prepared, of_decide_eq_true holds⟩

theorem calleeBehindCaller_calls {caller : Label} {call : CallLocal} {rest : InstructionSeq}
    (suffix : (caller, .callLocal call) :: rest <:+ calleeBehindCaller) :
    (call.target = { fromIndex := 1 } ∧ rest.length = 4 ∧
      InstructionSeq.fallthrough rest = { fromIndex := 1 } ∧ caller.fromIndex = 0) ∨
    (call.target = { fromIndex := 3 } ∧ rest.length = 3 ∧
      InstructionSeq.fallthrough rest = { fromIndex := 2 } ∧ caller.fromIndex = 1) := by
  simp only [calleeBehindCaller, List.suffix_cons_iff, List.cons.injEq, Prod.mk.injEq,
    List.suffix_nil, reduceCtorEq, and_false, false_and, or_false,
      Instruction.callLocal.injEq] at suffix
  rcases suffix with ⟨⟨rfl, rfl⟩, rfl⟩ | ⟨⟨rfl, rfl⟩, rfl⟩
  · exact Or.inl ⟨rfl, rfl, rfl, rfl⟩
  · exact Or.inr ⟨rfl, rfl, rfl, rfl⟩

/-- All its walks go forward, and only its exits leave it. -/
theorem calleeBehindCaller_walks {label next : Label}
    (walks : calleeBehindCaller.WalksTo label next) :
    label.fromIndex ≤ next.fromIndex ∧
      (next = Label.exit -> exists exit_, (label, .exit exit_) ∈ calleeBehindCaller) := by
  rcases walks with ⟨source, ins, rest, suffix, _, goes⟩
  simp only [calleeBehindCaller, List.suffix_cons_iff, List.cons.injEq, Prod.mk.injEq,
    List.suffix_nil, reduceCtorEq, or_false] at suffix
  rcases suffix with ⟨⟨rfl, rfl⟩, rfl⟩ | ⟨⟨rfl, rfl⟩, rfl⟩ | ⟨⟨rfl, rfl⟩, rfl⟩ | ⟨⟨rfl, rfl⟩, rfl⟩ |
    ⟨⟨rfl, rfl⟩, rfl⟩ <;>
    simp only [jumpLabels, List.not_mem_nil, false_or, false_and, or_false, true_and,
      Instruction.MayGoTo, InstructionSeq.fallthrough] at goes <;>
    rcases goes with ⟨rfl, rfl⟩ <;>
    first
      | exact ⟨by decide, fun same => absurd same (by decide)⟩
      | exact ⟨by decide, fun _ => ⟨⟨[]⟩, by simp [calleeBehindCaller]⟩⟩

theorem calleeBehindCaller_forward {target label : Label}
    (runs : calleeBehindCaller.FunctionRuns target label) :
    target.fromIndex ≤ label.fromIndex := by
  induction runs with
  | refl => exact le_rfl
  | tail _ last inductionHypothesis =>
    exact inductionHypothesis.trans (calleeBehindCaller_walks last.1).1

theorem calleeBehindCaller_callees {target callee : Label}
    (calls : Relation.ReflTransGen calleeBehindCaller.CallsFunction target callee) :
    target.fromIndex ≤ callee.fromIndex := by
  induction calls with
  | refl => exact le_rfl
  | tail _ last inductionHypothesis =>
      rcases last with ⟨label, runs, call, rest, suffix, rfl⟩
      have forward := calleeBehindCaller_forward runs
      rcases calleeBehindCaller_calls suffix with ⟨target, _, _, index⟩ | ⟨target, _, _, index⟩ <;>
        rw [target] <;>
        simp only <;>
        omega

/-- No call that is expanded before returns into a function behind it. -/
theorem calleeBehindCaller_undisturbed {live : Set Label} {rest : InstructionSeq} {target : Label}
    (behind : forall caller call callRest,
      (caller, .callLocal call) :: callRest <:+ calleeBehindCaller ->
      rest.length ≤ callRest.length ->
      (InstructionSeq.fallthrough callRest).fromIndex < target.fromIndex) :
    calleeBehindCaller.Undisturbed live (calleeBehindCaller.ExpandedCalls rest) target := by
  rintro taken label search source _ ⟨caller, call, callRest, suffix,
    ⟨other, otherRest, otherSuffix, earlier⟩, same, _⟩
  have forward := calleeBehindCaller_forward (search.reaches label List.mem_cons_self)
  have sameRest : otherRest.length = callRest.length := by
    rcases calleeBehindCaller_calls suffix with ⟨_, length, _, index⟩ | ⟨_, length, _, index⟩ <;>
      rcases calleeBehindCaller_calls otherSuffix with ⟨_, otherLength, _, otherIndex⟩ |
        ⟨_, otherLength, _, otherIndex⟩ <;>
      omega
  have before := behind caller call callRest suffix (sameRest ▸ earlier)
  rw [same] at forward
  omega

theorem calleeBehindCaller_separated :
    calleeBehindCaller.Separated { label | label = Label.exit ∨ label.IsIndex } where
  indices _ member := member
  start := Or.inr ⟨rfl, by decide, rfl, rfl⟩
  closed _ _ _ flows := flows_index (by decide : calleeBehindCaller.Decoded).indexed flows
  calls caller call rest target inner innerCall innerRest suffix _ callee innerSuffix runs := by
    have forward := (calleeBehindCaller_callees callee).trans (calleeBehindCaller_forward runs)
    rcases calleeBehindCaller_calls suffix with ⟨isTarget, _, _, _⟩ | ⟨isTarget, _, _, _⟩ <;>
      rcases calleeBehindCaller_calls innerSuffix with ⟨_, _, _, _⟩ | ⟨_, _, _, _⟩ <;>
      rw [isTarget] at forward <;>
      simp only at forward <;>
      omega
  leaves _ _ _ _ _ _ _ _ _ walks := (calleeBehindCaller_walks walks).2 rfl
  earlier caller call rest suffix _ := by
    refine calleeBehindCaller_undisturbed fun other otherCall otherRest otherSuffix earlier => ?_
    rw [List.length_cons] at earlier
    rcases calleeBehindCaller_calls suffix with ⟨isTarget, _, _, _⟩ | ⟨isTarget, _, _, _⟩ <;>
      rcases calleeBehindCaller_calls otherSuffix with ⟨_, _, isBehind, _⟩ | ⟨_, _, isBehind, _⟩ <;>
      rw [isTarget, isBehind] <;>
      simp only <;>
      omega
  own caller call rest taken suffix _ search source isTaken := by
    have forward := calleeBehindCaller_forward (search.reaches _ List.mem_cons_self)
    rcases calleeBehindCaller_calls suffix with ⟨isTarget, _, isBehind, _⟩ |
      ⟨isTarget, _, isBehind, _⟩
    · rw [isTarget, isBehind] at search
      exact absurd search.eq_nil (List.ne_nil_of_mem isTaken)
    · rw [isTarget, isBehind] at forward
      exact absurd forward (by decide)
  nested caller call rest target suffix _ callee := by
    refine calleeBehindCaller_undisturbed fun other otherCall otherRest otherSuffix earlier => ?_
    rcases Relation.TransGen.tail'_iff.mp callee with
      ⟨between, calls, label, runs, inner, innerRest, innerSuffix, rfl⟩
    have forward := (calleeBehindCaller_callees calls).trans (calleeBehindCaller_forward runs)
    rcases calleeBehindCaller_calls suffix with ⟨isTarget, _, _, _⟩ | ⟨isTarget, _, _, _⟩ <;>
      rcases calleeBehindCaller_calls innerSuffix with ⟨isInner, _, _, _⟩ | ⟨isInner, _, _, _⟩ <;>
      rcases calleeBehindCaller_calls otherSuffix with ⟨_, _, isBehind, _⟩ | ⟨_, _, isBehind, _⟩ <;>
      rw [isTarget] at forward <;>
      rw [isInner, isBehind] <;>
      simp only at forward ⊢ <;>
      omega

/-- The path into both functions of the second sequence and back, and into the
second one again. -/
def threeCalls : List Label :=
  [Label.entry, { fromIndex := 0 }, { stackFramePrefix := ['0'], fromIndex := 1 },
    { stackFramePrefix := ['0', '/', '1'], fromIndex := 3 },
    { stackFramePrefix := ['0', '/', '1'], fromIndex := 4 },
    { stackFramePrefix := ['0'], fromIndex := 2 }, { fromIndex := 1 },
    { stackFramePrefix := ['1'], fromIndex := 3 }, { stackFramePrefix := ['1'], fromIndex := 4 }]

theorem prepareCfg_calleeBehindCaller :
    exists result, prepareCfg calleeBehindCaller false ⟨false, true⟩ 100 = .ok result ∧
      result.IsPath (threeCalls ++ [{ fromIndex := 2 }]) ∧
      result.framesPassed threeCalls = Label.callStackDepth { fromIndex := 2 } - 1 := by
  have checked : returnsChecked
      (fun result => decide (result.IsPath (threeCalls ++ [{ fromIndex := 2 }])))
      (prepareCfg calleeBehindCaller false ⟨false, true⟩ 100) = true := by
    decide
  rcases exists_of_returnsChecked checked with ⟨result, prepared, holds⟩
  have path := of_decide_eq_true holds
  refine ⟨result, prepared, path, ?_⟩
  have discipline := prepareCfg_frameDiscipline_iff (by decide) calleeBehindCaller_separated
    prepared path
  exact discipline.2.1.mpr (fun counts => counts.1 rfl)

end Cfg
end Prevail
