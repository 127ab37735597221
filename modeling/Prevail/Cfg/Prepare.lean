import Prevail.Cfg.Inline
import Prevail.Wto.Components

namespace Prevail

/-!
# Termination instrumentation

`prepare_cfg` of `asm_cfg.cpp`.  Under `check_for_termination` it builds a weak
topological order of the graph and leads the outgoing edges of each loop head
through a new counter node.

The loop heads are those that `wto_t::for_each_loop_head` visits, and it looks
at the outermost components only.  The instrumentation therefore cuts every
closed walk exactly when no loop contains another one and the labels that the
entry does not reach are free of loops.
-/

structure PrepareCfgOptions where
  checkForTermination : Bool
  mustHaveExit : Bool

namespace Cfg

/-- The children of a label in the order of the set. -/
def childrenOf (cfg : Cfg) (label : Label) : List Label := (cfg.children label).elements

/-- The counter of one loop head. -/
def insertCounter (head : Label) (cfg : Cfg) : Except CfgError Cfg :=
  cfg.insertAfter head head.makeIncrementCounter { cmd := .incrementLoopCounter head }

/-- The loop over the loop heads. -/
def insertCounters : List Label -> Cfg -> Except CfgError Cfg
  | [], cfg => .ok cfg
  | head :: rest, cfg => do
      let cfg <- insertCounter head cfg
      insertCounters rest cfg

/-- `wto_t{builder.cfg}`, where the construction takes at most `fuel` tasks. -/
def buildWto (cfg : Cfg) (fuel : Nat) : Except CfgError (Wto Label) :=
  match Wto.build cfg.childrenOf Label.entry fuel with
  | some wto => .ok wto
  | none => .error .outOfFuel

/-- `for_each_loop_head` with the insertion of counters. -/
def countLoops (wto : Wto Label) (cfg : Cfg) : Except CfgError Cfg :=
  match Wto.loopHeads wto.components with
  | some heads => insertCounters heads cfg
  | none => .error .outOfRange

/-- The step of `prepare_cfg` that the option enables. -/
def instrument (checkForTermination : Bool) (fuel : Nat) (cfg : Cfg) : Except CfgError Cfg :=
  if checkForTermination then do
    let wto <- buildWto cfg fuel
    countLoops wto cfg
  else .ok cfg

/-- The assertions of one label. -/
def setAssertions (isPrivileged : Bool) (label : Label) (cfg : Cfg) : Except CfgError Cfg :=
  match AssertionContext.getAssertions ⟨isPrivileged, some label⟩ (cfg.instructions label).cmd with
  | some assertions => .ok (cfg.setInstruction label { cfg.instructions label with
    preconditions := assertions })
  | none => .error (.noAssertions label)

/-- The loop that annotates the graph. -/
def setAllAssertions (isPrivileged : Bool) : List Label -> Cfg -> Except CfgError Cfg
  | [], cfg => .ok cfg
  | label :: rest, cfg => do
      let cfg <- setAssertions isPrivileged label cfg
      setAllAssertions isPrivileged rest cfg

def prepareCfg (prog : InstructionSeq) (isPrivileged : Bool) (options : PrepareCfgOptions)
    (fuel : Nat) :
    Except CfgError Cfg := do
  let cfg <- instructionSeqToCfg prog options.mustHaveExit
  let cfg <- instrument options.checkForTermination fuel cfg
  setAllAssertions isPrivileged cfg.labels.elements cfg

/-! ## The insertion of one node -/

theorem detach_spec {prevLabel : Label} {successors : List Label} {cfg next : Cfg}
    (run : detach prevLabel successors cfg = .ok next) :
    next.labels = cfg.labels ∧ next.children = cfg.children ∧ next.instructions = cfg.instructions ∧
      forall source target, source ∈ next.parents target ↔
        source ∈ cfg.parents target ∧ ¬ (target ∈ successors ∧ source = prevLabel) := by
  induction successors generalizing cfg with
  | nil =>
      cases run
      exact ⟨rfl, rfl, rfl, fun source target => by simp⟩
  | cons successor rest inductionHypothesis =>
      rcases bind_eq_ok.mp run with ⟨_, _, later⟩
      rcases inductionHypothesis later with ⟨labels, children, instructions, parents⟩
      refine ⟨labels, children, instructions, ?_⟩
      intro source target
      rw [parents]
      by_cases same : target = successor
      · subst same
        simp [setParents]
        tauto
      · simp [setParents, same]

theorem reattach_spec {prevLabel newLabel : Label} {successors : List Label} {cfg next : Cfg}
    (wellFormed : cfg.WellFormed) (run : reattach prevLabel newLabel successors cfg = .ok next) :
    next.WellFormed ∧ next.labels = cfg.labels ∧ next.instructions = cfg.instructions ∧
      forall source target, target ∈ next.children source ↔
        target ∈ cfg.children source ∨ (source = prevLabel ∧ target = newLabel ∧ successors ≠ []) ∨
          (source = newLabel ∧ target ∈ successors) := by
  induction successors generalizing cfg with
  | nil =>
      cases run
      exact ⟨wellFormed, rfl, rfl, fun source target => by simp⟩
  | cons successor rest inductionHypothesis =>
      rcases bind_eq_ok.mp run with ⟨first, firstAdded, afterFirst⟩
      rcases bind_eq_ok.mp afterFirst with ⟨second, secondAdded, later⟩
      have firstWellFormed := wellFormed.addChild firstAdded
      have secondWellFormed := firstWellFormed.addChild secondAdded
      rcases inductionHypothesis secondWellFormed later with
        ⟨nextWellFormed, labels, instructions, children⟩
      rcases addChild_eq_ok.mp firstAdded with ⟨_, rfl⟩
      rcases addChild_eq_ok.mp secondAdded with ⟨_, rfl⟩
      refine ⟨nextWellFormed, labels, instructions, ?_⟩
      intro source target
      rw [children, mem_withEdge_children, mem_withEdge_children, List.mem_cons]
      have nonempty : successor :: rest ≠ [] := List.cons_ne_nil _ _
      tauto

/-- The graph after a node was inserted on the outgoing edges of another. -/
structure InsertedAfter (prevLabel newLabel : Label) (ins : GuardedInstruction)
    (before after : Cfg) : Prop where
  wellFormed : after.WellFormed
  fresh : newLabel ∉ before.labels
  member : prevLabel ∈ before.labels
  labels : after.labels = before.labels.insert newLabel
  instructions : after.instructions = Function.update before.instructions newLabel ins
  prevChildren : forall target, target ∈ after.children prevLabel ↔
    target = newLabel ∧ before.childrenOf prevLabel ≠ []
  newChildren : forall target, target ∈ after.children newLabel ↔ target ∈ before.children prevLabel
  otherChildren : forall source target, source ≠ prevLabel -> source ≠ newLabel ->
    (target ∈ after.children source ↔ target ∈ before.children source)

theorem insertAfter_spec {prevLabel newLabel : Label} {ins : GuardedInstruction} {cfg next : Cfg}
    (wellFormed : cfg.WellFormed) (run : cfg.insertAfter prevLabel newLabel ins = .ok next) :
    InsertedAfter prevLabel newLabel ins cfg next := by
  unfold insertAfter at run
  split at run
  · cases run
  · rename_i different
    rcases bind_eq_ok.mp run with ⟨_, required, afterRequire⟩
    rcases bind_eq_ok.mp afterRequire with ⟨detached, detaching, afterDetach⟩
    rcases bind_eq_ok.mp afterDetach with ⟨inserted, inserting, reattaching⟩
    have member := require_eq_ok.mp required
    rcases detach_spec detaching with ⟨labels, children, instructions, parents⟩
    have noChildren : forall target, target ∉ detached.children prevLabel := by
      intro target
      rw [children]
      simp [setChildren]
    have otherChildren : forall source, source ≠ prevLabel ->
        detached.children source = cfg.children source := by
      intro source notPrev
      rw [children]
      simp [setChildren, notPrev]
    have detachedWellFormed : detached.WellFormed := by
      refine { converse := ?_, source := ?_, target := ?_, entry := ?_, exit := ?_ }
      · intro source target
        rw [parents]
        change target ∈ detached.children source ↔
          source ∈ cfg.parents target ∧ ¬ (target ∈ cfg.children prevLabel ∧ source = prevLabel)
        rw [← wellFormed.converse]
        by_cases isPrev : source = prevLabel
        · subst isPrev
          exact iff_of_false (noChildren target) (fun both => both.2 ⟨both.1, rfl⟩)
        · rw [otherChildren source isPrev]
          simp [isPrev]
      · intro source target child
        rw [labels]
        by_cases isPrev : source = prevLabel
        · exact absurd (isPrev ▸ child) (noChildren target)
        · rw [otherChildren source isPrev] at child
          exact wellFormed.source source target child
      · intro source target child
        rw [labels]
        by_cases isPrev : source = prevLabel
        · exact absurd (isPrev ▸ child) (noChildren target)
        · rw [otherChildren source isPrev] at child
          exact wellFormed.target source target child
      · rw [labels]
        exact wellFormed.entry
      · rw [labels]
        exact wellFormed.exit
    have insertedWellFormed := detachedWellFormed.insert inserting
    rcases insert_eq_ok.mp inserting with ⟨fresh, rfl⟩
    have sameChildren : forall source target,
        target ∈ (detached.withLabel newLabel ins).children source ↔
        target ∈ detached.children source :=
      fun source target => detachedWellFormed.mem_withLabel_children fresh ins
    have newChildren : forall target, target ∉ detached.children newLabel :=
      fun target => (detachedWellFormed.children_of_not_mem fresh target).1
    rcases reattach_spec insertedWellFormed reattaching with
      ⟨nextWellFormed, nextLabels, nextInstructions, next⟩
    refine
      { wellFormed := nextWellFormed, fresh := labels ▸ fresh, member := member
        labels := ?_, instructions := ?_, prevChildren := ?_, newChildren := ?_,
        otherChildren := ?_ }
    · rw [nextLabels, withLabel_labels, labels]
      rfl
    · rw [nextInstructions, withLabel_instructions, instructions]
      rfl
    · intro target
      rw [next, sameChildren]
      have none := noChildren target
      simp only [childrenOf]
      tauto
    · intro target
      rw [next, sameChildren, ← OrderedSet.mem_def]
      have none := newChildren target
      have notPrev : newLabel ≠ prevLabel := fun same => different same.symm
      tauto
    · intro source target notPrev notNew
      rw [next, sameChildren, otherChildren source notPrev]
      tauto

/-- The remaining loop heads are labels after an insertion. -/
theorem InsertedAfter.rest_members {prevLabel newLabel : Label} {ins : GuardedInstruction}
    {before after : Cfg}
    {first : Label} {rest : List Label}
    (inserted : InsertedAfter prevLabel newLabel ins before after)
    (members : forall head, head ∈ first :: rest -> head ∈ before.labels) :
    forall head, head ∈ rest -> head ∈ after.labels := by
  intro head member
  rw [inserted.labels, OrderedSet.mem_insert]
  exact Or.inr (members head (List.mem_cons_of_mem _ member))

/-! ## The insertion of all counters -/

/-- The graph after counters were inserted behind some loop heads. -/
structure Instrumented (heads : List Label) (before after : Cfg) : Prop where
  wellFormed : after.WellFormed
  fresh : forall head, head ∈ heads -> head.makeIncrementCounter ∉ before.labels
  member : forall head, head ∈ heads -> head ∈ before.labels
  labels : forall label, label ∈ after.labels ↔
    label ∈ before.labels ∨ exists head, head ∈ heads ∧ label = head.makeIncrementCounter
  counter : forall head, head ∈ heads ->
    (after.instructions head.makeIncrementCounter).cmd = .incrementLoopCounter head
  instructions : forall label, label ∈ before.labels ->
    after.instructions label = before.instructions label
  headChildren : forall head target, head ∈ heads -> target ∈ after.children head ->
    target = head.makeIncrementCounter
  otherChildren : forall source target, source ∈ before.labels -> source ∉ heads ->
    (target ∈ after.children source ↔ target ∈ before.children source)

theorem insertCounters_spec {heads : List Label} (distinct : heads.Nodup) {cfg next : Cfg}
    (wellFormed : cfg.WellFormed) (members : forall head, head ∈ heads -> head ∈ cfg.labels)
    (run : insertCounters heads cfg = .ok next) : Instrumented heads cfg next := by
  induction heads generalizing cfg with
  | nil =>
      cases run
      exact
        { wellFormed := wellFormed
          fresh := fun _ member => by cases member
          member := fun _ member => by cases member
          labels := fun label => by simp
          counter := fun _ member => by cases member
          instructions := fun _ _ => rfl
          headChildren := fun _ _ member => by cases member
          otherChildren := fun _ _ _ _ => Iff.rfl }
  | cons head rest inductionHypothesis =>
      rcases bind_eq_ok.mp run with ⟨middle, inserting, later⟩
      have inserted : InsertedAfter head head.makeIncrementCounter
          { cmd := .incrementLoopCounter head } cfg middle :=
        insertAfter_spec wellFormed inserting
      rcases List.nodup_cons.mp distinct with ⟨headNotRest, restDistinct⟩
      have kept : forall label, label ∈ cfg.labels -> label ∈ middle.labels := by
        intro label member
        rw [inserted.labels, OrderedSet.mem_insert]
        exact Or.inr member
      have notCounter : forall label, label ∈ cfg.labels -> label ≠ head.makeIncrementCounter :=
        fun label member same => inserted.fresh (same ▸ member)
      have restInstrumented := inductionHypothesis restDistinct inserted.wellFormed
        (fun other member => kept other (members other (List.mem_cons_of_mem _ member))) later
      have middleInstructions : forall label, label ∈ cfg.labels ->
          middle.instructions label = cfg.instructions label := by
        intro label member
        rw [inserted.instructions, Function.update_of_ne (notCounter label member)]
      have counterMember : head.makeIncrementCounter ∈ middle.labels := by
        rw [inserted.labels, OrderedSet.mem_insert]
        exact Or.inl rfl
      refine
        { wellFormed := restInstrumented.wellFormed, fresh := ?_, member := members, labels := ?_,
          counter := ?_
          instructions := ?_, headChildren := ?_, otherChildren := ?_ }
      · intro other member
        rcases List.mem_cons.mp member with same | inRest
        · exact same ▸ inserted.fresh
        · exact fun before => restInstrumented.fresh other inRest (kept _ before)
      · intro label
        rw [restInstrumented.labels, inserted.labels, OrderedSet.mem_insert]
        simp only [List.mem_cons, exists_eq_or_imp]
        tauto
      · intro other member
        rcases List.mem_cons.mp member with same | inRest
        · rw [same, restInstrumented.instructions _ counterMember, inserted.instructions,
            Function.update_self]
        · exact restInstrumented.counter other inRest
      · intro label member
        rw [restInstrumented.instructions label (kept label member),
          middleInstructions label member]
      · intro other target member child
        rcases List.mem_cons.mp member with same | inRest
        · rw [same] at child ⊢
          rw [restInstrumented.otherChildren head target (kept head inserted.member) headNotRest,
            inserted.prevChildren] at child
          exact child.1
        · exact restInstrumented.headChildren other target inRest child
      · intro source target member notHead
        rw [List.mem_cons, not_or] at notHead
        rw [restInstrumented.otherChildren source target (kept source member) notHead.2,
          inserted.otherChildren source target notHead.1 (notCounter source member)]

/-- The successors of a counter were those of its loop head. -/
theorem insertCounters_counterChildren {heads : List Label} (distinct : heads.Nodup)
    {cfg next : Cfg}
    (wellFormed : cfg.WellFormed) (members : forall head, head ∈ heads -> head ∈ cfg.labels)
    (run : insertCounters heads cfg = .ok next) {head target : Label} (isHead : head ∈ heads) :
    target ∈ next.children head.makeIncrementCounter ↔ target ∈ cfg.children head := by
  induction heads generalizing cfg with
  | nil => cases isHead
  | cons first rest inductionHypothesis =>
      rcases bind_eq_ok.mp run with ⟨middle, inserting, later⟩
      have inserted : InsertedAfter
          first first.makeIncrementCounter { cmd := .incrementLoopCounter first } cfg middle :=
        insertAfter_spec wellFormed inserting
      rcases List.nodup_cons.mp distinct with ⟨notInRest, restDistinct⟩
      have restMembers := inserted.rest_members members
      rcases List.mem_cons.mp isHead with rfl | inRest
      · have counterMember : head.makeIncrementCounter ∈ middle.labels := by
          rw [inserted.labels, OrderedSet.mem_insert]
          exact Or.inl rfl
        have notHead : head.makeIncrementCounter ∉ rest :=
          fun member => inserted.fresh (members _ (List.mem_cons_of_mem _ member))
        have instrumented := insertCounters_spec restDistinct inserted.wellFormed restMembers later
        rw [instrumented.otherChildren _ target counterMember notHead]
        exact inserted.newChildren target
      · have notFirst : head ≠ first := fun same => notInRest (same ▸ inRest)
        have notCounter : head ≠ first.makeIncrementCounter :=
          fun same => inserted.fresh (same ▸ members head isHead)
        exact (inductionHypothesis restDistinct inserted.wellFormed restMembers later inRest).trans
          (inserted.otherChildren head target notFirst notCounter)

theorem insertCounters_headChildren {heads : List Label} (distinct : heads.Nodup) {cfg next : Cfg}
    (wellFormed : cfg.WellFormed) (members : forall head, head ∈ heads -> head ∈ cfg.labels)
    (run : insertCounters heads cfg = .ok next) {head child target : Label} (isHead : head ∈ heads)
    (isChild : child ∈ cfg.children head) : target ∈ next.children head ↔
      target = head.makeIncrementCounter := by
  induction heads generalizing cfg with
  | nil => cases isHead
  | cons first rest inductionHypothesis =>
      rcases bind_eq_ok.mp run with ⟨middle, inserting, later⟩
      have inserted : InsertedAfter
          first first.makeIncrementCounter { cmd := .incrementLoopCounter first } cfg middle :=
        insertAfter_spec wellFormed inserting
      rcases List.nodup_cons.mp distinct with ⟨notInRest, restDistinct⟩
      have restMembers := inserted.rest_members members
      have headKept : head ∈ middle.labels := by
        rw [inserted.labels, OrderedSet.mem_insert]
        exact Or.inr (members head isHead)
      rcases List.mem_cons.mp isHead with rfl | inRest
      · have instrumented := insertCounters_spec restDistinct inserted.wellFormed restMembers later
        rw [instrumented.otherChildren head target headKept notInRest, inserted.prevChildren]
        exact and_iff_left (List.ne_nil_of_mem isChild)
      · have notFirst : head ≠ first := fun same => notInRest (same ▸ inRest)
        have notCounter : head ≠ first.makeIncrementCounter :=
          fun same => inserted.fresh (same ▸ members head isHead)
        exact inductionHypothesis restDistinct inserted.wellFormed restMembers later inRest
          ((inserted.otherChildren head child notFirst notCounter).mpr isChild)

theorem setAllAssertions_spec {isPrivileged : Bool} {labels : List Label} {cfg next : Cfg}
    (run : setAllAssertions isPrivileged labels cfg = .ok next) :
    next.labels = cfg.labels ∧ next.children = cfg.children ∧
      forall label, (next.instructions label).cmd = (cfg.instructions label).cmd := by
  induction labels generalizing cfg with
  | nil =>
      cases run
      exact ⟨rfl, rfl, fun _ => rfl⟩
  | cons label rest inductionHypothesis =>
      rcases bind_eq_ok.mp run with ⟨middle, step, later⟩
      rcases inductionHypothesis later with ⟨labels, children, instructions⟩
      unfold setAssertions at step
      split at step
      · cases step
        refine ⟨labels, children, ?_⟩
        intro other
        rw [instructions]
        by_cases same : other = label
        · subst same
          simp [setInstruction]
        · simp [setInstruction, same]
      · cases step

/-! ## Closed walks without a counter -/

/-- The label increments a loop counter. -/
def Counts (cfg : Cfg) (label : Label) : Prop :=
  exists name, (cfg.instructions label).cmd = .incrementLoopCounter name

/-- A closed walk of the graph that passes through no counter. -/
def UncountedCycle (cfg : Cfg) (label : Label) : Prop :=
  Relation.TransGen (fun source target => target ∈ cfg.children source ∧
    ¬ cfg.Counts target) label label

/-- The instrumentation leaves exactly the uncounted closed walks that avoid
the instrumented heads. -/
theorem Instrumented.uncountedCycle_iff {heads : List Label} {before after : Cfg}
    (wellFormed : before.WellFormed) (instrumented : Instrumented heads before after)
    (label : Label) :
    after.UncountedCycle label ↔
      Relation.TransGen (fun source target => target ∈ before.children source ∧
      ¬ before.Counts target ∧
        target ∉ heads) label label := by
  have countsIff : forall other, other ∈ before.labels ->
      (after.Counts other ↔ before.Counts other) := by
    intro other member
    unfold Counts
    rw [instrumented.instructions other member]
  have counterCounts : forall head, head ∈ heads -> after.Counts head.makeIncrementCounter :=
    fun head member => ⟨head, instrumented.counter head member⟩
  have old : forall other next, next ∈ after.children other -> ¬ after.Counts other ->
      other ∈ before.labels := by
    intro other next child uncounted
    rcases (instrumented.labels other).mp (instrumented.wellFormed.source other next child) with
      member | ⟨head, isHead, rfl⟩
    · exact member
    · exact absurd (counterCounts head isHead) uncounted
  have notHead : forall other next, next ∈ after.children other -> ¬ after.Counts next ->
      other ∉ heads := by
    intro other next child uncounted isHead
    have isCounter := instrumented.headChildren other next isHead child
    exact uncounted (isCounter ▸ counterCounts other isHead)
  constructor
  · intro walk
    refine Relation.TransGen.mono ?_ _ _ (closed_walk_restrict walk)
    rintro source target ⟨⟨child, uncounted⟩, ⟨previous, _, sourceUncounted⟩,
      ⟨following, next, nextUncounted⟩⟩
    have sourceMember := old source target child sourceUncounted
    have beforeChild := (instrumented.otherChildren source target sourceMember
      (notHead source target child uncounted)).mp child
    refine ⟨beforeChild, ?_, notHead target following next nextUncounted⟩
    rwa [← countsIff target (wellFormed.target source target beforeChild)]
  · intro walk
    refine Relation.TransGen.mono ?_ _ _ (closed_walk_restrict walk)
    rintro source target ⟨⟨child, uncounted, _⟩, ⟨_, _, _, sourceNotHead⟩, _⟩
    refine ⟨?_, ?_⟩
    · exact (instrumented.otherChildren source target (wellFormed.source source target child)
        sourceNotHead).mpr child
    · rwa [countsIff target (wellFormed.target source target child)]

/-- The graph without any counter of its own. -/
def CounterFree (cfg : Cfg) : Prop := forall label, ¬ cfg.Counts label

/-- The instructions that are not a counter. -/
def NotCounter (ins : Instruction) : Prop := forall name, ins ≠ .incrementLoopCounter name

theorem notCounter_admissible : Admissible NotCounter where
  undefined opcode name := by intro same; cases same
  assume ins name := by intro same; cases same
  clone stackFramePrefix ins notCounter name := by
    cases ins <;> intro same <;> cases same
    exact notCounter name rfl
  callLocal call stackFramePrefix _ name := by intro same; cases same

/-- A sequence without counters gives a graph without counters. -/
theorem instructionSeqToCfg_counterFree {insts : InstructionSeq} {mustHaveExit : Bool} {cfg : Cfg}
    (notCounter : forall labelled, labelled ∈ insts -> NotCounter labelled.2)
    (run : instructionSeqToCfg insts mustHaveExit = .ok cfg) : cfg.CounterFree := by
  have valid := instructionSeqToCfg_valid notCounter_admissible notCounter run
  rintro label ⟨name, isCounter⟩
  exact valid.allowedAt label name isCounter

theorem buildWto_wellOrdered {cfg : Cfg} {fuel : Nat} {wto : Wto Label}
    (ordered : cfg.buildWto fuel = .ok wto) :
    Wto.WellOrdered cfg.childrenOf Label.entry wto.components := by
  unfold buildWto at ordered
  split at ordered
  · rename_i found
    cases ordered
    exact Wto.build_wellOrdered found
  · cases ordered

/-- The loop heads that get a counter are labels of the graph. -/
theorem outerHeads_mem_labels {cfg : Cfg} (wellFormed : cfg.WellFormed) {wto : Wto Label}
    (wellOrdered : Wto.WellOrdered cfg.childrenOf Label.entry wto.components) {head : Label}
    (member : head ∈ wto.components.outerHeads) : head ∈ cfg.labels := by
  have reached := (wellOrdered.members head).mp
    (wto.components.heads_subset_members (wto.components.outerHeads_subset_heads member))
  rcases Relation.ReflTransGen.cases_tail reached with same | ⟨previous, _, child⟩
  · exact same ▸ wellFormed.entry
  · exact wellFormed.target previous head child

/-- The instrumentation leaves the graph alone, or inserts the counters of some
different labels. -/
theorem instrument_eq_ok {checkForTermination : Bool} {fuel : Nat} {cfg next : Cfg}
    (wellFormed : cfg.WellFormed) (run : instrument checkForTermination fuel cfg = .ok next) :
    next = cfg ∨ exists heads : List Label, heads.Nodup ∧
      (forall head, head ∈ heads -> head ∈ cfg.labels) ∧ insertCounters heads cfg = .ok next := by
  cases checkForTermination with
  | false =>
      cases run
      exact Or.inl rfl
  | true =>
      right
      rcases bind_eq_ok.mp run with ⟨wto, ordered, counting⟩
      have wellOrdered := buildWto_wellOrdered ordered
      rw [countLoops, Wto.loopHeads_eq_outerHeads wellOrdered.ordered] at counting
      exact ⟨wto.components.outerHeads, wto.components.outerHeads_nodup wellOrdered.distinct,
        fun _ => outerHeads_mem_labels wellFormed wellOrdered, counting⟩

theorem setAllAssertions_wellFormed {isPrivileged : Bool} {labels : List Label} {cfg next : Cfg}
    (wellFormed : cfg.WellFormed) (run : setAllAssertions isPrivileged labels cfg = .ok next) :
    next.WellFormed := by
  induction labels generalizing cfg with
  | nil =>
      cases run
      exact wellFormed
  | cons label rest inductionHypothesis =>
      rcases bind_eq_ok.mp run with ⟨middle, step, later⟩
      rw [setAssertions] at step
      split at step
      · cases step
        exact inductionHypothesis (wellFormed.setInstruction ..) later
      · cases step

/-- Every graph that `prepare_cfg` returns is well formed. -/
theorem prepareCfg_wellFormed {prog : InstructionSeq} {isPrivileged : Bool}
    {options : PrepareCfgOptions} {fuel : Nat}
    {cfg : Cfg} (prepared : prepareCfg prog isPrivileged options fuel = .ok cfg) :
    cfg.WellFormed := by
  rcases bind_eq_ok.mp prepared with ⟨first, built, afterFirst⟩
  rcases bind_eq_ok.mp afterFirst with ⟨second, instrumenting, annotating⟩
  have wellFormed := instructionSeqToCfg_wellFormed built
  apply setAllAssertions_wellFormed ?_ annotating
  rcases instrument_eq_ok wellFormed instrumenting with rfl | ⟨heads, distinct, members, inserting⟩
  · exact wellFormed
  · exact (insertCounters_spec distinct wellFormed members inserting).wellFormed

/-- The steps of `prepare_cfg` under `check_for_termination`. -/
theorem prepareCfg_steps {prog : InstructionSeq} {isPrivileged mustHaveExit : Bool} {fuel : Nat}
    {result : Cfg}
    (prepared : prepareCfg prog isPrivileged ⟨true, mustHaveExit⟩ fuel = .ok result) :
    exists cfg wto instrumented, instructionSeqToCfg prog mustHaveExit = .ok cfg ∧
      cfg.buildWto fuel = .ok wto ∧
      insertCounters wto.components.outerHeads cfg = .ok instrumented ∧
        setAllAssertions isPrivileged instrumented.labels.elements instrumented = .ok result := by
  rcases bind_eq_ok.mp prepared with ⟨cfg, built, afterFirst⟩
  rcases bind_eq_ok.mp afterFirst with ⟨instrumented, instrumenting, annotating⟩
  rcases bind_eq_ok.mp instrumenting with ⟨wto, ordered, counting⟩
  rw [countLoops, Wto.loopHeads_eq_outerHeads (buildWto_wellOrdered ordered).ordered] at counting
  exact ⟨cfg, wto, instrumented, built, ordered, counting, annotating⟩

theorem prepareCfg_instrumented {prog : InstructionSeq}
    {isPrivileged mustHaveExit : Bool} {fuel : Nat} {result cfg : Cfg} {wto : Wto Label}
    (prepared : prepareCfg prog isPrivileged ⟨true, mustHaveExit⟩ fuel = .ok result)
    (built : instructionSeqToCfg prog mustHaveExit = .ok cfg)
    (ordered : cfg.buildWto fuel = .ok wto) :
    Wto.WellOrdered cfg.childrenOf Label.entry wto.components ∧
      exists instrumented, Instrumented wto.components.outerHeads cfg instrumented ∧
        forall label, result.UncountedCycle label ↔ instrumented.UncountedCycle label := by
  have wellFormed := instructionSeqToCfg_wellFormed built
  have wellOrdered := buildWto_wellOrdered ordered
  refine ⟨wellOrdered, ?_⟩
  rcases prepareCfg_steps prepared with
    ⟨first, second, instrumented, firstBuilt, secondOrdered, counting, annotating⟩
  cases built.symm.trans firstBuilt
  cases ordered.symm.trans secondOrdered
  have members : forall head, head ∈ wto.components.outerHeads -> head ∈ cfg.labels :=
    fun _ => outerHeads_mem_labels wellFormed wellOrdered
  have distinct : wto.components.outerHeads.Nodup :=
    wto.components.outerHeads_nodup wellOrdered.distinct
  refine ⟨instrumented, insertCounters_spec distinct wellFormed members counting, ?_⟩
  rcases setAllAssertions_spec annotating with ⟨_, children, instructions⟩
  intro label
  unfold UncountedCycle Counts
  simp only [children, instructions]

/-- When the instrumentation of `prepare_cfg` cuts every cycle.  In general
this is so exactly if every closed walk meets a counter of the sequence itself
or the head of an outermost loop.  Decoded sequences contain no counters; for
them it is so exactly if no loop contains another loop and no label beyond the
reach of the entry lies on a closed walk. -/
theorem prepareCfg_cycles_counted_iff {prog : InstructionSeq}
    {isPrivileged mustHaveExit : Bool} {fuel : Nat} {result cfg : Cfg} {wto : Wto Label}
    (prepared : prepareCfg prog isPrivileged ⟨true, mustHaveExit⟩ fuel = .ok result)
    (built : instructionSeqToCfg prog mustHaveExit = .ok cfg)
    (ordered : cfg.buildWto fuel = .ok wto) :
    ((forall label, ¬ result.UncountedCycle label) ↔
      forall label, ¬ Relation.TransGen (fun source target => target ∈ cfg.children source ∧
        ¬ cfg.Counts target ∧ target ∉ wto.components.outerHeads) label label) ∧
    ((forall labelled, labelled ∈ prog -> NotCounter labelled.2) ->
      ((forall label, ¬ result.UncountedCycle label) ↔
        wto.components.Flat ∧
          forall label, ¬ Relation.ReflTransGen (fun source target => target ∈ cfg.children source)
              Label.entry label ->
            ¬ Relation.TransGen (fun source target => target ∈ cfg.children source) label
            label)) := by
  rcases prepareCfg_instrumented prepared built ordered with ⟨wellOrdered, instrumented, spec, same⟩
  have wellFormed := instructionSeqToCfg_wellFormed built
  have general : (forall label, ¬ result.UncountedCycle label) ↔
      forall label, ¬ Relation.TransGen (fun source target => target ∈ cfg.children source ∧
        ¬ cfg.Counts target ∧ target ∉ wto.components.outerHeads) label label := by
    constructor
    · intro none label walk
      exact none label ((same label).mpr ((spec.uncountedCycle_iff wellFormed label).mpr walk))
    · intro none label walk
      exact none label ((spec.uncountedCycle_iff wellFormed label).mp ((same label).mp walk))
  refine ⟨general, ?_⟩
  intro notCounter
  have counterFree := instructionSeqToCfg_counterFree notCounter built
  rw [general]
  constructor
  · intro none
    constructor
    · by_contra nested
      rcases wellOrdered.cyclic.exists_closed_walk_avoiding_outerHeads
        wellOrdered.distinct nested with
        ⟨start, walk⟩
      apply none start
      exact Relation.TransGen.mono
        (fun _ target step => ⟨step.1, counterFree target, step.2.2⟩) _ _ walk
    · intro label unreached walk
      apply none label
      refine Relation.TransGen.mono ?_ _ _ (transGen_with_source walk)
      rintro source target ⟨child, fromLabel⟩
      refine ⟨child, counterFree target, ?_⟩
      intro isHead
      have reached := (wellOrdered.members target).mp
        (wto.components.heads_subset_members (wto.components.outerHeads_subset_heads isHead))
      exact unreached (reached.trans fromLabel)
  · rintro ⟨flat, unreachedAcyclic⟩ label walk
    by_cases reached : Relation.ReflTransGen (fun source target => target ∈ cfg.children source)
        Label.entry label
    · refine wellOrdered.ordered.no_closed_walk_avoiding_heads wellOrdered.distinct
        ((wellOrdered.members label).mpr reached) ?_
      refine Relation.TransGen.mono ?_ _ _ walk
      rintro source target ⟨child, _, notHead⟩
      rw [Partition.heads_eq_outerHeads_of_flat flat]
      exact ⟨child, notHead⟩
    · exact unreachedAcyclic label reached
        (Relation.TransGen.mono (fun _ _ step => step.1) _ _ walk)

/-! ## Two programs with loops -/

instance decidableCounts (cfg : Cfg) (label : Label) : Decidable (cfg.Counts label) :=
  match found : (cfg.instructions label).cmd with
  | .incrementLoopCounter name => isTrue ⟨name, found⟩
  | .undefined _ | .bin _ | .un _ | .loadMapFd _ | .call _ | .callLocal _ | .callx _ | .exit _ |
    .jmp _ | .mem _
  | .packet _ | .atomic _ | .assume _ =>
    isFalse (by rintro ⟨name, counter⟩; rw [found] at counter; cases counter)

/-- The listed labels lead from a label to the last one without a counter. -/
def followsUncounted (cfg : Cfg) (start : Label) : List Label -> Bool
  | [] => false
  | [last] => decide (last ∈ cfg.children start) && !decide (cfg.Counts last)
  | next :: rest =>
      decide (next ∈ cfg.children start) && !decide (cfg.Counts next) &&
        followsUncounted cfg next rest

theorem uncounted_of_follows {cfg : Cfg} {start finish : Label} {walk : List Label}
    (follows : cfg.followsUncounted start walk = true) (last : walk.getLast? = some finish) :
    Relation.TransGen (fun source target => target ∈ cfg.children source ∧
      ¬ cfg.Counts target) start finish := by
  induction walk generalizing start with
  | nil => cases last
  | cons next rest inductionHypothesis =>
      cases rest with
      | nil =>
          cases last
          simp only [followsUncounted, Bool.and_eq_true, decide_eq_true_eq, Bool.not_eq_true',
            decide_eq_false_iff_not] at follows
          exact Relation.TransGen.single follows
      | cons second rest =>
          rw [followsUncounted, Bool.and_eq_true] at follows
          · rcases follows with ⟨step, later⟩
            simp only [Bool.and_eq_true, decide_eq_true_eq, Bool.not_eq_true',
              decide_eq_false_iff_not] at step
            exact Relation.TransGen.head step (inductionHypothesis later last)
          · simp

/-- The computation returns a value that passes a check. -/
def returnsChecked {A : Type} (check : A -> Bool) : Except CfgError A -> Bool
  | .ok value => check value
  | .error _ => false

theorem exists_of_returnsChecked {A : Type} {check : A -> Bool} {run : Except CfgError A}
    (checked : returnsChecked check run = true) : exists value, run = .ok value ∧
      check value = true := by
  cases run with
  | ok value => exact ⟨value, rfl, checked⟩
  | error err => cases checked

/-- A loop that counts `r1` up to ten. -/
def countingLoop : InstructionSeq :=
  [({ fromIndex := 0 }, .bin ⟨.mov, ⟨1⟩, .imm ⟨0⟩, true, false⟩),
    ({ fromIndex := 1 }, .bin ⟨.add, ⟨1⟩, .imm ⟨1⟩, true, false⟩),
    ({ fromIndex := 2 }, .jmp ⟨some ⟨.lt, ⟨1⟩, .imm ⟨10⟩, true⟩, { fromIndex := 1 }⟩),
    ({ fromIndex := 3 }, .exit ⟨[]⟩)]

/-- The same loop within a loop that counts `r0` up to ten. -/
def nestedLoop : InstructionSeq :=
  [({ fromIndex := 0 }, .bin ⟨.mov, ⟨0⟩, .imm ⟨0⟩, true, false⟩),
    ({ fromIndex := 1 }, .bin ⟨.mov, ⟨1⟩, .imm ⟨0⟩, true, false⟩),
    ({ fromIndex := 2 }, .bin ⟨.add, ⟨1⟩, .imm ⟨1⟩, true, false⟩),
    ({ fromIndex := 3 }, .jmp ⟨some ⟨.lt, ⟨1⟩, .imm ⟨10⟩, true⟩, { fromIndex := 2 }⟩),
    ({ fromIndex := 4 }, .bin ⟨.add, ⟨0⟩, .imm ⟨1⟩, true, false⟩),
    ({ fromIndex := 5 }, .jmp ⟨some ⟨.lt, ⟨0⟩, .imm ⟨10⟩, true⟩, { fromIndex := 1 }⟩),
    ({ fromIndex := 6 }, .exit ⟨[]⟩)]

/-- The counter of the outer loop does not count the rounds of the inner one. -/
theorem prepareCfg_nestedLoop_uncounted :
    exists result, prepareCfg nestedLoop false ⟨true, true⟩ 100 = .ok result ∧
      result.UncountedCycle { fromIndex := 2 } := by
  have checked : returnsChecked (fun result => followsUncounted result { fromIndex := 2 }
      [{ fromIndex := 3 }, { fromIndex := 3, toIndex := 2 }, { fromIndex := 2 }])
      (prepareCfg nestedLoop false ⟨true, true⟩ 100) = true := by
    decide
  rcases exists_of_returnsChecked checked with ⟨result, prepared, follows⟩
  exact ⟨result, prepared, uncounted_of_follows follows rfl⟩

/-- A label without children is on no closed walk. -/
theorem acyclic_of_covered {cfg : Cfg} (wellFormed : cfg.WellFormed) {reached : List Label}
    (covered : forall label, label ∈ cfg.labels.elements -> label ∈ reached ∨
      cfg.childrenOf label = [])
    {label : Label} (unreached : label ∉ reached) :
    ¬ Relation.TransGen (fun source target => target ∈ cfg.children source) label label := by
  intro walk
  rcases Relation.TransGen.head'_iff.mp walk with ⟨next, child, _⟩
  rcases covered label (wellFormed.source label next child) with isReached | childless
  · exact unreached isReached
  · rw [OrderedSet.mem_def] at child
    rw [childrenOf] at childless
    rw [childless] at child
    cases child

theorem prepareCfg_countingLoop_counted :
    exists result, prepareCfg countingLoop false ⟨true, true⟩ 100 = .ok result ∧
      forall label, ¬ result.UncountedCycle label := by
  have checked : returnsChecked (fun _ => true)
      (prepareCfg countingLoop false ⟨true, true⟩ 100) = true := by
    decide
  have ordered : returnsChecked (fun cfg => returnsChecked (fun wto =>
      decide (wto.components.Flat ∧ forall label, label ∈ cfg.labels.elements ->
        label ∈ wto.components.members ∨ cfg.childrenOf label = [])) (cfg.buildWto 100))
      (instructionSeqToCfg countingLoop true) = true := by
    decide
  rcases exists_of_returnsChecked checked with ⟨result, prepared, _⟩
  rcases exists_of_returnsChecked ordered with ⟨cfg, built, order⟩
  rcases exists_of_returnsChecked order with ⟨wto, orderBuilt, shape⟩
  rcases of_decide_eq_true shape with ⟨flat, covered⟩
  have wellOrdered := (prepareCfg_instrumented prepared built orderBuilt).1
  refine ⟨result, prepared, ?_⟩
  apply ((prepareCfg_cycles_counted_iff prepared built orderBuilt).2 ?_).mpr
  · refine ⟨flat, ?_⟩
    intro label unreached
    apply acyclic_of_covered (instructionSeqToCfg_wellFormed built) covered
    rwa [wellOrdered.members]
  · intro labelled member name
    simp only [countingLoop, List.mem_cons, List.not_mem_nil, or_false] at member
    rcases member with rfl | rfl | rfl | rfl <;> exact fun same => by cases same

end Cfg

end Prevail
