import Prevail.Cfg.CalleeWalk

namespace Prevail
namespace Cfg

/-!
# The frames of an expanded call

The invariant of the walk over a callee that stays within a region of the
original graph, and the expansion of a call with the calls nested in it.  A
nested call whose clone has a successor is always among the seen labels, so it
is expanded in turn; the others have no successor at all.
-/

/-- The walk over the callee of `caller`, after the labels `taken` were
cloned, the last one first. -/
structure Walking (original before : Cfg) (caller exitTo entryLabel : Label) (taken : List Label)
    (state : WalkState) : Prop where
  extension : Extends caller exitTo before state.cfg
  search : LeastFirst original.Within entryLabel taken
  frontier : forall label, label ∈ state.macroLabels ↔
    label ∈ searchFrontier original.Within entryLabel taken
  seenTaken : forall label, label ∈ state.seenLabels -> label ∈ taken ∨ label = entryLabel
  begin_ : state.first = true -> taken = []
  begun : state.first = false -> entryLabel ∈ taken
  clone : forall label, label ∈ taken ->
    cloneLabel caller.text label ∈ state.cfg.labels ∧ cloneLabel caller.text label ∉ before.labels
  origin : forall label, label ∈ state.cfg.labels ->
    label ∈ before.labels ∨ exists source, source ∈ taken ∧ label = cloneLabel caller.text source
  kept : forall label, label ∈ before.labels ->
    state.cfg.instructions label = before.instructions label
  cloned : forall label, label ∈ taken ->
    (state.cfg.instructions (cloneLabel caller.text label)).cmd =
    cloneInstruction caller.text (original.instructions label).cmd
  edges : forall label next, label ∈ taken ->
    next ∈ state.cfg.children (cloneLabel caller.text label) ->
    (next = exitTo ∧ Label.exit ∈ original.children label) ∨
      exists target, target ∈ taken ∧ next = cloneLabel caller.text target ∧
      target ∈ original.children label ∧
        label ∈ state.seenLabels
  unseen : forall label next, label ∈ taken -> next ∈ original.children label ->
    next ≠ Label.exit -> next ∉ taken -> label ∈ state.seenLabels
  call : forall next, next ∈ state.cfg.children caller ->
    next ∈ before.children caller ∨ (next = cloneLabel caller.text entryLabel ∧ entryLabel ∈ taken)
  returned : forall label prev, label.stackFramePrefix = [] -> label ∈ state.cfg.children prev ->
    label ∈ before.children prev ∨ (label = exitTo ∧
      exists source, source ∈ taken ∧ prev = cloneLabel caller.text source ∧
      Label.exit ∈ original.children source)

/-- The graph of the first pass, in which no label is in a frame. -/
structure FirstLevel (original : Cfg) : Prop where
  wellFormed : original.WellFormed
  plain : forall label, label ∈ original.labels -> label.stackFramePrefix = [] ∧
    label.specialLabel = []

/-- A call whose callee is cloned as the original graph has it. -/
structure CallSite (original before : Cfg) (expanded : Set Label) (returns : Label -> Label -> Prop)
    (caller exitTo entryLabel : Label) : Prop where
  firstLevel : original.FirstLevel
  mainLevel : MainLevel original expanded returns before
  clonable : Clonable original expanded returns entryLabel
  ahead : ReturnsAhead original entryLabel exitTo
  isCaller : IsCaller caller
  callerMember : caller ∈ before.labels
  counted : caller.stackFramePrefix = [] -> caller ∈ expanded
  child : exitTo ∈ before.children caller

section Walk

variable {original before : Cfg} {expanded : Set Label} {returns : Label -> Label -> Prop}
  {caller exitTo entryLabel : Label} {taken : List Label} {state : WalkState}

theorem Walking.takenFunction (walking : Walking original before caller exitTo entryLabel
    taken state) :
    ∀ label ∈ taken, label ∈ original.functionOf entryLabel := walking.search.reaches

theorem Walking.work (walking : Walking original before caller exitTo entryLabel taken state)
    {label : Label}
    (member : label ∈ state.macroLabels) : label ∈ original.functionOf entryLabel := by
  rcases ((walking.frontier label).mp member).2 with rfl | ⟨source, isTaken, within⟩
  · exact Relation.ReflTransGen.refl
  · exact (walking.takenFunction source isTaken).tail within

theorem Walking.mainLevel (walking : Walking original before caller exitTo entryLabel taken state)
    (site : CallSite original before expanded returns caller exitTo entryLabel)
    {more : Label -> Label -> Prop}
    (grows : forall label prev, returns label prev -> more label prev)
    (added : exitTo.stackFramePrefix = [] ->
      ∀ source ∈ taken, Label.exit ∈ original.children source ->
      more exitTo (cloneLabel caller.text source)) :
    MainLevel original expanded more state.cfg := by
  apply site.mainLevel.extends_ site.isCaller site.counted walking.extension grows
  intro label prev main child
  rcases walking.returned label prev main child with old | ⟨rfl, source, isTaken, rfl, exits⟩
  · exact Or.inl old
  · exact Or.inr ⟨site.isCaller.text_ne_nil, added main source isTaken exits⟩

/-- One round of the walk clones one more label of the function. -/
theorem Walking.round (walking : Walking original before caller exitTo entryLabel taken state)
    (site : CallSite original before expanded returns caller exitTo entryLabel) {macroLabel : Label}
    {next : WalkState} (least : state.macroLabels.least? = some macroLabel)
    (run : walkLabel caller caller.text exitTo macroLabel
      { state with macroLabels := state.macroLabels.erase macroLabel } = .ok next)
    (unclonedWork : ∀ label ∈ next.macroLabels, cloneLabel caller.text label ∉ next.cfg.labels) :
    Walking original before caller exitTo entryLabel (macroLabel :: taken) next := by
  rcases site with
    ⟨⟨originalWellFormed, originalPlain⟩, mainLevel, clonable, ahead, isCaller, callerMember,
      counted, child⟩
  have member := (OrderedSet.least?_eq_some least).1
  have search : LeastFirst original.Within entryLabel (macroLabel :: taken) :=
    walking.search.take ⟨(walking.frontier macroLabel).mp member,
      fun other isOther => (OrderedSet.least?_eq_some least).2 other
      ((walking.frontier other).mpr isOther)⟩
  have inFunction := walking.work member
  have plain := clonable.plain macroLabel inFunction
  have notExit := clonable.ne_exit inFunction
  have round := walkLabel_extends
    (show ({ state with macroLabels := state.macroLabels.erase macroLabel } :
      WalkState).cfg.WellFormed from
      walking.extension.wellFormed) run
  have whole := walking.extension.trans round
  rcases walkLabel_eq_ok run with ⟨inserted, entered, connected, _, _, first, second, third, last⟩
  dsimp only at first second third last
  have insertedExtends := walking.extension.trans
    (Extends.insert walking.extension.wellFormed Inside.own first)
  have enteredExtends := insertedExtends.trans
    (enterCallee_extends insertedExtends.wellFormed rfl second)
  have connectedExtends :=
    enteredExtends.trans (connectPrevs_extends enteredExtends.wellFormed rfl third)
  rcases enterCallee_spec second with ⟨enteredLabels, enteredInstructions, enteredChildren⟩
  rcases connectPrevs_spec third with ⟨connectedLabels, connectedInstructions, connectedChildren⟩
  have walked := walkSuccessors_spec last
  have walkedLabels : next.cfg.labels = connected.labels := walked.labels
  have walkedInstructions : next.cfg.instructions = connected.instructions := walked.instructions
  have insertedWellFormed := walking.extension.wellFormed
  rcases insert_eq_ok.mp first with ⟨fresh, rfl⟩
  have notTaken : macroLabel ∉ taken := fun isTaken => fresh (walking.clone macroLabel isTaken).1
  have labels : forall label, label ∈ next.cfg.labels ↔
      label = cloneLabel caller.text macroLabel ∨ label ∈ state.cfg.labels := by
    intro label
    rw [walkedLabels, connectedLabels, enteredLabels, withLabel_labels, OrderedSet.mem_insert]
  have instructions : next.cfg.instructions = Function.update state.cfg.instructions
      (cloneLabel caller.text macroLabel)
      { cmd := cloneInstruction caller.text (state.cfg.instructions macroLabel).cmd } := by
    rw [walkedInstructions, connectedInstructions, enteredInstructions, withLabel_instructions]
  -- what the walk reads of the label is what the original graph has
  have notExpanded := clonable.notExpanded macroLabel inFunction
  have notCaller : macroLabel ≠ caller := fun same => notExpanded (same ▸ counted (same ▸ plain.1))
  have notInside : ¬ Inside caller macroLabel.stackFramePrefix :=
    fun inside => inside.ne_nil isCaller plain.1
  have successors : forall target, target ∈ (connected.children macroLabel).elements ↔
      target ∈ original.children macroLabel := by
    intro target
    exact (connectedExtends.children macroLabel notCaller notInside target).trans
      (mainLevel.children macroLabel plain.1 notExpanded target)
  have read : (state.cfg.instructions macroLabel).cmd = (original.instructions macroLabel).cmd := by
    rw [walking.extension.instructions macroLabel notCaller notInside,
      mainLevel.instructions macroLabel plain.1 notExpanded]
  have cloneMain : forall label, (cloneLabel caller.text label).stackFramePrefix ≠ [] :=
    fun _ => isCaller.text_ne_nil
  have enteredOld : forall prev target, target.stackFramePrefix = [] ->
      target ∈ entered.children prev -> target ∈ state.cfg.children prev := by
    intro prev target main isChild
    rcases enteredChildren prev target isChild with inInserted | ⟨_, rfl, _⟩
    · exact (insertedWellFormed.mem_withLabel_children fresh _).mp inInserted
    · exact absurd main (cloneMain macroLabel)
  -- a predecessor is one of the original graph, or has no clone of its own
  have predecessors : forall prev, prev ∈ (entered.parents macroLabel).elements ->
      (prev.stackFramePrefix = [] ∧ macroLabel ∈ original.children prev) ∨
        cloneLabel [] prev ∉ macroLabel :: taken := by
    intro prev isPrev
    have isChild := (enteredExtends.wellFormed.converse prev macroLabel).mpr isPrev
    rcases walking.returned macroLabel prev plain.1
      (enteredOld prev macroLabel plain.1 isChild) with
      old | ⟨rfl, source, isTaken, rfl, exits⟩
    · rcases mainLevel.parents macroLabel prev plain.1 old with found | ⟨_, isReturn⟩
      · exact Or.inl found
      · exact Or.inr (clonable.undisturbed taken macroLabel search prev isReturn)
    · exact absurd exits (ahead taken search source isTaken)
  have isEntry : state.first = true -> macroLabel = entryLabel := by
    intro isFirst
    have inFrontier := (walking.frontier macroLabel).mp member
    rw [walking.begin_ isFirst] at inFrontier
    rcases inFrontier.2 with same | ⟨source, impossible, _⟩
    · exact same
    · cases impossible
  have entryTaken : entryLabel ∈ macroLabel :: taken := by
    cases isFirst : state.first with
    | true => exact isEntry isFirst ▸ List.mem_cons_self
    | false => exact List.mem_cons_of_mem _ (walking.begun isFirst)
  have freshBefore : cloneLabel caller.text macroLabel ∉ before.labels :=
    fun old => fresh (walking.extension.labels _ old)
  have cloneNe : forall label, label ∈ taken ->
      cloneLabel caller.text label ≠ cloneLabel caller.text macroLabel :=
    fun label isTaken same => fresh (same ▸ (walking.clone label isTaken).1)
  have seenGrows : forall label, label ∈ state.seenLabels -> label ∈ next.seenLabels := walked.seen
  have nextClone : forall label, label ∈ macroLabel :: taken ->
      cloneLabel caller.text label ∈ next.cfg.labels := by
    intro label isTaken
    rcases List.mem_cons.mp isTaken with rfl | earlier
    · exact (labels _).mpr (Or.inl rfl)
    · exact (labels _).mpr (Or.inr (walking.clone label earlier).1)
  -- the edges after the round
  have children : forall source target, target ∈ next.cfg.children source ->
      target ∈ state.cfg.children source ∨
      (source = caller ∧ target = cloneLabel caller.text macroLabel ∧ state.first = true) ∨
      (target = cloneLabel caller.text macroLabel ∧
        exists prev, source = cloneLabel caller.text prev ∧
        ((prev.stackFramePrefix = [] ∧ macroLabel ∈ original.children prev) ∨
          cloneLabel [] prev ∉ macroLabel :: taken)) ∨
      (source = cloneLabel caller.text macroLabel ∧ target = exitTo ∧
        Label.exit ∈ original.children macroLabel) := by
    intro source target child
    rcases walked.children source target child with inConnected | ⟨isLabel, isReturn, exits⟩
    · rcases (connectedChildren source target).mp inConnected with inEntered |
        ⟨same, _, prev, isPrev, form⟩
      · rcases enteredChildren source target inEntered with inInserted | fromCaller
        · left
          exact (insertedWellFormed.mem_withLabel_children fresh _).mp inInserted
        · exact Or.inr (Or.inl fromCaller)
      · exact Or.inr (Or.inr (Or.inl ⟨same, prev, form, predecessors prev isPrev⟩))
    · exact Or.inr (Or.inr (Or.inr ⟨isLabel, isReturn, (successors Label.exit).mp exits⟩))
  refine
    { extension := whole, search := search, frontier := ?_, seenTaken := ?_, begin_ := ?_
      begun := fun _ => entryTaken, clone := ?_, origin := ?_, kept := ?_, cloned := ?_,
      edges := ?_, unseen := ?_
      call := ?_, returned := ?_ }
  · intro label
    constructor
    · intro isWork
      refine ⟨fun isTaken => unclonedWork label isWork (nextClone label isTaken), ?_⟩
      rcases walked.macroLabels label isWork with old | ⟨successor, other⟩
      · rcases ((walking.frontier label).mp (OrderedSet.mem_erase.mp old).1).2 with same |
          ⟨source, isTaken, within⟩
        · exact Or.inl same
        · exact Or.inr ⟨source, List.mem_cons_of_mem _ isTaken, within⟩
      · exact Or.inr ⟨macroLabel, List.mem_cons_self, (successors label).mp successor, other⟩
    · rintro ⟨labelNotTaken, reached⟩
      rw [List.mem_cons, not_or] at labelNotTaken
      have oldWork : label ∈ state.macroLabels -> label ∈ next.macroLabels := fun isWork =>
        walked.oldWork label (OrderedSet.mem_erase.mpr ⟨isWork, labelNotTaken.1⟩)
      rcases reached with rfl | ⟨source, isTaken, within⟩
      · exact oldWork ((walking.frontier label).mpr ⟨labelNotTaken.2, Or.inl rfl⟩)
      · rcases List.mem_cons.mp isTaken with rfl | earlier
        · rcases walked.newWork label ((successors label).mpr within.1) within.2
            labelNotTaken.1 with old | new
          · rcases walking.seenTaken label old with isOld | rfl
            · exact absurd isOld labelNotTaken.2
            · exact absurd entryTaken
                (fun found => (List.mem_cons.mp found).elim labelNotTaken.1 labelNotTaken.2)
          · exact new
        · exact oldWork ((walking.frontier label).mpr
            ⟨labelNotTaken.2, Or.inr ⟨source, earlier, within⟩⟩)
  · intro label isSeen
    rcases walked.newSeen label isSeen with old | rfl
    · exact (walking.seenTaken label old).imp_left (List.mem_cons_of_mem _)
    · exact Or.inl List.mem_cons_self
  · intro isFirst
    rw [walked.first] at isFirst
    cases isFirst
  · intro label isTaken
    refine ⟨nextClone label isTaken, ?_⟩
    rcases List.mem_cons.mp isTaken with rfl | earlier
    · exact freshBefore
    · exact (walking.clone label earlier).2
  · intro label isLabel
    rcases (labels label).mp isLabel with rfl | old
    · exact Or.inr ⟨macroLabel, List.mem_cons_self, rfl⟩
    · exact (walking.origin label old).imp_right
        (fun ⟨source, isTaken, form⟩ => ⟨source, List.mem_cons_of_mem _ isTaken, form⟩)
  · intro label old
    have different : label ≠ cloneLabel caller.text macroLabel :=
      fun same => freshBefore (same ▸ old)
    rw [instructions, Function.update_of_ne different, walking.kept label old]
  · intro label isTaken
    rcases List.mem_cons.mp isTaken with rfl | earlier
    · rw [instructions, Function.update_self, read]
    · rw [instructions, Function.update_of_ne (cloneNe label earlier), walking.cloned label earlier]
  · intro label target isTaken isChild
    have labelPlain := clonable.plain label (search.reaches label isTaken)
    rcases children _ target isChild with old | ⟨form, _⟩ | ⟨rfl, prev, form, isPrev⟩ |
      ⟨form, isReturn, exits⟩
    · rcases List.mem_cons.mp isTaken with rfl | earlier
      · exact absurd old (walking.extension.wellFormed.children_of_not_mem fresh target).1
      · rcases walking.edges label target earlier old with leaves |
          ⟨inner, innerTaken, same, edge, seen⟩
        · exact Or.inl leaves
        · exact Or.inr ⟨inner, List.mem_cons_of_mem _ innerTaken, same, edge, seenGrows label seen⟩
    · have notBefore : cloneLabel caller.text label ∉ before.labels := by
        rcases List.mem_cons.mp isTaken with rfl | earlier
        · exact freshBefore
        · exact (walking.clone label earlier).2
      exact absurd callerMember (form ▸ notBefore)
    · right
      have same : label = cloneLabel [] prev := cloneLabel_injective labelPlain ⟨rfl, rfl⟩ form
      rcases isPrev with ⟨prevMain, successor⟩ | uncloned
      · have prevPlain := originalPlain prev (originalWellFormed.source prev macroLabel successor)
        obtain rfl : label = prev := cloneLabel_injective labelPlain prevPlain form
        refine ⟨macroLabel, List.mem_cons_self, rfl, successor, ?_⟩
        rcases List.mem_cons.mp isTaken with rfl | earlier
        · rcases walked.unseen label ((successors label).mpr successor) notExit with old | new
          · exact seenGrows label old
          · exact new
        · exact seenGrows label (walking.unseen label macroLabel earlier successor notExit notTaken)
      · exact absurd (same ▸ isTaken) uncloned
    · rcases List.mem_cons.mp isTaken with rfl | earlier
      · exact Or.inl ⟨isReturn, exits⟩
      · exact absurd form (cloneNe label earlier)
  · intro label target isTaken successor targetNotExit targetNotTaken
    rcases List.mem_cons.mp isTaken with rfl | earlier
    · rcases walked.unseen target ((successors target).mpr successor) targetNotExit with old | new
      · rcases walking.seenTaken target old with targetTaken | rfl
        · exact absurd (List.mem_cons_of_mem _ targetTaken) targetNotTaken
        · exact absurd entryTaken targetNotTaken
      · exact new
    · refine seenGrows label (walking.unseen label target earlier successor targetNotExit ?_)
      exact fun targetTaken => targetNotTaken (List.mem_cons_of_mem _ targetTaken)
  · intro target isChild
    rcases children caller target isChild with old | ⟨_, same, isFirst⟩ |
      ⟨_, prev, form, _⟩ | ⟨form, _⟩
    · exact (walking.call target old).imp_right
        (fun both => ⟨both.1, List.mem_cons_of_mem _ both.2⟩)
    · exact Or.inr ⟨by rw [same, isEntry isFirst], entryTaken⟩
    · exact absurd (congrArg Label.stackFramePrefix form) isCaller.stackFramePrefix_ne
    · exact absurd (form ▸ callerMember) freshBefore
  · intro label prev main isChild
    rcases children prev label isChild with old | ⟨_, rfl, _⟩ | ⟨rfl, _⟩ | ⟨rfl, rfl, exits⟩
    · refine (walking.returned label prev main old).imp_right ?_
      exact fun ⟨same, source, isTaken, form, exits⟩ =>
        ⟨same, source, List.mem_cons_of_mem _ isTaken, form, exits⟩
    · exact absurd main (cloneMain macroLabel)
    · exact absurd main (cloneMain macroLabel)
    · exact Or.inr ⟨rfl, macroLabel, List.mem_cons_self, rfl, exits⟩

/-- A completed walk has cloned the entry of the callee and all labels it has
seen. -/
theorem Walking.walk {fuel : Nat} {final : WalkState}
    (walking : Walking original before caller exitTo entryLabel taken state)
    (site : CallSite original before expanded returns caller exitTo entryLabel)
    (run : Cfg.walk caller caller.text exitTo fuel state = .ok final) :
    exists reached, Walking original before caller exitTo entryLabel reached final ∧
      entryLabel ∈ reached := by
  have finished : forall (taken : List Label) (state : WalkState),
      Walking original before caller exitTo entryLabel taken state ->
      state.macroLabels.least? = none ->
        entryLabel ∈ taken := by
    intro taken state walking empty
    by_contra notTaken
    exact OrderedSet.least?_eq_none.mp empty entryLabel
      ((walking.frontier entryLabel).mpr ⟨notTaken, Or.inl rfl⟩)
  induction fuel generalizing taken state with
  | zero =>
      unfold Cfg.walk at run
      split at run
      · rename_i empty
        cases run
        exact ⟨taken, walking, finished taken final walking empty⟩
      · cases run
  | succ fuel inductionHypothesis =>
      unfold Cfg.walk at run
      split at run
      · rename_i empty
        cases run
        exact ⟨taken, walking, finished taken final walking empty⟩
      · rename_i macroLabel least
        rcases bind_eq_ok.mp run with ⟨next, step, later⟩
        exact inductionHypothesis (walking.round site least step (walk_fresh later)) later

theorem Walking.start (site : CallSite original before expanded returns caller exitTo entryLabel) :
    Walking original before caller exitTo entryLabel []
      ⟨before, OrderedSet.singleton entryLabel, OrderedSet.singleton entryLabel, true⟩ where
  extension := Extends.refl site.mainLevel.wellFormed
  search := .start
  frontier label := by simp [searchFrontier]
  seenTaken label isSeen := Or.inr (OrderedSet.mem_singleton.mp isSeen)
  begin_ _ := rfl
  begun isFirst := by cases isFirst
  clone label isTaken := absurd isTaken List.not_mem_nil
  origin label isLabel := Or.inl isLabel
  kept _ _ := rfl
  cloned label isTaken := absurd isTaken List.not_mem_nil
  edges label _ isTaken := absurd isTaken List.not_mem_nil
  unseen label _ isTaken := absurd isTaken List.not_mem_nil
  call _ child := Or.inl child
  returned _ _ _ child := Or.inl child

end Walk

/-! ## The discipline of the clones -/

theorem callStackDepth_clone {caller : Label} (isCaller : IsCaller caller) (label : Label) :
    (cloneLabel caller.text label).callStackDepth = caller.callStackDepth + 1 := by
  rw [← Label.two_add_delimiters_text isCaller.notEntry isCaller.notExit isCaller.special]
  exact if_neg isCaller.text_ne_nil

theorem frameShift_clone {stackFramePrefix : List Char} {ins : Instruction}
    (notCall : forall call, ins ≠ .callLocal call) (notExit : forall exit_, ins ≠ .exit exit_) :
    frameShift (cloneInstruction stackFramePrefix ins) = 0 := by
  cases ins with
  | callLocal call => exact absurd rfl (notCall call)
  | exit exit_ => exact absurd rfl (notExit exit_)
  | _ => rfl

/-- The clones of some labels. -/
def Clones (stackFramePrefix : List Char) (labels : List Label) : Set Label :=
  {clone | exists label, label ∈ labels ∧ clone = cloneLabel stackFramePrefix label}

/-- The clones of the calls in a list of labels. -/
def NestedCalls (original : Cfg) (stackFramePrefix : List Char) (labels : List Label) : Set Label :=
  {clone | exists label call, label ∈ labels ∧ (original.instructions label).cmd = .callLocal call ∧
    clone = cloneLabel stackFramePrefix label}

section Expand

variable {original cfg next : Cfg} {expanded labels pending : Set Label}
  {returns : Label -> Label -> Prop} {caller exitTo entryLabel : Label} {taken : List Label}

theorem Disciplined.storePrefix {stackFramePrefix : List Char}
    (disciplined : Disciplined labels pending cfg)
    (isPending : caller ∈ pending) (run : cfg.storePrefix caller stackFramePrefix = .ok next) :
    Disciplined labels pending next := by
  rcases storePrefix_eq_ok run with rfl | ⟨call, _, rfl⟩
  · exact disciplined
  · have others : forall label, label ≠ caller -> forall ins,
        (cfg.setInstruction caller ins).instructions label = cfg.instructions label :=
      fun label different ins => Function.update_of_ne different _ _
    refine
      { mem := disciplined.mem, entry := disciplined.entry, step := ?_,
        pendingMem := disciplined.pendingMem
        pendingCall := ?_, pendingStep := disciplined.pendingStep, owner := disciplined.owner
        depth := disciplined.depth }
    · intro label target member notPending child
      rw [others label (fun same => notPending (same ▸ isPending))]
      exact disciplined.step label target member notPending child
    · intro label labelPending
      by_cases same : label = caller
      · subst same
        refine ⟨(disciplined.pendingCall label labelPending).1,
          { call with stackFramePrefix := stackFramePrefix }, ?_⟩
        simp [Cfg.setInstruction]
      · rw [others label same]
        exact disciplined.pendingCall label labelPending

/-- The walk over the callee of a pending call, and the removal of the edge
around the call. -/
theorem Walking.disciplined {before : Cfg} {final : WalkState}
    (walking : Walking original before caller exitTo entryLabel taken final)
    (site : CallSite original before expanded returns caller exitTo entryLabel)
    (disciplined : Disciplined labels pending before) (isPending : caller ∈ pending)
    (single : forall target, target ∈ before.children caller -> target = exitTo)
    (depth : caller.callStackDepth + 1 ≤ maxCallStackFrames) (entryTaken : entryLabel ∈ taken)
    (seenTaken : forall label, label ∈ final.seenLabels -> label ∈ taken) :
    Disciplined (labels ∪ Clones caller.text taken)
      ((pending \ {caller}) ∪ NestedCalls original caller.text final.seenLabels.elements)
      (final.cfg.withoutEdge caller exitTo) := by
  have isCaller := site.isCaller
  have callerMember := disciplined.pendingMem caller isPending
  have whole := walking.extension.trans (Extends.withoutEdge walking.extension.wellFormed exitTo)
  have untouched : forall label, label ∈ labels -> ¬ Inside caller label.stackFramePrefix :=
    fun label member inside => disciplined.not_inside isCaller
      (fun _ => isPending) inside label member rfl
  have fresh : forall label, label ∈ taken -> cloneLabel caller.text label ∉ labels :=
    fun label isTaken member => (walking.clone label isTaken).2 (disciplined.mem _ member)
  have children : forall label, label ∈ labels -> label ≠ caller -> forall target,
      target ∈ (final.cfg.withoutEdge caller exitTo).children label ↔
      target ∈ before.children label :=
    fun label member notCaller => whole.children label notCaller (untouched label member)
  have instructions : forall label, label ∈ labels ->
      (final.cfg.withoutEdge caller exitTo).instructions label = before.instructions label :=
    fun label member => walking.kept label (disciplined.mem label member)
  have behind := disciplined.pendingStep caller exitTo isPending site.child
  have cloneMember : forall label, label ∈ taken ->
      cloneLabel caller.text label ∈ labels ∪ Clones caller.text taken :=
    fun label isTaken => Or.inr ⟨label, isTaken, rfl⟩
  have cloneEdges : forall label target, label ∈ taken ->
      target ∈ (final.cfg.withoutEdge caller exitTo).children (cloneLabel caller.text label) ->
      (target = exitTo ∧ Label.exit ∈ original.children label) ∨
        exists inner, inner ∈ taken ∧ target = cloneLabel caller.text inner ∧
        inner ∈ original.children label ∧
          label ∈ final.seenLabels :=
    fun label target isTaken child =>
      walking.edges label target isTaken ((mem_withoutEdge_children _ _ _).mp child).1
  have cloned : forall label, label ∈ taken ->
      ((final.cfg.withoutEdge caller exitTo).instructions (cloneLabel caller.text label)).cmd =
        cloneInstruction caller.text (original.instructions label).cmd := walking.cloned
  refine
    { mem := ?_, entry := Or.inl disciplined.entry, step := ?_, pendingMem := ?_, pendingCall := ?_
      pendingStep := ?_, owner := ?_, depth := ?_ }
  · rintro label (member | ⟨source, isTaken, rfl⟩)
    · exact whole.labels label (disciplined.mem label member)
    · exact (walking.clone source isTaken).1
  · rintro label target (member | ⟨source, isTaken, rfl⟩) notPending child
    · by_cases same : label = caller
      · subst same
        rcases (mem_withoutEdge_children _ _ _).mp child with ⟨child, notReturn⟩
        rcases walking.call target child with old | ⟨rfl, _⟩
        · exact absurd ⟨rfl, single target old⟩ notReturn
        · refine ⟨cloneMember entryLabel entryTaken, ?_⟩
          rcases (disciplined.pendingCall label isPending).2 with ⟨call, isCall⟩
          rw [instructions label member, isCall, callStackDepth_clone isCaller]
          rfl
      · rw [children label member same] at child
        rw [instructions label member]
        have step := disciplined.step label target member
          (fun isPending => notPending (Or.inl ⟨isPending, same⟩)) child
        exact ⟨Or.inl step.1, step.2⟩
    · rw [cloned source isTaken]
      rcases cloneEdges source target isTaken child with ⟨rfl, exits⟩ |
        ⟨inner, innerTaken, rfl, edge, isSeen⟩
      · rcases site.clonable.leaves source (walking.takenFunction source isTaken) exits with
          ⟨ins, isExit⟩
        refine ⟨Or.inl behind.1, ?_⟩
        rw [behind.2, callStackDepth_clone isCaller, isExit]
        simp only [cloneInstruction, frameShift, if_neg isCaller.text_ne_nil]
        omega
      · refine ⟨cloneMember inner innerTaken, ?_⟩
        rw [callStackDepth_clone isCaller, callStackDepth_clone isCaller,
          frameShift_clone, add_zero]
        · intro call isCall
          exact notPending (Or.inr ⟨source, call, isSeen, isCall, rfl⟩)
        · intro ins isExit
          exact site.clonable.ne_exit (walking.takenFunction inner innerTaken)
            (site.clonable.exits source ins inner
              (walking.takenFunction source isTaken) isExit edge)
  · rintro label (⟨labelPending, _⟩ | ⟨source, call, isSeen, isCall, rfl⟩)
    · exact Or.inl (disciplined.pendingMem label labelPending)
    · exact cloneMember source (seenTaken source isSeen)
  · rintro label (⟨labelPending, _⟩ | ⟨source, call, isSeen, isCall, rfl⟩)
    · rw [instructions label (disciplined.pendingMem label labelPending)]
      exact disciplined.pendingCall label labelPending
    · rw [cloned source (seenTaken source isSeen), isCall]
      exact ⟨isCaller_clone isCaller.text_ne_nil source, call, rfl⟩
  · rintro label target (⟨labelPending, notCaller⟩ | ⟨source, call, isSeen, isCall, rfl⟩) child
    · rw [children label (disciplined.pendingMem label labelPending) notCaller] at child
      have step := disciplined.pendingStep label target labelPending child
      exact ⟨Or.inl step.1, step.2⟩
    · have isTaken := seenTaken source isSeen
      rcases cloneEdges source target isTaken child with ⟨rfl, exits⟩ |
        ⟨inner, innerTaken, rfl, edge, _⟩
      · rcases site.clonable.leaves source (walking.takenFunction source isTaken) exits with
          ⟨ins, isExit⟩
        rw [isCall] at isExit
        cases isExit
      · exact ⟨cloneMember inner innerTaken, by rw [callStackDepth_clone isCaller,
          callStackDepth_clone isCaller]⟩
  · rintro label (member | ⟨source, isTaken, rfl⟩) nonempty
    · rcases disciplined.owner label member nonempty with
        ⟨owner, ownerMember, notPending, isOwner, text⟩
      refine ⟨owner, Or.inl ownerMember, ?_, isOwner, text⟩
      rintro (⟨ownerPending, _⟩ | ⟨source, call, isSeen, _, rfl⟩)
      · exact notPending ownerPending
      · exact fresh source (seenTaken source isSeen) ownerMember
    · refine ⟨caller, Or.inl callerMember, ?_, isCaller, rfl⟩
      rintro (⟨_, notCaller⟩ | ⟨source, call, isSeen, _, form⟩)
      · exact notCaller rfl
      · exact fresh source (seenTaken source isSeen) (form ▸ callerMember)
  · rintro label (member | ⟨source, isTaken, rfl⟩)
    · exact disciplined.depth label member
    · rw [callStackDepth_clone isCaller]
      exact depth

/-- What the expansion of one call leaves behind: the clones of the labels it
took, with the calls among the seen ones still pending. -/
structure Expanded (original cfg next : Cfg) (expanded : Set Label)
    (returns : Label -> Label -> Prop)
    (labels pending : Set Label) (caller entryLabel : Label) (taken : List Label)
    (seen : OrderedSet Label) : Prop where
  mainLevel : MainLevel original expanded returns next
  disciplined : Disciplined (labels ∪ Clones caller.text taken)
    ((pending \ {caller}) ∪ NestedCalls original caller.text seen.elements) next
  seenTaken : forall label, label ∈ seen -> label ∈ taken
  takenFunction : forall label, label ∈ taken -> label ∈ original.functionOf entryLabel
  fresh : forall label, label ∈ taken -> cloneLabel caller.text label ∉ cfg.labels
  cloned : forall label, label ∈ taken -> (next.instructions (cloneLabel caller.text label)).cmd =
    cloneInstruction caller.text (original.instructions label).cmd

/-- The expansion of a pending call whose callee is cloned as it is.  Only a call
of the main program adds returns to the main level. -/
theorem expandCall_expanded (firstLevel : original.FirstLevel)
    (mainLevel : MainLevel original expanded returns cfg)
    (disciplined : Disciplined labels pending cfg) (isPending : caller ∈ pending)
    (counted : caller.stackFramePrefix = [] -> caller ∈ expanded)
    (clonable : Clonable original expanded returns entryLabel)
    (depth : caller.callStackDepth + 1 ≤ maxCallStackFrames) {more : Label -> Label -> Prop}
    (grows : forall label prev, returns label prev -> more label prev)
    (ahead : forall exitTo, exitTo ∈ cfg.children caller -> caller.stackFramePrefix = [] ->
      ReturnsAhead original entryLabel exitTo)
    (added : forall exitTo source, exitTo ∈ cfg.children caller -> caller.stackFramePrefix = [] ->
      source ∈ original.functionOf entryLabel -> Label.exit ∈ original.children source ->
        more exitTo (cloneLabel caller.text source))
    {seen : OrderedSet Label} (run : expandCall caller entryLabel cfg = .ok (next, seen)) :
    exists taken, Expanded original cfg next expanded more labels pending caller entryLabel
      taken seen := by
  have isCaller := (disciplined.pendingCall caller isPending).1
  rcases expandCall_eq_ok run with
    ⟨exitTo, stored, final, fuel, member, elements, store, walked, rfl, rfl⟩
  have child : exitTo ∈ cfg.children caller := by
    rw [OrderedSet.mem_def, elements]
    exact List.mem_singleton_self exitTo
  -- a call of the main program returns to it, and a call in a frame does not
  have mainCaller : exitTo.stackFramePrefix = [] -> caller.stackFramePrefix = [] := by
    intro main
    by_contra nonempty
    have sameDepth := (disciplined.pendingStep caller exitTo isPending child).2
    rw [Label.callStackDepth, if_pos main, Label.callStackDepth, if_neg nonempty] at sameDepth
    omega
  have storing : Extends caller exitTo cfg stored := storePrefix_extends mainLevel.wellFormed store
  have same : stored.children = cfg.children ∧ stored.labels = cfg.labels := by
    rcases storePrefix_eq_ok store with rfl | ⟨call, _, rfl⟩ <;> exact ⟨rfl, rfl⟩
  have site : CallSite original stored expanded returns caller exitTo entryLabel :=
    { firstLevel := firstLevel
      mainLevel := mainLevel.extends_ isCaller counted storing (fun _ _ => id)
        (fun label prev _ isChild => Or.inl (by rwa [same.1] at isChild))
      clonable := clonable
      ahead := by
        intro taken search
        have main := (clonable.plain exitTo (search.reaches exitTo List.mem_cons_self)).1
        exact ahead exitTo child (mainCaller main) taken search
      isCaller := isCaller
      callerMember := by rw [same.2]; exact member
      counted := counted
      child := by rw [same.1]; exact child }
  rcases (Walking.start site).walk site walked with ⟨taken, walking, entryTaken⟩
  have seenTaken : forall label, label ∈ final.seenLabels -> label ∈ taken := by
    intro label isSeen
    rcases walking.seenTaken label isSeen with isTaken | rfl
    · exact isTaken
    · exact entryTaken
  have single : forall target, target ∈ stored.children caller -> target = exitTo := by
    intro target isChild
    rw [same.1, OrderedSet.mem_def, elements] at isChild
    exact List.mem_singleton.mp isChild
  have walkedMain : MainLevel original expanded more final.cfg := by
    refine walking.mainLevel site grows (fun main source isTaken exits => ?_)
    exact added exitTo source child (mainCaller main) (walking.takenFunction source isTaken) exits
  have removal : Extends caller exitTo final.cfg (final.cfg.withoutEdge caller exitTo) :=
    Extends.withoutEdge walking.extension.wellFormed exitTo
  refine ⟨taken, ?_⟩
  exact
    { mainLevel := walkedMain.extends_ isCaller counted removal (fun _ _ => id)
        (fun label prev _ isChild => Or.inl ((mem_withoutEdge_children _ _ _).mp isChild).1)
      disciplined := walking.disciplined site (disciplined.storePrefix isPending store)
        isPending single depth
        entryTaken seenTaken
      seenTaken := seenTaken
      takenFunction := walking.takenFunction
      fresh := fun label isTaken old => (walking.clone label isTaken).2 (by rw [same.2]; exact old)
      cloned := walking.cloned }

end Expand

/-- The set of pending calls without the first clone of a list. -/
theorem nestedCalls_diff {original : Cfg} {stackFramePrefix : List Char} {rest : List Label}
    {macroLabel : Label}
    {others : Set Label} (outside : cloneLabel stackFramePrefix macroLabel ∉ others)
    (differs : forall label, label ∈ rest ->
      cloneLabel stackFramePrefix label ≠ cloneLabel stackFramePrefix macroLabel) :
    (others ∪ NestedCalls original stackFramePrefix (macroLabel :: rest)) \
      {cloneLabel stackFramePrefix macroLabel} =
      others ∪ NestedCalls original stackFramePrefix rest := by
  ext clone
  constructor
  · rintro ⟨other | ⟨label, call, member, isCall, rfl⟩, notFirst⟩
    · exact Or.inl other
    · rcases List.mem_cons.mp member with rfl | inRest
      · exact absurd rfl notFirst
      · exact Or.inr ⟨label, call, inRest, isCall, rfl⟩
  · rintro (other | ⟨label, call, inRest, isCall, rfl⟩)
    · exact ⟨Or.inl other, fun same => outside ((show clone = _ from same) ▸ other)⟩
    · exact ⟨Or.inr ⟨label, call, List.mem_cons_of_mem _ inRest, isCall, rfl⟩, differs label inRest⟩

theorem nestedCalls_cons_of_not_call {original : Cfg} {stackFramePrefix : List Char}
    {rest : List Label}
    {macroLabel : Label} (notCall : forall call, (original.instructions macroLabel).cmd ≠
      .callLocal call) :
    NestedCalls original stackFramePrefix (macroLabel :: rest) =
      NestedCalls original stackFramePrefix rest := by
  ext clone
  constructor
  · rintro ⟨label, call, member, isCall, rfl⟩
    rcases List.mem_cons.mp member with rfl | inRest
    · exact absurd isCall (notCall call)
    · exact ⟨label, call, inRest, isCall, rfl⟩
  · rintro ⟨label, call, inRest, isCall, rfl⟩
    exact ⟨label, call, List.mem_cons_of_mem _ inRest, isCall, rfl⟩

theorem eq_callLocal_of_clone {stackFramePrefix : List Char} {ins : Instruction} {call : CallLocal}
    (cloned : cloneInstruction stackFramePrefix ins = .callLocal call) : ins = .callLocal call := by
  cases ins <;> cases cloned
  rfl

/-- An expansion of calls within frames keeps the main level and the discipline.
`functions` are the callees. -/
def ExpandsCalls (original : Cfg) (expanded : Set Label) (returns : Label -> Label -> Prop)
    (functions : Set Label) (expand : Label -> Label -> Cfg -> Except CfgError Cfg) : Prop :=
  forall {caller entryLabel : Label} {cfg next : Cfg} {labels pending : Set Label},
    MainLevel original expanded returns cfg -> Disciplined labels pending cfg -> caller ∈ pending ->
    caller.stackFramePrefix ≠ [] -> entryLabel ∈ functions ->
    caller.callStackDepth + 1 ≤ maxCallStackFrames -> expand caller entryLabel cfg = .ok next ->
      exists more, labels ⊆ more ∧
        (forall label, label ∈ more ->
          label ∈ labels ∨ (label.stackFramePrefix ≠ [] ∧ label.specialLabel = [])) ∧
        MainLevel original expanded returns next ∧ Disciplined more (pending \ {caller}) next

section Nested

variable {original : Cfg} {expanded functions : Set Label} {returns : Label -> Label -> Prop}
  {expand : Label -> Label -> Cfg -> Except CfgError Cfg}

/-- The loop over the clones of the seen labels of an expanded call. -/
theorem expandNested_disciplined (expands : ExpandsCalls original expanded returns functions expand)
    (frames : forall {caller entryLabel : Label} {cfg next : Cfg}, IsCaller caller ->
      cfg.WellFormed -> expand caller entryLabel cfg = .ok next ->
      exists exitTo, exitTo ∈ cfg.children caller ∧ Extends caller exitTo cfg next)
    {cfg next : Cfg} {caller : Label} (isCaller : IsCaller caller)
    {taken : List Label} (plain : ∀ label ∈ taken, label.stackFramePrefix = [] ∧
      label.specialLabel = [])
    (calls : ∀ label ∈ taken, forall call, (original.instructions label).cmd = .callLocal call ->
      call.target ∈ functions)
    {others : Set Label} (outside : ∀ label ∈ taken, cloneLabel caller.text label ∉ others)
    {list : List Label}
    (distinct : list.Nodup) (listTaken : ∀ label ∈ list, label ∈ taken) {reached : Set Label}
    (mainLevel : MainLevel original expanded returns cfg)
    (disciplined : Disciplined reached (others ∪ NestedCalls original caller.text list) cfg)
    (clones : ∀ label ∈ list, cloneLabel caller.text label ∈ reached ∧
      (cfg.instructions (cloneLabel caller.text label)).cmd =
        cloneInstruction caller.text (original.instructions label).cmd)
    (run : expandNested caller.text expand list cfg = .ok next) :
    exists more, reached ⊆ more ∧
      (forall label, label ∈ more ->
        label ∈ reached ∨ (label.stackFramePrefix ≠ [] ∧ label.specialLabel = [])) ∧
      MainLevel original expanded returns next ∧ Disciplined more others next := by
  induction list generalizing cfg reached with
  | nil =>
      cases run
      have none : NestedCalls original caller.text [] = ∅ := by
        ext clone
        simp [NestedCalls]
      rw [none, Set.union_empty] at disciplined
      exact ⟨reached, subset_rfl, fun label member => Or.inl member, mainLevel, disciplined⟩
  | cons macroLabel rest inductionHypothesis =>
      rcases bind_eq_ok.mp run with ⟨ins, read, step⟩
      rcases bind_eq_ok.mp step with ⟨middle, clone, later⟩
      rcases List.nodup_cons.mp distinct with ⟨notInRest, restDistinct⟩
      have isTaken := listTaken macroLabel List.mem_cons_self
      have restTaken : ∀ label ∈ rest, label ∈ taken :=
        fun label member => listTaken label (List.mem_cons_of_mem _ member)
      have isClone := (instructionAt_eq_ok read).2.trans (clones macroLabel List.mem_cons_self).2
      unfold expandClone at clone
      split at clone
      · rename_i innerCall
        split at clone
        · cases clone
        · rename_i shallow
          have isCall : (original.instructions macroLabel).cmd = .callLocal innerCall :=
            eq_callLocal_of_clone isClone.symm
          have isInner : IsCaller (cloneLabel caller.text macroLabel) :=
            isCaller_clone isCaller.text_ne_nil macroLabel
          have innerPending : cloneLabel caller.text macroLabel ∈
              others ∪ NestedCalls original caller.text (macroLabel :: rest) :=
            Or.inr ⟨macroLabel, innerCall, List.mem_cons_self, isCall, rfl⟩
          have innerDepth : (cloneLabel caller.text macroLabel).callStackDepth + 1 ≤
              maxCallStackFrames := by
            rw [callStackDepth_clone isCaller,
              ← Label.two_add_delimiters_text isCaller.notEntry isCaller.notExit
              isCaller.special]
            omega
          rcases expands mainLevel disciplined innerPending isCaller.text_ne_nil
            (calls macroLabel isTaken innerCall isCall) innerDepth clone with
            ⟨more, grows, prefixed, moreMain, moreDisciplined⟩
          rcases frames isInner mainLevel.wellFormed clone with ⟨innerExit, _, innerExtension⟩
          have differs : forall label, label ∈ rest ->
              cloneLabel caller.text label ≠ cloneLabel caller.text macroLabel := by
            intro label inRest same
            have equal := cloneLabel_injective (plain label (restTaken label inRest))
              (plain macroLabel isTaken) same
            exact notInRest (equal ▸ inRest)
          rw [nestedCalls_diff (outside macroLabel isTaken) differs] at moreDisciplined
          have restClones : ∀ label ∈ rest, cloneLabel caller.text label ∈ more ∧
              (middle.instructions (cloneLabel caller.text label)).cmd =
                cloneInstruction caller.text (original.instructions label).cmd := by
            intro label inRest
            have found := clones label (List.mem_cons_of_mem _ inRest)
            refine ⟨grows found.1, ?_⟩
            rw [innerExtension.instructions _ (differs label inRest), found.2]
            intro inside
            exact disciplined.not_inside isInner (fun _ => innerPending) inside _ found.1 rfl
          rcases inductionHypothesis restDistinct restTaken moreMain moreDisciplined
            restClones later with
            ⟨all, allGrows, allPrefixed, allDisciplined⟩
          refine ⟨all, grows.trans allGrows, ?_, allDisciplined⟩
          intro label member
          exact (allPrefixed label member).elim (prefixed label) Or.inr
      · rename_i notCall
        cases clone
        have isNoCall : forall innerCall, (original.instructions macroLabel).cmd ≠
            .callLocal innerCall := by
          intro innerCall isCall
          rw [isCall] at isClone
          exact notCall innerCall isClone
        rw [nestedCalls_cons_of_not_call isNoCall] at disciplined
        exact inductionHypothesis restDistinct restTaken mainLevel disciplined
          (fun label member => clones label (List.mem_cons_of_mem _ member)) later

theorem Expanded.expandNested {frames : Nat}
    (expands : ExpandsCalls original expanded returns functions (addCfgNodes frames))
    {before cfg next : Cfg}
    {labels pending : Set Label} {caller entryLabel : Label} {taken : List Label}
    {seen : OrderedSet Label}
    (result : Expanded original before cfg expanded returns labels pending caller
      entryLabel taken seen)
    (disciplined : Disciplined labels pending before) (isCaller : IsCaller caller)
    (plain : forall label, label ∈ original.functionOf entryLabel ->
      label.stackFramePrefix = [] ∧ label.specialLabel = [])
    (calls : forall label call, label ∈ original.functionOf entryLabel ->
      (original.instructions label).cmd = .callLocal call -> call.target ∈ functions)
    (run : Cfg.expandNested caller.text (addCfgNodes frames) seen.elements cfg = .ok next) :
    exists more, labels ⊆ more ∧
      (forall label, label ∈ more ->
        label ∈ labels ∨ (label.stackFramePrefix ≠ [] ∧ label.specialLabel = [])) ∧
      MainLevel original expanded returns next ∧ Disciplined more (pending \ {caller}) next := by
  have outside : ∀ label ∈ taken, cloneLabel caller.text label ∉ pending \ {caller} := by
    rintro label isTaken ⟨wasPending, _⟩
    exact result.fresh label isTaken (disciplined.mem _ (disciplined.pendingMem _ wasPending))
  rcases expandNested_disciplined expands
    (fun isInner => addCfgNodes_extends frames isInner) isCaller
    (fun label isTaken => plain label (result.takenFunction label isTaken))
    (fun label isTaken call => calls label call (result.takenFunction label isTaken))
    outside seen.nodup
    result.seenTaken result.mainLevel result.disciplined
    (fun label isSeen => ⟨Or.inr ⟨label, result.seenTaken label isSeen, rfl⟩,
      result.cloned label (result.seenTaken label isSeen)⟩) run with ⟨more, grows, prefixed, kept⟩
  refine ⟨more, fun label member => grows (Or.inl member), ?_, kept⟩
  intro label member
  rcases prefixed label member with (old | ⟨source, _, rfl⟩) | nonempty
  · exact Or.inl old
  · exact Or.inr ⟨isCaller.text_ne_nil, rfl⟩
  · exact Or.inr nonempty

/-- The expansion of the calls within frames, to any depth. -/
theorem addCfgNodes_expands (firstLevel : original.FirstLevel)
    (clonable : ∀ entryLabel ∈ functions, Clonable original expanded returns entryLabel)
    (calls : ∀ entryLabel ∈ functions, forall label call, label ∈ original.functionOf entryLabel ->
      (original.instructions label).cmd = .callLocal call -> call.target ∈ functions)
      (frames : Nat) :
    ExpandsCalls original expanded returns functions (addCfgNodes frames) := by
  induction frames with
  | zero => exact fun _ _ _ _ _ _ run => by cases run
  | succ frames inductionHypothesis =>
      intro caller entryLabel cfg next labels pending mainLevel disciplined isPending inFrame
        inFunctions depth run
      rcases bind_eq_ok.mp run with ⟨⟨cloned, seen⟩, call, nested⟩
      have isCaller := (disciplined.pendingCall caller isPending).1
      rcases expandCall_expanded firstLevel mainLevel disciplined isPending
        (fun main => absurd main inFrame)
        (clonable entryLabel inFunctions) depth (fun _ _ => id)
        (fun _ _ main => absurd main inFrame)
        (fun _ _ _ main => absurd main inFrame) call with ⟨taken, result⟩
      exact result.expandNested inductionHypothesis disciplined isCaller
        (clonable entryLabel inFunctions).plain
        (calls entryLabel inFunctions) nested

end Nested

/-- The expansion of a pending call of the main program, with all calls nested in
it.  The nested ones have the returns of this call before them. -/
theorem addCfgNodes_disciplined {original cfg next : Cfg}
    {expanded labels pending functions : Set Label}
    {returns more : Label -> Label -> Prop} {caller entryLabel : Label} {frames : Nat}
    (firstLevel : original.FirstLevel) (mainLevel : MainLevel original expanded returns cfg)
    (disciplined : Disciplined labels pending cfg) (isPending : caller ∈ pending)
    (counted : caller ∈ expanded) (depth : caller.callStackDepth + 1 ≤ maxCallStackFrames)
    (clonable : Clonable original expanded returns entryLabel)
    (grows : forall label prev, returns label prev -> more label prev)
    (ahead : forall exitTo, exitTo ∈ cfg.children caller -> ReturnsAhead original entryLabel exitTo)
    (added : forall exitTo source, exitTo ∈ cfg.children caller ->
      source ∈ original.functionOf entryLabel -> Label.exit ∈ original.children source ->
      more exitTo (cloneLabel caller.text source))
    (calls : forall label call, label ∈ original.functionOf entryLabel ->
      (original.instructions label).cmd = .callLocal call -> call.target ∈ functions)
    (nestedClonable : ∀ inner ∈ functions, Clonable original expanded more inner)
    (nestedCalls : ∀ inner ∈ functions, forall label call, label ∈ original.functionOf inner ->
      (original.instructions label).cmd = .callLocal call -> call.target ∈ functions)
    (run : addCfgNodes (frames + 1) caller entryLabel cfg = .ok next) :
    exists larger, labels ⊆ larger ∧
      (forall label, label ∈ larger ->
        label ∈ labels ∨ (label.stackFramePrefix ≠ [] ∧ label.specialLabel = [])) ∧
      MainLevel original expanded more next ∧ Disciplined larger (pending \ {caller}) next := by
  rcases bind_eq_ok.mp run with ⟨⟨cloned, seen⟩, call, nested⟩
  have isCaller := (disciplined.pendingCall caller isPending).1
  rcases expandCall_expanded firstLevel mainLevel disciplined isPending
    (fun _ => counted) clonable depth grows
    (fun exitTo child _ => ahead exitTo child) (fun exitTo source child _ =>
      added exitTo source child) call with
    ⟨taken, result⟩
  exact result.expandNested (addCfgNodes_expands firstLevel nestedClonable nestedCalls frames)
    disciplined isCaller
    clonable.plain calls nested

end Cfg
end Prevail
