import Prevail.Cfg.Expansion
import Prevail.Library.LeastFirst

namespace Prevail
namespace Cfg

/-!
# The clone of a callee

The walk over a callee clones the nodes it meets into a new frame.  It reads
the nodes and edges of the graph as it stands, which includes what earlier
expansions have added.  Where it meets none of that, the clones have the edges
of the callee, every exit returns to the label behind the call, and the depth
of each clone is the number of frames open there.
-/

/-- How an instruction changes the number of open frames. -/
def frameShift : Instruction -> Int
  | .callLocal _ => 1
  | .exit ins => if ins.stackFramePrefix = [] then 0 else -1
  | _ => 0

/-- The frame of a call of the main program is inside this call only. -/
theorem Inside.eq_of_main {caller other : Label} (inside : Inside caller other.text)
    (isCaller : IsCaller caller)
    (isOther : IsCaller other) (main : other.stackFramePrefix = []) : caller = other := by
  generalize form : other.text = stackFramePrefix at inside
  cases inside with
  | own => exact (isOther.text_injective isCaller form).symm
  | nested outer isInner =>
      have same := isOther.text_injective isInner form
      exact absurd (same ▸ main) (outer.ne_nil isCaller)

/-- The labels without a prefix still have the edges of the original graph,
except for the expanded calls; and they have no further predecessors but the
clones that return to them. -/
structure MainLevel (original : Cfg) (expanded : Set Label) (returns : Label -> Label -> Prop)
    (cfg : Cfg) :
    Prop where
  wellFormed : cfg.WellFormed
  children : forall label, label.stackFramePrefix = [] -> label ∉ expanded ->
    forall next, next ∈ cfg.children label ↔ next ∈ original.children label
  instructions : forall label, label.stackFramePrefix = [] -> label ∉ expanded ->
    cfg.instructions label = original.instructions label
  parents : forall label prev, label.stackFramePrefix = [] -> label ∈ cfg.children prev ->
    (prev.stackFramePrefix = [] ∧ label ∈ original.children prev) ∨
      (prev.stackFramePrefix ≠ [] ∧ returns label prev)

section MainLevel

variable {original before after : Cfg} {expanded : Set Label}
  {returns more : Label -> Label -> Prop} {caller exitTo : Label}

/-- What the expansion of an expanded call, or of a call within one, adds to the
main level are clones that return to it. -/
theorem MainLevel.extends_ (mainLevel : MainLevel original expanded returns before)
    (isCaller : IsCaller caller)
    (counted : caller.stackFramePrefix = [] -> caller ∈ expanded)
    (extension : Extends caller exitTo before after)
    (grows : forall label prev, returns label prev -> more label prev)
    (added : forall label prev, label.stackFramePrefix = [] -> label ∈ after.children prev ->
      label ∈ before.children prev ∨ (prev.stackFramePrefix ≠ [] ∧ more label prev)) :
    MainLevel original expanded more after where
  wellFormed := extension.wellFormed
  children label main notExpanded next := by
    have notCaller : label ≠ caller := fun same => notExpanded (same ▸ counted (same ▸ main))
    rw [extension.children label notCaller (fun inside => inside.ne_nil isCaller main)]
    exact mainLevel.children label main notExpanded next
  instructions label main notExpanded := by
    have notCaller : label ≠ caller := fun same => notExpanded (same ▸ counted (same ▸ main))
    rw [extension.instructions label notCaller (fun inside => inside.ne_nil isCaller main)]
    exact mainLevel.instructions label main notExpanded
  parents label prev main child := by
    rcases added label prev main child with old | isReturn
    · exact (mainLevel.parents label prev main old).imp_right
        (fun both => ⟨both.1, grows label prev both.2⟩)
    · exact Or.inr isReturn

/-- Whatever the expansion of a call of the main program does, it adds returns to
the label behind the call, and to labels to which the frames of this call return
already. -/
theorem MainLevel.extends_unknown (mainLevel : MainLevel original expanded returns before)
    (isCaller : IsCaller caller) (main : caller.stackFramePrefix = []) (counted : caller ∈ expanded)
    (child : exitTo ∈ before.children caller) (extension : Extends caller exitTo before after)
    (grows : forall label prev, returns label prev -> more label prev)
    (behind : forall label prev, label ∈ original.children caller -> more label prev)
    (inherits : forall label inner prev, Inside caller inner.stackFramePrefix ->
      returns label inner -> more label prev) : MainLevel original expanded more after := by
  refine mainLevel.extends_ isCaller (fun _ => counted) extension grows ?_
  intro label prev plain isChild
  rcases extension.edges prev label isChild with old | ⟨_, callee⟩ | ⟨inside, leads⟩
  · exact Or.inl old
  · exact absurd (callee.symm.trans plain) isCaller.text_ne_nil
  · refine Or.inr ⟨inside.ne_nil isCaller, ?_⟩
    rcases leads with toInside | rfl | ⟨inner, innerInside, innerChild⟩
    · exact absurd plain (toInside.ne_nil isCaller)
    · rcases mainLevel.parents label caller plain child with ⟨_, isOriginal⟩ | ⟨nonempty, _⟩
      · exact behind label prev isOriginal
      · exact absurd main nonempty
    · rcases mainLevel.parents label inner plain innerChild with ⟨innerMain, _⟩ | ⟨_, isReturn⟩
      · exact absurd innerMain (innerInside.ne_nil isCaller)
      · exact inherits label inner prev innerInside isReturn

end MainLevel

/-! ## Functions that are cloned as they are -/

/-- An edge that does not leave the function. -/
def Within (cfg : Cfg) (label next : Label) : Prop := next ∈ cfg.children label ∧ next ≠ Label.exit

/-- The labels that a walk from `entryLabel` takes. -/
def functionOf (cfg : Cfg) (entryLabel : Label) : Set Label :=
  { label | Relation.ReflTransGen cfg.Within entryLabel label }

/-- When a walk takes a label, it has taken no label whose clone returns there,
nor is this label one itself. -/
def Undisturbed (original : Cfg) (returns : Label -> Label -> Prop) (entryLabel : Label) : Prop :=
  forall taken label, LeastFirst original.Within entryLabel (label :: taken) ->
    forall prev, returns label prev -> cloneLabel [] prev ∉ label :: taken

/-- A walk does not take the label behind the call after an exit. -/
def ReturnsAhead (original : Cfg) (entryLabel exitTo : Label) : Prop :=
  forall taken, LeastFirst original.Within entryLabel (exitTo :: taken) ->
    ∀ source ∈ taken, Label.exit ∉ original.children source

/-- A function that a walk clones as the original graph has it: it has no
expanded call, only exits leave it, and no clones that return into it have
clones of their own. -/
structure Clonable (original : Cfg) (expanded : Set Label) (returns : Label -> Label -> Prop)
    (entryLabel : Label) : Prop where
  plain : forall label, label ∈ original.functionOf entryLabel ->
    label.stackFramePrefix = [] ∧ label.specialLabel = []
  notExit : entryLabel ≠ Label.exit
  notExpanded : forall label, label ∈ original.functionOf entryLabel -> label ∉ expanded
  leaves : forall label, label ∈ original.functionOf entryLabel ->
    Label.exit ∈ original.children label ->
    exists ins, (original.instructions label).cmd = .exit ins
  exits : forall label ins next, label ∈ original.functionOf entryLabel ->
    (original.instructions label).cmd = .exit ins -> next ∈ original.children label ->
    next = Label.exit
  undisturbed : Undisturbed original returns entryLabel

theorem Clonable.ne_exit {original : Cfg} {expanded : Set Label} {returns : Label -> Label -> Prop}
    {entryLabel label : Label} (clonable : Clonable original expanded returns entryLabel)
    (member : label ∈ original.functionOf entryLabel) : label ≠ Label.exit := by
  rcases Relation.ReflTransGen.cases_tail member with rfl | ⟨_, _, within⟩
  · exact clonable.notExit
  · exact within.2

theorem cloneLabel_injective {stackFramePrefix : List Char} {left right : Label}
    (leftPlain : left.stackFramePrefix = [] ∧ left.specialLabel = [])
    (rightPlain : right.stackFramePrefix = [] ∧ right.specialLabel = [])
    (same : cloneLabel stackFramePrefix left = cloneLabel stackFramePrefix right) :
    left = right := by
  cases left
  cases right
  simp only [cloneLabel, Label.mk.injEq] at same leftPlain rightPlain ⊢
  exact ⟨leftPlain.1.trans rightPlain.1.symm, same.2.1, same.2.2.1,
    leftPlain.2.trans rightPlain.2.symm⟩

theorem cloneLabel_nil {stackFramePrefix : List Char} {label : Label}
    (plain : label.stackFramePrefix = [] ∧ label.specialLabel = []) :
    cloneLabel [] (cloneLabel stackFramePrefix label) = label := by
  cases label
  simp only [cloneLabel, Label.mk.injEq, true_and] at plain ⊢
  exact ⟨plain.1.symm, plain.2.symm⟩

/-! ## Labels whose depth counts the open frames -/

/-- A set of labels that is closed under the edges of the graph and whose
depths follow the changes of frames, up to some calls that are still to be
expanded: these lead past their callee. -/
structure Disciplined (labels pending : Set Label) (cfg : Cfg) : Prop where
  mem : forall label, label ∈ labels -> label ∈ cfg.labels
  entry : Label.entry ∈ labels
  step : forall label next, label ∈ labels -> label ∉ pending -> next ∈ cfg.children label ->
    next ∈ labels ∧ next.callStackDepth = label.callStackDepth + frameShift
    (cfg.instructions label).cmd
  pendingMem : forall label, label ∈ pending -> label ∈ labels
  pendingCall : forall label, label ∈ pending ->
    IsCaller label ∧ exists call, (cfg.instructions label).cmd = .callLocal call
  pendingStep : forall label next, label ∈ pending -> next ∈ cfg.children label ->
    next ∈ labels ∧ next.callStackDepth = label.callStackDepth
  owner : forall label, label ∈ labels -> label.stackFramePrefix ≠ [] ->
    exists caller, caller ∈ labels ∧ caller ∉ pending ∧ IsCaller caller ∧
    caller.text = label.stackFramePrefix
  depth : forall label, label ∈ labels -> label.callStackDepth ≤ maxCallStackFrames

namespace Disciplined

variable {labels pending : Set Label} {cfg next : Cfg} {caller exitTo : Label}

/-- No label of the set is inside a call that is not an expanded one. -/
theorem not_inside (disciplined : Disciplined labels pending cfg) (isCaller : IsCaller caller)
    (notExpanded : caller ∈ labels -> caller ∈ pending) {stackFramePrefix : List Char}
    (inside : Inside caller stackFramePrefix) :
    forall label, label ∈ labels -> label.stackFramePrefix ≠ stackFramePrefix := by
  induction inside with
  | own =>
      intro label member same
      rcases disciplined.owner label member (same ▸ isCaller.text_ne_nil) with
        ⟨owner, ownerMember, notPending, isOwner, text⟩
      have isSame := isOwner.text_injective isCaller (text.trans same)
      exact notPending (isSame ▸ notExpanded (isSame ▸ ownerMember))
  | @nested inner _ isInner inductionHypothesis =>
      intro label member same
      rcases disciplined.owner label member (same ▸ isInner.text_ne_nil) with
        ⟨owner, ownerMember, _, isOwner, text⟩
      exact inductionHypothesis owner ownerMember
        (congrArg Label.stackFramePrefix (isOwner.text_injective isInner (text.trans same)))

/-- The expansion of a call outside the set leaves the set alone. -/
theorem extends_outside (disciplined : Disciplined labels pending cfg) (isCaller : IsCaller caller)
    (outside : caller ∉ labels) (extension : Extends caller exitTo cfg next) :
    Disciplined labels pending next := by
  have untouched : forall label, label ∈ labels -> label ≠ caller ∧
      ¬ Inside caller label.stackFramePrefix := by
    intro label member
    refine ⟨fun same => outside (same ▸ member), fun inside => ?_⟩
    exact disciplined.not_inside isCaller (fun inSet => absurd inSet outside) inside
      label member rfl
  have children : forall label, label ∈ labels -> forall target,
      target ∈ next.children label ↔ target ∈ cfg.children label :=
    fun label member => extension.children label (untouched label member).1
      (untouched label member).2
  have instructions : forall label, label ∈ labels ->
      next.instructions label = cfg.instructions label :=
    fun label member => extension.instructions label (untouched label member).1
      (untouched label member).2
  refine
    { mem := fun label member => extension.labels label (disciplined.mem label member),
      entry := disciplined.entry
      step := ?_, pendingMem := disciplined.pendingMem, pendingCall := ?_, pendingStep := ?_
      owner := disciplined.owner, depth := disciplined.depth }
  · intro label target member notPending child
    rw [instructions label member]
    exact disciplined.step label target member notPending ((children label member target).mp child)
  · intro label isPending
    rw [instructions label (disciplined.pendingMem label isPending)]
    exact disciplined.pendingCall label isPending
  · intro label target isPending child
    exact disciplined.pendingStep label target isPending
      ((children label (disciplined.pendingMem label isPending) target).mp child)

end Disciplined

/-! ## Edges that one round adds -/

section Round

variable {caller exitTo label macroLabel : Label} {cfg next : Cfg} {stackFramePrefix : List Char}

theorem connectPrevs_spec {prevs : List Label}
    (run : cfg.connectPrevs stackFramePrefix label prevs = .ok next) :
    next.labels = cfg.labels ∧ next.instructions = cfg.instructions ∧
      forall source target, target ∈ next.children source ↔ target ∈ cfg.children source ∨
        (target = label ∧ source ∈ cfg.labels ∧ exists prev, prev ∈ prevs ∧
        source = cloneLabel stackFramePrefix prev) := by
  induction prevs generalizing cfg with
  | nil =>
      cases run
      exact ⟨rfl, rfl, fun source target => by simp⟩
  | cons prev rest inductionHypothesis =>
      rcases bind_eq_ok.mp run with ⟨middle, connected, later⟩
      rcases inductionHypothesis later with ⟨labels, instructions, children⟩
      unfold connectPrev at connected
      split at connected
      · rename_i present
        rcases addChild_eq_ok.mp connected with ⟨_, rfl⟩
        refine ⟨labels, instructions, ?_⟩
        intro source target
        rw [children, mem_withEdge_children, withEdge_labels]
        constructor
        · rintro ((old | ⟨rfl, rfl⟩) | ⟨same, member, other, isOther, form⟩)
          · exact Or.inl old
          · exact Or.inr ⟨rfl, present, prev, List.mem_cons_self, rfl⟩
          · exact Or.inr ⟨same, member, other, List.mem_cons_of_mem _ isOther, form⟩
        · rintro (old | ⟨same, member, other, isOther, form⟩)
          · exact Or.inl (Or.inl old)
          · rcases List.mem_cons.mp isOther with rfl | later
            · exact Or.inl (Or.inr ⟨form, same⟩)
            · exact Or.inr ⟨same, member, other, later, form⟩
      · rename_i absent
        cases connected
        refine ⟨labels, instructions, ?_⟩
        intro source target
        rw [children]
        refine or_congr_right (and_congr_right fun _ => and_congr_right fun member => ?_)
        constructor
        · rintro ⟨other, isOther, form⟩
          exact ⟨other, List.mem_cons_of_mem _ isOther, form⟩
        · rintro ⟨other, isOther, form⟩
          rcases List.mem_cons.mp isOther with rfl | later
          · exact absurd (form ▸ member) absent
          · exact ⟨other, later, form⟩

theorem enterCallee_spec {first : Bool}
    (run : cfg.enterCallee first caller label = .ok next) :
    next.labels = cfg.labels ∧ next.instructions = cfg.instructions ∧
      forall source target, target ∈ next.children source ->
        target ∈ cfg.children source ∨ (source = caller ∧ target = label ∧ first = true) := by
  cases first with
  | false =>
      cases run
      exact ⟨rfl, rfl, fun _ _ child => Or.inl child⟩
  | true =>
      rcases addChild_eq_ok.mp run with ⟨_, rfl⟩
      refine ⟨rfl, rfl, ?_⟩
      intro source target child
      exact ((mem_withEdge_children _ _ _).mp child).imp_right (fun both => ⟨both.1, both.2, rfl⟩)

/-- What the loop over the successors of a label does: an edge to the return
label for the exit, and the other successors become part of the work set. -/
structure SuccessorsWalked (macroLabel label exitTo : Label) (successors : List Label)
    (before after : WalkState) :
    Prop where
  labels : after.cfg.labels = before.cfg.labels
  instructions : after.cfg.instructions = before.cfg.instructions
  first : after.first = before.first
  children : forall source target, target ∈ after.cfg.children source ->
    target ∈ before.cfg.children source ∨
    (source = label ∧ target = exitTo ∧ Label.exit ∈ successors)
  macroLabels : forall next, next ∈ after.macroLabels ->
    next ∈ before.macroLabels ∨ (next ∈ successors ∧ next ≠ Label.exit)
  seen : forall next, next ∈ before.seenLabels -> next ∈ after.seenLabels
  newSeen : forall next, next ∈ after.seenLabels -> next ∈ before.seenLabels ∨ next = macroLabel
  unseen : forall next, next ∈ successors -> next ≠ Label.exit ->
    next ∈ before.seenLabels ∨ macroLabel ∈ after.seenLabels
  oldWork : forall next, next ∈ before.macroLabels -> next ∈ after.macroLabels
  newWork : forall next, next ∈ successors -> next ≠ Label.exit -> next ≠ macroLabel ->
    next ∈ before.seenLabels ∨ next ∈ after.macroLabels

theorem walkSuccessors_spec {successors : List Label} {state final : WalkState}
    (run : walkSuccessors macroLabel label exitTo successors state = .ok final) :
    SuccessorsWalked macroLabel label exitTo successors state final := by
  induction successors generalizing state with
  | nil =>
      cases run
      exact
        { labels := rfl, instructions := rfl,
          first := rfl, children := fun _ _ child => Or.inl child
          macroLabels := fun _ member => Or.inl member, seen := fun _ member => member
          newSeen := fun _ member => Or.inl member,
          unseen := fun _ member => absurd member List.not_mem_nil
          oldWork := fun _ member => member,
          newWork := fun _ member => absurd member List.not_mem_nil }
  | cons successor rest inductionHypothesis =>
      rcases bind_eq_ok.mp run with ⟨middle, step, later⟩
      have spec := inductionHypothesis later
      unfold walkSuccessor at step
      split at step
      · rename_i isExit
        rcases bind_eq_ok.mp step with ⟨added, adding, same⟩
        cases same
        rcases addChild_eq_ok.mp adding with ⟨_, rfl⟩
        refine
          { labels := spec.labels, instructions := spec.instructions,
            first := spec.first, children := ?_
            macroLabels := ?_, seen := spec.seen, newSeen := spec.newSeen, unseen := ?_,
            oldWork := spec.oldWork
            newWork := ?_ }
        · intro source target child
          rcases spec.children source target child with old | ⟨isLabel, isReturn, exits⟩
          · rcases (mem_withEdge_children _ _ _).mp old with older | ⟨rfl, rfl⟩
            · exact Or.inl older
            · exact Or.inr ⟨rfl, rfl, isExit ▸ List.mem_cons_self⟩
          · exact Or.inr ⟨isLabel, isReturn, List.mem_cons_of_mem _ exits⟩
        · intro next member
          exact (spec.macroLabels next member).imp_right
            (fun both => ⟨List.mem_cons_of_mem _ both.1, both.2⟩)
        · intro next member notExit
          rcases List.mem_cons.mp member with rfl | inRest
          · exact absurd isExit notExit
          · exact spec.unseen next inRest notExit
        · intro next member notExit different
          rcases List.mem_cons.mp member with rfl | inRest
          · exact absurd isExit notExit
          · exact spec.newWork next inRest notExit different
      · rename_i notExit
        split at step
        · cases step
          refine
            { labels := spec.labels, instructions := spec.instructions,
              first := spec.first, children := ?_
              macroLabels := ?_, seen := ?_, newSeen := ?_, unseen := ?_, oldWork := ?_,
              newWork := ?_ }
          · intro source target child
            exact (spec.children source target child).imp_right
              (fun found => ⟨found.1, found.2.1, List.mem_cons_of_mem _ found.2.2⟩)
          · intro next member
            rcases spec.macroLabels next member with old | ⟨inRest, other⟩
            · rcases OrderedSet.mem_insert.mp old with rfl | older
              · exact Or.inr ⟨List.mem_cons_self, notExit⟩
              · exact Or.inl older
            · exact Or.inr ⟨List.mem_cons_of_mem _ inRest, other⟩
          · exact fun next member => spec.seen next (OrderedSet.mem_insert.mpr (Or.inr member))
          · intro next member
            rcases spec.newSeen next member with old | same
            · exact (OrderedSet.mem_insert.mp old).symm
            · exact Or.inr same
          · exact fun next _ _ => Or.inr
              (spec.seen macroLabel (OrderedSet.mem_insert.mpr (Or.inl rfl)))
          · exact fun next member => spec.oldWork next (OrderedSet.mem_insert.mpr (Or.inr member))
          · intro next member other different
            rcases List.mem_cons.mp member with rfl | inRest
            · exact Or.inr (spec.oldWork next (OrderedSet.mem_insert.mpr (Or.inl rfl)))
            · rcases spec.newWork next inRest other different with old | new
              · exact Or.inl ((OrderedSet.mem_insert.mp old).resolve_left different)
              · exact Or.inr new
        · rename_i wasSeen
          cases step
          refine
            { labels := spec.labels, instructions := spec.instructions,
              first := spec.first, children := ?_
              macroLabels := ?_, seen := spec.seen, newSeen := spec.newSeen, unseen := ?_,
              oldWork := spec.oldWork
              newWork := ?_ }
          · intro source target child
            exact (spec.children source target child).imp_right
              (fun found => ⟨found.1, found.2.1, List.mem_cons_of_mem _ found.2.2⟩)
          · intro next member
            exact (spec.macroLabels next member).imp_right
              (fun both => ⟨List.mem_cons_of_mem _ both.1, both.2⟩)
          · intro next member other
            rcases List.mem_cons.mp member with rfl | inRest
            · exact Or.inl (not_not.mp wasSeen)
            · exact spec.unseen next inRest other
          · intro next member other different
            rcases List.mem_cons.mp member with rfl | inRest
            · exact Or.inl (not_not.mp wasSeen)
            · exact spec.newWork next inRest other different

/-- A round needs a label without a clone, and keeps the work and the labels. -/
theorem walkLabel_keeps {state final : WalkState}
    (run : walkLabel caller stackFramePrefix exitTo macroLabel state = .ok final) :
    cloneLabel stackFramePrefix macroLabel ∉ state.cfg.labels ∧
      (∀ label ∈ state.cfg.labels, label ∈ final.cfg.labels) ∧
        ∀ label ∈ state.macroLabels, label ∈ final.macroLabels := by
  rcases walkLabel_eq_ok run with ⟨inserted, entered, connected, _, _, first, second, third, last⟩
  have walked := walkSuccessors_spec last
  have insertedLabels := (enterCallee_spec second).1
  have connectedLabels := (connectPrevs_spec third).1
  rcases insert_eq_ok.mp first with ⟨fresh, rfl⟩
  refine ⟨fresh, fun label member => ?_, walked.oldWork⟩
  rw [walked.labels]
  dsimp only
  rw [connectedLabels, insertedLabels, withLabel_labels]
  exact OrderedSet.mem_insert.mpr (Or.inr member)

/-- No label of the work set has a clone yet in a walk that is completed. -/
theorem walk_fresh {fuel : Nat} {state final : WalkState}
    (run : walk caller stackFramePrefix exitTo fuel state = .ok final) :
    ∀ label ∈ state.macroLabels, cloneLabel stackFramePrefix label ∉ state.cfg.labels := by
  induction fuel generalizing state with
  | zero =>
      unfold walk at run
      split at run
      · rename_i empty
        exact fun label member => absurd member (OrderedSet.least?_eq_none.mp empty label)
      · cases run
  | succ fuel inductionHypothesis =>
      unfold walk at run
      split at run
      · rename_i empty
        exact fun label member => absurd member (OrderedSet.least?_eq_none.mp empty label)
      · rename_i found _
        rcases bind_eq_ok.mp run with ⟨next, step, later⟩
        rcases walkLabel_keeps step with ⟨fresh, labels, work⟩
        intro label member
        by_cases same : label = found
        · exact same ▸ fresh
        · have inNext := work label (OrderedSet.mem_erase.mpr ⟨member, same⟩)
          exact fun old => inductionHypothesis later label inNext (labels _ old)

end Round

end Cfg
end Prevail
