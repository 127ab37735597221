import Prevail.Cfg.Inline
import Prevail.Asm.LabelText

namespace Prevail
namespace Cfg

/-!
# What the expansion of a call can change

`add_cfg_nodes` gives the nodes of the callee the text of the call label as
their prefix, and does the same again for the calls among them.  Whatever the
graph looks like, it changes the edges and the instruction of the call itself
and of labels inside the frames below it, and nothing else.
-/

/-- A label that can name a frame. -/
structure IsCaller (caller : Label) : Prop where
  notEntry : caller ≠ Label.entry
  notExit : caller ≠ Label.exit
  special : caller.specialLabel = []

/-- The prefixes of the frames that the expansion of a call creates. -/
inductive Inside (caller : Label) : List Char -> Prop where
  | own : Inside caller caller.text
  | nested {inner : Label} (outer : Inside caller inner.stackFramePrefix)
    (isCaller : IsCaller inner) :
      Inside caller inner.text

theorem IsCaller.text_ne_nil {caller : Label} (isCaller : IsCaller caller) : caller.text ≠ [] :=
  Label.text_ne_nil isCaller.notEntry isCaller.notExit isCaller.special

theorem IsCaller.text_injective {left right : Label} (isLeft : IsCaller left)
    (isRight : IsCaller right) (same : left.text = right.text) : left = right :=
  Label.text_injective isLeft.notEntry isLeft.notExit isLeft.special isRight.notEntry
    isRight.notExit
    isRight.special same

theorem IsCaller.stackFramePrefix_ne {caller : Label} (isCaller : IsCaller caller) :
    caller.stackFramePrefix ≠ caller.text := by
  intro same
  have deeper := Label.two_add_delimiters_text isCaller.notEntry isCaller.notExit isCaller.special
  have nonempty : caller.stackFramePrefix ≠ [] := same ▸ isCaller.text_ne_nil
  rw [Label.callStackDepth, if_neg nonempty, same] at deeper
  omega

theorem Inside.ne_nil {caller : Label} {stackFramePrefix : List Char}
    (inside : Inside caller stackFramePrefix)
    (isCaller : IsCaller caller) : stackFramePrefix ≠ [] := by
  cases inside with
  | own => exact isCaller.text_ne_nil
  | nested _ isInner => exact isInner.text_ne_nil

theorem Inside.trans {caller inner : Label} {stackFramePrefix : List Char}
    (inside : Inside inner stackFramePrefix) (isInner : IsCaller inner)
    (outer : Inside caller inner.stackFramePrefix) : Inside caller stackFramePrefix := by
  induction inside with
  | own => exact outer.nested isInner
  | nested _ isCaller inductionHypothesis => exact inductionHypothesis.nested isCaller

/-- The clone of a label names a frame when it has a prefix. -/
theorem isCaller_clone {stackFramePrefix : List Char} (nonempty : stackFramePrefix ≠ [])
    (label : Label) :
    IsCaller (cloneLabel stackFramePrefix label) where
  notEntry same := nonempty (congrArg Label.stackFramePrefix same)
  notExit same := nonempty (congrArg Label.stackFramePrefix same)
  special := rfl

/-- The second graph arises from the first by operations on a call and on
labels inside it, where `exitTo` is the label to which the callee returns. -/
structure Extends (caller exitTo : Label) (before after : Cfg) : Prop where
  wellFormed : after.WellFormed
  labels : forall label, label ∈ before.labels -> label ∈ after.labels
  edges : forall source target, target ∈ after.children source ->
    target ∈ before.children source ∨ (source = caller ∧ target.stackFramePrefix = caller.text) ∨
      (Inside caller source.stackFramePrefix ∧
        (Inside caller target.stackFramePrefix ∨ target = exitTo ∨
          exists other, Inside caller other.stackFramePrefix ∧ target ∈ before.children other))
  children : forall source, source ≠ caller -> ¬ Inside caller source.stackFramePrefix ->
    forall target, target ∈ after.children source ↔ target ∈ before.children source
  instructions : forall label, label ≠ caller -> ¬ Inside caller label.stackFramePrefix ->
    after.instructions label = before.instructions label

namespace Extends

variable {caller exitTo : Label} {before middle after : Cfg}

theorem refl (wellFormed : before.WellFormed) : Extends caller exitTo before before where
  wellFormed := wellFormed
  labels _ member := member
  edges _ _ child := Or.inl child
  children _ _ _ _ := Iff.rfl
  instructions _ _ _ := rfl

theorem trans (first : Extends caller exitTo before middle)
    (second : Extends caller exitTo middle after) :
    Extends caller exitTo before after where
  wellFormed := second.wellFormed
  labels label member := second.labels label (first.labels label member)
  edges source target child := by
    rcases second.edges source target child with old | isCaller | ⟨inside, leads⟩
    · exact first.edges source target old
    · exact Or.inr (Or.inl isCaller)
    · right; right
      refine ⟨inside, ?_⟩
      rcases leads with toInside | isExit | ⟨other, otherInside, otherChild⟩
      · exact Or.inl toInside
      · exact Or.inr (Or.inl isExit)
      · rcases first.edges other target otherChild with old | ⟨_, toCallee⟩ | ⟨_, firstTo⟩
        · exact Or.inr (Or.inr ⟨other, otherInside, old⟩)
        · exact Or.inl (toCallee ▸ Inside.own)
        · exact firstTo
  children source notCaller outside target :=
    (second.children source notCaller outside target).trans
      (first.children source notCaller outside target)
  instructions label notCaller outside :=
    (second.instructions label notCaller outside).trans (first.instructions label notCaller outside)

/-- A new label inside the call. -/
theorem withLabel {label : Label} (wellFormed : before.WellFormed) (fresh : label ∉ before.labels)
    (inside : Inside caller label.stackFramePrefix) (ins : GuardedInstruction) :
    Extends caller exitTo before (before.withLabel label ins) where
  wellFormed := wellFormed.withLabel fresh ins
  labels other member := OrderedSet.mem_insert.mpr (Or.inr member)
  edges source target child := Or.inl ((wellFormed.mem_withLabel_children fresh ins).mp child)
  children source _ _ target := wellFormed.mem_withLabel_children fresh ins
  instructions other _ outside := by
    have different : other ≠ label := fun same => outside (same ▸ inside)
    rw [withLabel_instructions, Function.update_of_ne different]

/-- A new edge from the call into the callee, or out of a label inside the
call. -/
theorem withEdge {a b : Label} (wellFormed : before.WellFormed) (source : a ∈ before.labels)
    (target : b ∈ before.labels)
    (allowed : (a = caller ∧ b.stackFramePrefix = caller.text) ∨
      (Inside caller a.stackFramePrefix ∧ (Inside caller b.stackFramePrefix ∨ b = exitTo))) :
    Extends caller exitTo before (before.withEdge a b) where
  wellFormed := wellFormed.withEdge source target
  labels _ member := member
  edges u v child := by
    rcases (mem_withEdge_children before a b).mp child with old | ⟨rfl, rfl⟩
    · exact Or.inl old
    · rcases allowed with isCaller | ⟨inside, leads⟩
      · exact Or.inr (Or.inl isCaller)
      · exact Or.inr (Or.inr ⟨inside, leads.imp_right Or.inl⟩)
  children u notCaller outside v := by
    rw [mem_withEdge_children]
    refine or_iff_left ?_
    rintro ⟨rfl, _⟩
    rcases allowed with isCaller | inside
    · exact notCaller isCaller.1
    · exact outside inside.1
  instructions _ _ _ := rfl

theorem withoutEdge (wellFormed : before.WellFormed) (target : Label) :
    Extends caller exitTo before (before.withoutEdge caller target) where
  wellFormed := wellFormed.withoutEdge caller target
  labels _ member := member
  edges source other child := Or.inl ((mem_withoutEdge_children before caller target).mp child).1
  children source notCaller _ other := by
    rw [mem_withoutEdge_children]
    exact and_iff_left (fun both => notCaller both.1)
  instructions _ _ _ := rfl

theorem setInstruction (wellFormed : before.WellFormed) (ins : GuardedInstruction) :
    Extends caller exitTo before (before.setInstruction caller ins) where
  wellFormed := wellFormed.setInstruction caller ins
  labels _ member := member
  edges _ _ child := Or.inl child
  children _ _ _ _ := Iff.rfl
  instructions label notCaller _ := by
    simp [Cfg.setInstruction, notCaller]

theorem addChild {a b : Label} (wellFormed : before.WellFormed)
    (allowed : (a = caller ∧ b.stackFramePrefix = caller.text) ∨
      (Inside caller a.stackFramePrefix ∧ (Inside caller b.stackFramePrefix ∨ b = exitTo)))
    (run : before.addChild a b = .ok after) : Extends caller exitTo before after := by
  rcases addChild_eq_ok.mp run with ⟨⟨source, target⟩, rfl⟩
  exact withEdge wellFormed source target allowed

theorem insert {label : Label} {ins : GuardedInstruction} (wellFormed : before.WellFormed)
    (inside : Inside caller label.stackFramePrefix) (run : before.insert label ins = .ok after) :
    Extends caller exitTo before after := by
  rcases insert_eq_ok.mp run with ⟨fresh, rfl⟩
  exact withLabel wellFormed fresh inside ins

/-- The expansion of a call inside the call, which returns to a label that one
of the frames leads to. -/
theorem ofInner {inner innerExit : Label} (extends_ : Extends inner innerExit before after)
    (inside : Inside caller inner.stackFramePrefix) (isInner : IsCaller inner)
    (returns : innerExit ∈ before.children inner) : Extends caller exitTo before after where
  wellFormed := extends_.wellFormed
  labels := extends_.labels
  edges source target child := by
    rcases extends_.edges source target child with old | ⟨rfl, toCallee⟩ | ⟨fromInner, leads⟩
    · exact Or.inl old
    · exact Or.inr (Or.inr ⟨inside, Or.inl (toCallee ▸ inside.nested isInner)⟩)
    · right; right
      refine ⟨fromInner.trans isInner inside, ?_⟩
      rcases leads with toInside | rfl | ⟨other, otherInside, otherChild⟩
      · exact Or.inl (toInside.trans isInner inside)
      · exact Or.inr (Or.inr ⟨inner, inside, returns⟩)
      · exact Or.inr (Or.inr ⟨other, otherInside.trans isInner inside, otherChild⟩)
  children source _ outside target := by
    refine extends_.children source ?_ ?_ target
    · exact fun same => outside (same ▸ inside)
    · exact fun within => outside (within.trans isInner inside)
  instructions label _ outside := by
    refine extends_.instructions label ?_ ?_
    · exact fun same => outside (same ▸ inside)
    · exact fun within => outside (within.trans isInner inside)

end Extends

/-! ## The operations of an expansion -/

section Operations

variable {caller exitTo label macroLabel : Label} {cfg next : Cfg}

theorem enterCallee_extends {first : Bool} (wellFormed : cfg.WellFormed)
    (callee : label.stackFramePrefix = caller.text)
    (run : cfg.enterCallee first caller label = .ok next) :
    Extends caller exitTo cfg next := by
  cases first with
  | false =>
      cases run
      exact Extends.refl wellFormed
  | true => exact Extends.addChild wellFormed (Or.inl ⟨rfl, callee⟩) run

theorem connectPrevs_extends {prevs : List Label} (wellFormed : cfg.WellFormed)
    (callee : label.stackFramePrefix = caller.text)
    (run : cfg.connectPrevs caller.text label prevs = .ok next) :
    Extends caller exitTo cfg next := by
  induction prevs generalizing cfg with
  | nil =>
      cases run
      exact Extends.refl wellFormed
  | cons prev rest inductionHypothesis =>
      rcases bind_eq_ok.mp run with ⟨middle, connected, later⟩
      have first : Extends caller exitTo cfg middle := by
        unfold connectPrev at connected
        split at connected
        · exact Extends.addChild wellFormed
            (Or.inr ⟨Inside.own, Or.inl (callee ▸ Inside.own)⟩) connected
        · cases connected
          exact Extends.refl wellFormed
      exact first.trans (inductionHypothesis first.wellFormed later)

theorem walkSuccessors_extends {successors : List Label} {state final : WalkState}
    (wellFormed : state.cfg.WellFormed) (callee : label.stackFramePrefix = caller.text)
    (run : walkSuccessors macroLabel label exitTo successors state = .ok final) :
    Extends caller exitTo state.cfg final.cfg := by
  induction successors generalizing state with
  | nil =>
      cases run
      exact Extends.refl wellFormed
  | cons successor rest inductionHypothesis =>
      rcases bind_eq_ok.mp run with ⟨middle, step, later⟩
      have first : Extends caller exitTo state.cfg middle.cfg := by
        unfold walkSuccessor at step
        split at step
        · rcases bind_eq_ok.mp step with ⟨added, adding, same⟩
          cases same
          exact Extends.addChild wellFormed (Or.inr ⟨callee ▸ Inside.own, Or.inr rfl⟩) adding
        · split at step
          · cases step
            exact Extends.refl wellFormed
          · cases step
            exact Extends.refl wellFormed
      exact first.trans (inductionHypothesis first.wellFormed later)

theorem walkLabel_extends {state final : WalkState} (wellFormed : state.cfg.WellFormed)
    (run : walkLabel caller caller.text exitTo macroLabel state = .ok final) :
    Extends caller exitTo state.cfg final.cfg := by
  rcases walkLabel_eq_ok run with ⟨inserted, entered, connected, _, _, first, second, third, last⟩
  have insertedExtends : Extends caller exitTo state.cfg inserted :=
    Extends.insert wellFormed Inside.own first
  have enteredExtends : Extends caller exitTo _ entered :=
    enterCallee_extends insertedExtends.wellFormed rfl second
  have connectedExtends : Extends caller exitTo entered connected :=
    connectPrevs_extends enteredExtends.wellFormed rfl third
  have lastExtends : Extends caller exitTo
      ({ state with cfg := connected, first := false } : WalkState).cfg
      final.cfg := walkSuccessors_extends connectedExtends.wellFormed rfl last
  exact insertedExtends.trans (enteredExtends.trans (connectedExtends.trans lastExtends))

theorem walk_extends {fuel : Nat} {state final : WalkState} (wellFormed : state.cfg.WellFormed)
    (run : walk caller caller.text exitTo fuel state = .ok final) :
    Extends caller exitTo state.cfg final.cfg := by
  induction fuel generalizing state with
  | zero =>
      unfold walk at run
      split at run
      · cases run
        exact Extends.refl wellFormed
      · cases run
  | succ fuel inductionHypothesis =>
      unfold walk at run
      split at run
      · cases run
        exact Extends.refl wellFormed
      · rename_i macroLabel _
        rcases bind_eq_ok.mp run with ⟨next, step, later⟩
        have taken : ({ state with macroLabels := state.macroLabels.erase macroLabel } :
          WalkState).cfg.WellFormed :=
          wellFormed
        have first := walkLabel_extends taken step
        exact first.trans (inductionHypothesis first.wellFormed later)

/-- The steps of the expansion of one call, in order. -/
theorem expandCall_eq_ok {entryLabel : Label} {seen : OrderedSet Label}
    (run : expandCall caller entryLabel cfg = .ok (next, seen)) :
    exists exitTo stored final fuel,
      caller ∈ cfg.labels ∧ (cfg.children caller).elements = [exitTo] ∧
      cfg.storePrefix caller caller.text = .ok stored ∧
      walk caller caller.text exitTo fuel
        ⟨stored, OrderedSet.singleton entryLabel, OrderedSet.singleton entryLabel,
        true⟩ = .ok final ∧
      next = final.cfg.withoutEdge caller exitTo ∧ seen = final.seenLabels := by
  rcases bind_eq_ok.mp run with ⟨exitTo, child, afterChild⟩
  rcases bind_eq_ok.mp afterChild with ⟨stored, store, afterStore⟩
  rcases bind_eq_ok.mp afterStore with ⟨final, walked, afterWalk⟩
  rcases bind_eq_ok.mp afterWalk with ⟨removed, removal, returned⟩
  cases returned
  rcases getChild_eq_ok child with ⟨member, elements⟩
  exact ⟨exitTo, stored, final, _, member, elements, store, walked,
    (removeChild_eq_ok removal).2, rfl⟩

theorem storePrefix_eq_ok {stackFramePrefix : List Char}
    (run : cfg.storePrefix caller stackFramePrefix = .ok next) :
    next = cfg ∨ exists call : CallLocal, (cfg.instructions caller).cmd = .callLocal call ∧
      next = cfg.setInstruction caller { cfg.instructions caller with
        cmd := .callLocal { call with stackFramePrefix := stackFramePrefix } } := by
  rcases bind_eq_ok.mp run with ⟨ins, read, stored⟩
  split at stored
  · rename_i call
    cases stored
    exact Or.inr ⟨call, (instructionAt_eq_ok read).2.symm, rfl⟩
  · cases stored
    exact Or.inl rfl

theorem storePrefix_extends (wellFormed : cfg.WellFormed) {stackFramePrefix : List Char}
    (run : cfg.storePrefix caller stackFramePrefix = .ok next) :
    Extends caller exitTo cfg next := by
  rcases storePrefix_eq_ok run with rfl | ⟨call, _, rfl⟩
  · exact Extends.refl wellFormed
  · exact Extends.setInstruction wellFormed _

theorem expandCall_extends {entryLabel : Label} {seen : OrderedSet Label}
    (wellFormed : cfg.WellFormed) (run : expandCall caller entryLabel cfg = .ok (next, seen)) :
    exists exitTo, exitTo ∈ cfg.children caller ∧ Extends caller exitTo cfg next := by
  rcases expandCall_eq_ok run with ⟨exitTo, stored, final, fuel, _, elements, store, walked, rfl, _⟩
  refine ⟨exitTo, ?_, ?_⟩
  · rw [OrderedSet.mem_def, elements]
    exact List.mem_singleton_self exitTo
  · have first : Extends caller exitTo cfg stored := storePrefix_extends wellFormed store
    have start : (⟨stored, OrderedSet.singleton entryLabel, OrderedSet.singleton entryLabel,
        true⟩ : WalkState).cfg.WellFormed :=
      first.wellFormed
    have second := walk_extends start walked
    exact first.trans (second.trans (Extends.withoutEdge second.wellFormed exitTo))

/-- The whole expansion of a call, nested calls included. -/
theorem addCfgNodes_extends (frames : Nat) : forall {caller entryLabel : Label} {cfg next : Cfg},
    IsCaller caller -> cfg.WellFormed -> addCfgNodes frames caller entryLabel cfg = .ok next ->
      exists exitTo, exitTo ∈ cfg.children caller ∧ Extends caller exitTo cfg next := by
  induction frames with
  | zero => exact fun _ _ run => by cases run
  | succ frames inductionHypothesis =>
      intro caller entryLabel cfg next isCaller wellFormed run
      rcases bind_eq_ok.mp run with ⟨⟨expanded, seen⟩, call, nested⟩
      rcases expandCall_extends wellFormed call with ⟨exitTo, returns, first⟩
      refine ⟨exitTo, returns, first.trans ?_⟩
      have inner : forall (macroLabels : List Label) (current : Cfg), current.WellFormed ->
          expandNested caller.text (addCfgNodes frames) macroLabels current = .ok next ->
            Extends caller exitTo current next := by
        intro macroLabels
        induction macroLabels with
        | nil =>
            intro current currentWellFormed done
            cases done
            exact Extends.refl currentWellFormed
        | cons macroLabel rest restHypothesis =>
            intro current currentWellFormed step
            rcases bind_eq_ok.mp step with ⟨ins, _, step⟩
            rcases bind_eq_ok.mp step with ⟨middle, clone, later⟩
            have isInner : IsCaller (cloneLabel caller.text macroLabel) :=
              isCaller_clone isCaller.text_ne_nil macroLabel
            have cloned : Extends caller exitTo current middle := by
              unfold expandClone at clone
              split at clone
              · split at clone
                · cases clone
                · rcases inductionHypothesis isInner currentWellFormed clone with
                    ⟨innerExit, innerReturns, deeper⟩
                  exact deeper.ofInner Inside.own isInner innerReturns
              · cases clone
                exact Extends.refl currentWellFormed
            exact cloned.trans (restHypothesis middle cloned.wellFormed later)
      exact inner seen.elements expanded first.wellFormed nested

end Operations

end Cfg
end Prevail
