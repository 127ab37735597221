import Prevail.Cfg.Callees
import Prevail.Cfg.Nesting
import Prevail.Wto.OuterHeads

namespace Prevail
namespace Cfg

/-!
# Branches and the start of loops

Behind a conditional jump `instruction_seq_to_cfg` puts two labels of their own, so that
a label with several children is the only parent of each of them.  The counters of loops
keep this.

A predecessor of a loop head that is strictly inside another loop has a successor there
besides the head.  Where branches own their children the head then has no predecessor in
its own loop, which is impossible.  So the nesting test picks exactly the predecessors
outside the loop.
-/

variable {cfg before after : Cfg} {prog : InstructionSeq} {mustHaveExit : Bool}

/-- A label with several children is the only parent of each of them. -/
def BranchesOwnChildren (cfg : Cfg) : Prop :=
  forall source child sibling, child ∈ cfg.children source -> sibling ∈ cfg.children source ->
    sibling ≠ child -> forall parent, child ∈ cfg.children parent -> parent = source

theorem startsOutside_of_branchesOwnChildren (wellFormed : cfg.WellFormed)
    (branches : cfg.BranchesOwnChildren) :
    cfg.StartsOutside := by
  intro fuel wto built components isCycle head first prev isPrev other
  have wellOrdered := Wto.build_wellOrdered (buildWto_eq_ok.mp built)
  refine (excludes_member_iff built isCycle first isPrev other).mpr ?_
  by_cases member : prev ∈ components.members
  · exact Or.inl member
  · refine Or.inr (Or.inr fun cycle listed inside notHead => ?_)
    by_contra apart
    rcases wellOrdered.ordered.headed cycle listed with ⟨own, isOwn⟩
    have different : prev ≠ own := fun same => notHead (same ▸ isOwn)
    -- The predecessor has a successor in its own cycle, and the head one in front of it
    -- in its cycle.
    rcases (Wto.build_returning (buildWto_eq_ok.mp built)).exists_successor listed isOwn inside
      different with
      ⟨next, isNext, nextInside⟩
    rcases wellOrdered.cyclic.exists_predecessor isCycle first with ⟨last, isLast, lastInside⟩
    have child : head ∈ cfg.children prev := (wellFormed.converse prev head).mpr isPrev
    have same : last = prev :=
      branches prev head next child isNext (fun same => apart (same ▸ nextInside)) last isLast
    exact member (same ▸ lastInside)

/-! ## The graph of the first pass -/

theorem isIndex_injective {left right : Label} (isLeft : left.IsIndex) (isRight : right.IsIndex)
    (same : left.fromIndex = right.fromIndex) : left = right := by
  cases left
  cases right
  rw [Label.mk.injEq]
  exact ⟨isLeft.1.trans isRight.1.symm, same, isLeft.3.trans isRight.3.symm,
    isLeft.4.trans isRight.4.symm⟩

theorem mem_jumpLabels_fromIndex {label fallthrough jump : Label} {ins : Instruction}
    (member : jump ∈ jumpLabels label fallthrough ins) : jump.fromIndex = label.fromIndex := by
  unfold jumpLabels at member
  split at member
  · split at member
    · split at member
      · cases member
      · simp only [List.mem_cons, List.not_mem_nil, or_false] at member
        rcases member with rfl | rfl <;> rfl
    · cases member
  · cases member

/-- A label between the ends of a jump has one successor. -/
theorem NodeConnected.jump_children {label fallthrough : Label} {ins : Instruction}
    (connected : cfg.NodeConnected label fallthrough ins) {jump : Label}
    (isJump : jump ∈ jumpLabels label fallthrough ins) :
    exists target, forall next, next ∈ cfg.children jump ↔ next = target := by
  unfold jumpLabels at isJump
  split at isJump
  · rename_i jmp
    split at isJump
    · rename_i isConditional
      split at isJump
      · cases isJump
      · rename_i different
        simp only [NodeConnected, isConditional, if_neg different] at connected
        simp only [List.mem_cons, List.not_mem_nil, or_false] at isJump
        rcases isJump with rfl | rfl
        · exact ⟨jmp.target, connected.taken⟩
        · exact ⟨fallthrough, connected.notTaken⟩
    · cases isJump
  · cases isJump

theorem FirstPassGraph.parent_of_jumpLabel (decoded : prog.Decoded)
    (graph : FirstPassGraph mustHaveExit prog cfg)
    {label parent jump : Label} {ins : Instruction} {rest : InstructionSeq}
    (suffix : (label, ins) :: rest <:+ prog)
    (isJump : jump ∈ jumpLabels label (InstructionSeq.fallthrough rest) ins)
    (child : jump ∈ cfg.children parent) :
    parent = label := by
  have notIndex := IsJumpLabel.toIndex_ne decoded.indexed ⟨label, ins, rest, suffix, isJump⟩
  have goes : forall {source} {found : Instruction} {behind}, (source, found) :: behind <:+ prog ->
      Defined found -> ¬ found.MayGoTo (InstructionSeq.fallthrough behind) jump := by
    intro source found behind isSuffix defined goesTo
    rcases flows_index decoded.indexed ⟨found, behind, isSuffix, defined, goesTo⟩ with
      isExit | index
    · exact notIndex (isExit ▸ rfl)
    · exact notIndex index.toIndex
  by_cases atEntry : parent = Label.entry
  · rcases graph.entry with ⟨first, found, behind, rfl, children⟩
    have same := (children jump).mp (atEntry ▸ child)
    exact absurd (same ▸ (decoded.indexed first found List.mem_cons_self).1.toIndex) notIndex
  · rcases graph.suffix_of_child atEntry child with ⟨found, behind, isSuffix, defined⟩ |
      ⟨source, found, behind, isSuffix, between⟩
    · rcases ((graph.connected parent found behind isSuffix).children_iff defined jump).mp
        child with own | ⟨_, goesTo⟩
      · refine isIndex_injective (decoded.indexed _ _ (isSuffix.subset List.mem_cons_self)).1
          (decoded.indexed _ _ (suffix.subset List.mem_cons_self)).1 ?_
        exact (mem_jumpLabels_fromIndex own).symm.trans (mem_jumpLabels_fromIndex isJump)
      · exact absurd goesTo (goes isSuffix defined)
    · have connected := graph.connected _ _ _ isSuffix
      rcases (connected.jump_assumes between).1 with ⟨jmp, rfl⟩
      exact absurd ((connected.jump_children_iff between jump).mp child).2
        (goes isSuffix (fun _ same => by cases same))

theorem FirstPassGraph.branchesOwnChildren (decoded : prog.Decoded)
    (graph : FirstPassGraph mustHaveExit prog cfg) :
    cfg.BranchesOwnChildren := by
  intro source child sibling isChild isSibling different parent isParent
  have single : forall {target}, (forall next, next ∈ cfg.children source ↔ next = target) ->
      False :=
    fun only => different (((only sibling).mp isSibling).trans ((only child).mp isChild).symm)
  by_cases atEntry : source = Label.entry
  · rcases graph.entry with ⟨_, _, _, _, only⟩
    exact (single (atEntry ▸ only)).elim
  · rcases graph.suffix_of_child atEntry isChild with ⟨ins, rest, suffix, defined⟩ |
      ⟨label, ins, rest, suffix, isJump⟩
    · rcases (graph.connected _ _ _ suffix).cases defined with ⟨target, only, _⟩ |
        ⟨cond, target, rfl, isBranch, branches⟩
      · exact (single only).elim
      · refine graph.parent_of_jumpLabel decoded suffix ?_ isParent
        simp only [jumpLabels, if_neg isBranch, List.mem_cons, List.not_mem_nil, or_false]
        exact (branches.children child).mp isChild
    · rcases (graph.connected _ _ _ suffix).jump_children isJump with ⟨target, only⟩
      exact (single only).elim

/-! ## The counters of loops -/

theorem InsertedAfter.branchesOwnChildren {prevLabel newLabel : Label} {ins : GuardedInstruction}
    (inserted : InsertedAfter prevLabel newLabel ins before after) (wellFormed : before.WellFormed)
    (branches : before.BranchesOwnChildren) : after.BranchesOwnChildren := by
  have old : forall {source target}, target ∈ before.children source -> target ≠ newLabel :=
    fun child same => inserted.fresh (same ▸ wellFormed.target _ _ child)
  -- Every label but the new one keeps its parents, among which the new one stands for
  -- the label before it.
  have parents : forall {parent target}, target ≠ newLabel -> target ∈ after.children parent ->
      target ∈ before.children (if parent = newLabel then prevLabel else parent) := by
    intro parent target notNew child
    by_cases isNew : parent = newLabel
    · rw [if_pos isNew]
      exact (inserted.newChildren target).mp (isNew ▸ child)
    · rw [if_neg isNew]
      by_cases isPrev : parent = prevLabel
      · exact absurd ((inserted.prevChildren target).mp (isPrev ▸ child)).1 notNew
      · exact (inserted.otherChildren parent target isPrev isNew).mp child
  intro source child sibling isChild isSibling different parent isParent
  by_cases isNew : child = newLabel
  · by_cases isPrev : source = prevLabel
    · subst isPrev
      exact absurd (((inserted.prevChildren sibling).mp isSibling).1.trans isNew.symm) different
    · by_cases atNew : source = newLabel
      · exact absurd isNew (old ((inserted.newChildren child).mp (atNew ▸ isChild)))
      · exact absurd isNew (old ((inserted.otherChildren source child isPrev atNew).mp isChild))
  · have siblingOld : sibling ≠ newLabel := by
      rintro rfl
      by_cases isPrev : source = prevLabel
      · exact isNew ((inserted.prevChildren child).mp (isPrev ▸ isChild)).1
      · by_cases atNew : source = sibling
        · exact old ((inserted.newChildren sibling).mp (atNew ▸ isSibling)) rfl
        · exact old ((inserted.otherChildren source sibling isPrev atNew).mp isSibling) rfl
    have same := branches _ child sibling (parents isNew isChild)
      (parents siblingOld isSibling) different _
      (parents isNew isParent)
    have notPrev : forall {other}, child ∈ after.children other -> other ≠ prevLabel := by
      rintro other isOther rfl
      exact isNew ((inserted.prevChildren child).mp isOther).1
    by_cases sourceNew : source = newLabel <;> by_cases parentNew : parent = newLabel
    · exact parentNew.trans sourceNew.symm
    · rw [if_pos sourceNew, if_neg parentNew] at same
      exact absurd same (notPrev isParent)
    · rw [if_neg sourceNew, if_pos parentNew] at same
      exact absurd same.symm (notPrev isChild)
    · rwa [if_neg sourceNew, if_neg parentNew] at same

theorem insertCounters_branchesOwnChildren {heads : List Label} (wellFormed : before.WellFormed)
    (branches : before.BranchesOwnChildren) (run : insertCounters heads before = .ok after) :
    after.BranchesOwnChildren := by
  induction heads generalizing before with
  | nil =>
      cases run
      exact branches
  | cons head rest inductionHypothesis =>
      rcases bind_eq_ok.mp run with ⟨middle, inserting, later⟩
      have inserted := insertAfter_spec wellFormed inserting
      exact inductionHypothesis inserted.wellFormed
        (inserted.branchesOwnChildren wellFormed branches) later

/-- The branches of every graph that `prepare_cfg` returns for a program without local
calls own their children. -/
theorem prepareCfg_branchesOwnChildren {isPrivileged : Bool}
    {options : PrepareCfgOptions} {fuel : Nat}
    (decoded : prog.Decoded) (noCalls : forall label call, (label, .callLocal call) ∉ prog)
    (prepared : prepareCfg prog isPrivileged options fuel = .ok cfg) : cfg.BranchesOwnChildren := by
  rcases bind_eq_ok.mp prepared with ⟨first, built, afterFirst⟩
  rcases bind_eq_ok.mp afterFirst with ⟨second, instrumenting, annotating⟩
  have wellFormed := instructionSeqToCfg_wellFormed built
  rcases bind_eq_ok.mp built with ⟨connected, firstPassed, expanding⟩
  rw [expandAll_eq_ok noCalls] at expanding
  cases expanding
  have branches := (firstPass_spec firstPassed).branchesOwnChildren decoded
  have instrumented : second.BranchesOwnChildren := by
    rcases instrument_eq_ok wellFormed instrumenting with rfl | ⟨heads, _, _, inserting⟩
    · exact branches
    · exact insertCounters_branchesOwnChildren wellFormed branches inserting
  rw [BranchesOwnChildren, (setAllAssertions_spec annotating).2.1]
  exact instrumented

/-! ## The predecessors from which a loop starts -/

/-- A graph whose branches own their children starts every loop from exactly the
predecessors outside it, and so does the graph of every program without local calls. -/
theorem startsOutside_prepared :
    (forall cfg : Cfg, cfg.WellFormed -> cfg.BranchesOwnChildren -> cfg.StartsOutside) ∧
      forall prog isPrivileged options fuel cfg, prog.Decoded ->
        (forall label call, (label, Instruction.callLocal call) ∉ prog) ->
          prepareCfg prog isPrivileged options fuel = .ok cfg -> cfg.StartsOutside := by
  refine ⟨fun cfg => startsOutside_of_branchesOwnChildren, ?_⟩
  intro prog isPrivileged options fuel cfg decoded noCalls prepared
  exact startsOutside_of_branchesOwnChildren (prepareCfg_wellFormed prepared)
    (prepareCfg_branchesOwnChildren decoded noCalls prepared)

/-- In the prepared graph of two nested loops, the inner loop starts from the label in
front of it and not from the jump back. -/
theorem startsOutside_nestedLoop :
    exists cfg, prepareCfg nestedLoop false ⟨false, true⟩ 100 = .ok cfg ∧ cfg.StartsOutside ∧
      (cfg.parents { fromIndex := 2 }).elements =
      [{ fromIndex := 1 }, { fromIndex := 3, toIndex := 2 }] := by
  have computed : returnsChecked (fun cfg => decide ((cfg.parents { fromIndex := 2 }).elements =
      [{ fromIndex := 1 }, { fromIndex := 3, toIndex := 2 }]))
      (prepareCfg nestedLoop false ⟨false, true⟩ 100) = true := by
    decide
  rcases exists_of_returnsChecked computed with ⟨cfg, prepared, parents⟩
  have noCalls : forall label call, (label, Instruction.callLocal call) ∉ nestedLoop := by
    intro label call member
    simp [nestedLoop] at member
  exact ⟨cfg, prepared, startsOutside_prepared.2 nestedLoop false ⟨false, true⟩ 100 cfg
    (by decide) noCalls prepared, of_decide_eq_true parents⟩

end Cfg
end Prevail
