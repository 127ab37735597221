import Prevail.Cfg.Inline
import Prevail.Asm.Execution

namespace Prevail
namespace Cfg

/-!
# The graph of the first pass

What `instruction_seq_to_cfg` has built before it expands calls.  Each
instruction has exactly the successors of its own kind; a conditional jump to a
label other than its fallthrough has two, each of which assumes one outcome of
the condition.  Every later operation leaves these nodes alone, because the
labels it connects or creates are other ones.
-/

/-- The two labels that a conditional jump is led through. -/
structure JumpConnected (cfg : Cfg) (label target fallthrough : Label)
    (cond : Condition) : Prop where
  children : forall next, next ∈ cfg.children label ↔
    next = Label.makeJump label target ∨ next = Label.makeJump label fallthrough
  taken : forall next, next ∈ cfg.children (Label.makeJump label target) ↔ next = target
  notTaken : forall next, next ∈ cfg.children (Label.makeJump label fallthrough) ↔
    next = fallthrough
  takenInstruction : (cfg.instructions (Label.makeJump label target)).cmd = .assume ⟨cond, true⟩
  notTakenInstruction : (cfg.instructions (Label.makeJump label fallthrough)).cmd = .assume
    ⟨cond.reverse, true⟩
  different : Label.makeJump label target ≠ Label.makeJump label fallthrough

/-- The edges of one instruction. -/
def NodeConnected (cfg : Cfg) (label fallthrough : Label) (ins : Instruction) : Prop :=
  match ins with
  | .undefined _ => True
  | .jmp jmp =>
      match jmp.cond with
      | some cond =>
          if jmp.target = fallthrough then forall next, next ∈ cfg.children label ↔
            next = fallthrough
          else cfg.JumpConnected label jmp.target fallthrough cond
      | none => forall next, next ∈ cfg.children label ↔ next = jmp.target
  | .exit _ => forall next, next ∈ cfg.children label ↔ next = Label.exit
  | _ => forall next, next ∈ cfg.children label ↔ next = fallthrough

/-- The labels between the two ends of a conditional jump. -/
def jumpLabels (label fallthrough : Label) (ins : Instruction) : List Label :=
  match ins with
  | .jmp jmp =>
      match jmp.cond with
      | some _ =>
          if jmp.target = fallthrough then []
          else [Label.makeJump label jmp.target, Label.makeJump label fallthrough]
      | none => []
  | _ => []

/-- What the connection of one instruction changes: the edges of its label, and
the labels of a conditional jump. -/
structure Connects (label fallthrough : Label) (ins : Instruction) (before after : Cfg) : Prop where
  wellFormed : after.WellFormed
  fresh : forall jump, jump ∈ jumpLabels label fallthrough ins -> jump ∉ before.labels
  labels : forall other, other ∈ after.labels ↔ other ∈ before.labels ∨
    other ∈ jumpLabels label fallthrough ins
  instructions : forall other, other ∈ before.labels ->
    after.instructions other = before.instructions other
  outside : forall other, other ∉ after.labels ->
    after.instructions other = before.instructions other
  others : forall other, other ∈ before.labels -> other ≠ label ->
    after.children other = before.children other
  connected : after.NodeConnected label fallthrough ins

variable {cfg next : Cfg} {label target fallthrough : Label}

theorem withEdge_children_of_ne {a b other : Label} (different : other ≠ a) :
    (cfg.withEdge a b).children other = cfg.children other := by
  simp [withEdge, setChildren, setParents, different]

theorem withLabel_children_of_ne {other : Label} {ins : GuardedInstruction}
    (different : other ≠ label) :
    (cfg.withLabel label ins).children other = cfg.children other := by
  simp [withLabel, different]

/-- An edge out of a label that had none. -/
theorem addChild_connects (wellFormed : cfg.WellFormed)
    (isolated : forall other, other ∉ cfg.children label)
    (run : cfg.addChild label target = .ok next) :
    next.WellFormed ∧ next.labels = cfg.labels ∧ next.instructions = cfg.instructions ∧
      (forall other, other ≠ label -> next.children other = cfg.children other) ∧
      forall other, other ∈ next.children label ↔ other = target := by
  have nextWellFormed := wellFormed.addChild run
  rcases addChild_eq_ok.mp run with ⟨_, rfl⟩
  refine ⟨nextWellFormed, rfl, rfl, fun other => withEdge_children_of_ne, ?_⟩
  intro other
  rw [mem_withEdge_children]
  simp [isolated other]

/-- A new label between the ends of a jump. -/
structure JumpInserted (label target : Label) (ins : GuardedInstruction)
    (before after : Cfg) : Prop where
  wellFormed : after.WellFormed
  fresh : Label.makeJump label target ∉ before.labels
  labels : after.labels = before.labels.insert (Label.makeJump label target)
  instructions : after.instructions = Function.update before.instructions
    (Label.makeJump label target) ins
  own : forall other, other ∈ after.children label ↔
    other ∈ before.children label ∨ other = Label.makeJump label target
  jump : forall other, other ∈ after.children (Label.makeJump label target) ↔ other = target
  others : forall other, other ≠ label -> other ≠ Label.makeJump label target ->
    after.children other = before.children other

theorem insertJump_spec {ins : GuardedInstruction} (wellFormed : cfg.WellFormed)
    (member : label ∈ cfg.labels)
    (run : cfg.insertJump label target ins = .ok next) :
    JumpInserted label target ins cfg next := by
  unfold insertJump at run
  split at run
  · cases run
  · rcases bind_eq_ok.mp run with ⟨inserted, insertion, afterInsertion⟩
    rcases bind_eq_ok.mp afterInsertion with ⟨first, firstAdded, secondAdded⟩
    have insertedWellFormed := wellFormed.insert insertion
    have firstWellFormed := insertedWellFormed.addChild firstAdded
    have nextWellFormed := firstWellFormed.addChild secondAdded
    rcases insert_eq_ok.mp insertion with ⟨fresh, rfl⟩
    rcases addChild_eq_ok.mp firstAdded with ⟨_, rfl⟩
    rcases addChild_eq_ok.mp secondAdded with ⟨_, rfl⟩
    have different : label ≠ Label.makeJump label target := fun same => fresh (same ▸ member)
    have isolated := wellFormed.children_of_not_mem fresh
    refine
      { wellFormed := nextWellFormed, fresh := fresh, labels := rfl, instructions := rfl
        own := ?_, jump := ?_, others := ?_ }
    · intro other
      rw [mem_withEdge_children, mem_withEdge_children, wellFormed.mem_withLabel_children fresh]
      simp [different]
    · intro other
      rw [mem_withEdge_children, mem_withEdge_children, wellFormed.mem_withLabel_children fresh]
      simp [(isolated other).1, different.symm]
    · intro other notLabel notJump
      rw [withEdge_children_of_ne notJump, withEdge_children_of_ne notLabel,
        withLabel_children_of_ne notJump]

theorem connectInstruction_connects {ins : Instruction} (wellFormed : cfg.WellFormed)
    (member : label ∈ cfg.labels) (isolated : forall other, other ∉ cfg.children label)
    (run : cfg.connectInstruction label fallthrough ins = .ok next) :
    Connects label fallthrough ins cfg next := by
  -- the kinds of instructions that add a single edge
  have single : forall target, cfg.addChild label target = .ok next ->
      (forall jump, jump ∉ jumpLabels label fallthrough ins) ->
      ((forall other, other ∈ next.children label ↔ other = target) ->
        next.NodeConnected label fallthrough ins) ->
      Connects label fallthrough ins cfg next := by
    intro target added noJump connected
    rcases addChild_connects wellFormed isolated added with
      ⟨nextWellFormed, labels, instructions, others, own⟩
    refine
      { wellFormed := nextWellFormed, fresh := fun jump isJump => absurd isJump (noJump jump)
        labels := ?_, instructions := ?_, outside := ?_, others := fun other _ => others other
        connected := connected own }
    · intro other
      simp [labels, noJump other]
    · exact fun other _ => by rw [instructions]
    · exact fun other _ => by rw [instructions]
  unfold connectInstruction at run
  split at run
  · rename_i jmp
    split at run
    · rename_i cond isConditional
      split at run
      · rename_i same
        apply single fallthrough run
        · simp [jumpLabels, isConditional, same]
        · simp [NodeConnected, isConditional, same]
      · rename_i different
        split at run
        · cases run
        · rcases bind_eq_ok.mp run with ⟨middle, taking, passing⟩
          have first := insertJump_spec wellFormed member taking
          have middleMember : label ∈ middle.labels := by
            rw [first.labels]
            exact OrderedSet.mem_insert.mpr (Or.inr member)
          have second := insertJump_spec first.wellFormed middleMember passing
          have jumps : jumpLabels label fallthrough (.jmp jmp) =
              [Label.makeJump label jmp.target, Label.makeJump label fallthrough] := by
            simp [jumpLabels, isConditional, different]
          have secondFresh := second.fresh
          rw [first.labels, OrderedSet.mem_insert, not_or] at secondFresh
          have notOwn : Label.makeJump label jmp.target ≠ label :=
            fun same => first.fresh (same ▸ member)
          have notOwn' : Label.makeJump label fallthrough ≠ label :=
            fun same => secondFresh.2 (same ▸ member)
          refine
            { wellFormed := second.wellFormed, fresh := ?_, labels := ?_, instructions := ?_,
              outside := ?_
              others := ?_, connected := ?_ }
          · intro jump isJump
            rw [jumps] at isJump
            rcases List.mem_cons.mp isJump with rfl | isSecond
            · exact first.fresh
            · rw [List.mem_singleton.mp isSecond]
              exact secondFresh.2
          · intro other
            rw [second.labels, first.labels, OrderedSet.mem_insert, OrderedSet.mem_insert, jumps]
            simp only [List.mem_cons, List.not_mem_nil, or_false]
            tauto
          · intro other isLabel
            rw [second.instructions, first.instructions, Function.update_of_ne,
              Function.update_of_ne]
            · exact fun same => first.fresh (same ▸ isLabel)
            · exact fun same => secondFresh.2 (same ▸ isLabel)
          · intro other notLabel
            rw [second.labels, first.labels, OrderedSet.mem_insert, OrderedSet.mem_insert, not_or,
              not_or] at notLabel
            rw [second.instructions, first.instructions, Function.update_of_ne notLabel.1,
              Function.update_of_ne notLabel.2.1]
          · intro other isLabel notLabel
            rw [second.others other notLabel (fun same => secondFresh.2 (same ▸ isLabel)),
              first.others other notLabel (fun same => first.fresh (same ▸ isLabel))]
          · have connected : next.JumpConnected label jmp.target fallthrough cond := by
              refine
                { children := ?_, taken := ?_, notTaken := second.jump, takenInstruction := ?_
                  notTakenInstruction := ?_, different := Ne.symm secondFresh.1 }
              · intro other
                rw [second.own, first.own]
                simp [isolated other]
              · intro other
                rw [second.others _ notOwn (Ne.symm secondFresh.1)]
                exact first.jump other
              · rw [second.instructions, Function.update_of_ne (Ne.symm secondFresh.1),
                  first.instructions, Function.update_self]
              · rw [second.instructions, Function.update_self]
            simpa [NodeConnected, isConditional, different] using connected
    · rename_i unconditional
      apply single jmp.target run
      · simp [jumpLabels, unconditional]
      · simp [NodeConnected, unconditional]
  · apply single Label.exit run
    · simp [jumpLabels]
    · simp [NodeConnected]
  · rename_i notJump notExit
    apply single fallthrough run
    · cases ins <;> simp_all [jumpLabels]
    · cases ins <;> simp_all [NodeConnected]

/-! ## All nodes -/

/-- The defined instructions of a sequence. -/
def Defined (ins : Instruction) : Prop := forall opcode, ins ≠ .undefined opcode

theorem undefined_of_not_defined {ins : Instruction} (undefined : ¬ Defined ins) :
    exists opcode, ins = .undefined opcode := by
  simpa [Defined] using undefined

/-- The label belongs to a defined instruction of the sequence. -/
def Occurs (insts : InstructionSeq) (label : Label) :
    Prop := exists ins, (label, ins) ∈ insts ∧ Defined ins

/-- The graph after the nodes of a sequence were inserted. -/
structure NodesInserted (insts : InstructionSeq) (before after : Cfg) : Prop where
  wellFormed : after.WellFormed
  labels : forall other, other ∈ after.labels ↔ other ∈ before.labels ∨ Occurs insts other
  fresh : forall other, Occurs insts other -> other ∉ before.labels
  distinct : insts.Pairwise
    (fun first second => Defined first.2 -> Defined second.2 -> first.1 ≠ second.1)
  instructions : forall label ins, (label, ins) ∈ insts -> Defined ins ->
    (after.instructions label).cmd = ins
  kept : forall other, other ∈ before.labels -> after.instructions other = before.instructions other
  outside : forall other, other ∉ after.labels ->
    after.instructions other = before.instructions other
  children : forall other target, target ∈ after.children other ↔ target ∈ before.children other

theorem insertInstruction_eq_ok {ins : Instruction}
    (run : cfg.insertInstruction label ins = .ok next) :
    (¬ Defined ins ∧ next = cfg) ∨
      (Defined ins ∧ label ∉ cfg.labels ∧ next = cfg.withLabel label { cmd := ins }) := by
  unfold insertInstruction at run
  split at run
  · rename_i opcode
    cases run
    exact Or.inl ⟨fun defined => defined opcode rfl, rfl⟩
  · rename_i notUndefined
    right
    exact ⟨notUndefined, insert_eq_ok.mp run⟩

theorem occurs_cons_iff {ins : Instruction} {rest : InstructionSeq} {other : Label} :
    Occurs ((label, ins) :: rest) other ↔ (other = label ∧ Defined ins) ∨ Occurs rest other := by
  constructor
  · rintro ⟨found, member, defined⟩
    rcases List.mem_cons.mp member with same | later
    · cases same
      exact Or.inl ⟨rfl, defined⟩
    · exact Or.inr ⟨found, later, defined⟩
  · rintro (⟨rfl, defined⟩ | ⟨found, member, defined⟩)
    · exact ⟨ins, List.mem_cons_self, defined⟩
    · exact ⟨found, List.mem_cons_of_mem _ member, defined⟩

theorem insertAll_spec {insts : InstructionSeq} (wellFormed : cfg.WellFormed)
    (run : insertAll insts cfg = .ok next) :
    NodesInserted insts cfg next := by
  induction insts generalizing cfg with
  | nil =>
      cases run
      exact
        { wellFormed := wellFormed,
          labels := fun other => by simp [Occurs], distinct := List.Pairwise.nil
          fresh := fun other occurs => by simp [Occurs] at occurs
          instructions := fun label ins member => absurd member List.not_mem_nil
          kept := fun other _ => rfl, outside := fun other _ => rfl,
          children := fun other target => Iff.rfl }
  | cons labelled rest inductionHypothesis =>
      rcases labelled with ⟨label, ins⟩
      rcases bind_eq_ok.mp run with ⟨middle, insertion, later⟩
      rcases insertInstruction_eq_ok insertion with ⟨undefined, rfl⟩ | ⟨defined, fresh, rfl⟩
      · have spec := inductionHypothesis wellFormed later
        have occurs : forall other, Occurs ((label, ins) :: rest) other ↔ Occurs rest other := by
          intro other
          rw [occurs_cons_iff]
          exact or_iff_right (fun both => undefined both.2)
        refine
          { wellFormed := spec.wellFormed, labels := ?_, fresh := ?_, distinct := ?_,
            instructions := ?_
            kept := spec.kept, outside := spec.outside, children := spec.children }
        · intro other
          rw [spec.labels, occurs]
        · intro other isInst
          exact spec.fresh other ((occurs other).mp isInst)
        · exact List.pairwise_cons.mpr ⟨fun other _ defined _ => absurd defined undefined,
            spec.distinct⟩
        · intro other found member isDefined
          rcases List.mem_cons.mp member with same | inRest
          · cases same
            exact absurd isDefined undefined
          · exact spec.instructions other found inRest isDefined
      · have spec := inductionHypothesis (wellFormed.withLabel fresh _) later
        have inMiddle : label ∈ (cfg.withLabel label { cmd := ins }).labels :=
          OrderedSet.mem_insert.mpr (Or.inl rfl)
        have notLater : ¬ Occurs rest label := fun occurs => spec.fresh label occurs inMiddle
        refine
          { wellFormed := spec.wellFormed, labels := ?_, fresh := ?_, distinct := ?_,
            instructions := ?_
            kept := ?_, outside := ?_, children := ?_ }
        · intro other
          rw [spec.labels, withLabel_labels, OrderedSet.mem_insert, occurs_cons_iff]
          tauto
        · intro other isInst
          rcases occurs_cons_iff.mp isInst with ⟨same, _⟩ | inRest
          · rw [same]
            exact fresh
          · exact fun member => spec.fresh other inRest (OrderedSet.mem_insert.mpr (Or.inr member))
        · refine List.pairwise_cons.mpr ⟨?_, spec.distinct⟩
          rintro ⟨other, found⟩ member _ isDefined same
          have equal : label = other := same
          exact notLater ⟨found, equal ▸ member, isDefined⟩
        · intro other found member isDefined
          rcases List.mem_cons.mp member with same | inRest
          · cases same
            rw [spec.kept label inMiddle]
            simp
          · exact spec.instructions other found inRest isDefined
        · intro other member
          have different : other ≠ label := fun same => fresh (same ▸ member)
          rw [spec.kept other (OrderedSet.mem_insert.mpr (Or.inr member)), withLabel_instructions,
            Function.update_of_ne different]
        · intro other notLabel
          have different : other ≠ label := by
            rintro rfl
            exact notLabel ((spec.labels other).mpr (Or.inl inMiddle))
          rw [spec.outside other notLabel, withLabel_instructions, Function.update_of_ne different]
        · intro other target
          rw [spec.children, wellFormed.mem_withLabel_children fresh]

/-- The label between the ends of a conditional jump of the sequence. -/
def IsJumpLabel (insts : InstructionSeq) (jump : Label) : Prop :=
  exists label ins rest, (label, ins) :: rest <:+ insts ∧
    jump ∈ jumpLabels label (InstructionSeq.fallthrough rest) ins

/-- The graph after the instructions of a sequence were connected. -/
structure NodesConnected (mustHaveExit : Bool) (insts : InstructionSeq)
    (before after : Cfg) : Prop where
  wellFormed : after.WellFormed
  labels : forall other, other ∈ after.labels ↔ other ∈ before.labels ∨ IsJumpLabel insts other
  fresh : forall jump, IsJumpLabel insts jump -> jump ∉ before.labels
  instructions : forall other, other ∈ before.labels ->
    after.instructions other = before.instructions other
  outside : forall other, other ∉ after.labels ->
    after.instructions other = before.instructions other
  others : forall other, other ∈ before.labels -> ¬ Occurs insts other ->
    after.children other = before.children other
  connected : forall label ins rest, (label, ins) :: rest <:+ insts ->
    after.NodeConnected label (InstructionSeq.fallthrough rest) ins
  last : mustHaveExit = true -> forall label ins, [(label, ins)] <:+ insts -> Defined ins ->
    ins.hasFall = false

theorem NodeConnected.of_agree {before after : Cfg} {ins : Instruction}
    (connected : before.NodeConnected label fallthrough ins)
    (agree : forall other, other = label ∨ other ∈ jumpLabels label fallthrough ins ->
      after.children other = before.children other ∧
      after.instructions other = before.instructions other) :
    after.NodeConnected label fallthrough ins := by
  have own := (agree label (Or.inl rfl)).1
  unfold NodeConnected at connected ⊢
  split at connected
  · trivial
  · rename_i jmp
    split at connected
    · rename_i cond isConditional
      simp only [jumpLabels, isConditional] at agree
      split at connected
      · rename_i same
        rw [if_pos same, own]
        exact connected
      · rename_i different
        rw [if_neg different] at agree ⊢
        have taken := agree (Label.makeJump label jmp.target) (Or.inr List.mem_cons_self)
        have notTaken := agree (Label.makeJump label fallthrough)
          (Or.inr (List.mem_cons_of_mem _ List.mem_cons_self))
        exact
          { children := by rw [own]; exact connected.children
            taken := by rw [taken.1]; exact connected.taken
            notTaken := by rw [notTaken.1]; exact connected.notTaken
            takenInstruction := by rw [taken.2]; exact connected.takenInstruction
            notTakenInstruction := by rw [notTaken.2]; exact connected.notTakenInstruction
            different := connected.different }
    · rw [own]
      exact connected
  · rw [own]
    exact connected
  · rw [own]
    exact connected

theorem nodeConnected_of_not_defined {ins : Instruction} (undefined : ¬ Defined ins) :
    cfg.NodeConnected label fallthrough ins := by
  rcases undefined_of_not_defined undefined with ⟨opcode, rfl⟩
  trivial

/-- What `connectNext` does for one instruction. -/
theorem connectNext_spec {mustHaveExit : Bool} {ins : Instruction} {rest : InstructionSeq}
    (wellFormed : cfg.WellFormed) (member : Defined ins -> label ∈ cfg.labels)
    (isolated : Defined ins -> forall other, other ∉ cfg.children label)
    (run : cfg.connectNext mustHaveExit label ins rest = .ok next) :
    Connects label (InstructionSeq.fallthrough rest) ins cfg next ∧
      (mustHaveExit = true -> rest = [] -> Defined ins -> ins.hasFall = false) := by
  unfold connectNext at run
  split at run
  · rename_i opcode
    cases run
    have undefined : ¬ Defined (.undefined opcode) := fun defined => defined opcode rfl
    refine ⟨?_, fun _ _ defined => absurd defined undefined⟩
    exact
      { wellFormed := wellFormed, fresh := fun jump isJump => absurd isJump List.not_mem_nil
        labels := fun other => by
          simp [jumpLabels], instructions := fun _ _ => rfl, outside := fun _ _ => rfl
        others := fun _ _ _ => rfl, connected := trivial }
  · rename_i following _ _ defined
    exact ⟨connectInstruction_connects wellFormed (member defined) (isolated defined) run,
      fun _ nothing => absurd nothing (List.cons_ne_nil _ _)⟩
  · rename_i defined
    split at run
    · cases run
    · rename_i allowed
      refine ⟨connectInstruction_connects wellFormed (member defined) (isolated defined) run, ?_⟩
      intro required _ _
      simpa [required] using allowed

theorem connectAll_spec {mustHaveExit : Bool} {insts : InstructionSeq} (wellFormed : cfg.WellFormed)
    (members : forall label, Occurs insts label -> label ∈ cfg.labels)
    (isolated : forall label, Occurs insts label -> forall other, other ∉ cfg.children label)
    (distinct : insts.Pairwise
      (fun first second => Defined first.2 -> Defined second.2 -> first.1 ≠ second.1))
    (run : connectAll mustHaveExit insts cfg = .ok next) :
    NodesConnected mustHaveExit insts cfg next := by
  induction insts generalizing cfg with
  | nil =>
      cases run
      exact
        { wellFormed := wellFormed, labels := fun other => by simp [IsJumpLabel]
          fresh := fun jump isJump => by simp [IsJumpLabel] at isJump
          instructions := fun _ _ => rfl, outside := fun _ _ => rfl, others := fun _ _ _ => rfl
          connected := fun label ins rest suffix => by simp at suffix
          last := fun _ label ins suffix => by simp at suffix }
  | cons labelled rest inductionHypothesis =>
      rcases labelled with ⟨label, ins⟩
      rcases bind_eq_ok.mp run with ⟨middle, connecting, later⟩
      have own : Defined ins -> Occurs ((label, ins) :: rest) label :=
        fun defined => ⟨ins, List.mem_cons_self, defined⟩
      have inRest : forall other, Occurs rest other -> Occurs ((label, ins) :: rest) other :=
        fun other occurs => occurs_cons_iff.mpr (Or.inr occurs)
      rcases connectNext_spec wellFormed (fun defined => members label (own defined))
        (fun defined => isolated label (own defined)) connecting with ⟨first, lastFirst⟩
      rcases List.pairwise_cons.mp distinct with ⟨differs, restDistinct⟩
      have notOwn : forall other, Occurs rest other -> Defined ins -> other ≠ label := by
        rintro other ⟨found, member, isDefined⟩ defined same
        exact differs (other, found) member defined isDefined same.symm
      have unchanged : forall other, Occurs rest other ->
          middle.children other = cfg.children other := by
        intro other occurs
        by_cases defined : Defined ins
        · exact first.others other (members other (inRest other occurs))
            (notOwn other occurs defined)
        · rcases undefined_of_not_defined defined with ⟨opcode, rfl⟩
          cases connecting
          rfl
      have spec := inductionHypothesis first.wellFormed
        (fun other occurs => (first.labels other).mpr
          (Or.inl (members other (inRest other occurs))))
        (fun other occurs => by rw [unchanged other occurs]; exact isolated other (inRest
          other occurs))
        restDistinct later
      have jumps : forall jump, IsJumpLabel ((label, ins) :: rest) jump ↔
          jump ∈ jumpLabels label (InstructionSeq.fallthrough rest) ins ∨
          IsJumpLabel rest jump := by
        intro jump
        constructor
        · rintro ⟨other, found, behind, suffix, member⟩
          rcases List.suffix_cons_iff.mp suffix with same | deeper
          · cases same
            exact Or.inl member
          · exact Or.inr ⟨other, found, behind, deeper, member⟩
        · rintro (member | ⟨other, found, behind, suffix, member⟩)
          · exact ⟨label, ins, rest, List.suffix_rfl, member⟩
          · exact ⟨other, found, behind, suffix.trans (List.suffix_cons _ _), member⟩
      refine
        { wellFormed := spec.wellFormed, labels := ?_, fresh := ?_, instructions := ?_,
          outside := ?_
          others := ?_, connected := ?_, last := ?_ }
      · intro other
        rw [spec.labels, first.labels, jumps]
        tauto
      · intro jump isJump
        rcases (jumps jump).mp isJump with here | there
        · exact first.fresh jump here
        · exact fun member => spec.fresh jump there ((first.labels jump).mpr (Or.inl member))
      · intro other member
        rw [spec.instructions other ((first.labels other).mpr (Or.inl member)),
          first.instructions other member]
      · intro other notLabel
        rw [spec.outside other notLabel]
        exact first.outside other (fun member => notLabel ((spec.labels other).mpr (Or.inl member)))
      · intro other member notInst
        have notLater : ¬ Occurs rest other := fun occurs => notInst (inRest other occurs)
        rw [spec.others other ((first.labels other).mpr (Or.inl member)) notLater]
        by_cases same : other = label
        · have undefined : ¬ Defined ins := fun defined => notInst (same ▸ own defined)
          rcases undefined_of_not_defined undefined with ⟨opcode, rfl⟩
          cases connecting
          rfl
        · exact first.others other member same
      · intro other found behind suffix
        rcases List.suffix_cons_iff.mp suffix with same | deeper
        · cases same
          by_cases defined : Defined ins
          · apply first.connected.of_agree
            intro node isNode
            have inMiddle : node ∈ middle.labels := by
              rw [first.labels]
              rcases isNode with same | isJump
              · rw [same]
                exact Or.inl (members label (own defined))
              · exact Or.inr isJump
            refine ⟨spec.others node inMiddle ?_, spec.instructions node inMiddle⟩
            intro occurs
            rcases isNode with same | isJump
            · exact notOwn node occurs defined same
            · exact first.fresh node isJump (members node (inRest node occurs))
          · exact nodeConnected_of_not_defined defined
        · exact spec.connected other found behind deeper
      · intro required other found suffix defined
        rcases List.suffix_cons_iff.mp suffix with same | deeper
        · cases same
          exact lastFirst required rfl defined
        · exact spec.last required other found deeper defined

/-! ## The whole first pass -/

/-- The graph of the first pass: the nodes of the sequence and of its
conditional jumps between the entry and the exit. -/
structure FirstPassGraph (mustHaveExit : Bool) (insts : InstructionSeq) (cfg : Cfg) : Prop where
  wellFormed : cfg.WellFormed
  labels : forall label, label ∈ cfg.labels ↔
    label = Label.entry ∨ label = Label.exit ∨ Occurs insts label ∨ IsJumpLabel insts label
  distinct : insts.Pairwise
    (fun first second => Defined first.2 -> Defined second.2 -> first.1 ≠ second.1)
  occursNe : forall label, Occurs insts label -> label ≠ Label.entry ∧ label ≠ Label.exit
  jumpNe : forall jump, IsJumpLabel insts jump -> jump ≠ Label.entry ∧ jump ≠ Label.exit ∧
    ¬ Occurs insts jump
  instructions : forall label ins, (label, ins) ∈ insts -> Defined ins ->
    (cfg.instructions label).cmd = ins
  others : forall label, ¬ Occurs insts label -> ¬ IsJumpLabel insts label ->
    (cfg.instructions label).cmd = .undefined 0
  entry : exists label ins rest, insts = (label, ins) :: rest ∧
    forall next, next ∈ cfg.children Label.entry ↔ next = label
  exit : forall next, next ∉ cfg.children Label.exit
  connected : forall label ins rest, (label, ins) :: rest <:+ insts ->
    cfg.NodeConnected label (InstructionSeq.fallthrough rest) ins
  last : mustHaveExit = true -> forall label ins, [(label, ins)] <:+ insts -> Defined ins ->
    ins.hasFall = false

theorem mem_initial_labels : label ∈ Cfg.initial.labels ↔ label = Label.entry ∨
    label = Label.exit := by
  simp [Cfg.initial, or_comm]

theorem initial_children : target ∉ Cfg.initial.children label := by
  simp [Cfg.initial]

theorem firstPass_spec {mustHaveExit : Bool} {insts : InstructionSeq}
    (run : firstPass insts mustHaveExit = .ok cfg) : FirstPassGraph mustHaveExit insts cfg := by
  rcases bind_eq_ok.mp run with ⟨inserted, insertion, connection⟩
  have nodes := insertAll_spec WellFormed.initial insertion
  cases insts with
  | nil => cases connection
  | cons labelled rest =>
      rcases labelled with ⟨label, ins⟩
      rcases bind_eq_ok.mp connection with ⟨entered, entering, connecting⟩
      have isolated : forall source target, target ∉ inserted.children source := by
        intro source target child
        exact initial_children ((nodes.children source target).mp child)
      rcases addChild_connects nodes.wellFormed (isolated Label.entry) entering with
        ⟨enteredWellFormed, labels, instructions, others, own⟩
      have occursNe : forall other, Occurs ((label, ins) :: rest) other ->
          other ≠ Label.entry ∧ other ≠ Label.exit := by
        intro other occurs
        have fresh := nodes.fresh other occurs
        rw [mem_initial_labels, not_or] at fresh
        exact fresh
      have member : forall other, Occurs ((label, ins) :: rest) other ->
          other ∈ entered.labels := by
        intro other occurs
        rw [labels, nodes.labels]
        exact Or.inr occurs
      have spec := connectAll_spec enteredWellFormed member
        (fun other occurs next => by
          rw [others other (occursNe other occurs).1]
          exact isolated other next)
        nodes.distinct connecting
      have entryMember : Label.entry ∈ entered.labels := enteredWellFormed.entry
      have exitMember : Label.exit ∈ entered.labels := enteredWellFormed.exit
      refine
        { wellFormed := spec.wellFormed, labels := ?_, distinct := nodes.distinct,
          occursNe := occursNe, jumpNe := ?_
          instructions := ?_, others := ?_, entry := ⟨label, ins, rest, rfl, ?_⟩, exit := ?_
          connected := spec.connected, last := spec.last }
      · intro other
        rw [spec.labels, labels, nodes.labels, mem_initial_labels]
        tauto
      · intro jump isJump
        have fresh := spec.fresh jump isJump
        exact ⟨fun same => fresh (same ▸ entryMember), fun same => fresh (same ▸ exitMember),
          fun occurs => fresh (member jump occurs)⟩
      · intro other found isInst defined
        have occurs : Occurs ((label, ins) :: rest) other := ⟨found, isInst, defined⟩
        rw [spec.instructions other (member other occurs), instructions]
        exact nodes.instructions other found isInst defined
      · intro other notInst notJump
        have initial : (inserted.instructions other).cmd = .undefined 0 := by
          by_cases isEnd : other ∈ Cfg.initial.labels
          · rw [nodes.kept other isEnd]
            rfl
          · rw [nodes.outside other
              (fun member => ((nodes.labels other).mp member).elim isEnd notInst)]
            rfl
        rw [← initial, ← instructions]
        by_cases member : other ∈ entered.labels
        · rw [spec.instructions other member]
        · rw [spec.outside other
            (fun isLabel => ((spec.labels other).mp isLabel).elim member notJump)]
      · intro next
        rw [spec.others Label.entry entryMember (fun occurs => (occursNe _ occurs).1 rfl)]
        exact own next
      · intro next
        rw [spec.others Label.exit exitMember (fun occurs => (occursNe _ occurs).2 rfl),
          others Label.exit (by decide)]
        exact isolated Label.exit next

end Cfg
end Prevail
