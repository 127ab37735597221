import Prevail.Cfg.Prepare

namespace Prevail

/-!
# Basic blocks

`basic_block_t::collect_basic_blocks` of `asm_cfg.cpp`.  It takes the labels in
their order, and starts a block at each label that does not merely continue the
label before it.  A label that does continue is marked as seen when its turn
comes, and a block ends at a seen label.  A label is therefore in a block
exactly if it comes later in the order than the label at which its block
starts, and so do all labels between.
-/

/-- `basic_block_t`, whose list of labels is never empty. -/
structure BasicBlock where
  first : Label
  rest : List Label
  deriving DecidableEq

namespace BasicBlock

/-- `m_ts`. -/
def labels (bb : BasicBlock) : List Label := bb.first :: bb.rest

def lastLabel (bb : BasicBlock) : Label := bb.rest.getLastD bb.first

/-- Append a label.  The entry is not an instruction, and makes room. -/
def push (bb : BasicBlock) (next : Label) : BasicBlock :=
  if bb.first = Label.entry then ⟨next, []⟩ else ⟨bb.first, bb.rest ++ [next]⟩

theorem lastLabel_push (bb : BasicBlock) (next : Label) : (bb.push next).lastLabel = next := by
  rw [push]
  split
  · rfl
  · exact List.getLastD_concat ..

end BasicBlock

namespace Cfg

def inDegree (cfg : Cfg) (label : Label) : Nat := (cfg.parents label).elements.length

def outDegree (cfg : Cfg) (label : Label) : Nat := (cfg.children label).elements.length

/-- `get_parent`, for a label with a single parent. -/
def getParent (cfg : Cfg) (label : Label) : Option Label :=
  match (cfg.parents label).elements with
  | [parent] => some parent
  | _ => none

def numSiblings (cfg : Cfg) (label : Label) : Option Nat := (cfg.getParent label).map cfg.outDegree

/-- The label does not merely continue the one before it. -/
def StartsBlock (cfg : Cfg) (label : Label) :
    Prop := ¬ (cfg.inDegree label = 1 ∧ cfg.numSiblings label = some 1)

instance decidableStartsBlock (cfg : Cfg) (label : Label) : Decidable (cfg.StartsBlock label) :=
  inferInstanceAs (Decidable (¬ _))

/-- The labels that are left, and those that had their turn or are in a block. -/
structure Collecting where
  worklist : OrderedSet Label
  seen : OrderedSet Label

/-- The inner loop, for at most as many steps as there are labels.  Its label is the
last one of the block. -/
def extendBlock (cfg : Cfg) : Nat -> BasicBlock -> Collecting -> BasicBlock × Collecting
  | 0, bb, state => (bb, state)
  | steps + 1, bb, state =>
      match (cfg.children bb.lastLabel).elements with
      | [next] =>
          if next ∈ state.seen ∨ next = Label.exit ∨ cfg.inDegree next ≠ 1 then (bb, state)
          else extendBlock cfg steps (bb.push next)
            ⟨state.worklist.erase next, state.seen.insert next⟩
      | _ => (bb, state)

/-- `emplace` into a set that compares first labels. -/
def emplaceBlock (blocks : List BasicBlock) (bb : BasicBlock) : List BasicBlock :=
  if bb.first ∈ blocks.map BasicBlock.first then blocks else blocks ++ [bb]

/-- The outer loop, for at most as many steps as there are labels. -/
def collectLoop (cfg : Cfg) : Nat -> Collecting -> List BasicBlock -> List BasicBlock
  | 0, _, blocks => blocks
  | steps + 1, state, blocks =>
      match state.worklist.least? with
      | none => blocks
      | some label =>
          let worklist := state.worklist.erase label
          if label ∈ state.seen then collectLoop cfg steps ⟨worklist, state.seen⟩ blocks
          else if cfg.StartsBlock label then
            let (bb, state) := extendBlock cfg cfg.labels.elements.length ⟨label, []⟩
              ⟨worklist, state.seen.insert label⟩
            collectLoop cfg steps state (emplaceBlock blocks bb)
          else collectLoop cfg steps ⟨worklist, state.seen.insert label⟩ blocks

def collectBasicBlocks (cfg : Cfg) (simplify : Bool) : List BasicBlock :=
  if simplify then collectLoop cfg cfg.labels.elements.length ⟨cfg.labels, OrderedSet.empty⟩ []
  else (cfg.labels.elements.filter (fun label => label ≠ Label.entry ∧ label ≠ Label.exit)).map
    (fun label => ⟨label, []⟩)

/-! ## The chain of a label -/

/-- The only edge out of the first label, and the only one into the second. -/
def SoleEdge (cfg : Cfg) (source target : Label) : Prop :=
  (cfg.children source).elements = [target] ∧ (cfg.parents target).elements = [source]

/-- Sole edges lead from the label at which a block starts to the label, and all labels
on the way come later in the order than the first one. -/
inductive InBlockOf (cfg : Cfg) (leader : Label) : Label -> Prop
  | leader : cfg.StartsBlock leader -> InBlockOf cfg leader leader
  | next {label next : Label} : InBlockOf cfg leader label -> cfg.SoleEdge label next ->
    next ≠ Label.exit ->
      leader < next -> InBlockOf cfg leader next

section Chain

variable {cfg : Cfg} {leader other label next : Label}

theorem SoleEdge.not_startsBlock (sole : cfg.SoleEdge label next) : ¬ cfg.StartsBlock next := by
  rw [StartsBlock, not_not, inDegree, numSiblings, getParent, sole.2]
  refine ⟨rfl, ?_⟩
  rw [Option.map_some, outDegree, sole.1]
  rfl

theorem soleEdge_of_inDegree (wellFormed : cfg.WellFormed)
    (children : (cfg.children label).elements = [next])
    (single : cfg.inDegree next = 1) : cfg.SoleEdge label next := by
  rcases List.length_eq_one_iff.mp single with ⟨parent, parents⟩
  have isParent : label ∈ cfg.parents next := by
    rw [<- wellFormed.converse, OrderedSet.mem_def, children]
    exact List.mem_cons_self
  rw [OrderedSet.mem_def, parents, List.mem_singleton] at isParent
  exact ⟨children, isParent ▸ parents⟩

theorem SoleEdge.child_unique (sole : cfg.SoleEdge label next) (again : cfg.SoleEdge label other) :
    next = other :=
  List.singleton_injective (sole.1.symm.trans again.1)

theorem SoleEdge.parent_unique (sole : cfg.SoleEdge label next) (again : cfg.SoleEdge other next) :
    label = other :=
  List.singleton_injective (sole.2.symm.trans again.2)

theorem SoleEdge.mem_labels (wellFormed : cfg.WellFormed) (sole : cfg.SoleEdge label next) :
    label ∈ cfg.labels ∧ next ∈ cfg.labels := by
  have isChild : next ∈ cfg.children label := by
    rw [OrderedSet.mem_def, sole.1]
    exact List.mem_cons_self
  exact ⟨wellFormed.source _ _ isChild, wellFormed.target _ _ isChild⟩

theorem InBlockOf.startsBlock (inBlock : cfg.InBlockOf leader label) : cfg.StartsBlock leader := by
  induction inBlock with
  | leader starts => exact starts
  | next _ _ _ _ inductionHypothesis => exact inductionHypothesis

/-- The label at which the chain starts is determined by the sole edges. -/
theorem InBlockOf.unique (inBlock : cfg.InBlockOf leader label)
    (again : cfg.InBlockOf other label) :
    leader = other := by
  induction inBlock with
  | leader starts =>
      cases again with
      | leader => rfl
      | next _ sole => exact absurd starts sole.not_startsBlock
  | next _ sole _ _ inductionHypothesis =>
      cases again with
      | leader starts => exact absurd starts sole.not_startsBlock
      | next before otherSole => exact inductionHypothesis (sole.parent_unique otherSole ▸ before)

theorem InBlockOf.leader_mem (wellFormed : cfg.WellFormed) (inBlock : cfg.InBlockOf leader label)
    (member : label ∈ cfg.labels) : leader ∈ cfg.labels := by
  induction inBlock with
  | leader => exact member
  | next _ sole _ _ inductionHypothesis => exact inductionHypothesis (sole.mem_labels wellFormed).1

end Chain

/-! ## One block -/

section Block

variable {cfg : Cfg} {leader : Label}

theorem foldl_push_of_ne {added : List Label} {bb : BasicBlock}
    (notEntry : bb.first ≠ Label.entry) :
    (added.foldl BasicBlock.push bb).labels = bb.labels ++ added := by
  induction added generalizing bb with
  | nil => rw [List.foldl_nil, List.append_nil]
  | cons next rest inductionHypothesis =>
      have pushed : bb.push next = ⟨bb.first, bb.rest ++ [next]⟩ := if_neg notEntry
      rw [List.foldl_cons, pushed, @inductionHypothesis ⟨bb.first, bb.rest ++ [next]⟩ notEntry,
        BasicBlock.labels, BasicBlock.labels]
      simp

/-- The block of a chain is the chain, or the chain without the entry. -/
theorem foldl_push {added : List Label} (fresh : leader ∉ added) :
    (added.foldl BasicBlock.push ⟨leader, []⟩).labels = leader :: added ∨
      (leader = Label.entry ∧ (added.foldl BasicBlock.push ⟨leader, []⟩).labels = added) := by
  by_cases isEntry : leader = Label.entry
  · cases added with
    | nil => exact Or.inl rfl
    | cons next rest =>
        have pushed : BasicBlock.push ⟨leader, []⟩ next = ⟨next, []⟩ := if_pos isEntry
        have notEntry : next ≠ Label.entry := by
          rintro rfl
          exact fresh (isEntry ▸ List.mem_cons_self)
        refine Or.inr ⟨isEntry, ?_⟩
        rw [List.foldl_cons, pushed, foldl_push_of_ne notEntry]
        rfl
  · exact Or.inl (foldl_push_of_ne isEntry)

/-- The unseen labels of the graph. -/
def unseen (cfg : Cfg) (state : Collecting) : Finset Label :=
  cfg.labels.elements.toFinset \ state.seen.elements.toFinset

theorem mem_unseen {state : Collecting} {label : Label} : label ∈ cfg.unseen state ↔
    label ∈ cfg.labels ∧ label ∉ state.seen := by
  rw [unseen, Finset.mem_sdiff, List.mem_toFinset, List.mem_toFinset]
  rfl

/-- What the inner loop appends to a block. -/
structure Extended (cfg : Cfg) (bb : BasicBlock) (state : Collecting) (added : List Label)
    (result : BasicBlock × Collecting) : Prop where
  block : result.1 = added.foldl BasicBlock.push bb
  seen : forall label, label ∈ result.2.seen ↔ label ∈ state.seen ∨ label ∈ added
  worklist : forall label, label ∈ result.2.worklist ↔ label ∈ state.worklist ∧ label ∉ added
  fresh : ∀ label ∈ added, label ∉ state.seen ∧ label ≠ Label.exit
  chain : List.IsChain cfg.SoleEdge (bb.lastLabel :: added)
  stopped : forall next, cfg.SoleEdge
    ((bb.lastLabel :: added).getLast (List.cons_ne_nil _ _)) next -> next ∈ result.2.seen ∨
    next = Label.exit

theorem Extended.stop {bb : BasicBlock} {state : Collecting}
    (stopped : forall next, cfg.SoleEdge bb.lastLabel next -> next ∈ state.seen ∨
      next = Label.exit) :
    Extended cfg bb state [] (bb, state) where
  block := rfl
  seen _ := by simp
  worklist _ := by simp
  fresh _ impossible := by cases impossible
  chain := List.isChain_singleton _
  stopped := stopped

/-- The inner loop, by induction over the labels that it has not seen. -/
theorem extendBlock_spec (wellFormed : cfg.WellFormed) (steps : Nat) {bb : BasicBlock}
    {state : Collecting} (enough : (cfg.unseen state).card ≤ steps) :
    exists added, Extended cfg bb state added (extendBlock cfg steps bb state) := by
  induction steps generalizing bb state with
  | zero =>
      refine ⟨[], Extended.stop (fun next sole => Or.inl ?_)⟩
      have none : cfg.unseen state = ∅ := Finset.card_eq_zero.mp (Nat.le_zero.mp enough)
      by_contra notSeen
      have listed := mem_unseen.mpr ⟨(sole.mem_labels wellFormed).2, notSeen⟩
      rw [none] at listed
      cases listed
  | succ steps inductionHypothesis =>
      rw [extendBlock]
      split
      · rename_i next children
        split
        · rename_i stops
          refine ⟨[], Extended.stop (fun other sole => ?_)⟩
          have same : other = next := List.singleton_injective (sole.1.symm.trans children)
          rcases stops with isSeen | isExit | joins
          · exact Or.inl (same ▸ isSeen)
          · exact Or.inr (same ▸ isExit)
          · rw [<- same, inDegree, sole.2] at joins
            exact absurd rfl joins
        · rename_i continues
          rw [not_or, not_or, not_not] at continues
          rcases continues with ⟨notSeen, notExit, single⟩
          have sole := soleEdge_of_inDegree wellFormed children single
          have fewer : (cfg.unseen ⟨state.worklist.erase next, state.seen.insert next⟩).card <
              (cfg.unseen state).card := by
            apply Finset.card_lt_card
            rw [Finset.ssubset_iff_of_subset]
            · refine ⟨next, mem_unseen.mpr ⟨(sole.mem_labels wellFormed).2, notSeen⟩,
                fun listed => ?_⟩
              exact (mem_unseen.mp listed).2 (OrderedSet.mem_insert.mpr (Or.inl rfl))
            · intro label listed
              rw [mem_unseen, OrderedSet.mem_insert, not_or] at listed
              exact mem_unseen.mpr ⟨listed.1, listed.2.2⟩
          rcases @inductionHypothesis (bb.push next)
            ⟨state.worklist.erase next, state.seen.insert next⟩ (by omega) with
            ⟨added, extended⟩
          have last := bb.lastLabel_push next
          refine ⟨next :: added, extended.block, ?_, ?_, ?_, ?_, ?_⟩
          · intro label
            rw [extended.seen, OrderedSet.mem_insert, List.mem_cons]
            tauto
          · intro label
            rw [extended.worklist, OrderedSet.mem_erase, List.mem_cons]
            tauto
          · intro label member
            rcases List.mem_cons.mp member with rfl | later
            · exact ⟨notSeen, notExit⟩
            · rcases extended.fresh label later with ⟨unseenThen, isOther⟩
              rw [OrderedSet.mem_insert, not_or] at unseenThen
              exact ⟨unseenThen.2, isOther⟩
          · exact List.isChain_cons_cons.mpr ⟨sole, last ▸ extended.chain⟩
          · intro other isSole
            apply extended.stopped other
            rw [List.getLast_cons_cons] at isSole
            simpa only [last] using isSole
      · rename_i noSingle
        refine ⟨[], Extended.stop (fun next sole => ?_)⟩
        exact absurd sole.1 (noSingle next)

/-- A member of a list is the last one, or its edge leads to a member. -/
theorem last_or_step {relation : Label -> Label -> Prop} {labels : List Label}
    (chain : List.IsChain relation labels)
    (nonempty : labels ≠ []) {label : Label} (member : label ∈ labels) :
    label = labels.getLast nonempty ∨ ∃ next ∈ labels, relation label next := by
  induction labels with
  | nil => cases member
  | cons first rest inductionHypothesis =>
      cases rest with
      | nil => exact Or.inl (List.mem_singleton.mp member)
      | cons second others =>
          rw [List.isChain_cons_cons] at chain
          rw [List.getLast_cons_cons]
          rcases List.mem_cons.mp member with rfl | later
          · exact Or.inr ⟨second, List.mem_cons_of_mem _ List.mem_cons_self, chain.1⟩
          · rcases inductionHypothesis chain.2 (List.cons_ne_nil _ _) later with last |
              ⟨next, inRest, step⟩
            · exact Or.inl last
            · exact Or.inr ⟨next, List.mem_cons_of_mem _ inRest, step⟩

theorem inBlockOf_of_chain {added : List Label} {label : Label}
    (inBlock : cfg.InBlockOf leader label) (chain : List.IsChain cfg.SoleEdge (label :: added))
    (later : ∀ other ∈ added, other ≠ Label.exit ∧ leader < other) :
    ∀ other ∈ label :: added, cfg.InBlockOf leader other := by
  induction added generalizing label with
  | nil =>
      intro other member
      exact List.mem_singleton.mp member ▸ inBlock
  | cons next rest inductionHypothesis =>
      rw [List.isChain_cons_cons] at chain
      have ends := later next List.mem_cons_self
      have step := inductionHypothesis (inBlock.next chain.1 ends.1 ends.2) chain.2
        (fun other member => later other (List.mem_cons_of_mem _ member))
      intro other member
      rcases List.mem_cons.mp member with rfl | inRest
      · exact inBlock
      · exact step other inRest

end Block

/-! ## All blocks -/

section Collect

variable {cfg : Cfg}

/-- What holds between two turns.  The labels in `turned` had their turn. -/
structure Swept (cfg : Cfg) (turned : Set Label) (state : Collecting)
    (blocks : List BasicBlock) : Prop where
  inside : ∀ label ∈ state.worklist, label ∈ cfg.labels ∧ label ∉ state.seen
  covered : ∀ label ∈ cfg.labels, label ∈ state.worklist ∨ label ∈ state.seen
  before : ∀ first ∈ turned, ∀ label ∈ state.worklist, first < label
  seen : forall label, label ∈ state.seen ↔ label ∈ turned ∨
    ∃ leader ∈ turned, cfg.InBlockOf leader label
  member : forall label, label ≠ Label.entry ->
    ((∃ bb ∈ blocks, label ∈ bb.labels) ↔ ∃ leader ∈ turned, cfg.InBlockOf leader label)
  blockSeen : ∀ bb ∈ blocks, ∀ label ∈ bb.labels, label ∈ state.seen
  distinct : ∀ bb ∈ blocks, ∀ other ∈ blocks, forall label, label ∈ bb.labels ->
    label ∈ other.labels -> bb = other
  joined : ∀ bb ∈ blocks, List.IsChain cfg.SoleEdge bb.labels

theorem swept_start : Swept cfg ∅ ⟨cfg.labels, OrderedSet.empty⟩ [] where
  inside _ member := ⟨member, OrderedSet.not_mem_empty _⟩
  covered _ member := Or.inl member
  before _ impossible := by cases impossible
  seen _ := by simp
  member _ _ := by simp
  blockSeen _ impossible := by cases impossible
  distinct _ impossible := by cases impossible
  joined _ impossible := by cases impossible

section Turn

variable {turned : Set Label} {state : Collecting} {blocks : List BasicBlock} {label : Label}

theorem Swept.skip (swept : Swept cfg turned state blocks)
    (least : state.worklist.least? = some label) (continues : ¬ cfg.StartsBlock label) :
    Swept cfg (Insert.insert label turned) ⟨state.worklist.erase label,
      state.seen.insert label⟩ blocks := by
  rcases OrderedSet.least?_eq_some least with ⟨listed, lowest⟩
  have leaders : forall other, (∃ leader ∈ (Insert.insert label turned : Set Label),
      cfg.InBlockOf leader other) ↔ ∃ leader ∈ turned, cfg.InBlockOf leader other := by
    intro other
    constructor
    · rintro ⟨leader, isTurned, inBlock⟩
      rcases Set.mem_insert_iff.mp isTurned with rfl | earlier
      · exact absurd inBlock.startsBlock continues
      · exact ⟨leader, earlier, inBlock⟩
    · rintro ⟨leader, isTurned, inBlock⟩
      exact ⟨leader, Set.mem_insert_of_mem _ isTurned, inBlock⟩
  constructor
  · intro other member
    rw [OrderedSet.mem_erase] at member
    rcases swept.inside other member.1 with ⟨isLabel, notSeen⟩
    exact ⟨isLabel, fun isSeen => (OrderedSet.mem_insert.mp isSeen).elim member.2 notSeen⟩
  · intro other isLabel
    rw [OrderedSet.mem_erase, OrderedSet.mem_insert]
    by_cases same : other = label
    · exact Or.inr (Or.inl same)
    · exact (swept.covered other isLabel).imp (fun member => ⟨member, same⟩) Or.inr
  · intro first isTurned other member
    rw [OrderedSet.mem_erase] at member
    rcases Set.mem_insert_iff.mp isTurned with rfl | earlier
    · exact lt_of_le_of_ne (lowest other member.1) member.2.symm
    · exact swept.before first earlier other member.1
  · intro other
    rw [leaders, OrderedSet.mem_insert, swept.seen, Set.mem_insert_iff, or_assoc]
  · intro other notEntry
    rw [leaders, swept.member other notEntry]
  · intro bb isBlock other member
    exact OrderedSet.mem_insert.mpr (Or.inr (swept.blockSeen bb isBlock other member))
  · exact swept.distinct
  · exact swept.joined

/-- The chain that is found from a label holds all labels that its block should have. -/
theorem Swept.chain_iff (wellFormed : cfg.WellFormed) (swept : Swept cfg turned state blocks)
    (least : state.worklist.least? = some label) (starts : cfg.StartsBlock label)
    {added : List Label} {result : BasicBlock × Collecting} (extended : Extended cfg ⟨label, []⟩
      ⟨state.worklist.erase label, state.seen.insert label⟩ added result) (other : Label) :
    other ∈ label :: added ↔ cfg.InBlockOf label other := by
  rcases OrderedSet.least?_eq_some least with ⟨listed, lowest⟩
  constructor
  · intro member
    refine inBlockOf_of_chain (.leader starts) extended.chain (fun next isAdded => ?_) other member
    rcases extended.fresh next isAdded with ⟨notSeen, notExit⟩
    rw [OrderedSet.mem_insert, not_or] at notSeen
    have isLabel : next ∈ cfg.labels := by
      rcases List.mem_iff_append.mp isAdded with ⟨front, back, rfl⟩
      have step := List.isChain_append.mp
        (show List.IsChain cfg.SoleEdge ((label :: front) ++ next :: back) from extended.chain)
      exact ((step.2.2 _ (List.getLast_mem_getLast? (List.cons_ne_nil _ _)) _ rfl).mem_labels
        wellFormed).2
    have waits := (swept.covered next isLabel).resolve_right notSeen.2
    exact ⟨notExit, lt_of_le_of_ne (lowest next waits) (Ne.symm notSeen.1)⟩
  · intro inBlock
    induction inBlock with
    | leader => exact List.mem_cons_self
    | @next before next inBlock sole notExit later inductionHypothesis =>
        rcases last_or_step extended.chain (List.cons_ne_nil _ _) inductionHypothesis with last |
          ⟨found, member, step⟩
        · have stopped := (extended.stopped next (last ▸ sole)).resolve_right notExit
          rw [extended.seen, OrderedSet.mem_insert, swept.seen] at stopped
          rcases stopped with (isFirst | isTurned | ⟨leader, isTurned, there⟩) | isAdded
          · exact absurd (isFirst ▸ starts) sole.not_startsBlock
          · exact absurd (swept.before next isTurned label listed) (lt_asymm later)
          · -- An earlier block would have the same start.
            have same : leader = label := there.unique (inBlock.next sole notExit later)
            exact absurd (swept.before leader isTurned label listed) (same ▸ lt_irrefl _)
          · exact List.mem_cons_of_mem _ isAdded
        · exact step.child_unique sole ▸ member

/-- The turn of a label that starts a block. -/
theorem Swept.place (wellFormed : cfg.WellFormed) (swept : Swept cfg turned state blocks)
    (least : state.worklist.least? = some label) (starts : cfg.StartsBlock label)
    {added : List Label} {result : BasicBlock × Collecting} (extended : Extended cfg ⟨label, []⟩
      ⟨state.worklist.erase label, state.seen.insert label⟩ added result) :
    Swept cfg (Insert.insert label turned) result.2 (emplaceBlock blocks result.1) := by
  rcases OrderedSet.least?_eq_some least with ⟨listed, lowest⟩
  have chainIff := swept.chain_iff wellFormed least starts extended
  have notAdded : label ∉ added :=
    fun isAdded => (extended.fresh label isAdded).1 (OrderedSet.mem_insert.mpr (Or.inl rfl))
  have leaders : forall other, (∃ leader ∈ (Insert.insert label turned : Set Label),
      cfg.InBlockOf leader other) ↔ other ∈ label :: added ∨
      ∃ leader ∈ turned, cfg.InBlockOf leader other := by
    intro other
    rw [chainIff]
    constructor
    · rintro ⟨leader, isTurned, inBlock⟩
      rcases Set.mem_insert_iff.mp isTurned with rfl | earlier
      · exact Or.inl inBlock
      · exact Or.inr ⟨leader, earlier, inBlock⟩
    · rintro (inBlock | ⟨leader, isTurned, inBlock⟩)
      · exact ⟨label, Set.mem_insert _ _, inBlock⟩
      · exact ⟨leader, Set.mem_insert_of_mem _ isTurned, inBlock⟩
  have freshChain : ∀ other ∈ label :: added, other ∉ state.seen := by
    intro other member
    rcases List.mem_cons.mp member with rfl | isAdded
    · exact (swept.inside other listed).2
    · have notSeen := (extended.fresh other isAdded).1
      rw [OrderedSet.mem_insert, not_or] at notSeen
      exact notSeen.2
  have seenIff : forall other, other ∈ result.2.seen ↔ other ∈ state.seen ∨
      other ∈ label :: added := by
    intro other
    rw [extended.seen, OrderedSet.mem_insert, List.mem_cons]
    tauto
  have shape := foldl_push notAdded
  rw [<- extended.block] at shape
  have inChain : ∀ other ∈ result.1.labels, other ∈ label :: added := by
    intro other member
    rcases shape with whole | ⟨_, short⟩
    · rwa [whole] at member
    · rw [short] at member
      exact List.mem_cons_of_mem _ member
  have inBlock : forall other, other ≠ Label.entry ->
      (other ∈ result.1.labels ↔ other ∈ label :: added) := by
    intro other notEntry
    rcases shape with whole | ⟨isEntry, short⟩
    · rw [whole]
    · rw [short, List.mem_cons, or_iff_right (fun same => notEntry (same.trans isEntry))]
  have notOld : ∀ bb ∈ blocks, ∀ other ∈ bb.labels, other ∉ result.1.labels :=
    fun bb isBlock other member isNew => freshChain other (inChain other isNew)
      (swept.blockSeen bb isBlock other member)
  have emplaced : emplaceBlock blocks result.1 = blocks ++ [result.1] := by
    rw [emplaceBlock, if_neg]
    intro duplicate
    rcases List.mem_map.mp duplicate with ⟨bb, isBlock, same⟩
    exact notOld bb isBlock bb.first List.mem_cons_self (same ▸ List.mem_cons_self)
  rw [emplaced]
  have cases_ : ∀ bb ∈ blocks ++ [result.1], bb ∈ blocks ∨ bb = result.1 :=
    fun bb member => (List.mem_append.mp member).imp id List.mem_singleton.mp
  constructor
  · intro other member
    rw [extended.worklist, OrderedSet.mem_erase] at member
    rcases swept.inside other member.1.1 with ⟨isLabel, notSeen⟩
    refine ⟨isLabel, fun isSeen => ?_⟩
    rcases (seenIff other).mp isSeen with old | new
    · exact notSeen old
    · exact (List.mem_cons.mp new).elim member.1.2 member.2
  · intro other isLabel
    rw [extended.worklist, OrderedSet.mem_erase, seenIff, List.mem_cons]
    have covered := swept.covered other isLabel
    tauto
  · intro first isTurned other member
    rw [extended.worklist, OrderedSet.mem_erase] at member
    rcases Set.mem_insert_iff.mp isTurned with rfl | earlier
    · exact lt_of_le_of_ne (lowest other member.1.1) member.1.2.symm
    · exact swept.before first earlier other member.1.1
  · intro other
    rw [seenIff, leaders, swept.seen, Set.mem_insert_iff, List.mem_cons]
    generalize (∃ leader ∈ turned, cfg.InBlockOf leader other) = earlier
    tauto
  · intro other notEntry
    rw [leaders, <- swept.member other notEntry, <- inBlock other notEntry]
    constructor
    · rintro ⟨bb, isBlock, member⟩
      rcases cases_ bb isBlock with old | rfl
      · exact Or.inr ⟨bb, old, member⟩
      · exact Or.inl member
    · rintro (member | ⟨bb, isBlock, member⟩)
      · exact ⟨_, List.mem_append_right _ List.mem_cons_self, member⟩
      · exact ⟨bb, List.mem_append_left _ isBlock, member⟩
  · intro bb isBlock other member
    rw [seenIff]
    rcases cases_ bb isBlock with old | rfl
    · exact Or.inl (swept.blockSeen bb old other member)
    · exact Or.inr (inChain other member)
  · intro bb isBlock second isSecond other member again
    rcases cases_ bb isBlock with old | rfl
    · rcases cases_ second isSecond with secondOld | rfl
      · exact swept.distinct bb old second secondOld other member again
      · exact absurd again (notOld bb old other member)
    · rcases cases_ second isSecond with secondOld | rfl
      · exact absurd member (notOld second secondOld other again)
      · rfl
  · intro bb isBlock
    rcases cases_ bb isBlock with old | rfl
    · exact swept.joined bb old
    · rcases shape with whole | ⟨_, short⟩
      · rw [whole]
        exact extended.chain
      · rw [short]
        exact extended.chain.tail

end Turn

theorem length_erase_lt {set : OrderedSet Label} {label : Label} (member : label ∈ set) :
    (set.erase label).elements.length < set.elements.length := by
  apply List.length_filter_lt_length_iff_exists.mpr
  exact ⟨label, member, by simp⟩

/-- The outer loop, by induction over the labels that are left. -/
theorem Swept.loop (wellFormed : cfg.WellFormed) (steps : Nat) {turned : Set Label}
    {state : Collecting}
    {blocks : List BasicBlock} (swept : Swept cfg turned state blocks)
    (enough : state.worklist.elements.length ≤ steps) :
    exists last final, (forall label, label ∉ final.worklist) ∧
      Swept cfg last final (collectLoop cfg steps state blocks) := by
  induction steps generalizing turned state blocks with
  | zero =>
      refine ⟨turned, state, fun label member => ?_, swept⟩
      rw [OrderedSet.mem_def, List.eq_nil_of_length_eq_zero (Nat.le_zero.mp enough)] at member
      cases member
  | succ steps inductionHypothesis =>
      rw [collectLoop]
      cases least : state.worklist.least? with
      | none => exact ⟨turned, state, OrderedSet.least?_eq_none.mp least, swept⟩
      | some label =>
          have listed := (OrderedSet.least?_eq_some least).1
          have fewer := length_erase_lt listed
          dsimp only
          rw [if_neg (swept.inside label listed).2]
          split
          · rename_i starts
            have enoughSteps : (cfg.unseen ⟨state.worklist.erase label,
                state.seen.insert label⟩).card ≤
                cfg.labels.elements.length :=
              (Finset.card_le_card Finset.sdiff_subset).trans (List.toFinset_card_le _)
            rcases @extendBlock_spec cfg wellFormed _ ⟨label, []⟩ _ enoughSteps with
              ⟨added, extended⟩
            have placed := swept.place wellFormed least starts extended
            revert placed
            have kept : forall other, other ∈
                (extendBlock cfg cfg.labels.elements.length ⟨label, []⟩
                ⟨state.worklist.erase label, state.seen.insert label⟩).2.worklist ->
                other ∈ state.worklist.erase label :=
              fun other member => ((extended.worklist other).mp member).1
            generalize extendBlock cfg cfg.labels.elements.length ⟨label, []⟩
              ⟨state.worklist.erase label, state.seen.insert label⟩ = result at kept ⊢
            intro placed
            apply inductionHypothesis placed
            have atMost := (List.subperm_of_subset result.2.worklist.nodup kept).length_le
            omega
          · rename_i continues
            exact inductionHypothesis (swept.skip least continues) (by dsimp only; omega)

/-- The blocks hold every label but the entry and the exit once, and their labels follow
one another along sole edges. -/
structure BlocksPartition (cfg : Cfg) (blocks : List BasicBlock) : Prop where
  once : ∀ label ∈ cfg.labels, label ≠ Label.entry -> label ≠ Label.exit -> ∃! bb, bb ∈ blocks ∧
    label ∈ bb.labels
  joined : ∀ bb ∈ blocks, List.IsChain cfg.SoleEdge bb.labels

theorem mem_collectBasicBlocks (wellFormed : cfg.WellFormed) {label : Label}
    (isLabel : label ∈ cfg.labels) (notEntry : label ≠ Label.entry) :
    (∃ bb ∈ cfg.collectBasicBlocks true, label ∈ bb.labels) ↔
      exists leader, cfg.InBlockOf leader label := by
  rcases swept_start.loop wellFormed _ (le_refl cfg.labels.elements.length) with
    ⟨last, final, empty, swept⟩
  rw [collectBasicBlocks, if_pos rfl, swept.member label notEntry]
  constructor
  · rintro ⟨leader, _, inBlock⟩
    exact ⟨leader, inBlock⟩
  · rintro ⟨leader, inBlock⟩
    have leaderSeen := (swept.covered leader (inBlock.leader_mem wellFormed isLabel)).resolve_left
      (empty leader)
    rcases (swept.seen leader).mp leaderSeen with isTurned | ⟨other, isTurned, there⟩
    · exact ⟨leader, isTurned, inBlock⟩
    · have same : other = leader := there.unique (.leader inBlock.startsBlock)
      exact ⟨leader, same ▸ isTurned, inBlock⟩

/-- The blocks are disjoint, and follow sole edges, whatever the order of the labels is. -/
theorem collectBasicBlocks_joined (wellFormed : cfg.WellFormed) :
    (∀ bb ∈ cfg.collectBasicBlocks true, ∀ other ∈ cfg.collectBasicBlocks true, forall label,
      label ∈ bb.labels -> label ∈ other.labels -> bb = other) ∧
    ∀ bb ∈ cfg.collectBasicBlocks true, List.IsChain cfg.SoleEdge bb.labels := by
  rcases swept_start.loop wellFormed _ (le_refl cfg.labels.elements.length) with
    ⟨last, final, _, swept⟩
  rw [collectBasicBlocks, if_pos rfl]
  exact ⟨swept.distinct, swept.joined⟩

/-- The blocks of a prepared graph are a partition if every label comes later in the
order than the label at which its chain starts, and so do the labels between. -/
theorem collectBasicBlocks_partition_iff {prog : InstructionSeq} {isPrivileged : Bool}
    {options : PrepareCfgOptions}
    {fuel : Nat} (prepared : prepareCfg prog isPrivileged options fuel = .ok cfg) :
    BlocksPartition cfg (cfg.collectBasicBlocks true) ↔
      ∀ label ∈ cfg.labels, label ≠ Label.entry -> label ≠ Label.exit ->
      exists leader, cfg.InBlockOf leader label := by
  have wellFormed := prepareCfg_wellFormed prepared
  rcases collectBasicBlocks_joined wellFormed with ⟨distinct, joined⟩
  constructor
  · intro partitioned label isLabel notEntry notExit
    rcases partitioned.once label isLabel notEntry notExit with ⟨bb, inside, _⟩
    exact (mem_collectBasicBlocks wellFormed isLabel notEntry).mp ⟨bb, inside⟩
  · intro chains
    refine ⟨fun label isLabel notEntry notExit => ?_, joined⟩
    rcases (mem_collectBasicBlocks wellFormed isLabel notEntry).mpr
      (chains label isLabel notEntry notExit) with
      ⟨bb, isBlock, member⟩
    exact ⟨bb, ⟨isBlock, member⟩, fun other inside =>
      distinct other inside.1 bb isBlock label inside.2 member⟩

end Collect

/-! ## Two programs -/

instance decidableSoleEdge (cfg : Cfg) : DecidableRel cfg.SoleEdge :=
  fun _ _ => inferInstanceAs (Decidable (_ ∧ _))

/-- The chain of a loop that counts `r1` up to ten. -/
def countingChains : List (Label × List Label) :=
  [(Label.entry, [{ fromIndex := 0 }]), ({ fromIndex := 1 }, [{ fromIndex := 2 }]),
    ({ fromIndex := 2, toIndex := 1 }, []),
    ({ fromIndex := 2, toIndex := 3 }, [{ fromIndex := 3 }])]

theorem collectBasicBlocks_countingLoop :
    exists cfg, prepareCfg countingLoop false ⟨false, true⟩ 0 = .ok cfg ∧
      BlocksPartition cfg (cfg.collectBasicBlocks true) := by
  have checked : returnsChecked
      (fun cfg => decide ((∀ label ∈ cfg.labels.elements, label ≠ Label.entry ->
      label ≠ Label.exit -> ∃ chain ∈ countingChains, label ∈ chain.1 :: chain.2) ∧
        ∀ chain ∈ countingChains, cfg.StartsBlock chain.1 ∧
        List.IsChain cfg.SoleEdge (chain.1 :: chain.2) ∧
          ∀ other ∈ chain.2, other ≠ Label.exit ∧ chain.1 < other))
      (prepareCfg countingLoop false ⟨false, true⟩ 0) = true := by
    decide
  rcases exists_of_returnsChecked checked with ⟨cfg, prepared, shape⟩
  rcases of_decide_eq_true shape with ⟨covered, chains⟩
  refine ⟨cfg, prepared, (collectBasicBlocks_partition_iff prepared).mpr
    (fun label isLabel notEntry notExit => ?_)⟩
  rcases covered label isLabel notEntry notExit with ⟨chain, listed, member⟩
  rcases chains chain listed with ⟨starts, sole, later⟩
  exact ⟨chain.1, inBlockOf_of_chain (.leader starts) sole later label member⟩

/-- A program with a jump back to its exit. -/
def jumpsBack : InstructionSeq :=
  [({ fromIndex := 0 }, .jmp ⟨some ⟨.eq, ⟨1⟩, .imm ⟨0⟩, true⟩, { fromIndex := 3 }⟩),
    ({ fromIndex := 1 }, .jmp ⟨none, { fromIndex := 3 }⟩),
    ({ fromIndex := 2 }, .exit ⟨[]⟩),
    ({ fromIndex := 3 }, .jmp ⟨none, { fromIndex := 2 }⟩)]

/-- The exit instruction has its turn before the jump to it, and is in no block. -/
theorem not_blocksPartition_jumpsBack :
    exists cfg, prepareCfg jumpsBack false ⟨false, true⟩ 0 = .ok cfg ∧
      ¬ BlocksPartition cfg (cfg.collectBasicBlocks true) := by
  have checked : returnsChecked (fun cfg => decide ({ fromIndex := 2 } ∈ cfg.labels ∧
      ∀ bb ∈ cfg.collectBasicBlocks true, { fromIndex := 2 } ∉ bb.labels))
      (prepareCfg jumpsBack false ⟨false, true⟩ 0) = true := by
    decide
  rcases exists_of_returnsChecked checked with ⟨cfg, prepared, shape⟩
  rcases of_decide_eq_true shape with ⟨isLabel, lost⟩
  refine ⟨cfg, prepared, fun partitioned => ?_⟩
  rcases partitioned.once _ isLabel (by decide) (by decide) with ⟨bb, inside, _⟩
  exact lost bb inside.1 inside.2

end Cfg
end Prevail
