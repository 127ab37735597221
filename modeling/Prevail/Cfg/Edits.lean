import Prevail.Cfg.Prepare

namespace Prevail

/-!
# The two maps of the control-flow graph

`cfg_t` keeps the neighbours and the instructions of its labels in two maps.
The operations of `cfg_builder_t` are here as they work on these maps.  They
refine the operations of `Cfg`, which has one set of labels, so both maps have
the same labels after any sequence of edits, and an edge is in the children of
its source exactly if it is in the parents of its target.
-/

structure Adjacent where
  parents : OrderedSet Label := OrderedSet.empty
  children : OrderedSet Label := OrderedSet.empty

/-- The maps of `cfg_t`. -/
structure CfgMaps where
  neighbours : Label -> Option Adjacent
  instructions : Label -> Option GuardedInstruction

namespace CfgMaps

/-- The maps of a new builder. -/
def initial : CfgMaps where
  neighbours label := if label = Label.entry ∨ label = Label.exit then some {} else none
  instructions label := if label = Label.entry ∨
    label = Label.exit then some { cmd := .undefined 0 } else none

def contains (maps : CfgMaps) (label : Label) : Bool := (maps.neighbours label).isSome

def getNode (maps : CfgMaps) (label : Label) : Except CfgError Adjacent :=
  match maps.neighbours label with
  | some node => .ok node
  | none => .error (.labelNotFound label)

/-- `neighbours.at`. -/
def at_ (maps : CfgMaps) (label : Label) : Except CfgError Adjacent :=
  match maps.neighbours label with
  | some node => .ok node
  | none => .error .outOfRange

/-- Replace the neighbours of a label. -/
def setNode (maps : CfgMaps) (label : Label) (node : Adjacent) : CfgMaps :=
  { maps with neighbours := Function.update maps.neighbours label (some node) }

/-- `emplace` into the instructions, which keeps an entry that is there. -/
def emplaceInstruction (maps : CfgMaps) (label : Label) (ins : GuardedInstruction) : CfgMaps :=
  match maps.instructions label with
  | some _ => maps
  | none => { maps with instructions := Function.update maps.instructions label (some ins) }

def insert (label : Label) (ins : GuardedInstruction) (maps : CfgMaps) : Except CfgError CfgMaps :=
  match maps.neighbours label with
  | some _ => .error (.labelExists label)
  | none => .ok ((maps.setNode label {}).emplaceInstruction label ins)

def addChild (a b : Label) (maps : CfgMaps) : Except CfgError CfgMaps := do
  let source <- maps.at_ a
  let maps := maps.setNode a { source with children := source.children.insert b }
  let target <- maps.at_ b
  return maps.setNode b { target with parents := target.parents.insert a }

def removeChild (a b : Label) (maps : CfgMaps) : Except CfgError CfgMaps := do
  let source <- maps.getNode a
  let maps := maps.setNode a { source with children := source.children.erase b }
  let target <- maps.getNode b
  return maps.setNode b { target with parents := target.parents.erase a }

def insertJump (src target : Label) (ins : GuardedInstruction) (maps : CfgMaps) :
    Except CfgError CfgMaps :=
  if maps.contains (Label.makeJump src target)
    then .error (.jumpLabelExists (Label.makeJump src target))
  else do
    let maps <- maps.insert (Label.makeJump src target) ins
    let maps <- maps.addChild src (Label.makeJump src target)
    maps.addChild (Label.makeJump src target) target

/-- The loop of `insert_after` over the former children. -/
def detach (prevLabel : Label) : List Label -> CfgMaps -> Except CfgError CfgMaps
  | [], maps => .ok maps
  | next :: rest, maps => do
      let node <- maps.getNode next
      detach prevLabel rest (maps.setNode next { node with
        parents := node.parents.erase prevLabel })

/-- The loop of `insert_after` that adds the new edges. -/
def reattach (prevLabel newLabel : Label) : List Label -> CfgMaps -> Except CfgError CfgMaps
  | [], maps => .ok maps
  | next :: rest, maps => do
      let maps <- maps.addChild prevLabel newLabel
      let maps <- maps.addChild newLabel next
      reattach prevLabel newLabel rest maps

def insertAfter (prevLabel newLabel : Label) (ins : GuardedInstruction) (maps : CfgMaps) :
    Except CfgError CfgMaps :=
  if prevLabel = newLabel then .error (.insertAfterSame newLabel)
  else do
    let node <- maps.getNode prevLabel
    let prevChildren := node.children.elements
    let maps <- detach prevLabel prevChildren
      (maps.setNode prevLabel { node with children := OrderedSet.empty })
    let maps <- maps.insert newLabel ins
    reattach prevLabel newLabel prevChildren maps

/-! ## Refinement -/

/-- The maps have the labels of the graph as their keys, and its entries. -/
structure Represents (maps : CfgMaps) (cfg : Cfg) : Prop where
  neighbours : forall label, maps.neighbours label =
    if label ∈ cfg.labels then some ⟨cfg.parents label, cfg.children label⟩ else none
  instructions : forall label, maps.instructions label =
    if label ∈ cfg.labels then some (cfg.instructions label) else none

/-- Two operations throw the same error, or return maps and a graph that agree. -/
def Agree : Except CfgError CfgMaps -> Except CfgError Cfg -> Prop
  | .ok maps, .ok cfg => Represents maps cfg
  | .error first, .error second => first = second
  | _, _ => False

theorem Agree.bind {first : Except CfgError CfgMaps} {second : Except CfgError Cfg}
    (agree : Agree first second)
    {mapsStep : CfgMaps -> Except CfgError CfgMaps} {cfgStep : Cfg -> Except CfgError Cfg}
    (steps : forall maps cfg, Represents maps cfg -> Agree (mapsStep maps) (cfgStep cfg)) :
    Agree (first >>= mapsStep) (second >>= cfgStep) := by
  rcases first with err | maps <;> rcases second with other | cfg
  · exact agree
  · exact agree.elim
  · exact agree.elim
  · exact steps maps cfg agree

theorem Agree.exists_cfg {first : Except CfgError CfgMaps} {second : Except CfgError Cfg}
    (agree : Agree first second) {maps : CfgMaps} (run : first = .ok maps) :
    exists cfg, second = .ok cfg ∧ Represents maps cfg := by
  subst run
  rcases second with other | cfg
  · exact agree.elim
  · exact ⟨cfg, rfl, agree⟩

theorem Agree.exists_maps {first : Except CfgError CfgMaps} {second : Except CfgError Cfg}
    (agree : Agree first second) {cfg : Cfg} (run : second = .ok cfg) :
    exists maps, first = .ok maps ∧ Represents maps cfg := by
  subst run
  rcases first with err | maps
  · exact agree.elim
  · exact ⟨maps, rfl, agree⟩

theorem initial_represents : Represents initial Cfg.initial where
  neighbours label := by simp [initial, Cfg.initial, or_comm]
  instructions label := by simp [initial, Cfg.initial, or_comm]

section Steps

variable {maps : CfgMaps} {cfg : Cfg} (represents : Represents maps cfg)

include represents

theorem Represents.node_of_mem {label : Label} (member : label ∈ cfg.labels) :
    maps.neighbours label = some ⟨cfg.parents label, cfg.children label⟩ := by
  rw [represents.neighbours, if_pos member]

theorem Represents.node_of_not_mem {label : Label} (fresh : label ∉ cfg.labels) :
    maps.neighbours label = none := by
  rw [represents.neighbours, if_neg fresh]

theorem Represents.contains_eq (label : Label) :
    maps.contains label = decide (label ∈ cfg.labels) := by
  rw [contains, represents.neighbours]
  by_cases member : label ∈ cfg.labels <;> simp [member]

/-- New neighbours of a label of the graph. -/
theorem Represents.setNode {label : Label} (member : label ∈ cfg.labels)
    (parents children : OrderedSet Label) :
    Represents (maps.setNode label ⟨parents, children⟩)
      ((cfg.setChildren label children).setParents label parents) where
  neighbours other := by
    by_cases same : other = label
    · subst same
      simp [CfgMaps.setNode, Cfg.setChildren, Cfg.setParents, member]
    · simp [CfgMaps.setNode, Cfg.setChildren, Cfg.setParents, same, represents.neighbours]
  instructions := represents.instructions

theorem Represents.insert (label : Label) (ins : GuardedInstruction) :
    Agree (maps.insert label ins) (cfg.insert label ins) := by
  unfold CfgMaps.insert Cfg.insert
  by_cases member : label ∈ cfg.labels
  · rw [represents.node_of_mem member, if_pos member]
    rfl
  · rw [represents.node_of_not_mem member, if_neg member]
    have noInstruction : maps.instructions label = none := by
      rw [represents.instructions, if_neg member]
    refine { neighbours := fun other => ?_, instructions := fun other => ?_ }
    · simp only [emplaceInstruction, CfgMaps.setNode, noInstruction, Cfg.withLabel,
        OrderedSet.mem_insert]
      by_cases same : other = label
      · subst same
        simp
      · simp [same, represents.neighbours]
    · simp only [emplaceInstruction, CfgMaps.setNode, noInstruction, Cfg.withLabel,
        OrderedSet.mem_insert]
      by_cases same : other = label
      · subst same
        simp
      · simp [same, represents.instructions]

/-- New children of a label of the graph, the parents as they are. -/
theorem Represents.setChildren {label : Label} (member : label ∈ cfg.labels)
    (children : OrderedSet Label) :
    Represents (maps.setNode label ⟨cfg.parents label, children⟩)
    (cfg.setChildren label children) := by
  have step := represents.setNode member (cfg.parents label) children
  have same : (cfg.setChildren label children).setParents label (cfg.parents label) =
      cfg.setChildren label children := by
    simp [Cfg.setChildren, Cfg.setParents]
  rwa [same] at step

/-- New parents of a label of the graph, the children as they are. -/
theorem Represents.setParents {label : Label} (member : label ∈ cfg.labels)
    (parents : OrderedSet Label) :
    Represents (maps.setNode label ⟨parents, cfg.children label⟩)
    (cfg.setParents label parents) := by
  have step := represents.setNode member parents (cfg.children label)
  have same : (cfg.setChildren label (cfg.children label)).setParents label parents =
      cfg.setParents label parents := by
    simp [Cfg.setChildren, Cfg.setParents]
  rwa [same] at step

theorem Represents.addChild (a b : Label) : Agree (maps.addChild a b) (cfg.addChild a b) := by
  unfold CfgMaps.addChild Cfg.addChild at_
  by_cases source : a ∈ cfg.labels
  · have middle := represents.setChildren source ((cfg.children a).insert b)
    rw [represents.node_of_mem source]
    by_cases target : b ∈ cfg.labels
    · rw [if_pos ⟨source, target⟩]
      simp only [bind, Except.bind, middle.node_of_mem target]
      exact middle.setParents target ((cfg.parents b).insert a)
    · rw [if_neg (fun both => target both.2)]
      simp only [bind, Except.bind, middle.node_of_not_mem target]
      rfl
  · rw [represents.node_of_not_mem source, if_neg (fun both => source both.1)]
    rfl

theorem Represents.removeChild (a b : Label) :
    Agree (maps.removeChild a b) (cfg.removeChild a b) := by
  unfold CfgMaps.removeChild Cfg.removeChild getNode Cfg.require
  by_cases source : a ∈ cfg.labels
  · have middle := represents.setChildren source ((cfg.children a).erase b)
    rw [represents.node_of_mem source, if_pos source]
    by_cases target : b ∈ cfg.labels
    · rw [if_pos target]
      simp only [bind, Except.bind, middle.node_of_mem target]
      exact middle.setParents target ((cfg.parents b).erase a)
    · rw [if_neg target]
      simp only [bind, Except.bind, middle.node_of_not_mem target]
      rfl
  · rw [represents.node_of_not_mem source, if_neg source]
    rfl

theorem Represents.insertJump (src target : Label) (ins : GuardedInstruction) :
    Agree (maps.insertJump src target ins) (cfg.insertJump src target ins) := by
  unfold CfgMaps.insertJump Cfg.insertJump
  rw [represents.contains_eq]
  by_cases member : Label.makeJump src target ∈ cfg.labels
  · simp only [member, decide_true, if_true]
    rfl
  · simp only [member, decide_false, Bool.false_eq_true, if_false]
    refine (represents.insert _ ins).bind (fun first firstCfg firstRepresents => ?_)
    exact (firstRepresents.addChild _ _).bind (fun second secondCfg secondRepresents =>
      secondRepresents.addChild _ _)

theorem Represents.detach (prevLabel : Label) (successors : List Label) :
    Agree (detach prevLabel successors maps) (Cfg.detach prevLabel successors cfg) := by
  induction successors generalizing maps cfg with
  | nil => exact represents
  | cons next rest inductionHypothesis =>
      unfold CfgMaps.detach Cfg.detach getNode Cfg.require
      by_cases member : next ∈ cfg.labels
      · rw [represents.node_of_mem member, if_pos member]
        exact inductionHypothesis
          (represents.setParents member ((cfg.parents next).erase prevLabel))
      · rw [represents.node_of_not_mem member, if_neg member]
        rfl

theorem Represents.reattach (prevLabel newLabel : Label) (successors : List Label) :
    Agree (reattach prevLabel newLabel successors maps)
    (Cfg.reattach prevLabel newLabel successors cfg) := by
  induction successors generalizing maps cfg with
  | nil => exact represents
  | cons next rest inductionHypothesis =>
      refine (represents.addChild _ _).bind (fun first firstCfg firstRepresents => ?_)
      exact (firstRepresents.addChild _ _).bind (fun second secondCfg secondRepresents =>
        inductionHypothesis secondRepresents)

theorem Represents.insertAfter (prevLabel newLabel : Label) (ins : GuardedInstruction) :
    Agree (maps.insertAfter prevLabel newLabel ins) (cfg.insertAfter prevLabel newLabel ins) := by
  unfold CfgMaps.insertAfter Cfg.insertAfter getNode Cfg.require
  by_cases same : prevLabel = newLabel
  · rw [if_pos same, if_pos same]
    rfl
  · rw [if_neg same, if_neg same]
    by_cases member : prevLabel ∈ cfg.labels
    · rw [represents.node_of_mem member, if_pos member]
      have cleared := represents.setChildren member OrderedSet.empty
      refine (cleared.detach prevLabel _).bind (fun first firstCfg firstRepresents => ?_)
      exact (firstRepresents.insert newLabel ins).bind (fun second secondCfg secondRepresents =>
        secondRepresents.reattach prevLabel newLabel _)
    · rw [represents.node_of_not_mem member, if_neg member]
      rfl

end Steps

end CfgMaps

/-! ## Operations that do not throw -/

namespace Cfg

variable {cfg : Cfg} {prevLabel newLabel : Label} {successors : List Label}

theorem exists_detach (members : ∀ label ∈ successors, label ∈ cfg.labels) :
    exists next, detach prevLabel successors cfg = .ok next := by
  induction successors generalizing cfg with
  | nil => exact ⟨cfg, rfl⟩
  | cons first rest inductionHypothesis =>
      have required := require_eq_ok.mpr (members first List.mem_cons_self)
      have restMembers : ∀ label ∈ rest, label ∈ cfg.labels :=
        fun label member => members label (List.mem_cons_of_mem _ member)
      rw [detach, required]
      exact @inductionHypothesis
        (cfg.setParents first ((cfg.parents first).erase prevLabel)) restMembers

theorem exists_reattach (prevMember : prevLabel ∈ cfg.labels) (newMember : newLabel ∈ cfg.labels)
    (members : ∀ label ∈ successors, label ∈ cfg.labels) :
    exists next, reattach prevLabel newLabel successors cfg = .ok next := by
  induction successors generalizing cfg with
  | nil => exact ⟨cfg, rfl⟩
  | cons first rest inductionHypothesis =>
      have firstAdded := addChild_eq_ok.mpr ⟨⟨prevMember, newMember⟩, rfl⟩
      have secondAdded := (@addChild_eq_ok newLabel first (cfg.withEdge prevLabel newLabel) _).mpr
        ⟨⟨newMember, members first List.mem_cons_self⟩, rfl⟩
      rcases @inductionHypothesis ((cfg.withEdge prevLabel newLabel).withEdge newLabel first)
        prevMember newMember
        (fun label member => members label (List.mem_cons_of_mem _ member)) with ⟨next, run⟩
      exact ⟨next, bind_eq_ok.mpr ⟨_, firstAdded, bind_eq_ok.mpr ⟨_, secondAdded, run⟩⟩⟩

theorem exists_insertAfter (wellFormed : cfg.WellFormed) (member : prevLabel ∈ cfg.labels)
    (fresh : newLabel ∉ cfg.labels) (ins : GuardedInstruction) :
    exists next, cfg.insertAfter prevLabel newLabel ins = .ok next := by
  have different : prevLabel ≠ newLabel := fun same => fresh (same ▸ member)
  have members : ∀ label ∈ (cfg.children prevLabel).elements, label ∈ cfg.labels :=
    fun label child => wellFormed.target prevLabel label child
  rcases @exists_detach (cfg.setChildren prevLabel OrderedSet.empty) prevLabel _ members with
    ⟨detached, detaching⟩
  have labels := (detach_spec detaching).1
  have inserting := (@insert_eq_ok newLabel ins detached _).mpr ⟨labels ▸ fresh, rfl⟩
  have kept : forall label, label ∈ cfg.labels ->
      label ∈ (detached.withLabel newLabel ins).labels := by
    intro label before
    rw [withLabel_labels, OrderedSet.mem_insert, labels]
    exact Or.inr before
  rcases exists_reattach (kept prevLabel member) (OrderedSet.mem_insert.mpr (Or.inl rfl))
    (fun label child => kept label (members label child)) with ⟨next, run⟩
  refine ⟨next, ?_⟩
  rw [insertAfter, if_neg different]
  exact bind_eq_ok.mpr ⟨(), require_eq_ok.mpr member,
    bind_eq_ok.mpr ⟨detached, detaching, bind_eq_ok.mpr ⟨_, inserting, run⟩⟩⟩

theorem exists_insertJump {src target : Label} (srcMember : src ∈ cfg.labels)
    (targetMember : target ∈ cfg.labels)
    (fresh : Label.makeJump src target ∉ cfg.labels) (ins : GuardedInstruction) :
    exists next, cfg.insertJump src target ins = .ok next := by
  have inserting := (@insert_eq_ok (Label.makeJump src target) ins cfg _).mpr ⟨fresh, rfl⟩
  have jump : Label.makeJump src target ∈ (cfg.withLabel (Label.makeJump src target) ins).labels :=
    OrderedSet.mem_insert.mpr (Or.inl rfl)
  have firstAdded := addChild_eq_ok.mpr ⟨⟨OrderedSet.mem_insert.mpr (Or.inr srcMember), jump⟩, rfl⟩
  have secondAdded := (@addChild_eq_ok _ target
    ((cfg.withLabel (Label.makeJump src target) ins).withEdge src (Label.makeJump src target))
    _).mpr
      ⟨⟨jump, OrderedSet.mem_insert.mpr (Or.inr targetMember)⟩, rfl⟩
  refine ⟨((cfg.withLabel (Label.makeJump src target) ins).withEdge src
    (Label.makeJump src target)).withEdge
    (Label.makeJump src target) target, ?_⟩
  rw [insertJump, if_neg fresh]
  exact bind_eq_ok.mpr ⟨_, inserting, bind_eq_ok.mpr ⟨_, firstAdded, secondAdded⟩⟩

end Cfg

/-! ## Runs of edits -/

namespace CfgMaps

/-- An edit of the builder. -/
inductive Edit where
  | insert (label : Label) (ins : GuardedInstruction)
  | insertJump (src target : Label) (ins : GuardedInstruction)
  | insertAfter (prevLabel newLabel : Label) (ins : GuardedInstruction)
  | addChild (a b : Label)
  | removeChild (a b : Label)

namespace Edit

def apply : Edit -> CfgMaps -> Except CfgError CfgMaps
  | insert label ins, maps => maps.insert label ins
  | insertJump src target ins, maps => maps.insertJump src target ins
  | insertAfter prevLabel newLabel ins, maps => maps.insertAfter prevLabel newLabel ins
  | addChild a b, maps => maps.addChild a b
  | removeChild a b, maps => maps.removeChild a b

/-- The edit of the graph. -/
def applyTo : Edit -> Cfg -> Except CfgError Cfg
  | insert label ins, cfg => cfg.insert label ins
  | insertJump src target ins, cfg => cfg.insertJump src target ins
  | insertAfter prevLabel newLabel ins, cfg => cfg.insertAfter prevLabel newLabel ins
  | addChild a b, cfg => cfg.addChild a b
  | removeChild a b, cfg => cfg.removeChild a b

/-- The labels that an edit works on are there, and the label that it inserts is
not. -/
def Allowed (maps : CfgMaps) : Edit -> Prop
  | insert label _ => maps.contains label = false
  | insertJump src target _ =>
      (maps.contains src ∧ maps.contains target) ∧ maps.contains (Label.makeJump src target) = false
  | insertAfter prevLabel newLabel _ => maps.contains prevLabel ∧ maps.contains newLabel = false
  | addChild a b => maps.contains a ∧ maps.contains b
  | removeChild a b => maps.contains a ∧ maps.contains b

end Edit

/-- A sequence of edits, which ends with the first one that throws. -/
def applyAll : List Edit -> CfgMaps -> Except CfgError CfgMaps
  | [], maps => .ok maps
  | edit :: rest, maps => do
      let maps <- edit.apply maps
      applyAll rest maps

/-- `children_of`, with no children for a label that is not there. -/
def children (maps : CfgMaps) (label : Label) : OrderedSet Label :=
  ((maps.neighbours label).getD {}).children

/-- `parents_of`. -/
def parents (maps : CfgMaps) (label : Label) : OrderedSet Label :=
  ((maps.neighbours label).getD {}).parents

/-- The two halves of each edge agree, edges join labels of the graph, and both
maps have the same labels. -/
structure Consistent (maps : CfgMaps) : Prop where
  converse : forall a b, b ∈ maps.children a ↔ a ∈ maps.parents b
  ends : forall a b, b ∈ maps.children a -> maps.contains a ∧ maps.contains b
  sameLabels : forall label, (maps.neighbours label).isSome = (maps.instructions label).isSome

section Runs

variable {maps next : CfgMaps} {cfg : Cfg} {edit : Edit}

theorem Represents.contains_iff (represents : Represents maps cfg) {label : Label} :
    maps.contains label = true ↔ label ∈ cfg.labels := by
  rw [represents.contains_eq, decide_eq_true_eq]

theorem Represents.contains_eq_false (represents : Represents maps cfg) {label : Label} :
    maps.contains label = false ↔ label ∉ cfg.labels := by
  rw [represents.contains_eq, decide_eq_false_iff_not]

theorem Represents.mem_children (represents : Represents maps cfg) (wellFormed : cfg.WellFormed)
    {a b : Label} :
    b ∈ maps.children a ↔ b ∈ cfg.children a := by
  rw [children, represents.neighbours]
  by_cases member : a ∈ cfg.labels
  · simp [member]
  · simp [member, (wellFormed.children_of_not_mem member b).1]

theorem Represents.mem_parents (represents : Represents maps cfg) (wellFormed : cfg.WellFormed)
    {a b : Label} :
    a ∈ maps.parents b ↔ a ∈ cfg.parents b := by
  rw [parents, represents.neighbours]
  by_cases member : b ∈ cfg.labels
  · simp [member]
  · have noParent : a ∉ cfg.parents b := by
      rw [← wellFormed.converse]
      exact (wellFormed.children_of_not_mem member a).2
    simp [member, noParent]

theorem Represents.consistent (represents : Represents maps cfg) (wellFormed : cfg.WellFormed) :
    maps.Consistent where
  converse a b := by
    rw [represents.mem_children wellFormed, represents.mem_parents wellFormed]
    exact wellFormed.converse a b
  ends a b child := by
    rw [represents.mem_children wellFormed] at child
    exact ⟨represents.contains_iff.mpr (wellFormed.source a b child),
      represents.contains_iff.mpr (wellFormed.target a b child)⟩
  sameLabels label := by
    rw [represents.neighbours, represents.instructions]
    by_cases member : label ∈ cfg.labels <;> simp [member]

theorem Represents.apply (represents : Represents maps cfg) (edit : Edit) :
    Agree (edit.apply maps) (edit.applyTo cfg) := by
  cases edit with
  | insert label ins => exact represents.insert label ins
  | insertJump src target ins => exact represents.insertJump src target ins
  | insertAfter prevLabel newLabel ins => exact represents.insertAfter prevLabel newLabel ins
  | addChild a b => exact represents.addChild a b
  | removeChild a b => exact represents.removeChild a b

theorem Edit.applyTo_wellFormed (wellFormed : cfg.WellFormed) {after : Cfg}
    (run : edit.applyTo cfg = .ok after) :
    after.WellFormed := by
  cases edit with
  | insert label ins => exact wellFormed.insert run
  | insertJump src target ins =>
      rw [Edit.applyTo, Cfg.insertJump] at run
      split at run
      · cases run
      · rcases Cfg.bind_eq_ok.mp run with ⟨first, inserted, later⟩
        rcases Cfg.bind_eq_ok.mp later with ⟨second, firstAdded, secondAdded⟩
        exact ((wellFormed.insert inserted).addChild firstAdded).addChild secondAdded
  | insertAfter prevLabel newLabel ins => exact (Cfg.insertAfter_spec wellFormed run).wellFormed
  | addChild a b => exact wellFormed.addChild run
  | removeChild a b => exact wellFormed.removeChild run

theorem Represents.exists_apply (represents : Represents maps cfg) (wellFormed : cfg.WellFormed)
    (allowed : edit.Allowed maps) : exists next, edit.apply maps = .ok next := by
  have returns : exists after, edit.applyTo cfg = .ok after := by
    cases edit with
    | insert label ins => exact ⟨_,
      Cfg.insert_eq_ok.mpr ⟨represents.contains_eq_false.mp allowed, rfl⟩⟩
    | insertJump src target ins =>
        exact Cfg.exists_insertJump (represents.contains_iff.mp allowed.1.1)
          (represents.contains_iff.mp allowed.1.2)
          (represents.contains_eq_false.mp allowed.2) ins
    | insertAfter prevLabel newLabel ins =>
        exact Cfg.exists_insertAfter wellFormed (represents.contains_iff.mp allowed.1)
          (represents.contains_eq_false.mp allowed.2) ins
    | addChild a b =>
        exact ⟨_, Cfg.addChild_eq_ok.mpr
          ⟨⟨represents.contains_iff.mp allowed.1, represents.contains_iff.mp allowed.2⟩, rfl⟩⟩
    | removeChild a b =>
        refine ⟨cfg.withoutEdge a b, ?_⟩
        rw [Edit.applyTo, Cfg.removeChild,
          Cfg.require_eq_ok.mpr (represents.contains_iff.mp allowed.1),
          Cfg.require_eq_ok.mpr (represents.contains_iff.mp allowed.2)]
        rfl
  rcases returns with ⟨after, run⟩
  rcases (represents.apply edit).exists_maps run with ⟨next, nextRun, _⟩
  exact ⟨next, nextRun⟩

theorem applyAll_represents {edits : List Edit} (represents : Represents maps cfg)
    (wellFormed : cfg.WellFormed)
    (run : applyAll edits maps = .ok next) : exists after, Represents next after ∧
      after.WellFormed := by
  induction edits generalizing maps cfg with
  | nil =>
      cases run
      exact ⟨cfg, represents, wellFormed⟩
  | cons edit rest inductionHypothesis =>
      rcases Cfg.bind_eq_ok.mp run with ⟨middle, first, later⟩
      rcases (represents.apply edit).exists_cfg first with ⟨middleCfg, middleRun, middleRepresents⟩
      exact inductionHypothesis middleRepresents
        (Edit.applyTo_wellFormed wellFormed middleRun) later

/-- What `insert_after` makes of the edges. -/
structure LeadsThrough (prevLabel newLabel : Label) (before after : CfgMaps) : Prop where
  consistent : after.Consistent
  prevChildren : forall label, label ∈ after.children prevLabel ↔ label = newLabel
  newChildren : forall label, label ∈ after.children newLabel ↔ label ∈ before.children prevLabel
  otherChildren : forall source target, source ≠ prevLabel -> source ≠ newLabel ->
    (target ∈ after.children source ↔ target ∈ before.children source)

/-- After any sequence of edits from the maps of a new builder, the maps are
consistent, an edit of labels that are there does not throw, and an insertion
behind a label with children leads all of its edges through the new label. -/
theorem applyAll_consistent {edits : List Edit} (run : applyAll edits initial = .ok maps) :
    maps.Consistent ∧ (forall edit : Edit, edit.Allowed maps ->
      exists next, edit.apply maps = .ok next) ∧ forall prevLabel newLabel ins child,
      child ∈ maps.children prevLabel -> maps.contains newLabel = false ->
        exists next, maps.insertAfter prevLabel newLabel ins = .ok next ∧
          LeadsThrough prevLabel newLabel maps next := by
  rcases applyAll_represents initial_represents Cfg.WellFormed.initial run with
    ⟨cfg, represents, wellFormed⟩
  refine ⟨represents.consistent wellFormed, fun edit allowed =>
    represents.exists_apply wellFormed allowed, ?_⟩
  intro prevLabel newLabel ins child isChild fresh
  have isChildCfg := (represents.mem_children wellFormed).mp isChild
  have member := wellFormed.source prevLabel child isChildCfg
  rcases Cfg.exists_insertAfter wellFormed member (represents.contains_eq_false.mp fresh) ins with
    ⟨after, afterRun⟩
  rcases (represents.insertAfter prevLabel newLabel ins).exists_maps afterRun with
    ⟨next, nextRun, nextRepresents⟩
  have spec := Cfg.insertAfter_spec wellFormed afterRun
  have some_ : cfg.childrenOf prevLabel ≠ [] := List.ne_nil_of_mem isChildCfg
  refine ⟨next, nextRun,
    { consistent := nextRepresents.consistent spec.wellFormed, prevChildren := ?_, newChildren := ?_
      otherChildren := ?_ }⟩
  · intro label
    rw [nextRepresents.mem_children spec.wellFormed, spec.prevChildren]
    exact and_iff_left some_
  · intro label
    rw [nextRepresents.mem_children spec.wellFormed, represents.mem_children wellFormed,
      spec.newChildren]
  · intro source target notPrev notNew
    rw [nextRepresents.mem_children spec.wellFormed, represents.mem_children wellFormed,
      spec.otherChildren source target notPrev notNew]

/-- A label with a loop and an edge to the exit. -/
def loopEdits : List Edit :=
  [.insert { fromIndex := 0 } { cmd := .undefined 0 }, .addChild Label.entry { fromIndex := 0 },
    .addChild { fromIndex := 0 } { fromIndex := 0 }, .addChild { fromIndex := 0 } Label.exit]

def loopMaps : CfgMaps := (applyAll loopEdits initial).toOption.getD initial

theorem applyAll_consistent_loop :
    loopMaps.Consistent ∧
      exists next, loopMaps.insertAfter { fromIndex := 0 } { fromIndex := 1 }
      { cmd := .undefined 0 } = .ok next ∧
        LeadsThrough { fromIndex := 0 } { fromIndex := 1 } loopMaps next := by
  have spec := applyAll_consistent (show applyAll loopEdits initial = .ok loopMaps from rfl)
  exact ⟨spec.1, spec.2.2 { fromIndex := 0 } { fromIndex := 1 } { cmd := .undefined 0 }
    { fromIndex := 0 } (by decide)
    (by decide)⟩

end Runs

end CfgMaps
end Prevail
