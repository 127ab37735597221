import Prevail.Library.OrderedSet
import Prevail.Asm.Assertions

namespace Prevail

/-!
# The control-flow graph and its builder

`cfg_t` and the basic operations of `cfg_builder_t` in `asm_cfg.cpp`.  The two
maps `neighbours` and `instructions` always have the same keys, so the keys are
kept once, as an ordered set of labels, and the entries are functions.

An operation that throws returns an error.  The assertions that guard
`add_child` against edges into the entry and out of the exit are not part of a
release build and are left out.
-/

/-- What the construction of a graph can throw.  The last two are a failure of
`get_assertions` and a bound of this model. -/
inductive CfgError where
  | labelExists (label : Label)
  | jumpLabelExists (label : Label)
  | labelNotFound (label : Label)
  | noSingleChild (label : Label)
  | insertAfterSame (label : Label)
  | outOfRange
  | emptySequence
  | fallthroughInLast
  | undefinedTarget (label : Label)
  | illegalRecursion (stackFramePrefix : List Char)
  | tooManyFrames
  | noAssertions (label : Label)
  | outOfFuel
  deriving DecidableEq

structure Cfg where
  labels : OrderedSet Label
  children : Label -> OrderedSet Label
  parents : Label -> OrderedSet Label
  instructions : Label -> GuardedInstruction

namespace Cfg

/-- The graph of a new builder: the entry and the exit without edges. -/
def initial : Cfg where
  labels := (OrderedSet.singleton Label.entry).insert Label.exit
  children _ := OrderedSet.empty
  parents _ := OrderedSet.empty
  instructions _ := { cmd := .undefined 0 }

/-- `get_node` and `instruction_at` throw for a label that is not in the
graph. -/
def require (cfg : Cfg) (label : Label) : Except CfgError Unit :=
  if label ∈ cfg.labels then .ok () else .error (.labelNotFound label)

def getChild (cfg : Cfg) (label : Label) : Except CfgError Label := do
  cfg.require label
  match (cfg.children label).elements with
  | [child] => return child
  | _ => throw (.noSingleChild label)

def instructionAt (cfg : Cfg) (label : Label) : Except CfgError Instruction := do
  cfg.require label
  return (cfg.instructions label).cmd

/-- Replace the children of a label. -/
def setChildren (cfg : Cfg) (label : Label) (children : OrderedSet Label) : Cfg :=
  { cfg with children := Function.update cfg.children label children }

/-- Replace the parents of a label. -/
def setParents (cfg : Cfg) (label : Label) (parents : OrderedSet Label) : Cfg :=
  { cfg with parents := Function.update cfg.parents label parents }

/-- Replace the instruction of a label. -/
def setInstruction (cfg : Cfg) (label : Label) (ins : GuardedInstruction) : Cfg :=
  { cfg with instructions := Function.update cfg.instructions label ins }

/-- The graph with a new label without edges. -/
def withLabel (cfg : Cfg) (label : Label) (ins : GuardedInstruction) : Cfg where
  labels := cfg.labels.insert label
  children := Function.update cfg.children label OrderedSet.empty
  parents := Function.update cfg.parents label OrderedSet.empty
  instructions := Function.update cfg.instructions label ins

/-- The graph with a new edge. -/
def withEdge (cfg : Cfg) (a b : Label) : Cfg :=
  (cfg.setChildren a ((cfg.children a).insert b)).setParents b ((cfg.parents b).insert a)

def withoutEdge (cfg : Cfg) (a b : Label) : Cfg :=
  (cfg.setChildren a ((cfg.children a).erase b)).setParents b ((cfg.parents b).erase a)

def insert (label : Label) (ins : GuardedInstruction) (cfg : Cfg) : Except CfgError Cfg :=
  if label ∈ cfg.labels then .error (.labelExists label) else .ok (cfg.withLabel label ins)

/-- `cfg_builder_t::add_child`, where both labels are read with `at`. -/
def addChild (a b : Label) (cfg : Cfg) : Except CfgError Cfg :=
  if a ∈ cfg.labels ∧ b ∈ cfg.labels then .ok (cfg.withEdge a b) else .error .outOfRange

def removeChild (a b : Label) (cfg : Cfg) : Except CfgError Cfg := do
  cfg.require a
  cfg.require b
  return cfg.withoutEdge a b

def insertJump (src target : Label) (ins : GuardedInstruction) (cfg : Cfg) : Except CfgError Cfg :=
  if Label.makeJump src target ∈ cfg.labels
    then .error (.jumpLabelExists (Label.makeJump src target))
  else do
    let cfg <- cfg.insert (Label.makeJump src target) ins
    let cfg <- cfg.addChild src (Label.makeJump src target)
    cfg.addChild (Label.makeJump src target) target

/-- The loop of `insert_after` that takes `prevLabel` out of the parents of its
former children. -/
def detach (prevLabel : Label) : List Label -> Cfg -> Except CfgError Cfg
  | [], cfg => .ok cfg
  | next :: rest, cfg => do
      cfg.require next
      detach prevLabel rest (cfg.setParents next ((cfg.parents next).erase prevLabel))

/-- The loop of `insert_after` that leads the edges through the new label. -/
def reattach (prevLabel newLabel : Label) : List Label -> Cfg -> Except CfgError Cfg
  | [], cfg => .ok cfg
  | next :: rest, cfg => do
      let cfg <- cfg.addChild prevLabel newLabel
      let cfg <- cfg.addChild newLabel next
      reattach prevLabel newLabel rest cfg

def insertAfter (prevLabel newLabel : Label) (ins : GuardedInstruction) (cfg : Cfg) :
    Except CfgError Cfg :=
  if prevLabel = newLabel then .error (.insertAfterSame newLabel)
  else do
    cfg.require prevLabel
    let prevChildren := (cfg.children prevLabel).elements
    let cfg <- detach prevLabel prevChildren (cfg.setChildren prevLabel OrderedSet.empty)
    let cfg <- cfg.insert newLabel ins
    reattach prevLabel newLabel prevChildren cfg

/-- The two halves of each edge agree, and edges join labels of the graph. -/
structure WellFormed (cfg : Cfg) : Prop where
  converse : forall a b, b ∈ cfg.children a ↔ a ∈ cfg.parents b
  source : forall a b, b ∈ cfg.children a -> a ∈ cfg.labels
  target : forall a b, b ∈ cfg.children a -> b ∈ cfg.labels
  entry : Label.entry ∈ cfg.labels
  exit : Label.exit ∈ cfg.labels

/-! ## What the operations do when they return -/

theorem require_eq_ok {cfg : Cfg} {label : Label} :
    cfg.require label = .ok () ↔ label ∈ cfg.labels := by
  unfold require
  split <;> simp_all

theorem getChild_eq_ok {cfg : Cfg} {label child : Label} (run : cfg.getChild label = .ok child) :
    label ∈ cfg.labels ∧ (cfg.children label).elements = [child] := by
  unfold getChild require at run
  split at run
  · rename_i member
    refine ⟨member, ?_⟩
    simp only [bind, Except.bind] at run
    split at run
    · rename_i form
      cases run
      exact form
    · cases run
  · cases run

theorem instructionAt_eq_ok {cfg : Cfg} {label : Label} {ins : Instruction}
    (run : cfg.instructionAt label = .ok ins) : label ∈ cfg.labels ∧
      ins = (cfg.instructions label).cmd := by
  unfold instructionAt require at run
  split at run
  · rename_i member
    cases run
    exact ⟨member, rfl⟩
  · cases run

theorem insert_eq_ok {label : Label} {ins : GuardedInstruction} {cfg next : Cfg} :
    cfg.insert label ins = .ok next ↔ label ∉ cfg.labels ∧ next = cfg.withLabel label ins := by
  unfold insert
  split <;> simp_all [eq_comm]

theorem addChild_eq_ok {a b : Label} {cfg next : Cfg} :
    cfg.addChild a b = .ok next ↔ (a ∈ cfg.labels ∧ b ∈ cfg.labels) ∧ next = cfg.withEdge a b := by
  unfold addChild
  split <;> simp_all [eq_comm]

theorem removeChild_eq_ok {a b : Label} {cfg next : Cfg} (run : cfg.removeChild a b = .ok next) :
    (a ∈ cfg.labels ∧ b ∈ cfg.labels) ∧ next = cfg.withoutEdge a b := by
  unfold removeChild at run
  rcases firstRequired : cfg.require a with _ | _
  · rw [firstRequired] at run
    cases run
  · rcases secondRequired : cfg.require b with _ | _
    · rw [firstRequired, secondRequired] at run
      cases run
    · rw [firstRequired, secondRequired] at run
      cases run
      exact ⟨⟨require_eq_ok.mp firstRequired, require_eq_ok.mp secondRequired⟩, rfl⟩

/-! ## The edges after an operation -/

section Edges

variable (cfg : Cfg) (a b : Label)

@[simp] theorem withEdge_labels : (cfg.withEdge a b).labels = cfg.labels := rfl

@[simp] theorem withEdge_instructions : (cfg.withEdge a b).instructions = cfg.instructions := rfl

@[simp] theorem withoutEdge_labels : (cfg.withoutEdge a b).labels = cfg.labels := rfl

@[simp] theorem withoutEdge_instructions :
    (cfg.withoutEdge a b).instructions = cfg.instructions := rfl

@[simp] theorem setInstruction_labels (ins : GuardedInstruction) :
    (cfg.setInstruction a ins).labels = cfg.labels :=
  rfl

@[simp] theorem setInstruction_children (ins : GuardedInstruction) :
    (cfg.setInstruction a ins).children = cfg.children := rfl

@[simp] theorem setInstruction_parents (ins : GuardedInstruction) :
    (cfg.setInstruction a ins).parents = cfg.parents := rfl

@[simp] theorem withLabel_labels (ins : GuardedInstruction) :
    (cfg.withLabel a ins).labels = cfg.labels.insert a := rfl

@[simp] theorem withLabel_instructions (ins : GuardedInstruction) :
    (cfg.withLabel a ins).instructions = Function.update cfg.instructions a ins := rfl

theorem mem_withEdge_children {source target : Label} :
    target ∈ (cfg.withEdge a b).children source ↔
      target ∈ cfg.children source ∨ (source = a ∧ target = b) := by
  by_cases same : source = a
  · subst same
    simp [withEdge, setChildren, setParents, or_comm]
  · simp [withEdge, setChildren, setParents, same]

theorem mem_withEdge_parents {source target : Label} :
    source ∈ (cfg.withEdge a b).parents target ↔
      source ∈ cfg.parents target ∨ (source = a ∧ target = b) := by
  by_cases same : target = b
  · subst same
    simp [withEdge, setChildren, setParents, or_comm]
  · simp [withEdge, setChildren, setParents, same]

theorem mem_withoutEdge_children {source target : Label} :
    target ∈ (cfg.withoutEdge a b).children source ↔
      target ∈ cfg.children source ∧ ¬ (source = a ∧ target = b) := by
  by_cases same : source = a
  · subst same
    simp [withoutEdge, setChildren, setParents]
  · simp [withoutEdge, setChildren, setParents, same]

theorem mem_withoutEdge_parents {source target : Label} :
    source ∈ (cfg.withoutEdge a b).parents target ↔
      source ∈ cfg.parents target ∧ ¬ (source = a ∧ target = b) := by
  by_cases same : target = b
  · subst same
    simp [withoutEdge, setChildren, setParents]
  · simp [withoutEdge, setChildren, setParents, same]

end Edges

/-! ## Well-formed graphs -/

namespace WellFormed

theorem initial : WellFormed Cfg.initial where
  converse a b := by simp [Cfg.initial]
  source a b child := by simp [Cfg.initial] at child
  target a b child := by simp [Cfg.initial] at child
  entry := by simp [Cfg.initial]
  exit := by simp [Cfg.initial]

variable {cfg : Cfg} (wellFormed : WellFormed cfg)

include wellFormed

/-- A label outside the graph is on no edge. -/
theorem children_of_not_mem {label : Label} (fresh : label ∉ cfg.labels) (other : Label) :
    other ∉ cfg.children label ∧ label ∉ cfg.children other :=
  ⟨fun child => fresh (wellFormed.source _ _ child), fun child =>
    fresh (wellFormed.target _ _ child)⟩

theorem mem_withLabel_children {label : Label} (fresh : label ∉ cfg.labels)
    (ins : GuardedInstruction) {source target : Label} :
    target ∈ (cfg.withLabel label ins).children source ↔ target ∈ cfg.children source := by
  by_cases same : source = label
  · subst same
    simp [Cfg.withLabel, (wellFormed.children_of_not_mem fresh target).1]
  · simp [Cfg.withLabel, same]

theorem mem_withLabel_parents {label : Label} (fresh : label ∉ cfg.labels)
    (ins : GuardedInstruction) {source target : Label} :
    source ∈ (cfg.withLabel label ins).parents target ↔ source ∈ cfg.parents target := by
  by_cases same : target = label
  · subst same
    have noParent : source ∉ cfg.parents target := by
      rw [← wellFormed.converse]
      exact (wellFormed.children_of_not_mem fresh source).2
    simp [Cfg.withLabel, noParent]
  · simp [Cfg.withLabel, same]

theorem withLabel {label : Label} (fresh : label ∉ cfg.labels) (ins : GuardedInstruction) :
    WellFormed (cfg.withLabel label ins) where
  converse a b := by
    rw [wellFormed.mem_withLabel_children fresh, wellFormed.mem_withLabel_parents fresh]
    exact wellFormed.converse a b
  source a b child := by
    rw [wellFormed.mem_withLabel_children fresh] at child
    exact OrderedSet.mem_insert.mpr (Or.inr (wellFormed.source a b child))
  target a b child := by
    rw [wellFormed.mem_withLabel_children fresh] at child
    exact OrderedSet.mem_insert.mpr (Or.inr (wellFormed.target a b child))
  entry := OrderedSet.mem_insert.mpr (Or.inr wellFormed.entry)
  exit := OrderedSet.mem_insert.mpr (Or.inr wellFormed.exit)

theorem withEdge {a b : Label} (source : a ∈ cfg.labels) (target : b ∈ cfg.labels) :
    WellFormed (cfg.withEdge a b) where
  converse x y := by
    rw [mem_withEdge_children, mem_withEdge_parents, wellFormed.converse]
  source x y child := by
    rcases (mem_withEdge_children cfg a b).mp child with before | ⟨rfl, _⟩
    · exact wellFormed.source x y before
    · exact source
  target x y child := by
    rcases (mem_withEdge_children cfg a b).mp child with before | ⟨_, rfl⟩
    · exact wellFormed.target x y before
    · exact target
  entry := wellFormed.entry
  exit := wellFormed.exit

theorem withoutEdge (a b : Label) : WellFormed (cfg.withoutEdge a b) where
  converse x y := by
    rw [mem_withoutEdge_children, mem_withoutEdge_parents, wellFormed.converse]
  source x y child := wellFormed.source x y ((mem_withoutEdge_children cfg a b).mp child).1
  target x y child := wellFormed.target x y ((mem_withoutEdge_children cfg a b).mp child).1
  entry := wellFormed.entry
  exit := wellFormed.exit

theorem setInstruction (label : Label) (ins : GuardedInstruction) :
    WellFormed (cfg.setInstruction label ins) where
  converse := wellFormed.converse
  source := wellFormed.source
  target := wellFormed.target
  entry := wellFormed.entry
  exit := wellFormed.exit

theorem insert {label : Label} {ins : GuardedInstruction} {next : Cfg}
    (run : cfg.insert label ins = .ok next) : WellFormed next := by
  rcases insert_eq_ok.mp run with ⟨fresh, rfl⟩
  exact wellFormed.withLabel fresh ins

theorem addChild {a b : Label} {next : Cfg} (run : cfg.addChild a b = .ok next) :
    WellFormed next := by
  rcases addChild_eq_ok.mp run with ⟨⟨source, target⟩, rfl⟩
  exact wellFormed.withEdge source target

theorem removeChild {a b : Label} {next : Cfg} (run : cfg.removeChild a b = .ok next) :
    WellFormed next := by
  rcases removeChild_eq_ok run with ⟨_, rfl⟩
  exact wellFormed.withoutEdge a b

end WellFormed

end Cfg

end Prevail
