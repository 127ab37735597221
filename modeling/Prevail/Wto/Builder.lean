import Prevail.Library.WeakOrder

namespace Prevail
namespace Wto

universe u

/-!
# The iterative construction of a weak topological order

This is `wto_builder_t` of `crab/wto.cpp`.  The construction is Bourdoncle's
recursive algorithm with the recursion unrolled on `_visit_stack`: a task is
one vertex together with the partition that receives its component.

The builder refers to a `wto_cycle_t` by pointer.  Each such object is created
by the visit of one vertex, and `continue_visit` pushes that vertex last, so
the object is named here by the vertex that becomes its `head()`.  The name
`none` stands for the top-level list of components.  Reading `_stack.top()`
from an empty stack is undefined behaviour and has no successor state.
-/

variable {V : Type u} [DecidableEq V]

inductive VisitTaskType where
  | pushSuccessors
  | startVisit
  | continueVisit
  deriving DecidableEq, Repr

/-- `visit_args_t`: the partition and the containing cycle of a task are
named by the head of the cycle object they belong to. -/
structure VisitArgs (V : Type u) where
  type : VisitTaskType
  vertex : V
  partition : Option V
  containingCycle : Option V
  deriving DecidableEq, Repr

/-- `wto_vertex_data_t`.  The number `DFN_INF` is the top element.  The stored
pointer to the cycle only keeps that object alive and is never read. -/
structure VertexData where
  dfn : WithTop Nat
  headDfn : WithTop Nat
  deriving DecidableEq, Repr

/-- The members of `wto_builder_t` other than `_visit_stack`.  `components`
holds every `wto_partition_t` that exists, by the name of its cycle object;
`cycleParent` is `wto_cycle_t::_containing_cycle`, and `containingCycle` is
`wto_t::_containing_cycle`, where a label may be absent. -/
structure BuilderState (V : Type u) where
  vertexData : V -> VertexData
  num : Nat
  stack : List V
  components : Option V -> Partition V
  cycleParent : V -> Option V
  containingCycle : V -> Option (Option V)

namespace BuilderState

/-- Assignment to `dfn`. -/
def setDfn (state : BuilderState V) (vertex : V) (dfn : WithTop Nat) : BuilderState V :=
  { state with
    vertexData := Function.update state.vertexData vertex { state.vertexData vertex with
      dfn := dfn } }

/-- Assignment to `head_dfn`. -/
def setHeadDfn (state : BuilderState V) (vertex : V) (headDfn : WithTop Nat) : BuilderState V :=
  { state with
    vertexData := Function.update state.vertexData vertex { state.vertexData vertex with
      headDfn := headDfn } }

theorem setHeadDfn_data_self (state : BuilderState V) (vertex : V) (headDfn : WithTop Nat) :
    (state.setHeadDfn vertex headDfn).vertexData vertex = ⟨(state.vertexData vertex).dfn,
      headDfn⟩ := by
  simp [setHeadDfn]

theorem setHeadDfn_data_of_ne (state : BuilderState V) {vertex other : V} (headDfn : WithTop Nat)
    (different : other ≠ vertex) :
    (state.setHeadDfn vertex headDfn).vertexData other = state.vertexData other := by
  simp [setHeadDfn, different]

theorem setHeadDfn_dfn (state : BuilderState V) (vertex : V) (headDfn : WithTop Nat) (other : V) :
    ((state.setHeadDfn vertex headDfn).vertexData other).dfn = (state.vertexData other).dfn := by
  by_cases same : other = vertex
  · rw [same, setHeadDfn_data_self]
  · rw [setHeadDfn_data_of_ne state headDfn same]

/-- `partition.emplace_back` of a vertex. -/
def pushVertex (state : BuilderState V) (partition : Option V) (vertex : V) : BuilderState V :=
  { state with
    components := Function.update state.components partition (.vertex vertex (state.components partition)) }

/-- `partition.emplace_back` of a cycle object. -/
def pushCycle (state : BuilderState V) (partition : Option V) (cycle : V) : BuilderState V :=
  { state with
    components := Function.update state.components partition
      (.cycle (state.components (some cycle)) (state.components partition)) }

/-- `wto._containing_cycle.emplace`, which keeps an entry that is present. -/
def emplaceContaining (state : BuilderState V) (vertex : V) (cycle : Option V) : BuilderState V :=
  { state with
    containingCycle := Function.update state.containingCycle vertex
      (some ((state.containingCycle vertex).getD cycle)) }

/-- `std::make_shared<wto_cycle_t>(containing_cycle)`: an object without
components. -/
def makeCycle (state : BuilderState V) (cycle : V) (containing : Option V) : BuilderState V :=
  { state with
    components := Function.update state.components (some cycle) .nil
    cycleParent := Function.update state.cycleParent cycle containing }

end BuilderState

/-- A vertex that no visit has numbered, or whose number was reset. -/
def unvisited (state : BuilderState V) (vertex : V) : Bool :=
  (state.vertexData vertex).dfn == 0

/-- The children for which a `PushSuccessors` task is scheduled. -/
def unvisitedSuccessors (children : V -> List V) (state : BuilderState V) (vertex : V) : List V :=
  (children vertex).filter (unvisited state)

/-- Give the vertex the next number, and push it on `_stack`. -/
def number (state : BuilderState V) (vertex : V) : BuilderState V :=
  { state.setDfn vertex (state.num + 1 : Nat) with
    num := state.num + 1
    stack := vertex :: state.stack }

/-- `push_successors`: number the vertex, and schedule its unvisited children
before its own `StartVisit`. -/
def pushSuccessors (children : V -> List V) (vertex : V) (partition containing : Option V)
    (state : BuilderState V) : List (VisitArgs V) × BuilderState V :=
  if (state.vertexData vertex).dfn ≠ 0 then ([], state)
  else
    ((unvisitedSuccessors children (number state vertex) vertex).map
      (fun succ => ⟨.pushSuccessors, succ, partition, containing⟩) ++
        [⟨.startVisit, vertex, partition, containing⟩], number state vertex)

/-- `min_dfn` of a successor. -/
def minDfn (data : VertexData) : WithTop Nat :=
  if data.headDfn ≠ 0 ∧ data.dfn ≠ ⊤ then data.headDfn else data.dfn

/-- The scan over the successors in `start_visit`: the least number found and
whether some successor did not exceed the least number before it. -/
def scanSuccessors (vertexData : V -> VertexData) (succs : List V) (dfn : WithTop Nat) :
    WithTop Nat × Bool :=
  succs.foldl
    (fun found succ =>
      if minDfn (vertexData succ) ≤ found.1 then (minDfn (vertexData succ), true) else found)
    (dfn, false)

/-- Pop `_stack` down to and including `vertex`, resetting what is above it. -/
def popComponent (vertex : V) :
    List V -> (V -> VertexData) -> Option (List V × (V -> VertexData))
  | [], _ => none
  | element :: rest, data =>
      if element = vertex then some (rest, data)
      else popComponent vertex rest (Function.update data element ⟨0, 0⟩)

/-- The end of `start_visit` for a vertex that is a component by itself, where
`stack` is what remains after `_stack.pop()`. -/
def finishVertex (vertex : V) (partition containing : Option V) (headDfn : WithTop Nat)
    (stack : List V) (state : BuilderState V) : BuilderState V :=
  ((({ state.setDfn vertex ⊤ with stack := stack }).pushVertex partition vertex).emplaceContaining
    vertex containing).setHeadDfn vertex headDfn

/-- The part of `start_visit` that creates the cycle of a loop head, with the
stack and the data left by the pops before it. -/
def openCycle (vertex : V) (containing : Option V) (headDfn : WithTop Nat) (stack : List V)
    (vertexData : V -> VertexData) (state : BuilderState V) : BuilderState V :=
  (({ state with stack := stack, vertexData := vertexData }).setHeadDfn vertex headDfn).makeCycle
    vertex containing

theorem finishVertex_data_self (vertex : V) (partition containing : Option V)
    (headDfn : WithTop Nat) (stack : List V) (state : BuilderState V) :
    (finishVertex vertex partition containing headDfn stack state).vertexData vertex =
      ⟨⊤, headDfn⟩ := by
  simp [finishVertex, BuilderState.setHeadDfn, BuilderState.emplaceContaining,
    BuilderState.pushVertex, BuilderState.setDfn]

theorem finishVertex_data_of_ne {vertex other : V} (partition containing : Option V)
    (headDfn : WithTop Nat) (stack : List V) (state : BuilderState V) (different : other ≠ vertex) :
    (finishVertex vertex partition containing headDfn stack state).vertexData other =
      state.vertexData other := by
  simp [finishVertex, BuilderState.setHeadDfn, BuilderState.emplaceContaining,
    BuilderState.pushVertex, BuilderState.setDfn, different]

theorem openCycle_data_self (vertex : V) (containing : Option V) (headDfn : WithTop Nat)
    (stack : List V) (vertexData : V -> VertexData) (state : BuilderState V) :
    (openCycle vertex containing headDfn stack vertexData state).vertexData vertex =
      ⟨(vertexData vertex).dfn, headDfn⟩ := by
  simp [openCycle, BuilderState.setHeadDfn, BuilderState.makeCycle]

theorem openCycle_data_of_ne {vertex other : V} (containing : Option V) (headDfn : WithTop Nat)
    (stack : List V) (vertexData : V -> VertexData) (state : BuilderState V)
    (different : other ≠ vertex) :
    (openCycle vertex containing headDfn stack vertexData state).vertexData other =
      vertexData other := by
  simp [openCycle, BuilderState.setHeadDfn, BuilderState.makeCycle, different]

/-- The pops down to a vertex reset exactly the vertices above it. -/
theorem popComponent_append {vertex : V} {above below : List V} (notAbove : vertex ∉ above)
    (data : V -> VertexData) :
    popComponent vertex (above ++ vertex :: below) data =
      some (below, fun other => if other ∈ above then ⟨0, 0⟩ else data other) := by
  induction above generalizing data with
  | nil => simp [popComponent]
  | cons element rest inductionHypothesis =>
      have different : element ≠ vertex := fun same => notAbove (same ▸ List.mem_cons_self)
      rw [List.cons_append, popComponent, if_neg different,
        inductionHypothesis (fun member => notAbove (List.mem_cons_of_mem _ member))]
      congr 2
      funext other
      by_cases later : other ∈ rest
      · simp [later]
      · by_cases same : other = element <;> simp [later, same]

def startVisit (children : V -> List V) (vertex : V) (partition containing : Option V)
    (state : BuilderState V) : Option (List (VisitArgs V) × BuilderState V) :=
  let dfn := (state.vertexData vertex).dfn
  let scan := scanSuccessors state.vertexData (children vertex) dfn
  if scan.1 = dfn then
    if scan.2 then
      match popComponent vertex state.stack (state.setDfn vertex ⊤).vertexData with
      | none => none
      | some (stack, vertexData) =>
          let opened := openCycle vertex containing scan.1 stack vertexData state
          some ((unvisitedSuccessors children opened vertex).map
            (fun succ => ⟨.pushSuccessors, succ, some vertex, some vertex⟩) ++
              [⟨.continueVisit, vertex, partition, some vertex⟩], opened)
    else
      match state.stack with
      | [] => none
      | _ :: stack => some ([], finishVertex vertex partition containing scan.1 stack state)
  else some ([], state.setHeadDfn vertex scan.1)

/-- Add the vertex at the front of its cycle, and the cycle to its partition. -/
def closeCycle (vertex : V) (partition : Option V) (cycle : V) (state : BuilderState V) :
    BuilderState V :=
  ((state.pushVertex (some cycle) vertex).pushCycle partition cycle).emplaceContaining
    vertex (some cycle)

/-- `continue_visit`, where `containing_cycle.lock()` must be present. -/
def continueVisit (vertex : V) (partition containing : Option V) (state : BuilderState V) :
    Option (List (VisitArgs V) × BuilderState V) :=
  match containing with
  | none => none
  | some cycle => some ([], closeCycle vertex partition cycle state)

/-- One iteration of the loop in the constructor: the task taken from
`_visit_stack`, and the tasks it pushes, the top one first. -/
def runTask (children : V -> List V) (task : VisitArgs V) (state : BuilderState V) :
    Option (List (VisitArgs V) × BuilderState V) :=
  match task.type with
  | .pushSuccessors => some (pushSuccessors children task.vertex task.partition
    task.containingCycle state)
  | .startVisit => startVisit children task.vertex task.partition task.containingCycle state
  | .continueVisit => continueVisit task.vertex task.partition task.containingCycle state

/-- The loop over `_visit_stack`, for at most `fuel` tasks. -/
def runTasks (children : V -> List V) : Nat -> List (VisitArgs V) -> BuilderState V ->
    Option (BuilderState V)
  | _, [], state => some state
  | 0, _ :: _, _ => none
  | fuel + 1, task :: tasks, state =>
      match runTask children task state with
      | none => none
      | some (pushed, next) => runTasks children fuel (pushed ++ tasks) next

/-- The state in which the constructor enters its loop. -/
def initialState : BuilderState V where
  vertexData _ := ⟨0, 0⟩
  num := 0
  stack := []
  components _ := .nil
  cycleParent _ := none
  containingCycle _ := none

end Wto

/-- `wto_t`, without its cache of nestings. -/
structure Wto (V : Type u) where
  components : Partition V
  cycleParent : V -> Option V
  containingCycle : V -> Option (Option V)

namespace Wto

variable {V : Type u} [DecidableEq V]

/-- The constructor of `wto_builder_t`, where the loop takes at most `fuel`
tasks. -/
def build (children : V -> List V) (entry : V) (fuel : Nat) : Option (Wto V) :=
  (runTasks children fuel [⟨.pushSuccessors, entry, none, none⟩] initialState).map
    (fun final => ⟨final.components none, final.cycleParent, final.containingCycle⟩)

/-- `wto_t::head`: the head of the cycle around a label, or around the cycle
that the label is the head of. -/
def head (wto : Wto V) (label : V) : Option V :=
  match wto.containingCycle label with
  | none => none
  | some none => none
  | some (some first) => if first ≠ label then some first else wto.cycleParent first

/-- `wto_t::collect_heads`, from the innermost cycle outwards. -/
def collectHeads (wto : Wto V) : Nat -> V -> Option (List V)
  | 0, _ => none
  | fuel + 1, label =>
      match wto.head label with
      | none => some []
      | some outer => (wto.collectHeads fuel outer).map (outer :: ·)

/-- `wto_nesting_t::operator>`, on heads listed from the innermost one. -/
def nestingGreater (heads other : List V) : Bool :=
  other.length < heads.length && other.reverse.isPrefixOf heads.reverse

/-- `is_component_member` for the components of a list. -/
def isComponentMember (label : V) : Partition V -> Bool
  | .nil => false
  | .vertex first rest => first == label || isComponentMember label rest
  | .cycle components rest => isComponentMember label components || isComponentMember label rest

/-- The labels to which `wto_t::for_each_loop_head` applies its argument, in
order.  A cycle without a leading vertex is an error of `head()`. -/
def loopHeads : Partition V -> Option (List V)
  | .nil => some []
  | .vertex _ rest => loopHeads rest
  | .cycle components rest =>
      match components.head? with
      | none => none
      | some first => (loopHeads rest).map (first :: ·)

omit [DecidableEq V] in
/-- On an ordered partition every cycle has a head, and the loop heads are the
heads of the outermost cycles. -/
theorem loopHeads_eq_outerHeads {edge : V -> V -> Prop} {partition : Partition V} {outer : Set V}
    (ordered : partition.Ordered edge outer) : loopHeads partition = some partition.outerHeads := by
  induction partition with
  | nil => rfl
  | vertex label rest inductionHypothesis => exact inductionHypothesis ordered.2
  | cycle components rest _ inductionHypothesis =>
      rcases ordered with ⟨⟨first, isFirst, _⟩, later⟩
      simp only [loopHeads, Partition.outerHeads, isFirst, inductionHypothesis later,
        Option.map_some, Option.toList_some, List.singleton_append]

end Wto
end Prevail
