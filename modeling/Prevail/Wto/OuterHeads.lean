import Prevail.Library.DepthFirst
import Prevail.Wto.Components

namespace Prevail
namespace Wto

open DepthFirst

universe u

/-!
# The heads of the outermost cycles

The builder numbers the vertices in depth-first order.  A vertex that is left on the
stack leads to an older vertex of the stack, along vertices of the stack, so that each
vertex above the head of a cycle leads back to this head.  The outermost cycles of the
result are therefore the strong components with a cycle, and the head of each of them is
the vertex that the depth-first search meets first.
-/

variable {V : Type u}

/-! ## The way to the older vertices of the stack -/

def StackStep (children : V -> List V) (state : BuilderState V) (source target : V) : Prop :=
  target ∈ children source ∧ target ∈ state.stack

/-- Every returned vertex of the stack leads to an older one along the stack. -/
def Climbs (children : V -> List V) (state : BuilderState V) : Prop :=
  ∀ vertex ∈ state.stack, (state.vertexData vertex).headDfn ≠ 0 -> exists root, root ∈ state.stack ∧
    (state.vertexData root).dfn < (state.vertexData vertex).dfn ∧
      Relation.TransGen (StackStep children state) vertex root

theorem initialState_climbs {children : V -> List V} :
    Climbs children (initialState : BuilderState V) :=
  fun _ impossible => (by cases impossible)

variable [DecidableEq V] {children : V -> List V}

theorem Climbs.number {state : BuilderState V} {vertex : V} (climbs : Climbs children state)
    (invariant : Invariant state) (white : White state vertex) :
    Climbs children (number state vertex) := by
  intro other member returned
  have older : ∀ found ∈ state.stack,
      (Wto.number state vertex).vertexData found = state.vertexData found :=
    fun found isFound => number_data_of_ne
      (fun same => invariant.not_mem_of_white white (same ▸ isFound))
  rcases List.mem_cons.mp member with rfl | isOlder
  · rw [number_data_self] at returned
    exact absurd (invariant.fresh other white) returned
  · rw [older other isOlder] at returned ⊢
    rcases climbs other isOlder returned with ⟨root, rootMember, less, walk⟩
    refine ⟨root, List.mem_cons_of_mem _ rootMember, ?_, ?_⟩
    · rw [older root rootMember]
      exact less
    · exact Relation.TransGen.mono
        (fun _ _ step => ⟨step.1, List.mem_cons_of_mem _ step.2⟩) _ _ walk

omit [DecidableEq V] in
/-- The ways to the older vertices depend on the stack and the numbers on it. -/
theorem Climbs.of_stack {state final : BuilderState V} (climbs : Climbs children state)
    (stack : final.stack = state.stack)
    (kept : ∀ found ∈ state.stack, final.vertexData found = state.vertexData found) :
    Climbs children final := by
  intro vertex member returned
  rw [stack] at member
  rw [kept vertex member] at returned ⊢
  rcases climbs vertex member returned with ⟨root, rootMember, less, walk⟩
  refine ⟨root, stack ▸ rootMember, ?_, ?_⟩
  · rw [kept root rootMember]
    exact less
  · exact Relation.TransGen.mono (fun _ _ step => ⟨step.1, stack ▸ step.2⟩) _ _ walk

omit [DecidableEq V] in
/-- A visit that leaves nothing open changes nothing about the stack. -/
theorem Contract.climbs {starts : List V} {state final : BuilderState V}
    (contract : Contract children starts state final []) (invariant : Invariant state)
    (climbs : Climbs children state) :
    Climbs children final :=
  climbs.of_stack contract.stack (fun _ isFound => contract.keeps (invariant.not_white isFound))

/-- The vertices below the head of a cycle are left alone when the cycle opens. -/
theorem CycleOpened.climbs {vertex : V} {state visited inner : BuilderState V} {opened : List V}
    (cycleOpened : CycleOpened children vertex state visited inner opened)
    (invariant : Invariant state) (climbs : Climbs children state) : Climbs children inner := by
  refine climbs.of_stack cycleOpened.stack ?_
  intro other member
  have scanned := cycleOpened.scanned
  have notOpened : other ∉ opened := by
    intro isOpened
    have white := (scanned.contract.opened_reached scanned.numberedInvariant isOpened).white
    exact invariant.not_white member (number_white_iff.mp white).1
  rw [cycleOpened.other other (scanned.older_ne member) notOpened, scanned.older_data member]

namespace Scanned

variable {vertex : V} {state visited : BuilderState V} {opened : List V}

/-- A vertex that stays on the stack leads to the older vertex that its head number
comes from. -/
theorem climbs_pending (scanned : Scanned children vertex state visited opened)
    (climbs : Climbs children visited) {headDfn : WithTop Nat} {loop : Bool}
    (scan : scanSuccessors visited.vertexData (children vertex) (visited.vertexData vertex).dfn =
      (headDfn, loop))
    (lower : headDfn ≠ (visited.vertexData vertex).dfn) :
    Climbs children (visited.setHeadDfn vertex headDfn) := by
  have invariant := scanned.contract.invariant
  intro other member returned
  rw [BuilderState.setHeadDfn_dfn]
  simp only [BuilderState.setHeadDfn_dfn]
  by_cases same : other = vertex
  · subst same
    rcases scanned.lower_child scan lower with ⟨_, child, isChild, childEqual, isOpened | isOlder⟩
    · rcases scanned.lower_root scan lower with ⟨root, rootMember, rootEqual⟩
      have childReturned := invariant.minDfn_returned (scanned.opened_mem isOpened)
        (scanned.contract.returned child isOpened)
      rcases scanned.leaves_below isOpened rootMember
        (by rw [← childReturned, childEqual, rootEqual]) with
        ⟨source, target, _, targetOlder, edge, _, walk⟩
      have walkOnStack : Relation.ReflTransGen (StackStep children visited) child source :=
        Relation.ReflTransGen.mono (fun _ _ step => ⟨step.1, scanned.opened_mem step.2⟩) _ _ walk
      refine ⟨target, scanned.older_mem targetOlder,
        (scanned.older_iff (scanned.older_mem targetOlder)).mp targetOlder, ?_⟩
      exact Relation.TransGen.tail' (walkOnStack.head ⟨isChild, scanned.opened_mem isOpened⟩)
        ⟨edge, scanned.older_mem targetOlder⟩
    · exact ⟨child, scanned.older_mem isOlder,
        (scanned.older_iff (scanned.older_mem isOlder)).mp isOlder,
        Relation.TransGen.single ⟨isChild, scanned.older_mem isOlder⟩⟩
  · rw [BuilderState.setHeadDfn_data_of_ne _ _ same] at returned
    exact climbs other member returned

/-- A walk along the stack from a vertex that was left open stays among these vertices,
or has come by the vertex below them. -/
theorem stack_walk (scanned : Scanned children vertex state visited opened) {loop : Bool}
    (scan : scanSuccessors visited.vertexData (children vertex) (visited.vertexData vertex).dfn =
      ((visited.vertexData vertex).dfn, loop))
    {source target : V} (isOpened : source ∈ opened)
    (walk : Relation.ReflTransGen (StackStep children visited) source target) :
    Relation.ReflTransGen (CycleStep children vertex opened) source vertex ∨
      (target ∈ opened ∧ Relation.ReflTransGen (CycleStep children vertex opened) source
      target) := by
  induction walk with
  | refl => exact Or.inr ⟨isOpened, .refl⟩
  | @tail middle target _ step inductionHypothesis =>
      rcases inductionHypothesis with reached | ⟨middleOpened, front⟩
      · exact Or.inl reached
      · have onStack := step.2
        rw [scanned.stack_form] at onStack
        rcases List.mem_append.mp onStack with targetOpened | isVertex | ⟨_, isOlder⟩
        · exact Or.inr ⟨targetOpened, front.tail ⟨step.1, Or.inr targetOpened⟩⟩
        · exact Or.inl (front.tail ⟨step.1, Or.inl rfl⟩)
        · exact absurd isOlder (scanned.opened_child_not_older scan middleOpened step.1)

/-- Every vertex left open above the head of a cycle leads back to this head. -/
theorem opened_returns (scanned : Scanned children vertex state visited opened)
    (climbs : Climbs children visited) {loop : Bool}
    (scan : scanSuccessors visited.vertexData (children vertex) (visited.vertexData vertex).dfn =
      ((visited.vertexData vertex).dfn, loop))
    {other : V} (isOpened : other ∈ opened) :
    Relation.ReflTransGen (CycleStep children vertex opened) other vertex := by
  generalize number : (visited.vertexData other).dfn = dfn
  induction dfn using WellFoundedLT.induction generalizing other with
  | ind dfn inductionHypothesis =>
      rcases climbs other (scanned.opened_mem isOpened)
        (scanned.contract.returned other isOpened) with
        ⟨root, _, less, walk⟩
      rcases scanned.stack_walk scan isOpened walk.to_reflTransGen with reached |
        ⟨rootOpened, front⟩
      · exact reached
      · exact front.trans (inductionHypothesis _ (number ▸ less) rootOpened rfl)

/-- The vertex leads to everything that its visit leaves open. -/
theorem reaches_opened (scanned : Scanned children vertex state visited opened) {other : V}
    (isOpened : other ∈ opened) : Reaches children vertex other := by
  rcases scanned.contract.opened_reached scanned.numberedInvariant isOpened with
    ⟨start, isStart, _, walk⟩
  exact Relation.ReflTransGen.head (List.mem_filter.mp isStart).1
    (Relation.ReflTransGen.mono (fun _ _ step => step.1) _ _ walk)

end Scanned

/-- Every visit keeps the ways to the older vertices. -/
theorem Visits.climbs {target : Option V} {vertices : List V} {state final : BuilderState V}
    (visits : Visits children target vertices state final) (invariant : Invariant state)
    (climbs : Climbs children state) : Climbs children final := by
  induction visits with
  | nil target state => exact climbs
  | seen _ _ laterHypothesis => exact laterHypothesis invariant climbs
  | pending white descendants scan lower _ descendantsHypothesis laterHypothesis =>
      rcases descendants.contract (invariant.number white) with ⟨opened, contract⟩
      have scanned : Scanned children _ _ _ opened := ⟨invariant, white, contract⟩
      have below := descendantsHypothesis (invariant.number white) (climbs.number invariant white)
      exact laterHypothesis (scanned.pending scan lower).invariant
        (scanned.climbs_pending below scan lower)
  | @component target vertex _ _ stack state visited _ white descendants scan popped
    _ descendantsHypothesis
      laterHypothesis =>
      rcases descendants.contract (invariant.number white) with ⟨opened, contract⟩
      have single : Contract children [vertex] state
          (finishVertex vertex target target _ stack visited) [] :=
        Scanned.component ⟨invariant, white, contract⟩ scan popped
      exact laterHypothesis single.invariant (single.climbs invariant climbs)
  | @cycle target vertex _ stack vertexData state visited _ _ white descendants scan popped inside _
      descendantsHypothesis _ laterHypothesis =>
      rcases descendants.contract (invariant.number white) with ⟨opened, contract⟩
      have cycleOpened : CycleOpened children vertex state visited
          (openCycle vertex target _ stack vertexData visited)
          opened := CycleOpened.of_openCycle ⟨invariant, white, contract⟩ scan popped
      rcases inside.contract cycleOpened.innerInvariant with ⟨bodyOpened, bodyContract⟩
      have single : Contract children [vertex] state (closeCycle vertex target vertex _) [] :=
        Looped.cycle ⟨cycleOpened, bodyContract⟩ rfl rfl rfl
      exact laterHypothesis single.invariant (single.climbs invariant climbs)

/-! ## The numbers follow a depth-first search -/

/-- The vertices that have a number. -/
def numbered (state : BuilderState V) : Set V := {vertex | ¬ White state vertex}

theorem numbered_number {state : BuilderState V} {vertex : V} :
    numbered (number state vertex) = insert vertex (numbered state) := by
  ext other
  rw [numbered, Set.mem_ofPred_eq, number_white_iff, Set.mem_insert_iff, numbered,
    Set.mem_ofPred_eq]
  tauto

theorem numbered_setHeadDfn {state : BuilderState V} {vertex : V} {headDfn : WithTop Nat} :
    numbered (state.setHeadDfn vertex headDfn) = numbered state := by
  ext other
  rw [numbered, Set.mem_ofPred_eq, White, BuilderState.setHeadDfn_dfn]
  rfl

theorem Scanned.numbered_finishVertex {vertex : V} {state visited : BuilderState V}
    {opened stack : List V}
    {target : Option V} {headDfn : WithTop Nat}
    (scanned : Scanned children vertex state visited opened) :
    numbered (finishVertex vertex target target headDfn stack visited) = numbered visited := by
  ext other
  by_cases same : other = vertex
  · subst same
    have notWhite := scanned.contract.invariant.not_white scanned.vertex_mem
    simp [numbered, White, finishVertex_data_self,
      show (visited.vertexData other).dfn ≠ 0 from notWhite]
  · simp [numbered, White, finishVertex_data_of_ne _ _ _ _ _ same]

/-- The second visit of a cycle numbers the vertices that the first visit has numbered. -/
theorem Looped.numbered_body {vertex : V} {state visited inner body : BuilderState V}
    {opened bodyOpened : List V}
    (looped : Looped children vertex state visited inner body opened bodyOpened) :
    numbered body = numbered visited := by
  have scanned := looped.scanned
  ext other
  refine not_congr ?_
  by_cases isOpened : other ∈ opened
  · exact iff_of_false (looped.body_opened isOpened).not_white
      (scanned.contract.invariant.not_white (scanned.opened_mem isOpened))
  · by_cases same : other = vertex
    · subst same
      exact iff_of_false looped.body_head.not_white
        (scanned.contract.invariant.not_white scanned.vertex_mem)
    · rw [White, looped.inside.frame other (fun reach => isOpened (looped.reach_iff.mp reach)),
        looped.other other same isOpened]
      rfl

/-- The unvisited successors are visited as all the children are. -/
theorem preorder_of_unvisited {vertex : V} {state : BuilderState V} {order : List V} {final : Set V}
    (preorder : Preorder children (numbered (number state vertex))
      (unvisitedSuccessors children (number state vertex) vertex) order final) :
    Preorder children (insert vertex (numbered state)) (children vertex) order final := by
  rw [← numbered_number]
  refine Preorder.of_filter ?_ preorder
  intro child _ skipped
  exact beq_eq_false_iff_ne.mp skipped

/-- The vertices are numbered in depth-first order. -/
theorem Finds.preorder {target : Option V} {vertices order : List V} {state final : BuilderState V}
    {found : Partition V} (finds : Finds children target vertices state final found order)
    (invariant : Invariant state) :
    Preorder children (numbered state) vertices order (numbered final) := by
  induction finds with
  | nil target state => exact .nil _
  | seen isNumbered _ laterHypothesis => exact .skip isNumbered (laterHypothesis invariant)
  | pending white descendants scan lower _ descendantsHypothesis laterHypothesis =>
      rcases descendants.visits.contract (invariant.number white) with ⟨opened, contract⟩
      have scanned : Scanned children _ _ _ opened := ⟨invariant, white, contract⟩
      have later := laterHypothesis (scanned.pending scan lower).invariant
      rw [numbered_setHeadDfn] at later
      exact .visit (fun notWhite => notWhite white)
        (preorder_of_unvisited (descendantsHypothesis (invariant.number white))) later
  | @component target vertex _ _ stack _ _ state visited _ _ _ white descendants scan popped
    _ descendantsHypothesis
      laterHypothesis =>
      rcases descendants.visits.contract (invariant.number white) with ⟨opened, contract⟩
      have scanned : Scanned children vertex state visited opened := ⟨invariant, white, contract⟩
      have single : Contract children [vertex] state
          (finishVertex vertex target target _ stack visited) [] :=
        scanned.component scan popped
      have later := laterHypothesis single.invariant
      rw [scanned.numbered_finishVertex] at later
      exact .visit (fun notWhite => notWhite white)
        (preorder_of_unvisited (descendantsHypothesis (invariant.number white))) later
  | @cycle target vertex _ stack _ _ _ vertexData state visited body _ _ _ _ white descendants scan
    popped inside _
      descendantsHypothesis _ laterHypothesis =>
      rcases descendants.visits.contract (invariant.number white) with ⟨opened, contract⟩
      have cycleOpened : CycleOpened children vertex state visited
          (openCycle vertex target _ stack vertexData visited)
          opened := CycleOpened.of_openCycle ⟨invariant, white, contract⟩ scan popped
      rcases inside.visits.contract cycleOpened.innerInvariant with ⟨bodyOpened, bodyContract⟩
      have looped : Looped children vertex state visited
          (openCycle vertex target _ stack vertexData visited) body
          opened bodyOpened := ⟨cycleOpened, bodyContract⟩
      have single : Contract children [vertex] state (closeCycle vertex target vertex body) [] :=
        looped.cycle rfl rfl rfl
      have later := laterHypothesis single.invariant
      have sameNumbers : numbered (closeCycle vertex target vertex body) = numbered visited :=
        looped.numbered_body
      rw [sameNumbers] at later
      exact .visit (fun notWhite => notWhite white)
        (preorder_of_unvisited (descendantsHypothesis (invariant.number white))) later

/-! ## The first vertex of each outermost cycle -/

/-- The members of the cycle of a vertex are the vertices left open above it. -/
theorem Looped.mem_opened {vertex : V} {target : Option V}
    {state visited inner body : BuilderState V} {opened bodyOpened : List V} {found : Partition V}
    (looped : Looped children vertex state visited inner body opened bodyOpened)
    (inside : Output children target inner body found) {member : V}
    (isMember : member ∈ found.members) :
    member ∈ opened := by
  rcases (inside.members member).mp isMember with ⟨done, before⟩
  by_contra notOpened
  rw [Done, looped.inside.frame member (fun reach => notOpened (looped.reach_iff.mp reach))] at done
  exact before done

/-- The head of a new cycle is the first of its members. -/
theorem Looped.headOf {vertex : V} {state visited inner body : BuilderState V}
    {opened bodyOpened below : List V}
    (looped : Looped children vertex state visited inner body opened bodyOpened)
    (climbs : Climbs children visited)
    (preorder : Preorder children (insert vertex (numbered state)) (children vertex) below
      (numbered visited))
    {member : V} (isOpened : member ∈ opened) :
    HeadOf children (vertex :: below) vertex member where
  forth := looped.scanned.reaches_opened isOpened
  back := Relation.ReflTransGen.mono (fun _ _ step => step.1) _ _
    (looped.scanned.opened_returns climbs looped.scan isOpened)
  first _ := by
    have scanned := looped.scanned
    have isNumbered : member ∈ numbered visited :=
      scanned.contract.invariant.not_white (scanned.opened_mem isOpened)
    have reached := scanned.contract.opened_reached scanned.numberedInvariant isOpened
    rcases preorder.mem_final.mp isNumbered with before | listed
    · rw [← numbered_number] at before
      exact absurd reached.white before
    · exact (List.singleton_sublist.mpr listed).cons_cons vertex

theorem Finds.rooted {target : Option V} {vertices order : List V} {state final : BuilderState V}
    {found : Partition V} (finds : Finds children target vertices state final found order)
    (invariant : Invariant state) (climbs : Climbs children state) :
    Rooted children order found := by
  induction finds with
  | nil target state => trivial
  | seen _ _ laterHypothesis => exact laterHypothesis invariant climbs
  | pending white descendants scan lower _ descendantsHypothesis laterHypothesis =>
      rcases descendants.visits.contract (invariant.number white) with ⟨opened, contract⟩
      have scanned : Scanned children _ _ _ opened := ⟨invariant, white, contract⟩
      have numberClimbs := climbs.number invariant white
      have visitedClimbs := descendants.visits.climbs (invariant.number white) numberClimbs
      have later := laterHypothesis (scanned.pending scan lower).invariant
        (scanned.climbs_pending visitedClimbs scan lower)
      have below := descendantsHypothesis (invariant.number white) numberClimbs
      exact (later.mono (List.sublist_append_right _ _)).append
        (below.mono ((List.sublist_cons_self _ _).trans (List.sublist_append_left _ _)))
  | @component target vertex _ _ stack firstOrder _ state visited _ belowFound _ white descendants
    scan popped _ descendantsHypothesis
      laterHypothesis =>
      rcases descendants.visits.contract (invariant.number white) with ⟨opened, contract⟩
      have single : Contract children [vertex] state
          (finishVertex vertex target target _ stack visited) [] :=
        Scanned.component ⟨invariant, white, contract⟩ scan popped
      have later := laterHypothesis single.invariant (single.climbs invariant climbs)
      have below := descendantsHypothesis (invariant.number white) (climbs.number invariant white)
      have here : Rooted children (vertex :: firstOrder) (.vertex vertex belowFound) :=
        below.mono (List.sublist_cons_self vertex firstOrder)
      exact (later.mono (List.sublist_append_right _ _)).append
        (here.mono (List.sublist_append_left _ _))
  | @cycle target vertex _ stack firstOrder _ _ vertexData state visited body _ belowFound inner
    _ white descendants scan popped
      inside _ descendantsHypothesis _ laterHypothesis =>
      rcases descendants.visits.contract (invariant.number white) with ⟨opened, contract⟩
      have cycleOpened : CycleOpened children vertex state visited
          (openCycle vertex target _ stack vertexData visited)
          opened := CycleOpened.of_openCycle ⟨invariant, white, contract⟩ scan popped
      rcases inside.visits.contract cycleOpened.innerInvariant with ⟨bodyOpened, bodyContract⟩
      have looped : Looped children vertex state visited
          (openCycle vertex target _ stack vertexData visited) body
          opened bodyOpened := ⟨cycleOpened, bodyContract⟩
      have single : Contract children [vertex] state (closeCycle vertex target vertex body) [] :=
        looped.cycle rfl rfl rfl
      have numberClimbs := climbs.number invariant white
      have visitedClimbs := descendants.visits.climbs (invariant.number white) numberClimbs
      have preorder := preorder_of_unvisited (descendants.preorder (invariant.number white))
      have headDone : forall head, some vertex = some head ->
          Done (openCycle vertex target (visited.vertexData vertex).dfn stack vertexData visited)
          head :=
        fun head same => Option.some.inj same ▸ cycleOpened.head
      have output := inside.output cycleOpened.innerInvariant headDone
      have later := laterHypothesis single.invariant (single.climbs invariant climbs)
      have below := descendantsHypothesis (invariant.number white) numberClimbs
      have here : Rooted children (vertex :: firstOrder)
          (.cycle (.vertex vertex inner) belowFound) := by
        refine ⟨?_, below.mono (List.sublist_cons_self _ _)⟩
        intro head isHead member isMember
        cases isHead
        rcases List.mem_cons.mp isMember with rfl | isInner
        · exact ⟨.refl, .refl, fun different => absurd rfl different⟩
        · exact looped.headOf visitedClimbs preorder (looped.mem_opened output isInner)
      exact (later.mono (List.sublist_append_right _ _)).append
        (here.mono (List.sublist_append_left _ _))

/-! ## The way back to the head of each cycle -/

/-- The vertices left open above the head of a cycle are the members of its new cycle. -/
theorem Looped.mem_found {vertex : V} {target : Option V}
    {state visited inner body : BuilderState V} {opened bodyOpened : List V} {found : Partition V}
    (looped : Looped children vertex state visited inner body opened bodyOpened)
    (inside : Output children target inner body found) {member : V} (isOpened : member ∈ opened) :
    member ∈ found.members :=
  (inside.members member).mpr ⟨looped.body_opened isOpened, fun done =>
    done.not_white (looped.opened_white isOpened)⟩

/-- The second visit of a cycle finds the cycles inside it by the same walks. -/
theorem Finds.returning {target : Option V} {vertices order : List V} {state final : BuilderState V}
    {found : Partition V} (finds : Finds children target vertices state final found order)
    (invariant : Invariant state) (climbs : Climbs children state) :
    found.Returning (Edge children) := by
  induction finds with
  | nil target state => trivial
  | seen _ _ laterHypothesis => exact laterHypothesis invariant climbs
  | pending white descendants scan lower _ descendantsHypothesis laterHypothesis =>
      rcases descendants.visits.contract (invariant.number white) with ⟨opened, contract⟩
      have scanned : Scanned children _ _ _ opened := ⟨invariant, white, contract⟩
      have numberClimbs := climbs.number invariant white
      have visitedClimbs := descendants.visits.climbs (invariant.number white) numberClimbs
      have later := laterHypothesis (scanned.pending scan lower).invariant
        (scanned.climbs_pending visitedClimbs scan lower)
      exact later.append (descendantsHypothesis (invariant.number white) numberClimbs)
  | @component target vertex _ _ stack _ _ state visited _ _ _ white descendants scan popped
    _ descendantsHypothesis
      laterHypothesis =>
      rcases descendants.visits.contract (invariant.number white) with ⟨opened, contract⟩
      have single : Contract children [vertex] state
          (finishVertex vertex target target _ stack visited) [] :=
        Scanned.component ⟨invariant, white, contract⟩ scan popped
      have later := laterHypothesis single.invariant (single.climbs invariant climbs)
      have below := descendantsHypothesis (invariant.number white) (climbs.number invariant white)
      exact later.append below
  | @cycle target vertex _ stack _ _ _ vertexData state visited body _ _ inner _ white
    descendants scan popped
      inside _ descendantsHypothesis insideHypothesis laterHypothesis =>
      rcases descendants.visits.contract (invariant.number white) with ⟨opened, contract⟩
      have cycleOpened : CycleOpened children vertex state visited
          (openCycle vertex target _ stack vertexData visited)
          opened := CycleOpened.of_openCycle ⟨invariant, white, contract⟩ scan popped
      rcases inside.visits.contract cycleOpened.innerInvariant with ⟨bodyOpened, bodyContract⟩
      have looped : Looped children vertex state visited
          (openCycle vertex target _ stack vertexData visited) body
          opened bodyOpened := ⟨cycleOpened, bodyContract⟩
      have single : Contract children [vertex] state (closeCycle vertex target vertex body) [] :=
        looped.cycle rfl rfl rfl
      have numberClimbs := climbs.number invariant white
      have visitedClimbs := descendants.visits.climbs (invariant.number white) numberClimbs
      have headDone : forall head, some vertex = some head ->
          Done (openCycle vertex target (visited.vertexData vertex).dfn stack vertexData visited)
          head :=
        fun head same => Option.some.inj same ▸ cycleOpened.head
      have output := inside.output cycleOpened.innerInvariant headDone
      have later := laterHypothesis single.invariant (single.climbs invariant climbs)
      have below := descendantsHypothesis (invariant.number white) numberClimbs
      have innerReturning := insideHypothesis cycleOpened.innerInvariant
        (cycleOpened.climbs invariant climbs)
      refine later.append ⟨?_, innerReturning, below⟩
      intro head isHead member isMember
      cases isHead
      rcases List.mem_cons.mp isMember with rfl | isInner
      · exact .refl
      · refine Relation.ReflTransGen.mono ?_ _ _
          (looped.scanned.opened_returns visitedClimbs looped.scan
            (looped.mem_opened output isInner))
        rintro source next ⟨child, rfl | isOpened⟩
        · exact ⟨child, List.mem_cons_self⟩
        · exact ⟨child, List.mem_cons_of_mem _ (looped.mem_found output isOpened)⟩

/-- In the constructed order every member of a cycle returns to the head of the cycle
without leaving it. -/
theorem build_returning {entry : V} {fuel : Nat} {wto : Wto V}
    (built : build children entry fuel = some wto) :
    wto.components.Returning (Edge children) := by
  rcases visits_of_build built with ⟨final, visits, rfl⟩
  rcases visits.finds with ⟨found, order, finds⟩
  have output := finds.output initialState_invariant (fun head same => by cases same)
  have components : final.components none = found := by
    rw [output.components]
    exact Partition.append_nil found
  have returning := finds.returning initialState_invariant initialState_climbs
  rw [← components] at returning
  exact returning

/-! ## The constructed order -/

/-- The heads of the outermost cycles are the vertices that the depth-first search from
the entry meets first in a strong component with a cycle. -/
theorem build_outerHeads {entry : V} {fuel : Nat} {wto : Wto V}
    (built : build children entry fuel = some wto) :
    exists order final, Preorder children ∅ [entry] order final ∧
      (forall vertex, vertex ∈ order ↔ Relation.ReflTransGen (Edge children) entry vertex) ∧
        forall head, head ∈ wto.components.outerHeads ↔ FirstOnCycle children order head := by
  have wellOrdered := build_wellOrdered built
  rcases visits_of_build built with ⟨final, visits, rfl⟩
  rcases visits.contract initialState_invariant with ⟨opened, contract⟩
  rcases visits.finds with ⟨found, order, finds⟩
  have output := finds.output initialState_invariant (fun head same => by cases same)
  have components : final.components none = found := by
    rw [output.components]
    exact Partition.append_nil found
  have noneNumbered : numbered (initialState : BuilderState V) = ∅ := by
    ext vertex
    simp [numbered, White, initialState]
  have preorder := finds.preorder initialState_invariant
  rw [noneNumbered] at preorder
  have listed : forall vertex, vertex ∈ order ↔ vertex ∈ found.members := by
    intro vertex
    have isListed := @Preorder.mem_final _ _ _ _ _ _ preorder vertex
    rw [or_iff_right (Set.notMem_empty vertex)] at isListed
    rw [← isListed, output.members]
    constructor
    · intro isNumbered
      refine ⟨?_, fun done => done.not_white rfl⟩
      by_contra notDone
      have onStack := contract.invariant.mem_of_not_white_of_not_done isNumbered notDone
      rw [contract.stack, contract.opened_eq_nil rfl] at onStack
      cases onStack
    · exact fun done => done.1.not_white
  refine ⟨order, _, preorder, ?_, ?_⟩
  · intro vertex
    rw [listed, ← components]
    exact wellOrdered.members vertex
  · intro head
    have rooted := finds.rooted initialState_invariant initialState_climbs
    dsimp only at wellOrdered ⊢
    rw [components] at wellOrdered ⊢
    constructor
    · intro isOuter
      have member := found.heads_subset_members (found.outerHeads_subset_heads isOuter)
      exact (rooted.mem_outerHeads_iff wellOrdered.ordered wellOrdered.cyclic
        (fun _ impossible => impossible.elim)
        (fun _ _ impossible => impossible) wellOrdered.distinct (fun vertex => (listed vertex).mpr)
        preorder.distinct.1
        member).mp isOuter
    · intro firstOnCycle
      have member := (listed head).mp firstOnCycle.member
      exact (rooted.mem_outerHeads_iff wellOrdered.ordered wellOrdered.cyclic
        (fun _ impossible => impossible.elim)
        (fun _ _ impossible => impossible) wellOrdered.distinct (fun vertex => (listed vertex).mpr)
        preorder.distinct.1
        member).mpr firstOnCycle

end Wto
end Prevail
