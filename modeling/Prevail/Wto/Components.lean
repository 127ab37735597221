import Prevail.Wto.Cycle

namespace Prevail
namespace Wto

universe u

/-!
# The components found by a visit are a weak topological order

The output of a visit is the list of components that it puts in front of its
target partition.  Its members are the vertices that became done, and their
edges lead forward, to the head of a cycle around them, or to vertices that
were done before.  Together with the contract of the visits this gives the
correctness of the whole construction: every label reachable from the entry
occurs exactly once, and the components are ordered.
-/

variable {V : Type u} [DecidableEq V]

/-- The edges of the graph given by lists of children. -/
def Edge (children : V -> List V) (source target : V) : Prop :=
  target ∈ children source

/-- The components that a visit adds to the partition `target`. -/
structure Output (children : V -> List V) (target : Option V) (state final : BuilderState V)
    (found : Partition V) : Prop where
  components : final.components target = found.append (state.components target)
  members : forall vertex, vertex ∈ found.members ↔ Done final vertex ∧ ¬ Done state vertex
  distinct : found.members.Nodup
  ordered : found.Ordered (Edge children) {vertex | Done state vertex}
  cyclic : found.Cyclic (Edge children)
  frame : forall key, key ≠ target -> (forall vertex, key = some vertex -> Done state vertex) ->
    final.components key = state.components key

namespace Output

omit [DecidableEq V]

variable {children : V -> List V} {target : Option V} {state middle final : BuilderState V}
  {found later : Partition V}

/-- A step that makes no vertex done and leaves the partitions alone. -/
theorem unchanged (components : final.components = state.components)
    (done : forall vertex, Done final vertex ↔ Done state vertex) :
    Output children target state final .nil where
  components := by rw [components]; rfl
  members vertex := by simp [done]
  distinct := List.nodup_nil
  ordered := trivial
  cyclic := trivial
  frame key _ _ := by rw [components]

/-- The components of a later visit stand in front of those of an earlier
one. -/
theorem append (first : Output children target state middle found)
    (second : Output children target middle final later)
    (keepsFirst : forall vertex, Done state vertex -> Done middle vertex)
    (keepsSecond : forall vertex, Done middle vertex -> Done final vertex) :
    Output children target state final (later.append found) where
  components := by rw [second.components, first.components, Partition.append_assoc]
  members vertex := by
    rw [Partition.members_append, List.mem_append, second.members, first.members]
    have before := keepsFirst vertex
    have after := keepsSecond vertex
    tauto
  distinct := by
    rw [Partition.members_append]
    refine List.nodup_append.mpr ⟨second.distinct, first.distinct, ?_⟩
    intro vertex inLater other inFound same
    subst same
    exact ((second.members vertex).mp inLater).2 ((first.members vertex).mp inFound).1
  ordered := by
    refine Partition.Ordered.append (second.ordered.mono ?_) first.ordered
    intro vertex done
    by_cases before : Done state vertex
    · exact Or.inl before
    · exact Or.inr ((first.members vertex).mpr ⟨done, before⟩)
  cyclic := second.cyclic.append first.cyclic
  frame key different done := by
    rw [second.frame key different (fun vertex same => keepsFirst vertex (done vertex same)),
      first.frame key different done]

end Output

namespace Scanned

variable {children : V -> List V} {vertex : V} {target : Option V} {state visited : BuilderState V}
  {opened : List V}

/-- Numbering a white vertex makes nothing done. -/
theorem number_output (white : White state vertex) :
    Output children target state (number state vertex) .nil := by
  refine Output.unchanged rfl ?_
  intro other
  by_cases same : other = vertex
  · subst same
    rw [Done, Done, number_data_self, show (state.vertexData other).dfn = 0 from white]
    exact iff_of_false WithTop.coe_ne_top (by simp)
  · rw [Done, Done, number_data_of_ne same]

theorem finishVertex_done {partition containing : Option V} {headDfn : WithTop Nat}
    {stack : List V} {other : V}
    (done : Done visited other) :
    Done (finishVertex vertex partition containing headDfn stack visited) other := by
  by_cases same : other = vertex
  · rw [same, Done, finishVertex_data_self]
  · rw [Done, finishVertex_data_of_ne _ _ _ _ _ same]
    exact done

theorem keeps_done (scanned : Scanned children vertex state visited opened) {other : V}
    (done : Done state other) : Done visited other := by
  have different : other ≠ vertex := fun same => done.not_white (same ▸ scanned.white)
  have numbered : Done (number state vertex) other := by
    rw [Done, number_data_of_ne different]
    exact done
  exact scanned.contract.keeps_done numbered

/-- The output of the visits below a vertex, seen from before its number. -/
theorem visited_output {found : Partition V}
    (scanned : Scanned children vertex state visited opened)
    (outside : forall head, target = some head -> Done state head)
    (below : Invariant (number state vertex) ->
      (forall head, target = some head -> Done (number state vertex) head) ->
        Output children target (number state vertex) visited found) :
    Output children target state visited found := by
  have numberedDone : forall other, Done state other -> Done (number state vertex) other := by
    intro other done
    have different : other ≠ vertex := fun same => done.not_white (same ▸ scanned.white)
    rw [Done, number_data_of_ne different]
    exact done
  have output := below scanned.numberedInvariant
    (fun head same => numberedDone head (outside head same))
  have whole := (number_output scanned.white).append output numberedDone
    (fun _ done => scanned.contract.keeps_done done)
  rwa [Partition.append_nil] at whole

theorem finishVertex_output (scanned : Scanned children vertex state visited opened)
    {stack : List V}
    (scan : scanSuccessors visited.vertexData (children vertex) (visited.vertexData vertex).dfn =
      ((visited.vertexData vertex).dfn, false)) :
    Output children target visited
      (finishVertex vertex target target (visited.vertexData vertex).dfn stack visited)
      (.vertex vertex .nil) where
  components := by
    simp [finishVertex, BuilderState.setHeadDfn, BuilderState.emplaceContaining,
      BuilderState.pushVertex, BuilderState.setDfn, Partition.append]
  members other := by
    have notDone := scanned.contract.invariant.not_done scanned.vertex_mem
    by_cases same : other = vertex
    · subst same
      simp [Done, finishVertex_data_self, show (visited.vertexData other).dfn ≠ ⊤ from notDone]
    · simp [Done, finishVertex_data_of_ne _ _ _ _ _ same, same]
  distinct := by simp
  ordered := by
    refine ⟨?_, trivial⟩
    intro child member
    have spec := scanSuccessors_spec visited.vertexData (children vertex)
      (visited.vertexData vertex).dfn
    rw [scan] at spec
    rcases scanned.child_cases member with isOpened | done | same | isOlder
    · rw [scanned.opened_eq_nil scan] at isOpened
      exact absurd isOpened List.not_mem_nil
    · exact Or.inr done
    · have above := (spec.2.2.1 rfl).2 child member
      rw [same, scanned.minDfn_self] at above
      exact absurd above (lt_irrefl _)
    · exact absurd isOlder (scanned.root_child_not_older scan member)
  cyclic := trivial
  frame key different _ := by
    simp [finishVertex, BuilderState.setHeadDfn, BuilderState.emplaceContaining,
      BuilderState.pushVertex, BuilderState.setDfn, different]

end Scanned

namespace Looped

variable {children : V -> List V} {vertex : V} {target : Option V}
  {state visited inner body : BuilderState V} {opened bodyOpened : List V} {found : Partition V}

/-- The second visit and `continue_visit` add one cycle to the partition around
it. -/
theorem closeCycle_output (looped : Looped children vertex state visited inner body
    opened bodyOpened)
    (outside : forall head, target = some head -> Done state head)
    (components : inner.components = Function.update visited.components (some vertex) .nil)
    (inside : Output children (some vertex) inner body found) :
    Output children target visited (closeCycle vertex target vertex body)
      (.cycle (.vertex vertex found) .nil) := by
  have scanned := looped.scanned
  have notSelf : target ≠ some vertex := by
    intro same
    exact (outside vertex same).not_white scanned.white
  have outsideVisited : forall head, target = some head -> Done visited head :=
    fun head same => scanned.keeps_done (outside head same)
  have bodyDone : forall other, Done (closeCycle vertex target vertex body) other ↔
      Done body other :=
    fun _ => Iff.rfl
  have targetSame : body.components target = visited.components target := by
    rw [inside.frame target notSelf (fun head same => looped.done_inner (outsideVisited head same)),
      components, Function.update_of_ne notSelf]
  have cycleForm : body.components (some vertex) = found := by
    rw [inside.components, components, Function.update_self, Partition.append_nil]
  have notDone := scanned.contract.invariant.not_done scanned.vertex_mem
  have foundIff : forall other, other ∈ found.members ↔ Done body other ∧ ¬ Done visited other ∧
      other ≠ vertex := by
    intro other
    rw [inside.members other, looped.done_inner_iff]
    tauto
  have frame : forall key, key ≠ target -> key ≠ some vertex ->
      (closeCycle vertex target vertex body).components key = body.components key := by
    intro key different notCycle
    simp [closeCycle, BuilderState.emplaceContaining, BuilderState.pushCycle,
      BuilderState.pushVertex, Function.update_of_ne different, Function.update_of_ne notCycle]
  refine
    { components := ?_, members := ?_, distinct := ?_, ordered := ?_, cyclic := ?_, frame := ?_ }
  · simp [closeCycle, BuilderState.emplaceContaining, BuilderState.pushCycle,
      BuilderState.pushVertex, Function.update_of_ne notSelf, cycleForm, targetSame,
      Partition.append]
  · intro other
    rw [bodyDone]
    simp only [Partition.members_cycle, Partition.members_vertex, Partition.members_nil,
      List.append_nil, List.mem_cons, foundIff]
    constructor
    · rintro (same | ⟨done, before, _⟩)
      · exact same ▸ ⟨looped.body_head, notDone⟩
      · exact ⟨done, before⟩
    · rintro ⟨done, before⟩
      by_cases same : other = vertex
      · exact Or.inl same
      · exact Or.inr ⟨done, before, same⟩
  · simp only [Partition.members_cycle, Partition.members_vertex, Partition.members_nil,
      List.append_nil]
    exact List.nodup_cons.mpr ⟨fun member => ((foundIff vertex).mp member).2.2 rfl, inside.distinct⟩
  · refine ⟨⟨vertex, rfl, ?_, ?_⟩, trivial⟩
    · intro child member
      by_cases same : child = vertex
      · exact Or.inr (Or.inr same)
      · by_cases before : Done visited child
        · exact Or.inr (Or.inl (Or.inl before))
        · exact Or.inl ((foundIff child).mpr ⟨looped.child_done member, before, same⟩)
    · refine inside.ordered.mono ?_
      intro other done
      rcases looped.done_inner_iff.mp done with before | same
      · exact Or.inl (Or.inl before)
      · exact Or.inr same
  · refine ⟨?_, inside.cyclic, trivial⟩
    intro head isHead
    cases isHead
    refine Relation.TransGen.mono ?_ _ _ looped.closed_walk
    rintro source next ⟨child, same | isOpened⟩
    · exact ⟨child, same ▸ List.mem_cons_self⟩
    · have white := looped.opened_white isOpened
      have member : next ∈ found.members :=
        (inside.members next).mpr ⟨looped.body_opened isOpened, fun done => done.not_white white⟩
      exact ⟨child, List.mem_cons_of_mem _ member⟩
  · intro key different done
    have notCycle : key ≠ some vertex := fun same => notDone (done vertex same)
    rw [frame key different notCycle, inside.frame key notCycle
      (fun other same => looped.done_inner (done other same)), components,
      Function.update_of_ne notCycle]

end Looped

/-! ## The output of a whole visit -/

/-- The visits with the components that they put in front of their target, and with the
vertices that they number, in this order.  The second visit of a cycle numbers its
vertices again, which is not counted. -/
inductive Finds (children : V -> List V) :
    Option V -> List V -> BuilderState V -> BuilderState V -> Partition V -> List V -> Prop where
  | nil (target : Option V) (state : BuilderState V) : Finds children target [] state state .nil []
  | seen {target : Option V} {vertex : V} {rest order : List V} {state final : BuilderState V}
    {found : Partition V}
      (numbered : (state.vertexData vertex).dfn ≠ 0)
      (later : Finds children target rest state final found order) :
      Finds children target (vertex :: rest) state final found order
  | pending {target : Option V} {vertex : V} {rest first second : List V}
    {state visited final : BuilderState V}
      {below after : Partition V} {headDfn : WithTop Nat} {loop : Bool}
      (white : (state.vertexData vertex).dfn = 0)
      (descendants : Finds children target
        (unvisitedSuccessors children (number state vertex) vertex)
        (number state vertex) visited below first)
      (scan : scanSuccessors visited.vertexData (children vertex) (visited.vertexData vertex).dfn =
        (headDfn, loop))
      (lower : headDfn ≠ (visited.vertexData vertex).dfn)
      (later : Finds children target rest (visited.setHeadDfn vertex headDfn) final after second) :
      Finds children target (vertex :: rest) state final (after.append below)
      (vertex :: first ++ second)
  | component {target : Option V} {vertex top : V} {rest stack first second : List V}
      {state visited final : BuilderState V} {below after : Partition V}
      (white : (state.vertexData vertex).dfn = 0)
      (descendants : Finds children target
        (unvisitedSuccessors children (number state vertex) vertex)
        (number state vertex) visited below first)
      (scan : scanSuccessors visited.vertexData (children vertex) (visited.vertexData vertex).dfn =
        ((visited.vertexData vertex).dfn, false))
      (popped : visited.stack = top :: stack)
      (later : Finds children target rest
        (finishVertex vertex target target (visited.vertexData vertex).dfn stack visited) final
          after second) :
      Finds children target (vertex :: rest) state final (after.append (.vertex vertex below))
        (vertex :: first ++ second)
  | cycle {target : Option V} {vertex : V} {rest stack first second again : List V}
      {vertexData : V -> VertexData} {state visited body final : BuilderState V}
      {below inner after : Partition V}
      (white : (state.vertexData vertex).dfn = 0)
      (descendants : Finds children target
        (unvisitedSuccessors children (number state vertex) vertex)
        (number state vertex) visited below first)
      (scan : scanSuccessors visited.vertexData (children vertex) (visited.vertexData vertex).dfn =
        ((visited.vertexData vertex).dfn, true))
      (popped : popComponent vertex visited.stack (visited.setDfn vertex ⊤).vertexData =
        some (stack, vertexData))
      (inside : Finds children (some vertex)
        (unvisitedSuccessors children
          (openCycle vertex target (visited.vertexData vertex).dfn stack vertexData visited) vertex)
        (openCycle vertex target (visited.vertexData vertex).dfn stack vertexData visited)
        body inner again)
      (later : Finds children target rest (closeCycle vertex target vertex body) final
        after second) :
      Finds children target (vertex :: rest) state final
      (after.append (.cycle (.vertex vertex inner) below))
        (vertex :: first ++ second)

theorem Finds.visits {children : V -> List V} {target : Option V} {vertices order : List V}
    {state final : BuilderState V} {found : Partition V}
    (finds : Finds children target vertices state final found order) :
    Visits children target vertices state final := by
  induction finds with
  | nil target state => exact .nil target state
  | seen numbered _ later => exact .seen numbered later
  | pending white _ scan lower _ descendants later =>
    exact .pending white descendants scan lower later
  | component white _ scan popped _ descendants later =>
    exact .component white descendants scan popped later
  | cycle white _ scan popped _ _ descendants inside later =>
    exact .cycle white descendants scan popped inside later

theorem Visits.finds {children : V -> List V} {target : Option V} {vertices : List V}
    {state final : BuilderState V} (visits : Visits children target vertices state final) :
    exists found order, Finds children target vertices state final found order := by
  induction visits with
  | nil target state => exact ⟨_, _, .nil target state⟩
  | seen numbered _ laterHypothesis =>
      rcases laterHypothesis with ⟨_, _, later⟩
      exact ⟨_, _, .seen numbered later⟩
  | pending white _ scan lower _ descendantsHypothesis laterHypothesis =>
      rcases descendantsHypothesis with ⟨_, _, descendants⟩
      rcases laterHypothesis with ⟨_, _, later⟩
      exact ⟨_, _, .pending white descendants scan lower later⟩
  | component white _ scan popped _ descendantsHypothesis laterHypothesis =>
      rcases descendantsHypothesis with ⟨_, _, descendants⟩
      rcases laterHypothesis with ⟨_, _, later⟩
      exact ⟨_, _, .component white descendants scan popped later⟩
  | cycle white _ scan popped _ _ descendantsHypothesis insideHypothesis laterHypothesis =>
      rcases descendantsHypothesis with ⟨_, _, descendants⟩
      rcases insideHypothesis with ⟨_, _, inside⟩
      rcases laterHypothesis with ⟨_, _, later⟩
      exact ⟨_, _, .cycle white descendants scan popped inside later⟩

/-- Every visit adds a weak topological order of the vertices it completes. -/
theorem Finds.output {children : V -> List V} {target : Option V} {vertices order : List V}
    {state final : BuilderState V} {found : Partition V}
    (finds : Finds children target vertices state final found order)
    (invariant : Invariant state) (outside : forall head, target = some head -> Done state head) :
    Output children target state final found := by
  induction finds with
  | nil target state => exact Output.unchanged rfl (fun _ => Iff.rfl)
  | seen numbered later laterHypothesis => exact laterHypothesis invariant outside
  | @pending target vertex rest _ _ state visited final _ _ headDfn loop white descendants
    scan lower later
      descendantsHypothesis laterHypothesis =>
      rcases descendants.visits.contract (invariant.number white) with ⟨opened, contract⟩
      have scanned : Scanned children vertex state visited opened := ⟨invariant, white, contract⟩
      have first := scanned.pending scan lower
      have below := scanned.visited_output outside descendantsHypothesis
      have finish : Output children target visited (visited.setHeadDfn vertex headDfn) .nil :=
        Output.unchanged rfl (fun other => by rw [Done, Done, BuilderState.setHeadDfn_dfn])
      have whole := below.append finish (fun _ done => scanned.keeps_done done)
        (fun other done => by rw [Done, BuilderState.setHeadDfn_dfn]; exact done)
      have second := laterHypothesis first.invariant
        (fun head same => first.keeps_done (outside head same))
      rcases later.visits.contract first.invariant with ⟨_, laterContract⟩
      exact whole.append second (fun _ done => first.keeps_done done)
        (fun _ done => laterContract.keeps_done done)
  | @component target vertex top rest stack _ _ state visited final _ _ white descendants
    scan popped later
      descendantsHypothesis laterHypothesis =>
      rcases descendants.visits.contract (invariant.number white) with ⟨opened, contract⟩
      have scanned : Scanned children vertex state visited opened := ⟨invariant, white, contract⟩
      have first : Contract children [vertex] state (finishVertex vertex target target _ stack
          visited) [] :=
        scanned.component scan popped
      have below := scanned.visited_output outside descendantsHypothesis
      have finish : Output children target visited
          (finishVertex vertex target target _ stack visited) _ :=
        scanned.finishVertex_output scan
      have whole := below.append finish (fun _ done => scanned.keeps_done done)
        (fun other done => Scanned.finishVertex_done done)
      have second := laterHypothesis first.invariant
        (fun head same => first.keeps_done (outside head same))
      rcases later.visits.contract first.invariant with ⟨_, laterContract⟩
      exact whole.append second (fun _ done => first.keeps_done done)
        (fun _ done => laterContract.keeps_done done)
  | @cycle target vertex rest stack _ _ _ vertexData state visited body final _ _ _ white
    descendants scan popped
      inside later descendantsHypothesis insideHypothesis laterHypothesis =>
      rcases descendants.visits.contract (invariant.number white) with ⟨opened, contract⟩
      have scanned : Scanned children vertex state visited opened := ⟨invariant, white, contract⟩
      have cycleOpened : CycleOpened children vertex state visited
          (openCycle vertex target _ stack vertexData visited) opened :=
        CycleOpened.of_openCycle scanned scan popped
      rcases inside.visits.contract cycleOpened.innerInvariant with ⟨bodyOpened, bodyContract⟩
      have looped : Looped children vertex state visited
          (openCycle vertex target _ stack vertexData visited) body opened bodyOpened :=
        ⟨cycleOpened, bodyContract⟩
      have first : Contract children [vertex] state (closeCycle vertex target vertex body) [] :=
        looped.cycle rfl rfl rfl
      have below := scanned.visited_output outside descendantsHypothesis
      have headDone : forall head, some vertex = some head ->
          Done (openCycle vertex target (visited.vertexData vertex).dfn stack vertexData visited)
          head :=
        fun head same => Option.some.inj same ▸ cycleOpened.head
      have bodyOutput := insideHypothesis cycleOpened.innerInvariant headDone
      have finish := looped.closeCycle_output outside rfl bodyOutput
      have whole := below.append finish (fun _ done => scanned.keeps_done done)
        (fun other done => looped.body_done done)
      have second := laterHypothesis first.invariant
        (fun head same => first.keeps_done (outside head same))
      rcases later.visits.contract first.invariant with ⟨_, laterContract⟩
      exact whole.append second (fun _ done => first.keeps_done done)
        (fun _ done => laterContract.keeps_done done)

/-! ## The constructed order -/

omit [DecidableEq V] in
theorem initialState_invariant : Invariant (initialState : BuilderState V) where
  descending := List.Pairwise.nil
  mem_stack vertex := by simp [initialState]
  bounded vertex member := by cases member
  fresh vertex _ := rfl
  older vertex member := by cases member

omit [DecidableEq V] in
/-- What is reached through white vertices from the entry of an untouched
graph is what the graph reaches. -/
theorem initialState_reach_iff {children : V -> List V} {entry vertex : V} :
    WhiteReach children initialState [entry] vertex ↔
      Relation.ReflTransGen (Edge children) entry vertex := by
  constructor
  · rintro ⟨start, member, _, walk⟩
    rw [List.mem_singleton.mp member] at walk
    exact Relation.ReflTransGen.mono (fun _ _ step => step.1) _ _ walk
  · intro walk
    exact ⟨entry, List.mem_cons_self, rfl,
      Relation.ReflTransGen.mono (fun _ _ step => ⟨step, rfl⟩) _ _ walk⟩

/-- The specification of the construction: the reachable vertices, each once,
in a weak topological order whose cycles are cycles of the graph. -/
structure WellOrdered (children : V -> List V) (entry : V) (components : Partition V) : Prop where
  members : forall vertex, vertex ∈ components.members ↔
    Relation.ReflTransGen (Edge children) entry vertex
  distinct : components.members.Nodup
  ordered : components.Ordered (Edge children) ∅
  cyclic : components.Cyclic (Edge children)

/-- Every construction that returns meets its specification. -/
theorem build_wellOrdered {children : V -> List V} {entry : V} {fuel : Nat} {wto : Wto V}
    (built : build children entry fuel = some wto) : WellOrdered children entry wto.components := by
  rcases visits_of_build built with ⟨final, visits, rfl⟩
  rcases visits.contract initialState_invariant with ⟨opened, contract⟩
  rcases visits.finds with ⟨found, order, finds⟩
  have output := finds.output initialState_invariant (fun head same => by cases same)
  have noneOpened : opened = [] := contract.opened_eq_nil rfl
  have noneDone : forall vertex, ¬ Done (initialState : BuilderState V) vertex := by
    intro vertex done
    exact done.not_white rfl
  have components : final.components none = found := by
    rw [output.components]
    exact Partition.append_nil found
  refine { members := ?_, distinct := ?_, ordered := ?_, cyclic := ?_ }
  · intro vertex
    rw [components, output.members, ← initialState_reach_iff]
    constructor
    · rintro ⟨done, before⟩
      by_contra notReached
      rw [Done, contract.frame vertex notReached] at done
      exact before done
    · intro reach
      refine ⟨?_, noneDone vertex⟩
      rcases contract.settled vertex reach with isOpened | done
      · rw [noneOpened] at isOpened
        exact absurd isOpened List.not_mem_nil
      · exact done
  · exact components ▸ output.distinct
  · rw [components]
    exact output.ordered.mono (fun vertex done => absurd done (noneDone vertex))
  · exact components ▸ output.cyclic

/-- An entry without predecessors is the first component by itself. -/
theorem build_head? {children : V -> List V} {entry : V} {fuel : Nat} {wto : Wto V}
    (built : build children entry fuel = some wto)
    (source : forall vertex, entry ∉ children vertex) :
    wto.components.head? = some entry := by
  rcases visits_of_build built with ⟨final, visits, rfl⟩
  rcases visits.contract initialState_invariant with ⟨opened, contract⟩
  cases visits with
  | seen numbered later => exact absurd rfl numbered
  | pending white descendants scan lower later =>
      rcases descendants.contract (initialState_invariant.number white) with ⟨below, belowContract⟩
      rcases Scanned.lower_root ⟨initialState_invariant, white, belowContract⟩ scan lower with
        ⟨root, member, _⟩
      cases member
  | component white descendants scan popped later =>
      cases later
      simp [finishVertex, BuilderState.setHeadDfn, BuilderState.emplaceContaining,
        BuilderState.pushVertex, BuilderState.setDfn, Partition.head?]
  | cycle white descendants scan popped inside later =>
      rcases descendants.contract (initialState_invariant.number white) with ⟨below, belowContract⟩
      have cycleOpened : CycleOpened _ _ _ _ (openCycle _ none _ _ _ _) below :=
        CycleOpened.of_openCycle ⟨initialState_invariant, white, belowContract⟩ scan popped
      rcases Relation.TransGen.tail'_iff.mp cycleOpened.closed_walk with ⟨previous, _, step⟩
      exact absurd step.1 (source previous)

end Wto
end Prevail
