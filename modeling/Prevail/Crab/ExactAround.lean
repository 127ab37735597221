import Prevail.Crab.ExactRepair

namespace Prevail
namespace Crab

open DifferenceBounds

/-!
# Closure around a vertex is exact

`close_after_assign` follows two edges out of a vertex, and two edges into it.  In a graph
that is closed apart from the vertex, no shorter path has more.

An edge from the vertex to itself is set to the shortest cycle, unless there is none.
-/

namespace GraphOps

/-! ## The queue -/

section Around

variable {g : GraphView} {vertex : Nat}

def DistancesFall (before after : Reach) : Prop :=
  forall target old, before.distance target = some old ->
    ∃ lower ≤ old, after.distance target = some lower

theorem DistancesFall.refl (state : Reach) : DistancesFall state state :=
  fun _ old here => ⟨old, le_refl _, here⟩

theorem DistancesFall.trans {first second third : Reach} (left : DistancesFall first second)
    (right : DistancesFall second third) : DistancesFall first third := by
  intro target old here
  rcases left _ _ here with ⟨middle, atMiddle, there⟩
  rcases right _ _ there with ⟨lower, atLower, last⟩
  exact ⟨lower, atLower.trans atMiddle, last⟩

/-- A vertex with a distance is in the queue, or is the start. -/
def Queued (vertex : Nat) (adjacent : List Nat) (state : Reach) : Prop :=
  forall target distance, state.distance target = some distance -> target = vertex ∨
    target ∈ adjacent ++ state.reached

section Edge

variable {adjacent : List Nat} {state : Reach} {weight : Int} {edge : Nat × Int}

theorem distancesFall_reachEdge : DistancesFall state (reachEdge weight state edge) := by
  intro target old here
  rw [reachEdge]
  split
  · rename_i unreached
    have different : target ≠ edge.1 := by
      rintro rfl
      rw [unreached] at here
      cases here
    exact ⟨old, le_refl _, (Function.update_of_ne different ..).trans here⟩
  · rename_i found reached
    by_cases same : target = edge.1
    · subst same
      rw [reached, Option.some.injEq] at here
      exact ⟨_, (min_le_right ..).trans here.le, Function.update_self ..⟩
    · exact ⟨old, le_refl _, (Function.update_of_ne same ..).trans here⟩

theorem reachEdge_reaches :
    ∃ distance ≤ weight + edge.2,
    (reachEdge weight state edge).distance edge.1 = some distance := by
  rw [reachEdge]
  split
  · exact ⟨_, le_refl _, Function.update_self ..⟩
  · exact ⟨_, min_le_left .., Function.update_self ..⟩

theorem Queued.reachEdge (queued : Queued vertex adjacent state) :
    Queued vertex adjacent (GraphOps.reachEdge weight state edge) := by
  intro target distance here
  rw [GraphOps.reachEdge] at here ⊢
  split at here
  · by_cases same : target = edge.1
    · rw [same]
      exact Or.inr (List.mem_append_right _ (List.mem_append_right _ List.mem_cons_self))
    · dsimp only at here
      rw [Function.update_of_ne same] at here
      refine (queued _ _ here).imp id (fun member => ?_)
      rcases List.mem_append.mp member with first | last
      · exact List.mem_append_left _ first
      · exact List.mem_append_right _ (List.mem_append_left _ last)
  · rename_i found reached
    by_cases same : target = edge.1
    · exact queued target found (same ▸ reached)
    · dsimp only at here
      rw [Function.update_of_ne same] at here
      exact queued _ _ here

/-- The edges out of one vertex of the queue. -/
theorem foldl_reachEdge {edges : List (Nat × Int)} :
    DistancesFall state (edges.foldl (GraphOps.reachEdge weight) state) ∧
      (Queued vertex adjacent state ->
      Queued vertex adjacent (edges.foldl (GraphOps.reachEdge weight) state)) ∧
    ∀ edge ∈ edges, ∃ distance ≤ weight + edge.2,
      (edges.foldl (GraphOps.reachEdge weight) state).distance edge.1 = some distance := by
  induction edges generalizing state with
  | nil => exact ⟨DistancesFall.refl state, id, by simp⟩
  | cons first rest inductionHypothesis =>
      rcases @inductionHypothesis (GraphOps.reachEdge weight state first) with
        ⟨fall, queued, reaches⟩
      refine ⟨distancesFall_reachEdge.trans fall, fun before => queued before.reachEdge,
        fun edge member => ?_⟩
      rcases List.mem_cons.mp member with rfl | inRest
      · rcases @reachEdge_reaches state weight edge with ⟨distance, atMost, here⟩
        rcases fall _ _ here with ⟨lower, atLower, there⟩
        exact ⟨lower, atLower.trans atMost, there⟩
      · exact reaches edge inRest

end Edge

/-- The pass over the adjacent vertices reaches every vertex that is two edges away. -/
theorem foldl_reachFrom {adjacent processed : List Nat} {state : Reach}
    (start : ∀ middle ∈ processed, exists weight, state.distance middle = some weight) :
    DistancesFall state (processed.foldl (reachFrom g) state) ∧
      (Queued vertex adjacent state ->
      Queued vertex adjacent (processed.foldl (reachFrom g) state)) ∧
      ∀ middle ∈ processed, forall weight last target, state.distance middle = some weight ->
      target < g.size ->
        g.lookup middle target = some last ->
          ∃ distance ≤ weight + last,
          (processed.foldl (reachFrom g) state).distance target = some distance := by
  induction processed generalizing state with
  | nil => exact ⟨DistancesFall.refl state, id, by simp⟩
  | cons first rest inductionHypothesis =>
      rcases start first List.mem_cons_self with ⟨firstWeight, firstHere⟩
      rcases @foldl_reachEdge vertex adjacent state ((state.distance first).getD 0)
        (g.eSuccs first) with
        ⟨stepFall, stepQueued, stepReaches⟩
      have restStart : ∀ middle ∈ rest, exists weight, (reachFrom g state first).distance middle =
          some weight := by
        intro middle member
        rcases start middle (List.mem_cons_of_mem _ member) with ⟨weight, here⟩
        rcases stepFall _ _ here with ⟨lower, _, there⟩
        exact ⟨lower, there⟩
      rcases inductionHypothesis restStart with ⟨fall, queued, reaches⟩
      refine ⟨stepFall.trans fall, fun before => queued (stepQueued before), ?_⟩
      intro middle member weight last target here below edge
      rcases List.mem_cons.mp member with rfl | inRest
      · rcases stepReaches (target, last) (GraphView.mem_eSuccs.mpr ⟨below, edge⟩) with
          ⟨distance, atMost, reached⟩
        rcases fall _ _ reached with ⟨lower, atLower, there⟩
        rw [here, Option.getD_some] at atMost
        exact ⟨lower, atLower.trans atMost, there⟩
      · rcases stepFall _ _ here with ⟨lower, atLower, there⟩
        rcases reaches middle inRest lower last target there below edge with
          ⟨distance, atMost, reached⟩
        exact ⟨distance, by omega, reached⟩

/-- The start has a distance, so it does not join the queue behind the adjacent vertices. -/
theorem vertex_not_reached {p : Nat -> Int} :
    vertex ∉ ((bySlack g p vertex).foldl (reachFrom g) (initialReach g vertex)).reached := by
  have start : exists distance, (initialReach g vertex).distance vertex = some distance := by
    have consistent : ∀ entry ∈ g.eSuccs vertex, entry.2 = (g.lookup vertex entry.1).getD 0 := by
      rintro ⟨other, found⟩ member
      rw [GraphView.mem_eSuccs] at member
      simp [member.2]
    rw [initialReach]
    dsimp only
    rw [foldl_update (fun other => (g.lookup vertex other).getD 0) _ consistent vertex]
    split
    · exact ⟨_, rfl⟩
    · exact ⟨0, Function.update_self ..⟩
  have kept : (exists distance, ((bySlack g p vertex).foldl (reachFrom g)
      (initialReach g vertex)).distance vertex =
        some distance) ∧ vertex ∉
        ((bySlack g p vertex).foldl (reachFrom g) (initialReach g vertex)).reached := by
    apply List.foldlRecOn (motive := fun state : Reach =>
      (exists distance, state.distance vertex = some distance) ∧ vertex ∉ state.reached)
        (bySlack g p vertex)
    · exact ⟨start, List.not_mem_nil⟩
    · intro state before middle _
      rw [reachFrom]
      apply List.foldlRecOn (motive := fun state : Reach =>
        (exists distance, state.distance vertex = some distance) ∧ vertex ∉ state.reached)
          (g.eSuccs middle)
      · exact before
      · rintro current ⟨⟨distance, here⟩, absent⟩ edge _
        rcases @distancesFall_reachEdge current ((state.distance middle).getD 0) edge _ _ here with
          ⟨lower, _, there⟩
        refine ⟨⟨lower, there⟩, ?_⟩
        rw [reachEdge]
        split
        · rename_i unreached
          have different : vertex ≠ edge.1 := by
            rintro rfl
            rw [unreached] at here
            cases here
          exact fun member => (List.mem_append.mp member).elim absent
            (fun last => different (List.mem_singleton.mp last))
        · exact absent
  exact kept.2

theorem queued_initialReach {p : Nat -> Int} :
    Queued vertex (bySlack g p vertex) (initialReach g vertex) := by
  intro target distance here
  by_cases same : target = vertex
  · exact Or.inl same
  refine Or.inr (List.mem_append_left _ ?_)
  by_contra notAdjacent
  have consistent : ∀ entry ∈ g.eSuccs vertex, entry.2 = (g.lookup vertex entry.1).getD 0 := by
    rintro ⟨other, found⟩ member
    rw [GraphView.mem_eSuccs] at member
    simp [member.2]
  have notListed : target ∉ (g.eSuccs vertex).map Prod.fst := by
    intro member
    rcases List.mem_map.mp member with ⟨⟨_, weight⟩, listed, rfl⟩
    rw [GraphView.mem_eSuccs] at listed
    exact notAdjacent (mem_bySlack.mpr ⟨listed.1, weight, listed.2⟩)
  rw [initialReach] at here
  dsimp only at here
  rw [foldl_update (fun other => (g.lookup vertex other).getD 0) _ consistent target,
    if_neg notListed, Function.update_of_ne same] at here
  cases here

section Shortest

variable {p : Nat -> Int} (targets : TargetsBelow g) (cycles : NoNegativeCycle g.lookup)
  (closed : Closed (g.lookup.without vertex))

include targets cycles closed

/-- The queue holds every vertex that is reached, with its shortest distance. -/
theorem closeAfterAssignFwd_shortest {target : Nat} {length : Int} (other : target ≠ vertex)
    (path : Path g.lookup vertex target length) : exists shortest,
      (target, shortest) ∈ closeAfterAssignFwd g p vertex ∧
      Shortest g.lookup vertex target shortest := by
  have start : ∀ middle ∈ bySlack g p vertex,
      exists weight, (initialReach g vertex).distance middle = some weight := by
    intro middle member
    rcases mem_bySlack.mp member with ⟨below, weight, here⟩
    exact ⟨weight, initialReach_distance below here⟩
  rcases @foldl_reachFrom g vertex (bySlack g p vertex) _ _ start with ⟨fall, queued, reaches⟩
  have short : forall {total : Int}, Path g.lookup vertex target total -> ∃ distance ≤ total,
      ((bySlack g p vertex).foldl (reachFrom g) (initialReach g vertex)).distance target =
      some distance := by
    intro total totalPath
    rcases closed.path_around cycles totalPath other with ⟨lower, atMost, here⟩ |
      ⟨middle, first, last, _, toMiddle, toTarget, atMost⟩
    · rcases fall _ _ (initialReach_distance (targets _ _ _ here) here) with
        ⟨distance, atLower, there⟩
      exact ⟨distance, atLower.trans atMost, there⟩
    · have adjacent := mem_bySlack (p := p).mpr ⟨targets _ _ _ toMiddle, first, toMiddle⟩
      rcases reaches middle adjacent
        first last target (initialReach_distance (targets _ _ _ toMiddle) toMiddle)
        (targets _ _ _ toTarget) toTarget with ⟨distance, atTwo, there⟩
      exact ⟨distance, atTwo.trans atMost, there⟩
  rcases short path with ⟨shortest, _, here⟩
  have listed : (target, shortest) ∈ closeAfterAssignFwd g p vertex := by
    rw [closeAfterAssignFwd]
    refine List.mem_map.mpr ⟨target, ?_, ?_⟩
    · exact (queued queued_initialReach _ _ here).resolve_left other
    · rw [here, Option.getD_some]
  refine ⟨shortest, listed, (closeAfterAssignFwd_improves _ listed).1, fun total totalPath => ?_⟩
  rcases short totalPath with ⟨distance, atMost, there⟩
  rw [here, Option.some.injEq] at there
  omega

end Shortest

/-- The queue holds a vertex with one distance only. -/
theorem closeAfterAssignFwd_functional {p : Nat -> Int} {target : Nat} {first second : Int}
    (isFirst : (target, first) ∈ closeAfterAssignFwd g p vertex)
    (isSecond : (target, second) ∈ closeAfterAssignFwd g p vertex) : first = second := by
  rw [closeAfterAssignFwd] at isFirst isSecond
  rcases List.mem_map.mp isFirst with ⟨_, _, sameFirst⟩
  rcases List.mem_map.mp isSecond with ⟨_, _, sameSecond⟩
  rw [Prod.mk.injEq] at sameFirst sameSecond
  rw [<- sameFirst.2, <- sameSecond.2, sameFirst.1, sameSecond.1]

theorem mem_closeAfterAssignFwd_self {p : Nat -> Int} {weight : Int}
    (irreflexive : g.lookup vertex vertex = none) :
    (vertex, weight) ∉ closeAfterAssignFwd g p vertex := by
  intro member
  rw [closeAfterAssignFwd] at member
  rcases List.mem_map.mp member with ⟨target, listed, same⟩
  rw [Prod.mk.injEq] at same
  rw [same.1] at listed
  rcases List.mem_append.mp listed with adjacent | reached
  · rcases mem_bySlack.mp adjacent with ⟨_, found, loop⟩
    rw [irreflexive] at loop
    cases loop
  · exact vertex_not_reached reached

end Around

section Delta

variable {g : AdaptGraph} {delta : EdgeVector} {source target : Nat} {weight : Int}

theorem applyDelta_of_notMem (absent : ∀ entry ∈ delta, ¬ (entry.1 = source ∧ entry.2.1 = target)) :
    (applyDelta g delta).lookup source target = g.lookup source target := by
  rw [applyDelta]
  induction delta generalizing g with
  | nil => rfl
  | cons entry rest inductionHypothesis =>
      rw [List.foldl_cons, inductionHypothesis
        (fun other member => absent other (List.mem_cons_of_mem _ member))]
      apply set_of_ne
      rintro ⟨rfl, rfl⟩
      exact absent entry List.mem_cons_self ⟨rfl, rfl⟩

/-- An edge that is always written with one weight has it. -/
theorem applyDelta_of_mem (consistent : ∀ entry ∈ delta, entry.1 = source -> entry.2.1 = target ->
    entry.2.2 = weight)
    (present : (source, target, weight) ∈ delta ∨ g.lookup source target = some weight) :
    (applyDelta g delta).lookup source target = some weight := by
  rw [applyDelta]
  induction delta generalizing g with
  | nil =>
      rcases present with impossible | here
      · cases impossible
      · exact here
  | cons entry rest inductionHypothesis =>
      rw [List.foldl_cons]
      apply inductionHypothesis
        (fun other member => consistent other (List.mem_cons_of_mem _ member))
      by_cases same : source = entry.1 ∧ target = entry.2.1
      · rcases same with ⟨rfl, rfl⟩
        right
        rw [<- consistent entry List.mem_cons_self rfl rfl]
        exact set_self
      · rcases present with member | here
        · rcases List.mem_cons.mp member with isFirst | inRest
          · exact absurd ⟨congrArg Prod.fst isFirst, congrArg (fun entry => entry.2.1) isFirst⟩ same
          · exact Or.inl inRest
        · exact Or.inr ((set_of_ne same).trans here)

end Delta

/-- The edges out of a vertex and into it are shortest paths, and some other edges stay. -/
structure RestoresAround (before after : Edges Nat) (vertex : Nat)
    (kept : Nat -> Nat -> Prop) : Prop where
  outOf : forall other length, other ≠ vertex -> Path before vertex other length ->
    exists weight, after vertex other = some weight ∧ Shortest before vertex other weight
  into : forall other length, other ≠ vertex -> Path before other vertex length ->
    exists weight, after other vertex = some weight ∧ Shortest before other vertex weight
  others : forall source target, kept source target -> after source target = before source target

/-- The edges between the vertex and another one with a path to it or from it. -/
def Restored (edges : Edges Nat) (vertex source target : Nat) : Prop :=
  source ≠ target ∧ (source = vertex ∨ target = vertex) ∧
    exists length, Path edges source target length

section Assign

variable {g : AdaptGraph} {p : Nat -> Int} {vertex : Nat}

theorem mem_closeAfterAssign {entry : Nat × Nat × Int} : entry ∈ closeAfterAssign g.view p vertex ↔
    (entry.1 = vertex ∧ entry.2 ∈ closeAfterAssignFwd g.view p vertex) ∨
      (entry.2.1 = vertex ∧ (entry.1, entry.2.2) ∈
        closeAfterAssignFwd g.view.reverse (fun other => -p other) vertex) := by
  rw [closeAfterAssign, List.mem_append, List.mem_map, List.mem_map]
  rcases entry with ⟨source, target, weight⟩
  constructor
  · rintro (⟨found, member, same⟩ | ⟨found, member, same⟩)
    · cases same
      exact Or.inl ⟨rfl, member⟩
    · cases same
      exact Or.inr ⟨rfl, member⟩
  · rintro (⟨rfl, member⟩ | ⟨rfl, member⟩)
    · exact Or.inl ⟨_, member, rfl⟩
    · exact Or.inr ⟨_, member, rfl⟩

/-- Behind the assignment, the shortest paths out of the vertex and into it are edges. -/
theorem closeAfterAssign_exact (wellFormed : g.WellFormed) (cycles : NoNegativeCycle g.lookup)
    (closed : Closed (g.lookup.without vertex)) :
    RestoresAround g.lookup (applyDelta g (closeAfterAssign g.view p vertex)).lookup vertex
      (fun source target =>
      ¬ Restored g.lookup vertex source target ∧
        (source = vertex -> target = vertex -> g.lookup vertex vertex = none)) := by
  have targets : TargetsBelow g.view := fun _ _ _ here => (wellFormed.ends _ _ _ here).2.1
  have sources : TargetsBelow g.view.reverse := fun _ _ _ here => (wellFormed.ends _ _ _ here).1.1
  have reversed : Closed (g.view.reverse.lookup.without vertex) := by
    have swapped : g.view.reverse.lookup.without vertex = fun source target =>
      g.lookup.without vertex target source := by
      funext source target
      exact if_congr or_comm rfl rfl
    rw [swapped]
    exact closed.reverse
  constructor
  · intro other length different path
    rcases closeAfterAssignFwd_shortest (p := p) targets cycles closed different path with
      ⟨shortest, listed, isShortest⟩
    refine ⟨shortest, applyDelta_of_mem ?_
      (Or.inl (mem_closeAfterAssign.mpr (Or.inl ⟨rfl, listed⟩))), isShortest⟩
    rintro ⟨source, target, weight⟩ member rfl rfl
    rcases mem_closeAfterAssign.mp member with ⟨_, forward⟩ | ⟨impossible, _⟩
    · exact closeAfterAssignFwd_functional forward listed
    · exact absurd impossible different
  · intro other length different path
    rcases closeAfterAssignFwd_shortest (p := fun other => -p other) sources cycles.reverse
      reversed different
      path.reverse with ⟨shortest, listed, isShortest⟩
    refine ⟨shortest, applyDelta_of_mem ?_
      (Or.inl (mem_closeAfterAssign.mpr (Or.inr ⟨rfl, listed⟩))), isShortest.reverse⟩
    rintro ⟨source, target, weight⟩ member rfl rfl
    rcases mem_closeAfterAssign.mp member with ⟨impossible, _⟩ | ⟨_, backward⟩
    · exact absurd impossible different
    · exact closeAfterAssignFwd_functional backward listed
  · rintro source target ⟨notRestored, loopFree⟩
    apply applyDelta_of_notMem
    rintro ⟨left, right, weight⟩ member ⟨rfl, rfl⟩
    have path := (closeAfterAssign_improves _ member).1
    rcases mem_closeAfterAssign.mp member with ⟨atSource, listed⟩ | ⟨atTarget, listed⟩
    · dsimp only at atSource listed path loopFree notRestored
      by_cases loop : left = right
      · have irreflexive := loopFree atSource (loop ▸ atSource)
        rw [<- loop, atSource] at listed
        exact mem_closeAfterAssignFwd_self irreflexive listed
      · exact notRestored ⟨loop, Or.inl atSource, weight, path⟩
    · dsimp only at atTarget listed path loopFree notRestored
      by_cases loop : left = right
      · have irreflexive := loopFree (loop.trans atTarget) atTarget
        rw [loop, atTarget] at listed
        exact @mem_closeAfterAssignFwd_self g.view.reverse _ _ _ irreflexive listed
      · exact notRestored ⟨loop, Or.inr atTarget, weight, path⟩

/-- Vertex 0 with an edge to vertex 1 and back, and one to itself. -/
def loopedVertices : AdaptGraph :=
  (((AdaptGraph.ofSize 2).setEdge 0 1 1).setEdge 1 1 0).setEdge 0 5 0

theorem wellFormed_loopedVertices : loopedVertices.WellFormed :=
  (((AdaptGraph.wellFormed_ofSize 2).setEdge ⟨by decide, by decide⟩ ⟨by decide, by decide⟩).setEdge
    ⟨by decide, by decide⟩ ⟨by decide, by decide⟩).setEdge ⟨by decide, by decide⟩
    ⟨by decide, by decide⟩

theorem models_loopedVertices : Models loopedVertices.lookup (fun _ => 0) := by
  apply models_of_nonneg
  intro source target weight here
  rcases set_cases here with ⟨_, _, rfl⟩ | old
  · decide
  · rcases set_cases old with ⟨_, _, rfl⟩ | older
    · decide
    · rcases set_cases older with ⟨_, _, rfl⟩ | impossible
      · decide
      · cases impossible

theorem closed_loopedVertices : Closed (loopedVertices.lookup.without 0) := by
  have noEdge : forall source target, loopedVertices.lookup.without 0 source target = none := by
    intro source target
    by_cases touches : source = 0 ∨ target = 0
    · exact if_pos touches
    · rw [not_or] at touches
      rw [without_of_ne touches.1 touches.2, loopedVertices]
      exact (set_of_ne (fun same => touches.1 same.1)).trans
        ((set_of_ne (fun same => touches.2 same.2)).trans
        (set_of_ne (fun same => touches.1 same.1)))
  intro source target weight _ path
  cases path with
  | edge here =>
      rw [noEdge] at here
      cases here
  | snoc _ here =>
      rw [noEdge] at here
      cases here

/-- The edges between vertex 0 and vertex 1 are kept. -/
theorem closeAfterAssign_loopedVertices : RestoresAround loopedVertices.lookup
    (applyDelta loopedVertices (closeAfterAssign loopedVertices.view (fun _ => 0) 0)).lookup 0
      (fun source target =>
      ¬ Restored loopedVertices.lookup 0 source target ∧
        (source = 0 -> target = 0 -> loopedVertices.lookup 0 0 = none)) :=
  closeAfterAssign_exact wellFormed_loopedVertices models_loopedVertices.noNegativeCycle
    closed_loopedVertices

/-- The edge from vertex 0 to itself is lowered to the cycle over vertex 1. -/
theorem not_restoresAround_loop :
    loopedVertices.WellFormed ∧ NoNegativeCycle loopedVertices.lookup ∧
      Models loopedVertices.lookup (fun _ => 0) ∧ Closed (loopedVertices.lookup.without 0) ∧
    ¬ RestoresAround loopedVertices.lookup
      (applyDelta loopedVertices (closeAfterAssign loopedVertices.view (fun _ => 0) 0)).lookup 0
      (fun source target => ¬ Restored loopedVertices.lookup 0 source target) := by
  refine ⟨wellFormed_loopedVertices, models_loopedVertices.noNegativeCycle, models_loopedVertices,
    closed_loopedVertices, fun restores => ?_⟩
  have same := restores.others 0 0 (fun restored => restored.1 rfl)
  exact absurd same (by decide)

end Assign

end GraphOps
end Crab
end Prevail
