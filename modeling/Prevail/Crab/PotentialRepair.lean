import Prevail.Crab.Closure

namespace Prevail
namespace Crab

open DifferenceBounds

/-!
# The repair of a potential

After one edge of a graph is set or lowered, `repair_potential` lowers the
potential of the vertices behind the edge, in the order of Dijkstra's algorithm:
a vertex leaves the heap when no later vertex can lower it again.  The vertex
in front of the edge is reached exactly if the edge closes a negative cycle.

The vertices that have left the heap are those whose alternative potential
differs from the potential.
-/

namespace GraphOps

/-- The potential fits every edge but one. -/
def ModelsExcept (edges : Edges Nat) (p : Nat -> Int) (ii jj : Nat) : Prop :=
  forall source target weight, edges source target = some weight -> ¬ (source = ii ∧ target = jj) ->
    p target ≤ p source + weight

/-- Every edge leads to a vertex below the size of the graph. -/
def TargetsBelow (g : GraphView) : Prop :=
  forall source target weight, g.lookup source target = some weight -> target < g.size

/-- What holds while the heap is worked off.  The edges for which `pending`
holds have not been looked at yet.  The order of the heap is of no interest
any more once the vertex in front of the new edge is reached. -/
structure RepairInvariant (g : GraphView) (p : Nat -> Int) (ii jj : Nat) (slack : Int)
    (pending : Nat -> Nat -> Prop) (state : Repair) : Prop where
  path : forall vertex, state.distance vertex < 0 ->
    Path g.lookup ii vertex (p vertex + state.distance vertex - p ii)
  nonpositive : forall vertex, state.distance vertex ≤ 0
  target : state.distance jj ≤ slack
  heapBelow : ∀ vertex ∈ state.heap, vertex < g.size
  heapLowered : ∀ vertex ∈ state.heap, state.distance vertex < 0 ∧
    state.alternative vertex = p vertex
  loweredHeap : forall vertex, state.distance vertex < 0 -> state.alternative vertex = p vertex ->
    vertex ∈ state.heap
  settled : forall vertex, state.alternative vertex ≠ p vertex ->
    state.alternative vertex = p vertex + state.distance vertex
  order : 0 ≤ state.distance ii -> forall vertex, state.alternative vertex ≠ p vertex ->
    ∀ other ∈ state.heap, state.distance vertex ≤ state.distance other
  relaxed : 0 ≤ state.distance ii -> forall vertex target weight,
    state.alternative vertex ≠ p vertex -> g.lookup vertex target = some weight ->
    ¬ pending vertex target ->
      p target + state.distance target ≤ state.alternative vertex + weight

section Repair

variable {g : GraphView} {p : Nat -> Int} {ii jj : Nat} {slack : Int}

/-- One edge out of a settled vertex that no vertex of the heap is below. -/
theorem RepairInvariant.edge {vertex target : Nat} {weight : Int}
    {pending after : Nat -> Nat -> Prop}
    {state : Repair} (invariant : RepairInvariant g p ii jj slack pending state)
    (models : ModelsExcept g.lookup p ii jj) (settled : state.alternative vertex ≠ p vertex)
    (lowest : 0 ≤ state.distance ii -> forall other, state.alternative other ≠ p other ->
      state.distance other ≤ state.distance vertex)
    (negative : state.distance vertex < 0)
    (here : g.lookup vertex target = some weight) (below : target < g.size)
    (step : forall left right, pending left right -> (left = vertex ∧ right = target) ∨
      after left right) :
    RepairInvariant g p ii jj slack after (repairEdge p vertex state (target, weight)) := by
  have vertexValue := invariant.settled vertex settled
  have reached : Path g.lookup ii target (state.alternative vertex - p ii + weight) := by
    rw [vertexValue]
    exact .snoc (invariant.path vertex negative) here
  -- A settled target is not lowered, and none of the edges out of it is looked at again.
  have keeps : forall unchanged : 0 ≤ state.distance ii ->
        p target + state.distance target ≤ state.alternative vertex + weight,
      RepairInvariant g p ii jj slack after state := by
    intro unchanged
    refine { invariant with relaxed := ?_ }
    intro fresh other next otherWeight otherSettled there notAfter
    by_cases same : other = vertex ∧ next = target
    · rcases same with ⟨rfl, rfl⟩
      rw [here] at there
      cases there
      exact unchanged fresh
    · exact invariant.relaxed fresh other next otherWeight otherSettled there
        (fun wasPending => (step _ _ wasPending).elim same notAfter)
  have edgeFits : 0 ≤ state.distance ii -> p target ≤ p vertex + weight := by
    intro fresh
    apply models vertex target weight here
    rintro ⟨rfl, _⟩
    omega
  unfold repairEdge
  dsimp only
  split
  · rename_i unsettled
    split
    · rename_i lower
      rw [unsettled] at lower ⊢
      have others : forall other, other ≠ target ->
          Function.update state.distance target
          (state.alternative vertex + weight - p target) other =
            state.distance other := fun other different => Function.update_of_ne different _ _
      have freshBefore : 0 ≤ Function.update state.distance target
          (state.alternative vertex + weight - p target) ii -> 0 ≤ state.distance ii := by
        intro fresh
        by_cases same : ii = target
        · subst same
          rw [Function.update_self] at fresh
          omega
        · rwa [others ii same] at fresh
      have lowerThan : forall other, Function.update state.distance target
          (state.alternative vertex + weight - p target) other ≤ state.distance other := by
        intro other
        by_cases same : other = target
        · subst same
          rw [Function.update_self]
          exact lower.le
        · rw [others other same]
      have settledOther : forall other, state.alternative other ≠ p other -> other ≠ target := by
        rintro other otherSettled rfl
        exact otherSettled unsettled
      constructor
      · intro other negativeOther
        dsimp only at negativeOther ⊢
        by_cases same : other = target
        · subst same
          rw [Function.update_self]
          convert reached using 1
          ring
        · rw [others other same] at negativeOther ⊢
          exact invariant.path other negativeOther
      · intro other
        exact (lowerThan other).trans (invariant.nonpositive other)
      · exact (lowerThan jj).trans invariant.target
      · intro other member
        rcases mem_insertHeap.mp member with rfl | inHeap
        · exact below
        · exact invariant.heapBelow other inHeap
      · intro other member
        rcases mem_insertHeap.mp member with rfl | inHeap
        · dsimp only
          rw [Function.update_self]
          have bounded := invariant.nonpositive other
          exact ⟨by omega, unsettled⟩
        · have earlier := invariant.heapLowered other inHeap
          exact ⟨(lowerThan other).trans_lt earlier.1, earlier.2⟩
      · intro other negativeOther otherUnsettled
        apply mem_insertHeap.mpr
        by_cases same : other = target
        · exact Or.inl same
        · dsimp only at negativeOther
          rw [others other same] at negativeOther
          exact Or.inr (invariant.loweredHeap other negativeOther otherUnsettled)
      · intro other otherSettled
        dsimp only at otherSettled ⊢
        rw [others other (settledOther other otherSettled)]
        exact invariant.settled other otherSettled
      · intro fresh other otherSettled member inHeap
        dsimp only at fresh otherSettled ⊢
        rw [others other (settledOther other otherSettled)]
        have otherLow := lowest (freshBefore fresh) other otherSettled
        rcases mem_insertHeap.mp inHeap with rfl | earlier
        · rw [Function.update_self]
          have fits := edgeFits (freshBefore fresh)
          omega
        · by_cases same : member = target
          · subst same
            rw [Function.update_self]
            have fits := edgeFits (freshBefore fresh)
            omega
          · rw [others member same]
            exact invariant.order (freshBefore fresh) other otherSettled member earlier
      · intro fresh other next otherWeight otherSettled there notAfter
        dsimp only at fresh otherSettled ⊢
        have low := lowerThan next
        by_cases same : other = vertex ∧ next = target
        · rcases same with ⟨rfl, rfl⟩
          rw [here] at there
          cases there
          rw [Function.update_self]
          omega
        · have earlier := invariant.relaxed (freshBefore fresh) other next otherWeight
            otherSettled there
            (fun wasPending => (step _ _ wasPending).elim same notAfter)
          omega
    · rename_i notLower
      apply keeps
      intro _
      rw [unsettled] at notLower
      omega
  · rename_i targetSettled
    apply keeps
    intro fresh
    have fits := edgeFits fresh
    have low := lowest fresh target targetSettled
    omega

theorem RepairInvariant.edges {vertex : Nat} {edges : List (Nat × Int)} {state : Repair}
    (invariant : RepairInvariant g p ii jj slack
      (fun left right => left = vertex ∧ right ∈ edges.map Prod.fst) state)
    (models : ModelsExcept g.lookup p ii jj) (settled : state.alternative vertex ≠ p vertex)
    (lowest : 0 ≤ state.distance ii -> forall other, state.alternative other ≠ p other ->
      state.distance other ≤ state.distance vertex)
    (negative : state.distance vertex < 0)
    (found : ∀ edge ∈ edges, edge.1 < g.size ∧ g.lookup vertex edge.1 = some edge.2) :
    RepairInvariant g p ii jj slack (fun _ _ => False)
    (edges.foldl (repairEdge p vertex) state) := by
  induction edges generalizing state with
  | nil => simpa using invariant
  | cons edge rest inductionHypothesis =>
      rcases found edge List.mem_cons_self with ⟨below, here⟩
      have next : RepairInvariant g p ii jj slack (fun left right => left = vertex ∧
          right ∈ rest.map Prod.fst)
          (repairEdge p vertex state edge) := by
        apply invariant.edge models settled lowest negative here below
        rintro left right ⟨rfl, member⟩
        rw [List.map_cons, List.mem_cons] at member
        exact member.imp (fun same => ⟨rfl, same⟩) (fun later => ⟨rfl, later⟩)
      have alternative : (repairEdge p vertex state edge).alternative = state.alternative := by
        unfold repairEdge
        dsimp only
        split
        · split <;> rfl
        · rfl
      have kept : forall other, state.alternative other ≠ p other ->
          (repairEdge p vertex state edge).distance other = state.distance other := by
        intro other otherSettled
        unfold repairEdge
        dsimp only
        split
        · rename_i unsettled
          split
          · have different : other ≠ edge.1 := by
              rintro rfl
              exact otherSettled unsettled
            exact Function.update_of_ne different _ _
          · rfl
        · rfl
      have lower : (repairEdge p vertex state edge).distance ii ≤ state.distance ii := by
        unfold repairEdge
        dsimp only
        split
        · split
          · rename_i lowered
            by_cases same : ii = edge.1
            · subst same
              simpa using lowered.le
            · simp [Function.update_of_ne same]
          · exact le_refl _
        · exact le_refl _
      apply inductionHypothesis next
      · rwa [alternative]
      · intro fresh other otherSettled
        rw [alternative] at otherSettled
        rw [kept other otherSettled, kept vertex settled]
        exact lowest (fresh.trans lower) other otherSettled
      · rwa [kept vertex settled]
      · exact fun other member => found other (List.mem_cons_of_mem _ member)

theorem RepairInvariant.vertex {vertex : Nat} {rest : List Nat} {state : Repair}
    (invariant : RepairInvariant g p ii jj slack (fun _ _ => False) state)
    (models : ModelsExcept g.lookup p ii jj) (targets : TargetsBelow g) (nodup : state.heap.Nodup)
    (removed : removeMin state.distance state.heap = some (vertex, rest)) :
    RepairInvariant g p ii jj slack (fun _ _ => False) (repairVertex g p state vertex rest) := by
  rcases removeMin_spec removed with ⟨perm, least⟩
  have inHeap : vertex ∈ state.heap := perm.mem_iff.mpr List.mem_cons_self
  rcases invariant.heapLowered vertex inHeap with ⟨negative, unsettled⟩
  have inRest : forall other, other ∈ rest ↔ other ∈ state.heap ∧ other ≠ vertex := by
    intro other
    have fresh := (List.nodup_cons.mp (perm.nodup_iff.mp nodup)).1
    rw [perm.mem_iff, List.mem_cons]
    constructor
    · intro member
      exact ⟨Or.inr member, fun same => fresh (same ▸ member)⟩
    · rintro ⟨same | member, different⟩
      · exact absurd same different
      · exact member
  have updated : forall other, other ≠ vertex ->
      Function.update state.alternative vertex (p vertex + state.distance vertex) other =
        state.alternative other := fun other different => Function.update_of_ne different _ _
  unfold repairVertex
  apply RepairInvariant.edges _ models
  · dsimp only
    rw [Function.update_self]
    omega
  · dsimp only
    intro fresh other otherSettled
    by_cases same : other = vertex
    · rw [same]
    · rw [updated other same] at otherSettled
      exact invariant.order fresh other otherSettled vertex inHeap
  · exact negative
  · rintro ⟨target, weight⟩ member
    exact GraphView.mem_eSuccs.mp member
  · refine
      { path := invariant.path
        nonpositive := invariant.nonpositive
        target := invariant.target
        heapBelow := fun other member => invariant.heapBelow other ((inRest other).mp member).1
        heapLowered := ?_
        loweredHeap := ?_
        settled := ?_
        order := ?_
        relaxed := ?_ }
    · intro other member
      rcases (inRest other).mp member with ⟨inside, different⟩
      dsimp only
      rw [updated other different]
      exact invariant.heapLowered other inside
    · intro other lowered otherUnsettled
      dsimp only at otherUnsettled
      by_cases same : other = vertex
      · subst same
        rw [Function.update_self] at otherUnsettled
        omega
      · rw [updated other same] at otherUnsettled
        exact (inRest other).mpr ⟨invariant.loweredHeap other lowered otherUnsettled, same⟩
    · intro other otherSettled
      dsimp only at otherSettled ⊢
      by_cases same : other = vertex
      · subst same
        rw [Function.update_self]
      · rw [updated other same] at otherSettled ⊢
        exact invariant.settled other otherSettled
    · intro fresh other otherSettled member inside
      dsimp only at otherSettled
      have inside := ((inRest member).mp inside).1
      by_cases same : other = vertex
      · rw [same]
        exact least member inside
      · rw [updated other same] at otherSettled
        exact invariant.order fresh other otherSettled member inside
    · intro fresh other target weight otherSettled there notPending
      dsimp only at otherSettled notPending ⊢
      by_cases same : other = vertex
      · subst same
        apply absurd _ notPending
        exact ⟨rfl, List.mem_map.mpr ⟨(target, weight),
          GraphView.mem_eSuccs.mpr ⟨targets _ _ _ there, there⟩, rfl⟩⟩
      · rw [updated other same] at otherSettled ⊢
        exact invariant.relaxed fresh other target weight otherSettled there id

theorem nodup_repairVertex {vertex : Nat} {rest : List Nat} {state : Repair} (nodup : rest.Nodup) :
    (repairVertex g p state vertex rest).heap.Nodup := by
  unfold repairVertex
  have start : ({ state with
      alternative := Function.update state.alternative vertex (p vertex + state.distance vertex)
      heap := rest } : Repair).heap.Nodup := nodup
  revert start
  generalize ({ state with
      alternative := Function.update state.alternative vertex (p vertex + state.distance vertex)
      heap := rest } : Repair) = next
  intro start
  induction g.eSuccs vertex generalizing next with
  | nil => exact start
  | cons edge others inductionHypothesis =>
      apply inductionHypothesis
      unfold repairEdge
      dsimp only
      split
      · split
        · exact nodup_insertHeap start
        · exact start
      · exact start

theorem repairVertex_alternative (state : Repair) (vertex : Nat) (rest : List Nat) :
    (repairVertex g p state vertex rest).alternative =
      Function.update state.alternative vertex (p vertex + state.distance vertex) := by
  unfold repairVertex
  have start : ({ state with
      alternative := Function.update state.alternative vertex (p vertex + state.distance vertex)
      heap := rest } : Repair).alternative =
        Function.update state.alternative vertex (p vertex + state.distance vertex) := rfl
  rw [← start]
  generalize ({ state with
      alternative := Function.update state.alternative vertex (p vertex + state.distance vertex)
      heap := rest } : Repair) = next
  induction g.eSuccs vertex generalizing next with
  | nil => rfl
  | cons edge others inductionHypothesis =>
      rw [List.foldl_cons, inductionHypothesis]
      unfold repairEdge
      dsimp only
      split
      · split <;> rfl
      · rfl

/-- The vertices that have not left the heap. -/
def unsettled (g : GraphView) (p : Nat -> Int) (state : Repair) : Finset Nat :=
  (Finset.range g.size).filter (fun vertex => state.alternative vertex = p vertex)

/-- A vertex that leaves the heap is settled. -/
theorem RepairInvariant.unsettled_lt {vertex : Nat} {rest : List Nat} {state : Repair}
    (invariant : RepairInvariant g p ii jj slack (fun _ _ => False) state)
    (inHeap : vertex ∈ state.heap) :
    (unsettled g p (repairVertex g p state vertex rest)).card < (unsettled g p state).card := by
  rcases invariant.heapLowered vertex inHeap with ⟨negative, wasUnsettled⟩
  have inside : vertex ∈ unsettled g p state :=
    Finset.mem_filter.mpr ⟨Finset.mem_range.mpr (invariant.heapBelow vertex inHeap), wasUnsettled⟩
  apply Finset.card_lt_card
  unfold unsettled
  rw [repairVertex_alternative, Finset.ssubset_iff_of_subset]
  · refine ⟨vertex, inside, ?_⟩
    intro member
    have same := (Finset.mem_filter.mp member).2
    rw [Function.update_self] at same
    omega
  · intro other member
    rcases Finset.mem_filter.mp member with ⟨below, same⟩
    by_cases here : other = vertex
    · rw [here]
      exact inside
    · rw [Function.update_of_ne here] at same
      exact Finset.mem_filter.mpr ⟨below, same⟩

/-- As many steps as there are unsettled vertices empty the heap. -/
theorem RepairInvariant.loop {state : Repair} (steps : Nat)
    (invariant : RepairInvariant g p ii jj slack (fun _ _ => False) state)
    (models : ModelsExcept g.lookup p ii jj) (targets : TargetsBelow g) (nodup : state.heap.Nodup)
    (enough : (unsettled g p state).card ≤ steps) :
    RepairInvariant g p ii jj slack (fun _ _ => False) (repairLoop g p steps state) ∧
      (repairLoop g p steps state).heap = [] := by
  induction steps generalizing state with
  | zero =>
      refine ⟨invariant, ?_⟩
      apply List.eq_nil_iff_forall_not_mem.mpr
      intro vertex member
      have inside : vertex ∈ unsettled g p state :=
        Finset.mem_filter.mpr ⟨Finset.mem_range.mpr (invariant.heapBelow vertex member),
          (invariant.heapLowered vertex member).2⟩
      rw [Finset.card_eq_zero.mp (Nat.le_zero.mp enough)] at inside
      cases inside
  | succ steps inductionHypothesis =>
      unfold repairLoop
      split
      · rename_i empty
        exact ⟨invariant, removeMin_eq_none.mp empty⟩
      · rename_i vertex rest removed
        have perm := (removeMin_spec removed).1
        have inHeap : vertex ∈ state.heap := perm.mem_iff.mpr List.mem_cons_self
        apply inductionHypothesis (invariant.vertex models targets nodup removed)
        · exact nodup_repairVertex (List.nodup_cons.mp (perm.nodup_iff.mp nodup)).2
        · have smaller := @RepairInvariant.unsettled_lt _ _ _ _ _ _ rest _ invariant inHeap
          omega

theorem initialRepair_invariant (new : g.lookup ii jj = some (slack + p jj - p ii))
    (below : jj < g.size) (negative : slack < 0) :
    RepairInvariant g p ii jj slack (fun _ _ => False) (initialRepair p jj slack) := by
  have others : forall vertex, vertex ≠ jj -> (initialRepair p jj slack).distance vertex = 0 := by
    intro vertex different
    simp [initialRepair, different]
  have atTarget : (initialRepair p jj slack).distance jj = slack := by
    simp [initialRepair]
  constructor
  · intro vertex lowered
    by_cases same : vertex = jj
    · subst same
      rw [atTarget]
      convert Path.edge new using 1
      ring
    · rw [others vertex same] at lowered
      omega
  · intro vertex
    by_cases same : vertex = jj
    · rw [same, atTarget]
      exact negative.le
    · rw [others vertex same]
  · exact atTarget.le
  · intro vertex member
    rwa [List.mem_singleton.mp member]
  · intro vertex member
    rw [List.mem_singleton.mp member, atTarget]
    exact ⟨negative, rfl⟩
  · intro vertex lowered _
    by_cases same : vertex = jj
    · exact List.mem_singleton.mpr same
    · rw [others vertex same] at lowered
      omega
  · intro vertex settled
    exact absurd rfl settled
  · intro _ vertex settled
    exact absurd rfl settled
  · intro _ vertex _ _ settled
    exact absurd rfl settled

/-- Behind the loop the alternative potential is lower by the distance. -/
theorem RepairInvariant.value {state : Repair}
    (invariant : RepairInvariant g p ii jj slack (fun _ _ => False) state)
    (empty : state.heap = []) (vertex : Nat) :
    state.alternative vertex = p vertex + state.distance vertex := by
  by_cases unsettled_ : state.alternative vertex = p vertex
  · have notLowered : ¬ state.distance vertex < 0 := by
      intro lowered
      have inHeap := invariant.loweredHeap vertex lowered unsettled_
      rw [empty] at inHeap
      cases inHeap
    have bounded := invariant.nonpositive vertex
    omega
  · exact invariant.settled vertex unsettled_

/-- The heap is empty and the vertex in front of the edge is not reached. -/
theorem RepairInvariant.models {state : Repair} (models : ModelsExcept g.lookup p ii jj)
    (invariant : RepairInvariant g p ii jj slack (fun _ _ => False) state) (empty : state.heap = [])
    (fresh : 0 ≤ state.distance ii)
    (new : g.lookup ii jj = some (slack + p jj - p ii)) : Models g.lookup state.alternative := by
  have value := invariant.value empty
  intro source target weight here
  by_cases settled : state.alternative source = p source
  · rw [value target, settled]
    have bounded := invariant.nonpositive target
    by_cases isNew : source = ii ∧ target = jj
    · rcases isNew with ⟨rfl, rfl⟩
      rw [new] at here
      cases here
      have lowered := invariant.target
      omega
    · have old := models source target weight here isNew
      omega
  · rw [value target]
    exact invariant.relaxed fresh source target weight settled here id

/-- The state in which the loop of `repair_potential` stops. -/
theorem repairLoop_final (models : ModelsExcept g.lookup p ii jj) (targets : TargetsBelow g)
    (new : g.lookup ii jj = some (slack + p jj - p ii)) (negative : slack < 0) :
    RepairInvariant g p ii jj slack (fun _ _ => False)
    (repairLoop g p g.size (initialRepair p jj slack)) ∧
      (repairLoop g p g.size (initialRepair p jj slack)).heap = [] := by
  apply (initialRepair_invariant new (targets _ _ _ new) negative).loop g.size models targets
  · simp [initialRepair]
  · exact (Finset.card_filter_le _ _).trans (by simp)

variable {weight : Int} {repaired : Nat -> Int}

/-- `repair_potential` makes the potential fit the graph. -/
theorem repairPotential_models (models : ModelsExcept g.lookup p ii jj) (targets : TargetsBelow g)
    (new : g.lookup ii jj = some weight) (result : repairPotential g p ii jj = some repaired) :
    Models g.lookup repaired := by
  unfold repairPotential at result
  rw [new, Option.getD_some] at result
  dsimp only at result
  split at result
  · rename_i nonneg
    cases result
    intro source target here found
    by_cases isNew : source = ii ∧ target = jj
    · rcases isNew with ⟨rfl, rfl⟩
      rw [new] at found
      cases found
      omega
    · exact models source target here found isNew
  · rename_i negative
    have slackEdge : g.lookup ii jj = some (p ii + weight - p jj + p jj - p ii) := by
      rw [new]
      congr 1
      ring
    have final := repairLoop_final models targets slackEdge (not_le.mp negative)
    split at result
    · cases result
    · rename_i fresh
      cases result
      exact final.1.models models final.2 (not_lt.mp fresh) slackEdge

/-- `repair_potential` fails only if no potential fits the graph. -/
theorem not_models_of_repairPotential (models : ModelsExcept g.lookup p ii jj)
    (targets : TargetsBelow g)
    (new : g.lookup ii jj = some weight) (result : repairPotential g p ii jj = none)
    (values : Nat -> Int) :
    ¬ Models g.lookup values := by
  unfold repairPotential at result
  rw [new, Option.getD_some] at result
  dsimp only at result
  split at result
  · cases result
  · rename_i negative
    have slackEdge : g.lookup ii jj = some (p ii + weight - p jj + p jj - p ii) := by
      rw [new]
      congr 1
      ring
    have final := repairLoop_final models targets slackEdge (not_le.mp negative)
    split at result
    · rename_i reached
      intro fits
      have closed := (final.1.path ii reached).nonneg_of_closed fits
      omega
    · cases result

end Repair

end GraphOps
end Crab
end Prevail
