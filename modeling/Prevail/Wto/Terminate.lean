import Prevail.Wto.Components

namespace Prevail
namespace Wto

universe u

/-!
# The construction terminates

A visit gives its vertex a number, and the only numbers that are ever taken
back are those above the head of a new cycle.  The head itself keeps its
number, so the second visit of the cycle starts with fewer unvisited labels
than the visit of the head did.  On a finite graph the recursion therefore
ends, and so does the task loop that performs it; with it the order of every
graph is defined, and meets the specification of a weak topological order.
-/

variable {V : Type u} [DecidableEq V]

/-- The number of unvisited labels. -/
def unvisitedCount (labels : Finset V) (state : BuilderState V) : Nat :=
  (labels.filter (fun label => unvisited state label)).card

section Count

variable {labels : Finset V} {state next : BuilderState V} {vertex : V}

omit [DecidableEq V] in
theorem mem_unvisited_iff {label : V} :
    label ∈ labels.filter (fun label => unvisited state label) ↔ label ∈ labels ∧
      White state label := by
  simp [unvisited, White]

omit [DecidableEq V] in
theorem unvisitedCount_lt (shrinks : forall label, White next label -> White state label)
    (isLabel : vertex ∈ labels) (white : White state vertex) (visited : ¬ White next vertex) :
    unvisitedCount labels next < unvisitedCount labels state := by
  apply Finset.card_lt_card
  rw [Finset.ssubset_iff_of_subset]
  · refine ⟨vertex, mem_unvisited_iff.mpr ⟨isLabel, white⟩, ?_⟩
    rw [mem_unvisited_iff]
    exact fun member => visited member.2
  · intro label member
    rw [mem_unvisited_iff] at member ⊢
    exact ⟨member.1, shrinks label member.2⟩

end Count

section Effect

variable {children : V -> List V} {labels : Finset V} {vertex : V} {starts opened : List V}
  {state visited final inner : BuilderState V}

omit [DecidableEq V] in
/-- A visit takes no number back in the end. -/
theorem Contract.white_of_white (contract : Contract children starts state final opened) {other : V}
    (white : White final other) : White state other := by
  by_contra numbered
  apply numbered
  rw [White, ← contract.keeps numbered]
  exact white

omit [DecidableEq V] in
theorem Contract.not_white (contract : Contract children [vertex] state final opened)
    (white : White state vertex) : ¬ White final vertex := by
  rcases contract.settled vertex (WhiteReach.of_mem List.mem_cons_self white) with isOpened | done
  · exact contract.invariant.not_white (contract.opened_mem isOpened)
  · exact done.not_white

omit [DecidableEq V] in
theorem Contract.unvisitedCount_lt (contract : Contract children [vertex] state final opened)
    (isLabel : vertex ∈ labels) (white : White state vertex) :
    unvisitedCount labels final < unvisitedCount labels state :=
  Wto.unvisitedCount_lt (fun _ => contract.white_of_white) isLabel white (contract.not_white white)

theorem number_unvisitedCount_lt (isLabel : vertex ∈ labels) (white : White state vertex) :
    unvisitedCount labels (number state vertex) < unvisitedCount labels state := by
  refine unvisitedCount_lt (fun other numbered => (number_white_iff.mp numbered).1) isLabel white ?_
  exact fun numbered => (number_white_iff.mp numbered).2 rfl

/-- The second visit of a cycle starts with fewer unvisited labels than the
visit of its head. -/
theorem CycleOpened.unvisitedCount_lt (cycle : CycleOpened children vertex state visited
    inner opened)
    (isLabel : vertex ∈ labels) : unvisitedCount labels inner < unvisitedCount labels state := by
  have scanned := cycle.scanned
  have before : forall other, White (number state vertex) other -> White state other :=
    fun other numbered => (number_white_iff.mp numbered).1
  refine Wto.unvisitedCount_lt ?_ isLabel scanned.white cycle.head.not_white
  intro other white
  rcases cycle.white_cases white with isOpened | visitedWhite
  · exact before other (scanned.contract.opened_reached scanned.numberedInvariant isOpened).white
  · exact before other (scanned.contract.white_of_white visitedWhite)

end Effect

/-! ## Every visit returns -/

section Total

variable {children : V -> List V} {labels : Finset V}

omit [DecidableEq V] in
theorem unvisitedSuccessors_subset (closed : forall label, label ∈ labels ->
    forall child, child ∈ children label -> child ∈ labels) {vertex : V} (isLabel : vertex ∈ labels)
    (state : BuilderState V) :
    forall child, child ∈ unvisitedSuccessors children state vertex -> child ∈ labels :=
  fun child member => closed vertex isLabel child (List.mem_of_mem_filter member)

/-- From every consistent state the visits of a list of labels return.  The
induction is on the number of unvisited labels, and then on the list. -/
theorem exists_visits (closed : forall label, label ∈ labels ->
    forall child, child ∈ children label -> child ∈ labels) (count : Nat) :
    forall (target : Option V) (vertices : List V) (state : BuilderState V), Invariant state ->
      unvisitedCount labels state ≤ count ->
      (forall vertex, vertex ∈ vertices -> vertex ∈ labels) ->
        exists final, Visits children target vertices state final := by
  induction count using Nat.strong_induction_on with
  | _ count fewer =>
    intro target vertices
    induction vertices with
    | nil => exact fun state _ _ _ => ⟨state, .nil target state⟩
    | cons vertex rest shorter =>
      intro state invariant bound areLabels
      have isLabel := areLabels vertex List.mem_cons_self
      have restLabels : forall other, other ∈ rest -> other ∈ labels :=
        fun other member => areLabels other (List.mem_cons_of_mem _ member)
      by_cases white : White state vertex
      · have numberedCount := number_unvisitedCount_lt isLabel white
        have visitRest : forall (next : BuilderState V) (opened : List V),
            Contract children [vertex] state next opened ->
            exists final, Visits children target rest next final := by
          intro next opened contract
          have nextCount := contract.unvisitedCount_lt isLabel white
          exact fewer _ (by omega) target rest next contract.invariant (Nat.le_refl _) restLabels
        rcases fewer _ (by omega) target _ (number state vertex) (invariant.number white)
          (Nat.le_refl _)
          (unvisitedSuccessors_subset closed isLabel _) with ⟨visited, descendants⟩
        rcases descendants.contract (invariant.number white) with ⟨opened, below⟩
        have scanned : Scanned children vertex state visited opened := ⟨invariant, white, below⟩
        rcases scan : scanSuccessors visited.vertexData (children vertex)
          (visited.vertexData vertex).dfn
          with ⟨headDfn, loop⟩
        by_cases root : headDfn = (visited.vertexData vertex).dfn
        · subst root
          cases loop with
          | false =>
              cases popped : visited.stack with
              | nil => exact absurd scanned.vertex_mem (popped ▸ List.not_mem_nil)
              | cons top stack =>
                  have single : Contract children [vertex] state
                      (finishVertex vertex target target _ stack visited)
                      [] := scanned.component scan popped
                  rcases visitRest _ _ single with ⟨final, later⟩
                  exact ⟨final, .component white descendants scan popped later⟩
          | true =>
              have notOpened : vertex ∉ opened := fun member => scanned.opened_ne member rfl
              have exists_popped : exists data, popComponent vertex visited.stack
                  (visited.setDfn vertex ⊤).vertexData = some (state.stack, data) := by
                rw [scanned.stack_form]
                exact ⟨_, popComponent_append notOpened _⟩
              rcases exists_popped with ⟨data, popped⟩
              have cycle : CycleOpened children vertex state visited
                  (openCycle vertex target _ state.stack data visited) opened :=
                CycleOpened.of_openCycle scanned scan popped
              have innerCount := cycle.unvisitedCount_lt isLabel
              rcases fewer _ (by omega) (some vertex) _ _ cycle.innerInvariant (Nat.le_refl _)
                (unvisitedSuccessors_subset closed isLabel _) with ⟨body, inside⟩
              rcases inside.contract cycle.innerInvariant with ⟨bodyOpened, bodyContract⟩
              have looped : Looped children vertex state visited _ body opened bodyOpened :=
                ⟨cycle, bodyContract⟩
              rcases visitRest (closeCycle vertex target vertex body)
                _ (looped.cycle rfl rfl rfl) with
                ⟨final, later⟩
              exact ⟨final, .cycle white descendants scan popped inside later⟩
        · rcases visitRest _ _ (scanned.pending scan root) with ⟨final, later⟩
          exact ⟨final, .pending white descendants scan root later⟩
      · rcases shorter state invariant bound restLabels with ⟨final, later⟩
        exact ⟨final, .seen white later⟩

end Total

/-! ## The task loop performs every visit -/

/-- The tasks of a visit take a fixed amount of fuel, and leave the remaining
tasks to be run from the state after the visit. -/
theorem runTasks_of_visits {children : V -> List V} {target : Option V} {vertices : List V}
    {state final : BuilderState V} (visits : Visits children target vertices state final) :
    exists used, forall fuel tasks,
      runTasks children (used + fuel) (visitTasks target vertices ++ tasks) state =
        runTasks children fuel tasks final := by
  have first : forall (vertex : V) (target : Option V) (rest : List V) (tasks : List (VisitArgs V))
      (state : BuilderState V) (fuel : Nat), (state.vertexData vertex).dfn = 0 ->
      runTasks children (fuel + 1) (visitTasks target (vertex :: rest) ++ tasks) state =
        runTasks children fuel (visitTasks target
          (unvisitedSuccessors children (number state vertex) vertex) ++
          (⟨.startVisit, vertex, target, target⟩ :: (visitTasks target rest ++ tasks)))
          (number state vertex) := by
    intro vertex target rest tasks state fuel white
    have form : visitTasks target (vertex :: rest) ++ tasks =
        ⟨.pushSuccessors, vertex, target, target⟩ :: (visitTasks target rest ++ tasks) := rfl
    rw [form]
    simp only [runTasks, runTask, pushSuccessors, white, ne_eq, not_true, if_false, visitTasks,
      List.append_assoc, List.singleton_append]
  induction visits with
  | nil target state => exact ⟨0, fun fuel tasks => by rw [Nat.zero_add]; rfl⟩
  | @seen target vertex rest state final numbered later laterHypothesis =>
      rcases laterHypothesis with ⟨used, run⟩
      refine ⟨used + 1, fun fuel tasks => ?_⟩
      have form : visitTasks target (vertex :: rest) ++ tasks =
        ⟨.pushSuccessors, vertex, target, target⟩ :: (visitTasks target rest ++ tasks) := rfl
      rw [form, Nat.add_right_comm, runTasks]
      simp only [runTask, pushSuccessors, if_pos numbered, List.nil_append]
      exact run fuel tasks
  | @pending target vertex rest state visited final headDfn loop white descendants scan lower later
      descendantsHypothesis laterHypothesis =>
      rcases descendantsHypothesis with ⟨below, descend⟩
      rcases laterHypothesis with ⟨used, run⟩
      refine ⟨below + (used + 1) + 1, fun fuel tasks => ?_⟩
      rw [Nat.add_right_comm, first vertex target rest tasks state _ white, Nat.add_assoc, descend,
        Nat.add_right_comm, runTasks]
      simp only [runTask, startVisit, scan, if_neg lower, List.nil_append]
      exact run fuel tasks
  | @component target vertex top rest stack state visited final white descendants scan popped later
      descendantsHypothesis laterHypothesis =>
      rcases descendantsHypothesis with ⟨below, descend⟩
      rcases laterHypothesis with ⟨used, run⟩
      refine ⟨below + (used + 1) + 1, fun fuel tasks => ?_⟩
      rw [Nat.add_right_comm, first vertex target rest tasks state _ white, Nat.add_assoc, descend,
        Nat.add_right_comm, runTasks]
      simp only [runTask, startVisit, scan, if_true, Bool.false_eq_true, if_false, popped,
        List.nil_append]
      exact run fuel tasks
  | @cycle target vertex rest stack vertexData state visited body final white descendants scan
    popped inside later
      descendantsHypothesis insideHypothesis laterHypothesis =>
      rcases descendantsHypothesis with ⟨below, descend⟩
      rcases insideHypothesis with ⟨within, loop⟩
      rcases laterHypothesis with ⟨used, run⟩
      refine ⟨below + (within + (used + 1) + 1) + 1, fun fuel tasks => ?_⟩
      rw [Nat.add_right_comm, first vertex target rest tasks state _ white, Nat.add_assoc, descend,
        Nat.add_right_comm, runTasks]
      simp only [runTask, startVisit, scan, if_true, popped, List.append_assoc,
        List.singleton_append]
      refine Eq.trans ?_ (run fuel tasks)
      rw [Nat.add_assoc]
      refine Eq.trans (loop _ _) ?_
      rw [Nat.add_right_comm, runTasks]
      simp only [runTask, continueVisit, List.nil_append]

/-- On a finite graph the construction returns, and returns the same order for
every larger amount of fuel. -/
theorem exists_build {children : V -> List V} {labels : Finset V} {entry : V}
    (closed : forall label, label ∈ labels -> forall child, child ∈ children label ->
      child ∈ labels)
    (isLabel : entry ∈ labels) :
    exists bound wto, forall fuel, bound ≤ fuel -> build children entry fuel = some wto := by
  rcases exists_visits closed _ none [entry] initialState initialState_invariant (Nat.le_refl _)
    (fun vertex member => List.mem_singleton.mp member ▸ isLabel) with ⟨final, visits⟩
  rcases runTasks_of_visits visits with ⟨used, run⟩
  refine ⟨used, ⟨final.components none, final.cycleParent, final.containingCycle⟩,
    fun fuel enough => ?_⟩
  rcases Nat.exists_eq_add_of_le enough with ⟨rest, rfl⟩
  have returned := run rest []
  rw [List.append_nil] at returned
  have finished : runTasks children rest [] final = some final := by
    cases rest <;> rfl
  unfold build
  rw [show [⟨.pushSuccessors, entry, none, none⟩] = visitTasks none [entry] from rfl,
    returned, finished]
  rfl

end Wto
end Prevail
