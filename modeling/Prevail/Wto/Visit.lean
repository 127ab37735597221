import Prevail.Wto.Builder

namespace Prevail
namespace Wto

universe u

/-!
# The recursive visit behind the task stack

The tasks that one `PushSuccessors` task leaves on the stack are completed
before any older task runs.  `Visits` is the resulting recursive algorithm: it
visits a list of vertices in order, and the components it finds are added to
the partition `target`.  Every run of the task loop decomposes into such
visits, so that the correctness proof can follow the recursion.
-/

variable {V : Type u} [DecidableEq V]

/-- The visits of a list of vertices.  A vertex that already has a number is
passed over; otherwise its unvisited children are visited first, and then the
scan of `start_visit` leaves the vertex on the stack, makes it a component, or
opens a cycle whose remaining vertices are visited once more. -/
inductive Visits (children : V -> List V) :
    Option V -> List V -> BuilderState V -> BuilderState V -> Prop where
  | nil (target : Option V) (state : BuilderState V) : Visits children target [] state state
  | seen {target : Option V} {vertex : V} {rest : List V} {state final : BuilderState V}
      (numbered : (state.vertexData vertex).dfn ≠ 0)
      (later : Visits children target rest state final) :
      Visits children target (vertex :: rest) state final
  | pending {target : Option V} {vertex : V} {rest : List V} {state visited final : BuilderState V}
      {headDfn : WithTop Nat} {loop : Bool}
      (white : (state.vertexData vertex).dfn = 0)
      (descendants : Visits children target
        (unvisitedSuccessors children (number state vertex) vertex)
        (number state vertex) visited)
      (scan : scanSuccessors visited.vertexData (children vertex) (visited.vertexData vertex).dfn =
        (headDfn, loop))
      (lower : headDfn ≠ (visited.vertexData vertex).dfn)
      (later : Visits children target rest (visited.setHeadDfn vertex headDfn) final) :
      Visits children target (vertex :: rest) state final
  | component {target : Option V} {vertex top : V} {rest stack : List V}
      {state visited final : BuilderState V}
      (white : (state.vertexData vertex).dfn = 0)
      (descendants : Visits children target
        (unvisitedSuccessors children (number state vertex) vertex)
        (number state vertex) visited)
      (scan : scanSuccessors visited.vertexData (children vertex) (visited.vertexData vertex).dfn =
        ((visited.vertexData vertex).dfn, false))
      (popped : visited.stack = top :: stack)
      (later : Visits children target rest
        (finishVertex vertex target target (visited.vertexData vertex).dfn stack visited) final) :
      Visits children target (vertex :: rest) state final
  | cycle {target : Option V} {vertex : V} {rest stack : List V}
      {vertexData : V -> VertexData} {state visited body final : BuilderState V}
      (white : (state.vertexData vertex).dfn = 0)
      (descendants : Visits children target
        (unvisitedSuccessors children (number state vertex) vertex)
        (number state vertex) visited)
      (scan : scanSuccessors visited.vertexData (children vertex) (visited.vertexData vertex).dfn =
        ((visited.vertexData vertex).dfn, true))
      (popped : popComponent vertex visited.stack (visited.setDfn vertex ⊤).vertexData =
        some (stack, vertexData))
      (inside : Visits children (some vertex)
        (unvisitedSuccessors children
          (openCycle vertex target (visited.vertexData vertex).dfn stack vertexData visited) vertex)
        (openCycle vertex target (visited.vertexData vertex).dfn stack vertexData visited) body)
      (later : Visits children target rest (closeCycle vertex target vertex body) final) :
      Visits children target (vertex :: rest) state final

/-- What a `StartVisit` task does, one case for each way the scan can end. -/
theorem startVisit_cases {children : V -> List V} {vertex : V} {target : Option V}
    {state next : BuilderState V} {tasks : List (VisitArgs V)}
    (run : startVisit children vertex target target state = some (tasks, next)) :
    (exists headDfn loop,
      scanSuccessors state.vertexData (children vertex) (state.vertexData vertex).dfn =
      (headDfn, loop) ∧
        headDfn ≠ (state.vertexData vertex).dfn ∧ tasks = [] ∧
        next = state.setHeadDfn vertex headDfn) ∨
    (exists top stack,
      scanSuccessors state.vertexData (children vertex) (state.vertexData vertex).dfn =
          ((state.vertexData vertex).dfn, false) ∧
        state.stack = top :: stack ∧ tasks = [] ∧
        next = finishVertex vertex target target (state.vertexData vertex).dfn stack state) ∨
    (exists stack vertexData,
      scanSuccessors state.vertexData (children vertex) (state.vertexData vertex).dfn =
          ((state.vertexData vertex).dfn, true) ∧
        popComponent vertex state.stack (state.setDfn vertex ⊤).vertexData = some
        (stack, vertexData) ∧ next = openCycle vertex target (state.vertexData vertex).dfn stack
        vertexData state ∧ tasks = (unvisitedSuccessors children next vertex).map
            (fun succ => ⟨.pushSuccessors, succ, some vertex, some vertex⟩) ++
          [⟨.continueVisit, vertex, target, some vertex⟩]) := by
  unfold startVisit at run
  rcases scan : scanSuccessors state.vertexData (children vertex) (state.vertexData vertex).dfn
    with ⟨headDfn, loop⟩
  simp only [scan] at run
  by_cases root : headDfn = (state.vertexData vertex).dfn
  · subst root
    cases loop with
    | false =>
        right; left
        cases stackForm : state.stack with
        | nil => simp [stackForm] at run
        | cons top stack =>
            simp only [stackForm] at run
            cases run
            exact ⟨top, stack, rfl, rfl, rfl, rfl⟩
    | true =>
        right; right
        cases popped : popComponent vertex state.stack (state.setDfn vertex ⊤).vertexData with
        | none => simp [popped] at run
        | some result =>
            rcases result with ⟨stack, vertexData⟩
            simp only [popped] at run
            cases run
            exact ⟨stack, vertexData, rfl, rfl, rfl, rfl⟩
  · left
    simp only [if_neg root] at run
    cases run
    exact ⟨headDfn, loop, rfl, root, rfl, rfl⟩

/-- The tasks that `push_successors` and `start_visit` leave for a list of
vertices. -/
def visitTasks (target : Option V) (vertices : List V) : List (VisitArgs V) :=
  vertices.map (fun vertex => ⟨.pushSuccessors, vertex, target, target⟩)

/-- A completed run that begins with the tasks of some vertices completes the
visits of these vertices, and then runs the remaining tasks with less fuel. -/
theorem visits_of_runTasks {children : V -> List V} (fuel : Nat) :
    forall (target : Option V) (vertices : List V) (tasks : List (VisitArgs V))
    (state final : BuilderState V),
      runTasks children fuel (visitTasks target vertices ++ tasks) state = some final ->
        exists remaining middle, remaining ≤ fuel ∧ Visits children target vertices state middle ∧
          runTasks children remaining tasks middle = some final := by
  induction fuel using Nat.strong_induction_on with
  | _ fuel inductionHypothesis =>
    intro target vertices tasks state final run
    cases vertices with
    | nil => exact ⟨fuel, state, Nat.le_refl _, .nil target state, run⟩
    | cons vertex rest =>
        cases fuel with
        | zero => cases run
        | succ fuel =>
            simp only [visitTasks, List.map_cons, List.cons_append, runTasks, runTask,
              pushSuccessors] at run
            by_cases numbered : (state.vertexData vertex).dfn ≠ 0
            · rw [if_pos numbered] at run
              rcases inductionHypothesis fuel (Nat.lt_succ_self _) target rest tasks state final run
                with ⟨remaining, middle, bound, visits, after⟩
              exact ⟨remaining, middle, Nat.le_succ_of_le bound, .seen numbered visits, after⟩
            · have white : (state.vertexData vertex).dfn = 0 := not_not.mp numbered
              rw [if_neg numbered] at run
              simp only [List.append_assoc, List.singleton_append] at run
              rcases inductionHypothesis fuel (Nat.lt_succ_self _) target _ _ _ final run
                with ⟨afterDescendants, visited, descendantBound, descendants, startRun⟩
              cases afterDescendants with
              | zero => cases startRun
              | succ afterDescendants =>
                  simp only [runTasks, runTask] at startRun
                  cases started : startVisit children vertex target target visited with
                  | none => simp [started] at startRun
                  | some result =>
                      rcases result with ⟨pushed, next⟩
                      simp only [started] at startRun
                      rcases startVisit_cases started with
                        ⟨headDfn, loop, scan, lower, rfl, rfl⟩ |
                        ⟨top, stack, scan, popped, rfl, rfl⟩ |
                        ⟨stack, vertexData, scan, popped, rfl, rfl⟩
                      · rcases inductionHypothesis afterDescendants (by omega) target rest tasks
                          _ final startRun
                          with ⟨remaining, middle, bound, visits, after⟩
                        exact ⟨remaining, middle, by
                          omega, .pending white descendants scan lower visits, after⟩
                      · rcases inductionHypothesis afterDescendants (by omega) target rest tasks
                          _ final startRun
                          with ⟨remaining, middle, bound, visits, after⟩
                        exact ⟨remaining, middle, by
                          omega, .component white descendants scan popped visits, after⟩
                      · simp only [List.append_assoc, List.singleton_append] at startRun
                        rcases inductionHypothesis afterDescendants (by omega)
                          (some vertex) _ _ _ final startRun
                          with ⟨afterBody, body, bodyBound, inside, continueRun⟩
                        cases afterBody with
                        | zero => cases continueRun
                        | succ afterBody =>
                            simp only [runTasks, runTask, continueVisit,
                              List.nil_append] at continueRun
                            rcases inductionHypothesis afterBody (by omega) target rest tasks
                              _ final continueRun
                              with ⟨remaining, middle, bound, visits, after⟩
                            exact ⟨remaining, middle, by omega,
                              .cycle white descendants scan popped inside visits, after⟩

/-- A construction that returns performs the visit of the entry vertex. -/
theorem visits_of_build {children : V -> List V} {entry : V} {fuel : Nat} {wto : Wto V}
    (built : build children entry fuel = some wto) :
    exists final, Visits children none [entry] initialState final ∧
      wto = ⟨final.components none, final.cycleParent, final.containingCycle⟩ := by
  unfold build at built
  rcases Option.map_eq_some_iff.mp built with ⟨final, run, rfl⟩
  rcases visits_of_runTasks fuel none [entry] [] initialState final run
    with ⟨remaining, middle, _, visits, finished⟩
  have same : middle = final := by
    cases remaining <;> exact Option.some.inj finished
  exact ⟨final, same ▸ visits, rfl⟩

end Wto
end Prevail
