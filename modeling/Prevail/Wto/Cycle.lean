import Prevail.Wto.Correct

namespace Prevail
namespace Wto

universe u

/-!
# The second visit of a cycle

When the scan of a vertex finds a loop, everything above the vertex on the
stack is reset and visited again, now into the partition of the new cycle.
The vertices that the second visit reaches are exactly the reset ones.  None of
them has an edge into the older stack, because such an edge would have lowered
the head number of the vertex in the first visit; so the second visit leaves
nothing on the stack, and all of them belong to the cycle.
-/

variable {V : Type u} [DecidableEq V]

/-- The situation at the end of `start_visit` for a loop head: the scan found a
loop, and in `inner` the vertices above the head are reset. -/
structure CycleOpened (children : V -> List V) (vertex : V) (state visited inner : BuilderState V)
    (opened : List V) : Prop where
  scanned : Scanned children vertex state visited opened
  scan : scanSuccessors visited.vertexData (children vertex) (visited.vertexData vertex).dfn =
    ((visited.vertexData vertex).dfn, true)
  stack : inner.stack = state.stack
  num : inner.num = visited.num
  head : Done inner vertex
  reset : forall other, other ∈ opened -> inner.vertexData other = ⟨0, 0⟩
  other : forall other, other ≠ vertex -> other ∉ opened ->
    inner.vertexData other = visited.vertexData other

/-- The situation of `continue_visit`: the children of the loop head have been
visited again. -/
structure Looped (children : V -> List V) (vertex : V) (state visited inner body : BuilderState V)
    (opened bodyOpened : List V) :
    Prop extends CycleOpened children vertex state visited inner opened where
  inside : Contract children (unvisitedSuccessors children inner vertex) inner body bodyOpened

/-- A step to the head of a cycle, or to a vertex that was left open above it. -/
def CycleStep (children : V -> List V) (vertex : V) (opened : List V) (source target : V) : Prop :=
  target ∈ children source ∧ (target = vertex ∨ target ∈ opened)

namespace CycleOpened

variable {children : V -> List V} {vertex : V} {state visited inner : BuilderState V}
  {opened : List V}

/-- `start_visit` reaches this situation when it finds a loop. -/
theorem of_openCycle {target : Option V} {stack : List V} {vertexData : V -> VertexData}
    (scanned : Scanned children vertex state visited opened)
    (scan : scanSuccessors visited.vertexData (children vertex) (visited.vertexData vertex).dfn =
      ((visited.vertexData vertex).dfn, true))
    (popped : popComponent vertex visited.stack (visited.setDfn vertex ⊤).vertexData = some
      (stack, vertexData)) :
    CycleOpened children vertex state visited
      (openCycle vertex target (visited.vertexData vertex).dfn stack vertexData visited)
      opened := by
  have notOpened : vertex ∉ opened := fun member => scanned.opened_ne member rfl
  rw [scanned.stack_form, popComponent_append notOpened] at popped
  rcases Prod.mk.inj (Option.some.inj popped) with ⟨stackSame, dataSame⟩
  refine
    { scanned := scanned, scan := scan, stack := stackSame.symm, num := rfl
      head := ?_, reset := ?_, other := ?_ }
  · rw [Done, openCycle_data_self, ← dataSame]
    simp [notOpened, BuilderState.setDfn]
  · intro other member
    rw [openCycle_data_of_ne _ _ _ _ _ (scanned.opened_ne member), ← dataSame]
    simp [member]
  · intro other different notMember
    rw [openCycle_data_of_ne _ _ _ _ _ different, ← dataSame]
    simp [notMember, BuilderState.setDfn, different]

variable (looped : CycleOpened children vertex state visited inner opened)

include looped

theorem innerInvariant : Invariant inner :=
  looped.scanned.shrink looped.stack looped.num looped.other looped.head looped.reset

theorem opened_white {other : V} (member : other ∈ opened) : White inner other := by
  rw [White, looped.reset other member]

theorem white_cases {other : V} (white : White inner other) :
    other ∈ opened ∨ White visited other := by
  by_cases member : other ∈ opened
  · exact Or.inl member
  · right
    have different : other ≠ vertex := fun same => looped.head.not_white (same ▸ white)
    rw [White, ← looped.other other different member]
    exact white

theorem done_inner {other : V} (done : Done visited other) : Done inner other := by
  have notOpened : other ∉ opened :=
    fun member => looped.scanned.contract.invariant.not_done (looped.scanned.opened_mem member) done
  by_cases same : other = vertex
  · exact same ▸ looped.head
  · rw [Done, looped.other other same notOpened]
    exact done

/-- A vertex that is done when the cycle opens was done before, or is the head
of the cycle. -/
theorem done_inner_iff {other : V} : Done inner other ↔ Done visited other ∨ other = vertex := by
  constructor
  · intro done
    by_cases same : other = vertex
    · exact Or.inr same
    · have notOpened : other ∉ opened := fun member => done.not_white (looped.opened_white member)
      left
      rw [Done, ← looped.other other same notOpened]
      exact done
  · rintro (done | same)
    · exact looped.done_inner done
    · exact same ▸ looped.head

theorem child_start {child : V} (member : child ∈ children vertex) (isOpened : child ∈ opened) :
    WhiteReach children inner (unvisitedSuccessors children inner vertex) child :=
  WhiteReach.of_mem (List.mem_filter.mpr ⟨member, beq_iff_eq.mpr (looped.opened_white isOpened)⟩)
    (looped.opened_white isOpened)

/-- The second visit reaches exactly the vertices that were reset. -/
theorem reach_iff {other : V} :
    WhiteReach children inner (unvisitedSuccessors children inner vertex) other ↔
      other ∈ opened := by
  have scanned := looped.scanned
  constructor
  · intro reach
    refine reach.rec_on (motive := fun other => other ∈ opened) ?_ ?_
    · intro start member white
      rcases looped.white_cases white with isOpened | stillWhite
      · exact isOpened
      · exfalso
        rcases scanned.child_cases (List.mem_filter.mp member).1 with isOpened | done |
          same | isOlder
        · exact scanned.contract.invariant.not_white (scanned.opened_mem isOpened) stillWhite
        · exact done.not_white stillWhite
        · exact scanned.contract.invariant.not_white scanned.vertex_mem (same ▸ stillWhite)
        · exact scanned.contract.invariant.not_white (scanned.older_mem isOlder) stillWhite
    · intro source target _ sourceOpened child white
      rcases looped.white_cases white with isOpened | stillWhite
      · exact isOpened
      · exact absurd stillWhite (scanned.opened_child_numbered sourceOpened child)
  · intro member
    have reach := scanned.contract.opened_reached scanned.numberedInvariant member
    refine reach.rec_on (motive := fun other => other ∈ opened ->
      WhiteReach children inner (unvisitedSuccessors children inner vertex) other) ?_ ?_ member
    · intro start isStart _ isOpened
      exact looped.child_start (List.mem_filter.mp isStart).1 isOpened
    · intro source target sourceReach inductionHypothesis child _ targetOpened
      rcases scanned.contract.settled source sourceReach with sourceOpened | done
      · exact (inductionHypothesis sourceOpened).tail child (looped.opened_white targetOpened)
      · have targetDone := scanned.contract.closed source target sourceReach done child
        exact absurd targetDone (scanned.contract.invariant.not_done
          (scanned.opened_mem targetOpened))

/-- The vertex lies on a cycle of the graph all of whose vertices were reset. -/
theorem closed_walk : Relation.TransGen (CycleStep children vertex opened) vertex vertex := by
  have scanned := looped.scanned
  have spec := scanSuccessors_spec visited.vertexData (children vertex)
    (visited.vertexData vertex).dfn
  rw [looped.scan] at spec
  rcases spec.2.2.2 rfl with ⟨child, member, equal⟩
  rcases scanned.child_cases member with isOpened | done | same | isOlder
  · rw [scanned.contract.invariant.minDfn_returned (scanned.opened_mem isOpened)
      (scanned.contract.returned child isOpened)] at equal
    rcases scanned.contract.leaves child vertex isOpened List.mem_cons_self equal with
      ⟨source, target, _, targetMember, sourceChild, reaches, walk⟩
    have isVertex : target = vertex := by
      rcases List.mem_cons.mp targetMember with same | targetOlder
      · exact same
      · have inStack := scanned.older_mem targetOlder
        have less := (scanned.older_iff inStack).mp targetOlder
        exact absurd (reaches ▸ scanned.contract.invariant.minDfn_le inStack) (not_le.mpr less)
    have walkInside : Relation.ReflTransGen (CycleStep children vertex opened) child source :=
      Relation.ReflTransGen.mono (fun _ _ step => ⟨step.1, Or.inr step.2⟩) _ _ walk
    exact Relation.TransGen.tail' (walkInside.head ⟨member, Or.inr isOpened⟩)
      ⟨isVertex ▸ sourceChild, Or.inl rfl⟩
  · rw [minDfn_done done] at equal
    exact absurd equal.symm ((scanned.contract.invariant.mem_stack vertex).mp scanned.vertex_mem).2
  · exact Relation.TransGen.single ⟨same ▸ member, Or.inl rfl⟩
  · exact absurd isOlder (scanned.root_child_not_older looped.scan member)

end CycleOpened

namespace Looped

variable {children : V -> List V} {vertex : V} {state visited inner body : BuilderState V}
  {opened bodyOpened : List V}
  (looped : Looped children vertex state visited inner body opened bodyOpened)

include looped

/-- The second visit leaves nothing on the stack. -/
theorem bodyOpened_eq_nil : bodyOpened = [] := by
  by_contra nonempty
  have scanned := looped.scanned
  rcases looped.inside.anchored nonempty with ⟨root, older, _, rootOpened, isOlder, equal⟩
  rcases looped.inside.leaves root older rootOpened isOlder equal with
    ⟨source, target, sourceOpened, targetOlder, child, _, _⟩
  have wasOpened : source ∈ opened :=
    looped.reach_iff.mp (looped.inside.opened_reached looped.innerInvariant sourceOpened)
  exact scanned.opened_child_not_older looped.scan wasOpened child (looped.stack ▸ targetOlder)

theorem body_stack : body.stack = state.stack := by
  rw [looped.inside.stack, looped.bodyOpened_eq_nil, List.nil_append, looped.stack]

theorem body_head : Done body vertex :=
  looped.inside.keeps_done looped.head

theorem body_done {other : V} (done : Done visited other) : Done body other :=
  looped.inside.keeps_done (looped.done_inner done)

theorem body_opened {other : V} (member : other ∈ opened) : Done body other := by
  rcases looped.inside.settled other (looped.reach_iff.mpr member) with left | done
  · rw [looped.bodyOpened_eq_nil] at left
    exact absurd left List.not_mem_nil
  · exact done

theorem child_done {child : V} (member : child ∈ children vertex) : Done body child := by
  rcases looped.scanned.child_cases member with isOpened | done | same | isOlder
  · exact looped.body_opened isOpened
  · exact looped.body_done done
  · exact same ▸ looped.body_head
  · exact absurd isOlder (looped.scanned.root_child_not_older looped.scan member)

/-- The visit of the head of a cycle, from its number to `continue_visit`. -/
theorem cycle {next : BuilderState V} (data : next.vertexData = body.vertexData)
    (stack : next.stack = body.stack) (num : next.num = body.num) :
    Contract children [vertex] state next [] := by
  have scanned := looped.scanned
  have doneIff : forall other, Done next other ↔ Done body other := by
    intro other
    rw [Done, Done, data]
  refine
    { invariant := ?_
      stack := stack.trans looped.body_stack
      num := ?_
      frame := ?_, settled := ?_, returned := ?_, closed := ?_, complete := ?_, anchored := ?_,
      leaves := ?_ }
  · have invariant := looped.inside.invariant
    refine { descending := ?_, mem_stack := ?_, bounded := ?_, fresh := ?_, older := ?_ }
    · rw [stack, data]
      exact invariant.descending
    · rw [stack, data]
      exact invariant.mem_stack
    · rw [stack, data, num]
      exact invariant.bounded
    · intro other white
      rw [White, data] at white
      rw [data]
      exact invariant.fresh other white
    · rw [stack, data]
      exact invariant.older
  · rw [num]
    exact Nat.le_trans scanned.num_le (looped.num ▸ looped.inside.num)
  · intro other notReached
    rcases scanned.frame notReached with ⟨different, same⟩
    have notOpened : other ∉ opened := by
      intro member
      apply notReached
      exact (whiteReach_singleton_iff scanned.white).mpr
        (Or.inr (scanned.contract.opened_reached scanned.numberedInvariant member))
    rw [data, looped.inside.frame other (fun reach => notOpened (looped.reach_iff.mp reach)),
      looped.other other different notOpened, same]
  · intro other reach
    right
    rw [doneIff]
    rcases scanned.reach_cases reach with same | ⟨_, isOpened | done⟩
    · exact same ▸ looped.body_head
    · exact looped.body_opened isOpened
    · exact looped.body_done done
  · intro other member
    exact absurd member List.not_mem_nil
  · intro source target reach done child
    rw [doneIff] at done ⊢
    rcases scanned.reach_cases reach with same | ⟨below, isOpened | visitedDone⟩
    · exact looped.child_done (same ▸ child)
    · exact looped.inside.closed source target (looped.reach_iff.mpr isOpened) done child
    · exact looped.body_done (scanned.contract.closed source target below visitedDone child)
  · intro source child member
    exact absurd member List.not_mem_nil
  · exact fun nonempty => absurd rfl nonempty
  · intro other older member
    exact absurd member List.not_mem_nil

end Looped

/-! ## Every visit meets its contract -/

/-- The visits of a list of vertices meet their contract from every consistent
state. -/
theorem Visits.contract {children : V -> List V} {target : Option V} {vertices : List V}
    {state final : BuilderState V} (visits : Visits children target vertices state final)
    (invariant : Invariant state) :
    exists opened, Contract children vertices state final opened := by
  induction visits with
  | nil target state => exact ⟨[], Contract.empty invariant⟩
  | seen numbered later laterHypothesis =>
      rcases laterHypothesis invariant with ⟨opened, contract⟩
      exact ⟨_, (Contract.seen invariant numbered).append contract⟩
  | pending white descendants scan lower later descendantsHypothesis laterHypothesis =>
      rcases descendantsHypothesis (invariant.number white) with ⟨opened, contract⟩
      have first := Scanned.pending ⟨invariant, white, contract⟩ scan lower
      rcases laterHypothesis first.invariant with ⟨laterOpened, second⟩
      exact ⟨_, first.append second⟩
  | @component target vertex top rest stack state visited final white descendants scan popped later
      descendantsHypothesis laterHypothesis =>
      rcases descendantsHypothesis (invariant.number white) with ⟨opened, contract⟩
      have first : Contract children [vertex] state (finishVertex vertex target target _ stack
          visited) [] :=
        Scanned.component ⟨invariant, white, contract⟩ scan popped
      rcases laterHypothesis first.invariant with ⟨laterOpened, second⟩
      exact ⟨_, first.append second⟩
  | @cycle target vertex rest stack vertexData state visited body final white descendants scan
    popped inside
      later descendantsHypothesis insideHypothesis laterHypothesis =>
      rcases descendantsHypothesis (invariant.number white) with ⟨opened, contract⟩
      have cycleOpened : CycleOpened children vertex state visited
          (openCycle vertex target _ stack vertexData visited) opened :=
        CycleOpened.of_openCycle ⟨invariant, white, contract⟩ scan popped
      rcases insideHypothesis cycleOpened.innerInvariant with ⟨bodyOpened, bodyContract⟩
      have first : Contract children [vertex] state (closeCycle vertex target vertex body) [] :=
        Looped.cycle ⟨cycleOpened, bodyContract⟩ rfl rfl rfl
      rcases laterHypothesis first.invariant with ⟨laterOpened, second⟩
      exact ⟨_, first.append second⟩

end Wto
end Prevail
