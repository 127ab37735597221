import Prevail.Crab.GraphOps

namespace Prevail
namespace Crab

open DifferenceBounds

/-!
# Closure adds implied bounds

Every edge that a closure algorithm sets has the weight of a path of the graph
and replaces no edge of a lower weight.  The assignments that meet the bounds
are therefore the same before and after, whatever potential the algorithm was
given and in whatever order it met the vertices.
-/

namespace GraphOps

/-- The weight of a path that no edge is below. -/
def Improvement (edges : Edges Nat) (source target : Nat) (weight : Int) : Prop :=
  Path edges source target weight ∧ forall old, edges source target = some old -> weight ≤ old

/-- Every entry is an improvement. -/
def Improves (edges : Edges Nat) (delta : EdgeVector) : Prop :=
  ∀ entry ∈ delta, Improvement edges entry.1 entry.2.1 entry.2.2

theorem Improves.append {edges : Edges Nat} {first second : EdgeVector}
    (left : Improves edges first)
    (right : Improves edges second) : Improves edges (first ++ second) := by
  intro entry member
  exact (List.mem_append.mp member).elim (left entry) (right entry)

section ApplyDelta

variable (g : AdaptGraph) (delta : EdgeVector)

@[simp] theorem applyDelta_size : (applyDelta g delta).size = g.size := by
  induction delta generalizing g with
  | nil => rfl
  | cons entry rest inductionHypothesis =>
    exact inductionHypothesis (g.setEdge entry.1 entry.2.2 entry.2.1)

@[simp] theorem applyDelta_freeId : (applyDelta g delta).freeId = g.freeId := by
  induction delta generalizing g with
  | nil => rfl
  | cons entry rest inductionHypothesis =>
    exact inductionHypothesis (g.setEdge entry.1 entry.2.2 entry.2.1)

variable {g delta}

theorem Improves.tightens_applyDelta {edges : Edges Nat} (improves : Improves edges delta)
    (tightens : Tightens edges g.lookup) : Tightens edges (applyDelta g delta).lookup := by
  induction delta generalizing g with
  | nil => exact tightens
  | cons entry rest inductionHypothesis =>
      apply inductionHypothesis (fun other member => improves other (List.mem_cons_of_mem _ member))
      have first := improves entry List.mem_cons_self
      exact tightens.set first.1 first.2

end ApplyDelta

/-! ## Closure after an assignment -/

section Assign

variable {g : GraphView} {vertex : Nat}

theorem foldl_update {entries : List (Nat × Int)} (weight : Nat -> Int) (start : Nat -> Option Int)
    (consistent : ∀ entry ∈ entries, entry.2 = weight entry.1) (target : Nat) :
    entries.foldl (fun (distance : Nat -> Option Int) entry =>
      Function.update distance entry.1 (some entry.2)) start
        target =
      if target ∈ entries.map Prod.fst then some (weight target) else start target := by
  induction entries generalizing start with
  | nil => simp
  | cons entry rest inductionHypothesis =>
      have first := consistent entry List.mem_cons_self
      rw [List.foldl_cons, inductionHypothesis _ (fun other member =>
        consistent other (List.mem_cons_of_mem _ member))]
      by_cases same : target = entry.1
      · subst same
        simp [first]
      · rw [Function.update_of_ne same]
        exact if_congr (by simp [same]) rfl rfl

theorem mem_bySlack {p : Nat -> Int} {target : Nat} :
    target ∈ bySlack g p vertex ↔ target < g.size ∧
      exists weight, g.lookup vertex target = some weight := by
  unfold bySlack
  rw [List.mem_map]
  constructor
  · rintro ⟨⟨_, weight⟩, member, rfl⟩
    rw [List.mem_insertionSort, GraphView.mem_eSuccs] at member
    exact ⟨member.1, weight, member.2⟩
  · rintro ⟨below, weight, here⟩
    exact ⟨(target, weight),
      List.mem_insertionSort _ |>.mpr (GraphView.mem_eSuccs.mpr ⟨below, here⟩), rfl⟩

/-- The distance of an adjacent vertex at the start of the pass. -/
theorem initialReach_distance {target : Nat} {weight : Int} (below : target < g.size)
    (here : g.lookup vertex target = some weight) :
    (initialReach g vertex).distance target = some weight := by
  have consistent : ∀ entry ∈ g.eSuccs vertex, entry.2 = (g.lookup vertex entry.1).getD 0 := by
    rintro ⟨other, found⟩ member
    rw [GraphView.mem_eSuccs] at member
    simp [member.2]
  have listed : target ∈ (g.eSuccs vertex).map Prod.fst :=
    List.mem_map.mpr ⟨(target, weight), GraphView.mem_eSuccs.mpr ⟨below, here⟩, rfl⟩
  unfold initialReach
  dsimp only
  rw [foldl_update (fun other => (g.lookup vertex other).getD 0) _ consistent target,
    if_pos listed, here]
  rfl

/-- The vertices that are reached have the weights of paths for distances. -/
def Reached (g : GraphView) (vertex : Nat) (adjacent : List Nat) (state : Reach) : Prop :=
  ∀ target ∈ adjacent ++ state.reached, exists weight,
    state.distance target = some weight ∧ Improvement g.lookup vertex target weight

theorem Reached.edge {adjacent : List Nat} {state : Reach} {weight last : Int} {target : Nat}
    (reached : Reached g vertex adjacent state)
    (allAdjacent : forall other, other < g.size -> (g.lookup vertex other).isSome ->
      other ∈ adjacent)
    (below : target < g.size) (path : Path g.lookup vertex target (weight + last)) :
    Reached g vertex adjacent (reachEdge weight state (target, last)) := by
  unfold reachEdge
  dsimp only
  split
  · rename_i unreached
    have notAdjacent : g.lookup vertex target = none := by
      by_contra adjacentTo
      rcases reached target (List.mem_append_left _ (allAdjacent target below (by
        rwa [Option.isSome_iff_ne_none]))) with ⟨_, known, _⟩
      rw [unreached] at known
      cases known
    intro other member
    by_cases same : other = target
    · subst same
      refine ⟨weight + last, by simp, path, ?_⟩
      rw [notAdjacent]
      intro old absurd_
      cases absurd_
    · have earlier : other ∈ adjacent ++ state.reached := by
        simpa [same, or_assoc] using member
      simpa [Function.update_of_ne same] using reached other earlier
  · rename_i old known
    intro other member
    by_cases same : other = target
    · subst same
      rcases reached other member with ⟨found, knownFound, earlier, lowest⟩
      rw [known] at knownFound
      cases knownFound
      refine ⟨min (weight + last) old, by simp, ?_, ?_⟩
      · rcases min_choice (weight + last) old with first | second
        · rwa [first]
        · rwa [second]
      · intro direct here
        exact (min_le_right _ _).trans (lowest direct here)
    · simpa [Function.update_of_ne same] using reached other member

theorem Reached.pass {adjacent processed : List Nat} {state : Reach}
    (reached : Reached g vertex adjacent state)
    (allAdjacent : forall other, other < g.size -> (g.lookup vertex other).isSome ->
      other ∈ adjacent)
    (inside : ∀ target ∈ processed, target ∈ adjacent) :
    Reached g vertex adjacent (processed.foldl (reachFrom g) state) := by
  induction processed generalizing state with
  | nil => exact reached
  | cons first rest inductionHypothesis =>
      apply inductionHypothesis _ (fun target member =>
        inside target (List.mem_cons_of_mem _ member))
      rcases reached first (List.mem_append_left _ (inside first List.mem_cons_self)) with ⟨weight,
        known, path, _⟩
      unfold reachFrom
      rw [known, Option.getD_some]
      have edges : ∀ edge ∈ g.eSuccs first, edge.1 < g.size ∧ g.lookup first edge.1 = some edge.2 :=
        fun edge member => GraphView.mem_eSuccs.mp member
      revert edges
      generalize g.eSuccs first = successors
      intro edges
      clear known
      induction successors generalizing state with
      | nil => exact reached
      | cons edge others innerHypothesis =>
          rcases edges edge List.mem_cons_self with ⟨below, here⟩
          exact innerHypothesis (reached.edge allAdjacent below (.snoc path here))
            (fun other member => edges other (List.mem_cons_of_mem _ member))

theorem closeAfterAssignFwd_improves {p : Nat -> Int} :
    ∀ entry ∈ closeAfterAssignFwd g p vertex, Improvement g.lookup vertex entry.1 entry.2 := by
  intro entry member
  unfold closeAfterAssignFwd at member
  rcases List.mem_map.mp member with ⟨target, listed, rfl⟩
  have start : Reached g vertex (bySlack g p vertex) (initialReach g vertex) := by
    intro target member
    rw [show (initialReach g vertex).reached = [] from rfl, List.append_nil, mem_bySlack] at member
    rcases member with ⟨below, weight, here⟩
    refine ⟨weight, initialReach_distance below here, .edge here, ?_⟩
    intro old known
    rw [here] at known
    cases known
    exact le_refl _
  have allAdjacent : forall other, other < g.size -> (g.lookup vertex other).isSome ->
      other ∈ bySlack g p vertex := by
    intro other below some_
    exact mem_bySlack.mpr ⟨below, Option.isSome_iff_exists.mp some_⟩
  rcases (start.pass allAdjacent (fun _ member => member)) target listed with
    ⟨weight, known, improvement⟩
  rw [known, Option.getD_some]
  exact improvement

theorem closeAfterAssign_improves {p : Nat -> Int} :
    Improves g.lookup (closeAfterAssign g p vertex) := by
  apply Improves.append
  · intro entry member
    rcases List.mem_map.mp member with ⟨found, listed, rfl⟩
    exact closeAfterAssignFwd_improves found listed
  · intro entry member
    rcases List.mem_map.mp member with ⟨found, listed, rfl⟩
    have backwards := closeAfterAssignFwd_improves found listed
    exact ⟨backwards.1.reverse, backwards.2⟩

end Assign

/-! ## Closure over a new edge -/

section OverEdge

variable {base : Edges Nat} {g next : AdaptGraph} {source target : Nat} {weight : Int}

theorem lowerEdge_tightens (tightens : Tightens base g.lookup)
    (path : Path base source target weight)
    (lowered : lowerEdge g source weight target = some next) : Tightens base next.lookup := by
  have below : forall old, base source target = some old -> weight ≤ old := by
    intro old here
    rcases tightens.kept _ _ _ here with ⟨lower, lowerLe, there⟩
    unfold lowerEdge at lowered
    rw [there] at lowered
    dsimp only at lowered
    split at lowered
    · cases lowered
    · omega
  unfold lowerEdge at lowered
  split at lowered
  · split at lowered
    · cases lowered
    · cases lowered
      exact tightens.set path below
  · cases lowered
    exact tightens.set path below

theorem lowerEdge_getD_tightens (tightens : Tightens base g.lookup)
    (path : Path base source target weight) :
    Tightens base ((lowerEdge g source weight target).getD g).lookup := by
  cases lowered : lowerEdge g source weight target with
  | none => exact tightens
  | some next => exact lowerEdge_tightens tightens path lowered

/-- Two graphs with the same vertices. -/
def SameVertices (left right : AdaptGraph) :
    Prop := left.size = right.size ∧ left.freeId = right.freeId

theorem lowerEdge_sameVertices (lowered : lowerEdge g source weight target = some next) :
    SameVertices next g := by
  unfold lowerEdge at lowered
  split at lowered
  · split at lowered
    · cases lowered
    · cases lowered
      exact ⟨rfl, rfl⟩
  · cases lowered
    exact ⟨rfl, rfl⟩

theorem closePreds_sameVertices {state : AdaptGraph × List (Nat × Int)}
    (same : SameVertices state.1 g) (jj : Nat)
    (edge : Nat × Int) : SameVertices (closePreds jj weight state edge).1 g := by
  unfold closePreds
  split
  · exact same
  · split
    · rename_i next lowered
      have last := lowerEdge_sameVertices lowered
      exact ⟨last.1.trans same.1, last.2.trans same.2⟩
    · exact same

theorem closeSuccs_sameVertices {state : AdaptGraph × List (Nat × Int)}
    (same : SameVertices state.1 g) (ii : Nat)
    (edge : Nat × Int) : SameVertices (closeSuccs ii weight state edge).1 g := by
  unfold closeSuccs
  split
  · exact same
  · split
    · rename_i next lowered
      have last := lowerEdge_sameVertices lowered
      exact ⟨last.1.trans same.1, last.2.trans same.2⟩
    · exact same

theorem closePairs_sameVertices (same : SameVertices next g) (dests : List (Nat × Int))
    (first : Nat × Int) :
    SameVertices (closePairs weight dests next first) g := by
  unfold closePairs
  apply List.foldlRecOn (motive := fun current => SameVertices current g) dests
  · exact same
  · intro current currentSame dest _
    cases lowered : lowerEdge current first.1 (weight + first.2 + dest.2) dest.1 with
    | none => exact currentSame
    | some last =>
        have lastSame := lowerEdge_sameVertices lowered
        exact ⟨lastSame.1.trans currentSame.1, lastSame.2.trans currentSame.2⟩

theorem closeOverEdge_sameVertices (g : AdaptGraph) (ii jj : Nat) :
    SameVertices (closeOverEdge g ii jj) g := by
  unfold closeOverEdge
  dsimp only
  have preds : SameVertices (((g.view.exclude 0).ePreds ii).foldl
      (closePreds jj ((g.lookup ii jj).getD 0)) (g, [])).1 g := by
    apply List.foldlRecOn (motive := fun state : AdaptGraph × List (Nat × Int) =>
      SameVertices state.1 g)
    · exact ⟨rfl, rfl⟩
    · intro state same edge _
      exact closePreds_sameVertices same jj edge
  revert preds
  generalize ((g.view.exclude 0).ePreds ii).foldl (closePreds jj ((g.lookup ii jj).getD 0))
    (g, []) = first
  intro preds
  have succs : SameVertices (((first.1.view.exclude 0).eSuccs jj).foldl
      (closeSuccs ii ((g.lookup ii jj).getD 0)) (first.1, [])).1 g := by
    apply List.foldlRecOn (motive := fun state : AdaptGraph × List (Nat × Int) =>
      SameVertices state.1 g)
    · exact preds
    · intro state same edge _
      exact closeSuccs_sameVertices same ii edge
  apply List.foldlRecOn (motive := fun current => SameVertices current g) first.2
  · exact succs
  · intro current same edge _
    exact closePairs_sameVertices same _ edge

/-- The graph of a loop of `close_over_edge` with the edges that it collects. -/
def Collected (base : Edges Nat) (collects : Nat × Int -> Prop)
    (state : AdaptGraph × List (Nat × Int)) : Prop :=
  Tightens base state.1.lookup ∧ ∀ edge ∈ state.2, collects edge

theorem Collected.preds {state : AdaptGraph × List (Nat × Int)} {edges : List (Nat × Int)}
    {ii jj : Nat} (collected : Collected base (fun edge => Path base edge.1 ii edge.2) state)
    (into : ∀ edge ∈ edges, Path base edge.1 ii edge.2) (new : Path base ii jj weight) :
    Collected base (fun edge => Path base edge.1 ii edge.2)
    (edges.foldl (closePreds jj weight) state) := by
  induction edges generalizing state with
  | nil => exact collected
  | cons edge rest inductionHypothesis =>
      apply inductionHypothesis _ (fun other member => into other (List.mem_cons_of_mem _ member))
      have path := into edge List.mem_cons_self
      unfold closePreds
      split
      · exact collected
      · split
        · rename_i next lowered
          refine ⟨lowerEdge_tightens collected.1 (path.trans new) lowered, ?_⟩
          intro other member
          rcases List.mem_append.mp member with earlier | last
          · exact collected.2 other earlier
          · rw [List.mem_singleton.mp last]
            exact path
        · exact collected

theorem Collected.succs {state : AdaptGraph × List (Nat × Int)} {edges : List (Nat × Int)}
    {ii jj : Nat} (collected : Collected base (fun edge => Path base jj edge.1 edge.2) state)
    (outOf : ∀ edge ∈ edges, Path base jj edge.1 edge.2) (new : Path base ii jj weight) :
    Collected base (fun edge => Path base jj edge.1 edge.2)
    (edges.foldl (closeSuccs ii weight) state) := by
  induction edges generalizing state with
  | nil => exact collected
  | cons edge rest inductionHypothesis =>
      apply inductionHypothesis _ (fun other member => outOf other (List.mem_cons_of_mem _ member))
      have path := outOf edge List.mem_cons_self
      unfold closeSuccs
      split
      · exact collected
      · split
        · rename_i next lowered
          have joined : Path base ii edge.1 (edge.2 + weight) := by
            rw [add_comm]
            exact new.trans path
          refine ⟨lowerEdge_tightens collected.1 joined lowered, ?_⟩
          intro other member
          rcases List.mem_append.mp member with earlier | last
          · exact collected.2 other earlier
          · rw [List.mem_singleton.mp last]
            exact path
        · exact collected

theorem closePairs_tightens {first : Nat × Int} {dests : List (Nat × Int)} {ii jj : Nat}
    (tightens : Tightens base g.lookup) (into : Path base first.1 ii first.2)
    (new : Path base ii jj weight) (outOf : ∀ edge ∈ dests, Path base jj edge.1 edge.2) :
    Tightens base (closePairs weight dests g first).lookup := by
  unfold closePairs
  induction dests generalizing g with
  | nil => exact tightens
  | cons dest rest inductionHypothesis =>
      apply inductionHypothesis _ (fun other member => outOf other (List.mem_cons_of_mem _ member))
      have joined : Path base first.1 dest.1 (weight + first.2 + dest.2) := by
        rw [add_comm weight]
        exact (into.trans new).trans (outOf dest List.mem_cons_self)
      exact lowerEdge_getD_tightens tightens joined

theorem closePairs_foldl_tightens {sources dests : List (Nat × Int)} {ii jj : Nat}
    (tightens : Tightens base g.lookup) (into : ∀ edge ∈ sources, Path base edge.1 ii edge.2)
    (new : Path base ii jj weight) (outOf : ∀ edge ∈ dests, Path base jj edge.1 edge.2) :
    Tightens base (sources.foldl (closePairs weight dests) g).lookup := by
  induction sources generalizing g with
  | nil => exact tightens
  | cons source rest inductionHypothesis =>
      exact inductionHypothesis
        (closePairs_tightens tightens (into source List.mem_cons_self) new outOf)
        (fun other member => into other (List.mem_cons_of_mem _ member))

theorem closeOverEdge_tightens {ii jj : Nat} (new : g.lookup ii jj = some weight) :
    Tightens g.lookup (closeOverEdge g ii jj).lookup := by
  have newPath : Path g.lookup ii jj weight := .edge new
  have preds : Collected g.lookup (fun edge => Path g.lookup edge.1 ii edge.2)
      (((g.view.exclude 0).ePreds ii).foldl (closePreds jj weight) (g, [])) := by
    have start : Collected g.lookup (fun edge => Path g.lookup edge.1 ii edge.2) (g, []) :=
      ⟨Tightens.refl _, by simp⟩
    refine start.preds ?_ newPath
    rintro ⟨source, found⟩ member
    rw [GraphView.mem_ePreds, GraphView.lookup_exclude] at member
    exact .edge member.2.2.2
  unfold closeOverEdge
  dsimp only
  rw [new, Option.getD_some]
  revert preds
  generalize ((g.view.exclude 0).ePreds ii).foldl (closePreds jj weight) (g, []) = first
  intro preds
  have succs : Collected g.lookup (fun edge => Path g.lookup jj edge.1 edge.2)
      (((first.1.view.exclude 0).eSuccs jj).foldl (closeSuccs ii weight) (first.1, [])) := by
    have start : Collected g.lookup (fun edge => Path g.lookup jj edge.1 edge.2) (first.1, []) :=
      ⟨preds.1, by simp⟩
    refine start.succs ?_ newPath
    rintro ⟨target, found⟩ member
    rw [GraphView.mem_eSuccs, GraphView.lookup_exclude] at member
    exact preds.1.path _ _ _ member.2.2.2
  exact closePairs_foldl_tightens succs.1 preds.2 newPath succs.2

end OverEdge

/-! ## Closure by Dijkstra's algorithm -/

section Heap

variable {key : Nat -> Int}

theorem removeMin_spec {heap rest : List Nat} {least : Nat}
    (removed : removeMin key heap = some (least, rest)) :
    heap.Perm (least :: rest) ∧ ∀ other ∈ heap, key least ≤ key other := by
  induction heap generalizing least rest with
  | nil => cases removed
  | cons first others inductionHypothesis =>
      unfold removeMin at removed
      split at removed
      · rename_i empty
        cases removed
        have nothing : others = [] := by
          cases others with
          | nil => rfl
          | cons second last =>
              unfold removeMin at empty
              split at empty
              · cases empty
              · split at empty <;> cases empty
        subst nothing
        simp
      · rename_i candidate remaining found
        rcases inductionHypothesis found with ⟨perm, lowest⟩
        have inOthers : candidate ∈ others := perm.mem_iff.mpr List.mem_cons_self
        split at removed
        · rename_i lower
          cases removed
          refine ⟨(perm.cons first).trans (List.Perm.swap _ _ _), ?_⟩
          intro other member
          rcases List.mem_cons.mp member with rfl | member
          · exact lower.le
          · exact lowest other member
        · rename_i higher
          cases removed
          refine ⟨List.Perm.refl _, ?_⟩
          intro other member
          rcases List.mem_cons.mp member with rfl | member
          · exact le_refl _
          · exact (not_lt.mp higher).trans (lowest other member)

theorem removeMin_eq_none {heap : List Nat} : removeMin key heap = none ↔ heap = [] := by
  cases heap with
  | nil => simp [removeMin]
  | cons first rest =>
      unfold removeMin
      split
      · simp
      · split <;> simp

theorem mem_insertHeap {vertex other : Nat} {heap : List Nat} :
    other ∈ insertHeap vertex heap ↔ other = vertex ∨ other ∈ heap := by
  unfold insertHeap
  split
  · rename_i member
    constructor
    · exact Or.inr
    · rintro (rfl | inside)
      · exact member
      · exact inside
  · exact List.mem_cons

theorem nodup_insertHeap {vertex : Nat} {heap : List Nat} (nodup : heap.Nodup) :
    (insertHeap vertex heap).Nodup := by
  unfold insertHeap
  split
  · exact nodup
  · rename_i fresh
    exact List.nodup_cons.mpr ⟨fresh, nodup⟩

end Heap

section Dijkstra

variable {Mark : Type} [Max Mark] {g : GraphView} {p : Nat -> Int} {source : Nat}

/-- The vertices of the heap are at the distance of a path. -/
def Frontier (g : GraphView) (p : Nat -> Int) (source : Nat) (state : Search Mark) : Prop :=
  ∀ vertex ∈ state.heap, Path g.lookup source vertex (state.key vertex + p vertex - p source)

theorem Frontier.relax {state : Search Mark} {cost : Int} {edge : Nat × Int × Mark}
    (frontier : Frontier g p source state)
    (path : Path g.lookup source edge.1 (cost + edge.2.1 - p source)) :
    Frontier g p source (relax p cost state edge) := by
  have lowered : forall mark : Nat -> Mark, Frontier g p source
      { distance := Function.update state.distance edge.1 (some (cost + edge.2.1 - p edge.1))
        mark := mark
        heap := insertHeap edge.1 state.heap } := by
    intro mark vertex member
    by_cases same : vertex = edge.1
    · subst same
      simpa [Search.key] using path
    · rw [mem_insertHeap] at member
      simpa [Search.key, same] using frontier vertex (member.resolve_left same)
  unfold GraphOps.relax
  dsimp only
  split
  · exact lowered _
  · split
    · exact lowered _
    · split <;> exact frontier

theorem Frontier.relaxAll {state : Search Mark} {cost : Int} {edges : List (Nat × Int × Mark)}
    (frontier : Frontier g p source state)
    (paths : ∀ edge ∈ edges, Path g.lookup source edge.1 (cost + edge.2.1 - p source)) :
    Frontier g p source (edges.foldl (GraphOps.relax p cost) state) := by
  induction edges generalizing state with
  | nil => exact frontier
  | cons edge rest inductionHypothesis =>
      exact inductionHypothesis (frontier.relax (paths edge List.mem_cons_self))
        (fun other member => paths other (List.mem_cons_of_mem _ member))

theorem improvement_improves {vertex : Nat} {weight : Int}
    (path : Path g.lookup source vertex weight) :
    ∀ entry ∈ improvement g source vertex weight, Improvement g.lookup source entry.1 entry.2 := by
  intro entry member
  unfold improvement at member
  split at member
  · rename_i old here
    split at member
    · rename_i lower
      rw [List.mem_singleton.mp member]
      refine ⟨path, ?_⟩
      intro other known
      rw [here] at known
      cases known
      exact lower.le
    · cases member
  · rename_i missing
    rw [List.mem_singleton.mp member]
    refine ⟨path, ?_⟩
    intro other known
    rw [missing] at known
    cases known

/-- A vertex of the heap at the least distance, and the others. -/
def Search.Removes (state : Search Mark) (vertex : Nat) (rest : List Nat) : Prop :=
  state.heap.Perm (vertex :: rest) ∧ ∀ other ∈ state.heap, state.key vertex ≤ state.key other

/-- What the loop adds, with any order among the vertices at the same distance. -/
inductive SearchRun (g : GraphView) (p : Nat -> Int)
    (expand : Nat -> Mark -> List (Nat × Int × Mark)) (source : Nat) :
    Nat -> Search Mark -> List (Nat × Int) -> Prop where
  | stop (state : Search Mark) : SearchRun g p expand source 0 state []
  | finish (steps : Nat) {state : Search Mark} (empty : state.heap = []) :
      SearchRun g p expand source (steps + 1) state []
  | settle {steps : Nat} {state : Search Mark} {vertex : Nat} {rest : List Nat}
      {added : List (Nat × Int)} (removes : state.Removes vertex rest)
      (later : SearchRun g p expand source steps
        ((expand vertex (state.mark vertex)).foldl (relax p (state.key vertex + p vertex))
          { state with heap := rest }) added) :
      SearchRun g p expand source (steps + 1) state
        (improvement g source vertex (state.key vertex + p vertex - p source) ++ added)

/-- The loop that takes the first of these vertices. -/
theorem searchRun_dijkstraLoop (expand : Nat -> Mark -> List (Nat × Int × Mark)) (steps : Nat)
    (state : Search Mark) :
    SearchRun g p expand source steps state (dijkstraLoop g p expand source steps state) := by
  induction steps generalizing state with
  | zero => exact .stop state
  | succ steps inductionHypothesis =>
      unfold dijkstraLoop
      split
      · rename_i none
        exact .finish steps (removeMin_eq_none.mp none)
      · rename_i vertex rest removed
        exact .settle (removeMin_spec removed) (inductionHypothesis _)

theorem SearchRun.improves {expand : Nat -> Mark -> List (Nat × Int × Mark)} {steps : Nat}
    {state : Search Mark} {added : List (Nat × Int)}
    (run : SearchRun g p expand source steps state added)
    (follows : forall vertex mark, ∀ edge ∈ expand vertex mark,
      g.lookup vertex edge.1 = some edge.2.1)
    (frontier : Frontier g p source state) :
    ∀ entry ∈ added, Improvement g.lookup source entry.1 entry.2 := by
  induction run with
  | stop state => exact fun entry member => absurd member List.not_mem_nil
  | finish steps empty => exact fun entry member => absurd member List.not_mem_nil
  | @settle steps state vertex rest added removes later inductionHypothesis =>
      have path := frontier vertex (removes.1.mem_iff.mpr List.mem_cons_self)
      intro entry member
      rcases List.mem_append.mp member with here | inLater
      · exact improvement_improves path entry here
      · refine inductionHypothesis (Frontier.relaxAll ?_ ?_) entry inLater
        · intro other inRest
          exact frontier other (removes.1.mem_iff.mpr (List.mem_cons_of_mem _ inRest))
        · intro edge followed
          have longer := Path.snoc path (follows vertex _ edge followed)
          rwa [sub_add_eq_add_sub] at longer

omit [Max Mark] in
theorem frontier_initialSearch {unmarked : Mark} {edges : List (Nat × Int × Mark)}
    (outOf : ∀ edge ∈ edges, g.lookup source edge.1 = some edge.2.1) :
    Frontier g p source (initialSearch p source unmarked edges) := by
  unfold initialSearch
  have start : Frontier g p source (startSearch source unmarked) := by
    intro vertex member
    cases member
  revert start
  generalize startSearch source unmarked = state
  intro start
  induction edges generalizing state with
  | nil => exact start
  | cons edge rest inductionHypothesis =>
      refine inductionHypothesis
        (fun other member => outOf other (List.mem_cons_of_mem _ member)) _ ?_
      intro vertex member
      by_cases same : vertex = edge.1
      · subst same
        have path : Path g.lookup source edge.1 edge.2.1 := .edge (outOf edge List.mem_cons_self)
        simpa [insertEdge, Search.key] using path
      · rw [insertEdge, mem_insertHeap] at member
        simpa [insertEdge, Search.key, same] using start vertex (member.resolve_left same)

/-- The vertices that have left the heap are no further than `level`, and those
of the heap are no closer. -/
structure Level (g : GraphView) (settled : Finset Nat) (level : Int)
    (state : Search Mark) : Prop where
  settledBelow : ∀ vertex ∈ settled, exists distance, state.distance vertex = some distance ∧
    distance ≤ level
  heapAbove : ∀ vertex ∈ state.heap, exists distance, state.distance vertex = some distance ∧
    level ≤ distance
  heapUnsettled : ∀ vertex ∈ state.heap, vertex < g.size ∧ vertex ∉ settled
  nodup : state.heap.Nodup

theorem Level.relax {settled : Finset Nat} {level cost : Int} {state : Search Mark}
    {edge : Nat × Int × Mark}
    (levels : Level g settled level state) (below : edge.1 < g.size)
    (above : level ≤ cost + edge.2.1 - p edge.1) :
    Level g settled level (GraphOps.relax p cost state edge) := by
  have lowered : forall mark : Nat -> Mark, edge.1 ∉ settled -> Level g settled level
      { distance := Function.update state.distance edge.1 (some (cost + edge.2.1 - p edge.1))
        mark := mark
        heap := insertHeap edge.1 state.heap } := by
    intro mark fresh
    constructor
    · intro vertex member
      have different : vertex ≠ edge.1 := fun same => fresh (same ▸ member)
      simpa [different] using levels.settledBelow vertex member
    · intro vertex member
      by_cases same : vertex = edge.1
      · subst same
        exact ⟨_, Function.update_self .., above⟩
      · rw [mem_insertHeap] at member
        simpa [same] using levels.heapAbove vertex (member.resolve_left same)
    · intro vertex member
      rcases mem_insertHeap.mp member with rfl | inHeap
      · exact ⟨below, fresh⟩
      · exact levels.heapUnsettled vertex inHeap
    · exact nodup_insertHeap levels.nodup
  unfold GraphOps.relax
  dsimp only
  split
  · rename_i unreached
    apply lowered
    intro member
    rcases levels.settledBelow _ member with ⟨_, known, _⟩
    rw [unreached] at known
    cases known
  · rename_i old found
    split
    · rename_i lower
      apply lowered
      intro member
      rcases levels.settledBelow _ member with ⟨distance, known, atMost⟩
      rw [found] at known
      cases known
      omega
    · split
      · exact ⟨levels.settledBelow, levels.heapAbove, levels.heapUnsettled, levels.nodup⟩
      · exact levels

omit [Max Mark] in
/-- The least vertex of the heap is settled when it leaves. -/
theorem Level.removed {settled : Finset Nat} {level : Int} {state : Search Mark} {vertex : Nat}
    {rest : List Nat} (levels : Level g settled level state) (removes : state.Removes vertex rest) :
    exists distance, state.distance vertex = some distance ∧ state.key vertex = distance ∧
      level ≤ distance ∧ vertex < g.size ∧ vertex ∉ settled ∧
      Level g (insert vertex settled) distance { state with heap := rest } := by
  rcases removes with ⟨perm, least⟩
  have inHeap : vertex ∈ state.heap := perm.mem_iff.mpr List.mem_cons_self
  have inRest : ∀ other ∈ rest, other ∈ state.heap :=
    fun other member => perm.mem_iff.mpr (List.mem_cons_of_mem _ member)
  rcases levels.heapUnsettled vertex inHeap with ⟨below, fresh⟩
  rcases levels.heapAbove vertex inHeap with ⟨distance, known, above⟩
  have key : state.key vertex = distance := by
    simp [Search.key, known]
  refine ⟨distance, known, key, above, below, fresh, ?_⟩
  constructor
  · intro other member
    rcases Finset.mem_insert.mp member with rfl | earlier
    · exact ⟨distance, known, le_refl _⟩
    · rcases levels.settledBelow other earlier with ⟨found, there, atMost⟩
      exact ⟨found, there, atMost.trans above⟩
  · intro other member
    rcases levels.heapAbove other (inRest other member) with ⟨found, there, _⟩
    have lower := least other (inRest other member)
    rw [key] at lower
    exact ⟨found, there, by simpa [Search.key, there] using lower⟩
  · intro other member
    rcases levels.heapUnsettled other (inRest other member) with ⟨otherBelow, otherFresh⟩
    refine ⟨otherBelow, ?_⟩
    rw [Finset.mem_insert, not_or]
    refine ⟨?_, otherFresh⟩
    rintro rfl
    exact (List.nodup_cons.mp (perm.nodup_iff.mp levels.nodup)).1 member
  · exact (List.nodup_cons.mp (perm.nodup_iff.mp levels.nodup)).2

/-- The edges out of the vertex at the level. -/
theorem Level.relaxAll {settled : Finset Nat} {level : Int} {state : Search Mark} {vertex : Nat}
    {edges : List (Nat × Int × Mark)} (levels : Level g settled level state)
    (models : Models g.lookup p)
    (follows : ∀ edge ∈ edges, edge.1 < g.size ∧ g.lookup vertex edge.1 = some edge.2.1) :
    Level g settled level (edges.foldl (GraphOps.relax p (level + p vertex)) state) := by
  induction edges generalizing state with
  | nil => exact levels
  | cons edge others inductionHypothesis =>
      rcases follows edge List.mem_cons_self with ⟨targetBelow, here⟩
      have fits := models _ _ _ here
      exact inductionHypothesis (levels.relax targetBelow (by omega))
        (fun other member => follows other (List.mem_cons_of_mem _ member))

/-- One vertex fewer is left to settle. -/
theorem card_unsettled_lt {settled : Finset Nat} {vertex : Nat} (below : vertex < g.size)
    (fresh : vertex ∉ settled) :
    (Finset.range g.size \ insert vertex settled).card < (Finset.range g.size \ settled).card := by
  apply Finset.card_lt_card
  rw [Finset.ssubset_iff_of_subset
    (Finset.sdiff_subset_sdiff (le_refl _) (Finset.subset_insert _ _))]
  refine ⟨vertex, Finset.mem_sdiff.mpr ⟨Finset.mem_range.mpr below, fresh⟩, ?_⟩
  intro member
  exact (Finset.mem_sdiff.mp member).2 (Finset.mem_insert_self _ _)

omit [Max Mark] in
/-- Once all vertices are settled, the heap is empty. -/
theorem Level.heap_eq_nil {settled : Finset Nat} {level : Int} {state : Search Mark}
    (levels : Level g settled level state)
    (enough : (Finset.range g.size \ settled).card ≤ 0) : state.heap = [] := by
  apply List.eq_nil_iff_forall_not_mem.mpr
  intro vertex member
  rcases levels.heapUnsettled vertex member with ⟨below, fresh⟩
  have inside : vertex ∈ Finset.range g.size \ settled :=
    Finset.mem_sdiff.mpr ⟨Finset.mem_range.mpr below, fresh⟩
  rw [Finset.card_eq_zero.mp (Nat.le_zero.mp enough)] at inside
  cases inside

/-- With a valid potential the search empties its heap within as many steps as
there are vertices outside of `settled`, so more steps change nothing. -/
theorem dijkstraLoop_steps {expand : Nat -> Mark -> List (Nat × Int × Mark)}
    (models : Models g.lookup p) (follows : forall vertex mark, ∀ edge ∈ expand vertex mark,
      edge.1 < g.size ∧ g.lookup vertex edge.1 = some edge.2.1)
    (steps extra : Nat) {settled : Finset Nat} {level : Int} {state : Search Mark}
    (levels : Level g settled level state) (enough : (Finset.range g.size \ settled).card ≤ steps) :
    dijkstraLoop g p expand source (steps + extra) state = dijkstraLoop g p expand source
      steps state := by
  induction steps generalizing settled level state with
  | zero =>
      have empty := levels.heap_eq_nil enough
      cases extra with
      | zero => rfl
      | succ extra => simp [dijkstraLoop, empty, removeMin]
  | succ steps inductionHypothesis =>
      rw [Nat.add_right_comm]
      unfold dijkstraLoop
      split
      · rfl
      · rename_i vertex rest removed
        rcases levels.removed (removeMin_spec removed) with
          ⟨distance, _, key, _, below, fresh, removedLevels⟩
        have nextLevels := removedLevels.relaxAll models (follows vertex (state.mark vertex))
        have fewer := card_unsettled_lt below fresh
        dsimp only
        rw [key, inductionHypothesis nextLevels (by omega)]

omit [Max Mark] in
theorem level_initialSearch {unmarked : Mark} {edges : List (Nat × Int × Mark)}
    (models : Models g.lookup p)
    (outOf : ∀ edge ∈ edges, edge.1 < g.size ∧ g.lookup source edge.1 = some edge.2.1) :
    Level g ∅ 0 (initialSearch p source unmarked edges) := by
  unfold initialSearch
  have start : Level g ∅ 0 (startSearch source unmarked) := by
    constructor <;> simp [startSearch]
  revert start
  generalize startSearch source unmarked = state
  intro start
  induction edges generalizing state with
  | nil => exact start
  | cons edge rest inductionHypothesis =>
      rcases outOf edge List.mem_cons_self with ⟨below, here⟩
      have fits := models _ _ _ here
      refine inductionHypothesis
        (fun other member => outOf other (List.mem_cons_of_mem _ member)) _ ?_
      constructor
      · simp
      · intro vertex member
        rw [insertEdge, mem_insertHeap] at member
        by_cases same : vertex = edge.1
        · subst same
          exact ⟨_, Function.update_self .., by omega⟩
        · simpa [insertEdge, same] using start.heapAbove vertex (member.resolve_left same)
      · intro vertex member
        rw [insertEdge, mem_insertHeap] at member
        rcases member with rfl | inHeap
        · exact ⟨below, by simp⟩
        · exact start.heapUnsettled vertex inHeap
      · exact nodup_insertHeap start.nodup

end Dijkstra

section Views

variable {g left right : GraphView} {p : Nat -> Int}

theorem mem_colouredSuccs {vertex : Nat} {edge : Nat × Int × Colour}
    (member : edge ∈ colouredSuccs g left right vertex) : edge.1 < g.size ∧
      g.lookup vertex edge.1 = some edge.2.1 := by
  rcases List.mem_map.mp member with ⟨_, listed, rfl⟩
  exact GraphView.mem_eSuccs.mp listed

theorem mem_chromeExpand {vertex : Nat} {mark : Colour} {edge : Nat × Int × Colour}
    (followed : edge ∈ chromeExpand g left right vertex mark) :
    edge.1 < g.size ∧ g.lookup vertex edge.1 = some edge.2.1 := by
  unfold chromeExpand at followed
  split at followed
  · cases followed
  · exact mem_colouredSuccs (List.mem_of_mem_filter followed)

theorem mem_recoverExpand {isStable : Nat -> Bool} {vertex : Nat} {mark : Bool}
    {edge : Nat × Int × Bool} (followed : edge ∈ recoverExpand g isStable vertex mark) :
    edge.1 < g.size ∧ g.lookup vertex edge.1 = some edge.2.1 := by
  unfold recoverExpand at followed
  split at followed
  · cases followed
  · rcases List.mem_map.mp followed with ⟨_, inSuccs, rfl⟩
    exact GraphView.mem_eSuccs.mp inSuccs

/-- `chrome_dijkstra` ends with an empty heap. -/
theorem chromeDijkstra_steps (models : Models g.lookup p) (source extra : Nat) :
    dijkstraLoop g p (chromeExpand g left right) source (g.size + extra)
        (initialSearch p source (false, false) (colouredSuccs g left right source)) =
      chromeDijkstra g left right p source := by
  apply dijkstraLoop_steps models (fun _ _ _ followed => mem_chromeExpand followed) g.size extra
    (level_initialSearch models (fun _ outOf => mem_colouredSuccs outOf))
  simp

/-- `dijkstra_recover` ends with an empty heap. -/
theorem dijkstraRecover_steps {isStable : Nat -> Bool} (models : Models g.lookup p)
    (source extra : Nat) :
    dijkstraLoop g p (recoverExpand g isStable) source (g.size + extra)
        (initialSearch p source false
        ((g.eSuccs source).map (fun edge => (edge.1, edge.2, false)))) =
      dijkstraRecover g p isStable source := by
  apply dijkstraLoop_steps models (fun _ _ _ followed => mem_recoverExpand followed) g.size extra
    (level_initialSearch models ?_)
  · simp
  · intro edge outOf
    rcases List.mem_map.mp outOf with ⟨_, inSuccs, rfl⟩
    exact GraphView.mem_eSuccs.mp inSuccs

theorem closeAfterMeet_improves : Improves g.lookup (closeAfterMeet g p left right) := by
  intro entry member
  rcases List.mem_flatMap.mp member with ⟨source, _, inner⟩
  rcases List.mem_map.mp inner with ⟨found, listed, rfl⟩
  exact (searchRun_dijkstraLoop _ _ _).improves
    (fun _ _ _ followed => (mem_chromeExpand followed).2)
    (frontier_initialSearch (fun _ outOf => (mem_colouredSuccs outOf).2)) found listed

theorem closeAfterWiden_improves {isStable : Nat -> Bool} :
    Improves g.lookup (closeAfterWiden g p isStable) := by
  intro entry member
  rcases List.mem_flatMap.mp member with ⟨source, _, inner⟩
  rcases List.mem_map.mp inner with ⟨found, listed, rfl⟩
  refine (searchRun_dijkstraLoop _ _ _).improves
    (fun _ _ _ followed => (mem_recoverExpand followed).2)
    (frontier_initialSearch ?_) found listed
  · intro edge outOf
    rcases List.mem_map.mp outOf with ⟨_, inSuccs, rfl⟩
    exact (GraphView.mem_eSuccs.mp inSuccs).2

/-- Improvements of the graph without a vertex are improvements. -/
theorem Improves.of_exclude {excluded : Nat} {delta : EdgeVector}
    (improves : Improves (g.exclude excluded).lookup delta) : Improves g.lookup delta := by
  intro entry member
  rcases improves entry member with ⟨path, below⟩
  refine ⟨GraphView.path_of_exclude path, ?_⟩
  intro old here
  have edgeEnds : forall source target weight,
      (g.exclude excluded).lookup source target = some weight ->
      source ≠ excluded ∧ target ≠ excluded := by
    intro source target weight found
    have both := GraphView.lookup_exclude.mp found
    exact ⟨both.1, both.2.1⟩
  have ends := path.ends edgeEnds
  exact below old (GraphView.lookup_exclude.mpr ⟨ends.1, ends.2, here⟩)

end Views

end GraphOps
end Crab
end Prevail
