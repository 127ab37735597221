import Prevail.Crab.Heap
import Prevail.Crab.ExactRepair

namespace Prevail
namespace Crab

open DifferenceBounds

/-!
# The repair of a potential with a binary heap

`repair_potential` as it uses `Heap`, which reads the distances when it compares
two vertices.  Which of several vertices at the same distance leaves the heap
first depends on the shape of the heap.  The potential does not depend on it,
so that the list of vertices that stands for a heap elsewhere gives the same
result.
-/

namespace GraphOps

/-- The state of `repair_potential`, with its heap. -/
structure HeapRepair where
  distance : Nat -> Int
  alternative : Nat -> Int
  heap : Heap

/-- One edge out of the vertex that was removed from the heap. -/
def heapRepairEdge (p : Nat -> Int) (vertex : Nat) (state : HeapRepair) (edge : Nat × Int) :
    HeapRepair :=
  if state.alternative edge.1 = p edge.1 then
    let next := state.alternative vertex + edge.2 - state.alternative edge.1
    if next < state.distance edge.1 then
      let distance := Function.update state.distance edge.1 next
      { state with
        distance := distance
        heap :=
          if state.heap.inHeap edge.1 then state.heap.decrease (Heap.less distance) edge.1
          else state.heap.insert (Heap.less distance) edge.1 }
    else state
  else state

def heapRepairVertex (g : GraphView) (p : Nat -> Int) (state : HeapRepair) : HeapRepair :=
  let removed := state.heap.removeMin (Heap.less state.distance)
  (g.eSuccs removed.1).foldl (heapRepairEdge p removed.1)
    { state with
      alternative :=
        Function.update state.alternative removed.1 (p removed.1 + state.distance removed.1)
      heap := removed.2 }

/-- The loop of `repair_potential`. -/
def heapRepairLoop (g : GraphView) (p : Nat -> Int) : Nat -> HeapRepair -> HeapRepair
  | 0, state => state
  | steps + 1, state =>
      if state.heap.size = 0 then state else heapRepairLoop g p steps (heapRepairVertex g p state)

/-- The state in which the loop of `repair_potential` starts. -/
def initialHeapRepair (p : Nat -> Int) (jj : Nat) (slack : Int) : HeapRepair where
  distance := Function.update (fun _ => 0) jj slack
  alternative := p
  heap := Heap.empty.insert (Heap.less (Function.update (fun _ => 0) jj slack)) jj

/-- `repair_potential`. -/
def repairPotentialWithHeap (g : GraphView) (p : Nat -> Int) (ii jj : Nat) : Option (Nat -> Int) :=
  let slack := p ii + (g.lookup ii jj).getD 0 - p jj
  if 0 ≤ slack then some p
  else
    let final := heapRepairLoop g p g.size (initialHeapRepair p jj slack)
    if final.distance ii < 0 then none else some final.alternative

/-- The state with the elements of the heap in any order. -/
structure Agrees (state : HeapRepair) (plain : Repair) : Prop where
  distance : plain.distance = state.distance
  alternative : plain.alternative = state.alternative
  valid : Heap.Valid state.distance state.heap
  perm : state.heap.heap.Perm plain.heap

section Repair

variable {g : GraphView} {p : Nat -> Int} {ii jj : Nat} {slack : Int}

theorem Agrees.edge {state : HeapRepair} {plain : Repair} (agrees : Agrees state plain)
    (vertex : Nat)
    (edge : Nat × Int) : Agrees (heapRepairEdge p vertex state edge)
    (repairEdge p vertex plain edge) := by
  unfold heapRepairEdge repairEdge
  rw [agrees.alternative, agrees.distance]
  dsimp only
  split
  · split
    · rename_i lower
      have below : Function.update state.distance edge.1
          (state.alternative vertex + edge.2 - state.alternative edge.1) edge.1 ≤
          state.distance edge.1 := by
        rw [Function.update_self]
        exact lower.le
      have others : forall other, other ≠ edge.1 -> Function.update state.distance edge.1
          (state.alternative vertex + edge.2 - state.alternative edge.1) other =
          state.distance other :=
        fun other different => Function.update_of_ne different _ _
      by_cases inside : edge.1 ∈ state.heap.heap
      · rw [if_pos (agrees.valid.indexed.inHeap_iff.mpr inside)]
        have spec := agrees.valid.decrease inside below others
        refine ⟨rfl, rfl, spec.1, spec.2.trans ?_⟩
        rw [insertHeap, if_pos (agrees.perm.mem_iff.mp inside)]
        exact agrees.perm
      · rw [if_neg (fun member => inside (agrees.valid.indexed.inHeap_iff.mp member))]
        have rekeyed := agrees.valid.congr (fun other member =>
          others other (fun same => inside (by rwa [same] at member)))
        have spec := rekeyed.insert inside
        refine ⟨rfl, rfl, spec.1, spec.2.trans ?_⟩
        rw [insertHeap, if_neg (fun member => inside (agrees.perm.mem_iff.mpr member))]
        exact agrees.perm.cons _
    · exact agrees
  · exact agrees

theorem Agrees.edges {state : HeapRepair} {plain : Repair} (agrees : Agrees state plain)
    (vertex : Nat) (edges : List (Nat × Int)) :
    Agrees (edges.foldl (heapRepairEdge p vertex) state)
    (edges.foldl (repairEdge p vertex) plain) := by
  induction edges generalizing state plain with
  | nil => exact agrees
  | cons edge others inductionHypothesis => exact inductionHypothesis (agrees.edge vertex edge)

/-- A list of vertices gives out the first one if none is below it. -/
theorem removeMin_of_least {key : Nat -> Int} {vertex : Nat} {rest : List Nat}
    (least : ∀ other ∈ rest, key vertex ≤ key other) :
    removeMin key (vertex :: rest) = some (vertex, rest) := by
  unfold removeMin
  split
  · rename_i empty
    rw [removeMin_eq_none.mp empty]
  · rename_i other others removed
    have member : other ∈ rest := (removeMin_spec removed).1.mem_iff.mpr List.mem_cons_self
    rw [if_neg (not_lt.mpr (least other member))]

/-- One round with the heap is one round with the elements in the order that
brings its first element to the front. -/
theorem Agrees.vertex {state : HeapRepair} {plain : Repair} (agrees : Agrees state plain)
    (nonempty : 0 < state.heap.size) :
    exists vertex rest, plain.heap.Perm (vertex :: rest) ∧
      removeMin plain.distance (vertex :: rest) = some (vertex, rest) ∧
      Agrees (heapRepairVertex g p state)
      (repairVertex g p { plain with heap := vertex :: rest } vertex rest) := by
  have spec := agrees.valid.removeMin nonempty
  refine ⟨(state.heap.removeMin (Heap.less state.distance)).1,
    (state.heap.removeMin (Heap.less state.distance)).2.heap,
    agrees.perm.symm.trans spec.2.1, ?_, ?_⟩
  · apply removeMin_of_least
    intro other member
    rw [agrees.distance]
    exact spec.2.2 other (spec.2.1.mem_iff.mpr (List.mem_cons_of_mem _ member))
  · apply Agrees.edges
    refine ⟨agrees.distance, ?_, spec.1, List.Perm.refl _⟩
    rw [agrees.alternative, agrees.distance]

/-- The invariant does not depend on the order of the heap. -/
theorem RepairInvariant.reorder {state : Repair} {heap : List Nat} {pending : Nat -> Nat -> Prop}
    (invariant : RepairInvariant g p ii jj slack pending state) (perm : state.heap.Perm heap) :
    RepairInvariant g p ii jj slack pending { state with heap := heap } where
  path := invariant.path
  nonpositive := invariant.nonpositive
  target := invariant.target
  heapBelow vertex member := invariant.heapBelow vertex (perm.mem_iff.mpr member)
  heapLowered vertex member := invariant.heapLowered vertex (perm.mem_iff.mpr member)
  loweredHeap vertex lowered here := perm.mem_iff.mp (invariant.loweredHeap vertex lowered here)
  settled := invariant.settled
  order fresh vertex settled other member := invariant.order fresh vertex settled other
    (perm.mem_iff.mpr member)
  relaxed := invariant.relaxed

theorem Agrees.heap_eq_nil {state : HeapRepair} {plain : Repair} (agrees : Agrees state plain)
    (none : state.heap.size = 0) : plain.heap = [] := by
  have perm := agrees.perm
  rw [List.eq_nil_of_length_eq_zero none] at perm
  exact perm.symm.eq_nil

/-- As many rounds as there are unsettled vertices empty the heap. -/
theorem Agrees.loop {state : HeapRepair} {plain : Repair} (steps : Nat)
    (agrees : Agrees state plain)
    (invariant : RepairInvariant g p ii jj slack (fun _ _ => False) plain)
    (models : ModelsExcept g.lookup p ii jj)
    (targets : TargetsBelow g) (enough : (unsettled g p plain).card ≤ steps) :
    exists final, Agrees (heapRepairLoop g p steps state) final ∧
      RepairInvariant g p ii jj slack (fun _ _ => False) final ∧ final.heap = [] := by
  have nodup := agrees.perm.nodup_iff.mp agrees.valid.indexed.nodup
  induction steps generalizing state plain with
  | zero => exact ⟨plain, agrees, invariant.loop 0 models targets nodup enough⟩
  | succ steps inductionHypothesis =>
      unfold heapRepairLoop
      split
      · rename_i none
        exact ⟨plain, agrees, invariant, agrees.heap_eq_nil none⟩
      · rename_i nonempty
        rcases @Agrees.vertex g p _ _ agrees (Nat.pos_of_ne_zero nonempty) with
          ⟨vertex, rest, perm, removed, next⟩
        have reordered := invariant.reorder perm
        have reorderedNodup := perm.nodup_iff.mp nodup
        refine inductionHypothesis next (reordered.vertex models targets reorderedNodup removed) ?_
          ?_
        · have smaller := @RepairInvariant.unsettled_lt _ _ _ _ _ vertex rest _ reordered
            List.mem_cons_self
          exact Nat.le_of_lt_succ (smaller.trans_le enough)
        · exact nodup_repairVertex (List.nodup_cons.mp reorderedNodup).2

theorem agrees_initial : Agrees (initialHeapRepair p jj slack) (initialRepair p jj slack) := by
  have spec := (@Heap.valid_empty Int _ (Function.update (fun _ => 0) jj slack)).insert
    (n := jj) List.not_mem_nil
  exact ⟨rfl, rfl, spec.1, spec.2⟩

/-- Where one repair does not reach the vertex in front of the edge, no repair
lowers any vertex further. -/
theorem RepairInvariant.distance_le {left right : Repair}
    (first : RepairInvariant g p ii jj slack (fun _ _ => False) left)
    (second : RepairInvariant g p ii jj slack (fun _ _ => False) right) (empty : right.heap = [])
    (models : ModelsExcept g.lookup p ii jj) (new : g.lookup ii jj = some (slack + p jj - p ii))
    (fresh : 0 ≤ right.distance ii) (vertex : Nat) :
    right.distance vertex ≤ left.distance vertex := by
  by_contra lower
  have bounded := second.nonpositive vertex
  have atStart := second.nonpositive ii
  have path := first.path vertex (by omega)
  have fits := path.bound (second.models models empty fresh new)
  rw [second.value empty vertex, second.value empty ii] at fits
  omega

/-- Two repairs that worked off their heaps agree on whether the vertex in front
of the edge is reached, and, if it is not, on the potential. -/
theorem RepairInvariant.unique {left right : Repair}
    (first : RepairInvariant g p ii jj slack (fun _ _ => False) left) (leftEmpty : left.heap = [])
    (second : RepairInvariant g p ii jj slack (fun _ _ => False) right)
    (rightEmpty : right.heap = [])
    (models : ModelsExcept g.lookup p ii jj) (new : g.lookup ii jj = some (slack + p jj - p ii)) :
    (if left.distance ii < 0 then none else some left.alternative) =
      if right.distance ii < 0 then none else some right.alternative := by
  by_cases leftReached : left.distance ii < 0
  · have rightReached : right.distance ii < 0 := by
      by_contra fresh
      exact absurd (first.distance_le second rightEmpty models new (not_lt.mp fresh) ii) (by omega)
    rw [if_pos leftReached, if_pos rightReached]
  · have toRight := second.distance_le first leftEmpty models new (not_lt.mp leftReached)
    have fresh : 0 ≤ right.distance ii := (not_lt.mp leftReached).trans (toRight ii)
    have toLeft := first.distance_le second rightEmpty models new fresh
    rw [if_neg leftReached, if_neg (not_lt.mpr fresh)]
    congr 1
    funext vertex
    rw [first.value leftEmpty, second.value rightEmpty,
      le_antisymm (toRight vertex) (toLeft vertex)]

/-- `repair_potential` with the binary heap empties the heap, and computes what
it computes with any other order among vertices at the same distance. -/
theorem repairPotentialWithHeap_eq {weight : Int} (models : ModelsExcept g.lookup p ii jj)
    (between : EdgesBetweenVertices g) (new : g.lookup ii jj = some weight) :
    (p ii + weight - p jj < 0 ->
        (heapRepairLoop g p g.size (initialHeapRepair p jj (p ii + weight - p jj))).heap.size = 0) ∧
      repairPotentialWithHeap g p ii jj = repairPotential g p ii jj := by
  have slackEdge : g.lookup ii jj = some (p ii + weight - p jj + p jj - p ii) := by
    rw [new]
    congr 1
    ring
  have final : p ii + weight - p jj < 0 -> exists plain : Repair,
      Agrees (heapRepairLoop g p g.size (initialHeapRepair p jj (p ii + weight - p jj))) plain ∧
        RepairInvariant g p ii jj (p ii + weight - p jj) (fun _ _ => False) plain ∧
        plain.heap = [] := by
    intro negative
    apply agrees_initial.loop g.size _ models between.targetsBelow
    · exact (Finset.card_filter_le _ _).trans (by simp)
    · exact initialRepair_invariant slackEdge (between.targetsBelow _ _ _ new) negative
  constructor
  · intro negative
    rcases final negative with ⟨plain, agrees, _, empty⟩
    have perm := agrees.perm
    rw [empty] at perm
    exact List.length_eq_zero_iff.mpr perm.eq_nil
  · unfold repairPotentialWithHeap repairPotential
    rw [new, Option.getD_some]
    dsimp only
    split
    · rfl
    · rename_i negative
      rcases final (not_le.mp negative) with ⟨plain, agrees, invariant, empty⟩
      have list := repairLoop_final models between.targetsBelow slackEdge (not_le.mp negative)
      rw [← agrees.distance, ← agrees.alternative]
      exact invariant.unique empty list.1 list.2 models slackEdge

theorem repairPotentialWithHeap_eq_twoVertices :
    repairPotentialWithHeap twoVertices.view (fun _ => 0) 1 0 = repairPotential twoVertices.view
      (fun _ => 0) 1 0 := by
  have ends : forall source target weight, twoVertices.lookup source target = some weight ->
      (source = 1 ∧ target = 0) ∨ (source = 0 ∧ target = 1 ∧ weight = 3) := by
    intro source target weight here
    rcases set_cases here with ⟨rfl, rfl, _⟩ | old
    · exact Or.inl ⟨rfl, rfl⟩
    · rcases set_cases old with ⟨rfl, rfl, rfl⟩ | impossible
      · exact Or.inr ⟨rfl, rfl, rfl⟩
      · cases impossible
  have between : EdgesBetweenVertices twoVertices.view := by
    intro source target weight here
    rcases ends source target weight here with ⟨rfl, rfl⟩ | ⟨rfl, rfl, _⟩
    · exact ⟨by decide, by decide⟩
    · exact ⟨by decide, by decide⟩
  have models : ModelsExcept twoVertices.view.lookup (fun _ => 0) 1 0 := by
    intro source target weight here other
    rcases ends source target weight here with isNew | ⟨_, _, rfl⟩
    · exact absurd isNew other
    · dsimp only
      omega
  exact (repairPotentialWithHeap_eq models between rfl).2

end Repair

end GraphOps
end Crab
end Prevail
