import Prevail.Crab.ExactOverEdge
import Prevail.Crab.Heap

namespace Prevail
namespace Crab

open DifferenceBounds

/-!
# Dijkstra's algorithm with a binary heap

`chrome_dijkstra` and `dijkstra_recover` as they use `Heap`, whose comparison reads
`dists`.  Which of several vertices at the same distance leaves the heap first
depends on its shape, so that the searches need not take the vertices in the order
of the searches with a list of vertices.  They are runs all the same, and every run
finds shortest paths.
-/

namespace GraphOps

/-- The state of a search, with its heap. -/
structure HeapSearch (Mark : Type) where
  distance : Nat -> Option Int
  mark : Nat -> Mark
  heap : Heap

/-- What `dists_compare` reads, for the vertices of the heap. -/
def distanceKey (distance : Nat -> Option Int) (vertex : Nat) : Int := (distance vertex).getD 0

section HeapSearch

variable {Mark : Type} [Max Mark] (g : GraphView) (p : Nat -> Int)

/-- One edge out of a vertex at the given cost. -/
def heapRelax (cost : Int) (state : HeapSearch Mark) (edge : Nat × Int × Mark) :
    HeapSearch Mark :=
  let next := cost + edge.2.1 - p edge.1
  let distance := Function.update state.distance edge.1 (some next)
  let lowered : HeapSearch Mark :=
    { distance := distance
      mark := Function.update state.mark edge.1 edge.2.2
      heap :=
        if state.heap.inHeap edge.1 then
          state.heap.decrease (Heap.less (distanceKey distance)) edge.1
        else state.heap.insert (Heap.less (distanceKey distance)) edge.1 }
  match state.distance edge.1 with
  | none => lowered
  | some old =>
      if next < old then lowered
      else if next = old then
        { state with mark := Function.update state.mark edge.1 (max (state.mark edge.1) edge.2.2) }
      else state

/-- The loop that the two searches share. -/
def heapDijkstraLoop (expand : Nat -> Mark -> List (Nat × Int × Mark)) (source : Nat) :
    Nat -> HeapSearch Mark -> List (Nat × Int)
  | 0, _ => []
  | steps + 1, state =>
      if state.heap.size = 0 then []
      else
        let removed := state.heap.removeMin (Heap.less (distanceKey state.distance))
        let cost := distanceKey state.distance removed.1 + p removed.1
        improvement g source removed.1 (cost - p source) ++
          heapDijkstraLoop expand source steps
            ((expand removed.1 (state.mark removed.1)).foldl (heapRelax p cost)
              { state with heap := removed.2 })

/-- One edge out of the source. -/
def heapInsertEdge (source : Nat) (state : HeapSearch Mark) (edge : Nat × Int × Mark) :
    HeapSearch Mark :=
  let distance := Function.update state.distance edge.1 (some (p source + edge.2.1 - p edge.1))
  { distance := distance
    mark := Function.update state.mark edge.1 edge.2.2
    heap := state.heap.insert (Heap.less (distanceKey distance)) edge.1 }

/-- The state in which the loop starts, after the edges out of the source. -/
def initialHeapSearch (source : Nat) (unmarked : Mark) (edges : List (Nat × Int × Mark)) :
    HeapSearch Mark :=
  edges.foldl (heapInsertEdge p source)
    { distance := Function.update (fun _ => none) source (some 0)
      mark := fun _ => unmarked
      heap := Heap.empty }

end HeapSearch

/-- `chrome_dijkstra` with its heap. -/
def chromeDijkstraWithHeap (g left right : GraphView) (p : Nat -> Int) (source : Nat) :
    List (Nat × Int) :=
  heapDijkstraLoop g p (chromeExpand g left right) source g.size
    (initialHeapSearch p source (false, false) (colouredSuccs g left right source))

/-- `close_after_meet` with the heap of `chrome_dijkstra`. -/
def closeAfterMeetWithHeap (g : GraphView) (p : Nat -> Int) (left right : GraphView) :
    EdgeVector :=
  g.verts.flatMap (fun source =>
    (chromeDijkstraWithHeap g left right p source).map (fun entry => (source, entry.1, entry.2)))

/-- `dijkstra_recover` with its heap, for a source that is not stable. -/
def dijkstraRecoverWithHeap (g : GraphView) (p : Nat -> Int) (isStable : Nat -> Bool)
    (source : Nat) : List (Nat × Int) :=
  heapDijkstraLoop g p (recoverExpand g isStable) source g.size
    (initialHeapSearch p source false
      ((g.eSuccs source).map (fun edge => (edge.1, edge.2, false))))

/-- `close_after_widen` with the heap of `dijkstra_recover`. -/
def closeAfterWidenWithHeap (g : GraphView) (p : Nat -> Int) (isStable : Nat -> Bool) :
    EdgeVector :=
  (g.verts.filter (fun vertex => !isStable vertex)).flatMap (fun source =>
    (dijkstraRecoverWithHeap g p isStable source).map
      (fun entry => (source, entry.1, entry.2)))

/-- The state with the elements of the heap in any order.  Those of the heap were
reached. -/
structure SearchAgrees {Mark : Type} (state : HeapSearch Mark) (plain : Search Mark) : Prop where
  distance : plain.distance = state.distance
  mark : plain.mark = state.mark
  valid : Heap.Valid (distanceKey state.distance) state.heap
  perm : state.heap.heap.Perm plain.heap
  reached : ∀ vertex ∈ state.heap.heap, state.distance vertex ≠ none

section Search

variable {Mark : Type} {g : GraphView} {p : Nat -> Int} {source : Nat}

theorem distanceKey_update_of_ne {distance : Nat -> Option Int} {target other : Nat} {next : Int}
    (different : other ≠ target) :
    distanceKey (Function.update distance target (some next)) other =
      distanceKey distance other := by
  rw [distanceKey, distanceKey, Function.update_of_ne different]

/-- The written vertex enters the heap, or moves up in it. -/
theorem SearchAgrees.lowered {state : HeapSearch Mark} {plain : Search Mark}
    (agrees : SearchAgrees state plain) {target : Nat} {next : Int} {mark : Mark}
    (lower : target ∈ state.heap.heap -> next ≤ distanceKey state.distance target) :
    SearchAgrees
      { distance := Function.update state.distance target (some next)
        mark := Function.update state.mark target mark
        heap :=
          if state.heap.inHeap target then
            state.heap.decrease
              (Heap.less (distanceKey (Function.update state.distance target (some next)))) target
          else state.heap.insert
            (Heap.less (distanceKey (Function.update state.distance target (some next)))) target }
      { distance := Function.update plain.distance target (some next)
        mark := Function.update plain.mark target mark
        heap := insertHeap target plain.heap } := by
  have reachedOf : forall heap : Heap,
      (∀ vertex ∈ heap.heap, vertex = target ∨ vertex ∈ state.heap.heap) ->
      ∀ vertex ∈ heap.heap, Function.update state.distance target (some next) vertex ≠ none := by
    intro heap among vertex member
    by_cases same : vertex = target
    · rw [same, Function.update_self]
      exact Option.some_ne_none next
    · rw [Function.update_of_ne same]
      exact agrees.reached vertex ((among vertex member).resolve_left same)
  have keys : forall other, other ≠ target ->
      distanceKey (Function.update state.distance target (some next)) other =
        distanceKey state.distance other :=
    fun _ different => distanceKey_update_of_ne different
  rw [agrees.distance, agrees.mark]
  by_cases inside : target ∈ state.heap.heap
  · rw [if_pos (agrees.valid.indexed.inHeap_iff.mpr inside)]
    have below : distanceKey (Function.update state.distance target (some next)) target ≤
        distanceKey state.distance target := by
      rw [distanceKey, Function.update_self]
      exact lower inside
    have spec := agrees.valid.decrease inside below keys
    refine ⟨rfl, rfl, spec.1, spec.2.trans ?_, reachedOf _ fun vertex member => Or.inr ?_⟩
    · rw [insertHeap, if_pos (agrees.perm.mem_iff.mp inside)]
      exact agrees.perm
    · exact spec.2.mem_iff.mp member
  · rw [if_neg (fun member => inside (agrees.valid.indexed.inHeap_iff.mp member))]
    have rekeyed := agrees.valid.congr (fun other member =>
      keys other (fun same => inside (by rwa [same] at member)))
    have spec := rekeyed.insert inside
    refine ⟨rfl, rfl, spec.1, spec.2.trans ?_, reachedOf _ fun vertex member => ?_⟩
    · rw [insertHeap, if_neg (fun member => inside (agrees.perm.mem_iff.mpr member))]
      exact agrees.perm.cons _
    · exact List.mem_cons.mp (spec.2.mem_iff.mp member)

theorem SearchAgrees.relax [Max Mark] {state : HeapSearch Mark} {plain : Search Mark}
    (agrees : SearchAgrees state plain) (cost : Int) (edge : Nat × Int × Mark) :
    SearchAgrees (heapRelax p cost state edge) (GraphOps.relax p cost plain edge) := by
  have same : plain.distance edge.1 = state.distance edge.1 := congrFun agrees.distance edge.1
  unfold heapRelax GraphOps.relax
  dsimp only
  rw [same]
  cases known : state.distance edge.1 with
  | none => exact agrees.lowered (fun member => absurd known (agrees.reached _ member))
  | some old =>
      dsimp only
      by_cases lower : cost + edge.2.1 - p edge.1 < old
      · rw [if_pos lower, if_pos lower]
        refine agrees.lowered (fun _ => ?_)
        rw [distanceKey, known]
        exact lower.le
      · rw [if_neg lower, if_neg lower]
        by_cases tied : cost + edge.2.1 - p edge.1 = old
        · rw [if_pos tied, if_pos tied, agrees.mark]
          exact ⟨agrees.distance, rfl, agrees.valid, agrees.perm, agrees.reached⟩
        · rw [if_neg tied, if_neg tied]
          exact agrees

theorem SearchAgrees.relaxAll [Max Mark] {state : HeapSearch Mark} {plain : Search Mark}
    (agrees : SearchAgrees state plain) (cost : Int) (edges : List (Nat × Int × Mark)) :
    SearchAgrees (edges.foldl (heapRelax p cost) state)
      (edges.foldl (GraphOps.relax p cost) plain) := by
  induction edges generalizing state plain with
  | nil => exact agrees
  | cons edge rest inductionHypothesis => exact inductionHypothesis (agrees.relax cost edge)

theorem SearchAgrees.insertEdges {state : HeapSearch Mark} {plain : Search Mark}
    (agrees : SearchAgrees state plain) {edges : List (Nat × Int × Mark)}
    (distinct : (edges.map Prod.fst).Nodup)
    (fresh : ∀ edge ∈ edges, edge.1 ∉ state.heap.heap) :
    SearchAgrees (edges.foldl (heapInsertEdge p source) state)
      (edges.foldl (insertEdge p source) plain) := by
  induction edges generalizing state plain with
  | nil => exact agrees
  | cons edge rest inductionHypothesis =>
      have outside := fresh edge List.mem_cons_self
      have notInHeap := fun member => outside (agrees.valid.indexed.inHeap_iff.mp member)
      have next := @SearchAgrees.lowered Mark state plain agrees edge.1
        (p source + edge.2.1 - p edge.1) edge.2.2 (fun member => absurd member outside)
      rw [if_neg notInHeap] at next
      rw [List.map_cons, List.nodup_cons] at distinct
      refine inductionHypothesis next distinct.2 ?_
      intro other member inHeap
      have rekeyed := agrees.valid.congr (fun found inside =>
        @distanceKey_update_of_ne state.distance edge.1 found (p source + edge.2.1 - p edge.1)
          (fun same => outside (by rwa [same] at inside)))
      rcases List.mem_cons.mp ((rekeyed.insert outside).2.mem_iff.mp inHeap) with same | old
      · exact distinct.1 (List.mem_map.mpr ⟨other, member, same⟩)
      · exact fresh other (List.mem_cons_of_mem _ member) old

theorem searchAgrees_initial {unmarked : Mark} {edges : List (Nat × Int × Mark)}
    (distinct : (edges.map Prod.fst).Nodup) :
    SearchAgrees (initialHeapSearch p source unmarked edges)
      (initialSearch p source unmarked edges) := by
  refine SearchAgrees.insertEdges ⟨rfl, rfl, Heap.valid_empty, List.Perm.refl _, ?_⟩ distinct ?_
  · exact fun vertex impossible => absurd impossible List.not_mem_nil
  · exact fun edge _ impossible => absurd impossible List.not_mem_nil

/-- The loop with the heap is a run. -/
theorem SearchAgrees.run [Max Mark] {expand : Nat -> Mark -> List (Nat × Int × Mark)} (steps : Nat)
    {state : HeapSearch Mark} {plain : Search Mark} (agrees : SearchAgrees state plain) :
    SearchRun g p expand source steps plain (heapDijkstraLoop g p expand source steps state) := by
  induction steps generalizing state plain with
  | zero => exact .stop plain
  | succ steps inductionHypothesis =>
      unfold heapDijkstraLoop
      have keys : plain.key = distanceKey state.distance := by
        funext vertex
        rw [Search.key, distanceKey, agrees.distance]
      split
      · rename_i none
        have perm := agrees.perm
        rw [List.eq_nil_of_length_eq_zero none] at perm
        exact .finish steps perm.symm.eq_nil
      · rename_i nonempty
        have spec := agrees.valid.removeMin (Nat.pos_of_ne_zero nonempty)
        generalize state.heap.removeMin (Heap.less (distanceKey state.distance)) = removed at spec ⊢
        have removes : plain.Removes removed.1 removed.2.heap := by
          refine ⟨agrees.perm.symm.trans spec.2.1, fun other member => ?_⟩
          rw [keys]
          exact spec.2.2 other (agrees.perm.mem_iff.mpr member)
        have inner : SearchAgrees { state with heap := removed.2 }
            { plain with heap := removed.2.heap } := by
          refine ⟨agrees.distance, agrees.mark, spec.1, List.Perm.refl _, fun vertex member => ?_⟩
          exact agrees.reached vertex (spec.2.1.mem_iff.mpr (List.mem_cons_of_mem _ member))
        have later := inductionHypothesis (inner.relaxAll (p := p)
          (distanceKey state.distance removed.1 + p removed.1)
          (expand removed.1 (state.mark removed.1)))
        dsimp only
        rw [<- keys, <- agrees.mark] at later ⊢
        exact .settle removes later

end Search

section Views

variable {g left right : GraphView} {p : Nat -> Int}

theorem nodup_colouredSuccs (vertex : Nat) :
    ((colouredSuccs g left right vertex).map Prod.fst).Nodup := by
  rw [colouredSuccs, List.map_map]
  exact nodup_eSuccs g vertex

theorem searchRun_chromeDijkstra (source : Nat) :
    SearchRun g p (chromeExpand g left right) source g.size
      (initialSearch p source (false, false) (colouredSuccs g left right source))
      (chromeDijkstra g left right p source) :=
  searchRun_dijkstraLoop _ _ _

theorem searchRun_chromeDijkstraWithHeap (source : Nat) :
    SearchRun g p (chromeExpand g left right) source g.size
      (initialSearch p source (false, false) (colouredSuccs g left right source))
      (chromeDijkstraWithHeap g left right p source) :=
  (searchAgrees_initial (nodup_colouredSuccs source)).run g.size

/-- What `close_after_widen` adds with the heap are paths as well. -/
theorem closeAfterWidenWithHeap_improves {isStable : Nat -> Bool} :
    Improves g.lookup (closeAfterWidenWithHeap g p isStable) := by
  intro entry member
  rcases List.mem_flatMap.mp member with ⟨source, _, inner⟩
  rcases List.mem_map.mp inner with ⟨found, listed, rfl⟩
  have distinct : (((g.eSuccs source).map (fun edge => (edge.1, edge.2, false))).map
      Prod.fst).Nodup := by
    rw [List.map_map]
    exact nodup_eSuccs g source
  refine ((searchAgrees_initial distinct).run g.size).improves
    (fun _ _ _ followed => (mem_recoverExpand followed).2) (frontier_initialSearch ?_) found listed
  intro edge outOf
  rcases List.mem_map.mp outOf with ⟨_, inSuccs, rfl⟩
  exact (GraphView.mem_eSuccs.mp inSuccs).2

end Views

end GraphOps
end Crab
end Prevail
