import Prevail.Crab.AdaptGraph

namespace Prevail
namespace Crab
namespace GraphOps

/-!
# Algorithms on weighted graphs

`GraphOps` of `crab_utils/graph_ops.hpp`.  A potential is a function of the
vertices.  The scratch arrays of the source, which are reset before each use,
are functions with an initial value, and a binary heap is the list of its
elements, of which one with the least key is removed.  A loop that runs until a
heap is empty has a bound on its steps; the bound is not reached as long as the
potential is valid.
-/

/-- An edge for `apply_delta`: source, target, weight. -/
abbrev EdgeVector := List (Nat × Nat × Int)

/-- `GraphOps::join`, the syntactic join. -/
def join (left right : GraphView) : AdaptGraph where
  size := left.size
  freeId := []
  lookup source target :=
    match left.lookup source target, right.lookup source target with
    | some leftWeight, some rightWeight => some (max leftWeight rightWeight)
    | _, _ => none

/-- `GraphOps::meet`, the syntactic meet.  It reports that the result is not
closed, whatever the operands are. -/
def meet (left right : GraphView) : AdaptGraph where
  size := left.size
  freeId := []
  lookup source target :=
    match left.lookup source target, right.lookup source target with
    | some leftWeight, some rightWeight => some (min leftWeight rightWeight)
    | some leftWeight, none => some leftWeight
    | none, rightWeight => rightWeight

/-- The graph of `GraphOps::widen`: the edges of the left operand that the right
operand has with the same or a lower weight. -/
def widenGraph (left right : GraphView) : AdaptGraph where
  size := left.size
  freeId := []
  lookup source target :=
    match left.lookup source target, right.lookup source target with
    | some leftWeight, some rightWeight =>
      if rightWeight ≤ leftWeight then some leftWeight else none
    | _, _ => none

/-- `GraphOps::widen`, with the vertices that lose an edge added to the unstable
ones. -/
def widen (left right : GraphView) (unstable : List Nat) : AdaptGraph × List Nat :=
  let g := widenGraph left right
  (g, unstable ++ right.verts.filter (fun source =>
    (left.eSuccs source).any (fun edge => (g.lookup source edge.1).isNone)))

def applyDelta (g : AdaptGraph) (delta : EdgeVector) : AdaptGraph :=
  delta.foldl (fun g edge => g.setEdge edge.1 edge.2.2 edge.2.1) g

/-! ## Closure after an assignment -/

/-- The distances from a vertex and the vertices reached, in the order of the
queue. -/
structure Reach where
  distance : Nat -> Option Int
  reached : List Nat

/-- One edge in the pass of `close_after_assign_fwd`. -/
def reachEdge (weight : Int) (state : Reach) (edge : Nat × Int) : Reach :=
  match state.distance edge.1 with
  | none =>
      ⟨Function.update state.distance edge.1 (some (weight + edge.2)), state.reached ++ [edge.1]⟩
  | some old => { state with
    distance := Function.update state.distance edge.1 (some (min (weight + edge.2) old)) }

/-- One adjacent vertex in the pass of `close_after_assign_fwd`. -/
def reachFrom (g : GraphView) (state : Reach) (vertex : Nat) : Reach :=
  (g.eSuccs vertex).foldl (reachEdge ((state.distance vertex).getD 0)) state

/-- The distances with which `close_after_assign_fwd` starts. -/
def initialReach (g : GraphView) (vertex : Nat) : Reach where
  distance := (g.eSuccs vertex).foldl
    (fun distance edge => Function.update distance edge.1 (some edge.2))
    (Function.update (fun _ => none) vertex (some 0))
  reached := []

/-- The vertices adjacent to a vertex, by increasing slack. -/
def bySlack (g : GraphView) (p : Nat -> Int) (vertex : Nat) : List Nat :=
  ((g.eSuccs vertex).insertionSort (fun left right => left.2 - p left.1 ≤ right.2 - p right.1)).map
    Prod.fst

/-- `close_after_assign_fwd`: the vertices that are reached by one edge or two,
with their distances. -/
def closeAfterAssignFwd (g : GraphView) (p : Nat -> Int) (vertex : Nat) : List (Nat × Int) :=
  let adjacent := bySlack g p vertex
  let final := adjacent.foldl (reachFrom g) (initialReach g vertex)
  (adjacent ++ final.reached).map (fun target => (target, (final.distance target).getD 0))

def closeAfterAssign (g : GraphView) (p : Nat -> Int) (vertex : Nat) : EdgeVector :=
  (closeAfterAssignFwd g p vertex).map (fun entry => (vertex, entry.1, entry.2)) ++
    (closeAfterAssignFwd g.reverse (fun other => -p other) vertex).map
    (fun entry => (entry.1, vertex, entry.2))

/-! ## Closure over a new edge -/

/-- Lower the weight of an edge.  The result is nothing if the edge already has
this weight or a lower one. -/
def lowerEdge (g : AdaptGraph) (source : Nat) (weight : Int) (target : Nat) : Option AdaptGraph :=
  match g.lookup source target with
  | some old => if old ≤ weight then none else some (g.setEdge source weight target)
  | none => some (g.setEdge source weight target)

/-- The first loop of `close_over_edge`: the predecessors of `ii` whose edge to
`jj` gets a lower weight, with the weights of their edges to `ii`. -/
def closePreds (jj : Nat) (weight : Int) (state : AdaptGraph × List (Nat × Int))
    (edge : Nat × Int) :
    AdaptGraph × List (Nat × Int) :=
  if edge.1 = jj then state
  else
    match lowerEdge state.1 edge.1 (edge.2 + weight) jj with
    | some g => (g, state.2 ++ [edge])
    | none => state

/-- The second loop of `close_over_edge`, for the successors of `jj`. -/
def closeSuccs (ii : Nat) (weight : Int) (state : AdaptGraph × List (Nat × Int))
    (edge : Nat × Int) :
    AdaptGraph × List (Nat × Int) :=
  if edge.1 = ii then state
  else
    match lowerEdge state.1 ii (edge.2 + weight) edge.1 with
    | some g => (g, state.2 ++ [edge])
    | none => state

/-- The third loop of `close_over_edge`, over all pairs of the first two. -/
def closePairs (weight : Int) (dests : List (Nat × Int)) (g : AdaptGraph) (source : Nat × Int) :
    AdaptGraph :=
  dests.foldl (fun g dest => (lowerEdge g source.1 (weight + source.2 + dest.2) dest.1).getD g) g

/-- `close_over_edge`.  The loops see the graph without the vertex zero. -/
def closeOverEdge (g : AdaptGraph) (ii jj : Nat) : AdaptGraph :=
  let weight := (g.lookup ii jj).getD 0
  let preds := ((g.view.exclude 0).ePreds ii).foldl (closePreds jj weight) (g, [])
  let succs := ((preds.1.view.exclude 0).eSuccs jj).foldl (closeSuccs ii weight) (preds.1, [])
  preds.2.foldl (closePairs weight succs.2) succs.1

/-! ## Repair of a potential -/

/-- The element of a list with the least key, and the rest of the list:
`Heap::removeMin`. -/
def removeMin (key : Nat -> Int) : List Nat -> Option (Nat × List Nat)
  | [] => none
  | first :: rest =>
      match removeMin key rest with
      | none => some (first, [])
      | some (least, others) =>
        if key least < key first then some (least, first :: others) else some (first, rest)

/-- Insert a vertex into a heap, or decrease its key. -/
def insertHeap (vertex : Nat) (heap : List Nat) : List Nat :=
  if vertex ∈ heap then heap else vertex :: heap

/-- The state of `repair_potential`: `dists`, `dists_alt` and the heap. -/
structure Repair where
  distance : Nat -> Int
  alternative : Nat -> Int
  heap : List Nat

/-- One edge out of the vertex that was removed from the heap. -/
def repairEdge (p : Nat -> Int) (vertex : Nat) (state : Repair) (edge : Nat × Int) : Repair :=
  if state.alternative edge.1 = p edge.1 then
    let next := state.alternative vertex + edge.2 - state.alternative edge.1
    if next < state.distance edge.1 then
      { state with
        distance := Function.update state.distance edge.1 next
        heap := insertHeap edge.1 state.heap }
    else state
  else state

/-- One vertex from the heap. -/
def repairVertex (g : GraphView) (p : Nat -> Int) (state : Repair) (vertex : Nat)
    (rest : List Nat) : Repair :=
  (g.eSuccs vertex).foldl (repairEdge p vertex)
    { state with
      alternative := Function.update state.alternative vertex (p vertex + state.distance vertex)
      heap := rest }

/-- The loop of `repair_potential`. -/
def repairLoop (g : GraphView) (p : Nat -> Int) : Nat -> Repair -> Repair
  | 0, state => state
  | steps + 1, state =>
      match removeMin state.distance state.heap with
      | none => state
      | some (vertex, rest) => repairLoop g p steps (repairVertex g p state vertex rest)

/-- The state in which the loop of `repair_potential` starts. -/
def initialRepair (p : Nat -> Int) (jj : Nat) (slack : Int) : Repair where
  distance := Function.update (fun _ => 0) jj slack
  alternative := p
  heap := [jj]

/-- `repair_potential`: the potential after an edge from `ii` to `jj` was set or
lowered, or nothing if the edge closes a negative cycle. -/
def repairPotential (g : GraphView) (p : Nat -> Int) (ii jj : Nat) : Option (Nat -> Int) :=
  let slack := p ii + (g.lookup ii jj).getD 0 - p jj
  if 0 ≤ slack then some p
  else
    let final := repairLoop g p g.size (initialRepair p jj slack)
    if final.distance ii < 0 then none else some final.alternative

/-! ## Dijkstra's algorithm with marks -/

/-- The state of the search: `dists`, `vert_marks` and the heap. -/
structure Search (Mark : Type) where
  distance : Nat -> Option Int
  mark : Nat -> Mark
  heap : List Nat

section Dijkstra

variable {Mark : Type} [Max Mark] (g : GraphView) (p : Nat -> Int)

/-- One edge out of a vertex at the given cost, with the mark that the target
gets. -/
def relax (cost : Int) (state : Search Mark) (edge : Nat × Int × Mark) : Search Mark :=
  let next := cost + edge.2.1 - p edge.1
  let lowered : Search Mark :=
    { distance := Function.update state.distance edge.1 (some next)
      mark := Function.update state.mark edge.1 edge.2.2
      heap := insertHeap edge.1 state.heap }
  match state.distance edge.1 with
  | none => lowered
  | some old =>
      if next < old then lowered
      else if next = old then
        { state with mark := Function.update state.mark edge.1 (max (state.mark edge.1) edge.2.2) }
      else state

/-- The key of the heap. -/
def Search.key (state : Search Mark) (vertex : Nat) : Int := (state.distance vertex).getD 0

/-- The entry of a vertex that was removed from the heap, if the graph has no
edge of this weight or a lower one. -/
def improvement (source vertex : Nat) (weight : Int) : List (Nat × Int) :=
  match g.lookup source vertex with
  | some old => if weight < old then [(vertex, weight)] else []
  | none => [(vertex, weight)]

/-- The loop that `chrome_dijkstra` and `dijkstra_recover` share.  They differ in
the edges that lead out of a vertex with a mark.  Of several vertices at the same
distance the first of the list leaves.  Which one leaves the binary heap is a
matter of its shape: `heapDijkstraLoop` is the loop with that heap. -/
def dijkstraLoop (expand : Nat -> Mark -> List (Nat × Int × Mark)) (source : Nat) :
    Nat -> Search Mark -> List (Nat × Int)
  | 0, _ => []
  | steps + 1, state =>
      match removeMin state.key state.heap with
      | none => []
      | some (vertex, rest) =>
          let cost := state.key vertex + p vertex
          improvement g source vertex (cost - p source) ++
            dijkstraLoop expand source steps
              ((expand vertex (state.mark vertex)).foldl (relax p cost) { state with heap := rest })

/-- One edge out of the source. -/
def insertEdge (source : Nat) (state : Search Mark) (edge : Nat × Int × Mark) : Search Mark where
  distance := Function.update state.distance edge.1 (some (p source + edge.2.1 - p edge.1))
  mark := Function.update state.mark edge.1 edge.2.2
  heap := insertHeap edge.1 state.heap

/-- The state before any edge is looked at. -/
def startSearch (source : Nat) (unmarked : Mark) : Search Mark where
  distance := Function.update (fun _ => none) source (some 0)
  mark _ := unmarked
  heap := []

/-- The state in which the loop starts, after the edges out of the source. -/
def initialSearch (source : Nat) (unmarked : Mark) (edges : List (Nat × Int × Mark)) :
    Search Mark :=
  edges.foldl (insertEdge p source) (startSearch source unmarked)

end Dijkstra

/-- `CMarkT` as the set of operands that have an edge: `E_LEFT`, `E_RIGHT`. -/
abbrev Colour := Bool × Bool

/-- The operands that have an edge with the weight that it has in the meet. -/
def edgeColour (left right : GraphView) (source target : Nat) (weight : Int) : Colour :=
  (decide (left.lookup source target = some weight),
    decide (right.lookup source target = some weight))

/-- The edges out of a vertex with their colours. -/
def colouredSuccs (g left right : GraphView) (vertex : Nat) : List (Nat × Int × Colour) :=
  (g.eSuccs vertex).map (fun edge => (edge.1, edge.2, edgeColour left right vertex edge.1 edge.2))

/-- The edges that `chrome_dijkstra` follows: a vertex that was reached by an
edge of one operand is left by the edges that only the other one has. -/
def chromeExpand (g left right : GraphView) (vertex : Nat) (mark : Colour) :
    List (Nat × Int × Colour) :=
  if mark = (true, true) then []
  else
    (colouredSuccs g left right vertex).filter (fun edge =>
      decide (edge.2.2 = if mark = (true, false) then (false, true) else (true, false)))

def chromeDijkstra (g left right : GraphView) (p : Nat -> Int) (source : Nat) : List (Nat × Int) :=
  dijkstraLoop g p (chromeExpand g left right) source g.size
    (initialSearch p source (false, false) (colouredSuccs g left right source))

def closeAfterMeet (g : GraphView) (p : Nat -> Int) (left right : GraphView) : EdgeVector :=
  g.verts.flatMap (fun source =>
    (chromeDijkstra g left right p source).map (fun entry => (source, entry.1, entry.2)))

/-- The edges that `dijkstra_recover` follows: nothing is followed out of a
vertex with the mark `V_STABLE`. -/
def recoverExpand (g : GraphView) (isStable : Nat -> Bool) (vertex : Nat) (mark : Bool) :
    List (Nat × Int × Bool) :=
  if mark then [] else (g.eSuccs vertex).map (fun edge => (edge.1, edge.2, isStable vertex))

/-- `dijkstra_recover`, for a source that is not stable. -/
def dijkstraRecover (g : GraphView) (p : Nat -> Int) (isStable : Nat -> Bool) (source : Nat) :
    List (Nat × Int) :=
  dijkstraLoop g p (recoverExpand g isStable) source g.size
    (initialSearch p source false ((g.eSuccs source).map (fun edge => (edge.1, edge.2, false))))

def closeAfterWiden (g : GraphView) (p : Nat -> Int) (isStable : Nat -> Bool) : EdgeVector :=
  (g.verts.filter (fun vertex => !isStable vertex)).flatMap (fun source =>
    (dijkstraRecover g p isStable source).map (fun entry => (source, entry.1, entry.2)))

end GraphOps
end Crab
end Prevail
