import Prevail.Crab.GraphStorage

namespace Prevail
namespace Crab

/-!
# The weights of a stored graph

What each operation does to the weights between two vertices.  With that the
stored graph refines `AdaptGraph`, which looks up an edge by its ends, and after
any history of operations the weight of an edge is the last one that was set, or
the least one since then.
-/

namespace SparseGraph

/-- The weight under the index of an edge. -/
def weight (g : SparseGraph) (source target : UInt16) : Option Int :=
  (g.succ source target).bind (fun idx => g.ws[idx]?)

section Weights

variable {g : SparseGraph} {source target : Nat}

theorem lookup_eq_weight (small : source < 65536) :
    g.lookup source target = g.weight (vertexKey source) (vertexKey target) := lookup_eq small

theorem Coherent.isSome_weight (coherent : g.Coherent) (x y : UInt16) :
    (g.weight x y).isSome = (g.succ x y).isSome := by
  rw [weight]
  rcases form : g.succ x y with _ | idx
  · rfl
  · simp [coherent.index_lt form]

theorem newVertex_weight (x y : UInt16) : g.newVertex.2.weight x y = g.weight x y := by
  rw [weight, weight, (newVertex_index x y).1, (newVertex_weights g).1]

theorem growTo_weight (bound : Nat) (x y : UInt16) :
    (growTo bound g).weight x y = g.weight x y := by
  fun_induction growTo bound g with
  | case1 g _ inductionHypothesis => rw [inductionHypothesis, newVertex_weight]
  | case2 => rfl

theorem Coherent.addEdge_weight (coherent : g.Coherent) (sourceLive : g.Live source)
    (targetLive : g.Live target) (new : Int) (x y : UInt16) :
    (g.addEdge source new target).weight x y =
      if x = vertexKey source ∧ y = vertexKey target then some new else g.weight x y := by
  have allocates := coherent.allocate new
  have ws : (g.addEdge source new target).ws = (g.allocate new).2.1 := rfl
  rw [weight, (coherent.addEdge_index sourceLive targetLive new x y).1, ws]
  split
  · exact allocates.new
  · rw [weight]
    rcases form : g.succ x y with _ | idx
    · rfl
    · exact allocates.old idx (fun same => allocates.unused x y (same ▸ form))

/-- Another weight under the index of an edge changes the weight of this edge
only. -/
theorem Coherent.withWeights_weight (coherent : g.Coherent) {x y : UInt16} {idx : Nat}
    (here : g.succ x y = some idx) {ws : List Int} {new : Int} (atIndex : ws[idx]? = some new)
    (elsewhere : forall other, other ≠ idx -> ws[other]? = g.ws[other]?) (x' y' : UInt16) :
    weight { g with ws := ws } x' y' = if x' = x ∧ y' = y then some new else g.weight x' y' := by
  change (g.succ x' y').bind (fun idx => ws[idx]?) = _
  split
  · rename_i same
    rw [same.1, same.2, here]
    exact atIndex
  · rename_i different
    rw [weight]
    rcases form : g.succ x' y' with _ | other
    · rfl
    · refine elsewhere other (fun same => different ?_)
      subst same
      exact coherent.index_injective form here

theorem Coherent.setEdge (coherent : g.Coherent) (sourceLive : g.Live source)
    (targetLive : g.Live target) (new : Int) : (g.setEdge source new target).Coherent := by
  have small := sourceLive.1.trans coherent.small
  unfold SparseGraph.setEdge
  split
  · exact coherent.withWeights (List.length_set ..)
  · rename_i absent
    refine coherent.addEdge sourceLive targetLive ?_ new
    rw [elem, Std.TreeMap.contains_eq_isSome_getElem?, absent]
    rfl

theorem Coherent.updateEdge (coherent : g.Coherent) (sourceLive : g.Live source)
    (targetLive : g.Live target) (new : Int) : (g.updateEdge source new target).Coherent := by
  unfold SparseGraph.updateEdge
  split
  · exact coherent.withWeights (List.length_modify ..)
  · rename_i absent
    refine coherent.addEdge sourceLive targetLive ?_ new
    rw [elem, Std.TreeMap.contains_eq_isSome_getElem?, absent]
    rfl

theorem Coherent.setEdge_weight (coherent : g.Coherent) (sourceLive : g.Live source)
    (targetLive : g.Live target) (new : Int) (x y : UInt16) :
    (g.setEdge source new target).weight x y =
      if x = vertexKey source ∧ y = vertexKey target then some new else g.weight x y := by
  have small := sourceLive.1.trans coherent.small
  unfold SparseGraph.setEdge
  split
  · rename_i idx found
    rw [← indexAt_eq_of_nat small] at found
    exact coherent.withWeights_weight found (by simp [coherent.index_lt found])
      (fun other different => List.getElem?_set_ne different.symm) x y
  · exact coherent.addEdge_weight sourceLive targetLive new x y

/-- The weight that `update_edge` leaves behind. -/
def lowered (old : Option Int) (new : Int) : Int := (old.map (fun old => min old new)).getD new

theorem Coherent.updateEdge_weight (coherent : g.Coherent) (sourceLive : g.Live source)
    (targetLive : g.Live target) (new : Int) (x y : UInt16) :
    (g.updateEdge source new target).weight x y =
      if x = vertexKey source ∧ y = vertexKey target then
        some (lowered (g.weight (vertexKey source) (vertexKey target)) new)
      else g.weight x y := by
  have small := sourceLive.1.trans coherent.small
  unfold SparseGraph.updateEdge
  split
  · rename_i idx found
    rw [← indexAt_eq_of_nat small] at found
    have inside := coherent.index_lt found
    have old : g.weight (vertexKey source) (vertexKey target) = some g.ws[idx] := by
      rw [weight, succ, found]
      exact List.getElem?_eq_getElem inside
    rw [old]
    refine coherent.withWeights_weight found ?_ ?_ x y
    · rw [List.getElem?_modify, List.getElem?_eq_getElem inside]
      simp [lowered]
    · intro other different
      simp [different.symm]
  · rename_i absent
    rw [← indexAt_eq_of_nat small] at absent
    have none_ : g.weight (vertexKey source) (vertexKey target) = none := by
      rw [weight, succ, absent]
      rfl
    rw [none_]
    exact coherent.addEdge_weight sourceLive targetLive new x y

theorem Coherent.forget_weight (coherent : g.Coherent) {vertex : Nat} (live : g.Live vertex)
    (x y : UInt16) :
    (g.forget vertex).weight x y = if x = vertexKey vertex ∨ y = vertexKey vertex then none
      else g.weight x y := by
  have ws : (g.forget vertex).ws = g.ws := by rw [forget_eq live]
  rw [weight, (coherent.forget_index live x y).1, ws]
  split <;> rfl

theorem Coherent.weight_of_not_live (coherent : g.Coherent) {vertex : Nat} (small : vertex < 65536)
    (notLive : ¬ g.Live vertex) (x y : UInt16)
    (touches : x = vertexKey vertex ∨ y = vertexKey vertex) :
    g.weight x y = none := by
  rw [weight]
  rcases form : g.succ x y with _ | idx
  · rfl
  · have ends := coherent.ends form
    rcases touches with rfl | rfl
    · rw [vertexKey_toNat small] at ends
      exact absurd ends.1 notLive
    · rw [vertexKey_toNat small] at ends
      exact absurd ends.2 notLive

end Weights

/-! ## Histories -/

/-- The operations of a graph. -/
inductive Operation where
  | newVertex
  | growTo (size : Nat)
  | addEdge (source : Nat) (weight : Int) (target : Nat)
  | setEdge (source : Nat) (weight : Int) (target : Nat)
  | updateEdge (source : Nat) (weight : Int) (target : Nat)
  | forget (vertex : Nat)

namespace Operation

def apply : Operation -> SparseGraph -> SparseGraph
  | newVertex, g => g.newVertex.2
  | growTo size, g => g.growTo size
  | addEdge source weight target, g => g.addEdge source weight target
  | setEdge source weight target, g => g.setEdge source weight target
  | updateEdge source weight target, g => g.updateEdge source weight target
  | forget vertex, g => g.forget vertex

/-- What an operation asks of its operands: edges join live vertices,
`add_edge` is for an edge that is not there, and a vertex that is forgotten was
taken at some time. -/
def Allowed (g : SparseGraph) : Operation -> Prop
  | newVertex => True
  | growTo _ => True
  | addEdge source _ target => (g.Live source ∧ g.Live target) ∧ g.elem source target = false
  | setEdge source _ target => g.Live source ∧ g.Live target
  | updateEdge source _ target => g.Live source ∧ g.Live target
  | forget vertex => vertex < g.size

/-- What an operation does to the weight between two vertices. -/
def weightAfter (source target : Nat) (before : Option Int) : Operation -> Option Int
  | newVertex => before
  | growTo _ => before
  | addEdge s weight t => if source = s ∧ target = t then some weight else before
  | setEdge s weight t => if source = s ∧ target = t then some weight else before
  | updateEdge s weight t =>
    if source = s ∧ target = t then some (lowered before weight) else before
  | forget vertex => if source = vertex ∨ target = vertex then none else before

instance (g : SparseGraph) (vertex : Nat) : Decidable (g.Live vertex) :=
  inferInstanceAs (Decidable (_ ∧ _))

instance (g : SparseGraph) : (operation : Operation) -> Decidable (operation.Allowed g)
  | newVertex => .isTrue trivial
  | growTo _ => .isTrue trivial
  | addEdge .. => inferInstanceAs (Decidable (_ ∧ _))
  | setEdge .. => inferInstanceAs (Decidable (_ ∧ _))
  | updateEdge .. => inferInstanceAs (Decidable (_ ∧ _))
  | forget _ => inferInstanceAs (Decidable (_ < _))

end Operation

/-- The graph after a history of operations, the last one first. -/
def replay : List Operation -> SparseGraph
  | [] => empty
  | operation :: earlier => operation.apply (replay earlier)

/-- Every operation of a history was allowed, and there never were more vertices
than keys. -/
def Permitted : List Operation -> Prop
  | [] => True
  | operation :: earlier =>
      Permitted earlier ∧ operation.Allowed (replay earlier) ∧
        (operation.apply (replay earlier)).size < 65536

instance decidablePermitted : (history : List Operation) -> Decidable (Permitted history)
  | [] => .isTrue trivial
  | _ :: earlier =>
      have := decidablePermitted earlier
      inferInstanceAs (Decidable (_ ∧ _ ∧ _))

/-- The weight between two vertices after a history: the last one that was set,
or the least one since then. -/
def lastWeight (source target : Nat) : List Operation -> Option Int
  | [] => none
  | operation :: earlier => operation.weightAfter source target (lastWeight source target earlier)

section Runs

variable {g : SparseGraph} {operation : Operation} {history : List Operation}

theorem Coherent.apply (coherent : g.Coherent) (allowed : operation.Allowed g)
    (small : (operation.apply g).size < 65536) : (operation.apply g).Coherent := by
  cases operation with
  | newVertex => exact coherent.newVertex small
  | growTo size => exact coherent.growTo small
  | addEdge source weight target => exact coherent.addEdge allowed.1.1 allowed.1.2 allowed.2 weight
  | setEdge source weight target => exact coherent.setEdge allowed.1 allowed.2 weight
  | updateEdge source weight target => exact coherent.updateEdge allowed.1 allowed.2 weight
  | forget vertex => exact coherent.forget allowed

theorem vertexKey_inj {left right : Nat} (leftSmall : left < 65536) (rightSmall : right < 65536) :
    vertexKey left = vertexKey right ↔ left = right := by
  rw [← toNat_eq_iff rightSmall, vertexKey_toNat leftSmall]

theorem Coherent.apply_lookup (coherent : g.Coherent) (allowed : operation.Allowed g)
    {source target : Nat} (sourceSmall : source < 65536) (targetSmall : target < 65536) :
    (operation.apply g).lookup source target = operation.weightAfter source target
      (g.lookup source target) := by
  rw [lookup_eq_weight sourceSmall, lookup_eq_weight sourceSmall]
  cases operation with
  | newVertex => exact newVertex_weight _ _
  | growTo size => exact growTo_weight size _ _
  | addEdge s weight t =>
      rw [Operation.apply, coherent.addEdge_weight allowed.1.1 allowed.1.2]
      simp only [vertexKey_inj sourceSmall (coherent.small.trans' allowed.1.1.1),
        vertexKey_inj targetSmall (coherent.small.trans' allowed.1.2.1)]
      rfl
  | setEdge s weight t =>
      rw [Operation.apply, coherent.setEdge_weight allowed.1 allowed.2]
      simp only [vertexKey_inj sourceSmall (coherent.small.trans' allowed.1.1),
        vertexKey_inj targetSmall (coherent.small.trans' allowed.2.1)]
      rfl
  | updateEdge s weight t =>
      rw [Operation.apply, coherent.updateEdge_weight allowed.1 allowed.2]
      simp only [vertexKey_inj sourceSmall (coherent.small.trans' allowed.1.1),
        vertexKey_inj targetSmall (coherent.small.trans' allowed.2.1), Operation.weightAfter]
      split
      · rename_i same
        rw [same.1, same.2]
      · rfl
  | forget vertex =>
      have small := coherent.small.trans' allowed
      by_cases live : g.Live vertex
      · rw [Operation.apply, coherent.forget_weight live]
        simp only [vertexKey_inj sourceSmall small, vertexKey_inj targetSmall small]
        rfl
      · rw [Operation.apply, forget_of_not_live live allowed, Operation.weightAfter]
        split
        · rename_i touches
          rw [← vertexKey_inj sourceSmall small, ← vertexKey_inj targetSmall small] at touches
          exact coherent.weight_of_not_live small live _ _ touches
        · rfl

/-- After every permitted history the graph is coherent, an edge is there if it
has a weight, and its weight is the last one that was set or the least one since
then. -/
theorem replay_coherent (permitted : Permitted history) :
    (replay history).Coherent ∧
      forall source target, source < (replay history).size -> target < (replay history).size ->
        (replay history).edgeVal source target = lastWeight source target history ∧
          (replay history).lookup source target = lastWeight source target history ∧
            (replay history).elem source target = (lastWeight source target history).isSome := by
  have weights : (replay history).Coherent ∧ forall source target, source < 65536 ->
      target < 65536 -> (replay history).lookup source target =
      lastWeight source target history := by
    induction history with
    | nil =>
        refine ⟨empty_coherent, fun source target _ _ => ?_⟩
        rfl
    | cons operation earlier inductionHypothesis =>
        rcases permitted with ⟨before, allowed, small⟩
        rcases inductionHypothesis before with ⟨coherent, lookups⟩
        refine ⟨coherent.apply allowed small, fun source target sourceSmall targetSmall => ?_⟩
        rw [replay, coherent.apply_lookup allowed sourceSmall targetSmall,
          lookups source target sourceSmall targetSmall, lastWeight]
  rcases weights with ⟨coherent, lookups⟩
  refine ⟨coherent, fun source target sourceInside targetInside => ?_⟩
  have sourceSmall := sourceInside.trans coherent.small
  have lookup := lookups source target sourceSmall (targetInside.trans coherent.small)
  refine ⟨edgeVal_eq.trans lookup, lookup, ?_⟩
  rw [← lookup, lookup_eq_weight sourceSmall, coherent.isSome_weight, Bool.eq_iff_iff,
    elem_iff sourceSmall, Option.isSome_iff_exists]

/-- A vertex with a loop is forgotten and taken again, and its index serves
another edge. -/
def recycled : List Operation :=
  [.updateEdge 0 9 1, .addEdge 1 4 0, .newVertex, .forget 1, .setEdge 2 8 1, .addEdge 1 3 1,
    .updateEdge 0 5 2, .addEdge 0 7 2, .newVertex, .newVertex, .newVertex]

theorem replay_recycled : (replay recycled).Coherent ∧ (replay recycled).edgeVal 0 2 = some 5 ∧
    (replay recycled).edgeVal 1 1 = none := by
  have spec := replay_coherent (show Permitted recycled by decide)
  exact ⟨spec.1, (spec.2 0 2 (by decide) (by decide)).1, (spec.2 1 1 (by decide) (by decide)).1⟩

end Runs

/-! ## The graph behind the storage -/

/-- The graph that is stored. -/
def toAdaptGraph (g : SparseGraph) : AdaptGraph where
  size := g.size
  freeId := g.freeId
  lookup source target := if source < 65536 ∧ target < 65536 then g.lookup source target else none

/-- The operation on the graph. -/
def Operation.applyTo : Operation -> AdaptGraph -> AdaptGraph
  | newVertex, graph => graph.newVertex.2
  | growTo size, graph => graph.growTo size
  | addEdge source weight target, graph => graph.setEdge source weight target
  | setEdge source weight target, graph => graph.setEdge source weight target
  | updateEdge source weight target, graph => graph.updateEdge source weight target
  | forget vertex, graph => graph.forget vertex

section Refinement

variable {g : SparseGraph} {operation : Operation}

/-- A stored graph without edges outside of the keys is given by its size, its
free vertices and the weights between keys. -/
theorem toAdaptGraph_eq {graph : AdaptGraph} (size : g.size = graph.size)
    (freeId : g.freeId = graph.freeId)
    (lookups : forall source target, source < 65536 -> target < 65536 ->
      g.lookup source target = graph.lookup source target)
    (outside : forall source target, ¬ (source < 65536 ∧ target < 65536) ->
      graph.lookup source target = none) :
    g.toAdaptGraph = graph := by
  rcases graph with ⟨_, _, lookup⟩
  simp only [toAdaptGraph, AdaptGraph.mk.injEq]
  refine ⟨size, freeId, ?_⟩
  funext source target
  split
  · rename_i keys
    exact lookups source target keys.1 keys.2
  · rename_i notKeys
    exact (outside source target notKeys).symm

theorem toAdaptGraph_lookup {source target : Nat} (sourceSmall : source < 65536)
    (targetSmall : target < 65536) :
    g.toAdaptGraph.lookup source target = g.lookup source target :=
  if_pos ⟨sourceSmall, targetSmall⟩

theorem toAdaptGraph_outside {source target : Nat} (outside : ¬ (source < 65536 ∧ target < 65536)) :
    g.toAdaptGraph.lookup source target = none := if_neg outside

theorem toAdaptGraph_newVertex (g : SparseGraph) :
    g.newVertex.2.toAdaptGraph = g.toAdaptGraph.newVertex.2 := by
  refine toAdaptGraph_eq ?_ ?_ ?_ ?_
  · unfold SparseGraph.newVertex AdaptGraph.newVertex
    rcases form : g.freeId with _ | ⟨top, rest⟩ <;> simp [toAdaptGraph, size, form]
  · unfold SparseGraph.newVertex AdaptGraph.newVertex
    rcases form : g.freeId with _ | ⟨top, rest⟩ <;> simp [toAdaptGraph, form]
  · intro source target sourceSmall targetSmall
    rw [AdaptGraph.newVertex_lookup, toAdaptGraph_lookup sourceSmall targetSmall,
      lookup_eq_weight sourceSmall, lookup_eq_weight sourceSmall]
    exact newVertex_weight _ _
  · intro source target outside
    rw [AdaptGraph.newVertex_lookup]
    exact toAdaptGraph_outside outside

theorem toAdaptGraph_growTo (bound : Nat) (g : SparseGraph) :
    (growTo bound g).toAdaptGraph = g.toAdaptGraph.growTo bound := by
  fun_induction growTo bound g with
  | case1 g short inductionHypothesis =>
      rw [inductionHypothesis, toAdaptGraph_newVertex, AdaptGraph.growTo.eq_1 bound g.toAdaptGraph]
      exact (if_pos short).symm
  | case2 g enough =>
      rw [AdaptGraph.growTo]
      exact (if_neg enough).symm

/-- What an operation on the graph does to the weight between two vertices. -/
theorem Coherent.applyTo_lookup (coherent : g.Coherent) (allowed : operation.Allowed g)
    (source target : Nat) :
    (operation.applyTo g.toAdaptGraph).lookup source target =
      operation.weightAfter source target (g.toAdaptGraph.lookup source target) := by
  cases operation with
  | newVertex => rw [Operation.applyTo, AdaptGraph.newVertex_lookup, Operation.weightAfter]
  | growTo bound => rw [Operation.applyTo, AdaptGraph.growTo_lookup, Operation.weightAfter]
  | addEdge s weight t => rfl
  | setEdge s weight t => rfl
  | updateEdge s weight t =>
      rw [Operation.applyTo, Operation.weightAfter, AdaptGraph.updateEdge]
      by_cases same : source = s ∧ target = t
      · rw [if_pos same, same.1, same.2]
        rcases g.toAdaptGraph.lookup s t with _ | old <;> exact DifferenceBounds.set_self
      · rw [if_neg same]
        rcases g.toAdaptGraph.lookup s t with _ | old <;> exact DifferenceBounds.set_of_ne same
  | forget vertex =>
      have isFree : vertex ∈ g.toAdaptGraph.freeId ↔ ¬ g.Live vertex :=
        (coherent.mem_freeId vertex).trans (and_iff_right allowed)
      have small := coherent.small.trans' allowed
      rw [Operation.applyTo, Operation.weightAfter, AdaptGraph.forget]
      split
      · rename_i free
        split
        · rename_i touches
          by_cases keys : source < 65536 ∧ target < 65536
          · rw [toAdaptGraph_lookup keys.1 keys.2, lookup_eq_weight keys.1]
            rw [← vertexKey_inj keys.1 small, ← vertexKey_inj keys.2 small] at touches
            exact coherent.weight_of_not_live small (isFree.mp free) _ _ touches
          · exact toAdaptGraph_outside keys
        · rfl
      · rfl

theorem Coherent.weightAfter_outside (coherent : g.Coherent) (allowed : operation.Allowed g)
    {source target : Nat}
    (outside : ¬ (source < 65536 ∧ target < 65536)) :
    operation.weightAfter source target none = none := by
  have keys : forall {s t}, g.Live s ∧ g.Live t -> ¬ (source = s ∧ target = t) := by
    intro s t live same
    exact outside ⟨same.1 ▸ coherent.live_small live.1, same.2 ▸ coherent.live_small live.2⟩
  cases operation with
  | newVertex => rfl
  | growTo _ => rfl
  | addEdge s weight t => exact if_neg (keys allowed.1)
  | setEdge s weight t => exact if_neg (keys allowed)
  | updateEdge s weight t => exact if_neg (keys allowed)
  | forget vertex => exact ite_self none

/-- The stored graph refines `AdaptGraph`: each operation does to the graph what
it does to the storage. -/
theorem Coherent.toAdaptGraph_apply (coherent : g.Coherent) (allowed : operation.Allowed g) :
    (operation.apply g).toAdaptGraph = operation.applyTo g.toAdaptGraph := by
  have lookups : forall source target, source < 65536 -> target < 65536 ->
      (operation.apply g).lookup source target = (operation.applyTo g.toAdaptGraph).lookup
      source target := by
    intro source target sourceSmall targetSmall
    rw [coherent.apply_lookup allowed sourceSmall targetSmall, coherent.applyTo_lookup allowed,
      toAdaptGraph_lookup sourceSmall targetSmall]
  have outside : forall source target, ¬ (source < 65536 ∧ target < 65536) ->
      (operation.applyTo g.toAdaptGraph).lookup source target = none := by
    intro source target outside
    rw [coherent.applyTo_lookup allowed, toAdaptGraph_outside outside]
    exact coherent.weightAfter_outside allowed outside
  cases operation with
  | newVertex => exact toAdaptGraph_newVertex g
  | growTo bound => exact toAdaptGraph_growTo bound g
  | addEdge source weight target =>
      exact toAdaptGraph_eq (List.length_modify ..) rfl lookups outside
  | setEdge source weight target =>
      refine toAdaptGraph_eq ?_ ?_ lookups outside
      · simp only [Operation.apply, SparseGraph.setEdge]
        split
        · rfl
        · exact List.length_modify ..
      · simp only [Operation.apply, SparseGraph.setEdge]
        split <;> rfl
  | updateEdge source weight target =>
      refine toAdaptGraph_eq ?_ ?_ lookups outside
      · simp only [Operation.apply, Operation.applyTo, SparseGraph.updateEdge,
          AdaptGraph.updateEdge]
        split <;> split <;> first | rfl | exact List.length_modify ..
      · simp only [Operation.apply, Operation.applyTo, SparseGraph.updateEdge,
          AdaptGraph.updateEdge]
        split <;> split <;> rfl
  | forget vertex =>
      have isFree : vertex ∈ g.toAdaptGraph.freeId ↔ ¬ g.Live vertex :=
        (coherent.mem_freeId vertex).trans (and_iff_right allowed)
      refine toAdaptGraph_eq ?_ ?_ lookups outside
      · rw [Operation.applyTo, AdaptGraph.forget_size, Operation.apply]
        by_cases live : g.Live vertex
        · simp [forget_eq live, size, toAdaptGraph]
        · rw [forget_of_not_live live allowed]
          rfl
      · rw [Operation.applyTo, AdaptGraph.forget, Operation.apply]
        by_cases live : g.Live vertex
        · rw [if_neg (fun free => isFree.mp free live), forget_eq live]
          rfl
        · rw [if_pos (isFree.mpr live), forget_of_not_live live allowed]
          rfl

/-- The stored graph has the well-formedness that the algorithms rely on. -/
theorem Coherent.wellFormed (coherent : g.Coherent) : g.toAdaptGraph.WellFormed where
  free_nodup := coherent.freeId_nodup
  free_lt vertex member := ((coherent.mem_freeId vertex).mp member).1
  ends source target weight here := by
    have live : forall vertex, g.toAdaptGraph.Live vertex ↔ g.Live vertex := by
      intro vertex
      have free := coherent.mem_freeId vertex
      simp only [AdaptGraph.Live, toAdaptGraph, free, not_and, not_not]
      exact ⟨fun both => both.2 both.1, fun isLive => ⟨isLive.1, fun _ => isLive⟩⟩
    rw [live, live]
    by_cases keys : source < 65536 ∧ target < 65536
    · rw [toAdaptGraph_lookup keys.1 keys.2, lookup_eq_weight keys.1, SparseGraph.weight,
        Option.bind_eq_some_iff] at here
      rcases here with ⟨idx, isEdge, _⟩
      have ends := coherent.ends isEdge
      rwa [vertexKey_toNat keys.1, vertexKey_toNat keys.2] at ends
    · rw [toAdaptGraph_outside keys] at here
      cases here

end Refinement

end SparseGraph
end Crab
end Prevail
