import Prevail.Library.DifferenceBounds

namespace Prevail
namespace Crab

open DifferenceBounds

/-!
# Sparse weighted graphs

`AdaptGraph` of `crab_utils/adapt_sgraph.hpp` and the views `GraphPerm`,
`SubGraph` and `GraphRev` of `crab_utils/graph_ops.hpp`.

The source stores the weight of an edge in an array, under an index that the
adjacency maps of its two ends share; here an edge is looked up by its ends.
Vertex ids are natural numbers, so a graph with more vertices than the keys of
the adjacency maps can tell apart (`uint16_t`) is outside of the model.  The
weights are the unbounded integers of `number_t`.
-/

/-- The interface of a graph that the algorithms use. -/
structure GraphView where
  size : Nat
  isVertex : Nat -> Bool
  lookup : Edges Nat

namespace GraphView

variable (g : GraphView)

def verts : List Nat := (List.range g.size).filter g.isVertex

/-- `e_succs`, in increasing order as the keys of the adjacency map are. -/
def eSuccs (vertex : Nat) : List (Nat × Int) :=
  (List.range g.size).filterMap
    (fun target => (g.lookup vertex target).map (fun weight => (target, weight)))

/-- `edge_val`, for an edge that is there. -/
def edgeVal (source target : Nat) : Int := (g.lookup source target).getD 0

/-- `GraphRev`. -/
def reverse : GraphView := { g with lookup := fun source target => g.lookup target source }

def ePreds (vertex : Nat) : List (Nat × Int) := g.reverse.eSuccs vertex

/-- `SubGraph`: the graph without one vertex. -/
def exclude (excluded : Nat) : GraphView where
  size := g.size
  isVertex vertex := g.isVertex vertex && decide (vertex ≠ excluded)
  lookup source target := if source = excluded ∨ target = excluded then none
    else g.lookup source target

/-- `GraphPerm`: the graph with renamed vertices, some of which may stand for no
vertex. -/
def permute (perm : List (Option Nat)) : GraphView where
  size := perm.length
  isVertex vertex := decide (vertex < perm.length)
  lookup source target :=
    match perm[source]?.join, perm[target]?.join with
    | some left, some right => g.lookup left right
    | _, _ => none

variable {g}

theorem mem_eSuccs {vertex target : Nat} {weight : Int} :
    (target, weight) ∈ g.eSuccs vertex ↔ target < g.size ∧
      g.lookup vertex target = some weight := by
  simp only [eSuccs, List.mem_filterMap, List.mem_range, Option.map_eq_some_iff, Prod.mk.injEq]
  constructor
  · rintro ⟨_, below, _, here, rfl, rfl⟩
    exact ⟨below, here⟩
  · rintro ⟨below, here⟩
    exact ⟨target, below, weight, here, rfl, rfl⟩

theorem mem_ePreds {vertex source : Nat} {weight : Int} :
    (source, weight) ∈ g.ePreds vertex ↔ source < g.size ∧ g.lookup source vertex = some weight :=
  mem_eSuccs

theorem mem_verts {vertex : Nat} :
    vertex ∈ g.verts ↔ vertex < g.size ∧ g.isVertex vertex = true := by
  simp [verts]

theorem lookup_exclude {excluded source target : Nat} {weight : Int} :
    (g.exclude excluded).lookup source target = some weight ↔
      source ≠ excluded ∧ target ≠ excluded ∧ g.lookup source target = some weight := by
  simp only [exclude]
  split
  · rename_i touches
    constructor
    · intro absurd_
      cases absurd_
    · rintro ⟨sourceOther, targetOther, _⟩
      rcases touches with same | same
      · exact absurd same sourceOther
      · exact absurd same targetOther
  · rename_i avoids
    rw [not_or] at avoids
    simp [avoids]

theorem path_of_exclude {excluded source target : Nat} {weight : Int}
    (path : Path (g.exclude excluded).lookup source target weight) :
    Path g.lookup source target weight :=
  path.flatten (fun _ _ _ here => .edge (lookup_exclude.mp here).2.2)

theorem lookup_permute {perm : List (Option Nat)} {source target : Nat} {weight : Int} :
    (g.permute perm).lookup source target = some weight ↔
      exists left right, perm[source]? = some (some left) ∧ perm[target]? = some (some right) ∧
        g.lookup left right = some weight := by
  simp only [permute]
  split
  · rename_i left right atSource atTarget
    rw [Option.join_eq_some_iff] at atSource atTarget
    simp [atSource, atTarget]
  · rename_i missing
    constructor
    · intro absurd_
      cases absurd_
    · rintro ⟨left, right, atSource, atTarget, _⟩
      exact absurd (by simp [atTarget]) (missing left right (by simp [atSource]))

end GraphView

/-- `AdaptGraph`.  `free_id` is a stack with its top in front; a vertex is free
if its id is on the stack. -/
structure AdaptGraph where
  size : Nat
  freeId : List Nat
  lookup : Edges Nat

namespace AdaptGraph

/-- `growTo` on a fresh graph. -/
def ofSize (size : Nat) : AdaptGraph := ⟨size, [], fun _ _ => none⟩

/-- The graph as the algorithms see it. -/
def view (g : AdaptGraph) : GraphView where
  size := g.size
  isVertex vertex := decide (vertex ∉ g.freeId)
  lookup := g.lookup

/-- `is_empty`: the graph has no edge. -/
def isEmpty (g : AdaptGraph) : Bool :=
  (List.range g.size).all (fun source => (g.view.eSuccs source).isEmpty)

def newVertex (g : AdaptGraph) : Nat × AdaptGraph :=
  match g.freeId with
  | vertex :: rest => (vertex, { g with freeId := rest })
  | [] => (g.size, { g with size := g.size + 1 })

theorem newVertex_progress (g : AdaptGraph) {bound : Nat} (short : g.size < bound) :
    bound - g.newVertex.2.size + g.newVertex.2.freeId.length < bound - g.size +
      g.freeId.length := by
  unfold newVertex
  split
  · rename_i vertex rest form
    simp only [form, List.length_cons]
    omega
  · rename_i form
    simp only [form, List.length_nil]
    omega

def growTo (bound : Nat) (g : AdaptGraph) : AdaptGraph :=
  if g.size < bound then growTo bound g.newVertex.2 else g
termination_by bound - g.size + g.freeId.length
decreasing_by exact newVertex_progress g (by assumption)

def forget (g : AdaptGraph) (vertex : Nat) : AdaptGraph :=
  if vertex ∈ g.freeId then g
  else
    { g with
      freeId := vertex :: g.freeId
      lookup := (g.view.exclude vertex).lookup }

/-- `set_edge`, and `add_edge` for an edge that is not there yet. -/
def setEdge (g : AdaptGraph) (source : Nat) (weight : Int) (target : Nat) : AdaptGraph :=
  { g with lookup := Edges.set g.lookup source weight target }

def updateEdge (g : AdaptGraph) (source : Nat) (weight : Int) (target : Nat) : AdaptGraph :=
  match g.lookup source target with
  | some old => g.setEdge source (min old weight) target
  | none => g.setEdge source weight target

/-- No edge at a vertex, in either direction. -/
def isIsolated (g : AdaptGraph) (vertex : Nat) : Bool :=
  (g.view.eSuccs vertex).isEmpty && (g.view.ePreds vertex).isEmpty

/-! ## Live vertices -/

/-- A vertex that is allocated and not free. -/
def Live (g : AdaptGraph) (vertex : Nat) : Prop := vertex < g.size ∧ vertex ∉ g.freeId

/-- The free ids are different ids of the graph, and edges have live ends. -/
structure WellFormed (g : AdaptGraph) : Prop where
  free_nodup : g.freeId.Nodup
  free_lt : ∀ vertex ∈ g.freeId, vertex < g.size
  ends : forall source target weight, g.lookup source target = some weight -> g.Live source ∧
    g.Live target

variable {g : AdaptGraph}

@[simp] theorem view_size : g.view.size = g.size := rfl

@[simp] theorem view_lookup : g.view.lookup = g.lookup := rfl

theorem mem_verts {vertex : Nat} : vertex ∈ g.view.verts ↔ g.Live vertex := by
  simp [GraphView.mem_verts, view, Live]

theorem WellFormed.mem_eSuccs (wellFormed : g.WellFormed) {source target : Nat} {weight : Int} :
    (target, weight) ∈ g.view.eSuccs source ↔ g.lookup source target = some weight := by
  rw [GraphView.mem_eSuccs]
  exact ⟨And.right, fun here => ⟨(wellFormed.ends _ _ _ here).2.1, here⟩⟩

theorem WellFormed.mem_ePreds (wellFormed : g.WellFormed) {source target : Nat} {weight : Int} :
    (source, weight) ∈ g.view.ePreds target ↔ g.lookup source target = some weight := by
  rw [GraphView.mem_ePreds]
  exact ⟨And.right, fun here => ⟨(wellFormed.ends _ _ _ here).1.1, here⟩⟩

theorem WellFormed.isEmpty_iff (wellFormed : g.WellFormed) :
    g.isEmpty = true ↔ forall source target, g.lookup source target = none := by
  simp only [isEmpty, List.all_eq_true, List.mem_range, List.isEmpty_iff]
  constructor
  · intro empty source target
    by_contra some_
    rcases Option.ne_none_iff_exists'.mp some_ with ⟨weight, here⟩
    have listed := wellFormed.mem_eSuccs.mpr here
    rw [empty source (wellFormed.ends _ _ _ here).1.1] at listed
    cases listed
  · intro empty source _
    apply List.eq_nil_iff_forall_not_mem.mpr
    rintro ⟨target, weight⟩ member
    have here := (GraphView.mem_eSuccs.mp member).2
    rw [view_lookup, empty source target] at here
    cases here

theorem WellFormed.isIsolated_iff (wellFormed : g.WellFormed) {vertex : Nat} :
    g.isIsolated vertex = true ↔
      forall other, g.lookup vertex other = none ∧ g.lookup other vertex = none := by
  simp only [isIsolated, Bool.and_eq_true, List.isEmpty_iff]
  constructor
  · rintro ⟨noSuccs, noPreds⟩ other
    constructor
    · by_contra some_
      rcases Option.ne_none_iff_exists'.mp some_ with ⟨weight, here⟩
      have listed := wellFormed.mem_eSuccs.mpr here
      rw [noSuccs] at listed
      cases listed
    · by_contra some_
      rcases Option.ne_none_iff_exists'.mp some_ with ⟨weight, here⟩
      have listed := wellFormed.mem_ePreds.mpr here
      rw [noPreds] at listed
      cases listed
  · intro none_
    constructor
    · apply List.eq_nil_iff_forall_not_mem.mpr
      rintro ⟨target, weight⟩ member
      have here := wellFormed.mem_eSuccs.mp member
      rw [(none_ target).1] at here
      cases here
    · apply List.eq_nil_iff_forall_not_mem.mpr
      rintro ⟨source, weight⟩ member
      have here := wellFormed.mem_ePreds.mp member
      rw [(none_ source).2] at here
      cases here

theorem wellFormed_ofSize (size : Nat) : (ofSize size).WellFormed := by
  constructor <;> simp [ofSize]

theorem WellFormed.with_edges {other : AdaptGraph} (wellFormed : g.WellFormed)
    (size : other.size = g.size) (freeId : other.freeId = g.freeId)
    (ends : forall source target weight, other.lookup source target = some weight -> g.Live source ∧
      g.Live target) :
    other.WellFormed := by
  constructor
  · rw [freeId]
    exact wellFormed.free_nodup
  · rw [freeId, size]
    exact wellFormed.free_lt
  · unfold Live
    rw [freeId, size]
    exact ends

theorem WellFormed.of_tightens {other : AdaptGraph} (wellFormed : g.WellFormed)
    (size : other.size = g.size)
    (freeId : other.freeId = g.freeId) (tightens : Tightens g.lookup other.lookup) :
    other.WellFormed :=
  wellFormed.with_edges size freeId
    (fun _ _ _ here => (tightens.path _ _ _ here).ends wellFormed.ends)

theorem WellFormed.setEdge (wellFormed : g.WellFormed) {source target : Nat} {weight : Int}
    (sourceLive : g.Live source) (targetLive : g.Live target) :
    (g.setEdge source weight target).WellFormed := by
  refine wellFormed.with_edges ?_ ?_ ?_
  · rfl
  · rfl
  intro left right here member
  rcases set_cases member with ⟨rfl, rfl, _⟩ | old
  · exact ⟨sourceLive, targetLive⟩
  · exact wellFormed.ends _ _ _ old

theorem updateEdge_eq (g : AdaptGraph) (source target : Nat) (weight : Int) :
    ∃ lower ≤ weight, (forall old, g.lookup source target = some old -> lower ≤ old) ∧
      (lower = weight ∨ g.lookup source target = some lower) ∧
        g.updateEdge source weight target = g.setEdge source lower target := by
  unfold updateEdge
  cases found : g.lookup source target with
  | none => exact ⟨weight, le_refl _, by simp, Or.inl rfl, rfl⟩
  | some old =>
      refine ⟨min old weight, min_le_right _ _, ?_, ?_, rfl⟩
      · rintro _ ⟨rfl⟩
        exact min_le_left _ _
      · rcases min_choice old weight with first | second
        · rw [first]
          exact Or.inr rfl
        · exact Or.inl second

section NewVertex

variable (g)

@[simp] theorem newVertex_lookup : g.newVertex.2.lookup = g.lookup := by
  unfold newVertex
  split <;> rfl

theorem growTo_lookup (bound : Nat) : (g.growTo bound).lookup = g.lookup := by
  fun_induction growTo bound g with
  | case1 g _ inductionHypothesis => rw [inductionHypothesis, newVertex_lookup]
  | case2 => rfl

variable {g}

theorem newVertex_not_live : ¬ g.Live g.newVertex.1 := by
  unfold newVertex Live
  split
  · rename_i vertex rest free
    simp [free]
  · simp

theorem WellFormed.newVertex_live (wellFormed : g.WellFormed) (vertex : Nat) :
    g.newVertex.2.Live vertex ↔ g.Live vertex ∨ vertex = g.newVertex.1 := by
  have nodup := wellFormed.free_nodup
  have below := wellFormed.free_lt
  unfold newVertex Live
  split
  · rename_i first rest free
    rw [free] at nodup below ⊢
    have firstBelow := below first List.mem_cons_self
    rw [List.nodup_cons] at nodup
    simp only [List.mem_cons, not_or]
    constructor
    · rintro ⟨inside, notRest⟩
      by_cases same : vertex = first
      · exact Or.inr same
      · exact Or.inl ⟨inside, same, notRest⟩
    · rintro (⟨inside, _, notRest⟩ | rfl)
      · exact ⟨inside, notRest⟩
      · exact ⟨firstBelow, nodup.1⟩
  · rename_i free
    simp only [free, List.not_mem_nil, not_false_eq_true, and_true]
    omega

theorem WellFormed.newVertex (wellFormed : g.WellFormed) : g.newVertex.2.WellFormed := by
  constructor
  · have nodup := wellFormed.free_nodup
    unfold AdaptGraph.newVertex
    split
    · rename_i first rest free
      rw [free] at nodup
      exact (List.nodup_cons.mp nodup).2
    · exact nodup
  · intro vertex member
    have below := wellFormed.free_lt
    unfold AdaptGraph.newVertex at member ⊢
    split at member
    · rename_i first rest free
      rw [free] at below
      exact below vertex (List.mem_cons_of_mem _ member)
    · rename_i free
      rw [free] at member
      cases member
  · intro source target weight here
    rw [newVertex_lookup] at here
    have ends := wellFormed.ends _ _ _ here
    exact ⟨(wellFormed.newVertex_live _).mpr (Or.inl ends.1),
      (wellFormed.newVertex_live _).mpr (Or.inl ends.2)⟩

theorem WellFormed.newVertex_size (wellFormed : g.WellFormed) :
    (g.newVertex.1 < g.size ∧ g.newVertex.2.size = g.size) ∨
      (g.newVertex.1 = g.size ∧ g.newVertex.2.size = g.size + 1) := by
  have below := wellFormed.free_lt
  unfold AdaptGraph.newVertex
  split
  · rename_i first rest free
    rw [free] at below
    exact Or.inl ⟨below first List.mem_cons_self, rfl⟩
  · exact Or.inr ⟨rfl, rfl⟩

end NewVertex

section Forget

variable {vertex : Nat}

theorem forget_lookup (live : g.Live vertex) {source target : Nat} {weight : Int} :
    (g.forget vertex).lookup source target = some weight ↔
      source ≠ vertex ∧ target ≠ vertex ∧ g.lookup source target = some weight := by
  unfold forget
  rw [if_neg live.2]
  exact GraphView.lookup_exclude

theorem forget_live (live : g.Live vertex) (other : Nat) :
    (g.forget vertex).Live other ↔ g.Live other ∧ other ≠ vertex := by
  unfold forget Live
  rw [if_neg live.2]
  simp only [List.mem_cons, not_or]
  tauto

@[simp] theorem forget_size : (g.forget vertex).size = g.size := by
  unfold forget
  split <;> rfl

theorem WellFormed.forget (wellFormed : g.WellFormed) (live : g.Live vertex) :
    (g.forget vertex).WellFormed := by
  constructor
  · unfold AdaptGraph.forget
    rw [if_neg live.2]
    exact List.nodup_cons.mpr ⟨live.2, wellFormed.free_nodup⟩
  · unfold AdaptGraph.forget
    rw [if_neg live.2]
    intro other member
    rcases List.mem_cons.mp member with rfl | free
    · exact live.1
    · exact wellFormed.free_lt other free
  · intro source target weight here
    rcases (forget_lookup live).mp here with ⟨sourceOther, targetOther, old⟩
    have ends := wellFormed.ends _ _ _ old
    exact ⟨(forget_live live _).mpr ⟨ends.1, sourceOther⟩,
      (forget_live live _).mpr ⟨ends.2, targetOther⟩⟩

end Forget

end AdaptGraph

end Crab
end Prevail
