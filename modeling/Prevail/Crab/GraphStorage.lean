import Prevail.Crab.SparseGraph

namespace Prevail
namespace Crab
namespace SparseGraph

/-!
# The invariant of the storage

The two maps of every edge mirror each other, and no two edges share an index.
Indices and vertices that are in use are not on the stacks, vertices that are
free have no edges, and the counter counts the edges.

Four steps change a graph: a vertex is taken, an edge is added, a weight is
overwritten, and a vertex is forgotten.  Each keeps the invariant.
-/

/-- The index that the successors of a vertex hold for another vertex. -/
def succ (g : SparseGraph) (source target : UInt16) : Option Nat := indexAt g.succs source target

/-- The index that the predecessors of a vertex hold for another vertex. -/
def pred (g : SparseGraph) (target source : UInt16) : Option Nat := indexAt g.preds target source

/-- A vertex that was taken and not forgotten since. -/
def Live (g : SparseGraph) (vertex : Nat) :
    Prop := vertex < g.size ∧ g.isFree.getD vertex true = false

/-- The pairs of vertices with an edge. -/
def edges (g : SparseGraph) : Finset (Nat × Nat) :=
  (Finset.range g.size ×ˢ Finset.range g.size).filter (fun edge => g.elem edge.1 edge.2 = true)

/-- What holds of a stored graph between two operations. -/
structure Coherent (g : SparseGraph) : Prop where
  small : g.size < 65536
  preds_length : g.preds.length = g.size
  isFree_length : g.isFree.length = g.size
  mirror : forall source target, g.succ source target = g.pred target source
  ends : forall {source target idx}, g.succ source target = some idx -> g.Live source.toNat ∧
    g.Live target.toNat
  index_lt : forall {source target idx}, g.succ source target = some idx -> idx < g.ws.length
  index_injective : forall {source target source' target' idx}, g.succ source target = some idx ->
    g.succ source' target' = some idx -> source = source' ∧ target = target'
  index_used : forall {source target idx}, g.succ source target = some idx -> idx ∉ g.freeWidx
  freeWidx_lt : ∀ idx ∈ g.freeWidx, idx < g.ws.length
  freeWidx_nodup : g.freeWidx.Nodup
  mem_freeId : forall vertex, vertex ∈ g.freeId ↔ vertex < g.size ∧ ¬ g.Live vertex
  freeId_nodup : g.freeId.Nodup
  edgeCount_eq : g.edgeCount = g.edges.card

theorem empty_coherent : Coherent empty where
  small := by decide
  preds_length := rfl
  isFree_length := rfl
  mirror source target := by simp [succ, pred, indexAt, empty]
  ends here := by simp [succ, indexAt, empty] at here
  index_lt here := by simp [succ, indexAt, empty] at here
  index_injective here := by simp [succ, indexAt, empty] at here
  index_used here := by simp [succ, indexAt, empty] at here
  freeWidx_lt idx member := by cases member
  freeWidx_nodup := List.nodup_nil
  mem_freeId vertex := by simp [empty, size]
  freeId_nodup := List.nodup_nil
  edgeCount_eq := rfl

section Views

variable {g : SparseGraph} {source target : Nat}

theorem elem_iff (small : source < 65536) :
    g.elem source target = true ↔
      exists idx, g.succ (vertexKey source) (vertexKey target) = some idx := by
  rw [elem, succ, indexAt_eq_of_nat small, Std.TreeMap.contains_eq_isSome_getElem?,
    Option.isSome_iff_exists]

theorem lookup_eq (small : source < 65536) :
    g.lookup source target = (g.succ (vertexKey source) (vertexKey target)).bind
      (fun idx => g.ws[idx]?) := by
  rw [lookup, succ, indexAt_eq_of_nat small]
  rcases (g.succs.getD source ∅)[vertexKey target]? with _ | idx <;> rfl

theorem edgeVal_eq : g.edgeVal source target = g.lookup source target := by
  rw [lookup, edgeVal]
  rcases (g.succs.getD source ∅)[vertexKey target]? with _ | idx <;> rfl

theorem mem_edges (small : g.size < 65536) :
    (source, target) ∈ g.edges ↔ (source < g.size ∧ target < g.size) ∧
      exists idx, g.succ (vertexKey source) (vertexKey target) = some idx := by
  rw [edges, Finset.mem_filter, Finset.mem_product, Finset.mem_range, Finset.mem_range]
  constructor
  · intro edge
    rcases edge with ⟨inside, isEdge⟩
    exact ⟨inside, (elem_iff (inside.1.trans small)).mp isEdge⟩
  · intro edge
    rcases edge with ⟨inside, isEdge⟩
    exact ⟨inside, (elem_iff (inside.1.trans small)).mpr isEdge⟩

theorem Coherent.live_small (coherent : g.Coherent) {vertex : Nat} (live : g.Live vertex) :
    vertex < 65536 :=
  live.1.trans coherent.small

theorem Coherent.edges_eq (coherent : g.Coherent) {next : SparseGraph} (small : next.size < 65536)
    (wider : g.size ≤ next.size)
    (same : forall source target, next.succ source target = g.succ source target) :
    next.edges = g.edges := by
  ext ⟨x, y⟩
  rw [mem_edges small, mem_edges coherent.small]
  simp only [same]
  constructor
  · intro edge
    rcases edge with ⟨⟨first, second⟩, idx, here⟩
    have ends := coherent.ends here
    rw [vertexKey_toNat (first.trans small), vertexKey_toNat (second.trans small)] at ends
    exact ⟨⟨ends.1.1, ends.2.1⟩, idx, here⟩
  · intro edge
    rcases edge with ⟨⟨first, second⟩, here⟩
    exact ⟨⟨first.trans_le wider, second.trans_le wider⟩, here⟩

end Views

/-! ## Taking a vertex -/

section Take

variable {g : SparseGraph}

theorem newVertex_index (source target : UInt16) :
    g.newVertex.2.succ source target = g.succ source target ∧
      g.newVertex.2.pred target source = g.pred target source := by
  unfold newVertex
  split
  · exact ⟨rfl, rfl⟩
  · exact ⟨indexAt_append_empty, indexAt_append_empty⟩

theorem Coherent.newVertex_live (coherent : g.Coherent) (vertex : Nat) :
    g.newVertex.2.Live vertex ↔ g.Live vertex ∨ vertex = g.newVertex.1 := by
  unfold newVertex
  split
  · rename_i top rest form
    have inside := ((coherent.mem_freeId top).mp (form ▸ List.mem_cons_self)).1
    simp only [Live, size, List.getD_eq_getElem?_getD, List.getElem?_set]
    rw [← coherent.isFree_length] at inside
    by_cases same : top = vertex
    · subst same
      simp only [if_true, inside, Option.getD_some, and_true, or_true, iff_true]
      rwa [coherent.isFree_length] at inside
    · simp [same, show ¬ vertex = top from fun equal => same equal.symm]
  · simp only [Live, size, List.getD_eq_getElem?_getD, List.length_append, List.length_singleton]
    have length := coherent.isFree_length
    rw [size] at length
    rcases lt_trichotomy vertex g.succs.length with inside | last | outside
    · rw [List.getElem?_append_left (by omega)]
      simp [inside, inside.ne, show vertex < g.succs.length + 1 by omega]
    · rw [last, ← length, List.getElem?_concat_length]
      simp
    · simp only [show ¬ vertex < g.succs.length + 1 by
        omega, show ¬ vertex < g.succs.length by omega, outside.ne', false_and, or_self]

theorem newVertex_weights (g : SparseGraph) :
    g.newVertex.2.ws = g.ws ∧ g.newVertex.2.freeWidx = g.freeWidx ∧
      g.newVertex.2.edgeCount = g.edgeCount := by
  unfold newVertex
  split <;> exact ⟨rfl, rfl, rfl⟩

theorem size_le_newVertex (g : SparseGraph) : g.size ≤ g.newVertex.2.size := by
  unfold newVertex
  split
  · exact le_refl _
  · simp [size]

theorem Coherent.newVertex (coherent : g.Coherent) (small : g.newVertex.2.size < 65536) :
    g.newVertex.2.Coherent := by
  have live := coherent.newVertex_live
  have sameSucc : forall source target, g.newVertex.2.succ source target = g.succ source target :=
    fun source target => (newVertex_index source target).1
  have samePred : forall source target, g.newVertex.2.pred target source = g.pred target source :=
    fun source target => (newVertex_index source target).2
  rcases newVertex_weights g with ⟨ws, freeWidx, edgeCount⟩
  refine
    { small := small, preds_length := ?_, isFree_length := ?_, mirror := ?_, ends := ?_,
      index_lt := ?_
      index_injective := ?_, index_used := ?_, freeWidx_lt := ?_, freeWidx_nodup := ?_,
      mem_freeId := ?_
      freeId_nodup := ?_, edgeCount_eq := ?_ }
  · have length := coherent.preds_length
    unfold SparseGraph.newVertex
    split
    · exact length
    · simpa [size] using length
  · have length := coherent.isFree_length
    unfold SparseGraph.newVertex
    split
    · simpa [size] using length
    · simpa [size] using length
  · intro source target
    rw [sameSucc, samePred]
    exact coherent.mirror source target
  · intro source target idx here
    rw [sameSucc] at here
    rw [live, live]
    exact ⟨Or.inl (coherent.ends here).1, Or.inl (coherent.ends here).2⟩
  · intro source target idx here
    rw [sameSucc] at here
    rw [ws]
    exact coherent.index_lt here
  · intro source target source' target' idx here there
    rw [sameSucc] at here there
    exact coherent.index_injective here there
  · intro source target idx here
    rw [sameSucc] at here
    rw [freeWidx]
    exact coherent.index_used here
  · rw [freeWidx, ws]
    exact coherent.freeWidx_lt
  · rw [freeWidx]
    exact coherent.freeWidx_nodup
  · intro vertex
    have before := coherent.mem_freeId vertex
    rw [live]
    unfold SparseGraph.newVertex
    split
    · rename_i top rest form
      have distinct := coherent.freeId_nodup
      rw [form, List.nodup_cons] at distinct
      rw [form, List.mem_cons] at before
      change vertex ∈ rest ↔ vertex < g.size ∧ ¬ (g.Live vertex ∨ vertex = top)
      by_cases same : vertex = top
      · subst same
        simp [distinct.1]
      · simpa [same] using before
    · rename_i form
      rw [form] at before
      simp only [form, List.not_mem_nil, false_iff, not_and, not_not, size, List.length_append,
        List.length_singleton] at before ⊢
      intro below
      rcases Nat.lt_succ_iff_lt_or_eq.mp below with inside | last
      · exact Or.inl (before inside)
      · exact Or.inr last
  · have distinct := coherent.freeId_nodup
    unfold SparseGraph.newVertex
    split
    · rename_i top rest form
      rw [form] at distinct
      exact (List.nodup_cons.mp distinct).2
    · exact distinct
  · rw [edgeCount, coherent.edgeCount_eq, coherent.edges_eq small (size_le_newVertex g) sameSucc]

theorem size_le_growTo (target : Nat) (g : SparseGraph) : g.size ≤ (growTo target g).size := by
  fun_induction growTo target g with
  | case1 g _ inductionHypothesis => exact (size_le_newVertex g).trans inductionHypothesis
  | case2 => exact le_refl _

theorem Coherent.growTo (coherent : g.Coherent) {target : Nat}
    (small : (growTo target g).size < 65536) :
    (SparseGraph.growTo target g).Coherent := by
  fun_induction SparseGraph.growTo target g with
  | case1 g _ inductionHypothesis =>
      exact inductionHypothesis
        (coherent.newVertex ((size_le_growTo target _).trans_lt small)) small
  | case2 => exact coherent

end Take

/-! ## Overwriting a weight -/

theorem Coherent.withWeights {g : SparseGraph} (coherent : g.Coherent) {ws : List Int}
    (length : ws.length = g.ws.length) : Coherent { g with ws := ws } where
  small := coherent.small
  preds_length := coherent.preds_length
  isFree_length := coherent.isFree_length
  mirror := coherent.mirror
  ends := coherent.ends
  index_lt here := lt_of_lt_of_eq (coherent.index_lt here) length.symm
  index_injective := coherent.index_injective
  index_used := coherent.index_used
  freeWidx_lt idx member := lt_of_lt_of_eq (coherent.freeWidx_lt idx member) length.symm
  freeWidx_nodup := coherent.freeWidx_nodup
  mem_freeId := coherent.mem_freeId
  freeId_nodup := coherent.freeId_nodup
  edgeCount_eq := coherent.edgeCount_eq

/-! ## Adding an edge -/

/-- A new index for a weight: it is in use by no edge and leaves the stack, and
the vector changes at no other index. -/
structure Allocates (g : SparseGraph) (weight : Int) (idx : Nat) (ws : List Int)
    (freeWidx : List Nat) : Prop where
  unused : forall source target, g.succ source target ≠ some idx
  length_le : g.ws.length ≤ ws.length
  index_lt : idx < ws.length
  new : ws[idx]? = some weight
  old : forall other, other ≠ idx -> ws[other]? = g.ws[other]?
  subset : freeWidx ⊆ g.freeWidx
  nodup : freeWidx.Nodup
  taken : idx ∉ freeWidx

section Add

variable {g : SparseGraph}

theorem Coherent.allocate (coherent : g.Coherent) (weight : Int) :
    Allocates g weight (g.allocate weight).1 (g.allocate weight).2.1 (g.allocate weight).2.2 := by
  unfold SparseGraph.allocate
  split
  · rename_i idx rest form
    have member : idx ∈ g.freeWidx := form ▸ List.mem_cons_self
    have inside := coherent.freeWidx_lt idx member
    have distinct := coherent.freeWidx_nodup
    rw [form, List.nodup_cons] at distinct
    exact
      { unused := fun source target here => coherent.index_used here member
        length_le := by simp
        index_lt := by simpa using inside
        new := by simp [inside]
        old := fun other different => List.getElem?_set_ne different.symm
        subset := fun other later => form ▸ List.mem_cons_of_mem _ later
        nodup := distinct.2
        taken := distinct.1 }
  · exact
      { unused := fun source target here => absurd (coherent.index_lt here) (lt_irrefl _)
        length_le := by simp
        index_lt := by simp
        new := List.getElem?_concat_length
        old := fun other different => by
          rcases lt_or_gt_of_ne different with inside | outside
          · exact List.getElem?_append_left inside
          · rw [List.getElem?_eq_none (by simpa using outside), List.getElem?_eq_none outside.le]
        subset := List.nil_subset _
        nodup := List.nodup_nil
        taken := List.not_mem_nil }

theorem addEdge_live {source target vertex : Nat} {weight : Int} :
    (g.addEdge source weight target).Live vertex ↔ g.Live vertex := by
  simp [Live, addEdge, size]

theorem Coherent.addEdge_index (coherent : g.Coherent) {source target : Nat}
    (sourceLive : g.Live source) (targetLive : g.Live target) (weight : Int) (x y : UInt16) :
    (g.addEdge source weight target).succ x y =
        (if x = vertexKey source ∧ y = vertexKey target then some (g.allocate weight).1
        else g.succ x y) ∧
      (g.addEdge source weight target).pred y x =
        (if x = vertexKey source ∧ y = vertexKey target then some (g.allocate weight).1
        else g.pred y x) := by
  have sourceSmall := sourceLive.1.trans coherent.small
  have targetSmall := targetLive.1.trans coherent.small
  have inPreds : target < g.preds.length := targetLive.1.trans_eq coherent.preds_length.symm
  constructor
  · rw [succ, addEdge, indexAt_modify_insert sourceLive.1]
    simp only [toNat_eq_iff sourceSmall]
    rfl
  · rw [pred, addEdge, indexAt_modify_insert inPreds]
    simp only [toNat_eq_iff targetSmall, and_comm]
    rfl

theorem Coherent.addEdge_edges (coherent : g.Coherent) {source target : Nat}
    (sourceLive : g.Live source) (targetLive : g.Live target) (weight : Int) :
    (g.addEdge source weight target).edges = insert (source, target) g.edges := by
  have sameSize : (g.addEdge source weight target).size = g.size := by
    simp [SparseGraph.addEdge, size]
  ext ⟨x, y⟩
  rw [Finset.mem_insert, mem_edges (sameSize ▸ coherent.small), mem_edges coherent.small, sameSize,
    Prod.mk.injEq]
  simp only [(coherent.addEdge_index sourceLive targetLive weight _ _).1]
  constructor
  · intro edge
    rcases edge with ⟨inside, idx, here⟩
    split at here
    · rename_i same
      rw [← toNat_eq_iff (sourceLive.1.trans coherent.small),
        ← toNat_eq_iff (targetLive.1.trans coherent.small),
          vertexKey_toNat (inside.1.trans coherent.small),
            vertexKey_toNat (inside.2.trans coherent.small)] at same
      exact Or.inl same
    · exact Or.inr ⟨inside, idx, here⟩
  · intro isEdge
    rcases isEdge with ⟨rfl, rfl⟩ | ⟨inside, idx, here⟩
    · exact ⟨⟨sourceLive.1, targetLive.1⟩, _, if_pos ⟨rfl, rfl⟩⟩
    · refine ⟨inside, ?_⟩
      split
      · exact ⟨_, rfl⟩
      · exact ⟨idx, here⟩

theorem Coherent.addEdge (coherent : g.Coherent) {source target : Nat} (sourceLive : g.Live source)
    (targetLive : g.Live target) (absent : g.elem source target = false) (weight : Int) :
    (g.addEdge source weight target).Coherent := by
  have sourceSmall := sourceLive.1.trans coherent.small
  have targetSmall := targetLive.1.trans coherent.small
  have index := coherent.addEdge_index sourceLive targetLive weight
  have allocates := coherent.allocate weight
  have sameSize : (g.addEdge source weight target).size = g.size := by
    simp [SparseGraph.addEdge, size]
  have ws : (g.addEdge source weight target).ws = (g.allocate weight).2.1 := rfl
  have freeWidx : (g.addEdge source weight target).freeWidx = (g.allocate weight).2.2 := rfl
  refine
    { small := sameSize ▸ coherent.small, preds_length := ?_, isFree_length := ?_,
      mirror := ?_, ends := ?_
      index_lt := ?_, index_injective := ?_, index_used := ?_, freeWidx_lt := ?_,
      freeWidx_nodup := ?_
      mem_freeId := ?_, freeId_nodup := coherent.freeId_nodup, edgeCount_eq := ?_ }
  · rw [sameSize, ← coherent.preds_length]
    simp [SparseGraph.addEdge]
  · rw [sameSize, ← coherent.isFree_length]
    rfl
  · intro x y
    rw [(index x y).1, (index x y).2, coherent.mirror]
  · intro x y idx here
    rw [(index x y).1] at here
    rw [addEdge_live, addEdge_live]
    split at here
    · rename_i same
      rw [same.1, same.2, vertexKey_toNat sourceSmall, vertexKey_toNat targetSmall]
      exact ⟨sourceLive, targetLive⟩
    · exact coherent.ends here
  · intro x y idx here
    rw [(index x y).1] at here
    rw [ws]
    split at here
    · cases here
      exact allocates.index_lt
    · exact (coherent.index_lt here).trans_le allocates.length_le
  · intro x y x' y' idx here there
    rw [(index x y).1] at here
    rw [(index x' y').1] at there
    split at here <;> split at there
    · rename_i first second
      exact ⟨first.1.trans second.1.symm, first.2.trans second.2.symm⟩
    · cases here
      exact absurd there (allocates.unused x' y')
    · cases there
      exact absurd here (allocates.unused x y)
    · exact coherent.index_injective here there
  · intro x y idx here
    rw [(index x y).1] at here
    rw [freeWidx]
    split at here
    · cases here
      exact allocates.taken
    · exact fun member => coherent.index_used here (allocates.subset member)
  · intro idx member
    rw [freeWidx] at member
    exact (coherent.freeWidx_lt idx (allocates.subset member)).trans_le allocates.length_le
  · rw [freeWidx]
    exact allocates.nodup
  · intro vertex
    rw [addEdge_live, sameSize]
    exact coherent.mem_freeId vertex
  · have isNew : (source, target) ∉ g.edges := by
      rw [edges, Finset.mem_filter, absent]
      exact fun member => absurd member.2 Bool.false_ne_true
    rw [coherent.addEdge_edges sourceLive targetLive, Finset.card_insert_of_notMem isNew,
      ← coherent.edgeCount_eq]
    rfl

end Add

/-! ## Forgetting a vertex -/

section Forget

variable {g : SparseGraph} {vertex : Nat}

/-- A vertex that is not free is live, and the graph with it is changed. -/
theorem forget_of_not_live (notLive : ¬ g.Live vertex) (inside : vertex < g.size) :
    g.forget vertex = g := by
  have isFree : g.isFree.getD vertex true = true := by
    rcases value : g.isFree.getD vertex true with _ | _
    · exact absurd ⟨inside, value⟩ notLive
    · rfl
  rw [forget, if_pos isFree]

/-- The predecessors after the first loop of `forget`. -/
def predsWithout (g : SparseGraph) (vertex : Nat) : List TreeSMap :=
  removeKey vertex (g.succs.getD vertex ∅).keys g.preds

theorem forget_eq (live : g.Live vertex) : g.forget vertex =
    { g with
      freeWidx := (g.succs.getD vertex ∅).toList.foldl (fun free elt => elt.2 :: free) g.freeWidx
      succs := removeKey vertex ((g.predsWithout vertex).getD vertex ∅).keys (g.succs.set vertex ∅)
      preds := (g.predsWithout vertex).set vertex ∅
      edgeCount := g.edgeCount - (g.succs.getD vertex ∅).size -
      ((g.predsWithout vertex).getD vertex ∅).size
      isFree := g.isFree.set vertex true
      freeId := vertex :: g.freeId } := by
  have taken : ¬ g.isFree.getD vertex true = true := by
    rw [live.2]
    exact Bool.false_ne_true
  rw [forget, if_neg taken]
  rfl

theorem Coherent.mem_out_keys (coherent : g.Coherent) (live : g.Live vertex) {key : UInt16} :
    key ∈ (g.succs.getD vertex ∅).keys ↔ exists idx, g.succ (vertexKey vertex) key = some idx := by
  rw [mem_keys_iff, succ, indexAt_eq_of_nat (live.1.trans coherent.small)]

/-- After the first loop of `forget` no vertex has the forgotten one among its
predecessors. -/
theorem Coherent.predsWithout_index (coherent : g.Coherent) (live : g.Live vertex)
    (target source : UInt16) :
    indexAt (g.predsWithout vertex) target source =
      if source = vertexKey vertex then none else g.pred target source := by
  rw [predsWithout, indexAt_removeKey]
  by_cases same : source = vertexKey vertex
  · subst same
    rw [if_pos rfl]
    rcases form : g.pred target (vertexKey vertex) with _ | idx
    · split
      · rfl
      · exact form
    · exact if_pos ⟨(coherent.mem_out_keys live).mpr ⟨idx, (coherent.mirror _ _).trans form⟩, rfl⟩
  · rw [if_neg (fun both => same both.2), if_neg same]
    rfl

theorem Coherent.mem_into_keys (coherent : g.Coherent) (live : g.Live vertex) {key : UInt16} :
    key ∈ ((g.predsWithout vertex).getD vertex ∅).keys ↔
      key ≠ vertexKey vertex ∧ exists idx, g.succ key (vertexKey vertex) = some idx := by
  rw [mem_keys_iff, ← indexAt_eq_of_nat (live.1.trans coherent.small)]
  simp only [coherent.predsWithout_index live, coherent.mirror]
  by_cases same : key = vertexKey vertex <;> simp [same]

/-- The indices after a live vertex was forgotten. -/
theorem Coherent.forget_index (coherent : g.Coherent) (live : g.Live vertex)
    (source target : UInt16) :
    (g.forget vertex).succ source target =
        (if source = vertexKey vertex ∨ target = vertexKey vertex then none
        else g.succ source target) ∧
      (g.forget vertex).pred target source =
        (if source = vertexKey vertex ∨ target = vertexKey vertex then none
        else g.pred target source) := by
  have small := live.1.trans coherent.small
  rw [forget_eq live]
  constructor
  · rw [succ, indexAt_removeKey, indexAt_set_empty]
    simp only [toNat_eq_iff small]
    by_cases fromIt : source = vertexKey vertex
    · simp [fromIt]
    · by_cases toIt : target = vertexKey vertex
      · subst toIt
        rw [if_neg fromIt, if_pos (Or.inr rfl)]
        rcases form : g.succ source (vertexKey vertex) with _ | idx
        · split
          · rfl
          · exact form
        · exact if_pos ⟨(coherent.mem_into_keys live).mpr ⟨fromIt, idx, form⟩, rfl⟩
      · simp [fromIt, toIt, succ]
  · rw [pred, indexAt_set_empty, coherent.predsWithout_index live]
    simp only [toNat_eq_iff small]
    by_cases fromIt : source = vertexKey vertex <;> by_cases toIt : target = vertexKey vertex <;>
      simp [fromIt, toIt]

theorem Coherent.forget_live (coherent : g.Coherent) (live : g.Live vertex) (other : Nat) :
    (g.forget vertex).Live other ↔ g.Live other ∧ other ≠ vertex := by
  have inside : vertex < g.isFree.length := live.1.trans_eq coherent.isFree_length.symm
  rw [forget_eq live]
  simp only [Live, size, length_removeKey, List.length_set, List.getD_eq_getElem?_getD,
    List.getElem?_set]
  by_cases same : vertex = other
  · subst same
    simp [inside]
  · simp [same, show ¬ other = vertex from fun equal => same equal.symm]

theorem card_keys (map : TreeSMap) {pair : UInt16 -> Nat × Nat}
    (injective : Function.Injective pair) :
    (map.keys.map pair).toFinset.card = map.size := by
  rw [List.toFinset_card_of_nodup (Std.TreeMap.nodup_keys.map injective), List.length_map,
    Std.TreeMap.length_keys]

/-- The map of a vertex has one key for each edge from it. -/
theorem Coherent.card_out (coherent : g.Coherent) (live : g.Live vertex) :
    (g.edges.filter (fun edge => edge.1 = vertex)).card = (g.succs.getD vertex ∅).size := by
  have injective : Function.Injective (fun key : UInt16 => (vertex, key.toNat)) :=
    fun left right same => UInt16.toNat_inj.mp (Prod.mk.inj same).2
  rw [← card_keys _ injective]
  congr 1
  ext ⟨source, target⟩
  rw [Finset.mem_filter, mem_edges coherent.small, List.mem_toFinset, List.mem_map]
  constructor
  · intro edge
    rcases edge with ⟨⟨inside, isEdge⟩, same⟩
    obtain rfl : source = vertex := same
    exact ⟨vertexKey target, (coherent.mem_out_keys live).mpr isEdge,
      by rw [vertexKey_toNat (inside.2.trans coherent.small)]⟩
  · intro edge
    rcases edge with ⟨key, member, same⟩
    cases same
    rcases (coherent.mem_out_keys live).mp member with ⟨idx, here⟩
    exact ⟨⟨⟨live.1, (coherent.ends here).2.1⟩, idx, by rwa [vertexKey_of_toNat]⟩, rfl⟩

/-- The predecessors that are left in the second loop have one key for each
edge to the vertex from another one. -/
theorem Coherent.card_into (coherent : g.Coherent) (live : g.Live vertex) :
    ((g.edges.filter (fun edge => ¬ edge.1 = vertex)).filter (fun edge => edge.2 = vertex)).card =
      ((g.predsWithout vertex).getD vertex ∅).size := by
  have small := live.1.trans coherent.small
  have injective : Function.Injective (fun key : UInt16 => (key.toNat, vertex)) :=
    fun left right same => UInt16.toNat_inj.mp (Prod.mk.inj same).1
  rw [← card_keys _ injective]
  congr 1
  ext ⟨source, target⟩
  rw [Finset.mem_filter, Finset.mem_filter, mem_edges coherent.small, List.mem_toFinset,
    List.mem_map]
  constructor
  · intro edge
    rcases edge with ⟨⟨⟨inside, isEdge⟩, different⟩, same⟩
    obtain rfl : target = vertex := same
    have sourceKey := vertexKey_toNat (inside.1.trans coherent.small)
    refine ⟨vertexKey source, (coherent.mem_into_keys live).mpr ⟨?_, isEdge⟩, by rw [sourceKey]⟩
    rw [Ne, ← toNat_eq_iff small, sourceKey]
    exact different
  · intro edge
    rcases edge with ⟨key, member, same⟩
    cases same
    rcases (coherent.mem_into_keys live).mp member with ⟨different, idx, here⟩
    rw [Ne, ← toNat_eq_iff small] at different
    exact ⟨⟨⟨⟨(coherent.ends here).1.1, live.1⟩, idx, by rwa [vertexKey_of_toNat]⟩, different⟩, rfl⟩

theorem Coherent.forget_edges (coherent : g.Coherent) (live : g.Live vertex) :
    (g.forget vertex).edges =
      (g.edges.filter (fun edge => ¬ edge.1 = vertex)).filter (fun edge => ¬ edge.2 = vertex) := by
  have small := live.1.trans coherent.small
  have sameSize : (g.forget vertex).size = g.size := by simp [forget_eq live, size]
  ext ⟨source, target⟩
  rw [Finset.mem_filter, Finset.mem_filter, mem_edges (sameSize ▸ coherent.small),
    mem_edges coherent.small, sameSize]
  simp only [(coherent.forget_index live _ _).1]
  constructor
  · intro edge
    rcases edge with ⟨inside, idx, here⟩
    split at here
    · cases here
    · rename_i other
      rw [not_or, ← toNat_eq_iff small, ← toNat_eq_iff small,
        vertexKey_toNat (inside.1.trans coherent.small),
          vertexKey_toNat (inside.2.trans coherent.small)] at other
      exact ⟨⟨⟨inside, idx, here⟩, other.1⟩, other.2⟩
  · intro edge
    rcases edge with ⟨⟨⟨inside, idx, here⟩, sourceOther⟩, targetOther⟩
    refine ⟨inside, idx, ?_⟩
    rw [if_neg, here]
    rw [not_or, ← toNat_eq_iff small, ← toNat_eq_iff small,
      vertexKey_toNat (inside.1.trans coherent.small),
      vertexKey_toNat (inside.2.trans coherent.small)]
    exact ⟨sourceOther, targetOther⟩

theorem foldl_cons (elts : List (UInt16 × Nat)) (free : List Nat) :
    elts.foldl (fun free elt => elt.2 :: free) free = (elts.map Prod.snd).reverse ++ free := by
  induction elts generalizing free with
  | nil => rfl
  | cons elt rest inductionHypothesis => simp [inductionHypothesis]

/-- The indices that `forget` puts on the stack are those of the edges from the
vertex. -/
theorem Coherent.mem_forget_freeWidx (coherent : g.Coherent) (live : g.Live vertex) {idx : Nat} :
    idx ∈ (g.forget vertex).freeWidx ↔
      (exists key, g.succ (vertexKey vertex) key = some idx) ∨ idx ∈ g.freeWidx := by
  rw [forget_eq live, foldl_cons, List.mem_append, List.mem_reverse, List.mem_map]
  refine or_congr_left ?_
  constructor
  · intro freed
    rcases freed with ⟨⟨key, _⟩, member, same⟩
    cases same
    refine ⟨key, ?_⟩
    rw [succ, indexAt_eq_of_nat (live.1.trans coherent.small)]
    exact Std.TreeMap.mem_toList_iff_getElem?_eq_some.mp member
  · intro edge
    rcases edge with ⟨key, here⟩
    rw [succ, indexAt_eq_of_nat (live.1.trans coherent.small)] at here
    exact ⟨(key, idx), Std.TreeMap.mem_toList_iff_getElem?_eq_some.mpr here, rfl⟩

theorem Coherent.nodup_forget_freeWidx (coherent : g.Coherent) (live : g.Live vertex) :
    (g.forget vertex).freeWidx.Nodup := by
  have small := live.1.trans coherent.small
  have atKey : forall {elt}, elt ∈ (g.succs.getD vertex ∅).toList ->
      g.succ (vertexKey vertex) elt.1 = some elt.2 := by
    intro elt member
    rw [succ, indexAt_eq_of_nat small]
    exact Std.TreeMap.mem_toList_iff_getElem?_eq_some.mp member
  rw [forget_eq live, foldl_cons, List.nodup_append']
  refine ⟨?_, coherent.freeWidx_nodup, ?_⟩
  · rw [List.nodup_reverse]
    refine List.Nodup.map_on ?_ ?_
    · intro first firstMember second secondMember same
      have keys := (coherent.index_injective (atKey firstMember) (same ▸ atKey secondMember)).2
      exact Prod.ext keys same
    · refine List.Nodup.of_map Prod.fst ?_
      rw [Std.TreeMap.map_fst_toList_eq_keys]
      exact Std.TreeMap.nodup_keys
  · intro idx used free
    rcases List.mem_map.mp (List.mem_reverse.mp used) with ⟨elt, member, rfl⟩
    exact coherent.index_used (atKey member) free

theorem Coherent.forget (coherent : g.Coherent) (inside : vertex < g.size) :
    (g.forget vertex).Coherent := by
  by_cases live : g.Live vertex
  · have small := live.1.trans coherent.small
    have index := coherent.forget_index live
    have sameSize : (g.forget vertex).size = g.size := by simp [forget_eq live, size]
    have ws : (g.forget vertex).ws = g.ws := by rw [forget_eq live]
    have freeId : (g.forget vertex).freeId = vertex :: g.freeId := by rw [forget_eq live]
    have kept : forall {source target idx}, (g.forget vertex).succ source target = some idx ->
        (source ≠ vertexKey vertex ∧ target ≠ vertexKey vertex) ∧
        g.succ source target = some idx := by
      intro source target idx here
      rw [(index source target).1] at here
      split at here
      · cases here
      · rename_i other
        exact ⟨not_or.mp other, here⟩
    refine
      { small := sameSize ▸ coherent.small, preds_length := ?_, isFree_length := ?_,
        mirror := ?_, ends := ?_
        index_lt := ?_, index_injective := ?_, index_used := ?_, freeWidx_lt := ?_
        freeWidx_nodup := coherent.nodup_forget_freeWidx live, mem_freeId := ?_, freeId_nodup := ?_
        edgeCount_eq := ?_ }
    · rw [sameSize, ← coherent.preds_length]
      simp [forget_eq live, predsWithout]
    · rw [sameSize, ← coherent.isFree_length]
      simp [forget_eq live]
    · intro source target
      rw [(index source target).1, (index source target).2, coherent.mirror]
    · intro source target idx here
      rcases kept here with ⟨⟨sourceOther, targetOther⟩, before⟩
      rw [Ne, ← toNat_eq_iff small] at sourceOther targetOther
      rw [coherent.forget_live live, coherent.forget_live live]
      exact ⟨⟨(coherent.ends before).1, sourceOther⟩, (coherent.ends before).2, targetOther⟩
    · intro source target idx here
      rw [ws]
      exact coherent.index_lt (kept here).2
    · intro source target source' target' idx here there
      exact coherent.index_injective (kept here).2 (kept there).2
    · intro source target idx here member
      rcases kept here with ⟨⟨sourceOther, _⟩, before⟩
      rcases (coherent.mem_forget_freeWidx live).mp member with ⟨key, same⟩ | old
      · exact sourceOther (coherent.index_injective before same).1
      · exact coherent.index_used before old
    · intro idx member
      rw [ws]
      rcases (coherent.mem_forget_freeWidx live).mp member with ⟨key, here⟩ | old
      · exact coherent.index_lt here
      · exact coherent.freeWidx_lt idx old
    · intro other
      rw [freeId, List.mem_cons, coherent.mem_freeId, coherent.forget_live live, sameSize]
      by_cases same : other = vertex
      · subst same
        simp [live.1]
      · simp [same]
    · rw [freeId, List.nodup_cons]
      exact ⟨fun member => ((coherent.mem_freeId vertex).mp member).2 live, coherent.freeId_nodup⟩
    · have outgoing := @Finset.card_filter_add_card_filter_not _ g.edges
        (fun edge => edge.1 = vertex) _ _
      have incoming := @Finset.card_filter_add_card_filter_not
        _ (g.edges.filter (fun edge => ¬ edge.1 = vertex))
        (fun edge => edge.2 = vertex) _ _
      rw [coherent.card_out live, ← coherent.edgeCount_eq] at outgoing
      rw [coherent.card_into live] at incoming
      have count : (g.forget vertex).edgeCount =
          g.edgeCount - (g.succs.getD vertex ∅).size -
          ((g.predsWithout vertex).getD vertex ∅).size := by
        rw [forget_eq live]
      rw [count, coherent.forget_edges live]
      omega
  · rw [forget_of_not_live live inside]
    exact coherent

end Forget

end SparseGraph
end Crab
end Prevail
