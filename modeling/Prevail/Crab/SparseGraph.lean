import Mathlib
import Prevail.Crab.AdaptGraph

namespace Prevail
namespace Crab

/-!
# The storage of a sparse graph

`AdaptGraph` of `crab_utils/adapt_sgraph.hpp` with the fields of the source.
Two vectors of maps hold the successors and the predecessors of each vertex.  A
map leads from a neighbour to an index into the vector of weights, and the two
maps of an edge share the index.  Indices and vertices that are not in use any
more are kept on two stacks, which are lists with their tops in front.

The keys of the maps have sixteen bits, and a vertex id is cut to them wherever
it is used as a key.
-/

abbrev TreeSMap := Std.TreeMap UInt16 Nat

abbrev vertexKey (vertex : Nat) : UInt16 := UInt16.ofNat vertex

/-- `AdaptGraph`, as it is stored. -/
structure SparseGraph where
  preds : List TreeSMap
  succs : List TreeSMap
  ws : List Int
  edgeCount : Nat
  isFree : List Bool
  freeId : List Nat
  freeWidx : List Nat

namespace SparseGraph

/-- The graph of the default constructor. -/
def empty : SparseGraph := ⟨[], [], [], 0, [], [], []⟩

variable (g : SparseGraph)

def size : Nat := g.succs.length

def newVertex : Nat × SparseGraph :=
  match g.freeId with
  | vertex :: rest => (vertex, { g with freeId := rest, isFree := g.isFree.set vertex false })
  | [] =>
      (g.size,
        { g with
          isFree := g.isFree ++ [false]
          succs := g.succs ++ [∅]
          preds := g.preds ++ [∅] })

theorem newVertex_progress (target : Nat) (short : g.size < target) :
    target - g.newVertex.2.size + g.newVertex.2.freeId.length < target - g.size +
      g.freeId.length := by
  unfold newVertex
  split
  · rename_i vertex rest form
    simp only [size, form, List.length_cons]
    omega
  · rename_i form
    simp only [size] at short ⊢
    simp only [form, List.length_append, List.length_singleton, List.length_nil]
    omega

def growTo (target : Nat) (g : SparseGraph) : SparseGraph :=
  if g.size < target then growTo target g.newVertex.2 else g
termination_by target - g.size + g.freeId.length
decreasing_by exact newVertex_progress g target (by assumption)

/-- The maps of some vertices without the key of another vertex. -/
def removeKey (vertex : Nat) (keys : List UInt16) (maps : List TreeSMap) : List TreeSMap :=
  keys.foldl (fun maps key => maps.modify key.toNat (fun map => map.erase (vertexKey vertex))) maps

def forget (vertex : Nat) : SparseGraph :=
  if g.isFree.getD vertex true then g
  else
    let out := g.succs.getD vertex ∅
    let preds := removeKey vertex out.keys g.preds
    let into := preds.getD vertex ∅
    { g with
      freeWidx := out.toList.foldl (fun free elt => elt.2 :: free) g.freeWidx
      succs := removeKey vertex into.keys (g.succs.set vertex ∅)
      preds := preds.set vertex ∅
      edgeCount := g.edgeCount - out.size - into.size
      isFree := g.isFree.set vertex true
      freeId := vertex :: g.freeId }

def elem (source target : Nat) : Bool := (g.succs.getD source ∅).contains (vertexKey target)

def lookup (source target : Nat) : Option Int :=
  match (g.succs.getD source ∅)[vertexKey target]? with
  | some idx => g.ws[idx]?
  | none => none

/-- `edge_val`, which is undefined without an edge. -/
def edgeVal (source target : Nat) : Option Int :=
  (g.succs.getD source ∅)[vertexKey target]?.bind (fun idx => g.ws[idx]?)

/-- The index for a new weight, with the vector and the stack behind it. -/
def allocate (weight : Int) : Nat × List Int × List Nat :=
  match g.freeWidx with
  | idx :: rest => (idx, g.ws.set idx weight, rest)
  | [] => (g.ws.length, g.ws ++ [weight], [])

def addEdge (source : Nat) (weight : Int) (target : Nat) : SparseGraph :=
  let (idx, ws, freeWidx) := g.allocate weight
  { g with
    ws := ws
    freeWidx := freeWidx
    succs := g.succs.modify source (fun map => map.insert (vertexKey target) idx)
    preds := g.preds.modify target (fun map => map.insert (vertexKey source) idx)
    edgeCount := g.edgeCount + 1 }

def updateEdge (source : Nat) (weight : Int) (target : Nat) : SparseGraph :=
  match (g.succs.getD source ∅)[vertexKey target]? with
  | some idx => { g with ws := g.ws.modify idx (fun old => min old weight) }
  | none => g.addEdge source weight target

def setEdge (source : Nat) (weight : Int) (target : Nat) : SparseGraph :=
  match (g.succs.getD source ∅)[vertexKey target]? with
  | some idx => { g with ws := g.ws.set idx weight }
  | none => g.addEdge source weight target

/-! ## Maps of vertices -/

/-- The index under a neighbour in the map of a vertex. -/
def indexAt (maps : List TreeSMap) (vertex neighbour : UInt16) : Option Nat :=
  (maps.getD vertex.toNat ∅)[neighbour]?

theorem vertexKey_toNat {vertex : Nat} (small : vertex < 65536) :
    (vertexKey vertex).toNat = vertex := by
  rw [UInt16.toNat_ofNat']
  exact Nat.mod_eq_of_lt small

theorem vertexKey_of_toNat (key : UInt16) : vertexKey key.toNat = key := UInt16.ofNat_toNat

theorem toNat_eq_iff {vertex : Nat} (small : vertex < 65536) {key : UInt16} :
    key.toNat = vertex ↔ key = vertexKey vertex := by
  rw [← UInt16.toNat_inj, vertexKey_toNat small]

section Maps

variable {maps : List TreeSMap} {vertex idx : Nat} {source target key : UInt16}

theorem indexAt_eq_of_nat (small : vertex < 65536) :
    indexAt maps (vertexKey vertex) target = (maps.getD vertex ∅)[target]? := by
  rw [indexAt, vertexKey_toNat small]

theorem mem_keys_iff {map : TreeSMap} : key ∈ map.keys ↔ exists idx, map[key]? = some idx := by
  rw [Std.TreeMap.mem_keys, Std.TreeMap.mem_iff_isSome_getElem?, Option.isSome_iff_exists]

theorem indexAt_modify_insert (inside : vertex < maps.length) :
    indexAt (maps.modify vertex (fun map => map.insert key idx)) source target =
      if source.toNat = vertex ∧ target = key then some idx else indexAt maps source target := by
  simp only [indexAt, List.getD_eq_getElem?_getD, List.getElem?_modify]
  by_cases same : vertex = source.toNat
  · subst same
    rw [List.getElem?_eq_getElem inside]
    simp [Std.TreeMap.getElem?_insert, @eq_comm _ target key]
  · have different : ¬ source.toNat = vertex := fun equal => same equal.symm
    simp [same, different]

theorem indexAt_modify_erase :
    indexAt (maps.modify vertex (fun map => map.erase key)) source target =
      if source.toNat = vertex ∧ target = key then none else indexAt maps source target := by
  simp only [indexAt, List.getD_eq_getElem?_getD, List.getElem?_modify]
  by_cases same : vertex = source.toNat
  · subst same
    rcases maps[source.toNat]? with _ | map
    · simp
    · simp [Std.TreeMap.getElem?_erase, @eq_comm _ target key]
  · have different : ¬ source.toNat = vertex := fun equal => same equal.symm
    simp [same, different]

theorem indexAt_removeKey {keys : List UInt16} :
    indexAt (removeKey vertex keys maps) source target =
      if source ∈ keys ∧ target = vertexKey vertex then none else indexAt maps source target := by
  induction keys generalizing maps with
  | nil => simp [removeKey]
  | cons first rest inductionHypothesis =>
      have unfolded : removeKey vertex (first :: rest) maps =
          removeKey vertex rest (maps.modify first.toNat
            (fun map => map.erase (vertexKey vertex))) := rfl
      rw [unfolded, inductionHypothesis, indexAt_modify_erase]
      simp only [UInt16.toNat_inj]
      by_cases here : source = first <;> by_cases there : source ∈ rest <;>
        by_cases cut : target = vertexKey vertex <;> simp [here, there, cut]

theorem indexAt_set_empty :
    indexAt (maps.set vertex ∅) source target =
      if source.toNat = vertex then none else indexAt maps source target := by
  simp only [indexAt, List.getD_eq_getElem?_getD, List.getElem?_set]
  by_cases same : vertex = source.toNat
  · subst same
    by_cases inside : source.toNat < maps.length <;> simp [inside]
  · have different : ¬ source.toNat = vertex := fun equal => same equal.symm
    simp [same, different]

theorem indexAt_append_empty :
    indexAt (maps ++ [∅]) source target = indexAt maps source target := by
  simp only [indexAt, List.getD_eq_getElem?_getD]
  rcases lt_trichotomy source.toNat maps.length with inside | last | outside
  · rw [List.getElem?_append_left inside]
  · rw [last, List.getElem?_concat_length, List.getElem?_eq_none (le_refl _)]
    rfl
  · rw [List.getElem?_eq_none (by simpa using outside), List.getElem?_eq_none (by omega)]

@[simp] theorem length_removeKey {keys : List UInt16} :
    (removeKey vertex keys maps).length = maps.length := by
  induction keys generalizing maps with
  | nil => rfl
  | cons first rest inductionHypothesis => exact inductionHypothesis.trans (List.length_modify ..)

end Maps

end SparseGraph
end Crab
end Prevail
