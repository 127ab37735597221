import Prevail.Crab.SplitDbm.State

namespace Prevail
namespace Crab
namespace SplitDbm

/-!
# Inclusion, join and widening of difference bounds

The operations of `SplitDBM` on two states.  The join and the widening number
the common variables from one in the order of the variables, and see both
operands through this numbering.
-/

variable {V : Type} [LinearOrder V] (s o : SplitDbm V)

/-- The vertex of the left state that a vertex of the right state stands for in
`operator<=`.  It is looked up for the ends of edges only, which have one. -/
def renameVertex (vert : Nat) : Nat :=
  if vert = 0 then 0
  else ((o.vertMap.find? (fun entry => entry.2 == vert)).bind (fun entry => s.tryAt entry.1)).getD 0

/-- One edge of the right state in `operator<=`: an edge of the left state or
the sum of two bounds is as low. -/
def impliesEdge (x y : Nat) (weight : Int) : Bool :=
  decide (∃ w ∈ s.g.lookup x y, w ≤ weight) ||
    decide (∃ wx ∈ s.g.lookup x 0, ∃ wy ∈ s.g.lookup 0 y, wx + wy ≤ weight)

/-- `operator<=`. -/
def leq : Bool :=
  if o.isTop then true
  else if s.isTop then false
  else if s.vertMap.length < o.vertMap.length then false
  else
    o.vertMap.all (fun entry => o.g.isIsolated entry.2 || (s.tryAt entry.1).isSome) &&
      o.g.view.verts.all (fun ox => (o.g.view.eSuccs ox).all (fun edge =>
        s.impliesEdge (renameVertex s o ox) (renameVertex s o edge.1) edge.2))

/-- The variables that both states map, with their vertices. -/
def common : List (V × Nat × Nat) :=
  s.vertMap.filterMap (fun entry => (o.tryAt entry.1).map (fun vert => (entry.1, entry.2, vert)))

/-- `perm_x`. -/
def permLeft : List (Option Nat) := some 0 :: (common s o).map (fun entry => some entry.2.1)

/-- `perm_y`. -/
def permRight : List (Option Nat) := some 0 :: (common s o).map (fun entry => some entry.2.2)

/-- `out_vmap`. -/
def outVertMap : List (V × Nat) := ((common s o).zipIdx 1).map (fun entry => (entry.1.1, entry.2))

def outRevMap : List (Option V) := none :: (common s o).map (fun entry => some entry.1)

/-- `pot_rx`: the potential of the left state, relative to vertex zero. -/
def potLeft : List Int :=
  0 :: (common s o).map (fun entry => s.potentialOf entry.2.1 - s.potentialOf 0)

/-- `pot_ry`. -/
def potRight : List Int :=
  0 :: (common s o).map (fun entry => o.potentialOf entry.2.2 - o.potentialOf 0)

/-! ## Join -/

/-- The deferred relations: where one operand has a relation, the bounds of the
other one as a relation. -/
def deferred (relations bounds : GraphView) : AdaptGraph where
  size := relations.size
  freeId := []
  lookup source target :=
    if ((relations.exclude 0).lookup source target).isSome then
      match bounds.lookup source 0, bounds.lookup 0 target with
      | some lower, some upper => some (lower + upper)
      | _, _ => none
    else none

/-- An operand with the deferred relations, closed again. -/
def closeDeferred (operand : GraphView) (p : Nat -> Int) (relations : GraphView) : AdaptGraph :=
  let g := GraphOps.meet operand relations
  GraphOps.applyDelta g (GraphOps.closeAfterMeet (g.view.exclude 0) p operand relations)

/-- Both operands have the weight, and the left one is lower. -/
def isLower (left right : Option Int) : Bool :=
  match left, right with
  | some leftWeight, some rightWeight => decide (leftWeight < rightWeight)
  | _, _ => false

/-- The relation between a vertex of `lbs` and one of `ubs` that the bounds of
each operand imply. -/
def addIndependent (gx gy : GraphView) (lbs ubs : List Nat) (g : AdaptGraph) : AdaptGraph :=
  lbs.foldl (fun g source => ubs.foldl (fun g target =>
      if source = target then g
      else
        g.updateEdge source
          (max (gx.edgeVal source 0 + gx.edgeVal 0 target)
            (gy.edgeVal source 0 + gy.edgeVal 0 target)) target) g) g

def joinGraph (gx gy : GraphView) (potX potY : Nat -> Int) : AdaptGraph :=
  let rx := closeDeferred gx potX (deferred gy gx).view
  let ry := closeDeferred gy potY (deferred gx gy).view
  let verts := (gx.exclude 0).verts
  let ubUp := verts.filter (fun v => isLower (gx.lookup 0 v) (gy.lookup 0 v))
  let ubDown := verts.filter (fun v => isLower (gy.lookup 0 v) (gx.lookup 0 v))
  let lbDown := verts.filter (fun v => isLower (gx.lookup v 0) (gy.lookup v 0))
  let lbUp := verts.filter (fun v => isLower (gy.lookup v 0) (gx.lookup v 0))
  addIndependent gx gy lbDown ubDown
    (addIndependent gx gy lbUp ubUp (GraphOps.join rx.view ry.view))

/-- Garbage collection of one vertex: the variable of a vertex without edges is
dropped. -/
def collect (s : SplitDbm V) (vert : Nat) : SplitDbm V :=
  if vert ≠ 0 ∧ s.g.isIsolated vert then
    { s with
      g := s.g.forget vert
      vertMap :=
        match s.revMap[vert]? with
        | some (some v) => s.vertMap.filter (fun entry => decide (entry.1 ≠ v))
        | _ => s.vertMap
      revMap := s.revMap.set vert none }
  else s

/-- The state of the join before garbage collection. -/
def joinState : SplitDbm V where
  vertMap := outVertMap s o
  revMap := outRevMap s o
  g := joinGraph (s.g.view.permute (permLeft s o)) (o.g.view.permute (permRight s o))
    (fun vert => (potLeft s o).getD vert 0) (fun vert => (potRight s o).getD vert 0)
  potential := potLeft s o
  unstable := []

/-- `operator|`. -/
def join : SplitDbm V :=
  if o.isTop then o
  else if s.isTop then s
  else normalize ((joinState s o).g.view.verts.foldl collect (joinState s o))

/-! ## Widening -/

/-- The state of the widening as the constructor receives it. -/
def widenState : SplitDbm V :=
  let widened := GraphOps.widen (s.g.view.permute (permLeft s o))
    (o.g.view.permute (permRight s o)) s.unstable
  { vertMap := outVertMap s o
    revMap := outRevMap s o
    g := widened.1
    potential := potLeft s o
    unstable := widened.2 }

def widen : SplitDbm V := normalize (widenState s o)

end SplitDbm
end Crab
end Prevail
