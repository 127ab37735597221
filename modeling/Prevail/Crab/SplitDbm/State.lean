import Prevail.Crab.GraphOps
import Prevail.Crab.IntervalArith
import Prevail.Crab.Linear

namespace Prevail
namespace Crab

open DifferenceBounds

/-!
# Difference bounds with a split normal form

`SplitDBM` of `crab/split_dbm.cpp`: the operations on one state.  A state is a
weighted graph whose vertices stand for variables, and whose vertex zero stands
for the number zero.  An edge of weight `w` from the vertex of `y` to the vertex
of `x` is the constraint `x - y <= w`.  The weights are unbounded, so the
conversions of numbers to weights always succeed and are left out.

An operation that returns `false` has no state here: the source leaves one
behind, but no caller looks at it.
-/

/-- `SplitDBM`.  The map from variables to vertices lists its entries in the
order of the variables; `potential` and `revMap` have an entry for each
vertex. -/
structure SplitDbm (V : Type) where
  vertMap : List (V × Nat)
  revMap : List (Option V)
  g : AdaptGraph
  potential : List Int
  unstable : List Nat

namespace SplitDbm

variable {V : Type} [LinearOrder V]

def top : SplitDbm V where
  vertMap := []
  revMap := [none]
  g := .ofSize 1
  potential := [0]
  unstable := []

variable (s : SplitDbm V)

def isTop : Bool := s.g.isEmpty

def tryAt (v : V) : Option Nat := s.vertMap.lookup v

/-- `vert_map_t::emplace`, which keeps an entry that is there. -/
def emplace (map : List (V × Nat)) (v : V) (vert : Nat) : List (V × Nat) :=
  if (map.lookup v).isSome then map
  else map.orderedInsert (fun left right => left.1 ≤ right.1) (v, vert)

/-- The potential of a vertex. -/
def potentialOf (vert : Nat) : Int := s.potential.getD vert 0

/-- A new vertex that stands for a variable, with its potential: the entries of
`potential` and `rev_map` are set or appended. -/
def allocate (v : V) (value : Int) : Nat × SplitDbm V :=
  let (vert, g) := s.g.newVertex
  if vert < s.revMap.length then
    (vert,
      { s with
        g := g
        potential := s.potential.set vert value
        revMap := s.revMap.set vert (some v) })
  else
    (vert, { s with g := g, potential := s.potential ++ [value], revMap := s.revMap ++ [some v] })

def getVert (v : V) : Nat × SplitDbm V :=
  match s.tryAt v with
  | some vert => (vert, s)
  | none =>
      let (vert, next) := s.allocate v 0
      (vert, { next with vertMap := emplace next.vertMap v vert })

def repairPotential (src dest : Nat) : Option (SplitDbm V) :=
  (GraphOps.repairPotential s.g.view s.potentialOf src dest).map (fun p =>
    { s with potential := (List.range s.potential.length).map p })

/-- The relations between variables that a widening left open:
`close_after_widen` without vertex zero. -/
def closeRelations : SplitDbm V :=
  { s with
    g := GraphOps.applyDelta s.g
      (GraphOps.closeAfterWiden (s.g.view.exclude 0) s.potentialOf
        (fun vert => decide (vert ∈ s.unstable))) }

/-- The bounds of all variables from the relations:
`close_after_assign` at vertex zero. -/
def closeBounds : SplitDbm V :=
  { s with g := GraphOps.applyDelta s.g (GraphOps.closeAfterAssign s.g.view s.potentialOf 0) }

def normalize : SplitDbm V :=
  if s.unstable.isEmpty then s else { s.closeRelations.closeBounds with unstable := [] }

/-! ## Bounds of variables and expressions -/

def lowerBound (vert : Nat) : Bound :=
  match s.g.lookup vert 0 with
  | some weight => .ofNumber (-weight)
  | none => .minusInfinity

def upperBound (vert : Nat) : Bound :=
  match s.g.lookup 0 vert with
  | some weight => .ofNumber weight
  | none => .plusInfinity

/-- `operator[]`, which is `get_interval` without a finite width. -/
def getInterval (x : V) : Interval :=
  match s.tryAt x with
  | some vert => .mk' (s.lowerBound vert) (s.upperBound vert)
  | none => .top

def evalInterval (e : LinearExpression V) : Interval :=
  e.variableTerms.foldl (fun sum term => sum.add ((s.getInterval term.1).scale term.2))
    (.ofNumber e.constantTerm)

def computeResidual (e : LinearExpression V) (pivot : V) : Interval :=
  e.variableTerms.foldl
    (fun residual term =>
      if term.1 = pivot then residual else residual.sub ((s.getInterval term.1).scale term.2))
    (.ofNumber (-e.constantTerm))

def potValue (v : V) : Int :=
  match s.tryAt v with
  | some vert => s.potentialOf vert
  | none => 0

/-- `eval_expression_overflow`: the value of an expression under the
potential. -/
def evalExpression (e : LinearExpression V) : Int :=
  e.variableTerms.foldl (fun sum term => sum + (s.potValue term.1 - s.potentialOf 0) * term.2)
    e.constantTerm

/-! ## Removal of a variable -/

/-- `operator-=`. -/
def remove (v : V) : SplitDbm V :=
  match s.tryAt v with
  | some vert =>
      normalize
        { s with
          g := s.g.forget vert
          revMap := s.revMap.set vert none
          vertMap := s.vertMap.filter (fun entry => decide (entry.1 ≠ v)) }
  | none => s

def forget (removed : List V) : SplitDbm V :=
  if s.isTop then s
  else normalize (removed.foldl (fun s v => if (s.tryAt v).isSome then s.remove v else s) s)

/-! ## Assignment of an interval -/

def set (x : V) (intv : Interval) : SplitDbm V :=
  let s := s.remove x
  if intv.IsTop then s
  else
    let (v, s) := s.getVert x
    let s := match intv.ub.number with
      | some ub =>
          { s with
            potential := s.potential.set v (s.potentialOf 0 + ub)
            g := s.g.setEdge 0 ub v }
      | none => s
    let s := match intv.lb.number with
      | some lb =>
          { s with
            potential := s.potential.set v (s.potentialOf 0 + lb)
            g := s.g.setEdge v (-lb) 0 }
      | none => s
    s.normalize

/-! ## Constraints -/

/-- What a linear inequality is broken into: `x - y <= k` for each `((x, y), k)`
of `csts`, `x >= lb` for each `(x, lb)` of `lbs`, `x <= ub` for each `(x, ub)` of
`ubs`. -/
structure DiffConstraints (V : Type) where
  csts : List ((V × V) × Int)
  lbs : List (V × Int)
  ubs : List (V × Int)

/-- The local variables of `diffcsts_of_lin_leq`.  A term is a coefficient, a
variable and the bound of the variable. -/
structure LinLeqTerms (V : Type) where
  expUb : Int
  unboundedLb : Option (V × Int)
  unboundedUb : Option (V × Int)
  posTerms : List ((Int × V) × Int)
  negTerms : List ((Int × V) × Int)

/-- One term of the expression in `diffcsts_of_lin_leq`.  There is no result for
a second variable without a bound on the same side. -/
def linLeqTerm (state : LinLeqTerms V) (term : V × Int) : Option (LinLeqTerms V) :=
  if 0 < term.2 then
    match (s.getInterval term.1).lb.number with
    | none => if state.unboundedLb.isSome then none else some { state with
      unboundedLb := some term }
    | some ymin => some
        { state with
          expUb := state.expUb - ymin * term.2
          posTerms := state.posTerms ++ [((term.2, term.1), ymin)] }
  else
    match (s.getInterval term.1).ub.number with
    | none =>
        if state.unboundedUb.isSome then none
          else some { state with unboundedUb := some (term.1, -term.2) }
    | some ymax => some
        { state with
          expUb := state.expUb - ymax * term.2
          negTerms := state.negTerms ++ [((-term.2, term.1), ymax)] }

/-- The constraints that follow from the terms. -/
def linLeqConstraints (terms : LinLeqTerms V) : DiffConstraints V :=
  match terms.unboundedLb, terms.unboundedUb with
  | some (x, lbCoeff), some (y, ubCoeff) =>
      ⟨if lbCoeff = 1 ∧ ubCoeff = 1 then [((x, y), terms.expUb)] else [], [], []⟩
  | some (x, lbCoeff), none =>
      ⟨if lbCoeff = 1 then terms.negTerms.map (fun neg => ((x, neg.1.2), terms.expUb - neg.2))
        else [], [], [(x, terms.expUb.tdiv lbCoeff)]⟩
  | none, some (y, ubCoeff) =>
      ⟨if ubCoeff = 1 then terms.posTerms.map (fun pos => ((pos.1.2, y), terms.expUb + pos.2))
        else [], [(y, (-terms.expUb).tdiv ubCoeff)], []⟩
  | none, none =>
      ⟨terms.negTerms.flatMap (fun neg =>
          terms.posTerms.map (fun pos => ((pos.1.2, neg.1.2), terms.expUb - neg.2 + pos.2))),
        terms.negTerms.map (fun neg => (neg.1.2, (-terms.expUb).tdiv neg.1.1 + neg.2)),
        terms.posTerms.map (fun pos => (pos.1.2, terms.expUb.tdiv pos.1.1 + pos.2))⟩

def diffcstsOfLinLeq (exp : LinearExpression V) : DiffConstraints V :=
  match exp.variableTerms.foldlM s.linLeqTerm ⟨-exp.constantTerm, none, none, [], []⟩ with
  | some terms => linLeqConstraints terms
  | none => ⟨[], [], []⟩

/-- One entry of `lbs` in `add_linear_leq`. -/
def addLowerBound (entry : V × Int) : Option (SplitDbm V) :=
  let (vert, s) := s.getVert entry.1
  if ∃ w ∈ s.g.lookup vert 0, w ≤ -entry.2 then some s
  else repairPotential { s with g := s.g.setEdge vert (-entry.2) 0 } vert 0

/-- One entry of `ubs` in `add_linear_leq`. -/
def addUpperBound (entry : V × Int) : Option (SplitDbm V) :=
  let (vert, s) := s.getVert entry.1
  if ∃ w ∈ s.g.lookup 0 vert, w ≤ entry.2 then some s
  else repairPotential { s with g := s.g.setEdge 0 entry.2 vert } 0 vert

/-- One entry of `csts` in `add_linear_leq`. -/
def addDifference (entry : (V × V) × Int) : Option (SplitDbm V) :=
  let (src, s) := s.getVert entry.1.2
  let (dest, s) := s.getVert entry.1.1
  (repairPotential { s with g := s.g.updateEdge src entry.2 dest } src dest).map (fun s =>
    { s with g := GraphOps.closeOverEdge s.g src dest })

def addLinearLeq (exp : LinearExpression V) : Option (SplitDbm V) := do
  let constraints := s.diffcstsOfLinLeq exp
  let s <- constraints.lbs.foldlM addLowerBound s
  let s <- constraints.ubs.foldlM addUpperBound s
  let s <- constraints.csts.foldlM addDifference s
  return s.closeBounds.normalize

def trimInterval (i : Interval) (n : Int) : Interval :=
  if i.lb = .ofNumber n then .mk' (.ofNumber (n + 1)) i.ub
  else if i.ub = .ofNumber n then .mk' i.lb (.ofNumber (n - 1))
  else if i.IsTop ∧ n = 0 then .range 1 IntType.uint64.max
  else i

/-- The part of `add_univar_disequation` that strengthens a lower bound, with the
bounds of the variables that are bounded by this one. -/
def strengthenLb (v : Nat) (weight : Int) : Option (SplitDbm V) :=
  if ∃ w ∈ s.g.lookup v 0, weight < w then do
    let s <- repairPotential { s with g := s.g.setEdge v weight 0 } v 0
    (s.g.view.ePreds v).foldlM (fun s edge =>
      if edge.1 = 0 then some s
      else repairPotential { s with g := s.g.updateEdge edge.1 (edge.2 + weight) 0 } edge.1 0) s
  else some s

/-- The part of `add_univar_disequation` that strengthens an upper bound. -/
def strengthenUb (v : Nat) (weight : Int) : Option (SplitDbm V) :=
  if ∃ w ∈ s.g.lookup 0 v, weight < w then do
    let s <- repairPotential { s with g := s.g.setEdge 0 weight v } 0 v
    (s.g.view.eSuccs v).foldlM (fun s edge =>
      if edge.1 = 0 then some s
      else repairPotential { s with g := s.g.updateEdge 0 (edge.2 + weight) edge.1 } 0 edge.1) s
  else some s

def addUnivarDisequation (x : V) (n : Int) : Option (SplitDbm V) :=
  let i := s.getInterval x
  let newI := trimInterval i n
  if newI.IsBottom then none
  else if newI.IsTop ∨ ¬ newI ≤ i then some s
  else do
    let (v, s) := s.getVert x
    let s <- match newI.lb.number with
      | some lb => s.strengthenLb v (-lb)
      | none => some s
    let s <- match newI.ub.number with
      | some ub => s.strengthenUb v ub
      | none => some s
    return s.normalize

/-- One term of a disequation in `add_constraint`. -/
def addDisequationTerm (e : LinearExpression V) (s : SplitDbm V) (term : V × Int) :
    Option (SplitDbm V) :=
  match ((s.computeResidual e term.1).divide term.2).singleton with
  | some k => s.addUnivarDisequation term.1 k
  | none => some s

def addConstraint (cst : LinearConstraint V) : Option (SplitDbm V) :=
  if cst.isTautology then some s
  else if cst.isContradiction then none
  else
    match cst.kind with
    | .lessThanOrEqualsZero => (s.addLinearLeq cst.expression).map normalize
    | .lessThanZero => (s.addLinearLeq (cst.expression.plus (.const 1))).map normalize
    | .equalsZero => do
        let s <- s.addLinearLeq cst.expression
        let s <- s.addLinearLeq cst.expression.negate
        return s.normalize
    | .notZero => (cst.expression.variableTerms.foldlM (addDisequationTerm cst.expression)
      s).map normalize

/-! ## Assignment of an expression -/

/-- The local variables of `diffcsts_of_assign`. -/
structure AssignTerms (V : Type) where
  residual : Int
  unboundedVar : Option V
  terms : List (V × Int)

/-- One term of the expression in `diffcsts_of_assign`. -/
def assignTerm (extractUpperBounds : Bool) (state : AssignTerms V) (term : V × Int) :
    Option (AssignTerms V) :=
  let yVal := s.getInterval term.1
  if term.2 < 0 then
    match (if extractUpperBounds then yVal.lb else yVal.ub).number with
    | none => none
    | some n => some { state with residual := state.residual + n * term.2 }
  else
    match (if extractUpperBounds then yVal.ub else yVal.lb).number with
    | none =>
        if state.unboundedVar.isSome ∨ term.2 ≠ 1 then none
          else some { state with unboundedVar := some term.1 }
    | some n => some
        { state with
          residual := state.residual + n * term.2
          terms := state.terms ++ [(term.1, n)] }

def diffcstsOfAssign (exp : LinearExpression V) (extractUpperBounds : Bool) : List (V × Int) :=
  match exp.variableTerms.foldlM (s.assignTerm extractUpperBounds) ⟨exp.constantTerm, none, []⟩ with
  | none => []
  | some ⟨residual, some unboundedVar, _⟩ => [(unboundedVar, residual)]
  | some ⟨residual, none, terms⟩ => terms.map (fun term => (term.1, residual - term.2))

/-- One lower difference of an assignment, as an edge out of the new vertex. -/
def lowerDelta (vert : Nat) (state : SplitDbm V × GraphOps.EdgeVector) (diff : V × Int) :
    SplitDbm V × GraphOps.EdgeVector :=
  let (other, s) := state.1.getVert diff.1
  (s, state.2 ++ [(vert, other, -diff.2)])

/-- One upper difference of an assignment, as an edge into the new vertex. -/
def upperDelta (vert : Nat) (state : SplitDbm V × GraphOps.EdgeVector) (diff : V × Int) :
    SplitDbm V × GraphOps.EdgeVector :=
  let (other, s) := state.1.getVert diff.1
  (s, state.2 ++ [(other, vert, diff.2)])

/-- The part of `assign` that works with a vertex of its own for the new value
of the variable, up to the point where this vertex replaces the old one. -/
def assignVertex (lhs : V) (e : LinearExpression V) (value : Interval)
    (lower upper : List (V × Int)) :
    Nat × SplitDbm V :=
  let (vert, s) := s.allocate lhs (s.potentialOf 0 + s.evalExpression e)
  let (s, delta) := lower.foldl (lowerDelta vert) (s, [])
  let (s, delta) := upper.foldl (upperDelta vert) (s, delta)
  let g := GraphOps.applyDelta s.g delta
  let g := GraphOps.applyDelta g (GraphOps.closeAfterAssign (g.view.exclude 0) s.potentialOf vert)
  let g := match value.lb.number with
    | some lb => g.updateEdge vert (-lb) 0
    | none => g
  let g := match value.ub.number with
    | some ub => g.updateEdge 0 ub vert
    | none => g
  (vert, { s with g := g })

def assign (lhs : V) (e : LinearExpression V) : SplitDbm V :=
  let value := s.evalInterval e
  if value.lb = value.ub then (s.set lhs value).normalize
  else
    let upper := s.diffcstsOfAssign e true
    let lower := s.diffcstsOfAssign e false
    if lower = [] ∧ upper = [] then (s.set lhs value).normalize
    else
      let (vert, s) := s.assignVertex lhs e value lower upper
      let s := s.remove lhs
      normalize { s with vertMap := emplace s.vertMap lhs vert }

/-! ## Entailment -/

def intersect (cst : LinearConstraint V) : Bool :=
  if cst.isContradiction then false
  else if s.isTop || cst.isTautology then true
  else (s.addConstraint cst).isSome

def entailAux (cst : LinearConstraint V) : Bool := (s.addConstraint cst.negate).isNone

/-- The answer that the interval of the expression gives in `entail`. -/
def entailInterval (kind : ConstraintKind) (interval : Interval) : Bool :=
  match kind with
  | .equalsZero => decide (interval.singleton = some 0)
  | .lessThanOrEqualsZero => decide (interval.ub ≤ .ofNumber 0)
  | .lessThanZero => decide (interval.ub < .ofNumber 0)
  | .notZero => decide (interval.ub < .ofNumber 0) || decide (interval.lb > .ofNumber 0)

def entail (rhs : LinearConstraint V) : Bool :=
  if rhs.isTautology then true
  else if rhs.isContradiction then false
  else if entailInterval rhs.kind (s.evalInterval rhs.expression) then true
  else if rhs.kind = .equalsZero then
    s.entailAux ⟨rhs.expression, .lessThanOrEqualsZero⟩ &&
      s.entailAux ⟨rhs.expression.negate, .lessThanOrEqualsZero⟩
  else s.entailAux rhs

end SplitDbm

end Crab
end Prevail
