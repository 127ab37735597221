import Prevail.Crab.SplitDbm.AddBottomConstraint
import Prevail.Crab.SplitDbm.AssignBounds
import Prevail.Crab.SplitDbm.Join

namespace Prevail
namespace Crab

open DifferenceBounds

/-!
# Bounds that constraints and joins keep

A constraint adds vertices and lowers edges, so that the bounds of all variables stay as
tight as they were.  A join keeps the bounds that both operands have.
-/

variable {V : Type} [LinearOrder V]

namespace SplitDbm

/-- Variables keep their vertices, and no edge becomes weaker. -/
structure Strengthens (s next : SplitDbm V) : Prop where
  tryAt : forall x vert, s.tryAt x = some vert -> next.tryAt x = some vert
  kept : forall source target weight, s.g.lookup source target = some weight ->
    ∃ lower ≤ weight, next.g.lookup source target = some lower

variable {s next last : SplitDbm V} {x : V} {intv : Interval}

namespace Strengthens

omit [LinearOrder V] in
theorem refl [LinearOrder V] (s : SplitDbm V) : Strengthens s s :=
  ⟨fun _ _ => id, fun _ _ weight here => ⟨weight, le_rfl, here⟩⟩

theorem trans (first : Strengthens s next) (second : Strengthens next last) :
    Strengthens s last := by
  refine ⟨fun x vert found => second.tryAt x vert (first.tryAt x vert found), ?_⟩
  intro source target weight here
  rcases first.kept _ _ _ here with ⟨lower, lowerLe, there⟩
  rcases second.kept _ _ _ there with ⟨least, leastLe, kept⟩
  exact ⟨least, leastLe.trans lowerLe, kept⟩

theorem hasBounds (strengthens : Strengthens s next) (has : HasBounds s x intv) :
    HasBounds next x intv :=
  has.mono (strengthens.tryAt x) (fun _ source target weight _ _ =>
    strengthens.kept source target weight)

theorem of_tightens (sameVertices : next.vertMap = s.vertMap)
    (tightens : Tightens s.g.lookup next.g.lookup) :
    Strengthens s next := by
  refine ⟨fun x vert found => ?_, tightens.kept⟩
  rw [SplitDbm.tryAt, sameVertices]
  exact found

theorem normalize (strengthens : Strengthens s next) : Strengthens s next.normalize :=
  strengthens.trans (.of_tightens (normalize_vertMap _) (normalize_tightens _))

theorem getVert (invariant : Invariant s) (x : V) : Strengthens s (s.getVert x).2 := by
  constructor
  · intro y vert found
    exact (tryAt_getVert invariant.wellFormed x y vert).mpr (Or.inr found)
  · intro source target weight here
    rw [getVert_lookup]
    exact ⟨weight, le_rfl, here⟩

/-- A lower edge, with the repair of the potential. -/
theorem setEdge {src dest : Nat} {weight : Int}
    (below : forall old, s.g.lookup src dest = some old -> weight ≤ old)
    (result : repairPotential { s with g := s.g.setEdge src weight dest } src dest = some next) :
    Strengthens s next := by
  rcases repairPotential_eq result with ⟨p, _, rfl⟩
  refine ⟨fun _ _ => id, ?_⟩
  intro source target old here
  by_cases same : source = src ∧ target = dest
  · rcases same with ⟨rfl, rfl⟩
    exact ⟨weight, below old here, set_self⟩
  · exact ⟨old, le_rfl, (set_of_ne same).trans here⟩

theorem updateEdge {src dest : Nat} {weight : Int}
    (result : repairPotential { s with g := s.g.updateEdge src weight dest } src dest = some next) :
    Strengthens s next := by
  rcases repairPotential_eq result with ⟨p, _, rfl⟩
  exact ⟨fun _ _ => id, fun _ _ _ here => updateEdge_kept here src dest weight⟩

/-- A loop of steps that keep the invariant. -/
theorem foldlM {Entry : Type} {f : SplitDbm V -> Entry -> Option (SplitDbm V)}
    {entries : List Entry}
    (step : forall state entry next, Invariant state -> f state entry = some next ->
      Invariant next ∧ Strengthens state next)
    (invariant : Invariant s) (run : entries.foldlM f s = some last) : Invariant last ∧
      Strengthens s last := by
  refine @foldlM_invariant V _ _ _ (fun state => Invariant state ∧ Strengthens s state) _ _ ?_
    ⟨invariant, refl s⟩ run
  intro state entry _ next holds result
  have kept := step state entry next holds.1 result
  exact ⟨kept.1, holds.2.trans kept.2⟩

end Strengthens

/-! ## Constraints -/

section Constraints

theorem addLowerBound_strengthens (invariant : Invariant s) {entry : V × Int}
    (result : s.addLowerBound entry = some next) : Strengthens s next := by
  have vertices := Strengthens.getVert invariant entry.1
  unfold addLowerBound at result
  dsimp only at result
  split at result
  · cases result
    exact vertices
  · rename_i absent
    refine vertices.trans (.setEdge ?_ result)
    intro old here
    by_contra lower
    exact absent ⟨old, here, by omega⟩

theorem addUpperBound_strengthens (invariant : Invariant s) {entry : V × Int}
    (result : s.addUpperBound entry = some next) : Strengthens s next := by
  have vertices := Strengthens.getVert invariant entry.1
  unfold addUpperBound at result
  dsimp only at result
  split at result
  · cases result
    exact vertices
  · rename_i absent
    refine vertices.trans (.setEdge ?_ result)
    intro old here
    by_contra lower
    exact absent ⟨old, here, by omega⟩

theorem addDifference_strengthens (invariant : Invariant s) {entry : (V × V) × Int}
    (result : s.addDifference entry = some next) : Strengthens s next := by
  have first := Strengthens.getVert invariant entry.1.2
  have second := Strengthens.getVert (invariant.getVert entry.1.2) entry.1.1
  unfold addDifference at result
  dsimp only at result
  rcases Option.map_eq_some_iff.mp result with ⟨between, repaired, rfl⟩
  have third := Strengthens.updateEdge repaired
  refine (first.trans second).trans (third.trans (.of_tightens rfl ?_))
  rcases updateEdge_added (((s.getVert entry.1.2).2).getVert entry.1.1).2.g (s.getVert entry.1.2).1
    (((s.getVert entry.1.2).2).getVert entry.1.1).1 entry.2 with ⟨lower, _, new⟩
  have added : between.g.lookup (s.getVert entry.1.2).1
      ((s.getVert entry.1.2).2.getVert entry.1.1).1 = some lower := by
    rw [repairPotential_g repaired]
    exact new
  exact GraphOps.closeOverEdge_tightens added

theorem addLinearLeq_strengthens (invariant : Invariant s) {exp : LinearExpression V}
    (result : s.addLinearLeq exp = some next) : Invariant next ∧ Strengthens s next := by
  unfold addLinearLeq at result
  rcases Option.bind_eq_some_iff.mp result with ⟨lower, lowerRun, result⟩
  rcases Option.bind_eq_some_iff.mp result with ⟨upper, upperRun, result⟩
  rcases Option.bind_eq_some_iff.mp result with ⟨differences, run, same⟩
  cases same
  have first := Strengthens.foldlM (fun state entry next invariant result =>
    ⟨(addLowerBound_refines invariant entry).invariant result,
      addLowerBound_strengthens invariant result⟩)
    invariant lowerRun
  have second := Strengthens.foldlM (fun state entry next invariant result =>
    ⟨(addUpperBound_refines invariant entry).invariant result,
      addUpperBound_strengthens invariant result⟩)
    first.1 upperRun
  have third := Strengthens.foldlM (fun state entry next invariant result =>
    ⟨(addDifference_refines invariant entry).invariant result,
      addDifference_strengthens invariant result⟩)
    second.1 run
  refine ⟨third.1.closeBounds.normalize, ?_⟩
  have closed : Strengthens differences differences.closeBounds :=
    .of_tightens rfl (closeBounds_tightens _)
  exact ((first.2.trans second.2).trans third.2).trans closed.normalize

/-! ### Disequations -/

theorem strengthenLb_strengthens {v : Nat} {weight : Int}
    (result : s.strengthenLb v weight = some next) :
    Strengthens s next := by
  unfold strengthenLb at result
  split at result
  · rename_i guard
    rcases guard with ⟨bound, here, lower⟩
    rw [Option.bind_eq_bind, Option.bind_eq_some_iff] at result
    rcases result with ⟨first, edge, run⟩
    have start : Strengthens s first := by
      refine .setEdge (fun old there => ?_) edge
      rw [Option.mem_def.mp here] at there
      exact (Option.some.inj there) ▸ lower.le
    refine @foldlM_invariant V _ _ _ (fun state => Strengthens s state) _ _ ?_ start run
    intro state pred _ last strengthens step
    split at step
    · cases step
      exact strengthens
    · exact strengthens.trans (.updateEdge step)
  · cases result
    exact .refl s

theorem strengthenUb_strengthens {v : Nat} {weight : Int}
    (result : s.strengthenUb v weight = some next) :
    Strengthens s next := by
  unfold strengthenUb at result
  split at result
  · rename_i guard
    rcases guard with ⟨bound, here, lower⟩
    rw [Option.bind_eq_bind, Option.bind_eq_some_iff] at result
    rcases result with ⟨first, edge, run⟩
    have start : Strengthens s first := by
      refine .setEdge (fun old there => ?_) edge
      rw [Option.mem_def.mp here] at there
      exact (Option.some.inj there) ▸ lower.le
    refine @foldlM_invariant V _ _ _ (fun state => Strengthens s state) _ _ ?_ start run
    intro state succ _ last strengthens step
    split at step
    · cases step
      exact strengthens
    · exact strengthens.trans (.updateEdge step)
  · cases result
    exact .refl s

theorem applyBounds_strengthens {v : Nat} {newI : Interval}
    (result : s.applyBounds v newI = some next) :
    Strengthens s next := by
  rcases Option.map_eq_some_iff.mp result with ⟨upper, run, rfl⟩
  rw [Option.bind_eq_bind, Option.bind_eq_some_iff] at run
  rcases run with ⟨middle, lowerRun, upperRun⟩
  have first : Strengthens s middle := by
    unfold raiseLower at lowerRun
    split at lowerRun
    · exact strengthenLb_strengthens lowerRun
    · cases lowerRun
      exact .refl s
  have second : Strengthens middle upper := by
    unfold lowerUpper at upperRun
    split at upperRun
    · exact strengthenUb_strengthens upperRun
    · cases upperRun
      exact .refl _
  exact (first.trans second).normalize

theorem addDisequationTerm_strengthens {e : LinearExpression V} (invariant : Invariant s)
    {term : V × Int} (result : addDisequationTerm e s term = some next) : Strengthens s next := by
  unfold addDisequationTerm at result
  split at result
  · rw [addUnivarDisequation_eq] at result
    split at result
    · cases result
    · split at result
      · cases result
        exact .refl s
      · exact (Strengthens.getVert invariant term.1).trans (applyBounds_strengthens result)
  · cases result
    exact .refl s

/-- A constraint makes no bound weaker. -/
theorem addConstraint_strengthens (invariant : Invariant s) {cst : LinearConstraint V}
    (result : s.addConstraint cst = some next) : Strengthens s next := by
  unfold addConstraint at result
  split at result
  · cases result
    exact .refl s
  · split at result
    · cases result
    · split at result
      · rcases Option.map_eq_some_iff.mp result with ⟨between, run, rfl⟩
        exact (addLinearLeq_strengthens invariant run).2.normalize
      · rcases Option.map_eq_some_iff.mp result with ⟨between, run, rfl⟩
        exact (addLinearLeq_strengthens invariant run).2.normalize
      · rw [Option.bind_eq_bind, Option.bind_eq_some_iff] at result
        rcases result with ⟨below, belowRun, result⟩
        rcases Option.bind_eq_some_iff.mp result with ⟨above, aboveRun, same⟩
        cases same
        have first := addLinearLeq_strengthens invariant belowRun
        have second := addLinearLeq_strengthens first.1 aboveRun
        exact (first.2.trans second.2).normalize
      · rcases Option.map_eq_some_iff.mp result with ⟨between, run, rfl⟩
        refine And.right (Strengthens.foldlM ?_ invariant run) |>.normalize
        intro state term next invariant result
        exact ⟨(addDisequationTerm_refines invariant _ term).invariant result,
          addDisequationTerm_strengthens invariant result⟩

end Constraints

/-! ## Joins -/

section Joins

variable {o : SplitDbm V}

/-- A number with an edge keeps its variable. -/
theorem Drops.tryAt {before after : SplitDbm V} (drops : Drops before after)
    (shape : before.WellFormed) {vert : Nat}
    (found : before.tryAt x = some vert) (live : after.g.Live vert) :
    after.tryAt x = some vert := by
  rcases Shape.live_cases drops.wellFormed live with zero | never | ⟨y, mapped⟩
  · exact absurd zero (Shape.ne_zero_of_tryAt shape found)
  · exact absurd never id
  · by_cases same : y = x
    · rw [<- same]
      exact mapped
    · exact absurd rfl (Shape.ne_of_tryAt shape (drops.mapped y vert mapped) found (Ne.symm same))

theorem hasBounds_join (left : s.WellFormed) (right : o.WellFormed) (inLeft : HasBounds s x intv)
    (inRight : HasBounds o x intv) : HasBounds (join s o) x intv := by
  rcases join_cases left right with ⟨result, _⟩ | ⟨result, _⟩ | drops
  · rw [result]
    exact inRight
  · rw [result]
    exact inLeft
  · have numbers : forall {vertLeft vertRight : Nat}, s.tryAt x = some vertLeft ->
        o.tryAt x = some vertRight -> exists i, (numbered s o)[i]? = some (vertLeft, vertRight) ∧
        (joinState s o).tryAt x = some i := by
      intro vertLeft vertRight atLeft atRight
      exact exists_numbered_vertexOf left (u := some x) atLeft atRight
    have shape := wellFormed_joinState (o := o) left
    constructor
    · intro ub isUpper
      rcases inLeft.upper ub isUpper with ⟨vertLeft, atLeft, weightLeft, belowLeft, hereLeft⟩
      rcases inRight.upper ub isUpper with ⟨vertRight, atRight, weightRight, belowRight, hereRight⟩
      rcases numbers atLeft atRight with ⟨i, number, found⟩
      have edgeLeft := lookup_leftView.mpr ⟨_, _, numbered_zero s o, number, hereLeft⟩
      have edgeRight := lookup_rightView.mpr ⟨_, _, numbered_zero s o, number, hereRight⟩
      rcases joinGraph_of_edges edgeLeft edgeRight with ⟨lower, lowerLe, edge⟩
      have here : (join s o).g.lookup 0 i = some lower := by
        rw [drops.lookup]
        exact edge
      have live := (drops.wellFormed.graph.ends _ _ _ here).2
      exact ⟨i, drops.tryAt shape found live, lower,
        lowerLe.trans (max_le belowLeft belowRight), here⟩
    · intro lb isLower
      rcases inLeft.lower lb isLower with ⟨vertLeft, atLeft, weightLeft, belowLeft, hereLeft⟩
      rcases inRight.lower lb isLower with ⟨vertRight, atRight, weightRight, belowRight, hereRight⟩
      rcases numbers atLeft atRight with ⟨i, number, found⟩
      have edgeLeft := lookup_leftView.mpr ⟨_, _, number, numbered_zero s o, hereLeft⟩
      have edgeRight := lookup_rightView.mpr ⟨_, _, number, numbered_zero s o, hereRight⟩
      rcases joinGraph_of_edges edgeLeft edgeRight with ⟨lower, lowerLe, edge⟩
      have here : (join s o).g.lookup i 0 = some lower := by
        rw [drops.lookup]
        exact edge
      have live := (drops.wellFormed.graph.ends _ _ _ here).1
      exact ⟨i, drops.tryAt shape found live, lower,
        lowerLe.trans (max_le belowLeft belowRight), here⟩

end Joins

/-! ## The interval that is stored -/

theorem hasBounds_getInterval (invariant : Invariant s) (x : V) :
    HasBounds s x (s.getInterval x) := by
  cases found : s.tryAt x with
  | none =>
      have isTop : s.getInterval x = .top := by
        rw [getInterval, found]
      rw [isTop]
      constructor
      · intro ub impossible
        cases impossible
      · intro lb impossible
        cases impossible
  | some vert =>
      rw [getInterval_of_tryAt invariant found]
      constructor
      · intro ub isUpper
        refine ⟨vert, found, ?_⟩
        dsimp only [upperBound] at isUpper
        split at isUpper
        · rename_i weight here
          exact ⟨weight, (Bound.ofNumber.inj isUpper).le, here⟩
        · cases isUpper
      · intro lb isLower
        refine ⟨vert, found, ?_⟩
        dsimp only [lowerBound] at isLower
        split at isLower
        · rename_i weight here
          have number := Bound.ofNumber.inj isLower
          exact ⟨weight, by omega, here⟩
        · cases isLower

theorem HasBounds.mem_of_mem_getInterval (has : HasBounds s x intv)
    (invariant : Invariant s) {m n : Int}
    (inhabited : m ∈ intv) (member : n ∈ s.getInterval x) : n ∈ intv := by
  rcases inhabited with ⟨lower, upper⟩
  constructor
  · cases isLower : intv.lb with
    | minusInfinity => trivial
    | plusInfinity =>
        rw [isLower] at lower
        exact absurd lower id
    | ofNumber lb =>
        rcases has.lower lb isLower with ⟨vert, found, weight, below, here⟩
        have above := member.1
        rw [getInterval_of_tryAt invariant found, lowerBound, here,
          Bound.ofNumber_le_ofNumber] at above
        rw [Bound.ofNumber_le_ofNumber]
        omega
  · cases isUpper : intv.ub with
    | minusInfinity =>
        rw [isUpper] at upper
        exact absurd upper id
    | plusInfinity => trivial
    | ofNumber ub =>
        rcases has.upper ub isUpper with ⟨vert, found, weight, below, here⟩
        have bounded := member.2
        rw [getInterval_of_tryAt invariant found, upperBound, here,
          Bound.ofNumber_le_ofNumber] at bounded
        rw [Bound.ofNumber_le_ofNumber]
        omega

end SplitDbm

namespace AddBottom

open SplitDbm

variable {state other : AddBottom V} {x : V} {intv : Interval}

theorem within_evalInterval (state : AddBottom V) (x : V) :
    state.Within x (state.evalInterval (.var x)) := by
  rintro s rfl
  rw [evalInterval_var]
  exact hasBounds_getInterval s.2 x

theorem Within.addConstraint (within : state.Within x intv) (cst : LinearConstraint V) :
    (state.addConstraint cst).Within x intv := by
  intro next result
  rcases addConstraint_eq_some.mp result with ⟨s, isState, run⟩
  exact (addConstraint_strengthens s.2 run).hasBounds (within s isState)

theorem Within.join (inState : state.Within x intv) (inOther : other.Within x intv) :
    (state.join other).Within x intv := by
  intro joined result
  cases state with
  | none =>
      cases other with
      | none => cases result
      | some o => exact inOther joined result
  | some s =>
      cases other with
      | none => exact inState joined result
      | some o =>
          cases result
          exact hasBounds_join s.2.wellFormed o.2.wellFormed (inState s rfl) (inOther o rfl)

theorem Within.mem_evalInterval (within : state.Within x intv) {m n : Int} (inhabited : m ∈ intv)
    (member : n ∈ state.evalInterval (.var x)) : n ∈ intv := by
  cases state with
  | none =>
      have empty : Interval.bottom.IsBottom := by decide
      exact absurd empty (Interval.not_isBottom_of_mem member)
  | some s =>
      rw [evalInterval_var] at member
      exact (within s rfl).mem_of_mem_getInterval s.2 inhabited member

end AddBottom
end Crab
end Prevail
