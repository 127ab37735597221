import Prevail.Crab.SplitDbm.AddBottomUpdate
import Prevail.Crab.SplitDbm.FiniteWidth

namespace Prevail
namespace Crab

/-!
# Bounds behind an assignment to another variable

`assign` works with a vertex of its own.  Edges between the other vertices and the
vertex of zero are kept or become tighter, so that explicit bounds of the other
variables stay.
-/

variable {V : Type} [LinearOrder V]

namespace SplitDbm

open DifferenceBounds

variable {s : SplitDbm V} {x lhs : V} {e : LinearExpression V} {intv : Interval}

/-- Edges that touch a vertex say nothing about the others. -/
theorem applyDelta_lookup_of_touches {vert : Nat} {delta : GraphOps.EdgeVector} {g : AdaptGraph}
    (touches : ∀ edge ∈ delta, edge.1 = vert ∨ edge.2.1 = vert) {source target : Nat}
    (sourceOther : source ≠ vert)
    (targetOther : target ≠ vert) :
    (GraphOps.applyDelta g delta).lookup source target = g.lookup source target := by
  induction delta generalizing g with
  | nil => rfl
  | cons edge rest inductionHypothesis =>
      have kept := @inductionHypothesis (g.setEdge edge.1 edge.2.2 edge.2.1) (fun other member =>
        touches other (List.mem_cons_of_mem _ member))
      refine kept.trans (set_of_ne ?_)
      intro same
      rcases touches edge List.mem_cons_self with isSource | isTarget
      · exact sourceOther (same.1.trans isSource)
      · exact targetOther (same.2.trans isTarget)

/-- What the collection of differences keeps of the bounds of a variable, beside
the edges to and from the new vertex. -/
structure KeepsBounds (vert : Nat) (x : V) (intv : Interval)
    (state : SplitDbm V × GraphOps.EdgeVector) : Prop where
  shape : Shape (fun other => other = vert) state.1
  bounds : HasBounds state.1 x intv
  touches : ∀ edge ∈ state.2, edge.1 = vert ∨ edge.2.1 = vert

theorem KeepsBounds.snoc {vert : Nat} {state : SplitDbm V × GraphOps.EdgeVector}
    (keeps : KeepsBounds vert x intv state)
    (v : V) {edge : Nat × Nat × Int} (touch : edge.1 = vert ∨ edge.2.1 = vert) :
    KeepsBounds vert x intv ((state.1.getVert v).2, state.2 ++ [edge]) := by
  refine ⟨keeps.shape.getVert v, keeps.bounds.getVert keeps.shape, ?_⟩
  intro other member
  rcases List.mem_append.mp member with earlier | last
  · exact keeps.touches other earlier
  · rw [List.mem_singleton.mp last]
    exact touch

theorem KeepsBounds.foldl {vert : Nat}
    {step : SplitDbm V × GraphOps.EdgeVector -> V × Int -> SplitDbm V × GraphOps.EdgeVector}
    (keepsStep : forall state diff, KeepsBounds vert x intv state ->
      KeepsBounds vert x intv (step state diff))
    {state : SplitDbm V × GraphOps.EdgeVector} (diffs : List (V × Int))
    (keeps : KeepsBounds vert x intv state) :
    KeepsBounds vert x intv (diffs.foldl step state) := by
  induction diffs generalizing state with
  | nil => exact keeps
  | cons diff rest inductionHypothesis => exact inductionHypothesis (keepsStep state diff keeps)

/-- Edges that are kept or become tighter keep the bounds. -/
theorem HasBounds.with_graph (has : HasBounds s x intv) {g : AdaptGraph}
    (kept : forall vert source target weight, s.tryAt x = some vert ->
      (source = 0 ∧ target = vert) ∨ (source = vert ∧ target = 0) ->
      s.g.lookup source target = some weight ->
        ∃ lower ≤ weight, g.lookup source target = some lower) :
    HasBounds { s with g := g } x intv :=
  has.mono (fun _ found => found) kept

theorem HasBounds.updateEdge (has : HasBounds s x intv) (source target : Nat) (weight : Int) :
    HasBounds { s with g := s.g.updateEdge source weight target } x intv :=
  has.with_graph (fun _ _ _ _ _ _ here => updateEdge_kept here source target weight)

theorem HasBounds.allocate (has : HasBounds s x intv) (value : Int) :
    HasBounds (s.allocate lhs value).2 x intv := by
  apply has.mono
  · intro vert found
    unfold tryAt
    rw [allocate_vertMap]
    exact found
  · intro vert source target weight _ _ here
    rw [allocate_lookup]
    exact ⟨weight, le_rfl, here⟩

/-- The vertex that `assign` works with leaves the bounds of all variables alone. -/
theorem HasBounds.assignVertex (has : HasBounds s x intv) (invariant : Invariant s)
    (value : Interval)
    (lower upper : List (V × Int)) :
    HasBounds (s.assignVertex lhs e value lower upper).2 x intv := by
  have allocated := @HasBounds.allocate V _ s x lhs intv has (s.potentialOf 0 + s.evalExpression e)
  have shape := (assigning_allocate invariant lhs e).shape
  have zeroVertex := (assigning_allocate invariant lhs e).nonzero.symm
  unfold SplitDbm.assignVertex
  dsimp only
  revert allocated shape zeroVertex
  generalize (s.allocate lhs (s.potentialOf 0 + s.evalExpression e)).1 = vert
  generalize (s.allocate lhs (s.potentialOf 0 + s.evalExpression e)).2 = start
  intro allocated shape zeroVertex
  have lowerStep : forall state diff, KeepsBounds vert x intv state ->
      KeepsBounds vert x intv (SplitDbm.lowerDelta vert state diff) :=
    fun _ diff keeps => keeps.snoc diff.1 (Or.inl rfl)
  have upperStep : forall state diff, KeepsBounds vert x intv state ->
      KeepsBounds vert x intv (SplitDbm.upperDelta vert state diff) :=
    fun _ diff keeps => keeps.snoc diff.1 (Or.inr rfl)
  have started : KeepsBounds vert x intv (start, []) :=
    ⟨shape, allocated, fun _ impossible => absurd impossible List.not_mem_nil⟩
  have raised := KeepsBounds.foldl upperStep upper (KeepsBounds.foldl lowerStep lower started)
  revert raised
  generalize upper.foldl (SplitDbm.upperDelta vert)
    (lower.foldl (SplitDbm.lowerDelta vert) (start, [])) = state
  rcases state with ⟨t, delta⟩
  intro raised
  have added : HasBounds { t with g := GraphOps.applyDelta t.g delta } x intv := by
    apply raised.bounds.with_graph
    intro other source target weight found ends here
    have otherVertex : other ≠ vert := ((raised.shape.mapped x other).mp found).2
    refine ⟨weight, le_rfl, ?_⟩
    rw [applyDelta_lookup_of_touches raised.touches, here]
    · rcases ends with ⟨rfl, rfl⟩ | ⟨rfl, rfl⟩
      · exact zeroVertex
      · exact otherVertex
    · rcases ends with ⟨rfl, rfl⟩ | ⟨rfl, rfl⟩
      · exact otherVertex
      · exact zeroVertex
  have improves : GraphOps.Improves (GraphOps.applyDelta t.g delta).lookup
      (GraphOps.closeAfterAssign
      ((GraphOps.applyDelta t.g delta).view.exclude 0) t.potentialOf vert) :=
    GraphOps.Improves.of_exclude GraphOps.closeAfterAssign_improves
  have closed := added.with_graph (fun _ source target weight _ _ here =>
    (improves.tightens_applyDelta (Tightens.refl _)).kept source target weight here)
  cases value.ub.number with
  | none =>
      cases value.lb.number with
      | none => exact closed
      | some lb => exact closed.updateEdge vert 0 (-lb)
  | some ub =>
      cases value.lb.number with
      | none => exact closed.updateEdge 0 vert ub
      | some lb => exact (closed.updateEdge vert 0 (-lb)).updateEdge 0 vert ub

/-- The explicit bounds of a variable survive the assignment of another one. -/
theorem HasBounds.assign (has : HasBounds s x intv) (invariant : Invariant s)
    (wellFormed : e.WellFormed) (different : x ≠ lhs) : HasBounds (s.assign lhs e) x intv := by
  unfold SplitDbm.assign
  dsimp only
  split
  · exact (has.set invariant different).normalize
  split
  · exact (has.set invariant different).normalize
  have assigning := @assignVertex_assigning V _ s lhs e invariant wellFormed
  have kept := (@HasBounds.assignVertex V _ s x lhs e intv has invariant (s.evalInterval e)
    (s.diffcstsOfAssign e false) (s.diffcstsOfAssign e true)).remove assigning.shape different
  apply HasBounds.normalize
  apply kept.mono
  · intro vert found
    have absent := tryAt_remove_self assigning.shape lhs
    exact ((assigning.shape.remove lhs).tryAt_emplace absent _ x vert).mpr (Or.inr found)
  · intro vert source target weight _ _ here
    exact ⟨weight, le_rfl, here⟩

/-- A vertex has edges that are the bounds of an interval, or tighter. -/
structure VertexBounds (g : AdaptGraph) (vert : Nat) (intv : Interval) : Prop where
  upper : forall ub, intv.ub = .ofNumber ub -> ∃ weight ≤ ub, g.lookup 0 vert = some weight
  lower : forall lb, intv.lb = .ofNumber lb -> ∃ weight ≤ -lb, g.lookup vert 0 = some weight

theorem VertexBounds.mono {g h : AdaptGraph} {vert : Nat} (bounds : VertexBounds g vert intv)
    (kept : forall source target weight, (source = 0 ∧ target = vert) ∨
      (source = vert ∧ target = 0) -> g.lookup source target = some weight ->
      ∃ lower ≤ weight, h.lookup source target = some lower) :
    VertexBounds h vert intv := by
  constructor
  · intro ub isUpper
    rcases bounds.upper ub isUpper with ⟨weight, below, here⟩
    rcases kept _ _ weight (Or.inl ⟨rfl, rfl⟩) here with ⟨lower, lowerLe, there⟩
    exact ⟨lower, lowerLe.trans below, there⟩
  · intro lb isLower
    rcases bounds.lower lb isLower with ⟨weight, below, here⟩
    rcases kept _ _ weight (Or.inr ⟨rfl, rfl⟩) here with ⟨lower, lowerLe, there⟩
    exact ⟨lower, lowerLe.trans below, there⟩

/-- The bounds of the value are edges of the vertex that `assign` works with. -/
theorem assignVertex_bounds (value : Interval) (lower upper : List (V × Int)) :
    VertexBounds (s.assignVertex lhs e value lower upper).2.g
      (s.assignVertex lhs e value lower upper).1 value := by
  unfold SplitDbm.assignVertex
  dsimp only
  rcases value with ⟨lb, ub⟩
  constructor
  · rintro n rfl
    dsimp only [Bound.number]
    exact updateEdge_added _ _ _ _
  · rintro n rfl
    cases ub with
    | ofNumber m =>
        rcases updateEdge_added _ _ _ _ with ⟨weight, below, here⟩
        rcases updateEdge_kept here 0 _ m with ⟨last, lastLe, there⟩
        exact ⟨last, lastLe.trans below, there⟩
    | minusInfinity => exact updateEdge_added _ _ _ _
    | plusInfinity => exact updateEdge_added _ _ _ _

theorem hasBounds_assign (invariant : Invariant s) (wellFormed : e.WellFormed) :
    HasBounds (s.assign lhs e) lhs (s.evalInterval e) := by
  unfold SplitDbm.assign
  dsimp only
  split
  · exact (hasBounds_set invariant lhs).normalize
  split
  · exact (hasBounds_set invariant lhs).normalize
  have assigning := @assignVertex_assigning V _ s lhs e invariant wellFormed
  have bounds := @assignVertex_bounds V _ s lhs e (s.evalInterval e) (s.diffcstsOfAssign e false)
    (s.diffcstsOfAssign e true)
  revert assigning bounds
  generalize (s.assignVertex lhs e (s.evalInterval e) (s.diffcstsOfAssign e false)
    (s.diffcstsOfAssign e true)).1 = vert
  generalize (s.assignVertex lhs e (s.evalInterval e) (s.diffcstsOfAssign e false)
    (s.diffcstsOfAssign e true)).2 = t
  intro assigning bounds
  have kept : VertexBounds (t.remove lhs).g vert (s.evalInterval e) := by
    rcases remove_cases t lhs with ⟨_, same⟩ | ⟨old, found, dropped⟩
    · rw [same]
      exact bounds
    · rw [dropped]
      have zeroOther := (Shape.ne_zero_of_tryAt assigning.shape found).symm
      have vertOther : vert ≠ old := (assigning.mapped found).symm
      apply bounds.mono
      intro source target weight ends here
      apply (normalize_tightens _).kept source target weight
      apply (dropVertex_lookup assigning.shape found).mpr
      rcases ends with ⟨rfl, rfl⟩ | ⟨rfl, rfl⟩
      · exact ⟨zeroOther, vertOther, here⟩
      · exact ⟨vertOther, zeroOther, here⟩
  have absent := tryAt_remove_self assigning.shape lhs
  have there := ((assigning.shape.remove lhs).tryAt_emplace absent vert lhs vert).mpr
    (Or.inl ⟨rfl, rfl⟩)
  apply HasBounds.normalize
  constructor
  · intro ub isUpper
    exact ⟨vert, there, kept.upper ub isUpper⟩
  · intro lb isLower
    exact ⟨vert, there, kept.lower lb isLower⟩

end SplitDbm

namespace AddBottom

open SplitDbm

/-- A variable has explicit bounds, unless the state is bottom. -/
def Within (state : AddBottom V) (x : V) (intv : Interval) :
    Prop := forall s, state = some s -> HasBounds s.1 x intv

variable {state : AddBottom V} {values : V -> Int} {x y : V} {intv other : Interval} {lb ub : Int}

theorem within_set (x : V) : (state.set x intv).Within x intv := by
  intro s result
  rcases set_eq_some result with ⟨before, _, same⟩
  rw [same]
  exact hasBounds_set before.2 x

/-- A variable that is assigned has the bounds of the expression. -/
theorem within_assign {e : LinearExpression V} (x : V) (wellFormed : e.WellFormed) :
    (state.assign x e wellFormed).Within x (state.evalInterval e) := by
  intro s result
  rcases Option.map_eq_some_iff.mp result with ⟨before, rfl, rfl⟩
  exact hasBounds_assign before.2 wellFormed

namespace Within

theorem set (within : state.Within x intv) (different : x ≠ y) :
    (state.set y other).Within x intv := by
  intro s result
  rcases set_eq_some result with ⟨before, isBefore, same⟩
  rw [same]
  exact (within before isBefore).set before.2 different

theorem assign {e : LinearExpression V} (within : state.Within x intv) (wellFormed : e.WellFormed)
    (different : x ≠ y) : (state.assign y e wellFormed).Within x intv := by
  intro s result
  rcases Option.map_eq_some_iff.mp result with ⟨before, isBefore, rfl⟩
  exact (within before isBefore).assign before.2 wellFormed different

theorem forget (within : state.Within x intv) (different : x ≠ y) :
    (state.forget y).Within x intv := by
  intro s result
  rcases Option.map_eq_some_iff.mp result with ⟨before, isBefore, rfl⟩
  exact (within before isBefore).remove before.2.wellFormed different

theorem normalize (within : state.Within x intv) : state.normalize.Within x intv := by
  intro s result
  rcases Option.map_eq_some_iff.mp result with ⟨before, isBefore, rfl⟩
  exact (within before isBefore).normalize

theorem mem (within : state.Within x intv) {n : Int} (inhabited : n ∈ intv)
    (represents : state.Represents values) :
    values x ∈ intv := by
  rcases represents with ⟨s, isState, represents⟩
  exact (within s isState).mem s.2.wellFormed inhabited represents

/-- The bounds that a variable has are those that are read, or wider. -/
theorem getInterval_eq (within : state.Within x (.range lb ub)) (ordered : lb ≤ ub)
    (nonempty : state ≠ none) :
    exists l u, state.getInterval x = ⟨.ofNumber l, .ofNumber u⟩ ∧ lb ≤ l ∧ l ≤ u ∧ u ≤ ub := by
  rcases Option.ne_none_iff_exists'.mp nonempty with ⟨s, rfl⟩
  have has := within s rfl
  rw [Interval.range_eq ordered] at has
  rcases has.lower lb rfl with ⟨vert, found, low, lowLe, isLow⟩
  rcases has.upper ub rfl with ⟨_, sameVert, high, highLe, isHigh⟩
  rw [found] at sameVert
  cases sameVert
  have inside := Shape.mem_getInterval s.2.wellFormed s.2.represents_potential x
  have known : s.1.getInterval x = ⟨.ofNumber (-low), .ofNumber high⟩ := by
    rw [getInterval_of_tryAt s.2 found, lowerBound, upperBound, isLow, isHigh]
  rw [known] at inside
  have crossed := inside.1.trans inside.2
  rw [Bound.ofNumber_le_ofNumber] at crossed
  exact ⟨-low, high, known, by omega, crossed, highLe⟩

end Within

end AddBottom
end Crab
end Prevail
