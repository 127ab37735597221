import Prevail.Crab.Closure
import Prevail.Crab.SplitDbm.Lattice

namespace Prevail
namespace Crab
namespace SplitDbm

open DifferenceBounds

/-!
# The graph of the join

The join keeps a relation that one operand has as an edge and the other one only
through its bounds: the bounds are first added to the other operand as an edge.
A relation that both operands have only through their bounds is added where no
operand has the higher one of both bounds.

No edge of the result is below a path of an operand.  Every bound that is
explicit in both operands, as an edge or as the sum of two edges at vertex zero,
is explicit in the result.
-/

/-! ## Updates -/

section Update

variable {g : AdaptGraph} {source target i j : Nat} {weight w : Int}

theorem updateEdge_kept (here : g.lookup i j = some w) (source target : Nat) (weight : Int) :
    ∃ lower ≤ w, (g.updateEdge source weight target).lookup i j = some lower := by
  rcases g.updateEdge_eq source target weight with ⟨lower, _, below, _, updated⟩
  rw [updated]
  by_cases same : i = source ∧ j = target
  · rcases same with ⟨rfl, rfl⟩
    exact ⟨lower, below w here, set_self⟩
  · exact ⟨w, le_refl _, (set_of_ne same).trans here⟩

theorem updateEdge_added (g : AdaptGraph) (source target : Nat) (weight : Int) :
    ∃ lower ≤ weight, (g.updateEdge source weight target).lookup source target = some lower := by
  rcases g.updateEdge_eq source target weight with ⟨lower, lowerLe, _, _, updated⟩
  rw [updated]
  exact ⟨lower, lowerLe, set_self⟩

theorem updateEdge_origin (here : (g.updateEdge source weight target).lookup i j = some w) :
    g.lookup i j = some w ∨ (i = source ∧ j = target ∧ w = weight) := by
  rcases g.updateEdge_eq source target weight with ⟨lower, _, _, choice, updated⟩
  rw [updated] at here
  rcases set_cases here with ⟨rfl, rfl, rfl⟩ | old
  · rcases choice with same | there
    · exact Or.inr ⟨rfl, rfl, same⟩
    · exact Or.inl there
  · exact Or.inl old

theorem updateEdge_sameVertices (g : AdaptGraph) (source target : Nat) (weight : Int) :
    GraphOps.SameVertices (g.updateEdge source weight target) g := by
  rcases g.updateEdge_eq source target weight with ⟨_, _, _, _, updated⟩
  rw [updated]
  exact ⟨rfl, rfl⟩

end Update

/-! ## Syntactic meet and join -/

section Views

variable {left right : GraphView} {i j : Nat} {w : Int}

theorem meet_origin (here : (GraphOps.meet left right).lookup i j = some w) :
    left.lookup i j = some w ∨ right.lookup i j = some w := by
  unfold GraphOps.meet at here
  dsimp only at here
  split at here
  · rename_i leftWeight rightWeight inLeft inRight
    cases here
    rcases min_choice leftWeight rightWeight with first | second
    · rw [first]
      exact Or.inl inLeft
    · rw [second]
      exact Or.inr inRight
  · rename_i inLeft _
    exact Or.inl (inLeft.trans here)
  · exact Or.inr here

theorem meet_le_left (here : left.lookup i j = some w) :
    ∃ lower ≤ w, (GraphOps.meet left right).lookup i j = some lower := by
  unfold GraphOps.meet
  dsimp only
  rw [here]
  cases right.lookup i j with
  | none => exact ⟨w, le_refl _, rfl⟩
  | some other => exact ⟨min w other, min_le_left _ _, rfl⟩

theorem meet_le_right (here : right.lookup i j = some w) :
    ∃ lower ≤ w, (GraphOps.meet left right).lookup i j = some lower := by
  unfold GraphOps.meet
  dsimp only
  rw [here]
  cases left.lookup i j with
  | none => exact ⟨w, le_refl _, rfl⟩
  | some other => exact ⟨min other w, min_le_right _ _, rfl⟩

theorem join_lookup : (GraphOps.join left right).lookup i j = some w ↔
    exists leftWeight rightWeight, left.lookup i j = some leftWeight ∧
      right.lookup i j = some rightWeight ∧ w = max leftWeight rightWeight := by
  unfold GraphOps.join
  dsimp only
  cases left.lookup i j with
  | none => simp
  | some leftWeight =>
      cases right.lookup i j with
      | none => simp
      | some rightWeight => simp [eq_comm]

end Views

/-! ## Deferred relations -/

section Deferred

variable {relations operand : GraphView} {p : Nat -> Int} {i j : Nat} {w : Int}

theorem deferred_lookup : (deferred relations operand).lookup i j = some w ↔
    i ≠ 0 ∧ j ≠ 0 ∧ (exists old, relations.lookup i j = some old) ∧
      exists lower upper, operand.lookup i 0 = some lower ∧ operand.lookup 0 j = some upper ∧
      w = lower + upper := by
  unfold deferred
  dsimp only
  split
  · rename_i present
    rcases Option.isSome_iff_exists.mp present with ⟨old, found⟩
    have ends := GraphView.lookup_exclude.mp found
    cases operand.lookup i 0 with
    | none => simp
    | some lower =>
        cases operand.lookup 0 j with
        | none => simp
        | some upper => simp [ends.1, ends.2.1, ends.2.2, eq_comm]
  · rename_i absent
    constructor
    · intro impossible
      cases impossible
    · rintro ⟨sourceOther, targetOther, ⟨old, found⟩, _⟩
      exact absurd (Option.isSome_iff_exists.mpr ⟨old, GraphView.lookup_exclude.mpr
        ⟨sourceOther, targetOther, found⟩⟩) absent

theorem closeDeferred_tightens : Tightens (GraphOps.meet operand relations).lookup
    (closeDeferred operand p relations).lookup := by
  have improves : GraphOps.Improves (GraphOps.meet operand relations).lookup
      (GraphOps.closeAfterMeet
      ((GraphOps.meet operand relations).view.exclude 0) p operand relations) :=
    GraphOps.Improves.of_exclude GraphOps.closeAfterMeet_improves
  exact improves.tightens_applyDelta (Tightens.refl _)

theorem closeDeferred_path
    (here : (closeDeferred operand p (deferred relations operand).view).lookup i j = some w) :
    Path operand.lookup i j w := by
  apply (closeDeferred_tightens.path _ _ _ here).flatten
  intro source target weight edge
  rcases meet_origin edge with old | sum
  · exact .edge old
  · rcases deferred_lookup.mp sum with ⟨_, _, _, lower, upper, toZero, fromZero, rfl⟩
    exact .snoc (.edge toZero) fromZero

theorem closeDeferred_edge (here : operand.lookup i j = some w) :
    ∃ lower ≤ w, (closeDeferred operand p (deferred relations operand).view).lookup i j =
      some lower := by
  rcases meet_le_left here with ⟨first, firstLe, inMeet⟩
  rcases closeDeferred_tightens.kept _ _ _ inMeet with ⟨second, secondLe, closed⟩
  exact ⟨second, secondLe.trans firstLe, closed⟩

theorem closeDeferred_sum {old lower upper : Int} (iNonzero : i ≠ 0) (jNonzero : j ≠ 0)
    (relation : relations.lookup i j = some old) (toZero : operand.lookup i 0 = some lower)
    (fromZero : operand.lookup 0 j = some upper) :
    ∃ least ≤ lower + upper,
      (closeDeferred operand p (deferred relations operand).view).lookup i j = some least := by
  have sum : (deferred relations operand).view.lookup i j = some (lower + upper) :=
    deferred_lookup.mpr ⟨iNonzero, jNonzero, ⟨old, relation⟩, lower, upper, toZero, fromZero, rfl⟩
  rcases meet_le_right sum with ⟨first, firstLe, inMeet⟩
  rcases closeDeferred_tightens.kept _ _ _ inMeet with ⟨second, secondLe, closed⟩
  exact ⟨second, secondLe.trans firstLe, closed⟩

end Deferred

/-! ## Relations between bounds -/

section Independent

variable {gx gy : GraphView} {g : AdaptGraph} {lbs ubs : List Nat} {i j : Nat} {w : Int}

/-- The weight with which two bounds of either operand are related. -/
def boundsWeight (gx gy : GraphView) (i j : Nat) : Int :=
  max (gx.edgeVal i 0 + gx.edgeVal 0 j) (gy.edgeVal i 0 + gy.edgeVal 0 j)

/-- One vertex of `lbs` with the vertices of `ubs`. -/
def addIndependentOne (gx gy : GraphView) (ubs : List Nat) (g : AdaptGraph) (source : Nat) :
    AdaptGraph :=
  ubs.foldl (fun g target =>
    if source = target then g else g.updateEdge source (boundsWeight gx gy source target) target) g

theorem addIndependent_eq :
    addIndependent gx gy lbs ubs g = lbs.foldl (addIndependentOne gx gy ubs) g := rfl

theorem addIndependentOne_kept (here : g.lookup i j = some w) (source : Nat) :
    ∃ lower ≤ w, (addIndependentOne gx gy ubs g source).lookup i j = some lower := by
  unfold addIndependentOne
  apply List.foldlRecOn (motive := fun g : AdaptGraph => ∃ lower ≤ w, g.lookup i j = some lower) ubs
  · exact ⟨w, le_refl _, here⟩
  · rintro current ⟨lower, lowerLe, kept⟩ target _
    split
    · exact ⟨lower, lowerLe, kept⟩
    · rcases updateEdge_kept kept source target (boundsWeight gx gy source target) with
        ⟨least, leastLe, last⟩
      exact ⟨least, leastLe.trans lowerLe, last⟩

theorem addIndependentOne_added (member : j ∈ ubs) (different : i ≠ j) :
    ∃ lower ≤ boundsWeight gx gy i j,
      (addIndependentOne gx gy ubs g i).lookup i j = some lower := by
  induction ubs generalizing g with
  | nil => cases member
  | cons first rest inductionHypothesis =>
      rcases List.mem_cons.mp member with rfl | later
      · unfold addIndependentOne
        rw [List.foldl_cons, if_neg different]
        rcases updateEdge_added g i j (boundsWeight gx gy i j) with ⟨lower, lowerLe, added⟩
        have kept : ∃ least ≤ lower, (addIndependentOne gx gy rest _ i).lookup i j = some least :=
          addIndependentOne_kept added i
        rcases kept with ⟨least, leastLe, last⟩
        exact ⟨least, leastLe.trans lowerLe, last⟩
      · exact inductionHypothesis later

theorem addIndependent_kept (here : g.lookup i j = some w) :
    ∃ lower ≤ w, (addIndependent gx gy lbs ubs g).lookup i j = some lower := by
  rw [addIndependent_eq]
  apply List.foldlRecOn (motive := fun g : AdaptGraph => ∃ lower ≤ w, g.lookup i j = some lower) lbs
  · exact ⟨w, le_refl _, here⟩
  · rintro current ⟨lower, lowerLe, kept⟩ source _
    have next : ∃ least ≤ lower, (addIndependentOne gx gy ubs current source).lookup i j =
        some least :=
      addIndependentOne_kept kept source
    rcases next with ⟨least, leastLe, last⟩
    exact ⟨least, leastLe.trans lowerLe, last⟩

theorem addIndependent_added (inLbs : i ∈ lbs) (inUbs : j ∈ ubs) (different : i ≠ j) :
    ∃ lower ≤ boundsWeight gx gy i j, (addIndependent gx gy lbs ubs g).lookup i j = some lower := by
  induction lbs generalizing g with
  | nil => cases inLbs
  | cons first rest inductionHypothesis =>
      rcases List.mem_cons.mp inLbs with rfl | later
      · have one : ∃ lower ≤ boundsWeight gx gy i j,
            (addIndependentOne gx gy ubs g i).lookup i j = some lower :=
          addIndependentOne_added inUbs different
        rcases one with ⟨lower, lowerLe, added⟩
        have kept : ∃ least ≤ lower, (addIndependent gx gy rest ubs _).lookup i j = some least :=
          addIndependent_kept added
        rcases kept with ⟨least, leastLe, last⟩
        exact ⟨least, leastLe.trans lowerLe, last⟩
      · exact inductionHypothesis later

/-- An edge that was there, or the relation between two bounds. -/
def IndependentOrigin (gx gy : GraphView) (lbs ubs : List Nat) (g : AdaptGraph) (i j : Nat)
    (w : Int) : Prop :=
  g.lookup i j = some w ∨ (i ∈ lbs ∧ j ∈ ubs ∧ w = boundsWeight gx gy i j)

theorem addIndependent_origin (here : (addIndependent gx gy lbs ubs g).lookup i j = some w) :
    IndependentOrigin gx gy lbs ubs g i j w := by
  revert here
  rw [addIndependent_eq]
  apply List.foldlRecOn (motive := fun next : AdaptGraph => next.lookup i j = some w ->
    IndependentOrigin gx gy lbs ubs g i j w) lbs
  · exact Or.inl
  · intro current before source inLbs
    unfold addIndependentOne
    apply List.foldlRecOn (motive := fun next : AdaptGraph => next.lookup i j = some w ->
      IndependentOrigin gx gy lbs ubs g i j w) ubs
    · exact before
    · intro next inner target inUbs here
      split at here
      · exact inner here
      · rcases updateEdge_origin here with old | ⟨rfl, rfl, weight⟩
        · exact inner old
        · exact Or.inr ⟨inLbs, inUbs, weight⟩

theorem addIndependent_sameVertices : GraphOps.SameVertices (addIndependent gx gy lbs ubs g) g := by
  rw [addIndependent_eq]
  apply List.foldlRecOn (motive := fun next => GraphOps.SameVertices next g) lbs
  · exact ⟨rfl, rfl⟩
  · intro current same source _
    unfold addIndependentOne
    apply List.foldlRecOn (motive := fun next => GraphOps.SameVertices next g) ubs
    · exact same
    · intro next inner target _
      split
      · exact inner
      · have last := updateEdge_sameVertices next source target (boundsWeight gx gy source target)
        exact ⟨last.1.trans inner.1, last.2.trans inner.2⟩

end Independent

/-! ## The join of two graphs -/

section Join

variable {gx gy : GraphView} {potX potY : Nat -> Int} {i j : Nat} {w : Int}

theorem isLower_iff {left right : Option Int} : isLower left right = true ↔
    exists leftWeight rightWeight, left = some leftWeight ∧ right = some rightWeight ∧
      leftWeight < rightWeight := by
  unfold isLower
  cases left <;> cases right <;> simp

theorem joinGraph_sameVertices : (joinGraph gx gy potX potY).size = gx.size ∧
    (joinGraph gx gy potX potY).freeId = [] := by
  have first : GraphOps.SameVertices (joinGraph gx gy potX potY) _ := addIndependent_sameVertices
  have second := @addIndependent_sameVertices gx gy
    (GraphOps.join (closeDeferred gx potX (deferred gy gx).view).view
      (closeDeferred gy potY (deferred gx gy).view).view)
    ((gx.exclude 0).verts.filter (fun v => isLower (gy.lookup v 0) (gx.lookup v 0)))
    ((gx.exclude 0).verts.filter (fun v => isLower (gx.lookup 0 v) (gy.lookup 0 v)))
  have size : (closeDeferred gx potX (deferred gy gx).view).size = gx.size :=
    GraphOps.applyDelta_size ..
  exact ⟨(first.1.trans second.1).trans size, first.2.trans second.2⟩

/-- The edges of the join: an edge that both closed operands have, or a relation
between two bounds. -/
theorem joinGraph_origin (here : (joinGraph gx gy potX potY).lookup i j = some w) :
    (exists left right, (closeDeferred gx potX (deferred gy gx).view).lookup i j = some left ∧
      (closeDeferred gy potY (deferred gx gy).view).lookup i j = some right ∧ w = max left right) ∨
    ((exists left right, gx.lookup i 0 = some left ∧ gy.lookup i 0 = some right) ∧
      (exists left right, gx.lookup 0 j = some left ∧ gy.lookup 0 j = some right) ∧
      w = boundsWeight gx gy i j) := by
  have bounded : forall v, isLower (gx.lookup v 0) (gy.lookup v 0) = true ∨
      isLower (gy.lookup v 0) (gx.lookup v 0) = true ->
      exists left right, gx.lookup v 0 = some left ∧ gy.lookup v 0 = some right := by
    rintro v (lower | lower)
    · rcases isLower_iff.mp lower with ⟨left, right, inLeft, inRight, _⟩
      exact ⟨left, right, inLeft, inRight⟩
    · rcases isLower_iff.mp lower with ⟨right, left, inRight, inLeft, _⟩
      exact ⟨left, right, inLeft, inRight⟩
  have boundedFrom : forall v, isLower (gx.lookup 0 v) (gy.lookup 0 v) = true ∨
      isLower (gy.lookup 0 v) (gx.lookup 0 v) = true ->
      exists left right, gx.lookup 0 v = some left ∧ gy.lookup 0 v = some right := by
    rintro v (lower | lower)
    · rcases isLower_iff.mp lower with ⟨left, right, inLeft, inRight, _⟩
      exact ⟨left, right, inLeft, inRight⟩
    · rcases isLower_iff.mp lower with ⟨right, left, inRight, inLeft, _⟩
      exact ⟨left, right, inLeft, inRight⟩
  rcases addIndependent_origin here with inner | ⟨inLbs, inUbs, weight⟩
  · rcases addIndependent_origin inner with joined | ⟨inLbs, inUbs, weight⟩
    · exact Or.inl (join_lookup.mp joined)
    · exact Or.inr ⟨bounded i (Or.inr (List.mem_filter.mp inLbs).2),
        boundedFrom j (Or.inl (List.mem_filter.mp inUbs).2), weight⟩
  · exact Or.inr ⟨bounded i (Or.inl (List.mem_filter.mp inLbs).2),
      boundedFrom j (Or.inr (List.mem_filter.mp inUbs).2), weight⟩

theorem edgeVal_eq {g : GraphView} {weight : Int} (here : g.lookup i j = some weight) :
    g.edgeVal i j = weight := by
  unfold GraphView.edgeVal
  rw [here]
  rfl

/-- No edge of the join is below a path of the left operand. -/
theorem joinGraph_above_left (here : (joinGraph gx gy potX potY).lookup i j = some w) :
    ∃ lower ≤ w, Path gx.lookup i j lower := by
  rcases joinGraph_origin here with ⟨left, right, inLeft, _, rfl⟩ |
    ⟨⟨toLeft, _, toZero, _⟩, ⟨fromLeft, _, fromZero, _⟩, rfl⟩
  · exact ⟨left, le_max_left _ _, closeDeferred_path inLeft⟩
  · refine ⟨toLeft + fromLeft, ?_, .snoc (.edge toZero) fromZero⟩
    unfold boundsWeight
    rw [edgeVal_eq toZero, edgeVal_eq fromZero]
    exact le_max_left _ _

/-- No edge of the join is below a path of the right operand. -/
theorem joinGraph_above_right (here : (joinGraph gx gy potX potY).lookup i j = some w) :
    ∃ lower ≤ w, Path gy.lookup i j lower := by
  rcases joinGraph_origin here with ⟨left, right, _, inRight, rfl⟩ |
    ⟨⟨_, toRight, _, toZero⟩, ⟨_, fromRight, _, fromZero⟩, rfl⟩
  · exact ⟨right, le_max_right _ _, closeDeferred_path inRight⟩
  · refine ⟨toRight + fromRight, ?_, .snoc (.edge toZero) fromZero⟩
    unfold boundsWeight
    rw [edgeVal_eq toZero, edgeVal_eq fromZero]
    exact le_max_right _ _

theorem joinGraph_of_both {left right : Int}
    (inLeft : ∃ lower ≤ left, (closeDeferred gx potX (deferred gy gx).view).lookup i j = some lower)
    (inRight : ∃ lower ≤ right, (closeDeferred gy potY (deferred gx gy).view).lookup i j =
      some lower) :
    ∃ lower ≤ max left right, (joinGraph gx gy potX potY).lookup i j = some lower := by
  rcases inLeft with ⟨leftLower, leftLe, inLeft⟩
  rcases inRight with ⟨rightLower, rightLe, inRight⟩
  have joined : (GraphOps.join (closeDeferred gx potX (deferred gy gx).view).view
      (closeDeferred gy potY (deferred gx gy).view).view).lookup i j = some
      (max leftLower rightLower) :=
    join_lookup.mpr ⟨leftLower, rightLower, inLeft, inRight, rfl⟩
  rcases addIndependent_kept joined with ⟨first, firstLe, inner⟩
  rcases addIndependent_kept inner with ⟨second, secondLe, outer⟩
  exact ⟨second, (secondLe.trans firstLe).trans (max_le_max leftLe rightLe), outer⟩

theorem joinGraph_of_edges {left right : Int} (inLeft : gx.lookup i j = some left)
    (inRight : gy.lookup i j = some right) :
    ∃ lower ≤ max left right, (joinGraph gx gy potX potY).lookup i j = some lower :=
  joinGraph_of_both (closeDeferred_edge inLeft) (closeDeferred_edge inRight)

/-- The ends of the edges are vertices of the graph. -/
def EndsListed (g : GraphView) : Prop := forall i j w, g.lookup i j = some w ->
    i ∈ g.verts ∧ j ∈ g.verts

theorem mem_exclude_verts {g : GraphView} {vertex : Nat} (listed : vertex ∈ g.verts)
    (nonzero : vertex ≠ 0) :
    vertex ∈ (g.exclude 0).verts := by
  rw [GraphView.mem_verts] at listed ⊢
  simp [GraphView.exclude, listed.1, listed.2, nonzero]

/-- Two bounds of which the one is lower in the left operand and the other one in
the right operand are related. -/
theorem joinGraph_of_opposite {toLeft fromLeft toRight fromRight : Int} (listed : EndsListed gx)
    (iNonzero : i ≠ 0)
    (jNonzero : j ≠ 0) (different : i ≠ j) (toZeroLeft : gx.lookup i 0 = some toLeft)
    (fromZeroLeft : gx.lookup 0 j = some fromLeft) (toZeroRight : gy.lookup i 0 = some toRight)
    (fromZeroRight : gy.lookup 0 j = some fromRight)
    (opposite : (toLeft < toRight ∧ fromRight < fromLeft) ∨
      (toRight < toLeft ∧ fromLeft < fromRight)) :
    ∃ lower ≤ max (toLeft + fromLeft) (toRight + fromRight),
      (joinGraph gx gy potX potY).lookup i j = some lower := by
  have weight : boundsWeight gx gy i j = max (toLeft + fromLeft) (toRight + fromRight) := by
    unfold boundsWeight
    rw [edgeVal_eq toZeroLeft, edgeVal_eq fromZeroLeft, edgeVal_eq toZeroRight,
      edgeVal_eq fromZeroRight]
  have iListed := mem_exclude_verts (listed _ _ _ toZeroLeft).1 iNonzero
  have jListed := mem_exclude_verts (listed _ _ _ fromZeroLeft).2 jNonzero
  rw [← weight]
  rcases opposite with ⟨lowerTo, lowerFrom⟩ | ⟨lowerTo, lowerFrom⟩
  · have inLbDown : i ∈ (gx.exclude 0).verts.filter
        (fun v => isLower (gx.lookup v 0) (gy.lookup v 0)) :=
      List.mem_filter.mpr ⟨iListed,
        isLower_iff.mpr ⟨toLeft, toRight, toZeroLeft, toZeroRight, lowerTo⟩⟩
    have inUbDown : j ∈ (gx.exclude 0).verts.filter
        (fun v => isLower (gy.lookup 0 v) (gx.lookup 0 v)) :=
      List.mem_filter.mpr ⟨jListed,
        isLower_iff.mpr ⟨fromRight, fromLeft, fromZeroRight, fromZeroLeft, lowerFrom⟩⟩
    exact addIndependent_added inLbDown inUbDown different
  · have inLbUp : i ∈ (gx.exclude 0).verts.filter
        (fun v => isLower (gy.lookup v 0) (gx.lookup v 0)) :=
      List.mem_filter.mpr ⟨iListed,
        isLower_iff.mpr ⟨toRight, toLeft, toZeroRight, toZeroLeft, lowerTo⟩⟩
    have inUbUp : j ∈ (gx.exclude 0).verts.filter
        (fun v => isLower (gx.lookup 0 v) (gy.lookup 0 v)) :=
      List.mem_filter.mpr ⟨jListed,
        isLower_iff.mpr ⟨fromLeft, fromRight, fromZeroLeft, fromZeroRight, lowerFrom⟩⟩
    rcases addIndependent_added inLbUp inUbUp different with ⟨first, firstLe, inner⟩
    rcases addIndependent_kept inner with ⟨second, secondLe, outer⟩
    exact ⟨second, secondLe.trans firstLe, outer⟩

/-- A bound that is explicit in both operands is explicit in the join. -/
theorem joinGraph_complete (listed : EndsListed gx) (different : i ≠ j)
    (left : Explicit 0 gx.lookup i j w)
    (right : Explicit 0 gy.lookup i j w) : Explicit 0 (joinGraph gx gy potX potY).lookup i j w := by
  have ofEdge : (∃ lower ≤ w, (joinGraph gx gy potX potY).lookup i j = some lower) ->
      Explicit 0 (joinGraph gx gy potX potY).lookup i j w := fun ⟨_, lowerLe, here⟩ =>
      .edge here lowerLe
  cases left with
  | edge inLeft leftLe =>
      apply ofEdge
      cases right with
      | edge inRight rightLe =>
          rcases joinGraph_of_edges inLeft inRight with ⟨lower, lowerLe, here⟩
          exact ⟨lower, lowerLe.trans (max_le leftLe rightLe), here⟩
      | sum iNonzero jNonzero toZero fromZero rightLe =>
          rcases joinGraph_of_both (closeDeferred_edge inLeft)
            (closeDeferred_sum iNonzero jNonzero inLeft toZero fromZero) with ⟨lower, lowerLe, here⟩
          exact ⟨lower, lowerLe.trans (max_le leftLe rightLe), here⟩
  | @sum toLeft fromLeft iNonzero jNonzero toZeroLeft fromZeroLeft leftLe =>
      cases right with
      | edge inRight rightLe =>
          apply ofEdge
          rcases joinGraph_of_both
            (closeDeferred_sum iNonzero jNonzero inRight toZeroLeft fromZeroLeft)
            (closeDeferred_edge inRight) with ⟨lower, lowerLe, here⟩
          exact ⟨lower, lowerLe.trans (max_le leftLe rightLe), here⟩
      | @sum toRight fromRight _ _ toZeroRight fromZeroRight rightLe =>
          by_cases opposite : (toLeft < toRight ∧ fromRight < fromLeft) ∨
            (toRight < toLeft ∧ fromLeft < fromRight)
          · apply ofEdge
            rcases joinGraph_of_opposite listed iNonzero jNonzero different toZeroLeft
              fromZeroLeft toZeroRight
              fromZeroRight opposite with ⟨lower, lowerLe, here⟩
            exact ⟨lower, lowerLe.trans (max_le leftLe rightLe), here⟩
          · -- One operand has the higher one of both bounds, and so of their sum.
            rcases joinGraph_of_edges toZeroLeft toZeroRight with ⟨first, firstLe, toZero⟩
            rcases joinGraph_of_edges fromZeroLeft fromZeroRight with ⟨second, secondLe, fromZero⟩
            refine .sum iNonzero jNonzero toZero fromZero ?_
            omega

end Join

end SplitDbm
end Crab
end Prevail
