import Prevail.Crab.SplitDbm.Join

namespace Prevail
namespace Crab
namespace SplitDbm

open DifferenceBounds

/-!
# The widening

The widening keeps the edges of the left operand that the right one has with the
same weight or a lower one, over the common variables.  The potential of the
left operand stays valid, since no edge is new.
-/

variable {V : Type} [LinearOrder V] {s o : SplitDbm V}

/-- Every edge of the widening is an edge of the left operand. -/
theorem widenGraph_lookup {left right : GraphView} {i j : Nat} {w : Int} :
    (GraphOps.widenGraph left right).lookup i j = some w ↔
      left.lookup i j = some w ∧ exists other, right.lookup i j = some other ∧ other ≤ w := by
  unfold GraphOps.widenGraph
  dsimp only
  cases left.lookup i j with
  | none => simp
  | some leftWeight =>
      cases right.lookup i j with
      | none => simp
      | some rightWeight =>
          dsimp only
          split
          · rename_i below
            constructor
            · intro equal
              cases equal
              exact ⟨rfl, rightWeight, rfl, below⟩
            · exact And.left
          · rename_i notBelow
            constructor
            · intro impossible
              cases impossible
            · rintro ⟨equal, other, otherEqual, below⟩
              cases equal
              cases otherEqual
              exact absurd below notBelow

theorem numbers_widenState : OverNumbers s o (widenState s o).g := by
  have size : (widenState s o).g.size = (numbered s o).length := by
    simp [widenState, GraphOps.widen, GraphOps.widenGraph, GraphView.permute, permLeft_eq]
  refine ⟨size, rfl, ?_⟩
  intro i j weight here
  have edge := (widenGraph_lookup.mp here).1
  rcases lookup_leftView.mp edge with ⟨first, second, atFirst, atSecond, _⟩
  rw [size]
  exact ⟨(List.getElem?_eq_some_iff.mp atFirst).1, (List.getElem?_eq_some_iff.mp atSecond).1⟩

theorem invariant_widenState (left : Invariant s) : Invariant (widenState s o) := by
  refine ⟨wellFormed_overNumbers left.wellFormed numbers_widenState, ?_⟩
  intro i j weight here
  exact models_leftView left.valid _ _ _ (widenGraph_lookup.mp here).1

theorem Invariant.widen (left : Invariant s) (o : SplitDbm V) : Invariant (widen s o) :=
  (invariant_widenState left).normalize

/-- The widening represents what either operand does: it keeps edges of the left
operand only, and none that is below an edge of the right one. -/
theorem represents_widen (left : s.WellFormed) (right : o.WellFormed) {values : V -> Int}
    (either : s.Represents values ∨ o.Represents values) :
    (SplitDbm.widen s o).Represents values := by
  unfold SplitDbm.widen
  rw [represents_normalize]
  intro i j weight here
  rcases widenGraph_lookup.mp here with ⟨inLeft, lower, inRight, below⟩
  rcases lookup_leftView.mp inLeft with ⟨first, second, atFirst, atSecond, leftEdge⟩
  have source := @vertexValue_overNumbers V _ s o (widenState s o).g (widenState s o).unstable left
    right values i first
    atFirst
  have target := @vertexValue_overNumbers V _ s o (widenState s o).g (widenState s o).unstable left
    right values j second
    atSecond
  rcases either with represents | represents
  · have bounded := represents _ _ _ leftEdge
    rw [<- source.1, <- target.1] at bounded
    exact bounded
  · rcases lookup_rightView.mp inRight with ⟨third, fourth, atThird, atFourth, rightEdge⟩
    cases atFirst.symm.trans atThird
    cases atSecond.symm.trans atFourth
    have bounded := represents _ _ _ rightEdge
    rw [<- source.2, <- target.2] at bounded
    exact bounded.trans (add_le_add_right below _)

end SplitDbm
end Crab
end Prevail
