import Prevail.Crab.SplitDbm.Assign
import Prevail.Crab.SplitDbm.Widen

namespace Prevail
namespace Crab
namespace SplitDbm

open DifferenceBounds

/-!
# Reachable states

The states that the operations of `SplitDBM` lead to, starting from the state
without constraints.  Each operation keeps the maps between variables and
vertices inverse to each other, and the potential valid.
-/

variable {V : Type} [LinearOrder V] {s o next : SplitDbm V}

/-! ## Disequations -/

section Disequation

omit [LinearOrder V] in
theorem foldlM_invariant {Entry : Type} {holds : SplitDbm V -> Prop}
    {f : SplitDbm V -> Entry -> Option (SplitDbm V)} {entries : List Entry}
    (step : forall state, ∀ entry ∈ entries, forall next, holds state ->
      f state entry = some next -> holds next)
    (start : holds s) (run : entries.foldlM f s = some next) : holds next := by
  induction entries generalizing s with
  | nil =>
      cases run
      exact start
  | cons entry rest inductionHypothesis =>
      rw [List.foldlM_cons, Option.bind_eq_bind, Option.bind_eq_some_iff] at run
      rcases run with ⟨middle, first, run⟩
      exact inductionHypothesis
        (fun state other member => step state other (List.mem_cons_of_mem _ member))
        (step s entry List.mem_cons_self middle start first) run

/-- The invariant, with the vertices of another state. -/
def KeepsVertices (base state : SplitDbm V) :
    Prop := Invariant state ∧ GraphOps.SameVertices state.g base.g

theorem KeepsVertices.live {base state : SplitDbm V} (keeps : KeepsVertices base state) {vert : Nat}
    (live : base.g.Live vert) : state.g.Live vert := by
  unfold AdaptGraph.Live
  rw [keeps.2.1, keeps.2.2]
  exact live

theorem KeepsVertices.updateEdge {base state : SplitDbm V} (keeps : KeepsVertices base state)
    {src dest : Nat} (weight : Int) (srcLive : base.g.Live src) (destLive : base.g.Live dest)
    (result : repairPotential { state with g := state.g.updateEdge src weight dest } src
      dest = some next) :
    KeepsVertices base next := by
  have refines := refines_updateEdge keeps.1 weight (keeps.live srcLive) (keeps.live destLive)
  rw [result] at refines
  have graph : next.g = state.g.updateEdge src weight dest := repairPotential_g result
  have same := updateEdge_sameVertices state.g src dest weight
  refine ⟨refines.1, ?_, ?_⟩
  · rw [graph]
    exact same.1.trans keeps.2.1
  · rw [graph]
    exact same.2.trans keeps.2.2

theorem strengthenLb_invariant (invariant : Invariant s) {v : Nat} {weight : Int}
    (result : s.strengthenLb v weight = some next) : Invariant next := by
  unfold strengthenLb at result
  split at result
  · rename_i present
    rcases present with ⟨old, here, lower⟩
    have ends := invariant.wellFormed.graph.ends _ _ _ (Option.mem_def.mp here)
    rw [Option.bind_eq_bind, Option.bind_eq_some_iff] at result
    rcases result with ⟨first, edge, run⟩
    have below : forall other, s.g.lookup v 0 = some other -> weight ≤ other := by
      intro other there
      rw [Option.mem_def.mp here] at there
      cases there
      exact lower.le
    have refines := refines_setEdge invariant ends.1 ends.2 below
    rw [edge] at refines
    have start : KeepsVertices first first := ⟨refines.1, rfl, rfl⟩
    refine And.left (foldlM_invariant ?_ start run)
    intro state pred member last keeps step
    have predEdge := (refines.1.wellFormed.graph.mem_ePreds).mp member
    have predLive := (refines.1.wellFormed.graph.ends _ _ _ predEdge).1
    split at step
    · cases step
      exact keeps
    · exact keeps.updateEdge _ predLive (Shape.zero_live refines.1.wellFormed) step
  · cases result
    exact invariant

theorem strengthenUb_invariant (invariant : Invariant s) {v : Nat} {weight : Int}
    (result : s.strengthenUb v weight = some next) : Invariant next := by
  unfold strengthenUb at result
  split at result
  · rename_i present
    rcases present with ⟨old, here, lower⟩
    have ends := invariant.wellFormed.graph.ends _ _ _ (Option.mem_def.mp here)
    rw [Option.bind_eq_bind, Option.bind_eq_some_iff] at result
    rcases result with ⟨first, edge, run⟩
    have below : forall other, s.g.lookup 0 v = some other -> weight ≤ other := by
      intro other there
      rw [Option.mem_def.mp here] at there
      cases there
      exact lower.le
    have refines := refines_setEdge invariant ends.1 ends.2 below
    rw [edge] at refines
    have start : KeepsVertices first first := ⟨refines.1, rfl, rfl⟩
    refine And.left (foldlM_invariant ?_ start run)
    intro state succ member last keeps step
    have succEdge := (refines.1.wellFormed.graph.mem_eSuccs).mp member
    have succLive := (refines.1.wellFormed.graph.ends _ _ _ succEdge).2
    split at step
    · cases step
      exact keeps
    · exact keeps.updateEdge _ (Shape.zero_live refines.1.wellFormed) succLive step
  · cases result
    exact invariant

theorem addUnivarDisequation_invariant (invariant : Invariant s) {x : V} {n : Int}
    (result : s.addUnivarDisequation x n = some next) : Invariant next := by
  unfold addUnivarDisequation at result
  dsimp only at result
  split at result
  · cases result
  · split at result
    · cases result
      exact invariant
    · have fetched := invariant.getVert x
      cases bound : (trimInterval (s.getInterval x) n).ub.number with
      | some ub =>
          rw [bound] at result
          have lowered : exists first, Invariant first ∧
              (first.strengthenUb (s.getVert x).1 ub >>= fun s => pure s.normalize) =
              some next := by
            split at result
            · rcases Option.bind_eq_some_iff.mp result with ⟨first, lower, run⟩
              exact ⟨first, strengthenLb_invariant fetched lower, run⟩
            · exact ⟨_, fetched, result⟩
          rcases lowered with ⟨first, firstInvariant, run⟩
          rcases Option.bind_eq_some_iff.mp run with ⟨second, upper, equal⟩
          cases equal
          exact (strengthenUb_invariant firstInvariant upper).normalize
      | none =>
          rw [bound] at result
          have lowered : exists first, Invariant first ∧ some first.normalize = some next := by
            split at result
            · rcases Option.bind_eq_some_iff.mp result with ⟨first, lower, run⟩
              exact ⟨first, strengthenLb_invariant fetched lower, run⟩
            · exact ⟨_, fetched, result⟩
          rcases lowered with ⟨first, firstInvariant, run⟩
          cases run
          exact firstInvariant.normalize

theorem Invariant.addConstraint (invariant : Invariant s) {cst : LinearConstraint V}
    (wellFormed : cst.expression.WellFormed) (result : s.addConstraint cst = some next) :
    Invariant next := by
  by_cases kind : cst.kind = .notZero
  · unfold SplitDbm.addConstraint at result
    split at result
    · cases result
      exact invariant
    · split at result
      · cases result
      · rw [kind] at result
        rcases Option.map_eq_some_iff.mp result with ⟨last, run, rfl⟩
        apply Invariant.normalize
        apply foldlM_invariant ?_ invariant run
        intro state term _ after kept step
        unfold addDisequationTerm at step
        split at step
        · exact addUnivarDisequation_invariant kept step
        · cases step
          exact kept
  · have keeps := addConstraint_keeps invariant wellFormed kind
    rw [result] at keeps
    exact keeps.1

end Disequation

/-! ## Runs -/

/-- The states that sequences of operations lead to. -/
inductive Reachable : SplitDbm V -> Prop
  | top : Reachable top
  | addConstraint {s next : SplitDbm V} {cst : LinearConstraint V} : Reachable s ->
    cst.expression.WellFormed ->
      s.addConstraint cst = some next -> Reachable next
  | assign {s : SplitDbm V} (x : V) {e : LinearExpression V} : Reachable s -> e.WellFormed ->
    Reachable (s.assign x e)
  | set {s : SplitDbm V} (x : V) {intv : Interval} : Reachable s -> ¬ intv.IsBottom ->
    Reachable (s.set x intv)
  | remove {s : SplitDbm V} (x : V) : Reachable s -> Reachable (s.remove x)
  | forget {s : SplitDbm V} (removed : List V) : Reachable s -> Reachable (s.forget removed)
  | join {s o : SplitDbm V} : Reachable s -> Reachable o -> Reachable (join s o)
  | widen {s o : SplitDbm V} : Reachable s -> Reachable o -> Reachable (widen s o)

theorem Reachable.invariant (reachable : Reachable s) : Invariant s := by
  induction reachable with
  | top => exact invariant_top
  | addConstraint _ wellFormed result before => exact before.addConstraint wellFormed result
  | assign x _ wellFormed before => exact (assign_spec before x wellFormed).1
  | set x _ nonempty before => exact (set_spec before x nonempty).1
  | remove x _ before => exact before.remove x
  | forget removed _ before => exact before.forget removed
  | join _ _ left right => exact left.join right
  | widen _ _ left _ => exact left.widen _

/-- The maps are inverse to each other between the mapped variables and the live
vertices other than zero, each vertex has its entries, and the potential meets
the bound of every edge. -/
theorem representation_invariant (reachable : Reachable s) :
    (forall v vert, s.tryAt v = some vert ↔ s.revMap[vert]? = some (some v)) ∧
    (forall vert, (vert ≠ 0 ∧ s.g.Live vert) ↔ exists v, s.tryAt v = some vert) ∧
    s.revMap.length = s.g.size ∧ s.potential.length = s.g.size ∧
    (forall source target weight, s.g.lookup source target = some weight ->
      s.potentialOf source + weight ≥ s.potentialOf target) := by
  have invariant := reachable.invariant
  have wellFormed := invariant.wellFormed
  refine ⟨?_, ?_, wellFormed.revMap_length, wellFormed.potential_length, invariant.valid⟩
  · intro v vert
    rw [wellFormed.mapped]
    exact and_iff_left id
  · intro vert
    constructor
    · rintro ⟨nonzero, live⟩
      rcases Shape.live_cases wellFormed live with zero | impossible | mapped
      · exact absurd zero nonzero
      · exact absurd impossible id
      · exact mapped
    · rintro ⟨v, found⟩
      exact ⟨Shape.ne_zero_of_tryAt wellFormed found, Shape.live_of_tryAt wellFormed found⟩

theorem representation_invariant_run :
    (((top : SplitDbm Nat).assign 0 ⟨3, [(1, 1)]⟩).remove 1).revMap.length =
      (((top : SplitDbm Nat).assign 0 ⟨3, [(1, 1)]⟩).remove 1).g.size := by
  have assigned : Reachable ((top : SplitDbm Nat).assign 0 ⟨3, [(1, 1)]⟩) :=
    .assign 0 .top ⟨by decide, by decide⟩
  exact (representation_invariant (assigned.remove 1)).2.2.1

end SplitDbm
end Crab
end Prevail
