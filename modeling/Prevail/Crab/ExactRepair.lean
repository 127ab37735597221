import Prevail.Crab.PotentialRepair
import Prevail.Library.ShortestPaths

namespace Prevail
namespace Crab

open DifferenceBounds

/-!
# The repair of a potential is exact

`repair_potential` decides whether a new edge closes a negative cycle.  The vector that
it is given is written at the end only, and only if there is no such cycle.
-/

namespace GraphOps

def EdgesBetweenVertices (g : GraphView) : Prop :=
  forall source target weight, g.lookup source target = some weight -> source ∈ g.verts ∧
    target ∈ g.verts

/-- The answer of `repair_potential`, and the potential that it leaves in place. -/
def repairInPlace (g : GraphView) (p : Nat -> Int) (ii jj : Nat) : Bool × (Nat -> Int) :=
  match repairPotential g p ii jj with
  | none => (false, p)
  | some repaired => (true, fun vertex => if vertex ∈ g.verts then repaired vertex else p vertex)

def withoutEdge (edges : Edges Nat) (ii jj : Nat) : Edges Nat :=
  fun source target => if source = ii ∧ target = jj then none else edges source target

section Exact

variable {g : GraphView} {p : Nat -> Int} {ii jj : Nat} {weight : Int}

/-- `repair_potential` fails only if the edge closes a negative cycle. -/
theorem closes_of_repairPotential (models : ModelsExcept g.lookup p ii jj)
    (targets : TargetsBelow g)
    (new : g.lookup ii jj = some weight) (result : repairPotential g p ii jj = none) :
    ∃ around < 0, Path g.lookup ii ii around := by
  rw [repairPotential, new, Option.getD_some] at result
  dsimp only at result
  split at result
  · cases result
  · rename_i negative
    have slackEdge : g.lookup ii jj = some (p ii + weight - p jj + p jj - p ii) := by
      rw [new]
      congr 1
      ring
    have final := repairLoop_final models targets slackEdge (not_le.mp negative)
    split at result
    · rename_i reached
      exact ⟨_, by omega, final.1.path ii reached⟩
    · cases result

theorem EdgesBetweenVertices.targetsBelow (between : EdgesBetweenVertices g) : TargetsBelow g :=
  fun _ _ _ here => (GraphView.mem_verts.mp (between _ _ _ here).2).1

theorem ModelsExcept.noNegativeCycle (models : ModelsExcept g.lookup p ii jj) :
    NoNegativeCycle (withoutEdge g.lookup ii jj) := by
  have fits : Models (withoutEdge g.lookup ii jj) p := by
    intro source target here found
    rw [withoutEdge] at found
    split at found
    · cases found
    · rename_i other
      exact models source target here found other
  exact fits.noNegativeCycle

theorem repairInPlace_models (models : ModelsExcept g.lookup p ii jj)
    (between : EdgesBetweenVertices g)
    (new : g.lookup ii jj = some weight) (succeeds : (repairInPlace g p ii jj).1 = true) :
    Models g.lookup (repairInPlace g p ii jj).2 := by
  rw [repairInPlace] at succeeds ⊢
  cases result : repairPotential g p ii jj with
  | none =>
      rw [result] at succeeds
      cases succeeds
  | some repaired =>
      have fits := repairPotential_models models between.targetsBelow new result
      refine fits.congr between ?_
      intro vertex member
      exact (if_pos member).symm

/-- The repair stops by itself, fails exactly on a negative cycle, and otherwise fits the
potential to the graph. -/
theorem repairInPlace_exact (models : ModelsExcept g.lookup p ii jj)
    (between : EdgesBetweenVertices g) (new : g.lookup ii jj = some weight) :
    (p ii + weight - p jj < 0 ->
        (repairLoop g p g.size (initialRepair p jj (p ii + weight - p jj))).heap = []) ∧
      ((repairInPlace g p ii jj).1 = false ↔ ¬ NoNegativeCycle g.lookup) ∧
      NoNegativeCycle (withoutEdge g.lookup ii jj) ∧
      ((repairInPlace g p ii jj).1 = false -> (repairInPlace g p ii jj).2 = p) ∧
      ((repairInPlace g p ii jj).1 = true -> Models g.lookup (repairInPlace g p ii jj).2) := by
  refine ⟨fun negative => ?_, ⟨fun fails cycles => ?_, fun cycle => ?_⟩, models.noNegativeCycle,
    fun fails => ?_, repairInPlace_models models between new⟩
  · apply (repairLoop_final models between.targetsBelow ?_ negative).2
    rw [new]
    congr 1
    ring
  · cases result : repairPotential g p ii jj with
    | none =>
        rcases closes_of_repairPotential models between.targetsBelow new result with
          ⟨around, negative, path⟩
        exact absurd (cycles _ _ path) (not_le.mpr negative)
    | some repaired =>
        rw [repairInPlace, result] at fails
        cases fails
  · apply Bool.eq_false_iff.mpr
    intro succeeds
    exact cycle (repairInPlace_models models between new succeeds).noNegativeCycle
  · rw [repairInPlace] at fails ⊢
    split
    · rfl
    · rename_i result
      rw [result] at fails
      cases fails

/-- Without a negative weight, the same value everywhere fits. -/
theorem models_of_nonneg {edges : Edges Nat}
    (nonneg : forall source target weight, edges source target = some weight ->
    0 ≤ weight) : Models edges (fun _ => 0) := by
  intro source target weight here
  have atLeast := nonneg source target weight here
  dsimp only
  omega

/-- Two vertices, with an edge each way. -/
def twoVertices : AdaptGraph := ((AdaptGraph.ofSize 2).setEdge 0 3 1).setEdge 1 (-1) 0

/-- The edge to vertex 0 is new, and the potential is repaired. -/
theorem repairInPlace_twoVertices : (repairInPlace twoVertices.view (fun _ => 0) 1 0).1 = true ∧
    Models twoVertices.lookup (repairInPlace twoVertices.view (fun _ => 0) 1 0).2 := by
  have succeeds : (repairInPlace twoVertices.view (fun _ => 0) 1 0).1 = true := by decide
  have wellFormed : twoVertices.WellFormed :=
    ((AdaptGraph.wellFormed_ofSize 2).setEdge ⟨by decide, by decide⟩ ⟨by decide, by decide⟩).setEdge
      ⟨by decide, by decide⟩ ⟨by decide, by decide⟩
  have between : EdgesBetweenVertices twoVertices.view := by
    intro source target weight here
    have ends := wellFormed.ends _ _ _ here
    exact ⟨AdaptGraph.mem_verts.mpr ends.1, AdaptGraph.mem_verts.mpr ends.2⟩
  have models : ModelsExcept twoVertices.lookup (fun _ => 0) 1 0 := by
    intro source target weight here isOther
    rcases set_cases here with ⟨rfl, rfl, _⟩ | old
    · exact absurd ⟨rfl, rfl⟩ isOther
    · rcases set_cases old with ⟨rfl, rfl, rfl⟩ | impossible
      · decide
      · cases impossible
  exact ⟨succeeds, (repairInPlace_exact models between rfl).2.2.2.2 succeeds⟩

end Exact

end GraphOps
end Crab
end Prevail
