import Mathlib

namespace Prevail

universe u

/-!
# Walks whose cycles are counted

In a finite graph every closed walk may pass through a marked vertex.  A walk
then gets longer without meeting a marked vertex at most once for each vertex
of the graph, since what lies between two marked vertices follows a relation
without cycles, and such a relation has a rank.  So the marked visits bound the
length of the whole walk.
-/

variable {V : Type u}

/-- How many of the vertices lie ahead of one of them. -/
noncomputable def rank (relation : V -> V -> Prop) (vertices : Finset V) (vertex : V) : Nat :=
  have := Classical.decPred (Relation.TransGen relation vertex)
  (vertices.filter (Relation.TransGen relation vertex)).card

/-- The rank falls along a relation without cycles. -/
theorem rank_lt_rank {relation : V -> V -> Prop} {vertices : Finset V} {source target : V}
    (acyclic : ¬ Relation.TransGen relation target target) (inside : target ∈ vertices)
    (step : relation source target) :
    rank relation vertices target < rank relation vertices source := by
  classical
  apply Finset.card_lt_card
  rw [Finset.ssubset_iff_of_subset]
  · refine ⟨target, ?_, ?_⟩
    · exact Finset.mem_filter.mpr ⟨inside, Relation.TransGen.single step⟩
    · exact fun again => acyclic (Finset.mem_filter.mp again).2
  · intro ahead isAhead
    rcases Finset.mem_filter.mp isAhead with ⟨member, walk⟩
    exact Finset.mem_filter.mpr ⟨member, Relation.TransGen.head step walk⟩

theorem rank_lt_card {relation : V -> V -> Prop} {vertices : Finset V} {vertex : V}
    (acyclic : ¬ Relation.TransGen relation vertex vertex) (inside : vertex ∈ vertices) :
    rank relation vertices vertex < vertices.card := by
  classical
  apply Finset.card_lt_card
  rw [Finset.ssubset_iff_of_subset (Finset.filter_subset _ _)]
  exact ⟨vertex, inside, fun again => acyclic (Finset.mem_filter.mp again).2⟩

/-- The walks from a vertex, with their number of steps and the number of these
that leave a marked vertex. -/
inductive CountedWalk (edge : V -> V -> Prop) (marked : V -> Prop) (start : V) :
    Nat -> Nat -> V -> Prop where
  | start : CountedWalk edge marked start 0 0 start
  | plain {steps visits : Nat} {source target : V}
    (walk : CountedWalk edge marked start steps visits source)
      (step : edge source target) (unmarked : ¬ marked source) :
      CountedWalk edge marked start (steps + 1) visits target
  | marked {steps visits : Nat} {source target : V}
    (walk : CountedWalk edge marked start steps visits source)
      (step : edge source target) (isMarked : marked source) :
      CountedWalk edge marked start (steps + 1) (visits + 1) target

namespace CountedWalk

variable {edge : V -> V -> Prop} {marked : V -> Prop} {start : V}

/-- An edge that does not leave a marked vertex. -/
def Unmarked (edge : V -> V -> Prop) (marked : V -> Prop) (source target : V) : Prop :=
  edge source target ∧ ¬ marked source

theorem mem {vertices : Finset V} (first : start ∈ vertices)
    (closed : forall source target, edge source target -> target ∈ vertices)
    {steps visits : Nat} {vertex : V}
    (walk : CountedWalk edge marked start steps visits vertex) : vertex ∈ vertices := by
  cases walk with
  | start => exact first
  | plain _ step _ => exact closed _ _ step
  | marked _ step _ => exact closed _ _ step

/-- Where every closed walk is marked, the marked visits bound the length. -/
theorem length_lt {vertices : Finset V} (first : start ∈ vertices)
    (closed : forall source target, edge source target -> target ∈ vertices)
    (acyclic : forall vertex, ¬ Relation.TransGen (Unmarked edge marked) vertex vertex)
    {steps visits : Nat} {vertex : V} (walk : CountedWalk edge marked start steps visits vertex) :
    steps < (visits + 1) * vertices.card := by
  have ranked : steps + rank (Unmarked edge marked) vertices vertex < (visits + 1) *
      vertices.card := by
    induction walk with
    | start =>
        rw [Nat.zero_add, Nat.zero_add, Nat.one_mul]
        exact rank_lt_card (acyclic start) first
    | plain walk step unmarked inductionHypothesis =>
        have falls := rank_lt_rank (acyclic _) (closed _ _ step)
          (show Unmarked edge marked _ _ from ⟨step, unmarked⟩)
        omega
    | marked walk step isMarked inductionHypothesis =>
        have small := rank_lt_card (acyclic _) (closed _ _ step)
        rw [Nat.add_mul, Nat.one_mul]
        omega
  omega

end CountedWalk
end Prevail
