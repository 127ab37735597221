import Mathlib

namespace Prevail

universe u

/-!
# Searches that take the least node first

A search takes nodes of its frontier one by one, each of which adds its
successors.  Where the search has effects on the way, it matters which node comes
first.  Here the least one does, so the relation alone says in which order the
nodes are taken.
-/

section LeastFirst

variable {A : Type u} [LinearOrder A] {follows other : A -> A -> Prop} {start : A} {taken : List A}

/-- The nodes that a search may take next. -/
def searchFrontier (follows : A -> A -> Prop) (start : A) (taken : List A) : Set A :=
  { item | item ∉ taken ∧ (item = start ∨ exists source, source ∈ taken ∧ follows source item) }

/-- The nodes that a search from `start` has taken, the last one in front. -/
inductive LeastFirst (follows : A -> A -> Prop) (start : A) : List A -> Prop where
  | start : LeastFirst follows start []
  | take {taken : List A} {item : A} (before : LeastFirst follows start taken)
      (least : IsLeast (searchFrontier follows start taken) item) :
      LeastFirst follows start (item :: taken)

/-- A search takes what its start reaches. -/
theorem LeastFirst.reaches (search : LeastFirst follows start taken) :
    ∀ item ∈ taken, Relation.ReflTransGen follows start item := by
  induction search with
  | start => exact fun _ member => absurd member List.not_mem_nil
  | take before least inductionHypothesis =>
      intro found member
      rcases List.mem_cons.mp member with rfl | earlier
      · rcases least.1.2 with rfl | ⟨source, isTaken, follows⟩
        · exact .refl
        · exact (inductionHypothesis source isTaken).tail follows
      · exact inductionHypothesis found earlier

theorem LeastFirst.start_mem (search : LeastFirst follows start taken) :
    taken = [] ∨ start ∈ taken := by
  induction search with
  | start => exact Or.inl rfl
  | take before least inductionHypothesis =>
      refine Or.inr ?_
      rcases inductionHypothesis with rfl | member
      · rcases least.1.2 with rfl | ⟨_, isTaken, _⟩
        · exact List.mem_cons_self
        · exact absurd isTaken List.not_mem_nil
      · exact List.mem_cons_of_mem _ member

theorem LeastFirst.eq_nil (search : LeastFirst follows start (start :: taken)) : taken = [] := by
  cases search with
  | take before least => exact before.start_mem.resolve_right least.1.1

/-- Relations that agree on what the start reaches have the same searches. -/
theorem LeastFirst.congr (search : LeastFirst follows start taken)
    (agree : forall source, Relation.ReflTransGen follows start source ->
      forall item, follows source item ↔ other source item) : LeastFirst other start taken := by
  induction search with
  | start => exact .start
  | @take taken item before least inductionHypothesis =>
      have same : searchFrontier follows start taken = searchFrontier other start taken := by
        ext found
        refine and_congr_right fun _ => or_congr_right (exists_congr fun source => ?_)
        exact and_congr_right fun isTaken => agree source (before.reaches source isTaken) found
      exact inductionHypothesis.take (same ▸ least)

end LeastFirst

end Prevail
