import Mathlib.Data.List.Basic
import Mathlib.Order.WellFounded

namespace Prevail

universe u v

/-!
# Runs with an amount of fuel

A loop without a bound of its own is a family of partial runs, one for each
amount of fuel.  The loop ends with a result exactly when all large amounts of
fuel give that result.  The rules below follow the shape of a program: a value,
a composition, a filter, and a loop whose rounds cannot go on forever.

The loop rule leaves the fuel of the rounds and the number of rounds apart, as
the rounds may contain loops themselves.
-/

/-- All large amounts of fuel give the result. -/
def Settles {A : Type u} (run : Nat -> Option A) (result : A) : Prop :=
  exists bound, forall fuel, bound ≤ fuel -> run fuel = some result

namespace Settles

variable {A : Type u} {B : Type v}

theorem unique {run : Nat -> Option A} {first second : A} (one : Settles run first)
    (other : Settles run second) :
    first = second := by
  rcases one with ⟨bound, one⟩
  rcases other with ⟨otherBound, other⟩
  have same := (one _ (Nat.le_max_left bound otherBound)).symm.trans
    (other _ (Nat.le_max_right bound otherBound))
  exact Option.some.inj same

theorem of_forall {run : Nat -> Option A} {result : A} (returns : forall fuel, run fuel =
    some result) :
    Settles run result :=
  ⟨0, fun fuel _ => returns fuel⟩

theorem bind {run : Nat -> Option A} {next : Nat -> A -> Option B} {middle : A} {result : B}
    (first : Settles run middle) (second : Settles (fun fuel => next fuel middle) result) :
    Settles (fun fuel => (run fuel).bind (next fuel)) result := by
  rcases first with ⟨bound, first⟩
  rcases second with ⟨laterBound, second⟩
  refine ⟨max bound laterBound, fun fuel enough => ?_⟩
  dsimp only
  rw [first fuel (Nat.le_trans (Nat.le_max_left _ _) enough), Option.bind_some]
  exact second fuel (Nat.le_trans (Nat.le_max_right _ _) enough)

theorem filterM {A : Type} {test : Nat -> A -> Option Bool} {passes : A -> Bool}
    (tests : forall element, Settles (fun fuel => test fuel element) (passes element))
    (list : List A) :
    Settles (fun fuel => list.filterM (test fuel)) (list.filter passes) := by
  have auxiliary : forall found : List A,
      Settles (fun fuel => list.filterAuxM (test fuel) found)
      ((list.filter passes).reverse ++ found) := by
    induction list with
    | nil => exact fun found => of_forall (fun _ => rfl)
    | cons element rest inductionHypothesis =>
        intro found
        have order : ((element :: rest).filter passes).reverse ++ found =
            (rest.filter passes).reverse ++ (cond (passes element) (element :: found) found) := by
          cases accepted : passes element <;> simp [accepted]
        rw [order]
        exact (tests element).bind (inductionHypothesis _)
  rcases auxiliary [] with ⟨bound, returns⟩
  refine ⟨bound, fun fuel enough => ?_⟩
  have reversed := returns fuel enough
  dsimp only at reversed
  change (list.filterAuxM (test fuel) []).bind (fun found => some found.reverse) = some
    (list.filter passes)
  rw [reversed, List.append_nil, Option.bind_some, List.reverse_reverse]

/-- A loop ends when no infinite sequence of rounds is possible.  For enough
inner fuel, a round in `state` either stops with a result or goes on in the next
state, as `next` says. -/
theorem loop (loop : Nat -> Nat -> B -> Option A) {next : B -> A ⊕ B}
    (unfolds : forall state, exists bound, forall inner, bound ≤ inner -> forall rounds,
      loop inner (rounds + 1) state = (next state).elim some (loop inner rounds))
    {state : B} (stops : Acc (fun after before => next before = .inr after) state) :
    exists result bound, forall inner rounds, bound ≤ inner -> bound ≤ rounds ->
      loop inner rounds state = some result := by
  induction stops with
  | intro state _ inductionHypothesis =>
      rcases unfolds state with ⟨unfoldBound, unfold⟩
      cases step : next state with
      | inl result =>
          refine ⟨result, unfoldBound + 1, fun inner rounds enough enoughRounds => ?_⟩
          rcases Nat.exists_eq_add_of_le' (Nat.le_of_add_left_le enoughRounds) with ⟨fewer, rfl⟩
          rw [unfold inner (by omega), step, Sum.elim_inl]
      | inr after =>
          rcases inductionHypothesis after step with ⟨result, bound, returns⟩
          refine ⟨result, unfoldBound + bound + 1, fun inner rounds enough enoughRounds => ?_⟩
          rcases Nat.exists_eq_add_of_le' (Nat.le_of_add_left_le enoughRounds) with ⟨fewer, rfl⟩
          rw [unfold inner (by omega), step, Sum.elim_inr]
          exact returns inner fewer (by omega) (by omega)

/-- The rounds of a loop from a state, while the loop goes on. -/
theorem acc_of_no_run {next : B -> A ⊕ B} {start : B}
    (ends : forall run : Nat -> B, run 0 = start ->
      ∃ round, next (run round) ≠ .inr (run (round + 1))) :
    Acc (fun after before => next before = .inr after) start := by
  rw [acc_iff_isEmpty_descending_chain, isEmpty_subtype]
  rintro run ⟨first, goesOn⟩
  rcases ends run first with ⟨round, stopped⟩
  exact stopped (goesOn round)

/-- A loop ends when a measure decreases in each round. -/
theorem acc_of_measure {next : B -> A ⊕ B} (measure : B -> Nat)
    (decreases : forall {before after : B}, next before = .inr after ->
      measure after < measure before) (start : B) :
    Acc (fun after before => next before = .inr after) start :=
  Subrelation.accessible (fun step => decreases step)
    ((InvImage.wf measure Nat.lt_wfRel.wf).apply start)

end Settles
end Prevail
