import Prevail.Crab.Interval
import Prevail.Crab.Linear

namespace Prevail
namespace Crab

/-!
# Numerical abstract domains

`NumAbsDomain` is `AddBottom<SplitDBM>`: a set of assignments of integers to
variables, represented by difference bounds.  The checks, the conditions and the
joins over types rely on a part of the interface of `add_bottom.hpp` and on the
soundness of its operations, which is what a domain consists of here.  Every
operation has one law, and none of the laws promises precision.

The laws of constraints ask for the expressions that the constructors make, and
that of an added disequation for coefficients one and minus one: difference bounds
divide by the coefficients and round.
-/

/-- The interface of `AddBottom`, with the assignments that a state
represents. -/
structure NumAbsDomain (V : Type) [DecidableEq V] where
  State : Type
  Represents : State -> (V -> Int) -> Prop
  bottom : State
  isBottom : State -> Bool
  evalInterval : State -> LinearExpression V -> Interval
  entail : State -> LinearConstraint V -> Bool
  addConstraint : LinearConstraint V -> State -> State
  set : V -> Interval -> State -> State
  join : State -> State -> State
  isBottom_bottom : isBottom bottom = true
  not_represents_of_isBottom : forall {state values}, isBottom state = true ->
    ¬ Represents state values
  mem_evalInterval : forall {state values expression}, Represents state values ->
    expression.eval values ∈ evalInterval state expression
  holds_of_entail : forall {state values constraint}, constraint.expression.WellFormed ->
    entail state constraint = true -> Represents state values -> constraint.Holds values
  represents_addConstraint : forall {state values constraint}, constraint.Admissible ->
    Represents state values -> constraint.Holds values ->
    Represents (addConstraint constraint state) values
  represents_set : forall {state values interval n} (target : V), Represents state values ->
    n ∈ interval -> Represents (set target interval state) (Function.update values target n)
  represents_join : forall {left right values}, Represents left values ∨ Represents right values ->
    Represents (join left right) values

end Crab
end Prevail
