import Prevail.Crab.IntervalArith
import Prevail.Crab.NumAbsDomain

namespace Prevail
namespace Crab

/-!
# The domain of independent intervals

The instance of the interface on which concrete runs evaluate: each variable
has an interval of its own.  On the states that it can express, and with
constraints on single variables, it answers as the difference bounds do.
-/

namespace Interval

/-- The interval contains a number. -/
def Inhabited (interval : Interval) : Prop := exists n : Int, n ∈ interval

/-- A number of the interval, if there is one. -/
def witness (interval : Interval) : Int :=
  match interval.lb.number, interval.ub.number with
  | some lb, _ => lb
  | none, some ub => ub
  | none, none => 0

theorem witness_mem {interval : Interval} (inhabited : interval.Inhabited) :
    interval.witness ∈ interval := by
  rcases inhabited with ⟨n, lower, upper⟩
  rcases interval with ⟨lb, ub⟩
  cases lb <;> cases ub <;> simp_all [witness, Bound.number, mem_def]
  omega

instance (interval : Interval) : Decidable interval.Inhabited :=
  decidable_of_iff (interval.witness ∈ interval) ⟨fun member => ⟨_, member⟩, witness_mem⟩

theorem inhabited_join {left right : Interval} (inhabited : left.Inhabited) :
    (left.join right).Inhabited := by
  rcases inhabited with ⟨n, member⟩
  exact ⟨n, mem_join (Or.inl member)⟩

end Interval

/-- An interval for each variable, none of them without elements. -/
structure Box (V : Type) where
  intervals : V -> Interval
  inhabited : forall target, (intervals target).Inhabited

namespace IntervalDomain

variable {V : Type} [DecidableEq V]

/-- No state, or a box. -/
abbrev State (V : Type) := Option (Box V)

/-- Each variable lies in its interval. -/
def Represents (state : State V) (values : V -> Int) : Prop :=
  exists box : Box V, state = some box ∧ forall target, values target ∈ box.intervals target

/-- The sum of the intervals of some terms. -/
def evalTerms (intervals : V -> Interval) (terms : List (V × Int)) : Interval :=
  terms.foldr (fun term sum => ((intervals term.1).scale term.2).add sum) (.ofNumber 0)

/-- The interval of an expression. -/
def evalInterval (state : State V) (expression : LinearExpression V) : Interval :=
  match state with
  | none => .bottom
  | some box => (Interval.ofNumber expression.constantTerm).add (evalTerms box.intervals
    expression.variableTerms)

/-- The numbers that stand in the relation to zero. -/
def satisfying : ConstraintKind -> Interval
  | .equalsZero => .ofNumber 0
  | .lessThanOrEqualsZero => ⟨.minusInfinity, .ofNumber 0⟩
  | .lessThanZero => ⟨.minusInfinity, .ofNumber (-1)⟩
  | .notZero => .top

/-- All numbers of an interval stand in the relation to zero. -/
def allHold (kind : ConstraintKind) (interval : Interval) : Bool :=
  match kind with
  | .notZero => decide ((0 : Int) ∉ interval)
  | kind => decide (interval ≤ satisfying kind)

/-- Some number of an interval may stand in the relation to zero. -/
def someHolds (kind : ConstraintKind) (interval : Interval) : Bool :=
  match kind with
  | .notZero => decide (interval.singleton ≠ some 0)
  | kind => !decide (interval.meet (satisfying kind)).IsBottom

/-- The box with another interval for a variable. -/
def update (target : V) (interval : Interval) (inhabited : interval.Inhabited)
    (box : Box V) : Box V where
  intervals := Function.update box.intervals target interval
  inhabited other := by
    by_cases same : other = target
    · rw [same, Function.update_self]
      exact inhabited
    · rw [Function.update_of_ne same]
      exact box.inhabited other

/-- The state with another interval for a variable, if that has elements. -/
def restrict (target : V) (interval : Interval) (box : Box V) : State V :=
  if inhabited : interval.Inhabited then some (update target interval inhabited box) else none

/-- The interval of a variable under a constraint on that variable alone. -/
def refine (kind : ConstraintKind) (constant coefficient : Int) (interval : Interval) : Interval :=
  match kind with
  | .notZero => interval
  | kind =>
      if coefficient = 1 then interval.meet ((satisfying kind).add (.ofNumber (-constant)))
      else if coefficient = -1
        then interval.meet (((satisfying kind).add (.ofNumber (-constant))).scale (-1))
      else interval

/-- The states of a constraint. -/
def addConstraint (constraint : LinearConstraint V) (state : State V) : State V :=
  match state with
  | none => none
  | some box =>
      if someHolds constraint.kind (evalInterval (some box) constraint.expression) then
        match constraint.expression.variableTerms with
        | [(target, coefficient)] =>
            restrict target
              (refine constraint.kind constraint.expression.constantTerm coefficient
                (box.intervals target)) box
        | _ => some box
      else none

/-! ## The laws -/

theorem mem_satisfying {kind : ConstraintKind} {n : Int} (holds : kind.Holds n) :
    n ∈ satisfying kind := by
  cases kind
  · exact Interval.mem_ofNumber.mpr holds
  · exact ⟨trivial, holds⟩
  · refine ⟨trivial, ?_⟩
    rw [satisfying, Bound.ofNumber_le_ofNumber]
    have negative : n < 0 := holds
    omega
  · exact ⟨trivial, trivial⟩

theorem holds_of_mem_satisfying {kind : ConstraintKind} {n : Int} (member : n ∈ satisfying kind)
    (notDisequation : kind ≠ .notZero) : kind.Holds n := by
  cases kind
  · exact Interval.mem_ofNumber.mp member
  · exact member.2
  · have upper := member.2
    rw [satisfying, Bound.ofNumber_le_ofNumber] at upper
    show n < 0
    omega
  · exact absurd rfl notDisequation

omit [DecidableEq V] in
theorem mem_evalTerms {intervals : V -> Interval} {values : V -> Int}
    (inside : forall target, values target ∈ intervals target) (terms : List (V × Int)) :
    LinearExpression.evalTerms values terms ∈ evalTerms intervals terms := by
  induction terms with
  | nil => exact Interval.mem_ofNumber.mpr rfl
  | cons term rest inductionHypothesis =>
      simp only [LinearExpression.evalTerms, List.map_cons, List.sum_cons, evalTerms,
        List.foldr_cons]
      exact Interval.mem_add (Interval.mem_scale term.2 (inside term.1)) inductionHypothesis

omit [DecidableEq V] in
theorem mem_evalInterval {state : State V} {values : V -> Int} {expression : LinearExpression V}
    (represents : Represents state values) :
    expression.eval values ∈ evalInterval state expression := by
  rcases represents with ⟨intervals, rfl, inside⟩
  exact Interval.mem_add (Interval.mem_ofNumber.mpr rfl) (mem_evalTerms inside _)

theorem holds_of_allHold {kind : ConstraintKind} {interval : Interval} {n : Int}
    (all : allHold kind interval = true) (member : n ∈ interval) : kind.Holds n := by
  unfold allHold at all
  split at all
  · rintro rfl
    exact of_decide_eq_true all member
  · rename_i notDisequation
    exact holds_of_mem_satisfying (Interval.mem_of_le (of_decide_eq_true all) member) notDisequation

theorem someHolds_of_holds {kind : ConstraintKind} {interval : Interval} {n : Int}
    (holds : kind.Holds n) (member : n ∈ interval) : someHolds kind interval = true := by
  unfold someHolds
  split
  · rw [decide_eq_true_eq]
    intro single
    exact holds (Interval.eq_of_singleton single member)
  · have common := Interval.mem_meet member (mem_satisfying holds)
    simpa using Interval.not_isBottom_of_mem common

theorem mem_refine {kind : ConstraintKind} {constant coefficient n : Int} {interval : Interval}
    (holds : kind.Holds (constant + coefficient * n)) (member : n ∈ interval) :
    n ∈ refine kind constant coefficient interval := by
  unfold refine
  split
  · exact member
  · have shifted := Interval.mem_add (mem_satisfying holds)
      (Interval.mem_ofNumber.mpr (rfl : -constant = -constant))
    split
    · rename_i one
      have same : constant + coefficient * n + -constant = n := by
        rw [one]
        ring
      rw [same] at shifted
      exact Interval.mem_meet member shifted
    · split
      · rename_i minusOne
        have mirrored := Interval.mem_scale (-1) shifted
        have same : -1 * (constant + coefficient * n + -constant) = n := by
          rw [minusOne]
          ring
        rw [same] at mirrored
        exact Interval.mem_meet member mirrored
      · exact member

theorem represents_restrict {box : Box V} {values : V -> Int} {interval : Interval} {n : Int}
    (inside : forall other, values other ∈ box.intervals other) (target : V)
    (member : n ∈ interval) :
    Represents (restrict target interval box) (Function.update values target n) := by
  unfold restrict
  rw [dif_pos ⟨n, member⟩]
  refine ⟨_, rfl, ?_⟩
  intro other
  by_cases same : other = target
  · subst same
    simpa [update] using member
  · simpa [update, same] using inside other

theorem represents_addConstraint {state : State V} {values : V -> Int}
    {constraint : LinearConstraint V}
    (represents : Represents state values) (holds : constraint.Holds values) :
    Represents (addConstraint constraint state) values := by
  have possible := someHolds_of_holds holds (mem_evalInterval represents)
  rcases represents with ⟨box, rfl, inside⟩
  unfold addConstraint
  simp only [possible, if_true]
  split
  · rename_i target coefficient form
    rw [← Function.update_eq_self target values]
    apply represents_restrict inside
    refine mem_refine ?_ (inside target)
    have value : constraint.expression.eval values =
        constraint.expression.constantTerm + coefficient * values target := by
      simp [LinearExpression.eval, LinearExpression.evalTerms, form]
    rwa [LinearConstraint.Holds, value] at holds
  · exact ⟨box, rfl, inside⟩

/-- The state with a new interval for one variable, where an interval without
elements makes the state empty. -/
def set (target : V) (interval : Interval) (state : State V) : State V :=
  state.bind (restrict target interval)

theorem represents_set {state : State V} {values : V -> Int} {interval : Interval}
    {n : Int} (target : V) (represents : Represents state values) (member : n ∈ interval) :
    Represents (set target interval state) (Function.update values target n) := by
  rcases represents with ⟨box, rfl, inside⟩
  exact represents_restrict inside target member

/-- The union of two states, widened to independent intervals. -/
def join (left right : State V) : State V :=
  match left, right with
  | none, right => right
  | left, none => left
  | some left, some right => some
      { intervals := fun target => (left.intervals target).join (right.intervals target)
        inhabited := fun target => Interval.inhabited_join (left.inhabited target) }

omit [DecidableEq V] in
theorem represents_join {left right : State V} {values : V -> Int}
    (represents : Represents left values ∨ Represents right values) :
    Represents (join left right) values := by
  rcases represents with ⟨box, rfl, inside⟩ | ⟨box, rfl, inside⟩
  · cases right with
    | none => exact ⟨box, rfl, inside⟩
    | some right => exact ⟨_, rfl, fun target => Interval.mem_join (Or.inl (inside target))⟩
  · cases left with
    | none => exact ⟨box, rfl, inside⟩
    | some left => exact ⟨_, rfl, fun target => Interval.mem_join (Or.inr (inside target))⟩

/-- The intervals of a table, where a variable that is absent may have any
value. -/
def ofEntries (entries : List (V × Interval)) (target : V) :
    Interval := (entries.lookup target).getD .top

theorem mem_ofEntries {entries : List (V × Interval)} {values : V -> Int}
    (inside : ∀ entry ∈ entries, values entry.1 ∈ entry.2) (target : V) :
    values target ∈ ofEntries entries target := by
  induction entries with
  | nil => exact ⟨trivial, trivial⟩
  | cons entry rest inductionHypothesis =>
      have inRest := inductionHypothesis
        (fun other member => inside other (List.mem_cons_of_mem _ member))
      unfold ofEntries at inRest ⊢
      rw [List.lookup_cons]
      split
      · rename_i same
        rw [eq_of_beq same]
        exact inside entry List.mem_cons_self
      · exact inRest

/-- The box of a table that contains an assignment. -/
def ofTable (entries : List (V × Interval)) (values : V -> Int)
    (inside : ∀ entry ∈ entries, values entry.1 ∈ entry.2) : State V :=
  some ⟨ofEntries entries, fun target => ⟨values target, mem_ofEntries inside target⟩⟩

theorem represents_ofTable {entries : List (V × Interval)} {values : V -> Int}
    (inside : ∀ entry ∈ entries, values entry.1 ∈ entry.2) :
    Represents (ofTable entries values inside) values :=
  ⟨_, rfl, mem_ofEntries inside⟩

/-- The numbers of a table, and zero for the variables that are absent. -/
def tableValues (table : List (V × Int)) (target : V) : Int := (table.lookup target).getD 0

/-- The box in which the variables of a table have the numbers of the table, and
the others any value. -/
def exactly (table : List (V × Int)) : State V :=
  ofTable (table.map (fun entry => (entry.1, .ofNumber (tableValues table entry.1))))
    (tableValues table) (by
    intro entry member
    rcases List.mem_map.mp member with ⟨exact, _, rfl⟩
    exact Interval.mem_ofNumber.mpr rfl)

theorem represents_exactly (table : List (V × Int)) :
    Represents (exactly table) (tableValues table) :=
  represents_ofTable _

end IntervalDomain

open IntervalDomain in
def intervalDomain (V : Type) [DecidableEq V] : NumAbsDomain V where
  State := State V
  Represents := Represents
  bottom := none
  isBottom := Option.isNone
  evalInterval := evalInterval
  entail state constraint := allHold constraint.kind (evalInterval state constraint.expression)
  addConstraint := addConstraint
  set := set
  join := join
  isBottom_bottom := rfl
  not_represents_of_isBottom := by
    rintro state values empty ⟨box, rfl, _⟩
    cases empty
  mem_evalInterval := mem_evalInterval
  holds_of_entail _ entailed represents := holds_of_allHold entailed (mem_evalInterval represents)
  represents_addConstraint _ := represents_addConstraint
  represents_set target represents member := represents_set target represents member
  represents_join := represents_join

end Crab
end Prevail
