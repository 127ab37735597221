import Mathlib

namespace Prevail
namespace Crab

universe u

/-!
# Linear expressions and constraints

`linear_expression_t`, `linear_constraint_t` and the operators of
`dsl_syntax.hpp`, over any type of variables.  The terms of an expression have
distinct variables and coefficients other than zero; the order of the terms
carries no meaning.
-/

variable {V : Type u} [DecidableEq V]

structure LinearExpression (V : Type u) where
  constantTerm : Int
  variableTerms : List (V × Int)
  deriving DecidableEq

namespace LinearExpression

/-- An expression that is a number. -/
def const (n : Int) : LinearExpression V := ⟨n, []⟩

/-- An expression that is a variable. -/
def var (variable_ : V) : LinearExpression V := ⟨0, [(variable_, 1)]⟩

/-- Add to the coefficient of one variable, where a coefficient of zero means
the absence of the term. -/
def addTerm (variable_ : V) (coefficient : Int) : List (V × Int) -> List (V × Int)
  | [] => if coefficient = 0 then [] else [(variable_, coefficient)]
  | (other, otherCoefficient) :: rest =>
      if other = variable_ then
        if otherCoefficient + coefficient = 0 then rest
          else (other, otherCoefficient + coefficient) :: rest
      else (other, otherCoefficient) :: addTerm variable_ coefficient rest

def multiply (expression : LinearExpression V) (factor : Int) : LinearExpression V where
  constantTerm := expression.constantTerm * factor
  variableTerms :=
    if factor = 0 then [] else expression.variableTerms.map (fun term => (term.1, term.2 * factor))

def plus (left right : LinearExpression V) : LinearExpression V where
  constantTerm := left.constantTerm + right.constantTerm
  variableTerms := right.variableTerms.foldl (fun terms term => addTerm term.1 term.2 terms)
    left.variableTerms

def negate (expression : LinearExpression V) : LinearExpression V := expression.multiply (-1)

def subtract (left right : LinearExpression V) : LinearExpression V := left.plus right.negate

def isConstant (expression : LinearExpression V) : Bool := expression.variableTerms.isEmpty

/-- What the constructors ensure. -/
structure WellFormed (expression : LinearExpression V) : Prop where
  distinct : (expression.variableTerms.map Prod.fst).Nodup
  nonzero : ∀ term ∈ expression.variableTerms, term.2 ≠ 0

section WellFormed

theorem mem_addTerm {variable_ : V} {coefficient : Int} {terms : List (V × Int)} {term : V × Int}
    (member : term ∈ addTerm variable_ coefficient terms) :
    (term.1 = variable_ ∧ term.2 ≠ 0) ∨ term ∈ terms := by
  induction terms with
  | nil =>
      unfold addTerm at member
      split at member
      · cases member
      · rename_i nonzero
        rw [List.mem_singleton.mp member]
        exact Or.inl ⟨rfl, nonzero⟩
  | cons first rest inductionHypothesis =>
      unfold addTerm at member
      split at member
      · rename_i same
        split at member
        · exact Or.inr (List.mem_cons_of_mem _ member)
        · rename_i nonzero
          rcases List.mem_cons.mp member with rfl | later
          · exact Or.inl ⟨same, nonzero⟩
          · exact Or.inr (List.mem_cons_of_mem _ later)
      · rcases List.mem_cons.mp member with rfl | later
        · exact Or.inr List.mem_cons_self
        · exact (inductionHypothesis later).imp id (List.mem_cons_of_mem _)

theorem nodup_addTerm {terms : List (V × Int)} (distinct : (terms.map Prod.fst).Nodup)
    (variable_ : V)
    (coefficient : Int) : ((addTerm variable_ coefficient terms).map Prod.fst).Nodup := by
  induction terms with
  | nil =>
      unfold addTerm
      split <;> simp
  | cons first rest inductionHypothesis =>
      rw [List.map_cons, List.nodup_cons] at distinct
      unfold addTerm
      split
      · split
        · exact distinct.2
        · exact List.nodup_cons.mpr distinct
      · rename_i different
        refine List.nodup_cons.mpr ⟨?_, inductionHypothesis distinct.2⟩
        intro inside
        rcases List.mem_map.mp inside with ⟨term, member, same⟩
        rcases mem_addTerm member with ⟨isVariable, _⟩ | old
        · exact different (same.symm.trans isVariable)
        · exact distinct.1 (List.mem_map.mpr ⟨term, old, same⟩)

omit [DecidableEq V] in
@[simp] theorem wellFormed_const (n : Int) : WellFormed (const n : LinearExpression V) := by
  constructor <;> simp [const]

omit [DecidableEq V] in
@[simp] theorem wellFormed_var (variable_ : V) : (var variable_).WellFormed := by
  constructor <;> simp [var]

omit [DecidableEq V] in
theorem WellFormed.multiply {expression : LinearExpression V} (wellFormed : expression.WellFormed)
    (factor : Int) :
    (expression.multiply factor).WellFormed := by
  unfold LinearExpression.multiply
  by_cases zero : factor = 0
  · constructor <;> simp [zero]
  · constructor
    · simpa [zero, Function.comp_def] using wellFormed.distinct
    · intro term member
      simp only [zero, if_false, List.mem_map] at member
      rcases member with ⟨old, oldMember, rfl⟩
      exact mul_ne_zero (wellFormed.nonzero old oldMember) zero

omit [DecidableEq V] in
theorem WellFormed.negate {expression : LinearExpression V} (wellFormed : expression.WellFormed) :
    expression.negate.WellFormed := wellFormed.multiply (-1)

@[simp] theorem WellFormed.plus {left : LinearExpression V} (wellFormed : left.WellFormed)
    (right : LinearExpression V) :
    (left.plus right).WellFormed := by
  have step : forall (added terms : List (V × Int)), (terms.map Prod.fst).Nodup ->
      (∀ term ∈ terms, term.2 ≠ 0) ->
      WellFormed ⟨0, added.foldl (fun terms term => addTerm term.1 term.2 terms) terms⟩ := by
    intro added
    induction added with
    | nil => exact fun terms distinct nonzero => ⟨distinct, nonzero⟩
    | cons first rest inductionHypothesis =>
        intro terms distinct nonzero
        apply inductionHypothesis
        · exact nodup_addTerm distinct _ _
        · intro term member
          exact (mem_addTerm member).elim And.right (nonzero term)
  have both := step right.variableTerms left.variableTerms wellFormed.distinct wellFormed.nonzero
  exact ⟨both.distinct, both.nonzero⟩

@[simp] theorem WellFormed.subtract {left : LinearExpression V} (wellFormed : left.WellFormed)
    (right : LinearExpression V) :
    (left.subtract right).WellFormed := wellFormed.plus right.negate

end WellFormed

/-- The sum of the terms under an assignment of numbers to variables. -/
def evalTerms (values : V -> Int) (terms : List (V × Int)) : Int :=
  (terms.map (fun term => term.2 * values term.1)).sum

/-- The value of an expression under an assignment. -/
def eval (values : V -> Int) (expression : LinearExpression V) : Int :=
  expression.constantTerm + evalTerms values expression.variableTerms

section Values

variable (values : V -> Int)

omit [DecidableEq V] in
@[simp] theorem eval_const (n : Int) : eval values (const n) = n := by
  simp [eval, const, evalTerms]

omit [DecidableEq V] in
@[simp] theorem eval_var (variable_ : V) : eval values (var variable_) = values variable_ := by
  simp [eval, var, evalTerms]

theorem evalTerms_addTerm (variable_ : V) (coefficient : Int) (terms : List (V × Int)) :
    evalTerms values (addTerm variable_ coefficient terms) =
      evalTerms values terms + coefficient * values variable_ := by
  induction terms with
  | nil =>
      unfold addTerm
      split
      · rename_i zero
        simp [zero]
      · simp [evalTerms]
  | cons term rest inductionHypothesis =>
      unfold addTerm
      split
      · rename_i same
        split
        · rename_i zero
          have cancelled : term.2 = -coefficient := by omega
          simp [evalTerms, same, cancelled]
        · simp [evalTerms, same]
          ring
      · simp only [evalTerms, List.map_cons, List.sum_cons] at inductionHypothesis ⊢
        rw [inductionHypothesis]
        ring

theorem evalTerms_foldl (added terms : List (V × Int)) :
    evalTerms values (added.foldl (fun terms term => addTerm term.1 term.2 terms) terms) =
      evalTerms values terms + evalTerms values added := by
  induction added generalizing terms with
  | nil => simp [evalTerms]
  | cons term rest inductionHypothesis =>
      rw [List.foldl_cons, inductionHypothesis, evalTerms_addTerm]
      simp [evalTerms]
      ring

@[simp] theorem eval_plus (left right : LinearExpression V) :
    eval values (left.plus right) = eval values left + eval values right := by
  simp only [eval, plus, evalTerms_foldl]
  ring

omit [DecidableEq V] in
theorem evalTerms_scale (factor : Int) (terms : List (V × Int)) :
    evalTerms values (terms.map (fun term => (term.1, term.2 * factor))) =
      evalTerms values terms * factor := by
  induction terms with
  | nil => simp [evalTerms]
  | cons term rest inductionHypothesis =>
      simp only [evalTerms, List.map_cons, List.sum_cons] at inductionHypothesis ⊢
      rw [inductionHypothesis]
      ring

omit [DecidableEq V] in
@[simp] theorem eval_multiply (expression : LinearExpression V) (factor : Int) :
    eval values (expression.multiply factor) = eval values expression * factor := by
  unfold eval multiply
  split
  · rename_i zero
    simp [zero, evalTerms]
  · rw [evalTerms_scale]
    ring

omit [DecidableEq V] in
@[simp] theorem eval_negate (expression : LinearExpression V) :
    eval values expression.negate = -eval values expression := by
  simp [negate]

@[simp] theorem eval_subtract (left right : LinearExpression V) :
    eval values (left.subtract right) = eval values left - eval values right := by
  rw [subtract, eval_plus, eval_negate, sub_eq_add_neg]

end Values

end LinearExpression

inductive ConstraintKind where
  | equalsZero | lessThanOrEqualsZero | lessThanZero | notZero
  deriving DecidableEq

/-- The relation of a value to zero that a kind asks for. -/
def ConstraintKind.Holds : ConstraintKind -> Int -> Prop
  | .equalsZero, value => value = 0
  | .lessThanOrEqualsZero, value => value ≤ 0
  | .lessThanZero, value => value < 0
  | .notZero, value => value ≠ 0

instance decidableHolds : (kind : ConstraintKind) -> (value : Int) -> Decidable (kind.Holds value)
  | .equalsZero, value => inferInstanceAs (Decidable (value = 0))
  | .lessThanOrEqualsZero, value => inferInstanceAs (Decidable (value ≤ 0))
  | .lessThanZero, value => inferInstanceAs (Decidable (value < 0))
  | .notZero, value => inferInstanceAs (Decidable (value ≠ 0))

structure LinearConstraint (V : Type u) where
  expression : LinearExpression V
  kind : ConstraintKind
  deriving DecidableEq

namespace LinearConstraint

def isTautology (constraint : LinearConstraint V) : Bool :=
  constraint.expression.isConstant &&
    decide (constraint.kind.Holds constraint.expression.constantTerm)

def isContradiction (constraint : LinearConstraint V) : Bool :=
  constraint.expression.isConstant && !constraint.isTautology

def negate (constraint : LinearConstraint V) : LinearConstraint V :=
  match constraint.kind with
  | .notZero => ⟨constraint.expression, .equalsZero⟩
  | .equalsZero => ⟨constraint.expression, .notZero⟩
  | .lessThanZero => ⟨constraint.expression.negate, .lessThanOrEqualsZero⟩
  | .lessThanOrEqualsZero => ⟨constraint.expression.negate, .lessThanZero⟩

def falseConst : LinearConstraint V := ⟨.const 0, .notZero⟩

def trueConst : LinearConstraint V := ⟨.const 0, .equalsZero⟩

/-- `left <= right`. -/
def le (left right : LinearExpression V) : LinearConstraint V :=
  ⟨left.subtract right, .lessThanOrEqualsZero⟩

/-- `left < right`. -/
def lt (left right : LinearExpression V) : LinearConstraint V :=
  ⟨left.subtract right, .lessThanZero⟩

/-- `left >= right`. -/
def ge (left right : LinearExpression V) : LinearConstraint V := le right left

/-- `left > right`. -/
def gt (left right : LinearExpression V) : LinearConstraint V := lt right left

/-- `left == right`. -/
def eq (left right : LinearExpression V) : LinearConstraint V := ⟨left.subtract right, .equalsZero⟩

/-- `left != right`. -/
def ne (left right : LinearExpression V) : LinearConstraint V := ⟨left.subtract right, .notZero⟩

section WellFormed

variable {left right : LinearExpression V}

@[simp] theorem wellFormed_le (wellFormed : left.WellFormed) :
    (le left right).expression.WellFormed :=
  wellFormed.subtract right

@[simp] theorem wellFormed_lt (wellFormed : left.WellFormed) :
    (lt left right).expression.WellFormed :=
  wellFormed.subtract right

@[simp] theorem wellFormed_ge (wellFormed : right.WellFormed) :
    (ge left right).expression.WellFormed :=
  wellFormed.subtract left

@[simp] theorem wellFormed_gt (wellFormed : right.WellFormed) :
    (gt left right).expression.WellFormed :=
  wellFormed.subtract left

@[simp] theorem wellFormed_eq (wellFormed : left.WellFormed) :
    (eq left right).expression.WellFormed :=
  wellFormed.subtract right

@[simp] theorem wellFormed_ne (wellFormed : left.WellFormed) :
    (ne left right).expression.WellFormed :=
  wellFormed.subtract right

end WellFormed

/-- The constraints that the domains add without losing assignments: the
expression is one that the constructors make, and a disequation has coefficients
one and minus one only. -/
structure Admissible (constraint : LinearConstraint V) : Prop where
  wellFormed : constraint.expression.WellFormed
  units : constraint.kind = .notZero -> ∀ term ∈ constraint.expression.variableTerms, IsUnit term.2

omit [DecidableEq V] in
theorem Admissible.of_kind {constraint : LinearConstraint V}
    (wellFormed : constraint.expression.WellFormed)
    (kind : constraint.kind ≠ .notZero) : constraint.Admissible :=
  ⟨wellFormed, fun disequation => absurd disequation kind⟩

omit [DecidableEq V] in
theorem wellFormed_negate {constraint : LinearConstraint V}
    (wellFormed : constraint.expression.WellFormed) :
    constraint.negate.expression.WellFormed := by
  rcases constraint with ⟨expression, kind⟩
  cases kind with
  | equalsZero => exact wellFormed
  | notZero => exact wellFormed
  | lessThanZero => exact wellFormed.negate
  | lessThanOrEqualsZero => exact wellFormed.negate

omit [DecidableEq V] in
theorem negate_kind_ne {constraint : LinearConstraint V} (kind : constraint.kind ≠ .equalsZero) :
    constraint.negate.kind ≠ .notZero := by
  rcases constraint with ⟨expression, constraintKind⟩
  cases constraintKind with
  | equalsZero => exact absurd rfl kind
  | notZero => simp [negate]
  | lessThanZero => simp [negate]
  | lessThanOrEqualsZero => simp [negate]

/-- The constraint holds of an assignment. -/
def Holds (values : V -> Int) (constraint : LinearConstraint V) : Prop :=
  constraint.kind.Holds (constraint.expression.eval values)

section Values

variable (values : V -> Int) (left right : LinearExpression V)

omit [DecidableEq V] in
@[simp] theorem not_holds_falseConst : ¬ Holds values (falseConst : LinearConstraint V) := by
  simp [Holds, falseConst, ConstraintKind.Holds]

omit [DecidableEq V] in
@[simp] theorem holds_trueConst : Holds values (trueConst : LinearConstraint V) := by
  simp [Holds, trueConst, ConstraintKind.Holds]

@[simp] theorem holds_le : Holds values (le left right) ↔ left.eval values ≤ right.eval values := by
  simp [Holds, le, ConstraintKind.Holds]

@[simp] theorem holds_lt : Holds values (lt left right) ↔ left.eval values < right.eval values := by
  simp [Holds, lt, ConstraintKind.Holds]

@[simp] theorem holds_ge : Holds values (ge left right) ↔ right.eval values ≤ left.eval values := by
  simp [ge]

@[simp] theorem holds_gt : Holds values (gt left right) ↔ right.eval values < left.eval values := by
  simp [gt]

@[simp] theorem holds_eq : Holds values (eq left right) ↔ left.eval values = right.eval values := by
  simp [Holds, eq, ConstraintKind.Holds, sub_eq_zero]

@[simp] theorem holds_ne : Holds values (ne left right) ↔ left.eval values ≠ right.eval values := by
  simp [Holds, ne, ConstraintKind.Holds, sub_eq_zero]

omit [DecidableEq V] in
@[simp] theorem holds_negate (constraint : LinearConstraint V) :
    Holds values constraint.negate ↔ ¬ Holds values constraint := by
  rcases constraint with ⟨expression, kind⟩
  cases kind <;> simp [Holds, negate, ConstraintKind.Holds]

omit [DecidableEq V] in
theorem holds_of_isTautology {constraint : LinearConstraint V}
    (tautology : constraint.isTautology = true) :
    Holds values constraint := by
  rcases constraint with ⟨⟨constantTerm, variableTerms⟩, kind⟩
  simp only [isTautology, LinearExpression.isConstant, Bool.and_eq_true, List.isEmpty_iff,
    decide_eq_true_eq] at tautology
  rcases tautology with ⟨rfl, holds⟩
  simpa [Holds, LinearExpression.eval, LinearExpression.evalTerms] using holds

omit [DecidableEq V] in
theorem not_holds_of_isContradiction {constraint : LinearConstraint V}
    (contradiction : constraint.isContradiction = true) : ¬ Holds values constraint := by
  rcases constraint with ⟨⟨constantTerm, variableTerms⟩, kind⟩
  simp only [isContradiction, isTautology, LinearExpression.isConstant, Bool.and_eq_true,
    List.isEmpty_iff, Bool.not_eq_true', Bool.and_eq_false_iff] at contradiction
  rcases contradiction with ⟨rfl, fails⟩
  simpa [Holds, LinearExpression.eval, LinearExpression.evalTerms] using fails

end Values

end LinearConstraint

end Crab
end Prevail
