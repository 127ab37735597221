import Prevail.Crab.NumAbsDomain
import Prevail.Crab.SplitDbm.AddBottom
import Prevail.Crab.SplitDbm.Disequation

namespace Prevail
namespace Crab

/-!
# Constraints on difference bounds with a bottom

`operator+=` and `entail` of `AddBottom`.  A constraint that cannot be added
leaves bottom, and bottom entails everything.

With them, difference bounds are a numerical domain.
-/

variable {V : Type} [LinearOrder V]

namespace SplitDbm

variable {s next : SplitDbm V} {cst : LinearConstraint V}

theorem Refines.invariant {holds : (V -> Int) -> Prop} {outcome : Option (SplitDbm V)}
    (refines : Refines s holds outcome) (result : outcome = some next) : Invariant next := by
  rw [result] at refines
  exact refines.1

theorem Invariant.of_addConstraint (invariant : Invariant s)
    (result : s.addConstraint cst = some next) :
    Invariant next := by
  cases fixed : cst.expression.isConstant with
  | true => exact (addConstraint_constant_refines invariant fixed).invariant result
  | false =>
      rw [addConstraint_cases fixed] at result
      rcases cst with ⟨exp, kind⟩
      cases kind with
      | lessThanOrEqualsZero =>
        exact (addLinearLeq_refines invariant exp).normalize.invariant result
      | lessThanZero => exact (addLinearLeq_refines invariant _).normalize.invariant result
      | equalsZero =>
          rcases Option.map_eq_some_iff.mp result with ⟨last, run, rfl⟩
          rcases Option.bind_eq_some_iff.mp run with ⟨middle, first, second⟩
          have middleInvariant := (addLinearLeq_refines invariant exp).invariant first
          exact ((addLinearLeq_refines middleInvariant _).invariant second).normalize
      | notZero => exact (addDisequationTerms_refines exp exp.variableTerms
        invariant).normalize.invariant result

end SplitDbm

namespace AddBottom

open SplitDbm

/-- `operator+=`. -/
def addConstraint (cst : LinearConstraint V) : AddBottom V -> AddBottom V
  | none => none
  | some s =>
      match result : s.1.addConstraint cst with
      | none => none
      | some next => some ⟨next, s.2.of_addConstraint result⟩

def entail (cst : LinearConstraint V) : AddBottom V -> Bool
  | none => true
  | some s => s.1.entail cst

theorem addConstraint_eq_some {cst : LinearConstraint V} {state : AddBottom V}
    {next : {s : SplitDbm V // SplitDbm.Invariant s}} : state.addConstraint cst = some next ↔
      exists s, state = some s ∧ s.1.addConstraint cst = some next.1 := by
  cases state with
  | none =>
      constructor
      · intro impossible
        cases impossible
      · rintro ⟨_, impossible, _⟩
        cases impossible
  | some s =>
      simp only [Option.some.injEq, exists_eq_left']
      rw [addConstraint]
      split
      · rename_i refused
        simp [refused]
      · rename_i last result
        have same : s.1.addConstraint cst = some next.1 ↔ last = next.1 := by
          rw [result, Option.some.injEq]
        rw [same, Option.some.injEq]
        exact Subtype.ext_iff

theorem represents_addConstraint_iff {cst : LinearConstraint V}
    {s : {s : SplitDbm V // SplitDbm.Invariant s}}
    {holds : (V -> Int) -> Prop} (refines : Refines s.1 holds (s.1.addConstraint cst))
    (values : V -> Int) :
    AddBottom.Represents (addConstraint cst (some s)) values ↔ s.1.Represents values ∧
      holds values := by
  constructor
  · rintro ⟨next, result, represents⟩
    rcases addConstraint_eq_some.mp result with ⟨_, same, added⟩
    cases same
    rw [added] at refines
    exact (refines.2 values).mp represents
  · rintro ⟨represents, holdsHere⟩
    cases added : s.1.addConstraint cst with
    | none =>
        rw [added] at refines
        exact absurd holdsHere (refines values represents)
    | some next =>
        rw [added] at refines
        exact ⟨⟨next, refines.1⟩, addConstraint_eq_some.mpr ⟨s, rfl, added⟩,
          (refines.2 values).mpr ⟨represents, holdsHere⟩⟩

theorem holds_of_entail {cst : LinearConstraint V} {state : AddBottom V} {values : V -> Int}
    (wellFormed : cst.expression.WellFormed) (entails : state.entail cst = true)
    (represents : state.Represents values) : cst.Holds values := by
  rcases represents with ⟨s, rfl, represents⟩
  exact SplitDbm.holds_of_entail s.2 wellFormed entails represents

def top : AddBottom V := some ⟨SplitDbm.top, SplitDbm.invariant_top⟩

theorem represents_top (values : V -> Int) : (top : AddBottom V).Represents values :=
  ⟨_, rfl, SplitDbm.represents_top values⟩

/-- No assignment that meets a constraint is lost. -/
theorem represents_addConstraint {cst : LinearConstraint V} {state : AddBottom V}
    {values : V -> Int}
    (wellFormed : cst.expression.WellFormed) (kind : cst.kind ≠ .notZero)
    (represents : state.Represents values)
    (holds : cst.Holds values) : AddBottom.Represents (addConstraint cst state) values := by
  rcases represents with ⟨s, rfl, represents⟩
  have keeps := SplitDbm.addConstraint_keeps s.2 wellFormed kind
  cases added : s.1.addConstraint cst with
  | none =>
      rw [added] at keeps
      exact absurd holds (keeps values represents)
  | some next =>
      rw [added] at keeps
      exact ⟨⟨next, keeps.1⟩, addConstraint_eq_some.mpr ⟨s, rfl, added⟩,
        keeps.2 values represents holds⟩

theorem represents_addConstraint_difference {cst : LinearConstraint V} {state : AddBottom V}
    {values : V -> Int} (wellFormed : cst.expression.WellFormed) (kind : cst.kind ≠ .notZero)
    (difference : SplitDbm.IsDifference cst.expression) :
    AddBottom.Represents (addConstraint cst state) values ↔ state.Represents values ∧
      cst.Holds values := by
  cases state with
  | none =>
      constructor
      · intro impossible
        rcases impossible with ⟨_, impossible, _⟩
        cases impossible
      · intro impossible
        rcases impossible with ⟨⟨_, impossible, _⟩, _⟩
        cases impossible
  | some s =>
      rw [represents_addConstraint_iff
        (SplitDbm.addConstraint_refines s.2 wellFormed kind difference) values]
      constructor
      · intro both
        exact ⟨⟨s, rfl, both.1⟩, both.2⟩
      · intro both
        rcases both with ⟨⟨_, same, represents⟩, holds⟩
        cases same
        exact ⟨represents, holds⟩

theorem represents_addConstraint_of_admissible {cst : LinearConstraint V} {state : AddBottom V}
    {values : V -> Int}
    (admissible : cst.Admissible) (represents : state.Represents values)
    (holds : cst.Holds values) :
    AddBottom.Represents (addConstraint cst state) values := by
  by_cases disequation : cst.kind = .notZero
  · rcases cst with ⟨expression, kind⟩
    subst disequation
    rcases represents with ⟨s, rfl, represents⟩
    cases fixed : expression.isConstant with
    | true =>
        have refines := @addConstraint_constant_refines V _ s.1 ⟨expression, .notZero⟩ s.2 fixed
        exact (represents_addConstraint_iff refines values).mpr ⟨represents, holds⟩
    | false =>
        refine (represents_addConstraint_iff (addDisequation_refines s.2 fixed) values).mpr
          ⟨represents, ?_⟩
        exact avoidsTrims_of_units admissible.wellFormed _ (fun term member =>
          ⟨member, admissible.units rfl term member⟩)
          s.2 represents holds
  · exact represents_addConstraint admissible.wellFormed disequation represents holds

/-- A bound or a difference that holds of everything represented is entailed. -/
theorem entail_of_holds {cst : LinearConstraint V} {state : AddBottom V}
    (wellFormed : cst.expression.WellFormed)
    (difference : IsDifference cst.expression)
    (holds : forall values, state.Represents values -> cst.Holds values) :
    state.entail cst = true := by
  cases state with
  | none => rfl
  | some s => exact SplitDbm.entail_of_holds s.2 wellFormed difference (fun values represents =>
      holds values ⟨s, rfl, represents⟩)

/-- `AddBottom<SplitDBM>` as a numerical domain. -/
def domain (V : Type) [DecidableEq V] [LinearOrder V] : NumAbsDomain V where
  State := AddBottom V
  Represents := AddBottom.Represents
  bottom := none
  isBottom := AddBottom.isBottom
  evalInterval := AddBottom.evalInterval
  entail state constraint := AddBottom.entail constraint state
  addConstraint := AddBottom.addConstraint
  set := AddBottom.set
  join := AddBottom.join
  isBottom_bottom := rfl
  not_represents_of_isBottom := by
    rintro state values isBottom ⟨s, rfl, _⟩
    cases isBottom
  mem_evalInterval := fun represents => mem_evalInterval represents _
  holds_of_entail := holds_of_entail
  represents_addConstraint := represents_addConstraint_of_admissible
  represents_set := by
    intro state values interval n target represents member
    apply represents_set represents (fun other different => Function.update_of_ne different ..)
    rw [Function.update_self]
    exact member
  represents_join := represents_join

end AddBottom
end Crab
end Prevail
