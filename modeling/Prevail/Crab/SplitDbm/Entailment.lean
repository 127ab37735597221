import Prevail.Crab.SplitDbm.Constraint

namespace Prevail
namespace Crab
namespace SplitDbm

/-!
# Entailment

`entail` looks at the interval of the expression first, and otherwise asks
whether the negation can be added; `intersect` asks whether the constraint can
be added.  The negation of an inequality is an inequality over the integers, so
a refused negation means that every assignment meets the constraint.
-/

variable {V : Type} [LinearOrder V] {s : SplitDbm V} {values : V -> Int} {loose : Nat -> Prop}

/-- The interval of an expression contains its values. -/
theorem Shape.mem_evalInterval (shape : Shape loose s) (represents : s.Represents values)
    (e : LinearExpression V) : e.eval values ∈ s.evalInterval e := by
  have step : forall (terms : List (V × Int)) (sum : Interval) (value : Int), value ∈ sum ->
      value + LinearExpression.evalTerms values terms ∈
        terms.foldl (fun sum term => sum.add ((s.getInterval term.1).scale term.2)) sum := by
    intro terms
    induction terms with
    | nil =>
        intro sum value inside
        simpa [LinearExpression.evalTerms] using inside
    | cons term rest inductionHypothesis =>
        intro sum value inside
        have scaled := Interval.mem_scale term.2 (shape.mem_getInterval represents term.1)
        have added := inductionHypothesis _ _ (Interval.mem_add inside scaled)
        rw [add_assoc] at added
        simpa [LinearExpression.evalTerms] using added
  exact step e.variableTerms _ _ (Interval.mem_ofNumber.mpr rfl)

theorem holds_of_entailInterval {kind : ConstraintKind} {interval : Interval} {value : Int}
    (accepted : entailInterval kind interval = true) (inside : value ∈ interval) :
    kind.Holds value := by
  cases kind with
  | equalsZero => exact Interval.eq_of_singleton (of_decide_eq_true accepted) inside
  | lessThanOrEqualsZero =>
      exact Bound.ofNumber_le_ofNumber.mp (inside.2.trans (of_decide_eq_true accepted))
  | lessThanZero =>
      exact Bound.ofNumber_lt_ofNumber.mp (lt_of_le_of_lt inside.2 (of_decide_eq_true accepted))
  | notZero =>
      rcases Bool.or_eq_true_iff.mp accepted with below | above
      · exact ne_of_lt (Bound.ofNumber_lt_ofNumber.mp
          (lt_of_le_of_lt inside.2 (of_decide_eq_true below)))
      · exact ne_of_gt (Bound.ofNumber_lt_ofNumber.mp
          (lt_of_lt_of_le (of_decide_eq_true above) inside.1))

theorem not_holds_of_addConstraint (invariant : Invariant s) {cst : LinearConstraint V}
    (wellFormed : cst.expression.WellFormed) (kind : cst.kind ≠ .notZero)
    (refused : s.addConstraint cst = none)
    (represents : s.Represents values) : ¬ cst.Holds values := by
  have keeps := addConstraint_keeps invariant wellFormed kind
  rw [refused] at keeps
  exact keeps values represents

theorem holds_of_entailAux (invariant : Invariant s) {cst : LinearConstraint V}
    (wellFormed : cst.expression.WellFormed) (kind : cst.kind ≠ .equalsZero)
    (accepted : s.entailAux cst = true) (represents : s.Represents values) : cst.Holds values := by
  have refused : s.addConstraint cst.negate = none := Option.isNone_iff_eq_none.mp accepted
  have fails := not_holds_of_addConstraint invariant (LinearConstraint.wellFormed_negate wellFormed)
    (LinearConstraint.negate_kind_ne kind) refused represents
  rw [LinearConstraint.holds_negate, not_not] at fails
  exact fails

theorem holds_of_entail (invariant : Invariant s) {cst : LinearConstraint V}
    (wellFormed : cst.expression.WellFormed) (accepted : s.entail cst = true)
    (represents : s.Represents values) :
    cst.Holds values := by
  unfold entail at accepted
  split at accepted
  · rename_i tautology
    exact LinearConstraint.holds_of_isTautology values tautology
  · split at accepted
    · cases accepted
    · split at accepted
      · rename_i byInterval
        exact holds_of_entailInterval byInterval
          (Shape.mem_evalInterval invariant.wellFormed represents _)
      · split at accepted
        · rename_i equality
          have both := Bool.and_eq_true_iff.mp accepted
          have upper := @holds_of_entailAux V _ s values invariant
            ⟨cst.expression, .lessThanOrEqualsZero⟩ wellFormed
            nofun both.1 represents
          have lower := @holds_of_entailAux V _ s values invariant
            ⟨cst.expression.negate, .lessThanOrEqualsZero⟩
            wellFormed.negate nofun both.2 represents
          simp only [LinearConstraint.Holds, ConstraintKind.Holds,
            LinearExpression.eval_negate] at upper lower
          unfold LinearConstraint.Holds
          rw [equality]
          exact le_antisymm upper (neg_nonpos.mp lower)
        · rename_i inequality
          exact holds_of_entailAux invariant wellFormed inequality accepted represents

/-! ## Bounds and differences -/

omit [LinearOrder V] in
theorem IsDifference.negate_constraint {cst : LinearConstraint V}
    (difference : IsDifference cst.expression) :
    IsDifference cst.negate.expression := by
  rcases cst with ⟨expression, kind⟩
  cases kind with
  | equalsZero => exact difference
  | notZero => exact difference
  | lessThanZero => exact difference.negate
  | lessThanOrEqualsZero => exact difference.negate

theorem entailAux_of_holds (invariant : Invariant s) {cst : LinearConstraint V}
    (wellFormed : cst.expression.WellFormed) (difference : IsDifference cst.expression)
    (kind : cst.kind ≠ .equalsZero)
    (holds : forall values, s.Represents values -> cst.Holds values) :
    s.entailAux cst = true := by
  have refines := addConstraint_refines invariant (LinearConstraint.wellFormed_negate wellFormed)
    (LinearConstraint.negate_kind_ne kind) difference.negate_constraint
  cases result : s.addConstraint cst.negate with
  | none =>
      rw [entailAux, result]
      rfl
  | some next =>
      -- the potential of the result is represented before and meets the negation
      rw [result] at refines
      rcases (refines.2 _).mp refines.1.represents_potential with ⟨before, fails⟩
      rw [LinearConstraint.holds_negate] at fails
      exact absurd (holds _ before) fails

/-- A bound or a difference that holds of everything represented is entailed. -/
theorem entail_of_holds (invariant : Invariant s) {cst : LinearConstraint V}
    (wellFormed : cst.expression.WellFormed) (difference : IsDifference cst.expression)
    (holds : forall values, s.Represents values -> cst.Holds values) : s.entail cst = true := by
  have possible := holds _ invariant.represents_potential
  unfold entail
  split
  · rfl
  · split
    · rename_i contradiction
      exact absurd possible (LinearConstraint.not_holds_of_isContradiction _ contradiction)
    · split
      · rfl
      · split
        · rename_i equality
          have value : forall values, s.Represents values -> cst.expression.eval values = 0 := by
            intro values represents
            have here := holds values represents
            rwa [LinearConstraint.Holds, equality] at here
          rw [Bool.and_eq_true]
          constructor
          · apply @entailAux_of_holds V _ s invariant ⟨cst.expression, .lessThanOrEqualsZero⟩
              wellFormed difference (fun same => by cases same)
            exact fun values represents => (value values represents).le
          · apply @entailAux_of_holds V _ s invariant ⟨cst.expression.negate, .lessThanOrEqualsZero⟩
              wellFormed.negate difference.negate (fun same => by cases same)
            intro values represents
            change LinearExpression.eval values cst.expression.negate ≤ 0
            rw [LinearExpression.eval_negate, value values represents, neg_zero]
        · rename_i inequality
          exact entailAux_of_holds invariant wellFormed difference inequality holds

theorem not_holds_of_intersect (invariant : Invariant s) {cst : LinearConstraint V}
    (wellFormed : cst.expression.WellFormed) (kind : cst.kind ≠ .notZero)
    (refused : s.intersect cst = false)
    (represents : s.Represents values) : ¬ cst.Holds values := by
  unfold intersect at refused
  split at refused
  · rename_i contradiction
    exact LinearConstraint.not_holds_of_isContradiction values contradiction
  · split at refused
    · cases refused
    · exact not_holds_of_addConstraint invariant wellFormed kind
        (Option.isSome_eq_false_iff.mp refused
        |> Option.isNone_iff_eq_none.mp) represents

/-- Both answers that the checks rely on are right. -/
theorem entail_intersect_sound (invariant : Invariant s) {cst : LinearConstraint V}
    (wellFormed : cst.expression.WellFormed) :
    (s.entail cst = true -> forall values, s.Represents values -> cst.Holds values) ∧
    (cst.kind ≠ .notZero -> s.intersect cst = false -> forall values, s.Represents values ->
      ¬ cst.Holds values) :=
  ⟨fun accepted _ represents => holds_of_entail invariant wellFormed accepted represents,
    fun kind refused _ represents =>
    not_holds_of_intersect invariant wellFormed kind refused represents⟩

theorem entail_intersect_sound_bounded : exists bounded : SplitDbm Nat,
    top.addConstraint ⟨⟨-5, [(0, 1)]⟩, .lessThanOrEqualsZero⟩ = some bounded ∧
      bounded.entail ⟨⟨-7, [(0, 1)]⟩, .lessThanOrEqualsZero⟩ = true ∧
      (forall values, bounded.Represents values -> values 0 ≤ 7) := by
  have upper : LinearExpression.WellFormed (V := Nat) ⟨-5, [(0, 1)]⟩ := ⟨by decide, by decide⟩
  have query : LinearExpression.WellFormed (V := Nat) ⟨-7, [(0, 1)]⟩ := ⟨by decide, by decide⟩
  have keeps := @addConstraint_keeps Nat _ top ⟨_, .lessThanOrEqualsZero⟩ invariant_top
    upper (by decide)
  have accepted : ((top.addConstraint (V := Nat) ⟨⟨-5, [(0, 1)]⟩, .lessThanOrEqualsZero⟩).map
    (fun bounded =>
      bounded.entail ⟨⟨-7, [(0, 1)]⟩, .lessThanOrEqualsZero⟩)) = some true := by decide
  rcases Option.map_eq_some_iff.mp accepted with ⟨bounded, result, answer⟩
  rw [result] at keeps
  have sound := @entail_intersect_sound Nat _ bounded keeps.1 ⟨_, .lessThanOrEqualsZero⟩ query
  refine ⟨bounded, result, answer, fun values represents => ?_⟩
  have holds := sound.1 answer values represents
  simp [LinearConstraint.Holds, ConstraintKind.Holds, LinearExpression.eval,
    LinearExpression.evalTerms] at holds
  omega

end SplitDbm
end Crab
end Prevail
