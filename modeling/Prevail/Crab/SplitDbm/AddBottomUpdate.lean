import Prevail.Crab.SplitDbm.AddBottomConstraint

namespace Prevail
namespace Crab

/-!
# Updates of difference bounds with a bottom

`assign`, `operator-=` and `operator[]` of `AddBottom`, which leave bottom alone.
The invariant of the difference bounds survives the assignment of an expression
whose coefficients are not zero, as its constructors ensure; the assignment
therefore asks for the evidence.
-/

variable {V : Type} [LinearOrder V]

theorem Interval.add_zero_scale_one {interval : Interval} {n : Int} (member : n ∈ interval) :
    (Interval.ofNumber 0).add (interval.scale 1) = interval := by
  have inhabited := Interval.not_isBottom_of_mem member
  have scaled : interval.scale 1 = interval := by
    rw [Interval.scale, if_neg inhabited, if_pos one_pos]
    rcases interval with ⟨lb, ub⟩
    cases lb <;> cases ub <;> simp [Bound.scale]
  have zero : ¬ (Interval.ofNumber 0).IsBottom :=
    Interval.not_isBottom_of_mem (Interval.mem_ofNumber.mpr rfl)
  rw [scaled, Interval.add, if_neg (not_or.mpr ⟨zero, inhabited⟩)]
  rcases interval with ⟨lb, ub⟩
  rcases member with ⟨lower, upper⟩
  cases lb <;> cases ub <;> simp_all [Interval.ofNumber, Bound.addLower, Bound.addUpper]

namespace AddBottom

open SplitDbm

def assign (x : V) (e : LinearExpression V) (wellFormed : e.WellFormed) (state : AddBottom V) :
    AddBottom V :=
  state.map (fun s => ⟨s.1.assign x e, (assign_spec s.2 x wellFormed).1⟩)

/-- `operator-=`. -/
def forget (x : V) (state : AddBottom V) : AddBottom V :=
  state.map (fun s => ⟨s.1.remove x, s.2.remove x⟩)

/-- `operator[]`. -/
def getInterval (x : V) : AddBottom V -> Interval
  | none => .bottom
  | some s => s.1.getInterval x

/-- The assignment of one variable to another one. -/
def assignVar (x y : V) (state : AddBottom V) : AddBottom V :=
  state.assign x (.var y) (LinearExpression.wellFormed_var y)

/-- The assignment of a number. -/
def assignConst (x : V) (n : Int) (state : AddBottom V) : AddBottom V :=
  state.assign x (.const n) (LinearExpression.wellFormed_const n)

def normalize (state : AddBottom V) : AddBottom V :=
  state.map (fun s => ⟨s.1.normalize, s.2.normalize⟩)

variable {state : AddBottom V} {values : V -> Int} {x : V}

theorem represents_normalize (represents : state.Represents values) :
    state.normalize.Represents values := by
  rcases represents with ⟨s, rfl, represents⟩
  exact ⟨_, rfl, (SplitDbm.represents_normalize values).mpr represents⟩

theorem represents_assign (x : V) {e : LinearExpression V} (wellFormed : e.WellFormed)
    (represents : state.Represents values) :
    (state.assign x e wellFormed).Represents (Function.update values x (e.eval values)) := by
  rcases represents with ⟨s, rfl, represents⟩
  exact ⟨_, rfl, (assign_spec s.2 x wellFormed).2 values represents⟩

theorem represents_assignVar (x y : V) (represents : state.Represents values) :
    (state.assignVar x y).Represents (Function.update values x (values y)) := by
  have assigned := represents_assign x (LinearExpression.wellFormed_var y) represents
  rwa [LinearExpression.eval_var] at assigned

theorem represents_assignConst (x : V) (n : Int) (represents : state.Represents values) :
    (state.assignConst x n).Represents (Function.update values x n) := by
  have assigned := represents_assign x (LinearExpression.wellFormed_const n) represents
  rwa [LinearExpression.eval_const] at assigned

theorem represents_forget (x : V) (n : Int) (represents : state.Represents values) :
    (state.forget x).Represents (Function.update values x n) := by
  rcases represents with ⟨s, rfl, represents⟩
  exact ⟨_, rfl, represents_remove s.2 x represents
    (fun w different => Function.update_of_ne different ..)⟩

theorem represents_set_update {intv : Interval} {n : Int} (x : V)
    (represents : state.Represents values)
    (member : n ∈ intv) : (state.set x intv).Represents (Function.update values x n) := by
  apply represents_set represents (fun w different => Function.update_of_ne different ..)
  rw [Function.update_self]
  exact member

theorem mem_getInterval (represents : state.Represents values) (x : V) :
    values x ∈ state.getInterval x := by
  rcases represents with ⟨s, rfl, represents⟩
  exact Shape.mem_getInterval s.2.wellFormed represents x

theorem evalInterval_var (state : AddBottom V) (x : V) :
    state.evalInterval (.var x) = state.getInterval x := by
  cases state with
  | none => rfl
  | some s =>
      have member := Shape.mem_getInterval s.2.wellFormed s.2.represents_potential x
      exact Interval.add_zero_scale_one member

/-- Setting a variable to no number at all leaves bottom. -/
theorem set_isBottom {intv : Interval} (empty : intv.IsBottom) : state.set x intv = none :=
  dif_pos empty

end AddBottom

end Crab
end Prevail
