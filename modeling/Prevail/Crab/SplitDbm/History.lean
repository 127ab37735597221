import Prevail.Crab.SplitDbm.AddBottomUpdate
import Prevail.Crab.SplitDbm.Inclusion
import Prevail.Crab.SplitDbm.Widen
import Prevail.Crab.SymbolicOverlap
import Prevail.Ebpf.Domain

namespace Prevail
namespace Crab

/-!
# Histories of the numerical domain

A history is a tree of operations of `AddBottom` over `SplitDBM`: it starts from
the states without constraints or without values, it adds constraints, assigns,
sets and forgets, and it brings two histories together by a join, a widening or
a narrowing.  What it collects is the set of valuations that a program with the
same operations leaves; what the domain computes represents all of them,
whether or not its states are in normal form in between.

Disequations are taken with coefficients one and minus one only: the domain
divides by the coefficients and rounds, which loses valuations otherwise.
-/

variable {V : Type} [LinearOrder V]

namespace SplitDbm

def narrow (s o : SplitDbm V) : SplitDbm V := if s.isTop then o else s

theorem Invariant.narrow {s o : SplitDbm V} (invariant : s.Invariant) (other : o.Invariant) :
    (narrow s o).Invariant := by
  unfold SplitDbm.narrow
  split
  · exact other
  · exact invariant

end SplitDbm

namespace AddBottom

open SplitDbm

def narrow : AddBottom V -> AddBottom V -> AddBottom V
  | none, _ => none
  | some _, none => none
  | some s, some o => some ⟨SplitDbm.narrow s.1 o.1, s.2.narrow o.2⟩

variable {left right : AddBottom V} {values : V -> Int}

theorem represents_of_leq (below : left.leq right = true) (represents : left.Represents values) :
    right.Represents values := by
  rcases represents with ⟨s, rfl, represents⟩
  cases right with
  | none => cases below
  | some o => exact ⟨o, rfl, SplitDbm.represents_of_leq s.2 o.2 below represents⟩

theorem represents_widen (either : left.Represents values ∨ right.Represents values) :
    (left.widen right).Represents values := by
  have noValues : ¬ AddBottom.Represents (none : AddBottom V) values := by
    rintro ⟨_, impossible, _⟩
    cases impossible
  cases left with
  | none => exact either.resolve_left noValues
  | some s =>
      cases right with
      | none => exact either.resolve_right noValues
      | some o =>
          refine ⟨_, rfl, SplitDbm.represents_widen s.2.wellFormed o.2.wellFormed ?_⟩
          rcases either with ⟨_, same, represents⟩ | ⟨_, same, represents⟩
          · cases same
            exact Or.inl represents
          · cases same
            exact Or.inr represents

theorem represents_narrow (inLeft : left.Represents values) (inRight : right.Represents values) :
    (left.narrow right).Represents values := by
  rcases inLeft with ⟨s, rfl, inLeft⟩
  rcases inRight with ⟨o, rfl, inRight⟩
  refine ⟨_, rfl, ?_⟩
  unfold SplitDbm.narrow
  split
  · exact inRight
  · exact inLeft

end AddBottom

/-! ## Histories -/

/-- The operations, each applied to the histories that its operands come from. -/
inductive History (V : Type) [LinearOrder V] where
  | top
  | bottom
  | addConstraint (cst : LinearConstraint V) (admissible : cst.Admissible) (before : History V)
  | assign (x : V) (e : LinearExpression V) (wellFormed : e.WellFormed) (before : History V)
  | set (x : V) (intv : Interval) (before : History V)
  | forget (x : V) (before : History V)
  | join (left right : History V)
  | widen (left right : History V)
  | narrow (left right : History V)

namespace History

/-- What the domain computes. -/
def run : History V -> AddBottom V
  | top => AddBottom.top
  | bottom => none
  | addConstraint cst _ before => before.run.addConstraint cst
  | assign x e wellFormed before => before.run.assign x e wellFormed
  | set x intv before => before.run.set x intv
  | forget x before => before.run.forget x
  | join left right => left.run.join right.run
  | widen left right => left.run.widen right.run
  | narrow left right => left.run.narrow right.run

/-- The valuations that a program with the same operations leaves. -/
def collect : History V -> Set (V -> Int)
  | top => Set.univ
  | bottom => ∅
  | addConstraint cst _ before => {values | values ∈ before.collect ∧ cst.Holds values}
  | assign x e _ before =>
    (fun values => Function.update values x (e.eval values)) '' before.collect
  | set x intv before => {values | ∃ old ∈ before.collect, ∃ n ∈ intv,
    values = Function.update old x n}
  | forget x before => {values | ∃ old ∈ before.collect, exists n, values = Function.update old x n}
  | join left right => left.collect ∪ right.collect
  | widen left right => left.collect ∪ right.collect
  | narrow left right => left.collect ∩ right.collect

theorem represents_of_mem_collect {history : History V} {values : V -> Int}
    (member : values ∈ history.collect) :
    history.run.Represents values := by
  induction history generalizing values with
  | top => exact AddBottom.represents_top values
  | bottom => cases member
  | addConstraint cst admissible before inductionHypothesis =>
      exact AddBottom.represents_addConstraint_of_admissible admissible
        (inductionHypothesis member.1) member.2
  | assign x e wellFormed before inductionHypothesis =>
      rcases member with ⟨old, inside, rfl⟩
      exact AddBottom.represents_assign x wellFormed (inductionHypothesis inside)
  | set x intv before inductionHypothesis =>
      rcases member with ⟨old, inside, n, allowed, rfl⟩
      exact AddBottom.represents_set_update x (inductionHypothesis inside) allowed
  | forget x before inductionHypothesis =>
      rcases member with ⟨old, inside, n, rfl⟩
      exact AddBottom.represents_forget x n (inductionHypothesis inside)
  | join left right leftHypothesis rightHypothesis =>
      exact AddBottom.represents_join (member.imp leftHypothesis rightHypothesis)
  | widen left right leftHypothesis rightHypothesis =>
      exact AddBottom.represents_widen (member.imp leftHypothesis rightHypothesis)
  | narrow left right leftHypothesis rightHypothesis =>
      exact AddBottom.represents_narrow (leftHypothesis member.1) (rightHypothesis member.2)

/-- Whatever the domain answers behind a history is true of every valuation that
the history collects: bottom, an interval, an entailed constraint and an
inclusion in what another history computed. -/
theorem answers_sound (history : History V) :
    (history.run.isBottom = true -> history.collect = ∅) ∧
    (∀ values ∈ history.collect, forall e : LinearExpression V,
      e.eval values ∈ history.run.evalInterval e) ∧
    (forall cst : LinearConstraint V, cst.expression.WellFormed -> history.run.entail cst = true ->
      ∀ values ∈ history.collect, cst.Holds values) ∧
    (forall other : History V, history.run.leq other.run = true ->
      ∀ values ∈ history.collect, other.run.Represents values) := by
  refine ⟨?_, ?_, ?_, ?_⟩
  · intro isBottom
    refine Set.eq_empty_iff_forall_notMem.mpr (fun values member => ?_)
    rcases represents_of_mem_collect member with ⟨s, found, _⟩
    rw [found] at isBottom
    cases isBottom
  · intro values member e
    exact AddBottom.mem_evalInterval (represents_of_mem_collect member) e
  · intro cst wellFormed entails values member
    exact AddBottom.holds_of_entail wellFormed entails (represents_of_mem_collect member)
  · intro other below values member
    exact AddBottom.represents_of_leq below (represents_of_mem_collect member)

end History

end Crab
end Prevail
