import Prevail.Crab.SplitDbm.Entailment
import Prevail.Crab.SplitDbm.Join

namespace Prevail
namespace Crab

/-!
# Difference bounds with a bottom

`AddBottom` of `add_bottom.hpp` over `SplitDBM`, as far as the join of types
uses it: the interval of an expression, the assignment of an interval, and the
join.  A state carries the invariant of its difference bounds.
-/

variable {V : Type} [LinearOrder V]

/-- A state with difference bounds, or none. -/
abbrev AddBottom (V : Type) [LinearOrder V] := Option {s : SplitDbm V // SplitDbm.Invariant s}

namespace AddBottom

open SplitDbm

/-- The assignments that a state represents. -/
def Represents (state : AddBottom V) (values : V -> Int) : Prop :=
  exists s, state = some s ∧ s.1.Represents values

def isBottom (state : AddBottom V) : Bool := Option.isNone state

def evalInterval (state : AddBottom V) (e : LinearExpression V) : Interval :=
  match state with
  | none => .bottom
  | some s => s.1.evalInterval e

def set (x : V) (intv : Interval) (state : AddBottom V) : AddBottom V :=
  if nonempty : intv.IsBottom then none
  else state.map (fun s => ⟨s.1.set x intv, (set_spec s.2 x nonempty).1⟩)

/-- `operator|=`. -/
def join : AddBottom V -> AddBottom V -> AddBottom V
  | state, none => state
  | none, some o => some o
  | some s, some o => some ⟨SplitDbm.join s.1 o.1, s.2.join o.2⟩

theorem exists_represents {state : AddBottom V} (nonempty : state.isBottom = false) :
    exists values, state.Represents values := by
  cases state with
  | none => cases nonempty
  | some s => exact ⟨_, s, rfl, s.2.represents_potential⟩

theorem set_eq_some {state : AddBottom V} {x : V} {intv : Interval}
    {s : {s : SplitDbm V // SplitDbm.Invariant s}}
    (result : state.set x intv = some s) : exists before, state = some before ∧
      s.1 = before.1.set x intv := by
  unfold set at result
  split at result
  · cases result
  · rcases Option.map_eq_some_iff.mp result with ⟨before, isBefore, rfl⟩
    exact ⟨before, isBefore, rfl⟩

theorem mem_evalInterval {state : AddBottom V} {values : V -> Int}
    (represents : state.Represents values)
    (e : LinearExpression V) : e.eval values ∈ state.evalInterval e := by
  rcases represents with ⟨s, rfl, represents⟩
  exact Shape.mem_evalInterval s.2.wellFormed represents e

theorem represents_set {state : AddBottom V} {values others : V -> Int} {intv : Interval} {x : V}
    (represents : state.Represents values) (agree : forall w, w ≠ x -> others w = values w)
    (member : others x ∈ intv) : (state.set x intv).Represents others := by
  rcases represents with ⟨s, rfl, represents⟩
  have nonempty := Interval.not_isBottom_of_mem member
  unfold set
  rw [dif_neg nonempty]
  exact ⟨_, rfl, (set_spec s.2 x nonempty).2 values others represents agree member⟩

theorem represents_join {left right : AddBottom V} {values : V -> Int}
    (either : left.Represents values ∨ right.Represents values) :
    (left.join right).Represents values := by
  rcases left with _ | s <;> rcases right with _ | o
  · rcases either with ⟨_, impossible, _⟩ | ⟨_, impossible, _⟩ <;> cases impossible
  · rcases either with ⟨_, impossible, _⟩ | represents
    · cases impossible
    · exact represents
  · rcases either with represents | ⟨_, impossible, _⟩
    · exact represents
    · cases impossible
  · refine ⟨_, rfl, SplitDbm.represents_join s.2.wellFormed o.2.wellFormed ?_⟩
    rcases either with ⟨_, same, represents⟩ | ⟨_, same, represents⟩
    · cases same
      exact Or.inl represents
    · cases same
      exact Or.inr represents

end AddBottom

/-! ## The bounds that an assignment leaves -/

namespace SplitDbm

open DifferenceBounds

/-- A variable has explicit bounds that are those of an interval, or tighter. -/
structure HasBounds (s : SplitDbm V) (x : V) (intv : Interval) : Prop where
  upper : forall ub, intv.ub = .ofNumber ub ->
    exists vert, s.tryAt x = some vert ∧ ∃ weight ≤ ub, s.g.lookup 0 vert = some weight
  lower : forall lb, intv.lb = .ofNumber lb ->
    exists vert, s.tryAt x = some vert ∧ ∃ weight ≤ -lb, s.g.lookup vert 0 = some weight

namespace HasBounds

variable {s t : SplitDbm V} {x y : V} {intv other : Interval}

theorem mono (has : HasBounds s x intv)
    (sameVert : forall vert, s.tryAt x = some vert -> t.tryAt x = some vert)
    (kept : forall vert source target weight, s.tryAt x = some vert ->
      (source = 0 ∧ target = vert) ∨ (source = vert ∧ target = 0) ->
      s.g.lookup source target = some weight ->
        ∃ lower ≤ weight, t.g.lookup source target = some lower) : HasBounds t x intv := by
  constructor
  · intro ub isUpper
    rcases has.upper ub isUpper with ⟨vert, found, weight, below, here⟩
    rcases kept vert _ _ weight found (Or.inl ⟨rfl, rfl⟩) here with ⟨lower, lowerLe, there⟩
    exact ⟨vert, sameVert vert found, lower, lowerLe.trans below, there⟩
  · intro lb isLower
    rcases has.lower lb isLower with ⟨vert, found, weight, below, here⟩
    rcases kept vert _ _ weight found (Or.inr ⟨rfl, rfl⟩) here with ⟨lower, lowerLe, there⟩
    exact ⟨vert, sameVert vert found, lower, lowerLe.trans below, there⟩

theorem normalize (has : HasBounds s x intv) : HasBounds s.normalize x intv := by
  apply has.mono
  · intro vert found
    rw [normalize_tryAt]
    exact found
  · intro vert source target weight _ _ here
    exact (normalize_tightens s).kept source target weight here

theorem remove (has : HasBounds s x intv) {loose : Nat -> Prop} (wellFormed : Shape loose s)
    (different : x ≠ y) :
    HasBounds (s.remove y) x intv := by
  rcases remove_cases s y with ⟨_, same⟩ | ⟨old, found, dropped⟩
  · rw [same]
    exact has
  · rw [dropped]
    apply HasBounds.normalize
    apply has.mono
    · intro vert there
      exact (tryAt_dropVertex wellFormed x vert).mpr ⟨different, there⟩
    · intro vert source target weight there ends here
      have vertOther := Shape.ne_of_tryAt wellFormed found there different
      have zeroOther := (Shape.ne_zero_of_tryAt wellFormed found).symm
      refine ⟨weight, le_rfl, (dropVertex_lookup wellFormed found).mpr ?_⟩
      rcases ends with ⟨rfl, rfl⟩ | ⟨rfl, rfl⟩
      · exact ⟨zeroOther, vertOther, here⟩
      · exact ⟨vertOther, zeroOther, here⟩

theorem getVert (has : HasBounds s x intv) {loose : Nat -> Prop} (wellFormed : Shape loose s) :
    HasBounds (s.getVert y).2 x intv := by
  apply has.mono
  · intro vert found
    exact (tryAt_getVert wellFormed y x vert).mpr (Or.inr found)
  · intro vert source target weight _ _ here
    rw [getVert_lookup]
    exact ⟨weight, le_rfl, here⟩

/-- Explicit bounds bound what is represented. -/
theorem mem (has : HasBounds s x intv) (wellFormed : s.WellFormed) {n : Int} (inhabited : n ∈ intv)
    {values : V -> Int} (represents : s.Represents values) : values x ∈ intv := by
  rcases inhabited with ⟨lower, upper⟩
  constructor
  · cases isLower : intv.lb with
    | minusInfinity => trivial
    | plusInfinity =>
        rw [isLower] at lower
        exact absurd lower id
    | ofNumber lb =>
        rcases has.lower lb isLower with ⟨vert, found, weight, below, here⟩
        have bounded := represents _ _ _ here
        rw [Shape.vertexValue_zero wellFormed,
          Shape.vertexValue_of_tryAt wellFormed values found] at bounded
        rw [Bound.ofNumber_le_ofNumber]
        omega
  · cases isUpper : intv.ub with
    | minusInfinity =>
        rw [isUpper] at upper
        exact absurd upper id
    | plusInfinity => trivial
    | ofNumber ub =>
        rcases has.upper ub isUpper with ⟨vert, found, weight, below, here⟩
        have bounded := represents _ _ _ here
        rw [Shape.vertexValue_zero wellFormed,
          Shape.vertexValue_of_tryAt wellFormed values found] at bounded
        rw [Bound.ofNumber_le_ofNumber]
        omega

end HasBounds

/-- The edges that `set` leaves before it closes them. -/
structure SetEdges (t : SplitDbm V) (v : Nat) (intv : Interval) (next : SplitDbm V) : Prop where
  vertMap : next.vertMap = t.vertMap
  others : forall source target, ¬ (source = 0 ∧ target = v) -> ¬ (source = v ∧ target = 0) ->
    next.g.lookup source target = t.g.lookup source target
  upper : forall ub, intv.ub = .ofNumber ub -> next.g.lookup 0 v = some ub
  lower : forall lb, intv.lb = .ofNumber lb -> next.g.lookup v 0 = some (-lb)

theorem set_edges (s : SplitDbm V) (x : V) (intv : Interval) (notTop : ¬ intv.IsTop)
    (nonzero : ((s.remove x).getVert x).1 ≠ 0) :
    exists next, SetEdges ((s.remove x).getVert x).2 ((s.remove x).getVert x).1 intv next ∧
      s.set x intv = next.normalize := by
  unfold set
  dsimp only
  rw [if_neg notTop]
  revert nonzero
  generalize ((s.remove x).getVert x).2 = t
  generalize ((s.remove x).getVert x).1 = v
  intro nonzero
  refine ⟨_, ?_, rfl⟩
  rcases intv with ⟨lb, ub⟩
  constructor
  · cases lb <;> cases ub <;> rfl
  · intro source target notUpper notLower
    cases lb <;> cases ub <;>
      simp [Bound.number, AdaptGraph.setEdge, Edges.set, notUpper, notLower]
  · rintro n rfl
    cases lb <;> simp [Bound.number, AdaptGraph.setEdge, Edges.set, nonzero, nonzero.symm]
  · rintro n rfl
    cases ub <;> simp [Bound.number, AdaptGraph.setEdge, Edges.set]

section SetBounds

variable {s : SplitDbm V} {x y : V} {intv other : Interval}

/-- The bounds of the interval that is assigned are explicit. -/
theorem hasBounds_set (invariant : Invariant s) (x : V) : HasBounds (s.set x intv) x intv := by
  by_cases isTop : intv.IsTop
  · constructor
    · intro ub isUpper
      exact absurd isTop.2 (by simp [isUpper, Bound.number])
    · intro lb isLower
      exact absurd isTop.1 (by simp [isLower, Bound.number])
  have removed := (invariant.remove x).wellFormed
  have fetched := Shape.getVert removed x
  have found := tryAt_getVert_self removed x
  have nonzero := Shape.ne_zero_of_tryAt fetched found
  rcases set_edges s x intv isTop nonzero with ⟨next, edges, result⟩
  rw [result]
  apply HasBounds.normalize
  have there : next.tryAt x = some ((s.remove x).getVert x).1 := by
    unfold tryAt
    rw [edges.vertMap]
    exact found
  constructor
  · intro ub isUpper
    exact ⟨_, there, ub, le_rfl, edges.upper ub isUpper⟩
  · intro lb isLower
    exact ⟨_, there, -lb, le_rfl, edges.lower lb isLower⟩

/-- The explicit bounds of other variables stay. -/
theorem HasBounds.set (has : HasBounds s x intv) (invariant : Invariant s) (different : x ≠ y) :
    HasBounds (s.set y other) x intv := by
  have removed := (invariant.remove y).wellFormed
  have kept := has.remove invariant.wellFormed different
  by_cases isTop : other.IsTop
  · unfold SplitDbm.set
    dsimp only
    rw [if_pos isTop]
    exact kept
  · have fetched := Shape.getVert removed y
    have found := tryAt_getVert_self removed y
    have nonzero := Shape.ne_zero_of_tryAt fetched found
    rcases set_edges s y other isTop nonzero with ⟨next, edges, result⟩
    rw [result]
    apply HasBounds.normalize
    apply (kept.getVert removed).mono
    · intro vert there
      unfold tryAt
      rw [edges.vertMap]
      exact there
    · intro vert source target weight there ends here
      have vertOther := Shape.ne_of_tryAt fetched found there different
      refine ⟨weight, le_rfl, ?_⟩
      rw [edges.others, here]
      · rintro ⟨rfl, rfl⟩
        rcases ends with ⟨_, same⟩ | ⟨same, zero⟩
        · exact vertOther same.symm
        · exact nonzero zero
      · rintro ⟨rfl, rfl⟩
        rcases ends with ⟨zero, _⟩ | ⟨same, _⟩
        · exact nonzero zero
        · exact vertOther same.symm

end SetBounds

end SplitDbm

namespace AddBottom

open SplitDbm

/-- The loop that assigns intervals to variables. -/
def setEntries (entries : List (V × Interval)) (state : AddBottom V) : AddBottom V :=
  entries.foldl (fun state entry => state.set entry.1 entry.2) state

variable {state : AddBottom V} {entries : List (V × Interval)} {values : V -> Int}

theorem hasBounds_setEntries {x : V} {intv : Interval} (other : x ∉ entries.map Prod.fst)
    (has : forall s, state = some s -> HasBounds s.1 x intv) :
    forall s, state.setEntries entries = some s -> HasBounds s.1 x intv := by
  induction entries generalizing state with
  | nil => exact has
  | cons entry rest inductionHypothesis =>
      rw [List.map_cons, List.mem_cons, not_or] at other
      apply inductionHypothesis other.2
      intro s result
      rcases set_eq_some result with ⟨before, isBefore, same⟩
      rw [same]
      exact (has before isBefore).set before.2 other.1

/-- Behind the loop, each variable has a value of its interval. -/
theorem mem_of_setEntries (distinct : (entries.map Prod.fst).Nodup)
    (inhabited : ∀ entry ∈ entries, exists n : Int, n ∈ entry.2)
    (represents : (state.setEntries entries).Represents values) :
    ∀ entry ∈ entries, values entry.1 ∈ entry.2 := by
  induction entries generalizing state with
  | nil => exact fun _ member => absurd member List.not_mem_nil
  | cons entry rest inductionHypothesis =>
      rw [List.map_cons, List.nodup_cons] at distinct
      intro found member
      rcases List.mem_cons.mp member with rfl | later
      · have has := @hasBounds_setEntries V _ (state.set found.1 found.2) rest found.1 found.2
          distinct.1 (by
          intro s result
          rcases set_eq_some result with ⟨before, _, same⟩
          rw [same]
          exact hasBounds_set before.2 found.1)
        rcases represents with ⟨s, same, represents⟩
        rcases inhabited found List.mem_cons_self with ⟨n, inside⟩
        exact (has s same).mem s.2.wellFormed inside represents
      · exact inductionHypothesis distinct.2
          (fun entry inRest => inhabited entry (List.mem_cons_of_mem _ inRest))
          represents found later

end AddBottom
end Crab
end Prevail
