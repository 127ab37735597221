import Prevail.Crab.SplitDbm.Normal
import Prevail.Crab.SplitDbm.Assign

namespace Prevail
namespace Crab
namespace SplitDbm

open DifferenceBounds

/-!
# Forgetting variables

Removing a variable drops the edges at its vertex.  In normal form these edges
have left nothing to say about the other variables: what is implied between
them is explicit without the vertex.  The removal is therefore the exact
projection, and its result is in normal form again, so that the same holds for
any number of removals.
-/

variable {V : Type} [LinearOrder V] {s : SplitDbm V} {values : V -> Int}

theorem finite_lookup (wellFormed : s.WellFormed) (vert : Nat) :
    {target | (s.g.lookup vert target).isSome}.Finite ∧
      {source | (s.g.lookup source vert).isSome}.Finite := by
  constructor
  · apply (Set.finite_lt_nat s.g.size).subset
    intro target present
    rcases Option.isSome_iff_exists.mp present with ⟨weight, edge⟩
    exact (wellFormed.graph.ends _ _ _ edge).2.1
  · apply (Set.finite_lt_nat s.g.size).subset
    intro source present
    rcases Option.isSome_iff_exists.mp present with ⟨weight, edge⟩
    exact (wellFormed.graph.ends _ _ _ edge).1.1

theorem Normal.closed_dropVertex (normal : Normal s) {v : V} {vert : Nat}
    (found : s.tryAt v = some vert) :
    SplitClosed 0 (dropVertex s v vert).g.lookup := by
  have nonzero := Shape.ne_zero_of_tryAt normal.wellFormed found
  have kept : forall {source target : Nat} {weight : Int}, source ≠ vert -> target ≠ vert ->
      s.g.lookup source target = some weight ->
      (dropVertex s v vert).g.lookup source target = some weight :=
    fun sourceOther targetOther edge => (dropVertex_lookup normal.wellFormed found).mpr
      ⟨sourceOther, targetOther, edge⟩
  intro source target weight different path
  have ends : source ≠ vert ∧ target ≠ vert := by
    apply path.ends
    intro first last lower edge
    rcases (dropVertex_lookup normal.wellFormed found).mp edge with ⟨firstOther, lastOther, _⟩
    exact ⟨firstOther, lastOther⟩
  have old : Path s.g.lookup source target weight :=
    path.flatten (fun _ _ _ edge => .edge ((dropVertex_lookup normal.wellFormed found).mp edge).2.2)
  cases normal.closed _ _ _ different old with
  | edge here below => exact .edge (kept ends.1 ends.2 here) below
  | sum sourceOther targetOther first second below =>
      exact .sum sourceOther targetOther (kept ends.1 nonzero.symm first)
        (kept nonzero.symm ends.2 second) below

theorem Normal.remove (normal : Normal s) (v : V) : Normal (s.remove v) := by
  refine ⟨normal.toInvariant.remove v, ?_⟩
  rcases remove_cases s v with ⟨_, same⟩ | ⟨vert, found, dropped⟩
  · rw [same]
    exact normal.closed
  · rw [dropped]
    exact (normal.closed_dropVertex found).tighten (normalize_tightens _)

/-- The removal represents what the state does with some value of the variable. -/
theorem Normal.represents_remove_iff (normal : Normal s) (v : V) :
    (s.remove v).Represents values ↔ exists n, s.Represents (Function.update values v n) := by
  have wellFormed := normal.wellFormed
  constructor
  · intro represents
    rcases remove_cases s v with ⟨_, same⟩ | ⟨vert, found, dropped⟩
    · rw [same] at represents
      exact ⟨values v, by rwa [Function.update_eq_self]⟩
    · rw [dropped, represents_normalize] at represents
      have nonzero := Shape.ne_zero_of_tryAt wellFormed found
      have meets : forall source target weight, source ≠ vert -> target ≠ vert ->
          s.g.lookup source target = some weight ->
            s.vertexValue values target ≤ s.vertexValue values source + weight := by
        intro source target weight sourceOther targetOther edge
        have sameValue : forall {other : Nat}, other ≠ vert ->
            (dropVertex s v vert).vertexValue values other = s.vertexValue values other := by
          intro other different
          rw [vertexValue, dropVertex_revMap different, vertexValue]
        have bounded := represents source target weight
          ((dropVertex_lookup wellFormed found).mpr ⟨sourceOther, targetOther, edge⟩)
        rwa [sameValue sourceOther, sameValue targetOther] at bounded
      rcases finite_lookup wellFormed vert with ⟨finiteOut, finiteIn⟩
      rcases normal.closed.exists_value nonzero normal.valid finiteOut finiteIn meets with
        ⟨n, models⟩
      refine ⟨n, WellFormed.represents_of_models wellFormed ⟨?_, ?_⟩ models⟩
      · rw [Function.update_of_ne nonzero.symm]
        exact Shape.vertexValue_zero wellFormed values
      · intro w other there
        by_cases same : w = v
        · subst same
          cases found.symm.trans there
          rw [Function.update_self, Function.update_self]
        · rw [Function.update_of_ne (Shape.ne_of_tryAt wellFormed found there same),
            Function.update_of_ne same]
          exact Shape.vertexValue_of_tryAt wellFormed values there
  · rintro ⟨n, represents⟩
    apply represents_remove normal.toInvariant v represents
    intro w different
    rw [Function.update_of_ne different]

/-- The removals of `forget`, one after the other. -/
def removeAll (removed : List V) (s : SplitDbm V) : SplitDbm V :=
  removed.foldl (fun s v => if (s.tryAt v).isSome then s.remove v else s) s

theorem Normal.removeAll (normal : Normal s) (removed : List V) : Normal (removeAll removed s) ∧
    forall values, (SplitDbm.removeAll removed s).Represents values ↔
      exists others, s.Represents others ∧ forall w, w ∉ removed -> others w = values w := by
  induction removed generalizing s with
  | nil =>
      refine ⟨normal, fun values => ⟨fun represents => ⟨values, represents, fun _ _ => rfl⟩, ?_⟩⟩
      rintro ⟨others, represents, agree⟩
      have same : others = values := funext (fun w => agree w List.not_mem_nil)
      rwa [<- same]
  | cons v rest inductionHypothesis =>
      have step : exists next, Normal next ∧ SplitDbm.removeAll (v :: rest) s = SplitDbm.removeAll rest next ∧
          forall values, next.Represents values ↔ exists n, s.Represents (Function.update values v n) := by
        by_cases mapped : (s.tryAt v).isSome = true
        · exact ⟨s.remove v, normal.remove v, by rw [SplitDbm.removeAll, List.foldl_cons, if_pos mapped]; rfl,
            fun values => normal.represents_remove_iff v⟩
        · refine ⟨s, normal, by rw [SplitDbm.removeAll, List.foldl_cons, if_neg mapped]; rfl, fun values => ?_⟩
          have absent : s.tryAt v = none := Option.not_isSome_iff_eq_none.mp mapped
          constructor
          · exact fun represents => ⟨values v, by rwa [Function.update_eq_self]⟩
          · rintro ⟨n, represents⟩
            have again := normal.wellFormed.represents_update represents absent (values v)
            rwa [Function.update_idem, Function.update_eq_self] at again
      rcases step with ⟨next, nextNormal, same, exact_⟩
      rcases inductionHypothesis nextNormal with ⟨restNormal, restExact⟩
      rw [same]
      refine ⟨restNormal, fun values => ?_⟩
      rw [restExact values]
      constructor
      · rintro ⟨others, represents, agree⟩
        rcases (exact_ others).mp represents with ⟨n, before⟩
        refine ⟨_, before, fun w outside => ?_⟩
        rw [List.mem_cons, not_or] at outside
        rw [Function.update_of_ne outside.1, agree w outside.2]
      · rintro ⟨others, represents, agree⟩
        refine ⟨Function.update others v (values v), (exact_ _).mpr ⟨others v, ?_⟩,
          fun w outside => ?_⟩
        · rwa [Function.update_idem, Function.update_eq_self]
        · by_cases isFirst : w = v
          · rw [isFirst, Function.update_self]
          · rw [Function.update_of_ne isFirst]
            exact agree w (by simp [isFirst, outside])

/-- `forget` of variables is the exact projection of a state in normal form, and
keeps the normal form. -/
theorem forget_exact (normal : Normal s) (removed : List V) : Normal (s.forget removed) ∧
    forall values, (s.forget removed).Represents values ↔
      exists others, s.Represents others ∧ forall w, w ∉ removed -> others w = values w := by
  unfold SplitDbm.forget
  split
  · rename_i isTop
    refine ⟨normal, fun values =>
      ⟨fun represents => ⟨values, represents, fun _ _ => rfl⟩, fun _ => ?_⟩⟩
    have noEdge := normal.wellFormed.graph.isEmpty_iff.mp isTop
    intro source target weight edge
    rw [noEdge] at edge
    cases edge
  · rcases normal.removeAll removed with ⟨removedNormal, exact_⟩
    refine ⟨⟨removedNormal.toInvariant.normalize,
      removedNormal.closed.tighten (normalize_tightens _)⟩, fun values => ?_⟩
    rw [represents_normalize]
    exact exact_ values

/-- Two variables, of which the first is one below the second. -/
def ordered : SplitDbm Nat := (top.set 1 (.range 0 9)).assign 0 ⟨-1, [(1, 1)]⟩

/-- The bound of the first variable survives the second one. -/
theorem forget_exact_ordered :
    Normal (ordered.forget [1]) ∧ forall values, (ordered.forget [1]).Represents values ↔
    exists others, ordered.Represents others ∧ forall w, w ∉ [1] -> others w = values w := by
  have bounded : Invariant ((top : SplitDbm Nat).set 1 (.range 0 9)) :=
    (set_spec invariant_top 1 (by decide)).1
  have assigned : Invariant ordered := (assign_spec bounded 0 ⟨by decide, by decide⟩).1
  exact forget_exact (assigned.normal (by decide)) [1]

end SplitDbm
end Crab
end Prevail
