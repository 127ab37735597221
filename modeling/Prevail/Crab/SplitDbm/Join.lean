import Prevail.Crab.SplitDbm.Assign
import Prevail.Crab.SplitDbm.JoinGraph
import Prevail.Crab.SplitDbm.Normal
import Prevail.Crab.SplitDbm.Numbering

namespace Prevail
namespace Crab
namespace SplitDbm

open DifferenceBounds

/-!
# The join

The graph of the join is built over the common variables, and the variables
without edges are dropped afterwards, which changes nothing that is represented.
For operands in normal form the result is in normal form again, and the bounds
that it implies are those that both operands imply.
-/

variable {V : Type} [LinearOrder V]

/-! ## Garbage collection -/

section Collect

variable {s t : SplitDbm V}

/-- A state that represents the same with fewer variables. -/
structure Drops (before after : SplitDbm V) : Prop where
  wellFormed : after.WellFormed
  lookup : after.g.lookup = before.g.lookup
  potential : after.potential = before.potential
  unstable : after.unstable = before.unstable
  represents : forall values, after.Represents values ↔ before.Represents values
  mapped : forall v vert, after.tryAt v = some vert -> before.tryAt v = some vert

theorem Drops.refl (wellFormed : s.WellFormed) : Drops s s :=
  ⟨wellFormed, rfl, rfl, rfl, fun _ => Iff.rfl, fun _ _ => id⟩

theorem Drops.trans {last : SplitDbm V} (first : Drops s t) (second : Drops t last) :
    Drops s last :=
  { wellFormed := second.wellFormed
    lookup := second.lookup.trans first.lookup
    potential := second.potential.trans first.potential
    unstable := second.unstable.trans first.unstable
    represents := fun values => (second.represents values).trans (first.represents values)
    mapped := fun v vert found => first.mapped v vert (second.mapped v vert found) }

/-- The vertex of a variable without constraints is given back. -/
theorem drops_dropVertex (wellFormed : s.WellFormed) {v : V} {vert : Nat}
    (found : s.tryAt v = some vert)
    (isolated : s.g.isIsolated vert = true) : Drops s (dropVertex s v vert) := by
  have noEdge := wellFormed.graph.isIsolated_iff.mp isolated
  have shape : (dropVertex s v vert).WellFormed := Shape.dropVertex wellFormed found
  have lookup : (dropVertex s v vert).g.lookup = s.g.lookup := by
    funext source target
    ext weight
    rw [dropVertex_lookup wellFormed found]
    constructor
    · exact fun here => here.2.2
    · intro here
      refine ⟨?_, ?_, here⟩
      · rintro rfl
        rw [(noEdge target).1] at here
        cases here
      · rintro rfl
        rw [(noEdge source).2] at here
        cases here
  refine
    { wellFormed := shape
      lookup := lookup
      potential := rfl
      unstable := rfl
      represents := ?_
      mapped := fun w other there => ((tryAt_dropVertex wellFormed w other).mp there).2 }
  intro values
  have sameValue : forall other, (dropVertex s v vert).g.Live other ->
      (dropVertex s v vert).vertexValue values other = s.vertexValue values other := by
    intro other live
    unfold vertexValue
    rw [dropVertex_revMap ((dropVertex_live wellFormed found other).mp live).2]
  unfold Represents
  constructor
  · intro models
    have moved := models.congr shape.graph.ends sameValue
    rwa [lookup] at moved
  · intro models
    rw [← lookup] at models
    exact models.congr shape.graph.ends (fun other live => (sameValue other live).symm)

theorem collect_eq_dropVertex {v : V} {vert : Nat} (mapped : s.revMap[vert]? = some (some v))
    (dropped : vert ≠ 0 ∧ s.g.isIsolated vert = true) : collect s vert = dropVertex s v vert := by
  unfold collect dropVertex
  rw [if_pos dropped, mapped]

theorem drops_collect (wellFormed : s.WellFormed) {vert : Nat} (live : s.g.Live vert) :
    Drops s (collect s vert) ∧ forall other, other ≠ vert -> s.g.Live other ->
      (collect s vert).g.Live other := by
  by_cases dropped : vert ≠ 0 ∧ s.g.isIsolated vert = true
  · rcases Shape.live_cases wellFormed live with zero | impossible | ⟨v, found⟩
    · exact absurd zero dropped.1
    · exact absurd impossible id
    · have mapped := ((Shape.mapped wellFormed v vert).mp found).1
      rw [collect_eq_dropVertex mapped dropped]
      exact ⟨drops_dropVertex wellFormed found dropped.2, fun other different otherLive =>
        (dropVertex_live wellFormed found other).mpr ⟨otherLive, different⟩⟩
  · unfold collect
    rw [if_neg dropped]
    exact ⟨Drops.refl wellFormed, fun _ _ => id⟩

theorem drops_foldl_collect {verts : List Nat} (nodup : verts.Nodup) (wellFormed : s.WellFormed)
    (live : ∀ vert ∈ verts, s.g.Live vert) : Drops s (verts.foldl collect s) := by
  induction verts generalizing s with
  | nil => exact Drops.refl wellFormed
  | cons vert rest inductionHypothesis =>
      rw [List.nodup_cons] at nodup
      have first := drops_collect wellFormed (live vert List.mem_cons_self)
      refine first.1.trans (inductionHypothesis nodup.2 first.1.wellFormed ?_)
      intro other member
      apply first.2 other ?_ (live other (List.mem_cons_of_mem _ member))
      rintro rfl
      exact nodup.1 member

end Collect

/-! ## The state of the join -/

section State

variable {s o : SplitDbm V}

theorem numbers_joinGraph : OverNumbers s o (joinState s o).g := by
  have same := @joinGraph_sameVertices (leftView s o) (rightView s o)
    (fun vert => (potLeft s o).getD vert 0)
    (fun vert => (potRight s o).getD vert 0)
  have size : (joinState s o).g.size = (numbered s o).length := by
    refine same.1.trans ?_
    simp [leftView, GraphView.permute, permLeft_eq]
  refine ⟨size, same.2, ?_⟩
  intro i j weight here
  rcases joinGraph_above_left here with ⟨_, _, path⟩
  rw [size]
  have edgeEnds : forall source target weight, (leftView s o).lookup source target = some weight ->
      source < (numbered s o).length ∧ target < (numbered s o).length := by
    intro source target edgeWeight edge
    rcases lookup_leftView.mp edge with ⟨first, second, atFirst, atSecond, _⟩
    exact ⟨(List.getElem?_eq_some_iff.mp atFirst).1, (List.getElem?_eq_some_iff.mp atSecond).1⟩
  exact path.ends edgeEnds

theorem wellFormed_joinState (left : s.WellFormed) : (joinState s o).WellFormed :=
  wellFormed_overNumbers left numbers_joinGraph

theorem endsListed_leftView : EndsListed (leftView s o) := by
  have listed : forall {i : Nat} {pair : Nat × Nat}, (numbered s o)[i]? = some pair ->
      i ∈ (leftView s o).verts := by
    intro i pair here
    have inside := (List.getElem?_eq_some_iff.mp here).1
    rw [GraphView.mem_verts]
    simp [leftView, GraphView.permute, permLeft_eq, inside]
  intro i j weight edge
  rcases lookup_leftView.mp edge with ⟨first, second, atFirst, atSecond, _⟩
  exact ⟨listed atFirst, listed atSecond⟩

/-- Values that fit an operand under the numbers fit the join. -/
theorem models_joinState_left {vertexValues : Nat -> Int}
    (models : Models (leftView s o).lookup vertexValues) :
    Models (joinState s o).g.lookup vertexValues := by
  intro i j weight here
  rcases joinGraph_above_left here with ⟨lower, below, path⟩
  have bounded := path.bound models
  omega

theorem models_joinState_right {vertexValues : Nat -> Int}
    (models : Models (rightView s o).lookup vertexValues) :
    Models (joinState s o).g.lookup vertexValues := by
  intro i j weight here
  rcases joinGraph_above_right here with ⟨lower, below, path⟩
  have bounded := path.bound models
  omega

theorem invariant_joinState (left : Invariant s) : Invariant (joinState s o) :=
  ⟨wellFormed_joinState left.wellFormed, models_joinState_left (models_leftView left.valid)⟩

theorem represents_joinState_left (left : s.WellFormed) (right : o.WellFormed) {values : V -> Int}
    (represents : s.Represents values) : (joinState s o).Represents values := by
  apply models_joinState_left
  intro i j weight here
  rcases lookup_leftView.mp here with ⟨first, second, atFirst, atSecond, edge⟩
  have source := (@vertexValue_overNumbers V _ s o (joinState s o).g
    [] left right values i first atFirst).1
  have target := (@vertexValue_overNumbers V _ s o (joinState s o).g
    [] left right values j second atSecond).1
  have bounded := represents _ _ _ edge
  rw [← source, ← target] at bounded
  exact bounded

theorem represents_joinState_right (left : s.WellFormed) (right : o.WellFormed) {values : V -> Int}
    (represents : o.Represents values) : (joinState s o).Represents values := by
  apply models_joinState_right
  intro i j weight here
  rcases lookup_rightView.mp here with ⟨first, second, atFirst, atSecond, edge⟩
  have source := (@vertexValue_overNumbers V _ s o (joinState s o).g
    [] left right values i first atFirst).2
  have target := (@vertexValue_overNumbers V _ s o (joinState s o).g
    [] left right values j second atSecond).2
  have bounded := represents _ _ _ edge
  rw [← source, ← target] at bounded
  exact bounded

/-- The graph of the join is in normal form, and what is explicit in it is
explicit in both operands. -/
theorem closed_joinState (left : Normal s) (right : Normal o) :
    SplitClosed 0 (joinState s o).g.lookup ∧ forall i j weight, i ≠ j ->
      (Explicit 0 (joinState s o).g.lookup i j weight ↔
      Explicit 0 (leftView s o).lookup i j weight ∧
      Explicit 0 (rightView s o).lookup i j weight) := by
  have leftClosed : SplitClosed 0 (leftView s o).lookup :=
    (restricts_leftView left.wellFormed right.wellFormed).closed rfl left.closed
  have rightClosed : SplitClosed 0 (rightView s o).lookup :=
    (restricts_rightView left.wellFormed right.wellFormed).closed rfl right.closed
  apply leftClosed.combine rightClosed
  · exact fun _ _ _ => joinGraph_above_left
  · exact fun _ _ _ => joinGraph_above_right
  · exact fun _ _ _ different => joinGraph_complete endsListed_leftView different

end State

/-! ## `operator|` -/

section Join

variable {s o : SplitDbm V}

theorem drops_join (left : s.WellFormed) :
    Drops (joinState s o) (normalize
      ((joinState s o).g.view.verts.foldl collect (joinState s o))) := by
  have dropped : Drops (joinState s o)
      ((joinState s o).g.view.verts.foldl collect (joinState s o)) := by
    apply drops_foldl_collect ?_ (wellFormed_joinState left)
    · exact fun vert => AdaptGraph.mem_verts.mp
    · exact List.Nodup.filter _ List.nodup_range
  have stable : ((joinState s o).g.view.verts.foldl collect (joinState s o)).unstable = [] :=
    dropped.unstable
  rw [normalize_of_stable stable]
  exact dropped

theorem Drops.invariant {before after : SplitDbm V} (drops : Drops before after)
    (valid : before.ValidPotential) :
    Invariant after := by
  refine ⟨drops.wellFormed, ?_⟩
  unfold ValidPotential potentialOf
  rw [drops.lookup, drops.potential]
  exact valid

theorem represents_of_isTop (wellFormed : s.WellFormed) (isTop : s.isTop = true)
    (values : V -> Int) :
    s.Represents values := by
  have noEdge := wellFormed.graph.isEmpty_iff.mp isTop
  intro source target weight here
  rw [noEdge] at here
  cases here

/-- `operator|` is one of the operands, or the state above without some variables
that have no constraint. -/
theorem join_cases (left : s.WellFormed) (right : o.WellFormed) :
    (join s o = o ∧ forall values, o.Represents values) ∨
      (join s o = s ∧ forall values, s.Represents values) ∨ Drops (joinState s o) (join s o) := by
  unfold join
  split
  · rename_i isTop
    exact Or.inl ⟨rfl, represents_of_isTop right isTop⟩
  · split
    · rename_i isTop
      exact Or.inr (Or.inl ⟨rfl, represents_of_isTop left isTop⟩)
    · exact Or.inr (Or.inr (drops_join left))

theorem Invariant.join (left : Invariant s) (right : Invariant o) : Invariant (join s o) := by
  rcases join_cases left.wellFormed right.wellFormed with ⟨same, _⟩ | ⟨same, _⟩ | drops
  · rw [same]
    exact right
  · rw [same]
    exact left
  · exact drops.invariant (invariant_joinState left).valid

theorem represents_join (left : s.WellFormed) (right : o.WellFormed) {values : V -> Int}
    (either : s.Represents values ∨ o.Represents values) : (join s o).Represents values := by
  rcases join_cases left right with ⟨same, all⟩ | ⟨same, all⟩ | drops
  · rw [same]
    exact all values
  · rw [same]
    exact all values
  · rw [drops.represents]
    exact either.elim (represents_joinState_left left right) (represents_joinState_right left right)

theorem Normal.join (left : Normal s) (right : Normal o) : Normal (join s o) := by
  refine ⟨left.toInvariant.join right.toInvariant, ?_⟩
  rcases join_cases left.wellFormed right.wellFormed with ⟨same, _⟩ | ⟨same, _⟩ | drops
  · rw [same]
    exact right.closed
  · rw [same]
    exact left.closed
  · rw [drops.lookup]
    exact (closed_joinState left right).1

theorem exists_numbered_vertexOf (left : s.WellFormed) {u : Option V} {x y : Nat}
    (atLeft : s.vertexOf u = some x) (atRight : o.vertexOf u = some y) :
    exists i, (numbered s o)[i]? = some (x, y) ∧ (joinState s o).vertexOf u = some i := by
  cases u with
  | none =>
      cases atLeft
      cases atRight
      exact ⟨0, rfl, rfl⟩
  | some v =>
      rcases exists_numbered left atLeft atRight with ⟨i, _, here, number⟩
      exact ⟨i, here, number⟩

/-- A bound between common variables is implied by the join if both operands
imply it. -/
theorem impliedBound_join (left : Normal s) (right : Normal o) {u v : Option V} {x y x' y' : Nat}
    (uLeft : s.vertexOf u = some x) (uRight : o.vertexOf u = some y)
    (vLeft : s.vertexOf v = some x') (vRight : o.vertexOf v = some y') (c : Int) :
    ImpliedBound (join s o) u v c ↔ ImpliedBound s u v c ∧ ImpliedBound o u v c := by
  constructor
  · intro implied
    exact ⟨fun values represents => implied values
        (represents_join left.wellFormed right.wellFormed (Or.inl represents)),
      fun values represents => implied values
        (represents_join left.wellFormed right.wellFormed (Or.inr represents))⟩
  · rintro ⟨inLeft, inRight⟩
    by_cases same : u = v
    · subst same
      rw [impliedBound_refl (left.join right).toInvariant]
      exact (impliedBound_refl left.toInvariant).mp inLeft
    · rcases join_cases left.wellFormed right.wellFormed with ⟨result, _⟩ | ⟨result, _⟩ | drops
      · rw [result]
        exact inRight
      · rw [result]
        exact inLeft
      · rcases exists_numbered_vertexOf left.wellFormed uLeft uRight with ⟨i, atI, uJoin⟩
        rcases exists_numbered_vertexOf left.wellFormed vLeft vRight with ⟨j, atJ, vJoin⟩
        have joined : Normal (joinState s o) :=
          ⟨invariant_joinState left.toInvariant, (closed_joinState left right).1⟩
        have explicitLeft := (left.impliedBound_iff uLeft vLeft same).mp inLeft
        have explicitRight := (right.impliedBound_iff uRight vRight same).mp inRight
        have numberedLeft := (explicit_leftView left.wellFormed right.wellFormed atI atJ).mpr
          explicitLeft
        have numberedRight := (explicit_rightView left.wellFormed right.wellFormed atI atJ).mpr
          explicitRight
        have different := joined.wellFormed.vertexOf_ne uJoin vJoin same
        have explicit := ((closed_joinState left right).2 i j c different).mpr
          ⟨numberedLeft, numberedRight⟩
        have implied := (joined.impliedBound_iff uJoin vJoin same).mpr explicit
        exact fun values represents => implied values ((drops.represents values).mp represents)

/-- A state that contains both operands contains the join. -/
theorem represents_of_join (left : Normal s) (right : Normal o) {z : SplitDbm V}
    (wellFormed : z.WellFormed)
    (contains : forall values, s.Represents values ∨ o.Represents values -> z.Represents values)
    {values : V -> Int} (represents : (join s o).Represents values) : z.Represents values := by
  intro source target weight here
  have ends := wellFormed.graph.ends _ _ _ here
  rcases wellFormed.exists_vertexOf ends.1 with ⟨u, atSource⟩
  rcases wellFormed.exists_vertexOf ends.2 with ⟨v, atTarget⟩
  have inLeft : ImpliedBound s u v weight := by
    intro others othersRepresents
    have bounded := contains others (Or.inl othersRepresents) _ _ _ here
    rwa [wellFormed.vertexValue_vertexOf atSource,
      wellFormed.vertexValue_vertexOf atTarget] at bounded
  have inRight : ImpliedBound o u v weight := by
    intro others othersRepresents
    have bounded := contains others (Or.inr othersRepresents) _ _ _ here
    rwa [wellFormed.vertexValue_vertexOf atSource,
      wellFormed.vertexValue_vertexOf atTarget] at bounded
  rw [wellFormed.vertexValue_vertexOf atSource, wellFormed.vertexValue_vertexOf atTarget]
  by_cases same : u = v
  · subst same
    have nonneg := (impliedBound_refl left.toInvariant).mp inLeft
    omega
  · rcases vertexOf_of_impliedBound left.wellFormed left.represents_potential same inLeft with
      ⟨⟨_, uLeft⟩, ⟨_, vLeft⟩⟩
    rcases vertexOf_of_impliedBound right.wellFormed right.represents_potential same inRight with
      ⟨⟨_, uRight⟩, ⟨_, vRight⟩⟩
    exact (impliedBound_join left right uLeft uRight vLeft vRight weight).mpr
      ⟨inLeft, inRight⟩ values represents

/-- The join is the least upper bound and stays in normal form: what contains it
is what contains both operands, and the tightest bound between two common
variables, or on one, is the larger one of the tightest bounds of the operands. -/
theorem join_least (left : Normal s) (right : Normal o) :
    Normal (join s o) ∧
    (forall z : SplitDbm V, z.WellFormed ->
      ((forall values, (join s o).Represents values -> z.Represents values) ↔
        forall values, s.Represents values ∨ o.Represents values -> z.Represents values)) ∧
    (forall u v : Option V, (s.vertexOf u).isSome -> (o.vertexOf u).isSome ->
      (s.vertexOf v).isSome -> (o.vertexOf v).isSome ->
      exists inLeft inRight, IsTightest s u v inLeft ∧ IsTightest o u v inRight ∧
        IsTightest (join s o) u v (max inLeft inRight)) := by
  refine ⟨left.join right, ?_, ?_⟩
  · intro z wellFormed
    constructor
    · exact fun contains values either =>
        contains values (represents_join left.wellFormed right.wellFormed either)
    · exact fun contains values => represents_of_join left right wellFormed contains
  · intro u v uLeft uRight vLeft vRight
    rcases Option.isSome_iff_exists.mp uLeft with ⟨x, uLeft⟩
    rcases Option.isSome_iff_exists.mp uRight with ⟨y, uRight⟩
    rcases Option.isSome_iff_exists.mp vLeft with ⟨x', vLeft⟩
    rcases Option.isSome_iff_exists.mp vRight with ⟨y', vRight⟩
    rcases exists_isTightest left.represents_potential u v with ⟨inLeft, tightestLeft⟩
    rcases exists_isTightest right.represents_potential u v with ⟨inRight, tightestRight⟩
    refine ⟨inLeft, inRight, tightestLeft, tightestRight, fun c => ?_⟩
    rw [max_le_iff, tightestLeft c, tightestRight c]
    exact (impliedBound_join left right uLeft uRight vLeft vRight c).symm

/-- A bounded variable and another one at a distance from it. -/
def boundedPair (ub distance : Int) : SplitDbm Nat :=
  ((top : SplitDbm Nat).set 0 ⟨.minusInfinity, .ofNumber ub⟩).assign 1 ⟨distance, [(0, 1)]⟩

/-- The join of two such states keeps the larger one of the two distances. -/
theorem join_least_upper_bounds : exists inLeft inRight,
    IsTightest (boundedPair 5 3) (some 0) (some 1) inLeft ∧
      IsTightest (boundedPair 7 1) (some 0) (some 1) inRight ∧
      IsTightest (join (boundedPair 5 3) (boundedPair 7 1)) (some 0) (some 1)
      (max inLeft inRight) := by
  have left : Normal (boundedPair 5 3) :=
    (assign_spec (set_spec invariant_top 0 (by decide)).1 1 ⟨by decide, by decide⟩).1.normal
      (by decide)
  have right : Normal (boundedPair 7 1) :=
    (assign_spec (set_spec invariant_top 0 (by decide)).1 1 ⟨by decide, by decide⟩).1.normal
      (by decide)
  exact (join_least left right).2.2 (some 0) (some 1) (by decide) (by decide)
    (by decide) (by decide)

end Join

end SplitDbm
end Crab
end Prevail
