import Prevail.Crab.SplitDbm.Join

namespace Prevail
namespace Crab
namespace SplitDbm

open DifferenceBounds

/-!
# The inclusion test

`operator<=` looks for an explicit bound of the left state below each edge of
the right one.  A bound that is found holds, whatever the states are like.  If
the left state is in normal form, every bound that it implies is found, so that
the test fails to recognise an inclusion for one reason only: it refuses a right
state with more variables, although the additional ones may have no edges.
-/

variable {V : Type} [LinearOrder V] {s o : SplitDbm V}

/-- The vertex that a vertex of the right state stands for, if its variable has
one in the left state. -/
theorem renameVertex_eq (right : o.WellFormed) {u : Option V} {vert renamed : Nat}
    (there : o.vertexOf u = some vert)
    (here : s.vertexOf u = some renamed) : renameVertex s o vert = renamed := by
  cases u with
  | none =>
      cases there
      cases here
      rfl
  | some v =>
      have nonzero := Shape.ne_zero_of_tryAt right there
      have listed := (Shape.tryAt_iff_mem right).mp there
      have found : (o.vertMap.find? (fun entry => entry.2 == vert)).isSome = true :=
        List.find?_isSome.mpr ⟨(v, vert), listed, beq_self_eq_true vert⟩
      rcases Option.isSome_iff_exists.mp found with ⟨entry, first⟩
      have sameVert : entry.2 = vert := by simpa using List.find?_some first
      have entryThere : o.tryAt entry.1 = some vert :=
        (Shape.tryAt_iff_mem right).mpr (sameVert ▸ List.mem_of_find?_eq_some first)
      have sameVar : entry.1 = v := by
        by_contra different
        exact Shape.ne_of_tryAt right there entryThere different rfl
      rw [renameVertex, if_neg nonzero, first, Option.bind_some, sameVar,
        show s.tryAt v = some renamed from here]
      rfl

theorem not_isIsolated_of_edge (right : o.WellFormed) {source target : Nat} {weight : Int}
    (edge : o.g.lookup source target = some weight) :
    o.g.isIsolated source ≠ true ∧ o.g.isIsolated target ≠ true := by
  constructor
  · intro isolated
    have none := ((right.graph.isIsolated_iff).mp isolated target).1
    rw [edge] at none
    cases none
  · intro isolated
    have none := ((right.graph.isIsolated_iff).mp isolated source).2
    rw [edge] at none
    cases none

/-- The two parts of the test. -/
structure Included (s o : SplitDbm V) : Prop where
  mapped : ∀ entry ∈ o.vertMap, o.g.isIsolated entry.2 = true ∨ (s.tryAt entry.1).isSome = true
  edges : forall source target weight, o.g.lookup source target = some weight ->
    s.impliesEdge (renameVertex s o source) (renameVertex s o target) weight = true

theorem leq_iff_included (right : o.WellFormed) : leq s o = true ↔
    o.isTop = true ∨ (s.isTop = false ∧ o.vertMap.length ≤ s.vertMap.length ∧ Included s o) := by
  have parts : (o.vertMap.all (fun entry => o.g.isIsolated entry.2 || (s.tryAt entry.1).isSome) &&
      o.g.view.verts.all (fun ox => (o.g.view.eSuccs ox).all (fun edge =>
        s.impliesEdge (renameVertex s o ox) (renameVertex s o edge.1) edge.2))) = true ↔
          Included s o := by
    rw [Bool.and_eq_true, List.all_eq_true, List.all_eq_true]
    constructor
    · rintro ⟨mapped, edges⟩
      refine ⟨fun entry member => Bool.or_eq_true_iff.mp (mapped entry member), ?_⟩
      intro source target weight edge
      have live := (right.graph.ends _ _ _ edge).1
      exact List.all_eq_true.mp (edges source (AdaptGraph.mem_verts.mpr live)) (target, weight)
        (right.graph.mem_eSuccs.mpr edge)
    · rintro ⟨mapped, edges⟩
      refine ⟨fun entry member => Bool.or_eq_true_iff.mpr (mapped entry member), ?_⟩
      intro source _
      rw [List.all_eq_true]
      intro edge member
      exact edges source edge.1 edge.2 (right.graph.mem_eSuccs.mp member)
  unfold leq
  cases o.isTop with
  | true => simp
  | false =>
      cases s.isTop with
      | true => simp
      | false =>
          by_cases fewer : s.vertMap.length < o.vertMap.length
          · simp [fewer, Nat.not_le.mpr fewer]
          · simp only [Bool.false_eq_true, if_false, if_neg fewer, parts, false_or, true_and,
              Nat.not_lt.mp fewer]

/-- The ends of an edge of the right state in the left one. -/
theorem Included.exists_end (included : Included s o) (right : o.WellFormed) {vert : Nat}
    (live : o.g.Live vert) (notIsolated : o.g.isIsolated vert ≠ true) :
    exists u, o.vertexOf u = some vert ∧ s.vertexOf u = some (renameVertex s o vert) := by
  rcases right.exists_vertexOf live with ⟨u, there⟩
  cases u with
  | none => exact ⟨none, there, by cases there; rfl⟩
  | some v =>
      have mapped := (included.mapped (v, vert) ((Shape.tryAt_iff_mem right).mp there)).resolve_left
        notIsolated
      rcases Option.isSome_iff_exists.mp mapped with ⟨renamed, here⟩
      refine ⟨some v, there, ?_⟩
      rw [renameVertex_eq right there (show s.vertexOf (some v) = some renamed from here)]
      exact here

omit [LinearOrder V] in
theorem impliesEdge_iff {x y : Nat} {weight : Int} : s.impliesEdge x y weight = true ↔
    (∃ w ∈ s.g.lookup x y, w ≤ weight) ∨ ∃ wx ∈ s.g.lookup x 0, ∃ wy ∈ s.g.lookup 0 y,
      wx + wy ≤ weight := by
  rw [impliesEdge, Bool.or_eq_true, decide_eq_true_eq, decide_eq_true_eq]

theorem Included.represents (included : Included s o) (left : s.WellFormed) (right : o.WellFormed)
    {values : V -> Int} (represents : s.Represents values) : o.Represents values := by
  intro source target weight edge
  rcases right.graph.ends _ _ _ edge with ⟨sourceLive, targetLive⟩
  rcases not_isIsolated_of_edge right edge with ⟨sourceUsed, targetUsed⟩
  rcases included.exists_end right sourceLive sourceUsed with ⟨u, uThere, uHere⟩
  rcases included.exists_end right targetLive targetUsed with ⟨v, vThere, vHere⟩
  rw [right.vertexValue_vertexOf uThere, right.vertexValue_vertexOf vThere,
    <- left.vertexValue_vertexOf uHere, <- left.vertexValue_vertexOf vHere]
  rcases impliesEdge_iff.mp (included.edges _ _ _ edge) with ⟨w, here, below⟩ |
    ⟨wx, toZero, wy, fromZero, below⟩
  · have bounded := represents _ _ _ here
    omega
  · have first := represents _ _ _ toZero
    have second := represents _ _ _ fromZero
    omega

theorem Normal.impliesEdge_of_impliedBound (normal : Normal s) {u v : Option V}
    {source target : Nat} {weight : Int}
    (atSource : s.vertexOf u = some source) (atTarget : s.vertexOf v = some target)
    (different : u ≠ v)
    (implied : ImpliedBound s u v weight) : s.impliesEdge source target weight = true := by
  rw [impliesEdge_iff]
  rcases explicit_iff.mp ((normal.impliedBound_iff atSource atTarget different).mp implied) with
    edge | ⟨_, _, sum⟩
  · exact Or.inl edge
  · exact Or.inr sum

theorem Normal.included (normal : Normal s) (other : Invariant o)
    (noLoops : forall vert, o.g.lookup vert vert = none)
    (inclusion : forall values, s.Represents values -> o.Represents values) : Included s o := by
  have right := other.wellFormed
  have ends : forall {source target : Nat} {weight : Int}, o.g.lookup source target = some weight ->
      exists u v x y, o.vertexOf u = some source ∧ o.vertexOf v = some target ∧ u ≠ v ∧
      s.vertexOf u = some x ∧
        s.vertexOf v = some y ∧ ImpliedBound s u v weight := by
    intro source target weight edge
    rcases right.graph.ends _ _ _ edge with ⟨sourceLive, targetLive⟩
    rcases right.exists_vertexOf sourceLive with ⟨u, atSource⟩
    rcases right.exists_vertexOf targetLive with ⟨v, atTarget⟩
    have different : u ≠ v := by
      rintro rfl
      rw [Option.some.inj (atSource.symm.trans atTarget), noLoops] at edge
      cases edge
    have implied : ImpliedBound s u v weight := by
      intro values represents
      have bounded := inclusion values represents _ _ _ edge
      rwa [right.vertexValue_vertexOf atSource, right.vertexValue_vertexOf atTarget] at bounded
    rcases vertexOf_of_impliedBound normal.wellFormed normal.represents_potential
      different implied with
      ⟨⟨x, atX⟩, ⟨y, atY⟩⟩
    exact ⟨u, v, x, y, atSource, atTarget, different, atX, atY, implied⟩
  constructor
  · intro entry member
    have there : o.vertexOf (some entry.1) = some entry.2 := (Shape.tryAt_iff_mem right).mpr member
    by_contra neither
    rw [not_or] at neither
    have used := neither.1
    rw [right.graph.isIsolated_iff] at used
    push Not at used
    rcases used with ⟨vert, outgoing⟩
    have named : forall {u : Option V} {x : Nat}, o.vertexOf u = some entry.2 ->
        s.vertexOf u = some x -> False := by
      intro u x atEntry atX
      have same : u = some entry.1 := by
        by_contra different
        exact right.vertexOf_ne atEntry there different rfl
      subst same
      have mapped : s.tryAt entry.1 = some x := atX
      rw [mapped] at neither
      exact neither.2 rfl
    cases edge : o.g.lookup entry.2 vert with
    | some weight =>
        rcases ends edge with ⟨u, _, x, _, atSource, _, _, atX, _⟩
        exact named atSource atX
    | none =>
        rcases Option.ne_none_iff_exists'.mp (outgoing edge) with ⟨weight, incoming⟩
        rcases ends incoming with ⟨_, v, _, y, _, atTarget, _, _, atY, _⟩
        exact named atTarget atY
  · intro source target weight edge
    rcases ends edge with ⟨u, v, x, y, atSource, atTarget, different, atX, atY, implied⟩
    rw [renameVertex_eq right atSource atX, renameVertex_eq right atTarget atY]
    exact normal.impliesEdge_of_impliedBound atX atY different implied

/-- A left state without edges includes nothing that a right state excludes. -/
theorem Included.isTop (included : Included s o) (left : s.WellFormed) (right : o.WellFormed)
    (isTop : s.isTop = true) : o.isTop = true := by
  refine right.graph.isEmpty_iff.mpr (fun source target => ?_)
  have noEdge := left.graph.isEmpty_iff.mp isTop
  cases edge : o.g.lookup source target with
  | none => rfl
  | some weight =>
      rcases impliesEdge_iff.mp (included.edges _ _ _ edge) with ⟨w, here, _⟩ | ⟨wx, toZero, _⟩
      · rw [noEdge] at here
        cases here
      · rw [noEdge] at toZero
        cases toZero

theorem represents_of_leq (left : Invariant s) (right : Invariant o) (below : leq s o = true)
    {values : V -> Int} (represents : s.Represents values) : o.Represents values := by
  rcases (leq_iff_included right.wellFormed).mp below with isTop | ⟨_, _, included⟩
  · exact represents_of_isTop right.wellFormed isTop values
  · exact included.represents left.wellFormed right.wellFormed represents

/-- A positive answer is right for all states.  For a left state in normal form,
the answer is positive exactly on inclusions, except where the right state has
an edge and more variables than the left one. -/
theorem leq_exact (left : Invariant s) (right : Invariant o) :
    (leq s o = true -> forall values, s.Represents values -> o.Represents values) ∧
    (Normal s -> (forall vert, o.g.lookup vert vert = none) ->
      (leq s o = true ↔ o.isTop = true ∨
        (o.vertMap.length ≤ s.vertMap.length ∧ forall values, s.Represents values ->
        o.Represents values))) := by
  refine ⟨fun below values represents => represents_of_leq left right below represents, ?_⟩
  intro normal noLoops
  rw [leq_iff_included right.wellFormed]
  constructor
  · rintro (isTop | ⟨_, size, included⟩)
    · exact Or.inl isTop
    · exact Or.inr ⟨size, fun values represents =>
        included.represents left.wellFormed right.wellFormed represents⟩
  · rintro (isTop | ⟨size, inclusion⟩)
    · exact Or.inl isTop
    · have included := normal.included right noLoops inclusion
      by_cases isTop : s.isTop = true
      · exact Or.inl (included.isTop left.wellFormed right.wellFormed isTop)
      · exact Or.inr ⟨Bool.eq_false_iff.mpr isTop, size, included⟩

/-- One variable with an upper bound. -/
def atMost (bound : Int) : SplitDbm Nat := top.set 0 ⟨.minusInfinity, .ofNumber bound⟩

theorem leq_exact_atMost :
    (forall values, (atMost 5).Represents values -> (atMost 7).Represents values) ∧
    (leq (atMost 7) (atMost 5) = true ↔ (atMost 5).isTop = true ∨ ((atMost 5).vertMap.length ≤
      (atMost 7).vertMap.length ∧ forall values, (atMost 7).Represents values ->
      (atMost 5).Represents values)) := by
  have low : Invariant (atMost 5) := (set_spec invariant_top 0 (by decide)).1
  have high : Invariant (atMost 7) := (set_spec invariant_top 0 (by decide)).1
  refine ⟨(leq_exact low high).1 (by decide), (leq_exact high low).2 (high.normal (by decide)) ?_⟩
  intro vert
  by_contra loop
  rcases Option.ne_none_iff_exists'.mp loop with ⟨weight, edge⟩
  have inside := (low.wellFormed.graph.ends _ _ _ edge).1.1
  have noLoop : ∀ vert < (atMost 5).g.size, (atMost 5).g.lookup vert vert = none := by decide
  exact loop (noLoop vert inside)

end SplitDbm
end Crab
end Prevail
