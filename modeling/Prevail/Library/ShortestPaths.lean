import Prevail.Library.DifferenceBounds

namespace Prevail
namespace DifferenceBounds

universe u

/-!
# Shortest paths

A graph is closed if no path between different vertices is below an edge with the
same ends.  Its edges are then the shortest paths.

Two changes of a closed graph leave short paths only.  A path over one new edge
needs at most one old edge in front of it and one behind it.  A path out of a
vertex, around which nothing is closed, needs at most two edges.
-/

variable {V : Type u} {edges : Edges V} {values : V -> Int} {source middle target : V}
  {weight lower first last : Int}

/-- No closed path has a negative weight. -/
def NoNegativeCycle (edges : Edges V) :
    Prop := forall vertex weight, Path edges vertex vertex weight -> 0 ≤ weight

/-- The weight is that of a path, and of no path with the same ends is it higher. -/
structure Shortest (edges : Edges V) (source target : V) (weight : Int) : Prop where
  path : Path edges source target weight
  least : forall other, Path edges source target other -> weight ≤ other

/-- Every path between different vertices has an edge with the same ends, and with its
weight or a lower one. -/
def Closed (edges : Edges V) : Prop := forall source target weight, source ≠ target ->
  Path edges source target weight -> ∃ lower ≤ weight, edges source target = some lower

theorem Models.noNegativeCycle (models : Models edges values) : NoNegativeCycle edges :=
  fun _ _ path => path.nonneg_of_closed models

theorem Shortest.unique {other : Int} (left : Shortest edges source target weight)
    (right : Shortest edges source target other) : weight = other :=
  le_antisymm (left.least _ right.path) (right.least _ left.path)

theorem Closed.shortest (closed : Closed edges) (different : source ≠ target)
    (here : edges source target = some weight) : Shortest edges source target weight := by
  refine ⟨.edge here, fun other path => ?_⟩
  rcases closed _ _ _ different path with ⟨lower, below, there⟩
  rw [here, Option.some.injEq] at there
  exact there ▸ below

/-- Two graphs of which each has the paths of the other have the same shortest paths. -/
theorem Tightens.shortest {before after : Edges V} (tightens : Tightens before after)
    (shortest : Shortest after source target weight) : Shortest before source target weight := by
  refine ⟨shortest.path.flatten tightens.path, fun other path => ?_⟩
  have kept : ∃ low ≤ other, Path after source target low := by
    apply path.lower
    intro left right old here
    rcases tightens.kept _ _ _ here with ⟨low, below, there⟩
    exact ⟨low, below, .edge there⟩
  rcases kept with ⟨low, below, lowPath⟩
  exact (shortest.least _ lowPath).trans below

/-! ## Reversed edges -/

section Reverse

theorem NoNegativeCycle.reverse (cycles : NoNegativeCycle edges) :
    NoNegativeCycle (fun source target => edges target source) :=
  fun _ _ path => cycles _ _ path.reverse

theorem Closed.reverse (closed : Closed edges) :
    Closed (fun source target => edges target source) :=
  fun _ _ _ different path => closed _ _ _ different.symm path.reverse

theorem Shortest.reverse (shortest : Shortest (fun source target => edges target source) source
    target weight) :
    Shortest edges target source weight :=
  ⟨shortest.path.reverse, fun _ path => shortest.least _ path.reverse⟩

end Reverse

/-! ## One vertex or one edge -/

/-- A path of at most one edge. -/
inductive Near (edges : Edges V) (source : V) : V -> Int -> Prop
  | here : Near edges source source 0
  | edge {target : V} {weight : Int} : edges source target = some weight ->
    Near edges source target weight

theorem Near.snoc (closed : Closed edges) (cycles : NoNegativeCycle edges)
    (near : Near edges source middle first)
    (here : edges middle target = some last) :
    ∃ lower ≤ first + last, Near edges source target lower := by
  cases near with
  | here => exact ⟨last, by omega, .edge here⟩
  | edge before =>
      have path : Path edges source target (first + last) := .snoc (.edge before) here
      by_cases same : source = target
      · rw [same] at path ⊢
        exact ⟨0, cycles _ _ path, .here⟩
      · rcases closed _ _ _ same path with ⟨lower, below, there⟩
        exact ⟨lower, below, .edge there⟩

theorem Near.path (near : Near edges source target weight) (different : source ≠ target) :
    edges source target = some weight := by
  cases near with
  | here => exact absurd rfl different
  | edge here => exact here

/-! ## A new edge -/

section NewEdge

variable [DecidableEq V] {ii jj : V} {new : Int}

theorem Path.lower_set (below : forall old, edges ii jj = some old -> new ≤ old)
    (path : Path edges source target weight) :
    ∃ lower ≤ weight, Path (edges.set ii new jj) source target lower := by
  apply path.lower
  intro left right old here
  by_cases isNew : left = ii ∧ right = jj
  · rcases isNew with ⟨rfl, rfl⟩
    exact ⟨new, below old here, .edge set_self⟩
  · exact ⟨old, le_refl _, .edge ((set_of_ne isNew).trans here)⟩

/-- A path over a new edge has the new edge, or at most one old one. -/
theorem Closed.path_set (closed : Closed edges)
    (below : forall old, edges ii jj = some old -> new ≤ old)
    (cycles : NoNegativeCycle (edges.set ii new jj))
    (path : Path (edges.set ii new jj) source target weight) :
    (∃ lower ≤ weight, Near edges source target lower) ∨
      exists before after, Near edges source ii before ∧ Near edges jj target after ∧
      before + new + after ≤ weight := by
  have oldCycles : NoNegativeCycle edges := by
    intro vertex around closedPath
    rcases closedPath.lower_set below with ⟨lower, atMost, newPath⟩
    exact (cycles _ _ newPath).trans atMost
  -- The new edge behind an old path from its target to its source closes a cycle.
  have around : forall {back : Int}, Near edges jj ii back -> 0 ≤ new + back := by
    intro back near
    have newPath : Path (edges.set ii new jj) ii jj new := .edge set_self
    cases near with
    | here =>
        have closedPath := cycles _ _ newPath
        omega
    | edge here =>
        have backPath : Path edges jj ii back := .edge here
        rcases backPath.lower_set below with ⟨lower, atMost, lowerPath⟩
        have closedPath := cycles _ _ (newPath.trans lowerPath)
        omega
  induction path with
  | edge here =>
      rcases set_cases here with ⟨rfl, rfl, rfl⟩ | old
      · exact Or.inr ⟨0, 0, .here, .here, by omega⟩
      · exact Or.inl ⟨_, le_refl _, .edge old⟩
  | snoc _ here inductionHypothesis =>
      rcases set_cases here with ⟨rfl, rfl, rfl⟩ | old
      · rcases inductionHypothesis with ⟨lower, atMost, near⟩ |
          ⟨before, after, toNew, fromNew, atMost⟩
        · exact Or.inr ⟨lower, 0, near, .here, by omega⟩
        · have closedPath := around fromNew
          exact Or.inr ⟨before, 0, toNew, .here, by omega⟩
      · rcases inductionHypothesis with ⟨lower, atMost, near⟩ |
          ⟨before, after, toNew, fromNew, atMost⟩
        · rcases near.snoc closed oldCycles old with ⟨next, nextAtMost, nextNear⟩
          exact Or.inl ⟨next, by omega, nextNear⟩
        · rcases fromNew.snoc closed oldCycles old with ⟨next, nextAtMost, nextNear⟩
          exact Or.inr ⟨before, next, toNew, nextNear, by omega⟩

end NewEdge

/-! ## A new vertex -/

section Around

variable [DecidableEq V] {pivot : V}

/-- The edges that do not touch a vertex. -/
def Edges.without (edges : Edges V) (vertex : V) : Edges V :=
  fun source target => if source = vertex ∨ target = vertex then none else edges source target

theorem without_of_ne (sourceOther : source ≠ pivot) (targetOther : target ≠ pivot) :
    edges.without pivot source target = edges source target :=
  if_neg (not_or.mpr ⟨sourceOther, targetOther⟩)

/-- A path out of a vertex has one edge or two. -/
theorem Closed.path_around (closed : Closed (edges.without pivot)) (cycles : NoNegativeCycle edges)
    (path : Path edges pivot target weight) (other : target ≠ pivot) :
    (∃ lower ≤ weight, edges pivot target = some lower) ∨
      exists adjacent first last, adjacent ≠ pivot ∧ edges pivot adjacent = some first ∧
        edges adjacent target = some last ∧ first + last ≤ weight := by
  induction path with
  | edge here => exact Or.inl ⟨_, le_refl _, here⟩
  | @snoc middle target before last path here inductionHypothesis =>
      by_cases atPivot : middle = pivot
      · rw [atPivot] at path here
        have nonneg := cycles _ _ path
        exact Or.inl ⟨last, by omega, here⟩
      · rcases inductionHypothesis atPivot with ⟨lower, atMost, there⟩ |
          ⟨adjacent, first, second, isOther, there, step, atMost⟩
        · exact Or.inr ⟨middle, lower, last, atPivot, there, here, by omega⟩
        · by_cases same : adjacent = target
          · rw [same] at there step
            have around : Path edges target target (second + last) := .snoc (.edge step) here
            have nonneg := cycles _ _ around
            exact Or.inl ⟨first, by omega, there⟩
          · have twoSteps : Path (edges.without pivot) adjacent target (second + last) :=
              .snoc (.edge ((without_of_ne isOther atPivot).trans step))
                ((without_of_ne atPivot other).trans here)
            rcases closed _ _ _ same twoSteps with ⟨lower, lowerAtMost, shortcut⟩
            rw [without_of_ne isOther other] at shortcut
            exact Or.inr ⟨adjacent, first, lower, isOther, there, shortcut, by omega⟩

end Around

end DifferenceBounds
end Prevail
