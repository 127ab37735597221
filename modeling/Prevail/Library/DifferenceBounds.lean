import Mathlib

namespace Prevail
namespace DifferenceBounds

universe u v

/-!
# Difference bounds

A set of difference bounds is a weighted directed graph: an edge of weight `w`
from `source` to `target` says that the value of `target` is at most `w` above
the value of `source`.  Paths add their weights, so every path is a bound that
the edges imply.  If the bounds can be met at all, no other bounds between
different vertices are implied.

The vertices are arbitrary, and nothing is assumed to be finite.
-/

variable {V : Type u} {W : Type v}

/-- The bounds, as the weights of the edges of a graph. -/
abbrev Edges (V : Type u) := V -> V -> Option Int

/-- The values meet all bounds. -/
def Models (edges : Edges V) (values : V -> Int) : Prop :=
  forall source target weight, edges source target = some weight ->
    values target ≤ values source + weight

/-- A path of at least one edge, with the sum of its weights. -/
inductive Path (edges : Edges V) (source : V) : V -> Int -> Prop
  | edge {target : V} {weight : Int} : edges source target = some weight ->
    Path edges source target weight
  | snoc {middle target : V} {first last : Int} : Path edges source middle first ->
      edges middle target = some last -> Path edges source target (first + last)

namespace Path

variable {edges : Edges V} {source middle target : V} {weight first second : Int}

theorem trans (left : Path edges source middle first) (right : Path edges middle target second) :
    Path edges source target (first + second) := by
  induction right with
  | edge here => exact .snoc left here
  | snoc _ here inductionHypothesis =>
      rw [← add_assoc]
      exact .snoc inductionHypothesis here

theorem bound {values : V -> Int} (path : Path edges source target weight)
    (models : Models edges values) :
    values target ≤ values source + weight := by
  induction path with
  | edge here => exact models _ _ _ here
  | snoc _ here inductionHypothesis =>
      have last := models _ _ _ here
      omega

/-- A closed path has no negative weight if the bounds can be met. -/
theorem nonneg_of_closed {values : V -> Int} (path : Path edges source source weight)
    (models : Models edges values) : 0 ≤ weight := by
  have bounded := path.bound models
  omega

/-- A path along edges that are paths themselves. -/
theorem flatten {other : Edges V}
    (paths : forall source target weight, other source target = some weight ->
      Path edges source target weight)
    (path : Path other source target weight) : Path edges source target weight := by
  induction path with
  | edge here => exact paths _ _ _ here
  | snoc _ here inductionHypothesis => exact inductionHypothesis.trans (paths _ _ _ here)

theorem map {other : Edges W} (rename : V -> W)
    (keeps : forall source target weight, edges source target = some weight ->
      other (rename source) (rename target) = some weight)
    (path : Path edges source target weight) :
    Path other (rename source) (rename target) weight := by
  induction path with
  | edge here => exact .edge (keeps _ _ _ here)
  | snoc _ here inductionHypothesis => exact .snoc inductionHypothesis (keeps _ _ _ here)

theorem reverse (path : Path edges source target weight) :
    Path (fun source target => edges target source) target source weight := by
  induction path with
  | edge here => exact .edge here
  | @snoc middle target _ last _ here inductionHypothesis =>
      have back : Path (fun source target => edges target source) target middle last := .edge here
      rw [add_comm]
      exact back.trans inductionHypothesis

/-- A property of vertices that every edge has at its two ends holds at the two
ends of a path. -/
theorem ends {property : V -> Prop}
    (edgeEnds : forall source target weight, edges source target = some weight ->
      property source ∧ property target)
    (path : Path edges source target weight) : property source ∧ property target := by
  induction path with
  | edge here => exact edgeEnds _ _ _ here
  | snoc _ here inductionHypothesis => exact ⟨inductionHypothesis.1, (edgeEnds _ _ _ here).2⟩

end Path

namespace Models

variable {edges : Edges V} {values : V -> Int}

theorem shift (models : Models edges values) (offset : Int) :
    Models edges (fun vertex => values vertex + offset) := by
  intro source target weight here
  have bounded := models source target weight here
  dsimp only
  omega

theorem map {other : Edges W} {values : W -> Int} (rename : V -> W)
    (keeps : forall source target weight, edges source target = some weight ->
      ∃ lower ≤ weight, Path other (rename source) (rename target) lower)
    (models : Models other values) : Models edges (fun vertex => values (rename vertex)) := by
  intro source target weight here
  rcases keeps source target weight here with ⟨lower, below, path⟩
  have bounded := path.bound models
  dsimp only
  omega

/-- Values that agree at the ends of all edges meet the same bounds. -/
theorem congr {others : V -> Int} {property : V -> Prop}
    (edgeEnds : forall source target weight, edges source target = some weight ->
      property source ∧ property target)
    (agree : forall vertex, property vertex -> values vertex = others vertex)
    (models : Models edges values) : Models edges others := by
  intro source target weight here
  rcases edgeEnds source target weight here with ⟨sourceHas, targetHas⟩
  rw [← agree source sourceHas, ← agree target targetHas]
  exact models source target weight here

end Models

/-! ## Adding bounds that are implied -/

/-- The second set of bounds keeps every bound of the first, perhaps lowered,
and has no bound that is not a path of the first. -/
structure Tightens (before after : Edges V) : Prop where
  path : forall source target weight, after source target = some weight ->
    Path before source target weight
  kept : forall source target weight, before source target = some weight ->
    ∃ lower ≤ weight, after source target = some lower

namespace Tightens

variable {first second third : Edges V} {values : V -> Int}

theorem refl (edges : Edges V) : Tightens edges edges :=
  ⟨fun _ _ _ here => .edge here, fun _ _ weight here => ⟨weight, le_refl _, here⟩⟩

theorem trans (below : Tightens first second) (above : Tightens second third) :
    Tightens first third := by
  constructor
  · intro source target weight here
    exact (above.path _ _ _ here).flatten below.path
  · intro source target weight here
    rcases below.kept _ _ _ here with ⟨lower, lowerLe, there⟩
    rcases above.kept _ _ _ there with ⟨lowest, lowestLe, last⟩
    exact ⟨lowest, lowestLe.trans lowerLe, last⟩

/-- Implied bounds do not change the values that meet the bounds. -/
theorem models_iff (tightens : Tightens first second) :
    Models second values ↔ Models first values := by
  constructor
  · intro models source target weight here
    rcases tightens.kept _ _ _ here with ⟨lower, below, there⟩
    have bounded := models _ _ _ there
    omega
  · intro models source target weight here
    exact (tightens.path _ _ _ here).bound models

end Tightens

/-- The values of a set of bounds, at which one bound is changed. -/
def Edges.set [DecidableEq V] (edges : Edges V) (source : V) (weight : Int)
    (target : V) : Edges V :=
  fun left right => if left = source ∧ right = target then some weight else edges left right

section Set

variable [DecidableEq V] {edges : Edges V} {source target : V} {weight : Int}

@[simp] theorem set_self : edges.set source weight target source target = some weight := by
  simp [Edges.set]

theorem set_of_ne {left right : V} (different : ¬ (left = source ∧ right = target)) :
    edges.set source weight target left right = edges left right := by
  simp [Edges.set, different]

theorem set_cases {left right : V} {here : Int}
    (member : edges.set source weight target left right = some here) :
    (left = source ∧ right = target ∧ here = weight) ∨ edges left right = some here := by
  unfold Edges.set at member
  split at member
  · rename_i same
    cases member
    exact Or.inl ⟨same.1, same.2, rfl⟩
  · exact Or.inr member

theorem Models.set {values : V -> Int} (models : Models edges values)
    (new : values target ≤ values source + weight) :
    Models (edges.set source weight target) values := by
  intro left right here member
  rcases set_cases member with ⟨rfl, rfl, rfl⟩ | old
  · exact new
  · exact models left right here old

/-- A bound that is not above a bound with the same ends replaces it. -/
theorem models_set {values : V -> Int}
    (below : forall old, edges source target = some old -> weight ≤ old) :
    Models (edges.set source weight target) values ↔
      Models edges values ∧ values target ≤ values source + weight := by
  constructor
  · intro models
    have new := models source target weight set_self
    refine ⟨?_, new⟩
    intro left right here member
    by_cases same : left = source ∧ right = target
    · rcases same with ⟨rfl, rfl⟩
      have lower := below here member
      omega
    · exact models left right here (by rwa [set_of_ne same])
  · exact fun both => both.1.set both.2

/-- A path of the first bounds replaces no lower one among them. -/
theorem Tightens.set {before : Edges V} (tightens : Tightens before edges)
    (path : Path before source target weight)
    (below : forall old, before source target = some old -> weight ≤ old) :
    Tightens before (edges.set source weight target) := by
  constructor
  · intro left right here member
    rcases set_cases member with ⟨rfl, rfl, rfl⟩ | old
    · exact path
    · exact tightens.path _ _ _ old
  · intro left right here member
    by_cases same : left = source ∧ right = target
    · rcases same with ⟨rfl, rfl⟩
      exact ⟨weight, below here member, set_self⟩
    · rw [set_of_ne same]
      exact tightens.kept _ _ _ member

end Set

/-! ## The bounds that are implied -/

/-- Every way to meet the bounds keeps `target` at most `weight` above
`source`. -/
def Implies (edges : Edges V) (source target : V) (weight : Int) : Prop :=
  forall values, Models edges values -> values target ≤ values source + weight

section Implied

variable {edges : Edges V} {values : V -> Int} {source target : V}

/-- The numbers among which the largest value of a vertex is found, when the
source has the value zero: the weights of the paths to it, and a value far
above for a vertex that has no path. -/
def Candidate (edges : Edges V) (values : V -> Int) (offset : Int) (source vertex : V)
    (number : Int) : Prop :=
  (vertex = source ∧ number = 0) ∨ Path edges source vertex number ∨ number = offset + values vertex

theorem exists_least_candidate (models : Models edges values) (offset : Int) (source vertex : V) :
    exists least, Candidate edges values offset source vertex least ∧
      forall number, Candidate edges values offset source vertex number -> least ≤ number := by
  apply Int.exists_least_of_bdd
  · refine ⟨min (values vertex - values source) (offset + values vertex), ?_⟩
    rintro number (⟨rfl, rfl⟩ | path | rfl)
    · omega
    · have bounded := path.bound models
      omega
    · omega
  · exact ⟨_, Or.inr (Or.inr rfl)⟩

/-- The largest values, with `source` at zero or below and every vertex at most
`offset` above the given values. -/
theorem exists_largest (models : Models edges values) (offset : Int) (source : V) :
    exists largest : V -> Int, Models edges largest ∧
      forall vertex, Candidate edges values offset source vertex (largest vertex) ∧
        forall number, Candidate edges values offset source vertex number ->
        largest vertex ≤ number := by
  choose largest candidate least using exists_least_candidate models offset source
  refine ⟨largest, ?_, fun vertex => ⟨candidate vertex, least vertex⟩⟩
  intro left right weight here
  rcases candidate left with ⟨atSource, zero⟩ | path | far
  · subst atSource
    have reached := least right weight (Or.inr (Or.inl (.edge here)))
    omega
  · exact least right _ (Or.inr (Or.inl (.snoc path here)))
  · have bounded := models left right weight here
    have reached := least right _ (Or.inr (Or.inr rfl))
    omega

theorem implies_iff_path (models : Models edges values) (different : source ≠ target)
    {weight : Int} :
    Implies edges source target weight ↔ ∃ lower ≤ weight, Path edges source target lower := by
  constructor
  · intro implied
    by_contra noPath
    rcases exists_largest models (weight + 1 - values target) source with
      ⟨largest, largestModels, spec⟩
    have sourceLow := (spec source).2 0 (Or.inl ⟨rfl, rfl⟩)
    have bounded := implied largest largestModels
    rcases (spec target).1 with ⟨same, _⟩ | path | far
    · exact different same.symm
    · exact noPath ⟨_, by omega, path⟩
    · omega
  · rintro ⟨lower, below, path⟩ values models
    have bounded := path.bound models
    omega

end Implied

/-! ## Split normal form -/

section Split

variable (pivot : V) (edges : Edges V)

/-- The bound is at least an edge, or the sum of an edge to the pivot and an
edge from it. -/
inductive Explicit (source target : V) (weight : Int) : Prop
  | edge {lower : Int} : edges source target = some lower -> lower ≤ weight ->
    Explicit source target weight
  | sum {first second : Int} : source ≠ pivot -> target ≠ pivot ->
    edges source pivot = some first ->
      edges pivot target = some second -> first + second ≤ weight -> Explicit source target weight

/-- Every path between different vertices is explicit. -/
def SplitClosed : Prop := forall source target weight, source ≠ target ->
    Path edges source target weight ->
  Explicit pivot edges source target weight

variable {pivot edges} {other left right : Edges V} {source target : V} {weight : Int}

theorem Explicit.path (explicit : Explicit pivot edges source target weight) :
    ∃ lower ≤ weight, Path edges source target lower := by
  cases explicit with
  | edge here below => exact ⟨_, below, .edge here⟩
  | sum _ _ first second below => exact ⟨_, below, .snoc (.edge first) second⟩

theorem Explicit.mono {larger : Int} (explicit : Explicit pivot edges source target weight)
    (below : weight ≤ larger) : Explicit pivot edges source target larger := by
  cases explicit with
  | edge here lower => exact .edge here (lower.trans below)
  | sum sourceOther targetOther first second lower =>
      exact .sum sourceOther targetOther first second (lower.trans below)

theorem Path.lower (above : forall source target weight, other source target = some weight ->
      ∃ lower ≤ weight, Path edges source target lower)
    (path : Path other source target weight) :
    ∃ lower ≤ weight, Path edges source target lower := by
  induction path with
  | edge here => exact above _ _ _ here
  | snoc _ here inductionHypothesis =>
      rcases inductionHypothesis with ⟨first, firstLe, firstPath⟩
      rcases above _ _ _ here with ⟨second, secondLe, secondPath⟩
      exact ⟨first + second, add_le_add firstLe secondLe, firstPath.trans secondPath⟩

/-- In normal form, exactly the explicit bounds are implied. -/
theorem SplitClosed.implies_iff (closed : SplitClosed pivot edges) {values : V -> Int}
    (models : Models edges values) (different : source ≠ target) :
    Implies edges source target weight ↔ Explicit pivot edges source target weight := by
  rw [implies_iff_path models different]
  constructor
  · rintro ⟨lower, below, path⟩
    exact (closed _ _ _ different path).mono below
  · exact Explicit.path

/-- Two edges in a row are enough to look at. -/
theorem SplitClosed.of_triangles {values : V -> Int} (models : Models edges values)
    (triangle : forall source middle target first last, edges source middle = some first ->
      edges middle target = some last -> source ≠ target ->
      Explicit pivot edges source target (first + last)) :
    SplitClosed pivot edges := by
  intro source target weight different path
  induction path with
  | edge here => exact .edge here (le_refl _)
  | @snoc middle target first last path here inductionHypothesis =>
      by_cases atSource : source = middle
      · subst atSource
        have nonneg := path.nonneg_of_closed models
        exact .edge here (by omega)
      · cases inductionHypothesis atSource with
        | edge earlier below => exact (triangle _ _ _ _ _ earlier here different).mono (by omega)
        | @sum toPivot fromPivot sourceOther middleOther toEdge fromEdge below =>
            by_cases atPivot : pivot = target
            · subst atPivot
              have closed := (Path.snoc (.edge fromEdge) here).nonneg_of_closed models
              exact .edge toEdge (by omega)
            · cases triangle _ _ _ _ _ fromEdge here atPivot with
              | edge shorter shorterBelow =>
                  exact .sum sourceOther (Ne.symm atPivot) toEdge shorter (by omega)
              | sum pivotOther => exact absurd rfl pivotOther

/-- Bounds that are above those of two sets in normal form, and among which every
bound that is explicit in both is explicit, are in normal form; the explicit
ones are those of both. -/
theorem SplitClosed.combine (leftClosed : SplitClosed pivot left)
    (rightClosed : SplitClosed pivot right)
    (aboveLeft : forall source target weight, edges source target = some weight ->
      ∃ lower ≤ weight, Path left source target lower)
    (aboveRight : forall source target weight, edges source target = some weight ->
      ∃ lower ≤ weight, Path right source target lower)
    (complete : forall source target weight, source ≠ target ->
      Explicit pivot left source target weight -> Explicit pivot right source target weight ->
      Explicit pivot edges source target weight) :
    SplitClosed pivot edges ∧ forall source target weight, source ≠ target ->
      (Explicit pivot edges source target weight ↔
        Explicit pivot left source target weight ∧ Explicit pivot right source target weight) := by
  have both : forall source target weight, source ≠ target -> Path edges source target weight ->
      Explicit pivot left source target weight ∧ Explicit pivot right source target weight := by
    intro source target weight different path
    rcases path.lower aboveLeft with ⟨leftLower, leftLe, leftPath⟩
    rcases path.lower aboveRight with ⟨rightLower, rightLe, rightPath⟩
    exact ⟨(leftClosed _ _ _ different leftPath).mono leftLe,
      (rightClosed _ _ _ different rightPath).mono rightLe⟩
  constructor
  · intro source target weight different path
    have explicit := both _ _ _ different path
    exact complete _ _ _ different explicit.1 explicit.2
  · intro source target weight different
    constructor
    · intro explicit
      rcases explicit.path with ⟨lower, below, path⟩
      have lowered := both _ _ _ different path
      exact ⟨lowered.1.mono below, lowered.2.mono below⟩
    · exact fun explicit => complete _ _ _ different explicit.1 explicit.2

/-- Implied bounds keep the normal form. -/
theorem SplitClosed.tighten (closed : SplitClosed pivot edges) (tightens : Tightens edges other) :
    SplitClosed pivot other := by
  intro source target weight different path
  cases closed _ _ _ different (path.flatten tightens.path) with
  | edge here below =>
      rcases tightens.kept _ _ _ here with ⟨lower, lowerLe, there⟩
      exact .edge there (lowerLe.trans below)
  | sum sourceOther targetOther first second below =>
      rcases tightens.kept _ _ _ first with ⟨firstLower, firstLe, firstThere⟩
      rcases tightens.kept _ _ _ second with ⟨secondLower, secondLe, secondThere⟩
      exact .sum sourceOther targetOther firstThere secondThere
        ((add_le_add firstLe secondLe).trans below)

/-- A number between two finite sets of which one lies below the other. -/
theorem exists_between_finite {lower upper : Set Int} (lowerFinite : lower.Finite)
    (upperFinite : upper.Finite) (below : ∀ low ∈ lower, ∀ high ∈ upper, low ≤ high) :
    exists n, (∀ low ∈ lower, low ≤ n) ∧ ∀ high ∈ upper, n ≤ high := by
  rcases lower.eq_empty_or_nonempty with rfl | lowerNonempty
  · rcases upperFinite.bddBelow with ⟨n, isBelow⟩
    exact ⟨n, by simp, fun high member => isBelow member⟩
  · rcases upper.eq_empty_or_nonempty with rfl | upperNonempty
    · rcases lowerFinite.bddAbove with ⟨n, isAbove⟩
      exact ⟨n, fun low member => isAbove member, by simp⟩
    · rcases exists_between_of_forall_le lowerNonempty upperNonempty below with
        ⟨n, isAbove, isBelow⟩
      exact ⟨n, fun low member => isAbove member, fun high member => isBelow member⟩

/-- The bounds below a vertex, given the values of the others. -/
def leavingBounds (edges : Edges V) (values : V -> Int) (vertex : V) : Set Int :=
  {n | ∃ target ≠ vertex, ∃ weight ∈ edges vertex target, n = values target - weight}

/-- The bounds above a vertex. -/
def enteringBounds (edges : Edges V) (values : V -> Int) (vertex : V) : Set Int :=
  {n | ∃ source ≠ vertex, ∃ weight ∈ edges source vertex, n = values source + weight}

/-- In normal form, the bounds between the other vertices are all that the bounds
of a vertex imply for them: values of the others extend to this vertex. -/
theorem SplitClosed.exists_value [DecidableEq V] (closed : SplitClosed pivot edges) {vertex : V}
    (notPivot : vertex ≠ pivot) {model values : V -> Int} (feasible : Models edges model)
    (finiteOut : {target | (edges vertex target).isSome}.Finite)
    (finiteIn : {source | (edges source vertex).isSome}.Finite)
    (meets : forall source target weight, source ≠ vertex -> target ≠ vertex ->
      edges source target = some weight -> values target ≤ values source + weight) :
    exists n, Models edges (Function.update values vertex n) := by
  have lowerFinite : (leavingBounds edges values vertex).Finite := by
    apply (finiteOut.image (fun target => values target - (edges vertex target).getD 0)).subset
    rintro n ⟨target, _, weight, edge, rfl⟩
    exact ⟨target, Option.isSome_of_mem edge, by dsimp only; rw [Option.mem_def.mp edge,
      Option.getD_some]⟩
  have upperFinite : (enteringBounds edges values vertex).Finite := by
    apply (finiteIn.image (fun source => values source + (edges source vertex).getD 0)).subset
    rintro n ⟨source, _, weight, edge, rfl⟩
    exact ⟨source, Option.isSome_of_mem edge, by dsimp only; rw [Option.mem_def.mp edge,
      Option.getD_some]⟩
  have below : ∀ low ∈ leavingBounds edges values vertex,
      ∀ high ∈ enteringBounds edges values vertex, low ≤ high := by
    rintro low ⟨target, targetOther, last, leaving, rfl⟩ high ⟨source, sourceOther, first,
      entering, rfl⟩
    have path : Path edges source target (first + last) := .snoc (.edge entering) leaving
    by_cases same : source = target
    · subst same
      have nonneg := path.nonneg_of_closed feasible
      omega
    · cases closed _ _ _ same path with
      | edge here lowerLe =>
          have bounded := meets _ _ _ sourceOther targetOther here
          omega
      | sum _ _ toPivot fromPivot lowerLe =>
          have bounded := meets _ _ _ sourceOther notPivot.symm toPivot
          have again := meets _ _ _ notPivot.symm targetOther fromPivot
          omega
  rcases exists_between_finite lowerFinite upperFinite below with ⟨n, isAbove, isBelow⟩
  refine ⟨n, ?_⟩
  intro source target weight edge
  by_cases atSource : source = vertex
  · by_cases atTarget : target = vertex
    · subst atSource
      subst atTarget
      have nonneg := (Path.edge edge).nonneg_of_closed feasible
      omega
    · subst atSource
      have bounded := isAbove _ ⟨target, atTarget, weight, edge, rfl⟩
      rw [Function.update_self, Function.update_of_ne atTarget]
      omega
  · by_cases atTarget : target = vertex
    · subst atTarget
      have bounded := isBelow _ ⟨source, atSource, weight, edge, rfl⟩
      rw [Function.update_self, Function.update_of_ne atSource]
      exact bounded
    · rw [Function.update_of_ne atSource, Function.update_of_ne atTarget]
      exact meets _ _ _ atSource atTarget edge

end Split

/-! ## Lowering a bound of the pivot -/

section Lowering

/-- A path that may be empty. -/
def Walk (edges : Edges V) (source target : V) (weight : Int) : Prop :=
  (source = target ∧ weight = 0) ∨ Path edges source target weight

variable {pivot : V} {edges other : Edges V} {source target left right : V} {weight total : Int}
  {values : V -> Int}

theorem Walk.snoc {first last : Int} (walk : Walk edges left right first)
    (edge : edges right target = some last) :
    Walk edges left target (first + last) := by
  rcases walk with ⟨rfl, rfl⟩ | path
  · rw [zero_add]
    exact Or.inr (.edge edge)
  · exact Or.inr (.snoc path edge)

theorem Walk.bound (walk : Walk edges left right total) (models : Models edges values) :
    values right ≤ values left + total := by
  rcases walk with ⟨rfl, rfl⟩ | path
  · omega
  · exact path.bound models

/-- A path along changed edges is one along the old edges, or goes over the new edge once. -/
theorem Path.of_set [DecidableEq V] (path : Path (edges.set source weight target) left right total)
    (models : Models edges values) (new : values target ≤ values source + weight) :
    (∃ lower ≤ total, Path edges left right lower) ∨
      exists first last, Walk edges left source first ∧ Walk edges target right last ∧
        first + weight + last ≤ total := by
  induction path with
  | edge here =>
      rcases set_cases here with ⟨rfl, rfl, rfl⟩ | old
      · exact Or.inr ⟨0, 0, Or.inl ⟨rfl, rfl⟩, Or.inl ⟨rfl, rfl⟩, by omega⟩
      · exact Or.inl ⟨_, le_rfl, .edge old⟩
  | @snoc middle right sum last _ here inductionHypothesis =>
      rcases set_cases here with ⟨rfl, rfl, rfl⟩ | old
      · rcases inductionHypothesis with ⟨lower, below, path⟩ | ⟨first, again, toSource, back, below⟩
        · exact Or.inr ⟨lower, 0, Or.inr path, Or.inl ⟨rfl, rfl⟩, by omega⟩
        · -- the new edge is on a cycle, which has no negative weight
          have cycle := back.bound models
          exact Or.inr ⟨first, 0, toSource, Or.inl ⟨rfl, rfl⟩, by omega⟩
      · rcases inductionHypothesis with ⟨lower, below, path⟩ |
          ⟨first, again, toSource, onward, below⟩
        · exact Or.inl ⟨lower + last, by omega, .snoc path old⟩
        · exact Or.inr ⟨first, again + last, toSource, onward.snoc old, by omega⟩

/-- In normal form, a lower bound of a vertex may be raised, if the lower bounds of the
vertices that are bounded by it are raised with it. -/
theorem SplitClosed.lower [DecidableEq V] (closed : SplitClosed pivot edges)
    (notPivot : source ≠ pivot)
    (models : Models edges values) (new : values pivot ≤ values source + weight)
    (below : forall old, edges source pivot = some old -> weight ≤ old)
    (tightens : Tightens (edges.set source weight pivot) other)
    (raised : forall vertex here, vertex ≠ pivot -> edges vertex source = some here ->
      ∃ lower ≤ here + weight, other vertex pivot = some lower) : SplitClosed pivot other := by
  have kept : forall {left right : V} {here : Int}, edges left right = some here ->
      ∃ lower ≤ here, other left right = some lower := by
    intro left right here edge
    by_cases isNew : left = source ∧ right = pivot
    · rcases isNew with ⟨rfl, rfl⟩
      rcases tightens.kept _ _ _ set_self with ⟨lower, lowerLe, there⟩
      exact ⟨lower, lowerLe.trans (below here edge), there⟩
    · exact tightens.kept _ _ _ (by rwa [set_of_ne isNew])
  have explicit : forall {left right : V} {total lower : Int}, left ≠ right -> lower ≤ total ->
      Path edges left right lower -> Explicit pivot other left right total := by
    intro left right total lower different lowerLe path
    cases closed _ _ _ different path with
    | edge here hereLe =>
        rcases kept here with ⟨least, leastLe, there⟩
        exact .edge there (by omega)
    | sum leftOther rightOther first second sumLe =>
        rcases kept first with ⟨firstLeast, firstLe, firstThere⟩
        rcases kept second with ⟨secondLeast, secondLe, secondThere⟩
        exact .sum leftOther rightOther firstThere secondThere (by omega)
  have fromPivot : forall {right : V} {last : Int}, pivot ≠ right -> Walk edges pivot right last ->
      ∃ lower ≤ last, other pivot right = some lower := by
    intro right last different walk
    rcases walk with ⟨same, _⟩ | path
    · exact absurd same different
    · cases explicit different le_rfl path with
      | edge here hereLe => exact ⟨_, hereLe, here⟩
      | sum impossible => exact absurd rfl impossible
  have toPivot : forall {left : V} {first : Int}, left ≠ pivot -> Walk edges left source first ->
      ∃ lower ≤ first + weight, other left pivot = some lower := by
    intro left first leftOther walk
    rcases walk with ⟨rfl, rfl⟩ | path
    · rcases tightens.kept _ _ _ set_self with ⟨lower, lowerLe, there⟩
      exact ⟨lower, by omega, there⟩
    · by_cases same : left = source
      · subst same
        have nonneg := path.nonneg_of_closed models
        rcases tightens.kept _ _ _ set_self with ⟨lower, lowerLe, there⟩
        exact ⟨lower, by omega, there⟩
      · cases closed _ _ _ same path with
        | edge here hereLe =>
            rcases raised left _ leftOther here with ⟨lower, lowerLe, there⟩
            exact ⟨lower, by omega, there⟩
        | sum _ _ first second sumLe =>
            -- the bounds of the vertex and the new edge are a cycle
            have cycle := models _ _ _ second
            rcases kept first with ⟨lower, lowerLe, there⟩
            exact ⟨lower, by omega, there⟩
  intro left right total different path
  rcases (path.flatten tightens.path).of_set models new with ⟨lower, lowerLe, old⟩ |
    ⟨first, last, there, onward, sumLe⟩
  · exact explicit different lowerLe old
  · by_cases atPivot : left = pivot
    · subst atPivot
      have cycle := there.bound models
      rcases fromPivot different onward with ⟨lower, lowerLe, here⟩
      exact .edge here (by omega)
    · rcases toPivot atPivot there with ⟨firstLower, firstLe, firstHere⟩
      by_cases pivotRight : pivot = right
      · subst pivotRight
        have cycle := onward.bound models
        exact .edge firstHere (by omega)
      · rcases fromPivot pivotRight onward with ⟨lastLower, lastLe, lastHere⟩
        exact .sum atPivot (Ne.symm pivotRight) firstHere lastHere (by omega)

/-- The bounds with the ends of all edges exchanged. -/
def Edges.flip (edges : Edges V) : Edges V := fun source target => edges target source

theorem Explicit.flip (explicit : Explicit pivot edges source target weight) :
    Explicit pivot edges.flip target source weight := by
  cases explicit with
  | edge here below => exact .edge here below
  | sum sourceOther targetOther first second below =>
      exact .sum targetOther sourceOther second first (by omega)

theorem SplitClosed.flip (closed : SplitClosed pivot edges) : SplitClosed pivot edges.flip :=
  fun _ _ _ different path => (closed _ _ _ (Ne.symm different) path.reverse).flip

theorem Models.flip (models : Models edges values) :
    Models edges.flip (fun vertex => -values vertex) := by
  intro source target weight here
  have bounded := models target source weight here
  dsimp only
  omega

theorem Tightens.flip (tightens : Tightens edges other) : Tightens edges.flip other.flip :=
  ⟨fun _ _ _ here => (tightens.path _ _ _ here).reverse, fun _ _ _ here => tightens.kept _ _ _ here⟩

theorem Edges.flip_set [DecidableEq V] :
    (edges.set source weight target).flip = edges.flip.set target weight source := by
  funext left right
  simp only [Edges.flip, Edges.set, and_comm]

/-- In normal form, an upper bound of a vertex may be lowered, if the upper bounds of the
vertices that are bounded by it are lowered with it. -/
theorem SplitClosed.raise [DecidableEq V] (closed : SplitClosed pivot edges)
    (notPivot : target ≠ pivot)
    (models : Models edges values) (new : values target ≤ values pivot + weight)
    (below : forall old, edges pivot target = some old -> weight ≤ old)
    (tightens : Tightens (edges.set pivot weight target) other)
    (lowered : forall vertex here, vertex ≠ pivot -> edges target vertex = some here ->
      ∃ lower ≤ here + weight, other pivot vertex = some lower) : SplitClosed pivot other := by
  have flipped := tightens.flip
  rw [Edges.flip_set] at flipped
  exact (closed.flip.lower notPivot models.flip (by omega) below flipped lowered).flip

end Lowering

/-! ## Bounds between some of the vertices -/

section Restrict

/-- The bounds of the large graph between the vertices that have another name. -/
structure Restricts (small : Edges W) (large : Edges V) (rename : W -> Option V) : Prop where
  lookup : forall i j weight, small i j = some weight ↔
    exists x y, rename i = some x ∧ rename j = some y ∧ large x y = some weight
  injective : forall i j x, rename i = some x -> rename j = some x -> i = j

variable {small : Edges W} {large : Edges V} {rename : W -> Option V}
  (restricts : Restricts small large rename) {i j : W} {x y : V} {weight : Int}

include restricts

theorem Restricts.lookup_iff (atSource : rename i = some x) (atTarget : rename j = some y) :
    small i j = some weight ↔ large x y = some weight := by
  rw [restricts.lookup, atSource, atTarget]
  simp

theorem Restricts.path (path : Path small i j weight) :
    exists x y, rename i = some x ∧ rename j = some y ∧ Path large x y weight := by
  induction path with
  | edge here =>
      rcases (restricts.lookup _ _ _).mp here with ⟨x, y, atSource, atTarget, edge⟩
      exact ⟨x, y, atSource, atTarget, .edge edge⟩
  | snoc _ here inductionHypothesis =>
      rcases inductionHypothesis with ⟨x, y, atSource, atMiddle, path⟩
      rcases (restricts.lookup _ _ _).mp here with ⟨middle, z, atMiddleToo, atTarget, edge⟩
      rw [atMiddle] at atMiddleToo
      cases atMiddleToo
      exact ⟨x, z, atSource, atTarget, .snoc path edge⟩

theorem Restricts.ne (atSource : rename i = some x) (atTarget : rename j = some y) :
    i ≠ j ↔ x ≠ y := by
  constructor
  · rintro different rfl
    exact different (restricts.injective _ _ _ atSource atTarget)
  · rintro different rfl
    rw [atSource] at atTarget
    cases atTarget
    exact different rfl

theorem Restricts.explicit_iff {smallPivot : W} {pivot : V}
    (atPivot : rename smallPivot = some pivot)
    (atSource : rename i = some x) (atTarget : rename j = some y) :
    Explicit smallPivot small i j weight ↔ Explicit pivot large x y weight := by
  have source := restricts.ne atSource atPivot
  have target := restricts.ne atTarget atPivot
  constructor
  · intro explicit
    cases explicit with
    | edge here below => exact .edge ((restricts.lookup_iff atSource atTarget).mp here) below
    | sum sourceOther targetOther first second below =>
        exact .sum (source.mp sourceOther) (target.mp targetOther)
          ((restricts.lookup_iff atSource atPivot).mp first)
          ((restricts.lookup_iff atPivot atTarget).mp second) below
  · intro explicit
    cases explicit with
    | edge here below => exact .edge ((restricts.lookup_iff atSource atTarget).mpr here) below
    | sum sourceOther targetOther first second below =>
        exact .sum (source.mpr sourceOther) (target.mpr targetOther)
          ((restricts.lookup_iff atSource atPivot).mpr first)
          ((restricts.lookup_iff atPivot atTarget).mpr second) below

theorem Restricts.closed {smallPivot : W} {pivot : V} (atPivot : rename smallPivot = some pivot)
    (closed : SplitClosed pivot large) : SplitClosed smallPivot small := by
  intro i j weight different path
  rcases restricts.path path with ⟨x, y, atSource, atTarget, largePath⟩
  rw [restricts.explicit_iff atPivot atSource atTarget]
  exact closed _ _ _ ((restricts.ne atSource atTarget).mp different) largePath

end Restrict

end DifferenceBounds
end Prevail
