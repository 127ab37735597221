import Prevail.Crab.ExactRepair

namespace Prevail
namespace Crab

open DifferenceBounds

/-!
# Closure over a new edge is exact

`close_over_edge` combines the predecessors of the new edge whose path to its target has
become shorter with the successors whose path from its source has.  In a graph that was
closed before, the other pairs have an old path that is as short.

The loops change the graph that they run over, but none of the edges that they read.
-/

namespace GraphOps

/-! ## The loops -/

section Lower

variable {g : AdaptGraph} {source target : Nat} {weight : Int}

/-- The graph in which an edge is lowered has it with at most the given weight, and
leaves the others alone. -/
theorem lowerEdge_eq_some {next : AdaptGraph}
    (lowered : lowerEdge g source weight target = some next) :
    next = g.setEdge source weight target ∧ forall old, g.lookup source target = some old ->
      weight ≤ old := by
  rw [lowerEdge] at lowered
  split at lowered
  · rename_i old here
    split at lowered
    · cases lowered
    · rename_i lower
      cases lowered
      refine ⟨rfl, fun other there => ?_⟩
      rw [here, Option.some.injEq] at there
      omega
  · rename_i absent
    cases lowered
    refine ⟨rfl, fun other there => ?_⟩
    rw [absent] at there
    cases there

theorem lowerEdge_eq_none (kept : lowerEdge g source weight target = none) :
    ∃ old ≤ weight, g.lookup source target = some old := by
  rw [lowerEdge] at kept
  split at kept
  · rename_i old here
    split at kept
    · rename_i atMost
      exact ⟨old, atMost, here⟩
    · cases kept
  · cases kept

/-- One loop of `close_over_edge` over the edges at one end of the new edge.  The edge
between the other end and the vertex `skip` is left out. -/
def lowerPass (skip : Nat) (ends : Nat -> Nat × Nat) (weight : Int)
    (state : AdaptGraph × List (Nat × Int)) (edge : Nat × Int) : AdaptGraph × List (Nat × Int) :=
  if edge.1 = skip then state
  else
    match lowerEdge state.1 (ends edge.1).1 (edge.2 + weight) (ends edge.1).2 with
    | some g => (g, state.2 ++ [edge])
    | none => state

theorem closePreds_eq (jj : Nat) (weight : Int) :
    closePreds jj weight = lowerPass jj (fun vertex => (vertex, jj)) weight := rfl

theorem closeSuccs_eq (ii : Nat) (weight : Int) :
    closeSuccs ii weight = lowerPass ii (fun vertex => (ii, vertex)) weight := rfl

/-- Lookups that agree away from the ends of some vertices. -/
def AgreeBut (ends : Nat -> Nat × Nat) (vertices : Nat -> Prop)
    (before after : AdaptGraph) : Prop :=
  forall left right, (forall vertex, vertices vertex -> ends vertex ≠ (left, right)) ->
    after.lookup left right = before.lookup left right

/-- What a loop has done for an edge: it is recorded, or was no improvement. -/
structure Passed (ends : Nat -> Nat × Nat) (weight : Int) (before : AdaptGraph)
    (after : AdaptGraph × List (Nat × Int)) (edge : Nat × Int) : Prop where
  recorded : edge ∈ after.2 ∨
    ∃ old ≤ edge.2 + weight, before.lookup (ends edge.1).1 (ends edge.1).2 = some old
  lowered : ∃ lower ≤ edge.2 + weight, after.1.lookup (ends edge.1).1 (ends edge.1).2 = some lower

variable {skip : Nat} {ends : Nat -> Nat × Nat} {state : AdaptGraph × List (Nat × Int)}
  {edge : Nat × Int}

theorem lowerPass_agrees : AgreeBut ends (fun vertex => vertex = edge.1 ∧ vertex ≠ skip) state.1
    (lowerPass skip ends weight state edge).1 := by
  intro left right elsewhere
  rw [lowerPass]
  split
  · rfl
  · rename_i other
    split
    · rename_i next lowered
      have isSet := (lowerEdge_eq_some lowered).1
      have different : ¬ (left = (ends edge.1).1 ∧ right = (ends edge.1).2) := by
        rintro ⟨rfl, rfl⟩
        exact elsewhere edge.1 ⟨rfl, other⟩ rfl
      rw [isSet]
      exact set_of_ne different
    · rfl

theorem lowerPass_recorded : ∀ old ∈ state.2, old ∈ (lowerPass skip ends weight state edge).2 := by
  intro old member
  rw [lowerPass]
  split
  · exact member
  · split
    · exact List.mem_append_left _ member
    · exact member

theorem lowerPass_passed (other : edge.1 ≠ skip) :
    Passed ends weight state.1 (lowerPass skip ends weight state edge) edge := by
  rw [lowerPass, if_neg other]
  split
  · rename_i next lowered
    have isSet := (lowerEdge_eq_some lowered).1
    refine ⟨Or.inl (List.mem_append_right _ List.mem_cons_self), edge.2 + weight, le_refl _, ?_⟩
    rw [isSet]
    exact set_self
  · rename_i kept
    have short := lowerEdge_eq_none kept
    exact ⟨Or.inr short, short⟩

/-- A whole loop, over different vertices with different ends. -/
theorem foldl_lowerPass (injective : Function.Injective ends) {edges : List (Nat × Int)}
    (nodup : (edges.map Prod.fst).Nodup) :
    AgreeBut ends (fun vertex => vertex ∈ edges.map Prod.fst ∧ vertex ≠ skip) state.1
        (edges.foldl (lowerPass skip ends weight) state).1 ∧
      (∀ old ∈ state.2, old ∈ (edges.foldl (lowerPass skip ends weight) state).2) ∧
      ∀ edge ∈ edges, edge.1 ≠ skip ->
      Passed ends weight state.1 (edges.foldl (lowerPass skip ends weight) state) edge := by
  induction edges generalizing state with
  | nil => exact ⟨fun _ _ _ => rfl, fun _ member => member, by simp⟩
  | cons first rest inductionHypothesis =>
      rw [List.map_cons, List.nodup_cons] at nodup
      rcases @inductionHypothesis (lowerPass skip ends weight state first) nodup.2 with
        ⟨agrees, recorded, passed⟩
      have firstAgrees := @lowerPass_agrees weight skip ends state first
      refine ⟨?_, fun old member => recorded old (lowerPass_recorded old member), ?_⟩
      · intro left right elsewhere
        rw [List.foldl_cons, agrees left right (fun vertex member => elsewhere vertex
          ⟨List.mem_cons_of_mem _ member.1, member.2⟩)]
        exact firstAgrees left right (fun vertex member => elsewhere vertex
          ⟨member.1 ▸ List.mem_cons_self, member.2⟩)
      · intro edge member other
        rw [List.foldl_cons]
        rcases List.mem_cons.mp member with rfl | inRest
        · have here := @lowerPass_passed weight skip ends state edge other
          have kept := agrees (ends edge.1).1 (ends edge.1).2 (fun vertex member same =>
            nodup.1 (injective same ▸ member.1))
          refine ⟨here.recorded.imp (recorded edge) id, ?_⟩
          rw [kept]
          exact here.lowered
        · have there := passed edge inRest other
          have different : first.1 ≠ edge.1 :=
            fun same => nodup.1 (same ▸ List.mem_map_of_mem inRest)
          have before := firstAgrees (ends edge.1).1 (ends edge.1).2 (fun vertex member same =>
            different (member.1.symm.trans (injective same)))
          refine ⟨?_, there.lowered⟩
          rw [<- before]
          exact there.recorded

theorem foldl_lowerPass_keeps {motive : AdaptGraph -> Prop} {edges : List (Nat × Int)}
    (start : motive state.1) (set : forall g, motive g -> ∀ edge ∈ edges, edge.1 ≠ skip ->
      motive (g.setEdge (ends edge.1).1 (edge.2 + weight) (ends edge.1).2)) :
    motive (edges.foldl (lowerPass skip ends weight) state).1 := by
  apply List.foldlRecOn (motive := fun state : AdaptGraph × List (Nat × Int) =>
    motive state.1) edges
  · exact start
  · intro current kept edge member
    rw [lowerPass]
    split
    · exact kept
    · rename_i other
      split
      · rename_i next lowered
        rw [(lowerEdge_eq_some lowered).1]
        exact set _ kept edge member other
      · exact kept

theorem mem_foldl_lowerPass {edges : List (Nat × Int)} :
    ∀ edge ∈ (edges.foldl (lowerPass skip ends weight) state).2, edge ∈ state.2 ∨
      (edge ∈ edges ∧ edge.1 ≠ skip) := by
  induction edges generalizing state with
  | nil => exact fun _ member => Or.inl member
  | cons first rest inductionHypothesis =>
      intro edge member
      rcases inductionHypothesis edge member with recorded | ⟨inRest, other⟩
      · rw [lowerPass] at recorded
        split at recorded
        · exact Or.inl recorded
        · rename_i other
          split at recorded
          · rcases List.mem_append.mp recorded with before | new
            · exact Or.inl before
            · rw [List.mem_singleton.mp new]
              exact Or.inr ⟨List.mem_cons_self, other⟩
          · exact Or.inl recorded
      · exact Or.inr ⟨List.mem_cons_of_mem _ inRest, other⟩

/-- No bound is lost or raised. -/
def Lowers (before after : AdaptGraph) : Prop :=
  forall left right old, before.lookup left right = some old ->
    ∃ lower ≤ old, after.lookup left right = some lower

theorem Lowers.refl (g : AdaptGraph) : Lowers g g := fun _ _ old here => ⟨old, le_refl _, here⟩

theorem Lowers.trans {first second third : AdaptGraph} (left : Lowers first second)
    (right : Lowers second third) :
    Lowers first third := by
  intro source target old here
  rcases left _ _ _ here with ⟨middle, atMiddle, there⟩
  rcases right _ _ _ there with ⟨lower, atLower, last⟩
  exact ⟨lower, atLower.trans atMiddle, last⟩

theorem lowers_lowerEdge : Lowers g ((lowerEdge g source weight target).getD g) := by
  cases lowered : lowerEdge g source weight target with
  | none => exact Lowers.refl g
  | some next =>
      intro left right old here
      rw [Option.getD_some, (lowerEdge_eq_some lowered).1]
      by_cases same : left = source ∧ right = target
      · rcases same with ⟨rfl, rfl⟩
        exact ⟨weight, (lowerEdge_eq_some lowered).2 _ here, set_self⟩
      · exact ⟨old, le_refl _, (set_of_ne same).trans here⟩

theorem lowerEdge_reaches :
    ∃ lower ≤ weight, ((lowerEdge g source weight target).getD g).lookup source target =
    some lower := by
  cases lowered : lowerEdge g source weight target with
  | none => exact lowerEdge_eq_none lowered
  | some next =>
      rw [Option.getD_some, (lowerEdge_eq_some lowered).1]
      exact ⟨weight, le_refl _, set_self⟩

theorem lowers_lowerPass : Lowers state.1 (lowerPass skip ends weight state edge).1 := by
  rw [lowerPass]
  split
  · exact Lowers.refl _
  · have lowers := @lowers_lowerEdge state.1 (ends edge.1).1 (ends edge.1).2 (edge.2 + weight)
    split
    · rename_i next lowered
      rwa [lowered] at lowers
    · exact Lowers.refl _

theorem lowers_foldl_lowerPass {edges : List (Nat × Int)} :
    Lowers state.1 (edges.foldl (lowerPass skip ends weight) state).1 := by
  apply List.foldlRecOn (motive := fun after : AdaptGraph × List (Nat × Int) =>
    Lowers state.1 after.1) edges
  · exact Lowers.refl _
  · intro current kept edge _
    exact kept.trans lowers_lowerPass

variable {sources dests : List (Nat × Int)} {first : Nat × Int}

/-- The third loop reaches the targets of one source. -/
theorem closePairs_spec : Lowers g (closePairs weight dests g first) ∧ ∀ dest ∈ dests,
    ∃ lower ≤ weight + first.2 + dest.2, (closePairs weight dests g first).lookup first.1 dest.1 =
      some lower := by
  rw [closePairs]
  induction dests generalizing g with
  | nil => exact ⟨Lowers.refl g, by simp⟩
  | cons dest rest inductionHypothesis =>
      rcases @inductionHypothesis
        ((lowerEdge g first.1 (weight + first.2 + dest.2) dest.1).getD g) with ⟨lowers, reaches⟩
      refine ⟨lowers_lowerEdge.trans lowers, fun other member => ?_⟩
      rcases List.mem_cons.mp member with rfl | inRest
      · rcases @lowerEdge_reaches g first.1 other.1 (weight + first.2 + other.2) with
          ⟨lower, atMost, here⟩
        rcases lowers _ _ _ here with ⟨lowest, lowestAtMost, there⟩
        exact ⟨lowest, lowestAtMost.trans atMost, there⟩
      · exact reaches other inRest

/-- The third loop reaches all pairs. -/
theorem foldl_closePairs_spec : Lowers g (sources.foldl (closePairs weight dests) g) ∧
    ∀ source ∈ sources, ∀ dest ∈ dests, ∃ lower ≤ weight + source.2 + dest.2,
      (sources.foldl (closePairs weight dests) g).lookup source.1 dest.1 = some lower := by
  induction sources generalizing g with
  | nil => exact ⟨Lowers.refl g, by simp⟩
  | cons source rest inductionHypothesis =>
      rcases @inductionHypothesis (closePairs weight dests g source) with ⟨lowers, reaches⟩
      have here := @closePairs_spec g weight dests source
      refine ⟨here.1.trans lowers, fun other member dest inDests => ?_⟩
      rcases List.mem_cons.mp member with rfl | inRest
      · rcases here.2 dest inDests with ⟨lower, atMost, found⟩
        rcases lowers _ _ _ found with ⟨lowest, lowestAtMost, there⟩
        exact ⟨lowest, lowestAtMost.trans atMost, there⟩
      · exact reaches other inRest dest inDests

theorem foldl_closePairs_keeps {motive : AdaptGraph -> Prop} (start : motive g)
    (set : forall g, motive g -> ∀ source ∈ sources, ∀ dest ∈ dests,
      motive (g.setEdge source.1 (weight + source.2 + dest.2) dest.1)) :
    motive (sources.foldl (closePairs weight dests) g) := by
  refine List.foldlRecOn (motive := motive) sources _ start ?_
  intro current kept source inSources
  rw [closePairs]
  refine List.foldlRecOn (motive := motive) dests _ kept ?_
  intro inner innerKept dest inDests
  cases lowered : lowerEdge inner source.1 (weight + source.2 + dest.2) dest.1 with
  | none => exact innerKept
  | some next =>
      rw [Option.getD_some, (lowerEdge_eq_some lowered).1]
      exact set inner innerKept source inSources dest inDests

end Lower

theorem nodup_eSuccs (g : GraphView) (vertex : Nat) : ((g.eSuccs vertex).map Prod.fst).Nodup := by
  rw [GraphView.eSuccs, List.map_filterMap]
  apply List.nodup_range.filterMap
  intro left right target atLeft atRight
  simp only [Option.map_map, Option.mem_def, Option.map_eq_some_iff,
    Function.comp_apply] at atLeft atRight
  rcases atLeft with ⟨_, _, rfl⟩
  rcases atRight with ⟨_, _, rfl⟩
  rfl

section OverEdge

variable {old : AdaptGraph} {ii jj : Nat} {weight : Int}

/-- The edges that do not touch vertex zero. -/
def inner (g : AdaptGraph) : Edges Nat := (g.view.exclude 0).lookup

/-- The closure has the shortest paths away from vertex zero, and the edges at it. -/
structure OverEdgeExact (g : AdaptGraph) (ii jj : Nat) : Prop where
  shortest : forall u v length, u ≠ v -> Path (inner g) u v length ->
    exists weight, (closeOverEdge g ii jj).lookup u v = some weight ∧ Shortest (inner g) u v weight
  zero : forall v, (closeOverEdge g ii jj).lookup v 0 = g.lookup v 0 ∧
    (closeOverEdge g ii jj).lookup 0 v = g.lookup 0 v

theorem inner_eq {g : AdaptGraph} {u v : Nat} (uOther : u ≠ 0) (vOther : v ≠ 0) :
    inner g u v = g.lookup u v :=
  if_neg (not_or.mpr ⟨uOther, vOther⟩)

theorem inner_setEdge (iiOther : ii ≠ 0) (jjOther : jj ≠ 0) :
    inner (old.setEdge ii weight jj) = (inner old).set ii weight jj := by
  funext u v
  by_cases touches : u = 0 ∨ v = 0
  · have different : ¬ (u = ii ∧ v = jj) := by omega
    rw [set_of_ne different, inner, inner, GraphView.exclude, GraphView.exclude]
    dsimp only
    rw [if_pos touches, if_pos touches]
  · rw [not_or] at touches
    rw [inner_eq touches.1 touches.2]
    by_cases isNew : u = ii ∧ v = jj
    · rcases isNew with ⟨rfl, rfl⟩
      rw [set_self]
      exact set_self
    · rw [set_of_ne isNew, inner_eq touches.1 touches.2]
      exact set_of_ne isNew

/-- A change that keeps vertex zero alone, and adds paths only. -/
def AddsPaths (base : AdaptGraph) (g : AdaptGraph) : Prop :=
  (forall v, g.lookup v 0 = base.lookup v 0 ∧ g.lookup 0 v = base.lookup 0 v) ∧
    forall u v length, inner g u v = some length -> Path (inner base) u v length

theorem AddsPaths.setEdge {base g : AdaptGraph} (adds : AddsPaths base g) {u v : Nat} {length : Int}
    (path : Path (inner base) u v length) : AddsPaths base (g.setEdge u length v) := by
  have others : u ≠ 0 ∧ v ≠ 0 := path.ends (fun source target length here => by
    have found := GraphView.lookup_exclude.mp here
    exact ⟨found.1, found.2.1⟩)
  constructor
  · intro w
    constructor
    · exact (set_of_ne (fun same => others.2 same.2.symm)).trans (adds.1 w).1
    · exact (set_of_ne (fun same => others.1 same.1.symm)).trans (adds.1 w).2
  · intro source target here found
    rw [inner_setEdge others.1 others.2] at found
    rcases set_cases found with ⟨rfl, rfl, rfl⟩ | before
    · exact path
    · exact adds.2 _ _ _ before

section Loops

variable {g : AdaptGraph}

/-- The state behind the first loop of `close_over_edge`. -/
def predsPass (g : AdaptGraph) (ii jj : Nat) (weight : Int) : AdaptGraph × List (Nat × Int) :=
  ((g.view.exclude 0).ePreds ii).foldl (closePreds jj weight) (g, [])

/-- The state behind the second loop. -/
def succsPass (g : AdaptGraph) (ii jj : Nat) (weight : Int) : AdaptGraph × List (Nat × Int) :=
  (((predsPass g ii jj weight).1.view.exclude 0).eSuccs jj).foldl (closeSuccs ii weight)
    ((predsPass g ii jj weight).1, [])

theorem closeOverEdge_eq (new : g.lookup ii jj = some weight) : closeOverEdge g ii jj =
    (predsPass g ii jj weight).2.foldl (closePairs weight (succsPass g ii jj weight).2)
    (succsPass g ii jj weight).1 := by
  rw [closeOverEdge, new, Option.getD_some]
  rfl

theorem mem_preds {edge : Nat × Int} (member : edge ∈ (predsPass g ii jj weight).2) :
    inner g edge.1 ii = some edge.2 ∧ edge.1 ≠ jj := by
  rw [predsPass, closePreds_eq] at member
  rcases mem_foldl_lowerPass edge member with impossible | ⟨listed, other⟩
  · cases impossible
  · exact ⟨(GraphView.mem_ePreds.mp listed).2, other⟩

theorem mem_succs {edge : Nat × Int} (member : edge ∈ (succsPass g ii jj weight).2) :
    inner (predsPass g ii jj weight).1 jj edge.1 = some edge.2 ∧ edge.1 ≠ ii := by
  rw [succsPass, closeSuccs_eq] at member
  rcases mem_foldl_lowerPass edge member with impossible | ⟨listed, other⟩
  · cases impossible
  · exact ⟨(GraphView.mem_eSuccs.mp listed).2, other⟩

theorem addsPaths_preds (newPath : Path (inner g) ii jj weight) :
    AddsPaths g (predsPass g ii jj weight).1 := by
  rw [predsPass, closePreds_eq]
  apply foldl_lowerPass_keeps (motive := AddsPaths g)
  · exact ⟨fun _ => ⟨rfl, rfl⟩, fun _ _ _ here => .edge here⟩
  · intro current adds edge member _
    apply adds.setEdge
    exact (Path.edge (GraphView.mem_ePreds.mp member).2).trans newPath

theorem addsPaths_succs (newPath : Path (inner g) ii jj weight) :
    AddsPaths g (succsPass g ii jj weight).1 := by
  have preds := addsPaths_preds newPath
  rw [succsPass, closeSuccs_eq]
  apply foldl_lowerPass_keeps (motive := AddsPaths g)
  · exact preds
  · intro current adds edge member _
    apply adds.setEdge
    have path := newPath.trans (preds.2 _ _ _ (GraphView.mem_eSuccs.mp member).2)
    rwa [add_comm] at path

theorem addsPaths_closeOverEdge (new : g.lookup ii jj = some weight)
    (newPath : Path (inner g) ii jj weight) :
    AddsPaths g (closeOverEdge g ii jj) := by
  rw [closeOverEdge_eq new]
  apply foldl_closePairs_keeps (motive := AddsPaths g) (addsPaths_succs newPath)
  intro current adds source inSources dest inDests
  apply adds.setEdge
  have into : Path (inner g) source.1 ii source.2 := .edge (mem_preds inSources).1
  have outOf := (addsPaths_preds newPath).2 _ _ _ (mem_succs inDests).1
  have path := (into.trans newPath).trans outOf
  rwa [add_comm source.2] at path

theorem lowers_preds : Lowers g (predsPass g ii jj weight).1 := by
  rw [predsPass, closePreds_eq]
  exact @lowers_foldl_lowerPass _ _ _ (g, []) _

theorem lowers_preds_succs : Lowers (predsPass g ii jj weight).1 (succsPass g ii jj weight).1 := by
  rw [succsPass, closeSuccs_eq]
  exact @lowers_foldl_lowerPass _ _ _ ((predsPass g ii jj weight).1, []) _

theorem lowers_closeSuccs (new : g.lookup ii jj = some weight) :
    Lowers (succsPass g ii jj weight).1 (closeOverEdge g ii jj) := by
  rw [closeOverEdge_eq new]
  exact foldl_closePairs_spec.1

theorem lowers_closeOverEdge (new : g.lookup ii jj = some weight) :
    Lowers g (closeOverEdge g ii jj) := by
  exact (lowers_preds.trans lowers_preds_succs).trans (lowers_closeSuccs new)

/-- The first loop has looked at every predecessor. -/
theorem passed_pred (weight : Int) {u : Nat} {first : Int} (below : u < g.size)
    (here : inner g u ii = some first) (other : u ≠ jj) :
    Passed (fun vertex => (vertex, jj)) weight g (predsPass g ii jj weight) (u, first) := by
  have injective : Function.Injective (fun vertex : Nat => (vertex, jj)) :=
    fun _ _ same => congrArg Prod.fst same
  have whole := @foldl_lowerPass weight jj _ (g, []) injective
    _ (nodup_eSuccs (g.view.exclude 0).reverse ii)
  exact whole.2.2 (u, first) (GraphView.mem_ePreds.mpr ⟨below, here⟩) other

theorem agrees_preds {left right : Nat} (other : right ≠ jj) :
    (predsPass g ii jj weight).1.lookup left right = g.lookup left right := by
  have injective : Function.Injective (fun vertex : Nat => (vertex, jj)) :=
    fun _ _ same => congrArg Prod.fst same
  have whole := @foldl_lowerPass weight jj _ (g, []) injective
    _ (nodup_eSuccs (g.view.exclude 0).reverse ii)
  exact whole.1 left right (fun vertex _ same => other (congrArg Prod.snd same).symm)

theorem size_preds : (predsPass g ii jj weight).1.size = g.size := by
  rw [predsPass, closePreds_eq]
  apply foldl_lowerPass_keeps (motive := fun after => after.size = g.size) rfl
  exact fun _ same _ _ _ => same

/-- The second loop has looked at every successor. -/
theorem passed_succ (weight : Int) {v : Nat} {last : Int} (below : v < g.size)
    (here : inner g jj v = some last) (loop : v ≠ jj) (other : v ≠ ii) :
    Passed (fun vertex => (ii, vertex)) weight (predsPass g ii jj weight).1
      (succsPass g ii jj weight) (v, last) := by
  have injective : Function.Injective (fun vertex : Nat => (ii, vertex)) :=
    fun _ _ same => congrArg Prod.snd same
  have whole := @foldl_lowerPass weight ii _ ((predsPass g ii jj weight).1, []) injective _
    (nodup_eSuccs ((predsPass g ii jj weight).1.view.exclude 0) jj)
  apply whole.2.2 (v, last) ?_ other
  have ends := GraphView.lookup_exclude.mp here
  have kept : inner (predsPass g ii jj weight).1 jj v = some last := by
    rw [inner_eq ends.1 ends.2.1, agrees_preds loop]
    exact ends.2.2
  exact GraphView.mem_eSuccs.mpr
    ⟨by rw [GraphView.exclude, AdaptGraph.view, size_preds]; exact below, kept⟩

end Loops

section Exact

variable (closed : Closed (inner old)) (below : forall previous, old.lookup ii jj = some previous ->
  weight ≤ previous)

include closed below

/-- An old path from `ii` or to `jj` that is no longer than the one over the new edge. -/
theorem exists_of_old {u v : Nat} {length total : Int} (distinct : u ≠ v)
    (path : Path (inner old) u v length)
    (atMost : length ≤ total) :
    ∃ lower ≤ total, (closeOverEdge (old.setEdge ii weight jj) ii jj).lookup u v = some lower := by
  have new : (old.setEdge ii weight jj).lookup ii jj = some weight := set_self
  rcases closed _ _ _ distinct path with ⟨lower, lowerAtMost, here⟩
  have ends := GraphView.lookup_exclude.mp here
  have kept : ∃ first ≤ lower, (old.setEdge ii weight jj).lookup u v = some first := by
    by_cases isNew : u = ii ∧ v = jj
    · rcases isNew with ⟨rfl, rfl⟩
      exact ⟨weight, below _ ends.2.2, new⟩
    · exact ⟨lower, le_refl _, (set_of_ne isNew).trans ends.2.2⟩
  rcases kept with ⟨first, firstAtMost, there⟩
  rcases lowers_closeOverEdge new _ _ _ there with ⟨last, lastAtMost, result⟩
  exact ⟨last, by omega, result⟩

variable (wellFormed : old.WellFormed) (irreflexive : forall v, old.lookup v v = none)
  (iiOther : ii ≠ 0)
  (jjOther : jj ≠ 0) (different : ii ≠ jj)
  (cycles : NoNegativeCycle (old.setEdge ii weight jj).lookup)

include wellFormed irreflexive iiOther jjOther different cycles

/-- The closure reaches every pair over the new edge. -/
theorem exists_over_new {u v : Nat} {first last : Int} (distinct : u ≠ v)
    (into : Near (inner old) u ii first)
    (outOf : Near (inner old) jj v last) : ∃ lower ≤ first + weight + last,
      (closeOverEdge (old.setEdge ii weight jj) ii jj).lookup u v = some lower := by
  have new : (old.setEdge ii weight jj).lookup ii jj = some weight := set_self
  have newPath : Path (old.setEdge ii weight jj).lookup ii jj weight := .edge new
  have keptInner : forall {left right : Nat} {length : Int}, inner old left right = some length ->
      ¬ (left = ii ∧ right = jj) -> inner (old.setEdge ii weight jj) left right = some length := by
    intro left right length here isOther
    rw [inner_setEdge iiOther jjOther, set_of_ne isOther]
    exact here
  have loops : forall {left right : Nat} {length : Int}, inner old left right = some length ->
      left ≠ right := by
    rintro left _ length here rfl
    have found := (GraphView.lookup_exclude.mp here).2.2
    rw [AdaptGraph.view_lookup, irreflexive] at found
    cases found
  have finish : forall {graph : AdaptGraph} {left right : Nat} {total : Int},
      Lowers graph (closeOverEdge (old.setEdge ii weight jj) ii jj) ->
      (∃ lower ≤ total, graph.lookup left right = some lower) ->
        ∃ lower ≤ total, (closeOverEdge (old.setEdge ii weight jj) ii jj).lookup left right =
        some lower := by
    rintro graph left right total lowers ⟨lower, atMost, here⟩
    rcases lowers _ _ _ here with ⟨lowest, lowestAtMost, there⟩
    exact ⟨lowest, lowestAtMost.trans atMost, there⟩
  cases into with
  | here =>
      cases outOf with
      | here => exact finish (lowers_closeOverEdge new) ⟨weight, by omega, new⟩
      | edge outEdge =>
          have isOther : ¬ (jj = ii ∧ v = jj) := fun same => different same.1.symm
          have size : v < (old.setEdge ii weight jj).size :=
            (wellFormed.ends _ _ _ (GraphView.lookup_exclude.mp outEdge).2.2).2.1
          have passed := passed_succ weight size (keptInner outEdge isOther) (loops outEdge).symm
            (Ne.symm distinct)
          rcases passed.lowered with ⟨lower, atMost, found⟩
          exact finish (lowers_closeSuccs new) ⟨lower, by dsimp only at atMost; omega, found⟩
  | edge inEdge =>
      have inOther : ¬ (u = ii ∧ ii = jj) := fun same => different same.2
      have inSize : u < (old.setEdge ii weight jj).size :=
        (wellFormed.ends _ _ _ (GraphView.lookup_exclude.mp inEdge).2.2).1.1
      cases outOf with
      | here =>
          have passed := passed_pred weight inSize (keptInner inEdge inOther) distinct
          rcases passed.lowered with ⟨lower, atMost, found⟩
          exact finish (lowers_preds_succs.trans (lowers_closeSuccs new))
            ⟨lower, by dsimp only at atMost; omega, found⟩
      | edge outEdge =>
          have outOther : ¬ (jj = ii ∧ v = jj) := fun same => different same.1.symm
          have inPath : Path (old.setEdge ii weight jj).lookup u ii first :=
            .edge (GraphView.lookup_exclude.mp (keptInner inEdge inOther)).2.2
          have outPath : Path (old.setEdge ii weight jj).lookup jj v last :=
            .edge (GraphView.lookup_exclude.mp (keptInner outEdge outOther)).2.2
          have whole : forall {total : Int}, Path (inner old) u v total ->
              total ≤ first + weight + last -> ∃ lower ≤ first + weight + last,
                (closeOverEdge (old.setEdge ii weight jj) ii jj).lookup u v = some lower :=
            exists_of_old closed below distinct
          by_cases fromJj : u = jj
          · -- The path runs through its own source.
            subst fromJj
            have around := cycles _ _ (inPath.trans newPath)
            exact whole (.edge outEdge) (by omega)
          · by_cases toIi : v = ii
            · subst toIi
              have around := cycles _ _ (newPath.trans outPath)
              exact whole (.edge inEdge) (by omega)
            · have outSize : v < (old.setEdge ii weight jj).size :=
                (wellFormed.ends _ _ _ (GraphView.lookup_exclude.mp outEdge).2.2).2.1
              have pred := passed_pred weight inSize (keptInner inEdge inOther) fromJj
              have succ := passed_succ weight outSize (keptInner outEdge outOther)
                (loops outEdge).symm toIi
              rcases pred.recorded with inSources | ⟨short, atMost, found⟩
              · rcases succ.recorded with inDests | ⟨short, atMost, found⟩
                · rw [closeOverEdge_eq new]
                  rcases foldl_closePairs_spec.2 _ inSources _ inDests with ⟨lower, atMost, reached⟩
                  exact ⟨lower, by dsimp only at atMost; omega, reached⟩
                · -- The path from `ii` to `v` was not improved.
                  rw [agrees_preds (loops outEdge).symm] at found
                  have oldEdge : old.lookup ii v = some short := (set_of_ne (fun same =>
                    (loops outEdge) same.2.symm)).symm.trans found
                  have ends := GraphView.lookup_exclude.mp outEdge
                  have path : Path (inner old) u v (first + short) :=
                    .snoc (.edge inEdge) ((inner_eq iiOther ends.2.1).trans oldEdge)
                  dsimp only at atMost
                  exact whole path (by omega)
              · -- The path from `u` to `jj` was not improved.
                have oldEdge : old.lookup u jj = some short := (set_of_ne (fun same =>
                  (loops inEdge) same.1)).symm.trans found
                have ends := GraphView.lookup_exclude.mp inEdge
                have path : Path (inner old) u v (short + last) :=
                  .snoc (.edge ((inner_eq ends.1 jjOther).trans oldEdge)) outEdge
                dsimp only at atMost
                exact whole path (by omega)

/-- After an edge was added or lowered in a closed graph, the shortest paths are closed
again. -/
theorem closeOverEdge_exact : OverEdgeExact (old.setEdge ii weight jj) ii jj := by
  have new : (old.setEdge ii weight jj).lookup ii jj = some weight := set_self
  have newPath : Path (inner (old.setEdge ii weight jj)) ii jj weight := by
    rw [inner_setEdge iiOther jjOther]
    exact .edge set_self
  have adds := addsPaths_closeOverEdge new newPath
  have oldBelow : forall previous, inner old ii jj = some previous -> weight ≤ previous := by
    rw [inner_eq iiOther jjOther]
    exact below
  have innerCycles : NoNegativeCycle ((inner old).set ii weight jj) := by
    intro vertex around path
    rw [<- inner_setEdge iiOther jjOther] at path
    exact cycles _ _ (GraphView.path_of_exclude path)
  have reaches : forall {u v : Nat} {length : Int}, u ≠ v ->
      Path (inner (old.setEdge ii weight jj)) u v length ->
      ∃ lower ≤ length, (closeOverEdge (old.setEdge ii weight jj) ii jj).lookup u v =
      some lower := by
    intro u v length distinct path
    rw [inner_setEdge iiOther jjOther] at path
    rcases closed.path_set oldBelow innerCycles path with ⟨lower, atMost, near⟩ |
      ⟨first, last, into, outOf, atMost⟩
    · exact exists_of_old closed below distinct (.edge (near.path distinct)) atMost
    · rcases exists_over_new closed below wellFormed irreflexive iiOther jjOther different cycles
        distinct into outOf with
        ⟨lower, lowerAtMost, found⟩
      exact ⟨lower, by omega, found⟩
  refine ⟨fun u v length distinct path => ?_, adds.1⟩
  rcases reaches distinct path with ⟨weight, _, found⟩
  refine ⟨weight, found, adds.2 u v weight ?_, fun other otherPath => ?_⟩
  · have others : u ≠ 0 ∧ v ≠ 0 := path.ends (fun source target length here => by
      have ends := GraphView.lookup_exclude.mp here
      exact ⟨ends.1, ends.2.1⟩)
    rwa [inner_eq others.1 others.2]
  · rcases reaches distinct otherPath with ⟨lower, atMost, same⟩
    rw [found, Option.some.injEq] at same
    omega

end Exact

/-- One edge of weight 1, from vertex 2 to vertex 3. -/
def oneEdge : AdaptGraph := (AdaptGraph.ofSize 4).setEdge 2 1 3

/-- The edge from vertex 1 to vertex 2 is new. -/
theorem closeOverEdge_oneEdge : OverEdgeExact (oneEdge.setEdge 1 2 2) 1 2 := by
  have only : forall {source target : Nat} {weight : Int},
      oneEdge.lookup source target = some weight -> source = 2 ∧ target = 3 ∧ weight = 1 := by
    intro source target weight here
    rcases set_cases here with found | impossible
    · exact found
    · cases impossible
  have wellFormed : oneEdge.WellFormed :=
    (AdaptGraph.wellFormed_ofSize 4).setEdge ⟨by decide, by decide⟩ ⟨by decide, by decide⟩
  have closed : Closed (inner oneEdge) := by
    intro source target weight _ path
    cases path with
    | edge here => exact ⟨weight, le_refl _, here⟩
    | snoc before here =>
        have last := only (GraphView.lookup_exclude.mp here).2.2
        rw [last.1] at before
        cases before with
        | edge there => exact absurd (only (GraphView.lookup_exclude.mp there).2.2).2.1 (by decide)
        | snoc _ there => exact absurd (only (GraphView.lookup_exclude.mp there).2.2).2.1 (by
          decide)
  have models : Models (oneEdge.setEdge 1 2 2).lookup (fun _ => 0) := by
    apply models_of_nonneg
    intro source target weight here
    rcases set_cases here with ⟨_, _, rfl⟩ | old
    · decide
    · rw [(only old).2.2]
      decide
  apply closeOverEdge_exact closed ?_ wellFormed ?_ (by decide) (by decide)
    (by decide) models.noNegativeCycle
  · intro previous here
    exact absurd (only here).1 (by decide)
  · intro v
    by_contra found
    rcases Option.ne_none_iff_exists'.mp found with ⟨weight, here⟩
    have ends := only here
    omega

end OverEdge

end GraphOps
end Crab
end Prevail
