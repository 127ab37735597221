import Prevail.Crab.ExactAround
import Prevail.Crab.HeapSearch

namespace Prevail
namespace Crab

open DifferenceBounds

/-!
# Chromatic closure is exact

`chrome_dijkstra` leaves a vertex by the edges of one operand of a meet only: those of
the operand whose edge does not reach the vertex.  An edge that is left out extends an
edge of the same operand into the vertex, and the closed operand has a shortcut for the
two.  The shortcut starts at a vertex that was settled before, so it has been relaxed.
Every edge out of a settled vertex is therefore relaxed, as in Dijkstra's algorithm.
-/

namespace GraphOps

/-- The edge of one operand, in a colour. -/
def side (isLeft : Bool) (colour : Colour) : Bool := if isLeft then colour.1 else colour.2

theorem side_max (isLeft : Bool) (first second : Colour) :
    side isLeft (max first second) = (side isLeft first || side isLeft second) := by
  rcases first with ⟨firstLeft, firstRight⟩
  rcases second with ⟨secondLeft, secondRight⟩
  cases isLeft <;> cases firstLeft <;> cases firstRight <;> cases secondLeft <;>
    cases secondRight <;> rfl

/-- Some operand has the edge. -/
def Coloured (colour : Colour) : Prop := exists isLeft, side isLeft colour = true

section Search

variable (g left right : GraphView) (p : Nat -> Int) (source : Nat)

/-- The operand of a colour. -/
def operand (isLeft : Bool) : GraphView := if isLeft then left else right

/-- The source at distance zero, or a settled vertex at its distance. -/
def Origin (settled : Finset Nat) (state : Search Colour) (vertex : Nat) (distance : Int) : Prop :=
  (vertex = source ∧ distance = 0) ∨ (vertex ∈ settled ∧ state.distance vertex = some distance)

/-- The vertex is at a distance of at most the given one. -/
def Reaches (state : Search Colour) (vertex : Nat) (bound : Int) : Prop :=
  ∃ distance ≤ bound, state.distance vertex = some distance

/-- An edge of one operand leads from an origin to the vertex, at its distance. -/
def Justified (settled : Finset Nat) (state : Search Colour) (vertex : Nat) (distance : Int)
    (isLeft : Bool) : Prop :=
  exists origin first weight, Origin source settled state origin first ∧
    (operand left right isLeft).lookup origin vertex = some weight ∧
    g.lookup origin vertex = some weight ∧
      first + p origin + weight - p vertex = distance

/-- What holds while the search runs.  The vertices in `done` have relaxed their edges,
or have left them to a shortcut. -/
structure Chromatic (settled done : Finset Nat) (state : Search Colour) : Prop where
  placed : forall vertex distance, state.distance vertex = some distance ->
    vertex = source ∨ vertex ∈ settled ∨ vertex ∈ state.heap
  marked : ∀ vertex ∈ state.heap, forall distance, state.distance vertex = some distance ->
    Coloured (state.mark vertex) ∧ forall isLeft, side isLeft (state.mark vertex) = true ->
      Justified g left right p source settled state vertex distance isLeft
  relaxed : forall origin first, Origin source done state origin first -> forall target weight,
    g.lookup origin target = some weight -> target ≠ source ->
      Reaches state target (first + p origin + weight - p target)

end Search

section Relax

variable {g left right : GraphView} {p : Nat -> Int} {source : Nat} {settled done : Finset Nat}
  {state : Search Colour} {level : Int} {vertex : Nat}

theorem side_edgeColour {isLeft : Bool} {target : Nat} {weight : Int} :
    side isLeft (edgeColour left right vertex target weight) = true ↔
      (operand left right isLeft).lookup vertex target = some weight := by
  cases isLeft
  · exact decide_eq_true_iff
  · exact decide_eq_true_iff

/-- What one edge does: it lowers the distance of its target, ties with it, or is too long. -/
inductive RelaxCase (p : Nat -> Int) (cost : Int) (state : Search Colour)
    (edge : Nat × Int × Colour) :
    Search Colour -> Prop
  | lowered : (forall old, state.distance edge.1 = some old -> cost + edge.2.1 - p edge.1 < old) ->
      RelaxCase p cost state edge
        { distance := Function.update state.distance edge.1 (some (cost + edge.2.1 - p edge.1))
          mark := Function.update state.mark edge.1 edge.2.2
          heap := insertHeap edge.1 state.heap }
  | tied : state.distance edge.1 = some (cost + edge.2.1 - p edge.1) -> RelaxCase p cost state edge
      { state with mark := Function.update state.mark edge.1 (max (state.mark edge.1) edge.2.2) }
  | longer {old : Int} : state.distance edge.1 = some old -> old < cost + edge.2.1 - p edge.1 ->
      RelaxCase p cost state edge state

theorem relax_cases {cost : Int} {edge : Nat × Int × Colour} :
    RelaxCase p cost state edge (relax p cost state edge) := by
  rw [relax]
  split
  · rename_i unreached
    apply RelaxCase.lowered
    intro old found
    rw [unreached] at found
    cases found
  · rename_i old found
    split
    · rename_i lower
      apply RelaxCase.lowered
      intro other same
      rw [found, Option.some.injEq] at same
      omega
    · rename_i notLower
      split
      · rename_i equal
        exact .tied (found.trans (congrArg some equal.symm))
      · exact .longer found (by omega)

/-- Edges do not lower the distance of a settled vertex. -/
theorem relax_settled {cost : Int} {edge : Nat × Int × Colour}
    (levels : Level g settled level state)
    (above : level ≤ cost + edge.2.1 - p edge.1) {other : Nat} (member : other ∈ settled) :
    (relax p cost state edge).distance other = state.distance other := by
  rcases levels.settledBelow other member with ⟨distance, known, atMost⟩
  have step := @relax_cases p state cost edge
  generalize GraphOps.relax p cost state edge = next at step ⊢
  cases step with
  | lowered lower =>
      apply Function.update_of_ne
      rintro rfl
      have below := lower distance known
      omega
  | tied => rfl
  | longer => rfl

theorem relax_reaches {cost : Int} {edge : Nat × Int × Colour} :
    Reaches (relax p cost state edge) edge.1 (cost + edge.2.1 - p edge.1) := by
  have step := @relax_cases p state cost edge
  generalize GraphOps.relax p cost state edge = next at step ⊢
  cases step with
  | lowered => exact ⟨_, le_refl _, Function.update_self ..⟩
  | tied equal => exact ⟨_, le_refl _, equal⟩
  | longer found below => exact ⟨_, below.le, found⟩

theorem Reaches.relax {cost : Int} {edge : Nat × Int × Colour} {other : Nat} {bound : Int}
    (reaches : Reaches state other bound) :
    Reaches (GraphOps.relax p cost state edge) other bound := by
  rcases reaches with ⟨distance, atMost, known⟩
  have step := @relax_cases p state cost edge
  generalize GraphOps.relax p cost state edge = next at step ⊢
  cases step with
  | lowered lower =>
      by_cases same : other = edge.1
      · subst same
        have below := lower distance known
        exact ⟨_, by omega, Function.update_self ..⟩
      · exact ⟨distance, atMost, (Function.update_of_ne same ..).trans known⟩
  | tied => exact ⟨distance, atMost, known⟩
  | longer => exact ⟨distance, atMost, known⟩

/-- Origins stay as long as the settled vertices keep their distances. -/
theorem Origin.congr {next : Search Colour}
    (same : ∀ other ∈ settled, next.distance other = state.distance other)
    {origin : Nat} {first : Int} :
    Origin source settled next origin first ↔ Origin source settled state origin first := by
  refine or_congr Iff.rfl (and_congr_right (fun member => ?_))
  rw [same origin member]

theorem Justified.congr {next : Search Colour}
    (same : ∀ other ∈ settled, next.distance other = state.distance other)
    {target : Nat} {distance : Int} {isLeft : Bool}
    (justified : Justified g left right p source settled state target distance isLeft) :
    Justified g left right p source settled next target distance isLeft := by
  rcases justified with ⟨origin, first, weight, isOrigin, inOperand, here, sum⟩
  exact ⟨origin, first, weight, (Origin.congr same).mpr isOrigin, inOperand, here, sum⟩

/-- One edge out of the vertex that was settled last. -/
theorem Chromatic.relax {edge : Nat × Int × Colour}
    (chromatic : Chromatic g left right p source settled done state)
    (levels : Level g settled level state) (inside : done ⊆ settled) (member : vertex ∈ settled)
    (known : state.distance vertex = some level) (here : g.lookup vertex edge.1 = some edge.2.1)
    (colour : edge.2.2 = edgeColour left right vertex edge.1 edge.2.1)
    (coloured : Coloured edge.2.2) (above : level ≤ level + p vertex + edge.2.1 - p edge.1) :
    Chromatic g left right p source settled done
      (GraphOps.relax p (level + p vertex) state edge) := by
  have kept : ∀ other ∈ settled, (GraphOps.relax p (level + p vertex) state edge).distance other =
      state.distance other :=
    fun other inSettled => relax_settled levels above inSettled
  -- The edge justifies its own colour.
  have fresh : forall isLeft, side isLeft edge.2.2 = true ->
      Justified g left right p source settled state edge.1
      (level + p vertex + edge.2.1 - p edge.1) isLeft := by
    intro isLeft hasSide
    rw [colour, side_edgeColour] at hasSide
    exact ⟨vertex, level, edge.2.1, Or.inr ⟨member, known⟩, hasSide, here, rfl⟩
  have relaxed : forall origin first,
      Origin source done (GraphOps.relax p (level + p vertex) state edge) origin first ->
      forall target weight, g.lookup origin target = some weight -> target ≠ source ->
        Reaches (GraphOps.relax p (level + p vertex) state edge) target
        (first + p origin + weight - p target) := by
    intro origin first isOrigin target weight there other
    have before := (Origin.congr (fun other inDone => kept other (inside inDone))).mp isOrigin
    exact (chromatic.relaxed origin first before target weight there other).relax
  have placed : forall other distance,
      (GraphOps.relax p (level + p vertex) state edge).distance other = some distance ->
        other = source ∨ other ∈ settled ∨
        other ∈ (GraphOps.relax p (level + p vertex) state edge).heap := by
    intro other distance
    have step := @relax_cases p state (level + p vertex) edge
    generalize GraphOps.relax p (level + p vertex) state edge = next at step ⊢
    cases step with
    | lowered =>
        intro found
        dsimp only at found ⊢
        by_cases same : other = edge.1
        · exact Or.inr (Or.inr (mem_insertHeap.mpr (Or.inl same)))
        · rw [Function.update_of_ne same] at found
          rcases chromatic.placed other distance found with atSource | inSettled | inHeap
          · exact Or.inl atSource
          · exact Or.inr (Or.inl inSettled)
          · exact Or.inr (Or.inr (mem_insertHeap.mpr (Or.inr inHeap)))
    | tied => exact chromatic.placed other distance
    | longer => exact chromatic.placed other distance
  have marked : ∀ other ∈ (GraphOps.relax p (level + p vertex) state edge).heap, forall distance,
      (GraphOps.relax p (level + p vertex) state edge).distance other = some distance ->
        Coloured ((GraphOps.relax p (level + p vertex) state edge).mark other) ∧ forall isLeft,
          side isLeft ((GraphOps.relax p (level + p vertex) state edge).mark other) = true ->
            Justified g left right p source settled state other distance isLeft := by
    intro other
    have step := @relax_cases p state (level + p vertex) edge
    generalize GraphOps.relax p (level + p vertex) state edge = next at step ⊢
    cases step with
    | lowered =>
        intro inHeap distance found
        dsimp only at inHeap found ⊢
        by_cases same : other = edge.1
        · subst same
          rw [Function.update_self, Option.some.injEq] at found
          rw [Function.update_self, <- found]
          exact ⟨coloured, fresh⟩
        · rw [Function.update_of_ne same] at found
          rw [Function.update_of_ne same]
          exact chromatic.marked other ((mem_insertHeap.mp inHeap).resolve_left same) distance found
    | tied equal =>
        intro inHeap distance found
        dsimp only at inHeap found ⊢
        by_cases same : other = edge.1
        · subst same
          have before := chromatic.marked _ inHeap distance found
          rw [equal, Option.some.injEq] at found
          rw [Function.update_self]
          constructor
          · rcases before.1 with ⟨isLeft, hasSide⟩
            exact ⟨isLeft, by rw [side_max, hasSide, Bool.true_or]⟩
          · intro isLeft hasSide
            rw [side_max, Bool.or_eq_true] at hasSide
            rcases hasSide with first | second
            · exact before.2 isLeft first
            · rw [<- found]
              exact fresh isLeft second
        · rw [Function.update_of_ne same]
          exact chromatic.marked other inHeap distance found
    | longer => exact fun inHeap distance found => chromatic.marked other inHeap distance found
  refine ⟨placed, fun other inHeap distance found => ?_, relaxed⟩
  have both := marked other inHeap distance found
  exact ⟨both.1, fun isLeft hasSide => (both.2 isLeft hasSide).congr kept⟩

end Relax

/-! ## One vertex of the heap -/

/-- The graph has the edges of both operands, with the lower weight where both have one. -/
structure Meets (g left right : GraphView) : Prop where
  coloured : forall source target weight, g.lookup source target = some weight ->
    exists isLeft, (operand left right isLeft).lookup source target = some weight
  below : forall isLeft source target weight,
    (operand left right isLeft).lookup source target = some weight ->
    ∃ lower ≤ weight, g.lookup source target = some lower

section Step

variable {g left right : GraphView} {p : Nat -> Int} {source : Nat} {settled done : Finset Nat}
  {state : Search Colour} {level : Int} {vertex : Nat}

theorem Meets.coloured_edge (meets : Meets g left right) {target : Nat} {weight : Int}
    (here : g.lookup vertex target = some weight) :
    Coloured (edgeColour left right vertex target weight) := by
  rcases meets.coloured _ _ _ here with ⟨isLeft, inOperand⟩
  exact ⟨isLeft, side_edgeColour.mpr inOperand⟩

/-- All edges of a list out of the vertex that was settled last. -/
theorem Chromatic.relaxAll {edges : List (Nat × Int × Colour)}
    (chromatic : Chromatic g left right p source settled done state)
    (levels : Level g settled level state)
    (models : Models g.lookup p) (meets : Meets g left right) (inside : done ⊆ settled)
    (member : vertex ∈ settled) (known : state.distance vertex = some level)
    (listed : ∀ edge ∈ edges, edge.1 < g.size ∧ g.lookup vertex edge.1 = some edge.2.1 ∧
      edge.2.2 = edgeColour left right vertex edge.1 edge.2.1) :
    Chromatic g left right p source settled done
      (edges.foldl (GraphOps.relax p (level + p vertex)) state) ∧
      (∀ other ∈ settled, (edges.foldl (GraphOps.relax p (level + p vertex)) state).distance other =
      state.distance other) ∧
      (forall other bound, Reaches state other bound ->
        Reaches (edges.foldl (GraphOps.relax p (level + p vertex)) state) other bound) ∧
      ∀ edge ∈ edges, Reaches (edges.foldl (GraphOps.relax p (level + p vertex)) state) edge.1
        (level + p vertex + edge.2.1 - p edge.1) := by
  induction edges generalizing state with
  | nil => exact ⟨chromatic, fun _ _ => rfl, fun _ _ reaches => reaches, by simp⟩
  | cons edge rest inductionHypothesis =>
      rcases listed edge List.mem_cons_self with ⟨below, here, colour⟩
      have fits := models _ _ _ here
      have above : level ≤ level + p vertex + edge.2.1 - p edge.1 := by omega
      have step := chromatic.relax levels inside member known here colour
        (colour ▸ meets.coloured_edge here) above
      have kept := relax_settled levels above member
      rcases inductionHypothesis step (levels.relax below above) (kept.trans known)
        (fun other inRest => listed other (List.mem_cons_of_mem _ inRest)) with
        ⟨final, same, keeps, reaches⟩
      refine ⟨final, fun other inSettled =>
        (same other inSettled).trans (relax_settled levels above inSettled),
        fun other bound before => keeps other bound before.relax, fun other inEdges => ?_⟩
      rcases List.mem_cons.mp inEdges with rfl | inRest
      · exact keeps _ _ relax_reaches
      · exact reaches other inRest

/-- Two colours share an operand, or the second is followed behind the first. -/
theorem shares_or_follows {mark colour : Colour} (marked : Coloured mark)
    (coloured : Coloured colour) :
    (exists isLeft, side isLeft mark = true ∧ side isLeft colour = true) ∨
      (mark ≠ (true, true) ∧ colour = if mark = (true, false) then (false, true)
      else (true, false)) := by
  rcases marked with ⟨isLeft, hasMark⟩
  rcases coloured with ⟨isLeft', hasColour⟩
  rcases mark with ⟨markLeft, markRight⟩
  rcases colour with ⟨colourLeft, colourRight⟩
  cases isLeft <;> cases isLeft' <;> cases markLeft <;> cases markRight <;> cases colourLeft <;>
    cases colourRight <;>
    simp [side] at hasMark hasColour ⊢

/-- An edge that has no operand in common with the mark is followed. -/
theorem mem_chromeExpand_of_follows {mark : Colour} {target : Nat} {weight : Int}
    (below : target < g.size)
    (here : g.lookup vertex target = some weight) (single : mark ≠ (true, true))
    (follows : edgeColour left right vertex target weight = if mark = (true, false)
      then (false, true) else (true, false)) :
    (target, weight, edgeColour left right vertex target weight) ∈
      chromeExpand g left right vertex mark := by
  rw [chromeExpand, if_neg single]
  refine List.mem_filter.mpr
    ⟨List.mem_map.mpr ⟨(target, weight), GraphView.mem_eSuccs.mpr ⟨below, here⟩, rfl⟩, ?_⟩
  exact decide_eq_true follows

theorem colour_of_mem_chromeExpand {mark : Colour} {edge : Nat × Int × Colour}
    (followed : edge ∈ chromeExpand g left right vertex mark) : edge.1 < g.size ∧
      g.lookup vertex edge.1 = some edge.2.1 ∧
      edge.2.2 = edgeColour left right vertex edge.1 edge.2.1 := by
  rw [chromeExpand] at followed
  split at followed
  · cases followed
  · rcases List.mem_map.mp (List.mem_of_mem_filter followed) with ⟨_, listed, rfl⟩
    have found := GraphView.mem_eSuccs.mp listed
    exact ⟨found.1, found.2, rfl⟩

/-- The state behind one vertex of the heap. -/
theorem Chromatic.step {rest : List Nat}
    (chromatic : Chromatic g left right p source settled settled state)
    (levels : Level g settled level state) (models : Models g.lookup p) (meets : Meets g left right)
    (closed : forall isLeft, Closed (operand left right isLeft).lookup) (targets : TargetsBelow g)
    (removes : state.Removes vertex rest) :
    exists distance, state.distance vertex = some distance ∧ state.key vertex = distance ∧
      vertex < g.size ∧ vertex ∉ settled ∧
      exists next, next = (chromeExpand g left right vertex (state.mark vertex)).foldl
          (GraphOps.relax p (state.key vertex + p vertex)) { state with heap := rest } ∧
        Level g (insert vertex settled) distance next ∧
        Chromatic g left right p source (insert vertex settled) (insert vertex settled) next ∧
        ∀ other ∈ insert vertex settled, next.distance other = state.distance other := by
  rcases levels.removed removes with ⟨distance, known, key, _, below, fresh, removedLevels⟩
  have perm := removes.1
  have inHeap : vertex ∈ state.heap := perm.mem_iff.mpr List.mem_cons_self
  have inRest : ∀ other ∈ rest, other ∈ state.heap :=
    fun other member => perm.mem_iff.mpr (List.mem_cons_of_mem _ member)
  have inside := Finset.subset_insert vertex settled
  have member := Finset.mem_insert_self vertex settled
  rcases chromatic.marked vertex inHeap distance known with ⟨coloured, justified⟩
  have start : Chromatic g left right p source (insert vertex settled) settled
      { state with heap := rest } := by
    refine ⟨?_, ?_, chromatic.relaxed⟩
    · intro other found here
      rcases chromatic.placed other found here with atSource | inSettled | otherInHeap
      · exact Or.inl atSource
      · exact Or.inr (Or.inl (inside inSettled))
      · rcases List.mem_cons.mp (perm.mem_iff.mp otherInHeap) with rfl | last
        · exact Or.inr (Or.inl member)
        · exact Or.inr (Or.inr last)
    · intro other otherInRest found here
      rcases chromatic.marked other (inRest other otherInRest) found here with
        ⟨otherColoured, otherJustified⟩
      refine ⟨otherColoured, fun isLeft hasSide => ?_⟩
      rcases otherJustified isLeft hasSide with
        ⟨origin, first, weight, isOrigin, inOperand, edge, sum⟩
      exact ⟨origin, first, weight, isOrigin.imp id (And.imp (fun old => inside old) id),
        inOperand, edge, sum⟩
  have listed : ∀ edge ∈ chromeExpand g left right vertex (state.mark vertex), edge.1 < g.size ∧
      g.lookup vertex edge.1 = some edge.2.1 ∧
      edge.2.2 = edgeColour left right vertex edge.1 edge.2.1 :=
    fun _ followed => colour_of_mem_chromeExpand followed
  rcases start.relaxAll removedLevels models meets inside member known listed with
    ⟨final, same, _, reaches⟩
  refine ⟨distance, known, key, below, fresh, _, rfl, ?_, ?_, ?_⟩
  · rw [key]
    exact removedLevels.relaxAll models (fun _ followed => mem_chromeExpand followed)
  · rw [key]
    refine ⟨final.placed, final.marked, ?_⟩
    rintro origin first isOrigin target weight here other
    rcases isOrigin with atSource | ⟨isSettled, isFirst⟩
    · exact final.relaxed origin first (Or.inl atSource) target weight here other
    · rcases Finset.mem_insert.mp isSettled with rfl | earlier
      · rw [same _ member] at isFirst
        have isLevel : first = distance := Option.some.inj (isFirst.symm.trans known)
        rw [isLevel]
        have fits := models _ _ _ here
        rcases shares_or_follows coloured (meets.coloured_edge here) with
          ⟨isLeft, hasMark, hasColour⟩ | ⟨single, follows⟩
        · -- The two edges have a shortcut in their operand.
          rcases justified isLeft hasMark with
            ⟨before, start, lead, isOrigin, inOperand, leadEdge, sum⟩
          rw [side_edgeColour] at hasColour
          by_cases back : before = target
          · subst back
            rcases isOrigin with atSource | ⟨old, isStart⟩
            · exact absurd atSource.1 other
            · rcases removedLevels.settledBelow before (inside old) with ⟨found, there, atMost⟩
              exact ⟨found, by omega, (same before (inside old)).trans there⟩
          · rcases closed isLeft _ _ _ back (.snoc (.edge inOperand) hasColour) with
              ⟨short, shortAtMost, shortcut⟩
            rcases meets.below isLeft _ _ _ shortcut with ⟨lower, lowerAtMost, there⟩
            have isOriginNow : Origin source settled
                ((chromeExpand g left right origin (state.mark origin)).foldl
                (GraphOps.relax p (distance + p origin)) { state with heap := rest })
                before start :=
              isOrigin.imp id (fun both => ⟨both.1, (same before (inside both.1)).trans both.2⟩)
            rcases final.relaxed before start isOriginNow target lower there other with
              ⟨found, atMost, isFound⟩
            exact ⟨found, by omega, isFound⟩
        · exact reaches _ (mem_chromeExpand_of_follows (targets _ _ _ here) here single follows)
      · exact final.relaxed origin first (Or.inr ⟨earlier, isFirst⟩) target weight here other
  · rw [key]
    exact same

/-- The distances with which the search ends, and what it adds. -/
structure Searched (g : GraphView) (p : Nat -> Int) (source : Nat) (settled : Finset Nat)
    (final : Nat -> Option Int) (added : List (Nat × Int)) : Prop where
  entry : ∀ entry ∈ added, entry.1 ≠ source -> final entry.1 = some (entry.2 - p entry.1 + p source)
  improved : forall vertex distance, final vertex = some distance -> vertex ≠ source ->
    vertex ∉ settled ->
    ∀ entry ∈ improvement g source vertex (distance + p vertex - p source), entry ∈ added
  paths : forall target weight, Path g.lookup source target weight -> target ≠ source ->
    ∃ distance ≤ weight + p source - p target, final target = some distance

theorem mem_improvement {weight : Int} {entry : Nat × Int}
    (member : entry ∈ improvement g source vertex weight) :
    entry = (vertex, weight) := by
  rw [improvement] at member
  split at member
  · split at member
    · exact List.mem_singleton.mp member
    · cases member
  · exact List.mem_singleton.mp member

/-- With an empty heap, every path is known. -/
theorem Chromatic.paths (chromatic : Chromatic g left right p source settled settled state)
    (models : Models g.lookup p) (empty : state.heap = []) {target : Nat} {weight : Int}
    (path : Path g.lookup source target weight) (other : target ≠ source) :
    ∃ distance ≤ weight + p source - p target, state.distance target = some distance := by
  induction path with
  | edge here =>
      rcases chromatic.relaxed source 0 (Or.inl ⟨rfl, rfl⟩) _ _ here other with
        ⟨distance, atMost, known⟩
      exact ⟨distance, by omega, known⟩
  | @snoc middle target first last path here inductionHypothesis =>
      by_cases atSource : middle = source
      · rcases chromatic.relaxed source 0 (Or.inl ⟨rfl, rfl⟩) _ _ (atSource ▸ here) other with
          ⟨distance, atMost, known⟩
        have around := (atSource ▸ path).nonneg_of_closed models
        exact ⟨distance, by omega, known⟩
      · rcases inductionHypothesis atSource with ⟨before, atMost, known⟩
        have inSettled : middle ∈ settled := by
          rcases chromatic.placed _ _ known with same | member | inHeap
          · exact absurd same atSource
          · exact member
          · rw [empty] at inHeap
            cases inHeap
        rcases chromatic.relaxed middle before (Or.inr ⟨inSettled, known⟩) _ _ here other with
          ⟨distance, nextAtMost, nextKnown⟩
        exact ⟨distance, by omega, nextKnown⟩

theorem Chromatic.searched (chromatic : Chromatic g left right p source settled settled state)
    (models : Models g.lookup p) (empty : state.heap = []) :
    Searched g p source settled state.distance [] := by
  refine ⟨?_, ?_, fun target weight path other => chromatic.paths models empty path other⟩
  · intro entry impossible
    cases impossible
  · intro vertex distance known other unsettled
    rcases chromatic.placed _ _ known with same | member | inHeap
    · exact absurd same other
    · exact absurd member unsettled
    · rw [empty] at inHeap
      cases inHeap

/-- A run of the loop, by induction over the vertices that are left to settle. -/
theorem Chromatic.run {steps : Nat} {added : List (Nat × Int)}
    (run : SearchRun g p (chromeExpand g left right) source steps state added)
    (chromatic : Chromatic g left right p source settled settled state)
    (levels : Level g settled level state) (models : Models g.lookup p) (meets : Meets g left right)
    (closed : forall isLeft, Closed (operand left right isLeft).lookup) (targets : TargetsBelow g)
    (enough : (Finset.range g.size \ settled).card ≤ steps) :
    exists final, (∀ other ∈ settled, final other = state.distance other) ∧
      Searched g p source settled final added := by
  induction run generalizing settled level with
  | stop state =>
      exact ⟨state.distance, fun _ _ => rfl, chromatic.searched models (levels.heap_eq_nil enough)⟩
  | @finish steps state empty =>
      exact ⟨state.distance, fun _ _ => rfl, chromatic.searched models empty⟩
  | @settle steps state vertex rest added removes later inductionHypothesis =>
      rcases chromatic.step levels models meets closed targets removes with
        ⟨distance, known, key, below, fresh, next, isNext, nextLevels, nextChromatic, same⟩
      have fewer := card_unsettled_lt below fresh
      rw [<- isNext] at inductionHypothesis
      rcases inductionHypothesis nextChromatic nextLevels (by omega) with ⟨final, agrees, searched⟩
      have atVertex : final vertex = some distance :=
        (agrees _ (Finset.mem_insert_self ..)).trans
          ((same _ (Finset.mem_insert_self ..)).trans known)
      refine ⟨final, ?_, ?_, ?_, searched.paths⟩
      · intro other inSettled
        have inside : other ∈ insert vertex settled := Finset.mem_insert_of_mem inSettled
        exact (agrees other inside).trans (same other inside)
      · intro entry member other
        rcases List.mem_append.mp member with here | inLater
        · have isEntry := mem_improvement here
          rw [isEntry, atVertex, key]
          dsimp only
          exact congrArg some (by omega)
        · exact searched.entry entry inLater other
      · intro other found isFinal notSource unsettled entry member
        by_cases isVertex : other = vertex
        · rw [isVertex] at isFinal member
          rw [atVertex, Option.some.injEq] at isFinal
          rw [key, isFinal]
          exact List.mem_append_left _ member
        · exact List.mem_append_right _ (searched.improved other found isFinal notSource
            (fun inNext => (Finset.mem_insert.mp inNext).elim isVertex unsettled) entry member)

end Step

/-! ## All sources -/

section Meet

variable {g left right : GraphView} {p : Nat -> Int} {source : Nat}

/-- The heap holds the ends of the edges out of the source. -/
structure Started (g left right : GraphView) (p : Nat -> Int) (source : Nat)
    (state : Search Colour) : Prop where
  placed : forall vertex distance, state.distance vertex = some distance -> vertex = source ∨
    vertex ∈ state.heap
  edges : ∀ vertex ∈ state.heap, exists weight, g.lookup source vertex = some weight ∧
    state.distance vertex = some (p source + weight - p vertex) ∧
      state.mark vertex = edgeColour left right source vertex weight

theorem Started.insertEdge {state : Search Colour} {target : Nat} {weight : Int}
    (started : Started g left right p source state)
    (here : g.lookup source target = some weight) : Started g left right p source
      (insertEdge p source state (target, weight, edgeColour left right source target weight)) := by
  constructor
  · intro vertex distance known
    rw [GraphOps.insertEdge, mem_insertHeap]
    by_cases same : vertex = target
    · exact Or.inr (Or.inl same)
    · rw [GraphOps.insertEdge] at known
      dsimp only at known
      rw [Function.update_of_ne same] at known
      exact (started.placed vertex distance known).imp id Or.inr
  · intro vertex member
    rw [GraphOps.insertEdge, mem_insertHeap] at member
    by_cases same : vertex = target
    · subst same
      exact ⟨weight, here, Function.update_self .., Function.update_self ..⟩
    · rcases started.edges vertex (member.resolve_left same) with ⟨found, edge, known, mark⟩
      exact ⟨found, edge, (Function.update_of_ne same ..).trans known,
        (Function.update_of_ne same ..).trans mark⟩

theorem started_initialSearch : Started g left right p source
    (initialSearch p source (false, false) (colouredSuccs g left right source)) := by
  refine List.foldlRecOn (motive := Started g left right p source) _ _ ⟨?_, ?_⟩ ?_
  · intro vertex distance known
    by_cases same : vertex = source
    · exact Or.inl same
    · rw [startSearch] at known
      dsimp only at known
      rw [Function.update_of_ne same] at known
      cases known
  · intro vertex impossible
    cases impossible
  · intro state started edge listed
    rcases List.mem_map.mp listed with ⟨found, inSuccs, rfl⟩
    exact started.insertEdge (GraphView.mem_eSuccs.mp inSuccs).2

theorem mem_foldl_insertEdge {edges : List (Nat × Int × Colour)} {state : Search Colour}
    {vertex : Nat} (inside : vertex ∈ state.heap ∨ ∃ edge ∈ edges, edge.1 = vertex) :
    vertex ∈ (edges.foldl (insertEdge p source) state).heap := by
  induction edges generalizing state with
  | nil =>
      rcases inside with inHeap | ⟨_, impossible, _⟩
      · exact inHeap
      · cases impossible
  | cons first rest inductionHypothesis =>
      apply inductionHypothesis
      rcases inside with inHeap | ⟨edge, member, same⟩
      · exact Or.inl (mem_insertHeap.mpr (Or.inr inHeap))
      · rcases List.mem_cons.mp member with isFirst | inRest
        · exact Or.inl (mem_insertHeap.mpr (Or.inl (isFirst ▸ same.symm)))
        · exact Or.inr ⟨edge, inRest, same⟩

theorem chromatic_initialSearch (meets : Meets g left right) (targets : TargetsBelow g) :
    Chromatic g left right p source ∅ ∅
      (initialSearch p source (false, false) (colouredSuccs g left right source)) := by
  have started := @started_initialSearch g left right p source
  refine ⟨?_, ?_, ?_⟩
  · intro vertex distance known
    exact (started.placed vertex distance known).imp id Or.inr
  · intro vertex member distance known
    rcases started.edges vertex member with ⟨weight, here, there, mark⟩
    rw [there, Option.some.injEq] at known
    rw [mark]
    refine ⟨meets.coloured_edge here, fun isLeft hasSide => ?_⟩
    exact ⟨source, 0, weight, Or.inl ⟨rfl, rfl⟩, side_edgeColour.mp hasSide, here, by omega⟩
  · intro origin first isOrigin target weight here other
    rcases isOrigin with ⟨rfl, rfl⟩ | ⟨impossible, _⟩
    · have listed : (target, weight, edgeColour left right origin target weight) ∈
          colouredSuccs g left right origin :=
        List.mem_map.mpr ⟨_, GraphView.mem_eSuccs.mpr ⟨targets _ _ _ here, here⟩, rfl⟩
      rcases started.edges target (mem_foldl_insertEdge (Or.inr ⟨_, listed, rfl⟩)) with
        ⟨found, there, known, _⟩
      rw [here, Option.some.injEq] at there
      exact ⟨_, by omega, known⟩
    · cases impossible

/-- Every run of the search adds the shortest paths, where they are below the edges. -/
theorem SearchRun.searched {added : List (Nat × Int)}
    (run : SearchRun g p (chromeExpand g left right) source g.size
      (initialSearch p source (false, false) (colouredSuccs g left right source)) added)
    (meets : Meets g left right) (models : Models g.lookup p)
    (closed : forall isLeft, Closed (operand left right isLeft).lookup) (targets : TargetsBelow g) :
    exists final, Searched g p source ∅ final added := by
  have levels : Level g ∅ 0
      (initialSearch p source (false, false) (colouredSuccs g left right source)) :=
    level_initialSearch models (fun _ outOf => mem_colouredSuccs outOf)
  rcases (chromatic_initialSearch meets targets).run run levels models meets closed targets
    (by simp) with ⟨final, _, searched⟩
  exact ⟨final, searched⟩

theorem lookup_meet_of_left {target : Nat} {weight : Int}
    (here : left.lookup source target = some weight) :
    ∃ lower ≤ weight, (meet left right).lookup source target = some lower := by
  cases there : right.lookup source target with
  | none => exact ⟨weight, le_refl _, by simp [meet, here, there]⟩
  | some other => exact ⟨min weight other, min_le_left .., by simp [meet, here, there]⟩

theorem lookup_meet_of_right {target : Nat} {weight : Int}
    (here : right.lookup source target = some weight) :
    ∃ lower ≤ weight, (meet left right).lookup source target = some lower := by
  cases there : left.lookup source target with
  | none => exact ⟨weight, le_refl _, by simp [meet, here, there]⟩
  | some other => exact ⟨min other weight, min_le_right .., by simp [meet, here, there]⟩

theorem lookup_meet_cases {target : Nat} {weight : Int}
    (here : (meet left right).lookup source target = some weight) :
    left.lookup source target = some weight ∨ right.lookup source target = some weight := by
  rw [meet] at here
  dsimp only at here
  split at here
  · rename_i first second inLeft inRight
    rw [Option.some.injEq] at here
    rcases min_choice first second with isFirst | isSecond
    · exact Or.inl (inLeft.trans (congrArg some (isFirst.symm.trans here)))
    · exact Or.inr (inRight.trans (congrArg some (isSecond.symm.trans here)))
  · rename_i first inLeft _
    exact Or.inl (inLeft.trans here)
  · exact Or.inr here

theorem meets_meet : Meets (meet left right).view left right := by
  constructor
  · intro source target weight here
    rcases lookup_meet_cases here with inLeft | inRight
    · exact ⟨true, inLeft⟩
    · exact ⟨false, inRight⟩
  · intro isLeft source target weight here
    cases isLeft with
    | true => exact lookup_meet_of_left here
    | false => exact lookup_meet_of_right here

/-- Every path between different vertices has an edge, and the edges between different
vertices are shortest paths. -/
def ExactClosure (before after : Edges Nat) : Prop := forall source target, source ≠ target ->
  ((exists weight, after source target = some weight) ↔
    exists weight, Path before source target weight) ∧
    forall weight, after source target = some weight -> Shortest before source target weight

theorem exactClosure_of_shortest {before after : Edges Nat} (tightens : Tightens before after)
    (restores : forall source target weight, source ≠ target -> Path before source target weight ->
      exists shortest, Shortest before source target shortest ∧
      after source target = some shortest) :
    ExactClosure before after := by
  intro source target different
  have toPath : forall weight, after source target = some weight ->
      Path before source target weight :=
    fun weight here => tightens.path _ _ _ here
  refine ⟨⟨fun ⟨weight, here⟩ => ⟨weight, toPath weight here⟩, fun ⟨weight, path⟩ => ?_⟩,
    fun weight here => ?_⟩
  · rcases restores _ _ _ different path with ⟨shortest, _, there⟩
    exact ⟨shortest, there⟩
  · rcases restores _ _ _ different (toPath weight here) with ⟨shortest, isShortest, there⟩
    rw [here, Option.some.injEq] at there
    exact there ▸ isShortest

/-- What the searches from all vertices add. -/
def additions (g : GraphView) (search : Nat -> List (Nat × Int)) : EdgeVector :=
  g.verts.flatMap (fun source => (search source).map (fun entry => (source, entry.1, entry.2)))

theorem mem_additions {search : Nat -> List (Nat × Int)} {entry : Nat × Nat × Int} :
    entry ∈ additions g search ↔ entry.1 ∈ g.verts ∧ entry.2 ∈ search entry.1 := by
  rw [additions, List.mem_flatMap]
  constructor
  · rintro ⟨source, listed, inner⟩
    rcases List.mem_map.mp inner with ⟨found, member, rfl⟩
    exact ⟨listed, member⟩
  · rintro ⟨listed, member⟩
    exact ⟨entry.1, listed, List.mem_map.mpr ⟨entry.2, member, rfl⟩⟩

/-- What runs of `chrome_dijkstra` from all vertices add restores the closure. -/
theorem exactClosure_of_runs {g : AdaptGraph} {search : Nat -> List (Nat × Int)}
    (runs : forall source, SearchRun g.view p (chromeExpand g.view left right) source g.view.size
      (initialSearch p source (false, false) (colouredSuccs g.view left right source))
      (search source))
    (meets : Meets g.view left right) (models : Models g.lookup p)
    (closed : forall isLeft, Closed (operand left right isLeft).lookup)
    (between : EdgesBetweenVertices g.view) :
    ExactClosure g.lookup (applyDelta g (additions g.view search)).lookup := by
  have improves : Improves g.lookup (additions g.view search) := by
    intro entry member
    exact (runs entry.1).improves (fun _ _ _ followed => (mem_chromeExpand followed).2)
      (frontier_initialSearch (fun _ outOf => (mem_colouredSuccs outOf).2)) entry.2
      (mem_additions.mp member).2
  apply exactClosure_of_shortest (improves.tightens_applyDelta (Tightens.refl _))
  intro source target weight different path
  rcases (runs source).searched meets models closed between.targetsBelow with ⟨final, searched⟩
  rcases searched.paths _ _ path different.symm with ⟨distance, _, known⟩
  have atMostPaths : forall other, Path g.lookup source target other ->
      distance + p target - p source ≤ other := by
    intro other otherPath
    rcases searched.paths _ _ otherPath different.symm with ⟨found, atMost, there⟩
    rw [known, Option.some.injEq] at there
    omega
  have written : ∀ entry ∈ additions g.view search, entry.1 = source -> entry.2.1 = target ->
      entry.2.2 = distance + p target - p source := by
    intro entry member atSource atTarget
    rw [mem_additions, atSource] at member
    have there := searched.entry entry.2 member.2 (atTarget ▸ different.symm)
    rw [atTarget, known, Option.some.injEq] at there
    omega
  have sourceVertex : source ∈ g.view.verts := (path.ends (fun _ _ _ here => between _ _ _ here)).1
  have improved := searched.improved target distance known different.symm (Finset.notMem_empty _)
  rw [improvement] at improved
  split at improved
  · rename_i old here
    split at improved
    · have added : (source, target, distance + p target - p source) ∈ additions g.view search :=
        mem_additions.mpr ⟨sourceVertex, improved _ List.mem_cons_self⟩
      exact ⟨_, ⟨(improves _ added).1, atMostPaths⟩, applyDelta_of_mem written (Or.inl added)⟩
    · rename_i notLower
      -- The edge has the weight of a shortest path already.
      have isShortest : distance + p target - p source = old := by
        have atMost := atMostPaths old (.edge here)
        omega
      rw [isShortest] at written atMostPaths
      exact ⟨old, ⟨.edge here, atMostPaths⟩, applyDelta_of_mem written (Or.inr here)⟩
  · have added : (source, target, distance + p target - p source) ∈ additions g.view search :=
      mem_additions.mpr ⟨sourceVertex, improved _ List.mem_cons_self⟩
    exact ⟨_, ⟨(improves _ added).1, atMostPaths⟩, applyDelta_of_mem written (Or.inl added)⟩

theorem edgesBetweenVertices_meet (sameSize : left.size = right.size)
    (leftBetween : EdgesBetweenVertices left)
    (rightBetween : EdgesBetweenVertices right) : EdgesBetweenVertices (meet left right).view := by
  have isVertex : forall vertex, vertex < left.size -> vertex ∈ (meet left right).view.verts := by
    intro vertex below
    exact AdaptGraph.mem_verts.mpr ⟨below, List.not_mem_nil⟩
  intro source target weight here
  rcases lookup_meet_cases here with inLeft | inRight
  · have ends := leftBetween _ _ _ inLeft
    exact ⟨isVertex _ (GraphView.mem_verts.mp ends.1).1,
      isVertex _ (GraphView.mem_verts.mp ends.2).1⟩
  · have ends := rightBetween _ _ _ inRight
    rw [GraphView.mem_verts, GraphView.mem_verts, <- sameSize] at ends
    exact ⟨isVertex _ ends.1.1, isVertex _ ends.2.1⟩

/-- The meet of two closed graphs is closed again, whichever vertex at the least
distance the searches take first: that of the list or that of the binary heap. -/
theorem closeAfterMeet_exact (sameSize : left.size = right.size)
    (leftBetween : EdgesBetweenVertices left) (rightBetween : EdgesBetweenVertices right)
    (leftClosed : Closed left.lookup) (rightClosed : Closed right.lookup)
    (models : Models (meet left right).lookup p) :
    ExactClosure (meet left right).lookup (applyDelta (meet left right)
        (closeAfterMeet (meet left right).view p left right)).lookup ∧
      ExactClosure (meet left right).lookup (applyDelta (meet left right)
        (closeAfterMeetWithHeap (meet left right).view p left right)).lookup := by
  have closed : forall isLeft, Closed (operand left right isLeft).lookup := by
    intro isLeft
    cases isLeft with
    | true => exact leftClosed
    | false => exact rightClosed
  have between := edgesBetweenVertices_meet sameSize leftBetween rightBetween
  exact ⟨exactClosure_of_runs searchRun_chromeDijkstra meets_meet models closed between,
    exactClosure_of_runs searchRun_chromeDijkstraWithHeap meets_meet models closed between⟩

end Meet

section SingleEdge

variable {source target : Nat} {weight : Int}

/-- Three vertices and one edge. -/
def singleEdge (source target : Nat) (weight : Int) :
    AdaptGraph := (AdaptGraph.ofSize 3).setEdge source weight target

theorem singleEdge_cases {left right : Nat} {found : Int}
    (here : (singleEdge source target weight).lookup left right = some found) :
    left = source ∧ right = target ∧ found = weight := by
  rcases set_cases here with new | impossible
  · exact new
  · cases impossible

theorem closed_singleEdge (different : source ≠ target) :
    Closed (singleEdge source target weight).lookup := by
  have onlyPath : forall {left right : Nat} {found : Int},
      Path (singleEdge source target weight).lookup left right found ->
      right = target ∧ (singleEdge source target weight).lookup left right = some found := by
    intro left right found path
    induction path with
    | edge here => exact ⟨(singleEdge_cases here).2.1, here⟩
    | snoc _ here inductionHypothesis =>
      exact absurd ((singleEdge_cases here).1.symm.trans inductionHypothesis.1) different
  intro left right found _ path
  exact ⟨found, le_refl _, (onlyPath path).2⟩

theorem edgesBetweenVertices_singleEdge (sourceBelow : source < 3) (targetBelow : target < 3) :
    EdgesBetweenVertices (singleEdge source target weight).view := by
  intro left right found here
  rcases singleEdge_cases here with ⟨rfl, rfl, _⟩
  exact ⟨AdaptGraph.mem_verts.mpr ⟨sourceBelow, List.not_mem_nil⟩,
    AdaptGraph.mem_verts.mpr ⟨targetBelow, List.not_mem_nil⟩⟩

/-- The meet of two operands that have one edge of a path each. -/
def twoEdges : AdaptGraph := meet (singleEdge 0 1 2).view (singleEdge 1 2 3).view

theorem closeAfterMeet_singleEdges :
    ExactClosure twoEdges.lookup (applyDelta twoEdges (closeAfterMeet twoEdges.view (fun _ => 0)
        (singleEdge 0 1 2).view (singleEdge 1 2 3).view)).lookup ∧
      ExactClosure twoEdges.lookup (applyDelta twoEdges (closeAfterMeetWithHeap twoEdges.view
        (fun _ => 0) (singleEdge 0 1 2).view (singleEdge 1 2 3).view)).lookup := by
  refine closeAfterMeet_exact rfl (edgesBetweenVertices_singleEdge (by decide) (by decide))
    (edgesBetweenVertices_singleEdge (by decide) (by decide)) (closed_singleEdge (by decide))
    (closed_singleEdge (by decide)) ?_
  apply models_of_nonneg
  intro source target weight here
  rcases lookup_meet_cases here with inLeft | inRight
  · rw [(singleEdge_cases inLeft).2.2]
    decide
  · rw [(singleEdge_cases inRight).2.2]
    decide

example : (applyDelta twoEdges (closeAfterMeet twoEdges.view (fun _ => 0) (singleEdge 0 1 2).view
    (singleEdge 1 2 3).view)).lookup 0 2 = some 5 := by decide

end SingleEdge

end GraphOps
end Crab
end Prevail
