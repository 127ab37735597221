import Prevail.Crab.SplitDbm.Lattice
import Prevail.Crab.SplitDbm.Removal

namespace Prevail
namespace Crab
namespace SplitDbm

open DifferenceBounds

/-!
# The common variables of two states

The join and the widening number the variables that both operands map.  Each
number stands for a vertex of either operand, and the number zero for vertex
zero of both.  Bounds between numbers are bounds between the vertices that they
stand for.
-/

variable {V : Type} [LinearOrder V] (s o : SplitDbm V)

/-- The vertices that the numbers stand for. -/
def numbered : List (Nat × Nat) := (0, 0) :: (common s o).map Prod.snd

/-- The left operand under the numbers. -/
def leftView : GraphView := s.g.view.permute (permLeft s o)

/-- The right operand under the numbers. -/
def rightView : GraphView := o.g.view.permute (permRight s o)

section Lists

theorem permLeft_eq : permLeft s o = (numbered s o).map (fun pair => some pair.1) := by
  simp [permLeft, numbered]

theorem permRight_eq : permRight s o = (numbered s o).map (fun pair => some pair.2) := by
  simp [permRight, numbered]

theorem potLeft_eq : potLeft s o = (numbered s o).map
    (fun pair => s.potentialOf pair.1 - s.potentialOf 0) := by
  simp [potLeft, numbered]

theorem numbered_zero : (numbered s o)[0]? = some (0, 0) := rfl

variable {s o}

theorem lookup_leftView {i j : Nat} {weight : Int} : (leftView s o).lookup i j = some weight ↔
    exists first second, (numbered s o)[i]? = some first ∧ (numbered s o)[j]? = some second ∧
      s.g.lookup first.1 second.1 = some weight := by
  unfold leftView
  rw [GraphView.lookup_permute, permLeft_eq]
  simp only [List.getElem?_map, Option.map_eq_some_iff]
  constructor
  · rintro ⟨_, _, ⟨first, atFirst, equalFirst⟩, ⟨second, atSecond, equalSecond⟩, here⟩
    cases equalFirst
    cases equalSecond
    exact ⟨first, second, atFirst, atSecond, here⟩
  · rintro ⟨first, second, atFirst, atSecond, here⟩
    exact ⟨_, _, ⟨first, atFirst, rfl⟩, ⟨second, atSecond, rfl⟩, here⟩

theorem lookup_rightView {i j : Nat} {weight : Int} : (rightView s o).lookup i j = some weight ↔
    exists first second, (numbered s o)[i]? = some first ∧ (numbered s o)[j]? = some second ∧
      o.g.lookup first.2 second.2 = some weight := by
  unfold rightView
  rw [GraphView.lookup_permute, permRight_eq]
  simp only [List.getElem?_map, Option.map_eq_some_iff]
  constructor
  · rintro ⟨_, _, ⟨first, atFirst, equalFirst⟩, ⟨second, atSecond, equalSecond⟩, here⟩
    cases equalFirst
    cases equalSecond
    exact ⟨first, second, atFirst, atSecond, here⟩
  · rintro ⟨first, second, atFirst, atSecond, here⟩
    exact ⟨_, _, ⟨first, atFirst, rfl⟩, ⟨second, atSecond, rfl⟩, here⟩

/-- A variable that the left operand maps to the first vertex and the right
operand to the second one. -/
theorem mem_common (left : s.WellFormed) {v : V} {pair : Nat × Nat} :
    (v, pair) ∈ common s o ↔ s.tryAt v = some pair.1 ∧ o.tryAt v = some pair.2 := by
  rw [Shape.tryAt_iff_mem left]
  simp only [common, List.mem_filterMap, Option.map_eq_some_iff]
  constructor
  · rintro ⟨entry, member, vert, found, equal⟩
    cases equal
    exact ⟨member, found⟩
  · rintro ⟨member, found⟩
    exact ⟨(v, pair.1), member, pair.2, found, rfl⟩

theorem keys_common (left : s.WellFormed) : ((common s o).map Prod.fst).Nodup := by
  have sublist : ((common s o).map Prod.fst).Sublist (s.vertMap.map Prod.fst) := by
    unfold common
    induction s.vertMap with
    | nil => exact List.Sublist.refl _
    | cons entry rest inductionHypothesis =>
        rw [List.filterMap_cons]
        cases o.tryAt entry.1 with
        | none => exact inductionHypothesis.cons _
        | some vert => exact inductionHypothesis.cons_cons _
  exact left.keys.sublist sublist

theorem keys_outVertMap : (outVertMap s o).map Prod.fst = (common s o).map Prod.fst := by
  unfold outVertMap
  rw [List.map_map]
  have unindexed := @List.zipIdx_map_fst _ 1 (common s o)
  calc ((common s o).zipIdx 1).map (Prod.fst ∘ fun entry => (entry.1.1, entry.2))
      = (((common s o).zipIdx 1).map Prod.fst).map Prod.fst := by rw [List.map_map]; rfl
    _ = (common s o).map Prod.fst := by rw [unindexed]

/-- The number of a variable is its place in the list of common variables. -/
theorem lookup_outVertMap (left : s.WellFormed) {v : V} {i : Nat} :
    (outVertMap s o).lookup v = some i ↔ exists pair, i ≠ 0 ∧
      (common s o)[i - 1]? = some (v, pair) := by
  rw [lookup_eq_some_iff (by rw [keys_outVertMap]; exact keys_common left)]
  simp only [outVertMap, List.mem_map]
  constructor
  · rintro ⟨⟨entry, index⟩, member, equal⟩
    cases equal
    have there := List.mk_mem_zipIdx_iff_le_and_getElem?_sub.mp member
    exact ⟨entry.2, by omega, there.2⟩
  · rintro ⟨pair, nonzero, there⟩
    exact ⟨((v, pair), i), List.mk_mem_zipIdx_iff_le_and_getElem?_sub.mpr ⟨by omega, there⟩, rfl⟩

theorem outRevMap_eq_some {v : V} {i : Nat} :
    (outRevMap s o)[i]? = some (some v) ↔ exists pair, i ≠ 0 ∧
      (common s o)[i - 1]? = some (v, pair) := by
  cases i with
  | zero => simp [outRevMap]
  | succ index => simp [outRevMap]

/-- A number other than zero stands for the vertices of a common variable. -/
theorem numbered_succ (left : s.WellFormed) {i : Nat} {pair : Nat × Nat}
    (here : (numbered s o)[i]? = some pair)
    (nonzero : i ≠ 0) : exists v, s.tryAt v = some pair.1 ∧ o.tryAt v = some pair.2 ∧
      (outVertMap s o).lookup v = some i ∧ (outRevMap s o)[i]? = some (some v) := by
  cases i with
  | zero => exact absurd rfl nonzero
  | succ index =>
      simp only [numbered, List.getElem?_cons_succ, List.getElem?_map,
        Option.map_eq_some_iff] at here
      rcases here with ⟨⟨v, vertices⟩, there, rfl⟩
      have both := (mem_common left).mp (List.mem_of_getElem? there)
      exact ⟨v, both.1, both.2, (lookup_outVertMap left).mpr ⟨vertices, nonzero, there⟩,
        outRevMap_eq_some.mpr ⟨vertices, nonzero, there⟩⟩

theorem exists_numbered (left : s.WellFormed) {v : V} {x y : Nat} (atLeft : s.tryAt v = some x)
    (atRight : o.tryAt v = some y) : exists i, i ≠ 0 ∧ (numbered s o)[i]? = some (x, y) ∧
      (outVertMap s o).lookup v = some i := by
  have member := (@mem_common V _ s o left v (x, y)).mpr ⟨atLeft, atRight⟩
  rcases List.getElem?_of_mem member with ⟨index, there⟩
  refine ⟨index + 1, by omega, ?_, (lookup_outVertMap left).mpr ⟨(x, y), by omega, there⟩⟩
  simp [numbered, there]

/-- Different numbers stand for different vertices, in both operands. -/
theorem numbered_injective (left : s.WellFormed) (right : o.WellFormed) {i j : Nat}
    {first second : Nat × Nat}
    (atFirst : (numbered s o)[i]? = some first) (atSecond : (numbered s o)[j]? = some second)
    (same : first.1 = second.1 ∨ first.2 = second.2) : i = j := by
  by_cases iZero : i = 0
  · subst iZero
    cases atFirst
    by_contra different
    rcases numbered_succ left atSecond (Ne.symm different) with ⟨v, inLeft, inRight, _⟩
    rcases same with sameLeft | sameRight
    · exact Shape.ne_zero_of_tryAt left inLeft sameLeft.symm
    · exact Shape.ne_zero_of_tryAt right inRight sameRight.symm
  · rcases numbered_succ left atFirst iZero with ⟨v, inLeft, inRight, number, _⟩
    by_cases jZero : j = 0
    · subst jZero
      cases atSecond
      rcases same with sameLeft | sameRight
      · exact absurd sameLeft (Shape.ne_zero_of_tryAt left inLeft)
      · exact absurd sameRight (Shape.ne_zero_of_tryAt right inRight)
    · rcases numbered_succ left atSecond jZero with ⟨w, inLeftToo, inRightToo, numberToo, _⟩
      have sameVariable : v = w := by
        by_contra different
        rcases same with sameLeft | sameRight
        · exact Shape.ne_of_tryAt left inLeftToo inLeft different sameLeft
        · exact Shape.ne_of_tryAt right inRightToo inRight different sameRight
      subst sameVariable
      rw [number] at numberToo
      cases numberToo
      rfl

theorem restricts_leftView (left : s.WellFormed) (right : o.WellFormed) :
    Restricts (leftView s o).lookup s.g.lookup (fun i => (numbered s o)[i]?.map Prod.fst) := by
  constructor
  · intro i j weight
    rw [lookup_leftView]
    simp only [Option.map_eq_some_iff]
    constructor
    · rintro ⟨first, second, atFirst, atSecond, here⟩
      exact ⟨_, _, ⟨first, atFirst, rfl⟩, ⟨second, atSecond, rfl⟩, here⟩
    · rintro ⟨_, _, ⟨first, atFirst, rfl⟩, ⟨second, atSecond, rfl⟩, here⟩
      exact ⟨first, second, atFirst, atSecond, here⟩
  · intro i j x atFirst atSecond
    rcases Option.map_eq_some_iff.mp atFirst with ⟨first, here, rfl⟩
    rcases Option.map_eq_some_iff.mp atSecond with ⟨second, there, same⟩
    exact numbered_injective left right here there (Or.inl same.symm)

theorem restricts_rightView (left : s.WellFormed) (right : o.WellFormed) :
    Restricts (rightView s o).lookup o.g.lookup (fun i => (numbered s o)[i]?.map Prod.snd) := by
  constructor
  · intro i j weight
    rw [lookup_rightView]
    simp only [Option.map_eq_some_iff]
    constructor
    · rintro ⟨first, second, atFirst, atSecond, here⟩
      exact ⟨_, _, ⟨first, atFirst, rfl⟩, ⟨second, atSecond, rfl⟩, here⟩
    · rintro ⟨_, _, ⟨first, atFirst, rfl⟩, ⟨second, atSecond, rfl⟩, here⟩
      exact ⟨first, second, atFirst, atSecond, here⟩
  · intro i j x atFirst atSecond
    rcases Option.map_eq_some_iff.mp atFirst with ⟨first, here, rfl⟩
    rcases Option.map_eq_some_iff.mp atSecond with ⟨second, there, same⟩
    exact numbered_injective left right here there (Or.inr same.symm)

theorem explicit_leftView (left : s.WellFormed) (right : o.WellFormed) {i j : Nat}
    {first second : Nat × Nat}
    (atFirst : (numbered s o)[i]? = some first)
    (atSecond : (numbered s o)[j]? = some second) {c : Int} :
    Explicit 0 (leftView s o).lookup i j c ↔ Explicit 0 s.g.lookup first.1 second.1 c := by
  have atZero : (numbered s o)[0]?.map Prod.fst = some 0 := rfl
  apply (restricts_leftView left right).explicit_iff atZero
  · exact Option.map_eq_some_iff.mpr ⟨first, atFirst, rfl⟩
  · exact Option.map_eq_some_iff.mpr ⟨second, atSecond, rfl⟩

theorem explicit_rightView (left : s.WellFormed) (right : o.WellFormed) {i j : Nat}
    {first second : Nat × Nat}
    (atFirst : (numbered s o)[i]? = some first)
    (atSecond : (numbered s o)[j]? = some second) {c : Int} :
    Explicit 0 (rightView s o).lookup i j c ↔ Explicit 0 o.g.lookup first.2 second.2 c := by
  have atZero : (numbered s o)[0]?.map Prod.snd = some 0 := rfl
  apply (restricts_rightView left right).explicit_iff atZero
  · exact Option.map_eq_some_iff.mpr ⟨first, atFirst, rfl⟩
  · exact Option.map_eq_some_iff.mpr ⟨second, atSecond, rfl⟩

end Lists

/-! ## A state over the numbers -/

section Numbered

variable {s o} {g : AdaptGraph} {unstable : List Nat}

/-- The state with the common variables, a graph over the numbers and the
potential of the left operand. -/
def overNumbers (s o : SplitDbm V) (g : AdaptGraph) (unstable : List Nat) : SplitDbm V :=
  ⟨outVertMap s o, outRevMap s o, g, potLeft s o, unstable⟩

/-- A graph whose vertices are the numbers. -/
structure OverNumbers (s o : SplitDbm V) (g : AdaptGraph) : Prop where
  size : g.size = (numbered s o).length
  freeId : g.freeId = []
  ends : forall i j weight, g.lookup i j = some weight -> i < g.size ∧ j < g.size

theorem OverNumbers.live (numbers : OverNumbers s o g) {i : Nat} :
    g.Live i ↔ i < (numbered s o).length := by
  unfold AdaptGraph.Live
  rw [numbers.freeId, numbers.size]
  simp

theorem OverNumbers.wellFormed (numbers : OverNumbers s o g) : g.WellFormed := by
  constructor
  · rw [numbers.freeId]
    exact List.nodup_nil
  · rw [numbers.freeId]
    simp
  · intro i j weight here
    have ends := numbers.ends i j weight here
    rw [numbers.size] at ends
    exact ⟨numbers.live.mpr ends.1, numbers.live.mpr ends.2⟩

theorem wellFormed_overNumbers (left : s.WellFormed) (numbers : OverNumbers s o g) :
    (overNumbers s o g unstable).WellFormed := by
  refine
    { graph := numbers.wellFormed
      keys := ?_
      mapped := ?_
      live := ?_
      looseLive := fun _ => False.elim
      zero := rfl
      revMap_length := ?_
      potential_length := ?_ }
  · unfold overNumbers
    dsimp only
    rw [keys_outVertMap]
    exact keys_common left
  · intro v i
    unfold overNumbers tryAt
    dsimp only
    rw [lookup_outVertMap left, outRevMap_eq_some]
    simp
  · intro i
    have live : (overNumbers s o g unstable).g.Live i ↔ i < (numbered s o).length := numbers.live
    rw [live]
    unfold overNumbers
    dsimp only
    constructor
    · rintro (rfl | ⟨v, here⟩)
      · simp [numbered]
      · have inside := (List.getElem?_eq_some_iff.mp here).1
        simpa [numbered, outRevMap] using inside
    · intro inside
      by_cases zero : i = 0
      · exact Or.inl zero
      · have here := List.getElem?_eq_getElem inside
        rcases numbered_succ left here zero with ⟨v, _, _, _, mapped⟩
        exact Or.inr ⟨v, mapped⟩
  · rw [overNumbers, numbers.size]
    simp [numbered, outRevMap]
  · rw [overNumbers, numbers.size]
    simp [numbered, potLeft]

theorem vertexValue_overNumbers (left : s.WellFormed) (right : o.WellFormed)
    (values : V -> Int) {i : Nat} {pair : Nat × Nat} (here : (numbered s o)[i]? = some pair) :
    (overNumbers s o g unstable).vertexValue values i = s.vertexValue values pair.1 ∧
      (overNumbers s o g unstable).vertexValue values i = o.vertexValue values pair.2 := by
  by_cases zero : i = 0
  · subst zero
    cases here
    rw [Shape.vertexValue_zero left, Shape.vertexValue_zero right]
    exact ⟨rfl, rfl⟩
  · rcases numbered_succ left here zero with ⟨v, inLeft, inRight, _, mapped⟩
    have value : (overNumbers s o g unstable).vertexValue values i = values v := by
      unfold vertexValue overNumbers
      dsimp only
      rw [mapped]
    rw [value, Shape.vertexValue_of_tryAt left values inLeft,
      Shape.vertexValue_of_tryAt right values inRight]
    exact ⟨rfl, rfl⟩

theorem potLeft_getD {i : Nat} {pair : Nat × Nat} (here : (numbered s o)[i]? = some pair) :
    (potLeft s o).getD i 0 = s.potentialOf pair.1 - s.potentialOf 0 := by
  rw [potLeft_eq, List.getD_eq_getElem?_getD, List.getElem?_map, here]
  rfl

/-- The potentials of the operands are valid for them under the numbers. -/
theorem models_leftView (valid : s.ValidPotential) :
    Models (leftView s o).lookup (fun i => (potLeft s o).getD i 0) := by
  intro i j weight here
  rcases lookup_leftView.mp here with ⟨first, second, atFirst, atSecond, edge⟩
  have bounded := valid _ _ _ edge
  dsimp only
  rw [potLeft_getD atFirst, potLeft_getD atSecond]
  omega

end Numbered

end SplitDbm
end Crab
end Prevail
