import Prevail.Crab.SplitDbm.Removal

namespace Prevail
namespace Crab
namespace SplitDbm

open DifferenceBounds

/-!
# States in normal form

The bounds that a state implies are bounds on what it represents: on a variable,
or on the difference of two variables.  In split normal form, each of them is
explicit: the bounds of the variables are tight edges at vertex zero, and a
difference is an edge or the sum of two bounds.
-/

variable {V : Type} [LinearOrder V]

/-- A valid potential, and every path between different vertices is explicit. -/
structure Normal (s : SplitDbm V) : Prop extends Invariant s where
  closed : SplitClosed 0 s.g.lookup

/-- The value of a variable, or zero. -/
def valueOf (values : V -> Int) : Option V -> Int
  | none => 0
  | some v => values v

/-- The vertex of a variable, or zero. -/
def vertexOf (s : SplitDbm V) : Option V -> Option Nat
  | none => some 0
  | some v => s.tryAt v

/-- Every assignment that is represented keeps `u` at most `c` below `v`. -/
def ImpliedBound (s : SplitDbm V) (u v : Option V) (c : Int) : Prop :=
  forall values, s.Represents values -> valueOf values v ≤ valueOf values u + c

/-- The least bound on the difference of two variables, or none. -/
def IsTightest (s : SplitDbm V) (u v : Option V) (tightest : WithTop Int) : Prop :=
  forall c : Int, tightest ≤ c ↔ ImpliedBound s u v c

section Values

variable {s : SplitDbm V} {values : V -> Int}

theorem WellFormed.vertexValue_vertexOf (wellFormed : s.WellFormed) {v : Option V} {vert : Nat}
    (found : s.vertexOf v = some vert) (values : V -> Int) :
    s.vertexValue values vert = valueOf values v := by
  cases v with
  | none =>
      cases found
      exact Shape.vertexValue_zero wellFormed values
  | some v => exact Shape.vertexValue_of_tryAt wellFormed values found

/-- Different variables have different vertices. -/
theorem WellFormed.vertexOf_ne (wellFormed : s.WellFormed) {u v : Option V} {source target : Nat}
    (atSource : s.vertexOf u = some source) (atTarget : s.vertexOf v = some target)
    (different : u ≠ v) :
    source ≠ target := by
  cases u with
  | none =>
      cases atSource
      cases v with
      | none => exact absurd rfl different
      | some w => exact (Shape.ne_zero_of_tryAt wellFormed atTarget).symm
  | some x =>
      cases v with
      | none =>
          cases atTarget
          exact Shape.ne_zero_of_tryAt wellFormed atSource
      | some w => exact Shape.ne_of_tryAt wellFormed atTarget atSource (fun same =>
        different (congrArg some same))

/-- Every end of an edge is the vertex of a variable, or zero. -/
theorem WellFormed.exists_vertexOf (wellFormed : s.WellFormed) {vert : Nat} (live : s.g.Live vert) :
    exists v, s.vertexOf v = some vert := by
  rcases Shape.live_cases wellFormed live with rfl | impossible | ⟨v, found⟩
  · exact ⟨none, rfl⟩
  · exact absurd impossible id
  · exact ⟨some v, found⟩

/-- Values of the vertices come from an assignment of the variables. -/
theorem WellFormed.represents_of_vertexValues (wellFormed : s.WellFormed)
    {vertexValues : Nat -> Int}
    (models : Models s.g.lookup vertexValues) (others : V -> Int) :
    exists values, s.Represents values ∧
      (forall v vert, s.tryAt v = some vert -> values v = vertexValues vert - vertexValues 0) ∧
      (forall v, s.tryAt v = none -> values v = others v) := by
  let values : V -> Int := fun v =>
    (s.tryAt v).elim (others v) (fun vert => vertexValues vert - vertexValues 0)
  have mapped : forall v vert, s.tryAt v = some vert ->
      values v = vertexValues vert - vertexValues 0 := by
    intro v vert found
    simp only [values, found, Option.elim_some]
  refine ⟨values, ?_, mapped, fun v absent => by simp only [values, absent, Option.elim_none]⟩
  have shifted := models.shift (-vertexValues 0)
  apply wellFormed.represents_of_models ?_ shifted
  constructor
  · ring
  · intro v vert found
    rw [mapped v vert found]
    ring

/-- A variable without a vertex can have any value. -/
theorem WellFormed.represents_update (wellFormed : s.WellFormed)
    (represents : s.Represents values) {v : V}
    (absent : s.tryAt v = none) (value : Int) : s.Represents (Function.update values v value) := by
  apply wellFormed.represents_of_models ?_ represents
  refine ⟨Shape.vertexValue_zero wellFormed values, ?_⟩
  intro w vert found
  have different : w ≠ v := by
    rintro rfl
    rw [absent] at found
    cases found
  rw [Function.update_of_ne different]
  exact Shape.vertexValue_of_tryAt wellFormed values found

theorem impliedBound_iff (wellFormed : s.WellFormed) {u v : Option V}
    {source target : Nat} {c : Int}
    (atSource : s.vertexOf u = some source) (atTarget : s.vertexOf v = some target) :
    ImpliedBound s u v c ↔ Implies s.g.lookup source target c := by
  constructor
  · intro implied vertexValues models
    rcases wellFormed.represents_of_vertexValues models (fun _ => 0) with
      ⟨values, represents, mapped, _⟩
    have value : forall {w : Option V} {vert : Nat}, s.vertexOf w = some vert ->
        valueOf values w = vertexValues vert - vertexValues 0 := by
      intro w vert found
      cases w with
      | none =>
          cases found
          exact (sub_self _).symm
      | some w => exact mapped w vert found
    have bounded := implied values represents
    rw [value atSource, value atTarget] at bounded
    omega
  · intro implied values represents
    have bounded := implied _ represents
    rwa [wellFormed.vertexValue_vertexOf atSource,
      wellFormed.vertexValue_vertexOf atTarget] at bounded

theorem WellFormed.exists_value (wellFormed : s.WellFormed) (represents : s.Represents values)
    {u : Option V}
    (absent : s.vertexOf u = none) (value : Int) : exists others, s.Represents others ∧
      valueOf others u = value ∧ forall v, v ≠ u -> valueOf others v = valueOf values v := by
  cases u with
  | none => cases absent
  | some w =>
      refine ⟨_, wellFormed.represents_update represents absent value, Function.update_self .., ?_⟩
      intro v different
      cases v with
      | none => rfl
      | some x => exact Function.update_of_ne (fun same => different (congrArg some same)) ..

/-- In normal form, the bounds between different variables are the explicit ones. -/
theorem Normal.impliedBound_iff (normal : Normal s) {u v : Option V} {source target : Nat} {c : Int}
    (atSource : s.vertexOf u = some source) (atTarget : s.vertexOf v = some target)
    (different : u ≠ v) :
    ImpliedBound s u v c ↔ Explicit 0 s.g.lookup source target c := by
  rw [SplitDbm.impliedBound_iff normal.wellFormed atSource atTarget]
  exact normal.closed.implies_iff normal.valid
    (normal.wellFormed.vertexOf_ne atSource atTarget different)

theorem impliedBound_refl (invariant : Invariant s) {u : Option V} {c : Int} :
    ImpliedBound s u u c ↔ 0 ≤ c := by
  constructor
  · intro implied
    have bounded := implied _ invariant.represents_potential
    omega
  · intro nonneg values _
    omega

theorem vertexOf_of_impliedBound (wellFormed : s.WellFormed) (represents : s.Represents values)
    {u v : Option V} (different : u ≠ v) {c : Int} (implied : ImpliedBound s u v c) :
    (exists source, s.vertexOf u = some source) ∧ exists target, s.vertexOf v = some target := by
  constructor
  · apply Option.ne_none_iff_exists'.mp
    intro absent
    rcases wellFormed.exists_value represents absent (valueOf values v - c - 1) with
      ⟨others, othersRepresents, value, same⟩
    have bounded := implied others othersRepresents
    rw [value, same v different.symm] at bounded
    omega
  · apply Option.ne_none_iff_exists'.mp
    intro absent
    rcases wellFormed.exists_value represents absent (valueOf values u + c + 1) with
      ⟨others, othersRepresents, value, same⟩
    have bounded := implied others othersRepresents
    rw [value, same u different] at bounded
    omega

omit [LinearOrder V] in
/-- Among the assignments of a state, every bound that holds has a least one. -/
theorem exists_isTightest (represents : s.Represents values) (u v : Option V) :
    exists tightest, IsTightest s u v tightest := by
  by_cases bounded : exists c, ImpliedBound s u v c
  · have below : exists b, forall c, ImpliedBound s u v c -> b ≤ c := by
      refine ⟨valueOf values v - valueOf values u, fun c implied => ?_⟩
      have here := implied values represents
      omega
    rcases Int.exists_least_of_bdd below bounded with ⟨least, implied, isLeast⟩
    refine ⟨(least : WithTop Int), fun c => ?_⟩
    rw [WithTop.coe_le_coe]
    constructor
    · intro above others othersRepresents
      have here := implied others othersRepresents
      omega
    · exact isLeast c
  · refine ⟨⊤, fun c => ?_⟩
    constructor
    · intro impossible
      exact absurd impossible (not_le.mpr (WithTop.coe_lt_top c))
    · intro implied
      exact absurd ⟨c, implied⟩ bounded

end Values

/-! ## Testing for normal form -/

section Test

theorem explicit_iff {edges : Edges Nat} {source target : Nat} {weight : Int} :
    Explicit 0 edges source target weight ↔ (∃ lower ∈ edges source target, lower ≤ weight) ∨
      (source ≠ 0 ∧ target ≠ 0 ∧
      ∃ first ∈ edges source 0, ∃ second ∈ edges 0 target, first + second ≤ weight) := by
  constructor
  · intro explicit
    cases explicit with
    | edge here below => exact Or.inl ⟨_, here, below⟩
    | sum sourceOther targetOther first second below =>
        exact Or.inr ⟨sourceOther, targetOther, _, first, _, second, below⟩
  · rintro (⟨lower, here, below⟩ |
      ⟨sourceOther, targetOther, first, toZero, second, fromZero, below⟩)
    · exact .edge here below
    · exact .sum sourceOther targetOther toZero fromZero below

instance (edges : Edges Nat) (source target : Nat) (weight : Int) :
    Decidable (Explicit 0 edges source target weight) := decidable_of_iff' _ explicit_iff

/-- Any two edges in a row are explicit. -/
def TrianglesExplicit (g : AdaptGraph) : Prop :=
  ∀ source < g.size, ∀ middle < g.size, ∀ target < g.size, source ≠ target ->
    ∀ first ∈ g.lookup source middle, ∀ last ∈ g.lookup middle target,
      Explicit 0 g.lookup source target (first + last)

instance (g : AdaptGraph) : Decidable (TrianglesExplicit g) :=
  inferInstanceAs (Decidable (∀ source < g.size, ∀ middle < g.size, ∀ target < g.size,
    source ≠ target -> ∀ first ∈ g.lookup source middle, ∀ last ∈ g.lookup middle target,
      Explicit 0 g.lookup source target (first + last)))

theorem Invariant.normal {s : SplitDbm V} (invariant : Invariant s)
    (triangles : TrianglesExplicit s.g) :
    Normal s := by
  refine ⟨invariant, SplitClosed.of_triangles invariant.valid ?_⟩
  intro source middle target first last here there different
  have ends := invariant.wellFormed.graph.ends _ _ _ here
  have last_ := invariant.wellFormed.graph.ends _ _ _ there
  exact triangles source ends.1.1 middle ends.2.1 target last_.2.1 different first here last there

end Test

end SplitDbm
end Crab
end Prevail
