import Prevail.Crab.SplitDbm.Invariant

namespace Prevail
namespace Crab
namespace SplitDbm

open DifferenceBounds

/-!
# Removal of variables

`operator-=` gives the vertex of a variable back and drops its edges.  The edges
that stay keep their meaning, so an assignment stays represented whatever the
variable is changed to.
-/

variable {V : Type} [LinearOrder V] {loose : Nat -> Prop} {s : SplitDbm V}

/-- The state without the vertex of a variable, before it is normalized. -/
def dropVertex (s : SplitDbm V) (v : V) (vert : Nat) : SplitDbm V :=
  { s with
    g := s.g.forget vert
    revMap := s.revMap.set vert none
    vertMap := s.vertMap.filter (fun entry => decide (entry.1 ≠ v)) }

theorem remove_cases (s : SplitDbm V) (v : V) :
    (s.tryAt v = none ∧ s.remove v = s) ∨
      exists vert, s.tryAt v = some vert ∧ s.remove v = (dropVertex s v vert).normalize := by
  unfold remove
  cases found : s.tryAt v with
  | none => exact Or.inl ⟨rfl, rfl⟩
  | some vert => exact Or.inr ⟨vert, rfl, rfl⟩

section Drop

variable {v : V} {vert : Nat} (shape : Shape loose s) (found : s.tryAt v = some vert)

include shape

theorem tryAt_dropVertex (w : V) (other : Nat) :
    (dropVertex s v vert).tryAt w = some other ↔ w ≠ v ∧ s.tryAt w = some other := by
  have keys := keys_filter shape.keys (fun entry : V × Nat => decide (entry.1 ≠ v))
  rw [shape.tryAt_iff_mem]
  unfold tryAt dropVertex
  rw [lookup_eq_some_iff keys]
  simp [and_comm]

include found

theorem Shape.ne_of_tryAt {w : V} {other : Nat} (there : s.tryAt w = some other)
    (different : w ≠ v) :
    other ≠ vert := by
  rintro rfl
  have first := ((shape.mapped v other).mp found).1
  have second := ((shape.mapped w other).mp there).1
  rw [first] at second
  cases second
  exact different rfl

omit shape found in
theorem dropVertex_revMap {other : Nat} (different : other ≠ vert) :
    (dropVertex s v vert).revMap[other]? = s.revMap[other]? := by
  unfold dropVertex
  dsimp only
  rw [List.getElem?_set, if_neg (Ne.symm different)]

theorem dropVertex_lookup {source target : Nat} {weight : Int} :
    (dropVertex s v vert).g.lookup source target = some weight ↔
      source ≠ vert ∧ target ≠ vert ∧ s.g.lookup source target = some weight :=
  AdaptGraph.forget_lookup (shape.live_of_tryAt found)

theorem dropVertex_live (other : Nat) : (dropVertex s v vert).g.Live other ↔ s.g.Live other ∧
    other ≠ vert :=
  AdaptGraph.forget_live (shape.live_of_tryAt found) other

theorem Shape.dropVertex : Shape loose (dropVertex s v vert) := by
  have live := shape.live_of_tryAt found
  have notLoose := ((shape.mapped v vert).mp found).2
  refine
    { graph := shape.graph.forget live
      keys := keys_filter shape.keys _
      mapped := ?_
      live := ?_
      looseLive := ?_
      zero := ?_
      revMap_length := ?_
      potential_length := ?_ }
  · intro w other
    rw [tryAt_dropVertex shape]
    by_cases same : other = vert
    · subst same
      have cleared : (SplitDbm.dropVertex s v other).revMap[other]? ≠ some (some w) := by
        unfold SplitDbm.dropVertex
        dsimp only
        rw [List.getElem?_set, if_pos rfl]
        split <;> simp
      constructor
      · rintro ⟨different, there⟩
        exact absurd rfl (shape.ne_of_tryAt found there different)
      · exact fun mapped => absurd mapped.1 cleared
    · rw [dropVertex_revMap same, ← shape.mapped w other]
      constructor
      · exact And.right
      · intro there
        refine ⟨?_, there⟩
        rintro rfl
        rw [found] at there
        cases there
        exact same rfl
  · intro other
    rw [dropVertex_live shape found]
    by_cases same : other = vert
    · subst same
      constructor
      · rintro (rfl | ⟨w, mapped⟩)
        · exact absurd rfl (shape.ne_zero_of_tryAt found)
        · unfold SplitDbm.dropVertex at mapped
          dsimp only at mapped
          rw [List.getElem?_set, if_pos rfl] at mapped
          split at mapped <;> simp at mapped
      · exact fun both => absurd rfl both.2
    · rw [dropVertex_revMap same, shape.live other]
      exact (and_iff_left same).symm
  · intro other isLoose
    rw [dropVertex_live shape found]
    refine ⟨shape.looseLive other isLoose, ?_⟩
    rintro rfl
    exact notLoose isLoose
  · rw [dropVertex_revMap (shape.ne_zero_of_tryAt found).symm]
    exact shape.zero
  · simp [SplitDbm.dropVertex, shape.revMap_length]
  · simp [SplitDbm.dropVertex, shape.potential_length]

theorem dropVertex_models {vertexValues : Nat -> Int} (models : Models s.g.lookup vertexValues) :
    Models (dropVertex s v vert).g.lookup vertexValues :=
  fun source target weight here =>
    models source target weight ((dropVertex_lookup shape found).mp here).2.2

end Drop

/-! ## `operator-=` -/

section Remove

variable (shape : Shape loose s) (v : V)

theorem remove_potentialOf : (s.remove v).potentialOf = s.potentialOf := by
  rcases remove_cases s v with ⟨_, same⟩ | ⟨vert, _, dropped⟩
  · rw [same]
  · rw [dropped, normalize_potentialOf]
    rfl

include shape

theorem Shape.remove : Shape loose (s.remove v) := by
  rcases remove_cases s v with ⟨_, same⟩ | ⟨vert, found, dropped⟩
  · rw [same]
    exact shape
  · rw [dropped]
    exact (shape.dropVertex found).normalize

theorem tryAt_remove (w : V) (vert : Nat) :
    (s.remove v).tryAt w = some vert ↔ w ≠ v ∧ s.tryAt w = some vert := by
  rcases remove_cases s v with ⟨absent, same⟩ | ⟨old, found, dropped⟩
  · rw [same]
    constructor
    · intro here
      refine ⟨?_, here⟩
      rintro rfl
      rw [absent] at here
      cases here
    · exact And.right
  · rw [dropped, normalize_tryAt]
    exact tryAt_dropVertex shape w vert

theorem tryAt_remove_self : (s.remove v).tryAt v = none := by
  cases found : (s.remove v).tryAt v with
  | none => rfl
  | some vert => exact absurd rfl ((tryAt_remove shape v v vert).mp found).1

theorem remove_revMap_of_loose {vert : Nat} (isLoose : loose vert) :
    (s.remove v).revMap[vert]? = s.revMap[vert]? := by
  rcases remove_cases s v with ⟨_, same⟩ | ⟨old, found, dropped⟩
  · rw [same]
  · rw [dropped, normalize_revMap]
    apply dropVertex_revMap
    rintro rfl
    exact ((shape.mapped v vert).mp found).2 isLoose

theorem remove_models {vertexValues : Nat -> Int} (models : Models s.g.lookup vertexValues) :
    Models (s.remove v).g.lookup vertexValues := by
  rcases remove_cases s v with ⟨_, same⟩ | ⟨vert, found, dropped⟩
  · rw [same]
    exact models
  · rw [dropped]
    exact models_normalize.mpr (dropVertex_models shape found models)

end Remove

theorem Invariant.remove (invariant : Invariant s) (v : V) : Invariant (s.remove v) := by
  refine ⟨Shape.remove invariant.wellFormed v, ?_⟩
  unfold ValidPotential
  rw [remove_potentialOf]
  exact remove_models invariant.wellFormed v invariant.valid

/-- An assignment stays represented when the variable changes. -/
theorem represents_remove (invariant : Invariant s) (v : V) {values others : V -> Int}
    (represents : s.Represents values) (agree : forall w, w ≠ v -> others w = values w) :
    (s.remove v).Represents others := by
  apply WellFormed.represents_of_models (Shape.remove invariant.wellFormed v) ?_
    (remove_models invariant.wellFormed v represents)
  refine ⟨Shape.vertexValue_zero invariant.wellFormed values, ?_⟩
  intro w vert found
  rcases (tryAt_remove invariant.wellFormed v w vert).mp found with ⟨different, old⟩
  rw [Shape.vertexValue_of_tryAt invariant.wellFormed values old, agree w different]

theorem Invariant.forget (invariant : Invariant s) (removed : List V) :
    Invariant (s.forget removed) := by
  unfold SplitDbm.forget
  split
  · exact invariant
  · apply Invariant.normalize
    apply List.foldlRecOn (motive := Invariant) removed
    · exact invariant
    · intro state kept v _
      split
      · exact kept.remove v
      · exact kept

end SplitDbm
end Crab
end Prevail
