import Prevail.Crab.PotentialRepair
import Prevail.Crab.SplitDbm.State

namespace Prevail
namespace Crab
namespace SplitDbm

open DifferenceBounds

/-!
# The representation of difference bounds

The maps between variables and vertices are inverse to each other, the live
vertices are the ones that stand for a variable, and the potential is a model of
the graph.  While a variable is assigned, a vertex of its own holds the new
value, and no variable is mapped to it; such vertices are called loose.

A state represents the assignments of integers to variables that meet the bound
of every edge, with the value zero for vertex zero.
-/

variable {V : Type} [LinearOrder V]

/-- The parts of a state fit together. -/
structure Shape (loose : Nat -> Prop) (s : SplitDbm V) : Prop where
  graph : s.g.WellFormed
  keys : (s.vertMap.map Prod.fst).Nodup
  mapped : forall v vert, s.tryAt v = some vert ↔ s.revMap[vert]? = some (some v) ∧ ¬ loose vert
  live : forall vert, (vert = 0 ∨ exists v, s.revMap[vert]? = some (some v)) ↔ s.g.Live vert
  looseLive : forall vert, loose vert -> s.g.Live vert
  zero : s.revMap[0]? = some none
  revMap_length : s.revMap.length = s.g.size
  potential_length : s.potential.length = s.g.size

/-- No vertex is loose. -/
abbrev WellFormed (s : SplitDbm V) : Prop := Shape (fun _ => False) s

/-- The potential meets the bound of every edge. -/
def ValidPotential (s : SplitDbm V) : Prop := Models s.g.lookup s.potentialOf

/-- What every operation relies on and keeps. -/
structure Invariant (s : SplitDbm V) : Prop where
  wellFormed : s.WellFormed
  valid : s.ValidPotential

/-- The value of a vertex: the value of the variable that it stands for, or zero. -/
def vertexValue (s : SplitDbm V) (values : V -> Int) (vert : Nat) : Int :=
  match s.revMap[vert]? with
  | some (some v) => values v
  | _ => 0

/-- The assignment meets the bound of every edge. -/
def Represents (s : SplitDbm V) (values : V -> Int) :
    Prop := Models s.g.lookup (s.vertexValue values)

/-! ## Association lists -/

section Entries

variable {map : List (V × Nat)} {v : V} {vert : Nat}

theorem lookup_eq_some_iff (keys : (map.map Prod.fst).Nodup) :
    map.lookup v = some vert ↔ (v, vert) ∈ map := by
  induction map with
  | nil => simp
  | cons entry rest inductionHypothesis =>
      rw [List.map_cons, List.nodup_cons] at keys
      rw [List.lookup_cons]
      by_cases same : v = entry.1
      · have found : (v == entry.1) = true := beq_iff_eq.mpr same
        rw [found]
        constructor
        · intro equal
          cases equal
          rw [same]
          exact List.mem_cons_self
        · intro member
          rcases List.mem_cons.mp member with here | later
          · rw [← here]
          · exact absurd (List.mem_map.mpr ⟨_, later, same⟩) keys.1
      · have missed : (v == entry.1) = false := beq_eq_false_iff_ne.mpr same
        rw [missed]
        dsimp only
        rw [inductionHypothesis keys.2, List.mem_cons]
        constructor
        · exact Or.inr
        · rintro (here | later)
          · exact absurd (congrArg Prod.fst here) same
          · exact later

theorem not_mem_keys_of_lookup (absent : map.lookup v = none) : v ∉ map.map Prod.fst := by
  intro member
  rcases List.mem_map.mp member with ⟨entry, inside, rfl⟩
  rw [List.lookup_eq_none_iff] at absent
  simpa using absent entry inside

theorem mem_emplace (absent : map.lookup v = none) {entry : V × Nat} :
    entry ∈ emplace map v vert ↔ entry = (v, vert) ∨ entry ∈ map := by
  unfold emplace
  rw [absent]
  simp [List.mem_orderedInsert]

theorem keys_emplace (absent : map.lookup v = none) (keys : (map.map Prod.fst).Nodup) :
    ((emplace map v vert).map Prod.fst).Nodup := by
  unfold emplace
  rw [absent]
  have perm := List.perm_orderedInsert (fun left right : V × Nat => left.1 ≤ right.1) (v, vert) map
  have permuted := (perm.map Prod.fst).nodup_iff
  simp only [Option.isSome_none, Bool.false_eq_true, if_false]
  rw [permuted, List.map_cons, List.nodup_cons]
  exact ⟨not_mem_keys_of_lookup absent, keys⟩

omit [LinearOrder V] in
theorem keys_filter (keys : (map.map Prod.fst).Nodup) (keep : V × Nat -> Bool) :
    ((map.filter keep).map Prod.fst).Nodup :=
  List.Nodup.sublist (List.Sublist.map Prod.fst List.filter_sublist) keys

end Entries

/-! ## Values of vertices -/

section Shape

variable {loose : Nat -> Prop} {s : SplitDbm V}

theorem Shape.tryAt_iff_mem (shape : Shape loose s) {v : V} {vert : Nat} :
    s.tryAt v = some vert ↔ (v, vert) ∈ s.vertMap := lookup_eq_some_iff shape.keys

theorem Shape.live_of_tryAt (shape : Shape loose s) {v : V} {vert : Nat}
    (found : s.tryAt v = some vert) :
    s.g.Live vert := (shape.live vert).mp (Or.inr ⟨v, ((shape.mapped v vert).mp found).1⟩)

theorem Shape.zero_live (shape : Shape loose s) : s.g.Live 0 := (shape.live 0).mp (Or.inl rfl)

theorem Shape.ne_zero_of_tryAt (shape : Shape loose s) {v : V} {vert : Nat}
    (found : s.tryAt v = some vert) :
    vert ≠ 0 := by
  rintro rfl
  have mapped := ((shape.mapped v 0).mp found).1
  rw [shape.zero] at mapped
  cases mapped

theorem Shape.vertexValue_zero (shape : Shape loose s) (values : V -> Int) :
    s.vertexValue values 0 = 0 := by
  unfold vertexValue
  rw [shape.zero]

theorem Shape.vertexValue_of_tryAt (shape : Shape loose s) (values : V -> Int) {v : V} {vert : Nat}
    (found : s.tryAt v = some vert) : s.vertexValue values vert = values v := by
  unfold vertexValue
  rw [((shape.mapped v vert).mp found).1]

/-- A live vertex is zero, loose, or the vertex of a variable. -/
theorem Shape.live_cases (shape : Shape loose s) {vert : Nat} (live : s.g.Live vert) :
    vert = 0 ∨ loose vert ∨ exists v, s.tryAt v = some vert := by
  rcases (shape.live vert).mpr live with zero | ⟨v, mapped⟩
  · exact Or.inl zero
  · by_cases isLoose : loose vert
    · exact Or.inr (Or.inl isLoose)
    · exact Or.inr (Or.inr ⟨v, (shape.mapped v vert).mpr ⟨mapped, isLoose⟩⟩)

/-- Values of the vertices that agree with an assignment of the variables. -/
structure Agrees (s : SplitDbm V) (values : V -> Int) (vertexValues : Nat -> Int) : Prop where
  zero : vertexValues 0 = 0
  mapped : forall v vert, s.tryAt v = some vert -> vertexValues vert = values v

theorem WellFormed.represents_of_models (wellFormed : s.WellFormed) {values : V -> Int}
    {vertexValues : Nat -> Int}
    (agrees : Agrees s values vertexValues) (models : Models s.g.lookup vertexValues) :
    s.Represents values := by
  apply models.congr wellFormed.graph.ends
  intro vert live
  rcases Shape.live_cases wellFormed live with rfl | absurd_ | ⟨v, found⟩
  · rw [agrees.zero, wellFormed.vertexValue_zero]
  · exact absurd absurd_ id
  · rw [agrees.mapped v vert found, wellFormed.vertexValue_of_tryAt values found]

/-- The potential of the variables, relative to vertex zero, is represented. -/
theorem Invariant.represents_potential (invariant : Invariant s) :
    s.Represents (fun v => s.potValue v - s.potentialOf 0) := by
  have shifted := Models.shift invariant.valid (-s.potentialOf 0)
  refine WellFormed.represents_of_models invariant.wellFormed ⟨by ring, ?_⟩ shifted
  intro v vert found
  simp only [potValue, found]
  ring

/-! ## New vertices -/

section Allocate

variable (shape : Shape loose s) (v : V) (value : Int)

omit [LinearOrder V] in
theorem allocate_lookup : (s.allocate v value).2.g.lookup = s.g.lookup := by
  unfold allocate
  dsimp only
  split <;> exact AdaptGraph.newVertex_lookup s.g

omit [LinearOrder V] in
theorem allocate_fst : (s.allocate v value).1 = s.g.newVertex.1 := by
  unfold allocate
  dsimp only
  split <;> rfl

omit [LinearOrder V] in
theorem allocate_g : (s.allocate v value).2.g = s.g.newVertex.2 := by
  unfold allocate
  dsimp only
  split <;> rfl

omit [LinearOrder V] in
theorem allocate_vertMap : (s.allocate v value).2.vertMap = s.vertMap := by
  unfold allocate
  dsimp only
  split <;> rfl

include shape

theorem allocate_revMap (vert : Nat) : (s.allocate v value).2.revMap[vert]? =
    if vert = (s.allocate v value).1 then some (some v) else s.revMap[vert]? := by
  rw [allocate_fst]
  unfold allocate
  dsimp only
  rcases shape.graph.newVertex_size with ⟨below, _⟩ | ⟨atEnd, _⟩
  · rw [if_pos (by rw [shape.revMap_length]; exact below)]
    dsimp only
    rw [List.getElem?_set]
    by_cases same : vert = s.g.newVertex.1
    · rw [if_pos same.symm, if_pos (by rw [shape.revMap_length]; exact below), if_pos same]
    · rw [if_neg (Ne.symm same), if_neg same]
  · rw [if_neg (by rw [shape.revMap_length, atEnd]; exact lt_irrefl _)]
    dsimp only
    rw [atEnd, ← shape.revMap_length, List.getElem?_append]
    split
    · rename_i below
      rw [if_neg (by omega)]
    · rename_i above
      by_cases same : vert = s.revMap.length
      · simp [same]
      · rw [if_neg same, List.getElem?_eq_none (by simp; omega), List.getElem?_eq_none (by omega)]

theorem allocate_potentialOf (vert : Nat) : (s.allocate v value).2.potentialOf vert =
    if vert = (s.allocate v value).1 then value else s.potentialOf vert := by
  rw [allocate_fst]
  unfold allocate potentialOf
  dsimp only
  simp only [List.getD_eq_getElem?_getD]
  rcases shape.graph.newVertex_size with ⟨below, _⟩ | ⟨atEnd, _⟩
  · rw [if_pos (by rw [shape.revMap_length]; exact below)]
    dsimp only
    rw [List.getElem?_set]
    by_cases same : vert = s.g.newVertex.1
    · rw [if_pos same.symm, if_pos (by rw [shape.potential_length]; exact below), if_pos same]
      rfl
    · rw [if_neg (Ne.symm same), if_neg same]
  · rw [if_neg (by rw [shape.revMap_length, atEnd]; exact lt_irrefl _)]
    dsimp only
    rw [atEnd, ← shape.potential_length, List.getElem?_append]
    split
    · rename_i below
      rw [if_neg (by omega)]
    · rename_i above
      by_cases same : vert = s.potential.length
      · simp [same]
      · rw [if_neg same, List.getElem?_eq_none (by simp; omega), List.getElem?_eq_none (by omega)]

omit [LinearOrder V] shape in
theorem allocate_not_live : ¬ s.g.Live (s.allocate v value).1 := by
  rw [allocate_fst]
  exact AdaptGraph.newVertex_not_live

theorem allocate_live (vert : Nat) :
    (s.allocate v value).2.g.Live vert ↔ s.g.Live vert ∨ vert = (s.allocate v value).1 := by
  rw [allocate_g, allocate_fst]
  exact shape.graph.newVertex_live vert

/-- The new vertex is loose until the variable is mapped to it. -/
theorem Shape.allocate :
    Shape (fun vert => loose vert ∨ vert = (s.allocate v value).1) (s.allocate v value).2 := by
  have fresh := @allocate_not_live V s v value
  have revMap := allocate_revMap shape v value
  have live := allocate_live shape v value
  have zeroOther : (0 : Nat) ≠ (s.allocate v value).1 := by
    intro same
    rw [← same] at fresh
    exact fresh shape.zero_live
  refine
    { graph := ?_
      keys := ?_
      mapped := ?_
      live := ?_
      looseLive := ?_
      zero := ?_
      revMap_length := ?_
      potential_length := ?_ }
  · rw [allocate_g]
    exact shape.graph.newVertex
  · rw [allocate_vertMap]
    exact shape.keys
  · intro w vert
    have same : (s.allocate v value).2.tryAt w = s.tryAt w := by
      unfold tryAt
      rw [allocate_vertMap]
    rw [same, shape.mapped, revMap vert]
    by_cases new : vert = (s.allocate v value).1
    · rw [if_pos new]
      constructor
      · rintro ⟨mapped, _⟩
        rw [new] at mapped
        exact absurd ((shape.live _).mp (Or.inr ⟨w, mapped⟩)) fresh
      · rintro ⟨_, notLoose⟩
        exact absurd (Or.inr new) notLoose
    · rw [if_neg new]
      simp [new]
  · intro vert
    rw [live vert, revMap vert, ← shape.live vert]
    by_cases new : vert = (s.allocate v value).1
    · simp [new]
    · simp [new]
  · intro vert isLoose
    rw [live vert]
    exact isLoose.imp (shape.looseLive vert) id
  · rw [revMap 0, if_neg zeroOther]
    exact shape.zero
  · rw [allocate_g]
    unfold SplitDbm.allocate
    dsimp only
    rcases shape.graph.newVertex_size with ⟨below, size⟩ | ⟨atEnd, size⟩
    · rw [if_pos (by rw [shape.revMap_length]; exact below), size]
      simp [shape.revMap_length]
    · rw [if_neg (by rw [shape.revMap_length, atEnd]; exact lt_irrefl _), size]
      simp [shape.revMap_length]
  · rw [allocate_g]
    unfold SplitDbm.allocate
    dsimp only
    rcases shape.graph.newVertex_size with ⟨below, size⟩ | ⟨atEnd, size⟩
    · rw [if_pos (by rw [shape.revMap_length]; exact below), size]
      simp [shape.potential_length]
    · rw [if_neg (by rw [shape.revMap_length, atEnd]; exact lt_irrefl _), size]
      simp [shape.potential_length]

end Allocate

theorem Shape.tryAt_emplace (shape : Shape loose s) {v : V} (absent : s.tryAt v = none)
    (vert : Nat) (w : V)
    (other : Nat) : { s with vertMap := SplitDbm.emplace s.vertMap v vert }.tryAt w = some other ↔
      (w = v ∧ other = vert) ∨ s.tryAt w = some other := by
  rw [shape.tryAt_iff_mem]
  unfold tryAt
  dsimp only
  rw [lookup_eq_some_iff (keys_emplace absent shape.keys), mem_emplace absent, Prod.mk.injEq]

/-- Mapping a variable without a vertex to a loose vertex of its own. -/
theorem Shape.emplace {v : V} {vert : Nat}
    (shape : Shape (fun other => loose other ∨ other = vert) s)
    (absent : s.tryAt v = none) (owned : s.revMap[vert]? = some (some v)) (fresh : ¬ loose vert) :
    Shape loose { s with vertMap := SplitDbm.emplace s.vertMap v vert } := by
  have keys := @keys_emplace V _ s.vertMap v vert absent shape.keys
  refine
    { graph := shape.graph
      keys := keys
      mapped := ?_
      live := shape.live
      looseLive := fun other isLoose => shape.looseLive other (Or.inl isLoose)
      zero := shape.zero
      revMap_length := shape.revMap_length
      potential_length := shape.potential_length }
  intro w other
  rw [shape.tryAt_emplace absent]
  dsimp only
  by_cases same : other = vert
  · subst same
    rw [owned]
    constructor
    · rintro (⟨rfl, _⟩ | found)
      · exact ⟨rfl, fresh⟩
      · exact absurd (Or.inr rfl) ((shape.mapped w other).mp found).2
    · rintro ⟨equal, _⟩
      cases equal
      exact Or.inl ⟨rfl, rfl⟩
  · rw [shape.mapped]
    simp [same]

end Shape

/-! ## `get_vert` -/

section GetVert

variable {loose : Nat -> Prop} {s : SplitDbm V} (shape : Shape loose s) (v : V)

/-- What `get_vert` changes: nothing, or one vertex without edges is new. -/
theorem getVert_cases : (exists vert, s.tryAt v = some vert ∧ s.getVert v = (vert, s)) ∨
    (s.tryAt v = none ∧ (s.getVert v).1 = (s.allocate v 0).1 ∧
      (s.getVert v).2 = { (s.allocate v 0).2 with
      vertMap := SplitDbm.emplace s.vertMap v (s.allocate v 0).1 }) := by
  unfold getVert
  cases found : s.tryAt v with
  | some vert => exact Or.inl ⟨vert, rfl, rfl⟩
  | none =>
      refine Or.inr ⟨rfl, rfl, ?_⟩
      dsimp only
      rw [allocate_vertMap]

theorem getVert_lookup : (s.getVert v).2.g.lookup = s.g.lookup := by
  rcases getVert_cases (s := s) v with ⟨vert, _, same⟩ | ⟨_, _, next⟩
  · rw [same]
  · rw [next]
    exact allocate_lookup v 0

include shape

theorem Shape.getVert : Shape loose (s.getVert v).2 := by
  rcases getVert_cases (s := s) v with ⟨vert, _, same⟩ | ⟨absent, _, next⟩
  · rw [same]
    exact shape
  · rw [next]
    have allocated := shape.allocate v 0
    rw [← allocate_vertMap v 0]
    apply allocated.emplace
    · unfold tryAt
      rw [allocate_vertMap]
      exact absent
    · rw [allocate_revMap shape v 0, if_pos rfl]
    · intro isLoose
      exact allocate_not_live v 0 (shape.looseLive _ isLoose)

theorem tryAt_getVert (w : V) (vert : Nat) :
    (s.getVert v).2.tryAt w = some vert ↔ (w = v ∧ vert = (s.getVert v).1) ∨
      s.tryAt w = some vert := by
  rcases getVert_cases (s := s) v with ⟨old, found, same⟩ | ⟨absent, first, next⟩
  · rw [same]
    constructor
    · exact Or.inr
    · rintro (⟨rfl, rfl⟩ | here)
      · exact found
      · exact here
  · rw [first, next, shape.tryAt_iff_mem]
    unfold tryAt
    dsimp only
    rw [lookup_eq_some_iff (keys_emplace absent shape.keys), mem_emplace absent, Prod.mk.injEq]

theorem tryAt_getVert_self : (s.getVert v).2.tryAt v = some (s.getVert v).1 :=
  (tryAt_getVert shape v v _).mpr (Or.inl ⟨rfl, rfl⟩)

theorem getVert_live {vert : Nat} (live : s.g.Live vert) : (s.getVert v).2.g.Live vert := by
  rcases getVert_cases (s := s) v with ⟨old, _, same⟩ | ⟨_, _, next⟩
  · rw [same]
    exact live
  · rw [next]
    exact (allocate_live shape v 0 vert).mpr (Or.inl live)

/-- The potential and the values of the vertices that were there stay. -/
theorem getVert_potentialOf {vert : Nat} (live : s.g.Live vert) :
    (s.getVert v).2.potentialOf vert = s.potentialOf vert := by
  rcases getVert_cases (s := s) v with ⟨old, _, same⟩ | ⟨_, _, next⟩
  · rw [same]
  · have different : vert ≠ (s.allocate v 0).1 := fun same => allocate_not_live v 0 (same ▸ live)
    rw [next]
    exact (allocate_potentialOf shape v 0 vert).trans (if_neg different)

theorem getVert_revMap {vert : Nat} (live : s.g.Live vert) :
    (s.getVert v).2.revMap[vert]? = s.revMap[vert]? := by
  rcases getVert_cases (s := s) v with ⟨old, _, same⟩ | ⟨_, _, next⟩
  · rw [same]
  · have different : vert ≠ (s.allocate v 0).1 := fun same => allocate_not_live v 0 (same ▸ live)
    rw [next]
    exact (allocate_revMap shape v 0 vert).trans (if_neg different)

theorem getVert_vertexValue (values : V -> Int) {vert : Nat} (live : s.g.Live vert) :
    (s.getVert v).2.vertexValue values vert = s.vertexValue values vert := by
  unfold vertexValue
  rw [getVert_revMap shape v live]

theorem getVert_potValue (w : V) : (s.getVert v).2.potValue w = s.potValue w := by
  unfold potValue
  cases found : s.tryAt w with
  | some vert =>
      rw [(tryAt_getVert shape v w vert).mpr (Or.inr found)]
      exact getVert_potentialOf shape v (shape.live_of_tryAt found)
  | none =>
      cases later : (s.getVert v).2.tryAt w with
      | none => rfl
      | some vert =>
          rcases (tryAt_getVert shape v w vert).mp later with ⟨rfl, rfl⟩ | earlier
          · rcases getVert_cases (s := s) w with ⟨old, here, _⟩ | ⟨_, first, next⟩
            · rw [found] at here
              cases here
            · rw [first, next]
              exact (allocate_potentialOf shape w 0 _).trans (if_pos rfl)
          · rw [found] at earlier
            cases earlier

theorem getVert_valid (valid : s.ValidPotential) : (s.getVert v).2.ValidPotential := by
  unfold ValidPotential
  rw [getVert_lookup]
  exact Models.congr shape.graph.ends
    (fun vert live => (getVert_potentialOf shape v live).symm) valid

theorem getVert_represents (values : V -> Int) :
    (s.getVert v).2.Represents values ↔ s.Represents values := by
  unfold Represents
  rw [getVert_lookup]
  constructor
  · exact Models.congr shape.graph.ends (fun vert live => getVert_vertexValue shape v values live)
  · exact Models.congr shape.graph.ends
      (fun vert live => (getVert_vertexValue shape v values live).symm)

end GetVert

theorem Invariant.getVert {s : SplitDbm V} (invariant : Invariant s) (v : V) :
    Invariant (s.getVert v).2 :=
  ⟨Shape.getVert invariant.wellFormed v, getVert_valid invariant.wellFormed v invariant.valid⟩

/-! ## Other edges between the same vertices -/

section Edges

variable {loose : Nat -> Prop} {s : SplitDbm V}

theorem Shape.with_graph (shape : Shape loose s) {g : AdaptGraph} (wellFormed : g.WellFormed)
    (size : g.size = s.g.size) (freeId : g.freeId = s.g.freeId) :
    Shape loose { s with g := g } := by
  have live : forall vert, g.Live vert ↔ s.g.Live vert := by
    intro vert
    unfold AdaptGraph.Live
    rw [size, freeId]
  exact
    { graph := wellFormed
      keys := shape.keys
      mapped := shape.mapped
      live := fun vert => (shape.live vert).trans (live vert).symm
      looseLive := fun vert isLoose => (live vert).mpr (shape.looseLive vert isLoose)
      zero := shape.zero
      revMap_length := shape.revMap_length.trans size.symm
      potential_length := shape.potential_length.trans size.symm }

theorem Shape.with_potential (shape : Shape loose s) {potential : List Int}
    (length : potential.length = s.potential.length) :
    Shape loose { s with potential := potential } :=
  { shape with potential_length := length.trans shape.potential_length }

theorem Shape.with_unstable (shape : Shape loose s) (unstable : List Nat) :
    Shape loose { s with unstable := unstable } := { shape with }

/-- Implied bounds change neither the shape nor the meaning of a state. -/
theorem Shape.applyDelta (shape : Shape loose s) {delta : GraphOps.EdgeVector}
    (improves : GraphOps.Improves s.g.lookup delta) :
    Shape loose { s with g := GraphOps.applyDelta s.g delta } :=
  shape.with_graph
    (shape.graph.of_tightens (by simp) (by simp) (improves.tightens_applyDelta (Tightens.refl _)))
    (by simp) (by simp)

theorem Shape.setEdge (shape : Shape loose s) {source target : Nat} (weight : Int)
    (sourceLive : s.g.Live source)
    (targetLive : s.g.Live target) : Shape loose { s with g := s.g.setEdge source weight target } :=
  shape.with_graph (shape.graph.setEdge sourceLive targetLive) rfl rfl

end Edges

/-- Other edges that imply the same bounds, and none besides. -/
theorem Invariant.of_tightens {s : SplitDbm V} (invariant : Invariant s) {g : AdaptGraph}
    (size : g.size = s.g.size)
    (freeId : g.freeId = s.g.freeId) (tightens : Tightens s.g.lookup g.lookup) :
    Invariant { s with g := g } :=
  ⟨Shape.with_graph invariant.wellFormed
    (invariant.wellFormed.graph.of_tightens size freeId tightens) size freeId,
    tightens.models_iff.mpr invariant.valid⟩

/-! ## `normalize` -/

section Normalize

variable {loose : Nat -> Prop} (s : SplitDbm V)

section Edges

omit [LinearOrder V]

theorem closeBounds_improves :
    GraphOps.Improves s.g.lookup (GraphOps.closeAfterAssign s.g.view s.potentialOf 0) :=
  GraphOps.closeAfterAssign_improves

theorem closeRelations_improves :
    GraphOps.Improves s.g.lookup (GraphOps.closeAfterWiden (s.g.view.exclude 0) s.potentialOf
      (fun vert => decide (vert ∈ s.unstable))) :=
  GraphOps.Improves.of_exclude GraphOps.closeAfterWiden_improves

theorem closeBounds_tightens : Tightens s.g.lookup s.closeBounds.g.lookup :=
  (closeBounds_improves s).tightens_applyDelta (Tightens.refl _)

theorem closeRelations_tightens : Tightens s.g.lookup s.closeRelations.g.lookup :=
  (closeRelations_improves s).tightens_applyDelta (Tightens.refl _)

theorem normalize_tightens : Tightens s.g.lookup s.normalize.g.lookup := by
  unfold normalize
  split
  · exact Tightens.refl _
  · exact (closeRelations_tightens s).trans (closeBounds_tightens s.closeRelations)

theorem normalize_of_stable {s : SplitDbm V} (stable : s.unstable = []) : s.normalize = s := by
  unfold normalize
  rw [stable]
  rfl

@[simp] theorem normalize_vertMap : s.normalize.vertMap = s.vertMap := by
  unfold normalize
  split <;> rfl

@[simp] theorem normalize_revMap : s.normalize.revMap = s.revMap := by
  unfold normalize
  split <;> rfl

@[simp] theorem normalize_potential : s.normalize.potential = s.potential := by
  unfold normalize
  split <;> rfl

@[simp] theorem normalize_size : s.normalize.g.size = s.g.size := by
  unfold normalize
  split <;> simp [closeBounds, closeRelations]

@[simp] theorem normalize_freeId : s.normalize.g.freeId = s.g.freeId := by
  unfold normalize
  split <;> simp [closeBounds, closeRelations]

@[simp] theorem normalize_potentialOf : s.normalize.potentialOf = s.potentialOf := by
  funext vert
  simp [potentialOf]

@[simp] theorem normalize_vertexValue (values : V -> Int) :
    s.normalize.vertexValue values = s.vertexValue values := by
  funext vert
  simp [vertexValue]

end Edges

@[simp] theorem normalize_tryAt (v : V) : s.normalize.tryAt v = s.tryAt v := by
  simp [tryAt]

variable {s}

theorem Shape.closeBounds (shape : Shape loose s) : Shape loose s.closeBounds :=
  shape.applyDelta (closeBounds_improves s)

theorem Shape.normalize (shape : Shape loose s) : Shape loose s.normalize := by
  unfold SplitDbm.normalize
  split
  · exact shape
  · exact (shape.applyDelta (closeRelations_improves s)).closeBounds.with_unstable []

omit [LinearOrder V] in
theorem models_normalize {vertexValues : Nat -> Int} :
    Models s.normalize.g.lookup vertexValues ↔ Models s.g.lookup vertexValues :=
  (normalize_tightens s).models_iff

theorem Invariant.closeBounds (invariant : Invariant s) : Invariant s.closeBounds :=
  ⟨Shape.closeBounds invariant.wellFormed, (closeBounds_tightens s).models_iff.mpr invariant.valid⟩

theorem Invariant.normalize (invariant : Invariant s) : Invariant s.normalize := by
  refine ⟨Shape.normalize invariant.wellFormed, ?_⟩
  unfold ValidPotential
  rw [normalize_potentialOf]
  exact models_normalize.mpr invariant.valid

omit [LinearOrder V] in
theorem represents_closeBounds (values : V -> Int) :
    s.closeBounds.Represents values ↔ s.Represents values :=
  (closeBounds_tightens s).models_iff

omit [LinearOrder V] in
theorem represents_normalize (values : V -> Int) :
    s.normalize.Represents values ↔ s.Represents values := by
  unfold Represents
  rw [normalize_vertexValue]
  exact models_normalize

end Normalize

/-! ## The state without constraints -/

theorem invariant_top : Invariant (top : SplitDbm V) := by
  have noEdge : forall source target, (top : SplitDbm V).g.lookup source target = none :=
    fun _ _ => rfl
  refine ⟨?_, fun source target weight here => by simp [noEdge] at here⟩
  refine
    { graph := AdaptGraph.wellFormed_ofSize 1
      keys := List.nodup_nil
      mapped := ?_
      live := ?_
      looseLive := fun _ => False.elim
      zero := rfl
      revMap_length := rfl
      potential_length := rfl }
  · intro v vert
    cases vert <;> simp [tryAt, top]
  · intro vert
    cases vert <;> simp [top, AdaptGraph.ofSize, AdaptGraph.Live]

omit [LinearOrder V] in
theorem represents_top (values : V -> Int) : (top : SplitDbm V).Represents values := by
  intro source target weight here
  cases here

end SplitDbm
end Crab
end Prevail
