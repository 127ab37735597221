import Prevail.Crab.SplitDbm.Entailment
import Prevail.Crab.SplitDbm.Removal

namespace Prevail
namespace Crab
namespace SplitDbm

open DifferenceBounds

/-!
# Assignments

`set` gives a variable a vertex of its own with the bounds of an interval.
`assign` first allocates a vertex for the new value, which is loose as long as
the variable is mapped to the old one.  Differences between the new value and
other variables, the old value of the variable among them, become edges of this
vertex; then the old vertex is removed and the variable is mapped to the new
one.

Each edge of the new vertex is met by the value of the expression, for every
assignment that the state represents.  The potential is one of these
assignments, and the potential of the new vertex is the value of the expression
under it, so the potential stays valid for the same reason.
-/

variable {V : Type} [LinearOrder V] {loose : Nat -> Prop} {s : SplitDbm V}

omit [LinearOrder V] in
theorem potentialOf_set {vert : Nat} (inside : vert < s.potential.length) (value : Int)
    (other : Nat) :
    (s.potential.set vert value).getD other 0 = if other = vert then value
      else s.potentialOf other := by
  unfold potentialOf
  rw [List.getD_eq_getElem?_getD, List.getD_eq_getElem?_getD, List.getElem?_set]
  by_cases same : other = vert
  · rw [if_pos same.symm, if_pos inside, if_pos same]
    rfl
  · rw [if_neg (Ne.symm same), if_neg same]

/-! ## `set` -/

section Set

/-- The edges of a vertex that got the bounds of an interval. -/
structure Bounded (t : SplitDbm V) (v : Nat) (intv : Interval) (next : SplitDbm V) : Prop where
  vertMap : next.vertMap = t.vertMap
  revMap : next.revMap = t.revMap
  size : next.g.size = t.g.size
  freeId : next.g.freeId = t.g.freeId
  length : next.potential.length = t.potential.length
  edge : forall source target weight, next.g.lookup source target = some weight ->
    t.g.lookup source target = some weight ∨
      (source = 0 ∧ target = v ∧ intv.ub = .ofNumber weight) ∨
      (source = v ∧ target = 0 ∧ intv.lb = .ofNumber (-weight))
  others : forall other, other ≠ v -> next.potentialOf other = t.potentialOf other

variable {t next : SplitDbm V} {v : Nat} {intv : Interval}

omit [LinearOrder V] in
theorem Bounded.models (bounded : Bounded t v intv next) {vertexValues : Nat -> Int}
    (models : Models t.g.lookup vertexValues) (inside : vertexValues v - vertexValues 0 ∈ intv) :
    Models next.g.lookup vertexValues := by
  intro source target weight here
  rcases bounded.edge _ _ _ here with old | ⟨rfl, rfl, upper⟩ | ⟨rfl, rfl, lower⟩
  · exact models _ _ _ old
  · have below := inside.2
    rw [upper, Bound.ofNumber_le_ofNumber] at below
    omega
  · have above := inside.1
    rw [lower, Bound.ofNumber_le_ofNumber] at above
    omega

theorem Bounded.shape (bounded : Bounded t v intv next) (shape : Shape loose t)
    (live : t.g.Live v) :
    Shape loose next := by
  have graph : next.g.WellFormed := by
    apply shape.graph.with_edges bounded.size bounded.freeId
    intro source target weight here
    rcases bounded.edge _ _ _ here with old | ⟨rfl, rfl, _⟩ | ⟨rfl, rfl, _⟩
    · exact shape.graph.ends _ _ _ old
    · exact ⟨shape.zero_live, live⟩
    · exact ⟨live, shape.zero_live⟩
  have sameLive : forall vert, next.g.Live vert ↔ t.g.Live vert := by
    intro vert
    unfold AdaptGraph.Live
    rw [bounded.size, bounded.freeId]
  refine
    { graph := graph
      keys := ?_
      mapped := ?_
      live := ?_
      looseLive := fun vert isLoose => (sameLive vert).mpr (shape.looseLive vert isLoose)
      zero := ?_
      revMap_length := ?_
      potential_length := ?_ }
  · rw [bounded.vertMap]
    exact shape.keys
  · unfold tryAt
    rw [bounded.vertMap, bounded.revMap]
    exact shape.mapped
  · intro vert
    rw [bounded.revMap, sameLive]
    exact shape.live vert
  · rw [bounded.revMap]
    exact shape.zero
  · rw [bounded.revMap, bounded.size]
    exact shape.revMap_length
  · rw [bounded.length, bounded.size]
    exact shape.potential_length

/-- An end of the interval is the value of the variable under the potential. -/
structure BoundedAt (t : SplitDbm V) (v : Nat) (intv : Interval) (next : SplitDbm V) : Prop
    extends Bounded t v intv next where
  value : exists n, (intv.lb = .ofNumber n ∨ intv.ub = .ofNumber n) ∧
    next.potentialOf v = t.potentialOf 0 + n

omit [LinearOrder V] in
theorem Bounded.refl (t : SplitDbm V) (v : Nat) (intv : Interval) : Bounded t v intv t :=
  ⟨rfl, rfl, rfl, rfl, rfl, fun _ _ _ => Or.inl, fun _ _ => rfl⟩

omit [LinearOrder V] in
theorem Bounded.setUpper (bounded : Bounded t v intv next) (inside : v < t.potential.length)
    (nonzero : v ≠ 0) {ub : Int} (upper : intv.ub = .ofNumber ub) :
    BoundedAt t v intv
      { next with
        potential := next.potential.set v (next.potentialOf 0 + ub)
        g := next.g.setEdge 0 ub v } := by
  have values := @potentialOf_set V next v (by rw [bounded.length]; exact inside)
    (next.potentialOf 0 + ub)
  refine
    { vertMap := bounded.vertMap
      revMap := bounded.revMap
      size := bounded.size
      freeId := bounded.freeId
      length := by simp [bounded.length]
      edge := ?_
      others := ?_
      value := ⟨ub, Or.inr upper, ?_⟩ }
  · intro source target weight here
    rcases set_cases here with ⟨rfl, rfl, rfl⟩ | old
    · exact Or.inr (Or.inl ⟨rfl, rfl, upper⟩)
    · exact bounded.edge _ _ _ old
  · intro other different
    exact (values other).trans ((if_neg different).trans (bounded.others other different))
  · rw [← bounded.others 0 nonzero.symm]
    exact (values v).trans (if_pos rfl)

omit [LinearOrder V] in
theorem Bounded.setLower (bounded : Bounded t v intv next) (inside : v < t.potential.length)
    (nonzero : v ≠ 0) {lb : Int} (lower : intv.lb = .ofNumber lb) :
    BoundedAt t v intv
      { next with
        potential := next.potential.set v (next.potentialOf 0 + lb)
        g := next.g.setEdge v (-lb) 0 } := by
  have values := @potentialOf_set V next v (by rw [bounded.length]; exact inside)
    (next.potentialOf 0 + lb)
  refine
    { vertMap := bounded.vertMap
      revMap := bounded.revMap
      size := bounded.size
      freeId := bounded.freeId
      length := by simp [bounded.length]
      edge := ?_
      others := ?_
      value := ⟨lb, Or.inl lower, ?_⟩ }
  · intro source target weight here
    rcases set_cases here with ⟨rfl, rfl, rfl⟩ | old
    · exact Or.inr (Or.inr ⟨rfl, rfl, by rw [lower, neg_neg]⟩)
    · exact bounded.edge _ _ _ old
  · intro other different
    exact (values other).trans ((if_neg different).trans (bounded.others other different))
  · rw [← bounded.others 0 nonzero.symm]
    exact (values v).trans (if_pos rfl)

/-- `set`, where the interval has a bound. -/
theorem set_bounded (s : SplitDbm V) (x : V) (intv : Interval) (notTop : ¬ intv.IsTop)
    (inside : ((s.remove x).getVert x).1 < ((s.remove x).getVert x).2.potential.length)
    (nonzero : ((s.remove x).getVert x).1 ≠ 0) :
    exists next, BoundedAt ((s.remove x).getVert x).2 ((s.remove x).getVert x).1 intv next ∧
      s.set x intv = next.normalize := by
  unfold set
  dsimp only
  rw [if_neg notTop]
  revert inside nonzero
  generalize ((s.remove x).getVert x).2 = t
  generalize ((s.remove x).getVert x).1 = v
  intro inside nonzero
  have start := Bounded.refl t v intv
  cases upper : intv.ub.number with
  | none =>
      cases lower : intv.lb.number with
      | none => exact absurd ⟨lower, upper⟩ notTop
      | some lb => exact ⟨_, start.setLower inside nonzero (Bound.number_eq_some.mp lower), rfl⟩
  | some ub =>
      have first := start.setUpper inside nonzero (Bound.number_eq_some.mp upper)
      cases lower : intv.lb.number with
      | none => exact ⟨_, first, rfl⟩
      | some lb =>
          exact ⟨_, first.toBounded.setLower inside nonzero (Bound.number_eq_some.mp lower), rfl⟩

/-- The vertex that `set` uses has no edge yet. -/
theorem getVert_remove_fresh (invariant : Invariant s) (x : V) :
    ¬ (s.remove x).g.Live ((s.remove x).getVert x).1 := by
  rcases getVert_cases (s := s.remove x) x with ⟨vert, found, _⟩ | ⟨_, first, _⟩
  · rw [tryAt_remove_self invariant.wellFormed x] at found
    cases found
  · rw [first]
    exact allocate_not_live x 0

theorem mem_of_end {n : Int} (nonempty : ¬ intv.IsBottom)
    (isEnd : intv.lb = .ofNumber n ∨ intv.ub = .ofNumber n) :
    n ∈ intv := by
  have ordered : intv.lb ≤ intv.ub := not_lt.mp nonempty
  rcases isEnd with lower | upper
  · rw [lower] at ordered
    exact ⟨le_of_eq lower, ordered⟩
  · rw [upper] at ordered
    exact ⟨ordered, ge_of_eq upper⟩

/-- `set` keeps the invariant, and represents the assignments whose variable has
a value of the interval. -/
theorem set_spec (invariant : Invariant s) (x : V) (nonempty : ¬ intv.IsBottom) :
    Invariant (s.set x intv) ∧ forall values others : V -> Int, s.Represents values ->
      (forall w, w ≠ x -> others w = values w) -> others x ∈ intv ->
        (s.set x intv).Represents others := by
  have removed := invariant.remove x
  by_cases isTop : intv.IsTop
  · unfold SplitDbm.set
    dsimp only
    rw [if_pos isTop]
    exact ⟨removed, fun values others represents agree _ =>
      represents_remove invariant x represents agree⟩
  have fetched := removed.getVert x
  have found := tryAt_getVert_self removed.wellFormed x
  have live := Shape.live_of_tryAt fetched.wellFormed found
  have nonzero := Shape.ne_zero_of_tryAt fetched.wellFormed found
  have fresh := getVert_remove_fresh invariant x
  have inside : ((s.remove x).getVert x).1 < ((s.remove x).getVert x).2.potential.length := by
    rw [fetched.wellFormed.potential_length]
    exact live.1
  rcases set_bounded s x intv isTop inside nonzero with ⟨next, bounded, result⟩
  rw [result]
  have zero := bounded.others 0 nonzero.symm
  refine ⟨Invariant.normalize ⟨bounded.toBounded.shape fetched.wellFormed live, ?_⟩, ?_⟩
  · apply bounded.toBounded.models
    · rw [getVert_lookup]
      apply removed.valid.congr removed.wellFormed.graph.ends
      intro vert vertLive
      have different : vert ≠ ((s.remove x).getVert x).1 := fun same => fresh (same ▸ vertLive)
      rw [bounded.others vert different]
      exact (getVert_potentialOf removed.wellFormed x vertLive).symm
    · rcases bounded.value with ⟨n, isEnd, value⟩
      rw [value, zero, add_sub_cancel_left]
      exact mem_of_end nonempty isEnd
  · intro values others represents agree member
    have before := (getVert_represents removed.wellFormed x others).mpr
      (represents_remove invariant x represents agree)
    have sameValue : next.vertexValue others = ((s.remove x).getVert x).2.vertexValue others := by
      funext vert
      unfold vertexValue
      rw [bounded.revMap]
    rw [represents_normalize]
    unfold Represents
    rw [sameValue]
    apply bounded.toBounded.models before
    rw [Shape.vertexValue_of_tryAt fetched.wellFormed others found,
      Shape.vertexValue_zero fetched.wellFormed, sub_zero]
    exact member

end Set

/-! ## The differences of an assignment -/

section Differences

variable {values : V -> Int}

/-- The order of a value and its bound on the chosen side. -/
def Within (upper : Bool) (value bound : Int) : Prop := if upper then value ≤ bound
    else bound ≤ value

/-- The value of the terms so far is within the sum of the bounds, also where the
bound of one variable is replaced by its value. -/
structure AssignTerms.Collects (upper : Bool) (state : AssignTerms V) (values : V -> Int)
    (value : Int) : Prop where
  total : Within upper value (state.residual + state.unboundedVar.elim 0 values)
  terms : ∀ term ∈ state.terms,
    Within upper value (state.residual + state.unboundedVar.elim 0 values - term.2 + values term.1)

theorem within_near {upper : Bool} {interval : Interval} {value n : Int} (inside : value ∈ interval)
    (bound : (if upper then interval.lb else interval.ub).number = some n) :
    Within upper n value := by
  have chosen := Bound.number_eq_some.mp bound
  cases upper with
  | true => exact Bound.ofNumber_le_ofNumber.mp (le_of_eq_of_le chosen.symm inside.1)
  | false => exact Bound.ofNumber_le_ofNumber.mp (le_of_le_of_eq inside.2 chosen)

theorem within_far {upper : Bool} {interval : Interval} {value n : Int} (inside : value ∈ interval)
    (bound : (if upper then interval.ub else interval.lb).number = some n) :
    Within upper value n := by
  have chosen := Bound.number_eq_some.mp bound
  cases upper with
  | true => exact Bound.ofNumber_le_ofNumber.mp (le_of_le_of_eq inside.2 chosen)
  | false => exact Bound.ofNumber_le_ofNumber.mp (le_of_eq_of_le chosen.symm inside.1)

theorem within_add {upper : Bool} {first second firstBound secondBound : Int}
    (left : Within upper first firstBound)
    (right : Within upper second secondBound) :
    Within upper (first + second) (firstBound + secondBound) := by
  cases upper with
  | true => exact add_le_add left right
  | false => exact add_le_add left right

/-- A negative coefficient turns a bound around. -/
theorem within_mul_neg {upper : Bool} {coefficient value n : Int} (negative : coefficient < 0)
    (near : Within upper n value) : Within upper (coefficient * value) (n * coefficient) := by
  rw [mul_comm n]
  cases upper with
  | true => exact mul_le_mul_of_nonpos_left near negative.le
  | false => exact mul_le_mul_of_nonpos_left near negative.le

theorem within_mul_pos {upper : Bool} {coefficient value n : Int} (positive : 0 < coefficient)
    (far : Within upper value n) : Within upper (coefficient * value) (n * coefficient) := by
  rw [mul_comm n]
  cases upper with
  | true => exact mul_le_mul_of_nonneg_left far positive.le
  | false => exact mul_le_mul_of_nonneg_left far positive.le

/-- One of several equal parts of a term keeps its value. -/
theorem within_mul_but_one {upper : Bool} {coefficient value n : Int} (positive : 0 < coefficient)
    (far : Within upper value n) :
    Within upper (coefficient * value) (n * coefficient - n + value) := by
  have rest : 0 ≤ coefficient - 1 := by omega
  cases upper with
  | true =>
      simp only [Within, if_true] at far ⊢
      have scaled := mul_le_mul_of_nonneg_left far rest
      linarith
  | false =>
      simp only [Within, Bool.false_eq_true, if_false] at far ⊢
      have scaled := mul_le_mul_of_nonneg_left far rest
      linarith

theorem assignTerm_collects (shape : Shape loose s) (represents : s.Represents values)
    {upper : Bool}
    {state next : AssignTerms V} {value : Int} {term : V × Int} (nonzero : term.2 ≠ 0)
    (collects : state.Collects upper values value)
    (step : s.assignTerm upper state term = some next) :
    next.Collects upper values (value + term.2 * values term.1) := by
  have inside := shape.mem_getInterval represents term.1
  unfold assignTerm at step
  dsimp only at step
  split at step
  · rename_i negative
    split at step
    · cases step
    · rename_i n bound
      cases step
      have part := within_mul_neg negative (within_near inside bound)
      constructor
      · have sum := within_add collects.total part
        rwa [add_right_comm] at sum
      · intro other member
        have sum := within_add (collects.terms other member) part
        convert sum using 1
        ring
  · rename_i notNegative
    have positive : 0 < term.2 := by omega
    split at step
    · split at step
      · cases step
      · rename_i notSecond
        rw [not_or] at notSecond
        cases step
        have one : term.2 = 1 := not_not.mp notSecond.2
        have empty : state.unboundedVar = none := by simpa using notSecond.1
        have part : Within upper (term.2 * values term.1) (values term.1) := by
          rw [one, one_mul]
          unfold Within
          split <;> exact le_refl _
        have total := collects.total
        rw [empty, Option.elim_none, add_zero] at total
        constructor
        · exact within_add total part
        · intro other member
          have old := collects.terms other member
          rw [empty, Option.elim_none, add_zero] at old
          have sum := within_add old part
          convert sum using 1
          simp only [Option.elim_some]
          ring
    · rename_i n bound
      cases step
      have far := within_far inside bound
      have part := within_mul_pos positive far
      constructor
      · have sum := within_add collects.total part
        rwa [add_right_comm] at sum
      · intro other member
        rcases List.mem_append.mp member with earlier | last
        · have sum := within_add (collects.terms other earlier) part
          convert sum using 1
          ring
        · rw [List.mem_singleton.mp last]
          have sum := within_add collects.total (within_mul_but_one positive far)
          convert sum using 1
          ring

/-- The differences are met by the value of the expression. -/
theorem diffcstsOfAssign_within (shape : Shape loose s) (represents : s.Represents values)
    {exp : LinearExpression V} (wellFormed : exp.WellFormed) (upper : Bool) :
    ∀ diff ∈ s.diffcstsOfAssign exp upper,
      Within upper (exp.eval values) (diff.2 + values diff.1) := by
  have run : forall (terms : List (V × Int)) (state final : AssignTerms V) (value : Int),
      (∀ term ∈ terms, term.2 ≠ 0) -> state.Collects upper values value ->
      terms.foldlM (s.assignTerm upper) state = some final ->
      final.Collects upper values (value + LinearExpression.evalTerms values terms) := by
    intro terms
    induction terms with
    | nil =>
        intro state final value _ collects last
        cases last
        simpa [LinearExpression.evalTerms] using collects
    | cons term rest inductionHypothesis =>
        intro state final value nonzero collects steps
        rw [List.foldlM_cons, Option.bind_eq_bind, Option.bind_eq_some_iff] at steps
        rcases steps with ⟨next, step, steps⟩
        have first := assignTerm_collects shape represents (nonzero term
          List.mem_cons_self) collects step
        have last := inductionHypothesis next final _
          (fun other member => nonzero other (List.mem_cons_of_mem _ member)) first steps
        simpa [LinearExpression.evalTerms, add_assoc] using last
  have start : AssignTerms.Collects upper ⟨exp.constantTerm, none, []⟩ values exp.constantTerm := by
    refine ⟨?_, by simp⟩
    simp only [Option.elim_none, add_zero]
    unfold Within
    split <;> exact le_refl _
  intro diff member
  unfold diffcstsOfAssign at member
  split at member
  · cases member
  · rename_i residual unboundedVar terms final
    have total := (run _ _ _ _ wellFormed.nonzero start final).total
    rw [List.mem_singleton.mp member]
    exact total
  · rename_i residual terms final
    have all := (run _ _ _ _ wellFormed.nonzero start final).terms
    rcases List.mem_map.mp member with ⟨term, inside, rfl⟩
    have one := all term inside
    simp only [Option.elim_none, add_zero] at one
    exact one

end Differences

/-! ## Edges that values meet -/

section Edges

variable {g : AdaptGraph} {vertexValues : Nat -> Int}

theorem models_applyDelta {delta : GraphOps.EdgeVector} (models : Models g.lookup vertexValues)
    (fits : ∀ edge ∈ delta, vertexValues edge.2.1 ≤ vertexValues edge.1 + edge.2.2) :
    Models (GraphOps.applyDelta g delta).lookup vertexValues := by
  unfold GraphOps.applyDelta
  induction delta generalizing g with
  | nil => exact models
  | cons edge rest inductionHypothesis =>
      apply inductionHypothesis
      · exact models.set (fits edge List.mem_cons_self)
      · exact fun other member => fits other (List.mem_cons_of_mem _ member)

theorem Shape.applyDelta_of_live (shape : Shape loose s) {delta : GraphOps.EdgeVector}
    (live : ∀ edge ∈ delta, s.g.Live edge.1 ∧ s.g.Live edge.2.1) :
    Shape loose { s with g := GraphOps.applyDelta s.g delta } := by
  unfold GraphOps.applyDelta
  induction delta generalizing s with
  | nil => exact shape
  | cons edge rest inductionHypothesis =>
      have here := live edge List.mem_cons_self
      exact @inductionHypothesis { s with g := s.g.setEdge edge.1 edge.2.2 edge.2.1 }
        (shape.setEdge edge.2.2 here.1 here.2)
        (fun other member => live other (List.mem_cons_of_mem _ member))

theorem models_updateEdge {source target : Nat} {weight : Int}
    (models : Models g.lookup vertexValues)
    (fits : vertexValues target ≤ vertexValues source + weight) :
    Models (g.updateEdge source weight target).lookup vertexValues := by
  rcases g.updateEdge_eq source target weight with ⟨lower, _, _, choice, updated⟩
  rw [updated]
  apply models.set
  rcases choice with rfl | there
  · exact fits
  · exact models _ _ _ there

theorem Shape.updateEdge (shape : Shape loose s) {source target : Nat} (weight : Int)
    (sourceLive : s.g.Live source)
    (targetLive : s.g.Live target) :
    Shape loose { s with g := s.g.updateEdge source weight target } := by
  rcases s.g.updateEdge_eq source target weight with ⟨lower, _, _, _, updated⟩
  rw [updated]
  exact shape.setEdge lower sourceLive targetLive

end Edges

/-! ## The new vertex -/

/-- The values of the vertices, with the value of the expression for the new
vertex. -/
def assignedValue (t : SplitDbm V) (vert : Nat) (e : LinearExpression V) (values : V -> Int) :
    Nat -> Int :=
  Function.update (t.vertexValue values) vert (e.eval values)

/-- The vertex holds the value of the expression, and the rest of the state is
as in the state before. -/
structure Assigning (s : SplitDbm V) (lhs : V) (e : LinearExpression V) (vert : Nat)
    (t : SplitDbm V) : Prop where
  shape : Shape (fun other => other = vert) t
  owned : t.revMap[vert]? = some (some lhs)
  potential : t.potentialOf vert = s.potentialOf 0 + s.evalExpression e
  zero : t.potentialOf 0 = s.potentialOf 0
  potValue : forall w, t.potValue w = s.potValue w
  models : forall values, s.Represents values -> Models t.g.lookup (assignedValue t vert e values)

/-- An edge between vertices of the state that the new value and all others
meet. -/
structure EdgeFits (s : SplitDbm V) (e : LinearExpression V) (vert : Nat) (t : SplitDbm V)
    (edge : Nat × Nat × Int) :
    Prop where
  source : t.g.Live edge.1
  target : t.g.Live edge.2.1
  bound : forall values, s.Represents values ->
    assignedValue t vert e values edge.2.1 ≤ assignedValue t vert e values edge.1 + edge.2.2

section NewVertex

variable {lhs : V} {e : LinearExpression V} {vert : Nat} {t : SplitDbm V} {values : V -> Int}

omit [LinearOrder V] in
theorem assignedValue_self : assignedValue t vert e values vert = e.eval values :=
  Function.update_self ..

omit [LinearOrder V] in
theorem assignedValue_of_ne {other : Nat} (different : other ≠ vert) :
    assignedValue t vert e values other = t.vertexValue values other :=
  Function.update_of_ne different ..

theorem Assigning.nonzero (assigning : Assigning s lhs e vert t) : vert ≠ 0 := by
  rintro rfl
  have owned := assigning.owned
  rw [assigning.shape.zero] at owned
  cases owned

theorem Assigning.live (assigning : Assigning s lhs e vert t) : t.g.Live vert :=
  assigning.shape.looseLive vert rfl

theorem Assigning.mapped (assigning : Assigning s lhs e vert t) {w : V} {other : Nat}
    (found : t.tryAt w = some other) : other ≠ vert := ((assigning.shape.mapped w other).mp found).2

theorem assigning_allocate (invariant : Invariant s) (lhs : V) (e : LinearExpression V) :
    Assigning s lhs e (s.allocate lhs (s.potentialOf 0 + s.evalExpression e)).1
      (s.allocate lhs (s.potentialOf 0 + s.evalExpression e)).2 := by
  have old := invariant.wellFormed
  have notLive := @allocate_not_live V s lhs (s.potentialOf 0 + s.evalExpression e)
  have shape := Shape.allocate old lhs (s.potentialOf 0 + s.evalExpression e)
  have revMap := allocate_revMap old lhs (s.potentialOf 0 + s.evalExpression e)
  have potentials := allocate_potentialOf old lhs (s.potentialOf 0 + s.evalExpression e)
  have lookup := @allocate_lookup V s lhs (s.potentialOf 0 + s.evalExpression e)
  have vertMap := @allocate_vertMap V s lhs (s.potentialOf 0 + s.evalExpression e)
  revert notLive shape revMap potentials lookup vertMap
  generalize (s.allocate lhs (s.potentialOf 0 + s.evalExpression e)).1 = vert
  generalize (s.allocate lhs (s.potentialOf 0 + s.evalExpression e)).2 = t
  intro notLive shape revMap potentials lookup vertMap
  have different : forall other, s.g.Live other -> other ≠ vert := by
    rintro other live rfl
    exact notLive live
  refine
    { shape := by simpa only [false_or] using shape
      owned := (revMap vert).trans (if_pos rfl)
      potential := (potentials vert).trans (if_pos rfl)
      zero := (potentials 0).trans (if_neg (different 0 (Shape.zero_live old)))
      potValue := ?_
      models := ?_ }
  · intro w
    have same : t.tryAt w = s.tryAt w := by
      unfold tryAt
      rw [vertMap]
    unfold potValue
    rw [same]
    cases found : s.tryAt w with
    | none => rfl
    | some other => exact (potentials other).trans (if_neg
      (different other (Shape.live_of_tryAt old found)))
  · intro values represents
    rw [lookup]
    apply Models.congr old.graph.ends ?_ represents
    intro other live
    rw [assignedValue_of_ne (different other live)]
    unfold vertexValue
    rw [revMap other, if_neg (different other live)]

theorem assignedValue_getVert (assigning : Assigning s lhs e vert t) (v : V) (values : V -> Int)
    {other : Nat} (live : t.g.Live other) :
    assignedValue (t.getVert v).2 vert e values other = assignedValue t vert e values other := by
  by_cases same : other = vert
  · rw [same, assignedValue_self, assignedValue_self]
  · rw [assignedValue_of_ne same, assignedValue_of_ne same,
      getVert_vertexValue assigning.shape v values live]

theorem Assigning.getVert (assigning : Assigning s lhs e vert t) (v : V) :
    Assigning s lhs e vert (t.getVert v).2 := by
  have shape := assigning.shape
  refine
    { shape := shape.getVert v
      owned := (getVert_revMap shape v assigning.live).trans assigning.owned
      potential := (getVert_potentialOf shape v assigning.live).trans assigning.potential
      zero := (getVert_potentialOf shape v shape.zero_live).trans assigning.zero
      potValue := fun w => (getVert_potValue shape v w).trans (assigning.potValue w)
      models := ?_ }
  intro values represents
  rw [getVert_lookup]
  exact (assigning.models values represents).congr shape.graph.ends
    (fun other live => (assignedValue_getVert assigning v values live).symm)

theorem EdgeFits.getVert (assigning : Assigning s lhs e vert t) (v : V) {edge : Nat × Nat × Int}
    (fits : EdgeFits s e vert t edge) : EdgeFits s e vert (t.getVert v).2 edge := by
  refine ⟨getVert_live assigning.shape v fits.source,
    getVert_live assigning.shape v fits.target, ?_⟩
  intro values represents
  rw [assignedValue_getVert assigning v values fits.source,
    assignedValue_getVert assigning v values fits.target]
  exact fits.bound values represents

theorem Assigning.getVert_value (assigning : Assigning s lhs e vert t) (v : V) (values : V -> Int) :
    assignedValue (t.getVert v).2 vert e values (t.getVert v).1 = values v := by
  have next := assigning.getVert v
  have found := tryAt_getVert_self assigning.shape v
  rw [assignedValue_of_ne (next.mapped found)]
  exact next.shape.vertexValue_of_tryAt values found

/-- The state with the edges that were collected for it. -/
def Collected (s : SplitDbm V) (lhs : V) (e : LinearExpression V) (vert : Nat)
    (state : SplitDbm V × GraphOps.EdgeVector) : Prop :=
  Assigning s lhs e vert state.1 ∧ ∀ edge ∈ state.2, EdgeFits s e vert state.1 edge

theorem Collected.snoc {state : SplitDbm V × GraphOps.EdgeVector}
    (collected : Collected s lhs e vert state)
    (v : V) {edge : Nat × Nat × Int} (fits : EdgeFits s e vert (state.1.getVert v).2 edge) :
    Collected s lhs e vert ((state.1.getVert v).2, state.2 ++ [edge]) := by
  refine ⟨collected.1.getVert v, ?_⟩
  intro other member
  rcases List.mem_append.mp member with earlier | last
  · exact (collected.2 other earlier).getVert collected.1 v
  · rw [List.mem_singleton.mp last]
    exact fits

theorem Collected.lowerDelta {state : SplitDbm V × GraphOps.EdgeVector}
    (collected : Collected s lhs e vert state)
    {diff : V × Int} (within : forall values, s.Represents values ->
      Within false (e.eval values) (diff.2 + values diff.1)) :
    Collected s lhs e vert (SplitDbm.lowerDelta vert state diff) := by
  have next := collected.1.getVert diff.1
  have found := tryAt_getVert_self collected.1.shape diff.1
  have fits : EdgeFits s e vert (state.1.getVert diff.1).2 (vert, (state.1.getVert diff.1).1,
      -diff.2) := by
    refine ⟨next.live, next.shape.live_of_tryAt found, ?_⟩
    intro values represents
    have bounded := within values represents
    simp only [Within, Bool.false_eq_true, if_false] at bounded
    rw [collected.1.getVert_value diff.1 values, assignedValue_self]
    dsimp only
    omega
  exact collected.snoc diff.1 fits

theorem Collected.upperDelta {state : SplitDbm V × GraphOps.EdgeVector}
    (collected : Collected s lhs e vert state)
    {diff : V × Int} (within : forall values, s.Represents values ->
      Within true (e.eval values) (diff.2 + values diff.1)) :
    Collected s lhs e vert (SplitDbm.upperDelta vert state diff) := by
  have next := collected.1.getVert diff.1
  have found := tryAt_getVert_self collected.1.shape diff.1
  have fits : EdgeFits s e vert (state.1.getVert diff.1).2 ((state.1.getVert diff.1).1, vert,
      diff.2) := by
    refine ⟨next.shape.live_of_tryAt found, next.live, ?_⟩
    intro values represents
    have bounded := within values represents
    simp only [Within, if_true] at bounded
    rw [collected.1.getVert_value diff.1 values, assignedValue_self]
    dsimp only
    omega
  exact collected.snoc diff.1 fits

theorem Collected.foldl {step : SplitDbm V × GraphOps.EdgeVector -> V × Int ->
    SplitDbm V × GraphOps.EdgeVector}
    {state : SplitDbm V × GraphOps.EdgeVector} {diffs : List (V × Int)}
    (keeps : forall state, ∀ diff ∈ diffs, Collected s lhs e vert state ->
      Collected s lhs e vert (step state diff))
    (collected : Collected s lhs e vert state) :
    Collected s lhs e vert (diffs.foldl step state) := by
  apply List.foldlRecOn (motive := Collected s lhs e vert) diffs
  · exact collected
  · intro next kept diff member
    exact keeps next diff member kept

/-- Other edges that the new value meets. -/
theorem Assigning.with_graph (assigning : Assigning s lhs e vert t) {g : AdaptGraph}
    (shape : Shape (fun other => other = vert) { t with g := g })
    (models : forall values, s.Represents values ->
      Models g.lookup (assignedValue t vert e values)) :
    Assigning s lhs e vert { t with g := g } :=
  { shape := shape
    owned := assigning.owned
    potential := assigning.potential
    zero := assigning.zero
    potValue := assigning.potValue
    models := models }

theorem Assigning.updateEdge (assigning : Assigning s lhs e vert t) {edge : Nat × Nat × Int}
    (fits : EdgeFits s e vert t edge) :
    Assigning s lhs e vert { t with g := t.g.updateEdge edge.1 edge.2.2 edge.2.1 } :=
  assigning.with_graph (assigning.shape.updateEdge edge.2.2 fits.source fits.target)
    (fun values represents =>
      models_updateEdge (assigning.models values represents) (fits.bound values represents))

/-- The bounds of the value are edges of the new vertex. -/
theorem Assigning.lowerBound (assigning : Assigning s lhs e vert t) {value : Interval}
    (inside : forall values, s.Represents values -> e.eval values ∈ value) {lb : Int}
    (lower : value.lb.number = some lb) :
    EdgeFits s e vert t (vert, 0, -lb) := by
  refine ⟨assigning.live, assigning.shape.zero_live, ?_⟩
  intro values represents
  have above := (inside values represents).1
  rw [Bound.number_eq_some.mp lower, Bound.ofNumber_le_ofNumber] at above
  rw [assignedValue_self, assignedValue_of_ne assigning.nonzero.symm,
    assigning.shape.vertexValue_zero]
  dsimp only
  omega

theorem Assigning.upperBound (assigning : Assigning s lhs e vert t) {value : Interval}
    (inside : forall values, s.Represents values -> e.eval values ∈ value) {ub : Int}
    (upper : value.ub.number = some ub) :
    EdgeFits s e vert t (0, vert, ub) := by
  refine ⟨assigning.shape.zero_live, assigning.live, ?_⟩
  intro values represents
  have below := (inside values represents).2
  rw [Bound.number_eq_some.mp upper, Bound.ofNumber_le_ofNumber] at below
  rw [assignedValue_self, assignedValue_of_ne assigning.nonzero.symm,
    assigning.shape.vertexValue_zero]
  dsimp only
  omega

/-- The differences and bounds that `assign` adds are met by the new value. -/
theorem assignVertex_assigning (invariant : Invariant s) (wellFormed : e.WellFormed) :
    Assigning s lhs e (s.assignVertex lhs e (s.evalInterval e) (s.diffcstsOfAssign e false)
        (s.diffcstsOfAssign e true)).1
      (s.assignVertex lhs e (s.evalInterval e) (s.diffcstsOfAssign e false)
      (s.diffcstsOfAssign e true)).2 := by
  have within := fun upper values (represents : s.Represents values) =>
    diffcstsOfAssign_within invariant.wellFormed represents wellFormed upper
  have inside := fun values (represents : s.Represents values) =>
    Shape.mem_evalInterval invariant.wellFormed represents e
  have allocated := assigning_allocate invariant lhs e
  unfold assignVertex
  dsimp only
  revert allocated
  generalize (s.allocate lhs (s.potentialOf 0 + s.evalExpression e)).1 = vert
  generalize (s.allocate lhs (s.potentialOf 0 + s.evalExpression e)).2 = start
  intro allocated
  have lower : Collected s lhs e vert
      ((s.diffcstsOfAssign e false).foldl (SplitDbm.lowerDelta vert) (start, [])) :=
    Collected.foldl (fun _ diff member collected =>
      collected.lowerDelta (fun values represents => within false values represents diff member))
      ⟨allocated, by simp⟩
  have upper : Collected s lhs e vert ((s.diffcstsOfAssign e true).foldl (SplitDbm.upperDelta vert)
      ((s.diffcstsOfAssign e false).foldl (SplitDbm.lowerDelta vert) (start, []))) :=
    Collected.foldl (fun _ diff member collected =>
      collected.upperDelta (fun values represents => within true values represents diff member))
        lower
  revert upper
  generalize (s.diffcstsOfAssign e true).foldl (SplitDbm.upperDelta vert)
    ((s.diffcstsOfAssign e false).foldl (SplitDbm.lowerDelta vert) (start, [])) = state
  rcases state with ⟨t, delta⟩
  rintro ⟨assigning, fits⟩
  have added : Assigning s lhs e vert { t with g := GraphOps.applyDelta t.g delta } :=
    assigning.with_graph (assigning.shape.applyDelta_of_live (fun edge member =>
      ⟨(fits edge member).source, (fits edge member).target⟩))
      (fun values represents => models_applyDelta (assigning.models values represents)
        (fun edge member => (fits edge member).bound values represents))
  have improves : GraphOps.Improves (GraphOps.applyDelta t.g delta).lookup
      (GraphOps.closeAfterAssign
      ((GraphOps.applyDelta t.g delta).view.exclude 0) t.potentialOf vert) :=
    GraphOps.Improves.of_exclude GraphOps.closeAfterAssign_improves
  have closed := added.with_graph (added.shape.applyDelta improves) (fun values represents =>
    (improves.tightens_applyDelta (Tightens.refl _)).models_iff.mpr
      (added.models values represents))
  cases upperBound : (s.evalInterval e).ub.number with
  | none =>
      cases lowerBound : (s.evalInterval e).lb.number with
      | none => exact closed
      | some lb => exact closed.updateEdge (closed.lowerBound inside lowerBound)
  | some ub =>
      cases lowerBound : (s.evalInterval e).lb.number with
      | none => exact closed.updateEdge (closed.upperBound inside upperBound)
      | some lb =>
          have bounded := closed.updateEdge (closed.lowerBound inside lowerBound)
          exact bounded.updateEdge (bounded.upperBound inside upperBound)

theorem evalExpression_eq (s : SplitDbm V) (e : LinearExpression V) :
    s.evalExpression e = e.eval (fun v => s.potValue v - s.potentialOf 0) := by
  have step : forall (terms : List (V × Int)) (sum : Int),
      terms.foldl (fun sum term => sum + (s.potValue term.1 - s.potentialOf 0) * term.2) sum =
        sum + LinearExpression.evalTerms (fun v => s.potValue v - s.potentialOf 0) terms := by
    intro terms
    induction terms with
    | nil => simp [LinearExpression.evalTerms]
    | cons term rest inductionHypothesis =>
        intro sum
        rw [List.foldl_cons, inductionHypothesis]
        simp only [LinearExpression.evalTerms, List.map_cons, List.sum_cons]
        ring
  exact step e.variableTerms e.constantTerm

/-- The potential is the new value of an assignment, too. -/
theorem Assigning.valid (assigning : Assigning s lhs e vert t) (invariant : Invariant s) :
    t.ValidPotential := by
  have models := (assigning.models _ invariant.represents_potential).shift (s.potentialOf 0)
  apply models.congr assigning.shape.graph.ends
  intro other live
  rcases assigning.shape.live_cases live with rfl | rfl | ⟨w, found⟩
  · rw [assignedValue_of_ne assigning.nonzero.symm, assigning.shape.vertexValue_zero,
      assigning.zero, zero_add]
  · rw [assignedValue_self, assigning.potential, evalExpression_eq, add_comm]
  · have potential := assigning.potValue w
    unfold SplitDbm.potValue at potential
    rw [found] at potential
    rw [assignedValue_of_ne (assigning.mapped found), assigning.shape.vertexValue_of_tryAt _ found,
      sub_add_cancel]
    exact potential.symm

/-- The new vertex replaces the one that the variable had. -/
theorem Assigning.finish (assigning : Assigning s lhs e vert t) (invariant : Invariant s) :
    Invariant { t.remove lhs with vertMap := emplace (t.remove lhs).vertMap lhs vert } ∧
      forall values, s.Represents values ->
        { t.remove lhs with vertMap := emplace (t.remove lhs).vertMap lhs vert }.Represents
          (Function.update values lhs (e.eval values)) := by
  have removed := assigning.shape.remove lhs
  have absent := tryAt_remove_self assigning.shape lhs
  have tryAt_iff := removed.tryAt_emplace absent vert
  have owned : (t.remove lhs).revMap[vert]? = some (some lhs) := by
    have same : (t.remove lhs).revMap[vert]? = t.revMap[vert]? :=
      remove_revMap_of_loose assigning.shape lhs rfl
    exact same.trans assigning.owned
  have shape : WellFormed { t.remove lhs with
      vertMap := emplace (t.remove lhs).vertMap lhs vert } := by
    apply Shape.emplace _ absent owned id
    simpa only [false_or] using removed
  refine ⟨⟨shape, ?_⟩, ?_⟩
  · have kept := remove_models assigning.shape lhs (assigning.valid invariant)
    unfold ValidPotential
    rw [← remove_potentialOf lhs] at kept
    exact kept
  · intro values represents
    apply WellFormed.represents_of_models shape ?_
      (remove_models assigning.shape lhs (assigning.models values represents))
    constructor
    · rw [assignedValue_of_ne assigning.nonzero.symm]
      exact assigning.shape.vertexValue_zero values
    · intro w other found
      rcases (tryAt_iff w other).mp found with ⟨rfl, rfl⟩ | there
      · rw [assignedValue_self, Function.update_self]
      · rcases (tryAt_remove assigning.shape lhs w other).mp there with ⟨different, old⟩
        rw [assignedValue_of_ne (assigning.mapped old), Function.update_of_ne different]
        exact assigning.shape.vertexValue_of_tryAt values old

end NewVertex

/-! ## `assign` -/

theorem evalInterval_nonempty (invariant : Invariant s) (e : LinearExpression V) :
    ¬ (s.evalInterval e).IsBottom :=
  Interval.not_isBottom_of_mem (Shape.mem_evalInterval invariant.wellFormed
    invariant.represents_potential e)

theorem assign_spec (invariant : Invariant s) (x : V) {e : LinearExpression V}
    (wellFormed : e.WellFormed) :
    Invariant (s.assign x e) ∧ forall values, s.Represents values ->
      (s.assign x e).Represents (Function.update values x (e.eval values)) := by
  have bySet : Invariant (s.set x (s.evalInterval e)).normalize ∧
      forall values, s.Represents values ->
      (s.set x (s.evalInterval e)).normalize.Represents
      (Function.update values x (e.eval values)) := by
    have spec := set_spec invariant x (evalInterval_nonempty invariant e)
    refine ⟨spec.1.normalize, fun values represents => ?_⟩
    rw [represents_normalize]
    apply spec.2 values _ represents
    · exact fun w different => Function.update_of_ne different ..
    · rw [Function.update_self]
      exact Shape.mem_evalInterval invariant.wellFormed represents e
  unfold assign
  dsimp only
  split
  · exact bySet
  · split
    · exact bySet
    · have assigning : Assigning s x e _ _ := assignVertex_assigning invariant wellFormed
      have finished := assigning.finish invariant
      exact ⟨finished.1.normalize, fun values represents =>
        (represents_normalize _).mpr (finished.2 values represents)⟩

/-- The new value of a variable is the value of the expression under the old
assignment. -/
theorem assign_sound (invariant : Invariant s) (x : V) {e : LinearExpression V}
    (wellFormed : e.WellFormed) {values : V -> Int} (represents : s.Represents values) :
    (s.assign x e).Represents (Function.update values x (e.eval values)) :=
  (assign_spec invariant x wellFormed).2 values represents

theorem assign_sound_increment : ((top : SplitDbm Nat).assign 0 ⟨3, [(0, 1)]⟩).Represents
    (Function.update (fun _ => 1) 0 4) := by
  have wellFormed : LinearExpression.WellFormed (V := Nat) ⟨3, [(0, 1)]⟩ := ⟨by decide, by decide⟩
  have represents := assign_sound invariant_top 0 wellFormed (represents_top (fun _ => 1))
  have value : LinearExpression.eval (fun _ : Nat => 1) ⟨3, [(0, 1)]⟩ = 4 := by decide
  rwa [value] at represents

end SplitDbm
end Crab
end Prevail
