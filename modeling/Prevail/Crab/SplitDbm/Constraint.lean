import Prevail.Crab.SplitDbm.Invariant

namespace Prevail
namespace Crab
namespace SplitDbm

open DifferenceBounds

/-!
# Constraints on difference bounds

`add_constraint` breaks a linear inequality into bounds and differences, using
the bounds of the other variables, and adds each of them as an edge.  The edges
are added exactly: the new state represents the assignments of the old one that
meet the bounds and differences, and an edge is refused only if there is none.
The bounds and differences follow from the inequality, so that no assignment
that meets it is lost.  For an inequality that is a bound or a difference
itself, they also imply it.
-/

variable {V : Type} [LinearOrder V]

/-- The result represents exactly the assignments of the state of which the
property holds.  It is nothing only if there are none. -/
def Refines (s : SplitDbm V) (holds : (V -> Int) -> Prop) : Option (SplitDbm V) -> Prop
  | some next =>
      Invariant next ∧ forall values, next.Represents values ↔ s.Represents values ∧ holds values
  | none => forall values, s.Represents values -> ¬ holds values

namespace Refines

variable {s : SplitDbm V} {holds other : (V -> Int) -> Prop} {result : Option (SplitDbm V)}

theorem congr (refines : Refines s holds result)
    (same : forall values, s.Represents values -> (holds values ↔ other values)) :
    Refines s other result := by
  cases result with
  | some next =>
      refine ⟨refines.1, fun values => (refines.2 values).trans ?_⟩
      exact and_congr_right (same values)
  | none => exact fun values represents holdsOther => refines values represents ((same values
    represents).mpr holdsOther)

theorem unchanged (invariant : Invariant s) : Refines s (fun _ => True) (some s) :=
  ⟨invariant, fun values => by simp⟩

/-- The property holds of every assignment that the state represents. -/
theorem implied (invariant : Invariant s)
    (always : forall values, s.Represents values -> holds values) :
    Refines s holds (some s) :=
  (unchanged invariant).congr
    (fun values represents => iff_of_true trivial (always values represents))

theorem returns {last : SplitDbm V} (invariant : Invariant last)
    (same : forall values, last.Represents values ↔ s.Represents values) :
    Refines s (fun _ => True) (some last) :=
  ⟨invariant, fun values => (same values).trans (and_iff_left trivial).symm⟩

theorem of_same {next : SplitDbm V}
    (same : forall values, next.Represents values ↔ s.Represents values)
    (refines : Refines next holds result) : Refines s holds result := by
  cases result with
  | some last => exact ⟨refines.1, fun values =>
    (refines.2 values).trans (and_congr_left' (same values))⟩
  | none => exact fun values represents => refines values ((same values).mpr represents)

theorem bind {f : SplitDbm V -> Option (SplitDbm V)} (refines : Refines s holds result)
    (rest : forall next, result = some next -> Invariant next -> Refines next other (f next)) :
    Refines s (fun values => holds values ∧ other values) (result >>= f) := by
  cases result with
  | none => exact fun values represents both => refines values represents both.1
  | some next =>
      have second := rest next rfl refines.1
      rw [Option.bind_eq_bind, Option.bind_some]
      cases final : f next with
      | none =>
          rw [final] at second
          intro values represents both
          exact second values ((refines.2 values).mpr ⟨represents, both.1⟩) both.2
      | some last =>
          rw [final] at second
          refine ⟨second.1, fun values => ?_⟩
          rw [second.2 values, refines.2 values, and_assoc]

theorem map {f : SplitDbm V -> SplitDbm V} (refines : Refines s holds result)
    (keeps : forall next, result = some next -> Invariant next -> Invariant (f next) ∧
      forall values, (f next).Represents values ↔ next.Represents values) :
    Refines s holds (result.map f) := by
  cases result with
  | none => exact refines
  | some next =>
      have kept := keeps next rfl refines.1
      exact ⟨kept.1, fun values => (kept.2 values).trans (refines.2 values)⟩

theorem normalize (refines : Refines s holds result) :
    Refines s holds (result.map SplitDbm.normalize) :=
  refines.map (fun _ _ invariant => ⟨invariant.normalize, represents_normalize⟩)

/-- A loop over constraints, each of which is added exactly. -/
theorem foldlM {Entry : Type} {entryHolds : Entry -> (V -> Int) -> Prop}
    {f : SplitDbm V -> Entry -> Option (SplitDbm V)}
    (step : forall s entry, Invariant s -> Refines s (entryHolds entry) (f s entry))
    (entries : List Entry) (invariant : Invariant s) :
    Refines s (fun values => ∀ entry ∈ entries, entryHolds entry values) (entries.foldlM f s) := by
  induction entries generalizing s with
  | nil => exact (unchanged invariant).congr (fun values _ => by simp)
  | cons entry rest inductionHypothesis =>
      rw [List.foldlM_cons]
      have both := (step s entry invariant).bind (fun next _ kept => inductionHypothesis kept)
      exact both.congr (fun values _ => by simp)

end Refines

/-! ## One edge -/

section Edge

variable {s : SplitDbm V}

omit [LinearOrder V] in
theorem repairPotential_eq {src dest : Nat} {next : SplitDbm V}
    (result : s.repairPotential src dest = some next) :
    exists p, GraphOps.repairPotential s.g.view s.potentialOf src dest = some p ∧
      next = { s with potential := (List.range s.potential.length).map p } := by
  unfold repairPotential at result
  rw [Option.map_eq_some_iff] at result
  rcases result with ⟨p, repaired, rfl⟩
  exact ⟨p, repaired, rfl⟩

omit [LinearOrder V] in
theorem repairPotential_g {src dest : Nat} {next : SplitDbm V}
    (result : s.repairPotential src dest = some next) :
    next.g = s.g := by
  rcases repairPotential_eq result with ⟨p, _, rfl⟩
  rfl

/-- An edge between two vertices, not above the edge that was there, with the
repair of the potential. -/
theorem refines_setEdge (invariant : Invariant s) {src dest : Nat} {weight : Int}
    (srcLive : s.g.Live src)
    (destLive : s.g.Live dest)
    (below : forall old, s.g.lookup src dest = some old -> weight ≤ old) :
    Refines s (fun values => s.vertexValue values dest ≤ s.vertexValue values src + weight)
      (repairPotential { s with g := s.g.setEdge src weight dest } src dest) := by
  have shape : Shape _ { s with g := s.g.setEdge src weight dest } :=
    Shape.setEdge invariant.wellFormed weight srcLive destLive
  have models : GraphOps.ModelsExcept (s.g.setEdge src weight dest).lookup s.potentialOf
      src dest := by
    intro source target here member notNew
    rcases set_cases member with ⟨rfl, rfl, _⟩ | old
    · exact absurd ⟨rfl, rfl⟩ notNew
    · exact invariant.valid _ _ _ old
  have targets : GraphOps.TargetsBelow (s.g.setEdge src weight dest).view :=
    fun _ _ _ here => (shape.graph.ends _ _ _ here).2.1
  have new : (s.g.setEdge src weight dest).lookup src dest = some weight := set_self
  cases result : repairPotential { s with g := s.g.setEdge src weight dest } src dest with
  | none =>
      intro values represents holds
      have failed : GraphOps.repairPotential (s.g.setEdge src weight dest).view s.potentialOf src
          dest = none :=
        Option.map_eq_none_iff.mp result
      apply GraphOps.not_models_of_repairPotential models targets new failed (s.vertexValue values)
      exact (models_set below).mpr ⟨represents, holds⟩
  | some next =>
      rcases repairPotential_eq result with ⟨p, repaired, rfl⟩
      have fits := GraphOps.repairPotential_models models targets new repaired
      refine ⟨⟨shape.with_potential (by simp), ?_⟩, fun values => models_set below⟩
      apply fits.congr shape.graph.ends
      intro vert live
      have inside : vert < s.potential.length := by
        have same := shape.potential_length
        dsimp only at same
        rw [same]
        exact live.1
      simp [potentialOf, inside]

end Edge

/-! ## Bounds and differences -/

/-- All bounds and differences of a list are met. -/
structure DiffConstraints.Holds (constraints : DiffConstraints V) (values : V -> Int) : Prop where
  csts : ∀ entry ∈ constraints.csts, values entry.1.1 - values entry.1.2 ≤ entry.2
  lbs : ∀ entry ∈ constraints.lbs, entry.2 ≤ values entry.1
  ubs : ∀ entry ∈ constraints.ubs, values entry.1 ≤ entry.2

section Add

variable {s : SplitDbm V}

theorem addLowerBound_refines (invariant : Invariant s) (entry : V × Int) :
    Refines s (fun values => entry.2 ≤ values entry.1) (s.addLowerBound entry) := by
  have vertInvariant := invariant.getVert entry.1
  have found := tryAt_getVert_self invariant.wellFormed entry.1
  have value := fun values => Shape.vertexValue_of_tryAt vertInvariant.wellFormed values found
  have zeroValue := Shape.vertexValue_zero vertInvariant.wellFormed
  apply Refines.of_same (getVert_represents invariant.wellFormed entry.1)
  unfold addLowerBound
  dsimp only
  split
  · rename_i present
    rcases present with ⟨weight, here, small⟩
    apply Refines.implied vertInvariant
    intro values represents
    have bounded := represents _ _ _ (Option.mem_def.mp here)
    rw [value, zeroValue] at bounded
    omega
  · rename_i absent
    have below : forall old, (s.getVert entry.1).2.g.lookup (s.getVert entry.1).1 0 = some old ->
        -entry.2 ≤ old := by
      intro old here
      by_contra lower
      exact absent ⟨old, here, by omega⟩
    apply (refines_setEdge vertInvariant (Shape.live_of_tryAt vertInvariant.wellFormed found)
      (Shape.zero_live vertInvariant.wellFormed) below).congr
    intro values _
    rw [value, zeroValue]
    omega

theorem addUpperBound_refines (invariant : Invariant s) (entry : V × Int) :
    Refines s (fun values => values entry.1 ≤ entry.2) (s.addUpperBound entry) := by
  have vertInvariant := invariant.getVert entry.1
  have found := tryAt_getVert_self invariant.wellFormed entry.1
  have value := fun values => Shape.vertexValue_of_tryAt vertInvariant.wellFormed values found
  have zeroValue := Shape.vertexValue_zero vertInvariant.wellFormed
  apply Refines.of_same (getVert_represents invariant.wellFormed entry.1)
  unfold addUpperBound
  dsimp only
  split
  · rename_i present
    rcases present with ⟨weight, here, small⟩
    apply Refines.implied vertInvariant
    intro values represents
    have bounded := represents _ _ _ (Option.mem_def.mp here)
    rw [value, zeroValue] at bounded
    omega
  · rename_i absent
    have below : forall old, (s.getVert entry.1).2.g.lookup 0 (s.getVert entry.1).1 = some old ->
        entry.2 ≤ old := by
      intro old here
      by_contra lower
      exact absent ⟨old, here, by omega⟩
    apply (refines_setEdge vertInvariant (Shape.zero_live vertInvariant.wellFormed)
      (Shape.live_of_tryAt vertInvariant.wellFormed found) below).congr
    intro values _
    rw [value, zeroValue]
    omega

/-- An update is the edge that the constraint asks for, unless a lower one is
there already. -/
theorem refines_updateEdge (invariant : Invariant s) {src dest : Nat} (weight : Int)
    (srcLive : s.g.Live src) (destLive : s.g.Live dest) :
    Refines s (fun values => s.vertexValue values dest ≤ s.vertexValue values src + weight)
      (repairPotential { s with g := s.g.updateEdge src weight dest } src dest) := by
  rcases s.g.updateEdge_eq src dest weight with ⟨lower, lowerLe, below, choice, updated⟩
  rw [updated]
  apply (refines_setEdge invariant srcLive destLive below).congr
  intro values represents
  rcases choice with rfl | there
  · rfl
  · have bounded := represents _ _ _ there
    omega

theorem refines_closeOverEdge (invariant : Invariant s) {src dest : Nat} (weight : Int)
    (srcLive : s.g.Live src) (destLive : s.g.Live dest) :
    Refines s (fun values => s.vertexValue values dest ≤ s.vertexValue values src + weight)
      ((repairPotential { s with g := s.g.updateEdge src weight dest } src dest).map (fun s =>
        { s with g := GraphOps.closeOverEdge s.g src dest })) := by
  apply (refines_updateEdge invariant weight srcLive destLive).map
  intro next result nextInvariant
  have graph : next.g = s.g.updateEdge src weight dest := repairPotential_g result
  rcases s.g.updateEdge_eq src dest weight with ⟨lower, _, _, _, updated⟩
  have new : next.g.lookup src dest = some lower := by
    rw [graph, updated]
    exact set_self
  have same := GraphOps.closeOverEdge_sameVertices next.g src dest
  exact ⟨nextInvariant.of_tightens same.1 same.2 (GraphOps.closeOverEdge_tightens new),
    fun values => (GraphOps.closeOverEdge_tightens new).models_iff⟩

theorem addDifference_refines (invariant : Invariant s) (entry : (V × V) × Int) :
    Refines s (fun values => values entry.1.1 - values entry.1.2 ≤ entry.2)
    (s.addDifference entry) := by
  have srcInvariant := invariant.getVert entry.1.2
  have destInvariant := srcInvariant.getVert entry.1.1
  have srcFound := (tryAt_getVert srcInvariant.wellFormed entry.1.1 _ _).mpr
    (Or.inr (tryAt_getVert_self invariant.wellFormed entry.1.2))
  have destFound := tryAt_getVert_self srcInvariant.wellFormed entry.1.1
  apply Refines.of_same (getVert_represents invariant.wellFormed entry.1.2)
  apply Refines.of_same (getVert_represents srcInvariant.wellFormed entry.1.1)
  apply (refines_closeOverEdge destInvariant entry.2
    (Shape.live_of_tryAt destInvariant.wellFormed srcFound)
    (Shape.live_of_tryAt destInvariant.wellFormed destFound)).congr
  intro values _
  rw [Shape.vertexValue_of_tryAt destInvariant.wellFormed values srcFound,
    Shape.vertexValue_of_tryAt destInvariant.wellFormed values destFound]
  omega

/-- The bounds and differences of an inequality are added one by one. -/
theorem addLinearLeq_refines (invariant : Invariant s) (exp : LinearExpression V) :
    Refines s (s.diffcstsOfLinLeq exp).Holds (s.addLinearLeq exp) := by
  have closed : forall last : SplitDbm V, Invariant last ->
      Refines last (fun _ => True) (some last.closeBounds.normalize) := fun last kept =>
    Refines.returns kept.closeBounds.normalize (fun values =>
      (represents_normalize values).trans (represents_closeBounds values))
  have csts : forall next : SplitDbm V, Invariant next -> Refines next
      (fun values => (∀ entry ∈ (s.diffcstsOfLinLeq exp).csts,
        values entry.1.1 - values entry.1.2 ≤ entry.2) ∧ True)
      ((s.diffcstsOfLinLeq exp).csts.foldlM addDifference next >>= fun last =>
        some last.closeBounds.normalize) :=
    fun next kept => (Refines.foldlM
      (fun _ entry kept => addDifference_refines kept entry) _ kept).bind
      (fun last _ lastKept => closed last lastKept)
  have ubs : forall next : SplitDbm V, Invariant next -> Refines next _
      ((s.diffcstsOfLinLeq exp).ubs.foldlM addUpperBound next >>= fun last =>
        (s.diffcstsOfLinLeq exp).csts.foldlM addDifference last >>= fun last =>
          some last.closeBounds.normalize) :=
    fun next kept => (Refines.foldlM
      (fun _ entry kept => addUpperBound_refines kept entry) _ kept).bind
      (fun last _ lastKept => csts last lastKept)
  have all := (Refines.foldlM (fun _ entry kept => addLowerBound_refines kept entry)
    (s.diffcstsOfLinLeq exp).lbs invariant).bind (fun last _ lastKept => ubs last lastKept)
  apply all.congr
  intro values _
  constructor
  · rintro ⟨lbs, ubs, csts, _⟩
    exact ⟨csts, lbs, ubs⟩
  · rintro ⟨csts, lbs, ubs⟩
    exact ⟨lbs, ubs, csts, trivial⟩

end Add

/-! ## Inequalities as bounds and differences -/

section Interval

variable {s : SplitDbm V} {values : V -> Int}

theorem Shape.lowerBound_le {loose : Nat -> Prop} (shape : Shape loose s)
    (represents : s.Represents values) {x : V}
    {vert : Nat} (found : s.tryAt x = some vert) : s.lowerBound vert ≤ .ofNumber (values x) := by
  unfold lowerBound
  split
  · rename_i weight here
    have bounded := represents _ _ _ here
    rw [shape.vertexValue_zero, shape.vertexValue_of_tryAt values found] at bounded
    rw [Bound.ofNumber_le_ofNumber]
    omega
  · exact Bound.minusInfinity_le _

theorem Shape.le_upperBound {loose : Nat -> Prop} (shape : Shape loose s)
    (represents : s.Represents values) {x : V}
    {vert : Nat} (found : s.tryAt x = some vert) : .ofNumber (values x) ≤ s.upperBound vert := by
  unfold upperBound
  split
  · rename_i weight here
    have bounded := represents _ _ _ here
    rw [shape.vertexValue_zero, shape.vertexValue_of_tryAt values found] at bounded
    rw [Bound.ofNumber_le_ofNumber]
    omega
  · exact Bound.le_plusInfinity _

/-- The interval of a variable contains its values. -/
theorem Shape.mem_getInterval {loose : Nat -> Prop} (shape : Shape loose s)
    (represents : s.Represents values) (x : V) : values x ∈ s.getInterval x := by
  unfold getInterval
  split
  · rename_i vert found
    exact Interval.mem_mk' (shape.lowerBound_le represents found)
      (shape.le_upperBound represents found)
  · exact ⟨Bound.minusInfinity_le _, Bound.le_plusInfinity _⟩

end Interval

/-- What the values add to the lower bounds of the positive terms. -/
def LinLeqTerms.posExcess (terms : LinLeqTerms V) (values : V -> Int) : Int :=
  (terms.posTerms.map (fun pos => pos.1.1 * (values pos.1.2 - pos.2))).sum

/-- What the values fall short of the upper bounds of the negative terms. -/
def LinLeqTerms.negExcess (terms : LinLeqTerms V) (values : V -> Int) : Int :=
  (terms.negTerms.map (fun neg => neg.1.1 * (neg.2 - values neg.1.2))).sum

/-- The value of the terms without a bound. -/
def LinLeqTerms.unbounded (terms : LinLeqTerms V) (values : V -> Int) : Int :=
  terms.unboundedLb.elim 0 (fun term => term.2 * values term.1) -
    terms.unboundedUb.elim 0 (fun term => term.2 * values term.1)

/-- The terms are collected from an expression with the given value. -/
structure LinLeqTerms.Collects (terms : LinLeqTerms V) (values : V -> Int)
    (value : Int) : Prop where
  value : value = terms.unbounded values + terms.posExcess values +
    terms.negExcess values - terms.expUb
  lb : ∀ term ∈ terms.unboundedLb, 0 < term.2
  ub : ∀ term ∈ terms.unboundedUb, 0 < term.2
  pos : ∀ pos ∈ terms.posTerms, 0 < pos.1.1 ∧ pos.2 ≤ values pos.1.2
  neg : ∀ neg ∈ terms.negTerms, 0 < neg.1.1 ∧ values neg.1.2 ≤ neg.2

section LinLeq

variable {s : SplitDbm V} {values : V -> Int} {loose : Nat -> Prop}

theorem linLeqTerm_collects (shape : Shape loose s) (represents : s.Represents values)
    {state next : LinLeqTerms V}
    {value : Int} {term : V × Int} (nonzero : term.2 ≠ 0) (collects : state.Collects values value)
    (step : s.linLeqTerm state term = some next) :
    next.Collects values (value + term.2 * values term.1) := by
  have inside := shape.mem_getInterval represents term.1
  have total := collects.value
  simp only [LinLeqTerms.unbounded, LinLeqTerms.posExcess, LinLeqTerms.negExcess] at total
  unfold linLeqTerm at step
  split at step
  · rename_i positive
    split at step
    · split at step
      · cases step
      · rename_i noneYet
        cases step
        have empty : state.unboundedLb = none := by simpa using noneYet
        simp only [empty, Option.elim_none] at total
        refine { collects with value := ?_, lb := ?_ }
        · simp only [LinLeqTerms.unbounded, LinLeqTerms.posExcess, LinLeqTerms.negExcess,
            Option.elim_some]
          linarith
        · intro other member
          cases member
          exact positive
    · rename_i ymin bound
      cases step
      have lower := inside.1
      rw [Bound.number_eq_some.mp bound, Bound.ofNumber_le_ofNumber] at lower
      refine { collects with value := ?_, pos := ?_ }
      · simp only [LinLeqTerms.unbounded, LinLeqTerms.posExcess, LinLeqTerms.negExcess,
          List.map_append, List.sum_append, List.map_cons, List.map_nil, List.sum_cons,
          List.sum_nil]
        linarith
      · intro other member
        rcases List.mem_append.mp member with earlier | last
        · exact collects.pos other earlier
        · rw [List.mem_singleton.mp last]
          exact ⟨positive, lower⟩
  · rename_i notPositive
    have negative : 0 < -term.2 := by omega
    split at step
    · split at step
      · cases step
      · rename_i noneYet
        cases step
        have empty : state.unboundedUb = none := by simpa using noneYet
        simp only [empty, Option.elim_none] at total
        refine { collects with value := ?_, ub := ?_ }
        · simp only [LinLeqTerms.unbounded, LinLeqTerms.posExcess, LinLeqTerms.negExcess,
            Option.elim_some]
          linarith
        · intro other member
          cases member
          exact negative
    · rename_i ymax bound
      cases step
      have upper := inside.2
      rw [Bound.number_eq_some.mp bound, Bound.ofNumber_le_ofNumber] at upper
      refine { collects with value := ?_, neg := ?_ }
      · simp only [LinLeqTerms.unbounded, LinLeqTerms.posExcess, LinLeqTerms.negExcess,
          List.map_append, List.sum_append, List.map_cons, List.map_nil, List.sum_cons,
          List.sum_nil]
        linarith
      · intro other member
        rcases List.mem_append.mp member with earlier | last
        · exact collects.neg other earlier
        · rw [List.mem_singleton.mp last]
          exact ⟨negative, upper⟩

theorem linLeqTerms_collects (shape : Shape loose s) (represents : s.Represents values)
    {terms : List (V × Int)}
    (nonzero : ∀ term ∈ terms, term.2 ≠ 0) {state final : LinLeqTerms V} {value : Int}
    (collects : state.Collects values value) (run : terms.foldlM s.linLeqTerm state = some final) :
    final.Collects values (value + LinearExpression.evalTerms values terms) := by
  induction terms generalizing state value with
  | nil =>
      cases run
      simpa [LinearExpression.evalTerms] using collects
  | cons term rest inductionHypothesis =>
      rw [List.foldlM_cons, Option.bind_eq_bind, Option.bind_eq_some_iff] at run
      rcases run with ⟨next, step, run⟩
      have first := linLeqTerm_collects shape represents (nonzero term
        List.mem_cons_self) collects step
      have last := inductionHypothesis
        (fun other member => nonzero other (List.mem_cons_of_mem _ member)) first run
      simpa [LinearExpression.evalTerms, add_assoc] using last

/-- Truncating division keeps an upper bound of a multiple. -/
theorem le_tdiv {coefficient x n : Int} (positive : 0 < coefficient)
    (bounded : coefficient * x ≤ n) :
    x ≤ n.tdiv coefficient := by
  rcases le_total 0 n with nonneg | nonpositive
  · rw [Int.tdiv_eq_ediv_of_nonneg nonneg]
    rw [mul_comm] at bounded
    exact (Int.le_ediv_iff_mul_le positive).mpr bounded
  · have negated := Int.neg_tdiv n coefficient
    rw [Int.tdiv_eq_ediv_of_nonneg (by omega : 0 ≤ -n)] at negated
    have quotient : -n / coefficient ≤ -x := by
      have small := Int.ediv_mul_le (-n) positive.ne'
      by_contra large
      have product : (-x + 1) * coefficient ≤ -n / coefficient * coefficient :=
        mul_le_mul_of_nonneg_right (by omega) positive.le
      nlinarith
    omega

/-- Truncating division keeps a lower bound of a multiple. -/
theorem tdiv_le {coefficient x n : Int} (positive : 0 < coefficient)
    (bounded : n ≤ coefficient * x) :
    n.tdiv coefficient ≤ x := by
  have negated := le_tdiv positive (by linarith : coefficient * -x ≤ -n)
  rw [Int.neg_tdiv] at negated
  omega

section Parts

omit [LinearOrder V]

variable {terms : LinLeqTerms V} {value : Int} (collects : terms.Collects values value)

include collects

theorem LinLeqTerms.Collects.posParts :
    ∀ part ∈ terms.posTerms.map (fun pos => pos.1.1 * (values pos.1.2 - pos.2)), 0 ≤ part := by
  intro part member
  rcases List.mem_map.mp member with ⟨pos, inside, rfl⟩
  have parts := collects.pos pos inside
  exact mul_nonneg parts.1.le (by omega)

theorem LinLeqTerms.Collects.negParts :
    ∀ part ∈ terms.negTerms.map (fun neg => neg.1.1 * (neg.2 - values neg.1.2)), 0 ≤ part := by
  intro part member
  rcases List.mem_map.mp member with ⟨neg, inside, rfl⟩
  have parts := collects.neg neg inside
  exact mul_nonneg parts.1.le (by omega)

/-- A positive term takes a part of the excess, and its variable no more. -/
theorem LinLeqTerms.Collects.pos_le {pos : (Int × V) × Int} (inside : pos ∈ terms.posTerms) :
    pos.1.1 * (values pos.1.2 - pos.2) ≤ terms.posExcess values ∧
      values pos.1.2 - pos.2 ≤ terms.posExcess values := by
  have whole : pos.1.1 * (values pos.1.2 - pos.2) ≤ terms.posExcess values :=
    List.single_le_sum collects.posParts _ (List.mem_map_of_mem inside)
  have parts := collects.pos pos inside
  have one : values pos.1.2 - pos.2 ≤ pos.1.1 * (values pos.1.2 - pos.2) :=
    le_mul_of_one_le_left (by omega) parts.1
  exact ⟨whole, one.trans whole⟩

theorem LinLeqTerms.Collects.neg_le {neg : (Int × V) × Int} (inside : neg ∈ terms.negTerms) :
    neg.1.1 * (neg.2 - values neg.1.2) ≤ terms.negExcess values ∧
      neg.2 - values neg.1.2 ≤ terms.negExcess values := by
  have whole : neg.1.1 * (neg.2 - values neg.1.2) ≤ terms.negExcess values :=
    List.single_le_sum collects.negParts _ (List.mem_map_of_mem inside)
  have parts := collects.neg neg inside
  have one : neg.2 - values neg.1.2 ≤ neg.1.1 * (neg.2 - values neg.1.2) :=
    le_mul_of_one_le_left (by omega) parts.1
  exact ⟨whole, one.trans whole⟩

/-- The bounds and differences follow from the inequality. -/
theorem linLeqConstraints_holds (nonpositive : value ≤ 0) :
    (linLeqConstraints terms).Holds values := by
  have total := collects.value
  have posNonneg : 0 ≤ terms.posExcess values := List.sum_nonneg collects.posParts
  have negNonneg : 0 ≤ terms.negExcess values := List.sum_nonneg collects.negParts
  unfold LinLeqTerms.unbounded at total
  unfold linLeqConstraints
  split
  · rename_i x lbCoeff y ubCoeff lb ub
    rw [lb, ub, Option.elim_some, Option.elim_some] at total
    refine ⟨?_, by simp, by simp⟩
    intro entry member
    split at member
    · rename_i ones
      rcases ones with ⟨rfl, rfl⟩
      rw [List.mem_singleton.mp member]
      dsimp only
      linarith
    · cases member
  · rename_i x lbCoeff lb ub
    rw [lb, ub, Option.elim_some, Option.elim_none] at total
    refine ⟨?_, by simp, ?_⟩
    · intro entry member
      split at member
      · rename_i one
        subst one
        rcases List.mem_map.mp member with ⟨neg, inside, rfl⟩
        have part := (collects.neg_le inside).2
        dsimp only
        linarith
      · cases member
    · intro entry member
      rw [List.mem_singleton.mp member]
      apply le_tdiv (collects.lb _ lb)
      dsimp only at total ⊢
      linarith
  · rename_i y ubCoeff lb ub
    rw [lb, ub, Option.elim_some, Option.elim_none] at total
    refine ⟨?_, ?_, by simp⟩
    · intro entry member
      split at member
      · rename_i one
        subst one
        rcases List.mem_map.mp member with ⟨pos, inside, rfl⟩
        have part := (collects.pos_le inside).2
        dsimp only
        linarith
      · cases member
    · intro entry member
      rw [List.mem_singleton.mp member]
      apply tdiv_le (collects.ub _ ub)
      dsimp only at total ⊢
      linarith
  · rename_i lb ub
    rw [lb, ub, Option.elim_none] at total
    refine ⟨?_, ?_, ?_⟩
    · intro entry member
      rcases List.mem_flatMap.mp member with ⟨neg, negInside, member⟩
      rcases List.mem_map.mp member with ⟨pos, posInside, rfl⟩
      have negPart := (collects.neg_le negInside).2
      have posPart := (collects.pos_le posInside).2
      dsimp only
      linarith
    · intro entry member
      rcases List.mem_map.mp member with ⟨neg, inside, rfl⟩
      have part := (collects.neg_le inside).1
      have bounded : -terms.expUb ≤ neg.1.1 * (values neg.1.2 - neg.2) := by linarith
      have quotient := tdiv_le (collects.neg neg inside).1 bounded
      dsimp only
      linarith
    · intro entry member
      rcases List.mem_map.mp member with ⟨pos, inside, rfl⟩
      have part := (collects.pos_le inside).1
      have bounded : pos.1.1 * (values pos.1.2 - pos.2) ≤ terms.expUb := by linarith
      have quotient := le_tdiv (collects.pos pos inside).1 bounded
      dsimp only
      linarith

end Parts

theorem diffcstsOfLinLeq_holds (shape : Shape loose s) (represents : s.Represents values)
    {exp : LinearExpression V} (wellFormed : exp.WellFormed) (nonpositive : exp.eval values ≤ 0) :
    (s.diffcstsOfLinLeq exp).Holds values := by
  unfold diffcstsOfLinLeq
  split
  · rename_i terms run
    have start : LinLeqTerms.Collects ⟨-exp.constantTerm, none, none, [], []⟩ values
        exp.constantTerm := by
      constructor <;> simp [LinLeqTerms.unbounded, LinLeqTerms.posExcess, LinLeqTerms.negExcess]
    exact linLeqConstraints_holds
      (linLeqTerms_collects shape represents wellFormed.nonzero start run) nonpositive
  · constructor <;> simp

end LinLeq

/-! ## Constraints -/

/-- The expressions `x - y + c`, `x + c` and `-x + c`.  Where `x` and `y` are the
same variable, the difference is a number. -/
inductive IsDifference : LinearExpression V -> Prop
  | constant (c : Int) : IsDifference ⟨c, []⟩
  | upper (x : V) (c : Int) : IsDifference ⟨c, [(x, 1)]⟩
  | lower (x : V) (c : Int) : IsDifference ⟨c, [(x, -1)]⟩
  | difference (x y : V) (c : Int) : IsDifference ⟨c, [(x, 1), (y, -1)]⟩
  | reversed (x y : V) (c : Int) : IsDifference ⟨c, [(y, -1), (x, 1)]⟩

omit [LinearOrder V] in
theorem IsDifference.negate {exp : LinearExpression V} (difference : IsDifference exp) :
    IsDifference exp.negate := by
  cases difference with
  | constant c => exact .constant _
  | upper x c => exact .lower x _
  | lower x c => exact .upper x _
  | difference x y c => exact .reversed y x _
  | reversed x y c => exact .difference y x _

theorem IsDifference.plus_const {exp : LinearExpression V}
    (difference : IsDifference exp) (n : Int) :
    IsDifference (exp.plus (.const n)) := by
  cases difference with
  | constant c => exact .constant _
  | upper x c => exact .upper x _
  | lower x c => exact .lower x _
  | difference x y c => exact .difference x y _
  | reversed x y c => exact .reversed x y _

/-- A bound or a difference is not lost when it is broken up. -/
theorem nonpositive_of_diffcsts {s : SplitDbm V} {values : V -> Int} {exp : LinearExpression V}
    (difference : IsDifference exp) (varies : exp.isConstant = false)
    (holds : (s.diffcstsOfLinLeq exp).Holds values) : exp.eval values ≤ 0 := by
  have csts := holds.csts
  have lbs := holds.lbs
  have ubs := holds.ubs
  cases difference with
  | constant c => cases varies
  | upper x c =>
      have bounded : values x ≤ -c := by
        cases bound : (s.getInterval x).lb.number <;>
          simpa [diffcstsOfLinLeq, linLeqTerm, bound, linLeqConstraints] using ubs
      simp [LinearExpression.eval, LinearExpression.evalTerms]
      omega
  | lower x c =>
      have bounded : c ≤ values x := by
        cases bound : (s.getInterval x).ub.number <;>
          simpa [diffcstsOfLinLeq, linLeqTerm, bound, linLeqConstraints] using lbs
      simp [LinearExpression.eval, LinearExpression.evalTerms]
      omega
  | difference x y c =>
      have bounded : values x - values y ≤ -c := by
        cases left : (s.getInterval x).lb.number <;> cases right : (s.getInterval y).ub.number <;>
          simp [diffcstsOfLinLeq, linLeqTerm, left, right, linLeqConstraints] at csts <;> omega
      simp [LinearExpression.eval, LinearExpression.evalTerms]
      omega
  | reversed x y c =>
      have bounded : values x - values y ≤ -c := by
        cases left : (s.getInterval x).lb.number <;> cases right : (s.getInterval y).ub.number <;>
          simp [diffcstsOfLinLeq, linLeqTerm, left, right, linLeqConstraints] at csts <;> omega
      simp [LinearExpression.eval, LinearExpression.evalTerms]
      omega

/-- Every assignment of the state with the property is represented by the
result, which is nothing only if there is none. -/
def Keeps (s : SplitDbm V) (holds : (V -> Int) -> Prop) : Option (SplitDbm V) -> Prop
  | some next =>
      Invariant next ∧
        forall values, s.Represents values -> holds values -> next.Represents values
  | none => forall values, s.Represents values -> ¬ holds values

namespace Keeps

variable {s : SplitDbm V} {holds other : (V -> Int) -> Prop} {result : Option (SplitDbm V)}

theorem of_refines (refines : Refines s other result)
    (follows : forall values, s.Represents values -> holds values -> other values) :
    Keeps s holds result := by
  cases result with
  | some next =>
      refine ⟨refines.1, fun values represents holdsHere => ?_⟩
      exact (refines.2 values).mpr ⟨represents, follows values represents holdsHere⟩
  | none => exact fun values represents holdsHere => refines values represents (follows values
    represents holdsHere)

theorem bind {f : SplitDbm V -> Option (SplitDbm V)} (keeps : Keeps s holds result)
    (rest : forall next, Invariant next -> Keeps next holds (f next)) :
    Keeps s holds (result >>= f) := by
  cases result with
  | none => exact keeps
  | some next =>
      have second := rest next keeps.1
      rw [Option.bind_eq_bind, Option.bind_some]
      cases final : f next with
      | none =>
          rw [final] at second
          exact fun values represents holdsHere =>
            second values (keeps.2 values represents holdsHere) holdsHere
      | some last =>
          rw [final] at second
          exact ⟨second.1, fun values represents holdsHere =>
            second.2 values (keeps.2 values represents holdsHere) holdsHere⟩

theorem mono (keeps : Keeps s other result)
    (implies : forall values, holds values -> other values) :
    Keeps s holds result := by
  cases result with
  | some next =>
      exact ⟨keeps.1, fun values represents holdsHere =>
        keeps.2 values represents (implies values holdsHere)⟩
  | none => exact fun values represents holdsHere => keeps values represents (implies
    values holdsHere)

theorem normalize (keeps : Keeps s holds result) :
    Keeps s holds (result.map SplitDbm.normalize) := by
  cases result with
  | none => exact keeps
  | some next =>
      exact ⟨keeps.1.normalize, fun values represents holdsHere =>
        (represents_normalize values).mpr (keeps.2 values represents holdsHere)⟩

end Keeps

section Constraint

variable {s : SplitDbm V}

theorem addLinearLeq_keeps (invariant : Invariant s) {exp : LinearExpression V}
    (wellFormed : exp.WellFormed) :
    Keeps s (fun values => exp.eval values ≤ 0) (s.addLinearLeq exp) :=
  Keeps.of_refines (addLinearLeq_refines invariant exp)
    (fun _ represents => diffcstsOfLinLeq_holds invariant.wellFormed represents wellFormed)

theorem addLinearLeq_refines_difference (invariant : Invariant s) {exp : LinearExpression V}
    (wellFormed : exp.WellFormed) (difference : IsDifference exp)
    (varies : exp.isConstant = false) :
    Refines s (fun values => exp.eval values ≤ 0) (s.addLinearLeq exp) :=
  (addLinearLeq_refines invariant exp).congr (fun _ represents =>
    ⟨nonpositive_of_diffcsts difference varies,
      diffcstsOfLinLeq_holds invariant.wellFormed represents wellFormed⟩)

variable {cst : LinearConstraint V}

/-- The three kinds of inequalities, after the constraints without variables. -/
theorem addConstraint_cases (varies : cst.expression.isConstant = false) : s.addConstraint cst =
    match cst.kind with
    | .lessThanOrEqualsZero => (s.addLinearLeq cst.expression).map normalize
    | .lessThanZero => (s.addLinearLeq (cst.expression.plus (.const 1))).map normalize
    | .equalsZero =>
        (s.addLinearLeq cst.expression >>= fun s =>
          s.addLinearLeq cst.expression.negate).map normalize
    | .notZero => (cst.expression.variableTerms.foldlM (addDisequationTerm cst.expression)
      s).map normalize := by
  unfold addConstraint
  have notTautology : cst.isTautology = false := by simp [LinearConstraint.isTautology, varies]
  have notContradiction : cst.isContradiction = false := by
    simp [LinearConstraint.isContradiction, varies]
  rw [if_neg (by simp [notTautology]), if_neg (by simp [notContradiction])]
  cases cst.kind with
  | equalsZero =>
      dsimp only
      cases s.addLinearLeq cst.expression with
      | none => rfl
      | some next =>
          rw [Option.bind_eq_bind, Option.bind_some, Option.bind_some]
          cases next.addLinearLeq cst.expression.negate <;> rfl
  | lessThanOrEqualsZero => rfl
  | lessThanZero => rfl
  | notZero => rfl

theorem addConstraint_constant (fixed : cst.expression.isConstant = true) :
    s.addConstraint cst = if cst.isTautology then some s else none := by
  unfold addConstraint
  split
  · rfl
  · rename_i notTautology
    rw [if_pos (by simp [LinearConstraint.isContradiction, fixed, notTautology])]

theorem addConstraint_constant_refines (invariant : Invariant s)
    (fixed : cst.expression.isConstant = true) :
    Refines s (fun values => cst.Holds values) (s.addConstraint cst) := by
  rw [addConstraint_constant fixed]
  split
  · rename_i tautology
    exact Refines.implied invariant
      (fun values _ => LinearConstraint.holds_of_isTautology values tautology)
  · rename_i notTautology
    intro values _
    exact LinearConstraint.not_holds_of_isContradiction values
      (by simp [LinearConstraint.isContradiction, fixed, notTautology])

/-- Whatever the kind of the constraint is, no assignment that meets it is lost. -/
theorem addConstraint_keeps (invariant : Invariant s) (wellFormed : cst.expression.WellFormed)
    (kind : cst.kind ≠ .notZero) :
    Keeps s (fun values => cst.Holds values) (s.addConstraint cst) := by
  cases fixed : cst.expression.isConstant with
  | true => exact Keeps.of_refines (addConstraint_constant_refines invariant fixed) (fun _ _ => id)
  | false =>
      rw [addConstraint_cases fixed]
      rcases cst with ⟨exp, cstKind⟩
      cases cstKind with
      | notZero => exact absurd rfl kind
      | lessThanOrEqualsZero => exact (addLinearLeq_keeps invariant wellFormed).normalize
      | lessThanZero =>
          apply Keeps.normalize
          apply (addLinearLeq_keeps invariant (wellFormed.plus _)).mono
          intro values negative
          rw [LinearExpression.eval_plus, LinearExpression.eval_const]
          exact negative
      | equalsZero =>
          apply Keeps.normalize
          apply Keeps.bind
          · exact (addLinearLeq_keeps invariant wellFormed).mono (fun _ zero => le_of_eq zero)
          · intro next nextInvariant
            apply (addLinearLeq_keeps nextInvariant wellFormed.negate).mono
            intro values zero
            rw [LinearExpression.eval_negate]
            exact neg_nonpos.mpr (ge_of_eq zero)

/-- A bound or a difference is added exactly. -/
theorem addConstraint_refines (invariant : Invariant s) (wellFormed : cst.expression.WellFormed)
    (kind : cst.kind ≠ .notZero) (difference : IsDifference cst.expression) :
    Refines s (fun values => cst.Holds values) (s.addConstraint cst) := by
  cases fixed : cst.expression.isConstant with
  | true => exact addConstraint_constant_refines invariant fixed
  | false =>
      rw [addConstraint_cases fixed]
      rcases cst with ⟨exp, cstKind⟩
      cases cstKind with
      | notZero => exact absurd rfl kind
      | lessThanOrEqualsZero =>
          exact (addLinearLeq_refines_difference invariant wellFormed difference fixed).normalize
      | lessThanZero =>
          apply Refines.normalize
          apply (addLinearLeq_refines_difference invariant (wellFormed.plus _)
            (difference.plus_const 1) fixed).congr
          intro values _
          rw [LinearExpression.eval_plus, LinearExpression.eval_const]
          exact Iff.rfl
      | equalsZero =>
          have negated : exp.negate.isConstant = false := by
            simpa [LinearExpression.negate, LinearExpression.multiply, LinearExpression.isConstant]
              using fixed
          apply Refines.normalize
          have both := (addLinearLeq_refines_difference invariant wellFormed difference fixed).bind
            (fun next _ kept => addLinearLeq_refines_difference kept wellFormed.negate
              difference.negate negated)
          apply both.congr
          intro values _
          rw [LinearExpression.eval_negate]
          exact ⟨fun bounds => le_antisymm bounds.1 (neg_nonpos.mp bounds.2),
            fun zero => ⟨le_of_eq zero, neg_nonpos.mpr (ge_of_eq zero)⟩⟩

/-- `add_constraint` loses no assignment that meets the constraint, fails only if
there is none, and adds a bound or a difference exactly. -/
theorem addConstraint_exact (invariant : Invariant s) (wellFormed : cst.expression.WellFormed)
    (kind : cst.kind ≠ .notZero) :
    (forall next, s.addConstraint cst = some next -> forall values, s.Represents values ->
      cst.Holds values -> next.Represents values) ∧
    (s.addConstraint cst = none -> forall values, s.Represents values -> ¬ cst.Holds values) ∧
    (IsDifference cst.expression -> forall next, s.addConstraint cst = some next ->
      forall values, next.Represents values ↔ s.Represents values ∧ cst.Holds values) := by
  have keeps := addConstraint_keeps invariant wellFormed kind
  refine ⟨?_, ?_, ?_⟩
  · intro next result
    rw [result] at keeps
    exact keeps.2
  · intro result
    rw [result] at keeps
    exact keeps
  · intro difference next result
    have refines := addConstraint_refines invariant wellFormed kind difference
    rw [result] at refines
    exact refines.2

end Constraint

theorem addConstraint_exact_top : exists next : SplitDbm Nat,
    top.addConstraint ⟨⟨1, [(0, 1), (1, -1)]⟩, .lessThanOrEqualsZero⟩ = some next ∧
      forall values : Nat -> Int, next.Represents values ↔ values 0 < values 1 := by
  have wellFormed : LinearExpression.WellFormed (V := Nat) ⟨1, [(0, 1), (1, -1)]⟩ :=
    ⟨by decide, by decide⟩
  have exact_ := @addConstraint_exact Nat _ top ⟨_, .lessThanOrEqualsZero⟩ invariant_top
    wellFormed (by decide)
  have added : (top.addConstraint (V := Nat)
    ⟨⟨1, [(0, 1), (1, -1)]⟩, .lessThanOrEqualsZero⟩).isSome = true := by
    decide
  rcases Option.isSome_iff_exists.mp added with ⟨next, result⟩
  refine ⟨next, result, fun values => ?_⟩
  rw [exact_.2.2 (.difference 0 1 1) next result values]
  simp [represents_top, LinearConstraint.Holds, ConstraintKind.Holds, LinearExpression.eval,
    LinearExpression.evalTerms]
  omega

end SplitDbm
end Crab
end Prevail
