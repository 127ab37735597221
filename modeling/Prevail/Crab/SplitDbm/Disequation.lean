import Prevail.Crab.SplitDbm.FiniteWidth

namespace Prevail
namespace Crab
namespace SplitDbm

open DifferenceBounds

/-!
# Disequations

`add_constraint` treats a disequation one variable at a time.  The others bound
the variable to a residual interval, which is divided by its coefficient.  If the
quotient is a single number and an end of the interval of the variable, this end
is trimmed.

Trimming removes exactly the assignments that give the variable this number.  The
quotient is rounded towards zero, so that the number need not be a solution of
the equation, and then assignments are lost that meet the disequation.
-/

section Trimming

variable {V : Type} [LinearOrder V] {s first : SplitDbm V}

/-! ## Bounds that are implied -/

/-- A state with the vertices, the variables and the assignments of another
one. -/
structure SameRepresentation (first state : SplitDbm V) : Prop where
  keeps : KeepsVertices first state
  revMap : state.revMap = first.revMap
  represents : forall values, state.Represents values ↔ first.Represents values

theorem SameRepresentation.vertexValue {state : SplitDbm V} (same : SameRepresentation first state)
    (values : V -> Int) (vert : Nat) :
    state.vertexValue values vert = first.vertexValue values vert := by
  simp only [SplitDbm.vertexValue, same.revMap]

theorem SameRepresentation.updateEdge {state : SplitDbm V} (same : SameRepresentation first state)
    {src dest : Nat} {weight : Int} (srcLive : first.g.Live src) (destLive : first.g.Live dest)
    (implied : forall values, first.Represents values ->
      first.vertexValue values dest ≤ first.vertexValue values src + weight) :
    exists next, repairPotential { state with g := state.g.updateEdge src weight dest } src
      dest = some next ∧ SameRepresentation first next := by
  have refines := refines_updateEdge same.keeps.1 weight (same.keeps.live srcLive)
    (same.keeps.live destLive)
  have holds : forall values, state.Represents values ->
      state.vertexValue values dest ≤ state.vertexValue values src + weight := by
    intro values represents
    rw [same.vertexValue, same.vertexValue]
    exact implied values ((same.represents values).mp represents)
  cases result : repairPotential { state with g := state.g.updateEdge src weight dest }
    src dest with
  | none =>
      rw [result] at refines
      have represented := same.keeps.1.represents_potential
      exact absurd (holds _ represented) (refines _ represented)
  | some next =>
      refine ⟨next, rfl, same.keeps.updateEdge weight srcLive destLive result, ?_, ?_⟩
      · rcases repairPotential_eq result with ⟨p, _, rfl⟩
        exact same.revMap
      · intro values
        rw [result] at refines
        rw [refines.2 values, same.represents values]
        exact ⟨And.left, fun represents =>
          ⟨represents, holds values ((same.represents values).mpr represents)⟩⟩

theorem exists_updates (source target : Nat × Int -> Nat) (weight : Nat × Int -> Int)
    {entries : List (Nat × Int)}
    (live : ∀ entry ∈ entries, first.g.Live (source entry) ∧ first.g.Live (target entry))
    (implied : ∀ entry ∈ entries, forall values, first.Represents values ->
      first.vertexValue values (target entry) ≤ first.vertexValue values (source entry) +
      weight entry)
    {state : SplitDbm V} (same : SameRepresentation first state) :
    exists last, entries.foldlM (fun s entry =>
        if entry.1 = 0 then some s
        else repairPotential { s with
        g := s.g.updateEdge (source entry) (weight entry) (target entry) }
          (source entry) (target entry)) state = some last ∧ SameRepresentation first last := by
  induction entries generalizing state with
  | nil => exact ⟨state, rfl, same⟩
  | cons entry rest inductionHypothesis =>
      have next : exists next, (if entry.1 = 0 then some state
          else repairPotential { state with
            g := state.g.updateEdge (source entry) (weight entry) (target entry) }
            (source entry) (target entry)) = some next ∧ SameRepresentation first next := by
        have ends := live entry List.mem_cons_self
        split
        · exact ⟨state, rfl, same⟩
        · exact same.updateEdge ends.1 ends.2 (implied entry List.mem_cons_self)
      rcases next with ⟨next, result, kept⟩
      rcases inductionHypothesis (fun other member => live other (List.mem_cons_of_mem _ member))
        (fun other member => implied other (List.mem_cons_of_mem _ member)) kept with
        ⟨last, run, lastSame⟩
      refine ⟨last, ?_, lastSame⟩
      rw [List.foldlM_cons, result]
      exact run

/-- An edge is strengthened and then the bounds of other variables. -/
theorem refines_strengthen (invariant : Invariant s) {src dest : Nat} {weight old : Int}
    (here : s.g.lookup src dest = some old) (lower : weight < old)
    {f : SplitDbm V -> Option (SplitDbm V)}
    (rest : forall first, Invariant first -> first.g.lookup src dest = some weight ->
      exists last, f first = some last ∧ SameRepresentation first last) :
    Refines s (fun values => s.vertexValue values dest ≤ s.vertexValue values src + weight)
      (repairPotential { s with g := s.g.setEdge src weight dest } src dest >>= f) := by
  have ends := invariant.wellFormed.graph.ends _ _ _ here
  have below : forall other, s.g.lookup src dest = some other -> weight ≤ other := by
    intro other there
    rw [here] at there
    cases there
    exact lower.le
  have refines := refines_setEdge invariant ends.1 ends.2 below
  have returns : forall first, repairPotential { s with g := s.g.setEdge src weight dest } src
    dest = some first ->
      Invariant first -> Refines first (fun _ => True) (f first) := by
    intro first result firstInvariant
    have new : first.g.lookup src dest = some weight := by
      rw [repairPotential_g result]
      exact set_self
    rcases rest first firstInvariant new with ⟨last, run, same⟩
    rw [run]
    exact Refines.returns same.keeps.1 same.represents
  exact (refines.bind returns).congr (fun values _ => and_iff_left trivial)

theorem strengthenLb_refines (invariant : Invariant s) (v : Nat) (weight : Int) :
    Refines s (fun values => (s.g.lookup v 0).isSome = true -> 0 ≤ s.vertexValue values v + weight)
      (s.strengthenLb v weight) := by
  have zeroValue := Shape.vertexValue_zero invariant.wellFormed
  unfold strengthenLb
  split
  · rename_i present
    rcases present with ⟨old, here, lower⟩
    apply (refines_strengthen invariant (Option.mem_def.mp here) lower ?_).congr
    · intro values _
      rw [zeroValue, Option.mem_def.mp here]
      exact ⟨fun bounded _ => bounded, fun bounded => bounded rfl⟩
    · intro first firstInvariant new
      have shape := firstInvariant.wellFormed
      apply exists_updates (fun entry => entry.1) (fun _ => 0) (fun entry => entry.2 + weight) ?_ ?_
        ⟨⟨firstInvariant, rfl, rfl⟩, rfl, fun _ => Iff.rfl⟩
      · intro entry member
        have edge := shape.graph.mem_ePreds.mp member
        exact ⟨(shape.graph.ends _ _ _ edge).1, Shape.zero_live shape⟩
      · intro entry member values represents
        have edge := represents _ _ _ (shape.graph.mem_ePreds.mp member)
        have bound := represents _ _ _ new
        omega
  · rename_i absent
    apply Refines.implied invariant
    intro values represents present
    rcases Option.isSome_iff_exists.mp present with ⟨old, here⟩
    have bounded := represents _ _ _ here
    have notLower : ¬ weight < old := fun lower => absent ⟨old, here, lower⟩
    rw [zeroValue] at bounded
    omega

theorem strengthenUb_refines (invariant : Invariant s) (v : Nat) (weight : Int) :
    Refines s (fun values => (s.g.lookup 0 v).isSome = true -> s.vertexValue values v ≤ weight)
      (s.strengthenUb v weight) := by
  have zeroValue := Shape.vertexValue_zero invariant.wellFormed
  unfold strengthenUb
  split
  · rename_i present
    rcases present with ⟨old, here, lower⟩
    apply (refines_strengthen invariant (Option.mem_def.mp here) lower ?_).congr
    · intro values _
      rw [zeroValue, Option.mem_def.mp here, zero_add]
      exact ⟨fun bounded _ => bounded, fun bounded => bounded rfl⟩
    · intro first firstInvariant new
      have shape := firstInvariant.wellFormed
      apply exists_updates (fun _ => 0) (fun entry => entry.1) (fun entry => entry.2 + weight) ?_ ?_
        ⟨⟨firstInvariant, rfl, rfl⟩, rfl, fun _ => Iff.rfl⟩
      · intro entry member
        have edge := shape.graph.mem_eSuccs.mp member
        exact ⟨Shape.zero_live shape, (shape.graph.ends _ _ _ edge).2⟩
      · intro entry member values represents
        have edge := represents _ _ _ (shape.graph.mem_eSuccs.mp member)
        have bound := represents _ _ _ new
        omega
  · rename_i absent
    apply Refines.implied invariant
    intro values represents present
    rcases Option.isSome_iff_exists.mp present with ⟨old, here⟩
    have bounded := represents _ _ _ here
    have notLower : ¬ weight < old := fun lower => absent ⟨old, here, lower⟩
    rw [zeroValue] at bounded
    omega

omit [LinearOrder V] in
/-- A bound that is not lower than the edge that is there changes nothing. -/
theorem strengthenLb_unchanged {v : Nat} {weight : Int}
    (notLower : forall old, s.g.lookup v 0 = some old -> old ≤ weight) :
    s.strengthenLb v weight = some s := by
  unfold strengthenLb
  rw [if_neg]
  rintro ⟨old, here, lower⟩
  exact absurd (notLower old (Option.mem_def.mp here)) (not_le.mpr lower)

omit [LinearOrder V] in
theorem strengthenUb_unchanged {v : Nat} {weight : Int}
    (notLower : forall old, s.g.lookup 0 v = some old -> old ≤ weight) :
    s.strengthenUb v weight = some s := by
  unfold strengthenUb
  rw [if_neg]
  rintro ⟨old, here, lower⟩
  exact absurd (notLower old (Option.mem_def.mp here)) (not_le.mpr lower)

/-! ## One variable -/

/-- The number is an end of the interval of the variable. -/
def TrimsAt (s : SplitDbm V) (x : V) (n : Int) : Prop :=
  (s.getInterval x).lb = .ofNumber n ∨ (s.getInterval x).ub = .ofNumber n

instance (s : SplitDbm V) (x : V) (n : Int) : Decidable (s.TrimsAt x n) := by
  unfold TrimsAt
  infer_instance

/-- The vertex of a variable bounds it as its interval does. -/
theorem getInterval_getVert (invariant : Invariant s) (x : V) :
    s.getInterval x = ⟨(s.getVert x).2.lowerBound (s.getVert x).1,
      (s.getVert x).2.upperBound (s.getVert x).1⟩ := by
  rw [← getInterval_of_tryAt (invariant.getVert x) (tryAt_getVert_self invariant.wellFormed x)]
  rcases getVert_cases (s := s) x with ⟨vert, _, same⟩ | ⟨absent, fresh, _⟩
  · rw [same]
  · have notLive : ¬ s.g.Live (s.getVert x).1 := by
      rw [fresh]
      exact allocate_not_live x 0
    have noLower : (s.getVert x).2.g.lookup (s.getVert x).1 0 = none := by
      rw [getVert_lookup, Option.eq_none_iff_forall_ne_some]
      exact fun weight here => notLive (invariant.wellFormed.graph.ends _ _ _ here).1
    have noUpper : (s.getVert x).2.g.lookup 0 (s.getVert x).1 = none := by
      rw [getVert_lookup, Option.eq_none_iff_forall_ne_some]
      exact fun weight here => notLive (invariant.wellFormed.graph.ends _ _ _ here).2
    rw [getInterval_of_tryAt (invariant.getVert x) (tryAt_getVert_self invariant.wellFormed x),
      getInterval, absent, lowerBound, upperBound, noLower, noUpper]
    rfl

/-- The part of `add_univar_disequation` for the lower bound of the trimmed
interval. -/
def raiseLower (s : SplitDbm V) (v : Nat) (bound : Bound) : Option (SplitDbm V) :=
  match bound.number with
  | some lb => s.strengthenLb v (-lb)
  | none => some s

/-- The part for the upper bound. -/
def lowerUpper (s : SplitDbm V) (v : Nat) (bound : Bound) : Option (SplitDbm V) :=
  match bound.number with
  | some ub => s.strengthenUb v ub
  | none => some s

/-- What is done with the trimmed interval. -/
def applyBounds (s : SplitDbm V) (v : Nat) (newI : Interval) : Option (SplitDbm V) :=
  (s.raiseLower v newI.lb >>= fun s => s.lowerUpper v newI.ub).map SplitDbm.normalize

theorem addUnivarDisequation_eq (x : V) (n : Int) : s.addUnivarDisequation x n =
    if (trimInterval (s.getInterval x) n).IsBottom then none
    else if (trimInterval (s.getInterval x) n).IsTop ∨
      ¬ trimInterval (s.getInterval x) n ≤ s.getInterval x then some s
    else (s.getVert x).2.applyBounds (s.getVert x).1 (trimInterval (s.getInterval x) n) := by
  unfold addUnivarDisequation applyBounds raiseLower lowerUpper
  dsimp only
  split
  · rfl
  · split
    · rfl
    · generalize trimInterval (s.getInterval x) n = newI
      rw [Option.map_eq_bind]
      cases newI.lb.number with
      | none => cases newI.ub.number <;> rfl
      | some lb =>
          dsimp only
          cases (s.getVert x).2.strengthenLb (s.getVert x).1 (-lb) <;> cases newI.ub.number <;> rfl

section ApplyBounds

variable {v : Nat} {x : V} {i : Interval} {n : Int}

omit [LinearOrder V] in
theorem raiseLower_lowerBound : s.raiseLower v (s.lowerBound v) = some s := by
  cases isLower : s.lowerBound v with
  | ofNumber lb =>
      apply strengthenLb_unchanged
      intro old here
      rw [lowerBound, here] at isLower
      have number := Bound.ofNumber.inj isLower
      omega
  | minusInfinity => rfl
  | plusInfinity => rfl

omit [LinearOrder V] in
theorem lowerUpper_upperBound : s.lowerUpper v (s.upperBound v) = some s := by
  cases isUpper : s.upperBound v with
  | ofNumber ub =>
      apply strengthenUb_unchanged
      intro old here
      rw [upperBound, here] at isUpper
      exact (Bound.ofNumber.inj isUpper).le
  | minusInfinity => rfl
  | plusInfinity => rfl

omit [LinearOrder V] in
/-- The bounds of a variable change nothing. -/
theorem applyBounds_same : s.applyBounds v ⟨s.lowerBound v, s.upperBound v⟩ = some s.normalize := by
  rw [applyBounds, raiseLower_lowerBound, Option.bind_eq_bind, Option.bind_some,
    lowerUpper_upperBound]
  rfl

omit [LinearOrder V] in
theorem strengthenLb_revMap {weight : Int} {next : SplitDbm V}
    (result : s.strengthenLb v weight = some next) :
    next.revMap = s.revMap := by
  unfold strengthenLb at result
  split at result
  · rw [Option.bind_eq_bind, Option.bind_eq_some_iff] at result
    rcases result with ⟨first, edge, run⟩
    have start : first.revMap = s.revMap := by
      rcases repairPotential_eq edge with ⟨p, _, rfl⟩
      rfl
    refine @foldlM_invariant V _ _ _ (fun state => state.revMap = s.revMap) _ _ ?_ start run
    intro state pred _ last same step
    split at step
    · cases step
      exact same
    · rcases repairPotential_eq step with ⟨p, _, rfl⟩
      exact same
  · cases result
    rfl

/-- An upper bound that holds already is no restriction. -/
theorem lowerUpper_refines (invariant : Invariant s) {bound : Bound}
    (implied : forall values, s.Represents values -> .ofNumber (s.vertexValue values v) ≤ bound) :
    Refines s (fun _ => True) (s.lowerUpper v bound) := by
  unfold lowerUpper
  split
  · rename_i ub isNumber
    apply (strengthenUb_refines invariant v ub).congr
    intro values represents
    refine iff_of_true (fun _ => ?_) trivial
    have bounded := implied values represents
    rwa [Bound.number_eq_some.mp isNumber, Bound.ofNumber_le_ofNumber] at bounded
  · exact Refines.unchanged invariant

theorem applyBounds_lower (invariant : Invariant s) (found : s.tryAt x = some v)
    (isLower : s.lowerBound v = .ofNumber n) :
    Refines s (fun values => values x ≠ n)
    (s.applyBounds v ⟨.ofNumber (n + 1), s.upperBound v⟩) := by
  have present : (s.g.lookup v 0).isSome = true := by
    rw [lowerBound] at isLower
    split at isLower
    · rename_i weight here
      rw [here]
      rfl
    · cases isLower
  have value := fun values => Shape.vertexValue_of_tryAt invariant.wellFormed values found
  have raised : Refines s (fun values => values x ≠ n) (s.strengthenLb v (-(n + 1))) := by
    apply (strengthenLb_refines invariant v (-(n + 1))).congr
    intro values represents
    have bounded := Shape.lowerBound_le invariant.wellFormed represents found
    rw [isLower, Bound.ofNumber_le_ofNumber] at bounded
    rw [value]
    constructor
    · intro above
      have strict := above present
      omega
    · intro different _
      omega
  have upper : forall next, s.strengthenLb v (-(n + 1)) = some next -> Invariant next ->
      Refines next (fun _ => True) (next.lowerUpper v (s.upperBound v)) := by
    intro next result nextInvariant
    apply lowerUpper_refines nextInvariant
    intro values represents
    rw [result] at raised
    have before := ((raised.2 values).mp represents).1
    have same : next.vertexValue values v = s.vertexValue values v := by
      simp only [vertexValue, strengthenLb_revMap result]
    rw [same, value]
    exact Shape.le_upperBound invariant.wellFormed before found
  exact ((raised.bind upper).congr (fun values _ => and_iff_left trivial)).normalize

theorem applyBounds_upper (invariant : Invariant s) (found : s.tryAt x = some v)
    (isUpper : s.upperBound v = .ofNumber n) :
    Refines s (fun values => values x ≠ n)
    (s.applyBounds v ⟨s.lowerBound v, .ofNumber (n - 1)⟩) := by
  have present : (s.g.lookup 0 v).isSome = true := by
    rw [upperBound] at isUpper
    split at isUpper
    · rename_i weight here
      rw [here]
      rfl
    · cases isUpper
  have lowered : Refines s (fun values => values x ≠ n) (s.strengthenUb v (n - 1)) := by
    apply (strengthenUb_refines invariant v (n - 1)).congr
    intro values represents
    have bounded := Shape.le_upperBound invariant.wellFormed represents found
    rw [isUpper, Bound.ofNumber_le_ofNumber] at bounded
    rw [Shape.vertexValue_of_tryAt invariant.wellFormed values found]
    constructor
    · intro below
      have strict := below present
      omega
    · intro different _
      omega
  rw [applyBounds, raiseLower_lowerBound, Option.bind_eq_bind, Option.bind_some]
  exact lowered.normalize

end ApplyBounds

omit [LinearOrder V] in
/-- Without edges, no bound is added. -/
theorem applyBounds_absent {v : Nat} (noLower : s.g.lookup v 0 = none)
    (noUpper : s.g.lookup 0 v = none)
    (newI : Interval) : s.applyBounds v newI = some s.normalize := by
  have lower : s.raiseLower v newI.lb = some s := by
    unfold raiseLower
    split
    · exact strengthenLb_unchanged (fun old here => by rw [noLower] at here; cases here)
    · rfl
  have upper : s.lowerUpper v newI.ub = some s := by
    unfold lowerUpper
    split
    · exact strengthenUb_unchanged (fun old here => by rw [noUpper] at here; cases here)
    · rfl
  rw [applyBounds, lower, Option.bind_eq_bind, Option.bind_some, upper]
  rfl

section Univariate

variable (invariant : Invariant s) {x : V} {n : Int}

include invariant

theorem getInterval_nonempty (x : V) : ¬ (s.getInterval x).IsBottom :=
  Interval.not_isBottom_of_mem (Shape.mem_getInterval invariant.wellFormed
    invariant.represents_potential x)

theorem addUnivarDisequation_lower (lower : (s.getInterval x).lb = .ofNumber n) :
    Refines s (fun values => values x ≠ n) (s.addUnivarDisequation x n) := by
  rw [addUnivarDisequation_eq, trimInterval, if_pos lower]
  split
  · rename_i empty
    intro values represents different
    have inside := Shape.mem_getInterval invariant.wellFormed represents x
    have above := inside.1
    have below := inside.2.trans_lt (Interval.isBottom_mk'.mp empty)
    rw [lower, Bound.ofNumber_le_ofNumber] at above
    rw [Bound.ofNumber_lt_ofNumber] at below
    exact different (by omega)
  · rename_i inhabited
    rw [Interval.isBottom_mk'] at inhabited
    have inside : (⟨.ofNumber (n + 1), (s.getInterval x).ub⟩ : Interval) ≤ s.getInterval x := by
      refine Or.inr ⟨getInterval_nonempty invariant x, ?_, le_rfl⟩
      rw [lower, Bound.ofNumber_le_ofNumber]
      omega
    have notTop : ¬ Interval.IsTop ⟨.ofNumber (n + 1), (s.getInterval x).ub⟩ := by
      intro isTop
      cases isTop.1
    rw [Interval.mk', if_neg inhabited, if_neg (not_or.mpr ⟨notTop, not_not.mpr inside⟩)]
    have bounds := getInterval_getVert invariant x
    rw [bounds] at lower ⊢
    exact Refines.of_same (getVert_represents invariant.wellFormed x)
      (applyBounds_lower (invariant.getVert x) (tryAt_getVert_self invariant.wellFormed x) lower)

theorem addUnivarDisequation_upper (notLower : (s.getInterval x).lb ≠ .ofNumber n)
    (upper : (s.getInterval x).ub = .ofNumber n) :
    Refines s (fun values => values x ≠ n) (s.addUnivarDisequation x n) := by
  have nonempty := getInterval_nonempty invariant x
  have below : ¬ (s.getInterval x).lb > .ofNumber (n - 1) := by
    have ordered := le_of_not_gt nonempty
    rw [upper] at ordered
    apply not_lt_of_ge
    cases isLower : (s.getInterval x).lb with
    | minusInfinity => exact Bound.minusInfinity_le _
    | ofNumber lb =>
        rw [isLower] at notLower ordered
        rw [Bound.ofNumber_le_ofNumber] at ordered ⊢
        have different : lb ≠ n := fun same => notLower (congrArg Bound.ofNumber same)
        omega
    | plusInfinity =>
        rw [isLower] at ordered
        exact absurd ordered id
  have inside : (⟨(s.getInterval x).lb, .ofNumber (n - 1)⟩ : Interval) ≤ s.getInterval x := by
    refine Or.inr ⟨nonempty, le_rfl, ?_⟩
    rw [upper, Bound.ofNumber_le_ofNumber]
    omega
  have notBottom : ¬ Interval.IsBottom ⟨(s.getInterval x).lb, .ofNumber (n - 1)⟩ := below
  have notTop : ¬ Interval.IsTop ⟨(s.getInterval x).lb, .ofNumber (n - 1)⟩ := by
    intro isTop
    cases isTop.2
  rw [addUnivarDisequation_eq, trimInterval, if_neg notLower, if_pos upper, Interval.mk',
    if_neg below, if_neg notBottom, if_neg (not_or.mpr ⟨notTop, not_not.mpr inside⟩)]
  have bounds := getInterval_getVert invariant x
  rw [bounds] at upper ⊢
  exact Refines.of_same (getVert_represents invariant.wellFormed x)
    (applyBounds_upper (invariant.getVert x) (tryAt_getVert_self invariant.wellFormed x) upper)

/-- A number that is not an end of the interval excludes nothing, not even where
an unbounded interval is trimmed at zero. -/
theorem addUnivarDisequation_between (notTrimmed : ¬ s.TrimsAt x n) :
    Refines s (fun _ => True) (s.addUnivarDisequation x n) := by
  have same := getVert_represents invariant.wellFormed x
  have returns := Refines.of_same same
    (Refines.returns (invariant.getVert x).normalize represents_normalize)
  have bounds := getInterval_getVert invariant x
  rcases not_or.mp notTrimmed with ⟨notLower, notUpper⟩
  rw [addUnivarDisequation_eq, trimInterval, if_neg notLower, if_neg notUpper]
  by_cases isTop : (s.getInterval x).IsTop ∧ n = 0
  · have notBottom : ¬ (Interval.range 1 IntType.uint64.max).IsBottom := by decide
    rw [if_pos isTop, if_neg notBottom]
    split
    · exact Refines.unchanged invariant
    · rw [bounds] at isTop
      have noLower : (s.getVert x).2.g.lookup (s.getVert x).1 0 = none := by
        have none_ := isTop.1.1
        cases here : (s.getVert x).2.g.lookup (s.getVert x).1 0 with
        | none => rfl
        | some weight => simp [lowerBound, here, Bound.number] at none_
      have noUpper : (s.getVert x).2.g.lookup 0 (s.getVert x).1 = none := by
        have none_ := isTop.1.2
        cases here : (s.getVert x).2.g.lookup 0 (s.getVert x).1 with
        | none => rfl
        | some weight => simp [upperBound, here, Bound.number] at none_
      rw [applyBounds_absent noLower noUpper]
      exact returns
  · rw [if_neg isTop, if_neg (getInterval_nonempty invariant x)]
    split
    · exact Refines.unchanged invariant
    · rw [bounds, applyBounds_same]
      exact returns

/-- Exactly the assignments with the number are excluded, where it is an end of
the interval. -/
theorem addUnivarDisequation_refines (x : V) (n : Int) :
    Refines s (fun values => s.TrimsAt x n -> values x ≠ n) (s.addUnivarDisequation x n) := by
  by_cases lower : (s.getInterval x).lb = .ofNumber n
  · apply (addUnivarDisequation_lower invariant lower).congr
    exact fun values _ => ⟨fun different _ => different, fun different => different (Or.inl lower)⟩
  by_cases upper : (s.getInterval x).ub = .ofNumber n
  · apply (addUnivarDisequation_upper invariant lower upper).congr
    exact fun values _ => ⟨fun different _ => different, fun different => different (Or.inr upper)⟩
  · have notTrimmed : ¬ s.TrimsAt x n := not_or.mpr ⟨lower, upper⟩
    apply (addUnivarDisequation_between invariant notTrimmed).congr
    exact fun values _ => iff_of_true trivial (fun trims => absurd trims notTrimmed)

end Univariate

/-! ## All variables -/

/-- The number at which a term of a disequation trims its variable: an end of
its interval that is the only quotient of the residual and the coefficient. -/
def trimPoint (e : LinearExpression V) (s : SplitDbm V) (term : V × Int) : Option Int :=
  ((s.computeResidual e term.1).divide term.2).singleton.filter (fun k => s.TrimsAt term.1 k)

theorem trimPoint_eq_some {e : LinearExpression V} {term : V × Int} {k : Int} :
    trimPoint e s term = some k ↔ ((s.computeResidual e term.1).divide term.2).singleton = some k ∧
      s.TrimsAt term.1 k := by
  rw [trimPoint, Option.filter_eq_some_iff, decide_eq_true_eq]

theorem addDisequationTerm_refines (invariant : Invariant s) (e : LinearExpression V)
    (term : V × Int) :
    Refines s (fun values => forall k, trimPoint e s term = some k -> values term.1 ≠ k)
      (addDisequationTerm e s term) := by
  unfold addDisequationTerm
  split
  · rename_i k single
    apply (addUnivarDisequation_refines invariant term.1 k).congr
    intro values _
    constructor
    · intro different other trimmed
      rw [trimPoint_eq_some, single] at trimmed
      cases trimmed.1
      exact different trimmed.2
    · intro different trims
      exact different k (trimPoint_eq_some.mpr ⟨single, trims⟩)
  · rename_i many
    apply Refines.implied invariant
    intro values _ k trimmed
    rw [trimPoint_eq_some, many] at trimmed
    cases trimmed.1

/-- An assignment avoids the numbers at which the terms of a disequation trim
their variables, each term in the state that the terms before it leave. -/
def AvoidsTrims (e : LinearExpression V) : List (V × Int) -> SplitDbm V -> (V -> Int) -> Prop
  | [], _, _ => True
  | term :: rest, s, values =>
      (forall k, trimPoint e s term = some k -> values term.1 ≠ k) ∧
        forall next, addDisequationTerm e s term = some next -> AvoidsTrims e rest next values

/-- Whether the trims are avoided depends on the variables of the terms only. -/
theorem AvoidsTrims.congr {e : LinearExpression V} {terms : List (V × Int)}
    {values others : V -> Int}
    (avoids : AvoidsTrims e terms s others) (same : ∀ term ∈ terms, others term.1 = values term.1) :
    AvoidsTrims e terms s values := by
  induction terms generalizing s with
  | nil => trivial
  | cons term rest inductionHypothesis =>
      constructor
      · intro k trimmed
        rw [← same term List.mem_cons_self]
        exact avoids.1 k trimmed
      · intro next result
        exact inductionHypothesis (avoids.2 next result)
          (fun other inRest => same other (List.mem_cons_of_mem _ inRest))

theorem addDisequationTerms_refines (e : LinearExpression V) (terms : List (V × Int))
    (invariant : Invariant s) :
    Refines s (AvoidsTrims e terms s) (terms.foldlM (addDisequationTerm e) s) := by
  induction terms generalizing s with
  | nil => exact Refines.unchanged invariant
  | cons term rest inductionHypothesis =>
      rw [List.foldlM_cons]
      apply (addDisequationTerm_refines invariant e term).bind
      intro next result nextInvariant
      apply (inductionHypothesis nextInvariant).congr
      intro values _
      simp only [result, Option.some.injEq, forall_eq']

/-- A disequation excludes exactly the assignments that do not avoid its trims. -/
theorem addDisequation_refines (invariant : Invariant s) {e : LinearExpression V}
    (varies : e.isConstant = false) :
    Refines s (AvoidsTrims e e.variableTerms s) (s.addConstraint ⟨e, .notZero⟩) := by
  rw [@addConstraint_cases V _ s ⟨e, .notZero⟩ varies]
  exact (addDisequationTerms_refines e e.variableTerms invariant).normalize

theorem Refines.keeps_iff {holds other : (V -> Int) -> Prop} {result : Option (SplitDbm V)}
    (refines : Refines s other result) :
    Keeps s holds result ↔ forall values, s.Represents values -> holds values -> other values := by
  constructor
  · intro keeps values represents holdsHere
    cases result with
    | none => exact absurd holdsHere (keeps values represents)
    | some next => exact ((refines.2 values).mp (keeps.2 values represents holdsHere)).2
  · exact Keeps.of_refines refines

/-- A disequation is added soundly exactly where the assignments that meet it
avoid its trims. -/
theorem addDisequation_keeps_iff_avoids (invariant : Invariant s) (e : LinearExpression V) :
    Keeps s (fun values => e.eval values ≠ 0) (s.addConstraint ⟨e, .notZero⟩) ↔
      forall values, s.Represents values -> e.eval values ≠ 0 ->
      AvoidsTrims e e.variableTerms s values := by
  cases varies : e.isConstant with
  | true =>
      have refines := @addConstraint_constant_refines V _ s ⟨e, .notZero⟩ invariant varies
      rw [List.isEmpty_iff.mp varies]
      exact iff_of_true (Keeps.of_refines refines (fun _ _ => id)) (fun _ _ _ => trivial)
  | false => exact (addDisequation_refines invariant varies).keeps_iff

end Trimming

end SplitDbm

/-! ## Coefficients that divide -/

namespace Interval

theorem mem_sub {left right : Interval} {m n : Int} (inLeft : m ∈ left) (inRight : n ∈ right) :
    m - n ∈ left.sub right := by
  have lower : right.ub.neg ≤ .ofNumber (-n) := by
    have upper := inRight.2
    cases isUpper : right.ub with
    | minusInfinity =>
        rw [isUpper] at upper
        exact absurd upper id
    | ofNumber ub =>
        rw [isUpper, Bound.ofNumber_le_ofNumber] at upper
        exact Bound.ofNumber_le_ofNumber.mpr (neg_le_neg upper)
    | plusInfinity => exact Bound.minusInfinity_le _
  have upper : .ofNumber (-n) ≤ right.lb.neg := by
    have lower := inRight.1
    cases isLower : right.lb with
    | minusInfinity => exact Bound.le_plusInfinity _
    | ofNumber lb =>
        rw [isLower, Bound.ofNumber_le_ofNumber] at lower
        exact Bound.ofNumber_le_ofNumber.mpr (neg_le_neg lower)
    | plusInfinity =>
        rw [isLower] at lower
        exact absurd lower id
  rw [sub, if_neg (not_or.mpr ⟨not_isBottom_of_mem inLeft, not_isBottom_of_mem inRight⟩),
    sub_eq_add_neg]
  exact ⟨Bound.addLower_le inLeft.1 lower, Bound.le_addUpper inLeft.2 upper⟩

theorem eq_ofNumber_of_mk' {lb ub : Bound} {k : Int} (single : (mk' lb ub).singleton = some k) :
    lb = .ofNumber k ∧ ub = .ofNumber k := by
  rw [singleton_eq_some, mk'] at single
  split at single
  · cases single
  · exact Interval.mk.inj single

theorem tdiv_of_singleton {interval : Interval} {divisor k m : Int} (nonzero : divisor ≠ 0)
    (single : (interval.divide divisor).singleton = some k) (member : m ∈ interval) :
    m.tdiv divisor = k := by
  have ends : forall {bound : Bound}, bound.divide divisor = .ofNumber k ->
      exists n, bound = .ofNumber n ∧ n.tdiv divisor = k := by
    intro bound quotient
    cases bound with
    | minusInfinity => cases quotient
    | ofNumber n => exact ⟨n, rfl, Bound.ofNumber.inj quotient⟩
    | plusInfinity => cases quotient
  have between : forall {l u : Int}, interval.lb = .ofNumber l -> interval.ub = .ofNumber u ->
      l ≤ m ∧ m ≤ u := by
    intro l u isLower isUpper
    have bounds := member
    rwa [mem_def, isLower, isUpper, Bound.ofNumber_le_ofNumber,
      Bound.ofNumber_le_ofNumber] at bounds
  rw [divide, if_neg (not_isBottom_of_mem member)] at single
  split at single
  · rename_i isOne
    rw [isOne, Int.tdiv_one]
    exact eq_of_singleton single member
  · split at single
    · rename_i positive
      rcases eq_ofNumber_of_mk' single with ⟨lower, upper⟩
      rcases ends lower with ⟨l, isLower, atLower⟩
      rcases ends upper with ⟨u, isUpper, atUpper⟩
      rcases between isLower isUpper with ⟨above, below⟩
      exact le_antisymm ((Int.tdiv_le_tdiv positive below).trans_eq atUpper)
        (atLower.symm.trans_le (Int.tdiv_le_tdiv positive above))
    · rw [if_pos (by omega)] at single
      rcases eq_ofNumber_of_mk' single with ⟨lower, upper⟩
      rcases ends lower with ⟨u, isUpper, atUpper⟩
      rcases ends upper with ⟨l, isLower, atLower⟩
      rcases between isLower isUpper with ⟨above, below⟩
      have positive : 0 < -divisor := by omega
      have first := Int.tdiv_le_tdiv positive below
      have second := Int.tdiv_le_tdiv positive above
      rw [Int.tdiv_neg, Int.tdiv_neg] at first second
      omega

end Interval

namespace SplitDbm

section Divides

variable {V : Type} [LinearOrder V] {s : SplitDbm V} {e : LinearExpression V} {x : V}
  {values : V -> Int}

theorem mem_residual (within : forall y, values y ∈ s.getInterval y) (terms : List (V × Int))
    {residual : Interval} {m : Int} (member : m ∈ residual) :
    m - LinearExpression.evalTerms values (terms.filter (fun term => decide (term.1 ≠ x))) ∈
      terms.foldl (fun residual term =>
        if term.1 = x then residual
        else residual.sub ((s.getInterval term.1).scale term.2)) residual := by
  induction terms generalizing residual m with
  | nil =>
      have zero : m - LinearExpression.evalTerms values [] = m := by
        simp [LinearExpression.evalTerms]
      rw [List.filter_nil, zero]
      exact member
  | cons term rest inductionHypothesis =>
      rw [List.foldl_cons]
      by_cases same : term.1 = x
      · rw [if_pos same, List.filter_cons_of_neg (by simp [same])]
        exact inductionHypothesis member
      · have inside := Interval.mem_scale term.2 (within term.1)
        have rest_ := inductionHypothesis (Interval.mem_sub member inside)
        rw [if_neg same, List.filter_cons_of_pos (by simp [same])]
        have sum : m - LinearExpression.evalTerms values
            (term :: rest.filter (fun term => decide (term.1 ≠ x))) =
              m - term.2 * values term.1 -
                LinearExpression.evalTerms values
                (rest.filter (fun term => decide (term.1 ≠ x))) := by
          simp only [LinearExpression.evalTerms, List.map_cons, List.sum_cons]
          ring
        rw [sum]
        exact rest_

theorem evalTerms_split {terms : List (V × Int)} (distinct : (terms.map Prod.fst).Nodup) {c : Int}
    (member : (x, c) ∈ terms) : LinearExpression.evalTerms values terms =
      c * values x + LinearExpression.evalTerms values
      (terms.filter (fun term => decide (term.1 ≠ x))) := by
  induction terms with
  | nil => cases member
  | cons term rest inductionHypothesis =>
      rw [List.map_cons, List.nodup_cons] at distinct
      rcases List.mem_cons.mp member with rfl | later
      · have others : rest.filter (fun term => decide (term.1 ≠ x)) = rest := by
          apply List.filter_eq_self.mpr
          intro other inRest
          rw [decide_eq_true_eq]
          rintro rfl
          exact distinct.1 (List.mem_map.mpr ⟨other, inRest, rfl⟩)
        rw [List.filter_cons_of_neg (by simp), others]
        simp [LinearExpression.evalTerms]
      · have different : term.1 ≠ x := by
          rintro rfl
          exact distinct.1 (List.mem_map.mpr ⟨_, later, rfl⟩)
        have rest_ := inductionHypothesis distinct.2 later
        rw [List.filter_cons_of_pos (by simp [different])]
        simp only [LinearExpression.evalTerms, List.map_cons, List.sum_cons] at rest_ ⊢
        omega

/-- The residual holds what the term of the variable is where the expression is
zero. -/
theorem mem_computeResidual (within : forall y, values y ∈ s.getInterval y)
    (wellFormed : e.WellFormed) {c : Int}
    (member : (x, c) ∈ e.variableTerms) : c * values x - e.eval values ∈ s.computeResidual e x := by
  have inside := mem_residual (x := x) within e.variableTerms
    (Interval.mem_ofNumber.mpr (rfl : -e.constantTerm = -e.constantTerm))
  have same : c * values x - e.eval values = -e.constantTerm -
      LinearExpression.evalTerms values
      (e.variableTerms.filter (fun term => decide (term.1 ≠ x))) := by
    rw [LinearExpression.eval, evalTerms_split wellFormed.distinct member]
    ring
  rw [same]
  exact inside

/-- A coefficient that divides the residual trims solutions of the equation
only. -/
theorem ne_trimPoint_of_dvd (invariant : Invariant s) (represents : s.Represents values)
    (wellFormed : e.WellFormed)
    {term : V × Int} (member : term ∈ e.variableTerms)
    (divides : ∀ r ∈ s.computeResidual e term.1, term.2 ∣ r)
    (nonzero : e.eval values ≠ 0) {k : Int} (trimmed : trimPoint e s term = some k) :
    values term.1 ≠ k := by
  intro isTrimmed
  have inside := mem_computeResidual (Shape.mem_getInterval invariant.wellFormed represents)
    wellFormed member
  have quotient := Interval.tdiv_of_singleton (wellFormed.nonzero term member)
    (trimPoint_eq_some.mp trimmed).1 inside
  have exact_ := Int.mul_tdiv_cancel' (divides _ inside)
  rw [quotient, isTrimmed] at exact_
  omega

/-- Coefficients that are units divide everything. -/
theorem avoidsTrims_of_units (wellFormed : e.WellFormed) (terms : List (V × Int))
    (units : ∀ term ∈ terms, term ∈ e.variableTerms ∧ IsUnit term.2) (invariant : Invariant s)
    (represents : s.Represents values) (nonzero : e.eval values ≠ 0) :
    AvoidsTrims e terms s values := by
  induction terms generalizing s with
  | nil => trivial
  | cons term rest inductionHypothesis =>
      have head := units term List.mem_cons_self
      have avoids : forall k, trimPoint e s term = some k -> values term.1 ≠ k := fun k trimmed =>
        ne_trimPoint_of_dvd invariant represents wellFormed head.1
          (fun r _ => head.2.dvd) nonzero trimmed
      refine ⟨avoids, fun next result => ?_⟩
      have refines := addDisequationTerm_refines invariant e term
      rw [result] at refines
      exact inductionHypothesis
        (fun other inRest => units other (List.mem_cons_of_mem _ inRest)) refines.1
        ((refines.2 values).mpr ⟨represents, avoids⟩)

end Divides

end SplitDbm
end Crab
end Prevail
