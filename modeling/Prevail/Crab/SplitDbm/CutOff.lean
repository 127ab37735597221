import Prevail.Crab.SplitDbm.Disequation
import Prevail.Crab.SplitDbm.Normal

namespace Prevail
namespace Crab

open DifferenceBounds

/-!
# What a disequation cuts off

The terms of a disequation are gone through one after the other, over a set of valuations.
What the other terms leave for a term is divided by its coefficient, for all valuations in
the hull of the set.  If the quotient is one and the same number, rounded towards zero, and
this number is the least or the greatest value of the variable in the set, then the
valuations with this value are cut off.

This is right where the coefficient divides what is left, since the equation holds there.
`add_constraint` cuts off nothing else, and in normal form nothing less.
-/

/-! ## Sets of valuations -/

section Valuations

variable {V : Type}

/-- A valuation between valuations of a set, variable by variable. -/
def InHull (S : Set (V -> Int)) (values : V -> Int) : Prop :=
  forall x, ∃ lower ∈ S, ∃ upper ∈ S, lower x ≤ values x ∧ values x ≤ upper x

/-- What the other terms of an equation leave for a term. -/
def LinearExpression.leaves (e : LinearExpression V) (term : V × Int) (values : V -> Int) : Int :=
  term.2 * values term.1 - e.eval values

/-- The least or the greatest value of a variable. -/
def IsEnd (S : Set (V -> Int)) (x : V) (k : Int) : Prop :=
  IsLeast {n | ∃ values ∈ S, values x = n} k ∨ IsGreatest {n | ∃ values ∈ S, values x = n} k

/-- A number is cut off: the rounded quotient for the whole hull, and an end of the values
of the variable. -/
structure CutsOff (e : LinearExpression V) (term : V × Int) (S : Set (V -> Int))
    (k : Int) : Prop where
  quotient : forall values, InHull S values -> (e.leaves term values).tdiv term.2 = k
  isEnd : IsEnd S term.1 k

/-- The valuations that a term does not cut off. -/
def remaining (e : LinearExpression V) (term : V × Int) (S : Set (V -> Int)) : Set (V -> Int) :=
  {values ∈ S | ¬ CutsOff e term S (values term.1)}

/-- No term cuts off a valuation. -/
def Survives (e : LinearExpression V) : List (V × Int) -> Set (V -> Int) -> (V -> Int) -> Prop
  | [], _, _ => True
  | term :: rest, S, values =>
      ¬ CutsOff e term S (values term.1) ∧ Survives e rest (remaining e term S) values

/-- The disequation of two variables cuts off a valuation: they are equal there, one of
them has this value only, and it is an end of the values of the other one. -/
def CutsEqual (S : Set (V -> Int)) (u v : V) (values : V -> Int) : Prop :=
  values u = values v ∧
    (((∀ others ∈ S, others v = values v) ∧ IsEnd S u (values u)) ∨
      ((∀ others ∈ S, others u = values u) ∧ IsEnd S v (values v)))

/-- Each coefficient divides what is left for its term, wherever the term cuts off a
valuation that the terms before it did not. -/
def DividesCutOff (e : LinearExpression V) : List (V × Int) -> Set (V -> Int) -> Prop
  | [], _ => True
  | term :: rest, S =>
      (∀ values ∈ S, CutsOff e term S (values term.1) -> term.2 ∣ e.leaves term values) ∧
        DividesCutOff e rest (remaining e term S)

variable {e : LinearExpression V} {term : V × Int} {S : Set (V -> Int)} {values : V -> Int}

theorem inHull_of_mem (member : values ∈ S) : InHull S values :=
  fun _ => ⟨values, member, values, member, le_rfl, le_rfl⟩

/-- Whatever is cut off has the rounded quotient, so that it solves the equation just if
the coefficient divides. -/
theorem CutsOff.dvd_iff (cuts : CutsOff e term S (values term.1)) (member : values ∈ S) :
    term.2 ∣ e.leaves term values ↔ e.eval values = 0 := by
  have quotient := cuts.quotient values (inHull_of_mem member)
  constructor
  · intro divides
    have exact_ := Int.mul_tdiv_cancel' divides
    rw [quotient, LinearExpression.leaves] at exact_
    omega
  · intro zero
    rw [LinearExpression.leaves, zero, sub_zero]
    exact dvd_mul_right _ _

/-! ### The difference of two variables -/

section Difference

variable {u v : V} {k : Int}

theorem cutsOff_left_iff : CutsOff ⟨0, [(u, 1), (v, -1)]⟩ (u, 1) S k ↔
    (∀ others ∈ S, others v = k) ∧ IsEnd S u k := by
  have leaves : forall others : V -> Int,
      (LinearExpression.leaves ⟨0, [(u, 1), (v, -1)]⟩ (u, 1) others).tdiv 1 = others v := by
    intro others
    simp [LinearExpression.leaves, LinearExpression.eval, LinearExpression.evalTerms]
  constructor
  · intro cuts
    refine ⟨fun others member => ?_, cuts.isEnd⟩
    rw [<- leaves others]
    exact cuts.quotient others (inHull_of_mem member)
  · rintro ⟨known, isEnd⟩
    refine ⟨fun others inside => ?_, isEnd⟩
    rcases inside v with ⟨lower, inLower, upper, inUpper, below, above⟩
    rw [known lower inLower] at below
    rw [known upper inUpper] at above
    exact (leaves others).trans (le_antisymm above below)

theorem cutsOff_right_iff : CutsOff ⟨0, [(u, 1), (v, -1)]⟩ (v, -1) S k ↔
    (∀ others ∈ S, others u = k) ∧ IsEnd S v k := by
  have leaves : forall others : V -> Int,
      (LinearExpression.leaves ⟨0, [(u, 1), (v, -1)]⟩ (v, -1) others).tdiv (-1) = others u := by
    intro others
    simp [LinearExpression.leaves, LinearExpression.eval, LinearExpression.evalTerms]
  constructor
  · intro cuts
    refine ⟨fun others member => ?_, cuts.isEnd⟩
    rw [<- leaves others]
    exact cuts.quotient others (inHull_of_mem member)
  · rintro ⟨known, isEnd⟩
    refine ⟨fun others inside => ?_, isEnd⟩
    rcases inside u with ⟨lower, inLower, upper, inUpper, below, above⟩
    rw [known lower inLower] at below
    rw [known upper inUpper] at above
    exact (leaves others).trans (le_antisymm above below)

/-- If the first term cuts off a valuation, the second one cuts off nothing more. -/
theorem survives_difference_iff (member : values ∈ S) :
    Survives ⟨0, [(u, 1), (v, -1)]⟩ [(u, 1), (v, -1)] S values ↔ ¬ CutsEqual S u v values := by
  have unchanged : (∀ others ∈ S, ¬ CutsOff ⟨0, [(u, 1), (v, -1)]⟩ (u, 1) S (others u)) ->
      remaining ⟨0, [(u, 1), (v, -1)]⟩ (u, 1) S = S :=
    fun none_ => Set.ext fun others => ⟨And.left, fun inS => ⟨inS, none_ others inS⟩⟩
  constructor
  · rintro ⟨first, second, _⟩ ⟨same, ⟨known, isEnd⟩ | ⟨known, isEnd⟩⟩
    · refine first (cutsOff_left_iff.mpr ⟨fun others inS => ?_, isEnd⟩)
      exact (known others inS).trans same.symm
    · by_cases cuts : ∃ others ∈ S, CutsOff ⟨0, [(u, 1), (v, -1)]⟩ (u, 1) S (others u)
      · rcases cuts with ⟨others, inS, cuts⟩
        rw [known others inS] at cuts
        exact first cuts
      · rw [unchanged (fun others inS cutsThere => cuts ⟨others, inS, cutsThere⟩)] at second
        refine second (cutsOff_right_iff.mpr ⟨fun others inS => ?_, isEnd⟩)
        exact (known others inS).trans same
  · intro kept
    have first : ¬ CutsOff ⟨0, [(u, 1), (v, -1)]⟩ (u, 1) S (values u) := by
      intro cuts
      rcases cutsOff_left_iff.mp cuts with ⟨known, isEnd⟩
      have same := known values member
      exact kept ⟨same.symm, Or.inl ⟨fun others inS => (known others inS).trans same.symm, isEnd⟩⟩
    refine ⟨first, fun cuts => ?_, trivial⟩
    rcases cutsOff_right_iff.mp cuts with ⟨known, isEnd⟩
    have same : values u = values v := known values ⟨member, first⟩
    by_cases earlier : ∃ others ∈ S, CutsOff ⟨0, [(u, 1), (v, -1)]⟩ (u, 1) S (others u)
    · rcases earlier with ⟨others, inS, earlier⟩
      have knownRight := (cutsOff_left_iff.mp earlier).1 values member
      rw [<- knownRight, <- same] at earlier
      exact first earlier
    · rw [unchanged (fun others inS cutsThere => earlier ⟨others, inS, cutsThere⟩)] at known isEnd
      exact kept ⟨same, Or.inr ⟨fun others inS => (known others inS).trans same.symm, isEnd⟩⟩

end Difference

/-- The coefficients divide just if all valuations that meet the disequation survive. -/
theorem dividesCutOff_iff {terms : List (V × Int)} :
    DividesCutOff e terms S ↔ ∀ values ∈ S, e.eval values ≠ 0 -> Survives e terms S values := by
  induction terms generalizing S with
  | nil => exact iff_of_true trivial (fun _ _ _ => trivial)
  | cons term rest inductionHypothesis =>
      rw [DividesCutOff, inductionHypothesis]
      constructor
      · intro divides values member nonzero
        have kept : ¬ CutsOff e term S (values term.1) :=
          fun cuts => nonzero ((cuts.dvd_iff member).mp (divides.1 values member cuts))
        exact ⟨kept, divides.2 values ⟨member, kept⟩ nonzero⟩
      · intro survive
        refine ⟨fun values member cuts => (cuts.dvd_iff member).mpr ?_,
          fun values member nonzero => ?_⟩
        · by_contra nonzero
          exact (survive values member nonzero).1 cuts
        · exact (survive values member.1 nonzero).2

end Valuations

/-! ## Ends of intervals -/

namespace Bound

variable {left right bound : Bound} {factor m n r : Int}

/-- Below a sum of lower bounds is a sum of numbers that are not below them. -/
theorem exists_add_le (leftBelow : left ≤ .ofNumber m) (rightBelow : right ≤ .ofNumber n)
    (below : left.addLower right ≤ .ofNumber r) :
    exists a b, left ≤ .ofNumber a ∧ right ≤ .ofNumber b ∧ a + b ≤ r := by
  cases left with
  | minusInfinity => exact ⟨r - n, n, trivial, rightBelow, by omega⟩
  | ofNumber l =>
      cases right with
      | minusInfinity => exact ⟨m, r - m, leftBelow, trivial, by omega⟩
      | ofNumber u => exact ⟨l, u, le_rfl, le_rfl, below⟩
      | plusInfinity => exact absurd rightBelow id
  | plusInfinity => exact absurd leftBelow id

theorem exists_le_add (leftAbove : .ofNumber m ≤ left) (rightAbove : .ofNumber n ≤ right)
    (above : .ofNumber r ≤ left.addUpper right) :
    exists a b, .ofNumber a ≤ left ∧ .ofNumber b ≤ right ∧ r ≤ a + b := by
  cases left with
  | minusInfinity => exact absurd leftAbove id
  | ofNumber l =>
      cases right with
      | minusInfinity => exact absurd rightAbove id
      | ofNumber u => exact ⟨l, u, le_rfl, le_rfl, above⟩
      | plusInfinity => exact ⟨m, r - m, leftAbove, trivial, by omega⟩
  | plusInfinity => exact ⟨r - n, n, trivial, rightAbove, by omega⟩

theorem exists_mul_le (positive : 0 < factor) (boundBelow : bound ≤ .ofNumber n)
    (below : bound.scale factor ≤ .ofNumber r) : exists a, bound ≤ .ofNumber a ∧
      factor * a ≤ r := by
  cases bound with
  | minusInfinity => exact ⟨-|r|, trivial, by nlinarith [neg_abs_le r, abs_nonneg r]⟩
  | ofNumber l => exact ⟨l, le_rfl, below⟩
  | plusInfinity => exact absurd boundBelow id

theorem exists_le_mul (positive : 0 < factor) (boundAbove : .ofNumber n ≤ bound)
    (above : .ofNumber r ≤ bound.scale factor) : exists a, .ofNumber a ≤ bound ∧
      r ≤ factor * a := by
  cases bound with
  | minusInfinity => exact absurd boundAbove id
  | ofNumber u => exact ⟨u, le_rfl, above⟩
  | plusInfinity => exact ⟨|r|, trivial, by nlinarith [le_abs_self r, abs_nonneg r]⟩

end Bound

namespace Interval

variable {left right interval : Interval} {factor k m n r : Int}

theorem lb_le_iff (member : m ∈ interval) : interval.lb ≤ .ofNumber r ↔ ∃ a ∈ interval, a ≤ r := by
  constructor
  · intro below
    refine ⟨min m r, ⟨?_, ?_⟩, min_le_right _ _⟩
    · rcases min_choice m r with first | second
      · rw [first]
        exact member.1
      · rw [second]
        exact below
    · have notAbove : Bound.ofNumber (min m r) ≤ .ofNumber m := min_le_left m r
      exact notAbove.trans member.2
  · rintro ⟨a, inside, below⟩
    exact inside.1.trans (Bound.ofNumber_le_ofNumber.mpr below)

theorem le_ub_iff (member : m ∈ interval) : .ofNumber r ≤ interval.ub ↔ ∃ a ∈ interval, r ≤ a := by
  constructor
  · intro above
    refine ⟨max m r, ⟨?_, ?_⟩, le_max_right _ _⟩
    · have notBelow : Bound.ofNumber m ≤ .ofNumber (max m r) := le_max_left m r
      exact member.1.trans notBelow
    · rcases max_choice m r with first | second
      · rw [first]
        exact member.2
      · rw [second]
        exact above
  · rintro ⟨a, inside, above⟩
    have notAbove : Bound.ofNumber r ≤ .ofNumber a := above
    exact notAbove.trans inside.2

theorem neg_le_iff {bound : Bound} : bound.neg ≤ .ofNumber r ↔ .ofNumber (-r) ≤ bound := by
  cases bound with
  | minusInfinity => exact iff_of_false id id
  | ofNumber n =>
      rw [Bound.neg, Bound.ofNumber_le_ofNumber, Bound.ofNumber_le_ofNumber]
      omega
  | plusInfinity => exact iff_of_true trivial trivial

theorem le_neg_iff {bound : Bound} : .ofNumber r ≤ bound.neg ↔ bound ≤ .ofNumber (-r) := by
  cases bound with
  | minusInfinity => exact iff_of_true trivial trivial
  | ofNumber n =>
      rw [Bound.neg, Bound.ofNumber_le_ofNumber, Bound.ofNumber_le_ofNumber]
      omega
  | plusInfinity => exact iff_of_false id id

/-- The members of a difference lie between differences of members. -/
theorem exists_sub_le (inLeft : m ∈ left) (inRight : n ∈ right) (inside : r ∈ left.sub right) :
    (∃ a ∈ left, ∃ b ∈ right, a - b ≤ r) ∧ ∃ a ∈ left, ∃ b ∈ right, r ≤ a - b := by
  rw [sub, if_neg (not_or.mpr ⟨not_isBottom_of_mem inLeft, not_isBottom_of_mem inRight⟩)] at inside
  have lower : right.ub.neg ≤ .ofNumber (-n) := neg_le_iff.mpr (by rw [neg_neg]; exact inRight.2)
  have upper : .ofNumber (-n) ≤ right.lb.neg := le_neg_iff.mpr (by rw [neg_neg]; exact inRight.1)
  constructor
  · rcases Bound.exists_add_le inLeft.1 lower inside.1 with ⟨a, b, aboveLeft, aboveRight, sum⟩
    rcases (lb_le_iff inLeft).mp aboveLeft with ⟨first, inFirst, firstLe⟩
    rcases (le_ub_iff inRight).mp (neg_le_iff.mp aboveRight) with ⟨second, inSecond, secondLe⟩
    exact ⟨first, inFirst, second, inSecond, by omega⟩
  · rcases Bound.exists_le_add inLeft.2 upper inside.2 with ⟨a, b, belowLeft, belowRight, sum⟩
    rcases (le_ub_iff inLeft).mp belowLeft with ⟨first, inFirst, firstLe⟩
    rcases (lb_le_iff inRight).mp (le_neg_iff.mp belowRight) with ⟨second, inSecond, secondLe⟩
    exact ⟨first, inFirst, second, inSecond, by omega⟩

theorem scaleNegative_eq (bound : Bound) :
    bound.scaleNegative factor = (bound.scale (-factor)).neg := by
  cases bound with
  | ofNumber n =>
      rw [Bound.scaleNegative, Bound.scale, Bound.neg, neg_mul, neg_neg]
  | _ => rfl

/-- The members of a product lie between products of members. -/
theorem exists_mul_le (nonzero : factor ≠ 0) (member : n ∈ interval)
    (inside : r ∈ interval.scale factor) :
    (∃ i ∈ interval, factor * i ≤ r) ∧ ∃ i ∈ interval, r ≤ factor * i := by
  rw [scale, if_neg (not_isBottom_of_mem member)] at inside
  split at inside
  · rename_i positive
    constructor
    · rcases Bound.exists_mul_le positive member.1 inside.1 with ⟨a, above, product⟩
      rcases (lb_le_iff member).mp above with ⟨i, inI, below⟩
      exact ⟨i, inI, (mul_le_mul_of_nonneg_left below positive.le).trans product⟩
    · rcases Bound.exists_le_mul positive member.2 inside.2 with ⟨a, below, product⟩
      rcases (le_ub_iff member).mp below with ⟨i, inI, above⟩
      exact ⟨i, inI, product.trans (mul_le_mul_of_nonneg_left above positive.le)⟩
  · rename_i notPositive
    have negative : factor < 0 := lt_of_le_of_ne (not_lt.mp notPositive) nonzero
    have positive : 0 < -factor := neg_pos.mpr negative
    rw [if_pos negative, scaleNegative_eq, scaleNegative_eq] at inside
    constructor
    · rcases Bound.exists_le_mul positive member.2 (neg_le_iff.mp inside.1) with ⟨a, below, product⟩
      rcases (le_ub_iff member).mp below with ⟨i, inI, above⟩
      have scaled := mul_le_mul_of_nonneg_left above positive.le
      exact ⟨i, inI, by linarith⟩
    · rcases Bound.exists_mul_le positive member.1 (le_neg_iff.mp inside.2) with ⟨a, above, product⟩
      rcases (lb_le_iff member).mp above with ⟨i, inI, below⟩
      have scaled := mul_le_mul_of_nonneg_left below positive.le
      exact ⟨i, inI, by linarith⟩

theorem natAbs_lt_of_tdiv (nonzero : factor ≠ 0) (quotient : r.tdiv factor = k) :
    |r| < |factor| * (|k| + 1) := by
  have parts := Int.mul_tdiv_add_tmod r factor
  rw [quotient] at parts
  have small : |r.tmod factor| < |factor| := by
    rw [Int.abs_eq_natAbs, Int.abs_eq_natAbs, Int.natAbs_tmod]
    exact_mod_cast Nat.mod_lt _ (Int.natAbs_pos.mpr nonzero)
  calc |r| = |factor * k + r.tmod factor| := by rw [parts]
    _ ≤ |factor * k| + |r.tmod factor| := abs_add_le _ _
    _ < |factor| * |k| + |factor| := by rw [abs_mul]; omega
    _ = |factor| * (|k| + 1) := by ring

theorem singleton_divide (nonzero : factor ≠ 0) (member : m ∈ interval)
    (quotient : ∀ r ∈ interval, r.tdiv factor = k) :
    (interval.divide factor).singleton = some k := by
  -- an interval without an end has members with other quotients
  have lower : exists l, interval.lb = .ofNumber l := by
    cases isLower : interval.lb with
    | minusInfinity =>
        rcases (lb_le_iff member).mp
          (isLower ▸ Bound.minusInfinity_le (.ofNumber (-(|factor| * (|k| + 1))))) with
          ⟨r, inside, below⟩
        have near := natAbs_lt_of_tdiv nonzero (quotient r inside)
        have far := neg_abs_le r
        omega
    | ofNumber l => exact ⟨l, rfl⟩
    | plusInfinity =>
        have impossible := member.1
        rw [isLower] at impossible
        exact absurd impossible id
  have upper : exists u, interval.ub = .ofNumber u := by
    cases isUpper : interval.ub with
    | minusInfinity =>
        have impossible := member.2
        rw [isUpper] at impossible
        exact absurd impossible id
    | ofNumber u => exact ⟨u, rfl⟩
    | plusInfinity =>
        rcases (le_ub_iff member).mp
          (isUpper ▸ Bound.le_plusInfinity (.ofNumber (|factor| * (|k| + 1)))) with
          ⟨r, inside, above⟩
        have near := natAbs_lt_of_tdiv nonzero (quotient r inside)
        have far := le_abs_self r
        omega
  rcases lower with ⟨l, isLower⟩
  rcases upper with ⟨u, isUpper⟩
  have ordered : Bound.ofNumber l ≤ .ofNumber u := by
    rw [<- isLower, <- isUpper]
    exact member.1.trans member.2
  have atLower := quotient l ⟨isLower.le, isUpper ▸ ordered⟩
  have atUpper := quotient u ⟨isLower ▸ ordered, isUpper.ge⟩
  have nonempty := not_isBottom_of_mem member
  rcases interval with ⟨lb, ub⟩
  cases isLower
  cases isUpper
  have same : mk' (.ofNumber k) (.ofNumber k) = ofNumber k := if_neg (lt_irrefl _)
  rw [divide, if_neg nonempty]
  split
  · rename_i isOne
    rw [isOne, Int.tdiv_one] at atLower atUpper
    rw [atLower, atUpper]
    exact singleton_eq_some.mpr rfl
  · rw [Bound.divide, Bound.divide, atLower, atUpper, same]
    split
    · exact singleton_eq_some.mpr rfl
    · rename_i notPositive
      rw [if_pos (lt_of_le_of_ne (not_lt.mp notPositive) nonzero)]
      exact singleton_eq_some.mpr rfl

end Interval

namespace SplitDbm

variable {V : Type} [LinearOrder V] {s next : SplitDbm V} {values : V -> Int} {x : V} {v : Nat}
  {n weight : Int}

/-! ## Trims keep the normal form -/

section NormalForm

omit [LinearOrder V] in
theorem updateEdge_tightens {base : Edges Nat} {g : AdaptGraph} {source target : Nat}
    (tightens : Tightens base g.lookup) (implied : Path base source target weight) :
    Tightens base (g.updateEdge source weight target).lookup := by
  constructor
  · intro left right here edge
    rcases updateEdge_origin edge with old | ⟨rfl, rfl, rfl⟩
    · exact tightens.path _ _ _ old
    · exact implied
  · intro left right here edge
    rcases tightens.kept _ _ _ edge with ⟨lower, lowerLe, there⟩
    rcases updateEdge_kept there source target weight with ⟨least, leastLe, last⟩
    exact ⟨least, leastLe.trans lowerLe, last⟩

omit [LinearOrder V] in
/-- The loop that updates other bounds, on the graph. -/
theorem updates_tighten (source target : Nat × Int -> Nat) (weight : Nat × Int -> Int)
    {base : Edges Nat} {entries : List (Nat × Int)} {state last : SplitDbm V}
    (implied : ∀ entry ∈ entries, Path base (source entry) (target entry) (weight entry))
    (tightens : Tightens base state.g.lookup)
    (run : entries.foldlM (fun s entry =>
        if entry.1 = 0 then some s
        else repairPotential { s with
        g := s.g.updateEdge (source entry) (weight entry) (target entry) }
          (source entry) (target entry)) state = some last) :
    Tightens base last.g.lookup ∧
      (forall left right here, state.g.lookup left right = some here ->
        ∃ lower ≤ here, last.g.lookup left right = some lower) ∧
      ∀ entry ∈ entries, entry.1 ≠ 0 ->
      ∃ lower ≤ weight entry, last.g.lookup (source entry) (target entry) = some lower := by
  induction entries generalizing state with
  | nil =>
      cases run
      exact ⟨tightens, fun _ _ here edge => ⟨here, le_rfl, edge⟩, fun _ member =>
        absurd member List.not_mem_nil⟩
  | cons entry rest inductionHypothesis =>
      rw [List.forall_mem_cons] at implied
      rw [List.foldlM_cons] at run
      rcases Option.bind_eq_some_iff.mp run with ⟨between, step, run⟩
      split at step
      · rename_i atZero
        cases step
        have later := inductionHypothesis implied.2 tightens run
        exact ⟨later.1, later.2.1,
          List.forall_mem_cons.mpr ⟨fun notZero => absurd atZero notZero, later.2.2⟩⟩
      · have graph : between.g = state.g.updateEdge (source entry) (weight entry) (target entry) :=
          repairPotential_g step
        have updated := updateEdge_tightens tightens implied.1
        rw [<- graph] at updated
        have later := inductionHypothesis implied.2 updated run
        refine ⟨later.1, ?_, List.forall_mem_cons.mpr ⟨fun _ => ?_, later.2.2⟩⟩
        · intro left right here edge
          rcases updateEdge_kept edge (source entry) (target entry) (weight entry) with
            ⟨lower, lowerLe, there⟩
          rw [<- graph] at there
          rcases later.2.1 left right lower there with ⟨least, leastLe, last⟩
          exact ⟨least, leastLe.trans lowerLe, last⟩
        · rcases updateEdge_added state.g (source entry) (target entry) (weight entry) with
            ⟨lower, lowerLe, there⟩
          rw [<- graph] at there
          rcases later.2.1 _ _ lower there with ⟨least, leastLe, last⟩
          exact ⟨least, leastLe.trans lowerLe, last⟩

theorem Normal.strengthenLb (normal : Normal s) (notZero : v ≠ 0)
    (result : s.strengthenLb v weight = some next) :
    Normal next := by
  have refines := strengthenLb_refines normal.toInvariant v weight
  rw [result] at refines
  refine ⟨refines.1, ?_⟩
  unfold SplitDbm.strengthenLb at result
  split at result
  · rename_i present
    rcases present with ⟨old, here, lower⟩
    have below : forall other, s.g.lookup v 0 = some other -> weight ≤ other := by
      intro other there
      rw [Option.mem_def.mp here] at there
      cases there
      exact lower.le
    rw [Option.bind_eq_bind, Option.bind_eq_some_iff] at result
    rcases result with ⟨first, edge_, run⟩
    have graph : first.g.lookup = Edges.set s.g.lookup v weight 0 :=
      congrArg AdaptGraph.lookup (repairPotential_g edge_)
    have implied : ∀ entry ∈ first.g.view.ePreds v,
        Path (Edges.set s.g.lookup v weight 0) entry.1 0 (entry.2 + weight) := by
      intro entry member
      rw [<- graph]
      refine .snoc (.edge (GraphView.mem_ePreds.mp member).2) ?_
      rw [graph]
      exact set_self
    have loop := updates_tighten (fun entry => entry.1) (fun _ => 0)
      (fun entry => entry.2 + weight) implied
      (graph ▸ Tightens.refl _) run
    have models := models_set below |>.mp (loop.1.models_iff.mp refines.1.valid)
    refine normal.closed.lower notZero models.1 models.2 below loop.1 ?_
    intro vertex bound other edge
    have live := (normal.wellFormed.graph.ends _ _ _ edge).1.1
    refine loop.2.2 (vertex, bound) (GraphView.mem_ePreds.mpr ⟨?_, ?_⟩) other
    · rw [repairPotential_g edge_]
      exact live
    · change first.g.lookup vertex v = some bound
      rw [graph, set_of_ne (fun same => notZero same.2)]
      exact edge
  · cases result
    exact normal.closed

theorem Normal.strengthenUb (normal : Normal s) (notZero : v ≠ 0)
    (result : s.strengthenUb v weight = some next) :
    Normal next := by
  have refines := strengthenUb_refines normal.toInvariant v weight
  rw [result] at refines
  refine ⟨refines.1, ?_⟩
  unfold SplitDbm.strengthenUb at result
  split at result
  · rename_i present
    rcases present with ⟨old, here, lower⟩
    have below : forall other, s.g.lookup 0 v = some other -> weight ≤ other := by
      intro other there
      rw [Option.mem_def.mp here] at there
      cases there
      exact lower.le
    rw [Option.bind_eq_bind, Option.bind_eq_some_iff] at result
    rcases result with ⟨first, edge_, run⟩
    have graph : first.g.lookup = Edges.set s.g.lookup 0 weight v :=
      congrArg AdaptGraph.lookup (repairPotential_g edge_)
    have implied : ∀ entry ∈ first.g.view.eSuccs v,
        Path (Edges.set s.g.lookup 0 weight v) 0 entry.1 (entry.2 + weight) := by
      intro entry member
      rw [<- graph, add_comm]
      refine .snoc (.edge ?_) (GraphView.mem_eSuccs.mp member).2
      rw [graph]
      exact set_self
    have loop := updates_tighten (fun _ => 0) (fun entry => entry.1)
      (fun entry => entry.2 + weight) implied
      (graph ▸ Tightens.refl _) run
    have models := models_set below |>.mp (loop.1.models_iff.mp refines.1.valid)
    refine normal.closed.raise notZero models.1 models.2 below loop.1 ?_
    intro vertex bound other edge
    have live := (normal.wellFormed.graph.ends _ _ _ edge).2.1
    refine loop.2.2 (vertex, bound) (GraphView.mem_eSuccs.mpr ⟨?_, ?_⟩) other
    · rw [repairPotential_g edge_]
      exact live
    · change first.g.lookup v vertex = some bound
      rw [graph, set_of_ne (fun same => notZero same.1)]
      exact edge
  · cases result
    exact normal.closed

theorem Normal.applyBounds {intv : Interval} (normal : Normal s) (notZero : v ≠ 0)
    (result : s.applyBounds v intv = some next) : Normal next := by
  rw [SplitDbm.applyBounds, Option.map_eq_some_iff] at result
  rcases result with ⟨last, run, rfl⟩
  rcases Option.bind_eq_some_iff.mp run with ⟨between, lowerRun, upperRun⟩
  have first : Normal between := by
    unfold raiseLower at lowerRun
    split at lowerRun
    · exact normal.strengthenLb notZero lowerRun
    · cases lowerRun
      exact normal
  have second : Normal last := by
    unfold lowerUpper at upperRun
    split at upperRun
    · exact first.strengthenUb notZero upperRun
    · cases upperRun
      exact first
  exact ⟨second.toInvariant.normalize, second.closed.tighten (normalize_tightens _)⟩

theorem Normal.getVert (normal : Normal s) (x : V) : Normal (s.getVert x).2 := by
  refine ⟨normal.toInvariant.getVert x, ?_⟩
  rw [getVert_lookup]
  exact normal.closed

theorem Normal.addDisequationTerm {e : LinearExpression V} {term : V × Int} (normal : Normal s)
    (result : SplitDbm.addDisequationTerm e s term = some next) : Normal next := by
  unfold SplitDbm.addDisequationTerm at result
  split at result
  · rename_i k _
    rw [addUnivarDisequation_eq] at result
    split at result
    · cases result
    · split at result
      · cases result
        exact normal
      · have shape := (normal.getVert term.1).wellFormed
        exact (normal.getVert term.1).applyBounds
          (Shape.ne_zero_of_tryAt shape (tryAt_getVert_self normal.wellFormed term.1)) result
  · cases result
    exact normal

end NormalForm

/-! ## What is trimmed -/

section Trimmed

variable {e : LinearExpression V} {term : V × Int} {S : Set (V -> Int)} {k : Int}

/-- In normal form, the ends of an interval are attained. -/
theorem Normal.exists_le (normal : Normal s) (below : (s.getInterval x).lb ≤ .ofNumber n) :
    exists values, s.Represents values ∧ values x ≤ n := by
  by_contra none_
  have implied : ImpliedBound s (some x) none (-(n + 1)) := by
    intro values represents
    have above : n < values x := not_le.mp (fun low => none_ ⟨values, represents, low⟩)
    change 0 ≤ values x + _
    omega
  rcases (vertexOf_of_impliedBound normal.wellFormed normal.toInvariant.represents_potential
    (by simp) implied).1 with
    ⟨vert, found⟩
  have explicit := (normal.impliedBound_iff found rfl (by simp)).mp implied
  rw [getInterval_of_tryAt normal.toInvariant found] at below
  cases explicit with
  | edge here lower =>
      rw [lowerBound, here, Bound.ofNumber_le_ofNumber] at below
      omega
  | sum _ impossible => exact impossible rfl

theorem Normal.exists_ge (normal : Normal s) (above : .ofNumber n ≤ (s.getInterval x).ub) :
    exists values, s.Represents values ∧ n ≤ values x := by
  by_contra none_
  have implied : ImpliedBound s none (some x) (n - 1) := by
    intro values represents
    have below : values x < n := not_le.mp (fun high => none_ ⟨values, represents, high⟩)
    change values x ≤ 0 + _
    omega
  rcases (vertexOf_of_impliedBound normal.wellFormed normal.toInvariant.represents_potential
    (by simp) implied).2 with
    ⟨vert, found⟩
  have explicit := (normal.impliedBound_iff rfl found (by simp)).mp implied
  rw [getInterval_of_tryAt normal.toInvariant found] at above
  cases explicit with
  | edge here upper =>
      rw [upperBound, here, Bound.ofNumber_le_ofNumber] at above
      omega
  | sum impossible => exact absurd rfl impossible

/-- A valuation in the hull of represented ones has values in the intervals. -/
theorem mem_getInterval_of_inHull (invariant : Invariant s)
    (represented : ∀ values ∈ S, s.Represents values)
    (inHull : InHull S values) (x : V) : values x ∈ s.getInterval x := by
  rcases inHull x with ⟨lower, isLower, upper, isUpper, below, above⟩
  have first := Shape.mem_getInterval invariant.wellFormed (represented lower isLower) x
  have second := Shape.mem_getInterval invariant.wellFormed (represented upper isUpper) x
  exact ⟨first.1.trans (Bound.ofNumber_le_ofNumber.mpr below),
    (Bound.ofNumber_le_ofNumber.mpr above).trans second.2⟩

/-- In normal form, the intervals allow nothing else. -/
theorem Normal.inHull (normal : Normal s) (within : forall x, values x ∈ s.getInterval x) :
    InHull {values | s.Represents values} values := by
  intro x
  rcases normal.exists_le (within x).1 with ⟨lower, isLower, below⟩
  rcases normal.exists_ge (within x).2 with ⟨upper, isUpper, above⟩
  exact ⟨lower, isLower, upper, isUpper, below, above⟩

/-- What is trimmed from a state is cut off from a set of its valuations. -/
theorem cutsOff_of_trimPoint (invariant : Invariant s) (wellFormed : e.WellFormed)
    (member : term ∈ e.variableTerms)
    (represented : ∀ values ∈ S, s.Represents values) (inS : values ∈ S)
    (trimmed : trimPoint e s term = some (values term.1)) : CutsOff e term S (values term.1) := by
  rcases trimPoint_eq_some.mp trimmed with ⟨single, trims⟩
  constructor
  · intro others inHull
    have within := mem_getInterval_of_inHull invariant represented inHull
    exact Interval.tdiv_of_singleton (wellFormed.nonzero term member) single
      (mem_computeResidual within wellFormed member)
  · rcases trims with lower | upper
    · left
      refine ⟨⟨values, inS, rfl⟩, ?_⟩
      rintro _ ⟨others, inOthers, rfl⟩
      have inside := (Shape.mem_getInterval invariant.wellFormed
        (represented others inOthers) term.1).1
      rwa [lower, Bound.ofNumber_le_ofNumber] at inside
    · right
      refine ⟨⟨values, inS, rfl⟩, ?_⟩
      rintro _ ⟨others, inOthers, rfl⟩
      have inside := (Shape.mem_getInterval invariant.wellFormed
        (represented others inOthers) term.1).2
      rwa [upper, Bound.ofNumber_le_ofNumber] at inside

omit [LinearOrder V] in
/-- The sum of terms that do not mention a variable. -/
theorem evalTerms_update [DecidableEq V] {terms : List (V × Int)}
    (absent : x ∉ terms.map Prod.fst) :
    LinearExpression.evalTerms (Function.update values x n) terms =
      LinearExpression.evalTerms values terms := by
  rw [LinearExpression.evalTerms, LinearExpression.evalTerms]
  refine congrArg List.sum (List.map_congr_left ?_)
  intro term member
  rw [Function.update_of_ne]
  rintro rfl
  exact absent (List.mem_map.mpr ⟨term, member, rfl⟩)

/-- The members of a residual lie between what the terms leave for values in the intervals. -/
theorem exists_around_residual {base : V -> Int} (within : forall y, base y ∈ s.getInterval y)
    {terms : List (V × Int)} (distinct : (terms.map Prod.fst).Nodup)
    (nonzero : ∀ term ∈ terms, term.2 ≠ 0)
    {residual : Interval} {start r : Int} (startIn : start ∈ residual)
    (inside : r ∈ terms.foldl (fun residual term =>
      if term.1 = x then residual
      else residual.sub ((s.getInterval term.1).scale term.2)) residual) :
    (∃ m ∈ residual, ∃ values, (forall y, values y ∈ s.getInterval y) ∧
      m - LinearExpression.evalTerms values (terms.filter (fun term => decide (term.1 ≠ x))) ≤ r) ∧
    (∃ m ∈ residual, ∃ values, (forall y, values y ∈ s.getInterval y) ∧
      r ≤ m - LinearExpression.evalTerms values
      (terms.filter (fun term => decide (term.1 ≠ x)))) := by
  induction terms generalizing residual start with
  | nil =>
      have zero : r - LinearExpression.evalTerms base [] = r := by simp [LinearExpression.evalTerms]
      exact ⟨⟨r, inside, base, within, zero.le⟩, ⟨r, inside, base, within, zero.ge⟩⟩
  | cons term rest inductionHypothesis =>
      rw [List.map_cons, List.nodup_cons] at distinct
      rw [List.forall_mem_cons] at nonzero
      rw [List.foldl_cons] at inside
      by_cases same : term.1 = x
      · rw [if_pos same] at inside
        rw [List.filter_cons_of_neg (by simp [same])]
        exact inductionHypothesis distinct.2 nonzero.2 startIn inside
      · rw [if_neg same] at inside
        rw [List.filter_cons_of_pos (by simp [same])]
        have scaled := Interval.mem_scale term.2 (within term.1)
        have absent : term.1 ∉ (rest.filter (fun term => decide (term.1 ≠ x))).map Prod.fst := by
          intro member
          rcases List.mem_map.mp member with ⟨other, inFilter, isSame⟩
          exact distinct.1 (List.mem_map.mpr ⟨other, List.mem_of_mem_filter inFilter, isSame⟩)
        -- the value of the variable of this term may be chosen
        have chosen : forall {values : V -> Int} {i : Int},
            (forall y, values y ∈ s.getInterval y) -> i ∈ s.getInterval term.1 ->
            (forall y, Function.update values term.1 i y ∈ s.getInterval y) ∧
              LinearExpression.evalTerms (Function.update values term.1 i)
                  (term :: rest.filter (fun term => decide (term.1 ≠ x))) =
                term.2 * i + LinearExpression.evalTerms values
                  (rest.filter (fun term => decide (term.1 ≠ x))) := by
          intro values i inIntervals inI
          constructor
          · intro y
            by_cases isVariable : y = term.1
            · rw [isVariable, Function.update_self]
              exact inI
            · rw [Function.update_of_ne isVariable]
              exact inIntervals y
          · have others := @evalTerms_update _ values term.1 i _ _ absent
            rw [LinearExpression.evalTerms] at others ⊢
            rw [List.map_cons, List.sum_cons, Function.update_self, others]
        rcases inductionHypothesis distinct.2 nonzero.2
          (Interval.mem_sub startIn scaled) inside with
          ⟨⟨low, inLow, values, inValues, below⟩, ⟨high, inHigh, others, inOthers, above⟩⟩
        constructor
        · rcases (Interval.exists_sub_le startIn scaled inLow).1 with ⟨a, inA, b, inB, difference⟩
          rcases (Interval.exists_mul_le nonzero.1 (within term.1) inB).2 with ⟨i, inI, product⟩
          have update := chosen inValues inI
          exact ⟨a, inA, _, update.1, by rw [update.2]; omega⟩
        · rcases (Interval.exists_sub_le startIn scaled inHigh).2 with ⟨a, inA, b, inB, difference⟩
          rcases (Interval.exists_mul_le nonzero.1 (within term.1) inB).1 with ⟨i, inI, product⟩
          have update := chosen inOthers inI
          exact ⟨a, inA, _, update.1, by rw [update.2]; omega⟩

/-- In normal form, the members of a residual lie between what is left for the hull. -/
theorem Normal.exists_around_leaves (normal : Normal s) (wellFormed : e.WellFormed)
    (member : term ∈ e.variableTerms) {r : Int} (inside : r ∈ s.computeResidual e term.1) :
    (exists values, InHull {values | s.Represents values} values ∧ e.leaves term values ≤ r) ∧
      exists values, InHull {values | s.Represents values} values ∧ r ≤ e.leaves term values := by
  have within := Shape.mem_getInterval normal.wellFormed normal.toInvariant.represents_potential
  have leaves : forall values : V -> Int, e.leaves term values = -e.constantTerm -
      LinearExpression.evalTerms values
      (e.variableTerms.filter (fun other => decide (other.1 ≠ term.1))) := by
    intro values
    rw [LinearExpression.leaves, LinearExpression.eval, evalTerms_split wellFormed.distinct member]
    ring
  have around := exists_around_residual within wellFormed.distinct wellFormed.nonzero
    (Interval.mem_ofNumber.mpr (rfl : -e.constantTerm = -e.constantTerm)) inside
  rcases around with ⟨⟨m, isStart, values, inValues, below⟩,
    ⟨m', isStart', others, inOthers, above⟩⟩
  rw [Interval.mem_ofNumber.mp isStart, <- leaves] at below
  rw [Interval.mem_ofNumber.mp isStart', <- leaves] at above
  exact ⟨⟨values, normal.inHull inValues, below⟩, ⟨others, normal.inHull inOthers, above⟩⟩

theorem tdiv_of_between {a b r divisor : Int} (nonzero : divisor ≠ 0) (below : a ≤ r)
    (above : r ≤ b)
    (lower : a.tdiv divisor = k) (upper : b.tdiv divisor = k) : r.tdiv divisor = k := by
  rcases lt_or_gt_of_ne nonzero with negative | positive
  · have flipped : 0 < -divisor := neg_pos.mpr negative
    have first := Int.tdiv_le_tdiv flipped below
    have second := Int.tdiv_le_tdiv flipped above
    rw [Int.tdiv_neg, Int.tdiv_neg] at first second
    omega
  · have first := Int.tdiv_le_tdiv positive below
    have second := Int.tdiv_le_tdiv positive above
    omega

theorem Normal.trimPoint_of_cutsOff (normal : Normal s) (wellFormed : e.WellFormed)
    (member : term ∈ e.variableTerms)
    (cuts : CutsOff e term {values | s.Represents values} k) : trimPoint e s term = some k := by
  have nonzero := wellFormed.nonzero term member
  have within := Shape.mem_getInterval normal.wellFormed normal.toInvariant.represents_potential
  refine trimPoint_eq_some.mpr ⟨?_, ?_⟩
  · apply Interval.singleton_divide nonzero (mem_computeResidual within wellFormed member)
    intro r inside
    rcases normal.exists_around_leaves wellFormed member inside with
      ⟨⟨lower, inLower, below⟩, ⟨upper, inUpper, above⟩⟩
    exact tdiv_of_between nonzero below above (cuts.quotient lower inLower)
      (cuts.quotient upper inUpper)
  · rcases cuts.isEnd with ⟨⟨values, represents, isEnd⟩, least⟩ |
      ⟨⟨values, represents, isEnd⟩, greatest⟩
    · left
      have attained := (Shape.mem_getInterval normal.wellFormed represents term.1).1
      rw [isEnd] at attained
      refine le_antisymm attained ?_
      cases lower : (s.getInterval term.1).lb with
      | minusInfinity =>
          rcases @Normal.exists_le _ _ _ _ (k - 1) normal (lower ▸ Bound.minusInfinity_le _) with
            ⟨others, isOther, below⟩
          have above := least ⟨others, isOther, rfl⟩
          omega
      | ofNumber l =>
          rcases normal.exists_le lower.le with ⟨others, isOther, below⟩
          exact (least ⟨others, isOther, rfl⟩).trans below
      | plusInfinity => exact Bound.le_plusInfinity _
    · right
      have attained := (Shape.mem_getInterval normal.wellFormed represents term.1).2
      rw [isEnd] at attained
      refine le_antisymm ?_ attained
      cases upper : (s.getInterval term.1).ub with
      | minusInfinity => exact Bound.minusInfinity_le _
      | ofNumber u =>
          rcases normal.exists_ge upper.ge with ⟨others, isOther, above⟩
          exact above.trans (greatest ⟨others, isOther, rfl⟩)
      | plusInfinity =>
          rcases @Normal.exists_ge _ _ _ _ (k + 1) normal (upper ▸ Bound.le_plusInfinity _) with
            ⟨others, isOther, above⟩
          have below := greatest ⟨others, isOther, rfl⟩
          omega

end Trimmed

/-! ## Disequations -/

section Disequations

variable {e : LinearExpression V} {terms : List (V × Int)} {S : Set (V -> Int)}

/-- The trims avoid whatever no term cuts off from a set of represented valuations. -/
theorem avoidsTrims_of_survives (invariant : Invariant s) (wellFormed : e.WellFormed)
    (within : terms ⊆ e.variableTerms)
    (represented : ∀ values ∈ S, s.Represents values) (inS : values ∈ S)
    (survives : Survives e terms S values) :
    AvoidsTrims e terms s values := by
  induction terms generalizing s S with
  | nil => trivial
  | cons term rest inductionHypothesis =>
      rw [List.cons_subset] at within
      constructor
      · rintro _ trimmed rfl
        exact survives.1 (cutsOff_of_trimPoint invariant wellFormed within.1
          represented inS trimmed)
      · intro next result
        have refines := addDisequationTerm_refines invariant e term
        rw [result] at refines
        have stays : values ∈ remaining e term S := ⟨inS, survives.1⟩
        refine inductionHypothesis refines.1 within.2 ?_ stays survives.2
        intro others isRemaining
        refine (refines.2 others).mpr ⟨represented others isRemaining.1, ?_⟩
        rintro _ trimmed rfl
        exact isRemaining.2
          (cutsOff_of_trimPoint invariant wellFormed within.1 represented isRemaining.1 trimmed)

theorem Normal.survives_of_avoidsTrims (normal : Normal s) (wellFormed : e.WellFormed)
    (within : terms ⊆ e.variableTerms)
    (represents : s.Represents values) (avoids : AvoidsTrims e terms s values) :
    Survives e terms {values | s.Represents values} values := by
  induction terms generalizing s with
  | nil => trivial
  | cons term rest inductionHypothesis =>
      rw [List.cons_subset] at within
      have kept : ¬ CutsOff e term {values | s.Represents values} (values term.1) :=
        fun cuts => avoids.1 _ (normal.trimPoint_of_cutsOff wellFormed within.1 cuts) rfl
      refine ⟨kept, ?_⟩
      have refines := addDisequationTerm_refines normal.toInvariant e term
      cases result : SplitDbm.addDisequationTerm e s term with
      | none =>
          rw [result] at refines
          exact absurd avoids.1 (refines values represents)
      | some next =>
          rw [result] at refines
          have same : remaining e term {values | s.Represents values} =
              {values | next.Represents values} := by
            ext others
            constructor
            · intro isRemaining
              refine (refines.2 others).mpr ⟨isRemaining.1, ?_⟩
              rintro _ trimmed rfl
              exact isRemaining.2 (cutsOff_of_trimPoint normal.toInvariant wellFormed within.1
                (fun _ member => member) isRemaining.1 trimmed)
            · intro isNext
              have before := (refines.2 others).mp isNext
              exact ⟨before.1, fun cuts =>
                before.2 _ (normal.trimPoint_of_cutsOff wellFormed within.1 cuts) rfl⟩
          rw [same]
          exact inductionHypothesis (normal.addDisequationTerm result) within.2
            ((refines.2 values).mpr ⟨represents, avoids.1⟩) (avoids.2 next result)

/-- A disequation is added soundly where the coefficients divide what is left at the
valuations that the terms cut off; from a state in normal form, just there. -/
theorem addDisequation_keeps_iff (invariant : Invariant s) (wellFormed : e.WellFormed) :
    (DividesCutOff e e.variableTerms {values | s.Represents values} ->
      Keeps s (fun values => e.eval values ≠ 0) (s.addConstraint ⟨e, .notZero⟩)) ∧
    (Normal s -> Keeps s (fun values => e.eval values ≠ 0) (s.addConstraint ⟨e, .notZero⟩) ->
      DividesCutOff e e.variableTerms {values | s.Represents values}) := by
  rw [addDisequation_keeps_iff_avoids invariant e, dividesCutOff_iff]
  constructor
  · intro survive values represents nonzero
    exact avoidsTrims_of_survives invariant wellFormed (List.Subset.refl _)
      (fun _ member => member) represents
      (survive values represents nonzero)
  · intro normal avoid values represents nonzero
    exact normal.survives_of_avoidsTrims wellFormed (List.Subset.refl _) represents
      (avoid values represents nonzero)

end Disequations

/-- A variable between zero and five. -/
def upToFive : SplitDbm Nat := top.set 0 (.range 0 5)

/-- The disequation that twice the variable is not ten cuts off five, which two divides
ten into. -/
theorem addDisequation_keeps_double :
    Keeps upToFive (fun values => LinearExpression.eval values ⟨-10, [(0, 2)]⟩ ≠ 0)
      (upToFive.addConstraint ⟨⟨-10, [(0, 2)]⟩, .notZero⟩) ∧
    DividesCutOff ⟨-10, [(0, 2)]⟩ [(0, 2)] {values | upToFive.Represents values} := by
  have invariant : Invariant upToFive := (set_spec invariant_top 0 (by decide)).1
  have wellFormed : LinearExpression.WellFormed (V := Nat) ⟨-10, [(0, 2)]⟩ := ⟨by decide, by decide⟩
  have keeps := (addDisequation_keeps_iff invariant wellFormed).1 ?_
  · exact ⟨keeps, (addDisequation_keeps_iff invariant wellFormed).2
      (invariant.normal (by decide)) keeps⟩
  · refine ⟨fun values _ _ => ?_, trivial⟩
    have leaves : (⟨-10, [(0, 2)]⟩ : LinearExpression Nat).leaves (0, 2) values = 10 := by
      simp [LinearExpression.leaves, LinearExpression.eval, LinearExpression.evalTerms]
    rw [leaves]
    decide

/-- The disequation that twice the variable is not one trims zero, since the
half of one is rounded to zero. -/
theorem not_addDisequation_keeps_half :
    ¬ Keeps upToFive (fun values => LinearExpression.eval values ⟨-1, [(0, 2)]⟩ ≠ 0)
    (upToFive.addConstraint ⟨⟨-1, [(0, 2)]⟩, .notZero⟩) := by
  intro keeps
  have nonempty : ¬ (Interval.range 0 5).IsBottom := by decide
  have represents : upToFive.Represents (fun _ => 0) :=
    (set_spec invariant_top 0 nonempty).2 (fun _ => 0) (fun _ => 0) (represents_top _)
      (fun _ _ => rfl) (by decide)
  have trimmed : (upToFive.addConstraint ⟨⟨-1, [(0, 2)]⟩, .notZero⟩).map
      (fun next => next.getInterval 0) =
      some (.range 1 5) := by
    decide
  rcases Option.map_eq_some_iff.mp trimmed with ⟨next, result, interval⟩
  rw [result] at keeps
  have kept := keeps.2 (fun _ => 0) represents (by decide)
  have inside := Shape.mem_getInterval keeps.1.wellFormed kept 0
  rw [interval] at inside
  exact absurd inside (by decide)

end SplitDbm

end Crab
end Prevail
