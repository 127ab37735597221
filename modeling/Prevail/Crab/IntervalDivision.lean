import Prevail.Crab.IntervalWords

namespace Prevail
namespace Crab

/-!
# The recursion of the division operators

`SDiv`, `UDiv` and `URem` of `crab/interval.cpp` share their recursion: after a
shortcut for single numbers, a divisor that contains zero is split into its
negative and its positive part, then a dividend that contains zero is, and the
parts are joined with what the eBPF instructions define for zero.  Only
operands without zero reach the rest of an operator.

The arithmetic of bounds can throw: there is no sum of opposite infinities, no
quotient of two infinities, and no unsigned reading of a number that fits
neither the signed nor the unsigned words.  An operator has no result there.
-/

namespace Bound

/-- `operator+` of `extended_number`. -/
def add : Bound -> Bound -> Option Bound
  | ofNumber m, ofNumber n => some (ofNumber (m + n))
  | ofNumber _, infinite => some infinite
  | minusInfinity, plusInfinity => none
  | plusInfinity, minusInfinity => none
  | infinite, _ => some infinite

def absDiv (f : Int -> Int -> Option Int) : Bound -> Bound -> Option Bound
  | ofNumber m, ofNumber n => if n = 0 then none else (f m n).map ofNumber
  | ofNumber _, _ => some (ofNumber 0)
  | infinite, ofNumber n => if n = 0 then none else some infinite
  | _, _ => none

/-- `operator/` of `extended_number`. -/
def div : Bound -> Bound -> Option Bound := absDiv (fun m n => some (m.tdiv n))

/-- The unsigned reading of an operand of `UDiv`. -/
def toUnsigned (n : Int) : Option Int := if 0 ≤ n then some n else IntType.uint64.cast n

/-- `UDiv` of `extended_number`. -/
def uDiv : Bound -> Bound -> Option Bound :=
  absDiv (fun m n => do
    let dividend <- toUnsigned m
    let divisor <- toUnsigned n
    return dividend.tdiv divisor)

end Bound

namespace Interval

/-- `operator+`, with the sums of the bounds. -/
def plus (interval x : Interval) : Option Interval :=
  if interval.IsBottom ∨ x.IsBottom then some bottom
  else do
    let lb <- interval.lb.add x.lb
    let ub <- interval.ub.add x.ub
    return mk' lb ub

/-- `operator-`, with the differences of the bounds. -/
def minus (interval x : Interval) : Option Interval :=
  if interval.IsBottom ∨ x.IsBottom then some bottom
  else do
    let lb <- interval.lb.add x.ub.neg
    let ub <- interval.ub.add x.lb.neg
    return mk' lb ub

def makeDividendWhenBothNonzero (dividend divisor : Interval) : Option Interval :=
  if .ofNumber 0 ≤ dividend.ub then some dividend
  else if divisor.ub < .ofNumber 0 then do
    let sum <- dividend.plus divisor
    sum.plus (ofNumber 1)
  else do
    let next <- dividend.plus (ofNumber 1)
    next.minus divisor

/-- The interval between the least and the largest of four bounds. -/
def between (first second third fourth : Bound) : Interval :=
  mk' (Min.min (Min.min (Min.min first second) third) fourth)
    (Max.max (Max.max (Max.max first second) third) fourth)

/-- The interval between the four quotients of the bounds. -/
def corners (div : Bound -> Bound -> Option Bound) (interval x : Interval) : Option Interval := do
  let first <- div interval.lb x.lb
  let second <- div interval.lb x.ub
  let third <- div interval.ub x.lb
  let fourth <- div interval.ub x.ub
  return between first second third fourth

/-- The part of an interval below zero. -/
def negativePart (interval : Interval) : Interval := mk' interval.lb (.ofNumber (-1))

/-- The part of an interval above zero. -/
def positivePart (interval : Interval) : Interval := mk' (.ofNumber 1) interval.ub

end Interval

/-- What makes one operator different from the others: its shortcut, which may
itself have no result, the interval that the parts of a split are joined with,
and the result for operands without zero. -/
structure DivisionOperator where
  shortcut : Interval -> Interval -> Option (Option Interval)
  rest : Interval -> Interval
  leaf : Interval -> Interval -> Option Interval

namespace DivisionOperator

variable (operator : DivisionOperator)

/-- The body of an operator, with its recursive calls as a parameter. -/
def body (self : Interval -> Interval -> Option Interval) (interval x : Interval) :
    Option Interval :=
  if interval.IsBottom ∨ x.IsBottom then some Interval.bottom
  else
    match operator.shortcut interval x with
    | some result => result
    | none =>
        if 0 ∈ x then do
          let lower <- self interval x.negativePart
          let upper <- self interval x.positivePart
          return (lower.join upper).join (operator.rest interval)
        else if 0 ∈ interval then do
          let lower <- self interval.negativePart x
          let upper <- self interval.positivePart x
          return (lower.join upper).join (operator.rest interval)
        else operator.leaf interval x

/-- An operator.  A split leaves parts without zero, so the calls are nested at
most three deep. -/
def run : Interval -> Interval -> Option Interval :=
  operator.body (operator.body (operator.body (fun _ _ => none)))

end DivisionOperator

namespace Interval

/-- `interval_t::SDiv` as a division operator. -/
def sDivOperator : DivisionOperator where
  shortcut interval x :=
    match x.singleton with
    | some n =>
        if IntType.int64.FitsCast n then
          let c := IntType.int64.truncate n
          if c = 1 then some (some interval)
          else if c ≠ 0 then some (do
            let lb <- interval.lb.div (.ofNumber c)
            let ub <- interval.ub.div (.ofNumber c)
            return mk' lb ub)
          else some (some (ofNumber 0))
        else none
    | none => none
  rest _ := ofNumber 0
  leaf interval x := do
    let a <- makeDividendWhenBothNonzero interval x
    corners Bound.div a x

/-- `interval_t::UDiv` as a division operator. -/
def uDivOperator : DivisionOperator where
  shortcut interval x :=
    match x.singleton with
    | some n =>
        if IntType.int64.FitsCast n then
          let c := IntType.uint64.truncate n
          if c = 1 then some (some interval)
          else if 0 < c then some (do
            let lb <- interval.lb.uDiv (.ofNumber c)
            let ub <- interval.ub.uDiv (.ofNumber c)
            return mk' lb ub)
          else some (some (ofNumber 0))
        else none
    | none => none
  rest _ := ofNumber 0
  leaf interval x := do
    let a <- makeDividendWhenBothNonzero interval x
    corners Bound.uDiv a x

/-- The test of `URem` for a dividend that is lower than the divisor. -/
def isLowerThan (interval : Interval) (divisor : Int) : Option Bool :=
  match interval.ub.number with
  | some dividend => do
      let most <- IntType.uint64.cast dividend
      let least <- IntType.uint64.cast divisor
      return decide (most < least)
  | none => some false

/-- `interval_t::URem` as a division operator. -/
def uRemOperator : DivisionOperator where
  shortcut interval x :=
    match interval.singleton, x.singleton with
    | some dividend, some divisor =>
        if IntType.uint64.FitsCast dividend ∧ IntType.uint64.FitsCast divisor then
          if divisor = 0 then some (some (ofNumber dividend))
          else some (some (ofNumber
            (IntType.uint64.truncate dividend % IntType.uint64.truncate divisor)))
        else none
    | _, _ => none
  rest interval := interval
  leaf interval x :=
    match x.lb.number, x.ub.number with
    | some lb, some ub => do
        let lower <- interval.isLowerThan lb
        if lower then some interval
        else do
          let maxDivisor <- IntType.uint64.cast ub
          return range 0 (maxDivisor - 1)
    | _, _ =>
        if interval.ub < .ofNumber 0 then some top
        else do
          let less <- interval.minus (ofNumber 1)
          return less.join (ofNumber 0)

def sDiv : Interval -> Interval -> Option Interval := sDivOperator.run

def uDiv : Interval -> Interval -> Option Interval := uDivOperator.run

def uRem : Interval -> Interval -> Option Interval := uRemOperator.run

/-! ## Parts of an interval -/

section Parts

variable {a : Interval} {n : Int}

theorem mem_negativePart : n ∈ a.negativePart ↔ a.lb ≤ .ofNumber n ∧ n < 0 := by
  rw [negativePart, mem_mk'_iff, Bound.ofNumber_le_ofNumber, Int.lt_iff_add_one_le]
  simp only [and_congr_right_iff]
  omega

theorem mem_positivePart : n ∈ a.positivePart ↔ 0 < n ∧ .ofNumber n ≤ a.ub := by
  rw [positivePart, mem_mk'_iff, Bound.ofNumber_le_ofNumber]
  simp only [and_congr_left_iff]
  omega

theorem zero_not_mem_negativePart (a : Interval) : 0 ∉ a.negativePart := fun member =>
  lt_irrefl _ (mem_negativePart.mp member).2

theorem zero_not_mem_positivePart (a : Interval) : 0 ∉ a.positivePart := fun member =>
  lt_irrefl _ (mem_positivePart.mp member).1

/-- A member is zero or belongs to one of the parts. -/
theorem mem_parts (member : n ∈ a) : n = 0 ∨ n ∈ a.negativePart ∨ n ∈ a.positivePart := by
  rcases lt_trichotomy n 0 with negative | zero | positive
  · exact Or.inr (Or.inl (mem_negativePart.mpr ⟨member.1, negative⟩))
  · exact Or.inl zero
  · exact Or.inr (Or.inr (mem_positivePart.mpr ⟨positive, member.2⟩))

/-- The parts of an interval of unsigned values that contains zero. -/
theorem negativePart_cases (isUnsigned : a.IsUnsigned) :
    (a = top ∧ a.negativePart = ⟨.minusInfinity, .ofNumber (-1)⟩) ∨
      (.ofNumber 0 ≤ a.lb ∧ a.negativePart.IsBottom) := by
  rcases isUnsigned with rfl | nonneg
  · exact Or.inl ⟨rfl, rfl⟩
  · refine Or.inr ⟨nonneg, isBottom_mk'.mpr ?_⟩
    exact LE.le.trans_lt' nonneg (by decide)

theorem positivePart_eq (reaches : ¬ a.ub < .ofNumber 1) : a.positivePart = ⟨.ofNumber 1, a.ub⟩ :=
  if_neg reaches

end Parts

end Interval

namespace DivisionOperator

open Prevail.Crab.Interval

variable {operator : DivisionOperator} {a b : Interval} {self other : Interval -> Interval ->
  Option Interval}

/-! ## The recursion -/

section Recursion

/-- Recursive calls that give the same results at the parts. -/
structure AgreesAt (self other : Interval -> Interval -> Option Interval)
    (a b : Interval) : Prop where
  divisor : 0 ∈ b -> self a b.negativePart = other a b.negativePart ∧
    self a b.positivePart = other a b.positivePart
  dividend : 0 ∉ b -> 0 ∈ a ->
    self a.negativePart b = other a.negativePart b ∧ self a.positivePart b = other a.positivePart b

theorem body_congr (agrees : AgreesAt self other a b) :
    operator.body self a b = operator.body other a b := by
  rcases agrees with ⟨divisor, dividend⟩
  rw [body, body]
  by_cases inDivisor : 0 ∈ b
  · simp only [if_pos inDivisor, divisor inDivisor]
  · by_cases inDividend : 0 ∈ a
    · simp only [if_neg inDivisor, if_pos inDividend, dividend inDivisor inDividend]
    · simp only [if_neg inDivisor, if_neg inDividend]

/-- The operator is its body with calls of itself. -/
theorem run_eq : operator.run a b = operator.body operator.run a b := by
  have nonzero : forall {a b : Interval}, 0 ∉ b -> 0 ∉ a -> forall self other,
      operator.body self a b = operator.body other a b :=
    fun inDivisor inDividend self other => body_congr
      ⟨fun inside => absurd inside inDivisor, fun _ inside => absurd inside inDividend⟩
  have divisor : forall {a b : Interval}, 0 ∉ b -> forall self other,
      operator.body (operator.body self) a b = operator.body (operator.body other) a b := by
    intro a b inDivisor self other
    apply body_congr
    refine ⟨fun inside => absurd inside inDivisor, fun _ _ => ?_⟩
    exact ⟨nonzero inDivisor (zero_not_mem_negativePart a) _ _,
      nonzero inDivisor (zero_not_mem_positivePart a) _ _⟩
  apply body_congr
  constructor
  · intro _
    exact ⟨divisor (zero_not_mem_negativePart b) _ _, divisor (zero_not_mem_positivePart b) _ _⟩
  · intro inDivisor _
    exact ⟨divisor inDivisor _ _, divisor inDivisor _ _⟩

theorem run_of_isBottom (empty : a.IsBottom ∨ b.IsBottom) :
    operator.run a b = some Interval.bottom := by
  rw [run, body, if_pos empty]

theorem isSome_run_of_isBottom (empty : a.IsBottom ∨ b.IsBottom) :
    (operator.run a b).isSome := by
  rw [run_of_isBottom empty]
  rfl

variable (leftInhabited : ¬ a.IsBottom) (rightInhabited : ¬ b.IsBottom)

include leftInhabited rightInhabited

theorem run_of_shortcut {result : Option Interval} (short : operator.shortcut a b = some result) :
    operator.run a b = result := by
  rw [run_eq, body, if_neg (not_or.mpr ⟨leftInhabited, rightInhabited⟩), short]

variable (long : operator.shortcut a b = none)

include long

theorem run_of_divisor (inDivisor : 0 ∈ b) : operator.run a b = do
    let lower <- operator.run a b.negativePart
    let upper <- operator.run a b.positivePart
    return (lower.join upper).join (operator.rest a) := by
  rw [run_eq, body, if_neg (not_or.mpr ⟨leftInhabited, rightInhabited⟩), long]
  exact if_pos inDivisor

theorem run_of_dividend (inDivisor : 0 ∉ b) (inDividend : 0 ∈ a) : operator.run a b = do
    let lower <- operator.run a.negativePart b
    let upper <- operator.run a.positivePart b
    return (lower.join upper).join (operator.rest a) := by
  rw [run_eq, body, if_neg (not_or.mpr ⟨leftInhabited, rightInhabited⟩), long]
  exact (if_neg inDivisor).trans (if_pos inDividend)

theorem run_of_nonzero (inDivisor : 0 ∉ b) (inDividend : 0 ∉ a) :
    operator.run a b = operator.leaf a b := by
  rw [run_eq, body, if_neg (not_or.mpr ⟨leftInhabited, rightInhabited⟩), long]
  exact (if_neg inDivisor).trans (if_neg inDividend)

theorem isSome_run_of_divisor (inDivisor : 0 ∈ b) : (operator.run a b).isSome ↔
    (operator.run a b.negativePart).isSome ∧ (operator.run a b.positivePart).isSome := by
  rw [run_of_divisor leftInhabited rightInhabited long inDivisor]
  cases operator.run a b.negativePart <;> cases operator.run a b.positivePart <;> simp

theorem isSome_run_of_dividend (inDivisor : 0 ∉ b) (inDividend : 0 ∈ a) :
    (operator.run a b).isSome ↔ (operator.run a.negativePart b).isSome ∧
      (operator.run a.positivePart b).isSome := by
  rw [run_of_dividend leftInhabited rightInhabited long inDivisor inDividend]
  cases operator.run a.negativePart b <;> cases operator.run a.positivePart b <;> simp

end Recursion

/-! ## Soundness from the parts -/

/-- A result, if there is one, contains what the instruction computes from the
members in question. -/
def Covers (f : Int -> Int -> Int) (considered : Int -> Int -> Prop) (a b : Interval)
    (result : Option Interval) :
    Prop :=
  ∀ interval ∈ result, ∀ x ∈ a, ∀ y ∈ b, considered x y -> f x y ∈ interval

/-- What makes an operator sound on the dividends of a kind, which the parts of a
dividend share. -/
structure SoundParts (operator : DivisionOperator) (f : Int -> Int -> Int)
    (considered : Int -> Int -> Prop) (kind : Interval -> Prop) : Prop where
  parts : forall a, kind a -> kind a.negativePart ∧ kind a.positivePart
  shortcut : forall a b result, kind a -> operator.shortcut a b = some result ->
    Covers f considered a b result
  leaf : forall a b, kind a -> operator.shortcut a b = none -> 0 ∉ a -> 0 ∉ b ->
    Covers f considered a b (operator.leaf a b)
  zeroDivisor : forall a x, x ∈ a -> considered x 0 -> f x 0 ∈ operator.rest a
  zeroDividend : forall a y, 0 ∈ a -> considered 0 y -> f 0 y ∈ operator.rest a

section Soundness

variable {f : Int -> Int -> Int} {considered : Int -> Int -> Prop} {kind : Interval -> Prop}
  (sound : SoundParts operator f considered kind)

theorem mem_of_split {lower upper : Option Interval} {rest interval : Interval} {n : Int}
    (result : (do
      let lower <- lower
      let upper <- upper
      return (lower.join upper).join rest) = some interval)
    (member : n ∈ rest ∨ (∀ part ∈ lower, n ∈ part) ∨ (∀ part ∈ upper, n ∈ part)) :
    n ∈ interval := by
  cases lower with
  | none => cases result
  | some lower =>
      cases upper with
      | none => cases result
      | some upper =>
          cases result
          rcases member with inRest | inLower | inUpper
          · exact mem_join (Or.inr inRest)
          · exact mem_join (Or.inl (mem_join (Or.inl (inLower lower rfl))))
          · exact mem_join (Or.inl (mem_join (Or.inr (inUpper upper rfl))))

include sound

theorem covers_run_of_nonzero (isKind : kind a) (inDivisor : 0 ∉ b) (inDividend : 0 ∉ a) :
    Covers f considered a b (operator.run a b) := by
  intro interval result x inLeft y inRight
  have leftInhabited := not_isBottom_of_mem inLeft
  have rightInhabited := not_isBottom_of_mem inRight
  cases short : operator.shortcut a b with
  | some shorter =>
      rw [run_of_shortcut leftInhabited rightInhabited short] at result
      exact sound.shortcut a b shorter isKind short interval result x inLeft y inRight
  | none =>
      rw [run_of_nonzero leftInhabited rightInhabited short inDivisor inDividend] at result
      exact sound.leaf a b isKind short inDividend inDivisor interval result x inLeft y inRight

theorem covers_run_of_divisor (isKind : kind a) (inDivisor : 0 ∉ b) :
    Covers f considered a b (operator.run a b) := by
  by_cases inDividend : 0 ∈ a
  · intro interval result x inLeft y inRight holds
    have leftInhabited := not_isBottom_of_mem inLeft
    have rightInhabited := not_isBottom_of_mem inRight
    cases short : operator.shortcut a b with
    | some shorter =>
        rw [run_of_shortcut leftInhabited rightInhabited short] at result
        exact sound.shortcut a b shorter isKind short interval result x inLeft y inRight holds
    | none =>
        rw [run_of_dividend leftInhabited rightInhabited short inDivisor inDividend] at result
        apply mem_of_split result
        rcases mem_parts inLeft with rfl | negative | positive
        · exact Or.inl (sound.zeroDividend a y inLeft holds)
        · refine Or.inr (Or.inl (fun part isPart => ?_))
          exact covers_run_of_nonzero sound (sound.parts a isKind).1 inDivisor
            (zero_not_mem_negativePart a)
            part isPart x negative y inRight holds
        · refine Or.inr (Or.inr (fun part isPart => ?_))
          exact covers_run_of_nonzero sound (sound.parts a isKind).2 inDivisor
            (zero_not_mem_positivePart a)
            part isPart x positive y inRight holds
  · exact covers_run_of_nonzero sound isKind inDivisor inDividend

/-- The recursion keeps the soundness of the shortcut and of the rest. -/
theorem covers_run (isKind : kind a) : Covers f considered a b (operator.run a b) := by
  by_cases inDivisor : 0 ∈ b
  · intro interval result x inLeft y inRight holds
    have leftInhabited := not_isBottom_of_mem inLeft
    have rightInhabited := not_isBottom_of_mem inRight
    cases short : operator.shortcut a b with
    | some shorter =>
        rw [run_of_shortcut leftInhabited rightInhabited short] at result
        exact sound.shortcut a b shorter isKind short interval result x inLeft y inRight holds
    | none =>
        rw [run_of_divisor leftInhabited rightInhabited short inDivisor] at result
        apply mem_of_split result
        rcases mem_parts inRight with rfl | negative | positive
        · exact Or.inl (sound.zeroDivisor a x inLeft holds)
        · refine Or.inr (Or.inl (fun part isPart => ?_))
          exact covers_run_of_divisor sound isKind (zero_not_mem_negativePart b) part isPart x
            inLeft y negative holds
        · refine Or.inr (Or.inr (fun part isPart => ?_))
          exact covers_run_of_divisor sound isKind (zero_not_mem_positivePart b) part isPart x
            inLeft y positive holds
  · exact covers_run_of_divisor sound isKind inDivisor

end Soundness

end DivisionOperator

/-! ## The four corners -/

namespace Interval

section Corners

variable {a b interval : Interval} {n : Int} {div : Bound -> Bound -> Option Bound}

theorem mem_between {first second third fourth : Bound} {lower upper : Bound}
    (isLower : lower = first ∨ lower = second ∨ lower = third ∨ lower = fourth)
    (isUpper : upper = first ∨ upper = second ∨ upper = third ∨ upper = fourth)
    (above : lower ≤ .ofNumber n)
    (below : .ofNumber n ≤ upper) : n ∈ between first second third fourth := by
  apply mem_mk'
  · refine LE.le.trans ?_ above
    rcases isLower with rfl | rfl | rfl | rfl
    · exact (min_le_left _ _).trans ((min_le_left _ _).trans (min_le_left _ _))
    · exact (min_le_left _ _).trans ((min_le_left _ _).trans (min_le_right _ _))
    · exact (min_le_left _ _).trans (min_le_right _ _)
    · exact min_le_right _ _
  · refine below.trans ?_
    rcases isUpper with rfl | rfl | rfl | rfl
    · exact (le_max_left _ _).trans ((le_max_left _ _).trans (le_max_left _ _))
    · exact (le_max_right _ _).trans ((le_max_left _ _).trans (le_max_left _ _))
    · exact (le_max_right _ _).trans (le_max_left _ _)
    · exact le_max_right _ _

theorem isSome_corners : (corners div a b).isSome ↔ (div a.lb b.lb).isSome ∧
    (div a.lb b.ub).isSome ∧ (div a.ub b.lb).isSome ∧ (div a.ub b.ub).isSome := by
  rw [corners]
  cases div a.lb b.lb <;> cases div a.lb b.ub <;> cases div a.ub b.lb <;>
    cases div a.ub b.ub <;> simp

theorem corners_eq_some : corners div a b = some interval ↔ exists first second third fourth,
    div a.lb b.lb = some first ∧ div a.lb b.ub = some second ∧ div a.ub b.lb = some third ∧
      div a.ub b.ub = some fourth ∧ between first second third fourth = interval := by
  rw [corners]
  cases div a.lb b.lb <;> cases div a.lb b.ub <;> cases div a.ub b.lb <;>
    cases div a.ub b.ub <;> simp

end Corners

end Interval
end Crab
end Prevail
