import Prevail.Crab.IntervalDivision
import Prevail.Library.Quotient

namespace Prevail
namespace Crab

open DivisionOperator

/-!
# Unsigned division of intervals

`UDiv` is sound wherever it has a result.  It has none when the recursion
divides infinity by infinity, which is the case whenever both operands are
unbounded above, and when the negative part of an unknown dividend is adjusted
by a divisor that is too large for the adjusted bound to be read as a word.
-/

namespace Bound

section Quotients

variable {m n q : Bound} {x y : Int}

theorem toUnsigned_of_nonneg (nonneg : 0 ≤ x) : toUnsigned x = some x := if_pos nonneg

theorem uDiv_ofNumber (nonneg : 0 ≤ x) (positive : 0 < y) :
    (ofNumber x).uDiv (ofNumber y) = some (ofNumber (x / y)) := by
  rw [uDiv, absDiv, if_neg positive.ne', toUnsigned_of_nonneg nonneg,
    toUnsigned_of_nonneg positive.le]
  change some (ofNumber (x.tdiv y)) = _
  rw [Int.tdiv_eq_ediv_of_nonneg nonneg]

/-- Unsigned bounds have a quotient unless both are infinite. -/
theorem isSome_uDiv (nonneg : ofNumber 0 ≤ m) (positive : ofNumber 1 ≤ n) :
    (m.uDiv n).isSome ↔ ¬ (m = plusInfinity ∧ n = plusInfinity) := by
  cases n with
  | minusInfinity => exact absurd positive (not_le_minusInfinity 1)
  | plusInfinity =>
      cases m with
      | minusInfinity => exact absurd nonneg (not_le_minusInfinity 0)
      | plusInfinity => decide
      | ofNumber x => simp [uDiv, absDiv]
  | ofNumber y =>
      rw [ofNumber_le_ofNumber] at positive
      cases m with
      | minusInfinity => exact absurd nonneg (not_le_minusInfinity 0)
      | plusInfinity => simp [uDiv, absDiv, show y ≠ 0 by omega]
      | ofNumber x =>
          rw [ofNumber_le_ofNumber] at nonneg
          rw [uDiv_ofNumber nonneg (by omega)]
          simp

/-- The quotient of a lower bound and an upper bound. -/
theorem uDiv_le (nonneg : ofNumber 0 ≤ m ∨ m = minusInfinity) (below : m ≤ ofNumber x)
    (above : ofNumber y ≤ n)
    (positive : 0 < y) (quotient : m.uDiv n = some q) : q ≤ ofNumber (x / y) := by
  cases m with
  | minusInfinity =>
      cases n <;> simp only [uDiv, absDiv, reduceCtorEq, Option.ite_none_left_eq_some,
        Option.some.injEq] at quotient
      rw [← quotient.2]
      exact minusInfinity_le _
  | plusInfinity => exact absurd below (not_plusInfinity_le x)
  | ofNumber k =>
      rw [ofNumber_le_ofNumber] at below
      have start : 0 ≤ k := by
        rcases nonneg with nonneg | impossible
        · rwa [ofNumber_le_ofNumber] at nonneg
        · cases impossible
      cases n with
      | minusInfinity => exact absurd above (not_le_minusInfinity y)
      | plusInfinity =>
          cases quotient
          rw [ofNumber_le_ofNumber]
          exact Int.ediv_nonneg (start.trans below) positive.le
      | ofNumber l =>
          rw [ofNumber_le_ofNumber] at above
          rw [uDiv_ofNumber start (positive.trans_le above)] at quotient
          cases quotient
          rw [ofNumber_le_ofNumber]
          exact Quotient.ediv_le_ediv_of_le start below positive above

/-- The quotient of an upper bound and a lower bound. -/
theorem le_uDiv (nonneg : 0 ≤ x) (above : ofNumber x ≤ m) (positive : ofNumber 1 ≤ n)
    (below : n ≤ ofNumber y) (quotient : m.uDiv n = some q) : ofNumber (x / y) ≤ q := by
  cases n with
  | minusInfinity => exact absurd positive (not_le_minusInfinity 1)
  | plusInfinity => exact absurd below (not_plusInfinity_le y)
  | ofNumber l =>
      rw [ofNumber_le_ofNumber] at positive below
      cases m with
      | minusInfinity => exact absurd above (not_le_minusInfinity x)
      | plusInfinity =>
          simp only [uDiv, absDiv, Option.ite_none_left_eq_some, Option.some.injEq] at quotient
          rw [← quotient.2]
          exact le_plusInfinity _
      | ofNumber k =>
          rw [ofNumber_le_ofNumber] at above
          rw [uDiv_ofNumber (nonneg.trans above) (by omega)] at quotient
          cases quotient
          rw [ofNumber_le_ofNumber]
          exact Quotient.ediv_le_ediv_of_le nonneg above (by omega) below

theorem isSome_toUnsigned {k : Int} : (toUnsigned k).isSome ↔ -2 ^ 63 ≤ k := by
  have signedMin : IntType.uint64.swapSignedness.min = -2 ^ 63 := rfl
  have signedMax : IntType.uint64.swapSignedness.max = 2 ^ 63 - 1 := rfl
  have unsignedMin : IntType.uint64.min = 0 := rfl
  have unsignedMax : IntType.uint64.max = 2 ^ 64 - 1 := rfl
  simp only [toUnsigned, IntType.cast, IntType.FitsCast, IntType.Fits, signedMin,
    signedMax, unsignedMin, unsignedMax]
  split
  · simp only [Option.isSome_some, true_iff]
    omega
  · split
    · simp only [Option.isSome_some, true_iff]
      omega
    · simp only [Option.isSome_none, Bool.false_eq_true, false_iff]
      omega

/-- A bound that is infinite or has an unsigned reading. -/
def IsReadable (m : Bound) : Prop := forall k, m = ofNumber k -> -2 ^ 63 ≤ k

theorem isReadable_of_le (nonneg : ofNumber 0 ≤ m) : m.IsReadable := by
  rintro k rfl
  rw [ofNumber_le_ofNumber] at nonneg
  exact LE.le.trans (by norm_num) nonneg

theorem isSome_uDiv_ofNumber (readable : m.IsReadable) (positive : 0 < y) :
    (m.uDiv (ofNumber y)).isSome := by
  cases m with
  | minusInfinity => simp [uDiv, absDiv, positive.ne']
  | plusInfinity => simp [uDiv, absDiv, positive.ne']
  | ofNumber k =>
      rcases Option.isSome_iff_exists.mp (isSome_toUnsigned.mpr (readable k rfl)) with
        ⟨dividend, reads⟩
      simp [uDiv, absDiv, positive.ne', reads, toUnsigned_of_nonneg positive.le]

end Quotients

end Bound

namespace Interval

/-- What a division of unsigned words computes. -/
def unsignedQuotient (x y : Int) : Int := if y = 0 then 0 else x / y

/-- A lower bound that is not below zero, or that is unknown. -/
def StartsUnsigned (a : Interval) : Prop := .ofNumber 0 ≤ a.lb ∨ a.lb = .minusInfinity

section Positive

variable {a b : Interval}

theorem IsUnsigned.startsUnsigned (isUnsigned : a.IsUnsigned) : a.StartsUnsigned := by
  rcases isUnsigned with rfl | nonneg
  · exact Or.inr rfl
  · exact Or.inl nonneg

theorem lb_mk' (lb ub : Bound) : (mk' lb ub).lb = lb ∨ (mk' lb ub).lb = .ofNumber 0 := by
  rw [mk']
  split
  · exact Or.inr rfl
  · exact Or.inl rfl

theorem StartsUnsigned.parts (starts : a.StartsUnsigned) :
    a.negativePart.StartsUnsigned ∧ a.positivePart.StartsUnsigned := by
  constructor
  · rcases lb_mk' a.lb (.ofNumber (-1)) with same | zero
    · rw [StartsUnsigned, negativePart, same]
      exact starts
    · exact Or.inl (by rw [negativePart, zero])
  · rcases lb_mk' (.ofNumber 1) a.ub with one | zero
    · refine Or.inl ?_
      rw [positivePart, one, Bound.ofNumber_le_ofNumber]
      exact Int.one_nonneg
    · exact Or.inl (by rw [positivePart, zero])

theorem makeDividend_of_nonneg (nonneg : .ofNumber 0 ≤ a.ub) :
    makeDividendWhenBothNonzero a b = some a :=
  if_pos nonneg

end Positive

/-! ## Soundness -/

section Soundness

variable {a b : Interval}

theorem covers_uDiv_shortcut {result : Option Interval} (starts : a.StartsUnsigned)
    (short : uDivOperator.shortcut a b = some result) :
    Covers unsignedQuotient AreWords a b result := by
  intro interval found x inLeft y inRight words
  simp only [uDivOperator] at short
  split at short
  · rename_i n single
    rw [eq_of_singleton single inRight] at words ⊢
    rw [truncate_word words.2.1 words.2.2] at short
    split at short
    · split at short
      · rename_i one
        cases short
        cases found
        rw [unsignedQuotient, one, if_neg one_ne_zero, Int.ediv_one]
        exact inLeft
      · split at short
        · rename_i positive
          cases short
          rw [unsignedQuotient, if_neg positive.ne']
          rw [Option.mem_def, Option.bind_eq_bind, Option.bind_eq_some_iff] at found
          rcases found with ⟨lower, lowerQuotient, found⟩
          rw [Option.bind_eq_some_iff] at found
          rcases found with ⟨upper, upperQuotient, found⟩
          cases found
          apply mem_mk'
          · exact Bound.uDiv_le starts inLeft.1 le_rfl positive lowerQuotient
          · exact Bound.le_uDiv words.1.1 inLeft.2 (Bound.ofNumber_le_ofNumber.mpr positive) le_rfl
              upperQuotient
        · cases short
          cases found
          have zero : n = 0 := by
            have nonneg := words.2.1
            omega
          rw [mem_ofNumber, unsignedQuotient, if_pos zero]
    · cases short
  · cases short

theorem covers_uDiv_leaf (nonzeroDividend : 0 ∉ a) (nonzeroDivisor : 0 ∉ b) :
    Covers unsignedQuotient AreWords a b (uDivOperator.leaf a b) := by
  intro interval found x inLeft y inRight words
  have left := one_le_lb ((Bound.ofNumber_le_ofNumber.mpr words.1.1).trans inLeft.2) nonzeroDividend
  have right := one_le_lb ((Bound.ofNumber_le_ofNumber.mpr words.2.1).trans inRight.2)
    nonzeroDivisor
  have positive : 0 < y := Bound.ofNumber_le_ofNumber.mp (right.trans inRight.1)
  have start : .ofNumber 0 ≤ a.lb :=
    LE.le.trans (Bound.ofNumber_le_ofNumber.mpr Int.one_nonneg) left
  have dividend : makeDividendWhenBothNonzero a b = some a :=
    makeDividend_of_nonneg ((Bound.ofNumber_le_ofNumber.mpr words.1.1).trans inLeft.2)
  simp only [uDivOperator, dividend, Option.bind_eq_bind, Option.bind_some] at found
  rcases corners_eq_some.mp found with ⟨first, second, third, fourth, _, atSecond, atThird, _, rfl⟩
  rw [unsignedQuotient, if_neg positive.ne']
  apply mem_between (Or.inr (Or.inl rfl)) (Or.inr (Or.inr (Or.inl rfl)))
  · exact Bound.uDiv_le (Or.inl start) inLeft.1 inRight.2 positive atSecond
  · exact Bound.le_uDiv words.1.1 inLeft.2 right inRight.1 atThird

theorem uDiv_soundParts : SoundParts uDivOperator unsignedQuotient AreWords StartsUnsigned where
  parts _ starts := starts.parts
  shortcut _ _ _ starts short := covers_uDiv_shortcut starts short
  leaf _ _ _ _ nonzeroDividend nonzeroDivisor := covers_uDiv_leaf nonzeroDividend nonzeroDivisor
  zeroDivisor _ _ _ _ := mem_ofNumber.mpr (if_pos rfl)
  zeroDividend _ y _ _ := by
    apply mem_ofNumber.mpr
    rw [unsignedQuotient, Int.zero_ediv, ite_self]

end Soundness

/-! ## Where there is a result -/

/-- Not both operands are unbounded above, and the divisor of an unknown dividend
starts at a word whose negative can be read as a word, or is a single word. -/
structure UDivDefined (a b : Interval) : Prop where
  bounded : ¬ (a.ub = .plusInfinity ∧ b.ub = .plusInfinity)
  readable : a.lb = .minusInfinity -> b.lb ≤ .ofNumber (2 ^ 63) ∨ ∃ n ∈ b.singleton, n < 2 ^ 64

section Results

variable {a b : Interval}

theorem uDiv_shortcut_eq_none : uDivOperator.shortcut a b = none ↔
    forall n, b.singleton = some n -> ¬ IntType.int64.FitsCast n := by
  simp only [uDivOperator]
  cases b.singleton with
  | none => simp
  | some n =>
      dsimp only
      split_ifs <;> simp_all

theorem isSome_uDiv_shortcut {result : Option Interval} (lower : a.lb.IsReadable)
    (upper : a.ub.IsReadable)
    (short : uDivOperator.shortcut a b = some result) : result.isSome := by
  simp only [uDivOperator] at short
  split at short
  · split at short
    · split at short
      · cases short
        rfl
      · split at short
        · rename_i positive
          cases short
          rcases Option.isSome_iff_exists.mp (Bound.isSome_uDiv_ofNumber lower positive) with
            ⟨first, atFirst⟩
          rcases Option.isSome_iff_exists.mp (Bound.isSome_uDiv_ofNumber upper positive) with
            ⟨second, atSecond⟩
          rw [atFirst, atSecond]
          rfl
        · cases short
          rfl
    · cases short
  · cases short

theorem isSome_uDiv_of_positive (left : .ofNumber 1 ≤ a.lb) (right : .ofNumber 1 ≤ b.lb)
    (leftIn : ¬ a.IsBottom)
    (rightIn : ¬ b.IsBottom) : (a.uDiv b).isSome ↔
      ¬ (a.ub = .plusInfinity ∧ b.ub = .plusInfinity) := by
  have zero : Bound.ofNumber 0 ≤ .ofNumber 1 := Bound.ofNumber_le_ofNumber.mpr Int.one_nonneg
  have lower : .ofNumber 0 ≤ a.lb := LE.le.trans zero left
  have upper : .ofNumber 0 ≤ a.ub := lower.trans (not_lt.mp leftIn)
  have divisor : .ofNumber 1 ≤ b.ub := right.trans (not_lt.mp rightIn)
  cases short : uDivOperator.shortcut a b with
  | some result =>
      have found := isSome_uDiv_shortcut (Bound.isReadable_of_le lower)
        (Bound.isReadable_of_le upper) short
      rw [uDiv, run_of_shortcut leftIn rightIn short]
      refine ⟨fun _ unbounded => ?_, fun _ => found⟩
      have none : uDivOperator.shortcut a b = none := uDiv_shortcut_eq_none.mpr (fun n single => by
        rw [singleton_eq_some.mp single] at unbounded
        cases unbounded.2)
      rw [none] at short
      cases short
  | none =>
      have nonzeroLeft : 0 ∉ a := fun member => by
        have impossible := Bound.ofNumber_le_ofNumber.mp (left.trans member.1)
        omega
      have nonzeroRight : 0 ∉ b := fun member => by
        have impossible := Bound.ofNumber_le_ofNumber.mp (right.trans member.1)
        omega
      rw [uDiv, run_of_nonzero leftIn rightIn short nonzeroRight nonzeroLeft]
      simp only [uDivOperator, makeDividend_of_nonneg upper, Option.bind_eq_bind, Option.bind_some]
      rw [isSome_corners, Bound.isSome_uDiv lower right, Bound.isSome_uDiv lower divisor,
        Bound.isSome_uDiv upper right, Bound.isSome_uDiv upper divisor]
      have aboveLeft : a.lb = .plusInfinity -> a.ub = .plusInfinity := fun infinite =>
        le_antisymm (Bound.le_plusInfinity _) (infinite ▸ not_lt.mp leftIn)
      have aboveRight : b.lb = .plusInfinity -> b.ub = .plusInfinity := fun infinite =>
        le_antisymm (Bound.le_plusInfinity _) (infinite ▸ not_lt.mp rightIn)
      tauto

theorem makeDividend_of_negative {lb ub first second : Bound}
    (inhabited : ¬ (⟨lb, ub⟩ : Interval).IsBottom)
    (above : ¬ ub < .ofNumber 0) (atLower : Bound.add .minusInfinity ub.neg = some first)
    (atUpper : Bound.add (.ofNumber 0) lb.neg = some second) :
    makeDividendWhenBothNonzero ⟨.minusInfinity, .ofNumber (-1)⟩ ⟨lb, ub⟩ = some
      (mk' first second) := by
  have next : (⟨.minusInfinity, .ofNumber (-1)⟩ : Interval).plus (ofNumber 1) = some
      ⟨.minusInfinity, .ofNumber 0⟩ := by
    decide
  rw [makeDividendWhenBothNonzero, if_neg (by decide), if_neg above, next, Option.bind_eq_bind,
    Option.bind_some, minus, if_neg (not_or.mpr ⟨by decide, inhabited⟩), atLower, atUpper]
  rfl

/-- An unknown negative dividend and a divisor above zero. -/
theorem isSome_uDiv_of_negative (right : .ofNumber 1 ≤ b.lb) (rightIn : ¬ b.IsBottom)
    (long : uDivOperator.shortcut a b = none) :
    (uDiv ⟨.minusInfinity, .ofNumber (-1)⟩ b).isSome ↔ b.ub ≠ .plusInfinity ∧
      b.lb ≤ .ofNumber (2 ^ 63) := by
  have short : uDivOperator.shortcut ⟨.minusInfinity, .ofNumber (-1)⟩ b = none :=
    uDiv_shortcut_eq_none.mpr (uDiv_shortcut_eq_none.mp long)
  have nonzeroRight : 0 ∉ b := fun member => by
    have impossible := Bound.ofNumber_le_ofNumber.mp (right.trans member.1)
    omega
  rw [uDiv, run_of_nonzero (by decide) rightIn short nonzeroRight (by decide)]
  have above := not_lt.mp rightIn
  rcases b with ⟨lb, ub⟩
  cases lb with
  | minusInfinity => exact absurd right (Bound.not_le_minusInfinity 1)
  | plusInfinity =>
      have atEnd : ub = .plusInfinity := le_antisymm (Bound.le_plusInfinity _) above
      rw [atEnd]
      decide
  | ofNumber l =>
      have positive := Bound.ofNumber_le_ofNumber.mp right
      cases ub with
      | minusInfinity => exact absurd above (Bound.not_le_minusInfinity l)
      | plusInfinity =>
          have dividend := makeDividend_of_negative rightIn (by decide) (by rfl) (by rfl)
          simp [uDivOperator, dividend, mk'_minusInfinity, isSome_corners, Bound.uDiv, Bound.absDiv]
      | ofNumber u =>
          have ordered := Bound.ofNumber_le_ofNumber.mp above
          have divisorAbove : ¬ Bound.ofNumber u < .ofNumber 0 := by
            rw [Bound.ofNumber_lt_ofNumber]
            omega
          have dividend := makeDividend_of_negative rightIn divisorAbove (by rfl) (by rfl)
          have reads : (Bound.toUnsigned (0 + -l)).isSome ↔ l ≤ 2 ^ 63 := by
            rw [Bound.isSome_toUnsigned]
            omega
          have lower : l ≠ 0 := by omega
          have upper : u ≠ 0 := by omega
          simp only [uDivOperator, dividend, mk'_minusInfinity, Option.bind_eq_bind,
            Option.bind_some, isSome_corners, Bound.uDiv, Bound.absDiv, if_neg lower, if_neg upper]
          rw [Bound.ofNumber_le_ofNumber, ← reads, Bound.toUnsigned_of_nonneg (by omega : 0 ≤ l),
            Bound.toUnsigned_of_nonneg (by omega : 0 ≤ u)]
          cases Bound.toUnsigned (0 + -l) <;> simp

/-- The positive part of a dividend, and a divisor above zero. -/
theorem isSome_uDiv_positivePart (right : .ofNumber 1 ≤ b.lb) (rightIn : ¬ b.IsBottom) :
    (a.positivePart.uDiv b).isSome ↔ ¬ (a.ub = .plusInfinity ∧ b.ub = .plusInfinity) := by
  by_cases empty : a.ub < .ofNumber 1
  · refine iff_of_true (isSome_run_of_isBottom (Or.inl (isBottom_mk'.mpr empty))) ?_
    rintro ⟨infinite, _⟩
    rw [infinite] at empty
    exact absurd empty (by decide)
  · rw [positivePart_eq empty]
    exact isSome_uDiv_of_positive le_rfl right empty rightIn

theorem fitsCast_int64 {n : Int} : IntType.int64.FitsCast n ↔ -2 ^ 63 ≤ n ∧ n < 2 ^ 64 := by
  change (-2 ^ 63 ≤ n ∧ n ≤ 2 ^ 63 - 1) ∨ (0 ≤ n ∧ n ≤ 2 ^ 64 - 1) ↔ _
  omega

theorem IsUnsigned.isReadable_lb (isUnsigned : a.IsUnsigned) : a.lb.IsReadable := by
  rcases isUnsigned with rfl | nonneg
  · intro k impossible
    cases impossible
  · exact Bound.isReadable_of_le nonneg

theorem IsUnsigned.isReadable_ub (isUnsigned : a.IsUnsigned) (inhabited : ¬ a.IsBottom) :
    a.ub.IsReadable :=
  Bound.isReadable_of_le (isUnsigned.nonneg_ub inhabited)

theorem isSome_uDiv_of_shortcut (isUnsigned : a.IsUnsigned) (leftIn : ¬ a.IsBottom)
    (rightIn : ¬ b.IsBottom)
    {result : Option Interval} (short : uDivOperator.shortcut a b = some result) :
    (a.uDiv b).isSome ↔ UDivDefined a b := by
  have found := isSome_uDiv_shortcut isUnsigned.isReadable_lb
    (isUnsigned.isReadable_ub leftIn) short
  rw [uDiv, run_of_shortcut leftIn rightIn short]
  have single : ∃ n ∈ b.singleton, IntType.int64.FitsCast n := by
    by_contra several
    have long : uDivOperator.shortcut a b = none := uDiv_shortcut_eq_none.mpr (fun n single fits =>
      several ⟨n, single, fits⟩)
    rw [long] at short
    cases short
  rcases single with ⟨n, single, fits⟩
  refine iff_of_true found ⟨fun unbounded => ?_, fun _ => Or.inr ⟨n, single, ?_⟩⟩
  · rw [singleton_eq_some.mp single] at unbounded
    cases unbounded.2
  · exact (fitsCast_int64.mp fits).2

theorem isSome_uDiv_of_positive_divisor (isUnsigned : a.IsUnsigned) (leftIn : ¬ a.IsBottom)
    (right : .ofNumber 1 ≤ b.lb) (rightIn : ¬ b.IsBottom) : (a.uDiv b).isSome ↔
      UDivDefined a b := by
  have nonzeroRight : 0 ∉ b := fun member => by
    have impossible := Bound.ofNumber_le_ofNumber.mp (right.trans member.1)
    omega
  cases short : uDivOperator.shortcut a b with
  | some result => exact isSome_uDiv_of_shortcut isUnsigned leftIn rightIn short
  | none =>
      have several : ∀ n ∈ b.singleton, ¬ n < 2 ^ 64 := by
        intro n single small
        apply uDiv_shortcut_eq_none.mp short n single
        rw [singleton_eq_some.mp single] at right
        have positive := Bound.ofNumber_le_ofNumber.mp right
        exact fitsCast_int64.mpr ⟨by omega, small⟩
      by_cases inDividend : 0 ∈ a
      · rw [uDiv, isSome_run_of_dividend leftIn rightIn short nonzeroRight inDividend]
        have positive := @isSome_uDiv_positivePart a b right rightIn
        rw [uDiv] at positive
        rw [positive]
        rcases negativePart_cases isUnsigned with ⟨unknown, negative⟩ | ⟨nonneg, empty⟩
        · have below := isSome_uDiv_of_negative right rightIn short
          rw [uDiv] at below
          rw [negative, below]
          constructor
          · rintro ⟨⟨_, small⟩, bounded⟩
            exact ⟨bounded, fun _ => Or.inl small⟩
          · rintro ⟨bounded, readable⟩
            subst unknown
            refine ⟨⟨fun infinite => bounded ⟨rfl, infinite⟩, ?_⟩, bounded⟩
            rcases readable rfl with small | ⟨n, single, word⟩
            · exact small
            · exact absurd word (several n single)
        · constructor
          · rintro ⟨_, bounded⟩
            exact ⟨bounded, fun unknown => absurd unknown (ne_minusInfinity_of_le nonneg)⟩
          · rintro ⟨bounded, _⟩
            exact ⟨isSome_run_of_isBottom (Or.inl empty), bounded⟩
      · have nonneg : .ofNumber 0 ≤ a.lb := by
          rcases isUnsigned with rfl | nonneg
          · exact absurd (by decide) inDividend
          · exact nonneg
        have left := one_le_lb (isUnsigned.nonneg_ub leftIn) inDividend
        rw [isSome_uDiv_of_positive left right leftIn rightIn]
        constructor
        · exact fun bounded => ⟨bounded, fun unknown =>
            absurd unknown (ne_minusInfinity_of_le nonneg)⟩
        · exact fun defined => defined.bounded

theorem isSome_uDiv_of_negative_divisor (isUnsigned : a.IsUnsigned) (leftIn : ¬ a.IsBottom)
    (bounded : a.ub ≠ .plusInfinity) : (a.uDiv ⟨.minusInfinity, .ofNumber (-1)⟩).isSome := by
  have onPositive : forall c : Interval, .ofNumber 1 ≤ c.lb -> ¬ c.IsBottom ->
      c.ub ≠ .plusInfinity -> (c.uDiv ⟨.minusInfinity, .ofNumber (-1)⟩).isSome := by
    intro c left inhabited finite
    have nonzero : 0 ∉ c := fun member => by
      have impossible := Bound.ofNumber_le_ofNumber.mp (left.trans member.1)
      omega
    have upper : .ofNumber 0 ≤ c.ub :=
      (LE.le.trans (Bound.ofNumber_le_ofNumber.mpr Int.one_nonneg) left).trans (not_lt.mp inhabited)
    rw [uDiv, run_of_nonzero inhabited (by decide) rfl (by decide) nonzero]
    simp only [uDivOperator, makeDividend_of_nonneg upper, Option.bind_eq_bind, Option.bind_some,
      isSome_corners]
    rcases c with ⟨lb, ub⟩
    cases ub with
    | minusInfinity => exact absurd upper (Bound.not_le_minusInfinity 0)
    | plusInfinity => exact absurd rfl finite
    | ofNumber q =>
        cases lb with
        | minusInfinity => exact absurd left (Bound.not_le_minusInfinity 1)
        | plusInfinity => exact absurd (not_lt.mp inhabited) (Bound.not_plusInfinity_le q)
        | ofNumber p =>
            have start := Bound.ofNumber_le_ofNumber.mp left
            have stop := Bound.ofNumber_le_ofNumber.mp upper
            have reads : Bound.toUnsigned (-1) = some (2 ^ 64 - 1) := by decide
            simp [Bound.uDiv, Bound.absDiv, reads, Bound.toUnsigned_of_nonneg stop,
              Bound.toUnsigned_of_nonneg (Int.one_nonneg.trans start)]
  have known : .ofNumber 0 ≤ a.lb := by
    rcases isUnsigned with rfl | nonneg
    · exact absurd rfl bounded
    · exact nonneg
  by_cases inDividend : 0 ∈ a
  · rw [uDiv, isSome_run_of_dividend leftIn (by decide) rfl (by decide) inDividend]
    rcases negativePart_cases isUnsigned with ⟨rfl, _⟩ | ⟨_, empty⟩
    · exact absurd rfl bounded
    · refine ⟨isSome_run_of_isBottom (Or.inl empty), ?_⟩
      by_cases empty : a.ub < .ofNumber 1
      · exact isSome_run_of_isBottom (Or.inl (isBottom_mk'.mpr empty))
      · rw [positivePart_eq empty]
        exact onPositive _ le_rfl empty bounded
  · exact onPositive a (one_le_lb (isUnsigned.nonneg_ub leftIn) inDividend) leftIn bounded

/-- Where `UDiv` has a result. -/
theorem isSome_uDiv_iff (leftUnsigned : a.IsUnsigned) (rightUnsigned : b.IsUnsigned)
    (leftIn : ¬ a.IsBottom) (rightIn : ¬ b.IsBottom) : (a.uDiv b).isSome ↔ UDivDefined a b := by
  by_cases inDivisor : 0 ∈ b
  · cases short : uDivOperator.shortcut a b with
    | some result => exact isSome_uDiv_of_shortcut leftUnsigned leftIn rightIn short
    | none =>
        have nonempty : ¬ b.ub < .ofNumber 1 := by
          intro below
          rcases rightUnsigned with rfl | nonneg
          · exact absurd below (by decide)
          · have zero : b = ofNumber 0 := by
              rcases b with ⟨lb, ub⟩
              have atLower : lb = .ofNumber 0 := le_antisymm inDivisor.1 nonneg
              have atUpper : ub = .ofNumber 0 := by
                cases ub with
                | minusInfinity => exact absurd inDivisor.2 (Bound.not_le_minusInfinity 0)
                | plusInfinity => exact absurd below (not_lt.mpr (Bound.le_plusInfinity _))
                | ofNumber u =>
                    have lower := Bound.ofNumber_le_ofNumber.mp inDivisor.2
                    have upper := Bound.ofNumber_lt_ofNumber.mp below
                    rw [show u = 0 by omega]
              rw [atLower, atUpper, ofNumber]
            exact uDiv_shortcut_eq_none.mp short 0 (singleton_eq_some.mpr zero) (by decide)
        have positive : (a.uDiv b.positivePart).isSome ↔
            ¬ (a.ub = .plusInfinity ∧ b.ub = .plusInfinity) := by
          have inWord : Bound.ofNumber 1 ≤ .ofNumber (2 ^ 63) := by decide
          have defined := @isSome_uDiv_of_positive_divisor a ⟨.ofNumber 1, b.ub⟩ leftUnsigned leftIn
            le_rfl nonempty
          rw [positivePart_eq nonempty, defined]
          exact ⟨fun defined => defined.bounded, fun bounded => ⟨bounded, fun _ => Or.inl inWord⟩⟩
        have small : b.lb ≤ .ofNumber (2 ^ 63) := inDivisor.1.trans (by decide)
        rw [uDiv] at positive
        rw [uDiv, isSome_run_of_divisor leftIn rightIn short inDivisor, positive]
        refine ⟨fun both => ⟨both.2, fun _ => Or.inl small⟩, fun defined => ⟨?_, defined.bounded⟩⟩
        rcases negativePart_cases rightUnsigned with ⟨rfl, negative⟩ | ⟨_, empty⟩
        · rw [negative]
          exact isSome_uDiv_of_negative_divisor leftUnsigned leftIn
            (fun infinite => defined.bounded ⟨infinite, rfl⟩)
        · exact isSome_run_of_isBottom (Or.inr empty)
  · have right := one_le_lb (rightUnsigned.nonneg_ub rightIn) inDivisor
    exact isSome_uDiv_of_positive_divisor leftUnsigned leftIn right rightIn

/-- `UDiv` raises no error, and its result contains the quotients of the words of
the operands. -/
def UDivSound (a b : Interval) : Prop :=
  exists interval, a.uDiv b = some interval ∧
    forall x y, a.HasWord x -> b.HasWord y -> unsignedQuotient x y ∈ interval

/-- `UDiv` is sound and raises no error exactly where it has a result. -/
theorem uDiv_sound_iff {a b : Interval} (leftUnsigned : a.IsUnsigned) (rightUnsigned : b.IsUnsigned)
    (leftIn : ¬ a.IsBottom) (rightIn : ¬ b.IsBottom) : UDivSound a b ↔ UDivDefined a b := by
  rw [← isSome_uDiv_iff leftUnsigned rightUnsigned leftIn rightIn]
  constructor
  · rintro ⟨interval, result, _⟩
    rw [result]
    rfl
  · intro isSome
    rcases Option.isSome_iff_exists.mp isSome with ⟨interval, result⟩
    refine ⟨interval, result, fun x y left right => ?_⟩
    exact covers_run uDiv_soundParts leftUnsigned.startsUnsigned interval result x left.1 y right.1
      ⟨left.2, right.2⟩

theorem uDiv_sound_iff_top : UDivSound top (range 2 5) ↔ UDivDefined top (range 2 5) :=
  uDiv_sound_iff (by decide) (by decide) (by decide) (by decide)

/-- Two unknown operands have no quotient. -/
theorem not_uDivSound_top : ¬ forall a b : Interval, a.IsUnsigned -> b.IsUnsigned -> ¬ a.IsBottom ->
    ¬ b.IsBottom -> UDivSound a b := by
  intro all
  rcases all top top (by decide) (by decide) (by decide) (by decide) with ⟨interval, result, _⟩
  have none : top.uDiv top = none := by decide
  rw [none] at result
  cases result

end Results

end Interval
end Crab
end Prevail
