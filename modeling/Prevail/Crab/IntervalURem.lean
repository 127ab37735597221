import Prevail.Crab.IntervalDivision

namespace Prevail
namespace Crab

open DivisionOperator

/-!
# Unsigned remainder of intervals

A remainder of words is smaller than the dividend, or the dividend itself.  The
result of `URem` always contains the smaller ones.  It misses a dividend that
is its own remainder in one case: neither operand contains zero and the divisor
is unbounded.  Then the result ends below the largest dividend.

`URem` has no result when it casts a finite bound beyond the largest word.
-/

namespace Interval

/-- What a remainder of unsigned words computes. -/
def unsignedRemainder (x y : Int) : Int := if y = 0 then x else x % y

/-- Two words with a remainder that is not the dividend. -/
def AreReduced (x y : Int) : Prop := AreWords x y ∧ unsignedRemainder x y ≠ x

section Remainder

variable {a b : Interval} {x y : Int}

theorem AreReduced.bounds (reduced : AreReduced x y) :
    0 < y ∧ y ≤ x ∧ 0 ≤ unsignedRemainder x y ∧ unsignedRemainder x y < y := by
  rcases reduced with ⟨⟨left, right⟩, different⟩
  rw [unsignedRemainder] at different ⊢
  by_cases zero : y = 0
  · rw [if_pos zero] at different
    exact absurd rfl different
  · have positive : 0 < y := lt_of_le_of_ne right.1 (Ne.symm zero)
    rw [if_neg zero] at different ⊢
    refine ⟨positive, ?_, Int.emod_nonneg x zero, Int.emod_lt_of_pos x positive⟩
    by_contra below
    exact different (Int.emod_eq_of_lt left.1 (not_le.mp below))

theorem cast_word (nonneg : 0 ≤ x) : IntType.uint64.cast x = if x < 2 ^ 64 then some x
    else none := by
  have fits : IntType.uint64.FitsCast x ↔ x < 2 ^ 64 := by
    change (0 ≤ x ∧ x ≤ 2 ^ 64 - 1) ∨ (-2 ^ 63 ≤ x ∧ x ≤ 2 ^ 63 - 1) ↔ _
    omega
  rw [IntType.cast]
  by_cases small : x < 2 ^ 64
  · rw [if_pos (fits.mpr small), if_pos small, truncate_word nonneg small]
  · rw [if_neg (fun impossible => small (fits.mp impossible)), if_neg small]

end Remainder

/-! ## The rest of the operator, above zero -/

section Leaf

variable {a b : Interval}

/-- One less than a bound above zero. -/
theorem exists_add_minusOne {p : Bound} (positive : .ofNumber 1 ≤ p) :
    exists less, Bound.add p (.ofNumber (-1)) = some less ∧
      forall n : Int, .ofNumber n ≤ less ↔ .ofNumber (n + 1) ≤ p := by
  cases p with
  | minusInfinity => exact absurd positive (Bound.not_le_minusInfinity 1)
  | plusInfinity => exact ⟨.plusInfinity, rfl, fun n => by simp⟩
  | ofNumber k =>
      refine ⟨.ofNumber (k + -1), rfl, fun n => ?_⟩
      rw [Bound.ofNumber_le_ofNumber, Bound.ofNumber_le_ofNumber]
      omega

/-- Bounds are ordered by the numbers below them. -/
theorem bound_le_of_forall {first second : Bound} (below : forall n : Int,
    .ofNumber n ≤ first -> .ofNumber n ≤ second) :
    first ≤ second := by
  cases first with
  | minusInfinity => exact Bound.minusInfinity_le _
  | ofNumber k => exact below k le_rfl
  | plusInfinity =>
      cases second with
      | minusInfinity => exact absurd (below 0
        (Bound.le_plusInfinity _)) (Bound.not_le_minusInfinity 0)
      | ofNumber k =>
          have impossible := Bound.ofNumber_le_ofNumber.mp (below (k + 1) (Bound.le_plusInfinity _))
          omega
      | plusInfinity => exact le_rfl

/-- An unbounded divisor: everything up to one less than the largest dividend. -/
theorem uRem_leaf_of_unbounded (left : .ofNumber 1 ≤ a.lb) (inhabited : ¬ a.IsBottom)
    (unbounded : b.lb.number = none ∨ b.ub.number = none) : exists interval,
    uRemOperator.leaf a b = some interval ∧ forall n : Int, 0 ≤ n ->
      (n ∈ interval ↔ .ofNumber (n + 1) ≤ a.ub) := by
  have upper : .ofNumber 1 ≤ a.ub := left.trans (not_lt.mp inhabited)
  have notNegative : ¬ a.ub < .ofNumber 0 :=
    not_lt.mpr (LE.le.trans (Bound.ofNumber_le_ofNumber.mpr Int.one_nonneg) upper)
  rcases exists_add_minusOne left with ⟨lower, atLower, lowerIff⟩
  rcases exists_add_minusOne upper with ⟨less, atUpper, lessIff⟩
  have ordered : lower ≤ less := bound_le_of_forall (fun n below =>
    (lessIff n).mpr (((lowerIff n).mp below).trans (not_lt.mp inhabited)))
  have start : .ofNumber 0 ≤ lower := (lowerIff 0).mpr left
  have whole : (mk' lower less).join (ofNumber 0) = mk' (.ofNumber 0) less := by
    have part : mk' lower less = ⟨lower, less⟩ := if_neg (not_lt.mpr ordered)
    have partIn : ¬ (⟨lower, less⟩ : Interval).IsBottom := not_lt.mpr ordered
    rw [part, join, if_neg partIn, if_neg (by decide)]
    simp only [ofNumber, min_eq_right start, max_eq_left (start.trans ordered)]
  have less_ : a.minus (ofNumber 1) = some (mk' lower less) := by
    rw [minus, if_neg (not_or.mpr ⟨inhabited, by decide⟩)]
    simp only [ofNumber, Bound.neg, atLower, atUpper, Option.bind_eq_bind, Option.bind_some]
    rfl
  refine ⟨mk' (.ofNumber 0) less, ?_, fun n nonneg => ?_⟩
  · simp only [uRemOperator]
    rcases unbounded with none | none
    · rw [none]
      simp [notNegative, less_, whole]
    · rw [none]
      cases b.lb.number <;> simp [notNegative, less_, whole]
  · rw [mem_mk'_iff, lessIff, Bound.ofNumber_le_ofNumber]
    exact and_iff_right nonneg

theorem uRem_leaf_of_bounded {l u : Int} (left : .ofNumber 1 ≤ a.lb) (inhabited : ¬ a.IsBottom)
    (right : 1 ≤ l)
    (word : l < 2 ^ 64) (ordered : l ≤ u) : uRemOperator.leaf a ⟨.ofNumber l, .ofNumber u⟩ =
      if a.ub < .ofNumber l then some a
      else if (a.ub = .plusInfinity ∨ a.ub < .ofNumber (2 ^ 64)) ∧
      u < 2 ^ 64 then some (range 0 (u - 1))
      else none := by
  have upper : .ofNumber 1 ≤ a.ub := left.trans (not_lt.mp inhabited)
  have casts : forall x : Int, 0 ≤ x -> IntType.uint64.cast x = if x < 2 ^ 64 then some x
      else none :=
    fun x nonneg => cast_word nonneg
  generalize (2 : Int) ^ 64 = words at casts word ⊢
  have castLower : IntType.uint64.cast l = some l := by rw [casts l (by omega), if_pos word]
  simp only [uRemOperator, Bound.number_ofNumber, isLowerThan, castLower, casts u (by omega)]
  rcases a with ⟨lb, ub⟩
  cases ub with
  | minusInfinity => exact absurd upper (Bound.not_le_minusInfinity 1)
  | plusInfinity =>
      have above : ¬ Bound.plusInfinity < .ofNumber l := not_lt.mpr (Bound.le_plusInfinity _)
      by_cases small : u < words <;> simp [Bound.number, above, small]
  | ofNumber q =>
      have nonneg : 0 ≤ q := Int.one_nonneg.trans (Bound.ofNumber_le_ofNumber.mp upper)
      by_cases small : q < words
      · by_cases below : q < l
        · simp [casts q nonneg, small, below]
        · by_cases inWord : u < words <;> simp [casts q nonneg, small, below, inWord]
      · have above : ¬ q < l := by omega
        simp [casts q nonneg, small, above]

end Leaf

/-! ## Which remainders the result contains -/

section Soundness

variable {a b interval : Interval} {x y : Int}

theorem uRem_shortcut_eq_some {result : Option Interval}
    (short : uRemOperator.shortcut a b = some result)
    (left : a.HasWord x) (right : b.HasWord y) :
    result = some (ofNumber (unsignedRemainder x y)) := by
  simp only [uRemOperator] at short
  split at short
  · rename_i dividend divisor leftSingle rightSingle
    rw [← eq_of_singleton leftSingle left.1, ← eq_of_singleton rightSingle right.1] at short
    rw [truncate_word left.2.1 left.2.2, truncate_word right.2.1 right.2.2] at short
    rw [unsignedRemainder]
    split at short
    · split at short
      · rename_i zero
        rw [if_pos zero]
        exact (Option.some.inj short).symm
      · rename_i nonzero
        rw [if_neg nonzero]
        exact (Option.some.inj short).symm
    · cases short
  · cases short

theorem uRem_soundParts : SoundParts uRemOperator unsignedRemainder AreReduced (fun _ => True) where
  parts _ _ := ⟨trivial, trivial⟩
  shortcut a b result _ short := by
    intro interval found x inLeft y inRight reduced
    rw [uRem_shortcut_eq_some short ⟨inLeft, reduced.1.1⟩ ⟨inRight, reduced.1.2⟩] at found
    cases found
    exact mem_ofNumber.mpr rfl
  leaf a b _ _ nonzeroDividend nonzeroDivisor := by
    intro interval found x inLeft y inRight reduced
    have left := one_le_lb ((Bound.ofNumber_le_ofNumber.mpr reduced.1.1.1).trans inLeft.2)
      nonzeroDividend
    have right := one_le_lb ((Bound.ofNumber_le_ofNumber.mpr reduced.1.2.1).trans inRight.2)
      nonzeroDivisor
    have inhabited := not_isBottom_of_mem inLeft
    have bounds := reduced.bounds
    have word := reduced.1.2.2
    rcases b with ⟨lb, ub⟩
    cases ub with
    | minusInfinity => exact absurd inRight.2 (Bound.not_le_minusInfinity y)
    | plusInfinity =>
        rcases @uRem_leaf_of_unbounded a ⟨lb, .plusInfinity⟩ left inhabited (Or.inr rfl) with
          ⟨result, leaf, members⟩
        rw [leaf] at found
        cases found
        apply (members _ bounds.2.2.1).mpr
        exact (Bound.ofNumber_le_ofNumber.mpr (by omega)).trans inLeft.2
    | ofNumber u =>
        cases lb with
        | minusInfinity => exact absurd right (Bound.not_le_minusInfinity 1)
        | plusInfinity => exact absurd inRight.1 (Bound.not_plusInfinity_le y)
        | ofNumber l =>
            have lower := Bound.ofNumber_le_ofNumber.mp inRight.1
            have upper := Bound.ofNumber_le_ofNumber.mp inRight.2
            have above : ¬ a.ub < .ofNumber l := fun below => by
              have impossible := Bound.ofNumber_lt_ofNumber.mp (inLeft.2.trans_lt below)
              omega
            rw [uRem_leaf_of_bounded left inhabited (Bound.ofNumber_le_ofNumber.mp right)
              (by omega) (by omega), if_neg above, Option.mem_def,
                Option.ite_none_right_eq_some] at found
            cases found.2
            rw [mem_range]
            omega
  zeroDivisor a x _ reduced := absurd (if_pos rfl) reduced.2
  zeroDividend a y _ reduced := by
    refine absurd ?_ reduced.2
    rw [unsignedRemainder, Int.zero_emod, ite_self]

/-- Neither operand contains zero, the divisor is unbounded, and there is a word
above the dividend. -/
structure MissesDividend (a b : Interval) : Prop where
  unbounded : b.ub = .plusInfinity
  divisor : 0 ∉ b
  dividend : 0 ∉ a
  small : a.ub < .ofNumber IntType.uint64.max

/-- The joined rest of a split contains the dividends. -/
theorem mem_rest {lower upper : Option Interval} (result : (do
      let lower <- lower
      let upper <- upper
      return (lower.join upper).join a) = some interval) (member : x ∈ a) : x ∈ interval :=
  mem_of_split result (Or.inl member)

theorem mem_uRem_leaf (result : uRemOperator.leaf a b = some interval) (inLeft : x ∈ a)
    (right : b.HasWord y)
    (atLeft : .ofNumber 1 ≤ a.lb) (atRight : .ofNumber 1 ≤ b.lb) (smaller : x < y)
    (present : ¬ MissesDividend a b) (inDivisor : 0 ∉ b) (inDividend : 0 ∉ a) : x ∈ interval := by
  have nonneg : 0 ≤ x := Int.one_nonneg.trans
    (Bound.ofNumber_le_ofNumber.mp (atLeft.trans inLeft.1))
  have leftIn := not_isBottom_of_mem inLeft
  have word := right.2.2
  rcases b with ⟨lb, ub⟩
  cases ub with
  | minusInfinity => exact absurd right.1.2 (Bound.not_le_minusInfinity y)
  | plusInfinity =>
      rcases @uRem_leaf_of_unbounded a ⟨lb, .plusInfinity⟩ atLeft leftIn (Or.inr rfl) with
        ⟨found, leaf, members⟩
      rw [leaf] at result
      cases result
      apply (members x nonneg).mpr
      have large : .ofNumber IntType.uint64.max ≤ a.ub := by
        by_contra small
        exact present ⟨rfl, inDivisor, inDividend, not_le.mp small⟩
      refine LE.le.trans (Bound.ofNumber_le_ofNumber.mpr ?_) large
      change x + 1 ≤ 2 ^ 64 - 1
      omega
  | ofNumber u =>
      cases lb with
      | minusInfinity => exact absurd atRight (Bound.not_le_minusInfinity 1)
      | plusInfinity => exact absurd right.1.1 (Bound.not_plusInfinity_le y)
      | ofNumber l =>
          have lower := Bound.ofNumber_le_ofNumber.mp right.1.1
          have upper := Bound.ofNumber_le_ofNumber.mp right.1.2
          rw [uRem_leaf_of_bounded atLeft leftIn (Bound.ofNumber_le_ofNumber.mp atRight) (by omega)
            (by omega)] at result
          split at result
          · cases result
            exact inLeft
          · rw [Option.ite_none_right_eq_some] at result
            cases result.2
            rw [mem_range]
            omega

/-- A dividend that is its own remainder is missed in the one case only. -/
theorem mem_uRem_of_same (result : a.uRem b = some interval) (left : a.HasWord x)
    (right : b.HasWord y)
    (same : unsignedRemainder x y = x) (present : ¬ MissesDividend a b) : x ∈ interval := by
  have leftIn := not_isBottom_of_mem left.1
  have rightIn := not_isBottom_of_mem right.1
  rw [uRem] at result
  cases short : uRemOperator.shortcut a b with
  | some shorter =>
      rw [run_of_shortcut leftIn rightIn short, uRem_shortcut_eq_some short left right] at result
      cases result
      exact mem_ofNumber.mpr same.symm
  | none =>
      by_cases inDivisor : 0 ∈ b
      · rw [run_of_divisor leftIn rightIn short inDivisor] at result
        exact mem_rest result left.1
      · by_cases inDividend : 0 ∈ a
        · rw [run_of_dividend leftIn rightIn short inDivisor inDividend] at result
          exact mem_rest result left.1
        · rw [run_of_nonzero leftIn rightIn short inDivisor inDividend] at result
          have atLeft := one_le_lb
            ((Bound.ofNumber_le_ofNumber.mpr left.2.1).trans left.1.2) inDividend
          have atRight := one_le_lb
            ((Bound.ofNumber_le_ofNumber.mpr right.2.1).trans right.1.2) inDivisor
          have positive : 0 < y := Bound.ofNumber_le_ofNumber.mp (atRight.trans right.1.1)
          have smaller : x < y := by
            rw [unsignedRemainder, if_neg positive.ne'] at same
            rw [← same]
            exact Int.emod_lt_of_pos x positive
          exact mem_uRem_leaf result left.1 right atLeft atRight smaller present
            inDivisor inDividend

/-- In that case, the largest dividend is missed as a remainder of the largest
word. -/
theorem not_mem_uRem_of_misses (misses : MissesDividend a b) (isUnsigned : a.IsUnsigned)
    (left : a.HasWord x)
    (right : b.HasWord y) : exists largest interval, a.HasWord largest ∧
      b.HasWord IntType.uint64.max ∧ a.uRem b = some interval ∧
      unsignedRemainder largest IntType.uint64.max ∉ interval := by
  have leftIn := not_isBottom_of_mem left.1
  have atLeft := one_le_lb (isUnsigned.nonneg_ub leftIn) misses.dividend
  have largestWord : IntType.uint64.max = 2 ^ 64 - 1 := rfl
  have word : b.HasWord IntType.uint64.max := by
    rw [largestWord]
    refine ⟨⟨right.1.1.trans (Bound.ofNumber_le_ofNumber.mpr ?_), ?_⟩, by norm_num, by norm_num⟩
    · have small := right.2.2
      omega
    · rw [misses.unbounded]
      exact Bound.le_plusInfinity _
  have several : uRemOperator.shortcut a b = none := by
    have none : b.singleton = none := by
      cases single : b.singleton with
      | none => rfl
      | some n =>
          have unbounded := misses.unbounded
          rw [singleton_eq_some.mp single] at unbounded
          cases unbounded
    simp only [uRemOperator, none]
    cases a.singleton <;> rfl
  rcases uRem_leaf_of_unbounded atLeft leftIn (Or.inr (congrArg Bound.number misses.unbounded)) with
    ⟨interval, leaf, members⟩
  have result : a.uRem b = some interval := by
    rw [uRem, run_of_nonzero leftIn (not_isBottom_of_mem right.1) several misses.divisor
      misses.dividend, leaf]
  have upper := atLeft.trans (not_lt.mp leftIn)
  have small := misses.small
  rcases a with ⟨lb, ub⟩
  cases ub with
  | minusInfinity => exact absurd upper (Bound.not_le_minusInfinity 1)
  | plusInfinity => exact absurd small (not_lt.mpr (Bound.le_plusInfinity _))
  | ofNumber q =>
      have positive := Bound.ofNumber_le_ofNumber.mp upper
      have below := Bound.ofNumber_lt_ofNumber.mp small
      rw [largestWord] at below
      refine ⟨q, interval, ⟨⟨not_lt.mp leftIn, le_rfl⟩, by omega, by omega⟩, word, result, ?_⟩
      have same : unsignedRemainder q IntType.uint64.max = q := by
        rw [unsignedRemainder, largestWord, if_neg (by norm_num),
          Int.emod_eq_of_lt (by omega) below]
      rw [same, members q (by omega), Bound.ofNumber_le_ofNumber]
      omega

end Soundness

/-! ## Where there is a result -/

/-- The bounds that `URem` casts are words: with a bounded divisor and a dividend
above zero, the end of the dividend, and that of the divisor unless the
dividend is lower than the divisor. -/
def URemReadable (a b : Interval) : Prop :=
  b.ub ≠ .plusInfinity -> .ofNumber 1 ≤ b.ub -> .ofNumber 1 ≤ a.ub ->
    (a.ub = .plusInfinity ∨ a.ub < .ofNumber (2 ^ 64)) ∧
      (b.ub < .ofNumber (2 ^ 64) ∨ a.ub < Max.max (.ofNumber 1) b.lb)

section Results

variable {a b : Interval}

theorem isSome_uRem_shortcut {result : Option Interval}
    (short : uRemOperator.shortcut a b = some result) :
    exists m n, a = ofNumber m ∧ b = ofNumber n ∧ IntType.uint64.FitsCast m ∧
      IntType.uint64.FitsCast n ∧ result.isSome := by
  simp only [uRemOperator] at short
  split at short
  · rename_i m n leftSingle rightSingle
    split at short
    · rename_i fits
      refine ⟨m, n, singleton_eq_some.mp leftSingle, singleton_eq_some.mp rightSingle,
        fits.1, fits.2, ?_⟩
      split at short
      · cases short
        rfl
      · cases short
        rfl
    · cases short
  · cases short

theorem fitsCast_uint64 {n : Int} : IntType.uint64.FitsCast n ↔ -2 ^ 63 ≤ n ∧ n < 2 ^ 64 := by
  change (0 ≤ n ∧ n ≤ 2 ^ 64 - 1) ∨ (-2 ^ 63 ≤ n ∧ n ≤ 2 ^ 63 - 1) ↔ _
  omega

theorem isSome_uRem_of_shortcut (leftIn : ¬ a.IsBottom) (rightIn : ¬ b.IsBottom)
    {result : Option Interval}
    (short : uRemOperator.shortcut a b = some result) : (a.uRem b).isSome ↔ URemReadable a b := by
  rcases isSome_uRem_shortcut short with ⟨m, n, rfl, rfl, leftFits, rightFits, isSome⟩
  rw [uRem, run_of_shortcut leftIn rightIn short]
  refine iff_of_true isSome (fun _ _ _ => ⟨Or.inr ?_, Or.inl ?_⟩)
  · exact Bound.ofNumber_lt_ofNumber.mpr (fitsCast_uint64.mp leftFits).2
  · exact Bound.ofNumber_lt_ofNumber.mpr (fitsCast_uint64.mp rightFits).2

theorem isSome_uRem_of_positive (left : .ofNumber 1 ≤ a.lb) (right : .ofNumber 1 ≤ b.lb)
    (word : b.lb < .ofNumber (2 ^ 64)) (leftIn : ¬ a.IsBottom) (rightIn : ¬ b.IsBottom) :
    (a.uRem b).isSome ↔ URemReadable a b := by
  cases short : uRemOperator.shortcut a b with
  | some result => exact isSome_uRem_of_shortcut leftIn rightIn short
  | none =>
      have nonzeroLeft : 0 ∉ a := fun member => by
        have impossible := Bound.ofNumber_le_ofNumber.mp (left.trans member.1)
        omega
      have nonzeroRight : 0 ∉ b := fun member => by
        have impossible := Bound.ofNumber_le_ofNumber.mp (right.trans member.1)
        omega
      have aboveLeft : .ofNumber 1 ≤ a.ub := left.trans (not_lt.mp leftIn)
      rw [uRem, run_of_nonzero leftIn rightIn short nonzeroRight nonzeroLeft]
      have ordered := not_lt.mp rightIn
      rcases b with ⟨lb, ub⟩
      cases ub with
      | minusInfinity => exact absurd (right.trans ordered) (Bound.not_le_minusInfinity 1)
      | plusInfinity =>
          rcases @uRem_leaf_of_unbounded a ⟨lb, .plusInfinity⟩ left leftIn (Or.inr rfl) with
            ⟨interval, leaf, _⟩
          rw [leaf]
          exact iff_of_true rfl (fun impossible => absurd rfl impossible)
      | ofNumber u =>
          cases lb with
          | minusInfinity => exact absurd right (Bound.not_le_minusInfinity 1)
          | plusInfinity => exact absurd ordered (Bound.not_plusInfinity_le u)
          | ofNumber l =>
              have largest : max (Bound.ofNumber 1) (.ofNumber l) = .ofNumber l :=
                max_eq_right right
              rw [uRem_leaf_of_bounded left leftIn (Bound.ofNumber_le_ofNumber.mp right)
                (Bound.ofNumber_lt_ofNumber.mp word) (Bound.ofNumber_le_ofNumber.mp ordered)]
              rw [URemReadable]
              simp only [largest, Bound.ofNumber_lt_ofNumber]
              have divisor : Bound.ofNumber 1 ≤ .ofNumber u := right.trans ordered
              by_cases below : a.ub < .ofNumber l
              · rw [if_pos below]
                exact iff_of_true rfl (fun _ _ _ => ⟨Or.inr (below.trans word), Or.inr below⟩)
              · rw [if_neg below]
                simp only [below, or_false, Option.isSome_ite]
                exact ⟨fun words _ _ _ => words, fun readable =>
                  readable (by simp) divisor aboveLeft⟩

/-- The positive part of a dividend, and a divisor above zero. -/
theorem isSome_uRem_positivePart (right : .ofNumber 1 ≤ b.lb) (word : b.lb < .ofNumber (2 ^ 64))
    (rightIn : ¬ b.IsBottom) : (a.positivePart.uRem b).isSome ↔ URemReadable a b := by
  by_cases empty : a.ub < .ofNumber 1
  · refine iff_of_true (isSome_run_of_isBottom (Or.inl (isBottom_mk'.mpr empty))) ?_
    exact fun _ _ above => absurd empty (not_lt.mpr above)
  · rw [positivePart_eq empty]
    exact isSome_uRem_of_positive le_rfl right word empty rightIn

/-- An unknown negative dividend and a divisor above zero. -/
theorem isSome_uRem_of_negative (right : .ofNumber 1 ≤ b.lb) (word : b.lb < .ofNumber (2 ^ 64))
    (rightIn : ¬ b.IsBottom) : (uRem ⟨.minusInfinity, .ofNumber (-1)⟩ b).isSome ↔
      (b.ub ≠ .plusInfinity -> b.ub < .ofNumber (2 ^ 64)) := by
  have nonzeroRight : 0 ∉ b := fun member => by
    have impossible := Bound.ofNumber_le_ofNumber.mp (right.trans member.1)
    omega
  have several : (⟨.minusInfinity, .ofNumber (-1)⟩ : Interval).singleton = none := by decide
  have long : uRemOperator.shortcut ⟨.minusInfinity, .ofNumber (-1)⟩ b = none := by
    simp only [uRemOperator, several]
  rw [uRem, run_of_nonzero (by decide) rightIn long nonzeroRight (by decide)]
  have ordered := not_lt.mp rightIn
  rcases b with ⟨lb, ub⟩
  cases ub with
  | minusInfinity => exact absurd (right.trans ordered) (Bound.not_le_minusInfinity 1)
  | plusInfinity =>
      refine iff_of_true ?_ (fun impossible => absurd rfl impossible)
      cases lb <;> rfl
  | ofNumber u =>
      cases lb with
      | minusInfinity => exact absurd right (Bound.not_le_minusInfinity 1)
      | plusInfinity => exact absurd ordered (Bound.not_plusInfinity_le u)
      | ofNumber l =>
          have positive := Bound.ofNumber_le_ofNumber.mp right
          have inWord := Bound.ofNumber_lt_ofNumber.mp word
          have above := Bound.ofNumber_le_ofNumber.mp ordered
          have castDividend : IntType.uint64.cast (-1) = some (2 ^ 64 - 1) := by decide
          have castLower : IntType.uint64.cast l = some l := by
            rw [cast_word (by omega), if_pos inWord]
          have castUpper : IntType.uint64.cast u = if u < 2 ^ 64 then some u
              else none := cast_word (by omega)
          have reaches : ¬ (2 ^ 64 - 1 : Int) < l := by omega
          simp only [uRemOperator, Bound.number_ofNumber, isLowerThan, castDividend,
            castLower, castUpper, Option.bind_eq_bind, Option.bind_some, reaches,
            Bound.ofNumber_lt_ofNumber]
          by_cases small : u < 2 ^ 64
          · rw [if_pos small]
            exact iff_of_true rfl (fun _ => small)
          · rw [if_neg small]
            exact iff_of_false (by simp) (fun readable => small (readable (by simp)))

theorem isSome_uRem_of_negative_divisor (isUnsigned : a.IsUnsigned) (leftIn : ¬ a.IsBottom) :
    (a.uRem ⟨.minusInfinity, .ofNumber (-1)⟩).isSome := by
  have several : (⟨.minusInfinity, .ofNumber (-1)⟩ : Interval).singleton = none := by decide
  have long : forall c : Interval,
      uRemOperator.shortcut c ⟨.minusInfinity, .ofNumber (-1)⟩ = none := by
    intro c
    simp only [uRemOperator, several]
    cases c.singleton <;> rfl
  have onPositive : forall c : Interval, .ofNumber 1 ≤ c.lb -> ¬ c.IsBottom ->
      (c.uRem ⟨.minusInfinity, .ofNumber (-1)⟩).isSome := by
    intro c left inhabited
    have nonzero : 0 ∉ c := fun member => by
      have impossible := Bound.ofNumber_le_ofNumber.mp (left.trans member.1)
      omega
    rw [uRem, run_of_nonzero inhabited (by decide) (long c) (by decide) nonzero]
    rcases @uRem_leaf_of_unbounded c ⟨.minusInfinity, .ofNumber (-1)⟩ left inhabited
      (Or.inl rfl) with
      ⟨interval, leaf, _⟩
    rw [leaf]
    rfl
  by_cases inDividend : 0 ∈ a
  · rw [uRem, isSome_run_of_dividend leftIn (by decide) (long a) (by decide) inDividend]
    constructor
    · rcases negativePart_cases isUnsigned with ⟨_, negative⟩ | ⟨_, empty⟩
      · rw [negative]
        decide
      · exact isSome_run_of_isBottom (Or.inl empty)
    · by_cases empty : a.ub < .ofNumber 1
      · exact isSome_run_of_isBottom (Or.inl (isBottom_mk'.mpr empty))
      · rw [positivePart_eq empty]
        exact onPositive _ le_rfl empty
  · exact onPositive a (one_le_lb (isUnsigned.nonneg_ub leftIn) inDividend) leftIn

theorem isSome_uRem_of_positive_divisor (isUnsigned : a.IsUnsigned) (leftIn : ¬ a.IsBottom)
    (right : .ofNumber 1 ≤ b.lb) (word : b.lb < .ofNumber (2 ^ 64)) (rightIn : ¬ b.IsBottom) :
    (a.uRem b).isSome ↔ URemReadable a b := by
  by_cases inDividend : 0 ∈ a
  · cases short : uRemOperator.shortcut a b with
    | some result => exact isSome_uRem_of_shortcut leftIn rightIn short
    | none =>
        have nonzeroRight : 0 ∉ b := fun member => by
          have impossible := Bound.ofNumber_le_ofNumber.mp (right.trans member.1)
          omega
        have positive := @isSome_uRem_positivePart a b right word rightIn
        rw [uRem] at positive
        rw [uRem, isSome_run_of_dividend leftIn rightIn short nonzeroRight inDividend, positive]
        rcases negativePart_cases isUnsigned with ⟨rfl, negative⟩ | ⟨_, empty⟩
        · have below := isSome_uRem_of_negative right word rightIn
          rw [uRem] at below
          rw [negative, below, and_iff_right_iff_imp]
          intro readable bounded
          have above : .ofNumber 1 ≤ b.ub := right.trans (not_lt.mp rightIn)
          rcases (readable bounded above (by decide)).2 with small | impossible
          · exact small
          · exact absurd impossible (not_lt.mpr (Bound.le_plusInfinity _))
        · exact and_iff_right (isSome_run_of_isBottom (Or.inl empty))
  · exact isSome_uRem_of_positive (one_le_lb (isUnsigned.nonneg_ub leftIn) inDividend) right word
      leftIn rightIn

/-- Where `URem` has a result, for a divisor that contains a word. -/
theorem isSome_uRem_iff (leftUnsigned : a.IsUnsigned) (rightUnsigned : b.IsUnsigned)
    (leftIn : ¬ a.IsBottom) {y : Int}
    (inRight : b.HasWord y) : (a.uRem b).isSome ↔ URemReadable a b := by
  have rightIn := not_isBottom_of_mem inRight.1
  by_cases inDivisor : 0 ∈ b
  · cases short : uRemOperator.shortcut a b with
    | some result => exact isSome_uRem_of_shortcut leftIn rightIn short
    | none =>
        rw [uRem, isSome_run_of_divisor leftIn rightIn short inDivisor]
        have negative : (uRemOperator.run a b.negativePart).isSome := by
          rcases negativePart_cases rightUnsigned with ⟨_, negative⟩ | ⟨_, empty⟩
          · rw [negative]
            exact isSome_uRem_of_negative_divisor leftUnsigned leftIn
          · exact isSome_run_of_isBottom (Or.inr empty)
        rw [and_iff_right negative]
        by_cases empty : b.ub < .ofNumber 1
        · refine iff_of_true (isSome_run_of_isBottom (Or.inr (isBottom_mk'.mpr empty))) ?_
          exact fun _ above => absurd empty (not_lt.mpr above)
        · have inWord : Bound.ofNumber 1 < .ofNumber (2 ^ 64) := by decide
          have positive := @isSome_uRem_of_positive_divisor a ⟨.ofNumber 1, b.ub⟩ leftUnsigned
            leftIn le_rfl inWord empty
          rw [uRem] at positive
          have start : b.lb ≤ .ofNumber 1 := inDivisor.1.trans (by decide)
          rw [positivePart_eq empty, positive, URemReadable, URemReadable, max_self,
            max_eq_left start]
  · have right := one_le_lb (rightUnsigned.nonneg_ub rightIn) inDivisor
    have word : b.lb < .ofNumber (2 ^ 64) :=
      inRight.1.1.trans_lt (Bound.ofNumber_lt_ofNumber.mpr inRight.2.2)
    exact isSome_uRem_of_positive_divisor leftUnsigned leftIn right word rightIn

/-- The result of `URem` contains the remainders of the words of the operands. -/
def URemSound (a b : Interval) : Prop := forall x y, a.HasWord x -> b.HasWord y ->
  ∃ interval ∈ a.uRem b, unsignedRemainder x y ∈ interval

/-- If both operands contain a word, the casts succeed and no dividend is missed. -/
def URemHolds (a b : Interval) : Prop := (exists x, a.HasWord x) -> (exists y, b.HasWord y) ->
  URemReadable a b ∧ ¬ MissesDividend a b

/-- Where `URem` is sound. -/
theorem uRem_sound_iff {a b : Interval} (leftUnsigned : a.IsUnsigned)
    (rightUnsigned : b.IsUnsigned) :
    URemSound a b ↔ URemHolds a b := by
  constructor
  · intro sound inLeft inRight
    rcases inLeft with ⟨x, left⟩
    rcases inRight with ⟨y, right⟩
    constructor
    · apply (isSome_uRem_iff leftUnsigned rightUnsigned (not_isBottom_of_mem left.1) right).mp
      rcases sound x y left right with ⟨interval, result, _⟩
      exact Option.isSome_of_mem result
    · intro misses
      rcases not_mem_uRem_of_misses misses leftUnsigned left right with
        ⟨largest, interval, hasLargest, word, result, missed⟩
      rcases sound largest _ hasLargest word with ⟨found, isFound, member⟩
      rw [result] at isFound
      cases isFound
      exact missed member
  · intro holds x y left right
    rcases holds ⟨x, left⟩ ⟨y, right⟩ with ⟨readable, present⟩
    have isSome := (isSome_uRem_iff leftUnsigned rightUnsigned (not_isBottom_of_mem left.1)
      right).mpr readable
    rcases Option.isSome_iff_exists.mp isSome with ⟨interval, result⟩
    refine ⟨interval, result, ?_⟩
    by_cases same : unsignedRemainder x y = x
    · rw [same]
      exact mem_uRem_of_same result left right same present
    · exact covers_run uRem_soundParts trivial interval result x left.1 y right.1
        ⟨⟨left.2, right.2⟩, same⟩

theorem uRem_sound_iff_seven :
    URemSound (ofNumber 7) (range 2 5) ↔ URemHolds (ofNumber 7) (range 2 5) :=
  uRem_sound_iff (by decide) (by decide)

/-- Five modulo seven: the result for `{5}` and all numbers from one on ends at
four. -/
theorem not_uRemSound_five : ¬ forall a b : Interval, a.IsUnsigned -> b.IsUnsigned ->
    ¬ a.IsBottom -> ¬ b.IsBottom -> URemSound a b := by
  intro all
  have unbounded : (⟨.ofNumber 1, .plusInfinity⟩ : Interval).IsUnsigned := by decide
  rcases all (ofNumber 5) ⟨.ofNumber 1, .plusInfinity⟩ (by decide) unbounded (by decide)
    (by decide) 5 7
    ⟨by decide, by decide, by decide⟩ ⟨by decide, by decide, by decide⟩ with
    ⟨interval, result, member⟩
  have value : (ofNumber 5).uRem ⟨.ofNumber 1, .plusInfinity⟩ = some (range 0 4) := by decide
  rw [value] at result
  cases result
  revert member
  decide

end Results

end Interval
end Crab
end Prevail
