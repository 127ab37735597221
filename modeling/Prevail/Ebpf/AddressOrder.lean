import Mathlib
import Prevail.Asm.Execution

namespace Prevail
namespace Ebpf

/-!
# The order of addresses and the order of offsets

Two addresses in one region differ as their offsets do, wherever the region
lies.  Unsigned comparisons of the whole addresses therefore agree with those of
the offsets.  A region that crosses the middle of the address space misleads a
signed comparison, and one that crosses a multiple of `2^32`, or of half of it,
misleads a comparison of the low halves.
-/

/-- What a comparison asks of the offsets that stand for the addresses. -/
def OffsetsCompare (op : ConditionOp) (left right : Int) : Prop :=
  match op with
  | .eq => left = right
  | .ne => left ≠ right
  | .lt | .slt => left < right
  | .le | .sle => left ≤ right
  | .gt | .sgt => right < left
  | .ge | .sge => right ≤ left
  | .set | .nset => True

/-- The comparison of whole words, or of their low halves. -/
def WordsCompare (op : ConditionOp) (is64 : Bool) (left right : BitVec 64) : Prop :=
  if is64 then op.Compares left right else op.Compares (left.setWidth 32) (right.setWidth 32)

/-- Some words with this difference are in order, although the difference is
positive. -/
def MisleadsLess (signed strict is64 : Bool) (difference : Int) : Prop :=
  match signed, is64 with
  | false, true => False
  | true, true => 0 < difference ∧ difference < 2 ^ 64
  | false, false =>
      0 < difference ∧ difference ≤ 2 ^ 64 - 2 ^ 32 ∧ (strict = true -> difference % 2 ^ 32 ≠ 0)
  | true, false => 0 < difference ∧ difference < 2 ^ 64 ∧ (strict = true -> difference % 2 ^ 32 ≠ 0)

/-- Some words with this difference compare as the operator says, although the
offsets do not. -/
def Misleads (op : ConditionOp) (is64 : Bool) (difference : Int) : Prop :=
  match op with
  | .eq =>
      is64 = false ∧ difference ≠ 0 ∧ difference % 2 ^ 32 = 0 ∧ -2 ^ 64 < difference ∧
        difference < 2 ^ 64
  | .lt => MisleadsLess false true is64 difference
  | .le => MisleadsLess false false is64 difference
  | .slt => MisleadsLess true true is64 difference
  | .sle => MisleadsLess true false is64 difference
  | .gt => MisleadsLess false true is64 (-difference)
  | .ge => MisleadsLess false false is64 (-difference)
  | .sgt => MisleadsLess true true is64 (-difference)
  | .sge => MisleadsLess true false is64 (-difference)
  | .ne | .set | .nset => False

/-- The number that a comparison reads. -/
def reading (signed is64 : Bool) (word : BitVec 64) : Int :=
  match signed, is64 with
  | false, true => word.toNat
  | true, true => word.toInt
  | false, false => (word.setWidth 32).toNat
  | true, false => (word.setWidth 32).toInt

/-- The order of readings. -/
def ReadingsLess (signed strict is64 : Bool) (left right : BitVec 64) : Prop :=
  if strict then reading signed is64 left < reading signed is64 right
  else reading signed is64 left ≤ reading signed is64 right

section Readings

variable {signed strict is64 : Bool} {left right : BitVec 64} {difference : Int}

theorem reading_eq (word : BitVec 64) : reading signed is64 word =
    match signed, is64 with
    | false, true => (word.toNat : Int)
    | true, true => if word.toNat < 2 ^ 63 then (word.toNat : Int) else word.toNat - 2 ^ 64
    | false, false => (word.toNat : Int) % 2 ^ 32
    | true, false =>
        if (word.toNat : Int) % 2 ^ 32 < 2 ^ 31 then (word.toNat : Int) % 2 ^ 32
        else (word.toNat : Int) % 2 ^ 32 - 2 ^ 32 := by
  cases signed <;> cases is64
  · simp [reading, BitVec.toNat_setWidth]
  · rfl
  · simp only [reading, BitVec.toInt_eq_toNat_cond, BitVec.toNat_setWidth]
    split <;> split <;> omega
  · simp only [reading, BitVec.toInt_eq_toNat_cond]
    split <;> split <;> omega

theorem misleadsLess_of_readings (isDifference : (left.toNat : Int) - right.toNat = difference)
    (less : ReadingsLess signed strict is64 left right)
    (notLess : if strict then 0 ≤ difference else 0 < difference) :
    MisleadsLess signed strict is64 difference := by
  have leftSmall := left.isLt
  have rightSmall := right.isLt
  rw [ReadingsLess, reading_eq, reading_eq] at less
  cases signed <;> cases strict <;> cases is64 <;> simp [MisleadsLess] at less notLess ⊢ <;> omega

theorem exists_word {n : Int} (nonneg : 0 ≤ n) (small : n < 2 ^ 64) :
    exists word : BitVec 64, (word.toNat : Int) = n := by
  rcases Int.eq_ofNat_of_zero_le nonneg with ⟨k, rfl⟩
  refine ⟨BitVec.ofNat 64 k, ?_⟩
  rw [BitVec.toNat_ofNat, Nat.mod_eq_of_lt (by omega)]

/-- A right address that misleads: the left one is just behind the place where
the order of readings breaks. -/
def misleadingRight (signed is64 : Bool) (difference : Int) : Int :=
  match signed, is64 with
  | false, true => 0
  | true, true => max 0 (2 ^ 63 - difference)
  | false, false => if difference % 2 ^ 32 = 0 then 0 else 2 ^ 32 - difference % 2 ^ 32
  | true, false =>
      if difference % 2 ^ 32 = 0 ∨ 2 ^ 31 ≤ difference % 2 ^ 32 then 0
        else 2 ^ 31 - difference % 2 ^ 32

theorem misleadingRight_bounds (misleads : MisleadsLess signed strict is64 difference) :
    0 ≤ misleadingRight signed is64 difference ∧ misleadingRight signed is64 difference < 2 ^ 64 ∧
      0 ≤ misleadingRight signed is64 difference + difference ∧
      misleadingRight signed is64 difference + difference < 2 ^ 64 := by
  cases signed <;> cases is64 <;> simp only [MisleadsLess, misleadingRight] at misleads ⊢
  · split <;> omega
  · split <;> omega
  · omega

theorem exists_readings (misleads : MisleadsLess signed strict is64 difference) :
    exists left right : BitVec 64, (left.toNat : Int) - right.toNat = difference ∧
      ReadingsLess signed strict is64 left right := by
  rcases misleadingRight_bounds misleads with ⟨rightNonneg, rightSmall, leftNonneg, leftSmall⟩
  rcases exists_word rightNonneg rightSmall with ⟨right, isRight⟩
  rcases exists_word leftNonneg leftSmall with ⟨left, isLeft⟩
  refine ⟨left, right, by omega, ?_⟩
  rw [ReadingsLess, reading_eq, reading_eq, isLeft, isRight]
  have leftNat : left.toNat < 2 ^ 63 ↔
      misleadingRight signed is64 difference + difference < 2 ^ 63 := by omega
  have rightNat : right.toNat < 2 ^ 63 ↔ misleadingRight signed is64 difference < 2 ^ 63 := by omega
  simp only [leftNat, rightNat]
  clear leftNat rightNat isLeft isRight rightNonneg rightSmall leftNonneg leftSmall
  cases signed <;> cases is64 <;> cases strict <;>
    simp [MisleadsLess, misleadingRight] at misleads ⊢ <;> omega

theorem wordsCompare_iff (op : ConditionOp) : WordsCompare op is64 left right ↔
    match op with
    | .lt => ReadingsLess false true is64 left right
    | .le => ReadingsLess false false is64 left right
    | .slt => ReadingsLess true true is64 left right
    | .sle => ReadingsLess true false is64 left right
    | .gt => ReadingsLess false true is64 right left
    | .ge => ReadingsLess false false is64 right left
    | .sgt => ReadingsLess true true is64 right left
    | .sge => ReadingsLess true false is64 right left
    | other => WordsCompare other is64 left right := by
  cases op <;> cases is64 <;>
    simp only [WordsCompare, ConditionOp.Compares, ReadingsLess, reading, Nat.cast_lt,
      Nat.cast_le, if_true, Bool.false_eq_true, if_false]

theorem toNat_emod_eq (same : left.setWidth 32 = right.setWidth 32) :
    (left.toNat : Int) % 2 ^ 32 = (right.toNat : Int) % 2 ^ 32 := by
  have halves := congrArg BitVec.toNat same
  rw [BitVec.toNat_setWidth, BitVec.toNat_setWidth] at halves
  omega

end Readings

section Offsets

variable {op : ConditionOp} {is64 : Bool} {left right : BitVec 64} {a b : Int}

/-- Addresses that compare as the operator says have offsets that do, unless the
difference misleads. -/
theorem offsetsCompare_of_words (isDifference : (left.toNat : Int) - right.toNat = a - b)
    (compare : WordsCompare op is64 left right) (faithful : ¬ Misleads op is64 (a - b)) :
    OffsetsCompare op a b := by
  have reversed : (right.toNat : Int) - left.toNat = -(a - b) := by omega
  have leftSmall := left.isLt
  have rightSmall := right.isLt
  rw [wordsCompare_iff] at compare
  by_contra notCompare
  apply faithful
  cases op with
  | eq =>
      have same : (left.toNat : Int) % 2 ^ 32 = (right.toNat : Int) % 2 ^ 32 := by
        cases is64 with
        | false => exact toNat_emod_eq compare
        | true =>
            have equal : left = right := compare
            rw [equal]
      have half : is64 = false := by
        cases is64 with
        | false => rfl
        | true =>
            have equal : left = right := compare
            rw [equal] at isDifference
            exact absurd (show a = b by omega) notCompare
      have different : a ≠ b := notCompare
      exact ⟨half, by omega, by omega, by omega, by omega⟩
  | ne =>
      have equal : a = b := not_not.mp notCompare
      have same : left = right := BitVec.eq_of_toNat_eq (by omega)
      rw [same] at compare
      cases is64 <;> exact absurd rfl compare
  | set => exact absurd trivial notCompare
  | nset => exact absurd trivial notCompare
  | lt => exact misleadsLess_of_readings isDifference compare (by
    have := not_lt.mp notCompare; simp; omega)
  | le => exact misleadsLess_of_readings isDifference compare (by
    have := not_le.mp notCompare; simp; omega)
  | slt => exact misleadsLess_of_readings isDifference compare (by
    have := not_lt.mp notCompare; simp; omega)
  | sle => exact misleadsLess_of_readings isDifference compare (by
    have := not_le.mp notCompare; simp; omega)
  | gt => exact misleadsLess_of_readings reversed compare (by
    have := not_lt.mp notCompare; simp; omega)
  | ge => exact misleadsLess_of_readings reversed compare (by
    have := not_le.mp notCompare; simp; omega)
  | sgt => exact misleadsLess_of_readings reversed compare (by
    have := not_lt.mp notCompare; simp; omega)
  | sge => exact misleadsLess_of_readings reversed compare (by
    have := not_le.mp notCompare; simp; omega)

/-- A difference that misleads is that of addresses that compare as the operator
says, although the offsets do not. -/
theorem exists_misleading (misleads : Misleads op is64 (a - b)) :
    exists left right : BitVec 64, (left.toNat : Int) - right.toNat = a - b ∧
      WordsCompare op is64 left right ∧ ¬ OffsetsCompare op a b := by
  have positive : forall {signed strict difference}, MisleadsLess signed strict is64 difference ->
      0 < difference := by
    intro signed strict difference misleads
    cases signed <;> cases is64 <;> simp only [MisleadsLess] at misleads
    · exact misleads.1
    · exact misleads.1
    · exact misleads.1
  have forward : forall {signed strict}, MisleadsLess signed strict is64 (a - b) ->
      exists left right : BitVec 64, (left.toNat : Int) - right.toNat = a - b ∧
        ReadingsLess signed strict is64 left right ∧ b < a := by
    intro signed strict less
    rcases exists_readings less with ⟨left, right, isDifference, readings⟩
    exact ⟨left, right, isDifference, readings, by have := positive less; omega⟩
  have backward : forall {signed strict}, MisleadsLess signed strict is64 (-(a - b)) ->
      exists left right : BitVec 64, (left.toNat : Int) - right.toNat = a - b ∧
        ReadingsLess signed strict is64 right left ∧ a < b := by
    intro signed strict less
    rcases exists_readings less with ⟨right, left, isDifference, readings⟩
    exact ⟨left, right, by omega, readings, by have := positive less; omega⟩
  cases op with
  | eq =>
      rcases misleads with ⟨half, different, divides, above, below⟩
      have words : exists left right : BitVec 64, (left.toNat : Int) = max 0 (a - b) ∧
          (right.toNat : Int) = max 0 (b - a) := by
        rcases @exists_word (max 0 (a - b)) (by omega) (by omega) with ⟨left, isLeft⟩
        rcases @exists_word (max 0 (b - a)) (by omega) (by omega) with ⟨right, isRight⟩
        exact ⟨left, right, isLeft, isRight⟩
      rcases words with ⟨left, right, isLeft, isRight⟩
      refine ⟨left, right, by omega, ?_, fun same => different (sub_eq_zero.mpr same)⟩
      rw [half]
      apply BitVec.eq_of_toNat_eq
      rw [BitVec.toNat_setWidth, BitVec.toNat_setWidth]
      omega
  | ne => exact absurd misleads id
  | set => exact absurd misleads id
  | nset => exact absurd misleads id
  | lt =>
      rcases forward misleads with ⟨left, right, isDifference, readings, above⟩
      exact ⟨left, right, isDifference, (wordsCompare_iff .lt).mpr readings, not_lt_of_gt above⟩
  | le =>
      rcases forward misleads with ⟨left, right, isDifference, readings, above⟩
      exact ⟨left, right, isDifference, (wordsCompare_iff .le).mpr readings, not_le_of_gt above⟩
  | slt =>
      rcases forward misleads with ⟨left, right, isDifference, readings, above⟩
      exact ⟨left, right, isDifference, (wordsCompare_iff .slt).mpr readings, not_lt_of_gt above⟩
  | sle =>
      rcases forward misleads with ⟨left, right, isDifference, readings, above⟩
      exact ⟨left, right, isDifference, (wordsCompare_iff .sle).mpr readings, not_le_of_gt above⟩
  | gt =>
      rcases backward misleads with ⟨left, right, isDifference, readings, below⟩
      exact ⟨left, right, isDifference, (wordsCompare_iff .gt).mpr readings, not_lt_of_gt below⟩
  | ge =>
      rcases backward misleads with ⟨left, right, isDifference, readings, below⟩
      exact ⟨left, right, isDifference, (wordsCompare_iff .ge).mpr readings, not_le_of_gt below⟩
  | sgt =>
      rcases backward misleads with ⟨left, right, isDifference, readings, below⟩
      exact ⟨left, right, isDifference, (wordsCompare_iff .sgt).mpr readings, not_lt_of_gt below⟩
  | sge =>
      rcases backward misleads with ⟨left, right, isDifference, readings, below⟩
      exact ⟨left, right, isDifference, (wordsCompare_iff .sge).mpr readings, not_le_of_gt below⟩

theorem exists_different_words (possible : op = .eq -> is64 = false) :
    exists left right : BitVec 64, left ≠ right ∧ WordsCompare op is64 left right := by
  cases op with
  | eq =>
      have same : (0 : BitVec 64).setWidth 32 = (4294967296 : BitVec 64).setWidth 32 := by decide
      rw [possible rfl]
      exact ⟨0, 4294967296, by decide, same⟩
  | ne => exact ⟨0, 1, by decide, by cases is64 <;> simp [WordsCompare, ConditionOp.Compares]⟩
  | set => exact ⟨1, 3, by decide, by cases is64 <;> simp [WordsCompare, ConditionOp.Compares]⟩
  | nset => exact ⟨0, 1, by decide, by cases is64 <;> rfl⟩
  | lt => exact ⟨0, 1, by decide, by cases is64 <;> simp [WordsCompare, ConditionOp.Compares]⟩
  | le => exact ⟨0, 1, by decide, by cases is64 <;> simp [WordsCompare, ConditionOp.Compares]⟩
  | slt => exact ⟨0, 1, by decide, by cases is64 <;> simp [WordsCompare, ConditionOp.Compares]⟩
  | sle => exact ⟨0, 1, by decide, by cases is64 <;> simp [WordsCompare, ConditionOp.Compares]⟩
  | gt => exact ⟨1, 0, by decide, by cases is64 <;> simp [WordsCompare, ConditionOp.Compares]⟩
  | ge => exact ⟨1, 0, by decide, by cases is64 <;> simp [WordsCompare, ConditionOp.Compares]⟩
  | sgt => exact ⟨1, 0, by decide, by cases is64 <;> simp [WordsCompare, ConditionOp.Compares]⟩
  | sge => exact ⟨1, 0, by decide, by cases is64 <;> simp [WordsCompare, ConditionOp.Compares]⟩

/-- Some words compare as the operator says. -/
theorem exists_words (op : ConditionOp) (is64 : Bool) :
    exists left right : BitVec 64, WordsCompare op is64 left right := by
  by_cases wholeEquality : op = .eq ∧ is64 = true
  · rcases wholeEquality with ⟨rfl, rfl⟩
    exact ⟨0, 0, rfl⟩
  · have possible : op = .eq -> is64 = false := by
      intro isEq
      cases is64 with
      | false => rfl
      | true => exact absurd ⟨isEq, rfl⟩ wholeEquality
    rcases exists_different_words possible with ⟨left, right, _, compare⟩
    exact ⟨left, right, compare⟩

/-- A word compares with itself only as a number does. -/
theorem offsetsCompare_self (word : BitVec 64)
    (compare : WordsCompare op is64 word word) (a : Int) :
    OffsetsCompare op a a := by
  cases op <;> cases is64 <;> simp_all [WordsCompare, ConditionOp.Compares, OffsetsCompare]

end Offsets

/-- Two different maps may lie at any two different addresses. -/
theorem exists_injective_map {a b left right : Int} (different : a ≠ b) (apart : left ≠ right) :
    exists map : Int -> Int, Function.Injective map ∧ map a = left ∧ map b = right := by
  let first := Equiv.swap a left
  have other : first b ≠ left := by
    intro same
    exact different (first.injective ((Equiv.swap_apply_left a left).trans same.symm))
  refine ⟨fun n => Equiv.swap (first b) right (first n),
    (Equiv.injective _).comp first.injective, ?_, ?_⟩
  · dsimp only
    rw [Equiv.swap_apply_left, Equiv.swap_apply_of_ne_of_ne other.symm apart]
  · exact Equiv.swap_apply_left ..

end Ebpf
end Prevail
