import Mathlib

namespace Prevail

universe u

/-!
# The order of a binary heap

A binary heap keeps its elements in positions from zero on, and no element
ranks below the one in the position of its parent.  Sifting repairs the order
around one position: the element there is swapped with its parent, or with its
lower child, as long as the two are out of order.  What holds in between is
the order of all pairs but those on one side of the position, and the order
of the pairs that are left when the position is taken out.
-/

namespace HeapOrder

/-- The position of the parent. -/
def parent (i : Nat) : Nat := (i - 1) / 2

theorem parent_lt {i : Nat} (positive : 0 < i) : parent i < i := by
  unfold parent
  omega

variable {K : Type u} [LinearOrder K]

/-- No position ranks below its parent. -/
def Ordered (size : Nat) (rank : Nat -> K) : Prop :=
  forall i, 0 < i -> i < size -> rank (parent i) ≤ rank i

/-- Every position below another one, but for the hole, is in order; and so are
the children of the hole and its parent. -/
structure OrderedAbove (size : Nat) (rank : Nat -> K) (hole : Nat) : Prop where
  except : forall i, 0 < i -> i < size -> i ≠ hole -> rank (parent i) ≤ rank i
  across : 0 < hole -> forall i, 0 < i -> i < size -> parent i = hole -> rank (parent hole) ≤ rank i

/-- Every position but the children of the hole is in order; and so are the
children of the hole and its parent. -/
structure OrderedBelow (size : Nat) (rank : Nat -> K) (hole : Nat) : Prop where
  except : forall i, 0 < i -> i < size -> parent i ≠ hole -> rank (parent i) ≤ rank i
  across : 0 < hole -> forall i, 0 < i -> i < size -> parent i = hole -> rank (parent hole) ≤ rank i

variable {size hole child : Nat} {rank lowered : Nat -> K}

/-- The first position has the least rank. -/
theorem Ordered.least (ordered : Ordered size rank) (i : Nat) (inside : i < size) :
    rank 0 ≤ rank i := by
  induction i using Nat.strongRecOn with
  | ind i inductionHypothesis =>
      rcases Nat.eq_zero_or_pos i with rfl | positive
      · exact le_refl _
      · have above := parent_lt positive
        exact (inductionHypothesis _ above (above.trans inside)).trans (ordered i positive inside)

theorem Ordered.lower (ordered : Ordered size rank) (inside : hole < size)
    (lower : lowered hole ≤ rank hole)
    (others : ∀ i < size, i ≠ hole -> lowered i = rank i) : OrderedAbove size lowered hole := by
  constructor
  · intro i positive below different
    have above := (parent_lt positive).trans below
    rw [others i below different]
    by_cases child : parent i = hole
    · rw [child]
      exact lower.trans (child ▸ ordered i positive below)
    · rw [others _ above child]
      exact ordered i positive below
  · intro holePositive i positive below child
    have higher := parent_lt holePositive
    have deeper := parent_lt positive
    rw [others _ (higher.trans inside) higher.ne, others _ below (by omega)]
    exact (ordered hole holePositive inside).trans (child ▸ ordered i positive below)

/-- The order after the rank of the first position was changed. -/
theorem Ordered.replace (ordered : Ordered size rank)
    (others : ∀ i < size, i ≠ 0 -> lowered i = rank i) :
    OrderedBelow size lowered 0 := by
  constructor
  · intro i positive below notFirst
    rw [others _ ((parent_lt positive).trans below) notFirst, others i below positive.ne']
    exact ordered i positive below
  · intro impossible
    exact absurd impossible (lt_irrefl 0)

theorem Ordered.shrink {smaller : Nat} (ordered : Ordered size rank) (fewer : smaller ≤ size) :
    Ordered smaller rank :=
  fun i positive below => ordered i positive (below.trans_le fewer)

theorem Ordered.congr (ordered : Ordered size rank) (same : ∀ i < size, lowered i = rank i) :
    Ordered size lowered := by
  intro i positive below
  rw [same i below, same _ ((parent_lt positive).trans below)]
  exact ordered i positive below

/-! ## One step up -/

theorem OrderedAbove.swap (ordered : OrderedAbove size rank hole) (positive : 0 < hole)
    (inside : hole < size) (outOfOrder : rank hole < rank (parent hole)) :
    OrderedAbove size (fun i => rank (Equiv.swap hole (parent hole) i)) (parent hole) := by
  have higher := parent_lt positive
  constructor
  · intro i iPositive below different
    have deeper := parent_lt iPositive
    by_cases same : i = hole
    · rw [same, Equiv.swap_apply_right, Equiv.swap_apply_left]
      exact outOfOrder.le
    · rw [Equiv.swap_apply_of_ne_of_ne same different]
      by_cases child : parent i = hole
      · rw [child, Equiv.swap_apply_left]
        exact ordered.across positive i iPositive below child
      · by_cases sibling : parent i = parent hole
        · rw [sibling, Equiv.swap_apply_right]
          exact outOfOrder.le.trans (sibling ▸ ordered.except i iPositive below same)
        · rw [Equiv.swap_apply_of_ne_of_ne child sibling]
          exact ordered.except i iPositive below same
  · intro parentPositive i iPositive below child
    have highest := parent_lt parentPositive
    have grand := ordered.except (parent hole) parentPositive (higher.trans inside) higher.ne
    rw [Equiv.swap_apply_of_ne_of_ne (by omega) highest.ne]
    by_cases same : i = hole
    · rw [same, Equiv.swap_apply_left]
      exact grand
    · have deeper := parent_lt iPositive
      rw [Equiv.swap_apply_of_ne_of_ne same (by omega)]
      exact grand.trans (child ▸ ordered.except i iPositive below same)

theorem OrderedAbove.ordered (ordered : OrderedAbove size rank hole)
    (inOrder : 0 < hole -> rank (parent hole) ≤ rank hole) : Ordered size rank := by
  intro i positive below
  by_cases same : i = hole
  · rw [same] at positive ⊢
    exact inOrder positive
  · exact ordered.except i positive below same

/-! ## One step down -/

/-- The hole and its lower child are swapped. -/
theorem OrderedBelow.swap (ordered : OrderedBelow size rank hole) (positive : 0 < child)
    (inside : child < size) (isChild : parent child = hole)
    (lowest : forall i, 0 < i -> i < size -> parent i = hole -> rank child ≤ rank i)
    (outOfOrder : rank child < rank hole) :
    OrderedBelow size (fun i => rank (Equiv.swap hole child i)) child := by
  have deeper : hole < child := isChild ▸ parent_lt positive
  constructor
  · intro i iPositive below notChild
    have higher := parent_lt iPositive
    by_cases here : parent i = hole
    · rw [here, Equiv.swap_apply_left]
      by_cases same : i = child
      · rw [same, Equiv.swap_apply_right]
        exact outOfOrder.le
      · rw [Equiv.swap_apply_of_ne_of_ne (by omega) same]
        exact lowest i iPositive below here
    · rw [Equiv.swap_apply_of_ne_of_ne here notChild]
      by_cases same : i = hole
      · rw [same, Equiv.swap_apply_left]
        exact ordered.across (same ▸ iPositive) child positive inside isChild
      · have notSelf : i ≠ child := fun self => here (self ▸ isChild)
        rw [Equiv.swap_apply_of_ne_of_ne same notSelf]
        exact ordered.except i iPositive below here
  · intro _ i iPositive below grandchild
    have higher := parent_lt iPositive
    rw [isChild, Equiv.swap_apply_left, Equiv.swap_apply_of_ne_of_ne (by omega) (by omega)]
    have inOrder := ordered.except i iPositive below (by omega)
    rwa [grandchild] at inOrder

theorem OrderedBelow.ordered (ordered : OrderedBelow size rank hole)
    (inOrder : forall i, 0 < i -> i < size -> parent i = hole -> rank hole ≤ rank i) :
    Ordered size rank := by
  intro i positive below
  by_cases child : parent i = hole
  · rw [child]
    exact inOrder i positive below child
  · exact ordered.except i positive below child

end HeapOrder

end Prevail
