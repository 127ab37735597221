import Mathlib

namespace Prevail

universe u

/-!
# Finite ordered sets

A finite set over a linear order, kept as the strictly increasing list of its
elements.  Iteration therefore has one order, two sets with the same elements
are equal, and every operation evaluates.
-/

/-- A finite set with its elements listed in increasing order. -/
structure OrderedSet (A : Type u) [LinearOrder A] where
  elements : List A
  sorted : elements.Pairwise (· < ·)

namespace OrderedSet

variable {A : Type u} [LinearOrder A]

/-- Insert into a list that is kept in increasing order. -/
def insertList (item : A) : List A -> List A
  | [] => [item]
  | first :: rest =>
      if item < first then item :: first :: rest
      else if first < item then first :: insertList item rest
      else first :: rest

theorem mem_insertList {item other : A} {list : List A} :
    other ∈ insertList item list ↔ other = item ∨ other ∈ list := by
  induction list with
  | nil => simp [insertList]
  | cons first rest inductionHypothesis =>
      unfold insertList
      split
      · simp
      · split
        · simp only [List.mem_cons, inductionHypothesis]
          tauto
        · rename_i notLess notGreater
          have same : item = first := le_antisymm (not_lt.mp notGreater) (not_lt.mp notLess)
          subst same
          simp

theorem sorted_insertList {item : A} {list : List A} (sorted : list.Pairwise (· < ·)) :
    (insertList item list).Pairwise (· < ·) := by
  induction list with
  | nil => simp [insertList]
  | cons first rest inductionHypothesis =>
      rcases List.pairwise_cons.mp sorted with ⟨below, restSorted⟩
      unfold insertList
      split
      · rename_i less
        refine List.pairwise_cons.mpr ⟨?_, sorted⟩
        intro other member
        rcases List.mem_cons.mp member with same | later
        · exact same ▸ less
        · exact less.trans (below other later)
      · split
        · rename_i greater
          refine List.pairwise_cons.mpr ⟨?_, inductionHypothesis restSorted⟩
          intro other member
          rcases mem_insertList.mp member with same | later
          · exact same ▸ greater
          · exact below other later
        · exact sorted

instance : Membership A (OrderedSet A) where
  mem set item := item ∈ set.elements

instance decidableMem (item : A) (set : OrderedSet A) : Decidable (item ∈ set) :=
  inferInstanceAs (Decidable (item ∈ set.elements))

instance : DecidableEq (OrderedSet A) := fun left right =>
  decidable_of_iff (left.elements = right.elements) (by cases left; cases right; simp)

/-- The set without elements. -/
def empty : OrderedSet A := ⟨[], List.Pairwise.nil⟩

/-- The set with one element. -/
def singleton (item : A) : OrderedSet A := ⟨[item], by simp⟩

/-- The set with an element added. -/
def insert (set : OrderedSet A) (item : A) : OrderedSet A :=
  ⟨insertList item set.elements, sorted_insertList set.sorted⟩

/-- The set with an element removed. -/
def erase (set : OrderedSet A) (item : A) : OrderedSet A :=
  ⟨set.elements.filter (fun other => decide (other ≠ item)), set.sorted.filter _⟩

/-- The least element. -/
def least? (set : OrderedSet A) : Option A := set.elements.head?

theorem mem_def {set : OrderedSet A} {item : A} : item ∈ set ↔ item ∈ set.elements := Iff.rfl

@[simp] theorem not_mem_empty (item : A) : item ∉ (empty : OrderedSet A) := List.not_mem_nil

@[simp] theorem mem_singleton {item other : A} : other ∈ singleton item ↔ other = item :=
  List.mem_singleton

@[simp] theorem mem_insert {set : OrderedSet A} {item other : A} :
    other ∈ set.insert item ↔ other = item ∨ other ∈ set := mem_insertList

@[simp] theorem mem_erase {set : OrderedSet A} {item other : A} :
    other ∈ set.erase item ↔ other ∈ set ∧ other ≠ item := by
  rw [mem_def, erase, List.mem_filter, decide_eq_true_eq]
  rfl

theorem nodup (set : OrderedSet A) : set.elements.Nodup := by
  refine set.sorted.imp ?_
  intro first second less same
  exact lt_irrefl _ (same ▸ less)

@[ext] theorem ext {left right : OrderedSet A} (same : forall item, item ∈ left ↔ item ∈ right) :
    left = right := by
  have elements : left.elements = right.elements := by
    have perm : left.elements.Perm right.elements :=
      (List.perm_ext_iff_of_nodup left.nodup right.nodup).mpr same
    exact List.Perm.eq_of_pairwise
      (fun first second _ _ less greater => absurd greater (lt_asymm less))
      left.sorted right.sorted perm
  cases left
  cases right
  cases elements
  rfl

theorem least?_eq_none {set : OrderedSet A} : set.least? = none ↔ forall item, item ∉ set := by
  rw [least?, List.head?_eq_none_iff]
  constructor
  · intro empty item member
    rw [mem_def, empty] at member
    cases member
  · exact fun none => List.eq_nil_iff_forall_not_mem.mpr none

/-- The least element is a member below all others. -/
theorem least?_eq_some {set : OrderedSet A} {item : A} (found : set.least? = some item) :
    item ∈ set ∧ forall other, other ∈ set -> item ≤ other := by
  rcases set with ⟨elements, sorted⟩
  cases elements with
  | nil => cases found
  | cons first rest =>
      cases found
      refine ⟨List.mem_cons_self, ?_⟩
      intro other member
      rcases List.mem_cons.mp member with same | later
      · exact same ▸ le_rfl
      · exact ((List.pairwise_cons.mp sorted).1 other later).le

end OrderedSet

end Prevail
